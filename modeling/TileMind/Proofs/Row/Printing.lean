import TileMind.Row.Reader

/-!
# TileMind.Proofs.Row.Printing

Writing a tree as tokens, and reading it back.

`Expr.write` puts an operand in parentheses only where its own operator binds more weakly than its
place asks for. What is written is read as the same tree but for the marks of its nodes, and nothing
is reported.

An operand can be read in three ways, each of which says more about what may follow it:

* `Spine`: by `readExpr`, which comes to stand before the operators that follow the operand.
* `Operand`: by `readUnary`, which is done with it.
* `Stem`: by `readUnary`, which comes to stand before the field accesses that follow it.

The main result is `Row.readAll_write`.
-/

namespace TileMind
namespace Row

/-! ## Trees without marks -/

mutual

def Expr.unmarked : Expr → Expr
  | .binary _ op left right => .binary default op left.unmarked right.unmarked
  | .unary _ op operand => .unary default op operand.unmarked
  | .literal _ value => .literal default value
  | .variable _ name => .variable default name
  | .field _ object name => .field default object.unmarked name
  | .assign _ target value => .assign default target.unmarked value.unmarked
  | .parameter _ tile value => .parameter default tile value.unmarked
  | .modifier _ tile count => .modifier default tile count
  | .call _ tile args => .call default tile args.unmarked
  | .empty _ => .empty default
  | .error _ message => .error default message
termination_by structural e => e

def Args.unmarked : Args → Args
  | .nil => .nil
  | .cons slot value rest => .cons slot value.unmarked rest.unmarked
termination_by structural args => args

end

theorem Expr.isPlace_unmarked (e : Expr) : e.unmarked.isPlace = e.isPlace := by
  cases e <;> rfl

/-! ## Writing -/

def TokenKind.token (kind : TokenKind) : Token := { kind := kind, literal := kind.name }

/-- The token without its place. -/
def Token.unplaced (t : Token) : Token := { t with pos := {} }

theorem Token.kind_of_unplaced {t s : Token} (h : t.unplaced = s) : t.kind = s.kind := by
  rw [← h, unplaced]

theorem Token.literal_of_unplaced {t s : Token} (h : t.unplaced = s) : t.literal = s.literal := by
  rw [← h, unplaced]

def BinaryOp.tokenKind : BinaryOp → TokenKind
  | .or => .or
  | .and => .and
  | .eq => .eq
  | .ne => .notEq
  | .lt => .less
  | .le => .lessEq
  | .gt => .greater
  | .ge => .greaterEq
  | .add => .plus
  | .sub => .minus
  | .mul => .star
  | .div => .slash
  | .mod => .percent

/-- From weak to strong: or, and, equality, comparison, sums, products. -/
def BinaryOp.strength : BinaryOp → Nat
  | .or => 2
  | .and => 3
  | .eq | .ne => 4
  | .lt | .le | .gt | .ge => 5
  | .add | .sub => 6
  | .mul | .div | .mod => 7

def UnaryOp.tokenKind : UnaryOp → TokenKind
  | .not => .bang
  | .neg => .minus

/-- The strength of the unary operators, above that of all others. -/
def unaryPower : Nat := 8

/-- The strength of field access, and of what has no operator. -/
def fieldPower : Nat := 9

/-- How strongly the outermost operator of a tree binds. -/
def Expr.strength : Expr → Nat
  | .assign _ _ _ => assignPower
  | .binary _ op _ _ => op.strength
  | .unary _ _ _ => unaryPower
  | _ => fieldPower

def literalToken (numeral : Float → String) (value : Scalar) : Token :=
  match value.kind with
  | .number => { kind := .number, literal := numeral value.num }
  | .string => { kind := .string, literal := value.text }
  | .boolean => if value.num != 0.0 then TokenKind.truth.token else TokenKind.falsity.token
  | _ => TokenKind.nil.token

@[simp] theorem literalToken_number (numeral : Float → String) (x : Float) :
    literalToken numeral (.number x) = { kind := .number, literal := numeral x } := rfl

@[simp] theorem literalToken_string (numeral : Float → String) (text : String) :
    literalToken numeral (.string text) = { kind := .string, literal := text } := rfl

@[simp] theorem literalToken_bool (numeral : Float → String) (b : Bool) :
    literalToken numeral (.bool b) = if b then TokenKind.truth.token else TokenKind.falsity.token := by
  cases b <;> rfl

@[simp] theorem literalToken_nil (numeral : Float → String) :
    literalToken numeral .nil = TokenKind.nil.token := rfl

/-- Tokens of `e` at a place that asks for operators at least as strong as `power`. -/
def enclose (power : Nat) (e : Expr) (ts : List Token) : List Token :=
  if e.strength < power then TokenKind.lparen.token :: ts ++ [TokenKind.rparen.token] else ts

/-- The tokens of a tree, with parentheses only where binding strengths ask for them: operators of
equal strength group to the left, assignments to the right. The target of an assignment has no
operator but field access and its value may have any, so neither is put in parentheses. Calls are
not written. -/
def Expr.write (numeral : Float → String) : Expr → List Token
  | .literal _ value => [literalToken numeral value]
  | .variable _ name => [{ kind := .variable, literal := name }]
  | .field _ object name =>
    enclose fieldPower object (object.write numeral) ++
      [TokenKind.dot.token, { kind := .word, literal := name }]
  | .unary _ op operand =>
    op.tokenKind.token :: enclose unaryPower operand (operand.write numeral)
  | .binary _ op left right =>
    enclose op.strength left (left.write numeral) ++
      op.tokenKind.token :: enclose (op.strength + 1) right (right.write numeral)
  | .assign _ target value =>
    target.write numeral ++ TokenKind.assign.token :: value.write numeral
  | _ => []
termination_by structural e => e

/-- The trees of operators, field accesses, variables and literals. A number is one that its numeral
denotes. -/
inductive Expr.IsFormula (numeral : Float → String) : Expr → Prop where
  | number {m : Mark} {x : Float} (read : Decimal.read? (numeral x) = some x) (finite : x.isFinite) :
      IsFormula numeral (.literal m (.number x))
  | string {m : Mark} {text : String} : IsFormula numeral (.literal m (.string text))
  | bool {m : Mark} {b : Bool} : IsFormula numeral (.literal m (.bool b))
  | nil {m : Mark} : IsFormula numeral (.literal m .nil)
  | variable {m : Mark} {name : String} : IsFormula numeral (.variable m name)
  | field {m : Mark} {object : Expr} {name : String} :
      IsFormula numeral object → IsFormula numeral (.field m object name)
  | unary {m : Mark} {op : UnaryOp} {operand : Expr} :
      IsFormula numeral operand → IsFormula numeral (.unary m op operand)
  | binary {m : Mark} {op : BinaryOp} {left right : Expr} :
      IsFormula numeral left → IsFormula numeral right → IsFormula numeral (.binary m op left right)
  | assign {m : Mark} {target value : Expr} (place : target.isPlace) :
      IsFormula numeral target → IsFormula numeral value → IsFormula numeral (.assign m target value)

/-! ## What may follow an operand -/

/-- How strongly a token takes hold of the operand before it. -/
def TokenKind.pull : TokenKind → Nat
  | .dot => fieldPower
  | .assign => assignPower
  | kind => ((binaryOp? kind).map Prod.snd).getD 0

/-- The strongest pull that leaves a tree whole. An assignment gives way to every operator, as its
value extends as far as it can. -/
def Expr.hold : Expr → Nat
  | .assign _ _ _ => 0
  | .binary _ op _ _ => op.strength
  | _ => unaryPower

theorem binaryOp?_tokenKind (op : BinaryOp) : binaryOp? op.tokenKind = some (op, op.strength) := by
  cases op <;> rfl

theorem BinaryOp.tokenKind_ne_assign (op : BinaryOp) : op.tokenKind ≠ .assign := by
  cases op <;> decide

theorem BinaryOp.pull_tokenKind (op : BinaryOp) : op.tokenKind.pull = op.strength := by
  cases op <;> rfl

theorem BinaryOp.strength_bounds (op : BinaryOp) :
    assignPower < op.strength ∧ op.strength < unaryPower := by
  cases op <;> decide

theorem pull_of_binaryOp? {kind : TokenKind} {op : BinaryOp} {strength : Nat}
    (h : binaryOp? kind = some (op, strength)) : kind.pull = strength := by
  cases kind <;> cases h <;> rfl

theorem ne_dot_of_pull {kind : TokenKind} (h : kind.pull ≤ unaryPower) : kind ≠ .dot := by
  rintro rfl
  revert h
  decide

theorem Expr.le_hold {e : Expr} {power : Nat} (hlow : assignPower < power)
    (hhigh : power ≤ unaryPower) (h : power ≤ e.strength) : power ≤ e.hold := by
  cases e <;> first | exact hhigh | exact h | (simp only [strength] at h; omega)

/-- Operators that pull less than `power` are left alone. -/
theorem readOperators_of_pull {c : Catalog} {rule : String} {depth power : Nat} {left : Expr}
    {r : Reader} (h : r.current.kind.pull < power) :
    readOperators c rule depth power left r = (left, r) := by
  cases depth with
  | zero => rw [readOperators]
  | succ depth =>
    rw [readOperators]
    by_cases hassign : r.current.kind = .assign
    · have : assignPower < power := by simpa [hassign, TokenKind.pull] using h
      simp [hassign, this]
    · simp only [hassign, if_false]
      cases hop : binaryOp? r.current.kind with
      | none => rfl
      | some found =>
        have : found.2 < power := by simpa [pull_of_binaryOp? hop] using h
        simp [this]

/-- What is no point does not go on with a field access. -/
theorem readFields_of_pull {bound : Nat} {e : Expr} {r : Reader}
    (h : r.current.kind.pull ≤ unaryPower) : readFields bound e r = (e, r) := by
  cases bound with
  | zero => rw [readFields]
  | succ bound => simp [readFields, ne_dot_of_pull h]

/-! ## Reading an operand -/

section

variable (c : Catalog) (rule : String)

/-- `r'` is `r` with everything before `more` read and nothing reported. -/
structure Reader.Past (r r' : Reader) (more : List Token) : Prop where
  rest : r'.rest = more
  last : r'.last = r.last
  diags : r'.diags = r.diags

/-- `ts` is read as `e` up to the field accesses that follow. -/
def Stem (e : Expr) (ts : List Token) : Prop :=
  ∀ (depth : Nat) (r : Reader) (more : List Token), r.rest = ts ++ more → 3 * ts.length ≤ depth + 1 →
    ∃ (bound : Nat) (e' : Expr) (r' : Reader), readUnary c rule depth r = readFields bound e' r' ∧
      more.length ≤ bound ∧ e'.unmarked = e.unmarked ∧ r.Past r' more

/-- `ts` is read as `e` where no field access follows. -/
def Operand (e : Expr) (ts : List Token) : Prop :=
  ∀ (depth : Nat) (r : Reader) (more : List Token), r.rest = ts ++ more → 3 * ts.length ≤ depth + 1 →
    (more.headD r.last).kind.pull ≤ unaryPower →
    ∃ (e' : Expr) (r' : Reader), readUnary c rule depth r = (e', r') ∧
      e'.unmarked = e.unmarked ∧ r.Past r' more

/-- `ts` is read as `e` up to the operators that follow, by a reader that looks for operators no
stronger than `top`, where what follows pulls no more than `hold`. -/
def Spine (top hold : Nat) (e : Expr) (ts : List Token) : Prop :=
  ∀ (depth power : Nat) (r : Reader) (more : List Token), r.rest = ts ++ more → 3 * ts.length ≤ depth →
    power ≤ top → (more.headD r.last).kind.pull ≤ hold →
    ∃ (depth' : Nat) (e' : Expr) (r' : Reader),
      readExpr c rule depth power r = readOperators c rule depth' power e' r' ∧
      depth ≤ depth' + ts.length ∧ e'.unmarked = e.unmarked ∧ r.Past r' more

end

section

variable {c : Catalog} {rule : String} {e : Expr} {ts more : List Token}

theorem Reader.Past.current {r r' : Reader} (h : r.Past r' more) : r'.current = more.headD r.last := by
  simp [Reader.current, h.rest, h.last]

theorem Stem.operand (h : Stem c rule e ts) : Operand c rule e ts := by
  intro depth r more hrest hdepth hpull
  obtain ⟨bound, e', r', hread, -, htree, hpast⟩ := h depth r more hrest hdepth
  rw [← hpast.current] at hpull
  exact ⟨e', r', by rw [hread, readFields_of_pull hpull], htree, hpast⟩

theorem Operand.spine (hne : ts ≠ []) (h : Operand c rule e ts) (top : Nat) :
    Spine c rule top unaryPower e ts := by
  intro depth power r more hrest hdepth _ hpull
  have hlength : 0 < ts.length := List.length_pos_iff.mpr hne
  obtain ⟨depth, rfl⟩ : ∃ d, depth = d + 1 := ⟨depth - 1, by omega⟩
  obtain ⟨e', r', hread, htree, hpast⟩ := h depth r more hrest hdepth hpull
  refine ⟨depth, e', r', ?_, by omega, htree, hpast⟩
  rw [readExpr, hread]

/-- A spine that ends before operators too weak for its reader is read completely. -/
theorem Spine.readExpr_eq {top hold depth power : Nat} {r : Reader} (h : Spine c rule top hold e ts)
    (hrest : r.rest = ts ++ more) (hdepth : 3 * ts.length ≤ depth) (htop : power ≤ top)
    (hhold : (more.headD r.last).kind.pull ≤ hold) (hpull : (more.headD r.last).kind.pull < power) :
    ∃ e' r', readExpr c rule depth power r = (e', r') ∧ e'.unmarked = e.unmarked ∧ r.Past r' more := by
  obtain ⟨depth', e', r', hread, -, htree, hpast⟩ := h depth power r more hrest hdepth htop hhold
  rw [← hpast.current] at hpull
  exact ⟨e', r', by rw [hread, readOperators_of_pull hpull], htree, hpast⟩

theorem Reader.current_of_rest {r : Reader} {t : Token} (h : r.rest = t :: more) : r.current = t := by
  simp [Reader.current, h]

theorem Reader.rest_advance {r : Reader} {t : Token} (h : r.rest = t :: more) :
    r.advance.rest = more := by
  simp [Reader.advance, h]

/-- Parentheses make an operand of every tree. -/
theorem Spine.parenthesized {top hold : Nat} {opening closing : Token} (h : Spine c rule top hold e ts)
    (htop : assignPower ≤ top) (hopen : opening.kind = .lparen) (hclose : closing.kind = .rparen) :
    Stem c rule e (opening :: ts ++ [closing]) := by
  intro depth r more hrest hdepth
  simp only [List.cons_append, List.append_assoc, List.length_cons, List.length_append,
    List.nil_append, List.length_nil] at hrest hdepth
  obtain ⟨depth, rfl⟩ : ∃ d, depth = d + 2 := ⟨depth - 2, by omega⟩
  have hpull : ((closing :: more).headD r.advance.last).kind.pull = 0 := by
    rw [List.headD_cons, hclose]
    rfl
  obtain ⟨e', r', hread, htree, hpast⟩ := h.readExpr_eq (Reader.rest_advance hrest)
    (show 3 * ts.length ≤ depth by omega) htop (by rw [hpull]; exact Nat.zero_le _)
    (by rw [hpull]; decide)
  refine ⟨more.length, e', r'.advance, ?_, Nat.le_refl _, htree, ?_⟩
  · have hcurrent : r'.current.kind = .rparen := by rw [Reader.current_of_rest hpast.rest, hclose]
    simp [readUnary, readPrimary, Reader.current_of_rest hrest, hopen, hread, hcurrent,
      Reader.rest_advance hpast.rest]
  · exact ⟨Reader.rest_advance hpast.rest, hpast.last, hpast.diags⟩

/-- The readings of a tree that the strength of its outermost operator admits. -/
structure Reads (c : Catalog) (rule : String) (e : Expr) (ts : List Token) : Prop where
  ne_nil : ts ≠ []
  stem : fieldPower ≤ e.strength → Stem c rule e ts
  operand : unaryPower ≤ e.strength → Operand c rule e ts
  spine : Spine c rule e.strength e.hold e ts

theorem Reads.of_stem (hstrength : e.strength = fieldPower) (hhold : e.hold = unaryPower)
    (hne : ts ≠ []) (h : Stem c rule e ts) : Reads c rule e ts :=
  ⟨hne, fun _ => h, fun _ => h.operand, by rw [hstrength, hhold]; exact h.operand.spine hne _⟩

theorem Spine.mono {top top' hold hold' : Nat} (htop : top' ≤ top) (hhold : hold' ≤ hold)
    (h : Spine c rule top hold e ts) : Spine c rule top' hold' e ts :=
  fun depth power r more hrest hdepth hpower hpull =>
    h depth power r more hrest hdepth (Nat.le_trans hpower htop) (Nat.le_trans hpull hhold)

theorem Expr.assignPower_le_strength (e : Expr) : assignPower ≤ e.strength := by
  cases e with
  | binary _ op _ _ => exact Nat.le_of_lt op.strength_bounds.1
  | _ => simp [strength, assignPower, unaryPower, fieldPower]

theorem Expr.unaryPower_le_strength (e : Expr) (h : e.isPlace) : unaryPower ≤ e.strength := by
  cases e with
  | «variable» | field => exact (show unaryPower ≤ fieldPower by decide)
  | _ => cases h

/-! ## Enclosed operands -/

section

variable {power : Nat} {ws : List Token}
  (ih : ∀ ts : List Token, ts.map Token.unplaced = ws → Reads c rule e ts)
include ih

/-- An operand stands as it is where it binds strongly enough, and in parentheses elsewhere. -/
theorem reads_or_stem (h : ts.map Token.unplaced = enclose power e ws) :
    (power ≤ e.strength ∧ Reads c rule e ts) ∨ (Stem c rule e ts ∧ ts ≠ []) := by
  unfold enclose at h
  split at h
  · obtain ⟨_, _, rfl, hfront, hclosing⟩ := List.map_eq_append_iff.mp h
    obtain ⟨opening, body, rfl, hopen, hbody⟩ := List.map_eq_cons_iff.mp hfront
    obtain ⟨closing, rfl, hclose⟩ := List.map_eq_singleton_iff.mp hclosing
    have hkinds : opening.kind = .lparen ∧ closing.kind = .rparen :=
      ⟨Token.kind_of_unplaced hopen, Token.kind_of_unplaced hclose⟩
    exact .inr ⟨(ih body hbody).spine.parenthesized e.assignPower_le_strength hkinds.1 hkinds.2,
      List.cons_ne_nil _ _⟩
  · exact .inl ⟨by omega, ih ts h⟩

theorem stem_of_enclose (h : ts.map Token.unplaced = enclose fieldPower e ws) : Stem c rule e ts := by
  obtain ⟨hpower, hreads⟩ | ⟨hstem, -⟩ := reads_or_stem ih h
  · exact hreads.stem hpower
  · exact hstem

theorem operand_of_enclose (h : ts.map Token.unplaced = enclose unaryPower e ws) :
    Operand c rule e ts := by
  obtain ⟨hpower, hreads⟩ | ⟨hstem, -⟩ := reads_or_stem ih h
  · exact hreads.operand hpower
  · exact hstem.operand

/-- An operand of a binary operator stays whole before an operator that is no stronger. -/
theorem spine_of_enclose (hlow : assignPower < power) (hhigh : power ≤ unaryPower)
    (h : ts.map Token.unplaced = enclose power e ws) : Spine c rule power power e ts := by
  obtain ⟨hpower, hreads⟩ | ⟨hstem, hne⟩ := reads_or_stem ih h
  · exact hreads.spine.mono hpower (Expr.le_hold hlow hhigh hpower)
  · exact (hstem.operand.spine hne power).mono (Nat.le_refl _) hhigh

end

/-! ## One constructor at a time -/

theorem stem_token {t : Token} (hbang : t.kind ≠ .bang) (hminus : t.kind ≠ .minus)
    (h : ∀ (depth : Nat) (r : Reader) (more : List Token), r.rest = t :: more →
      ∃ e' r', readPrimary c rule (depth + 1) r = (e', r') ∧
        e'.unmarked = e.unmarked ∧ r.Past r' more) :
    Stem c rule e [t] := by
  intro depth r more hrest hdepth
  obtain ⟨depth, rfl⟩ : ∃ d, depth = d + 2 := ⟨depth - 2, by simp at hdepth; omega⟩
  obtain ⟨e', r', hread, htree, hpast⟩ := h depth r more hrest
  refine ⟨more.length, e', r', ?_, Nat.le_refl _, htree, hpast⟩
  simp [readUnary, Reader.current_of_rest hrest, hread, hpast.rest]

theorem stem_literal {t : Token} {m : Mark} {value : Scalar}
    (h : ∀ (depth : Nat) (r : Reader) (more : List Token), r.rest = t :: more →
      readPrimary c rule (depth + 1) r = readLiteral r value)
    (hbang : t.kind ≠ .bang) (hminus : t.kind ≠ .minus) :
    Stem c rule (.literal m value) [t] := by
  refine stem_token hbang hminus fun depth r more hrest => ?_
  rw [h depth r more hrest]
  exact ⟨_, _, rfl, rfl, Reader.rest_advance hrest, rfl, rfl⟩

theorem stem_field {object : Expr} {name : String} {m : Mark} {dot word : Token}
    (h : Stem c rule object ts) (hdot : dot.kind = .dot) (hword : word.kind = .word)
    (hname : word.literal = name) : Stem c rule (.field m object name) (ts ++ [dot, word]) := by
  intro depth r more hrest hdepth
  simp only [List.append_assoc, List.cons_append, List.nil_append, List.length_append,
    List.length_cons, List.length_nil] at hrest hdepth
  obtain ⟨bound, e', r', hread, hbound, htree, hpast⟩ :=
    h depth r (dot :: word :: more) hrest (by omega)
  simp only [List.length_cons] at hbound
  obtain ⟨bound, rfl⟩ : ∃ b, bound = b + 1 := ⟨bound - 1, by omega⟩
  refine ⟨bound, .field ⟨r'.lastId + 1, dot.pos⟩ e' name,
    { r' with rest := more, lastId := r'.lastId + 1 }, ?_, by omega, ?_, rfl, hpast.last, hpast.diags⟩
  · rw [hread, readFields]
    simp [Reader.current, Reader.following, Reader.advance, Reader.mark, hpast.rest, hdot, hword, hname]
  · simp [Expr.unmarked, htree]

theorem operand_unary {operand : Expr} {op : UnaryOp} {m : Mark} {t : Token}
    (h : Operand c rule operand ts) (hkind : t.kind = op.tokenKind) :
    Operand c rule (.unary m op operand) (t :: ts) := by
  intro depth r more hrest hdepth hpull
  simp only [List.cons_append, List.length_cons] at hrest hdepth
  obtain ⟨depth, rfl⟩ : ∃ d, depth = d + 1 := ⟨depth - 1, by omega⟩
  let fresh : Reader := (r.advance.mark t.pos).2
  obtain ⟨e', r', hread, htree, hpast⟩ := h depth fresh more
    (show fresh.rest = ts ++ more from Reader.rest_advance hrest) (by omega) hpull
  refine ⟨.unary ⟨r.lastId + 1, t.pos⟩ op e', r', ?_, by simp [Expr.unmarked, htree],
    hpast.rest, hpast.last, hpast.diags⟩
  rw [readUnary]
  cases op <;>
    simp only [Reader.current_of_rest hrest, hkind, UnaryOp.tokenKind] <;>
    exact congrArg (fun p => (Expr.unary _ _ p.1, p.2)) hread

theorem spine_binary {left right : Expr} {op : BinaryOp} {m : Mark} {t : Token} {rs : List Token}
    (hleft : Spine c rule op.strength op.strength left ts)
    (hright : Spine c rule (op.strength + 1) op.strength right rs) (hkind : t.kind = op.tokenKind) :
    Spine c rule op.strength op.strength (.binary m op left right) (ts ++ t :: rs) := by
  intro depth power r more hrest hdepth hpower hpull
  simp only [List.append_assoc, List.cons_append, List.length_append, List.length_cons] at hrest hdepth
  obtain ⟨depth₁, left', r₁, hread₁, hdepth₁, htree₁, hpast₁⟩ :=
    hleft depth power r (t :: (rs ++ more)) hrest (by omega) hpower
      (Nat.le_of_eq (by rw [List.headD_cons, hkind, op.pull_tokenKind]))
  obtain ⟨depth₁, rfl⟩ : ∃ d, depth₁ = d + 1 := ⟨depth₁ - 1, by omega⟩
  have hlast : r₁.advance.last = r.last := hpast₁.last
  obtain ⟨right', r₂, hread₂, htree₂, hpast₂⟩ :=
    hright.readExpr_eq (Reader.rest_advance hpast₁.rest) (show 3 * rs.length ≤ depth₁ by omega)
      (Nat.le_refl _) (by rwa [hlast]) (by rw [hlast]; omega)
  refine ⟨depth₁, .binary ⟨r₂.lastId + 1, t.pos⟩ op left' right', (r₂.mark t.pos).2, ?_, ?_, ?_, ?_⟩
  · rw [hread₁, readOperators]
    simp only [Reader.current_of_rest hpast₁.rest, hkind, op.tokenKind_ne_assign, if_false,
      binaryOp?_tokenKind, Nat.not_lt.mpr hpower, hread₂]
    rfl
  · simp only [List.length_append, List.length_cons]
    omega
  · simp [Expr.unmarked, htree₁, htree₂]
  · exact ⟨hpast₂.rest, hpast₂.last.trans hpast₁.last, hpast₂.diags.trans hpast₁.diags⟩

theorem spine_assign {target value : Expr} {m : Mark} {t : Token} {vs : List Token}
    (htarget : Spine c rule assignPower unaryPower target ts) (hplace : target.isPlace)
    (hvalue : Spine c rule assignPower 0 value vs) (hkind : t.kind = .assign) :
    Spine c rule assignPower 0 (.assign m target value) (ts ++ t :: vs) := by
  intro depth power r more hrest hdepth hpower hpull
  simp only [List.append_assoc, List.cons_append, List.length_append, List.length_cons] at hrest hdepth
  obtain ⟨depth₁, target', r₁, hread₁, hdepth₁, htree₁, hpast₁⟩ :=
    htarget depth power r (t :: (vs ++ more)) hrest (by omega) hpower
      (by rw [List.headD_cons, hkind]; decide)
  obtain ⟨depth₁, rfl⟩ : ∃ d, depth₁ = d + 1 := ⟨depth₁ - 1, by omega⟩
  have hlast : r₁.advance.last = r.last := hpast₁.last
  obtain ⟨value', r₂, hread₂, htree₂, hpast₂⟩ :=
    hvalue.readExpr_eq (Reader.rest_advance hpast₁.rest) (show 3 * vs.length ≤ depth₁ by omega)
      (Nat.le_refl _) (by rwa [hlast]) (by rw [hlast]; exact Nat.lt_succ_of_le hpull)
  have hplace' : target'.isPlace = true := by
    rw [← target'.isPlace_unmarked, htree₁, target.isPlace_unmarked, hplace]
  refine ⟨depth₁, .assign ⟨r₂.lastId + 1, t.pos⟩ target' value', (r₂.mark t.pos).2, ?_, ?_, ?_, ?_⟩
  · rw [hread₁, readOperators]
    simp only [Reader.current_of_rest hpast₁.rest, hkind, if_true, Nat.not_lt.mpr hpower, if_false,
      hread₂, hplace']
    rfl
  · simp only [List.length_append, List.length_cons]
    omega
  · simp [Expr.unmarked, htree₁, htree₂]
  · exact ⟨hpast₂.rest, hpast₂.last.trans hpast₁.last, hpast₂.diags.trans hpast₁.diags⟩

/-! ## Whole trees -/

theorem reads_literal {numeral : Float → String} {m : Mark} {value : Scalar}
    (h : Expr.IsFormula numeral (.literal m value)) (ts : List Token)
    (hts : ts.map Token.unplaced = (Expr.literal m value).write numeral) :
    Reads c rule (.literal m value) ts := by
  obtain ⟨t, rfl, ht⟩ := List.map_eq_singleton_iff.mp hts
  have hkind : t.kind = (literalToken numeral value).kind := Token.kind_of_unplaced ht
  have htext : t.literal = (literalToken numeral value).literal := Token.literal_of_unplaced ht
  refine .of_stem rfl rfl (List.cons_ne_nil _ _) ?_
  have hplain : t.kind ≠ .bang ∧ t.kind ≠ .minus := by
    cases h with
    | @bool _ b => cases b <;> simp [hkind, TokenKind.token]
    | _ => simp [hkind, TokenKind.token]
  refine stem_literal (fun depth r more hrest => ?_) hplain.1 hplain.2
  rw [readPrimary]
  simp only [Reader.current_of_rest hrest, hkind, htext]
  cases h with
  | number read finite => simp [read, Option.filter, finite]
  | string => rfl
  | @bool _ b => cases b <;> rfl
  | nil => rfl

/-- The tokens of a tree are read as that tree. -/
theorem reads_write {numeral : Float → String} {e : Expr} (h : e.IsFormula numeral) :
    ∀ ts : List Token, ts.map Token.unplaced = e.write numeral → Reads c rule e ts := by
  induction h with
  | number read finite => exact reads_literal (.number read finite)
  | string => exact reads_literal .string
  | bool => exact reads_literal .bool
  | nil => exact reads_literal .nil
  | @«variable» m name =>
    intro ts hts
    obtain ⟨t, rfl, ht⟩ := List.map_eq_singleton_iff.mp hts
    have hkind : t.kind = .variable := Token.kind_of_unplaced ht
    have htext : t.literal = name := Token.literal_of_unplaced ht
    refine .of_stem rfl rfl (List.cons_ne_nil _ _) ?_
    refine stem_token (by simp [hkind]) (by simp [hkind]) fun depth r more hrest => ?_
    simp only [readPrimary, Reader.current_of_rest hrest, hkind, htext]
    exact ⟨_, _, rfl, rfl, Reader.rest_advance hrest, rfl, rfl⟩
  | @field m object name _ ih =>
    intro ts hts
    obtain ⟨os, _, rfl, hobject, hrest⟩ := List.map_eq_append_iff.mp hts
    obtain ⟨dot, _, rfl, hdot, hrest⟩ := List.map_eq_cons_iff.mp hrest
    obtain ⟨word, rfl, hword⟩ := List.map_eq_singleton_iff.mp hrest
    exact .of_stem rfl rfl (by simp) (stem_field (stem_of_enclose ih hobject)
      (Token.kind_of_unplaced hdot) (Token.kind_of_unplaced hword) (Token.literal_of_unplaced hword))
  | @unary m op operand _ ih =>
    intro ts hts
    obtain ⟨t, os, rfl, ht, hoperand⟩ := List.map_eq_cons_iff.mp hts
    have h : Operand c rule (.unary m op operand) (t :: os) :=
      operand_unary (operand_of_enclose ih hoperand) (Token.kind_of_unplaced ht)
    exact ⟨List.cons_ne_nil _ _, fun h => absurd h (show ¬ fieldPower ≤ unaryPower by decide),
      fun _ => h, h.spine (List.cons_ne_nil _ _) unaryPower⟩
  | @binary m op left right _ _ ihl ihr =>
    intro ts hts
    obtain ⟨ls, _, rfl, hleft, hrest⟩ := List.map_eq_append_iff.mp hts
    obtain ⟨t, rs, rfl, ht, hright⟩ := List.map_eq_cons_iff.mp hrest
    obtain ⟨hlow, hhigh⟩ := op.strength_bounds
    have hl := spine_of_enclose ihl hlow (Nat.le_of_lt hhigh) hleft
    have hr := spine_of_enclose ihr (Nat.lt_succ_of_lt hlow) hhigh hright
    refine ⟨by simp, fun h => ?_, fun h => ?_,
      spine_binary hl (hr.mono (Nat.le_refl _) (Nat.le_succ _)) (Token.kind_of_unplaced ht)⟩
    · exact absurd (Nat.lt_of_lt_of_le hhigh (Nat.le_trans (by decide) h)) (Nat.lt_irrefl _)
    · exact absurd (Nat.lt_of_lt_of_le hhigh h) (Nat.lt_irrefl _)
  | @assign m target value place _ _ iht ihv =>
    intro ts hts
    obtain ⟨ls, _, rfl, htarget, hrest⟩ := List.map_eq_append_iff.mp hts
    obtain ⟨t, vs, rfl, ht, hvalue⟩ := List.map_eq_cons_iff.mp hrest
    have hl : Spine c rule assignPower unaryPower target ls :=
      ((iht ls htarget).operand (target.unaryPower_le_strength place)).spine (iht ls htarget).ne_nil _
    have hv : Spine c rule assignPower 0 value vs :=
      (ihv vs hvalue).spine.mono value.assignPower_le_strength (Nat.zero_le _)
    exact ⟨by simp, fun h => absurd h (show ¬ fieldPower ≤ assignPower by decide),
      fun h => absurd h (show ¬ unaryPower ≤ assignPower by decide),
      spine_assign hl place hv (Token.kind_of_unplaced ht)⟩

/-- Reading undoes writing: the tokens of a tree of operators, wherever they stand, are read without
a diagnostic as the same tree but for the marks of its nodes. -/
theorem readAll_write {numeral : Float → String} {e : Expr} (h : e.IsFormula numeral) (r : Reader)
    (hrest : r.rest.map Token.unplaced = e.write numeral) (hlast : r.last.kind = .eof) :
    (r.readAll c rule).1.unmarked = e.unmarked ∧ (r.readAll c rule).2.diags = r.diags ∧
      (r.readAll c rule).2.rest = [] := by
  have hreads : Reads c rule e r.rest := reads_write h r.rest hrest
  have hpull : (([] : List Token).headD r.last).kind.pull = 0 := by
    simp [hlast, TokenKind.pull, binaryOp?]
  obtain ⟨e', r', hread, htree, hpast⟩ := hreads.spine.readExpr_eq (r.rest.append_nil.symm)
    (show 3 * r.rest.length ≤ 8 * r.rest.length + 8 by omega) e.assignPower_le_strength
    (by rw [hpull]; exact Nat.zero_le _) (by rw [hpull]; decide)
  simp [Reader.readAll, hreads.ne_nil, hread, htree, hpast.rest, hpast.diags]

end

/-- `$p.x = !($a = 2.5) && ($a || nil) == (2.5 - (2.5 - -$a)) * 2.5`. -/
def groupedFormula : Expr :=
  .assign default (.field default (.variable default "p") "x")
    (.binary default .and
      (.unary default .not (.assign default (.variable default "a") (.literal default (.number 2.5))))
      (.binary default .eq
        (.binary default .or (.variable default "a") (.literal default .nil))
        (.binary default .mul
          (.binary default .sub (.literal default (.number 2.5))
            (.binary default .sub (.literal default (.number 2.5))
              (.unary default .neg (.variable default "a"))))
          (.literal default (.number 2.5)))))

def groupedRow : String := "$p.x = !($a = 2.5) && ($a || nil) == (2.5 - (2.5 - -$a)) * 2.5"

theorem readAll_write_groupedFormula :
    ((Reader.start (Text.glyphs groupedRow) 0 []).readAll {} "").1.unmarked = groupedFormula.unmarked ∧
      ((Reader.start (Text.glyphs groupedRow) 0 []).readAll {} "").2.diags = [] ∧
      ((Reader.start (Text.glyphs groupedRow) 0 []).readAll {} "").2.rest = [] := by
  have hnumber : Expr.IsFormula (fun _ => "2.5") (.literal default (.number 2.5)) :=
    .number (by decide +kernel) (by decide +kernel)
  have hformula : groupedFormula.IsFormula fun _ => "2.5" := by
    refine .assign rfl (.field .variable) (.binary (.unary (.assign rfl .variable hnumber)) ?_)
    exact .binary (.binary .variable .nil)
      (.binary (.binary hnumber (.binary hnumber (.unary .variable))) hnumber)
  exact readAll_write hformula (Reader.start (Text.glyphs groupedRow) 0 []) (by decide +kernel)
    (by decide +kernel)

end Row
end TileMind
