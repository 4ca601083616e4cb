import TileMind.Proofs.Row.Reading

/-!
# TileMind.Proofs.Row.Progress

Reading gets on. A reader only drops tokens from the front and adds diagnostics at the end, and every turn of a
loop takes a token away, so that the recursion ends before its depth is used up.

* `start_of_tokens`: a row ends with its end.
* `Reading.onward`: what reading does to the row.
* `Suffices`: within a depth the recursion comes to its end.
* `suffices_of_cost`: it does within three levels for each token.
* `readsSame`: more depth than that changes nothing.
-/

namespace TileMind
namespace Row

/-! ## The end of a row -/

/-- The tokens of a row end with its end. -/
theorem exists_tokensFrom (skip : Nat) (gs : List Text.Glyph) (pos : Position) :
    ∃ ts last, tokensFrom skip gs pos = ts ++ [last] ∧ last.kind = TokenKind.eof := by
  induction gs generalizing skip pos with
  | nil => exact ⟨[], _, rfl, rfl⟩
  | cons g gs ih =>
    cases skip with
    | succ skip => exact ih skip _
    | zero =>
      rw [tokensFrom]
      split
      · exact ih 0 _
      · dsimp only
        split
        · rename_i heof
          exact ⟨[], _, rfl, heof⟩
        · obtain ⟨ts, last, hts, hlast⟩ := ih _ _
          exact ⟨_ :: ts, last, by rw [hts]; rfl, hlast⟩

theorem start_of_tokens (gs : List Text.Glyph) (lastId : Nat) (diags : Diagnostics) :
    tokens gs = (Reader.start gs lastId diags).rest ++ [(Reader.start gs lastId diags).last] ∧
      (Reader.start gs lastId diags).last.kind = .eof := by
  obtain ⟨ts, last, hts, hlast⟩ := exists_tokensFrom 0 gs ⟨0, 1, 1⟩
  simp [Reader.start, tokens, hts, hlast]

/-! ## Forwards only -/

/-- `r'` comes later in the same row than `r`. -/
structure Reader.Onward (r r' : Reader) : Prop where
  rest : r'.rest <:+ r.rest
  last : r'.last = r.last
  diags : r.diags <+: r'.diags

namespace Reader.Onward

variable {r r' r'' : Reader}

theorem refl (r : Reader) : r.Onward r := ⟨List.suffix_rfl, rfl, List.prefix_rfl⟩

theorem trans (h : r.Onward r') (h' : r'.Onward r'') : r.Onward r'' :=
  ⟨h'.rest.trans h.rest, h'.last.trans h.last, h.diags.trans h'.diags⟩

theorem advance (h : r.Onward r') : r.Onward r'.advance :=
  h.trans ⟨List.tail_suffix _, rfl, List.prefix_rfl⟩

theorem mark (h : r.Onward r') (pos : Position) : r.Onward (r'.mark pos).2 :=
  h.trans ⟨List.suffix_rfl, rfl, List.prefix_rfl⟩

theorem report (h : r.Onward r') (d : Diagnostic) : r.Onward (r'.report d) :=
  h.trans ⟨List.suffix_rfl, rfl, List.prefix_append _ _⟩

theorem fail (h : r.Onward r') (rule : String) (pos : Position) (message : String) :
    r.Onward (r'.fail rule pos message).2 :=
  (h.mark pos).report _

theorem fields (h : r.Onward r') (bound : Nat) (e : Expr) : r.Onward (readFields bound e r').2 := by
  induction bound generalizing e r' with
  | zero => exact h
  | succ bound ih =>
    rw [readFields]
    split
    · exact ih (h.mark r'.current.pos).advance.advance _
    · exact h

theorem literal (h : r.Onward r') (value : Scalar) : r.Onward (readLiteral r' value).2 :=
  h.advance.mark r'.current.pos

theorem length_le (h : r.Onward r') : r'.rest.length ≤ r.rest.length := h.rest.length_le

end Reader.Onward

theorem Reading.onward {c : Catalog} {rule : String} {p q : Piece} {r r' : Reader}
    (h : Reading c rule p r q r') : r.Onward r' := by
  have hnext (r : Reader) : r.Onward r.advance := (Reader.Onward.refl r).advance
  induction h with
  | refl _ r => exact .refl r
  | trans _ _ ihfirst ihrest => exact ihfirst.trans ihrest
  | fail _ r => exact (Reader.Onward.refl r).fail _ _ _
  | failAfter _ _ _ _ ih => exact ((hnext _).trans ih).fail _ _ _
  | field => exact ((Reader.Onward.refl _).mark _).advance.advance
  | assign _ _ _ ih => exact ((hnext _).trans ih).mark _
  | binary _ _ ih => exact ((hnext _).trans ih).mark _
  | unary _ _ ih => exact ((hnext _).mark _).trans ih
  | literal => exact (Reader.Onward.refl _).literal _
  | name => exact (hnext _).mark _
  | parens _ _ _ ih => exact ((hnext _).trans ih).advance
  | unknown => exact ((hnext _).mark _).report _
  | call _ _ _ ih => exact ((hnext _).mark _).trans ih
  | parameter _ _ _ ih => exact ((hnext _).mark _).trans ih
  | modifier => exact (hnext _).mark _
  | recount => exact hnext _
  | bindModifier => exact (hnext _).mark _
  | bindParameter _ _ _ ih => exact ((hnext _).mark _).trans ih
  | bindValue _ _ _ ih => exact ih

/-! ## Every operand takes a token -/

section

variable {c : Catalog} {rule : String} {r : Reader}

theorem Reader.length_advance (h : r.last.kind = .eof) (hr : r.current.kind ≠ .eof) :
    r.advance.rest.length < r.rest.length := by
  cases hrest : r.rest with
  | nil => simp [Reader.current, hrest, h] at hr
  | cons t more => simp [Reader.advance, hrest]

theorem length_readPrimary (h : r.last.kind = .eof) (hr : r.current.kind ≠ .eof) (depth : Nat) :
    (readPrimary c rule (depth + 1) r).2.rest.length < r.rest.length := by
  have hnext := Reader.length_advance h hr
  have hlt {r' : Reader} (h' : r.advance.Onward r') : r'.rest.length < r.rest.length :=
    Nat.lt_of_le_of_lt h'.length_le hnext
  have hone := Reader.Onward.refl r.advance
  have hreads := readings c rule depth
  rw [readPrimary]
  dsimp only
  split
  · split
    · exact hlt (hone.mark r.current.pos)
    · exact hlt (hone.fail _ _ _)
  · exact hlt (hone.mark r.current.pos)
  · exact hlt (hone.mark r.current.pos)
  · exact hlt (hone.mark r.current.pos)
  · exact hlt (hone.mark r.current.pos)
  · exact hlt (hone.mark r.current.pos)
  · split
    · exact hlt (hreads.expr _ _).onward.advance
    · exact hlt ((hreads.expr _ _).onward.fail _ _ _)
  · split
    · exact hlt ((hone.mark r.current.pos).report _)
    · split
      · exact hlt ((hone.mark r.current.pos).trans (hreads.args _ _ _).onward)
      · exact hlt ((hone.mark r.current.pos).trans (hreads.args _ _ _).onward)
      · exact hlt ((hone.mark r.current.pos).trans (hreads.unary _).onward)
      · exact hlt (hone.mark r.current.pos)
  · rename_i heof
    exact absurd heof hr
  all_goals exact hlt (hone.fail _ _ _)

theorem length_readUnary (h : r.last.kind = .eof) (hr : r.current.kind ≠ .eof) (depth : Nat) :
    (readUnary c rule (depth + 2) r).2.rest.length < r.rest.length := by
  have hoperand := Nat.lt_of_le_of_lt
    ((readings c rule (depth + 1)).unary (r.advance.mark r.current.pos).2).onward.length_le
    (Reader.length_advance h hr)
  rw [readUnary]
  dsimp only
  split
  · exact hoperand
  · exact hoperand
  · exact Nat.lt_of_le_of_lt ((Reader.Onward.refl _).fields _ _).length_le (length_readPrimary h hr depth)

theorem argStart_of_eof {t : Token} (h : t.kind = .eof) : argStart c t = .none := by
  simp [argStart, h]

end

/-! ## The recursion ends -/

/-- What there is to read: one of the parts of the reader with what it is given. -/
inductive Task where
  | expr (power : Nat)
  | operators (power : Nat) (left : Expr)
  | unary
  | primary
  | args (tile : Tile) (bound : Bound)

/-- What a task leaves to others, one level down, with the readers they start from. -/
def Task.others (c : Catalog) (rule : String) (depth : Nat) : Task → Reader → List (Task × Reader)
  | .expr power, r =>
    let (left, r') := readUnary c rule depth r
    [(.unary, r), (.operators power left, r')]
  | .operators power left, r =>
    let t := r.current
    if t.kind = .assign then
      if assignPower < power then []
      else
        let (value, r') := readExpr c rule depth assignPower r.advance
        let (m, r') := r'.mark t.pos
        (.expr assignPower, r.advance) ::
          if left.isPlace then [(.operators power (.assign m left value), r')] else []
    else
      match binaryOp? t.kind with
      | none => []
      | some (op, strength) =>
        if strength < power then []
        else
          let (right, r') := readExpr c rule depth (strength + 1) r.advance
          let (m, r') := r'.mark t.pos
          [(.expr (strength + 1), r.advance), (.operators power (.binary m op left right), r')]
  | .unary, r =>
    match r.current.kind with
    | .bang | .minus => [(.unary, (r.advance.mark r.current.pos).2)]
    | _ => [(.primary, r)]
  | .primary, r =>
    match r.current.kind with
    | .lparen => [(.expr assignPower, r.advance)]
    | .word =>
      match c.get? r.current.literal with
      | none => []
      | some tile =>
        let (_, r') := r.advance.mark r.current.pos
        match tile.kind with
        | .sensor | .actuator => [(.args tile [], r')]
        | .parameter => [(.unary, r')]
        | .modifier => []
    | _ => []
  | .args tile bound, r =>
    let t := r.current
    match argStart c t with
    | .modifier arg =>
      match bound.find? tile.spec .modifier arg.id with
      | none => []
      | some slot =>
        if bound.isFilled slot then [(.args tile (bound.recount slot), r.advance)]
        else
          let (m, r') := r.advance.mark t.pos
          [(.args tile (bound.bind slot (.modifier m arg 1)), r')]
    | .parameter arg =>
      match bound.find? tile.spec .parameter arg.id with
      | none => []
      | some slot =>
        let (m, r') := r.advance.mark t.pos
        let (value, r'') := readUnary c rule depth r'
        [(.unary, r'), (.args tile (bound.bind slot (.parameter m arg value)), r'')]
    | .value =>
      match bound.anonymous? tile.spec with
      | none => []
      | some slot =>
        let (value, r') := readUnary c rule depth r
        [(.unary, r), (.args tile (bound.bind slot value), r')]
    | .none => []

/-- A depth is enough for a task: nothing that it leaves to others, or they to others again, is begun when no depth
is left. -/
def Suffices (c : Catalog) (rule : String) : (depth : Nat) → Task → Reader → Prop
  | 0, _, _ => False
  | depth + 1, task, r => ∀ x ∈ task.others c rule depth r, Suffices c rule depth x.1 x.2

/-- The depth that a task takes for a number of tokens. -/
def Task.cost : Task → Nat → Nat
  | .expr _, n => 3 * n + 3
  | .operators _ _, n => 3 * n + 1
  | .unary, n => 3 * n + 2
  | .primary, n => 3 * n + 1
  | .args _ _, n => 3 * n + 3

section

variable {c : Catalog} {rule : String} {r : Reader} {depth : Nat}

/-- A depth affords what is begun at a reader that comes later in the row than `r`. -/
def Affords (depth : Nat) (r : Reader) (x : Task × Reader) : Prop :=
  r.Onward x.2 ∧ x.1.cost x.2.rest.length ≤ depth

section

variable (hlast : r.last.kind = .eof)
include hlast

theorem affords_operators {power : Nat} {left : Expr}
    (hcost : (Task.operators power left).cost r.rest.length ≤ depth + 1) :
    ∀ x ∈ (Task.operators power left).others c rule depth r, Affords depth r x := by
  have hone := (Reader.Onward.refl r).advance
  simp only [Task.cost] at hcost
  simp only [Task.others]
  split
  · rename_i hassign
    have hlt := Reader.length_advance hlast (by simp [hassign])
    have hvalue := ((readings c rule depth).expr assignPower r.advance).onward
    have hle := hvalue.length_le
    split
    · simp
    · refine List.forall_mem_cons.mpr ⟨⟨hone, by simp only [Task.cost]; omega⟩, ?_⟩
      split
      · refine List.forall_mem_singleton.mpr ⟨(hone.trans hvalue).mark r.current.pos, ?_⟩
        simp only [Task.cost, Reader.mark]
        omega
      · simp
  · split
    · simp
    · rename_i op strength hop
      have hlt := Reader.length_advance hlast fun heof => by simp [heof, binaryOp?] at hop
      have hvalue := ((readings c rule depth).expr (strength + 1) r.advance).onward
      have hle := hvalue.length_le
      split
      · simp
      · refine List.forall_mem_cons.mpr ⟨⟨hone, by simp only [Task.cost]; omega⟩,
          List.forall_mem_singleton.mpr ⟨(hone.trans hvalue).mark r.current.pos, ?_⟩⟩
        simp only [Task.cost, Reader.mark]
        omega

theorem affords_unary (hcost : Task.unary.cost r.rest.length ≤ depth + 1) :
    ∀ x ∈ Task.unary.others c rule depth r, Affords depth r x := by
  simp only [Task.cost] at hcost
  simp only [Task.others]
  split
  case h_3 => exact List.forall_mem_singleton.mpr ⟨.refl r, by simp only [Task.cost]; omega⟩
  all_goals
    rename_i hkind
    have hlt := Reader.length_advance hlast (by simp [hkind])
    refine List.forall_mem_singleton.mpr ⟨(Reader.Onward.refl r).advance.mark r.current.pos, ?_⟩
    simp only [Task.cost, Reader.mark]
    omega

theorem affords_primary (hcost : Task.primary.cost r.rest.length ≤ depth + 1) :
    ∀ x ∈ Task.primary.others c rule depth r, Affords depth r x := by
  have hone := (Reader.Onward.refl r).advance
  simp only [Task.cost] at hcost
  simp only [Task.others]
  split
  · rename_i hkind
    have hlt := Reader.length_advance hlast (by simp [hkind])
    exact List.forall_mem_singleton.mpr ⟨hone, by simp only [Task.cost]; omega⟩
  · rename_i hkind
    have hlt := Reader.length_advance hlast (by simp [hkind])
    split
    · simp
    · split
      case h_4 => simp
      all_goals
        refine List.forall_mem_singleton.mpr ⟨hone.mark r.current.pos, ?_⟩
        simp only [Task.cost, Reader.mark]
        omega
  · simp

theorem affords_args {tile : Tile} {bound : Bound}
    (hcost : (Task.args tile bound).cost r.rest.length ≤ depth + 1) :
    ∀ x ∈ (Task.args tile bound).others c rule depth r, Affords depth r x := by
  have hone := (Reader.Onward.refl r).advance
  have hstart (h : argStart c r.current ≠ .none) : r.current.kind ≠ .eof := fun heof => h (argStart_of_eof heof)
  simp only [Task.cost] at hcost
  simp only [Task.others]
  split
  · rename_i arg harg
    have hlt := Reader.length_advance hlast (hstart (by simp [harg]))
    split
    · simp
    · split
      · exact List.forall_mem_singleton.mpr ⟨hone, by simp only [Task.cost]; omega⟩
      · refine List.forall_mem_singleton.mpr ⟨hone.mark r.current.pos, ?_⟩
        simp only [Task.cost, Reader.mark]
        omega
  · rename_i arg harg
    have hlt := Reader.length_advance hlast (hstart (by simp [harg]))
    have hvalue := ((readings c rule depth).unary (r.advance.mark r.current.pos).2).onward
    have hle : _ ≤ r.advance.rest.length := hvalue.length_le
    split
    · simp
    · refine List.forall_mem_cons.mpr ⟨⟨hone.mark r.current.pos, ?_⟩,
        List.forall_mem_singleton.mpr ⟨(hone.mark r.current.pos).trans hvalue, ?_⟩⟩
      · simp only [Task.cost, Reader.mark]
        omega
      · simp only [Task.cost]
        omega
  · rename_i harg
    have hne := hstart (by simp [harg])
    split
    · simp
    · obtain ⟨depth, rfl⟩ : ∃ d, depth = d + 2 := ⟨depth - 2, by omega⟩
      have hlt : (readUnary c rule (depth + 2) r).2.rest.length < r.rest.length :=
        length_readUnary hlast hne depth
      refine List.forall_mem_cons.mpr ⟨⟨.refl r, by simp only [Task.cost]; omega⟩,
        List.forall_mem_singleton.mpr ⟨((readings c rule _).unary r).onward, ?_⟩⟩
      simp only [Task.cost]
      omega
  · simp

/-- What is left to others goes forwards and takes less depth. -/
theorem affords_others {task : Task} (hcost : task.cost r.rest.length ≤ depth + 1) :
    ∀ x ∈ task.others c rule depth r, Affords depth r x := by
  cases task with
  | expr power =>
    have hunary := ((readings c rule depth).unary r).onward
    have hle := hunary.length_le
    simp only [Task.cost] at hcost
    simp only [Task.others, List.forall_mem_cons, List.not_mem_nil, false_implies, implies_true, and_true,
      Affords, Task.cost]
    exact ⟨⟨.refl r, by omega⟩, hunary, by omega⟩
  | operators power left => exact affords_operators hlast hcost
  | unary => exact affords_unary hlast hcost
  | primary => exact affords_primary hlast hcost
  | args tile bound => exact affords_args hlast hcost

end

/-- Three levels for each token are enough. -/
theorem suffices_of_cost {task : Task} (hlast : r.last.kind = .eof) (hcost : task.cost r.rest.length ≤ depth) :
    Suffices c rule depth task r := by
  induction depth generalizing task r with
  | zero => cases task <;> simp [Task.cost] at hcost
  | succ depth ih =>
    intro x hx
    obtain ⟨honward, hle⟩ := affords_others hlast hcost x hx
    exact ih (honward.last ▸ hlast) hle

end

/-! ## More depth -/

/-- What comes to its end within a depth is read in the same way with another one. -/
structure ReadsSame (c : Catalog) (rule : String) (depth depth' : Nat) : Prop where
  expr : ∀ power r, Suffices c rule depth (.expr power) r →
    readExpr c rule depth' power r = readExpr c rule depth power r
  operators : ∀ power left r, Suffices c rule depth (.operators power left) r →
    readOperators c rule depth' power left r = readOperators c rule depth power left r
  unary : ∀ r, Suffices c rule depth .unary r → readUnary c rule depth' r = readUnary c rule depth r
  primary : ∀ r, Suffices c rule depth .primary r → readPrimary c rule depth' r = readPrimary c rule depth r
  args : ∀ tile bound r, Suffices c rule depth (.args tile bound) r →
    readArgs c rule depth' tile bound r = readArgs c rule depth tile bound r

section

variable {c : Catalog} {rule : String} {depth depth' : Nat} {r : Reader}

theorem ReadsSame.zero (c : Catalog) (rule : String) (depth' : Nat) : ReadsSame c rule 0 depth' := by
  constructor <;> intros <;> contradiction

variable (ih : ReadsSame c rule depth depth')
include ih

theorem same_readExpr {power : Nat} (h : Suffices c rule (depth + 1) (.expr power) r) :
    readExpr c rule (depth' + 1) power r = readExpr c rule (depth + 1) power r := by
  simp only [Suffices, Task.others, List.forall_mem_cons] at h
  rw [readExpr, readExpr, ih.unary r h.1]
  exact ih.operators _ _ _ h.2.1

theorem same_readOperators {power : Nat} {left : Expr} (h : Suffices c rule (depth + 1) (.operators power left) r) :
    readOperators c rule (depth' + 1) power left r = readOperators c rule (depth + 1) power left r := by
  simp only [Suffices, Task.others] at h
  rw [readOperators, readOperators]
  dsimp only
  split
  · rename_i hassign
    rw [if_pos hassign] at h
    split
    · rfl
    · rename_i hpower
      rw [if_neg hpower, List.forall_mem_cons] at h
      rw [ih.expr _ _ h.1]
      split
      · rename_i hplace
        exact ih.operators _ _ _ (by simpa [hplace] using h.2)
      · rfl
  · rename_i hassign
    rw [if_neg hassign] at h
    split
    · rfl
    · rename_i op strength hop
      simp only [hop] at h
      split
      · rfl
      · rename_i hpower
        rw [if_neg hpower, List.forall_mem_cons] at h
        rw [ih.expr _ _ h.1]
        exact ih.operators _ _ _ (h.2 _ List.mem_cons_self)

theorem same_readUnary (h : Suffices c rule (depth + 1) .unary r) :
    readUnary c rule (depth' + 1) r = readUnary c rule (depth + 1) r := by
  simp only [Suffices, Task.others] at h
  rw [readUnary, readUnary]
  dsimp only
  split
  · rename_i hkind
    simp only [hkind, List.forall_mem_singleton] at h
    rw [ih.unary _ h]
  · rename_i hkind
    simp only [hkind, List.forall_mem_singleton] at h
    rw [ih.unary _ h]
  · rw [ih.primary r (by simpa using h)]

theorem same_readPrimary (h : Suffices c rule (depth + 1) .primary r) :
    readPrimary c rule (depth' + 1) r = readPrimary c rule (depth + 1) r := by
  simp only [Suffices, Task.others] at h
  rw [readPrimary, readPrimary]
  dsimp only
  split
  case h_7 hkind =>
    simp only [hkind, List.forall_mem_singleton] at h
    rw [ih.expr _ _ h]
  case h_8 hkind =>
    simp only [hkind] at h
    split
    · rfl
    · rename_i tile htile
      simp only [htile] at h
      split
      · rename_i htile
        simp only [htile, List.forall_mem_singleton] at h
        rw [ih.args _ _ _ h]
      · rename_i htile
        simp only [htile, List.forall_mem_singleton] at h
        rw [ih.args _ _ _ h]
      · rename_i htile
        simp only [htile, List.forall_mem_singleton] at h
        rw [ih.unary _ h]
      · rfl
  all_goals rfl

theorem same_readArgs {tile : Tile} {bound : Bound} (h : Suffices c rule (depth + 1) (.args tile bound) r) :
    readArgs c rule (depth' + 1) tile bound r = readArgs c rule (depth + 1) tile bound r := by
  simp only [Suffices, Task.others] at h
  rw [readArgs, readArgs]
  dsimp only
  split
  · rename_i arg harg
    simp only [harg] at h
    split
    · rfl
    · rename_i slot hslot
      simp only [hslot] at h
      split
      · rename_i hfilled
        rw [if_pos hfilled] at h
        exact ih.args _ _ _ (h _ List.mem_cons_self)
      · rename_i hfilled
        rw [if_neg hfilled] at h
        exact ih.args _ _ _ (h _ List.mem_cons_self)
  · rename_i arg harg
    simp only [harg] at h
    split
    · rfl
    · rename_i slot hslot
      simp only [hslot, List.forall_mem_cons] at h
      rw [ih.unary _ h.1]
      exact ih.args _ _ _ h.2.1
  · rename_i harg
    simp only [harg] at h
    split
    · rfl
    · rename_i slot hslot
      simp only [hslot, List.forall_mem_cons] at h
      rw [ih.unary _ h.1]
      exact ih.args _ _ _ h.2.1
  · rfl

end

theorem readsSame (c : Catalog) (rule : String) {depth depth' : Nat} (hle : depth ≤ depth') :
    ReadsSame c rule depth depth' := by
  induction depth generalizing depth' with
  | zero => exact .zero c rule depth'
  | succ depth ih =>
    obtain ⟨depth', rfl⟩ : ∃ d, depth' = d + 1 := ⟨depth' - 1, by omega⟩
    replace ih := ih (Nat.le_of_succ_le_succ hle)
    exact
      { expr := fun _ _ => same_readExpr ih
        operators := fun _ _ _ => same_readOperators ih
        unary := fun _ => same_readUnary ih
        primary := fun _ => same_readPrimary ih
        args := fun _ _ _ => same_readArgs ih }

/-- At the end of the row the token after the current one is the same. -/
theorem readFields_of_nil {bound : Nat} {e : Expr} {r : Reader} (h : r.rest = []) :
    readFields bound e r = (e, r) := by
  cases bound with
  | zero => rw [readFields]
  | succ bound =>
    have hsame : r.following = r.current := by simp [Reader.current, Reader.following, h]
    rw [readFields, hsame, if_neg]
    simp only [Bool.and_eq_true, decide_eq_true_eq, not_and]
    intro hdot hword
    rw [hdot] at hword
    cases hword

/-- A chain of field accesses is never cut: every bound that the row provides is as good as any other. -/
theorem readFields_of_length_le {bound bound' : Nat} {e : Expr} {r : Reader} (h : r.rest.length ≤ bound)
    (h' : r.rest.length ≤ bound') : readFields bound e r = readFields bound' e r := by
  induction bound generalizing bound' e r with
  | zero =>
    have hnil := List.eq_nil_of_length_eq_zero (Nat.le_zero.mp h)
    rw [readFields_of_nil hnil, readFields_of_nil hnil]
  | succ bound ih =>
    cases bound' with
    | zero =>
      have hnil := List.eq_nil_of_length_eq_zero (Nat.le_zero.mp h')
      rw [readFields_of_nil hnil, readFields_of_nil hnil]
    | succ bound' =>
      rw [readFields, readFields]
      split
      · apply ih <;> simp only [Reader.advance, List.length_tail] <;> omega
      · rfl

end Row
end TileMind
