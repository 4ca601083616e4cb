import Mathlib
import TileMind.Proofs.Row.CallSlots
import TileMind.Proofs.Row.Printing
import TileMind.Proofs.Row.Progress

/-!
# TileMind.Proofs.Row.Contents

What a tree is made of. Every node stands for the tokens that it was read from, apart from their places and from
parentheses. Reading a row loses none of its tokens and uses none twice, unless it reports an error.

* `contents`, `Expr.contents`: what tokens say, and what the nodes of a tree say.
* `Catalog.Built`: the catalogs that there are.
* `Reader.Balance`: what was said before, together with the tokens read, is what is said afterwards.
* `reading_keeps_tokens`: nothing is lost and nothing used twice, and reading ends.
-/

namespace TileMind

/-! ## Catalogs -/

/-- The catalogs that there are: tiles are added one after the other. -/
inductive Catalog.Built (σ : Type) : Catalog → Prop where
  | empty : Built σ {}
  | sensor {c c' : Catalog} {svc : Services σ} {id fn : String} {spec : Option CallSpec} {output : TypeId}
      (rest : Built σ c) (added : c.addSensor svc id fn spec output = .ok c') : Built σ c'
  | actuator {c c' : Catalog} {svc : Services σ} {id fn : String} {spec : Option CallSpec}
      (rest : Built σ c) (added : c.addActuator svc id fn spec = .ok c') : Built σ c'
  | modifier {c c' : Catalog} {id : String} (rest : Built σ c) (added : c.addModifier id = .ok c') :
      Built σ c'
  | parameter {c c' : Catalog} {svc : Services σ} {id : String} {type : TypeId} (rest : Built σ c)
      (added : c.addParameter svc id type = .ok c') : Built σ c'

section

variable {σ : Type} {c c' : Catalog} {svc : Services σ} {t tile : Tile} {id fn : String} {spec : Option CallSpec}

theorem Catalog.mem_of_add (h : c.add t = .ok c') (ht : tile ∈ c'.tiles) : tile ∈ c.tiles ∨ tile = t := by
  unfold add at h
  repeat' split at h
  all_goals cases h
  simpa using ht

/-- A tile that is added has the slots of its flattened grammar. -/
theorem Catalog.mem_of_addCall (h : c.addCall svc t fn spec = .ok c') (ht : tile ∈ c'.tiles) :
    tile ∈ c.tiles ∨ tile.spec = { (CallSpec.flatten spec c.lastChoice).1 with
      slots := (CallSpec.flatten spec c.lastChoice).1.slots.map typed } := by
  unfold addCall at h
  split at h
  · cases h
  · split at h
    · cases h
    · refine (mem_of_add h ht).imp_right ?_
      rintro rfl
      rfl

theorem Catalog.distinct_of_addCall (h : c.addCall svc t fn spec = .ok c') (ht : tile ∈ c'.tiles) :
    tile ∈ c.tiles ∨ tile.spec.Distinct := by
  refine (mem_of_addCall h ht).imp_right fun hspec => ?_
  cases spec with
  | some grammar =>
    have hlaid : tile.LaidOut grammar := ⟨c.lastChoice, hspec⟩
    obtain ⟨num, hlays⟩ := CallSpec.exists_lays hlaid
    exact hlays.distinct
  | none =>
    rw [hspec]
    simp [FlatSpec.Distinct, CallSpec.flatten]

theorem Catalog.Built.distinct (h : c.Built σ) (ht : tile ∈ c.tiles) : tile.spec.Distinct := by
  induction h with
  | empty => cases ht
  | sensor _ hadded ih => exact (distinct_of_addCall hadded ht).elim ih id
  | actuator _ hadded ih => exact (distinct_of_addCall hadded ht).elim ih id
  | modifier _ hadded ih =>
    obtain hold | rfl := mem_of_add hadded ht
    · exact ih hold
    · simp [FlatSpec.Distinct]
  | parameter _ hadded ih =>
    unfold addParameter at hadded
    split at hadded
    · obtain hold | rfl := mem_of_add hadded ht
      · exact ih hold
      · simp [FlatSpec.Distinct]
    · cases hadded

theorem Catalog.mem_of_get? (h : c.get? id = some tile) : tile ∈ c.tiles ∧ tile.id = id :=
  ⟨List.mem_of_find?_eq_some h, by simpa using List.find?_some h⟩

end

namespace Row

/-! ## What tokens and nodes say -/

/-- What a token says: a plain value, the name of a variable, a word, or just its own sign. -/
inductive Content where
  | value (v : Scalar)
  | variable (name : String)
  | word (word : String)
  | sign (kind : TokenKind)

def Token.content (t : Token) : Content :=
  match t.kind with
  | .number =>
    match (Decimal.read? t.literal).filter Float.isFinite with
    | some x => .value (.number x)
    | none => .sign .number
  | .string => .value (.string t.literal)
  | .truth => .value (.bool true)
  | .falsity => .value (.bool false)
  | .nil => .value .nil
  | .variable => .variable t.literal
  | .word => .word t.literal
  | kind => .sign kind

/-- Parentheses and the end of the row say nothing. -/
def Token.Silent (t : Token) : Prop := t.kind = .lparen ∨ t.kind = .rparen ∨ t.kind = .eof

instance (t : Token) : Decidable t.Silent := inferInstanceAs (Decidable (_ ∨ _ ∨ _))

/-- What tokens say, as often as they say it. -/
def contents (ts : List Token) : Multiset Content := (ts.filter fun t => ¬t.Silent).map Token.content

/-- What a node says itself: the values, names, words and signs that it was read from. A modifier was read from
as many words as it counts. -/
def Expr.ownContents : Expr → Multiset Content
  | .binary _ op _ _ => {.sign op.tokenKind}
  | .unary _ op _ => {.sign op.tokenKind}
  | .literal _ value => {.value value}
  | .variable _ name => {.variable name}
  | .field _ _ name => {.sign .dot, .word name}
  | .assign _ _ _ => {.sign .assign}
  | .parameter _ tile _ => {.word tile.id}
  | .modifier _ tile count => .replicate count (.word tile.id)
  | .call _ tile _ => {.word tile.id}
  | .empty _ | .error _ _ => 0

def Expr.contents (e : Expr) : Multiset Content := (e.nodes.map Expr.ownContents).sum

def Args.contents (args : Args) : Multiset Content := ((Expr.argNodes args).map Expr.ownContents).sum

def Bound.contents (b : Bound) : Multiset Content := (b.map fun x => x.2.contents).sum

@[simp] theorem contents_nil : contents [] = 0 := rfl

theorem contents_append (ts us : List Token) : contents (ts ++ us) = contents ts + contents us := by
  simp [contents]

theorem contents_of_silent {t : Token} (h : t.Silent) : contents [t] = 0 := by
  simp [contents, h]

section

variable {m : Mark} {left right object target value operand : Expr} {tile : Tile} {name : String}
  {args : Args} {b : Bound} {slot : Nat} {e : Expr}

@[simp] theorem contents_binary {op : BinaryOp} :
    (Expr.binary m op left right).contents = {.sign op.tokenKind} + (left.contents + right.contents) := by
  simp [Expr.contents, Expr.nodes, Expr.ownContents]

@[simp] theorem contents_unary {op : UnaryOp} :
    (Expr.unary m op operand).contents = {.sign op.tokenKind} + operand.contents := by
  simp [Expr.contents, Expr.nodes, Expr.ownContents]

@[simp] theorem contents_literal {v : Scalar} : (Expr.literal m v).contents = {.value v} := by
  simp [Expr.contents, Expr.nodes, Expr.ownContents]

@[simp] theorem contents_variable : (Expr.variable m name).contents = {.variable name} := by
  simp [Expr.contents, Expr.nodes, Expr.ownContents]

@[simp] theorem contents_field :
    (Expr.field m object name).contents = {.sign .dot, .word name} + object.contents := by
  simp [Expr.contents, Expr.nodes, Expr.ownContents]

@[simp] theorem contents_assign :
    (Expr.assign m target value).contents = {.sign .assign} + (target.contents + value.contents) := by
  simp [Expr.contents, Expr.nodes, Expr.ownContents]

@[simp] theorem contents_parameter :
    (Expr.parameter m tile value).contents = {.word tile.id} + value.contents := by
  simp [Expr.contents, Expr.nodes, Expr.ownContents]

@[simp] theorem contents_modifier {count : Nat} :
    (Expr.modifier m tile count).contents = .replicate count (.word tile.id) := by
  simp [Expr.contents, Expr.nodes, Expr.ownContents]

@[simp] theorem contents_call : (Expr.call m tile args).contents = {.word tile.id} + args.contents := by
  simp [Expr.contents, Args.contents, Expr.nodes, Expr.ownContents]

@[simp] theorem contents_empty : (Expr.empty m).contents = 0 := by
  simp [Expr.contents, Expr.nodes, Expr.ownContents]

theorem contents_ofList (bound : List (Nat × Expr)) :
    (Args.ofList bound).contents = (bound.map fun x => x.2.contents).sum := by
  induction bound with
  | nil => rfl
  | cons x bound ih =>
    obtain ⟨slot, value⟩ := x
    rw [List.map_cons, List.sum_cons, ← ih]
    simp [Args.ofList, Args.contents, Expr.argNodes, Expr.contents]

@[simp] theorem contents_args : b.args.contents = b.contents := by
  rw [Bound.args, contents_ofList, Bound.contents]
  exact ((List.mergeSort_perm b _).map _).sum_eq

@[simp] theorem contents_bind : (b.bind slot e).contents = b.contents + e.contents := by
  simp [Bound.contents, Bound.bind]

end

theorem content_sign {kind : TokenKind} {op : BinaryOp} {strength : Nat} {t : Token} (ht : t.kind = kind)
    (h : binaryOp? kind = some (op, strength)) : contents [t] = {.sign op.tokenKind} := by
  cases kind <;> cases h <;> simp [contents, Token.Silent, Token.content, ht, BinaryOp.tokenKind]

theorem content_scalar {t : Token} {value : Scalar} (h : t.scalar? = some value) :
    contents [t] = {.value value} := by
  unfold Token.scalar? at h
  split at h
  case h_1 hkind =>
    obtain ⟨x, hx, rfl⟩ := Option.map_eq_some_iff.mp h
    simp [contents, Token.Silent, Token.content, hkind, hx]
  case h_6 => cases h
  all_goals
    rename_i hkind
    cases h
    simp [contents, Token.Silent, Token.content, hkind]

theorem content_unary {t : Token} {op : UnaryOp} (h : unaryOp? t.kind = some op) :
    contents [t] = {.sign op.tokenKind} := by
  unfold unaryOp? at h
  split at h
  case h_3 => cases h
  all_goals
    rename_i hkind
    cases h
    simp [contents, Token.Silent, Token.content, hkind, UnaryOp.tokenKind]

theorem content_word {t : Token} {tile : Tile} (hkind : t.kind = .word) (hid : tile.id = t.literal) :
    contents [t] = {.word tile.id} := by
  simp [contents, Token.Silent, Token.content, hkind, hid]

/-! ## Slots of modifiers -/

/-- What is bound at a call while it is read: every slot once, and the word of a modifier in its slot. -/
structure Bound.Fit (b : Bound) (spec : FlatSpec) : Prop where
  nodup : (b.map Prod.fst).Nodup
  modifier : ∀ x ∈ b, ∀ s ∈ spec.slots, s.id = x.1 → s.arg.kind = .modifier →
    ∃ m tile count, x.2 = .modifier m tile count ∧ tile.id = s.arg.tile

namespace Bound.Fit

variable {b : Bound} {spec : FlatSpec} {slot : Nat} {tile : String}

theorem nil (spec : FlatSpec) : Bound.Fit [] spec := ⟨List.nodup_nil, by simp⟩

theorem bind {s : Slot} {e : Expr} (h : b.Fit spec) (hspec : spec.Distinct) (hs : s ∈ spec.slots)
    (hfree : b.isFilled s.id = false)
    (he : s.arg.kind = .modifier → ∃ m tile count, e = .modifier m tile count ∧ tile.id = s.arg.tile) :
    (b.bind s.id e).Fit spec := by
  constructor
  · rw [Bound.bind, List.map_append, List.nodup_append]
    refine ⟨h.nodup, List.nodup_singleton _, fun k hk j hj heq => ?_⟩
    obtain rfl : j = s.id := by simpa using hj
    obtain ⟨x, hx, rfl⟩ := List.mem_map.mp hk
    have hfilled : b.isFilled s.id = true := List.any_eq_true.mpr ⟨x, hx, by simpa using heq⟩
    rw [hfilled] at hfree
    cases hfree
  · intro x hx o ho hox hkind
    rcases List.mem_append.mp hx with hx | hx
    · exact h.modifier x hx o ho hox hkind
    · obtain rfl := List.mem_singleton.mp hx
      obtain rfl := hspec o ho s hs hox
      exact he hkind

theorem recount (h : b.Fit spec) (slot : Nat) : (b.recount slot).Fit spec := by
  have hkeys : (b.recount slot).map Prod.fst = b.map Prod.fst := by
    rw [Bound.recount, List.map_map]
    refine List.map_congr_left fun x _ => ?_
    rw [Function.comp_apply]
    split
    · rename_i hslot
      split
      · exact hslot.symm
      · rfl
    · rfl
  refine ⟨hkeys ▸ h.nodup, fun x hx s hs hsx hkind => ?_⟩
  obtain ⟨y, hy, rfl⟩ := List.mem_map.mp hx
  split at hsx
  · rename_i hslot
    split at hsx
    · rename_i m tile count hmodifier
      obtain ⟨m', tile', count', heq, htile⟩ := h.modifier y hy s hs (hsx.trans hslot.symm) hkind
      rw [hmodifier] at heq
      cases heq
      simp only [hslot, if_true]
      exact ⟨_, _, _, rfl, htile⟩
    · obtain ⟨m', tile', count', heq, htile⟩ := h.modifier y hy s hs hsx hkind
      simp_all
  · rename_i hslot
    rw [if_neg hslot]
    exact h.modifier y hy s hs hsx hkind

theorem contents_recount (h : b.Fit spec) (hfind : b.find? spec .modifier tile = some slot)
    (hfilled : b.isFilled slot = true) : (b.recount slot).contents = b.contents + {.word tile} := by
  obtain ⟨s, hs, rfl⟩ := Option.map_eq_some_iff.mp hfind
  have hmem := List.mem_of_find?_eq_some hs
  have hfits := List.find?_some hs
  simp only [Bool.and_eq_true, decide_eq_true_eq] at hfits
  obtain ⟨⟨hkind, htile⟩, -⟩ := hfits
  obtain ⟨⟨k, e⟩, hx, hk⟩ := List.any_eq_true.mp hfilled
  obtain rfl : k = s.id := by simpa using hk
  obtain ⟨m, arg, count, rfl, harg⟩ := h.modifier _ hx s hmem rfl hkind
  obtain ⟨before, after, rfl⟩ := List.append_of_mem hx
  -- The slot is bound once, so that nothing before or after it is counted.
  have hnodup := h.nodup
  rw [List.map_append, List.map_cons, List.nodup_append, List.nodup_cons] at hnodup
  have hother : ∀ bound : List (Nat × Expr), (∀ x ∈ bound, x.1 ≠ s.id) → Bound.recount bound s.id = bound := by
    intro bound hne
    refine (List.map_congr_left fun x hx => ?_).trans (List.map_id _)
    rw [if_neg (hne x hx), id]
  have hbefore := hother before fun x hx heq =>
    hnodup.2.2 x.1 (List.mem_map_of_mem hx) s.id List.mem_cons_self heq
  have hafter := hother after fun x hx heq => hnodup.2.1.1 (List.mem_map.mpr ⟨x, hx, heq⟩)
  have hsplit : Bound.recount (before ++ (s.id, .modifier m arg count) :: after) s.id =
      before ++ (s.id, .modifier m arg (count + 1)) :: after :=
    calc Bound.recount (before ++ (s.id, .modifier m arg count) :: after) s.id
      _ = Bound.recount before s.id ++ (s.id, .modifier m arg (count + 1)) :: Bound.recount after s.id := by
        simp [Bound.recount]
      _ = before ++ (s.id, .modifier m arg (count + 1)) :: after := by rw [hbefore, hafter]
  rw [hsplit]
  simp only [Bound.contents, List.map_append, List.map_cons, List.sum_append, List.sum_cons, contents_modifier,
    Multiset.replicate_succ, ← Multiset.singleton_add, harg, htile]
  abel

end Bound.Fit

/-- A slot that is found for a tile is one for it. It is free, but for a modifier that is bound already. -/
theorem Bound.exists_slot_of_find? {b : Bound} {spec : FlatSpec} {kind : ArgKind} {tile : String} {slot : Nat}
    (h : b.find? spec kind tile = some slot) :
    ∃ s ∈ spec.slots, s.id = slot ∧ s.arg.kind = kind ∧ s.arg.tile = tile ∧
      (b.isFilled slot = true → kind = .modifier) := by
  obtain ⟨s, hs, rfl⟩ := Option.map_eq_some_iff.mp h
  have hfits := List.find?_some hs
  simp only [Bool.and_eq_true, Bool.or_eq_true, decide_eq_true_eq] at hfits
  obtain ⟨⟨hkind, htile⟩, havailable⟩ := hfits
  refine ⟨s, List.mem_of_find?_eq_some hs, rfl, hkind, htile, fun hfilled => ?_⟩
  rcases havailable with hmodifier | havailable
  · exact hmodifier.1
  · simp [Bound.available, hfilled] at havailable

theorem Bound.exists_slot_of_anonymous? {b : Bound} {spec : FlatSpec} {slot : Nat}
    (h : b.anonymous? spec = some slot) :
    ∃ s ∈ spec.slots, s.id = slot ∧ s.arg.kind = .anonymous ∧ b.isFilled slot = false := by
  obtain ⟨s, hs, rfl⟩ := Option.map_eq_some_iff.mp h
  have hfits := List.find?_some hs
  simp only [Bool.and_eq_true, decide_eq_true_eq, Bound.available, Bool.not_eq_true'] at hfits
  exact ⟨s, List.mem_of_find?_eq_some hs, rfl, hfits.1, hfits.2.1.1⟩

theorem word_of_argStart {c : Catalog} {t : Token} {arg : Tile}
    (h : argStart c t = .modifier arg ∨ argStart c t = .parameter arg) : t.kind = .word ∧ arg.id = t.literal := by
  unfold argStart at h
  split at h
  · rename_i hkind
    refine ⟨hkind, ?_⟩
    split at h
    · simp at h
    · rename_i tile htile
      have hid := (Catalog.mem_of_get? htile).2
      split at h <;> simp at h <;> rw [← h, hid]
  all_goals simp at h

/-! ## Reading -/

/-- On the way from `r` to `r'`, what was said before and the tokens read say the same as what is there
afterwards, unless an error is reported. -/
structure Reader.Balance (r r' : Reader) (before after : Multiset Content) : Prop where
  errors : r.diags.errors.length ≤ r'.diags.errors.length
  read : ∃ ts, r.rest = ts ++ r'.rest ∧
    (r'.diags.errors.length = r.diags.errors.length → before + contents ts = after)

namespace Reader.Balance

variable {r r' r'' : Reader} {before after final : Multiset Content}

theorem refl (r : Reader) (before : Multiset Content) : r.Balance r before before :=
  ⟨Nat.le_refl _, [], rfl, fun _ => by simp⟩

theorem trans (h : r.Balance r' before after) (h' : r'.Balance r'' after final) :
    r.Balance r'' before final := by
  obtain ⟨hle, ts, hts, hread⟩ := h
  obtain ⟨hle', us, hus, hread'⟩ := h'
  refine ⟨hle.trans hle', ts ++ us, by rw [hts, hus, List.append_assoc], fun hclean => ?_⟩
  rw [contents_append, ← add_assoc, hread (by omega), hread' (by omega)]

/-- What was said before that stays as it is. -/
theorem add_left (h : r.Balance r' before after) (other : Multiset Content) :
    r.Balance r' (other + before) (other + after) := by
  obtain ⟨hle, ts, hts, hread⟩ := h
  exact ⟨hle, ts, hts, fun hclean => by rw [add_assoc, hread hclean]⟩

theorem mark (h : r.Balance r' before after) (pos : Position) : r.Balance (r'.mark pos).2 before after :=
  ⟨h.errors, h.read⟩

theorem cast (h : r.Balance r' before after) (heq : after = final) : r.Balance r' before final := heq ▸ h

theorem report (h : r.Balance r' before after) {d : Diagnostic} (hd : d.isError) :
    r.Balance (r'.report d) before final := by
  have herrors : (r'.report d).diags.errors.length = r'.diags.errors.length + 1 := by
    simp [Reader.report, Diagnostics.errors, hd]
  obtain ⟨hle, ts, hts, -⟩ := h
  exact ⟨by omega, ts, hts, fun hclean => by omega⟩

theorem fail (h : r.Balance r' before after) (rule : String) (pos : Position) (message : String) :
    r.Balance (r'.fail rule pos message).2 before final :=
  (h.mark pos).report rfl

/-- The current token is read. Past the end of the row there is none, but the end says nothing. -/
theorem advance (hlast : r.last.kind = .eof) (before : Multiset Content) :
    r.Balance r.advance before (before + contents [r.current]) := by
  refine ⟨Nat.le_refl _, ?_⟩
  cases hrest : r.rest with
  | nil => exact ⟨[], by simp [Reader.advance, hrest], fun _ => by
      simp [Reader.current, hrest, contents_of_silent (.inr (.inr hlast))]⟩
  | cons t more => exact ⟨[t], by simp [Reader.advance, hrest], fun _ => by simp [Reader.current, hrest]⟩

theorem token (hlast : r.last.kind = .eof) (before : Multiset Content) (content : Content)
    (h : contents [r.current] = {content}) : r.Balance r.advance before (before + {content}) :=
  h ▸ advance hlast before

/-- What is read in its own right is said besides. -/
theorem besides (h : r.Balance r' before after) (h' : r'.Balance r'' 0 final) :
    r.Balance r'' before (after + final) := by
  have hrest := h'.add_left after
  rw [add_zero] at hrest
  exact h.trans hrest

end Reader.Balance

def Piece.contents : Piece → Multiset Content
  | .nothing => 0
  | .tree e => e.contents
  | .args _ bound => bound.contents

def Piece.Fit : Piece → Prop
  | .args tile bound => tile.spec.Distinct ∧ bound.Fit tile.spec
  | _ => True

section

variable {c : Catalog} {rule : String} {p q : Piece} {r r' : Reader}

theorem Reading.fit (h : Reading c rule p r q r') (hp : p.Fit) : q.Fit := by
  induction h with
  | refl => exact hp
  | trans _ _ ihfirst ihrest => exact ihrest (ihfirst hp)
  | recount => exact ⟨hp.1, hp.2.recount _⟩
  | bindModifier _ hfound hfree =>
    obtain ⟨s, hs, rfl, -, htile, -⟩ := Bound.exists_slot_of_find? hfound
    exact ⟨hp.1, hp.2.bind hp.1 hs hfree fun _ => ⟨_, _, 1, rfl, htile.symm⟩⟩
  | bindParameter _ hfound =>
    obtain ⟨s, hs, rfl, hparameter, -, hfree⟩ := Bound.exists_slot_of_find? hfound
    exact ⟨hp.1, hp.2.bind hp.1 hs (Bool.eq_false_iff.mpr fun hfilled => absurd (hfree hfilled) (by decide))
      fun hkind => absurd (hparameter.symm.trans hkind) (by decide)⟩
  | bindValue _ hfound =>
    obtain ⟨s, hs, rfl, hanonymous, hfree⟩ := Bound.exists_slot_of_anonymous? hfound
    exact ⟨hp.1, hp.2.bind hp.1 hs hfree fun hkind => absurd (hanonymous.symm.trans hkind) (by decide)⟩
  | _ => trivial

/-- What is read next says what its tokens say. -/
theorem Reading.balance (hc : ∀ t ∈ c.tiles, t.spec.Distinct) (h : Reading c rule p r q r')
    (hlast : r.last.kind = .eof) (hp : p.Fit) : r.Balance r' p.contents q.contents := by
  induction h with
  | refl p r => exact .refl r _
  | trans hfirst _ ihfirst ihrest =>
    exact (ihfirst hlast hp).trans (ihrest (hfirst.onward.last ▸ hlast) (hfirst.fit hp))
  | fail p r => exact (Reader.Balance.refl r _).fail _ _ _
  | failAfter p _ _ _ ih => exact ((Reader.Balance.advance hlast p.contents).besides (ih hlast trivial)).fail _ _ _
  | @field e r hdot hword =>
    have hfirst := Reader.Balance.token hlast e.contents (.sign .dot) (by
      simp [contents, Token.Silent, Token.content, hdot])
    have hsecond := Reader.Balance.token (r := r.advance) hlast (e.contents + {.sign .dot})
      (.word r.following.literal) (by
        rw [show r.advance.current = r.following from rfl]
        simp [contents, Token.Silent, Token.content, hword])
    have hread := (hfirst.trans hsecond).mark r.current.pos
    exact hread.cast (by rw [Piece.contents, contents_field, add_assoc, add_comm]; rfl)
  | @assign left _ r _ hsign _ _ ih =>
    have hread := (Reader.Balance.token hlast left.contents (.sign .assign) (by
      simp [contents, Token.Silent, Token.content, hsign])).besides (ih hlast trivial)
    exact (hread.mark _).cast (by rw [Piece.contents, Piece.contents, contents_assign, add_left_comm, add_assoc])
  | @binary left _ _ _ _ _ hsign _ ih =>
    have hread := (Reader.Balance.token hlast left.contents _ (content_sign rfl hsign)).besides (ih hlast trivial)
    exact (hread.mark _).cast (by rw [Piece.contents, Piece.contents, contents_binary, add_left_comm, add_assoc])
  | unary hsign _ ih =>
    have hread := ((Reader.Balance.token hlast 0 _ (content_unary hsign)).mark _).besides (ih hlast trivial)
    exact hread.cast (by rw [zero_add, Piece.contents, Piece.contents, contents_unary])
  | @literal r value htoken =>
    have hread := (Reader.Balance.token hlast 0 _ (content_scalar htoken)).mark r.current.pos
    exact hread.cast (by rw [zero_add, Piece.contents, readLiteral, contents_literal])
  | @name r hkind =>
    have hread := Reader.Balance.token hlast 0 (.variable r.current.literal) (by
      simp [contents, Token.Silent, Token.content, hkind])
    exact (hread.mark _).cast (by rw [zero_add, Piece.contents, contents_variable])
  | parens hopening hinner hclosing ih =>
    have hopen := (Reader.Balance.advance hlast 0).besides (ih hlast trivial)
    rw [contents_of_silent (.inl hopening), zero_add, zero_add] at hopen
    exact hopen.trans ((Reader.Balance.advance (hinner.onward.last ▸ hlast) _).cast (by
      rw [contents_of_silent (.inr (.inl hclosing)), add_zero]))
  | unknown => exact ((Reader.Balance.advance hlast 0).mark _).report rfl
  | call hkind hfound _ ih =>
    obtain ⟨hmem, hid⟩ := Catalog.mem_of_get? hfound
    have hread := ((Reader.Balance.token hlast 0 _ (content_word hkind hid)).mark _).besides
      (ih hlast ⟨hc _ hmem, .nil _⟩)
    exact hread.cast (by rw [zero_add, Piece.contents, Piece.contents, contents_call, contents_args])
  | parameter hkind hfound _ ih =>
    have hword := content_word hkind (Catalog.mem_of_get? hfound).2
    have hread := ((Reader.Balance.token hlast 0 _ hword).mark _).besides (ih hlast trivial)
    exact hread.cast (by rw [zero_add, Piece.contents, Piece.contents, contents_parameter])
  | modifier hkind hfound =>
    have hword := content_word hkind (Catalog.mem_of_get? hfound).2
    exact ((Reader.Balance.token hlast 0 _ hword).mark _).cast (by
      rw [zero_add, Piece.contents, contents_modifier, Multiset.replicate_one])
  | recount hstart hfound hfilled =>
    obtain ⟨hkind, hid⟩ := word_of_argStart (.inl hstart)
    exact (Reader.Balance.token hlast _ _ (content_word hkind hid)).cast (hp.2.contents_recount hfound hfilled).symm
  | bindModifier hstart =>
    obtain ⟨hkind, hid⟩ := word_of_argStart (.inl hstart)
    exact ((Reader.Balance.token hlast _ _ (content_word hkind hid)).mark _).cast (by
      rw [Piece.contents, Piece.contents, contents_bind, contents_modifier, Multiset.replicate_one])
  | @bindParameter _ _ _ _ _ bound _ hstart _ _ ih =>
    obtain ⟨hkind, hid⟩ := word_of_argStart (.inr hstart)
    have hread := ((Reader.Balance.token hlast bound.contents _ (content_word hkind hid)).mark _).besides
      (ih hlast trivial)
    exact hread.cast (by simp only [Piece.contents, contents_bind, contents_parameter, add_assoc])
  | bindValue _ _ _ ih =>
    exact ((Reader.Balance.refl _ _).besides (ih hlast trivial)).cast (by simp only [Piece.contents, contents_bind])

end

/-! ## Rows -/

section

variable {c : Catalog} (hc : ∀ t ∈ c.tiles, t.spec.Distinct)
include hc

/-- Without an error, all the tokens before the reader go into the tree. -/
theorem contents_readAll {rule : String} {r : Reader} (hlast : r.last.kind = .eof)
    (hclean : (r.readAll c rule).2.diags.errors.length = r.diags.errors.length) :
    contents r.rest = (r.readAll c rule).1.contents := by
  unfold Reader.readAll at hclean ⊢
  split at hclean
  · rename_i hempty
    rw [if_pos hempty, List.isEmpty_iff.mp hempty]
    exact contents_empty.symm
  · rename_i hempty
    rw [if_neg hempty]
    have hreading := (readings c rule (8 * r.rest.length + 8)).expr assignPower r
    generalize readExpr c rule (8 * r.rest.length + 8) assignPower r = out at hclean hreading ⊢
    obtain ⟨hle, ts, hts, hread⟩ := hreading.balance hc hlast trivial
    -- Every token that is left over is an error.
    have hextra (d : Diagnostics) (ts : List Token) (f : Token → Diagnostic) (hf : ∀ t, (f t).isError = true) :
        (d ++ ts.map f : Diagnostics).errors.length = d.errors.length + ts.length := by
      simp [Diagnostics.errors, List.filter_map, Function.comp_def, hf]
    rw [hextra _ _ _ fun _ => rfl] at hclean
    have hrest : out.2.rest = [] := List.eq_nil_of_length_eq_zero (by omega)
    rw [hrest, List.append_nil] at hts
    have hsays := hread (by omega)
    rwa [Piece.contents, Piece.contents, zero_add, ← hts] at hsays

/-- Without an error, all the tokens of a row go into its tree. -/
theorem contents_readRow {rule : String} {row : Text.Source} {lastId : Nat} {diags : Diagnostics}
    (hclean : (readRow c rule row lastId diags).2.diags.errors = diags.errors) :
    contents (tokens row) = (readRow c rule row lastId diags).1.contents := by
  obtain ⟨htokens, hlast⟩ := start_of_tokens row lastId diags
  rw [htokens, contents_append, contents_of_silent (.inr (.inr hlast)), add_zero]
  exact contents_readAll hc hlast (congrArg List.length hclean)

end

/-- A row that is read without an error says what its tree says: every value, name, word and sign, just as often.
Reading any tokens ends: the recursion goes no deeper than eight levels for each token and eight more, and if it were
allowed to, or if longer chains of field accesses were, nothing else would be read. -/
theorem reading_keeps_tokens {σ : Type} {c : Catalog} (hc : c.Built σ) (rule : String) :
    (∀ row lastId diags, (readRow c rule row lastId diags).2.diags.errors = diags.errors →
      contents (tokens row) = (readRow c rule row lastId diags).1.contents) ∧
    ∀ r : Reader, r.last.kind = .eof →
      Suffices c rule (8 * r.rest.length + 8) (.expr assignPower) r ∧
      (∀ depth, 8 * r.rest.length + 8 ≤ depth →
        readExpr c rule depth assignPower r = readExpr c rule (8 * r.rest.length + 8) assignPower r) ∧
      ∀ bound e, r.rest.length ≤ bound → readFields bound e r = readFields r.rest.length e r := by
  refine ⟨fun row lastId diags hclean => contents_readRow (fun t ht => hc.distinct ht) hclean, fun r hlast => ?_⟩
  have henough : Suffices c rule (8 * r.rest.length + 8) (.expr assignPower) r :=
    suffices_of_cost hlast (by simp only [Task.cost]; omega)
  exact ⟨henough, fun depth hdepth => (readsSame c rule hdepth).expr _ _ henough,
    fun bound e hbound => readFields_of_length_le hbound (Nat.le_refl _)⟩

def runningServices : Services Unit := { functions := { list := #[{ name := "run" }] } }

/-- Running, as fast as it is said, and at some speed. -/
def runningCatalog : Catalog :=
  { tiles := [
      { id := "fast", kind := .modifier, value := .number },
      { id := "speed", kind := .parameter, value := .number },
      { id := "run", kind := .actuator, fnName := "run", output := .void
        spec := (CallSpec.flatten (some (.bag [.mod "fast", .param "speed"])) 0).1 }] }

theorem built_runningCatalog : runningCatalog.Built Unit := by
  have hfast : Catalog.Built Unit { tiles := runningCatalog.tiles.take 1 } :=
    .modifier .empty (show Catalog.addModifier {} "fast" = .ok _ from rfl)
  have hspeed : Catalog.Built Unit { tiles := runningCatalog.tiles.take 2 } :=
    .parameter hfast (show Catalog.addParameter _ runningServices "speed" .number = .ok _ from rfl)
  exact .actuator hspeed (show Catalog.addActuator _ runningServices "run" "run"
    (some (.bag [.mod "fast", .param "speed"])) = .ok _ from rfl)

/-- The word that is said three times is counted, and the parentheses are gone. -/
theorem reading_keeps_tokens_run :
    (readRow runningCatalog "" "run fast speed (2 * $v.x) fast fast" 0 []).2.diags = [] ∧
    (readRow runningCatalog "" "run fast speed (2 * $v.x) fast fast" 0 []).1.contents =
      {.word "run", .word "fast", .word "speed", .value (.number 2), .sign .star, .variable "v", .sign .dot,
        .word "x", .word "fast", .word "fast"} := by
  have hdiags : (readRow runningCatalog "" "run fast speed (2 * $v.x) fast fast" 0 []).2.diags = [] := by
    decide +kernel
  refine ⟨hdiags, ?_⟩
  rw [← (reading_keeps_tokens built_runningCatalog "").1 _ 0 [] (by rw [hdiags])]
  rfl

end Row
end TileMind
