import TileMind.Proofs.Code.ConstantPool
import TileMind.Proofs.Row.Numbers

/-!
# TileMind.Proofs.Row.Calls

What the nodes of a row look like. Literals are plain constants, and the slots of a call were bound one after
the other, each of them while it was available.

* `Expr.All`: a property of all nodes of a tree.
* `Bindings`: how the slots of a call can come to be bound.
* `formed_readRow`: so they are, in every call of a row.
-/

namespace TileMind
namespace Row

/-! ## Properties of all nodes -/

/-- Every node of a tree has a property. -/
def Expr.All (P : Expr → Prop) (e : Expr) : Prop := ∀ n ∈ e.nodes, P n

def Args.All (P : Expr → Prop) (args : Args) : Prop := ∀ n ∈ Expr.argNodes args, P n

section

variable {P : Expr → Prop} {m : Mark} {e left right object target value operand : Expr} {tile : Tile}
  {name : String} {args : Args}

open Row.Expr

@[simp] theorem all_binary {op : BinaryOp} :
    (Expr.binary m op left right).All P ↔ P (.binary m op left right) ∧ left.All P ∧ right.All P := by
  simp [Expr.All, nodes, or_imp, forall_and]

@[simp] theorem all_unary {op : UnaryOp} :
    (Expr.unary m op operand).All P ↔ P (.unary m op operand) ∧ operand.All P := by
  simp [Expr.All, nodes]

@[simp] theorem all_literal {value : Scalar} : (Expr.literal m value).All P ↔ P (.literal m value) := by
  simp [Expr.All, nodes]

@[simp] theorem all_variable : (Expr.variable m name).All P ↔ P (.variable m name) := by
  simp [Expr.All, nodes]

@[simp] theorem all_field :
    (Expr.field m object name).All P ↔ P (.field m object name) ∧ object.All P := by
  simp [Expr.All, nodes]

@[simp] theorem all_assign :
    (Expr.assign m target value).All P ↔ P (.assign m target value) ∧ target.All P ∧ value.All P := by
  simp [Expr.All, nodes, or_imp, forall_and]

@[simp] theorem all_parameter :
    (Expr.parameter m tile value).All P ↔ P (.parameter m tile value) ∧ value.All P := by
  simp [Expr.All, nodes]

@[simp] theorem all_modifier {count : Nat} :
    (Expr.modifier m tile count).All P ↔ P (.modifier m tile count) := by
  simp [Expr.All, nodes]

@[simp] theorem all_call : (Expr.call m tile args).All P ↔ P (.call m tile args) ∧ args.All P := by
  simp [Expr.All, Args.All, nodes]

@[simp] theorem all_empty : (Expr.empty m).All P ↔ P (.empty m) := by
  simp [Expr.All, nodes]

@[simp] theorem all_error {message : String} : (Expr.error m message).All P ↔ P (.error m message) := by
  simp [Expr.All, nodes]

@[simp] theorem all_nil : Args.nil.All P := by
  simp [Args.All, argNodes]

@[simp] theorem all_cons {slot : Nat} :
    (Args.cons slot value args).All P ↔ value.All P ∧ args.All P := by
  simp [Expr.All, Args.All, argNodes, or_imp, forall_and]

theorem Expr.All.self (h : e.All P) : P e := by
  cases e <;> simp_all

theorem Expr.All.mono {Q : Expr → Prop} (h : e.All P) (hle : ∀ n, P n → Q n) : e.All Q :=
  fun n hn => hle n (h n hn)

theorem all_ofList {bound : List (Nat × Expr)} (h : ∀ b ∈ bound, b.2.All P) :
    (Args.ofList bound).All P := by
  induction bound with
  | nil => exact all_nil
  | cons b bound ih =>
    obtain ⟨slot, value⟩ := b
    rw [Args.ofList, all_cons]
    exact ⟨h (slot, value) List.mem_cons_self, ih fun b hb => h b (List.mem_cons_of_mem _ hb)⟩

end

/-! ## Bindings -/

/-- The bound slots, with the numbers of the nodes that are bound to them. -/
def Bound.places (b : Bound) : List (Nat × Nat) := b.map fun x => (x.1, x.2.id)

/-- The ways to bind slots: nodes are bound in the order of their numbers, each to a slot that is available,
and modifiers are counted once more. -/
inductive Bindings (spec : FlatSpec) : Bound → Prop where
  | nil : Bindings spec []
  | bind {b : Bound} {s : Slot} {e : Expr} (rest : Bindings spec b) (mem : s ∈ spec.slots)
      (available : b.available spec s = true) (later : ∀ x ∈ b.places, x.2 < e.id) :
      Bindings spec (b.bind s.id e)
  | recount {b : Bound} (rest : Bindings spec b) (slot : Nat) : Bindings spec (b.recount slot)

section

variable {b : Bound} {spec : FlatSpec} {slot : Nat} {tile : String}

theorem Bound.places_bind (b : Bound) (slot : Nat) (e : Expr) :
    (b.bind slot e).places = b.places ++ [(slot, e.id)] := by
  simp [places, bind]

/-- A modifier that is counted once more stays where it is. -/
theorem Bound.places_recount (b : Bound) (slot : Nat) : (b.recount slot).places = b.places := by
  unfold places recount
  rw [List.map_map]
  refine List.map_congr_left fun x _ => ?_
  rw [Function.comp_apply]
  split
  · rename_i hslot
    split
    · rename_i heq
      rw [heq, ← hslot]
      rfl
    · rfl
  · rfl

theorem Bound.exists_of_find? {kind : ArgKind} (h : b.find? spec kind tile = some slot)
    (hnew : kind = .modifier → b.isFilled slot = false) :
    ∃ s ∈ spec.slots, s.id = slot ∧ b.available spec s = true := by
  obtain ⟨s, hs, rfl⟩ := Option.map_eq_some_iff.mp h
  have hfits := List.find?_some hs
  simp only [Bool.and_eq_true, Bool.or_eq_true, decide_eq_true_eq] at hfits
  refine ⟨s, List.mem_of_find?_eq_some hs, rfl, hfits.2.resolve_left ?_⟩
  rintro ⟨hkind, hfilled⟩
  rw [hnew hkind] at hfilled
  cases hfilled

theorem Bound.exists_of_anonymous? (h : b.anonymous? spec = some slot) :
    ∃ s ∈ spec.slots, s.id = slot ∧ b.available spec s = true := by
  obtain ⟨s, hs, rfl⟩ := Option.map_eq_some_iff.mp h
  have hfits := List.find?_some hs
  rw [Bool.and_eq_true] at hfits
  exact ⟨s, List.mem_of_find?_eq_some hs, rfl, hfits.2⟩

end

/-! ## Reading -/

/-- The form of a single node. -/
def Expr.Formed : Expr → Prop
  | .literal _ value => value.Plain
  | .call _ tile args => ∃ b : Bound, Bindings tile.spec b ∧ args = b.args
  | _ => True

/-- The arguments of a call, while it is read: slots bound to trees of that form, and no number after `last`
is used so far. -/
structure Bound.Formed (b : Bound) (spec : FlatSpec) (last : Nat) : Prop where
  bindings : Bindings spec b
  values : ∀ x ∈ b, x.2.All Expr.Formed
  drawn : ∀ x ∈ b.places, x.2 ≤ last

namespace Bound.Formed

variable {b : Bound} {spec : FlatSpec} {last last' : Nat}

theorem nil (spec : FlatSpec) (last : Nat) : Bound.Formed [] spec last :=
  ⟨.nil, by simp, by simp [places]⟩

theorem bind {s : Slot} {e : Expr} (h : b.Formed spec last) (hs : s ∈ spec.slots)
    (havailable : b.available spec s = true) (he : e.All Expr.Formed) (hlt : last < e.id) (hle : e.id ≤ last') :
    (b.bind s.id e).Formed spec last' := by
  refine ⟨.bind h.bindings hs havailable fun x hx => (h.drawn x hx).trans_lt hlt, fun x hx => ?_,
    fun x hx => ?_⟩
  · rcases List.mem_append.mp hx with hx | hx
    · exact h.values x hx
    · rwa [List.mem_singleton.mp hx]
  · rw [places_bind] at hx
    rcases List.mem_append.mp hx with hx | hx
    · exact ((h.drawn x hx).trans hlt.le).trans hle
    · rwa [List.mem_singleton.mp hx]

theorem recount (h : b.Formed spec last) (slot : Nat) : (b.recount slot).Formed spec last := by
  refine ⟨h.bindings.recount slot, fun x hx => ?_, fun x hx => h.drawn x (places_recount b slot ▸ hx)⟩
  obtain ⟨y, hy, rfl⟩ := List.mem_map.mp hx
  split
  · split
    · simp [Expr.Formed]
    · exact h.values y hy
  · exact h.values y hy

theorem args (h : b.Formed spec last) : b.args.All Expr.Formed :=
  all_ofList fun x hx => h.values x (List.mem_mergeSort.mp hx)

end Bound.Formed

theorem plain_of_scalar? {t : Token} {value : Scalar} (h : t.scalar? = some value) : value.Plain := by
  unfold Token.scalar? at h
  split at h
  case h_1 =>
    obtain ⟨x, -, rfl⟩ := Option.map_eq_some_iff.mp h
    exact .number x
  case h_6 => cases h
  all_goals
    cases h
    constructor

def Piece.Formed : Piece → (last : Nat) → Prop
  | .nothing, _ => True
  | .tree e, _ => e.All Expr.Formed
  | .args tile bound, last => bound.Formed tile.spec last

theorem Reading.formed {c : Catalog} {rule : String} {p q : Piece} {r r' : Reader} (h : Reading c rule p r q r')
    (hp : p.Formed r.lastId) : q.Formed r'.lastId := by
  induction h with
  | refl => exact hp
  | trans _ _ ihfirst ihrest => exact ihrest (ihfirst hp)
  | fail => exact all_error.mpr trivial
  | failAfter => exact all_error.mpr trivial
  | field => exact all_field.mpr ⟨trivial, hp⟩
  | assign _ _ _ ih => exact all_assign.mpr ⟨trivial, hp, ih trivial⟩
  | binary _ _ ih => exact all_binary.mpr ⟨trivial, hp, ih trivial⟩
  | unary _ _ ih => exact all_unary.mpr ⟨trivial, ih trivial⟩
  | literal htoken => exact all_literal.mpr (plain_of_scalar? htoken)
  | name => exact all_variable.mpr trivial
  | parens _ _ _ ih => exact ih trivial
  | unknown => exact all_error.mpr trivial
  | call _ _ _ ih =>
    have hargs := ih (.nil _ _)
    exact all_call.mpr ⟨⟨_, hargs.bindings, rfl⟩, hargs.args⟩
  | parameter _ _ _ ih => exact all_parameter.mpr ⟨trivial, ih trivial⟩
  | modifier => exact all_modifier.mpr trivial
  | recount => exact Bound.Formed.recount hp _
  | bindModifier _ hfound hfree =>
    obtain ⟨s, hs, rfl, havailable⟩ := Bound.exists_of_find? hfound fun _ => hfree
    exact Bound.Formed.bind hp hs havailable (all_modifier.mpr trivial) (Nat.lt_succ_self _) le_rfl
  | bindParameter _ hfound hvalue ih =>
    obtain ⟨s, hs, rfl, havailable⟩ := Bound.exists_of_find? hfound fun hkind => absurd hkind (by decide)
    exact Bound.Formed.bind hp hs havailable (all_parameter.mpr ⟨trivial, ih trivial⟩) (Nat.lt_succ_self _)
      (hvalue.drawn (.none le_rfl)).le
  | bindValue _ hfound hvalue ih =>
    obtain ⟨s, hs, rfl, havailable⟩ := Bound.exists_of_anonymous? hfound
    obtain ⟨hlt, hle⟩ := (hvalue.drawn (.none le_rfl)).range _ (Expr.id_mem_ids _)
    exact Bound.Formed.bind hp hs havailable (ih trivial) hlt hle

/-- All that is read down to some depth has nodes of that form. -/
structure ReadsFormed (c : Catalog) (rule : String) (depth : Nat) : Prop where
  expr : ∀ power r, (readExpr c rule depth power r).1.All Expr.Formed
  operators : ∀ power left r, left.All Expr.Formed →
    (readOperators c rule depth power left r).1.All Expr.Formed
  unary : ∀ r, (readUnary c rule depth r).1.All Expr.Formed
  primary : ∀ r, (readPrimary c rule depth r).1.All Expr.Formed
  args : ∀ tile bound r, bound.Formed tile.spec r.lastId →
    (readArgs c rule depth tile bound r).1.Formed tile.spec (readArgs c rule depth tile bound r).2.lastId

theorem readsFormed (c : Catalog) (rule : String) (depth : Nat) : ReadsFormed c rule depth :=
  have hreads := readings c rule depth
  { expr := fun power r => (hreads.expr power r).formed trivial
    operators := fun power left r => (hreads.operators power left r).formed
    unary := fun r => (hreads.unary r).formed trivial
    primary := fun r => (hreads.primary r).formed trivial
    args := fun tile bound r => (hreads.args tile bound r).formed }

theorem formed_readRow (c : Catalog) (rule : String) (row : Text.Source) (lastId : Nat) (diags : Diagnostics) :
    (readRow c rule row lastId diags).1.All Expr.Formed := by
  unfold readRow Reader.readAll
  split
  · simp [Expr.Formed]
  · exact (readsFormed c rule _).expr _ _

end Row
end TileMind
