import Mathlib
import TileMind.Value.Datum

/-!
# TileMind.Proofs.Value.Datum

Values as trees: everything they hold, what makes them well-formed, and when two of them agree.

* `Datum.parts`: the value and everything in it, at any depth.
* `Datum.Agrees`: the same value, numbers being compared as numbers and a NaN agreeing with a NaN.
* `Datum.canonical`: the value with every zero written without a sign; it agrees with the value.
-/

namespace TileMind

/-! ## Numbers -/

section

open Float.Model

theorem beq_eq_compare (x y : Float) :
    (x == y) = (UnpackedFloat.compare x.toModel.unpack y.toModel.unpack == some .eq) := rfl

theorem unpack_zero : (0.0 : Float).toModel.unpack = .zero .positive := by rfl

theorem unpack_of_beq_zero {x : Float} (h : x == 0.0) : ∃ s, x.toModel.unpack = .zero s := by
  rw [beq_eq_compare, unpack_zero] at h
  cases hx : x.toModel.unpack with
  | zero s => exact ⟨s, rfl⟩
  | notANumber =>
    rw [hx] at h
    cases h
  | infinity s =>
    rw [hx] at h
    cases s <;> cases h
  | finite s m e hm =>
    rw [hx] at h
    cases s <;> cases h

/-- Zeros cannot be told apart by comparing them. -/
theorem beq_of_zero {x : Float} (h : x == 0.0) (y : Float) :
    (x == y) = ((0.0 : Float) == y) ∧ (y == x) = (y == 0.0) := by
  obtain ⟨s, hs⟩ := unpack_of_beq_zero h
  simp only [beq_eq_compare, hs, unpack_zero]
  cases y.toModel.unpack with
  | zero s => exact ⟨rfl, rfl⟩
  | notANumber => exact ⟨rfl, rfl⟩
  | infinity s => cases s <;> exact ⟨rfl, rfl⟩
  | finite s m e hm => cases s <;> exact ⟨rfl, rfl⟩

theorem beq_self_or_isNaN (x : Float) : x == x ∨ x.isNaN := by
  have hnan : x.isNaN = x.toModel.unpack.isNaN := rfl
  rw [beq_eq_compare, hnan]
  cases x.toModel.unpack with
  | zero s => exact .inl rfl
  | notANumber => exact .inr rfl
  | infinity s => cases s <;> exact .inl rfl
  | finite s m e hm => cases s <;> simp [UnpackedFloat.compare]

end

/-- A number as it is stored: a zero loses its sign. -/
def storedNumber (x : Float) : Float := if x == 0.0 then 0.0 else x

theorem beq_storedNumber (x y : Float) : (storedNumber x == storedNumber y) = (x == y) := by
  unfold storedNumber
  by_cases hx : x == 0.0
  · by_cases hy : y == 0.0
    · rw [if_pos hx, if_pos hy, (beq_of_zero hx y).1, (beq_of_zero hy 0.0).2]
    · rw [if_pos hx, if_neg hy, (beq_of_zero hx y).1]
  · by_cases hy : y == 0.0
    · rw [if_neg hx, if_pos hy, (beq_of_zero hy x).2]
    · rw [if_neg hx, if_neg hy]

/-- Equal numbers, or no numbers both of them. -/
def NumbersAgree (x y : Float) : Prop := x == y ∨ (x.isNaN ∧ y.isNaN)

theorem numbersAgree_storedNumber (x : Float) : NumbersAgree x (storedNumber x) := by
  unfold storedNumber
  split
  · exact .inl ‹_›
  · exact (beq_self_or_isNaN x).imp id fun h => ⟨h, h⟩

/-! ## Scalars -/

namespace Scalar

/-- The scalar as it is stored. -/
def canonical (s : Scalar) : Scalar := { s with num := storedNumber s.num }

/-- The same kind and payloads, numbers being compared as numbers. -/
structure Agrees (s t : Scalar) : Prop where
  kind : s.kind = t.kind
  num : NumbersAgree s.num t.num
  text : s.text = t.text
  type : s.type = t.type

theorem agrees_canonical (s : Scalar) : s.Agrees s.canonical :=
  ⟨rfl, numbersAgree_storedNumber s.num, rfl, rfl⟩

theorem same_canonical (s t : Scalar) : s.canonical.same t.canonical = s.same t := by
  simp only [same, canonical, beq_storedNumber]
  rfl

end Scalar

/-! ## Values -/

namespace Datum

def children : Datum → List Datum
  | .list _ items => items
  | .map _ entries => entries.map Prod.snd
  | .struct _ fields => fields.map Prod.snd
  | .scalar _ | .handle _ | .error _ => []

theorem sizeOf_children {d c : Datum} (h : c ∈ d.children) : sizeOf c < sizeOf d := by
  cases d with
  | scalar s => cases h
  | handle id => cases h
  | error fault => cases h
  | list type items =>
    have := List.sizeOf_lt_of_mem (show c ∈ items from h)
    simp
    omega
  | map type entries =>
    obtain ⟨e, he, rfl⟩ := List.mem_map.mp h
    have := List.sizeOf_lt_of_mem he
    obtain ⟨k, c⟩ := e
    simp at this ⊢
    omega
  | struct type fields =>
    obtain ⟨e, he, rfl⟩ := List.mem_map.mp h
    have := List.sizeOf_lt_of_mem he
    obtain ⟨name, c⟩ := e
    simp at this ⊢
    omega

/-- Induction on values: what holds of a value whenever it holds of all that is in it. -/
theorem induction_children {P : Datum → Prop} (h : ∀ d, (∀ c ∈ d.children, P c) → P d) (d : Datum) :
    P d :=
  h d fun c _hc => induction_children h c
termination_by sizeOf d
decreasing_by exact sizeOf_children _hc

mutual

def parts : Datum → List Datum
  | d@(.list _ items) => d :: itemParts items
  | d@(.map _ entries) => d :: entryParts entries
  | d@(.struct _ fields) => d :: fieldParts fields
  | d@(.scalar _) | d@(.handle _) | d@(.error _) => [d]
termination_by structural d => d

def itemParts : List Datum → List Datum
  | [] => []
  | d :: rest => d.parts ++ itemParts rest
termination_by structural ds => ds

def entryParts : List (Scalar × Datum) → List Datum
  | [] => []
  | (_, d) :: rest => d.parts ++ entryParts rest
termination_by structural es => es

def fieldParts : List (String × Datum) → List Datum
  | [] => []
  | (_, d) :: rest => d.parts ++ fieldParts rest
termination_by structural fs => fs

end

theorem itemParts_eq (items : List Datum) : itemParts items = items.flatMap parts := by
  induction items with
  | nil => rfl
  | cons d items ih => simp [itemParts, ih]

theorem entryParts_eq (entries : List (Scalar × Datum)) :
    entryParts entries = (entries.map Prod.snd).flatMap parts := by
  induction entries with
  | nil => rfl
  | cons e entries ih => simp [entryParts, ih]

theorem fieldParts_eq (fields : List (String × Datum)) :
    fieldParts fields = (fields.map Prod.snd).flatMap parts := by
  induction fields with
  | nil => rfl
  | cons e fields ih => simp [fieldParts, ih]

theorem parts_eq (d : Datum) : d.parts = d :: d.children.flatMap parts := by
  cases d <;> simp [parts, children, itemParts_eq, entryParts_eq, fieldParts_eq]

theorem self_mem_parts (d : Datum) : d ∈ d.parts := by
  rw [parts_eq]
  exact List.mem_cons_self

theorem parts_subset {d c : Datum} (h : c ∈ d.children) : c.parts ⊆ d.parts := by
  intro x hx
  rw [parts_eq d]
  exact List.mem_cons_of_mem _ (List.mem_flatMap.mpr ⟨c, h, hx⟩)

/-- Values that only exist while a brain runs. -/
def isTransient : Datum → Bool
  | .handle _ | .error _ => true
  | _ => false

/-- What the parts of a value observe: no two keys of a map are the same, and every one is a key that
can be found again; the fields of a struct are in the order of their names. -/
def Proper : Datum → Prop
  | .map _ entries =>
    (∀ e ∈ entries, e.1.isPrimitive ∧ e.1.same e.1) ∧ entries.Pairwise fun a b => ¬ a.1.same b.1
  | .struct _ fields => fields.Pairwise fun a b => a.1 < b.1
  | _ => True

instance : DecidablePred Proper
  | .map _ entries => inferInstanceAs (Decidable
      ((∀ e ∈ entries, e.1.isPrimitive ∧ e.1.same e.1) ∧ entries.Pairwise fun a b => ¬ a.1.same b.1))
  | .struct _ fields => inferInstanceAs (Decidable (fields.Pairwise fun a b => a.1 < b.1))
  | .scalar _ | .list _ _ | .handle _ | .error _ => inferInstanceAs (Decidable True)

/-- Every part of the value is proper. -/
def WellFormed (d : Datum) : Prop := ∀ x ∈ d.parts, x.Proper

instance : DecidablePred WellFormed := fun d => inferInstanceAs (Decidable (∀ x ∈ d.parts, x.Proper))

theorem WellFormed.child {d c : Datum} (h : d.WellFormed) (hc : c ∈ d.children) : c.WellFormed :=
  fun x hx => h x (parts_subset hc hx)

/-- The same value, numbers being compared as numbers. -/
inductive Agrees : Datum → Datum → Prop where
  | scalar {s t : Scalar} : s.Agrees t → Agrees (.scalar s) (.scalar t)
  | list {type : TypeId} {items items' : List Datum} :
      List.Forall₂ Agrees items items' → Agrees (.list type items) (.list type items')
  | map {type : TypeId} {entries entries' : List (Scalar × Datum)} :
      List.Forall₂ Scalar.Agrees (entries.map Prod.fst) (entries'.map Prod.fst) →
      List.Forall₂ Agrees (entries.map Prod.snd) (entries'.map Prod.snd) →
      Agrees (.map type entries) (.map type entries')
  | struct {type : TypeId} {fields fields' : List (String × Datum)} :
      fields.map Prod.fst = fields'.map Prod.fst →
      List.Forall₂ Agrees (fields.map Prod.snd) (fields'.map Prod.snd) →
      Agrees (.struct type fields) (.struct type fields')

mutual

/-- The value as it is stored. -/
def canonical : Datum → Datum
  | .scalar s => .scalar s.canonical
  | .list type items => .list type (canonicalItems items)
  | .map type entries => .map type (canonicalEntries entries)
  | .struct type fields => .struct type (canonicalFields fields)
  | .handle id => .handle id
  | .error fault => .error fault
termination_by structural d => d

def canonicalItems : List Datum → List Datum
  | [] => []
  | d :: rest => d.canonical :: canonicalItems rest
termination_by structural ds => ds

def canonicalEntries : List (Scalar × Datum) → List (Scalar × Datum)
  | [] => []
  | (k, d) :: rest => (k.canonical, d.canonical) :: canonicalEntries rest
termination_by structural es => es

def canonicalFields : List (String × Datum) → List (String × Datum)
  | [] => []
  | (name, d) :: rest => (name, d.canonical) :: canonicalFields rest
termination_by structural fs => fs

end

theorem canonicalItems_eq (items : List Datum) : canonicalItems items = items.map canonical := by
  induction items with
  | nil => rfl
  | cons d items ih => simp [canonicalItems, ih]

theorem canonicalEntries_eq (entries : List (Scalar × Datum)) :
    canonicalEntries entries = entries.map fun e => (e.1.canonical, e.2.canonical) := by
  induction entries with
  | nil => rfl
  | cons e entries ih => simp [canonicalEntries, ih]

theorem canonicalFields_eq (fields : List (String × Datum)) :
    canonicalFields fields = fields.map fun f => (f.1, f.2.canonical) := by
  induction fields with
  | nil => rfl
  | cons e fields ih => simp [canonicalFields, ih]

theorem forall₂_map {α β : Type} {R : α → β → Prop} {f : α → β} {xs : List α}
    (h : ∀ x ∈ xs, R x (f x)) : List.Forall₂ R xs (xs.map f) := by
  rw [List.forall₂_map_right_iff, List.forall₂_same]
  exact h

theorem agrees_canonical (d : Datum) (h : ∀ x ∈ d.parts, x.isTransient = false) :
    d.Agrees d.canonical := by
  induction d using induction_children with
  | h d ih =>
    have hchild : ∀ c ∈ d.children, c.Agrees c.canonical :=
      fun c hc => ih c hc fun x hx => h x (parts_subset hc hx)
    cases d with
    | scalar s => exact .scalar s.agrees_canonical
    | list type items =>
      rw [canonical, canonicalItems_eq]
      exact .list (forall₂_map hchild)
    | map type entries =>
      rw [canonical, canonicalEntries_eq]
      refine .map ?_ ?_
      · rw [List.map_map, List.forall₂_map_left_iff, List.forall₂_map_right_iff, List.forall₂_same]
        exact fun e _ => e.1.agrees_canonical
      · rw [List.map_map, List.forall₂_map_left_iff, List.forall₂_map_right_iff, List.forall₂_same]
        exact fun e he => hchild e.2 (List.mem_map_of_mem he)
    | struct type fields =>
      rw [canonical, canonicalFields_eq]
      refine .struct (by rw [List.map_map]; rfl) ?_
      rw [List.map_map, List.forall₂_map_left_iff, List.forall₂_map_right_iff, List.forall₂_same]
      exact fun f hf => hchild f.2 (List.mem_map_of_mem hf)
    | handle id => exact absurd (h _ (self_mem_parts _)) (by simp [isTransient])
    | error fault => exact absurd (h _ (self_mem_parts _)) (by simp [isTransient])

end Datum

end TileMind
