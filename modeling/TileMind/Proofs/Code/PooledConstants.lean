import TileMind.Proofs.Code.ConstantPool

/-!
# TileMind.Proofs.Code.PooledConstants

What additions to a pool hand out, whatever the values are and however often the pool is emptied in
between. A pool never looks into a container, and of a primitive value it looks at the key only; so
all depends on what keys can tell apart.

* `key_eq_iff`: keys are the same for values of the same kind, type and payload, and for enum keys
  that read the same once the type is written in front of them.
* `Keyed`: the index finds the slots by the keys of what is in them.
* `pooled_constants`: what the slots hold, and who shares them.
* `enum_key_takes_over`: an enum key in the slot of one of another type.
-/

namespace TileMind

/-! ## Keys -/

/-- What a value says, beside its kind and its type. -/
inductive Payload where
  | nothing
  | truth (b : Bool)
  | number (x : Float)
  | text (s : String)

namespace Scalar

def payload (s : Scalar) : Payload :=
  match s.kind with
  | .unknown | .void | .nil => .nothing
  | .boolean => .truth (s.num != 0.0)
  | .number => .number s.num
  | .string | .enum => .text s.text

/-- Kind, type and payload agree. -/
structure Alike (s t : Scalar) : Prop where
  kind : s.kind = t.kind
  type : s.typeId = t.typeId
  payload : s.payload = t.payload

/-- Two enum keys that read the same with their types in front. -/
structure ReadsLike (s t : Scalar) : Prop where
  left : s.kind = .enum
  right : t.kind = .enum
  joined : s.type ++ "|" ++ s.text = t.type ++ "|" ++ t.text

/-- The type of a scalar follows from its kind, unless it is an enum key. -/
theorem alike_of_payload {s t : Scalar} (hkind : s.kind = t.kind) (henum : s.kind ≠ .enum)
    (hpayload : s.payload = t.payload) : s.Alike t := by
  refine ⟨hkind, ?_, hpayload⟩
  cases hs : s.kind <;> rw [hs] at hkind henum <;> simp_all [typeId, ← hkind]

end Scalar

namespace ConstantPool

theorem kind_eq_of_key_eq {s t : Scalar} (h : key s = key t) : s.kind = t.kind := by
  apply mark_injective
  rw [← take_key, ← take_key, h]

/-- What keys can tell apart. -/
theorem key_eq_iff {s t : Scalar} : key s = key t ↔ s.Alike t ∨ s.ReadsLike t := by
  constructor
  · intro h
    have hkind := kind_eq_of_key_eq h
    have alike (henum : s.kind ≠ .enum) := Scalar.alike_of_payload hkind henum
    cases hs : s.kind <;> rw [hs] at hkind alike <;> simp only [key, hs, ← hkind] at h
    case number =>
      have hnum := Decimal.general_injective (String.append_right_inj _ |>.mp h)
      exact .inl (alike nofun (by simp [Scalar.payload, hs, ← hkind, hnum]))
    case string =>
      have htext := String.append_right_inj _ |>.mp h
      exact .inl (alike nofun (by simp [Scalar.payload, hs, ← hkind, htext]))
    case boolean =>
      have htruth : (s.num != 0.0) = (t.num != 0.0) := by
        have hword := String.append_right_inj _ |>.mp h
        revert hword
        cases s.num != 0.0 <;> cases t.num != 0.0 <;> decide
      exact .inl (alike nofun (by simp [Scalar.payload, hs, ← hkind, htruth]))
    case enum => exact .inr ⟨hs, hkind.symm, by simpa [String.append_assoc] using h⟩
    all_goals exact .inl (alike nofun (by simp [Scalar.payload, hs, ← hkind]))
  · rintro (⟨hkind, htype, hpayload⟩ | ⟨hs, ht, hjoined⟩)
    · cases hs : s.kind <;> rw [hs] at hkind <;>
        simp only [Scalar.payload, Scalar.typeId, hs, ← hkind] at htype hpayload <;>
        simp only [key, hs, ← hkind]
      case number | string | boolean => injection hpayload with hpayload; rw [hpayload]
      case enum => injection hpayload with hpayload; rw [htype, hpayload]
    · simp only [key, hs, ht, String.append_assoc] at hjoined ⊢
      rw [hjoined]

/-! ## One addition -/

def key? : Datum → Option String
  | .scalar s => if s.isPrimitive then some (key s) else none
  | _ => none

variable {p : ConstantPool} {d : Datum}

theorem add_found {k : String} {slot : Nat} (hk : key? d = some k)
    (hslot : p.index.lookup k = some slot) : p.add d = (slot, p) := by
  cases d with
  | scalar s =>
    cases hs : s.isPrimitive with
    | true =>
      obtain rfl : key s = k := by simpa [key?, hs] using hk
      simp [add, hs, hslot]
    | false => simp [key?, hs] at hk
  | _ => cases hk

theorem add_new (hnew : ∀ k, key? d = some k → p.index.lookup k = none) :
    p.add d = (p.values.size,
      ⟨p.values.push d, p.index ++ ((key? d).map (·, p.values.size)).toList⟩) := by
  cases d with
  | scalar s =>
    cases hs : s.isPrimitive with
    | true =>
      have hnone := hnew (key s) (by simp [key?, hs])
      simp [add, key?, hs, hnone]
    | false => simp [add, key?, hs, push]
  | _ => simp [add, key?, push]

/-- An addition finds the key of the value, or it takes a new slot. -/
theorem found_or_new (p : ConstantPool) (d : Datum) :
    (∃ k slot, key? d = some k ∧ p.index.lookup k = some slot) ∨
      ∀ k, key? d = some k → p.index.lookup k = none := by
  by_cases h : ∃ k slot, key? d = some k ∧ p.index.lookup k = some slot
  · exact .inl h
  · refine .inr fun k hk => Option.eq_none_iff_forall_ne_some.mpr fun slot hslot => ?_
    exact h ⟨k, slot, hk, hslot⟩

/-- The index finds the slots by the keys of what is in them. -/
def Keyed (p : ConstantPool) : Prop :=
  ∀ k slot, p.index.lookup k = some slot ↔ (p.values[slot]?).bind key? = some k

theorem lookup_toList_map {d : Datum} {size : Nat} {k : String} {slot : Nat} :
    ((key? d).map (·, size)).toList.lookup k = some slot ↔ key? d = some k ∧ slot = size := by
  cases hd : key? d with
  | none => simp
  | some k' =>
    simp only [Option.map_some, Option.toList_some, List.lookup_cons, List.lookup_nil]
    by_cases hk : k = k'
    · simp [hk, eq_comm]
    · simp [beq_eq_false_iff_ne.mpr hk, Ne.symm hk]

theorem Keyed.add (hp : p.Keyed) (d : Datum) : (p.add d).2.Keyed := by
  obtain ⟨k, slot, hk, hslot⟩ | hnew := p.found_or_new d
  · rw [add_found hk hslot]
    exact hp
  · rw [add_new hnew]
    intro k slot
    rw [List.lookup_append, Option.or_eq_some_iff, lookup_toList_map, Array.getElem?_push]
    by_cases hslot : slot = p.values.size
    · subst hslot
      have hfree : p.index.lookup k ≠ some p.values.size := by simp [hp k p.values.size]
      rw [if_pos rfl, Option.bind_some]
      exact ⟨fun h => (h.resolve_left hfree).2.1, fun hd => .inr ⟨hnew k hd, hd, rfl⟩⟩
    · rw [if_neg hslot, ← hp k slot]
      exact ⟨fun h => h.resolve_right fun hlast => hslot hlast.2.2, .inl⟩

/-! ## A pool in use -/

/-- What is asked of a pool. -/
inductive Request where
  | add (d : Datum)
  | reset

/-- A pool with the values that were added since it was last emptied, each with its slot. -/
structure Session where
  pool : ConstantPool := {}
  given : List (Datum × Nat) := []

namespace Session

def perform (s : Session) : Request → Session
  | .add d => ⟨(s.pool.add d).2, s.given ++ [(d, (s.pool.add d).1)]⟩
  | .reset => {}

def run (rs : List Request) : Session := rs.foldl perform {}

/-- The value that stands for another one in its slot. -/
structure Stands (w d : Datum) : Prop where
  key : key? w = key? d
  own : key? d = none → w = d

/-- What holds of a pool in use. -/
structure Sound (s : Session) : Prop where
  keyed : s.pool.Keyed
  first : ∀ slot, s.pool.values[slot]? = (s.given.find? fun g => g.2 = slot).map Prod.fst
  held : ∀ g ∈ s.given, ∃ w, s.pool.values[g.2]? = some w ∧ Stands w g.1
  apart : s.given.Pairwise fun x y => x.2 = y.2 ↔ ∃ k, key? x.1 = some k ∧ key? y.1 = some k

theorem sound_empty : Sound {} := ⟨by intro k slot; simp, by simp, by simp, .nil⟩

/-- A value that was given a slot is found by its key, if it has one. -/
theorem Sound.lookup {s : Session} (hs : s.Sound) {g : Datum × Nat} (hg : g ∈ s.given) {k : String}
    (hk : key? g.1 = some k) : s.pool.index.lookup k = some g.2 := by
  obtain ⟨w, hw, hstands⟩ := hs.held g hg
  rw [hs.keyed, hw, Option.bind_some, hstands.key, hk]

theorem Sound.add {s : Session} (hs : s.Sound) (d : Datum) : (s.perform (.add d)).Sound := by
  have hkeyed := hs.keyed.add d
  obtain ⟨k, slot, hk, hslot⟩ | hnew := s.pool.found_or_new d
  · obtain ⟨w, hw, hwk⟩ := Option.bind_eq_some_iff.mp ((hs.keyed k slot).mp hslot)
    rw [add_found hk hslot] at hkeyed
    refine ⟨by rwa [perform, add_found hk hslot], ?_, ?_, ?_⟩ <;>
      simp only [perform, add_found hk hslot]
    · intro i
      rw [hs.first i, List.find?_append]
      cases hfind : s.given.find? fun g => g.2 = i with
      | some g => rfl
      | none =>
        have hne : slot ≠ i := by
          rintro rfl
          rw [hs.first, hfind] at hw
          cases hw
        simp [hne]
    · intro g hg
      rcases List.mem_append.mp hg with hg | hg
      · exact hs.held g hg
      · rw [List.mem_singleton.mp hg]
        exact ⟨w, hw, by rw [hwk, hk], by simp [hk]⟩
    · refine List.pairwise_append.mpr ⟨hs.apart, List.pairwise_singleton _ _, fun x hx y hy => ?_⟩
      rw [List.mem_singleton.mp hy]
      constructor
      · rintro rfl
        obtain ⟨v, hv, hstands⟩ := hs.held x hx
        rw [hw, Option.some.injEq] at hv
        exact ⟨k, by rw [← hstands.key, ← hv, hwk], hk⟩
      · rintro ⟨k', hxk, hdk⟩
        obtain rfl : k = k' := by simpa [hk] using hdk
        simpa [hslot, eq_comm] using hs.lookup hx hxk
  · have hlt : ∀ g ∈ s.given, g.2 < s.pool.values.size := by
      intro g hg
      obtain ⟨w, hw, -⟩ := hs.held g hg
      exact (Array.getElem?_eq_some_iff.mp hw).1
    rw [add_new hnew] at hkeyed
    refine ⟨by rwa [perform, add_new hnew], ?_, ?_, ?_⟩ <;> simp only [perform, add_new hnew]
    · intro i
      rw [List.find?_append, Array.getElem?_push]
      split
      · rename_i hi
        subst hi
        have hnone : s.given.find? (fun g => decide (g.2 = s.pool.values.size)) = none := by
          rw [List.find?_eq_none]
          intro g hg
          have := hlt g hg
          simp
          omega
        simp [hnone]
      · rename_i hi
        rw [hs.first i]
        cases s.given.find? fun g => g.2 = i with
        | some g => rfl
        | none => simp [Ne.symm hi]
    · intro g hg
      rcases List.mem_append.mp hg with hg | hg
      · obtain ⟨w, hw, hstands⟩ := hs.held g hg
        exact ⟨w, by rw [Array.getElem?_push_lt (hlt g hg), ← hw, Array.getElem?_eq_getElem], hstands⟩
      · rw [List.mem_singleton.mp hg]
        exact ⟨d, Array.getElem?_push_size, rfl, fun _ => rfl⟩
    · refine List.pairwise_append.mpr ⟨hs.apart, List.pairwise_singleton _ _, fun x hx y hy => ?_⟩
      rw [List.mem_singleton.mp hy]
      refine ⟨fun h => absurd h (hlt x hx).ne, ?_⟩
      rintro ⟨k, hxk, hdk⟩
      simpa [hnew k hdk] using hs.lookup hx hxk

theorem sound_run (rs : List Request) : (run rs).Sound := by
  suffices h : ∀ s : Session, s.Sound → (rs.foldl perform s).Sound from h {} sound_empty
  induction rs with
  | nil => exact fun _ hs => hs
  | cons r rs ih =>
    intro s hs
    cases r with
    | add d => exact ih _ (hs.add d)
    | reset => exact ih _ sound_empty

/-! ## Containers -/

def map (f : Datum → Datum) (s : Session) : Session :=
  ⟨⟨s.pool.values.map f, s.pool.index⟩, s.given.map fun g => (f g.1, g.2)⟩

end Session

def Request.map (f : Datum → Datum) : Request → Request
  | .add d => .add (f d)
  | .reset => .reset

theorem Session.map_empty (f : Datum → Datum) : Session.map f {} = {} := by simp [map]

/-- Values that are exchanged for others with the same keys come back exchanged. -/
theorem Session.perform_map {f : Datum → Datum} (hf : ∀ d, key? (f d) = key? d) (s : Session)
    (r : Request) : (s.map f).perform (r.map f) = (s.perform r).map f := by
  cases r with
  | reset => exact (map_empty f).symm
  | add d =>
    obtain ⟨k, slot, hk, hslot⟩ | hnew := s.pool.found_or_new d
    · have hmapped := add_found (p := (s.map f).pool) (by rw [hf, hk]) hslot
      simp only [Request.map, perform, add_found hk hslot, hmapped]
      simp [map]
    · have hmapped := add_new (p := (s.map f).pool) (d := f d) (by rw [hf]; exact hnew)
      simp only [Request.map, perform, add_new hnew, hmapped]
      simp [map, hf]

theorem Session.run_map {f : Datum → Datum} (hf : ∀ d, key? (f d) = key? d) (rs : List Request) :
    run (rs.map (Request.map f)) = (run rs).map f := by
  suffices h : ∀ s : Session, (rs.map (Request.map f)).foldl perform (s.map f) =
      (rs.foldl perform s).map f by
    have hempty := h {}
    rwa [map_empty] at hempty
  induction rs with
  | nil => exact fun _ => rfl
  | cons r rs ih =>
    intro s
    rw [List.map_cons, List.foldl_cons, List.foldl_cons, perform_map hf, ih]

theorem key?_of_other {d : Datum} (h : d.scalar? = none) : key? d = none := by
  cases d with
  | scalar s => cases h
  | _ => rfl

theorem key?_map {f : Datum → Datum} (hscalar : ∀ s, f (.scalar s) = .scalar s)
    (hother : ∀ d, d.scalar? = none → (f d).scalar? = none) (d : Datum) : key? (f d) = key? d := by
  by_cases hd : d.scalar? = none
  · rw [key?_of_other hd, key?_of_other (hother d hd)]
  · cases d with
    | scalar s => rw [hscalar]
    | _ => exact absurd rfl hd

end ConstantPool

/-- Two primitive values that a pool takes for one. -/
def Datum.Shares (d e : Datum) : Prop :=
  ∃ s t : Scalar, d = .scalar s ∧ e = .scalar t ∧ s.isPrimitive = true ∧ t.isPrimitive = true ∧
    (s.Alike t ∨ s.ReadsLike t)

namespace ConstantPool

theorem key?_eq_some_iff {d : Datum} {k : String} :
    key? d = some k ↔ ∃ s, d = .scalar s ∧ s.isPrimitive = true ∧ key s = k := by
  cases d <;> simp [key?]

theorem shares_iff {d e : Datum} : d.Shares e ↔ ∃ k, key? d = some k ∧ key? e = some k := by
  simp only [key?_eq_some_iff, Datum.Shares, ← key_eq_iff]
  constructor
  · rintro ⟨s, t, rfl, rfl, hs, ht, hkey⟩
    exact ⟨key s, ⟨s, rfl, hs, rfl⟩, t, rfl, ht, hkey.symm⟩
  · rintro ⟨k, ⟨s, rfl, hs, rfl⟩, t, rfl, ht, hkey⟩
    exact ⟨s, t, rfl, rfl, hs, ht, hkey.symm⟩

theorem Session.Stands.cases {w d : Datum} (h : Stands w d) : w = d ∨ w.Shares d := by
  cases hd : key? d with
  | none => exact .inl (h.own hd)
  | some k => exact .inr (shares_iff.mpr ⟨k, by rw [h.key, hd], hd⟩)

end ConstantPool

open ConstantPool in
/-- For every sequence of additions and resets: a slot holds the first value that it was given for since
the last reset. It is the value that was added, or a primitive one that passes for it, and later
additions leave it alone. Two values have the same slot if and only if they are primitive and alike
in kind, type and payload, or enum keys that read the same with their types in front. What is in a
container plays no part: exchanged for others, containers come back exchanged. -/
theorem pooled_constants (rs : List Request) :
    (∀ slot, (Session.run rs).pool.values[slot]? =
      ((Session.run rs).given.find? fun g => g.2 = slot).map Prod.fst) ∧
    (∀ g ∈ (Session.run rs).given, (∃ w, (Session.run rs).pool.values[g.2]? = some w ∧
        (w = g.1 ∨ w.Shares g.1)) ∧
      ∀ d, ((Session.run rs).pool.add d).2.values[g.2]? = (Session.run rs).pool.values[g.2]?) ∧
    (Session.run rs).given.Pairwise (fun x y => x.2 = y.2 ↔ x.1.Shares y.1) ∧
    ∀ f : Datum → Datum, (∀ s, f (.scalar s) = .scalar s) →
      (∀ d, d.scalar? = none → (f d).scalar? = none) →
      Session.run (rs.map (Request.map f)) = (Session.run rs).map f := by
  have hs := Session.sound_run rs
  refine ⟨hs.first, fun g hg => ?_, ?_, fun f hscalar hother => ?_⟩
  · obtain ⟨w, hw, hstands⟩ := hs.held g hg
    refine ⟨⟨w, hw, hstands.cases⟩, fun d => ?_⟩
    obtain ⟨more, hmore⟩ := values_prefix_add (Session.run rs).pool d
    have hlt := (Array.getElem?_eq_some_iff.mp hw).1
    rw [← Array.getElem?_toList, ← Array.getElem?_toList, ← hmore,
      List.getElem?_append_left (by simpa using hlt)]
  · simpa only [shares_iff] using hs.apart
  · exact Session.run_map (key?_map hscalar hother) rs

open ConstantPool in
/-- A text that comes twice, and two lists of the same type. -/
def mixedAdditions : List Request :=
  [.add (.scalar .nil), .reset, .add (.scalar (.string "x")), .add (.list "list<number>" []),
    .add (.list "list<number>" []), .add (.scalar (.string "x"))]

/-- Every container exchanged for the same handle. -/
def withoutContainers (d : Datum) : Datum := (d.scalar?.map .scalar).getD (.handle 7)

open ConstantPool in
theorem pooled_constants_mixed :
    (Session.run mixedAdditions).given = [(.scalar (.string "x"), 0), (.list "list<number>" [], 1),
      (.list "list<number>" [], 2), (.scalar (.string "x"), 0)] ∧
    (∃ w, (Session.run mixedAdditions).pool.values[1]? = some w ∧
      (w = .list "list<number>" [] ∨ w.Shares (.list "list<number>" []))) ∧
    ¬ (Datum.list "list<number>" []).Shares (.list "list<number>" []) ∧
    (Session.run (mixedAdditions.map (Request.map withoutContainers))).pool.values =
      #[.scalar (.string "x"), .handle 7, .handle 7] := by
  have hgiven : (Session.run mixedAdditions).given =
      [(.scalar (.string "x"), 0), (.list "list<number>" [], 1), (.list "list<number>" [], 2),
        (.scalar (.string "x"), 0)] := rfl
  obtain ⟨-, hheld, happart, hmap⟩ := pooled_constants mixedAdditions
  rw [hgiven] at hheld happart
  refine ⟨hgiven, (hheld (.list "list<number>" [], 1) (by simp)).1, ?_, ?_⟩
  · intro hshares
    have hpair := (List.pairwise_cons.mp (List.pairwise_cons.mp happart).2).1
    exact absurd ((hpair (.list "list<number>" [], 2) (by simp)).mpr hshares) (by decide)
  · have hvalues : (Session.run mixedAdditions).pool.values =
        #[.scalar (.string "x"), .list "list<number>" [], .list "list<number>" []] := rfl
    rw [hmap withoutContainers (fun _ => rfl) (by intro d hd; rw [withoutContainers, hd]; rfl)]
    simp [Session.map, hvalues, withoutContainers, Datum.scalar?]

open ConstantPool in
/-- A key of the enum `a` gets the slot, and with it the value, of a key of the enum `a|b`. -/
theorem enum_key_takes_over :
    (Session.run [.add (.scalar (.enum "a|b" "c")), .add (.scalar (.enum "a" "b|c"))]).given =
      [(.scalar (.enum "a|b" "c"), 0), (.scalar (.enum "a" "b|c"), 0)] ∧
    (Session.run [.add (.scalar (.enum "a|b" "c")), .add (.scalar (.enum "a" "b|c"))]).pool.values =
      #[.scalar (.enum "a|b" "c")] ∧
    ¬ (Scalar.enum "a|b" "c").Alike (.enum "a" "b|c") := by
  refine ⟨rfl, rfl, ?_⟩
  rintro ⟨-, htype, -⟩
  exact absurd htype (by decide)

end TileMind
