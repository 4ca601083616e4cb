import Mathlib.Algebra.Group.Int.Defs
import Mathlib.Data.List.Perm.Basic
import Mathlib.Data.List.Sort
import Mathlib.Data.String.Basic
import TileMind.Program.Wire
import TileMind.Proofs.Text.Utf8

/-!
# TileMind.Proofs.Program.Records

Reading back single items, lists, records and tables of names.

* `Wire.readRecord_ofNumbered`: a record takes over its fields one by one.
* `Fields.ofList_of_perm`: fields come into the order of their names, in whatever order they are given.
-/

namespace TileMind

/-! ## Fields -/

namespace Fields

variable {α : Type}

theorem mem_insertInto {name : String} {v : α} {entries : List (String × α)} {e : String × α}
    (h : e ∈ insertInto name v entries) : e = (name, v) ∨ e ∈ entries := by
  induction entries with
  | nil => exact .inl (List.mem_singleton.mp h)
  | cons first entries ih =>
    unfold insertInto at h
    split at h
    · exact List.mem_cons.mp h
    · split at h
      · exact (List.mem_cons.mp h).imp id (List.mem_cons_of_mem _)
      · rcases List.mem_cons.mp h with rfl | h
        · exact .inr List.mem_cons_self
        · exact (ih h).imp id (List.mem_cons_of_mem _)

theorem insertInto_perm {name : String} {v : α} {entries : List (String × α)}
    (h : name ∉ entries.map Prod.fst) : (insertInto name v entries).Perm ((name, v) :: entries) := by
  induction entries with
  | nil => exact .refl _
  | cons e entries ih =>
    rw [List.map_cons, List.mem_cons, not_or] at h
    unfold insertInto
    split
    · exact .refl _
    · rw [if_neg h.1]
      exact ((ih h.2).cons e).trans (List.Perm.swap _ _ _)

theorem pairwise_insertInto {name : String} {v : α} {entries : List (String × α)}
    (h : entries.Pairwise fun a b => a.1 < b.1) :
    (insertInto name v entries).Pairwise fun a b => a.1 < b.1 := by
  induction entries with
  | nil => exact List.pairwise_singleton _ _
  | cons e entries ih =>
    rw [List.pairwise_cons] at h
    unfold insertInto
    split
    · rename_i hlt
      refine List.pairwise_cons.mpr ⟨?_, List.pairwise_cons.mpr h⟩
      intro b hb
      rcases List.mem_cons.mp hb with rfl | hb
      · exact hlt
      · exact hlt.trans (h.1 b hb)
    · rename_i hnlt
      split
      · rename_i heq
        exact List.pairwise_cons.mpr ⟨fun b hb => heq ▸ h.1 b hb, h.2⟩
      · rename_i hne
        have hgt : e.1 < name := lt_of_le_of_ne (not_lt.mp hnlt) (Ne.symm hne)
        refine List.pairwise_cons.mpr ⟨?_, ih h.2⟩
        intro b hb
        rcases mem_insertInto hb with rfl | hb
        · exact hgt
        · exact h.1 b hb

theorem entries_foldl_insert (pairs : List (String × α)) (f : Fields α)
    (hsorted : f.entries.Pairwise fun a b => a.1 < b.1)
    (hnodup : ((f.entries ++ pairs).map Prod.fst).Nodup) :
    (pairs.foldl (fun f e => f.insert e.1 e.2) f).entries.Pairwise (fun a b => a.1 < b.1) ∧
      (pairs.foldl (fun f e => f.insert e.1 e.2) f).entries.Perm (f.entries ++ pairs) := by
  induction pairs generalizing f with
  | nil => exact ⟨hsorted, by simp⟩
  | cons e pairs ih =>
    have hfresh : e.1 ∉ f.entries.map Prod.fst := by
      intro hmem
      rw [List.map_append, List.nodup_append] at hnodup
      exact hnodup.2.2 _ hmem _ (by simp) rfl
    have hperm : ((f.insert e.1 e.2).entries ++ pairs).Perm (f.entries ++ e :: pairs) :=
      ((insertInto_perm hfresh).append_right pairs).trans List.perm_middle.symm
    obtain ⟨hsorted', hperm'⟩ := ih (f.insert e.1 e.2) (pairwise_insertInto hsorted)
      ((hperm.map Prod.fst).nodup_iff.mpr hnodup)
    exact ⟨hsorted', hperm'.trans hperm⟩

/-- Fields come into the order of their names. -/
theorem ofList_of_perm {pairs entries : List (String × α)} (hperm : pairs.Perm entries)
    (hsorted : entries.Pairwise fun a b => a.1 < b.1) : (ofList pairs).entries = entries := by
  have hnodup : (pairs.map Prod.fst).Nodup := by
    rw [(hperm.map Prod.fst).nodup_iff]
    exact (List.pairwise_map.mpr hsorted).imp fun h => ne_of_lt h
  obtain ⟨hsorted', hperm'⟩ := entries_foldl_insert pairs {} List.Pairwise.nil hnodup
  exact (hperm'.trans hperm).eq_of_pairwise
    (fun a b _ _ hab hba => absurd hab (lt_asymm hba)) hsorted' hsorted

end Fields

namespace Wire

open Cbor

/-! ## Single items -/

theorem readInt_int {lo hi n : Int} (before : Int) (hlo : lo ≤ n) (hhi : n ≤ hi) :
    readInt lo hi before (.int n) = .ok n := by
  unfold Item.int
  split
  · rename_i hneg
    have hn : -1 - ((-1 - n).toNat : Int) = n := by omega
    simp only [readInt, untagged, bind, Except.bind, hn]
    rw [if_pos (by simp [hlo, hhi])]
  · rename_i hneg
    have hn : (n.toNat : Int) = n := by omega
    simp only [readInt, untagged, bind, Except.bind, hn]
    rw [if_pos (by simp [hlo, hhi])]

def IsInt64 (n : Int) : Prop := -2 ^ 63 ≤ n ∧ n < 2 ^ 63

instance : DecidablePred IsInt64 := fun n => inferInstanceAs (Decidable (-2 ^ 63 ≤ n ∧ n < 2 ^ 63))

theorem readInt64_int {n : Int} (h : IsInt64 n) : readInt64 (.int n) = .ok n :=
  readInt_int 0 h.1 (Int.le_sub_one_of_lt h.2)

theorem readInt32_int (n : Int32) : readInt32 (.int n.toInt) = .ok n := by
  have hlo := n.le_toInt
  have hhi := n.toInt_lt
  rw [readInt32, readInt_int 0 hlo (by omega)]
  simp [Functor.map, Except.map]

theorem readByte_uint {n : Nat} (h : n < 256) : readByte (.uint n) = .ok n := by
  have hint : Item.uint n = .int n := by simp [Item.int]
  rw [readByte, hint, readInt_int 0 (by omega) (by omega)]
  simp [Functor.map, Except.map]

theorem readFloat_float (x : Float) : readFloat (.float x) = .ok x := by
  simp [readFloat, untagged, bind, Except.bind]

theorem readText_string (before s : String) : readText before (.string s) = .ok s := by
  simp [readText, untagged, Item.string, textOf, Text.ofBytes?_bytes, bind, Except.bind, String.join]

/-! ## Lists -/

theorem mapM_eq_ok_iff {α β ε : Type} {f : α → Except ε β} {xs : List α} {ys : List β} :
    xs.mapM f = .ok ys ↔ List.Forall₂ (fun x y => f x = .ok y) xs ys := by
  induction xs generalizing ys with
  | nil => cases ys <;> simp [pure, Except.pure]
  | cons x xs ih =>
    rw [List.mapM_cons, List.forall₂_cons_left_iff]
    cases hx : f x with
    | error e => simp [bind, Except.bind]
    | ok y =>
      cases hxs : xs.mapM f with
      | error e => simp [bind, Except.bind, ← ih, hxs]
      | ok rest => simp [bind, Except.bind, pure, Except.pure, ← ih, hxs, eq_comm]

theorem exists_of_mapM_eq_error {α β ε : Type} {f : α → Except ε β} {xs : List α} {e : ε}
    (h : xs.mapM f = .error e) : ∃ x ∈ xs, f x = .error e := by
  induction xs with
  | nil => cases h
  | cons x xs ih =>
    rw [List.mapM_cons] at h
    cases hx : f x with
    | error e' =>
      rw [hx] at h
      cases h
      exact ⟨x, List.mem_cons_self, hx⟩
    | ok y =>
      cases hxs : xs.mapM f with
      | error e' =>
        simp only [hx, hxs, bind, Except.bind, Except.error.injEq] at h
        obtain ⟨z, hz, hfz⟩ := ih (h ▸ hxs)
        exact ⟨z, List.mem_cons_of_mem _ hz, hfz⟩
      | ok ys => simp [hx, hxs, bind, Except.bind, pure, Except.pure] at h

theorem mapM_map_ok {α β : Type} {read : Item → Except ReadError β} {f : α → Item} {g : α → β}
    {xs : List α} (h : ∀ x ∈ xs, read (f x) = .ok (g x)) : (xs.map f).mapM read = .ok (xs.map g) := by
  rw [mapM_eq_ok_iff, List.forall₂_map_left_iff, List.forall₂_map_right_iff, List.forall₂_same]
  exact h

theorem readList_array {α : Type} {read : Item → Except ReadError α} {items : List Item} {xs : List α}
    (h : items.mapM read = .ok xs) : readList read (.array items) = .ok xs := by
  simpa [readList, readItems, untagged, bind, Except.bind] using h

theorem readList_listOr {α β : Type} {read : Item → Except ReadError β} {f : α → Item} {g : α → β}
    (blank : Bool) {xs : List α} (h : ∀ x ∈ xs, read (f x) = .ok (g x)) :
    readList read (listOr blank xs f) = .ok (xs.map g) := by
  unfold listOr
  split
  · rename_i hempty
    have hxs : xs = [] := by simpa using (Bool.and_eq_true_iff.mp hempty).2
    subst hxs
    rfl
  · exact readList_array (mapM_map_ok h)

/-! ## Records -/

/-- Takes over the fields that are there, in turn. -/
def applyFields {α : Type} (set : Nat → Option (Item → α → Except ReadError α)) :
    List (Nat × Option Item) → α → Except ReadError α
  | [], a => .ok a
  | (_, none) :: rest, a => applyFields set rest a
  | (n, some v) :: rest, a =>
    match set n with
    | none => applyFields set rest a
    | some read => do
      let a ← read v a
      applyFields set rest a

section

variable {α : Type} {set : Nat → Option (Item → α → Except ReadError α)}

theorem readEntries_filterMap (fields : List (Nat × Option Item)) (seen : List Nat) (a : α)
    (hnumber : ∀ f ∈ fields, f.1 < 2 ^ 63) (hnodup : (fields.map Prod.fst).Nodup)
    (hseen : ∀ f ∈ fields, f.1 ∉ seen) :
    readEntries set (fields.filterMap fun e => e.2.map fun v => (Item.uint e.1, v)) seen a =
      applyFields set fields a := by
  induction fields generalizing seen a with
  | nil => rfl
  | cons f fields ih =>
    obtain ⟨n, value⟩ := f
    rw [List.map_cons, List.nodup_cons] at hnodup
    have hnumber' : ∀ f ∈ fields, f.1 < 2 ^ 63 := fun f hf => hnumber f (List.mem_cons_of_mem _ hf)
    have hseen' : ∀ f ∈ fields, f.1 ∉ seen := fun f hf => hseen f (List.mem_cons_of_mem _ hf)
    cases value with
    | none => exact ih seen a hnumber' hnodup.2 hseen'
    | some v =>
      have hn : n < 2 ^ 63 := hnumber _ List.mem_cons_self
      have hfresh : seen.contains n = false := by simpa using hseen _ List.mem_cons_self
      have hrest : ∀ f ∈ fields, f.1 ∉ n :: seen := by
        intro f hf hmem
        rcases List.mem_cons.mp hmem with heq | hmem
        · exact hnodup.1 (List.mem_map.mpr ⟨f, hf, heq⟩)
        · exact hseen' f hf hmem
      simp only [List.filterMap_cons, Option.map_some, readEntries, keyNumber, hn, if_true, hfresh,
        Bool.false_eq_true, if_false, applyFields, bind, Except.bind]
      cases set n with
      | none => exact ih seen a hnumber' hnodup.2 hseen'
      | some read =>
        simp only
        cases read v a with
        | error e => rfl
        | ok b => exact ih (n :: seen) b hnumber' hnodup.2 hrest

/-- A record takes over its fields one by one. -/
theorem readRecord_ofNumbered {fields : List (Nat × Option Item)} (a : α)
    (hnumber : ∀ f ∈ fields, f.1 < 2 ^ 63) (hnodup : (fields.map Prod.fst).Nodup) :
    readRecord set a (.ofNumbered fields) = applyFields set fields a := by
  rw [← readEntries_filterMap fields [] a hnumber hnodup (by simp)]
  rfl

theorem applyFields_cons {β : Type} {n : Nat} {read : Item → Except ReadError β} {put : β → α → α}
    {v : Item} {b : β} (hset : set n = field read put) (hread : read v = .ok b)
    (rest : List (Nat × Option Item)) (a : α) :
    applyFields set ((n, some v) :: rest) a = applyFields set rest (put b a) := by
  simp [applyFields, hset, field, hread, bind, Except.bind, pure, Except.pure]

/-- A field that is left out has the value that the record has without it. -/
theorem applyFields_omitIf {β : Type} {n : Nat} {read : Item → Except ReadError β} {put : β → α → α}
    {skip : Bool} {v : Item} {b : β} (hset : set n = field read put)
    (hread : skip = false → read v = .ok b) (rest : List (Nat × Option Item)) (a : α)
    (hskip : skip = true → put b a = a) :
    applyFields set ((n, omitIf skip v) :: rest) a = applyFields set rest (put b a) := by
  cases skip with
  | true => rw [hskip rfl, omitIf, if_pos rfl, applyFields]
  | false => exact applyFields_cons hset (hread rfl) rest a

end

/-! ## Tables of names -/

theorem readNamed_map {read : Item → Except ReadError Datum} {entries : List (String × Item)}
    {ds : List (String × Datum)} (before : String)
    (h : List.Forall₂ (fun e d => e.1 = d.1 ∧ read e.2 = .ok d.2) entries ds) :
    readNamed read (entries.map fun e => (.string e.1, e.2)) before = .ok ds := by
  induction h generalizing before with
  | nil => rfl
  | @cons e d entries ds hd _ ih =>
    obtain ⟨name, v⟩ := e
    obtain ⟨name', d⟩ := d
    obtain ⟨rfl, hread⟩ := hd
    simp only at hread
    simp [readNamed, readText_string, hread, ih name, bind, Except.bind, pure, Except.pure]

theorem readIndexEntries_map {entries : List (String × Item)} {numbers : List (String × Int)}
    (name : String) (number : Int)
    (h : List.Forall₂ (fun e n => e.1 = n.1 ∧ e.2 = .int n.2 ∧ IsInt64 n.2) entries numbers) :
    readIndexEntries (entries.map fun e => (.string e.1, e.2)) name number = .ok numbers := by
  induction h generalizing name number with
  | nil => rfl
  | @cons e n entries numbers hn _ ih =>
    obtain ⟨name', v⟩ := e
    obtain ⟨name'', n⟩ := n
    obtain ⟨rfl, hv, hint⟩ := hn
    simp only at hv hint
    subst hv
    have hread := readInt_int number hint.1 (Int.le_sub_one_of_lt hint.2)
    simp only [List.map_cons, readIndexEntries, readText_string, hread, ih name' n, bind, Except.bind,
      pure, Except.pure]

/-- A table is written in an order of its own, which what is read for each entry follows. -/
theorem exists_sorted {β : Type} {R : String × Item → String × β → Prop}
    {entries : List (String × Item)} {xs : List (String × β)} (h : List.Forall₂ R entries xs) :
    ∃ entries' xs', Item.ofFields entries = .map (entries'.map fun e => (.string e.1, e.2)) ∧
      List.Forall₂ R entries' xs' ∧ xs'.Perm xs := by
  obtain ⟨xs', hforall, hperm⟩ := List.perm_comp_forall₂ (List.mergeSort_perm entries _) h
  exact ⟨_, xs', rfl, hforall, hperm⟩

theorem readIndex_ofFields {f : Fields Int} (hint : ∀ e ∈ f.entries, IsInt64 e.2)
    (hsorted : f.entries.Pairwise fun a b => a.1 < b.1) :
    readIndex (.ofFields (f.entries.map fun e => (e.1, .int e.2))) = .ok f := by
  have hforall : List.Forall₂ (fun (e : String × Item) (n : String × Int) =>
      e.1 = n.1 ∧ e.2 = .int n.2 ∧ IsInt64 n.2) (f.entries.map fun e => (e.1, .int e.2)) f.entries := by
    rw [List.forall₂_map_left_iff, List.forall₂_same]
    exact fun e he => ⟨rfl, rfl, hint e he⟩
  obtain ⟨entries, numbers, hitem, hforall, hperm⟩ := exists_sorted hforall
  have hfields : Fields.ofList numbers = f :=
    congrArg Fields.mk (Fields.ofList_of_perm hperm hsorted)
  simp only [readIndex, hitem, untagged, readIndexEntries_map "" 0 hforall, bind, Except.bind, pure,
    Except.pure, hfields]

end Wire

end TileMind
