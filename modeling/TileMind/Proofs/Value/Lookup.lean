import Mathlib.Data.List.Nodup
import TileMind.Value.Cells
import TileMind.Value.OrderedMap

/-!
# TileMind.Proofs.Value.Lookup

Entries that are found by a key: what is in them after one was added or changed.
-/

namespace TileMind

/-! ## Item by item -/

theorem map_eq_of_forall₂ {α β γ : Type} {R : α → β → Prop} {xs : List α} {ys : List β}
    (h : List.Forall₂ R xs ys) {f : α → γ} {g : β → γ} (hR : ∀ x y, R x y → f x = g y) :
    xs.map f = ys.map g := by
  induction h with
  | nil => rfl
  | cons hxy _ ih => rw [List.map_cons, List.map_cons, hR _ _ hxy, ih]

theorem forall_of_forall₂ {α β : Type} {P : β → Prop} {xs : List α} {ys : List β}
    (h : List.Forall₂ (fun _ y => P y) xs ys) : ∀ y ∈ ys, P y := by
  induction h with
  | nil => simp
  | cons hy _ ih => exact List.forall_mem_cons.mpr ⟨hy, ih⟩

/-! ## By key -/

section

variable {α β : Type} [BEq α] [LawfulBEq α] [DecidableEq α]

theorem lookup_cons_eq (key first : α) (v : β) (rest : List (α × β)) :
    ((first, v) :: rest).lookup key = if key = first then some v else rest.lookup key := by
  rw [List.lookup_cons]
  by_cases h : key = first
  · simp [h]
  · rw [beq_eq_false_iff_ne.mpr h, if_neg h]

theorem lookup_eq_none_iff {key : α} {entries : List (α × β)} :
    entries.lookup key = none ↔ key ∉ entries.map Prod.fst := by
  induction entries with
  | nil => simp
  | cons e entries ih =>
    obtain ⟨first, v⟩ := e
    rw [lookup_cons_eq, List.map_cons, List.mem_cons, not_or, ← ih]
    by_cases h : key = first <;> simp [h]

omit [DecidableEq α] in
theorem mem_of_lookup_eq_some {key : α} {v : β} {entries : List (α × β)}
    (h : entries.lookup key = some v) : (key, v) ∈ entries := by
  obtain ⟨first, rest, rfl, -⟩ := List.lookup_eq_some_iff.mp h
  simp

theorem lookup_of_mem {key : α} {v : β} {entries : List (α × β)} (hkeys : (entries.map Prod.fst).Nodup)
    (h : (key, v) ∈ entries) : entries.lookup key = some v := by
  induction entries with
  | nil => cases h
  | cons e entries ih =>
    obtain ⟨first, w⟩ := e
    obtain ⟨hnew, hkeys⟩ := List.nodup_cons.mp hkeys
    rw [lookup_cons_eq]
    rcases List.mem_cons.mp h with heq | hrest
    · cases heq
      rw [if_pos rfl]
    · have hne : key ≠ first := by
        rintro rfl
        exact hnew (List.mem_map.mpr ⟨_, hrest, rfl⟩)
      rw [if_neg hne, ih hkeys hrest]

theorem lookup_map_ite (entries : List (α × β)) (i key : α) (f : β → β) :
    (entries.map fun e => if e.1 = i then (e.1, f e.2) else e).lookup key =
      if key = i then (entries.lookup key).map f else entries.lookup key := by
  induction entries with
  | nil => simp
  | cons e entries ih =>
    obtain ⟨first, v⟩ := e
    rw [List.map_cons, lookup_cons_eq]
    by_cases hfirst : first = i
    · rw [if_pos hfirst, lookup_cons_eq, ih]
      by_cases hkey : key = first <;> simp_all
    · rw [if_neg hfirst, lookup_cons_eq, ih]
      by_cases hkey : key = first
      · have hne : key ≠ i := hkey ▸ hfirst
        simp [hkey, hfirst]
      · simp [hkey]

end

/-! ## Fields -/

namespace Fields

variable {α : Type}

theorem lookup_insertInto (name key : String) (v : α) (entries : List (String × α)) :
    (insertInto name v entries).lookup key =
      if key = name then some v else entries.lookup key := by
  induction entries with
  | nil => rw [insertInto, lookup_cons_eq]
  | cons e entries ih =>
    obtain ⟨first, w⟩ := e
    unfold insertInto
    split
    · rw [lookup_cons_eq]
    · split
      · rename_i heq
        cases heq
        rw [lookup_cons_eq, lookup_cons_eq]
        split <;> rfl
      · rename_i hne
        rw [lookup_cons_eq, ih, lookup_cons_eq]
        by_cases hkey : key = name
        · subst hkey
          rw [if_neg hne, if_pos rfl, if_pos rfl]
        · rw [if_neg hkey, if_neg hkey]

theorem get?_insert (f : Fields α) (name key : String) (v : α) :
    (f.insert name v).get? key = if key = name then some v else f.get? key :=
  lookup_insertInto name key v f.entries

theorem get?_foldl_insert (pairs : List (String × α)) (f : Fields α) (key : String) :
    (pairs.foldl (fun f e => f.insert e.1 e.2) f).get? key =
      (pairs.reverse.lookup key).or (f.get? key) := by
  induction pairs generalizing f with
  | nil => rfl
  | cons e pairs ih =>
    rw [List.foldl_cons, ih, List.reverse_cons, List.lookup_append, Option.or_assoc]
    congr 1
    rw [get?_insert, lookup_cons_eq]
    split <;> rfl

/-- Fields with different names have their values. -/
theorem get?_ofList {pairs : List (String × α)} (h : (pairs.map Prod.fst).Nodup) (key : String) (v : α) :
    (ofList pairs).get? key = some v ↔ (key, v) ∈ pairs := by
  unfold ofList
  rw [get?_foldl_insert]
  have hempty : ({} : Fields α).get? key = none := rfl
  rw [hempty, Option.or_none]
  have hrev : (pairs.reverse.map Prod.fst).Nodup := by
    rw [List.map_reverse]
    exact List.nodup_reverse.mpr h
  rw [← List.mem_reverse]
  generalize pairs.reverse = entries at hrev ⊢
  induction entries with
  | nil => simp
  | cons e entries ih =>
    obtain ⟨first, w⟩ := e
    rw [List.map_cons, List.nodup_cons] at hrev
    rw [lookup_cons_eq, List.mem_cons]
    by_cases hkey : key = first
    · subst hkey
      have hnot : (key, v) ∉ entries := fun hmem => hrev.1 (List.mem_map.mpr ⟨(key, v), hmem, rfl⟩)
      simp [hnot, eq_comm]
    · rw [if_neg hkey]
      exact (ih hrev.2).trans (by simp [hkey])

end Fields

/-! ## Cells -/

namespace Cells

variable {α β : Type} (c : Cells α)

theorem isSome_get?_iff {k : Int} : (c.get? k).isSome ↔ k ∈ c.entries.map Prod.fst := by
  rw [Option.isSome_iff_ne_none, ne_eq, get?, lookup_eq_none_iff, Classical.not_not]

theorem get?_modify (i k : Int) (f : α → α) :
    (c.modify i f).get? k = if k = i then (c.get? k).map f else c.get? k :=
  lookup_map_ite c.entries i k f

theorem lookup_replace (i k : Int) (v : α) {entries : List (Int × α)}
    (h : (entries.lookup i).isSome) :
    (replace i v entries).lookup k = if k = i then some v else entries.lookup k := by
  induction entries with
  | nil => cases h
  | cons e entries ih =>
    obtain ⟨first, w⟩ := e
    by_cases hfirst : first = i
    · rw [replace, if_pos hfirst, lookup_cons_eq, lookup_cons_eq, hfirst]
      split <;> rfl
    · rw [lookup_cons_eq, if_neg (Ne.symm hfirst)] at h
      rw [replace, if_neg hfirst, lookup_cons_eq, lookup_cons_eq, ih h]
      by_cases hk : k = first
      · have hne : k ≠ i := hk ▸ hfirst
        rw [if_pos hk, if_neg hne, if_pos hk]
      · rw [if_neg hk, if_neg hk]

theorem get?_set (i k : Int) (v : α) :
    (c.set i v).get? k = if k = i then some v else c.get? k := by
  unfold set
  split
  · rename_i hfilled
    exact lookup_replace i k v hfilled
  · rename_i hempty
    have hnone : c.entries.lookup i = none := Option.not_isSome_iff_eq_none.mp hempty
    rw [get?, get?, List.lookup_append, lookup_cons_eq]
    by_cases hk : k = i
    · rw [hk, hnone]
      simp
    · simp [hk]

theorem keys_modify (i : Int) (f : α → α) :
    (c.modify i f).entries.map Prod.fst = c.entries.map Prod.fst := by
  unfold modify
  rw [List.map_map]
  apply List.map_congr_left
  intro e _
  simp only [Function.comp]
  split <;> rfl

theorem keys_replace (i : Int) (v : α) (entries : List (Int × α)) :
    (replace i v entries).map Prod.fst = entries.map Prod.fst := by
  induction entries with
  | nil => rfl
  | cons e entries ih =>
    rw [replace]
    split
    · rename_i hfirst
      rw [List.map_cons, List.map_cons, hfirst]
    · rw [List.map_cons, List.map_cons, ih]

theorem keys_set (i : Int) (v : α) : (c.set i v).entries.map Prod.fst =
    if (c.get? i).isSome then c.entries.map Prod.fst else c.entries.map Prod.fst ++ [i] := by
  unfold set
  split
  · exact keys_replace i v c.entries
  · simp

theorem mem_keys_set {i k : Int} {v : α} (h : k ∈ (c.set i v).entries.map Prod.fst) :
    k = i ∨ k ∈ c.entries.map Prod.fst := by
  rw [keys_set] at h
  split at h
  · exact .inr h
  · simpa [or_comm] using h

theorem nodup_set (i : Int) (v : α) (h : (c.entries.map Prod.fst).Nodup) :
    ((c.set i v).entries.map Prod.fst).Nodup := by
  rw [keys_set]
  split
  · exact h
  · rename_i hempty
    refine List.nodup_append.mpr ⟨h, by simp, fun k hk j hj => ?_⟩
    rintro rfl
    rw [List.mem_singleton] at hj
    exact hempty ((isSome_get?_iff c).mpr (hj ▸ hk))

theorem keys_erase_sublist (i : Int) :
    ((c.erase i).entries.map Prod.fst).Sublist (c.entries.map Prod.fst) :=
  List.filter_sublist.map Prod.fst

/-- Filling cells that are empty adds them in turn. -/
theorem foldl_set (key : β → Int) (value : β → α) (xs : List β)
    (h : (c.entries.map Prod.fst ++ xs.map key).Nodup) :
    (xs.foldl (fun c x => c.set (key x) (value x)) c).entries =
      c.entries ++ xs.map fun x => (key x, value x) := by
  induction xs generalizing c with
  | nil => simp
  | cons x xs ih =>
    have hnew : (c.get? (key x)).isSome = false := by
      rw [Bool.eq_false_iff, ne_eq, isSome_get?_iff]
      rw [List.nodup_append] at h
      exact fun hmem => h.2.2 _ hmem _ List.mem_cons_self rfl
    have hset : c.set (key x) (value x) = ⟨c.entries ++ [(key x, value x)]⟩ := by
      simp [set, hnew]
    rw [List.foldl_cons, hset, ih]
    · simp
    · simpa using h

end Cells

end TileMind
