import Mathlib
import TileMind.Proofs.Value.Datum
import TileMind.Value.Heap

/-!
# TileMind.Proofs.Value.History

Ordered maps and what was done to them. A map keeps its keys beside the table of its values, and every operation
changes both. That they belong together is kept by each store and each deletion, so it holds of every map that these
made, and what is in such a map can be told from what was done: the value last stored under a key, and the keys in the
order in which they came in. A key of a kind that may not be one is refused.

* `Scalar.same_comm`, `Scalar.same_trans`: when keys are the same.
* `OrderedMap.Coherent`: keys and table belong together.
* `OrderedMap.get?_insert`, `OrderedMap.get?_erase`: what one change does to the values.
* `OrderedMap.entries_ofList`: a map of different keys has its pairs as they are given.
* `OrderedMap.Change`, `OrderedMap.after`: changes, and the map that is there after them.
* `OrderedMap.Consistent`: a map that agrees with its changes.
* `OrderedMap.consistent_after`: every map does.
-/

namespace TileMind

/-! ## Keys -/

section

open Float.Model

theorem compare_eq_iff (a b : UnpackedFloat) : UnpackedFloat.compare a b = some .eq ↔
    a = b ∧ a ≠ .notANumber ∨ ∃ s t, a = .zero s ∧ b = .zero t := by
  rcases a with (_ | _) | _ | s | ⟨_ | _, m, e, hm⟩ <;> rcases b with (_ | _) | _ | t | ⟨_ | _, m', e', hm'⟩ <;>
    simp [UnpackedFloat.compare, Ordering.then_eq_eq, Ordering.swap_eq_eq, and_comm]
  all_goals rfl

theorem beq_iff (x y : Float) : (x == y) = true ↔
    x.toModel.unpack = y.toModel.unpack ∧ x.toModel.unpack ≠ .notANumber ∨
      ∃ s t, x.toModel.unpack = .zero s ∧ y.toModel.unpack = .zero t := by
  rw [beq_eq_compare, beq_iff_eq, compare_eq_iff]

end

theorem beq_comm_of_numbers (x y : Float) : (x == y) = (y == x) := by
  have hle (x y : Float) (h : (x == y) = true) : (y == x) = true := by
    rw [beq_iff] at h ⊢
    rcases h with ⟨heq, hne⟩ | ⟨s, t, hs, ht⟩
    · exact .inl ⟨heq.symm, heq ▸ hne⟩
    · exact .inr ⟨t, s, ht, hs⟩
  exact Bool.eq_iff_iff.mpr ⟨hle x y, hle y x⟩

theorem beq_trans_of_numbers {x y z : Float} (hxy : (x == y) = true) (hyz : (y == z) = true) : (x == z) = true := by
  rw [beq_iff] at hxy hyz ⊢
  rcases hxy with ⟨heq, hne⟩ | ⟨s, t, hs, ht⟩
  · rwa [← heq] at hyz
  · rcases hyz with ⟨heq, -⟩ | ⟨-, u, -, hu⟩
    · exact .inr ⟨s, t, hs, heq ▸ ht⟩
    · exact .inr ⟨s, u, hs, hu⟩

namespace Scalar

variable {a b c : Scalar}

theorem same_comm (a b : Scalar) : a.same b = b.same a := by
  unfold same
  rw [beq_comm_of_numbers]
  simp only [eq_comm (a := a.kind), eq_comm (a := a.text), eq_comm (a := a.type)]

theorem same_trans (hab : a.same b) (hbc : b.same c) : a.same c := by
  simp only [same, Bool.and_eq_true, decide_eq_true_eq] at *
  obtain ⟨⟨⟨hk, hn⟩, ht⟩, hy⟩ := hab
  obtain ⟨⟨⟨hk', hn'⟩, ht'⟩, hy'⟩ := hbc
  exact ⟨⟨⟨hk.trans hk', beq_trans_of_numbers hn hn'⟩, ht.trans ht'⟩, hy.trans hy'⟩

/-- What is the same as one of two keys that are the same is the same as the other. -/
theorem same_congr (hab : a.same b) (c : Scalar) : a.same c = b.same c :=
  Bool.eq_iff_iff.mpr ⟨same_trans (same_comm a b ▸ hab), same_trans hab⟩

theorem same_self (h : a.num.isNaN = false) : a.same a := by
  have hnum : a.num == a.num := (beq_self_or_isNaN a.num).resolve_right (Bool.eq_false_iff.mp h)
  simp [same, hnum]

end Scalar

namespace OrderedMap

variable {α : Type}

/-! ## Tables -/

section

variable {table : List (Scalar × α)} {k key : Scalar} {v : α}

/-- What is read in a table under a key. -/
def read? (table : List (Scalar × α)) (key : Scalar) : Option α :=
  (table.find? fun e => e.1.same key).map Prod.snd

theorem read?_cons (e : Scalar × α) (table : List (Scalar × α)) (key : Scalar) :
    read? (e :: table) key = if e.1.same key then some e.2 else read? table key := by
  unfold read?
  rw [List.find?_cons]
  cases e.1.same key <;> rfl

theorem read?_eq_none_iff : read? table key = none ↔ ∀ e ∈ table, ¬ e.1.same key := by
  simp [read?]

theorem read?_congr {a b : Scalar} (hab : a.same b) : read? table a = read? table b := by
  have hsame (e : Scalar × α) : e.1.same a = e.1.same b := by
    rw [Scalar.same_comm e.1 a, Scalar.same_comm e.1 b, Scalar.same_congr hab]
  simp only [read?, hsame]

/-- A key that is not the same as itself is stored nowhere. -/
theorem store_eq_self (hk : ¬ k.same k) (v : α) (table : List (Scalar × α)) : store k v table = table := by
  induction table with
  | nil => rw [store, if_neg hk]
  | cons e table ih =>
    have he : ¬ e.1.same k := fun h => hk (Scalar.same_trans (Scalar.same_comm e.1 k ▸ h) h)
    rw [store, if_neg he, ih]

theorem read?_store (hk : k.same k) (v : α) (table : List (Scalar × α)) (key : Scalar) :
    read? (store k v table) key = if k.same key then some v else read? table key := by
  induction table with
  | nil => rw [store, if_pos hk, read?_cons]
  | cons e table ih =>
    rw [store]
    by_cases he : e.1.same k
    · rw [if_pos he, read?_cons, read?_cons, Scalar.same_congr he key]
      split <;> rfl
    · rw [if_neg he, read?_cons, read?_cons, ih]
      by_cases hkey : e.1.same key
      · have hother : ¬ k.same key := fun h => he (Scalar.same_trans hkey (Scalar.same_comm k key ▸ h))
        rw [if_pos hkey, if_neg hother, if_pos hkey]
      · rw [if_neg hkey, if_neg hkey]

theorem read?_filter (table : List (Scalar × α)) :
    read? (table.filter fun e => !e.1.same k) key = if k.same key then none else read? table key := by
  induction table with
  | nil => simp [read?]
  | cons e table ih =>
    by_cases he : e.1.same k
    · rw [List.filter_cons_of_neg (by simp [he]), ih, read?_cons, Scalar.same_congr he key]
      split <;> rfl
    · rw [List.filter_cons_of_pos (by simp [he]), read?_cons, read?_cons, ih]
      by_cases hkey : e.1.same key
      · have hother : ¬ k.same key := fun h => he (Scalar.same_trans hkey (Scalar.same_comm k key ▸ h))
        rw [if_pos hkey, if_neg hother, if_pos hkey]
      · rw [if_neg hkey, if_neg hkey]

theorem forall_store {P : α → Prop} (hv : P v) (h : ∀ e ∈ table, P e.2) : ∀ e ∈ store k v table, P e.2 := by
  induction table with
  | nil =>
    rw [store]
    split
    · exact List.forall_mem_singleton.mpr hv
    · simp
  | cons e table ih =>
    obtain ⟨he, htable⟩ := List.forall_mem_cons.mp h
    rw [store]
    split
    · exact List.forall_mem_cons.mpr ⟨hv, htable⟩
    · exact List.forall_mem_cons.mpr ⟨he, ih htable⟩

/-- Storing keeps the keys of a table, or puts a new one behind them. -/
theorem map_fst_store (hk : k.same k) (v : α) (table : List (Scalar × α)) :
    (store k v table).map Prod.fst =
      if (read? table k).isSome then table.map Prod.fst else table.map Prod.fst ++ [k] := by
  induction table with
  | nil => simp [store, hk, read?]
  | cons e table ih =>
    rw [store, read?_cons]
    by_cases he : e.1.same k
    · simp [he]
    · rw [if_neg he, if_neg he, List.map_cons, ih]
      split <;> simp

end

/-! ## One change -/

section

variable {m : OrderedMap α} {k key : Scalar} {v : α}

theorem get?_eq_read? (m : OrderedMap α) (key : Scalar) : m.get? key = read? m.table key := rfl

/-- What is stored is found, and nothing else changes. -/
theorem get?_insert (hk : k.same k) : (m.insert k v).get? key = if k.same key then some v else m.get? key :=
  read?_store hk v m.table key

theorem get?_congr {a b : Scalar} (hab : a.same b) : m.get? a = m.get? b := read?_congr hab

/-- What is deleted is not found, and nothing else changes. -/
theorem get?_erase : (m.erase k).get? key = if k.same key then none else m.get? key := by
  unfold erase
  by_cases hcontains : m.contains k
  · rw [if_pos hcontains]
    exact read?_filter m.table
  · have hnone : m.get? k = none := by simpa [contains] using hcontains
    rw [if_neg hcontains]
    by_cases hkey : k.same key
    · rw [if_pos hkey, ← get?_congr hkey, hnone]
    · rw [if_neg hkey]

theorem keys_insert : (m.insert k v).keys = if m.contains k then m.keys else m.keys ++ [k] := rfl

/-- No two keys are the same. -/
def Distinct (m : OrderedMap α) : Prop := m.keys.Pairwise fun a b => ¬ a.same b

/-- Keys and table belong together: no two keys are the same, a key that is the same as itself is one of the map if
something is found under it, and there is nothing in the table that could not be found. -/
structure Coherent (m : OrderedMap α) : Prop where
  distinct : m.Distinct
  found : ∀ key, m.contains key ↔ ∃ k ∈ m.keys, k.same key
  single : m.table.Pairwise fun a b => ¬ a.1.same b.1
  readable : ∀ e ∈ m.table, e.1.same e.1

theorem coherent_empty : Coherent ({} : OrderedMap α) :=
  ⟨.nil, fun key => by simp [contains, get?], .nil, by simp⟩

theorem contains_insert (hk : k.same k) : (m.insert k v).contains key ↔ k.same key ∨ m.contains key := by
  rw [contains, get?_insert hk]
  by_cases hkey : k.same key <;> simp [hkey, contains]

theorem Coherent.insert (hm : m.Coherent) : (m.insert k v).Coherent := by
  have hdistinct : (m.insert k v).Distinct := by
    rw [Distinct, keys_insert]
    split
    · exact hm.distinct
    · rename_i hnew
      refine List.pairwise_append.mpr ⟨hm.distinct, List.pairwise_singleton _ _, ?_⟩
      intro a ha b hb hab
      rw [List.mem_singleton.mp hb] at hab
      exact hnew ((hm.found k).mpr ⟨a, ha, hab⟩)
  by_cases hk : k.same k
  · refine ⟨hdistinct, fun key => ?_, ?_, ?_⟩
    · rw [contains_insert hk, hm.found, keys_insert]
      split
      · rename_i hcontains
        obtain ⟨a, ha, hak⟩ := (hm.found k).mp hcontains
        exact ⟨fun h => h.elim (fun hkey => ⟨a, ha, Scalar.same_trans hak hkey⟩) id, .inr⟩
      · simp only [List.mem_append, List.mem_singleton, or_and_right, exists_or, exists_eq_left]
        exact or_comm
    · have htable : (store k v m.table).map Prod.fst = _ := map_fst_store hk v m.table
      have hpairs : ((store k v m.table).map Prod.fst).Pairwise fun a b => ¬ a.same b := by
        rw [htable]
        split
        · exact List.pairwise_map.mpr hm.single
        · rename_i hnone
          refine List.pairwise_append.mpr ⟨List.pairwise_map.mpr hm.single, List.pairwise_singleton _ _, ?_⟩
          intro a ha b hb
          obtain ⟨e, he, rfl⟩ := List.mem_map.mp ha
          rw [List.mem_singleton.mp hb]
          exact read?_eq_none_iff.mp (by simpa using hnone) e he
      exact List.pairwise_map.mp hpairs
    · have hfst : ∀ a ∈ (store k v m.table).map Prod.fst, a.same a := by
        rw [map_fst_store hk]
        have hold : ∀ a ∈ m.table.map Prod.fst, a.same a := List.forall_mem_map.mpr hm.readable
        split
        · exact hold
        · exact List.forall_mem_append.mpr ⟨hold, List.forall_mem_singleton.mpr hk⟩
      exact fun e he => hfst e.1 (List.mem_map_of_mem he)
  · have htable : (m.insert k v).table = m.table := store_eq_self hk v m.table
    have hcontains (key : Scalar) : (m.insert k v).contains key = m.contains key := by
      rw [contains, contains, get?_eq_read?, get?_eq_read?, htable]
    refine ⟨hdistinct, fun key => ?_, htable ▸ hm.single, htable ▸ hm.readable⟩
    rw [hcontains, hm.found, keys_insert]
    split
    · rfl
    · have hnot : ¬ k.same key := fun h => hk (Scalar.same_trans h (Scalar.same_comm k key ▸ h))
      simp [or_and_right, exists_or, hnot]

theorem eraseP_eq_filter {β : Type} {p : β → Bool} {l : List β} (h : l.Pairwise fun a b => ¬ (p a ∧ p b)) :
    l.eraseP p = l.filter fun a => !p a := by
  induction l with
  | nil => rfl
  | cons a l ih =>
    obtain ⟨ha, hl⟩ := List.pairwise_cons.mp h
    by_cases hp : p a
    · have hrest : ∀ b ∈ l, (!p b) = true := fun b hb => by simpa [hp] using ha b hb
      rw [List.eraseP_cons_of_pos hp, List.filter_cons_of_neg (by simp [hp]), List.filter_eq_self.mpr hrest]
    · rw [List.eraseP_cons_of_neg hp, List.filter_cons_of_pos (by simp [hp]), ih hl]

theorem Coherent.keys_erase (hm : m.Coherent) (k : Scalar) : (m.erase k).keys = m.keys.filter fun a => !a.same k := by
  unfold erase
  split
  · refine eraseP_eq_filter (hm.distinct.imp ?_)
    rintro a b hab ⟨ha, hb⟩
    exact hab (Scalar.same_trans ha (Scalar.same_comm b k ▸ hb))
  · rename_i hnot
    refine (List.filter_eq_self.mpr fun a ha => ?_).symm
    have hak : ¬ a.same k := fun h => hnot ((hm.found k).mpr ⟨a, ha, h⟩)
    simpa using hak

theorem Coherent.erase (hm : m.Coherent) : (m.erase k).Coherent := by
  have htable : ((m.erase k).table).Sublist m.table := by
    unfold OrderedMap.erase
    split
    · exact List.filter_sublist
    · exact .refl _
  refine ⟨?_, fun key => ?_, hm.single.sublist htable, fun e he => hm.readable e (htable.subset he)⟩
  · rw [Distinct, hm.keys_erase]
    exact hm.distinct.filter _
  · rw [hm.keys_erase, contains, get?_erase]
    have hother {a : Scalar} (ha : a.same key) : a.same k = k.same key := by
      rw [Scalar.same_congr ha k, Scalar.same_comm]
    by_cases hkey : k.same key
    · simp only [hkey, if_true, Option.isSome_none, Bool.false_eq_true, false_iff]
      rintro ⟨a, ha, hakey⟩
      have hnot := (List.mem_filter.mp ha).2
      rw [hother hakey, hkey] at hnot
      cases hnot
    · rw [if_neg hkey]
      refine (hm.found key).trans ⟨?_, ?_⟩
      · rintro ⟨a, ha, hakey⟩
        refine ⟨a, List.mem_filter.mpr ⟨ha, ?_⟩, hakey⟩
        rw [hother hakey]
        simpa using hkey
      · rintro ⟨a, ha, hakey⟩
        exact ⟨a, (List.mem_filter.mp ha).1, hakey⟩

theorem Coherent.insert? (hm : m.Coherent) (k : Scalar) (v : α) : ((m.insert? k v).getD m).Coherent := by
  unfold OrderedMap.insert?
  split
  · exact hm.insert
  · exact hm

theorem coherent_ofList (pairs : List (Scalar × α)) : (ofList pairs).Coherent :=
  List.foldlRecOn pairs _ coherent_empty fun _ hm e _ => hm.insert? e.1 e.2

theorem mem_table_of_get? (hv : m.get? key = some v) : ∃ e ∈ m.table, e.2 = v := by
  obtain ⟨e, he, rfl⟩ := Option.map_eq_some_iff.mp hv
  exact ⟨e, List.mem_of_find?_eq_some he, rfl⟩

theorem Coherent.contains_eq_false (hm : m.Coherent) (h : ∀ a ∈ m.keys, ¬ a.same k) : m.contains k = false := by
  rw [Bool.eq_false_iff]
  intro hcontains
  obtain ⟨a, ha, hak⟩ := (hm.found k).mp hcontains
  exact h a ha hak

/-- The keys of a map that was made of pairs are keys of these. -/
theorem mem_of_mem_keys_ofList {pairs : List (Scalar × α)} :
    ∀ k ∈ (ofList pairs).keys, k ∈ pairs.map Prod.fst := by
  refine List.foldlRecOn (motive := fun m : OrderedMap α => ∀ k ∈ m.keys, k ∈ pairs.map Prod.fst) pairs _ (by simp) ?_
  intro m hm e he
  unfold OrderedMap.insert?
  split
  · rw [Option.getD_some, keys_insert]
    split
    · exact hm
    · exact List.forall_mem_append.mpr ⟨hm, List.forall_mem_singleton.mpr (List.mem_map_of_mem he)⟩
  · exact hm

/-- What holds of what is stored holds of all that is in a table. -/
theorem forall_ofPairs {P : α → Prop} {pairs : List (Scalar × α)} (h : ∀ e ∈ pairs, P e.2) :
    ∀ e ∈ (ofList pairs).table, P e.2 := by
  refine List.foldlRecOn (motive := fun m : OrderedMap α => ∀ e ∈ m.table, P e.2) pairs _ (by simp) ?_
  intro m hm e he
  unfold OrderedMap.insert?
  split
  · exact forall_store (h e he) hm
  · exact hm

end

/-! ## Entries -/

section

variable [Inhabited α] {m : OrderedMap α} {k key : Scalar} {v : α}

@[simp] theorem map_fst_entries (m : OrderedMap α) : m.entries.map Prod.fst = m.keys := by
  simp [entries, Function.comp_def]

@[simp] theorem length_entries (m : OrderedMap α) : m.entries.length = m.size := List.length_map _

@[simp] theorem entries_empty : ({} : OrderedMap α).entries = [] := rfl

theorem snd_of_mem_entries {e : Scalar × α} (he : e ∈ m.entries) : e.2 = (m.get? e.1).getD default := by
  obtain ⟨k, -, rfl⟩ := List.mem_map.mp he
  rfl

/-- An entry shows what is in the table, or else the default. -/
theorem mem_table_of_mem_entries {e : Scalar × α} (he : e ∈ m.entries) :
    e.2 = default ∨ e.2 ∈ m.table.map Prod.snd := by
  rw [snd_of_mem_entries he]
  cases hget : m.get? e.1 with
  | none => exact .inl rfl
  | some v =>
    obtain ⟨e', he', rfl⟩ := mem_table_of_get? hget
    exact .inr (List.mem_map_of_mem he')

/-- A key that is the same as itself has its value in the table. -/
theorem Coherent.mem_table (hm : m.Coherent) {e : Scalar × α} (he : e ∈ m.entries) (hself : e.1.same e.1) :
    e.2 ∈ m.table.map Prod.snd := by
  have hkey : e.1 ∈ m.keys := map_fst_entries m ▸ List.mem_map_of_mem he
  obtain ⟨v, hv⟩ := Option.isSome_iff_exists.mp ((hm.found e.1).mpr ⟨e.1, hkey, hself⟩)
  obtain ⟨e', he', hv'⟩ := mem_table_of_get? hv
  rw [snd_of_mem_entries he, hv, Option.getD_some, ← hv']
  exact List.mem_map_of_mem he'

/-- Whatever is in the table is shown by an entry. -/
theorem Coherent.mem_entries (hm : m.Coherent) {e : Scalar × α} (he : e ∈ m.table) : ∃ e' ∈ m.entries, e'.2 = e.2 := by
  have hread : read? m.table e.1 = some e.2 := by
    obtain ⟨before, after, htable⟩ := List.append_of_mem he
    have hbefore : ∀ a ∈ before, ¬ a.1.same e.1 := by
      have hpairs := hm.single
      rw [htable] at hpairs
      exact fun a ha => (List.pairwise_append.mp hpairs).2.2 a ha e List.mem_cons_self
    rw [read?, htable, List.find?_append, List.find?_eq_none.mpr hbefore, List.find?_cons, hm.readable e he]
    rfl
  have hcontains : m.contains e.1 := by rw [contains, get?_eq_read?, hread]; rfl
  obtain ⟨k, hk, hsame⟩ := (hm.found e.1).mp hcontains
  refine ⟨(k, (m.get? k).getD default), List.mem_map_of_mem hk, ?_⟩
  rw [get?_congr hsame, get?_eq_read?, hread]
  rfl

/-- A new key comes last. -/
theorem Coherent.entries_insert (hm : m.Coherent) (hk : k.same k) (hnew : m.contains k = false) (v : α) :
    (m.insert k v).entries = m.entries ++ [(k, v)] := by
  have hkeys : (m.insert k v).keys = m.keys ++ [k] := by rw [keys_insert, hnew]; rfl
  rw [entries, hkeys, List.map_append, entries]
  congr 1
  · refine List.map_congr_left fun a ha => ?_
    have hother : ¬ k.same a := by
      intro h
      rw [(hm.found k).mpr ⟨a, ha, Scalar.same_comm k a ▸ h⟩] at hnew
      cases hnew
    rw [get?_insert hk, if_neg hother]
  · rw [List.map_singleton, get?_insert hk, if_pos hk]
    rfl

theorem Coherent.entries_foldl (hm : m.Coherent) (pairs : List (Scalar × α))
    (hkeys : ∀ e ∈ pairs, e.1.isPrimitive ∧ e.1.same e.1)
    (hdistinct : (m.entries ++ pairs).Pairwise fun a b => ¬ a.1.same b.1) :
    (pairs.foldl (fun m e => (m.insert? e.1 e.2).getD m) m).entries = m.entries ++ pairs := by
  induction pairs generalizing m with
  | nil => simp
  | cons e pairs ih =>
    obtain ⟨⟨hprimitive, hself⟩, hpairs⟩ := List.forall_mem_cons.mp hkeys
    have hnew : m.contains e.1 = false := by
      refine hm.contains_eq_false fun a ha => ?_
      obtain ⟨x, hx, rfl⟩ := List.mem_map.mp (map_fst_entries m ▸ ha)
      exact (List.pairwise_append.mp hdistinct).2.2 x hx e List.mem_cons_self
    have hinsert : (m.insert? e.1 e.2).getD m = m.insert e.1 e.2 := by simp [OrderedMap.insert?, hprimitive]
    have hentries := hm.entries_insert hself hnew e.2
    rw [List.foldl_cons, hinsert, ih hm.insert hpairs (by simpa [hentries] using hdistinct), hentries]
    simp

/-- Pairs with different keys are all there, in their order. -/
theorem entries_ofList {pairs : List (Scalar × α)} (hkeys : ∀ e ∈ pairs, e.1.isPrimitive ∧ e.1.same e.1)
    (hdistinct : pairs.Pairwise fun a b => ¬ a.1.same b.1) : (ofList pairs).entries = pairs := by
  rw [ofList, coherent_empty.entries_foldl pairs hkeys (by simpa using hdistinct)]
  rfl

/-- What holds of all values that are stored holds of the values of a map. -/
theorem forall_ofList {P : α → Prop} {pairs : List (Scalar × α)} (h : ∀ e ∈ pairs, e.1.same e.1 ∧ P e.2) :
    ∀ e ∈ (ofList pairs).entries, P e.2 := by
  intro e he
  have hkey : e.1 ∈ (ofList pairs).keys := map_fst_entries (ofList pairs) ▸ List.mem_map_of_mem he
  obtain ⟨x, hx, hself⟩ := List.mem_map.mp (mem_of_mem_keys_ofList e.1 hkey)
  obtain ⟨y, hy, heq⟩ := List.mem_map.mp ((coherent_ofList pairs).mem_table he (hself ▸ (h x hx).1))
  exact heq ▸ forall_ofPairs (fun e he => (h e he).2) y hy

end

/-! ## Changes -/

/-- What is done to a map. Any value may be offered as a key. -/
inductive Change (α : Type) where
  | set (key : Value) (v : α)
  | delete (key : Value)

/-- The value that is stored under a key. -/
def find? (m : OrderedMap α) (key : Value) : Option α := key.scalar?.bind m.get?

def remove (m : OrderedMap α) (key : Value) : OrderedMap α := (key.scalar?.map m.erase).getD m

def store? (m : OrderedMap α) (key : Value) (v : α) : Option (OrderedMap α) :=
  key.scalar?.bind fun k => m.insert? k v

namespace Change

def key : Change α → Value
  | .set key _ | .delete key => key

/-- The map after a change. A store that is refused changes nothing. -/
def apply (m : OrderedMap α) : Change α → OrderedMap α
  | .set key v => (m.store? key v).getD m
  | .delete key => m.remove key

def Stores (key : Value) : Change α → Prop
  | .set k _ => k.isPrimitive ∧ k.equal key
  | .delete _ => False

def Deletes (key : Value) : Change α → Prop
  | .set _ _ => False
  | .delete k => k.equal key

end Change

/-- The map after some changes, which was empty before. -/
def after (changes : List (Change α)) : OrderedMap α := changes.foldl Change.apply {}

/-- The value that was last stored under a key, which was not deleted since. -/
def Held (changes : List (Change α)) (key : Value) (v : α) : Prop :=
  ∃ before k rest, changes = before ++ .set k v :: rest ∧ (Change.set k v).Stores key ∧
    ∀ c ∈ rest, ¬ c.Stores key ∧ ¬ c.Deletes key

/-- Whatever was stored under a key was deleted later. -/
def Gone (changes : List (Change α)) (key : Value) : Prop :=
  ∀ before c rest, changes = before ++ c :: rest → c.Stores key → ∃ d ∈ rest, d.Deletes key

/-- A key came in with change number `n`: the first store under it since it was last deleted. -/
def Entered (changes : List (Change α)) (n : Nat) (key : Scalar) : Prop :=
  ∃ before v rest, changes = before ++ .set (.scalar key) v :: rest ∧ before.length = n ∧ key.isPrimitive ∧
    Gone before (.scalar key) ∧ ∀ c ∈ rest, ¬ c.Deletes (.scalar key)

/-- The map agrees with what was done to it. -/
structure Consistent (changes : List (Change α)) (m : OrderedMap α) : Prop where
  distinct : m.Distinct
  keys : ∀ key, (m.find? key).isSome ↔ ∃ k ∈ m.keys, (Value.scalar k).equal key
  held : ∀ key v, m.find? key = some v ↔ Held changes key v
  entered : ∀ k ∈ m.keys, ∃ n, Entered changes n k
  order : m.keys.Pairwise fun a b => ∀ i j, Entered changes i a → Entered changes j b → i < j
  refuses : ∀ key v, (m.store? key v).isSome = key.isPrimitive ∧
    (key.isPrimitive = false → (Change.set key v).apply m = m)

/-! ## What is known of a change after others -/

section

variable {changes : List (Change α)} {c : Change α} {key : Value} {v : α}

/-- A list with one more element is cut either in front of this one, or further ahead. -/
theorem concat_eq_split {β : Type} {l before rest : List β} {a x : β} : l ++ [a] = before ++ x :: rest ↔
    rest = [] ∧ l = before ∧ a = x ∨ ∃ more, rest = more ++ [a] ∧ l = before ++ x :: more := by
  rcases List.eq_nil_or_concat' rest with rfl | ⟨more, b, rfl⟩
  · simp
  · have hassoc : before ++ x :: (more ++ [b]) = (before ++ x :: more) ++ [b] := by simp
    rw [hassoc]
    constructor
    · intro h
      obtain ⟨hl, hlast⟩ := List.append_inj' h rfl
      cases hlast
      exact .inr ⟨more, rfl, hl⟩
    · rintro (⟨hnil, -⟩ | ⟨more', heq, rfl⟩)
      · simp at hnil
      · simpa using heq.symm

theorem Change.Deletes.not_stores (h : c.Deletes key) : ¬ c.Stores key := by
  cases c <;> simp_all [Deletes, Stores]

theorem held_concat : Held (changes ++ [c]) key v ↔
    (∃ k, c = .set k v ∧ c.Stores key) ∨ (¬ c.Stores key ∧ ¬ c.Deletes key) ∧ Held changes key v := by
  constructor
  · rintro ⟨before, k, rest, hsplit, hstores, hrest⟩
    rcases concat_eq_split.mp hsplit with ⟨-, -, rfl⟩ | ⟨more, rfl, rfl⟩
    · exact .inl ⟨k, rfl, hstores⟩
    · obtain ⟨hmore, hlast⟩ := List.forall_mem_append.mp hrest
      exact .inr ⟨hlast c (List.mem_singleton_self c), before, k, more, rfl, hstores, hmore⟩
  · rintro (⟨k, rfl, hstores⟩ | ⟨hlast, before, k, more, rfl, hstores, hmore⟩)
    · exact ⟨changes, k, [], rfl, hstores, by simp⟩
    · exact ⟨before, k, more ++ [c], by simp, hstores,
        List.forall_mem_append.mpr ⟨hmore, List.forall_mem_singleton.mpr hlast⟩⟩

theorem gone_concat : Gone (changes ++ [c]) key ↔ c.Deletes key ∨ ¬ c.Stores key ∧ Gone changes key := by
  constructor
  · intro h
    by_cases hdeletes : c.Deletes key
    · exact .inl hdeletes
    · refine .inr ⟨fun hstores => ?_, ?_⟩
      · obtain ⟨d, hd, -⟩ := h changes c [] rfl hstores
        cases hd
      · rintro before x rest rfl hstores
        obtain ⟨d, hd, hdel⟩ := h before x (rest ++ [c]) (by simp) hstores
        rcases List.mem_append.mp hd with hd | hd
        · exact ⟨d, hd, hdel⟩
        · rw [List.mem_singleton.mp hd] at hdel
          exact absurd hdel hdeletes
  · intro h before x rest hsplit hstores
    rcases concat_eq_split.mp hsplit with ⟨-, -, rfl⟩ | ⟨more, rfl, hfront⟩
    · rcases h with hdel | ⟨hnot, -⟩
      · exact absurd hstores hdel.not_stores
      · exact absurd hstores hnot
    · rcases h with hdel | ⟨-, hgone⟩
      · exact ⟨c, by simp, hdel⟩
      · obtain ⟨d, hd, hdel⟩ := hgone before x more hfront hstores
        exact ⟨d, List.mem_append_left _ hd, hdel⟩

/-- Nothing is held under a key that is gone, and something under every other one. -/
theorem gone_iff : Gone changes key ↔ ∀ v, ¬ Held changes key v := by
  induction changes using List.reverseRecOn with
  | nil => simp [Gone, Held]
  | append_singleton changes c ih =>
    simp only [gone_concat, held_concat, ih]
    cases c with
    | set k w =>
      by_cases hstores : (Change.set k w).Stores key
      · simp [hstores, Change.Deletes]
      · simp [hstores, Change.Deletes]
    | delete k =>
      by_cases hdel : (Change.delete k : Change α).Deletes key
      · simp [hdel]
      · simp [hdel, Change.Stores]

theorem entered_concat {n : Nat} {key : Scalar} : Entered (changes ++ [c]) n key ↔
    (n = changes.length ∧ (∃ v, c = .set (.scalar key) v) ∧ key.isPrimitive ∧ Gone changes (.scalar key)) ∨
      ¬ c.Deletes (.scalar key) ∧ Entered changes n key := by
  constructor
  · rintro ⟨before, v, rest, hsplit, rfl, hkey, hgone, hrest⟩
    rcases concat_eq_split.mp hsplit with ⟨-, rfl, rfl⟩ | ⟨more, rfl, rfl⟩
    · exact .inl ⟨rfl, ⟨v, rfl⟩, hkey, hgone⟩
    · obtain ⟨hmore, hlast⟩ := List.forall_mem_append.mp hrest
      exact .inr ⟨hlast c (List.mem_singleton_self c), before, v, more, rfl, rfl, hkey, hgone, hmore⟩
  · rintro (⟨rfl, ⟨v, rfl⟩, hkey, hgone⟩ | ⟨hlast, before, v, more, rfl, rfl, hkey, hgone, hmore⟩)
    · exact ⟨changes, v, [], rfl, rfl, hkey, hgone, by simp⟩
    · exact ⟨before, v, more ++ [c], by simp, rfl, hkey, hgone,
        List.forall_mem_append.mpr ⟨hmore, List.forall_mem_singleton.mpr hlast⟩⟩

theorem Entered.lt {n : Nat} {key : Scalar} (h : Entered changes n key) : n < changes.length := by
  obtain ⟨before, v, rest, rfl, rfl, -⟩ := h
  simp

end

/-! ## The map after changes -/

section

variable {changes : List (Change α)} {c : Change α} {m : OrderedMap α} {k : Scalar} {v : α}

/-- A store is refused if its key may not be one. -/
theorem store?_cases (m : OrderedMap α) (key : Value) (v : α) :
    key.isPrimitive = false ∧ m.store? key v = none ∨
      ∃ k, key = .scalar k ∧ k.isPrimitive ∧ m.store? key v = some (m.insert k v) := by
  cases key with
  | scalar k =>
    cases hk : k.isPrimitive with
    | false => exact .inl ⟨hk, by simp [store?, Value.scalar?, insert?, hk]⟩
    | true => exact .inr ⟨k, rfl, hk, by simp [store?, Value.scalar?, insert?, hk]⟩
  | _ => exact .inl ⟨rfl, rfl⟩

theorem coherent_apply (hm : m.Coherent) (c : Change α) : (c.apply m).Coherent := by
  cases c with
  | set key v =>
    rw [Change.apply]
    rcases store?_cases m key v with ⟨-, hstore⟩ | ⟨k, -, -, hstore⟩
    · rwa [hstore]
    · rw [hstore]
      exact hm.insert
  | delete key =>
    cases key with
    | scalar k => exact hm.erase
    | _ => exact hm

/-- All keys are of kinds that may be keys. -/
theorem primitive_apply (hm : ∀ a ∈ m.keys, a.isPrimitive) (c : Change α) : ∀ a ∈ (c.apply m).keys, a.isPrimitive := by
  cases c with
  | set key v =>
    rw [Change.apply]
    rcases store?_cases m key v with ⟨-, hstore⟩ | ⟨k, -, hk, hstore⟩
    · rwa [hstore]
    · rw [hstore, Option.getD_some, keys_insert]
      split
      · exact hm
      · exact List.forall_mem_append.mpr ⟨hm, List.forall_mem_singleton.mpr hk⟩
  | delete key =>
    cases key with
    | scalar k =>
      intro a ha
      rw [Change.apply, remove, Value.scalar?, Option.map_some, Option.getD_some, erase] at ha
      split at ha
      · exact hm a (List.mem_of_mem_eraseP ha)
      · exact hm a ha
    | _ => exact hm

/-- Whatever was done to a map, its keys belong to its table, and all of them may be keys. -/
theorem keys_after (changes : List (Change α)) :
    (after changes).Coherent ∧ ∀ a ∈ (after changes).keys, a.isPrimitive := by
  unfold after
  refine List.foldlRecOn (motive := fun m : OrderedMap α => m.Coherent ∧ ∀ a ∈ m.keys, a.isPrimitive) changes _ ?_ ?_
  · exact ⟨coherent_empty, by simp⟩
  · exact fun m hm c _ => ⟨coherent_apply hm.1 c, primitive_apply hm.2 c⟩

theorem find?_apply (hc : c.key.rawNumber.isNaN = false) (key : Value) (v : α) :
    (c.apply m).find? key = some v ↔
      (∃ k, c = .set k v ∧ c.Stores key) ∨ (¬ c.Stores key ∧ ¬ c.Deletes key) ∧ m.find? key = some v := by
  cases c with
  | set k w =>
    have hset : (∃ k', Change.set k w = .set k' v ∧ (Change.set k w).Stores key) ↔
        w = v ∧ (Change.set k w).Stores key := by simp
    rw [hset, Change.apply]
    rcases store?_cases m k w with ⟨hk, hstore⟩ | ⟨s, rfl, hs, hstore⟩
    · have hnot : ¬ (Change.set k w).Stores key := by simp [Change.Stores, hk]
      rw [hstore]
      simp [hnot, Change.Deletes]
    · rw [hstore, Option.getD_some]
      have hself : s.same s := Scalar.same_self hc
      have hstores : (Change.set (.scalar s) w).Stores key ↔ (Value.scalar s).equal key := by
        simp [Change.Stores, Value.isPrimitive, Value.kind, show s.kind.kind.isPrimitive = true from hs]
      rw [hstores]
      cases key with
      | scalar a =>
        have hfind : (m.insert s w).find? (.scalar a) = if s.same a then some w else m.find? (.scalar a) :=
          get?_insert hself
        rw [hfind]
        by_cases hsame : s.same a <;> simp [Value.equal, hsame, Change.Deletes]
      | _ => simp [find?, Value.scalar?, Value.equal]
  | delete k =>
    have hstores : ¬ (Change.delete k : Change α).Stores key := id
    simp only [hstores, not_false_eq_true, true_and]
    cases key with
    | scalar a =>
      cases k with
      | scalar s =>
        have hfind : ((Change.delete (.scalar s) : Change α).apply m).find? (.scalar a) =
            if s.same a then none else m.find? (.scalar a) := get?_erase
        rw [hfind]
        by_cases hsame : s.same a <;> simp [Change.Deletes, Value.equal, hsame]
      | _ => simp [Change.Deletes, Value.equal, Change.apply, remove, Value.scalar?]
    | _ => simp [find?, Value.scalar?]

/-- A change puts a new key behind the others, or leaves some of the keys that it does not delete. -/
theorem keys_apply (hm : m.Coherent) (c : Change α) :
    (∃ k v, c = .set (.scalar k) v ∧ k.isPrimitive ∧ m.get? k = none ∧ (c.apply m).keys = m.keys ++ [k]) ∨
      (c.apply m).keys.Sublist m.keys ∧ ∀ a ∈ (c.apply m).keys, ¬ c.Deletes (.scalar a) := by
  cases c with
  | set key v =>
    rw [Change.apply]
    rcases store?_cases m key v with ⟨-, hstore⟩ | ⟨k, rfl, hk, hstore⟩
    · rw [hstore]
      exact .inr ⟨.refl _, fun _ _ => id⟩
    · rw [hstore, Option.getD_some, keys_insert]
      by_cases hcontains : m.contains k
      · rw [if_pos hcontains]
        exact .inr ⟨.refl _, fun _ _ => id⟩
      · rw [if_neg hcontains]
        exact .inl ⟨k, v, rfl, hk, by simpa [contains] using hcontains, rfl⟩
  | delete key =>
    cases key with
    | scalar k =>
      have hkeys : ((Change.delete (.scalar k) : Change α).apply m).keys = m.keys.filter fun a => !a.same k :=
        hm.keys_erase k
      rw [hkeys]
      refine .inr ⟨List.filter_sublist, fun a ha hdel => ?_⟩
      have hother : ¬ a.same k := by simpa using (List.mem_filter.mp ha).2
      exact hother (Scalar.same_comm k a ▸ hdel)
    | _ => exact .inr ⟨.refl _, fun a _ hdel => by simp [Change.Deletes, Value.equal] at hdel⟩

theorem after_concat (changes : List (Change α)) (c : Change α) :
    after (changes ++ [c]) = c.apply (after changes) := by
  rw [after, List.foldl_append]
  rfl

theorem held_after (h : ∀ c ∈ changes, c.key.rawNumber.isNaN = false) (key : Value) (v : α) :
    (after changes).find? key = some v ↔ Held changes key v := by
  induction changes using List.reverseRecOn with
  | nil =>
    have hnone : (after ([] : List (Change α))).find? key = none := by cases key <;> rfl
    simp [hnone, Held]
  | append_singleton changes c ih =>
    obtain ⟨hchanges, hc⟩ := List.forall_mem_append.mp h
    rw [after_concat, find?_apply (hc c (List.mem_singleton_self c)), held_concat,
      ih hchanges]

theorem gone_after (h : ∀ c ∈ changes, c.key.rawNumber.isNaN = false) (key : Value) :
    Gone changes key ↔ (after changes).find? key = none := by
  rw [gone_iff, Option.eq_none_iff_forall_ne_some]
  exact forall_congr' fun v => not_congr (held_after h key v).symm

/-- A key that came in, and not out again, is not gone. -/
theorem Entered.not_gone {n : Nat} (h : ∀ c ∈ changes, c.key.rawNumber.isNaN = false) (hk : Entered changes n k) :
    ¬ Gone changes (.scalar k) := by
  obtain ⟨before, v, rest, rfl, -, hprimitive, -, hrest⟩ := hk
  have hself : k.same k := Scalar.same_self (h (.set (.scalar k) v) (by simp))
  intro hgone
  obtain ⟨d, hd, hdel⟩ := hgone before (.set (.scalar k) v) rest rfl ⟨hprimitive, hself⟩
  exact hrest d hd hdel

/-- The keys of a map came in one after the other. -/
theorem entered_after (h : ∀ c ∈ changes, c.key.rawNumber.isNaN = false) :
    (∀ k ∈ (after changes).keys, ∃ n, Entered changes n k) ∧
      (after changes).keys.Pairwise fun a b => ∀ i j, Entered changes i a → Entered changes j b → i < j := by
  induction changes using List.reverseRecOn with
  | nil => exact ⟨by simp [after], List.Pairwise.nil⟩
  | append_singleton changes c ih =>
    obtain ⟨hchanges, -⟩ := List.forall_mem_append.mp h
    obtain ⟨hentered, horder⟩ := ih hchanges
    -- A key that was there already does not come in again.
    have hstays {a : Scalar} (ha : a ∈ (after changes).keys) {i : Nat} (hi : Entered (changes ++ [c]) i a) :
        Entered changes i a := by
      rcases entered_concat.mp hi with ⟨-, -, -, hgone⟩ | ⟨-, hi⟩
      · obtain ⟨n, hn⟩ := hentered a ha
        exact absurd hgone (hn.not_gone hchanges)
      · exact hi
    have hkept {a : Scalar} (ha : a ∈ (after changes).keys) (hdel : ¬ c.Deletes (.scalar a)) :
        ∃ n, Entered (changes ++ [c]) n a := by
      obtain ⟨n, hn⟩ := hentered a ha
      exact ⟨n, entered_concat.mpr (.inr ⟨hdel, hn⟩)⟩
    rw [after_concat]
    rcases keys_apply (keys_after changes).1 c with ⟨k, v, rfl, hk, hnone, hkeys⟩ | ⟨hsub, hdel⟩
    · have hgone : Gone changes (.scalar k) := (gone_after hchanges (.scalar k)).mpr hnone
      rw [hkeys]
      refine ⟨List.forall_mem_append.mpr ⟨fun a ha => hkept ha id, List.forall_mem_singleton.mpr ?_⟩,
        List.pairwise_append.mpr ⟨?_, List.pairwise_singleton _ _, ?_⟩⟩
      · exact ⟨changes.length, entered_concat.mpr (.inl ⟨rfl, ⟨v, rfl⟩, hk, hgone⟩)⟩
      · exact horder.imp_of_mem fun ha hb hlt i j hi hj => hlt i j (hstays ha hi) (hstays hb hj)
      · intro a ha b hb i j hi hj
        rw [List.mem_singleton.mp hb] at hj
        have hlt := (hstays ha hi).lt
        rcases entered_concat.mp hj with ⟨rfl, -⟩ | ⟨-, hj⟩
        · exact hlt
        · exact absurd hgone (hj.not_gone hchanges)
    · refine ⟨fun a ha => hkept (hsub.subset ha) (hdel a ha), ?_⟩
      refine (horder.sublist hsub).imp_of_mem fun ha hb hlt i j hi hj => ?_
      exact hlt i j (hstays (hsub.subset ha) hi) (hstays (hsub.subset hb) hj)

/-- Every map agrees with its changes, if there is no NaN among the keys that were offered. -/
theorem consistent_after (h : ∀ c ∈ changes, c.key.rawNumber.isNaN = false) : Consistent changes (after changes) where
  distinct := (keys_after changes).1.distinct
  keys key := by
    cases key with
    | scalar k => exact (keys_after changes).1.found k
    | _ => simp [find?, Value.scalar?, Value.equal]
  held := held_after h
  entered := (entered_after h).1
  order := (entered_after h).2
  refuses key v := by
    rw [Change.apply]
    rcases store?_cases (after changes) key v with ⟨hk, hstore⟩ | ⟨k, rfl, hk, hstore⟩
    · rw [hstore, hk]
      exact ⟨rfl, fun _ => rfl⟩
    · have hkind : (Value.scalar k).isPrimitive = true := hk
      rw [hstore, hkind]
      exact ⟨rfl, fun hno => absurd hno (by simp)⟩

end

end OrderedMap

end TileMind
