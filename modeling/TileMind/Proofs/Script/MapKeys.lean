import Mathlib
import TileMind.Proofs.Decimal.General
import TileMind.Proofs.Program.Records
import TileMind.Proofs.Script.RoundTrip
import TileMind.Proofs.Value.Datum
import TileMind.Proofs.Value.Lookup

/-!
# TileMind.Proofs.Script.MapKeys

What a script sees of a map. Its keys are texts there, so entries are merged when their keys are written alike. That
happens to the key of a string or of an enum and a key of another kind or of another enum, and to no other keys.

* `scanSigned?_integer`: the text of an integer.
* `of_whole?`: the parts of a number without a fraction.
* `self_mem_around`: a number lies in its own interval.
* `numberText_injective`: numbers are written in different ways.
* `same_or_clash`: keys that are written alike.
* `Fields.mem_ofList`: the last of several fields with one name stays.
* `treeOfTo_map`: the entries that a script sees.
-/

namespace TileMind
namespace Decimal

/-! ## Integers and their digits

Numbers without a fraction, and how integers are written. An integer is scanned back as itself, and the number it was
made from is the only one that it is nearest to.
-/

theorem scan?_digitString (n : Nat) : scan? (digitString n).toList = some (n : ℚ) := by
  rw [toList_digitString, scan?_whole (allDigits_toDigits n) Nat.toDigits_ne_nil, natOfDigits_toDigits]

theorem scanSigned?_integer (n : Int) :
    scanSigned? (integer n).toList = some (decide (n < 0), (n.natAbs : ℚ)) := by
  unfold integer
  split
  · rename_i hneg
    rw [String.toList_append]
    change (scan? (digitString n.natAbs).toList).map _ = _
    rw [scan?_digitString, decide_eq_true hneg]
    rfl
  · rename_i hpos
    have habs : n.toNat = n.natAbs := by omega
    rw [scanSigned?_of_scan? (scan?_digitString _), decide_eq_false hpos, habs]

theorem self_mem_around {m : Nat} {q : Int} (h : Normal m q) : (Interval.around m q).Mem q (m * (2 : ℚ) ^ q) := by
  have hp : (0 : ℚ) < (2 : ℚ) ^ (q - 2) := by positivity
  have hmid : m * (2 : ℚ) ^ q = ((Interval.around m q).mid : ℚ) * (2 : ℚ) ^ (q - 2) := by
    rw [zpow_sub₀ (by norm_num : (2 : ℚ) ≠ 0), Interval.around]
    push_cast
    ring
  obtain ⟨hlow, hhigh⟩ := around_bounds h
  have hlow : ((Interval.around m q).low : ℚ) * (2 : ℚ) ^ (q - 2) < m * (2 : ℚ) ^ q := by
    rw [hmid]
    exact mul_lt_mul_of_pos_right (by exact_mod_cast hlow) hp
  have hhigh : m * (2 : ℚ) ^ q < ((Interval.around m q).high : ℚ) * (2 : ℚ) ^ (q - 2) := by
    rw [hmid]
    exact mul_lt_mul_of_pos_right (by exact_mod_cast hhigh) hp
  unfold Interval.Mem
  split
  · exact ⟨hlow.le, hhigh.le⟩
  · exact ⟨hlow, hhigh⟩

/-- The parts of a number without a fraction. -/
theorem of_whole? {x : Float} {n : Int} (h : whole? x = some n) :
    ∃ negative m q, parts x = .finite negative m q ∧ (n.natAbs : ℚ) = m * (2 : ℚ) ^ q ∧
      (n ≠ 0 → decide (n < 0) = negative) := by
  unfold whole? at h
  split at h
  · rename_i negative m q hparts
    dsimp only at h
    split at h
    · rename_i hmod
      have hfraction := fraction_eq m q
      have hden : 0 < (fraction m q).2 := by
        unfold fraction
        split <;> positivity
      have hwhole : (((fraction m q).1 / (fraction m q).2 : Nat) : ℚ) = m * (2 : ℚ) ^ q := by
        rw [Nat.cast_div (Nat.dvd_of_mod_eq_zero hmod) (by exact_mod_cast hden.ne'), hfraction]
        field_simp
      generalize (fraction m q).1 / (fraction m q).2 = whole at h hwhole
      refine ⟨negative, m, q, hparts, (congrArg Nat.cast ?_).trans hwhole, fun hne => ?_⟩
      · rw [← Option.some.inj h]
        cases negative <;> simp
      · rw [← Option.some.inj h] at hne ⊢
        cases negative with
        | false => simp
        | true =>
          rw [if_pos rfl] at hne ⊢
          rw [decide_eq_true_eq]
          omega
    · cases h
  · cases h

/-- There is one number that is none. -/
theorem not_beq_of_nan {x : Float} (h : parts x = .nan) : ¬ (x == x) = true := by
  have hnan : parts (0.0 / 0.0) = .nan := by decide
  rw [parts_injective (h.trans hnan.symm)]
  decide

/-- There are two zeros. -/
theorem beq_of_zeros {x y : Float} {a b : Bool} {p q : Int} (hx : parts x = .finite a 0 p)
    (hy : parts y = .finite b 0 q) : (x == y) = true := by
  have hzero {z : Float} {s : Bool} {e : Int} (hz : parts z = .finite s 0 e) : z = 0.0 ∨ z = -0.0 := by
    obtain rfl := exponent_of_zero hz
    cases s with
    | false => exact .inl (parts_injective (hz.trans (by decide)))
    | true => exact .inr (parts_injective (hz.trans (by decide)))
  rcases hzero hx with rfl | rfl <;> rcases hzero hy with rfl | rfl <;> decide

end Decimal
/-! ## Fields with equal names -/

namespace Fields

variable {α : Type}

theorem pairwise_foldl_insert (pairs : List (String × α)) (f : Fields α)
    (h : f.entries.Pairwise fun a b => a.1 < b.1) :
    (pairs.foldl (fun f e => f.insert e.1 e.2) f).entries.Pairwise fun a b => a.1 < b.1 := by
  induction pairs generalizing f with
  | nil => exact h
  | cons e pairs ih => exact ih _ (pairwise_insertInto h)

theorem pairwise_ofList (pairs : List (String × α)) : (ofList pairs).entries.Pairwise fun a b => a.1 < b.1 :=
  pairwise_foldl_insert pairs {} .nil

theorem nodup_ofList (pairs : List (String × α)) : ((ofList pairs).entries.map Prod.fst).Nodup :=
  List.pairwise_map.mpr ((pairwise_ofList pairs).imp fun h => ne_of_lt h)

theorem lookup_ofList (pairs : List (String × α)) (name : String) :
    (ofList pairs).entries.lookup name = pairs.reverse.lookup name := by
  have hfold := get?_foldl_insert pairs {} name
  rwa [show ({} : Fields α).get? name = none from rfl, Option.or_none] at hfold

/-- The last of several fields with one name stays. -/
theorem mem_ofList (pairs : List (String × α)) (name : String) (v : α) :
    (name, v) ∈ (ofList pairs).entries ↔
      ∃ before after, pairs = before ++ (name, v) :: after ∧ ∀ p ∈ after, p.1 ≠ name := by
  have hlookup : (name, v) ∈ (ofList pairs).entries ↔ pairs.reverse.lookup name = some v := by
    rw [← lookup_ofList]
    exact ⟨lookup_of_mem (nodup_ofList pairs), mem_of_lookup_eq_some⟩
  rw [hlookup, List.lookup_eq_some_iff]
  constructor
  · rintro ⟨front, rest, hpairs, hfront⟩
    refine ⟨rest.reverse, front.reverse, ?_, fun p hp => ?_⟩
    · rw [← List.reverse_reverse pairs, hpairs]
      simp
    · have hne := hfront p (List.mem_reverse.mp hp)
      exact fun heq => by simp [heq] at hne
  · rintro ⟨before, after, rfl, hafter⟩
    refine ⟨after.reverse, before.reverse, by simp, fun p hp => ?_⟩
    simpa [bne_iff_ne] using (hafter p (List.mem_reverse.mp hp)).symm

theorem mem_keys_ofList (pairs : List (String × α)) (name : String) :
    name ∈ (ofList pairs).entries.map Prod.fst ↔ name ∈ pairs.map Prod.fst := by
  rw [← not_iff_not, ← lookup_eq_none_iff, lookup_ofList, lookup_eq_none_iff, List.map_reverse, List.mem_reverse]

/-- Fields with different names are all there. -/
theorem perm_ofList {pairs : List (String × α)} (h : (pairs.map Prod.fst).Nodup) : (ofList pairs).entries.Perm pairs :=
  (entries_foldl_insert pairs {} .nil h).2

/-- None is lost exactly if their names are different. -/
theorem length_ofList (pairs : List (String × α)) :
    (ofList pairs).entries.length = pairs.length ↔ (pairs.map Prod.fst).Nodup := by
  refine ⟨fun h => ?_, fun h => (perm_ofList h).length_eq⟩
  have hperm : ((ofList pairs).entries.map Prod.fst).Perm (pairs.map Prod.fst).dedup :=
    (List.perm_ext_iff_of_nodup (nodup_ofList pairs) (List.nodup_dedup _)).mpr fun name => by
      rw [List.mem_dedup, mem_keys_ofList]
  have hlength : (pairs.map Prod.fst).dedup.length = (pairs.map Prod.fst).length := by
    rw [← hperm.length_eq, List.length_map, List.length_map, h]
  rw [← (List.dedup_sublist _).eq_of_length hlength]
  exact List.nodup_dedup _

end Fields

/-! ## Keys -/

namespace Scalar

/-- The keys that a map can have, apart from one that is never found again. -/
inductive IsKey : Scalar → Prop where
  | number {x : Float} (h : (x == x) = true) : IsKey (.number x)
  | string (text : String) : IsKey (.string text)
  | bool (b : Bool) : IsKey (.bool b)
  | enum (type : TypeId) (key : String) : IsKey (.enum type key)
  | nil : IsKey .nil
  | void : IsKey .void

/-- Whether the text of a key is up to whoever made it. -/
def IsNamed (k : Scalar) : Prop := k.kind = .string ∨ k.kind = .enum

/-- Keys that may be written alike although they are different. -/
def Clash (a b : Scalar) : Prop := (a.IsNamed ∨ b.IsNamed) ∧ (a.kind ≠ b.kind ∨ a.type ≠ b.type)

end Scalar

namespace Script

open Decimal

/-! ## Texts of numbers -/

/-- The text of a number is scanned back as a decimal that is nearest to it. -/
theorem scanSigned?_numberText {x : Float} {negative : Bool} {m : Nat} {q : Int}
    (h : parts x = .finite negative m q) : ∃ sign r, scanSigned? (numberText x).toList = some (sign, r) ∧
      (m = 0 → r = 0) ∧ (m ≠ 0 → sign = negative ∧ (Interval.around m q).Mem q r) := by
  have hgeneral : ∃ sign r, scanSigned? (general x).toList = some (sign, r) ∧
      (m = 0 → r = 0) ∧ (m ≠ 0 → sign = negative ∧ (Interval.around m q).Mem q r) := by
    have hscan := scanSigned?_general x
    rw [h] at hscan
    refine ⟨_, _, hscan, fun hm => if_pos hm, fun hm => ⟨rfl, ?_⟩⟩
    rw [if_neg hm]
    exact shortest_mem (normal_of_parts h hm)
  unfold numberText
  split
  · rename_i n hn
    split
    · obtain ⟨negative', m', q', hparts, habs, hsign⟩ := of_whole? hn
      rw [h] at hparts
      cases hparts
      refine ⟨_, _, scanSigned?_integer n, fun hm => ?_, fun hm => ⟨hsign ?_, ?_⟩⟩
      · rw [habs, hm, Nat.cast_zero, zero_mul]
      · rintro rfl
        have hzero : (m : ℚ) * (2 : ℚ) ^ q ≠ 0 := by positivity
        exact hzero habs.symm
      · rw [habs]
        exact self_mem_around (normal_of_parts h hm)
    · exact hgeneral
  · exact hgeneral

theorem numberText_of_not_finite {x : Float} (h : ∀ negative m q, parts x ≠ .finite negative m q) :
    numberText x = general x := by
  have hwhole : whole? x = none := by
    unfold whole?
    split
    · exact absurd ‹_› (h _ _ _)
    · rfl
  rw [numberText, hwhole]

theorem numberText_of_infinite {x : Float} {negative : Bool} (h : parts x = .infinite negative) :
    numberText x = if negative then "-Inf" else "+Inf" := by
  rw [numberText_of_not_finite fun _ _ _ => by simp [h], general, layout, h]

theorem scanSigned?_of_infinite {x : Float} {negative : Bool} (h : parts x = .infinite negative) :
    scanSigned? (numberText x).toList = none := by
  rw [numberText_of_infinite h]
  cases negative <;> decide

theorem pos_of_mem {m : Nat} {q : Int} {r : ℚ} (h : Normal m q) (hr : (Interval.around m q).Mem q r) : 0 < r := by
  obtain ⟨hlow, -⟩ := mem_around h hr
  have hp : (0 : ℚ) < (2 : ℚ) ^ (q - 2) := by positivity
  have hm : (1 : ℚ) ≤ m := by exact_mod_cast h.pos
  exact lt_of_lt_of_le (mul_pos (by linarith) hp) hlow

theorem numberText_injective {x y : Float} (hx : (x == x) = true) (hy : (y == y) = true)
    (h : numberText x = numberText y) : (x == y) = true := by
  cases hpx : parts x with
  | nan => exact absurd hx (not_beq_of_nan hpx)
  | infinite a =>
    cases hpy : parts y with
    | nan => exact absurd hy (not_beq_of_nan hpy)
    | infinite b =>
      rw [numberText_of_infinite hpx, numberText_of_infinite hpy] at h
      have hab : a = b := by revert h; cases a <;> cases b <;> decide
      obtain rfl : x = y := parts_injective (hpx.trans (hab ▸ hpy.symm))
      exact hx
    | finite b n q =>
      obtain ⟨sign, r, hscan, -⟩ := scanSigned?_numberText hpy
      rw [← h, scanSigned?_of_infinite hpx] at hscan
      cases hscan
  | finite a m p =>
    obtain ⟨sign, r, hscan, hzero, hfinite⟩ := scanSigned?_numberText hpx
    cases hpy : parts y with
    | nan => exact absurd hy (not_beq_of_nan hpy)
    | infinite b =>
      rw [h, scanSigned?_of_infinite hpy] at hscan
      cases hscan
    | finite b n q =>
      obtain ⟨sign', r', hscan', hzero', hfinite'⟩ := scanSigned?_numberText hpy
      rw [← h, hscan] at hscan'
      obtain ⟨rfl, rfl⟩ := Prod.mk.inj (Option.some.inj hscan')
      by_cases hm : m = 0
      · by_cases hn : n = 0
        · exact beq_of_zeros (hm ▸ hpx) (hn ▸ hpy)
        · exact absurd (hzero hm) (pos_of_mem (normal_of_parts hpy hn) (hfinite' hn).2).ne'
      · by_cases hn : n = 0
        · exact absurd (hzero' hn) (pos_of_mem (normal_of_parts hpx hm) (hfinite hm).2).ne'
        · obtain ⟨ha, hr⟩ := hfinite hm
          obtain ⟨hb, hr'⟩ := hfinite' hn
          obtain ⟨rfl, rfl⟩ := mem_unique (normal_of_parts hpx hm) (normal_of_parts hpy hn) hr hr'
          obtain rfl : x = y := parts_injective (hpx.trans ((ha.symm.trans hb) ▸ hpy.symm))
          exact hx

theorem numberText_ne {x : Float} (hx : (x == x) = true) {word : String} (hscan : scanSigned? word.toList = none)
    (hword : word ≠ "-Inf" ∧ word ≠ "+Inf") : numberText x ≠ word := by
  rintro rfl
  cases hparts : parts x with
  | nan => exact not_beq_of_nan hparts hx
  | infinite negative =>
    rw [numberText_of_infinite hparts] at hword
    cases negative
    · exact hword.2 rfl
    · exact hword.1 rfl
  | finite negative m q =>
    obtain ⟨sign, r, hfinite, -⟩ := scanSigned?_numberText hparts
    rw [hfinite] at hscan
    cases hscan

/-! ## Texts of keys -/

/-- The keys that are always written in the same way. -/
def wordKeys : List Scalar := [.bool true, .bool false, .nil, .void]

theorem number_or_word {k : Scalar} (hk : k.IsKey) (hnamed : ¬ k.IsNamed) :
    (∃ x : Float, (x == x) = true ∧ k = .number x) ∨ k ∈ wordKeys := by
  cases hk with
  | number h => exact .inl ⟨_, h, rfl⟩
  | string text => exact absurd (.inl rfl) hnamed
  | bool b => cases b <;> simp [wordKeys]
  | enum type key => exact absurd (.inr rfl) hnamed
  | nil => simp [wordKeys]
  | void => simp [wordKeys]

theorem keyText_word : ∀ k ∈ wordKeys, scanSigned? (keyText k).toList = none ∧
    keyText k ≠ "-Inf" ∧ keyText k ≠ "+Inf" := by
  decide

theorem same_words : ∀ a ∈ wordKeys, ∀ b ∈ wordKeys, keyText a = keyText b → a.same b = true := by
  decide

theorem keyText_number_ne {x : Float} (hx : (x == x) = true) {k : Scalar} (hk : k ∈ wordKeys) :
    keyText (.number x) ≠ keyText k :=
  numberText_ne hx (keyText_word k hk).1 (keyText_word k hk).2

/-- Named keys of one kind and type are told apart by their texts. -/
theorem same_of_named {a b : Scalar} (ha : a.IsKey) (hb : b.IsKey) (hnamed : a.IsNamed) (hkind : a.kind = b.kind)
    (htype : a.type = b.type) (h : keyText a = keyText b) : a.same b = true := by
  have hzero : ((0.0 : Float) == 0.0) = true := by decide
  cases ha with
  | string text =>
    cases hb with
    | string text' => exact (same_string _ _).trans (decide_eq_true h)
    | _ => cases hkind
  | enum type key =>
    cases hb with
    | enum type' key' =>
      obtain rfl : type = type' := htype
      obtain rfl : key = key' := h
      simp [Scalar.same, Scalar.enum, hzero]
    | _ => cases hkind
  | _ => rcases hnamed with hnamed | hnamed <;> cases hnamed

/-- Keys that are written alike are the same, or one of them is a string or an enum and the other is of another kind or
of another type. -/
theorem same_or_clash {a b : Scalar} (ha : a.IsKey) (hb : b.IsKey) (h : keyText a = keyText b) :
    a.same b = true ∨ a.Clash b := by
  by_cases hnamed : a.IsNamed ∨ b.IsNamed
  · by_cases hdiffers : a.kind ≠ b.kind ∨ a.type ≠ b.type
    · exact .inr ⟨hnamed, hdiffers⟩
    · simp only [ne_eq, not_or, not_not] at hdiffers
      have hnamed : a.IsNamed := hnamed.elim id fun hb => by rwa [Scalar.IsNamed, hdiffers.1]
      exact .inl (same_of_named ha hb hnamed hdiffers.1 hdiffers.2 h)
  · rw [not_or] at hnamed
    left
    rcases number_or_word ha hnamed.1 with ⟨x, hx, rfl⟩ | ha
    · rcases number_or_word hb hnamed.2 with ⟨y, hy, rfl⟩ | hb
      · simp [Scalar.same, Scalar.number, numberText_injective hx hy h]
      · exact absurd h (keyText_number_ne hx hb)
    · rcases number_or_word hb hnamed.2 with ⟨y, hy, rfl⟩ | hb
      · exact absurd h.symm (keyText_number_ne hy ha)
      · exact same_words a ha b hb h

/-! ## Entries -/

/-- The entries that a script sees. There is one for every text of a key, in the order of the texts, with what the last
value under a key of this text is converted to. So there is one for every entry of the map, with its own value, exactly
if no two keys are written alike; and this can only happen to the key of a string or an enum and one of another kind or
type. -/
theorem treeOfTo_map {h : Heap} {ref : Nat} (hkeys : ∀ k ∈ (h.map ref).keys, k.IsKey)
    (hdistinct : (h.map ref).keys.Pairwise fun a b => ¬ a.same b) (left : Nat) (type : TypeId) :
    ∃ entries, treeOfTo h (left + 1) (.map type ref) = .map entries false ∧
      entries.Pairwise (fun a b => a.1 < b.1) ∧
      (∀ name t, (name, t) ∈ entries ↔ ∃ before e after, (h.map ref).entries = before ++ e :: after ∧
        keyText e.1 = name ∧ treeOfTo h left e.2 = t ∧ ∀ x ∈ after, keyText x.1 ≠ name) ∧
      (entries.length = (h.map ref).size ↔ ((h.map ref).keys.map keyText).Nodup) ∧
      (((h.map ref).keys.map keyText).Nodup →
        entries.Perm ((h.map ref).entries.map fun e => (keyText e.1, treeOfTo h left e.2))) ∧
      ((∀ a ∈ (h.map ref).keys, ∀ b ∈ (h.map ref).keys, ¬ a.Clash b) → ((h.map ref).keys.map keyText).Nodup) ∧
      ∀ a ∈ (h.map ref).keys, ∀ b ∈ (h.map ref).keys, keyText a = keyText b → a.same b = true ∨ a.Clash b := by
  have hclash : ∀ a ∈ (h.map ref).keys, ∀ b ∈ (h.map ref).keys, keyText a = keyText b → a.same b = true ∨ a.Clash b :=
    fun a ha b hb => same_or_clash (hkeys a ha) (hkeys b hb)
  generalize hpairs : (h.map ref).entries.map (fun e => (keyText e.1, treeOfTo h left e.2)) = pairs
  have hnames : pairs.map Prod.fst = (h.map ref).keys.map keyText := by
    rw [← hpairs, ← OrderedMap.map_fst_entries, List.map_map, List.map_map]
    rfl
  have hlength : pairs.length = (h.map ref).size := by rw [← hpairs, List.length_map, OrderedMap.length_entries]
  refine ⟨(Fields.ofList pairs).entries, by rw [← hpairs]; rfl, Fields.pairwise_ofList pairs, fun name t => ?_,
    ?_, ?_, fun hfree => ?_, hclash⟩
  · rw [Fields.mem_ofList, ← hpairs]
    constructor
    · rintro ⟨before, after, hsplit, hafter⟩
      obtain ⟨before, rest, hentries, rfl, hrest⟩ := List.map_eq_append_iff.mp hsplit
      obtain ⟨e, after, rfl, he, rfl⟩ := List.map_eq_cons_iff.mp hrest
      obtain ⟨rfl, rfl⟩ := Prod.mk.inj he
      exact ⟨before, e, after, hentries, rfl, rfl, fun x hx => hafter _ (List.mem_map_of_mem hx)⟩
    · rintro ⟨before, e, after, hentries, rfl, rfl, hafter⟩
      refine ⟨_, _, by rw [hentries, List.map_append, List.map_cons], fun p hp => ?_⟩
      obtain ⟨x, hx, rfl⟩ := List.mem_map.mp hp
      exact hafter x hx
  · rw [← hnames, ← hlength]
    exact Fields.length_ofList pairs
  · rw [← hnames]
    exact Fields.perm_ofList
  · refine List.pairwise_map.mpr (hdistinct.imp_of_mem fun {a b} ha hb hab htext => ?_)
    exact (hclash a ha b hb htext).elim hab (hfree a ha b hb)

/-- A number and a string that are written alike. -/
def mergingHeap : Heap where
  maps := #[.ofList [(.number 1.0, .string "a"), (.string "1", .string "b")]]

theorem keys_mergingHeap : (mergingHeap.map 0).keys = [.number 1.0, .string "1"] := rfl

theorem isKey_mergingHeap : ∀ k ∈ (mergingHeap.map 0).keys, k.IsKey := by
  rw [keys_mergingHeap]
  simp only [List.forall_mem_cons, List.not_mem_nil, false_imp_iff, implies_true, and_true]
  exact ⟨.number (by decide), .string "1"⟩

theorem distinct_mergingHeap : (mergingHeap.map 0).keys.Pairwise fun a b => ¬ a.same b := by
  rw [keys_mergingHeap]
  decide

theorem keyText_mergingHeap : (mergingHeap.map 0).keys.map keyText = ["1", "1"] := by
  rw [keys_mergingHeap]
  decide

theorem treeOfTo_map_merging : ∃ entries, treeOf mergingHeap (.map "map" 0) = .map entries false ∧
    ("1", .string "b") ∈ entries ∧ entries.length ≠ 2 := by
  obtain ⟨entries, htree, -, hmem, hlength, -⟩ :=
    treeOfTo_map isKey_mergingHeap distinct_mergingHeap maxDepth "map"
  refine ⟨entries, htree, (hmem _ _).mpr ⟨[(.number 1.0, .string "a")], _, [], rfl, rfl, rfl, by simp⟩, fun htwo => ?_⟩
  have hnodup := hlength.mp htwo
  rw [keyText_mergingHeap] at hnodup
  exact absurd hnodup (by decide)

/-- A number and a string are written alike, and a script sees one entry for both. -/
theorem entry_lost : ¬ ∀ (h : Heap) (type : TypeId) (ref : Nat), (∀ k ∈ (h.map ref).keys, k.IsKey) →
    ((h.map ref).keys.Pairwise fun a b => ¬ a.same b) →
    ∃ entries, treeOf h (.map type ref) = .map entries false ∧ entries.length = (h.map ref).size := by
  intro h
  obtain ⟨entries, htree, hlength⟩ := h mergingHeap "map" 0 isKey_mergingHeap distinct_mergingHeap
  obtain ⟨rfl, -⟩ := Tree.map.inj htree
  have hnodup := (Fields.length_ofList _).mp hlength
  rw [List.map_map] at hnodup
  change ((mergingHeap.map 0).keys.map keyText).Nodup at hnodup
  rw [keyText_mergingHeap] at hnodup
  exact absurd hnodup (by decide)

end Script
end TileMind
