import TileMind.Cbor.Read
import TileMind.Proofs.Cbor.Numbers
import TileMind.Proofs.Text.Utf8

/-!
# TileMind.Proofs.Cbor.Items

The bytes of an item are read back as that item, as long as it keeps within the limits of the format
and of the reader (`Item.fits`).

The main result is `Cbor.read?_toBytes`: the canonical bytes are a faithful way to write items
(`Cbor.Codec.Faithful`).
-/

namespace TileMind
namespace Cbor

/-! ## Heads -/

theorem bigEndian_succ (width n : Nat) :
    bigEndian (width + 1) n = UInt8.ofNat (n / 256 ^ width % 256) :: bigEndian width n := by
  simp [bigEndian, List.range_succ]

theorem length_bigEndian (width n : Nat) : (bigEndian width n).length = width := by
  simp [bigEndian]

theorem foldl_bigEndian (width n start : Nat) :
    (bigEndian width n).foldl (fun n b => n * 256 + b.toNat) start =
      start * 256 ^ width + n % 256 ^ width := by
  induction width generalizing start with
  | zero => simp [bigEndian, Nat.mod_one]
  | succ width ih =>
    have hdigit : (UInt8.ofNat (n / 256 ^ width % 256)).toNat = n / 256 ^ width % 256 := by simp
    rw [bigEndian_succ, List.foldl_cons, ih, hdigit, Nat.mod_pow_succ]
    ring

theorem natOfBytes_bigEndian {width n : Nat} (h : n < 256 ^ width) :
    natOfBytes (bigEndian width n) = n := by
  rw [natOfBytes, foldl_bigEndian, Nat.zero_mul, Nat.zero_add, Nat.mod_eq_of_lt h]

theorem splitBytes_append (front rest : List UInt8) :
    splitBytes front.length (front ++ rest) = some (front, rest) := by
  simp [splitBytes]

theorem splitBytes_bigEndian (width n : Nat) (rest : List UInt8) :
    splitBytes width (bigEndian width n ++ rest) = some (bigEndian width n, rest) := by
  have h := splitBytes_append (bigEndian width n) rest
  rwa [length_bigEndian] at h

/-- The additional information of a head in its shortest form. -/
def headInfo (n : Nat) : Nat :=
  if n < 24 then n else if n < 2 ^ 8 then 24 else if n < 2 ^ 16 then 25
  else if n < 2 ^ 32 then 26 else 27

theorem toNat_first {major info : Nat} (hmajor : major < 8) (hinfo : info < 32) :
    (UInt8.ofNat (major * 32 + info)).toNat = major * 32 + info := by
  rw [UInt8.toNat_ofNat']
  omega

theorem readHead_wide {major info width n : Nat} (hmajor : major < 8)
    (hwidth : (info, width) ∈ [(24, 1), (25, 2), (26, 4), (27, 8)]) (hn : n < 256 ^ width)
    (rest : List UInt8) :
    readHead (UInt8.ofNat (major * 32 + info) :: (bigEndian width n ++ rest)) =
      some (⟨major, info, some n⟩, rest) := by
  have hinfo : info < 32 ∧ 24 ≤ info := by
    simp only [List.mem_cons, Prod.mk.injEq, List.not_mem_nil, or_false] at hwidth
    omega
  have hdiv : (major * 32 + info) / 32 = major := by omega
  have hmod : (major * 32 + info) % 32 = info := by omega
  simp only [readHead, toNat_first hmajor hinfo.1, hdiv, hmod]
  simp only [List.mem_cons, Prod.mk.injEq, List.not_mem_nil, or_false] at hwidth
  obtain ⟨rfl, rfl⟩ | ⟨rfl, rfl⟩ | ⟨rfl, rfl⟩ | ⟨rfl, rfl⟩ := hwidth <;>
    simp [splitBytes_bigEndian, natOfBytes_bigEndian hn]

theorem readHead_head {major n : Nat} (hmajor : major < 8) (hn : n < 2 ^ 64) (rest : List UInt8) :
    readHead (head major n ++ rest) = some (⟨major, headInfo n, some n⟩, rest) := by
  unfold head headInfo
  split
  · rename_i hsmall
    have hdiv : (major * 32 + n) / 32 = major := by omega
    have hmod : (major * 32 + n) % 32 = n := by omega
    simp only [List.cons_append, List.nil_append, readHead,
      toNat_first hmajor (show n < 32 by omega), hdiv, hmod, hsmall, if_true]
  · split
    · exact readHead_wide hmajor (by simp) (by omega) rest
    · split
      · exact readHead_wide hmajor (by simp) (by omega) rest
      · split
        · exact readHead_wide hmajor (by simp) (by omega) rest
        · exact readHead_wide hmajor (by simp) (by omega) rest

theorem length_head_pos (major n : Nat) : 0 < (head major n).length := by
  unfold head
  split
  · simp
  · split
    · simp
    · split
      · simp
      · split <;> simp

/-! ## Limits -/

mutual

/-- Whether an item below `depth` containers can be written and read: numbers have 64 bits,
containers keep within the limits, texts are whole, and there are no tags. -/
def Item.fits : (depth : Nat) → Item → Bool
  | _, .uint n | _, .nint n => n < 2 ^ 64
  | _, .bytes bs => bs.length < 2 ^ 64
  | _, .text [bs] => bs.length < 2 ^ 64
  | depth, .array items => isReadable depth (some items.length) && itemsFit (depth + 1) items
  | depth, .map entries => isReadable depth (some entries.length) && entriesFit (depth + 1) entries
  | _, .simple n => n < 24
  | _, .float _ => true
  | _, .text _ | _, .tag _ _ => false
termination_by structural _ i => i

def itemsFit : (depth : Nat) → List Item → Bool
  | _, [] => true
  | depth, i :: rest => i.fits depth && itemsFit depth rest
termination_by structural _ is => is

def entriesFit : (depth : Nat) → List (Item × Item) → Bool
  | _, [] => true
  | depth, (k, v) :: rest => k.fits depth && v.fits depth && entriesFit depth rest
termination_by structural _ es => es

end

theorem itemsFit_iff {depth : Nat} {items : List Item} :
    itemsFit depth items ↔ ∀ i ∈ items, i.fits depth := by
  induction items with
  | nil => simp [itemsFit]
  | cons i items ih => simp [itemsFit, ih]

theorem entriesFit_iff {depth : Nat} {entries : List (Item × Item)} :
    entriesFit depth entries ↔ ∀ e ∈ entries, e.1.fits depth ∧ e.2.fits depth := by
  induction entries with
  | nil => simp [entriesFit]
  | cons e entries ih => simp [entriesFit, ih, and_assoc]

theorem Item.fits_array {depth : Nat} {items : List Item} (h : (Item.array items).fits depth) :
    ∀ i ∈ items, i.fits (depth + 1) :=
  itemsFit_iff.mp (Bool.and_eq_true_iff.mp h).2

theorem Item.fits_map {depth : Nat} {entries : List (Item × Item)} (h : (Item.map entries).fits depth) :
    depth < maxNesting ∧ ∀ e ∈ entries, e.2.fits (depth + 1) := by
  obtain ⟨hcount, hentries⟩ := Bool.and_eq_true_iff.mp h
  exact ⟨of_decide_eq_true (Bool.and_eq_true_iff.mp hcount).1,
    fun e he => (entriesFit_iff.mp hentries e he).2⟩

theorem Item.fits_ofNumbered {depth : Nat} {fields : List (Nat × Option Item)}
    (h : (Item.ofNumbered fields).fits depth) :
    depth < maxNesting ∧ ∀ n v, (n, some v) ∈ fields → v.fits (depth + 1) := by
  obtain ⟨hdepth, hentries⟩ := Item.fits_map h
  refine ⟨hdepth, fun n v hv => hentries (.uint n, v) ?_⟩
  exact List.mem_filterMap.mpr ⟨(n, some v), hv, rfl⟩

theorem Item.fits_string (depth : Nat) (s : String) :
    (Item.string s).fits depth = decide (s.utf8ByteSize < 2 ^ 64) := by
  rw [Item.string, Item.fits, Text.length_bytes]

theorem Item.fits_ofFields {depth : Nat} {entries : List (String × Item)} :
    (Item.ofFields entries).fits depth ↔ isReadable depth (some entries.length) ∧
      ∀ e ∈ entries, e.1.utf8ByteSize < 2 ^ 64 ∧ e.2.fits (depth + 1) := by
  have hperm := List.mergeSort_perm entries fun a b =>
    a.1.utf8ByteSize < b.1.utf8ByteSize || (a.1.utf8ByteSize = b.1.utf8ByteSize && a.1 ≤ b.1)
  simp only [Item.ofFields, Item.fits, Bool.and_eq_true, List.length_map, hperm.length_eq,
    entriesFit_iff, List.forall_mem_map, Item.fits_string, decide_eq_true_eq, hperm.mem_iff]

theorem lt_of_isReadable {depth n : Nat} (h : isReadable depth (some n)) : n < 2 ^ 64 := by
  have hcount : n ≤ maxCount := of_decide_eq_true (Bool.and_eq_true_iff.mp h).2
  exact Nat.lt_of_le_of_lt hcount (by decide)

/-! ## Numbers -/

/-- The shortest bytes of a number are read as that number. -/
theorem simpleItem_float (x : Float) (rest : List UInt8) :
    ∃ h, readHead (floatBytes x ++ rest) = some (h, rest) ∧ h.major = 7 ∧
      simpleItem h = some (.float x) := by
  unfold floatBytes
  cases hx : Decimal.parts x with
  | nan =>
    have hnan : FloatWidth.half.ofBits 0x7E00 = x := Decimal.parts_injective (by rw [hx]; decide)
    exact ⟨⟨7, 25, some 0x7E00⟩, rfl, rfl, by simp [simpleItem, hnan]⟩
  | infinite negative =>
    have hinf : FloatWidth.half.ofBits (0x7C00 + 0x8000 * negative.toNat) = x := by
      apply Decimal.parts_injective
      rw [hx]
      cases negative <;> decide
    refine ⟨⟨7, 25, some (0x7C00 + 0x8000 * negative.toNat)⟩, ?_, rfl, by simp [simpleItem, hinf]⟩
    cases negative <;> rfl
  | finite negative m q =>
    simp only
    split
    · rename_i b hb
      have hread := FloatWidth.ofBits_bits? FloatWidth.standard_half hx hb
      have hlt : b < 31 * 2 ^ 10 := FloatWidth.bits?_lt FloatWidth.standard_half hb
      have hsign : (if negative then 2 ^ 15 else 0) = 32 * 2 ^ 10 * negative.toNat := by
        cases negative <;> rfl
      have hbits : b + 32 * 2 ^ 10 * negative.toNat < 256 ^ 2 := by
        have := negative.toNat_lt
        omega
      rw [hsign]
      exact ⟨_, readHead_wide (show 7 < 8 by decide) (show (25, 2) ∈ _ by simp) hbits rest, rfl,
        congrArg (some ∘ Item.float) hread⟩
    · split
      · rename_i b hb
        have hread := FloatWidth.ofBits_bits? FloatWidth.standard_single hx hb
        have hlt : b < 255 * 2 ^ 23 := FloatWidth.bits?_lt FloatWidth.standard_single hb
        have hsign : (if negative then 2 ^ 31 else 0) = 256 * 2 ^ 23 * negative.toNat := by
          cases negative <;> rfl
        have hbits : b + 256 * 2 ^ 23 * negative.toNat < 256 ^ 4 := by
          have := negative.toNat_lt
          omega
        rw [hsign]
        exact ⟨_, readHead_wide (show 7 < 8 by decide) (show (26, 4) ∈ _ by simp) hbits rest, rfl,
          congrArg (some ∘ Item.float) hread⟩
      · refine ⟨_, readHead_wide (show 7 < 8 by decide) (show (27, 8) ∈ _ by simp)
          x.toBits.toNat_lt rest, rfl, ?_⟩
        simp [simpleItem]

theorem length_floatBytes_pos (x : Float) : 0 < (floatBytes x).length := by
  unfold floatBytes
  split
  · simp
  · simp
  · split
    · simp
    · split <;> simp

/-! ## Items -/

theorem length_toBytes_pos (i : Item) : 0 < i.toBytes.length := by
  cases i with
  | float x => exact length_floatBytes_pos x
  | uint n | nint n | simple n => exact length_head_pos _ n
  | bytes bs | text chunks | array items | map entries | tag number item =>
    simp only [Item.toBytes, List.length_append]
    exact Nat.add_pos_left (length_head_pos _ _) _

mutual

/-- An item is read from its bytes, whatever follows them. Every byte pays for two levels of the
recursion, which the first byte of each item covers. -/
theorem readItem_toBytes : ∀ (i : Item) (depth fuel : Nat) (rest : List UInt8), i.fits depth →
    2 * i.toBytes.length ≤ fuel → readItem fuel depth (i.toBytes ++ rest) = some (i, rest)
  | i, depth, 0, rest, _, hfuel => by
    have := length_toBytes_pos i
    omega
  | .uint n, depth, fuel + 1, rest, hfits, _ => by
    have hn : n < 2 ^ 64 := of_decide_eq_true hfits
    rw [Item.toBytes, readItem, readHead_head (by decide) hn]
    rfl
  | .nint n, depth, fuel + 1, rest, hfits, _ => by
    have hn : n < 2 ^ 64 := of_decide_eq_true hfits
    rw [Item.toBytes, readItem, readHead_head (by decide) hn]
    rfl
  | .bytes bs, depth, fuel + 1, rest, hfits, _ => by
    have hn : bs.length < 2 ^ 64 := of_decide_eq_true hfits
    rw [Item.toBytes, readItem, List.append_assoc, readHead_head (by decide) hn]
    simp [splitBytes_append]
  | .text [bs], depth, fuel + 1, rest, hfits, _ => by
    have hn : bs.length < 2 ^ 64 := of_decide_eq_true hfits
    have hbytes : (Item.text [bs]).toBytes = head 3 bs.length ++ bs := by simp [Item.toBytes]
    rw [hbytes, readItem, List.append_assoc, readHead_head (by decide) hn]
    simp [splitBytes_append]
  | .array items, depth, fuel + 1, rest, hfits, hfuel => by
    obtain ⟨hcount, hitems⟩ := Bool.and_eq_true_iff.mp hfits
    have hhead := length_head_pos 4 items.length
    simp only [Item.toBytes, List.length_append] at hfuel
    rw [Item.toBytes, readItem, List.append_assoc, readHead_head (by decide) (lt_of_isReadable hcount)]
    simp only [hcount, Bool.not_true, Bool.false_eq_true, if_false]
    rw [readItems_itemsBytes items (depth + 1) fuel rest hitems (by omega)]
    rfl
  | .map entries, depth, fuel + 1, rest, hfits, hfuel => by
    obtain ⟨hcount, hentries⟩ := Bool.and_eq_true_iff.mp hfits
    have hhead := length_head_pos 5 entries.length
    simp only [Item.toBytes, List.length_append] at hfuel
    rw [Item.toBytes, readItem, List.append_assoc, readHead_head (by decide) (lt_of_isReadable hcount)]
    simp only [hcount, Bool.not_true, Bool.false_eq_true, if_false]
    rw [readEntries_entriesBytes entries (depth + 1) fuel rest hentries (by omega)]
    rfl
  | .simple n, depth, fuel + 1, rest, hfits, _ => by
    have hn : n < 24 := of_decide_eq_true hfits
    rw [Item.toBytes, readItem, readHead_head (by decide) (by omega)]
    simp [simpleItem, headInfo, hn]
  | .float x, depth, fuel + 1, rest, _, _ => by
    obtain ⟨h, hread, hmajor, hitem⟩ := simpleItem_float x rest
    rw [Item.toBytes, readItem, hread]
    simp [hmajor, hitem]

theorem readItems_itemsBytes : ∀ (items : List Item) (depth fuel : Nat) (rest : List UInt8),
    itemsFit depth items → 2 * (itemsBytes items).length < fuel →
    readItems fuel depth (some items.length) (itemsBytes items ++ rest) = some (items, rest)
  | items, depth, 0, rest, _, hfuel => by omega
  | [], depth, fuel + 1, rest, _, _ => by simp [readItems, itemsBytes]
  | i :: items, depth, fuel + 1, rest, hfits, hfuel => by
    obtain ⟨hi, hitems⟩ := Bool.and_eq_true_iff.mp hfits
    have hpos := length_toBytes_pos i
    simp only [itemsBytes, List.length_append] at hfuel
    rw [itemsBytes, List.append_assoc, readItems, if_neg (by simp), if_neg (by simp),
      readItem_toBytes i depth fuel (itemsBytes items ++ rest) hi (by omega)]
    simp only [List.length_cons, Option.map_some, Nat.add_sub_cancel]
    rw [readItems_itemsBytes items depth fuel rest hitems (by omega)]
    rfl

theorem readEntries_entriesBytes : ∀ (entries : List (Item × Item)) (depth fuel : Nat)
    (rest : List UInt8), entriesFit depth entries → 2 * (entriesBytes entries).length < fuel →
    readEntries fuel depth (some entries.length) (entriesBytes entries ++ rest) = some (entries, rest)
  | entries, depth, 0, rest, _, hfuel => by omega
  | [], depth, fuel + 1, rest, _, _ => by simp [readEntries, entriesBytes]
  | (k, v) :: entries, depth, fuel + 1, rest, hfits, hfuel => by
    obtain ⟨hboth, hentries⟩ := Bool.and_eq_true_iff.mp hfits
    obtain ⟨hk, hv⟩ := Bool.and_eq_true_iff.mp hboth
    have hpos := length_toBytes_pos k
    simp only [entriesBytes, List.length_append] at hfuel
    rw [entriesBytes, List.append_assoc, List.append_assoc, readEntries, if_neg (by simp),
      if_neg (by simp), readItem_toBytes k depth fuel _ hk (by omega)]
    simp only
    rw [readItem_toBytes v depth fuel _ hv (by omega)]
    simp only [List.length_cons, Option.map_some, Nat.add_sub_cancel]
    rw [readEntries_entriesBytes entries depth fuel rest hentries (by omega)]
    rfl

end

/-- An item within the limits is what its bytes are read as. -/
theorem read?_toBytes {i : Item} (h : i.fits 0) : read? i.toBytes = some i := by
  have hread := readItem_toBytes i 0 (2 * i.toBytes.length + 2) [] h (by omega)
  rw [List.append_nil] at hread
  rw [read?, hread]

/-- Within the limits, what is written is read back. -/
def Codec.Faithful (codec : Codec) : Prop := ∀ i : Item, i.fits 0 → codec.read (codec.write i) = some i

theorem canonical_faithful : canonical.Faithful := fun _ => read?_toBytes

end Cbor
end TileMind
