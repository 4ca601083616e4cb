import Mathlib
import TileMind.Cbor.Item
import TileMind.Proofs.Decimal.General

/-!
# TileMind.Proofs.Cbor.Numbers

Numbers in their three widths. A width keeps the numbers `m · 2^q` that it has room for: `bits?`
writes them, `magnitude` reads them, and both go by the odd part of `m`, so that what one width
writes another can take over.

* `FloatWidth.magnitude_of_bits?`: the bits of a number stand for that number.
* `FloatWidth.bits?_magnitude`: a number has no other bits.
* `FloatWidth.ofBits_bits?`: bits of a narrow width are read as the number they were made from.
-/

namespace TileMind
namespace Cbor

/-! ## The 64 bits of a number -/

section

open Float.Model Float.Model.UnpackedFloat

theorem Sign.toBitVec_ofBitVec (s : BitVec 1) : (Sign.ofBitVec s).toBitVec = s := by
  revert s
  decide

theorem packComponents_unpack (b : BitVec Format.binary64.numBits) :
    packComponents .binary64 (Sign.ofBitVec (unpackSign b)) (unpackExponent b) (unpackMantissa b) =
      b := by
  simp only [packComponents, Sign.toBitVec_ofBitVec, unpackSign, unpackExponent, unpackMantissa,
    BitVec.extractLsb]
  ext i hi
  grind

/-- A number below the normal ones has its bits from its mantissa alone. -/
theorem pack_subnormal (s : Sign) (m : BitVec 52) (hm : 0 < m.toNat) :
    UnpackedFloat.pack .binary64 (.finite s m.toNat (-1074) hm) = packComponents .binary64 s 0#11 m := by
  have hlog : m.toNat.log2 < 52 := (Nat.log2_lt hm.ne').mpr m.isLt
  have hbits : m.toNat.log2 + 1 ≠ Format.binary64.mantissaBits := by
    rw [show Format.binary64.mantissaBits = 53 from rfl]
    omega
  rw [UnpackedFloat.pack, if_neg (by decide), if_neg hbits, BitVec.ofNat_toNat, BitVec.setWidth_eq]

/-- A normal number has its first bit from its exponent. -/
theorem pack_normal (s : Sign) (e : BitVec 11) (m : BitVec 52) (hfinite : e ≠ -1#11)
    (hm : 0 < (1#1 ++ m).toNat) :
    UnpackedFloat.pack .binary64 (.finite s (1#1 ++ m).toNat ((e.toNat : Int) - 1075) hm) =
      packComponents .binary64 s e m := by
  have hvalue : (1#1 ++ m).toNat = 2 ^ 52 + m.toNat := by
    rw [BitVec.toNat_append, Nat.shiftLeft_eq, Nat.mul_comm, ← Nat.two_pow_add_eq_or_of_lt m.isLt]
    rfl
  have hlog : (1#1 ++ m).toNat.log2 = 52 := by
    rw [Nat.log2_eq_iff hm.ne', hvalue]
    have := m.isLt
    omega
  have hmant : BitVec.ofNat 52 (1#1 ++ m).toNat = m := by
    apply BitVec.eq_of_toNat_eq
    rw [hvalue, BitVec.toNat_ofNat, Nat.add_mod_left, Nat.mod_eq_of_lt m.isLt]
  have he : e.toNat ≠ 2047 := fun h => hfinite (BitVec.eq_of_toNat_eq h)
  have hexp : ((e.toNat : Int) - 1075 + Format.binary64.exponentBias +
      Format.binary64.mantissaBitsWithoutImplicit).toNat = e.toNat := by
    rw [show Format.binary64.exponentBias = 1023 from rfl,
      show Format.binary64.mantissaBitsWithoutImplicit = 52 from rfl]
    omega
  have hroom : ¬ 2 ^ Format.binary64.exponentBits ≤ e.toNat + 1 := by
    have := e.isLt
    rw [show Format.binary64.exponentBits = 11 from rfl]
    omega
  simp only [UnpackedFloat.pack, hexp, hlog]
  rw [if_neg hroom, if_pos (by decide), BitVec.ofNat_toNat, BitVec.setWidth_eq, hmant]

theorem pack_unpack {b : BitVec Format.binary64.numBits} (h : Format.binary64.Valid b) :
    UnpackedFloat.pack .binary64 (UnpackedFloat.unpack .binary64 b) = b := by
  have hparts := packComponents_unpack b
  unfold UnpackedFloat.unpack
  simp only
  split
  · rename_i he
    split
    · rename_i hm
      rw [he, hm] at hparts
      exact hparts
    · rename_i hm
      exact (h.eq_packedNaN he hm).symm
  · rename_i hfinite
    split
    · rename_i he
      split
      · rename_i hm
        rw [he, hm] at hparts
        exact hparts
      · rw [he] at hparts
        refine Eq.trans ?_ hparts
        simp only [he]
        exact pack_subnormal _ _ _
    · exact (pack_normal _ _ _ hfinite _).trans hparts

end

theorem ofBits_toBits (x : Float) : Float.ofBits x.toBits = x := by
  apply Decimal.toBits_inj
  apply UInt64.eq_of_toBitVec_eq
  exact pack_unpack x.toModel.valid

/-! ## Widths -/

namespace FloatWidth

/-- The numbers of a width are spread around one, and the least power of two is that of the last bit
of the least exponent. -/
structure Standard (w : FloatWidth) : Prop where
  precision_pos : 0 < w.precision
  high_pos : 0 < w.high
  low_eq : w.low = 2 - w.high - w.precision

theorem standard_half : half.Standard := ⟨by decide, by decide, by decide⟩

theorem standard_single : single.Standard := ⟨by decide, by decide, by decide⟩

theorem standard_double : double.Standard := ⟨by decide, by decide, by decide⟩

theorem le_of_bitLength {m : Nat} (hm : m ≠ 0) : 2 ^ (bitLength m - 1) ≤ m := by
  rw [bitLength, if_neg hm]
  exact Nat.log2_self_le hm

theorem lt_of_bitLength (m : Nat) : m < 2 ^ bitLength m := by
  rw [bitLength]
  split
  · omega
  · exact Nat.lt_log2_self

theorem bitLength_pos {m : Nat} (hm : m ≠ 0) : 0 < bitLength m := by
  rw [bitLength, if_neg hm]
  omega

theorem bitLength_eq {m n : Nat} (hlow : 2 ^ n ≤ m) (hhigh : m < 2 ^ (n + 1)) : bitLength m = n + 1 := by
  have hm : m ≠ 0 := by
    have := Nat.two_pow_pos n
    omega
  rw [bitLength, if_neg hm, (Nat.log2_eq_iff hm).mpr ⟨hlow, hhigh⟩]

theorem bitLength_le {m n : Nat} (h : m < 2 ^ n) : bitLength m ≤ n := by
  by_cases hm : m = 0
  · simp [bitLength, hm]
  · have hlow := le_of_bitLength hm
    have hpos := bitLength_pos hm
    have := (Nat.pow_lt_pow_iff_right (by decide : 1 < 2)).mp (Nat.lt_of_le_of_lt hlow h)
    omega

theorem bitLength_mul_two_pow {m : Nat} (hm : m ≠ 0) (k : Nat) :
    bitLength (m * 2 ^ k) = bitLength m + k := by
  have hpos := bitLength_pos hm
  have hlow := le_of_bitLength hm
  have hhigh := lt_of_bitLength m
  have hle : 2 ^ (bitLength m + k - 1) ≤ m * 2 ^ k := by
    rw [show bitLength m + k - 1 = bitLength m - 1 + k by omega, Nat.pow_add]
    exact Nat.mul_le_mul_right _ hlow
  have hlt : m * 2 ^ k < 2 ^ (bitLength m + k - 1 + 1) := by
    rw [show bitLength m + k - 1 + 1 = bitLength m + k by omega, Nat.pow_add]
    exact Nat.mul_lt_mul_of_pos_right hhigh (Nat.two_pow_pos k)
  rw [bitLength_eq hle hlt]
  omega

theorem reduce_odd_mul {m : Nat} (hodd : m % 2 = 1) :
    ∀ (k fuel : Nat) (q : Int), k ≤ fuel → reduce fuel (m * 2 ^ k) q = (m, q + k) := by
  intro k
  induction k with
  | zero =>
    intro fuel q _
    cases fuel with
    | zero => simp [reduce]
    | succ fuel => simp [reduce, hodd]
  | succ k ih =>
    intro fuel q hfuel
    obtain ⟨fuel, rfl⟩ : ∃ f, fuel = f + 1 := ⟨fuel - 1, by omega⟩
    have heven : m * 2 ^ (k + 1) = 2 * (m * 2 ^ k) := by ring
    have hpos : 0 < m * 2 ^ k := Nat.mul_pos (by omega) (Nat.two_pow_pos k)
    rw [reduce, heven, if_neg (by simp; omega), Nat.mul_div_cancel_left _ (by decide),
      ih fuel (q + 1) (by omega)]
    push_cast
    rw [Int.add_assoc, Int.add_comm 1]

theorem exists_odd_mul {m : Nat} (hm : m ≠ 0) : ∃ k n, n % 2 = 1 ∧ m = n * 2 ^ k := by
  obtain ⟨k, n, hodd, rfl⟩ := Nat.exists_eq_two_pow_mul_odd hm
  exact ⟨k, n, Nat.odd_iff.mp hodd, Nat.mul_comm _ _⟩

theorem reduce_bitLength {m : Nat} (hodd : m % 2 = 1) (k : Nat) (q : Int) :
    reduce (bitLength (m * 2 ^ k)) (m * 2 ^ k) q = (m, q + k) := by
  apply reduce_odd_mul hodd
  rw [bitLength_mul_two_pow (by omega)]
  omega

/-- What a width has for an odd number. -/
theorem bits?_odd_mul (w : FloatWidth) {m : Nat} (hodd : m % 2 = 1) (k : Nat) (q : Int) :
    w.bits? (m * 2 ^ k) q = w.bits? m (q + k) := by
  have hself := reduce_bitLength hodd 0 (q + k)
  simp only [Nat.pow_zero, Nat.mul_one, Int.add_zero, Nat.cast_zero] at hself
  simp only [bits?, reduce_bitLength hodd k q, hself]

theorem bits?_zero (w : FloatWidth) (q : Int) : w.bits? 0 q = some 0 := by
  simp [bits?, bitLength, reduce]

/-- The bits of an odd number need not be reduced. -/
theorem bits?_odd (w : FloatWidth) {m : Nat} (hodd : m % 2 = 1) (q : Int) :
    w.bits? m q =
      if w.precision < bitLength m || q < w.low || w.high < q + bitLength m - 1 then none
      else if q + bitLength m - 1 < 1 - w.high then some (m * 2 ^ (q - w.low).toNat)
      else some ((q + bitLength m - 1 + w.high).toNat * 2 ^ (w.precision - 1) +
        (m * 2 ^ (w.precision - bitLength m) - 2 ^ (w.precision - 1))) := by
  have hself := reduce_bitLength hodd 0 q
  simp only [Nat.pow_zero, Nat.mul_one, Int.add_zero, Nat.cast_zero] at hself
  have hm : m ≠ 0 := by omega
  simp only [bits?, hself, hm, if_false]

variable {w : FloatWidth}

theorem Standard.exponents_eq (h : w.Standard) : (w.exponents : Int) = 2 * w.high + 2 := by
  have := h.high_pos
  rw [exponents]
  omega

theorem Standard.two_pow_precision (h : w.Standard) :
    2 ^ w.precision = 2 * 2 ^ (w.precision - 1) := by
  rw [← Nat.pow_succ']
  congr 1
  have := h.precision_pos
  omega

theorem exponent_of_parts {e f : Nat} (he : e < w.exponents)
    (hf : f < 2 ^ (w.precision - 1)) : w.exponent (e * 2 ^ (w.precision - 1) + f) = e := by
  rw [exponent, Nat.add_comm, Nat.add_mul_div_right _ _ (Nat.two_pow_pos _), Nat.div_eq_of_lt hf,
    Nat.zero_add, Nat.mod_eq_of_lt he]

theorem magnitude_of_parts {e f : Nat} (he : e < w.exponents)
    (hf : f < 2 ^ (w.precision - 1)) :
    w.magnitude (e * 2 ^ (w.precision - 1) + f) =
      if e = 0 then (f, w.low) else (2 ^ (w.precision - 1) + f, (e : Int) - 1 + w.low) := by
  have hmod : (e * 2 ^ (w.precision - 1) + f) % 2 ^ (w.precision - 1) = f := by
    rw [Nat.add_comm, Nat.add_mul_mod_self_right, Nat.mod_eq_of_lt hf]
  simp only [magnitude, exponent_of_parts he hf, hmod]

/-- The bits of an odd number stand for it, and are those of something finite. -/
theorem magnitude_odd (hw : w.Standard) {m : Nat} {q : Int} {b : Nat} (hodd : m % 2 = 1)
    (h : w.bits? m q = some b) :
    (∃ j : Nat, w.magnitude b = (m * 2 ^ j, q - j)) ∧
      b < (w.exponents - 1) * 2 ^ (w.precision - 1) := by
  have hm : m ≠ 0 := by omega
  have hlow := hw.low_eq
  have hexp := hw.exponents_eq
  have hhigh := hw.high_pos
  have hpos := bitLength_pos hm
  rw [bits?_odd w hodd] at h
  split at h
  · cases h
  rename_i hroom
  simp only [Bool.or_eq_true, decide_eq_true_eq, not_or, Nat.not_lt, Int.not_lt] at hroom
  obtain ⟨⟨hprecision, hq⟩, htop⟩ := hroom
  split at h
  · rename_i hsub
    cases h
    have hb : m * 2 ^ (q - w.low).toNat < 2 ^ (w.precision - 1) := by
      have hlt := lt_of_bitLength (m * 2 ^ (q - w.low).toNat)
      rw [bitLength_mul_two_pow hm] at hlt
      exact Nat.lt_of_lt_of_le hlt (Nat.pow_le_pow_right (by decide) (by omega))
    have hmag := magnitude_of_parts (show 0 < w.exponents by omega) hb
    rw [Nat.zero_mul, Nat.zero_add, if_pos rfl] at hmag
    refine ⟨⟨(q - w.low).toNat, by rw [hmag]; congr 1; omega⟩, Nat.lt_of_lt_of_le hb ?_⟩
    exact Nat.le_mul_of_pos_left _ (by omega)
  · rename_i hnormal
    cases h
    have hshift : bitLength m + (w.precision - bitLength m) = w.precision := by omega
    have hlength : bitLength (m * 2 ^ (w.precision - bitLength m)) = w.precision := by
      rw [bitLength_mul_two_pow hm, hshift]
    have hle : 2 ^ (w.precision - 1) ≤ m * 2 ^ (w.precision - bitLength m) := by
      have := le_of_bitLength (Nat.mul_ne_zero hm (Nat.two_pow_pos (w.precision - bitLength m)).ne')
      rwa [hlength] at this
    have hlt : m * 2 ^ (w.precision - bitLength m) < 2 * 2 ^ (w.precision - 1) := by
      have := lt_of_bitLength (m * 2 ^ (w.precision - bitLength m))
      rwa [hlength, hw.two_pow_precision] at this
    have he : (q + bitLength m - 1 + w.high).toNat < w.exponents - 1 := by omega
    constructor
    · refine ⟨w.precision - bitLength m, ?_⟩
      rw [magnitude_of_parts (by omega) (by omega), if_neg (by omega)]
      congr 1
      · omega
      · omega
    · calc
        _ < (q + bitLength m - 1 + w.high).toNat * 2 ^ (w.precision - 1) + 2 ^ (w.precision - 1) := by omega
        _ = ((q + bitLength m - 1 + w.high).toNat + 1) * 2 ^ (w.precision - 1) := by ring
        _ ≤ (w.exponents - 1) * 2 ^ (w.precision - 1) := Nat.mul_le_mul_right _ he

theorem bits?_lt (hw : w.Standard) {m : Nat} {q : Int} {b : Nat} (h : w.bits? m q = some b) :
    b < (w.exponents - 1) * 2 ^ (w.precision - 1) := by
  by_cases hm : m = 0
  · subst hm
    rw [bits?_zero] at h
    cases h
    have := hw.exponents_eq
    have := hw.high_pos
    exact Nat.mul_pos (by omega) (Nat.two_pow_pos _)
  · obtain ⟨k, n, hodd, rfl⟩ := exists_odd_mul hm
    rw [bits?_odd_mul w hodd] at h
    exact (magnitude_odd hw hodd h).2

/-- What one width has written, every width takes for the number that it was made from. -/
theorem magnitude_of_bits? (hw : w.Standard) {m : Nat} {q : Int} {b : Nat} (h : w.bits? m q = some b)
    (v : FloatWidth) : v.bits? (w.magnitude b).1 (w.magnitude b).2 = v.bits? m q := by
  by_cases hm : m = 0
  · subst hm
    rw [bits?_zero] at h
    cases h
    have hzero : (w.magnitude 0).1 = 0 := by simp [magnitude, exponent]
    rw [hzero, bits?_zero, bits?_zero]
  · obtain ⟨k, n, hodd, rfl⟩ := exists_odd_mul hm
    rw [bits?_odd_mul w hodd] at h
    obtain ⟨⟨j, hj⟩, -⟩ := magnitude_odd hw hodd h
    rw [hj, bits?_odd_mul v hodd, bits?_odd_mul v hodd]
    congr 1
    omega

theorem bits?_magnitude (hw : w.Standard) {e f : Nat} (he : e + 1 < w.exponents)
    (hf : f < 2 ^ (w.precision - 1)) :
    w.bits? (w.magnitude (e * 2 ^ (w.precision - 1) + f)).1
        (w.magnitude (e * 2 ^ (w.precision - 1) + f)).2 =
      some (e * 2 ^ (w.precision - 1) + f) := by
  have hlow := hw.low_eq
  have hexp := hw.exponents_eq
  have hprecision := hw.precision_pos
  rw [magnitude_of_parts (by omega) hf]
  by_cases hzero : e = 0
  · subst hzero
    rw [if_pos rfl, Nat.zero_mul, Nat.zero_add]
    by_cases hf0 : f = 0
    · rw [hf0, bits?_zero]
    · obtain ⟨k, n, hodd, rfl⟩ := exists_odd_mul hf0
      have hlength := bitLength_le hf
      rw [bitLength_mul_two_pow (by omega)] at hlength
      rw [bits?_odd_mul w hodd, bits?_odd w hodd, if_neg (by simp; omega), if_pos (by omega)]
      congr 3
      omega
  · rw [if_neg hzero]
    have hlength : bitLength (2 ^ (w.precision - 1) + f) = w.precision := by
      rw [bitLength_eq (n := w.precision - 1) (by omega) (by rw [Nat.pow_succ]; omega)]
      omega
    have hm : 2 ^ (w.precision - 1) + f ≠ 0 := by
      have := Nat.two_pow_pos (w.precision - 1)
      omega
    obtain ⟨k, n, hodd, hn⟩ := exists_odd_mul hm
    simp only
    rw [hn] at hlength ⊢
    rw [bitLength_mul_two_pow (by omega)] at hlength
    rw [bits?_odd_mul w hodd, bits?_odd w hodd, if_neg (by simp; omega), if_neg (by omega),
      show w.precision - bitLength n = k by omega, ← hn]
    congr 2
    · congr 1
      omega
    · omega

end FloatWidth

/-! ## Numbers -/

theorem bits?_parts {x : Float} {negative : Bool} {m : Nat} {q : Int}
    (h : Decimal.parts x = .finite negative m q) :
    ∃ b, FloatWidth.double.bits? m q = some b ∧
      x.toBits.toNat = b + if negative then 2 ^ 63 else 0 := by
  have hlt := x.toBits.toNat_lt
  have hexp : FloatWidth.double.exponents = 2048 := by decide
  have hf : x.toBits.toNat % 2 ^ 52 < 2 ^ (FloatWidth.double.precision - 1) :=
    Nat.mod_lt _ (Nat.two_pow_pos _)
  unfold Decimal.parts Decimal.Parts.ofBits at h
  simp only at h
  split at h
  · split at h <;> cases h
  · rename_i hfinite
    have hbits := FloatWidth.bits?_magnitude FloatWidth.standard_double
      (show x.toBits.toNat / 2 ^ 52 % 2048 + 1 < FloatWidth.double.exponents by omega) hf
    rw [FloatWidth.magnitude_of_parts (by omega) hf] at hbits
    have hplaces : 2 ^ (FloatWidth.double.precision - 1) = 2 ^ 52 := rfl
    refine ⟨x.toBits.toNat / 2 ^ 52 % 2048 * 2 ^ 52 + x.toBits.toNat % 2 ^ 52, ?_, ?_⟩
    · split at h
      · rename_i hzero
        cases h
        rw [if_pos hzero, hplaces] at hbits
        exact hbits
      · rename_i hzero
        cases h
        rw [if_neg hzero, hplaces] at hbits
        rw [← hbits]
        congr 1
        simp only [FloatWidth.double]
        omega
    · have hsign : negative = decide (x.toBits.toNat / 2 ^ 63 % 2 = 1) := by
        split at h <;> cases h <;> rfl
      rw [hsign]
      split <;> simp_all <;> omega

namespace FloatWidth

variable {w : FloatWidth}

/-- A sign leaves the other bits as they are. -/
theorem mod_add_sign (w : FloatWidth) (b s : Nat) :
    (b + w.exponents * 2 ^ (w.precision - 1) * s) % 2 ^ (w.precision - 1) =
      b % 2 ^ (w.precision - 1) := by
  rw [show w.exponents * 2 ^ (w.precision - 1) * s = 2 ^ (w.precision - 1) * (w.exponents * s) by ring,
    Nat.add_mul_mod_self_left]

theorem div_add_sign (w : FloatWidth) (b s : Nat) :
    (b + w.exponents * 2 ^ (w.precision - 1) * s) / 2 ^ (w.precision - 1) =
      b / 2 ^ (w.precision - 1) + w.exponents * s := by
  rw [show w.exponents * 2 ^ (w.precision - 1) * s = 2 ^ (w.precision - 1) * (w.exponents * s) by ring,
    Nat.add_mul_div_left _ _ (Nat.two_pow_pos _)]

theorem exponent_add_sign (w : FloatWidth) (b s : Nat) :
    w.exponent (b + w.exponents * 2 ^ (w.precision - 1) * s) = w.exponent b := by
  rw [exponent, div_add_sign, Nat.add_mul_mod_self_left, exponent]

theorem magnitude_add_sign (w : FloatWidth) (b s : Nat) :
    w.magnitude (b + w.exponents * 2 ^ (w.precision - 1) * s) = w.magnitude b := by
  simp only [magnitude, exponent_add_sign, mod_add_sign]

theorem isNegative_add_sign {b : Nat} (h : b < w.exponents * 2 ^ (w.precision - 1)) (negative : Bool) :
    w.isNegative (b + w.exponents * 2 ^ (w.precision - 1) * negative.toNat) = negative := by
  have hdiv : b / 2 ^ (w.precision - 1) < w.exponents :=
    (Nat.div_lt_iff_lt_mul (Nat.two_pow_pos _)).mpr h
  rw [isNegative, div_add_sign, Nat.add_mul_div_left _ _ (Nat.zero_lt_of_lt hdiv),
    Nat.div_eq_of_lt hdiv]
  cases negative <;> rfl

/-- The bits of a number in a width are read as that number. -/
theorem ofBits_bits? (hw : w.Standard) {x : Float} {negative : Bool} {m : Nat} {q : Int} {b : Nat}
    (hx : Decimal.parts x = .finite negative m q) (hb : w.bits? m q = some b) :
    w.ofBits (b + w.exponents * 2 ^ (w.precision - 1) * negative.toNat) = x := by
  have hlt := bits?_lt hw hb
  obtain ⟨c, hc, hbits⟩ := bits?_parts hx
  have hfinite : w.exponent b + 1 ≠ w.exponents := by
    have hdiv : b / 2 ^ (w.precision - 1) < w.exponents - 1 :=
      (Nat.div_lt_iff_lt_mul (Nat.two_pow_pos _)).mpr hlt
    rw [exponent, Nat.mod_eq_of_lt (Nat.lt_of_lt_of_le hdiv (Nat.sub_le _ _))]
    intro heq
    rw [← heq] at hdiv
    simp at hdiv
  have hroom : b < w.exponents * 2 ^ (w.precision - 1) :=
    Nat.lt_of_lt_of_le hlt (Nat.mul_le_mul_right _ (Nat.sub_le _ _))
  rw [ofBits, exponent_add_sign, if_neg hfinite, magnitude_add_sign, isNegative_add_sign hroom]
  simp only [magnitude_of_bits? hw hb, hc, Option.getD_some]
  rw [← hbits, UInt64.ofNat_toNat, ofBits_toBits]

end FloatWidth

end Cbor
end TileMind
