import TileMind.Proofs.Cbor.Numbers
import TileMind.Value.Heap

/-!
# TileMind.Proofs.Decimal.Whole

Whole numbers below `2^53` are written as numbers exactly. Such a number has room for all its digits:
they are shifted up until they fill the mantissa, and nothing is rounded on the way.

* `toInt64_ofNat`: the whole part of the number is the one it was made from.
* `mul_ofNat`: a product that is small enough is exact.
* `toInt64_mul_ofNat`: the product of any number with a whole one, which is rounded.
* `Value.ofHandle_eq`: the value of a handle tells its number.
-/

namespace TileMind
namespace Decimal

open Float.Model Float.Model.UnpackedFloat

/-- A mantissa that is filled up. -/
def IsFull (m : Nat) : Prop := 2 ^ 52 ≤ m ∧ m < 2 ^ 53

/-- A number with its digits shifted up. -/
def filledUp (n : Nat) : Nat := n * 2 ^ (52 - n.log2)

section

variable {m n : Nat} {e : Int}

theorem IsFull.pos (h : IsFull m) : 0 < m := Nat.lt_of_lt_of_le (by decide) h.1

theorem isFull_filledUp (hn : 0 < n) (hsmall : n < 2 ^ 53) : IsFull (filledUp n) := by
  have hlog : n.log2 < 53 := (Nat.log2_lt hn.ne').mpr hsmall
  have hlow := Nat.mul_le_mul_right (2 ^ (52 - n.log2)) (Nat.log2_self_le hn.ne')
  have hhigh := Nat.mul_lt_mul_of_pos_right (Nat.lt_log2_self (n := n))
    (k := 2 ^ (52 - n.log2)) (by positivity)
  rw [← Nat.pow_add, show n.log2 + (52 - n.log2) = 52 by omega] at hlow
  rw [← Nat.pow_add, show n.log2 + 1 + (52 - n.log2) = 53 by omega] at hhigh
  exact ⟨hlow, hhigh⟩

theorem IsFull.log2 (h : IsFull m) (k : Nat) : (m * 2 ^ k).log2 = 52 + k := by
  rw [Nat.log2_eq_iff (Nat.mul_ne_zero h.pos.ne' (by positivity)), Nat.pow_add,
    show 52 + k + 1 = 53 + k by omega, Nat.pow_add]
  exact ⟨Nat.mul_le_mul_right _ h.1, Nat.mul_lt_mul_of_pos_right h.2 (by positivity)⟩

/-! ## Rounding -/

/-- Only zeros are shifted out. -/
theorem shiftRight_exact (m k : Nat) :
    (⟨m * 2 ^ k, false, false⟩ : ExtendedMantissa) >>> k = ⟨m, false, false⟩ := by
  induction k generalizing m with
  | zero => simp [HShiftRight.hShiftRight, Nat.repeat]
  | succ k ih =>
    have hlast := ih (m * 2)
    rw [Nat.mul_assoc, Nat.mul_comm 2, ← Nat.pow_succ] at hlast
    change ((⟨m * 2 ^ (k + 1), false, false⟩ : ExtendedMantissa) >>> k).shiftRightOne = _
    rw [hlast]
    simp [ExtendedMantissa.shiftRightOne]

/-- A mantissa with `k` digits too many is shifted by these. -/
theorem shiftToTarget_of_log2 {k : Nat} (hlog : m.log2 = 52 + k) (he : -1074 ≤ e) :
    shiftToTargetExponent .binary64 m (e - k) .exact = ((⟨m, false, false⟩ : ExtendedMantissa) >>> k, e) := by
  have htarget : Format.binary64.targetExponent (totalExponent m (e - k)) = e := by
    rw [totalExponent, hlog, Format.targetExponent,
      show Format.binary64.mantissaBits = 53 from rfl,
      show Format.binary64.minExponent = -1074 from rfl]
    push_cast
    omega
  have hamount : (e - (e - (k : Int))).toNat = k := by omega
  simp only [shiftToTargetExponent, shiftToExponent, htarget, hamount,
    ExtendedMantissa.ofMantissaAndAccuracy]
  simp

theorem IsFull.shiftToTarget (h : IsFull m) (he : -1074 ≤ e) (k : Nat) :
    shiftToTargetExponent .binary64 (m * 2 ^ k) (e - k) .exact = (⟨m, false, false⟩, e) := by
  rw [shiftToTarget_of_log2 (h.log2 k) he, shiftRight_exact]

theorem IsFull.round (h : IsFull m) (he : -1074 ≤ e) (k : Nat) (s : Sign) :
    roundWithAccuracy .binary64 s (m * 2 ^ k) (e - k) .exact = .finite s m e h.pos := by
  have hagain := h.shiftToTarget he 0
  rw [Nat.pow_zero, Nat.mul_one, Int.natCast_zero, Int.sub_zero] at hagain
  have hrounded : (⟨m, false, false⟩ : ExtendedMantissa).roundedMantissa = m := rfl
  simp only [roundWithAccuracy, h.shiftToTarget he, hrounded, hagain]
  rw [dif_neg h.pos.ne']

/-! ## Bits -/

theorem toNat_packComponents (x : BitVec 11) (f : BitVec 52) :
    (packComponents .binary64 .positive x f).toNat = x.toNat * 2 ^ 52 + f.toNat := by
  change ((0#1 ++ x) ++ f).toNat = _
  rw [BitVec.toNat_append, ← Nat.shiftLeft_add_eq_or_of_lt f.isLt, Nat.shiftLeft_eq,
    BitVec.toNat_append]
  simp

theorem unpackSign_positive (x : BitVec 11) (f : BitVec 52) :
    unpackSign (packComponents .binary64 .positive x f) = 0#1 := by
  apply BitVec.eq_of_toNat_eq
  have hx := x.isLt
  have hf := f.isLt
  have hhigh : (x.toNat * 2 ^ 52 + f.toNat) / 2 ^ (52 + 11) = 0 := by omega
  simp only [unpackSign, BitVec.toNat_cast, BitVec.extractLsb_toNat, Nat.shiftRight_eq_div_pow]
  rw [toNat_packComponents, hhigh]
  rfl

/-- A number with a full mantissa is found again in its bits. -/
theorem IsFull.packed (h : IsFull m) (he : -1074 ≤ e) (he' : e ≤ 971) :
    ∃ (x : BitVec 11) (f : BitVec 52), (x.toNat : Int) = e + 1075 ∧ m = 2 ^ 52 + f.toNat ∧
      UnpackedFloat.pack .binary64 (.finite .positive m e h.pos) =
        packComponents .binary64 .positive x f ∧
      UnpackedFloat.unpack .binary64 (packComponents .binary64 .positive x f) =
        .finite .positive m e h.pos := by
  obtain ⟨hlow, hhigh⟩ := h
  let x := BitVec.ofNat 11 (e + 1075).toNat
  let f := BitVec.ofNat 52 (m - 2 ^ 52)
  have hx : (x.toNat : Int) = e + 1075 := by
    simp only [x, BitVec.toNat_ofNat]
    omega
  have hf : f.toNat = m - 2 ^ 52 := by
    simp only [f, BitVec.toNat_ofNat]
    omega
  have hvalue : (1#1 ++ f).toNat = m := by
    rw [BitVec.toNat_append, Nat.shiftLeft_eq, Nat.mul_comm, ← Nat.two_pow_add_eq_or_of_lt f.isLt, hf]
    have hone : (1#1).toNat = 1 := rfl
    omega
  have hfinite : x ≠ -1#11 := by
    intro hx'
    have hmax : x.toNat = 2047 := by rw [hx']; rfl
    omega
  have hnormal : x ≠ 0#11 := by
    intro hx'
    have hmin : x.toNat = 0 := by rw [hx']; rfl
    omega
  refine ⟨x, f, hx, by omega, ?_, ?_⟩
  · have hpack := Cbor.pack_normal .positive x f hfinite (by omega)
    simpa only [hvalue, show (x.toNat : Int) - 1075 = e by omega] using hpack
  · have hbias : (x.toNat : Int) - (Format.binary64.exponentBias +
        Format.binary64.mantissaBitsWithoutImplicit : Int) = e := by
      rw [show Format.binary64.exponentBias = 1023 from rfl,
        show Format.binary64.mantissaBitsWithoutImplicit = 52 from rfl]
      omega
    have hsign : Sign.ofBitVec 0#1 = .positive := rfl
    simp only [UnpackedFloat.unpack, unpackExponent_packComponents, unpackMantissa_packComponents,
      unpackSign_positive]
    rw [if_neg hfinite, if_neg hnormal]
    simp only [hsign, hvalue, hbias]

/-! ## Whole numbers -/

theorem unpacked_ofNat (hn : 0 < n) (hsmall : n < 2 ^ 53) :
    UnpackedFloat.ofNat .binary64 n =
      .finite .positive (filledUp n) ((n.log2 : Int) - 52) (isFull_filledUp hn hsmall).pos := by
  have hlog : n.log2 < 53 := (Nat.log2_lt hn.ne').mpr hsmall
  have hround := (isFull_filledUp hn hsmall).round (e := (n.log2 : Int) - 52) (by omega) 0 .positive
  have hcompare : compare (n : Int) 0 = .gt := by
    rw [Int.compare_eq_gt]
    omega
  have htarget : Format.binary64.targetExponent (totalExponent n 0) = (n.log2 : Int) - 52 := by
    rw [totalExponent, Format.targetExponent, show Format.binary64.mantissaBits = 53 from rfl,
      show Format.binary64.minExponent = -1074 from rfl]
    omega
  have hamount : (0 - ((n.log2 : Int) - 52)).toNat = 52 - n.log2 := by omega
  have hexp : (0 : Int) - ((52 - n.log2 : Nat) : Int) = (n.log2 : Int) - 52 := by omega
  simp only [UnpackedFloat.ofNat, UnpackedFloat.ofInt, UnpackedFloat.normalize, hcompare,
    UnpackedFloat.round, Int.toNat_natCast, htarget, decreaseExponent, hamount, hexp, Nat.shiftLeft_eq]
  simpa [filledUp] using hround

/-- A whole number is written as itself, times a power of ten that is one. -/
theorem toModel_ofNat (hn : 0 < n) (hsmall : n < 2 ^ 53) :
    (Float.ofNat n).toModel = Float.Model.pack
      (.finite .positive (filledUp n) ((n.log2 : Int) - 52) (isFull_filledUp hn hsmall).pos) := by
  have hlog : n.log2 < 53 := (Nat.log2_lt hn.ne').mpr hsmall
  have hfull := isFull_filledUp hn hsmall
  obtain ⟨x, f, -, -, hpack, hunpack⟩ :=
    hfull.packed (e := (n.log2 : Int) - 52) (by omega) (by omega)
  have hone : (Float.ofBits 4607182418800017408).toModel.unpack =
      .finite .positive (2 ^ 52) (-52) (by decide) := rfl
  have htimes : Float.ofNat n = n.toUInt64.toFloat * Float.ofBits 4607182418800017408 := by
    have hboth : n < 2 ^ 53 ∧ 0 ≤ 22 := ⟨hsmall, by decide⟩
    change Float.ofScientific n false 0 = _
    unfold Float.ofScientific
    rw [dif_pos hboth]
    rfl
  have hword : n.toUInt64.toNat = n := by
    rw [Nat.toUInt64_eq, UInt64.toNat_ofNat', Nat.mod_eq_of_lt (Nat.lt_trans hsmall (by decide))]
  have hback : (Float.Model.ofUInt64 n.toUInt64).unpack =
      .finite .positive (filledUp n) ((n.log2 : Int) - 52) hfull.pos := by
    unfold Float.Model.ofUInt64 UnpackedFloat.ofUInt64 Float.Model.unpack Float.Model.pack
    rw [hword, unpacked_ofNat hn hsmall]
    dsimp only
    rw [hpack, hunpack]
  have hsame : UnpackedFloat.mul .binary64 (.finite .positive (filledUp n) ((n.log2 : Int) - 52) hfull.pos)
      (.finite .positive (2 ^ 52) (-52) (by decide)) =
      .finite .positive (filledUp n) ((n.log2 : Int) - 52) hfull.pos := by
    simp only [UnpackedFloat.mul]
    exact hfull.round (by omega) 52 .positive
  rw [htimes]
  change Float.Model.mul (Float.Model.ofUInt64 n.toUInt64)
    (Float.ofBits 4607182418800017408).toModel = _
  unfold Float.Model.mul
  rw [hback, hone, hsame]

/-- A number with a full mantissa has the parts that it was packed from. -/
theorem IsFull.parts (h : IsFull m) (he : -1074 ≤ e) (he' : e ≤ 971) {x : Float}
    (hx : x.toModel = Float.Model.pack (.finite .positive m e h.pos)) : parts x = .finite false m e := by
  obtain ⟨b, f, hb, hf, hpack, -⟩ := h.packed he he'
  have hbits : x.toBits.toNat = b.toNat * 2 ^ 52 + f.toNat := by
    change x.toModel.toBits.toBitVec.toNat = _
    rw [hx]
    change (UnpackedFloat.pack .binary64 _).toNat = _
    rw [hpack, toNat_packComponents]
  have hblt := b.isLt
  have hflt := f.isLt
  have hexponent : (b.toNat * 2 ^ 52 + f.toNat) / 2 ^ 52 % 2048 = b.toNat := by omega
  have hrest : (b.toNat * 2 ^ 52 + f.toNat) % 2 ^ 52 = f.toNat := by omega
  have hsign : (b.toNat * 2 ^ 52 + f.toNat) / 2 ^ 63 % 2 = 0 := by omega
  rw [Decimal.parts, hbits, Parts.ofBits]
  simp only [hexponent, hrest, hsign]
  rw [if_neg (by omega), if_neg (by omega), ← hf]
  simp only [Parts.finite.injEq]
  exact ⟨rfl, trivial, by omega⟩

theorem parts_ofNat (hn : 0 < n) (hsmall : n < 2 ^ 53) :
    parts (Float.ofNat n) = .finite false (filledUp n) ((n.log2 : Int) - 52) := by
  have hlog : n.log2 < 53 := (Nat.log2_lt hn.ne').mpr hsmall
  exact (isFull_filledUp hn hsmall).parts (by omega) (by omega) (toModel_ofNat hn hsmall)

theorem toInt64_of_parts {x : Float} (hx : parts x = .finite false m e)
    (hsmall : (fraction m e).1 / (fraction m e).2 < 2 ^ 63) :
    toInt64 x = ((fraction m e).1 / (fraction m e).2 : Nat) := by
  rw [toInt64, hx]
  dsimp only
  generalize (fraction m e).1 / (fraction m e).2 = whole at hsmall ⊢
  simp only [Bool.false_eq_true, if_false, Bool.and_eq_true, decide_eq_true_eq, ite_eq_left_iff]
  omega

theorem fraction_div (m d a : Nat) :
    (fraction m ((d : Int) - a)).1 / (fraction m ((d : Int) - a)).2 = m * 2 ^ d / 2 ^ a := by
  unfold fraction
  split
  · obtain ⟨c, rfl⟩ : ∃ c, d = c + a := ⟨d - a, by omega⟩
    rw [show (((c + a : Nat) : Int) - a).toNat = c by omega, Nat.div_one, Nat.pow_add, ← Nat.mul_assoc,
      Nat.mul_div_cancel _ (by positivity)]
  · obtain ⟨c, rfl⟩ : ∃ c, a = c + d := ⟨a - d, by omega⟩
    rw [show (-((d : Int) - (c + d : Nat))).toNat = c by omega, Nat.pow_add,
      Nat.mul_div_mul_right _ _ (by positivity)]

/-- A whole number that is written as a number is read back. -/
theorem toInt64_ofNat (hsmall : n < 2 ^ 53) : toInt64 (Float.ofNat n) = n := by
  rcases Nat.eq_zero_or_pos n with rfl | hn
  · decide +kernel
  have hlog : n.log2 < 53 := (Nat.log2_lt hn.ne').mpr hsmall
  have hexponent : (n.log2 : Int) - 52 = ((0 : Nat) : Int) - (52 - n.log2 : Nat) := by omega
  have hparts := parts_ofNat hn hsmall
  have hwhole := fraction_div (filledUp n) 0 (52 - n.log2)
  rw [pow_zero, Nat.mul_one, filledUp, Nat.mul_div_cancel _ (by positivity), ← filledUp, ← hexponent] at hwhole
  rw [toInt64_of_parts hparts (by omega), hwhole]

/-! ## Products -/

theorem IsFull.unpack (h : IsFull m) (he : -1074 ≤ e) (he' : e ≤ 971) {x : Float}
    (hx : x.toModel = Float.Model.pack (.finite .positive m e h.pos)) :
    x.toModel.unpack = .finite .positive m e h.pos := by
  obtain ⟨b, f, -, -, hpack, hunpack⟩ := h.packed he he'
  rw [hx]
  change UnpackedFloat.unpack .binary64 (UnpackedFloat.pack .binary64 _) = _
  rw [hpack, hunpack]

theorem unpack_ofNat (hn : 0 < n) (hsmall : n < 2 ^ 53) :
    (Float.ofNat n).toModel.unpack =
      .finite .positive (filledUp n) ((n.log2 : Int) - 52) (isFull_filledUp hn hsmall).pos := by
  have hlog : n.log2 < 53 := (Nat.log2_lt hn.ne').mpr hsmall
  exact (isFull_filledUp hn hsmall).unpack (by omega) (by omega) (toModel_ofNat hn hsmall)

/-- A product of whole numbers is exact. -/
theorem mul_ofNat (hm : 0 < m) (hn : 0 < n) (hsmall : m * n < 2 ^ 53) :
    Float.ofNat m * Float.ofNat n = Float.ofNat (m * n) := by
  have hpos : 0 < m * n := Nat.mul_pos hm hn
  have hm' : m < 2 ^ 53 := (Nat.le_mul_of_pos_right m hn).trans_lt hsmall
  have hn' : n < 2 ^ 53 := (Nat.le_mul_of_pos_left n hm).trans_lt hsmall
  have hlogm : m.log2 < 53 := (Nat.log2_lt hm.ne').mpr hm'
  have hlogn : n.log2 < 53 := (Nat.log2_lt hn.ne').mpr hn'
  have hlog : (m * n).log2 < 53 := (Nat.log2_lt hpos.ne').mpr hsmall
  have hle : m.log2 + n.log2 ≤ (m * n).log2 := by
    rw [Nat.le_log2 hpos.ne', Nat.pow_add]
    exact Nat.mul_le_mul (Nat.log2_self_le hm.ne') (Nat.log2_self_le hn.ne')
  obtain ⟨k, hk⟩ : ∃ k, 52 + (m * n).log2 = m.log2 + n.log2 + k :=
    ⟨52 + (m * n).log2 - (m.log2 + n.log2), by omega⟩
  have hdigits : filledUp m * filledUp n = filledUp (m * n) * 2 ^ k := by
    rw [filledUp, filledUp, filledUp, Nat.mul_mul_mul_comm, Nat.mul_assoc (m * n), ← Nat.pow_add,
      ← Nat.pow_add]
    congr 2
    omega
  have hexponent : ((m.log2 : Int) - 52) + ((n.log2 : Int) - 52) = ((m * n).log2 : Int) - 52 - k := by
    omega
  have hround := (isFull_filledUp hpos hsmall).round (e := ((m * n).log2 : Int) - 52) (by omega) k
    .positive
  have hmodel : (Float.ofNat m * Float.ofNat n).toModel = (Float.ofNat (m * n)).toModel := by
    change Float.Model.mul (Float.ofNat m).toModel (Float.ofNat n).toModel = _
    unfold Float.Model.mul
    rw [unpack_ofNat hm hm', unpack_ofNat hn hn', toModel_ofNat hpos hsmall]
    simp only [UnpackedFloat.mul, hdigits, hexponent]
    exact congrArg Float.Model.pack hround
  exact congrArg Float.ofModel hmodel

theorem not_neg_of_unpack {x : Float} {h : 0 < m} (hx : x.toModel.unpack = .finite .positive m e h) :
    ¬ x < 0.0 := by
  have hzero : (0.0 : Float).toModel.unpack = .zero .positive := rfl
  intro hneg
  have hneg : Float.lt x 0.0 = true := hneg
  have hneg : Float.Model.lt x.toModel (0.0 : Float).toModel = true := by
    rw [Float.lt, decide_eq_true_eq] at hneg
    exact hneg
  rw [Float.Model.lt, hx, hzero] at hneg
  cases hneg

theorem not_neg_ofNat (hsmall : n < 2 ^ 53) : ¬ Float.ofNat n < 0.0 := by
  rcases Nat.eq_zero_or_pos n with rfl | hn
  · decide +kernel
  · exact not_neg_of_unpack (unpack_ofNat hn hsmall)

/-! ## Products that are rounded -/

/-- Digits that are shifted out are remembered as far as there was anything but zeros among them. -/
theorem shiftRight_eq (m k : Nat) :
    ((⟨m, false, false⟩ : ExtendedMantissa) >>> k).mantissa = m / 2 ^ k ∧
    (((⟨m, false, false⟩ : ExtendedMantissa) >>> k).roundBit ||
      ((⟨m, false, false⟩ : ExtendedMantissa) >>> k).stickyBit) = decide (m % 2 ^ k ≠ 0) := by
  induction k with
  | zero => simp [HShiftRight.hShiftRight, Nat.repeat, Nat.mod_one]
  | succ k ih =>
    obtain ⟨hmantissa, hbits⟩ := ih
    have hnext : (⟨m, false, false⟩ : ExtendedMantissa) >>> (k + 1) =
        ((⟨m, false, false⟩ : ExtendedMantissa) >>> k).shiftRightOne := rfl
    rw [hnext]
    simp only [ExtendedMantissa.shiftRightOne, hmantissa, hbits]
    refine ⟨by rw [Nat.div_div_eq_div_mul, Nat.pow_succ], ?_⟩
    rw [Nat.mod_pow_succ, Bool.eq_iff_iff]
    have hpos : 0 < 2 ^ k := by positivity
    simp
    omega

/-- Rounding leaves the digits that are kept as they are, or adds one to them if others were dropped. -/
theorem rounded_cases (m k : Nat) :
    ((⟨m, false, false⟩ : ExtendedMantissa) >>> k).roundedMantissa = m / 2 ^ k ∨
    ((⟨m, false, false⟩ : ExtendedMantissa) >>> k).roundedMantissa = m / 2 ^ k + 1 ∧ m % 2 ^ k ≠ 0 := by
  obtain ⟨hmantissa, hbits⟩ := shiftRight_eq m k
  generalize (⟨m, false, false⟩ : ExtendedMantissa) >>> k = shifted at hmantissa hbits ⊢
  obtain ⟨top, half, rest⟩ := shifted
  dsimp only at hmantissa hbits
  subst hmantissa
  cases half with
  | false => cases rest <;> exact .inl rfl
  | true =>
    have hdropped : m % 2 ^ k ≠ 0 := by simpa using hbits
    cases rest with
    | true => exact .inr ⟨rfl, hdropped⟩
    | false =>
      have hhalf : (⟨m / 2 ^ k, true, false⟩ : ExtendedMantissa).roundedMantissa = m / 2 ^ k + m / 2 ^ k % 2 := rfl
      rcases Nat.mod_two_eq_zero_or_one (m / 2 ^ k) with heven | hodd
      · exact .inl (by rw [hhalf, heven, Nat.add_zero])
      · exact .inr ⟨by rw [hhalf, hodd], hdropped⟩

theorem rounded_bounds (m k : Nat) :
    m < (((⟨m, false, false⟩ : ExtendedMantissa) >>> k).roundedMantissa + 1) * 2 ^ k ∧
    ((⟨m, false, false⟩ : ExtendedMantissa) >>> k).roundedMantissa * 2 ^ k < m + 2 ^ k := by
  have hdiv := Nat.div_add_mod' m (2 ^ k)
  have hmod : m % 2 ^ k < 2 ^ k := Nat.mod_lt _ (by positivity)
  rcases rounded_cases m k with hkept | ⟨hnext, hdropped⟩
  · rw [hkept, Nat.add_one_mul]
    omega
  · rw [hnext, Nat.add_one_mul, Nat.add_one_mul]
    omega

/-- A mantissa with `k` digits too many is rounded to one that is full, where the last of its digits that is kept
may come to be a zero in front of the next place. -/
theorem exists_round {k : Nat} (hlog : m.log2 = 52 + k) (he : -1074 ≤ e) :
    ∃ (m' d : Nat) (h : IsFull m'), d ≤ 1 ∧
      m' * 2 ^ d = ((⟨m, false, false⟩ : ExtendedMantissa) >>> k).roundedMantissa ∧
      roundWithAccuracy .binary64 .positive m (e - k) .exact = .finite .positive m' (e + d) h.pos := by
  have hm : m ≠ 0 := by
    rintro rfl
    simp at hlog
    omega
  obtain ⟨hlow, hhigh⟩ := (Nat.log2_eq_iff hm).mp hlog
  obtain ⟨hbelow, habove⟩ := rounded_bounds m k
  have hshift := shiftToTarget_of_log2 hlog he
  generalize hr : ((⟨m, false, false⟩ : ExtendedMantissa) >>> k).roundedMantissa = r at hbelow habove ⊢
  have hleast : 2 ^ 52 ≤ r := by
    rw [Nat.pow_add] at hlow
    exact Nat.lt_succ_iff.mp (Nat.lt_of_mul_lt_mul_right (hlow.trans_lt hbelow))
  have hmost : r ≤ 2 ^ 53 := by
    rw [show 52 + k + 1 = 53 + k by omega, Nat.pow_add] at hhigh
    have : r * 2 ^ k < (2 ^ 53 + 1) * 2 ^ k := by
      rw [Nat.add_one_mul]
      omega
    exact Nat.lt_succ_iff.mp (Nat.lt_of_mul_lt_mul_right this)
  have hround : ∀ {m' d : Nat} (h : IsFull m'), m' * 2 ^ d = r →
      roundWithAccuracy .binary64 .positive m (e - k) .exact = .finite .positive m' (e + d) h.pos := by
    intro m' d h hdigits
    have hagain := h.shiftToTarget (e := e + d) (by omega) d
    rw [hdigits, Int.add_sub_cancel] at hagain
    simp only [roundWithAccuracy, hshift, hr, hagain]
    rw [dif_neg h.pos.ne']
  rcases hmost.lt_or_eq with hlt | rfl
  · exact ⟨r, 0, ⟨hleast, hlt⟩, by omega, by simp, hround ⟨hleast, hlt⟩ (by simp)⟩
  · exact ⟨2 ^ 52, 1, ⟨le_rfl, by decide⟩, le_rfl, by decide, hround ⟨le_rfl, by decide⟩ (by decide)⟩

theorem exists_log2_mul (hm : IsFull m) (hn : IsFull n) : ∃ k, (m * n).log2 = 52 + k ∧ 52 ≤ k := by
  have hpos : m * n ≠ 0 := Nat.mul_ne_zero hm.pos.ne' hn.pos.ne'
  have hlow : 2 ^ 52 * 2 ^ 52 ≤ m * n := Nat.mul_le_mul hm.1 hn.1
  have hlog : 104 ≤ (m * n).log2 := (Nat.le_log2 hpos).mpr (by omega)
  exact ⟨(m * n).log2 - 52, by omega, by omega⟩

/-- The number with these parts is the one that is packed from them. -/
theorem IsFull.unpack_of_parts (h : IsFull m) {x : Float} (hx : Decimal.parts x = .finite false m e) :
    x.toModel.unpack = .finite .positive m e h.pos := by
  have he : -1074 ≤ e := (normal_of_parts hx h.pos.ne').least
  let y := Float.ofModel (Float.Model.pack (.finite .positive m e h.pos))
  have hy : Decimal.parts y = .finite false m e := h.parts he (exponent_le hx) rfl
  rw [parts_injective (hx.trans hy.symm)]
  exact h.unpack he (exponent_le hx) rfl

/-- Dropping a fraction of `a` digits after `k` digits were rounded: what is left is the whole part of the exact
number, or the next whole number. -/
theorem whole_of_rounded {p r k : Nat} (hbelow : p < (r + 1) * 2 ^ k) (habove : r * 2 ^ k < p + 2 ^ k) (a : Nat) :
    ⌊(p : ℚ) * 2 ^ (-(a : Int) - k)⌋ ≤ (r / 2 ^ a : Nat) ∧
    ((r / 2 ^ a : Nat) : Int) ≤ ⌈(p : ℚ) * 2 ^ (-(a : Int) - k)⌉ := by
  have hpow : (2 : ℚ) ^ (-(a : Int) - k) = ((2 ^ (a + k) : Nat) : ℚ)⁻¹ := by
    push_cast
    rw [← zpow_natCast, ← zpow_neg]
    congr 1
    push_cast
    ring
  have hleast : r / 2 ^ a * 2 ^ a ≤ r := Nat.div_mul_le_self r (2 ^ a)
  have hmost : r + 1 ≤ (r / 2 ^ a + 1) * 2 ^ a :=
    (Nat.div_lt_iff_lt_mul (by positivity)).mp (Nat.lt_succ_self (r / 2 ^ a))
  rw [hpow, ← div_eq_mul_inv]
  generalize r / 2 ^ a = whole at hleast hmost
  constructor
  · refine Int.lt_add_one_iff.mp (Int.floor_lt.mpr ((div_lt_iff₀ (by positivity)).mpr ?_))
    have hlt : p < (whole + 1) * 2 ^ (a + k) := by
      calc p < (r + 1) * 2 ^ k := hbelow
        _ ≤ (whole + 1) * 2 ^ a * 2 ^ k := Nat.mul_le_mul_right _ hmost
        _ = (whole + 1) * 2 ^ (a + k) := by rw [Nat.pow_add, Nat.mul_assoc]
    exact_mod_cast hlt
  · refine Int.sub_one_lt_iff.mp (Int.lt_ceil.mpr ((lt_div_iff₀ (by positivity)).mpr ?_))
    have hlt : whole * 2 ^ (a + k) < p + 2 ^ (a + k) := by
      calc whole * 2 ^ (a + k) = whole * 2 ^ a * 2 ^ k := by rw [Nat.pow_add, Nat.mul_assoc]
        _ ≤ r * 2 ^ k := Nat.mul_le_mul_right _ hleast
        _ < p + 2 ^ k := habove
        _ ≤ p + 2 ^ (a + k) := by gcongr <;> omega
    have hlt : (whole : ℚ) * (2 ^ (a + k) : Nat) < p + (2 ^ (a + k) : Nat) := by exact_mod_cast hlt
    push_cast at hlt ⊢
    linarith

/-- The product of a number with a whole one is rounded; without its fraction, it is the exact product without its
fraction or the next whole number. -/
theorem toInt64_mul_ofNat {x : Float} (hm : IsFull m) (hx : Decimal.parts x = .finite false m e) (hn : 0 < n)
    (hn' : n < 2 ^ 53) (hsmall : (m : ℚ) * 2 ^ e * n < 2 ^ 53) :
    ⌊(m : ℚ) * 2 ^ e * n⌋ ≤ toInt64 (x * Float.ofNat n) ∧
    toInt64 (x * Float.ofNat n) ≤ ⌈(m : ℚ) * 2 ^ e * n⌉ := by
  have hleast : -1074 ≤ e := (normal_of_parts hx hm.pos.ne').least
  have hfilled := isFull_filledUp hn hn'
  have hlogn : n.log2 < 53 := (Nat.log2_lt hn.ne').mpr hn'
  obtain ⟨k, hlog, hk⟩ := exists_log2_mul hm hfilled
  generalize hp : m * filledUp n = p at hlog
  obtain ⟨t, ht⟩ : ∃ t : Int, e + ((n.log2 : Int) - 52) = t - k := ⟨_, (Int.add_sub_cancel _ _).symm⟩
  have hexact : (m : ℚ) * 2 ^ e * n = p * 2 ^ (t - k) := by
    have hn52 : (2 : ℚ) ^ ((n.log2 : Int) - 52) = (2 ^ (52 - n.log2))⁻¹ := by
      rw [← zpow_natCast, ← zpow_neg]
      congr 1
      omega
    rw [← ht, ← hp, filledUp, zpow_add₀ two_ne_zero, hn52]
    push_cast
    field_simp
  rw [hexact] at hsmall ⊢
  -- the last digit that is kept stands for a fraction, or for one
  have hlow : 2 ^ (52 + k) ≤ p := (Nat.log2_eq_iff (by rintro rfl; simp at hlog; omega)).mp hlog |>.1
  have htop : t ≤ 0 := by
    have hbelow : (2 : ℚ) ^ (52 + t) < 2 ^ (53 : Int) := by
      calc (2 : ℚ) ^ (52 + t) = (2 ^ (52 + k) : Nat) * 2 ^ (t - k) := by
            push_cast
            rw [← zpow_natCast, ← zpow_add₀ two_ne_zero]
            congr 1
            push_cast
            ring
        _ ≤ p * 2 ^ (t - k) := by
            gcongr
        _ < 2 ^ (53 : Int) := by exact_mod_cast hsmall
    have := (zpow_lt_zpow_iff_right₀ one_lt_two).mp hbelow
    omega
  obtain ⟨a, rfl⟩ : ∃ a : Nat, t = -a := ⟨(-t).toNat, by omega⟩
  obtain ⟨m', d, hfull, hd, hr, hround⟩ := exists_round (e := -a) hlog (by omega)
  have hproduct : (x * Float.ofNat n).toModel = Float.Model.pack (.finite .positive m' (-a + d) hfull.pos) := by
    change Float.Model.mul x.toModel (Float.ofNat n).toModel = _
    unfold Float.Model.mul
    rw [hm.unpack_of_parts hx, unpack_ofNat hn hn']
    simp only [UnpackedFloat.mul, hp, ht]
    exact congrArg Float.Model.pack hround
  have hwhole : toInt64 (x * Float.ofNat n) = (m' * 2 ^ d / 2 ^ a : Nat) := by
    rw [neg_add_eq_sub] at hproduct
    have hsize : m' * 2 ^ d / 2 ^ a < 2 ^ 63 :=
      calc m' * 2 ^ d / 2 ^ a ≤ m' * 2 ^ d := Nat.div_le_self ..
        _ ≤ 2 ^ 53 * 2 ^ 1 := Nat.mul_le_mul hfull.2.le (Nat.pow_le_pow_right (by decide) hd)
        _ < 2 ^ 63 := by decide
    rw [← fraction_div m' d a] at hsize ⊢
    exact toInt64_of_parts (hfull.parts (by omega) (by omega) hproduct) hsize
  obtain ⟨hbelow, habove⟩ := rounded_bounds p k
  rw [← hr] at hbelow habove
  rw [hwhole]
  exact whole_of_rounded hbelow habove a

end

end Decimal

theorem Value.ofHandle_eq {n : Nat} (h : n < 2 ^ 53) : Value.ofHandle n = .handle n := by
  have hwhole := Decimal.toInt64_ofNat h
  rw [Value.ofHandle, Decimal.ofInt, if_neg (by omega), Int.toNat_natCast, hwhole]

-- The first number that is not written exactly.
example : Value.ofHandle (2 ^ 53 + 1) = .handle (2 ^ 53) := by decide +kernel

end TileMind
