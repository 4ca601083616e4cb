import Mathlib.Algebra.Order.Field.Power
import Mathlib.Tactic.Linarith
import Mathlib.Tactic.NormNum
import Mathlib.Tactic.Positivity
import Mathlib.Tactic.Ring
import TileMind.Decimal.Shortest

/-!
# TileMind.Proofs.Decimal.Shortest

What the shortest digits of a number stand for.

* `shortest_mem`: the digits found for `m · 2^q` lie in the interval of reals that read back as it.
  Seventeen places always suffice (`onGrid_isSome`), so the search never ends without a hit.
* `mem_unique`: two numbers whose intervals meet are the same.

Hence digits tell numbers apart: `eq_of_shortest_toRat_eq`.
-/

namespace TileMind
namespace Decimal

/-- The number that digits stand for. -/
def Digits.toRat (d : Digits) : ℚ := (d.value : ℚ) * (10 : ℚ) ^ d.exponent

/-- The parts `m` and `q` of a positive number: 53 bits, all of them used unless the exponent is the
least one. -/
structure Normal (m : Nat) (q : Int) : Prop where
  pos : 0 < m
  lt : m < 2 ^ 53
  least : -1074 ≤ q
  full : 2 ^ 52 ≤ m ∨ q = -1074

/-- `r` lies in the interval, whose ends are counted in units of `2^(q - 2)`. -/
def Interval.Mem (i : Interval) (q : Int) (r : ℚ) : Prop :=
  if i.closed then i.low * (2 : ℚ) ^ (q - 2) ≤ r ∧ r ≤ i.high * (2 : ℚ) ^ (q - 2)
  else i.low * (2 : ℚ) ^ (q - 2) < r ∧ r < i.high * (2 : ℚ) ^ (q - 2)

theorem zpow_mul_toNat_neg {b : ℚ} (hb : b ≠ 0) (k : Int) :
    b ^ k * b ^ (-k).toNat = b ^ k.toNat := by
  rw [← zpow_natCast, ← zpow_natCast, ← zpow_add₀ hb]
  congr 1
  omega

/-- A comparison with a point of the grid of `10^k`, cleared of denominators. -/
theorem scaled_cmp (a v : Nat) (u k : Int) :
    (a * (2 ^ u.toNat * 10 ^ (-k).toNat) ≤ v * (2 ^ (-u).toNat * 10 ^ k.toNat) ↔
      (a : ℚ) * (2 : ℚ) ^ u ≤ (v : ℚ) * (10 : ℚ) ^ k) ∧
    (v * (2 ^ (-u).toNat * 10 ^ k.toNat) ≤ a * (2 ^ u.toNat * 10 ^ (-k).toNat) ↔
      (v : ℚ) * (10 : ℚ) ^ k ≤ (a : ℚ) * (2 : ℚ) ^ u) := by
  have hD : (0 : ℚ) < (2 : ℚ) ^ (-u).toNat * (10 : ℚ) ^ (-k).toNat := by positivity
  have h2 : (a : ℚ) * (2 : ℚ) ^ u * ((2 : ℚ) ^ (-u).toNat * (10 : ℚ) ^ (-k).toNat) =
      ((a * (2 ^ u.toNat * 10 ^ (-k).toNat) : Nat) : ℚ) := by
    push_cast
    rw [← zpow_mul_toNat_neg (by norm_num : (2 : ℚ) ≠ 0) u]
    ring
  have h10 : (v : ℚ) * (10 : ℚ) ^ k * ((2 : ℚ) ^ (-u).toNat * (10 : ℚ) ^ (-k).toNat) =
      ((v * (2 ^ (-u).toNat * 10 ^ k.toNat) : Nat) : ℚ) := by
    push_cast
    rw [← zpow_mul_toNat_neg (by norm_num : (10 : ℚ) ≠ 0) k]
    ring
  constructor
  · rw [← mul_le_mul_iff_of_pos_right hD, h2, h10, Nat.cast_le]
  · rw [← mul_le_mul_iff_of_pos_right hD, h2, h10, Nat.cast_le]

theorem holds_iff_mem (i : Interval) (v : Nat) (q k : Int) :
    i.holds (2 ^ (q - 2).toNat * 10 ^ (-k).toNat) (v * (2 ^ (-(q - 2)).toNat * 10 ^ k.toNat)) = true ↔
      i.Mem q (v * (10 : ℚ) ^ k) := by
  obtain ⟨low, _⟩ := scaled_cmp i.low v (q - 2) k
  obtain ⟨_, high⟩ := scaled_cmp i.high v (q - 2) k
  obtain ⟨_, low'⟩ := scaled_cmp i.low v (q - 2) k
  obtain ⟨high', _⟩ := scaled_cmp i.high v (q - 2) k
  unfold Interval.holds Interval.Mem
  split
  · simp only [Bool.and_eq_true, decide_eq_true_eq]
    rw [low, high]
  · simp only [Bool.and_eq_true, decide_eq_true_eq]
    rw [← not_le, ← not_le, low', high', not_le, not_le]

/-- A point found on a grid reads back as the number. -/
theorem mem_of_onGrid {i : Interval} {q k : Int} {v : Nat} (h : onGrid i q k = some v) :
    i.Mem q (v * (10 : ℚ) ^ k) := by
  unfold onGrid at h
  simp only at h
  split at h
  · rename_i hits
    rw [Bool.and_eq_true] at hits
    cases h
    unfold nearer
    split
    · exact (holds_iff_mem i _ q k).mp hits.1
    · split
      · exact (holds_iff_mem i _ q k).mp hits.2
      · -- a tie goes to the even one of two points that both read back
        rcases Nat.mod_two_eq_zero_or_one
            (i.mid * (2 ^ (q - 2).toNat * 10 ^ (-k).toNat) / (2 ^ (-(q - 2)).toNat * 10 ^ k.toNat))
          with even | odd
        · rw [even]
          exact (holds_iff_mem i _ q k).mp hits.1
        · rw [odd]
          exact (holds_iff_mem i _ q k).mp hits.2
  · split at h
    · rename_i hit
      cases h
      exact (holds_iff_mem i _ q k).mp hit
    · split at h
      · rename_i hit
        cases h
        exact (holds_iff_mem i _ q k).mp hit
      · cases h

/-! ## Seventeen places suffice -/

theorem ten_pow_width_le {n : Nat} (hn : 0 < n) : 10 ^ (width n - 1) ≤ n := by
  by_contra h
  rw [not_le] at h
  rcases Nat.eq_zero_or_pos (width n - 1) with h0 | h0
  · rw [h0] at h
    omega
  · have := (Nat.length_toDigits_le_iff (by norm_num : 1 < 10) h0).mpr h
    unfold width at h0 this
    omega

theorem fraction_eq (m : Nat) (q : Int) :
    ((fraction m q).1 : ℚ) = m * (2 : ℚ) ^ q * (fraction m q).2 := by
  unfold fraction
  split
  · rename_i hq
    push_cast
    rw [← zpow_natCast, Int.toNat_of_nonneg hq, mul_one]
  · push_cast
    rw [mul_assoc, zpow_mul_toNat_neg (by norm_num : (2 : ℚ) ≠ 0), show q.toNat = 0 by omega]
    ring

theorem two_pow_le_ten_pow {k n : Nat} (h : k ≤ 3 * n) : 2 ^ k ≤ 10 ^ n := by
  have hk : 2 ^ k ≤ (2 ^ 3) ^ n := by
    rw [← pow_mul]
    exact Nat.pow_le_pow_right (by norm_num) h
  exact hk.trans (Nat.pow_le_pow_left (by norm_num) n)

theorem ten_zpow_shift {w : Nat} (h : 0 < w) (k : Nat) :
    (10 : ℚ) ^ ((w : Int) - (k + 1 : Nat)) * (10 : ℚ) ^ k = (10 : ℚ) ^ (w - 1) := by
  rw [← zpow_natCast, ← zpow_natCast, ← zpow_add₀ (by norm_num)]
  congr 1
  omega

theorem le_mul_ten_pow_of_normal {m : Nat} {q : Int} (h : Normal m q) :
    (fraction m q).2 ≤ (fraction m q).1 * 10 ^ 400 := by
  unfold fraction
  split
  · exact Nat.mul_pos (Nat.mul_pos h.pos (by positivity)) (by positivity)
  · have hq : (-q).toNat ≤ 3 * 400 := by
      have := h.least
      omega
    exact (two_pow_le_ten_pow hq).trans (Nat.le_mul_of_pos_left _ h.pos)

/-- The first digit of a number is where `magnitude` says, or further left. -/
theorem ten_zpow_magnitude_le {m : Nat} {q : Int} (h : Normal m q) :
    (10 : ℚ) ^ magnitude (fraction m q).1 (fraction m q).2 ≤ m * (2 : ℚ) ^ q := by
  have hden : 0 < (fraction m q).2 := by
    unfold fraction
    split <;> positivity
  have hle := le_mul_ten_pow_of_normal h
  obtain ⟨k, n, hk, hn, hmagnitude⟩ := magnitude_eq (fraction m q).1 (fraction m q).2
  rw [← hk] at hle
  rw [hmagnitude]
  generalize hnum : (fraction m q).1 = num at *
  generalize hdn : (fraction m q).2 = den at *
  have hpos : 0 < n := hn ▸ Nat.div_pos hle hden
  have hmul : 10 ^ (width n - 1) * den ≤ num * 10 ^ k :=
    (Nat.mul_le_mul_right den (ten_pow_width_le hpos)).trans (hn ▸ Nat.div_mul_le_self _ _)
  have hcast : (10 : ℚ) ^ (width n - 1) * den ≤ num * (10 : ℚ) ^ k := by
    exact_mod_cast hmul
  have heq : (num : ℚ) = m * (2 : ℚ) ^ q * den := by
    rw [← hnum, ← hdn]
    exact fraction_eq m q
  have hdenq : (0 : ℚ) < den := by exact_mod_cast hden
  have hwidth : 0 < width n := Nat.length_toDigits_pos
  rw [heq] at hcast
  have hten : (0 : ℚ) < (10 : ℚ) ^ k := by positivity
  rw [← mul_le_mul_iff_of_pos_right hten, ten_zpow_shift hwidth, ← mul_le_mul_iff_of_pos_right hdenq]
  linarith

/-- A grid finer than the interval is wide has a point in it, next to the middle. -/
theorem onGrid_isSome_of_lt {i : Interval} {q k : Int} (hlow : i.low < i.mid) (hhigh : i.mid < i.high)
    (hlt : (2 ^ (-(q - 2)).toNat * 10 ^ k.toNat) <
      (i.high - i.low) * (2 ^ (q - 2).toNat * 10 ^ (-k).toNat)) :
    (onGrid i q k).isSome := by
  unfold onGrid
  simp only
  generalize hs : 2 ^ (q - 2).toNat * 10 ^ (-k).toNat = scale at *
  generalize hd : 2 ^ (-(q - 2)).toNat * 10 ^ k.toNat = den at *
  have hden : 0 < den := by rw [← hd]; positivity
  generalize hb : i.mid * scale / den = below
  have hbelow : below * den ≤ i.mid * scale := by rw [← hb]; exact Nat.div_mul_le_self _ _
  have habove : i.mid * scale < (below + 1) * den := by
    rw [← hb, Nat.add_mul, Nat.one_mul]
    exact Nat.lt_div_mul_add hden
  have hscale : 0 < scale := by rw [← hs]; positivity
  have hl : i.low * scale < i.mid * scale := Nat.mul_lt_mul_of_pos_right hlow hscale
  have hh : i.mid * scale < i.high * scale := Nat.mul_lt_mul_of_pos_right hhigh hscale
  rw [Nat.sub_mul] at hlt
  have hstep : (below + 1) * den = below * den + den := by ring
  cases hlo : i.holds scale (below * den) with
  | true => split <;> simp_all
  | false =>
    cases hhi : i.holds scale ((below + 1) * den) with
    | true => simp
    | false =>
      exfalso
      unfold Interval.holds at hlo hhi
      by_cases hc : i.closed = true
      · rw [if_pos hc] at hlo hhi
        simp only [Bool.and_eq_false_iff, decide_eq_false_iff_not] at hlo hhi
        omega
      · rw [if_neg hc] at hlo hhi
        simp only [Bool.and_eq_false_iff, decide_eq_false_iff_not] at hlo hhi
        omega

theorem around_width {m : Nat} {q : Int} (h : Normal m q) :
    4 * (m : ℚ) < 10 ^ 16 * ((Interval.around m q).high - (Interval.around m q).low : Nat) := by
  have hm := h.lt
  have hpos := h.pos
  unfold Interval.around
  by_cases hn : m = 2 ^ 52 ∧ q ≠ -1074
  · obtain ⟨rfl, hq⟩ := hn
    simp [hq]
    norm_num
  · have : (decide (m = 2 ^ 52) && decide (q ≠ -1074)) = false := by
      simpa using hn
    simp only [this, Bool.false_eq_true, if_false]
    rw [show 4 * m + 2 - (4 * m - 2) = 4 by omega]
    have : (m : ℚ) < 2 ^ 53 := by exact_mod_cast hm
    push_cast
    linarith

theorem around_bounds {m : Nat} {q : Int} (h : Normal m q) :
    (Interval.around m q).low < (Interval.around m q).mid ∧
      (Interval.around m q).mid < (Interval.around m q).high := by
  have hpos := h.pos
  unfold Interval.around
  simp only
  constructor
  · split <;> omega
  · omega

theorem onGrid_isSome {m : Nat} {q : Int} (h : Normal m q) :
    (onGrid (.around m q) q (magnitude (fraction m q).1 (fraction m q).2 + 1 - 17)).isSome := by
  obtain ⟨hlow, hhigh⟩ := around_bounds h
  apply onGrid_isSome_of_lt hlow hhigh
  have hmag := ten_zpow_magnitude_le h
  have hwidth := around_width h
  generalize magnitude (fraction m q).1 (fraction m q).2 = top at *
  generalize (Interval.around m q).high - (Interval.around m q).low = w at *
  have hcmp := (scaled_cmp w 1 (q - 2) (top + 1 - 17)).1
  rw [one_mul, Nat.cast_one, one_mul] at hcmp
  rw [← not_le, hcmp, not_le]
  have h10 : (10 : ℚ) ^ top = (10 : ℚ) ^ (top + 1 - 17) * 10 ^ 16 := by
    rw [← zpow_natCast, ← zpow_add₀ (by norm_num)]
    congr 1
    norm_num
    ring
  have h2 : (2 : ℚ) ^ q = (2 : ℚ) ^ (q - 2) * 4 := by
    rw [show (4 : ℚ) = 2 ^ (2 : Int) by norm_num, ← zpow_add₀ (by norm_num)]
    congr 1
    ring
  have hp : (0 : ℚ) < (2 : ℚ) ^ (q - 2) := by positivity
  rw [h10, h2] at hmag
  have := mul_lt_mul_of_pos_right hwidth hp
  linarith

/-! ## The search ends with a hit -/

theorem search_mem {i : Interval} {q top : Int} {left places : Nat}
    (h : ∃ n, places ≤ n ∧ n < places + left ∧ (onGrid i q (top + 1 - n)).isSome) :
    i.Mem q (search i q top left places).toRat := by
  induction left generalizing places with
  | zero =>
    obtain ⟨n, h1, h2, _⟩ := h
    omega
  | succ left ih =>
    unfold search
    simp only
    split
    · rename_i value hv
      exact mem_of_onGrid hv
    · rename_i hnone
      apply ih
      obtain ⟨n, h1, h2, h3⟩ := h
      refine ⟨n, ?_, by omega, h3⟩
      rcases Nat.eq_or_lt_of_le h1 with rfl | hlt
      · rw [hnone] at h3
        cases h3
      · exact hlt

theorem toRat_stripZeros (fuel : Nat) (d : Digits) : (stripZeros fuel d).toRat = d.toRat := by
  induction fuel generalizing d with
  | zero => rfl
  | succ fuel ih =>
    unfold stripZeros
    split
    · rename_i hz
      simp only [ne_eq, Bool.and_eq_true, decide_eq_true_eq] at hz
      rw [ih]
      have hv : (d.value : ℚ) = (d.value / 10 : Nat) * 10 := by
        exact_mod_cast (Nat.div_mul_cancel (Nat.dvd_of_mod_eq_zero hz.2)).symm
      unfold Digits.toRat
      simp only
      rw [hv, zpow_add₀ (by norm_num : (10 : ℚ) ≠ 0), zpow_one]
      ring
    · rfl

/-- The shortest digits of a number read back as it. -/
theorem shortest_mem {m : Nat} {q : Int} (h : Normal m q) :
    (Interval.around m q).Mem q (shortest m q).toRat := by
  unfold shortest
  rw [toRat_stripZeros]
  exact search_mem ⟨17, by norm_num, by norm_num, onGrid_isSome h⟩

/-! ## No two numbers share digits -/

/-- The ends of an interval, as far as two neighbours can meet there. -/
theorem mem_around {m : Nat} {q : Int} {r : ℚ} (h : Normal m q)
    (hr : (Interval.around m q).Mem q r) :
    (4 * (m : ℚ) - 2) * (2 : ℚ) ^ (q - 2) ≤ r ∧ r ≤ (4 * (m : ℚ) + 2) * (2 : ℚ) ^ (q - 2) ∧
      (m % 2 = 1 →
        (4 * (m : ℚ) - 2) * (2 : ℚ) ^ (q - 2) < r ∧ r < (4 * (m : ℚ) + 2) * (2 : ℚ) ^ (q - 2)) ∧
      (m = 2 ^ 52 → q ≠ -1074 → (4 * (m : ℚ) - 1) * (2 : ℚ) ^ (q - 2) ≤ r) := by
  have hpos := h.pos
  have hp : (0 : ℚ) < (2 : ℚ) ^ (q - 2) := by positivity
  have hcast1 : ((4 * m - 1 : Nat) : ℚ) = 4 * m - 1 := by
    rw [Nat.cast_sub (by omega)]
    push_cast
    ring
  have hcast2 : ((4 * m - 2 : Nat) : ℚ) = 4 * m - 2 := by
    rw [Nat.cast_sub (by omega)]
    push_cast
    ring
  have hhigh : ((4 * m + 2 : Nat) : ℚ) = 4 * m + 2 := by push_cast; ring
  unfold Interval.Mem Interval.around at hr
  by_cases hn : m = 2 ^ 52 ∧ q ≠ -1074
  · have he : m % 2 = 0 := by omega
    simp only [hn.1, hn.2, decide_true, ne_eq, not_false_eq_true, Bool.and_self, if_true] at hr
    rw [← hn.1] at hr
    simp only [he, decide_true, if_true, hcast1, hhigh] at hr
    refine ⟨?_, hr.2, by omega, fun _ _ => hr.1⟩
    linarith [hr.1]
  · have hb : (decide (m = 2 ^ 52) && decide (q ≠ -1074)) = false := by simpa using hn
    simp only [hb, Bool.false_eq_true, if_false, hcast2, hhigh] at hr
    split at hr
    · rename_i he
      rw [decide_eq_true_eq] at he
      exact ⟨hr.1, hr.2, by omega, fun h1 h2 => absurd ⟨h1, h2⟩ hn⟩
    · exact ⟨hr.1.le, hr.2.le, fun _ => hr, fun h1 h2 => absurd ⟨h1, h2⟩ hn⟩

theorem not_mem_of_lt {m m' : Nat} {q : Int} {r : ℚ} (h : Normal m q) (h' : Normal m' q)
    (hlt : m < m') (hr : (Interval.around m q).Mem q r) :
    ¬ (Interval.around m' q).Mem q r := by
  intro hr'
  obtain ⟨-, hup, hodd, -⟩ := mem_around h hr
  obtain ⟨hlo, -, hodd', -⟩ := mem_around h' hr'
  have hp : (0 : ℚ) < (2 : ℚ) ^ (q - 2) := by positivity
  have hle : (m : ℚ) + 1 ≤ m' := by exact_mod_cast hlt
  have hends : (4 * (m : ℚ) + 2) * (2 : ℚ) ^ (q - 2) ≤ (4 * (m' : ℚ) - 2) * (2 : ℚ) ^ (q - 2) :=
    mul_le_mul_of_nonneg_right (by linarith) hp.le
  rcases Nat.mod_two_eq_zero_or_one m with he | ho
  · rcases Nat.mod_two_eq_zero_or_one m' with he' | ho'
    · -- both even: the two are not neighbours
      have hle : (m : ℚ) + 2 ≤ m' := by exact_mod_cast (show m + 2 ≤ m' by omega)
      have : (4 * (m : ℚ) + 2) * (2 : ℚ) ^ (q - 2) < (4 * (m' : ℚ) - 2) * (2 : ℚ) ^ (q - 2) :=
        mul_lt_mul_of_pos_right (by linarith) hp
      linarith
    · linarith [(hodd' ho').1]
  · linarith [(hodd ho).2]

theorem not_mem_of_exponent_lt {m m' : Nat} {q q' : Int} {r : ℚ} (h : Normal m q)
    (h' : Normal m' q') (hlt : q < q') (hr : (Interval.around m q).Mem q r) :
    ¬ (Interval.around m' q').Mem q' r := by
  intro hr'
  obtain ⟨-, hup, hodd, -⟩ := mem_around h hr
  obtain ⟨hlo, -, -, hnarrow⟩ := mem_around h' hr'
  have hq' : q' ≠ -1074 := by
    have := h.least
    omega
  have hfull : 2 ^ 52 ≤ m' := h'.full.resolve_right hq'
  have hp : (0 : ℚ) < (2 : ℚ) ^ (q - 2) := by positivity
  have hstep : 2 * (2 : ℚ) ^ (q - 2) ≤ (2 : ℚ) ^ (q' - 2) := by
    rw [← zpow_one_add₀ (by norm_num : (2 : ℚ) ≠ 0)]
    exact zpow_le_zpow_right₀ (by norm_num) (by omega)
  -- the upper end of the lower number, in units of the finer grid
  have hupper : r < (2 ^ 55 - 2) * (2 : ℚ) ^ (q - 2) := by
    rcases Nat.eq_or_lt_of_le (Nat.le_pred_of_lt h.lt) with hm | hm
    · have hm' : (m : ℚ) = 2 ^ 53 - 1 := by
        rw [hm]
        norm_num
      have := (hodd (by rw [hm]; norm_num)).2
      rw [hm'] at this
      linarith
    · have hm' : (m : ℚ) ≤ 2 ^ 53 - 2 := by
        have : (m : ℚ) + 1 ≤ ((2 ^ 53).pred : Nat) := by exact_mod_cast hm
        norm_num at this
        linarith
      have : (4 * (m : ℚ) + 2) * (2 : ℚ) ^ (q - 2) < (2 ^ 55 - 2) * (2 : ℚ) ^ (q - 2) :=
        mul_lt_mul_of_pos_right (by linarith) hp
      linarith
  rcases Nat.eq_or_lt_of_le hfull with hm | hm
  · have hlow := hnarrow hm.symm hq'
    rw [← hm] at hlow
    push_cast at hlow
    linarith
  · have hm' : (2 : ℚ) ^ 52 + 1 ≤ m' := by exact_mod_cast hm
    have : (2 ^ 54 + 2) * (2 : ℚ) ^ (q' - 2) ≤ (4 * (m' : ℚ) - 2) * (2 : ℚ) ^ (q' - 2) :=
      mul_le_mul_of_nonneg_right (by linarith) (by positivity)
    linarith

theorem mem_unique {m m' : Nat} {q q' : Int} {r : ℚ} (h : Normal m q) (h' : Normal m' q')
    (hr : (Interval.around m q).Mem q r) (hr' : (Interval.around m' q').Mem q' r) :
    m = m' ∧ q = q' := by
  rcases lt_trichotomy q q' with hlt | rfl | hlt
  · exact absurd hr' (not_mem_of_exponent_lt h h' hlt hr)
  · rcases lt_trichotomy m m' with hlt | rfl | hlt
    · exact absurd hr' (not_mem_of_lt h h' hlt hr)
    · exact ⟨rfl, rfl⟩
    · exact absurd hr (not_mem_of_lt h' h hlt hr')
  · exact absurd hr (not_mem_of_exponent_lt h' h hlt hr')

theorem eq_of_shortest_toRat_eq {m m' : Nat} {q q' : Int} (h : Normal m q) (h' : Normal m' q')
    (heq : (shortest m q).toRat = (shortest m' q').toRat) : m = m' ∧ q = q' := by
  have hmem := shortest_mem h'
  rw [← heq] at hmem
  exact mem_unique h h' (shortest_mem h) hmem

end Decimal
end TileMind
