import TileMind.Decimal.Layout
import TileMind.Decimal.Read
import TileMind.Proofs.Decimal.Shortest

/-!
# TileMind.Proofs.Decimal.General

Written numbers tell numbers apart: `general_injective`. The text of a number is scanned back as the
exact decimal it denotes (`scan?_plain`, `scan?_scientific`); that decimal is the one of the shortest
digits, which belong to one number only.
-/

namespace TileMind
namespace Decimal

/-- The decimal that a text denotes, exactly: digits with an optional point and an optional
exponent. -/
def scan? (cs : List Char) : Option ℚ :=
  let (whole, rest) := spanDigits cs
  let (places, rest) := match rest with
    | '.' :: rest => spanDigits rest
    | rest => ([], rest)
  if whole.isEmpty && places.isEmpty then none
  else
    let m : ℚ := natOfDigits (whole ++ places)
    match rest with
    | [] => some (m * (10 : ℚ) ^ (-(places.length : Int)))
    | _ :: rest =>
      (signedDigits? rest).map fun n => m * (10 : ℚ) ^ (n - (places.length : Int))

/-! ## Runs of digits -/

def AllDigits (cs : List Char) : Prop := ∀ c ∈ cs, c.isDigit = true

theorem allDigits_append {cs ds : List Char} (hc : AllDigits cs) (hd : AllDigits ds) :
    AllDigits (cs ++ ds) := by
  intro c h
  rcases List.mem_append.mp h with h | h
  · exact hc c h
  · exact hd c h

theorem allDigits_toDigits (n : Nat) : AllDigits (Nat.toDigits 10 n) := by
  intro c h
  exact Nat.isDigit_of_mem_toDigits (by norm_num) (by norm_num) h

theorem allDigits_zeros (n : Nat) : AllDigits (List.replicate n '0') := by
  intro c h
  rw [List.eq_of_mem_replicate h]
  decide

theorem spanDigits_append {ds : List Char} (h : AllDigits ds) (c : Char) (rest : List Char)
    (hc : c.isDigit = false) : spanDigits (ds ++ c :: rest) = (ds, c :: rest) := by
  unfold spanDigits
  rw [List.takeWhile_append_of_pos h, List.dropWhile_append_of_pos h]
  simp [hc]

theorem spanDigits_all {ds : List Char} (h : AllDigits ds) : spanDigits ds = (ds, []) := by
  have htake : (ds ++ []).takeWhile Char.isDigit = ds ++ [] := List.takeWhile_append_of_pos h
  have hdrop : (ds ++ []).dropWhile Char.isDigit = [] := List.dropWhile_append_of_pos h
  rw [List.append_nil] at htake hdrop
  unfold spanDigits
  rw [htake, hdrop]

theorem natOfDigits_eq (cs : List Char) : natOfDigits cs = Nat.ofDigitChars 10 cs 0 := by
  rw [Nat.ofDigitChars_eq_foldl]
  rfl

theorem natOfDigits_toDigits (n : Nat) : natOfDigits (Nat.toDigits 10 n) = n := by
  rw [natOfDigits_eq, Nat.ofDigitChars_ten_toDigits]

theorem natOfDigits_zeros_append (n : Nat) (cs : List Char) :
    natOfDigits (List.replicate n '0' ++ cs) = natOfDigits cs := by
  rw [natOfDigits_eq, natOfDigits_eq, Nat.ofDigitChars_append, Nat.ofDigitChars_replicate_zero,
    Nat.mul_zero]

theorem natOfDigits_append_zeros (n : Nat) (cs : List Char) :
    natOfDigits (cs ++ List.replicate n '0') = natOfDigits cs * 10 ^ n := by
  rw [natOfDigits_eq, natOfDigits_eq, Nat.ofDigitChars_append, Nat.ofDigitChars_replicate_zero,
    Nat.mul_comm]

/-! ## The characters of written digits -/

theorem toList_digitString (n : Nat) : (digitString n).toList = Nat.toDigits 10 n :=
  String.toList_ofList

theorem length_digitString (n : Nat) : (digitString n).length = (Nat.toDigits 10 n).length := by
  rw [← String.length_toList, toList_digitString]

theorem toList_padZeros (n : Nat) (text : String) :
    (padZeros n text).toList = List.replicate (n - text.length) '0' ++ text.toList := by
  unfold padZeros zeros
  rw [String.toList_append, String.toList_ofList]

/-! ## Scanning what was written -/

theorem scan?_whole {ds : List Char} (hd : AllDigits ds) (hne : ds ≠ []) :
    scan? ds = some (natOfDigits ds : ℚ) := by
  unfold scan?
  simp [spanDigits_all hd, hne]

theorem scan?_point {ds ps : List Char} (hd : AllDigits ds) (hp : AllDigits ps) (hne : ds ≠ []) :
    scan? (ds ++ '.' :: ps) = some (natOfDigits (ds ++ ps) * (10 : ℚ) ^ (-(ps.length : Int))) := by
  unfold scan?
  simp [spanDigits_append hd '.' ps (by decide), spanDigits_all hp, hne]

theorem scan?_exponent {ds rest : List Char} (hd : AllDigits ds) (hne : ds ≠ []) :
    scan? (ds ++ 'e' :: rest) =
      (signedDigits? rest).map fun n => (natOfDigits ds : ℚ) * (10 : ℚ) ^ n := by
  unfold scan?
  simp [spanDigits_append hd 'e' rest (by decide), hne]

theorem scan?_point_exponent {ds ps rest : List Char} (hd : AllDigits ds) (hp : AllDigits ps)
    (hne : ds ≠ []) :
    scan? (ds ++ '.' :: (ps ++ 'e' :: rest)) =
      (signedDigits? rest).map fun n =>
        (natOfDigits (ds ++ ps) : ℚ) * (10 : ℚ) ^ (n - (ps.length : Int)) := by
  unfold scan?
  simp [spanDigits_append hd '.' _ (by decide), spanDigits_append hp 'e' rest (by decide), hne]

theorem scan?_plain (d : Digits) : scan? d.plain.toList = some d.toRat := by
  unfold Digits.plain Digits.toRat
  simp only
  split
  · rename_i h
    have hd : AllDigits (Nat.toDigits 10 d.value ++ List.replicate d.exponent.toNat '0') :=
      allDigits_append (allDigits_toDigits _) (allDigits_zeros _)
    rw [String.toList_append, toList_digitString, zeros, String.toList_ofList,
      scan?_whole hd (by simp [Nat.toDigits_ne_nil]), natOfDigits_append_zeros,
      natOfDigits_toDigits, ← Int.toNat_of_nonneg h]
    push_cast
    rw [zpow_natCast, Int.toNat_natCast]
  · rename_i h
    generalize hp : (-d.exponent).toNat = places
    have he : d.exponent = -(places : Int) := by omega
    have hpad := toList_padZeros (places + 1) (digitString d.value)
    have hlen : places + 1 ≤ (padZeros (places + 1) (digitString d.value)).length := by
      rw [← String.length_toList, hpad, List.length_append, List.length_replicate,
        String.length_toList]
      omega
    generalize padZeros (places + 1) (digitString d.value) = padded at hpad hlen ⊢
    have hall : AllDigits padded.toList := by
      rw [hpad, toList_digitString]
      exact allDigits_append (allDigits_zeros _) (allDigits_toDigits _)
    have hval : natOfDigits padded.toList = d.value := by
      rw [hpad, natOfDigits_zeros_append, toList_digitString, natOfDigits_toDigits]
    have hl : padded.toList.length = padded.length := String.length_toList
    have htake : AllDigits (padded.toList.take (padded.length - places)) :=
      fun c hc => hall c (List.mem_of_mem_take hc)
    have hdrop : AllDigits (padded.toList.drop (padded.length - places)) :=
      fun c hc => hall c (List.mem_of_mem_drop hc)
    have hne : padded.toList.take (padded.length - places) ≠ [] := by
      apply List.ne_nil_of_length_pos
      rw [List.length_take]
      omega
    have hdlen : (padded.toList.drop (padded.length - places)).length = places := by
      rw [List.length_drop]
      omega
    simp only [String.toList_append, String.toList_ofList]
    rw [List.append_assoc]
    rw [show ".".toList = ['.'] from rfl, List.singleton_append, scan?_point htake hdrop hne,
      List.take_append_drop, hval, hdlen, he]

theorem signedDigits?_exponentText (e : Int) : signedDigits? (exponentText e).toList = some e := by
  unfold exponentText
  have hpad := toList_padZeros 2 (digitString e.natAbs)
  generalize padZeros 2 (digitString e.natAbs) = padded at hpad ⊢
  have hall : padded.toList.all Char.isDigit = true := by
    rw [hpad, toList_digitString, List.all_eq_true]
    exact allDigits_append (allDigits_zeros _) (allDigits_toDigits _)
  have hval : natOfDigits padded.toList = e.natAbs := by
    rw [hpad, natOfDigits_zeros_append, toList_digitString, natOfDigits_toDigits]
  have hne : padded.toList ≠ [] := by
    rw [hpad, toList_digitString]
    simp [Nat.toDigits_ne_nil]
  rw [String.toList_append]
  split
  · have habs : -(e.natAbs : Int) = e := by omega
    rw [show "-".toList = ['-'] from rfl, List.singleton_append]
    simp only [signedDigits?, hall, hval, habs]
    simp [hne]
  · have habs : (e.natAbs : Int) = e := by omega
    rw [show "+".toList = ['+'] from rfl, List.singleton_append]
    simp only [signedDigits?, hall, hval, habs]
    simp [hne]

theorem scan?_scientific (d : Digits) : scan? d.scientific.toList = some d.toRat := by
  unfold Digits.scientific Digits.toRat
  have htext := toList_digitString d.value
  have hlen : 0 < (digitString d.value).length := by
    rw [length_digitString]
    exact Nat.length_toDigits_pos
  generalize digitString d.value = text at htext hlen ⊢
  have hall : AllDigits text.toList := by rw [htext]; exact allDigits_toDigits _
  have hval : natOfDigits text.toList = d.value := by rw [htext, natOfDigits_toDigits]
  have hl : text.toList.length = text.length := String.length_toList
  have htake : AllDigits (text.toList.take 1) := fun c hc => hall c (List.mem_of_mem_take hc)
  have hdrop : AllDigits (text.toList.drop 1) := fun c hc => hall c (List.mem_of_mem_drop hc)
  have hne : text.toList.take 1 ≠ [] := by
    apply List.ne_nil_of_length_pos
    rw [List.length_take]
    omega
  simp only [String.toList_append, String.toList_ofList]
  rw [show "e".toList = ['e'] from rfl]
  split
  · -- a single digit has no point
    rename_i hempty
    have hnil : text.toList.drop 1 = [] := by
      have := String.isEmpty_iff.mp hempty
      simpa using congrArg String.toList this
    have hone : text.toList.take 1 = text.toList := by
      have := List.take_append_drop 1 text.toList
      rw [hnil, List.append_nil] at this
      exact this
    have hlone : text.length = 1 := by
      have := congrArg List.length hnil
      rw [List.length_drop, List.length_nil] at this
      omega
    rw [show "".toList = [] from rfl, List.append_nil, List.append_assoc, List.singleton_append,
      scan?_exponent htake hne, signedDigits?_exponentText, hone, hval, hlone]
    simp
  · rw [String.toList_append, show ".".toList = ['.'] from rfl]
    simp only [String.toList_ofList, List.append_assoc, List.cons_append, List.nil_append]
    rw [scan?_point_exponent htake hdrop hne, signedDigits?_exponentText, List.take_append_drop,
      hval, List.length_drop, hl]
    simp only [Option.map_some]
    congr 3
    omega

/-! ## The parts of a number -/

theorem toBits_inj {x y : Float} (h : x.toBits = y.toBits) : x = y := by
  obtain ⟨⟨bits, _⟩⟩ := x
  obtain ⟨⟨bits', _⟩⟩ := y
  have : bits = bits' := h
  subst this
  rfl

theorem toNat_unpackExponent (b : BitVec 64) :
    (@Float.Model.UnpackedFloat.unpackExponent .binary64 b).toNat =
      b.toNat / 2 ^ 52 % 2048 := by
  unfold Float.Model.UnpackedFloat.unpackExponent
  simp [BitVec.extractLsb_toNat, Nat.shiftRight_eq_div_pow]

theorem toNat_unpackMantissa (b : BitVec 64) :
    (@Float.Model.UnpackedFloat.unpackMantissa .binary64 b).toNat = b.toNat % 2 ^ 52 := by
  unfold Float.Model.UnpackedFloat.unpackMantissa
  simp [BitVec.extractLsb_toNat]

/-- There is one NaN. -/
theorem toBits_of_isNaN {x : Float} (he : x.toBits.toNat / 2 ^ 52 % 2048 = 2047)
    (hf : x.toBits.toNat % 2 ^ 52 ≠ 0) :
    x.toBits.toBitVec = Float.Model.UnpackedFloat.packedNaN .binary64 := by
  apply x.toModel.valid.eq_packedNaN
  · apply BitVec.eq_of_toNat_eq
    exact (toNat_unpackExponent _).trans he
  · intro hz
    apply hf
    have := congrArg BitVec.toNat hz
    rw [toNat_unpackMantissa] at this
    exact this

/-- Different bits have different parts, unless both stand for no number. -/
theorem ofBits_eq {a b : Nat} (ha : a < 2 ^ 64) (hb : b < 2 ^ 64)
    (h : Parts.ofBits a = Parts.ofBits b) :
    a = b ∨ (a / 2 ^ 52 % 2048 = 2047 ∧ a % 2 ^ 52 ≠ 0 ∧
      b / 2 ^ 52 % 2048 = 2047 ∧ b % 2 ^ 52 ≠ 0) := by
  unfold Parts.ofBits at h
  simp only at h
  split at h
  · split at h
    · split at h
      · split at h
        · simp only [Parts.infinite.injEq, decide_eq_decide] at h
          left
          omega
        · cases h
      · split at h <;> cases h
    · split at h
      · split at h
        · cases h
        · right
          exact ⟨‹_›, ‹_›, ‹_›, ‹_›⟩
      · split at h <;> cases h
  · split at h
    · split at h
      · split at h <;> cases h
      · split at h
        · simp only [Parts.finite.injEq, decide_eq_decide] at h
          left
          omega
        · simp only [Parts.finite.injEq, decide_eq_decide] at h
          omega
    · split at h
      · split at h <;> cases h
      · split at h
        · simp only [Parts.finite.injEq, decide_eq_decide] at h
          omega
        · simp only [Parts.finite.injEq, decide_eq_decide] at h
          left
          omega

theorem parts_injective {x y : Float} (h : parts x = parts y) : x = y := by
  apply toBits_inj
  rcases ofBits_eq x.toBits.toNat_lt y.toBits.toNat_lt h with heq | ⟨h1, h2, h3, h4⟩
  · exact UInt64.toNat_inj.mp heq
  · apply UInt64.eq_of_toBitVec_eq
    rw [toBits_of_isNaN h1 h2, toBits_of_isNaN h3 h4]

theorem normal_of_parts {x : Float} {negative : Bool} {m : Nat} {q : Int}
    (h : parts x = .finite negative m q) (hm : m ≠ 0) : Normal m q := by
  unfold parts Parts.ofBits at h
  simp only at h
  split at h
  · split at h <;> cases h
  · split at h
    · cases h
      exact ⟨by omega, by omega, by omega, by omega⟩
    · cases h
      exact ⟨by omega, by omega, by omega, by omega⟩

theorem exponent_le {x : Float} {negative : Bool} {m : Nat} {q : Int} (h : parts x = .finite negative m q) :
    q ≤ 971 := by
  unfold parts Parts.ofBits at h
  simp only at h
  split at h
  · split at h <;> cases h
  · split at h <;> cases h <;> omega

theorem exponent_of_zero {x : Float} {negative : Bool} {q : Int}
    (h : parts x = .finite negative 0 q) : q = -1074 := by
  unfold parts Parts.ofBits at h
  simp only at h
  split at h
  · split at h <;> cases h
  · split at h
    · simp only [Parts.finite.injEq] at h
      omega
    · simp only [Parts.finite.injEq] at h
      omega

/-! ## The text of a number -/

/-- The digits of a positive number, with or without an exponent. -/
def written (d : Digits) : String :=
  if d.order < -4 || 6 ≤ d.order then d.scientific else d.plain

theorem scan?_written (d : Digits) : scan? (written d).toList = some d.toRat := by
  unfold written
  split
  · exact scan?_scientific d
  · exact scan?_plain d

/-- The sign in front of a text, and the decimal behind it. -/
def scanSigned? (cs : List Char) : Option (Bool × ℚ) :=
  match cs with
  | '-' :: rest => (scan? rest).map fun r => (true, r)
  | rest => (scan? rest).map fun r => (false, r)

theorem scan?_minus (rest : List Char) : scan? ('-' :: rest) = none := by
  unfold scan? spanDigits
  simp

theorem scanSigned?_of_scan? {cs : List Char} {r : ℚ} (h : scan? cs = some r) :
    scanSigned? cs = some (false, r) := by
  unfold scanSigned?
  split
  · rw [scan?_minus] at h
    cases h
  · rw [h]
    rfl

theorem toRat_shortest_pos {m : Nat} {q : Int} (h : Normal m q) : 0 < (shortest m q).toRat := by
  obtain ⟨hlow, -⟩ := mem_around h (shortest_mem h)
  have hp : (0 : ℚ) < (2 : ℚ) ^ (q - 2) := by positivity
  have hm : (1 : ℚ) ≤ m := by exact_mod_cast h.pos
  exact lt_of_lt_of_le (mul_pos (by linarith) hp) hlow

/-- What is scanned from the text of a number: its sign and the decimal of its digits. -/
theorem scanSigned?_general (x : Float) :
    scanSigned? (general x).toList =
      match parts x with
      | .finite negative m q => some (negative, if m = 0 then 0 else (shortest m q).toRat)
      | _ => none := by
  unfold general layout
  split
  · rename_i h
    rw [h]
    decide
  · rename_i negative h
    rw [h]
    cases negative <;> decide
  · rename_i negative m q h
    rw [h]
    have hbody : scan? (if m = 0 then "0" else written (shortest m q)).toList =
        some (if m = 0 then 0 else (shortest m q).toRat) := by
      split
      · exact scan?_whole (allDigits_zeros 1) (by decide)
      · exact scan?_written _
    rw [String.toList_append]
    cases negative with
    | false => exact scanSigned?_of_scan? hbody
    | true =>
      show (scan? (if m = 0 then "0" else written (shortest m q)).toList).map _ = _
      rw [hbody]
      rfl

theorem eq_of_magnitudes {x y : Float} {a b : Bool} {m n : Nat} {p q : Int}
    (hx : parts x = .finite a m p) (hy : parts y = .finite b n q)
    (h : (if m = 0 then 0 else (shortest m p).toRat) =
      if n = 0 then 0 else (shortest n q).toRat) : m = n ∧ p = q := by
  by_cases hm : m = 0
  · by_cases hn : n = 0
    · subst hm hn
      exact ⟨rfl, (exponent_of_zero hx).trans (exponent_of_zero hy).symm⟩
    · rw [if_pos hm, if_neg hn] at h
      exact absurd h (toRat_shortest_pos (normal_of_parts hy hn)).ne
  · by_cases hn : n = 0
    · rw [if_neg hm, if_pos hn] at h
      exact absurd h (toRat_shortest_pos (normal_of_parts hx hm)).ne'
    · rw [if_neg hm, if_neg hn] at h
      exact eq_of_shortest_toRat_eq (normal_of_parts hx hm) (normal_of_parts hy hn) h

/-- No two numbers are written alike. -/
theorem general_injective {x y : Float} (h : general x = general y) : x = y := by
  have hscan := scanSigned?_general x
  rw [h, scanSigned?_general y] at hscan
  apply parts_injective
  cases hx : parts x with
  | nan =>
    cases hy : parts y with
    | nan => rfl
    | infinite b =>
      rw [general, layout, hx, general, layout, hy] at h
      cases b <;> exact absurd h (by decide)
    | finite b n q =>
      rw [hx, hy] at hscan
      cases hscan
  | infinite a =>
    cases hy : parts y with
    | nan =>
      rw [general, layout, hx, general, layout, hy] at h
      cases a <;> exact absurd h (by decide)
    | infinite b =>
      rw [general, layout, hx, general, layout, hy] at h
      cases a <;> cases b <;> first | rfl | exact absurd h (by decide)
    | finite b n q =>
      rw [hx, hy] at hscan
      cases hscan
  | finite a m p =>
    cases hy : parts y with
    | nan =>
      rw [hx, hy] at hscan
      cases hscan
    | infinite b =>
      rw [hx, hy] at hscan
      cases hscan
    | finite b n q =>
      rw [hx, hy] at hscan
      simp only [Option.some.injEq, Prod.mk.injEq] at hscan
      obtain ⟨rfl, rfl⟩ := eq_of_magnitudes hx hy hscan.2.symm
      rw [hscan.1]

end Decimal
end TileMind
