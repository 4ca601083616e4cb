import TileMind.Decimal.Parts

/-!
# TileMind.Decimal.Shortest

The fewest digits that read back as a given number, and among those the nearest to it; of two that
are equally near, the ones whose last digit is even. A number
`m · 2^q` stands for every real closer to it than to its neighbours; the digits are searched on the
decimal grids of one place, two places and so on, and the first grid with a point in that interval
wins. All comparisons are between natural numbers.
-/

namespace TileMind
namespace Decimal

-- `^` is the power that comes with the numbers, also where that of a monoid could be taken.
attribute [local instance (high)] instPowNat

/-- The number `value · 10^exponent`. -/
structure Digits where
  value : Nat
  exponent : Int
deriving DecidableEq, Repr

/-- How many decimal digits a positive natural number has. -/
def width (n : Nat) : Nat := (Nat.toDigits 10 n).length

/-- The power of ten of the first digit of `num / den`. -/
def magnitude (num den : Nat) : Int :=
  (width (num * 10 ^ (400 : Nat) / den) : Int) - 401

theorem magnitude_eq (num den : Nat) :
    ∃ k n, k = 400 ∧ n = num * 10 ^ k / den ∧ magnitude num den = (width n : Int) - (k + 1 : Nat) :=
  ⟨400, _, rfl, rfl, rfl⟩

/-- Removes final zeros, at most `fuel` of them. -/
def stripZeros : (fuel : Nat) → Digits → Digits
  | 0, d => d
  | fuel + 1, d =>
    if d.value ≠ 0 && d.value % 10 = 0 then stripZeros fuel ⟨d.value / 10, d.exponent + 1⟩ else d

/-- The reals that read back as `m · 2^q`, in units of `2^(q - 2)`: four units to the spacing of
numbers above, and two below where the spacing changes. The ends belong to an even `m`. -/
structure Interval where
  low : Nat
  mid : Nat
  high : Nat
  closed : Bool

def Interval.around (m : Nat) (q : Int) : Interval :=
  let narrow := m = 2 ^ (52 : Nat) && q ≠ -1074
  ⟨4 * m - (if narrow then 1 else 2), 4 * m, 4 * m + 2, m % 2 = 0⟩

/-- Whether `point · den` lies in the interval scaled by `scale`. -/
def Interval.holds (i : Interval) (scale point : Nat) : Bool :=
  if i.closed then i.low * scale ≤ point && point ≤ i.high * scale
  else i.low * scale < point && point < i.high * scale

/-- The nearer of `below` and `below + 1`, which lie `toBelow` and `toAbove` away; a tie goes to the
even one. -/
def nearer (below toBelow toAbove : Nat) : Nat :=
  if toBelow < toAbove then below
  else if toAbove < toBelow then below + 1
  else below + below % 2

/-- Looks on the grid of `10^k` for a point that reads back as the number; of two such points the
nearer one is taken. -/
def onGrid (i : Interval) (q k : Int) : Option Nat :=
  let unit := q - 2
  let scale := 2 ^ unit.toNat * 10 ^ (-k).toNat
  let den := 2 ^ (-unit).toNat * 10 ^ k.toNat
  let mid := i.mid * scale
  let below := mid / den
  let above := below + 1
  let lowHit := i.holds scale (below * den)
  let highHit := i.holds scale (above * den)
  if lowHit && highHit then some (nearer below (mid - below * den) (above * den - mid))
  else if lowHit then some below
  else if highHit then some above
  else none

/-- Searches the grids from `places` digits on. -/
def search (i : Interval) (q top : Int) : (left places : Nat) → Digits
  | 0, places => ⟨0, top + 1 - places⟩
  | left + 1, places =>
    let k := top + 1 - places
    match onGrid i q k with
    | some value => ⟨value, k⟩
    | none => search i q top left (places + 1)

/-- The fewest digits that read back as `m · 2^q`, for positive `m`. -/
def shortest (m : Nat) (q : Int) : Digits :=
  let (num, den) := fraction m q
  stripZeros 20 (search (.around m q) q (magnitude num den) 17 1)

end Decimal
end TileMind
