import TileMind.Decimal.Read

/-!
# TileMind.Config.Duration

Durations such as `1h30m` or `50ms`: numbers with a unit, one after the other. They are counted in
nanoseconds and fit 64 bits.
-/

namespace TileMind
namespace Duration

-- `^` is the power that comes with the numbers, also where that of a monoid could be taken.
attribute [local instance (high)] instPowNat

/-- The nanoseconds of a unit. -/
def unit? (name : String) : Option Nat :=
  match name with
  | "ns" => some 1
  | "us" | "µs" | "μs" => some 1000
  | "ms" => some 1000000
  | "s" => some 1000000000
  | "m" => some 60000000000
  | "h" => some 3600000000000
  | _ => none

/-- Digits behind the point as a numerator and the power of ten below it; digits that would not fit
are left out. -/
def fraction (cs : List Char) : Nat × Float :=
  let (n, scale, _) := cs.foldl
    (fun (n, scale, isFull) c =>
      let next := 10 * n + (c.toNat - '0'.toNat)
      if isFull || (2 ^ (63 : Nat) - 1) / 10 < n || 2 ^ (63 : Nat) < next then (n, scale, true)
      else (next, scale * 10.0, false))
    (0, 1.0, false)
  (n, scale)

/-- The nanoseconds of a number with a fraction in some unit. -/
def part? (whole places : List Char) (unit : Nat) : Option Nat :=
  let v := Decimal.natOfDigits whole
  if whole.isEmpty && places.isEmpty then none
  else if 2 ^ (63 : Nat) < v || 2 ^ (63 : Nat) / unit < v then none
  else
    let (n, scale) := fraction places
    let extra :=
      if n = 0 then 0
      else (Decimal.toInt64 (Decimal.ofInt n * (Decimal.ofInt unit / scale))).toNat
    let total := v * unit + extra
    if 2 ^ (63 : Nat) < total then none else some total

/-- Adds up the parts of a duration. -/
def sum? : (fuel : Nat) → (sum : Nat) → List Char → Option Nat
  | _, sum, [] => some sum
  | 0, _, _ => none
  | fuel + 1, sum, cs =>
    let (whole, rest) := Decimal.spanDigits cs
    let (places, rest) := match rest with
      | '.' :: rest => Decimal.spanDigits rest
      | rest => ([], rest)
    let isUnitChar (c : Char) : Bool := c ≠ '.' && !c.isDigit
    (unit? (String.ofList (rest.takeWhile isUnitChar))).bind fun unit =>
      (part? whole places unit).bind fun ns =>
        if 2 ^ (63 : Nat) < sum + ns then none else sum? fuel (sum + ns) (rest.dropWhile isUnitChar)

/-- Reads a duration. Only zero needs no unit. -/
def read? (s : String) : Option Int :=
  let (negative, rest) := match s.toList with
    | '-' :: rest => (true, rest)
    | '+' :: rest => (false, rest)
    | rest => (false, rest)
  if rest = ['0'] then some 0
  else if rest.isEmpty then none
  else
    (sum? rest.length 0 rest).bind fun n =>
      if negative then some (-n) else if n < 2 ^ (63 : Nat) then some (n : Int) else none

end Duration
end TileMind
