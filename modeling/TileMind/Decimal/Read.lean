import TileMind.Decimal.Parts

/-!
# TileMind.Decimal.Read

Reading numbers and integers. A decimal becomes the nearest number, an even last bit deciding a
tie; one that is too large becomes infinite.
-/

namespace TileMind
namespace Decimal

-- `^` is the power that comes with the numbers, also where that of a monoid could be taken.
attribute [local instance (high)] instPowNat

/-- The value of a run of decimal digits. -/
def natOfDigits (cs : List Char) : Nat :=
  cs.foldl (fun n c => 10 * n + (c.toNat - '0'.toNat)) 0

/-- The number nearest to `m · 10^e`. -/
def ofScientific (m : Nat) (e : Int) : Float :=
  if m = 0 then 0.0
  else if 400 < e then 1.0 / 0.0
  else if e < -(400 + 4 * (Nat.log2 m : Int)) then 0.0
  else if 0 ≤ e then Float.ofScientific m false e.toNat
  else Float.ofScientific m true (-e).toNat

/-- Splits off the leading digits. -/
def spanDigits (cs : List Char) : List Char × List Char :=
  (cs.takeWhile Char.isDigit, cs.dropWhile Char.isDigit)

/-- An optional sign and at least one digit, to the end. -/
def signedDigits? (cs : List Char) : Option Int :=
  let (negative, rest) := match cs with
    | '-' :: rest => (true, rest)
    | '+' :: rest => (false, rest)
    | rest => (false, rest)
  if rest.isEmpty || !rest.all Char.isDigit then none
  else if negative then some (-(natOfDigits rest : Int)) else some (natOfDigits rest)

/-- Digits with an optional point and an optional exponent. -/
def unsigned? (cs : List Char) : Option Float :=
  let (whole, rest) := spanDigits cs
  let (places, rest) := match rest with
    | '.' :: rest => spanDigits rest
    | rest => ([], rest)
  if whole.isEmpty && places.isEmpty then none
  else
    let m := natOfDigits (whole ++ places)
    let shift : Int := -(places.length : Int)
    match rest with
    | [] => some (ofScientific m shift)
    | e :: rest =>
      if e = 'e' || e = 'E' then (signedDigits? rest).map fun n => ofScientific m (n + shift)
      else none

/-- A number in decimal or exponent form, or the name of one that has no digits, in any case. -/
def read? (s : String) : Option Float :=
  let (negative, rest) := match s.toList with
    | '-' :: rest => (true, rest)
    | '+' :: rest => (false, rest)
    | rest => (false, rest)
  let name := String.ofList (rest.map Char.toLower)
  let magnitude :=
    if name = "inf" || name = "infinity" then some (1.0 / 0.0)
    else if name = "nan" then some (0.0 / 0.0)
    else unsigned? rest
  magnitude.map fun x => if negative then -x else x

def readInt? (s : String) : Option Int := signedDigits? s.toList

/-- An integer in decimal that fits 64 bits. -/
def readInt64? (s : String) : Option Int :=
  (readInt? s).filter fun n => -2 ^ (63 : Nat) ≤ n && n < 2 ^ (63 : Nat)

end Decimal
end TileMind
