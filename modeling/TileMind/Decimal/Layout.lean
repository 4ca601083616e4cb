import TileMind.Decimal.Shortest

/-!
# TileMind.Decimal.Layout

How numbers are written. `general` is the form of values and messages: the fewest digits, with an
exponent outside of the range from a ten-thousandth up to a million. `positional` never uses an
exponent, and `fixed` has a given number of places.
-/

namespace TileMind
namespace Decimal

-- `^` is the power that comes with the numbers, also where that of a monoid could be taken.
attribute [local instance (high)] instPowNat

def digitString (n : Nat) : String := String.ofList (Nat.toDigits 10 n)

def zeros (n : Nat) : String := String.ofList (List.replicate n '0')

/-- `text` with zeros in front, up to `n` characters. -/
def padZeros (n : Nat) (text : String) : String := zeros (n - text.length) ++ text

/-- An exponent: its sign and at least two digits. -/
def exponentText (e : Int) : String :=
  (if e < 0 then "-" else "+") ++ padZeros 2 (digitString e.natAbs)

def Digits.plain (d : Digits) : String :=
  let text := digitString d.value
  if 0 ≤ d.exponent then text ++ zeros d.exponent.toNat
  else
    let places := (-d.exponent).toNat
    let padded := padZeros (places + 1) text
    let whole := padded.length - places
    String.ofList (padded.toList.take whole) ++ "." ++ String.ofList (padded.toList.drop whole)

/-- Digits as one digit, a point and an exponent. -/
def Digits.scientific (d : Digits) : String :=
  let text := digitString d.value
  let e := d.exponent + (text.length : Int) - 1
  let head := String.ofList (text.toList.take 1)
  let tail := String.ofList (text.toList.drop 1)
  head ++ (if tail.isEmpty then "" else "." ++ tail) ++ "e" ++ exponentText e

def Digits.order (d : Digits) : Int := d.exponent + (digitString d.value).length - 1

/-- Writes a number; `write` writes the digits of a positive one. -/
def layout (write : Digits → String) (x : Float) : String :=
  match parts x with
  | .nan => "NaN"
  | .infinite negative => if negative then "-Inf" else "+Inf"
  | .finite negative m q =>
    (if negative then "-" else "") ++ (if m = 0 then "0" else write (shortest m q))

/-- The fewest digits, with an exponent below `10^-4` and from `10^6` on. -/
def general (x : Float) : String :=
  layout (fun d => if d.order < -4 || 6 ≤ d.order then d.scientific else d.plain) x

/-- The fewest digits, never with an exponent. -/
def positional (x : Float) : String := layout Digits.plain x

/-- The integer nearest to `num / den`; a tie goes to the even one. -/
def roundHalfEven (num den : Nat) : Nat :=
  let whole := num / den
  let rest := 2 * (num % den)
  if rest < den then whole
  else if den < rest then whole + 1
  else whole + whole % 2

/-- A number with exactly `places` decimal places. -/
def fixed (places : Nat) (x : Float) : String :=
  match parts x with
  | .nan => "NaN"
  | .infinite negative => if negative then "-Inf" else "+Inf"
  | .finite negative m q =>
    let (num, den) := fraction m q
    (if negative then "-" else "") ++
      (Digits.mk (roundHalfEven (num * 10 ^ places) den) (-(places : Int))).plain

def integer (n : Int) : String :=
  if n < 0 then "-" ++ digitString n.natAbs else digitString n.toNat

/-- An integer with zeros in front, the sign included in the width. -/
def integerPadded (places : Nat) (n : Int) : String :=
  if n < 0 then "-" ++ padZeros (places - 1) (digitString n.natAbs)
  else padZeros places (digitString n.toNat)

end Decimal
end TileMind
