/-!
# TileMind.Decimal.Parts

A number taken apart: a sign, a natural number and a power of two. Everything about numbers that
has to be exact (digits, remainders, whole parts) is computed on these parts.
-/

namespace TileMind
namespace Decimal

-- `^` is the power that comes with the numbers, also where that of a monoid could be taken.
attribute [local instance (high)] instPowNat

/-- What a number is made of. `finite n m q` is `m · 2^q`, negated if `n`. -/
inductive Parts where
  | nan
  | infinite (negative : Bool)
  | finite (negative : Bool) (m : Nat) (q : Int)
deriving DecidableEq, Repr

/-- Reads the parts off the 64 bits of a number. -/
def Parts.ofBits (bits : Nat) : Parts :=
  let negative := bits / 2 ^ (63 : Nat) % 2 = 1
  let e : Nat := bits / 2 ^ (52 : Nat) % 2048
  let f : Nat := bits % 2 ^ (52 : Nat)
  if e = 2047 then if f = 0 then .infinite negative else .nan
  else if e = 0 then .finite negative f (-1074)
  else .finite negative (2 ^ (52 : Nat) + f) ((e : Int) - 1075)

def parts (x : Float) : Parts := .ofBits x.toBits.toNat

/-- The number `m · 2^q`, negated if `negative`. -/
def ofParts (negative : Bool) (m : Nat) (q : Int) : Float :=
  let x := Float.scaleB (Float.ofNat m) q
  if negative then -x else x

/-- The magnitude `m · 2^q` as a fraction. -/
def fraction (m : Nat) (q : Int) : Nat × Nat :=
  if 0 ≤ q then (m * 2 ^ q.toNat, 1) else (m, 2 ^ (-q).toNat)

/-- The whole part of a number, toward zero, as a 64-bit integer. What has no such whole part
becomes the least of them. -/
def toInt64 (x : Float) : Int :=
  match parts x with
  | .finite negative m q =>
    let (n, d) := fraction m q
    let whole : Int := if negative then -(n / d : Nat) else (n / d : Nat)
    if -2 ^ (63 : Nat) ≤ whole && whole < 2 ^ (63 : Nat) then whole else -2 ^ (63 : Nat)
  | _ => -2 ^ (63 : Nat)

/-- A number without a fraction, as an integer. -/
def whole? (x : Float) : Option Int :=
  match parts x with
  | .finite negative m q =>
    let (n, d) := fraction m q
    if n % d = 0 then some (if negative then -(n / d : Nat) else (n / d : Nat)) else none
  | _ => none

/-- An integer reduced to 64 bits, as sums of times and of costs are. -/
def wrap64 (n : Int) : Int := n.bmod (2 ^ (64 : Nat))

theorem wrap64_of_range {n : Int} (hlow : -2 ^ (63 : Nat) ≤ n) (hhigh : n < 2 ^ (63 : Nat)) : wrap64 n = n := by
  rw [wrap64, Int.bmod_eq_of_le] <;> omega

theorem wrap64_lt (n : Int) : wrap64 n < 2 ^ (63 : Nat) := Int.bmod_lt (by decide)

/-- The number nearest to an integer. -/
def ofInt (n : Int) : Float :=
  if n < 0 then -(Float.ofNat n.natAbs) else Float.ofNat n.toNat

/-- The remainder of a division toward zero; it takes the sign of `x`. -/
def remainder (x y : Float) : Float :=
  match parts x, parts y with
  | .finite _ _ _, .infinite _ => x
  | .finite negative m p, .finite _ n q =>
    if n = 0 then 0.0 / 0.0
    else
      let low := min p q
      let a := m * 2 ^ (p - low).toNat
      let b := n * 2 ^ (q - low).toNat
      ofParts negative (a % b) low
  | _, _ => 0.0 / 0.0

end Decimal
end TileMind
