import TileMind.Text.Letter

/-!
# TileMind.Text.Digits

Natural numbers in digits of any base up to sixteen. Underscores may stand between digits, and two
characters in front may say which base is meant: `0x` sixteen, `0o` eight, `0b` two. A lone zero in
front means eight as well.
-/

namespace TileMind
namespace Text

/-- The value of a hexadecimal digit. -/
def hexDigit? (c : Char) : Option Nat :=
  if isDigit c then some (c.toNat - '0'.toNat)
  else if 'a' ≤ c && c ≤ 'f' then some (c.toNat - 'a'.toNat + 10)
  else if 'A' ≤ c && c ≤ 'F' then some (c.toNat - 'A'.toNat + 10)
  else none

/-- Whether a character is a digit in some base. -/
def isDigitIn (base : Nat) (c : Char) : Bool := ((hexDigit? c).map fun d => decide (d < base)).getD false

/-- The value of digits in some base, with single underscores between them. -/
def digitsIn? (base : Nat) (cs : List Char) : Option Nat :=
  let parts := (String.ofList cs).splitOn "_"
  if parts.any (· = "") then none
  else
    (cs.filter (· ≠ '_')).foldlM
      (fun n c => (hexDigit? c).bind fun d => if d < base then some (base * n + d) else none) 0

/-- The value of digits behind the mark of their base, where an underscore may stand in between. -/
def digitsBehindMark? (base : Nat) (cs : List Char) : Option Nat :=
  digitsIn? base (match cs with
    | '_' :: rest => rest
    | cs => cs)

/-- The base that a mark stands for. -/
def baseOfMark? (c : Char) : Option Nat :=
  if c = 'x' || c = 'X' then some 16
  else if c = 'o' || c = 'O' then some 8
  else if c = 'b' || c = 'B' then some 2
  else none

/-- The value of digits in decimal, or in the base that the first characters say. -/
def markedDigits? (cs : List Char) : Option Nat :=
  match cs with
  | '0' :: c :: rest =>
    match baseOfMark? c with
    | some base => digitsBehindMark? base rest
    | none => digitsBehindMark? 8 (c :: rest)
  | cs => digitsIn? 10 cs

/-- The bytes of pairs of hexadecimal digits. -/
def bytesOfHex : List Char → List UInt8
  | a :: b :: rest =>
    .ofNat (16 * (hexDigit? a).getD 0 + (hexDigit? b).getD 0) :: bytesOfHex rest
  | _ => []

end Text
end TileMind
