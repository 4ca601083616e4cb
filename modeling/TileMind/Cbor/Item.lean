import TileMind.Decimal.Parts
import TileMind.Text.Glyph

/-!
# TileMind.Cbor.Item

Items of the concise binary object representation, and ways to write them. One is their canonical
bytes: every head as short as it can be, every number in the shortest of the three widths that keeps it.
-/

namespace TileMind
namespace Cbor

-- `^` is the power that comes with the numbers, also where that of a monoid could be taken.
attribute [local instance (high)] instPowNat

/-- An item. `nint n` is the integer `-1 - n`. A text is kept as the chunks it was written in, each a
byte string that may fail to be text. -/
inductive Item where
  | uint (n : Nat)
  | nint (n : Nat)
  | bytes (bs : List UInt8)
  | text (chunks : List (List UInt8))
  | array (items : List Item)
  | map (entries : List (Item × Item))
  | tag (number : Nat) (item : Item)
  | simple (n : Nat)
  | float (x : Float)
deriving Repr

namespace Item

instance : Inhabited Item := ⟨.simple 22⟩

def null : Item := .simple 22

def int (n : Int) : Item := if n < 0 then .nint (-1 - n).toNat else .uint n.toNat

def string (s : String) : Item := .text [Text.bytes s]

end Item

/-- The last `width` bytes of a number, the most significant first. -/
def bigEndian (width n : Nat) : List UInt8 :=
  (List.range width).reverse.map fun i => UInt8.ofNat (n / 256 ^ i % 256)

/-- The head of an item: its major type and a number, in the shortest form. -/
def head (major n : Nat) : List UInt8 :=
  let first (info : Nat) : UInt8 := UInt8.ofNat (major * 32 + info)
  if n < 24 then [first n]
  else if n < 2 ^ (8 : Nat) then first 24 :: bigEndian 1 n
  else if n < 2 ^ (16 : Nat) then first 25 :: bigEndian 2 n
  else if n < 2 ^ (32 : Nat) then first 26 :: bigEndian 4 n
  else first 27 :: bigEndian 8 n

/-- A width of numbers: bits of the significand (the hidden one included), the least power of two and
the exponent of the largest numbers. -/
structure FloatWidth where
  precision : Nat
  low : Int
  high : Int
deriving DecidableEq, Repr

namespace FloatWidth

def half : FloatWidth := ⟨11, -24, 15⟩
def single : FloatWidth := ⟨24, -149, 127⟩
def double : FloatWidth := ⟨53, -1074, 1023⟩

/-- The number of exponents; the last one is that of what is not finite. -/
def exponents (w : FloatWidth) : Nat := (2 * w.high + 2).toNat

/-- The number of bits of a number. -/
def bitLength (m : Nat) : Nat := if m = 0 then 0 else Nat.log2 m + 1

/-- Moves factors of two from `m` into the exponent, at most `fuel` of them. -/
def reduce : (fuel : Nat) → Nat → Int → Nat × Int
  | 0, m, q => (m, q)
  | fuel + 1, m, q => if m = 0 || m % 2 = 1 then (m, q) else reduce fuel (m / 2) (q + 1)

/-- The bits of `m · 2^q` without its sign, if the width has room for them. -/
def bits? (w : FloatWidth) (m : Nat) (q : Int) : Option Nat :=
  let (m, q) := reduce (bitLength m) m q
  let length := bitLength m
  let top := q + length - 1
  if m = 0 then some 0
  else if w.precision < length || q < w.low || w.high < top then none
  else if top < 1 - w.high then some (m * 2 ^ (q - w.low).toNat)
  else
    let fraction := m * 2 ^ (w.precision - length) - 2 ^ (w.precision - 1)
    some ((top + w.high).toNat * 2 ^ (w.precision - 1) + fraction)

/-- The exponent field of bits. -/
def exponent (w : FloatWidth) (bits : Nat) : Nat := bits / 2 ^ (w.precision - 1) % w.exponents

/-- The number `m · 2^q` that the bits of a finite number stand for, without its sign. -/
def magnitude (w : FloatWidth) (bits : Nat) : Nat × Int :=
  let fraction := bits % 2 ^ (w.precision - 1)
  if w.exponent bits = 0 then (fraction, w.low)
  else (2 ^ (w.precision - 1) + fraction, (w.exponent bits : Int) - 1 + w.low)

def isNegative (w : FloatWidth) (bits : Nat) : Bool :=
  bits / 2 ^ (w.precision - 1) / w.exponents % 2 = 1

/-- The number with the given bits. -/
def ofBits (w : FloatWidth) (bits : Nat) : Float :=
  if w.exponent bits + 1 = w.exponents then
    if bits % 2 ^ (w.precision - 1) ≠ 0 then 0.0 / 0.0
    else if w.isNegative bits then -1.0 / 0.0 else 1.0 / 0.0
  else
    let (m, q) := w.magnitude bits
    let sign := if w.isNegative bits then 2 ^ (63 : Nat) else 0
    Float.ofBits (UInt64.ofNat ((double.bits? m q).getD 0 + sign))

end FloatWidth

/-- The bytes of a number in the shortest width that keeps it. -/
def floatBytes (x : Float) : List UInt8 :=
  match Decimal.parts x with
  | .nan => [0xF9, 0x7E, 0x00]
  | .infinite negative => [0xF9, if negative then 0xFC else 0x7C, 0x00]
  | .finite negative m q =>
    match FloatWidth.half.bits? m q with
    | some bits => 0xF9 :: bigEndian 2 (bits + if negative then 2 ^ (15 : Nat) else 0)
    | none =>
      match FloatWidth.single.bits? m q with
      | some bits => 0xFA :: bigEndian 4 (bits + if negative then 2 ^ (31 : Nat) else 0)
      | none => 0xFB :: bigEndian 8 x.toBits.toNat

mutual

def Item.toBytes : Item → List UInt8
  | .uint n => head 0 n
  | .nint n => head 1 n
  | .bytes bs => head 2 bs.length ++ bs
  | .text chunks => head 3 chunks.flatten.length ++ chunks.flatten
  | .array items => head 4 items.length ++ itemsBytes items
  | .map entries => head 5 entries.length ++ entriesBytes entries
  | .tag number item => head 6 number ++ item.toBytes
  | .simple n => head 7 n
  | .float x => floatBytes x
termination_by structural i => i

def itemsBytes : List Item → List UInt8
  | [] => []
  | i :: rest => i.toBytes ++ itemsBytes rest
termination_by structural is => is

def entriesBytes : List (Item × Item) → List UInt8
  | [] => []
  | (k, v) :: rest => k.toBytes ++ v.toBytes ++ entriesBytes rest
termination_by structural es => es

end

/-- The canonical map of texts: shorter keys first, then by bytes. -/
def Item.ofFields (entries : List (String × Item)) : Item :=
  let before (a b : String × Item) : Bool :=
    a.1.utf8ByteSize < b.1.utf8ByteSize || (a.1.utf8ByteSize = b.1.utf8ByteSize && a.1 ≤ b.1)
  .map ((entries.mergeSort before).map fun e => (.string e.1, e.2))

/-- A way to write items as bytes and to read them back. -/
structure Codec where
  write : Item → List UInt8
  read : List UInt8 → Option Item

/-- A map with numbers as keys, without the entries that are left out. -/
def Item.ofNumbered (entries : List (Nat × Option Item)) : Item :=
  .map (entries.filterMap fun e => e.2.map fun v => (.uint e.1, v))

end Cbor
end TileMind
