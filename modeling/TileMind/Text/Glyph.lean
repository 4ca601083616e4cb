/-!
# TileMind.Text.Glyph

Text as it arrives: a sequence of characters in which some bytes may belong to no character.
A row is read glyph by glyph, so that offsets count bytes and columns count characters even when
the bytes are not well-formed.

* `decode` reads any byte string; a byte that starts no character stands alone.
* `glyphs` is the same view of well-formed text.
-/

namespace TileMind
namespace Text

/-- A character, or a byte that is part of no character. -/
inductive Glyph where
  | char (c : Char)
  | stray (byte : UInt8)
deriving DecidableEq, Repr, Inhabited

/-- What is shown in place of a byte that is part of no character. -/
def replacement : Char := Char.ofNat 0xFFFD

namespace Glyph

/-- The number of bytes the glyph takes. -/
def size : Glyph → Nat
  | .char c => c.utf8Size
  | .stray _ => 1

/-- The character the glyph is read as. -/
def shown : Glyph → Char
  | .char c => c
  | .stray _ => replacement

end Glyph

/-- A text some bytes of which may belong to no character. -/
abbrev Source := List Glyph

/-- The glyphs of well-formed text. -/
def glyphs (s : String) : Source := s.toList.map .char

instance : Coe String Source := ⟨glyphs⟩

/-- The bytes of a text. -/
def bytes (s : String) : List UInt8 := s.toUTF8.toList

/-- Whether `b` may continue a character, within the given bounds. -/
def continues (b : UInt8) (lo : UInt8 := 0x80) (hi : UInt8 := 0xBF) : Bool :=
  lo ≤ b && b ≤ hi

/-- The six payload bits of a continuation byte. -/
def payload (b : UInt8) : Nat := b.toNat % 64

/-- The character that starts with byte `b` and continues in `rest`. The bounds on the second byte
exclude overlong forms, surrogates and code points past the last one. -/
def lead (b : UInt8) (rest : List UInt8) : Glyph :=
  let n := b.toNat
  if n < 0x80 then .char (Char.ofNat n)
  else if 0xC2 ≤ n && n ≤ 0xDF then
    match rest with
    | b₁ :: _ =>
      if continues b₁ then .char (Char.ofNat ((n % 32) * 64 + payload b₁)) else .stray b
    | [] => .stray b
  else if 0xE0 ≤ n && n ≤ 0xEF then
    let lo : UInt8 := if n = 0xE0 then 0xA0 else 0x80
    let hi : UInt8 := if n = 0xED then 0x9F else 0xBF
    match rest with
    | b₁ :: b₂ :: _ =>
      if continues b₁ lo hi && continues b₂ then
        .char (Char.ofNat ((n % 16) * 4096 + payload b₁ * 64 + payload b₂))
      else .stray b
    | _ => .stray b
  else if 0xF0 ≤ n && n ≤ 0xF4 then
    let lo : UInt8 := if n = 0xF0 then 0x90 else 0x80
    let hi : UInt8 := if n = 0xF4 then 0x8F else 0xBF
    match rest with
    | b₁ :: b₂ :: b₃ :: _ =>
      if continues b₁ lo hi && continues b₂ && continues b₃ then
        .char (Char.ofNat ((n % 8) * 262144 + payload b₁ * 4096 + payload b₂ * 64 + payload b₃))
      else .stray b
    | _ => .stray b
  else .stray b

/-- Decodes after skipping `skip` bytes that belong to the glyph before them. -/
def decodeFrom : (skip : Nat) → List UInt8 → List Glyph
  | _, [] => []
  | skip + 1, _ :: rest => decodeFrom skip rest
  | 0, b :: rest =>
    let g := lead b rest
    g :: decodeFrom (g.size - 1) rest

/-- The glyphs of a byte string. -/
def decode (bs : List UInt8) : List Glyph := decodeFrom 0 bs

/-- The text of a sequence of glyphs, a replacement character for each stray byte. -/
def ofGlyphs (gs : List Glyph) : String := String.ofList (gs.map Glyph.shown)

/-- The text of a byte string, a replacement character for each stray byte. -/
def ofBytes (bs : List UInt8) : String := ofGlyphs (decode bs)

/-- The text of a byte string that is well-formed throughout. -/
def ofBytes? (bs : List UInt8) : Option String :=
  let gs := decode bs
  if gs.all (fun g => match g with | .char _ => true | .stray _ => false) then some (ofGlyphs gs)
  else none

/-- The number of bytes of a text. -/
def byteLength (s : String) : Nat := s.utf8ByteSize

/-- The first `n` bytes of a text; a character cut in two leaves stray bytes. -/
def clip (n : Nat) (s : String) : List Glyph := decode ((bytes s).take n)

/-- Whether a number lies in one of the given ranges. -/
def inRanges (ranges : List (Nat × Nat)) (n : Nat) : Bool :=
  ranges.any fun r => r.1 ≤ n && n ≤ r.2

end Text
end TileMind
