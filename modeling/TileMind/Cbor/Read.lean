import TileMind.Cbor.Item

/-!
# TileMind.Cbor.Read

Reading one item from bytes. The bytes have to be well-formed to their end: no reserved heads, no
missing parts, no stray break, and containers nested at most 32 deep with at most 131072 items or
pairs in each.
-/

namespace TileMind
namespace Cbor

/-- The deepest nesting that is read. -/
def maxNesting : Nat := 32

/-- The most items of an array and pairs of a map that are read. -/
def maxCount : Nat := 131072

/-- Whether a container may be read: it is not nested too deep, and does not say that it is too
large. -/
def isReadable (depth : Nat) (count : Option Nat) : Bool :=
  depth < maxNesting && count.all fun n => n ≤ maxCount

/-- What the first byte of an item and the bytes after it say: the major type, the additional
information and the number, which is missing for an indefinite length. -/
structure Head where
  major : Nat
  info : Nat
  number : Option Nat
deriving DecidableEq, Repr

def splitBytes (n : Nat) (bs : List UInt8) : Option (List UInt8 × List UInt8) :=
  if bs.length < n then none else some (bs.take n, bs.drop n)

/-- The number written in bytes, the most significant first. -/
def natOfBytes (bs : List UInt8) : Nat := bs.foldl (fun n b => n * 256 + b.toNat) 0

def readHead : List UInt8 → Option (Head × List UInt8)
  | [] => none
  | b :: rest =>
    let major := b.toNat / 32
    let info := b.toNat % 32
    let wide (n : Nat) : Option (Head × List UInt8) :=
      (splitBytes n rest).map fun (number, rest) => (⟨major, info, some (natOfBytes number)⟩, rest)
    if info < 24 then some (⟨major, info, some info⟩, rest)
    else if info = 24 then wide 1
    else if info = 25 then wide 2
    else if info = 26 then wide 4
    else if info = 27 then wide 8
    else if info = 31 then some (⟨major, info, none⟩, rest)
    else none

/-- Whether the next byte ends an indefinite length. -/
def atBreak : List UInt8 → Bool
  | b :: _ => b = 0xFF
  | [] => false

/-- Reads the chunks of a string of indefinite length, at most `fuel` of them. -/
def readChunks (major : Nat) : (fuel : Nat) → List UInt8 → Option (List (List UInt8) × List UInt8)
  | 0, _ => none
  | fuel + 1, bs =>
    if atBreak bs then some ([], bs.drop 1)
    else
      match readHead bs with
      | some (⟨m, _, some n⟩, rest) =>
        if m ≠ major then none
        else
          match splitBytes n rest with
          | none => none
          | some (chunk, rest) =>
            (readChunks major fuel rest).map fun (chunks, rest) => (chunk :: chunks, rest)
      | _ => none

/-- The item of a head of the last major type. -/
def simpleItem (h : Head) : Option Item :=
  match h.number with
  | none => none
  | some n =>
    if h.info < 24 then some (.simple n)
    else if h.info = 24 then if n < 32 then none else some (.simple n)
    else if h.info = 25 then some (.float (FloatWidth.half.ofBits n))
    else if h.info = 26 then some (.float (FloatWidth.single.ofBits n))
    else some (.float (Float.ofBits (UInt64.ofNat n)))

mutual

def readItem : (fuel : Nat) → (depth : Nat) → List UInt8 → Option (Item × List UInt8)
  | 0, _, _ => none
  | fuel + 1, depth, bs =>
    match readHead bs with
    | none => none
    | some (h, rest) =>
      match h.major, h.number with
      | 0, some n => some (.uint n, rest)
      | 1, some n => some (.nint n, rest)
      | 2, some n => (splitBytes n rest).map fun (bs, rest) => (.bytes bs, rest)
      | 2, none =>
        (readChunks 2 (rest.length + 1) rest).map fun (chunks, rest) => (.bytes chunks.flatten, rest)
      | 3, some n => (splitBytes n rest).map fun (bs, rest) => (.text [bs], rest)
      | 3, none =>
        (readChunks 3 (rest.length + 1) rest).map fun (chunks, rest) => (.text chunks, rest)
      | 4, count =>
        if !isReadable depth count then none
        else (readItems fuel (depth + 1) count rest).map fun (items, rest) => (.array items, rest)
      | 5, count =>
        if !isReadable depth count then none
        else (readEntries fuel (depth + 1) count rest).map fun (es, rest) => (.map es, rest)
      | 6, some number =>
        let nested := match rest with
          | b :: _ => b.toNat / 32 = 6
          | [] => false
        if nested && maxNesting ≤ depth then none
        else
          (readItem fuel (if nested then depth + 1 else depth) rest).map
            fun (item, rest) => (.tag number item, rest)
      | 7, _ => (simpleItem h).map fun item => (item, rest)
      | _, _ => none
termination_by structural fuel => fuel

/-- Reads items: a number of them, or up to the break. -/
def readItems : (fuel : Nat) → (depth : Nat) → (count : Option Nat) → List UInt8 →
    Option (List Item × List UInt8)
  | 0, _, _, _ => none
  | fuel + 1, depth, count, bs =>
    if count = some 0 then some ([], bs)
    else if count.isNone && atBreak bs then some ([], bs.drop 1)
    else
      match readItem fuel depth bs with
      | none => none
      | some (item, rest) =>
        (readItems fuel depth (count.map (· - 1)) rest).map
          fun (items, rest) => (item :: items, rest)
termination_by structural fuel => fuel

/-- Reads pairs of items: a number of them, or up to the break. -/
def readEntries : (fuel : Nat) → (depth : Nat) → (count : Option Nat) → List UInt8 →
    Option (List (Item × Item) × List UInt8)
  | 0, _, _, _ => none
  | fuel + 1, depth, count, bs =>
    if count = some 0 then some ([], bs)
    else if count.isNone && atBreak bs then some ([], bs.drop 1)
    else
      match readItem fuel depth bs with
      | none => none
      | some (key, rest) =>
        match readItem fuel depth rest with
        | none => none
        | some (value, rest) =>
          (readEntries fuel depth (count.map (· - 1)) rest).map
            fun (entries, rest) => ((key, value) :: entries, rest)
termination_by structural fuel => fuel

end

def read? (bs : List UInt8) : Option Item :=
  match readItem (2 * bs.length + 2) 0 bs with
  | some (item, []) => some item
  | _ => none

/-- Items as their canonical bytes. -/
def canonical : Codec where
  write := Item.toBytes
  read := read?

end Cbor
end TileMind
