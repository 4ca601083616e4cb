/-!
# TileMind.Script.Capacity

How many items an array has room for. An array that is made longer writes into the room behind its
last item as long as there is any, and moves to a larger place only then; so the room decides which
arrays share their items. Places are blocks of memory, and blocks come in fixed sizes: an array that
moves gets what is left of its block as spare room.
-/

namespace TileMind
namespace Script
namespace Capacity

/-- Bytes of one item. -/
def itemBytes : Nat := 16

/-- The sizes of small blocks in bytes. -/
def blockSizes : List Nat :=
  [8, 16, 24, 32, 48, 64, 80, 96, 112, 128, 144, 160, 176, 192, 208, 224, 240, 256, 288, 320, 352,
    384, 416, 448, 480, 512, 576, 640, 704, 768, 896, 1024, 1152, 1280, 1408, 1536, 1792, 2048, 2304,
    2688, 3072, 3200, 3456, 4096, 4864, 5120, 5376, 6144, 6528, 6784, 6912, 8192, 9472, 9728, 10240,
    10880, 12288, 13568, 14336, 16384, 18432, 19072, 20480, 21760, 24576, 27264, 28672, 32768]

/-- The size of large blocks is a multiple of this. -/
def pageBytes : Nat := 8192

/-- Bytes that a block takes for itself. -/
def headerBytes (bytes : Nat) : Nat := if bytes ≤ 512 then 0 else 8

/-- The bytes of the smallest block that has room for so many. -/
def blockBytes (bytes : Nat) : Nat :=
  let whole := bytes + headerBytes bytes
  match blockSizes.find? fun size => whole ≤ size with
  | some size => size - headerBytes bytes
  | none => (bytes + pageBytes - 1) / pageBytes * pageBytes

/-- Adds about a quarter to a capacity until so many items fit. -/
def raise (length capacity : Nat) : Nat :=
  let next := capacity + (capacity + 768) / 4
  if length ≤ next then next else raise length next
termination_by length - capacity
decreasing_by omega

/-- The capacity that an array asks for when it outgrows its own. -/
def wanted (length capacity : Nat) : Nat :=
  if 2 * capacity < length then length
  else if capacity < 256 then 2 * capacity
  else raise length capacity

/-- The capacity that an array gets when it outgrows its own. -/
def grown (length capacity : Nat) : Nat := blockBytes (itemBytes * wanted length capacity) / itemBytes

/-- The capacity of an array that was filled item by item. -/
def filled : (length : Nat) → Nat
  | 0 => 0
  | length + 1 =>
    let capacity := filled length
    if length < capacity then capacity else grown (length + 1) capacity

end Capacity
end Script
end TileMind
