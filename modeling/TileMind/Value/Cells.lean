/-!
# TileMind.Value.Cells

Numbered cells, each empty or holding a value. Cells are kept in the order in which they were first
filled.
-/

namespace TileMind

structure Cells (α : Type) where
  entries : List (Int × α) := []
deriving DecidableEq, Repr

namespace Cells

variable {α : Type}

instance : Inhabited (Cells α) := ⟨{}⟩

def get? (c : Cells α) (i : Int) : Option α := c.entries.lookup i

/-- Replaces the value of a cell that is filled. -/
def replace (i : Int) (v : α) : List (Int × α) → List (Int × α)
  | [] => []
  | e :: rest => if e.1 = i then (i, v) :: rest else e :: replace i v rest

def set (c : Cells α) (i : Int) (v : α) : Cells α :=
  if (c.get? i).isSome then ⟨replace i v c.entries⟩ else ⟨c.entries ++ [(i, v)]⟩

def erase (c : Cells α) (i : Int) : Cells α := ⟨c.entries.filter fun e => e.1 ≠ i⟩

def modify (c : Cells α) (i : Int) (f : α → α) : Cells α :=
  ⟨c.entries.map fun e => if e.1 = i then (e.1, f e.2) else e⟩

end Cells

end TileMind
