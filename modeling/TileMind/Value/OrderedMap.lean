import TileMind.Value.Scalar

/-!
# TileMind.Value.OrderedMap

Maps from scalars that remember the order in which their keys were first stored. The keys are kept in
a list beside the table of the values, and every operation changes the two one after the other. A NaN
is not itself, so what is stored under it can never be read again: the default value stands in its
place, and each such store adds a key.
-/

namespace TileMind

/-- The table holds what can be read, in no order that could be told. -/
structure OrderedMap (α : Type) where
  keys : List Scalar := []
  table : List (Scalar × α) := []
deriving DecidableEq, Repr

namespace OrderedMap

variable {α : Type}

instance : Inhabited (OrderedMap α) := ⟨{}⟩

def size (m : OrderedMap α) : Nat := m.keys.length

def get? (m : OrderedMap α) (k : Scalar) : Option α :=
  (m.table.find? fun e => e.1.same k).map Prod.snd

def contains (m : OrderedMap α) (k : Scalar) : Bool := (m.get? k).isSome

/-- Stores a value in a table, unless it could never be read. -/
def store (k : Scalar) (v : α) : List (Scalar × α) → List (Scalar × α)
  | [] => if k.same k then [(k, v)] else []
  | e :: rest => if e.1.same k then (e.1, v) :: rest else e :: store k v rest

/-- Stores a value; a new key comes last. -/
def insert (m : OrderedMap α) (k : Scalar) (v : α) : OrderedMap α :=
  { keys := if m.contains k then m.keys else m.keys ++ [k]
    table := store k v m.table }

/-- Stores a value under a key that may be one. -/
def insert? (m : OrderedMap α) (k : Scalar) (v : α) : Option (OrderedMap α) :=
  if k.isPrimitive then some (m.insert k v) else none

/-- Removes a key. -/
def erase (m : OrderedMap α) (k : Scalar) : OrderedMap α :=
  if m.contains k then
    { keys := m.keys.eraseP fun a => a.same k
      table := m.table.filter fun e => !e.1.same k }
  else m

/-- Stores all pairs in turn, leaving out those whose key may not be one. -/
def ofList (pairs : List (Scalar × α)) : OrderedMap α :=
  pairs.foldl (fun m e => (m.insert? e.1 e.2).getD m) {}

/-- The keys in their order, each with what is read under it. -/
def entries [Inhabited α] (m : OrderedMap α) : List (Scalar × α) :=
  m.keys.map fun k => (k, (m.get? k).getD default)

end OrderedMap

/-- Named fields, in the order of their names. -/
structure Fields (α : Type) where
  entries : List (String × α) := []
deriving DecidableEq, Repr

namespace Fields

variable {α : Type}

instance : Inhabited (Fields α) := ⟨{}⟩

def get? (f : Fields α) (name : String) : Option α := f.entries.lookup name

/-- Stores a value in a sorted list of fields. -/
def insertInto (name : String) (v : α) : List (String × α) → List (String × α)
  | [] => [(name, v)]
  | e :: rest =>
    if name < e.1 then (name, v) :: e :: rest
    else if name = e.1 then (name, v) :: rest
    else e :: insertInto name v rest

def insert (f : Fields α) (name : String) (v : α) : Fields α := ⟨insertInto name v f.entries⟩

def ofList (pairs : List (String × α)) : Fields α :=
  pairs.foldl (fun f e => f.insert e.1 e.2) {}

end Fields

end TileMind
