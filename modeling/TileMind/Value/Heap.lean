import TileMind.Value.Datum

/-!
# TileMind.Value.Heap

Values as a running brain sees them. Lists, maps, structs and faults have an identity: copies of
such a value share one object, and a change through one of them is seen through all. The objects
live in a heap and values refer to them by number.

* `snapshot` reads a value as a datum, `link` builds a value from one.
* `render?` shows a value.
* `deepCopy?` gives a value of its own objects; faults stay shared.

Showing and copying follow the objects of a value without looking back, so for a value that contains
itself there is no answer.
-/

namespace TileMind

inductive Value where
  | scalar (s : Scalar)
  | list (type : TypeId) (ref : Nat)
  | map (type : TypeId) (ref : Nat)
  | struct (type : TypeId) (ref : Nat)
  | handle (id : Int)
  | error (ref : Nat)
deriving DecidableEq, Repr

namespace Value

instance : Inhabited Value := ⟨.scalar .unknown⟩

def unknown : Value := .scalar .unknown
def void : Value := .scalar .void
def nil : Value := .scalar .nil
def bool (b : Bool) : Value := .scalar (.bool b)
def number (x : Float) : Value := .scalar (.number x)
def int (n : Int) : Value := .scalar (.int n)
def string (s : String) : Value := .scalar (.string s)
def enum (type : TypeId) (key : String) : Value := .scalar (.enum type key)

/-- The value of a handle whose number is kept as a number of the language: past `2^53` it is
rounded. -/
def ofHandle (id : Int) : Value := .handle (Decimal.toInt64 (Decimal.ofInt id))

def kind : Value → Kind
  | .scalar s => s.kind.kind
  | .list _ _ => .list
  | .map _ _ => .map
  | .struct _ _ => .struct
  | .handle _ => .handle
  | .error _ => .error

def typeId : Value → TypeId
  | .scalar s => s.typeId
  | .list t _ | .map t _ | .struct t _ => t
  | .handle _ | .error _ => .unknown

def isPrimitive (v : Value) : Bool := v.kind.isPrimitive

def scalar? : Value → Option Scalar
  | .scalar s => some s
  | _ => none

def number? : Value → Option Float
  | .scalar s => s.number?
  | _ => none

def bool? : Value → Option Bool
  | .scalar s => s.bool?
  | _ => none

def string? : Value → Option String
  | .scalar s => s.string?
  | _ => none

/-- The numeric payload, whatever the kind. -/
def rawNumber : Value → Float
  | .scalar s => s.num
  | .handle id => Decimal.ofInt id
  | _ => 0.0

/-- The text payload, whatever the kind. -/
def rawText : Value → String
  | .scalar s => s.text
  | _ => ""

def enumKey : Value → String
  | .scalar s => if s.kind = .enum then s.text else ""
  | _ => ""

/-- The test of conditions. -/
def truthy : Value → Bool
  | .scalar s => s.truthy
  | .error _ => false
  | _ => true

/-- Scalars are equal when kind and payloads agree, objects when they are the same one. -/
def equal : Value → Value → Bool
  | .scalar a, .scalar b => a.same b
  | .list _ a, .list _ b => a = b
  | .map _ a, .map _ b => a = b
  | .struct _ a, .struct _ b => a = b
  | .handle a, .handle b => a = b
  | .error a, .error b => a = b
  | _, _ => false

end Value

/-- The objects of a running brain. -/
structure Heap where
  lists : Array (List Value) := #[]
  maps : Array (OrderedMap Value) := #[]
  structs : Array (Fields Value) := #[]
  faults : Array Fault := #[]

namespace Heap

instance : Inhabited Heap := ⟨{}⟩

def list (h : Heap) (ref : Nat) : List Value := h.lists.getD ref []
def map (h : Heap) (ref : Nat) : OrderedMap Value := h.maps.getD ref {}
def struct (h : Heap) (ref : Nat) : Fields Value := h.structs.getD ref {}
def fault (h : Heap) (ref : Nat) : Fault := h.faults.getD ref default

def setList (h : Heap) (ref : Nat) (items : List Value) : Heap :=
  { h with lists := h.lists.setIfInBounds ref items }

def setMap (h : Heap) (ref : Nat) (m : OrderedMap Value) : Heap :=
  { h with maps := h.maps.setIfInBounds ref m }

def setStruct (h : Heap) (ref : Nat) (f : Fields Value) : Heap :=
  { h with structs := h.structs.setIfInBounds ref f }

def setFault (h : Heap) (ref : Nat) (f : Fault) : Heap :=
  { h with faults := h.faults.setIfInBounds ref f }

def newList (h : Heap) (type : TypeId) (items : List Value) : Value × Heap :=
  (.list type h.lists.size, { h with lists := h.lists.push items })

def newMap (h : Heap) (type : TypeId) (m : OrderedMap Value := {}) : Value × Heap :=
  (.map type h.maps.size, { h with maps := h.maps.push m })

def newStruct (h : Heap) (type : TypeId) (f : Fields Value := {}) : Value × Heap :=
  (.struct type h.structs.size, { h with structs := h.structs.push f })

def newFault (h : Heap) (f : Fault) : Nat × Heap :=
  (h.faults.size, { h with faults := h.faults.push f })

/-- The number of containers: no path through an acyclic heap is longer. -/
def size (h : Heap) : Nat := h.lists.size + h.maps.size + h.structs.size

/-- Reads a value as a datum, down to `depth` levels of containers. -/
def snapshotTo (h : Heap) : (depth : Nat) → Value → Datum
  | _, .scalar s => .scalar s
  | _, .handle id => .handle id
  | _, .error ref => .error (h.fault ref)
  | 0, _ => .scalar .unknown
  | depth + 1, .list t ref => .list t ((h.list ref).map (h.snapshotTo depth))
  | depth + 1, .map t ref =>
    .map t ((h.map ref).entries.map fun e => (e.1, h.snapshotTo depth e.2))
  | depth + 1, .struct t ref =>
    .struct t ((h.struct ref).entries.map fun e => (e.1, h.snapshotTo depth e.2))

/-- The value as a datum. -/
def snapshot (h : Heap) (v : Value) : Datum := h.snapshotTo (h.size + 1) v

/-- How a value is shown, if no more than `depth` lists and maps lie in each other. What is in a struct
is not shown. -/
def renderTo (h : Heap) : (depth : Nat) → Value → Option String
  | _, .scalar s => some s.render
  | _, .struct t _ => some ("<" ++ t ++ ">")
  | _, .handle id => some ("<handle " ++ Decimal.integer id ++ ">")
  | _, .error ref => some ("<error " ++ (h.fault ref).text ++ ">")
  | 0, _ => none
  | depth + 1, .list _ ref => do
    let items ← (h.list ref).mapM (h.renderTo depth)
    return "[" ++ ", ".intercalate items ++ "]"
  | depth + 1, .map _ ref => do
    let entries ← (h.map ref).entries.mapM fun e =>
      (h.renderTo depth e.2).map fun text => e.1.render ++ ": " ++ text
    return "\x7b" ++ ", ".intercalate entries ++ "\x7d"

/-- How a value is shown. For one that contains itself that never ends. -/
def render? (h : Heap) (v : Value) : Option String := h.renderTo (h.size + 1) v

mutual

/-- Builds a value from a datum out of fresh objects. -/
def link : Datum → Heap → Value × Heap
  | .scalar s, h => (.scalar s, h)
  | .handle id, h => (.handle id, h)
  | .error fault, h =>
    let (ref, h) := h.newFault fault
    (.error ref, h)
  | .list t items, h =>
    let (values, h) := linkItems items h
    h.newList t values
  | .map t entries, h =>
    let (pairs, h) := linkEntries entries h
    h.newMap t (.ofList pairs)
  | .struct t fields, h =>
    let (pairs, h) := linkFields fields h
    h.newStruct t (.ofList pairs)
termination_by structural d => d

def linkItems : List Datum → Heap → List Value × Heap
  | [], h => ([], h)
  | d :: rest, h =>
    let (v, h) := link d h
    let (vs, h) := linkItems rest h
    (v :: vs, h)
termination_by structural ds => ds

def linkEntries : List (Scalar × Datum) → Heap → List (Scalar × Value) × Heap
  | [], h => ([], h)
  | (k, d) :: rest, h =>
    let (v, h) := link d h
    let (vs, h) := linkEntries rest h
    ((k, v) :: vs, h)
termination_by structural es => es

def linkFields : List (String × Datum) → Heap → List (String × Value) × Heap
  | [], h => ([], h)
  | (k, d) :: rest, h =>
    let (v, h) := link d h
    let (vs, h) := linkFields rest h
    ((k, v) :: vs, h)
termination_by structural fs => fs

end

/-- Copies the values of a list of pairs in turn. -/
def copyAll {κ : Type} (copy : Value → Heap → Option (Value × Heap)) :
    List (κ × Value) → Heap → Option (List (κ × Value) × Heap)
  | [], h => some ([], h)
  | (k, v) :: rest, h => do
    let (v, h) ← copy v h
    let (vs, h) ← copyAll copy rest h
    return ((k, v) :: vs, h)

/-- Copies a value, if no more than `depth` of its containers lie in each other. What is copied is read in
`source`: new objects do not change it. -/
def deepCopyTo (source : Heap) : (depth : Nat) → Value → Heap → Option (Value × Heap)
  | _, .scalar s, h => some (.scalar s, h)
  | _, .handle id, h => some (.handle id, h)
  | _, .error ref, h => some (.error ref, h)
  | 0, _, _ => none
  | depth + 1, .list t ref, h => do
    let (pairs, h) ← copyAll (source.deepCopyTo depth) ((source.list ref).map fun v => ((), v)) h
    return h.newList t (pairs.map Prod.snd)
  | depth + 1, .map t ref, h => do
    let (pairs, h) ← copyAll (source.deepCopyTo depth) (source.map ref).entries h
    return h.newMap t (.ofList pairs)
  | depth + 1, .struct t ref, h => do
    let (pairs, h) ← copyAll (source.deepCopyTo depth) (source.struct ref).entries h
    return h.newStruct t ⟨pairs⟩

/-- A copy of the value in which every container is fresh. There is none of a value that contains
itself. -/
def deepCopy? (v : Value) (h : Heap) : Option (Value × Heap) := h.deepCopyTo (h.size + 1) v h

/-- The argument map of a call by position. -/
def positionalArgs (values : List Value) (h : Heap) : Value × Heap :=
  h.newMap .args (.ofList (values.zipIdx.map fun (v, i) => (.int i, v)))

/-- Argument `i` of a call: nil if there is none. -/
def argAt (h : Heap) (args : Value) (i : Int) : Value :=
  match args with
  | .map _ ref => ((h.map ref).get? (.int i)).getD .nil
  | _ => .nil

end Heap

end TileMind
