import TileMind.Value.Heap

/-!
# TileMind.Registry.Types

The types known to a compilation and to the brain that runs it. A struct type may keep the state of
its values elsewhere: hooks then answer for its fields. `σ` is what hooks act on.
-/

namespace TileMind

/-- Access to the fields of a struct type that keeps its state elsewhere. A hook that does not
answer for a field leaves it to the fields of the value; one that breaks down says with what. -/
structure FieldHooks (σ : Type) where
  get : Option (Value → String → σ → Except String (Option Value × σ)) := none
  set : Option (Value → String → Value → σ → Except String (Bool × σ)) := none

structure FieldDef where
  name : String
  type : TypeId
deriving DecidableEq, Repr, Inhabited

structure TypeDef (σ : Type) where
  id : TypeId
  kind : Kind
  name : String
  keys : List String := []
  elem : TypeId := ""
  fields : List FieldDef := []
  hooks : Option (FieldHooks σ) := none

namespace TypeDef

variable {σ : Type}

def field? (d : TypeDef σ) (name : String) : Option FieldDef := d.fields.find? fun f => f.name = name

def hasKey (d : TypeDef σ) (key : String) : Bool := d.keys.contains key

/-- Whether some fields may exist without being declared. -/
def hasReader (d : TypeDef σ) : Bool := (d.hooks.bind FieldHooks.get).isSome

/-- Kind, element type, keys and fields agree. -/
def sameShape (a b : TypeDef σ) : Bool :=
  a.kind = b.kind && a.elem = b.elem && a.keys = b.keys && a.fields = b.fields

def enum (name : String) (keys : List String) : TypeDef σ :=
  { id := name, kind := .enum, name := name, keys := keys }

def list (elem : TypeId) : TypeDef σ :=
  let id := "list<" ++ elem ++ ">"
  { id := id, kind := .list, name := id, elem := elem }

def map (elem : TypeId) : TypeDef σ :=
  let id := "map<" ++ elem ++ ">"
  { id := id, kind := .map, name := id, elem := elem }

def struct (name : String) (fields : List FieldDef) (hooks : Option (FieldHooks σ)) : TypeDef σ :=
  { id := name, kind := .struct, name := name, fields := fields, hooks := hooks }

end TypeDef

inductive TypeRegistryError where
  | sealed (id : TypeId)
  | differentShape (id : TypeId)
deriving DecidableEq, Repr

def TypeRegistryError.message : TypeRegistryError → String
  | .sealed id => "types: registry sealed, cannot register " ++ Text.quote id
  | .differentShape id => "types: " ++ Text.quote id ++ " already registered with a different shape"

structure TypeRegistry (σ : Type) where
  types : List (TypeDef σ)
  isSealed : Bool := false

namespace TypeRegistry

variable {σ : Type}

def primitive (id : TypeId) (kind : Kind) : TypeDef σ := { id := id, kind := kind, name := id }

def initial : TypeRegistry σ :=
  ⟨[primitive .unknown .unknown, primitive .void .void, primitive .nil .nil,
    primitive .boolean .boolean, primitive .number .number, primitive .string .string,
    primitive .args .map], false⟩

def get? (r : TypeRegistry σ) (id : TypeId) : Option (TypeDef σ) := r.types.find? fun d => d.id = id

def contains (r : TypeRegistry σ) (id : TypeId) : Bool := (r.get? id).isSome

def ids (r : TypeRegistry σ) : List TypeId := (r.types.map TypeDef.id).mergeSort (fun a b => a ≤ b)

/-- Adds a type. A second type of the same id has to have the same shape, and changes nothing. -/
def register (r : TypeRegistry σ) (d : TypeDef σ) :
    Except TypeRegistryError (TypeId × TypeRegistry σ) :=
  if r.isSealed then .error (.sealed d.id)
  else
    match r.get? d.id with
    | some existing =>
      if existing.sameShape d then .ok (existing.id, r) else .error (.differentShape d.id)
    | none => .ok (d.id, { r with types := r.types ++ [d] })

def freeze (r : TypeRegistry σ) : TypeRegistry σ := { r with isSealed := true }

end TypeRegistry

end TileMind
