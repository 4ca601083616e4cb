import TileMind.Bench.Behaviour
import TileMind.Brain.Builtins
import TileMind.Doc.Row
import TileMind.Script.Tile

/-!
# TileMind.Bench.Setup

Services and tiles built from a description, part by part; the first part that is refused ends it.
-/

namespace TileMind

structure Setup (H : Type) where
  services : Services (Stage H) := {}
  catalog : Catalog := {}
  heap : Heap := {}

/-- Why a part is refused. -/
inductive SetupError where
  | builtins (e : Builtins.InstallError)
  | type (e : TypeRegistryError)
  | function (e : FunctionError)
  | operator (e : OperatorError)
  | conversion (e : ConversionError)
  | script (e : ScriptTileError)
  | tile (e : CatalogError)
  | grammarGap (id : String)
deriving DecidableEq, Repr

def SetupError.message : SetupError → String
  | .builtins e => e.message
  | .type e => e.message
  | .function e => e.message
  | .operator e => e.message
  | .conversion e => e.message
  | .script e => e.message
  | .tile e => e.message
  | .grammarGap id => "tile " ++ Text.quote id ++ ": a part of the grammar is missing"

namespace Setup

variable {H : Type} [Host H] [Journal H]

/-- Links the values of named fields. -/
def linkNamed : List (String × Doc) → Heap → List (String × Value) × Heap
  | [], h => ([], h)
  | (name, d) :: rest, h =>
    let (v, h) := Heap.link (.ofDoc d) h
    let (vs, h) := linkNamed rest h
    ((name, v) :: vs, h)

/-- The hooks of a struct type: fields that read as a constant, and fields whose writes are noted. -/
def hooksOf (d : Doc) (h : Heap) : Option (FieldHooks (Stage H)) × Heap :=
  match d with
  | .record _ =>
    let (read, h) := match d.get? "get" with
      | some (.record fields) =>
        let (pairs, h) := linkNamed fields h
        (some pairs, h)
      | _ => (none, h)
    let written := match d.get? "set" with
      | some (.list names) => some (names.map Doc.asText)
      | _ => none
    (some
      { get := read.map fun pairs _ name s => .ok (pairs.lookup name, s)
        set := written.map fun names _ name v s =>
          if names.contains name then
            .ok (true, s.note (.record [("hook_set", .text name), ("value", s.heap.toDoc v)]))
          else .ok (false, s) }, h)
  | _ => (none, h)

def typeOf (d : Doc) (h : Heap) : TypeDef (Stage H) × Heap :=
  match d.textAt "kind" with
  | "enum" => (.enum (d.textAt "name") (d.textsAt "keys"), h)
  | "list" => (.list (d.textAt "elem"), h)
  | "map" => (.map (d.textAt "elem"), h)
  | _ =>
    let (hooks, h) := hooksOf (d.get "hooks") h
    let fields := (d.itemsAt "fields").map fun f => ⟨(f.nth 0).asText, (f.nth 1).asText⟩
    (.struct (d.textAt "name") fields hooks, h)

/-- The number of a function, -1 for one that is not there. -/
def functionNumber (s : Setup H) (name : String) : Int :=
  match s.services.functions.find? name with
  | some i => i
  | none => -1

def addBuiltins (s : Setup H) : Except SetupError (Setup H) :=
  match Builtins.install s.services s.catalog with
  | .ok (svc, c) => .ok { s with services := svc, catalog := c }
  | .error e => .error (.builtins e)

/-- Adds a type, and gives its id. -/
def addType (s : Setup H) (d : Doc) : Except SetupError (TypeId × Setup H) :=
  let (t, heap) := typeOf d s.heap
  match s.services.types.register t with
  | .ok (id, types) => .ok (id, { s with services := { s.services with types := types }, heap := heap })
  | .error e => .error (.type e)

/-- Adds a host function, and gives its number. -/
def addFunction (s : Setup H) (d : Doc) : Except SetupError (Nat × Setup H) :=
  let (f, heap) := Behaviour.functionOf d s.heap
  match s.services.functions.register f with
  | .ok (id, fs) => .ok (id, { s with services := { s.services with functions := fs }, heap := heap })
  | .error e => .error (.function e)

def addOverload (s : Setup H) (d : Doc) : Except SetupError (Setup H) :=
  let o : Overload := ⟨d.textAt "op", d.textsAt "args", d.textAt "result",
    s.functionNumber (d.textAt "fn"), d.boolAt "async"⟩
  match s.services.operators.register o with
  | .ok ops => .ok { s with services := { s.services with operators := ops } }
  | .error e => .error (.operator e)

def addConversion (s : Setup H) (d : Doc) : Except SetupError (Setup H) :=
  let c : Conversion := ⟨d.textAt "from", d.textAt "to", d.intAt "cost",
    s.functionNumber (d.textAt "fn")⟩
  match s.services.conversions.register c with
  | .ok cs => .ok { s with services := { s.services with conversions := cs } }
  | .error e => .error (.conversion e)

/-- Adds a tile that is a script. -/
def addScript (s : Setup H) (d : Doc) : Except SetupError (Setup H) :=
  let tile : ScriptTile :=
    { id := d.textAt "id"
      kind := .ofName (d.textAt "kind")
      source := Text.bytes (d.textAt "source")
      args := d.textsAt "args"
      output := d.textAt "output" }
  match tile.install Script.load s.services s.catalog with
  | .ok (svc, c) => .ok { s with services := svc, catalog := c }
  | .error e => .error (.script e)

/-- Adds a tile. A grammar with a gap is refused, once function and types are known. -/
def addTile (s : Setup H) (d : Doc) : Except SetupError (Setup H) :=
  let id := d.textAt "id"
  let spec := CallSpec.ofDoc? (d.get "spec")
  let isCall := d.textAt "kind" ≠ "modifier" && d.textAt "kind" ≠ "parameter"
  let added := match d.textAt "kind" with
    | "modifier" => s.catalog.addModifier id
    | "parameter" => s.catalog.addParameter s.services id (d.textAt "type")
    | "sensor" => s.catalog.addSensor s.services id (d.textAt "fn") spec (d.textAt "output")
    | _ => s.catalog.addActuator s.services id (d.textAt "fn") spec
  match added, isCall && CallSpec.hasGap (d.get "spec") with
  | .error (.unknownFunction id fn), _ => .error (.tile (.unknownFunction id fn))
  | .error (.unknownOutput id type), _ => .error (.tile (.unknownOutput id type))
  | _, true => .error (.grammarGap id)
  | .ok c, false => .ok { s with catalog := c }
  | .error e, false => .error (.tile e)

def addAll (add : Setup H → Doc → Except SetupError (Setup H)) (s : Setup H) (parts : List Doc) :
    Except SetupError (Setup H) := parts.foldlM add s

def freeze (s : Setup H) : Setup H := { s with services := s.services.freeze }

/-- Builds services and tiles from a description. -/
def ofDoc (d : Doc) (heap : Heap) : Except SetupError (Setup H) := do
  let s : Setup H :=
    { services := if d.textAt "base" = "empty" then {} else Core.services, heap := heap }
  let s ← if d.boolAt "builtins" then s.addBuiltins else pure s
  let s ← s.addAll (fun s d => Prod.snd <$> s.addType d) (d.itemsAt "types")
  let s ← s.addAll (fun s d => Prod.snd <$> s.addFunction d) (d.itemsAt "fns")
  let s ← s.addAll addOverload (d.itemsAt "overloads")
  let s ← s.addAll addConversion (d.itemsAt "conversions")
  let s ← s.addAll addScript (d.itemsAt "scripts")
  s.freeze.addAll addTile (d.itemsAt "tiles")

end Setup

end TileMind
