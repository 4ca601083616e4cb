import TileMind.Registry.Services
import TileMind.Tile.CallSpec

/-!
# TileMind.Tile.Catalog

The tiles that rows are made of. Sensors and actuators call a host function and carry the slots of
their arguments; modifiers and parameters are arguments themselves.
-/

namespace TileMind

inductive TileKind where
  | sensor | actuator | modifier | parameter
deriving DecidableEq, Repr, Inhabited

def TileKind.name : TileKind → String
  | .sensor => "sensor"
  | .actuator => "actuator"
  | .modifier => "modifier"
  | .parameter => "parameter"

/-- A kind by its name; a name of none is taken for an actuator. -/
def TileKind.ofName (s : String) : TileKind :=
  ([TileKind.sensor, .modifier, .parameter].find? fun k => k.name = s).getD .actuator

/-- A tile. `output` is the type of what a sensor yields, `value` that of a parameter's value. -/
structure Tile where
  id : String
  kind : TileKind
  fn : Int := 0
  fnName : String := ""
  async : Bool := false
  spec : FlatSpec := {}
  output : TypeId := ""
  value : TypeId := ""
deriving DecidableEq, Repr, Inhabited

/-- Words that are no tiles. -/
def reservedWords : List String := ["true", "false", "nil"]

/-- Why a tile is not added. -/
inductive CatalogError where
  | unknownType (id : String) (type : TypeId)
  | unknownFunction (id fn : String)
  | unknownOutput (id : String) (type : TypeId)
  | noId
  | reserved (id : String)
  | duplicate (id : String)
deriving DecidableEq, Repr

def CatalogError.message : CatalogError → String
  | .unknownType id type =>
    "catalog: parameter " ++ Text.quote id ++ " has unknown type " ++ Text.quote type
  | .unknownFunction id fn =>
    "catalog: tile " ++ Text.quote id ++ ": unknown host function " ++ Text.quote fn
  | .unknownOutput id type =>
    "catalog: tile " ++ Text.quote id ++ ": unknown output type " ++ Text.quote type
  | .noId => "catalog: tile needs an id"
  | .reserved id => "catalog: " ++ Text.quote id ++ " is reserved"
  | .duplicate id => "catalog: tile " ++ Text.quote id ++ " already defined"

/-- The tiles, and the last choice number given out to one of them. -/
structure Catalog where
  tiles : List Tile := []
  lastChoice : Nat := 0
deriving Repr, Inhabited

namespace Catalog

variable {σ : Type}

def get? (c : Catalog) (id : String) : Option Tile := c.tiles.find? fun t => t.id = id

/-- The ids of all tiles, sorted. -/
def ids (c : Catalog) : List String := (c.tiles.map Tile.id).mergeSort (fun a b => a ≤ b)

def add (c : Catalog) (t : Tile) : Except CatalogError Catalog :=
  if t.id = "" then .error .noId
  else if reservedWords.contains t.id then .error (.reserved t.id)
  else if (c.get? t.id).isSome then .error (.duplicate t.id)
  else .ok { c with tiles := c.tiles ++ [t] }

/-- An anonymous argument without a type takes any value. -/
def typed (s : Slot) : Slot :=
  if s.arg.kind = .anonymous && s.arg.type = "" then
    { s with arg := { s.arg with type := .unknown } }
  else s

/-- Adds a tile that calls a host function. -/
def addCall (c : Catalog) (svc : Services σ) (t : Tile) (fn : String) (spec : Option CallSpec) :
    Except CatalogError Catalog :=
  match svc.functions.find? fn with
  | none => .error (.unknownFunction t.id fn)
  | some i =>
    if t.output ≠ .void && !svc.types.contains t.output then
      .error (.unknownOutput t.id t.output)
    else
      let (flat, last) := CallSpec.flatten spec c.lastChoice
      let async := ((svc.functions.get? i).bind HostFunction.async).isSome
      { c with lastChoice := last }.add
        { t with
          fn := i
          fnName := fn
          async := async
          spec := { flat with slots := flat.slots.map typed } }

def addSensor (c : Catalog) (svc : Services σ) (id fn : String) (spec : Option CallSpec)
    (output : TypeId) : Except CatalogError Catalog :=
  c.addCall svc { id := id, kind := .sensor, output := output } fn spec

def addActuator (c : Catalog) (svc : Services σ) (id fn : String) (spec : Option CallSpec) :
    Except CatalogError Catalog :=
  c.addCall svc { id := id, kind := .actuator, output := .void } fn spec

def addModifier (c : Catalog) (id : String) : Except CatalogError Catalog :=
  c.add { id := id, kind := .modifier, value := .number }

def addParameter (c : Catalog) (svc : Services σ) (id : String) (type : TypeId) :
    Except CatalogError Catalog :=
  if svc.types.contains type then c.add { id := id, kind := .parameter, value := type }
  else .error (.unknownType id type)

end Catalog

end TileMind
