import TileMind.Script.Basic
import TileMind.Tile.Catalog

/-!
# TileMind.Script.Tile

Sensors and actuators that are scripts.
-/

namespace TileMind

/-- A tile and the script behind it. Its arguments have no names; a sensor without a type of output
answers anything. -/
structure ScriptTile where
  id : String
  kind : TileKind
  source : List UInt8
  args : List TypeId := []
  output : TypeId := ""
deriving DecidableEq, Repr, Inhabited

/-- Why a scripted tile is not installed. -/
inductive ScriptTileError where
  | script (e : Script.CompileFailure)
  | function (e : FunctionError)
  | tile (e : CatalogError)
  | unscriptable (id : String) (kind : TileKind)
deriving DecidableEq, Repr

def ScriptTileError.message : ScriptTileError → String
  | .script e => e.message
  | .function e => e.message
  | .tile e => e.message
  | .unscriptable id kind => "script " ++ id ++ ": tile kind " ++ kind.name ++ " cannot be scripted"

/-- Whether reading the script broke the reader. -/
def ScriptTileError.isCrash : ScriptTileError → Bool
  | .script e => e.cause.isCrash
  | _ => false

namespace ScriptTile

variable {H : Type}

/-- The slots of a scripted tile. -/
def spec (t : ScriptTile) : Option CallSpec :=
  if t.args.isEmpty then none else some (.seq (t.args.map .anon))

/-- The name of the host function of a scripted tile. -/
def functionName (t : ScriptTile) : String := "script." ++ t.id

/-- Registers a host function, then adds its tile. -/
def register (svc : Services (Stage H)) (f : HostFunction (Stage H))
    (add : Services (Stage H) → Except CatalogError Catalog) :
    Except ScriptTileError (Services (Stage H) × Catalog) :=
  match svc.functions.register f with
  | .error e => .error (.function e)
  | .ok (_, functions) =>
    let svc := { svc with functions := functions }
    match add svc with
    | .error e => .error (.tile e)
    | .ok c => .ok (svc, c)

/-- Makes the script ready with `load`, registers its host function and adds its tile. -/
def install (t : ScriptTile)
    (load : (name : String) → (source : List UInt8) → Except Script.CompileFailure (Script.Runner H))
    (svc : Services (Stage H)) (c : Catalog) : Except ScriptTileError (Services (Stage H) × Catalog) :=
  match load t.functionName t.source with
  | .error e => .error (.script e)
  | .ok run =>
    match t.kind with
    | .sensor =>
      register svc (Script.sensor run t.functionName) fun svc =>
        c.addSensor svc t.id t.functionName t.spec (if t.output = "" then .unknown else t.output)
    | .actuator =>
      register svc (Script.actuator run t.functionName) fun svc =>
        c.addActuator svc t.id t.functionName t.spec
    | kind => .error (.unscriptable t.id kind)

end ScriptTile

end TileMind
