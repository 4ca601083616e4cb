import TileMind.Brain.Definition
import TileMind.Config.Duration
import TileMind.Config.Toml
import TileMind.Project.Disk
import TileMind.Registry.Services
import TileMind.Tile.Catalog

/-!
# TileMind.Project.Manifest

The manifest of a project, `brain.toml`: where its definition is, how fast and under which ceilings
it runs, and which tiles are scripts. A key that means nothing is an error. `Manifest.ofToml` is one
way to decode it.
-/

namespace TileMind

-- `^` is the power that comes with the numbers, also where that of a monoid could be taken.
attribute [local instance (high)] instPowNat

/-- A tile with a script, as a manifest declares it. The timeout is in nanoseconds. -/
structure TileEntry where
  id : String := ""
  kind : String := ""
  script : String := ""
  args : List TypeId := []
  output : TypeId := ""
  timeout : Int := 0
deriving DecidableEq, Repr, Inhabited

/-- A manifest. `dir` is the directory it was found in; `limits` are as they are given. -/
structure Manifest where
  projectName : String := ""
  projectVersion : String := ""
  definition : String := ""
  entry : String := ""
  isolateChildren : Bool := false
  tickRate : Float := 0.0
  ticks : Int := 0
  limits : Limits := {}
  output : String := ""
  globals : List VarDecl := []
  tiles : List TileEntry := []
  dir : String := ""
deriving Repr, Inhabited

/-- What a decoder makes of a manifest: the fields that are given, and the keys that mean nothing. -/
structure Manifest.Decoded where
  manifest : Manifest
  unknown : List (List String) := []
deriving Repr, Inhabited

inductive ManifestError where
  | unreadable (path : String) (e : FileError)
  | malformed (path : String)
  | unknownKey (path : String) (key : List String)
  | incompleteTile (path : String) (index : Nat)
  | tileKind (path id kind : String)
deriving DecidableEq, Repr

/-- What is said of a tile of the wrong kind. -/
def TileEntry.kindMessage (id kind : String) : String :=
  "tile " ++ Text.quote id ++ ": kind must be sensor or actuator, got " ++ Text.quote kind

def ManifestError.message : ManifestError → String
  | .unreadable path e => "cannot read " ++ path ++ ": " ++ e.readMessage path
  | .malformed path => "parse error in " ++ path ++ ": invalid TOML"
  | .unknownKey path key => path ++ ": unknown key " ++ Text.quote (Toml.showKey key)
  | .incompleteTile path index =>
    path ++ ": tile " ++ Decimal.digitString index ++ " needs an id and a script"
  | .tileKind path id kind => path ++ ": " ++ TileEntry.kindMessage id kind

/-- The kind of tile that is declared; only sensors and actuators can be. -/
def TileEntry.tileKind? (t : TileEntry) : Option TileKind :=
  match t.kind with
  | "sensor" => some .sensor
  | "actuator" => some .actuator
  | _ => none

namespace Manifest

def fileName : String := "brain.toml"

/-- Ticks per second if nothing is said. -/
def standardRate : Float := 30.0

/-! ## Decoding -/

section Decode

open Toml

def textOf : Node → Option String
  | .item (.string s) => some s
  | _ => none

def intOf : Node → Option Int
  | .item (.int n) => some n
  | _ => none

def boolOf : Node → Option Bool
  | .item (.bool b) => some b
  | _ => none

/-- A number; an integer counts as one as long as it stays exact. -/
def numberOf : Node → Option Float
  | .item (.float x) => some x
  | .item (.int n) => if n.natAbs < 2 ^ (53 : Nat) then some (Decimal.ofInt n) else none
  | _ => none

def textsOf : Node → Option (List String)
  | .item (.array items) => items.mapM fun i => textOf (.item i)
  | _ => none

/-- A duration, given as a text or a lone zero. -/
def durationOf : Node → Option Int
  | .item (.string s) => Duration.read? s
  | .item (.int n) => Duration.read? (Decimal.integer n)
  | _ => none

/-- A letter without its case; two letters beyond the basic ones are cases of such. -/
def withoutCase (c : Char) : Char := if c = 'ſ' then 's' else if c = '\u212a' then 'k' else c.toLower

/-- Whether a key means a field. -/
def isField (name field : String) : Bool := name.map withoutCase = field

/-- Sets the fields of a record from the parts of a table. Parts that mean no field are left out. -/
def fill {α : Type} (fields : List (String × (Node → α → Option α)))
    (parts : List (String × Node)) (a : α) : Option α :=
  parts.foldlM
    (fun a (name, n) =>
      match fields.find? fun f => isField name f.1 with
      | some (_, set) => set n a
      | none => some a)
    a

/-- A field that is set to what a node means. -/
def field {α β : Type} (get : Node → Option β) (set : β → α → α) (n : Node) (a : α) : Option α :=
  (get n).map (set · a)

/-- Fields in a table of their own. -/
def nested {α : Type} (fields : List (String × (Node → α → Option α))) (n : Node) (a : α) :
    Option α :=
  match n with
  | .table _ parts => fill fields parts a
  | _ => none

/-- A list of records, one for each table of an array. -/
def recordsOf {β : Type} (fields : List (String × (Node → β → Option β))) (empty : β) (n : Node) :
    Option (List β) :=
  match n with
  | .tables elements => elements.mapM fun parts => fill fields parts empty
  | .item (.array []) => some []
  | _ => none

def variableFields : List (String × (Node → VarDecl → Option VarDecl)) :=
  [("name", field textOf fun s v => { v with name := s }),
    ("type", field textOf fun s v => { v with type := s })]

def tileFields : List (String × (Node → TileEntry → Option TileEntry)) :=
  [("id", field textOf fun s t => { t with id := s }),
    ("kind", field textOf fun s t => { t with kind := s }),
    ("script", field textOf fun s t => { t with script := s }),
    ("args", field textsOf fun ss t => { t with args := ss }),
    ("output", field textOf fun s t => { t with output := s }),
    ("timeout", field durationOf fun ns t => { t with timeout := ns })]

def projectFields : List (String × (Node → Manifest → Option Manifest)) :=
  [("name", field textOf fun s m => { m with projectName := s }),
    ("version", field textOf fun s m => { m with projectVersion := s })]

def brainFields : List (String × (Node → Manifest → Option Manifest)) :=
  [("definition", field textOf fun s m => { m with definition := s }),
    ("entry", field textOf fun s m => { m with entry := s }),
    ("isolate-children", field boolOf fun b m => { m with isolateChildren := b })]

def runtimeFields : List (String × (Node → Manifest → Option Manifest)) :=
  [("tick-rate", field numberOf fun x m => { m with tickRate := x }),
    ("ticks", field intOf fun n m => { m with ticks := n }),
    ("max-frames", field intOf fun n m => { m with limits := { m.limits with frames := n } }),
    ("max-stack", field intOf fun n m => { m with limits := { m.limits with stack := n } }),
    ("max-fibers", field intOf fun n m => { m with limits := { m.limits with fibers := n } }),
    ("max-handles", field intOf fun n m => { m with limits := { m.limits with handles := n } }),
    ("instr-budget", field intOf fun n m => { m with limits := { m.limits with budget := n } })]

def outputFields : List (String × (Node → Manifest → Option Manifest)) :=
  [("program", field textOf fun s m => { m with output := s })]

def fields : List (String × (Node → Manifest → Option Manifest)) :=
  [("project", nested projectFields),
    ("brain", nested brainFields),
    ("runtime", nested runtimeFields),
    ("output", nested outputFields),
    ("variables", field (recordsOf variableFields ⟨"", ""⟩) fun vs m => { m with globals := vs }),
    ("tiles", field (recordsOf tileFields {}) fun ts m => { m with tiles := ts })]

/-- The keys of a manifest and of the tables in it. -/
def knownKeys : List (String × List String) :=
  [("project", projectFields.map Prod.fst), ("brain", brainFields.map Prod.fst),
    ("runtime", runtimeFields.map Prod.fst), ("output", outputFields.map Prod.fst),
    ("variables", variableFields.map Prod.fst), ("tiles", tileFields.map Prod.fst)]

/-- Whether a key means something. -/
def isKnown (key : List String) : Bool :=
  match key with
  | [name] => knownKeys.any fun k => isField name k.1
  | [name, part] => knownKeys.any fun k => isField name k.1 && k.2.any (isField part)
  | _ => false

/-- Decodes a manifest in TOML. Keys are matched without regard to case. -/
def ofToml (bytes : List UInt8) : Option Decoded := do
  let doc ← Toml.read? (← Text.ofBytes? bytes)
  return ⟨← fill fields doc.parts {}, doc.keys.filter fun k => !isKnown k⟩

end Decode

/-! ## Loading -/

/-- Fills in what is not said. -/
def withDefaults (m : Manifest) : Manifest :=
  { m with
    definition := if m.definition = "" then "brain.yaml" else m.definition
    tickRate := if m.tickRate ≤ 0.0 then standardRate else m.tickRate }

/-- The first tile that is not declared as it should be. -/
def badTile? (path : String) (tiles : List TileEntry) : Option ManifestError :=
  tiles.zipIdx.findSome? fun (t, i) =>
    if t.id = "" || t.script = "" then some (.incompleteTile path i)
    else if t.tileKind?.isNone then some (.tileKind path t.id t.kind)
    else none

/-- What is made of a manifest that has been decoded: keys that mean nothing are errors. -/
def ofDecoded (path dir : String) (d : Decoded) : Except ManifestError Manifest :=
  match d.unknown with
  | key :: _ => .error (.unknownKey path key)
  | [] =>
    match badTile? path d.manifest.tiles with
    | some e => .error e
    | none => .ok { d.manifest with dir := dir }.withDefaults

/-- Loads the manifest in a directory, which is seen from `here`. -/
def load (toml : List UInt8 → Option Decoded) (here dir : String) :
    Disk (Except ManifestError Manifest) := do
  let path := Path.join dir fileName
  match ← Disk.readFile path with
  | .error e => return .error (.unreadable path e)
  | .ok bytes =>
    match toml bytes with
    | none => return .error (.malformed path)
    | some d => return ofDecoded path (Path.absolute here dir) d

/-- The first of some directories that has a manifest. -/
def search : List String → Disk (Option String)
  | [] => pure none
  | dir :: dirs => do
    if ← Disk.hasFile (Path.join dir fileName) then return some dir else search dirs

/-- Loads the nearest manifest in a directory or above it, if there is one. -/
def find (toml : List UInt8 → Option Decoded) (here start : String) :
    Disk (Except ManifestError (Option Manifest)) := do
  match ← search (Path.ancestors (Path.absolute here start)) with
  | none => return .ok none
  | some dir => return (← load toml here dir).map some

/-! ## Settings -/

/-- A path as seen from the manifest. -/
def path (m : Manifest) (p : String) : String :=
  if p = "" || Path.isAbsolute p then p else Path.join m.dir p

def definitionPath (m : Manifest) : String := m.path m.definition

def outputPath (m : Manifest) : String := m.path m.output

def tickInterval (m : Manifest) : Int :=
  Decimal.toInt64 (1000000000.0 / if m.tickRate ≤ 0.0 then standardRate else m.tickRate)

end Manifest

end TileMind
