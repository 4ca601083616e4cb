import TileMind.Brain.Basic
import TileMind.Brain.Builtins
import TileMind.Code.Compile
import TileMind.Program.Listing
import TileMind.Program.Wire
import TileMind.Project.Definition
import TileMind.Script.Tile

/-!
# TileMind.Project.Basic

A project is what a command line points at: a manifest with all that belongs to it, a lone
definition, or a compiled program.

* `Project.build` makes the program and the services it runs with.
* `Project.rebuild` builds again and reloads a running brain.
-/

namespace TileMind

/-- A project. A definition or program that is named takes the place of the manifest's. -/
structure Project where
  manifest : Option Manifest := none
  definitionPath : String := ""
  programPath : String := ""
deriving Repr, Inhabited

inductive OpenError where
  | manifest (e : ManifestError)
  | nothing (start : String)
deriving DecidableEq, Repr

def OpenError.message : OpenError → String
  | .manifest e => e.message
  | .nothing start => "no " ++ Manifest.fileName ++ " found from " ++ start

inductive BuildError where
  | builtins (e : Builtins.InstallError)
  | tileKind (id kind : String)
  | tileScript (id path : String) (e : FileError)
  | tile (id : String) (e : ScriptTileError)
  | programFile (path : String) (e : FileError)
  | program (path : String) (e : DecodeError)
  | definition (e : DefinitionFileError)
  | noManifest
  | compile (e : CompileError)
  | diagnostics (count : Nat)
deriving Repr

def BuildError.message : BuildError → String
  | .builtins e => e.message
  | .tileKind id kind => TileEntry.kindMessage id kind
  | .tileScript id path e => "tile " ++ Text.quote id ++ ": " ++ e.readMessage path
  | .tile id e => "tile " ++ Text.quote id ++ ": " ++ e.message
  | .programFile path .isDirectory =>
    path ++ ": vm: read program: " ++ FileError.isDirectory.readMessage path
  | .programFile path e => e.readMessage path
  | .program path e => path ++ ": " ++ e.message?.getD "vm: unmarshal program: invalid CBOR"
  | .definition e => e.message
  | .noManifest => "no " ++ Manifest.fileName
  | .compile e => e.message
  | .diagnostics count => Decimal.digitString count ++ " compile errors"

/-- Whether building broke off instead of failing: a script broke its reader, or a project that was
never opened has nothing to build from. -/
def BuildError.isCrash : BuildError → Bool
  | .tile _ e => e.isCrash
  | .noManifest => true
  | _ => false

/-- What a project is read with: decoders of manifests and definitions, a codec for program files, and
a way to make a script ready to run. -/
structure Tools (H : Type) where
  toml : List UInt8 → Option Manifest.Decoded
  yaml : List UInt8 → Except Yaml.ReadError BrainDef
  codec : Cbor.Codec
  script : (name : String) → (source : List UInt8) → Except Script.CompileFailure (Script.Runner H)

/-- The tools of this library. -/
def Tools.standard {H : Type} [Host H] : Tools H where
  toml := Manifest.ofToml
  yaml := BrainDef.ofYaml
  codec := Cbor.canonical
  script := Script.load

/-- Services and tiles. -/
structure Kit (H : Type) where
  services : Services (Stage H)
  catalog : Catalog

/-- A program with the services it runs with, and how its empty lists are written. -/
structure Build (H : Type) where
  program : Program
  services : Services (Stage H)
  blanks : Wire.Blanks := {}

namespace Project

variable {H : Type}

/-- The project that a path leads to: a directory, a definition or a program. The manifest is the
one in `config`, if that is given, and else the nearest one. -/
def openAt (toml : List UInt8 → Option Manifest.Decoded) (here path config : String) :
    Disk (Except OpenError Project) := do
  let extension := (Path.extension path).toLower
  let isDefinition := extension = ".yaml" || extension = ".yml"
  let isProgram := extension = ".bbc"
  let named := if isDefinition || isProgram then Path.parent path else path
  let start := if named = "" then "." else named
  let found ←
    if config = "" then Manifest.find toml here start
    else Except.map some <$> Manifest.load toml here config
  match found with
  | .error e => return .error (.manifest e)
  | .ok manifest =>
    let p : Project :=
      { manifest := manifest
        definitionPath := if isDefinition then path else ""
        programPath := if isProgram then path else "" }
    if manifest.isNone && !isDefinition && !isProgram then return .error (.nothing start)
    else return .ok p

/-- Adds the tiles of a manifest in turn. -/
def installTiles (tools : Tools H) (m : Manifest) :
    List TileEntry → Kit H → Disk (Except BuildError (Kit H))
  | [], kit => pure (.ok kit)
  | t :: ts, kit =>
    match t.tileKind? with
    | none => pure (.error (.tileKind t.id t.kind))
    | some kind => do
      let path := m.path t.script
      match ← Disk.readFile path with
      | .error e => return .error (.tileScript t.id path e)
      | .ok bytes =>
        let tile : ScriptTile :=
          { id := t.id
            kind := kind
            source := bytes
            args := t.args
            output := t.output }
        match tile.install tools.script kit.services kit.catalog with
        | .error e => return .error (.tile t.id e)
        | .ok (services, catalog) => installTiles tools m ts ⟨services, catalog⟩

/-- The registries and tiles of a project, frozen: the core, the tiles every brain has, and those of
the manifest. -/
def kit [Host H] (p : Project) (tools : Tools H) : Disk (Except BuildError (Kit H)) := do
  match Builtins.install Core.services {} with
  | .error e => return .error (.builtins e)
  | .ok (services, catalog) =>
    let installed ← match p.manifest with
      | none => pure (.ok ⟨services, catalog⟩)
      | some m => installTiles tools m m.tiles ⟨services, catalog⟩
    return installed.map fun k => { k with services := k.services.freeze }

def definition (p : Project) (yaml : List UInt8 → Except Yaml.ReadError BrainDef) :
    Disk (Except BuildError BrainDef) := do
  if p.definitionPath ≠ "" then
    return (← BrainDef.load yaml p.definitionPath).mapError .definition
  else
    match p.manifest with
    | none => return .error .noManifest
    | some m => return (← m.loadBrain yaml).mapError .definition

def compile (p : Project) (k : Kit H) (d : BrainDef) : Diagnostics × Except BuildError (Build H) :=
  let isolate := (p.manifest.map Manifest.isolateChildren).getD false
  match TileMind.compile ⟨k.services, k.catalog, isolate⟩ d with
  | .error e => ([], .error (.compile e))
  | .ok (program, ds) =>
    if ds.hasErrors then (ds, .error (.diagnostics ds.errors.length))
    else (ds, .ok { program := program, services := k.services })

/-- Makes the program to run: decodes a compiled one, or compiles the definition. -/
def build [Host H] (p : Project) (tools : Tools H) :
    Disk (Diagnostics × Except BuildError (Build H)) := do
  match ← p.kit tools with
  | .error e => return ([], .error e)
  | .ok k =>
    if p.programPath ≠ "" then
      match ← Disk.readFile p.programPath with
      | .error e => return ([], .error (.programFile p.programPath e))
      | .ok bytes =>
        match Program.decodeFile tools.codec bytes with
        | .error e => return ([], .error (.program p.programPath e))
        | .ok (program, blanks) => return ([], .ok ⟨program, k.services, blanks⟩)
    else
      match ← p.definition tools.yaml with
      | .error e => return ([], .error e)
      | .ok d => return p.compile k d

def limits (p : Project) : Limits := ((p.manifest.map Manifest.limits).getD {}).filled

/-- The length of a tick in nanoseconds. -/
def tickInterval (p : Project) : Int := (p.manifest.map Manifest.tickInterval).getD 33333333

/-- The number of ticks to run. -/
def ticks (p : Project) : Int := (p.manifest.map Manifest.ticks).getD 0

/-- Where the compiled program goes, if anywhere. -/
def outputPath (p : Project) : String := (p.manifest.map Manifest.outputPath).getD ""

/-- The directories that hold the sources of a project, each once. -/
def watchedDirectories (p : Project) (here : String) : List String :=
  let sources := [p.definitionPath, p.programPath] ++
    match p.manifest with
    | none => []
    | some m => [Path.join m.dir Manifest.fileName, m.definitionPath] ++
      m.tiles.map fun t => m.path t.script
  ((sources.filter (· ≠ "")).map fun s => Path.absolute here (Path.parent s)).eraseDups

/-- Reads the manifest again. -/
def reload (p : Project) (toml : List UInt8 → Option Manifest.Decoded) (here : String) :
    Disk (Except ManifestError Project) := do
  match p.manifest with
  | none => return .ok p
  | some m => return (← Manifest.load toml here m.dir).map fun m => { p with manifest := some m }

/-- Why a running brain goes on with its old program. -/
inductive RebuildError where
  | manifest (e : ManifestError)
  | build (e : BuildError)
  | brain (e : BrainError)
deriving Repr

def RebuildError.message : RebuildError → String
  | .manifest e => e.message
  | .build e => e.message
  | .brain e => e.message

/-- A project and a running brain after an attempt to rebuild. -/
structure Rebuilt (W : Type) where
  project : Project
  brain : Brain W
  diagnostics : Diagnostics := []
  error : Option RebuildError := none

/-- Reads the manifest again, builds, and gives the program to a running brain. A manifest that can
be read is kept even if what follows fails. Nothing is left behind if building or the brain crashes. -/
def rebuild {W : Type} (p : Project) (tools : Tools (Mind W)) (b : Brain W) (here : String) :
    Disk (Option (Rebuilt W)) := do
  match ← p.reload tools.toml here with
  | .error e => return some { project := p, brain := b, error := some (.manifest e) }
  | .ok p =>
    match ← p.build tools with
    | (ds, .error e) =>
      if e.isCrash then return none
      else return some { project := p, brain := b, diagnostics := ds, error := some (.build e) }
    | (ds, .ok built) =>
      match b.reload built.program (some built.services) with
      | .error _ => return none
      | .ok (e, b) =>
        return some { project := p, brain := b, diagnostics := ds, error := e.map .brain }

end Project

end TileMind
