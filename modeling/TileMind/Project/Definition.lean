import TileMind.Config.Yaml
import TileMind.Project.Manifest

/-!
# TileMind.Project.Definition

Definitions of brains in files. `BrainDef.ofYaml` is one way to decode them: a key that means nothing
is an error, and so is one that is given twice; scalars of any type are taken as they are written.
-/

namespace TileMind

inductive DefinitionError where
  | empty
  | malformed
  | noPages
deriving DecidableEq, Repr

def DefinitionError.message : DefinitionError → String
  | .empty => "empty brain definition"
  | .malformed => "invalid YAML"
  | .noPages => "brain definition has no pages"

namespace Yaml

/-- The text of a scalar; a null is an empty one. -/
def textOf (n : Node) : Option String :=
  match n with
  | .scalar text _ => some (if n.isNull then "" else text)
  | _ => none

/-- The items of a sequence; a null has none, and is none. -/
def itemsOf (n : Node) : Option (List Node) :=
  match n with
  | .sequence items => some (items.filter fun i => !i.isNull)
  | n => if n.isNull then some [] else none

/-- The text of a key and the entry it belongs to; only scalars are keys. -/
def named (entry : Node × Node) : Option (String × Node × Node) :=
  match entry.1 with
  | .scalar text _ => some (text, entry)
  | _ => none

/-- The entries of a mapping with some keys, each given once at most. What a null is the key of does
not count, and a null has no entries. -/
def entriesOf (keys : List String) (n : Node) : Option (List (String × Node)) :=
  match n with
  | .mapping entries =>
    (entries.mapM named).bind fun all =>
      let meant := all.filter fun e => !e.2.1.isNull
      if (all.map Prod.fst).eraseDups.length = all.length && meant.all fun e => keys.contains e.1 then
        some (meant.map fun e => (e.1, e.2.2))
      else none
  | n => if n.isNull then some [] else none

/-- The node of a key; a missing one is a null. -/
def valueAt (entries : List (String × Node)) (key : String) : Node := (entries.lookup key).getD .null

def variableOf (n : Node) : Option VarDecl := do
  let es ← entriesOf ["name", "type"] n
  return ⟨← textOf (valueAt es "name"), ← textOf (valueAt es "type")⟩

/-- A rule nested at most `depth` deep. -/
def ruleOf : (depth : Nat) → Node → Option RuleDef
  | 0, _ => none
  | depth + 1, n => do
    let es ← entriesOf ["when", "do", "locals", "children"] n
    return {
      whenRow := ← textOf (valueAt es "when")
      doRow := ← textOf (valueAt es "do")
      locals := ← (← itemsOf (valueAt es "locals")).mapM variableOf
      children := ← (← itemsOf (valueAt es "children")).mapM (ruleOf depth) }

def pageOf (depth : Nat) (n : Node) : Option PageDef := do
  let es ← entriesOf ["id", "name", "rules"] n
  return {
    id := ← textOf (valueAt es "id")
    name := ← textOf (valueAt es "name")
    rules := ← (← itemsOf (valueAt es "rules")).mapM (ruleOf depth) }

def brainOf (depth : Nat) (n : Node) : Option BrainDef := do
  let es ← entriesOf ["name", "variables", "pages", "entry"] n
  return {
    name := ← textOf (valueAt es "name")
    globals := ← (← itemsOf (valueAt es "variables")).mapM variableOf
    pages := ← (← itemsOf (valueAt es "pages")).mapM (pageOf depth)
    entry := ← textOf (valueAt es "entry") }

end Yaml

/-- Decodes a definition in YAML. No rule is nested deeper than its text is long. -/
def BrainDef.ofYaml (bytes : List UInt8) : Except Yaml.ReadError BrainDef :=
  match Text.ofBytes? bytes with
  | none => .error .malformed
  | some text =>
    match Yaml.read text with
    | .error e => .error e
    | .ok n =>
      match Yaml.brainOf (text.length + 1) n with
      | none => .error .malformed
      | some d => .ok d

/-- What is made of a definition that has been decoded: it has pages. -/
def BrainDef.ofDecoded : Except Yaml.ReadError BrainDef → Except DefinitionError BrainDef
  | .error .empty => .error .empty
  | .error .malformed => .error .malformed
  | .ok d => if d.pages.isEmpty then .error .noPages else .ok d

inductive DefinitionFileError where
  | unreadable (path : String) (e : FileError)
  | invalid (path : String) (e : DefinitionError)
deriving DecidableEq, Repr

def DefinitionFileError.message : DefinitionFileError → String
  | .unreadable path e => "cannot read " ++ path ++ ": " ++ e.readMessage path
  | .invalid path e => "parse error in " ++ path ++ ": " ++ e.message

def BrainDef.load (yaml : List UInt8 → Except Yaml.ReadError BrainDef) (path : String) :
    Disk (Except DefinitionFileError BrainDef) := do
  match ← Disk.readFile path with
  | .error e => return .error (.unreadable path e)
  | .ok bytes => return (ofDecoded (yaml bytes)).mapError (.invalid path)

namespace Manifest

/-- Variables of the manifest that are not declared yet, each name once. -/
def addGlobals (declared : List VarDecl) : List VarDecl → List VarDecl
  | [] => declared
  | v :: vs =>
    if declared.any fun d => d.name = v.name then addGlobals declared vs
    else addGlobals (declared ++ [v]) vs

/-- A definition with what the manifest says about it. What the definition declares, it declares
itself. -/
def complete (m : Manifest) (d : BrainDef) : BrainDef :=
  { d with
    entry := if m.entry = "" then d.entry else m.entry
    name := if d.name = "" then m.projectName else d.name
    globals := addGlobals d.globals m.globals }

def loadBrain (m : Manifest) (yaml : List UInt8 → Except Yaml.ReadError BrainDef) :
    Disk (Except DefinitionFileError BrainDef) := do
  return (← BrainDef.load yaml m.definitionPath).map m.complete

end Manifest

end TileMind
