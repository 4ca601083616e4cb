import TileMind.Brain.Definition
import TileMind.Doc.Value
import TileMind.Program.Basic
import TileMind.Project.Manifest
import TileMind.Registry.Services

/-!
# TileMind.Doc.Program

Programs, definitions of brains and manifests as documents.
-/

namespace TileMind

namespace Instr

/-- An opcode by name or by byte. -/
def codeOfDoc : Doc → UInt8
  | .text s => ((Op.ofName? s).map Op.byte).getD 0
  | d => UInt8.ofNat (d.asInt % 256).toNat

def ofDoc (d : Doc) : Instr :=
  ⟨codeOfDoc (d.nth 0), Int32.ofInt (d.nth 1).asInt, Int32.ofInt (d.nth 2).asInt,
    Int32.ofInt (d.nth 3).asInt⟩

def toDoc (i : Instr) : Doc :=
  .list [.text i.name, .int i.a.toInt, .int i.b.toInt, .int i.c.toInt]

end Instr

namespace Program

/-- Reads a program; the current version and positions of pages are defaults. -/
def ofDoc (d : Doc) : Program :=
  { version := match d.get? "version" with
      | some v => v.asInt
      | none => currentVersion
    functions := ((d.itemsAt "functions").map fun f =>
      { name := f.textAt "name"
        code := ((f.itemsAt "code").map Instr.ofDoc).toArray
        params := f.intAt "params"
        maxStack := f.intAt "max_stack" : Function }).toArray
    constants := ((d.itemsAt "constants").map Datum.ofDoc).toArray
    vars := d.textsAt "vars"
    entry := d.intAt "entry"
    ruleIndex := .ofList ((d.itemsAt "rule_index").map fun e => ((e.nth 0).asText, (e.nth 1).asInt))
    pages := (d.itemsAt "pages").zipIdx.map fun (p, i) =>
      { index := match p.get? "index" with
          | some v => v.asInt
          | none => i
        id := p.textAt "id"
        name := p.textAt "name"
        roots := p.intsAt "roots"
        sites := (p.itemsAt "sites").map fun s => ⟨(s.nth 0).asInt, (s.nth 1).asInt⟩ }
    rules := (d.itemsAt "rules").map fun r =>
      { path := r.textAt "path"
        func := r.intAt "func"
        page := r.intAt "page"
        parent := r.intAt "parent"
        locals := r.intsAt "locals" } }

def toDoc (p : Program) : Doc :=
  .record
    [("version", .int p.version),
      ("functions", .each p.functions.toList fun f =>
        .record [("name", .text f.name), ("code", .each f.code.toList Instr.toDoc),
          ("params", .int f.params), ("max_stack", .int f.maxStack)]),
      ("constants", .each p.constants.toList Datum.toDoc),
      ("vars", .texts p.vars),
      ("entry", .int p.entry),
      ("rule_index", .each p.ruleIndex.entries fun e => .list [.text e.1, .int e.2]),
      ("pages", .each p.pages fun page =>
        .record [("index", .int page.index), ("id", .text page.id), ("name", .text page.name),
          ("roots", .ints page.roots),
          ("sites", .each page.sites fun s => .ints [s.fn, s.site])]),
      ("rules", .each p.rules fun r =>
        .record [("path", .text r.path), ("func", .int r.func), ("page", .int r.page),
          ("parent", .int r.parent), ("locals", .ints r.locals)])]

end Program

namespace VarDecl

def ofDoc (d : Doc) : VarDecl := ⟨(d.nth 0).asText, (d.nth 1).asText⟩
def toDoc (v : VarDecl) : Doc := .texts [v.name, v.type]

end VarDecl

namespace RuleDef

/-- Reads a rule nested at most `depth` deep. -/
def ofDocTo : (depth : Nat) → Doc → RuleDef
  | 0, _ => {}
  | depth + 1, d =>
    { whenRow := d.textAt "when"
      doRow := d.textAt "do"
      locals := (d.itemsAt "locals").map VarDecl.ofDoc
      children := (d.itemsAt "children").map (ofDocTo depth) }

def ofDoc (d : Doc) : RuleDef := ofDocTo (d.depth + 1) d

mutual

def toDoc : RuleDef → Doc
  | ⟨whenRow, doRow, locals, children⟩ =>
    .record [("when", .text (Text.ofGlyphs whenRow)), ("do", .text (Text.ofGlyphs doRow)), ("locals", .each locals VarDecl.toDoc),
      ("children", .list (toDocs children))]
termination_by structural r => r

def toDocs : List RuleDef → List Doc
  | [] => []
  | r :: rest => toDoc r :: toDocs rest
termination_by structural rs => rs

end

end RuleDef

namespace BrainDef

def ofDoc (d : Doc) : BrainDef :=
  { name := d.textAt "name"
    globals := (d.itemsAt "variables").map VarDecl.ofDoc
    entry := d.textAt "entry"
    pages := (d.itemsAt "pages").map fun p =>
      { id := p.textAt "id"
        name := p.textAt "name"
        rules := (p.itemsAt "rules").map RuleDef.ofDoc } }

def ofDoc? : Doc → Option BrainDef
  | .null => none
  | d => some (ofDoc d)

def toDoc (b : BrainDef) : Doc :=
  .record
    [("name", .text b.name), ("variables", .each b.globals VarDecl.toDoc),
      ("entry", .text b.entry),
      ("pages", .each b.pages fun p =>
        .record [("id", .text p.id), ("name", .text p.name), ("rules", .each p.rules RuleDef.toDoc)])]

end BrainDef

def Limits.ofDoc (d : Doc) : Limits :=
  ⟨d.intAt "frames", d.intAt "stack", d.intAt "fibers", d.intAt "handles", d.intAt "budget"⟩

/-! ## Manifests -/

def Limits.toDoc (l : Limits) : Doc :=
  .each [l.frames, l.stack, l.fibers, l.handles, l.budget] .int

def TileEntry.toDoc (t : TileEntry) : Doc :=
  .record
    [("id", .text t.id), ("kind", .text t.kind), ("script", .text t.script), ("args", .texts t.args),
      ("output", .text t.output), ("timeout", .int t.timeout)]

def Manifest.toDoc (m : Manifest) : Doc :=
  .record
    [("project", .texts [m.projectName, m.projectVersion]), ("definition", .text m.definition),
      ("entry", .text m.entry), ("isolate", .bool m.isolateChildren),
      ("tick_rate", .number m.tickRate), ("ticks", .int m.ticks), ("interval", .int m.tickInterval),
      ("limits", m.limits.filled.toDoc), ("output", .text m.output),
      ("variables", .each m.globals VarDecl.toDoc), ("tiles", .each m.tiles TileEntry.toDoc),
      ("dir", .text m.dir), ("def_path", .text m.definitionPath), ("out_path", .text m.outputPath)]

end TileMind
