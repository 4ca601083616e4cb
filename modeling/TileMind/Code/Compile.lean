import TileMind.Code.Row
import TileMind.Code.StackDepth
import TileMind.Row.Reader

/-!
# TileMind.Code.Compile

From the definition of a brain to its program. Rules are numbered in pre-order, a rule before its
children; problems in rows are reported and compile to placeholders.

* `plan` numbers the rules of a definition and declares its variables.
* `compile` compiles each rule of the plan in turn.
-/

namespace TileMind

/-- What a definition is compiled against. An isolated child rule that fails does not fail its
parent. -/
structure CompileEnv (σ : Type) where
  services : Services σ
  catalog : Catalog
  isolateChildren : Bool := false

/-- Why nothing is compiled. -/
inductive CompileError where
  | noDefinition
  | noEnvironment
  | duplicateVariable (name : String)
  | unknownEntry (key : String)
  | assembly (rule : String) (e : AssemblerError)
  | invalid (e : ProgramError)
deriving DecidableEq, Repr

def CompileError.message : CompileError → String
  | .noDefinition => "compile: nil brain definition"
  | .noEnvironment => "compile: environment needs services and a catalog"
  | .duplicateVariable name => "compile: variable " ++ Text.quote name ++ " declared twice"
  | .unknownEntry key => "compile: entry page " ++ Text.quote key ++ " not found"
  | .assembly rule e => "compile: rule " ++ rule ++ ": " ++ e.message
  | .invalid e => "compile: " ++ e.message

/-- A rule to compile: where it stands in the brain, its rows and the locals it sees. -/
structure RuleJob where
  path : String
  page : Nat
  func : Nat
  parent : Option Nat := none
  whenRow : Text.Source := []
  doRow : Text.Source := []
  locals : List Nat := []
  chain : Chain := []
  children : List Nat := []
deriving Inhabited

/-- The plan of a brain: rules in the order of their functions, and all that was declared. -/
structure Plan where
  jobs : List RuleJob := []
  names : Names := {}
  diags : Diagnostics := []
deriving Inhabited

section

variable {σ : Type} (env : CompileEnv σ)

/-- The type of a declaration; an unknown one is reported. -/
def declaredTypeOf (v : VarDecl) (rule : String) (diags : Diagnostics) : TypeId × Diagnostics :=
  if v.type = "" then (.unknown, diags)
  else if env.services.types.contains v.type then (v.type, diags)
  else
    (.unknown, diags ++ [{
      code := .unknownType
      severity := .error
      message := "variable $" ++ v.name ++ " has unknown type " ++ Text.quote v.type
      rule := rule }])

/-- Declares the globals; no two may share a name. -/
def declareGlobals : List VarDecl → Plan → Except CompileError Plan
  | [], p => .ok p
  | v :: rest, p =>
    if (p.names.globals.lookup v.name).isSome then .error (.duplicateVariable v.name)
    else
      let (type, diags) := declaredTypeOf env v "" p.diags
      let (_, names) := p.names.addGlobal v.name type true
      declareGlobals rest { p with names := names, diags := diags }

/-- Declares the locals of a rule. A name that is declared twice means its first declaration. -/
def declareLocals (path : String) : List VarDecl → Locals → Plan → Locals × Plan
  | [], locals, p => (locals, p)
  | v :: rest, locals, p =>
    if (locals.lookup v.name).isSome then
      let d : Diagnostic :=
        { code := .unknownVariable
          severity := .warning
          message := "local $" ++ v.name ++ " declared twice"
          rule := path }
      declareLocals path rest locals { p with diags := p.diags ++ [d] }
    else
      let (id, names) := p.names.add v.name
      let (type, diags) := declaredTypeOf env v path p.diags
      declareLocals path rest (locals ++ [(v.name, ⟨id, type, true⟩)])
        { p with names := names, diags := diags }

/-- The path of the `i`-th rule below `path`. -/
def childPath (path : String) (i : Nat) : String := path ++ "/" ++ Decimal.digitString i

/-- Sets the children of the rule that has the given number. -/
def Plan.setChildren (p : Plan) (func : Nat) (children : List Nat) : Plan :=
  { p with jobs := p.jobs.modify func fun job => { job with children := children } }

mutual

/-- Adds a rule and everything below it, and gives its number. -/
def planRule (page : Nat) : RuleDef → (path : String) → (parent : Option Nat) → Chain → Plan →
    Nat × Plan
  | ⟨whenRow, doRow, declared, children⟩, path, parent, chain, p =>
    let func := p.jobs.length
    let (locals, p) := declareLocals env path declared [] p
    let job : RuleJob :=
      { path := path
        page := page
        func := func
        parent := parent
        whenRow := whenRow
        doRow := doRow
        locals := declared.map fun v => ((locals.lookup v.name).map Binding.id).getD 0
        chain := locals :: chain }
    let p := { p with jobs := p.jobs ++ [job] }
    let (funcs, p) := planRules page children path 0 (some func) (locals :: chain) p
    (func, p.setChildren func funcs)
termination_by structural r => r

def planRules (page : Nat) : List RuleDef → (path : String) → (i : Nat) → (parent : Option Nat) →
    Chain → Plan → List Nat × Plan
  | [], _, _, _, _, p => ([], p)
  | r :: rest, path, i, parent, chain, p =>
    let (func, p) := planRule page r (childPath path i) parent chain p
    let (funcs, p) := planRules page rest path (i + 1) parent chain p
    (func :: funcs, p)
termination_by structural rs => rs

end

/-- A page as far as it is known before its rules are compiled. -/
def PageDef.info (d : PageDef) (index : Nat) (roots : List Nat) : PageInfo :=
  let id := if d.id = "" then Decimal.digitString index else d.id
  { index := index
    id := id
    name := if d.name = "" then id else d.name
    roots := roots.map Int.ofNat }

/-- Adds the rules of the pages from the `i`-th one on. -/
def planPages : List PageDef → (i : Nat) → Plan → List PageInfo × Plan
  | [], _, p => ([], p)
  | d :: rest, i, p =>
    let (roots, p) := planRules env i d.rules (Decimal.digitString i) 0 none [] p
    let (pages, p) := planPages rest (i + 1) p
    (d.info i roots :: pages, p)

/-- The last page with the given id or name. -/
def entryPage? (pages : List PageInfo) (key : String) : Option Int :=
  (pages.reverse.find? fun p => p.id = key || p.name = key).map PageInfo.index

/-- The page a brain starts on. -/
def entryPage (pages : List PageInfo) (key : String) : Except CompileError Int :=
  if key = "" then .ok 0
  else
    match entryPage? pages key with
    | some index => .ok index
    | none => .error (.unknownEntry key)

/-- The plan of a definition, with its pages and the page it starts on. -/
def plan (d : BrainDef) : Except CompileError (List PageInfo × Int × Plan) := do
  let p ← declareGlobals env d.globals {}
  let (pages, p) := planPages env d.pages 0 p
  let entry ← entryPage pages d.entry
  return (pages, entry, p)

/-- The state of a compilation between rules: what was generated and the last node number. -/
structure Progress where
  generated : Generated := {}
  lastNode : Nat := 0
deriving Inhabited

/-- Reads and types both rows of a rule. -/
def readRule (job : RuleJob) (p : Progress) : Row.Expr × Row.Expr × Row.TypeTable × Progress :=
  let names := p.generated.names
  let (cond, r) := Row.readRow env.catalog job.path job.whenRow p.lastNode p.generated.diags
  let (action, r) := Row.readRow env.catalog job.path job.doRow r.lastId r.diags
  let scope : Row.TypeScope σ :=
    { services := env.services, vars := names.typeOf? job.chain, rule := job.path }
  let t := Row.typeExpr scope action (Row.typeExpr scope cond ⟨{}, r.diags⟩)
  (cond, action, t.table,
    { generated := { p.generated with diags := t.diags }, lastNode := r.lastId })

/-- Emits the code of a rule and resolves its labels. -/
def assembleRule (body : Emit Unit) (g : Generated) : Except AssemblerError (Array Instr × Generated) := do
  let ((), s) ← body.run { generated := g }
  let code ← s.assembler.finish.1
  return (code, s.generated)

/-- Compiles one rule. A rule without a condition always runs. -/
def compileRule (job : RuleJob) (p : Progress) : Except CompileError (Function × Progress) :=
  let (cond, action, types, p) := readRule env job p
  let scope : RuleScope := ⟨types, job.chain, job.path⟩
  let body := emitRule (if cond.isEmpty then Emit.push (.bool true) else Row.emit scope cond)
    (Row.emit scope action) (emitChildren env.isolateChildren job.children)
  match assembleRule body p.generated with
  | .error e => .error (.assembly job.path e)
  | .ok (code, g) =>
    .ok ({ name := job.path, code := code, maxStack := maxStackDepth code }, { p with generated := g })

def RuleJob.info (job : RuleJob) : RuleInfo :=
  { path := job.path
    func := job.func
    page := job.page
    parent := (job.parent.map Int.ofNat).getD (-1)
    locals := job.locals.map Int.ofNat }

/-- Compiles rules in turn, and notes the page of each call site. -/
def compileRules :
    List RuleJob → Progress → Except CompileError (List Function × List (Nat × CallSite) × Progress)
  | [], p => return ([], [], p)
  | job :: rest, p => do
    let (f, p) ← compileRule env job { p with generated := { p.generated with sites := [] } }
    let sites := p.generated.sites.map fun site => (job.page, site)
    let (fs, more, p) ← compileRules rest p
    return (f :: fs, sites ++ more, p)

def compile (d : BrainDef) : Except CompileError (Program × Diagnostics) := do
  let (pages, entry, plan) ← plan env d
  let start : Progress := { generated := { names := plan.names, diags := plan.diags } }
  let (functions, sites, p) ← compileRules env plan.jobs start
  let program : Program :=
    { version := Program.currentVersion
      functions := functions.toArray
      constants := p.generated.pool.values
      vars := p.generated.names.list
      entry := entry
      ruleIndex := .ofList (plan.jobs.map fun job => (job.path, (job.func : Int)))
      pages := pages.zipIdx.map fun (page, i) =>
        { page with sites := (sites.filter fun s => s.1 = i).map Prod.snd }
      rules := plan.jobs.map RuleJob.info }
  match program.check with
  | .ok _ => return (program, p.generated.diags)
  | .error e => throw (.invalid e)

end

/-- Compiles a definition that may be missing, in an environment that may be missing. -/
def compileGiven {σ : Type} (d : Option BrainDef) (env : Option (CompileEnv σ)) :
    Except CompileError (Program × Diagnostics) :=
  match d, env with
  | none, _ => .error .noDefinition
  | _, none => .error .noEnvironment
  | some d, some env => compile env d

end TileMind
