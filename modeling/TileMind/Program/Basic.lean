import TileMind.Program.Instr
import TileMind.Value.Datum

/-!
# TileMind.Program.Basic

Compiled brains. A program has a function for every rule, the constants and variable names these
refer to, and tables that relate functions to pages and rules.

* `check` says whether the references of the code stay inside the tables.
-/

namespace TileMind

/-- The compiled body of one rule. -/
structure Function where
  name : String := ""
  code : Array Instr := #[]
  params : Int := 0
  maxStack : Int := 0
deriving DecidableEq, Repr, Inhabited

/-- One compiled call of a host function. -/
structure CallSite where
  fn : Int := 0
  site : Int := 0
deriving DecidableEq, Repr, Inhabited

/-- A page: its root rules and the host calls in its rules. -/
structure PageInfo where
  index : Int := 0
  id : String := ""
  name : String := ""
  roots : List Int := []
  sites : List CallSite := []
deriving DecidableEq, Repr, Inhabited

/-- The place of a rule's function in the brain. A root rule has the parent `-1`. -/
structure RuleInfo where
  path : String := ""
  func : Int := 0
  page : Int := 0
  parent : Int := 0
  locals : List Int := []
deriving DecidableEq, Repr, Inhabited

structure Program where
  version : Int := 0
  functions : Array Function := #[]
  constants : Array Datum := #[]
  vars : List String := []
  entry : Int := 0
  ruleIndex : Fields Int := {}
  pages : List PageInfo := []
  rules : List RuleInfo := []
deriving Repr, Inhabited

/-- Why a program is not accepted. -/
inductive ProgramError where
  | version (found : Int)
  | entry (entry : Int) (pages : Nat)
  | constant (site : Site) (index : Int)
  | variable (site : Site) (index : Int)
  | function (site : Site) (index : Int)
  | target (site : Site) (pc : Int)
  | root (page : String) (func : Int)
deriving DecidableEq, Repr

namespace Program

/-- The version of programs written and accepted. -/
def currentVersion : Int := 1

/-- The element at a position that may lie outside. -/
def atInt? {α : Type} (xs : List α) (i : Int) : Option α := if i < 0 then none else xs[i.toNat]?

def function? (p : Program) (i : Int) : Option Function :=
  if i < 0 then none else p.functions[i.toNat]?

def constant? (p : Program) (i : Int) : Option Datum :=
  if i < 0 then none else p.constants[i.toNat]?

def checkVersion (p : Program) : Except ProgramError Unit :=
  if p.version = currentVersion then .ok () else .error (.version p.version)

/-- Whether `i` is an index below `n`. -/
def inBounds (i : Int) (n : Nat) : Bool := 0 ≤ i && i < n

/-- Checks what one instruction refers to. -/
def checkInstr (p : Program) (length : Nat) (site : Site) (i : Instr) : Except ProgramError Unit :=
  let a := i.a.toInt
  let target := site.pc + a
  match i.op? with
  | some .pushConst | some .mapNew =>
    if inBounds a p.constants.size then .ok () else .error (.constant site a)
  | some .loadVar | some .storeVar =>
    if inBounds a p.vars.length then .ok () else .error (.variable site a)
  | some .call => if inBounds a p.functions.size then .ok () else .error (.function site a)
  | some op =>
    if op.isJump && !(0 ≤ target && target ≤ length) then .error (.target site target) else .ok ()
  | none => .ok ()

def firstError : List (Except ProgramError Unit) → Except ProgramError Unit
  | [] => .ok ()
  | .ok _ :: rest => firstError rest
  | .error e :: _ => .error e

def checkFunction (p : Program) (func : Nat) (f : Function) : Except ProgramError Unit :=
  firstError <| f.code.toList.zipIdx.map fun (i, pc) => p.checkInstr f.code.size ⟨func, pc⟩ i

def checkPage (p : Program) (page : PageInfo) : Except ProgramError Unit :=
  firstError <| page.roots.map fun func =>
    if inBounds func p.functions.size then .ok () else .error (.root page.name func)

/-- Checks that every reference stays inside the tables: version, entry page, code, root rules. -/
def check (p : Program) : Except ProgramError Unit :=
  firstError <|
    [p.checkVersion,
      if p.pages.isEmpty || inBounds p.entry p.pages.length then .ok ()
      else .error (.entry p.entry p.pages.length)] ++
    (p.functions.toList.zipIdx.map fun (f, func) => p.checkFunction func f) ++
    p.pages.map p.checkPage

/-- The position of a variable name. -/
def varIndex? (p : Program) (name : String) : Option Nat :=
  let i := p.vars.findIdx (· = name)
  if i < p.vars.length then some i else none

/-- The index of the first page with the given id or name. -/
def page? (p : Program) (key : String) : Option Int :=
  (p.pages.find? fun page => page.id = key || page.name = key).map PageInfo.index

/-- The rule compiled into a function. -/
def rule? (p : Program) (func : Int) : Option RuleInfo := p.rules.find? fun r => r.func = func

def rulePaths (p : Program) : List String := p.ruleIndex.entries.map Prod.fst

end Program

namespace ProgramError

def message : ProgramError → String
  | .version found =>
    "program version " ++ Decimal.integer found ++ " is incompatible with VM version " ++
      Decimal.integer Program.currentVersion
  | .entry index pages =>
    "entry point " ++ Decimal.integer index ++ " out of range (" ++ Decimal.digitString pages ++
      " pages)"
  | .constant site i => site.render ++ ": constant " ++ Decimal.integer i ++ " out of range"
  | .variable site i => site.render ++ ": variable " ++ Decimal.integer i ++ " out of range"
  | .function site i => site.render ++ ": function " ++ Decimal.integer i ++ " out of range"
  | .target site pc => site.render ++ ": jump target " ++ Decimal.integer pc ++ " out of range"
  | .root page func =>
    "page " ++ Text.quote page ++ ": root rule " ++ Decimal.integer func ++ " out of range"

end ProgramError

end TileMind
