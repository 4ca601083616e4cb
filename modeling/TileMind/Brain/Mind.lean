import TileMind.Brain.Timers
import TileMind.Decimal.Read
import TileMind.Value.Cells

/-!
# TileMind.Brain.Mind

What a brain knows: its variables, the state of its call sites, its clock and timers, the page it is
on and the faults it has seen. A rule reads and writes the locals of the nearest rule around it that
declares the variable, and otherwise the globals. `world` is whatever the application keeps beside
the brain for its host functions.
-/

namespace TileMind

structure RuleState where
  info : RuleInfo
  parent : Option Int := none
  children : List Int := []
  locals : Cells Value := {}
deriving Repr, Inhabited

/-- A fault that ended the fiber of a rule. -/
structure RuleFault where
  rule : String
  tick : Nat
  fault : Nat
deriving DecidableEq, Repr, Inhabited

def RuleFault.render (h : Heap) (f : RuleFault) : String :=
  "tick " ++ Decimal.digitString f.tick ++ " rule " ++ f.rule ++ ": " ++ (h.fault f.fault).text

structure Mind (W : Type) where
  program : Program
  rules : Cells RuleState := {}
  globals : Cells Value := {}
  sites : Cells SiteState := {}
  timers : TimerQueue := {}
  clock : Clock := {}
  active : Int := 0
  pending : Option Int := none
  faults : List RuleFault := []
  world : W

namespace Mind

variable {W : Type}

/-- The rules of a program, linked to their parents. A root rule that the rule table lacks has no
path. -/
def rulesOf (p : Program) : Cells RuleState :=
  let own : Cells RuleState := p.rules.foldl (fun c r => c.set r.func { info := r }) {}
  let linked := p.rules.foldl
    (fun c r =>
      if r.parent < 0 || (c.get? r.parent).isNone then c
      else
        (c.modify r.func fun s => { s with parent := some r.parent }).modify r.parent
          fun s => { s with children := s.children ++ [r.func] })
    own
  p.pages.zipIdx.foldl
    (fun c (page, i) =>
      page.roots.foldl
        (fun c fn =>
          if (c.get? fn).isSome then c
          else c.set fn { info := { func := fn, page := (i : Int), parent := -1 } })
        c)
    linked

/-- Whether some rule declares the variable. -/
def isLocal (m : Mind W) (var : Int) : Bool := m.program.rules.any fun r => r.locals.contains var

/-- The nearest rule, from `func` outwards over at most `depth` rules, that declares a variable. -/
def ownerFrom (m : Mind W) (var : Int) : (depth : Nat) → (func : Int) → Option Int
  | 0, _ => none
  | depth + 1, func =>
    match m.rules.get? func with
    | none => none
    | some r =>
      if r.info.locals.contains var then some func
      else
        match r.parent with
        | none => none
        | some parent => m.ownerFrom var depth parent

/-- The rule whose locals hold a variable, as seen from a rule; `none` for the globals. -/
def owner? (m : Mind W) (func var : Int) : Option Int :=
  m.ownerFrom var (m.rules.entries.length + 1) func

/-- The cells that hold a variable, as seen from a rule. -/
def cells (m : Mind W) (func var : Int) : Cells Value :=
  match m.owner? func var with
  | some rule => ((m.rules.get? rule).map RuleState.locals).getD {}
  | none => m.globals

/-- Changes the cells that hold a variable. -/
def updateCells (m : Mind W) (func var : Int) (f : Cells Value → Cells Value) : Mind W :=
  match m.owner? func var with
  | some rule =>
    { m with rules := m.rules.modify rule fun r => { r with locals := f r.locals } }
  | none => { m with globals := f m.globals }

/-- Unset variables are nil. -/
def load (m : Mind W) (func var : Int) : Value := ((m.cells func var).get? var).getD .nil

def store (m : Mind W) (func var : Int) (v : Value) : Mind W :=
  m.updateCells func var fun c => c.set var v

def clear (m : Mind W) (func var : Int) : Mind W := m.updateCells func var fun c => c.erase var

/-- The number of a global; locals of the same name do not count. -/
def global? (m : Mind W) (name : String) : Option Nat :=
  (m.program.vars.zipIdx.find? fun (n, i) => n = name && !m.isLocal i).map Prod.snd

def globalValue? (m : Mind W) (name : String) : Option Value :=
  (m.global? name).map fun (i : Nat) => (m.globals.get? i).getD .nil

def setGlobal? (m : Mind W) (name : String) (v : Value) : Option (Mind W) :=
  (m.global? name).map fun (i : Nat) => { m with globals := m.globals.set i v }

/-- The globals by name. -/
def globalValues (m : Mind W) : Fields Value :=
  let own := m.program.vars.zipIdx.filter fun (_, (i : Nat)) => !m.isLocal i
  .ofList (own.map fun (name, (i : Nat)) => (name, (m.globals.get? i).getD .nil))

/-- The page a key means: an id or a name, or else the position of a page. -/
def page? (m : Mind W) (key : String) : Option Int :=
  match m.program.page? key with
  | some index => some index
  | none =>
    match Decimal.readInt64? key with
    | some n => if 0 ≤ n && n < m.program.pages.length then some n else none
    | none => none

/-- Where the next tick begins: on another page, unless the index is negative. -/
def setPending (m : Mind W) (index : Int) : Mind W :=
  { m with pending := if index < 0 then none else some index }

def unknownPage (key : String) : String := "brain: unknown page " ++ Text.quote key

/-- Asks for another page in the next tick. -/
def requestPage (m : Mind W) (key : String) : Option String × Mind W :=
  match m.page? key with
  | some index => (none, m.setPending index)
  | none => (some (unknownPage key), m)

def activePage? (m : Mind W) : Option PageInfo := Program.atInt? m.program.pages m.active

def record (m : Mind W) (rule : String) (fault : Nat) : Mind W :=
  { m with faults := m.faults ++ [⟨rule, m.clock.tick, fault⟩] }

/-- Notes the fault that has ended a fiber. -/
def ended (m : Mind W) (f : Fiber) : Mind W :=
  match f.state, f.fault with
  | .fault, some fault =>
    let rule := ((m.rules.get? f.entry).map fun r => r.info.path).getD (Decimal.integer f.entry)
    m.record rule fault
  | _, _ => m

/-- Sets a timer for a handle. Times wrap around after 64 bits. -/
def after (m : Mind W) (delay : Int) (handle : Nat) : Mind W :=
  { m with timers := m.timers.add (Decimal.wrap64 (m.clock.elapsed + delay)) handle }

instance : Host (Mind W) where
  load := load
  store := store
  clear := clear
  clock := Mind.clock
  siteState m site := m.sites.get? site
  setSiteState m site state := match state with
    | some state => { m with sites := m.sites.set site state }
    | none => { m with sites := m.sites.erase site }
  requestPage := requestPage
  after := some after
  ended m _ f := m.ended f
  name := "brain"

end Mind

end TileMind
