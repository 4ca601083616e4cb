import TileMind.Brain.Mind
import TileMind.Machine.Scheduler

/-!
# TileMind.Brain.Basic

A running brain. Every tick of thinking advances the clock, completes what has become due, changes the
page if that was asked for, starts each root rule of the page that is not still running, and runs
all fibers.

* `think` is one tick.
* `reload` exchanges the program and keeps the globals by name.
-/

namespace TileMind

/-- Why an operation on a brain is refused. -/
inductive BrainError where
  | stopped
  | invalid (e : ProgramError)
  | invalidReload (e : ProgramError)
  | unknownPage (key : String)
  | unknownVariable (name : String)
deriving DecidableEq, Repr

def BrainError.message : BrainError → String
  | .stopped => "brain: stopped"
  | .invalid e => "brain: " ++ e.message
  | .invalidReload e => "brain: reload: " ++ e.message
  | .unknownPage key => Mind.unknownPage key
  | .unknownVariable name => "brain: unknown variable " ++ Text.quote name

/-- What ends an operation on a brain: it is refused, or the machine crashes. -/
inductive BrainFailure where
  | refused (e : BrainError)
  | crashed (c : Crash)
deriving DecidableEq, Repr

/-- A brain. `fibers` are the fibers last started for root rules. -/
structure Brain (W : Type) where
  scheduler : Scheduler (Mind W)
  limits : Limits := {}
  fibers : Cells Nat := {}
  isStopped : Bool := false

namespace Brain

variable {W : Type}

def mind (b : Brain W) : Mind W := b.scheduler.stage.host
def heap (b : Brain W) : Heap := b.scheduler.stage.heap
def program (b : Brain W) : Program := b.scheduler.machine.program
def services (b : Brain W) : Services (Stage (Mind W)) := b.scheduler.machine.services

def setStage (b : Brain W) (stage : Stage (Mind W)) : Brain W :=
  { b with scheduler := { b.scheduler with stage := stage } }

def setMind (b : Brain W) (m : Mind W) : Brain W := b.setStage { b.scheduler.stage with host := m }

/-- A brain for a program. It enters its entry page when it first thinks. -/
def create (p : Program) (svc : Services (Stage (Mind W))) (limits : Limits) (heap : Heap)
    (world : W) : Except BrainError (Brain W) :=
  match p.check with
  | .error e => .error (.invalid e)
  | .ok _ =>
    let mind : Mind W := { program := p, rules := Mind.rulesOf p, active := p.entry, world := world }
    .ok
      { scheduler := Scheduler.create p svc limits heap (mind.setPending p.entry)
        limits := limits }

/-- Completes handles whose timers are due. -/
def fireTimers (b : Brain W) : Brain W :=
  let (handles, timers) := b.mind.timers.due b.mind.clock.elapsed
  let b := b.setMind { b.mind with timers := timers }
  let stage := handles.foldl (fun (s : Stage (Mind W)) (h : Nat) => s.resolve h .void) b.scheduler.stage
  { b with scheduler := { b.scheduler with stage := stage }.deliver }

/-- Completes every handle that has a timer as cancelled. -/
def cancelTimers (b : Brain W) : Brain W :=
  let handles := b.mind.timers.timers.map Timer.handle
  let b := b.setMind { b.mind with timers := {} }
  let stage := handles.foldl
    (fun (s : Stage (Mind W)) (h : Nat) =>
      match s.cancel h with
      | .ok s => s
      | .error _ => s)
    b.scheduler.stage
  { b with scheduler := { b.scheduler with stage := stage }.deliver }

def cancelAll (b : Brain W) : Brain W := { b with scheduler := b.scheduler.cancelAll }

/-- Runs what a host function does when a page with a call of it is entered. -/
def enterSite (b : Brain W) (site : CallSite) : Brain W :=
  match (b.services.functions.get? site.fn).bind HostFunction.onPage with
  | none => b
  | some hook =>
    let stage := hook { program := b.program, func := -1, site := site.site } b.scheduler.stage
    { b with scheduler := { b.scheduler with stage := stage }.deliver }

/-- Ends every fiber and enters a page. -/
def switchPage (b : Brain W) (index : Int) : Except Crash (Brain W) :=
  let b := b.setMind { b.mind with pending := none }
  let b := { b.cancelAll with fibers := {} }.cancelTimers
  let b := b.setMind { b.mind with active := index }
  match b.mind.activePage? with
  | none => .error (.noPage index)
  | some page => .ok (page.sites.foldl enterSite b)

def isRunning (b : Brain W) (func : Int) : Bool :=
  match b.fibers.get? func with
  | some fiber => b.scheduler.isLive fiber
  | none => false

/-- Starts a root rule that is not running. -/
def startRule (b : Brain W) (func : Int) : Brain W :=
  if b.isRunning func then b
  else
    match b.scheduler.spawn func with
    | .ok (fiber, s) => { b with scheduler := s, fibers := b.fibers.set func fiber }
    | .error e =>
      let (ref, stage) := b.scheduler.stage.newFault e.fault
      let path := ((b.mind.rules.get? func).map fun r => r.info.path).getD ""
      let b := b.setStage stage
      b.setMind (b.mind.record path ref)

/-- Starts the root rules of the page. -/
def startRules (b : Brain W) : Brain W :=
  match b.mind.activePage? with
  | some page => page.roots.foldl startRule b
  | none => b

/-- The clock after a tick of the given length. -/
def advance (c : Clock) (dt : Int) : Clock :=
  { tick := c.tick + 1, elapsed := Decimal.wrap64 (c.elapsed + dt), delta := dt }

/-- One tick of the given length in nanoseconds. -/
def think (b : Brain W) (dt : Int) : Except BrainFailure (Brain W) :=
  if b.isStopped then .error (.refused .stopped)
  else
    let b := (b.setMind { b.mind with clock := advance b.mind.clock dt }).fireTimers
    let switched := match b.mind.pending with
      | some index => b.switchPage index
      | none => .ok b
    match switched with
    | .error c => .error (.crashed c)
    | .ok b =>
      let b := b.startRules
      match b.scheduler.tick with
      | .error c => .error (.crashed c)
      | .ok s => .ok { b with scheduler := s }

def requestPage (b : Brain W) (key : String) : Except BrainError (Brain W) :=
  match b.mind.requestPage key with
  | (none, m) => .ok (b.setMind m)
  | (some _, _) => .error (.unknownPage key)

theorem requestPage_eq (b : Brain W) (key : String) :
    b.requestPage key = match b.mind.page? key with
      | some index => .ok (b.setMind (b.mind.setPending index))
      | none => .error (.unknownPage key) := by
  unfold requestPage Mind.requestPage
  cases b.mind.page? key <;> rfl

def setVariable (b : Brain W) (name : String) (v : Value) : Except BrainError (Brain W) :=
  match b.mind.setGlobal? name v with
  | some m => .ok (b.setMind m)
  | none => .error (.unknownVariable name)

/-- The values of the globals by name, as a reload carries them over. -/
def carried (b : Brain W) : Except Crash (List (String × Value)) :=
  b.mind.globals.entries.mapM fun (id, v) =>
    match Program.atInt? b.program.vars id with
    | some name => .ok (name, v)
    | none => .error (.noVariable id)

/-- Gives globals their values by name; a name that is gone is left out. -/
def restore (m : Mind W) (values : List (String × Value)) : Mind W :=
  values.foldl (fun m (name, v) => (m.setGlobal? name v).getD m) m

/-- Exchanges the program, and the services if there are new ones. The globals keep their values by
name, the clock goes on, and the active page stays if the new program has it; all else starts
afresh. It tells why it has refused, and gives the brain as it is then; a crash leaves no brain. -/
def reload (b : Brain W) (p : Program) (svc : Option (Services (Stage (Mind W)))) :
    Except Crash (Option BrainError × Brain W) :=
  if b.isStopped then .ok (some .stopped, b)
  else
    match p.check with
    | .error e => .ok (some (.invalidReload e), b)
    | .ok _ =>
      match b.carried with
      | .error c => .error c
      | .ok values =>
        let current := (b.mind.activePage?.map PageInfo.id).getD ""
        let b := b.cancelAll
        let old := b.mind
        let mind : Mind W :=
          { program := p
            rules := Mind.rulesOf p
            clock := old.clock
            faults := old.faults
            world := old.world }
        let mind := restore mind values
        let index := (if current = "" then none else p.page? current).getD p.entry
        let mind := { mind with active := index }.setPending index
        .ok (none,
          { scheduler := Scheduler.create p (svc.getD b.services) b.limits b.heap mind
            limits := b.limits })

/-- Ends every fiber for good. -/
def stop (b : Brain W) : Brain W :=
  if b.isStopped then b else { b.cancelAll.cancelTimers with isStopped := true }

def post (b : Brain W) (e : Errand (Stage (Mind W))) : Brain W :=
  { b with scheduler := b.scheduler.post e }

end Brain

end TileMind
