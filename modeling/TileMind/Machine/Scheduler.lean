import TileMind.Machine.Run

/-!
# TileMind.Machine.Scheduler

Cooperative scheduling. Runnable fibers run in turn. A fiber that yields or spends its budget goes on
in the next tick; a fiber whose handle is completed goes on in the current one. Errands posted from
outside run at the start of a tick.
-/

namespace TileMind

-- `^` is the power that comes with the numbers, also where that of a monoid could be taken.
attribute [local instance (high)] instPowNat

variable {H : Type}

/-- Work posted for the start of the next tick. It may post further errands. -/
inductive Errand (S : Type) where
  | mk (run : S → S × List (Errand S))

def Errand.run {S : Type} : Errand S → S → S × List (Errand S)
  | .mk run => run

/-- The fibers of a stage. `live` holds those that have not ended, by increasing number; `queue` are
the ones to run in this tick, `next` those of the next one. -/
structure Scheduler (H : Type) where
  machine : Machine H
  stage : Stage H
  live : List Fiber := []
  lastId : Nat := 0
  queue : List Nat := []
  next : List Nat := []
  inbox : List (Errand (Stage H)) := []

/-- Why no fiber is spawned. -/
inductive SpawnError where
  | outOfRange (func : Int)
  | tooMany (max : Int)
deriving DecidableEq, Repr

/-- The fault of a failed spawn. -/
def SpawnError.fault : SpawnError → Fault
  | .outOfRange func => .ofPlain ("scheduler: function " ++ Decimal.integer func ++ " out of range")
  | .tooMany max =>
    { tag := .limitExceeded
      message := "too many live fibers (max " ++ Decimal.integer max ++ ")" }

/-- Nothing is cancelled: no live fiber has this number. -/
structure UnknownFiber where
  id : Int
deriving DecidableEq, Repr

def UnknownFiber.message (e : UnknownFiber) : String :=
  "scheduler: unknown fiber " ++ Decimal.integer e.id

namespace Scheduler

def create (p : Program) (svc : Services (Stage H)) (limits : Limits) (heap : Heap) (host : H) :
    Scheduler H :=
  let (machine, heap) := Machine.load p svc limits heap
  { machine := machine
    stage := { heap := heap, handles := .ofMax machine.limits.handles, host := host } }

def fiber? (s : Scheduler H) (id : Int) : Option Fiber := s.live.find? fun f => (f.id : Int) = id

def isLive (s : Scheduler H) (id : Nat) : Bool := s.live.any fun f => f.id = id

def setFiber (s : Scheduler H) (f : Fiber) : Scheduler H :=
  { s with live := s.live.map fun g => if g.id = f.id then f else g }

/-- Creates a runnable fiber for a function. -/
def spawn (s : Scheduler H) (func : Int) : Except SpawnError (Nat × Scheduler H) :=
  if func < 0 || s.machine.program.functions.size ≤ func then .error (.outOfRange func)
  else if s.machine.limits.fibers ≤ s.live.length then .error (.tooMany s.machine.limits.fibers)
  else
    let id := s.lastId + 1
    .ok (id, { s with
      live := s.live ++ [Fiber.start id func]
      lastId := id
      queue := s.queue ++ [id] })

def post (s : Scheduler H) (e : Errand (Stage H)) : Scheduler H := { s with inbox := s.inbox ++ [e] }

/-- Makes a fiber runnable, if it waits for the handle. -/
def wake (handle : Nat) (s : Scheduler H) (fiber : Nat) : Scheduler H :=
  match s.fiber? fiber with
  | none => s
  | some f =>
    if f.state = .waiting && f.awaiting = handle then
      { s.setFiber { f with awaiting := 0, state := .runnable } with queue := s.queue ++ [fiber] }
    else s

def deliver (s : Scheduler H) : Scheduler H :=
  let completions := s.stage.handles.outbox
  let s := { s with stage := { s.stage with handles := { s.stage.handles with outbox := [] } } }
  completions.foldl (fun s c => c.waiters.foldl (wake c.handle) s) s

/-- Forgets a fiber that has ended: it waits for nothing any more and its handles are released. -/
def finish [Host H] (s : Scheduler H) (f : Fiber) : Scheduler H :=
  let handles := s.stage.handles
  let handles := if f.awaiting = 0 then handles
    else handles.update f.awaiting fun h => h.removeWaiter f.id
  let handles := handles.release f.id f.handles
  let host := Host.ended s.stage.host s.stage.heap f.cleared
  { s with
    stage := { s.stage with handles := handles, host := host }
    live := s.live.filter fun g => g.id ≠ f.id }

def runFiber [Host H] (s : Scheduler H) (f : Fiber) : Except Crash (Scheduler H) :=
  match s.machine.run s.machine.limits.budget f s.stage with
  | .error c => .error c
  | .ok (status, f, stage) =>
    let s := ({ s with stage := stage }.setFiber f).deliver
    match status with
    | .done | .fault => .ok (s.finish f)
    | .yielded | .budget => .ok { s with next := s.next ++ [f.id] }
    | .waiting => .ok s

/-- Does errands in turn; what they post is left for the next tick. -/
def doErrands : List (Errand (Stage H)) → Scheduler H → Scheduler H
  | [], s => s
  | e :: rest, s =>
    let (stage, more) := e.run s.stage
    doErrands rest { s with stage := stage, inbox := s.inbox ++ more }.deliver

/-- Runs the queue, at most `rounds` entries of it. -/
def drain [Host H] : (rounds : Nat) → Scheduler H → Except Crash (Scheduler H)
  | 0, s => if s.queue.isEmpty then .ok s else .error .endless
  | rounds + 1, s =>
    match s.queue with
    | [] => .ok s
    | id :: rest =>
      let s := { s with queue := rest }
      match s.fiber? id with
      | none => drain rounds s
      | some f =>
        if f.state = .runnable then
          match s.runFiber f with
          | .error c => .error c
          | .ok s => drain rounds s
        else drain rounds s

/-- The entries that one tick may add to its queue and run. -/
def maxRounds : Nat := 2 ^ (32 : Nat)

/-- One tick: errands, then every runnable fiber. -/
def tick [Host H] (s : Scheduler H) : Except Crash (Scheduler H) :=
  let s := doErrands s.inbox { s with inbox := [] }
  drain (maxRounds + (s.queue ++ s.next).length) { s with queue := s.queue ++ s.next, next := [] }

def cancelFiber [Host H] (s : Scheduler H) (f : Fiber) : Scheduler H :=
  let (ref, stage) := s.stage.newFault
    { tag := .cancelled, message := "fiber " ++ Decimal.digitString f.id ++ " cancelled" }
  { s with stage := stage }.finish { f with state := .cancelled, fault := some ref }

def cancel [Host H] (s : Scheduler H) (id : Int) : Except UnknownFiber (Scheduler H) :=
  match s.fiber? id with
  | none => .error ⟨id⟩
  | some f => .ok (s.cancelFiber f)

def cancelAll [Host H] (s : Scheduler H) : Scheduler H :=
  { s.live.foldl cancelFiber s with queue := [], next := [] }

end Scheduler

end TileMind
