import TileMind.Machine.Host
import TileMind.Script.Eval
import TileMind.Script.Scope

/-!
# TileMind.Script.Basic

Scripts as host functions. A script runs once per call. It sees these variables:

* `args`: a map from slots to arguments
* `state`: a map that its call site keeps from one call to the next
* `tick` and `elapsed`: the number of the tick and the seconds on the clock
* `result`: what a sensor answers, undefined at first

and it may call `switch_page` with the key of a page.
-/

namespace TileMind

/-- A script that can run. -/
structure Script where
  name : String
  body : List Script.Stmt
  maxAllocs : Option Nat := none
deriving Repr, Inhabited

namespace Script

structure CompileFailure where
  name : String
  cause : SourceError
deriving DecidableEq, Repr

def CompileFailure.message (e : CompileFailure) : String :=
  "script " ++ e.name ++ ": " ++ e.cause.message

/-- Reads a script. No ceiling of allocations means that there is none. -/
def compile (name source : String) (modules : List String := standardModules) (maxAllocs : Int := 0) :
    Except CompileFailure Script :=
  match parse source modules with
  | .error e => .error ⟨name, e⟩
  | .ok body => .ok ⟨name, body, if 0 < maxAllocs then some maxAllocs.toNat else none⟩

/-- The tag of a fault that ends a run. -/
def Stop.tag : Stop → FaultTag
  | .exhausted _ => .limitExceeded
  | .endless => .timeout
  | _ => .script

/-- The fault of a run that ended early. -/
def faultOf (s : Script) (stop : Stop) : Fault :=
  { tag := stop.tag
    message := "script " ++ s.name ++ ": " ++ stop.message
    cause := some stop.message }

/-- What a script does when it is called. -/
abbrev Runner (H : Type) := CallContext → Value → Stage H → Reply × Stage H

section Call

variable {H : Type} [Host H]

def askPage (key : String) (s : Stage H) : Option String × Stage H :=
  let (refusal, host) := Host.requestPage s.host key
  (refusal, { s with host := host })

/-- The memory of a call site and the map in it that is its state. -/
def stateOf (s : Stage H) (site : Int) : Memory × Object :=
  match Host.siteState s.host site with
  | some (.script memory root) => (memory, root)
  | _ =>
    let (root, memory) := Memory.newMap {} {}
    (memory, root)

/-- The variables of a run. -/
def givenValues (args state : Object) (clock : Clock) : List (String × Object) :=
  [("args", args), ("state", state), ("tick", .int (Decimal.wrap64 clock.tick)), ("elapsed", .float clock.seconds),
    ("result", .undefined), ("switch_page", .function .switchPage)] ++
    Callable.builtins.map fun (name, f) => (name, .function f)

/-- The run of a script at the start of a call; arguments that are no map become an empty one. -/
def start (script : Script) (c : CallContext) (args : Value) (s : Stage H) :
    Object × Run (Stage H) :=
  let (memory, root) := stateOf s c.site
  let tree := match treeOf s.heap args with
    | .map entries frozen => .map entries frozen
    | _ => Tree.map [] false
  let (argMap, memory) := link tree memory
  (root,
    { blocks := [givenValues argMap root (Host.clock s.host)]
      memory := memory
      left := script.maxAllocs
      world := s })

/-- Keeps the state of a call site. -/
def keepState (s : Stage H) (site : Int) (memory : Memory) (root : Object) : Stage H :=
  { s with host := Host.setSiteState s.host site (some (.script memory root)) }

/-- Runs a script. What it did to its state stays even if it fails; a state that is no map any more
is not kept. A result that is an error makes the call fail. -/
def call (script : Script) (c : CallContext) (args : Value) (s : Stage H) : Reply × Stage H :=
  let (root, run) := script.start c args s
  match (Eval.stmts askPage script.body).run run with
  | (.error stop, run) =>
    let (ref, s) := (keepState run.world c.site run.memory root).newFault (script.faultOf stop)
    (.fail (.fault ref), s)
  | (.ok _, run) =>
    let root := match valueIn "state" run.blocks with
      | .map ref false => .map ref false
      | _ => root
    let s := keepState run.world c.site run.memory root
    let (v, heap) := valueOf (run.memory.read (valueIn "result" run.blocks)) s.heap
    let s := { s with heap := heap }
    match v with
    | .error ref => (.fail (.fault ref), s)
    | v => (.ok v, s)

/-- A host function that answers what a script leaves in `result`. -/
def sensor (run : Runner H) (name : String) : HostFunction (Stage H) :=
  { name := name, sync := some run }

/-- A host function that runs a script for its effects. -/
def actuator (run : Runner H) (name : String) : HostFunction (Stage H) :=
  { name := name
    sync := some fun c args s =>
      match run c args s with
      | (.ok _, s) => (.ok .void, s)
      | (reply, s) => (reply, s) }

/-- Reads the source of a script and makes it ready to run. -/
def load (name : String) (source : List UInt8) : Except CompileFailure (Runner H) :=
  (compile name (Text.ofBytes source)).map call

end Call

end Script

end TileMind
