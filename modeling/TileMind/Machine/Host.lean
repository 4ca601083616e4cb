import TileMind.Machine.Fiber
import TileMind.Machine.Handles
import TileMind.Registry.Core
import TileMind.Script.Convert

/-!
# TileMind.Machine.Host

What a fiber runs in. A stage holds the objects, the handles and a host; the host keeps variables,
the state of call sites and the clock, and decides about pages.
-/

namespace TileMind

/-- The time told to host functions, in nanoseconds. -/
structure Clock where
  tick : Nat := 0
  elapsed : Int := 0
  delta : Int := 0
deriving DecidableEq, Repr, Inhabited

def Clock.seconds (c : Clock) : Float :=
  Decimal.ofInt (c.elapsed.tdiv 1000000000) + Decimal.ofInt (c.elapsed.tmod 1000000000) / 1000000000.0

/-- What a call site remembers between calls: when a timer last fired, the state of a script with the
memory it lives in, or any value. -/
inductive SiteState where
  | timer (last : Int)
  | script (memory : Script.Memory) (root : Script.Object)
  | value (v : Value)
deriving Repr

/-- A host. Variables are asked for by the function that is running. A page request may be refused
with a text. `after` lets a handle be completed once some nanoseconds have passed; not every host can
do that. `ended` tells of a fiber that has ended. -/
class Host (H : Type) where
  load : H → (func var : Int) → Value
  store : H → (func var : Int) → Value → H
  clear : H → (func var : Int) → H
  clock : H → Clock
  siteState : H → (site : Int) → Option SiteState
  setSiteState : H → (site : Int) → Option SiteState → H
  requestPage : H → (key : String) → Option String × H
  after : Option (H → (delay : Int) → (handle : Nat) → H)
  ended : H → Heap → Fiber → H
  name : String

/-- What a fiber runs in. -/
structure Stage (H : Type) where
  heap : Heap := {}
  handles : HandleTable := {}
  host : H

namespace Stage

variable {H : Type}

instance : HasHeap (Stage H) := ⟨Stage.heap, fun s h => { s with heap := h }⟩

/-- Creates a fault. -/
def newFault (s : Stage H) (f : Fault) : Nat × Stage H :=
  let (ref, heap) := s.heap.newFault f
  (ref, { s with heap := heap })

def newMap (s : Stage H) (type : TypeId) : Value × Stage H :=
  let (v, heap) := s.heap.newMap type
  (v, { s with heap := heap })

/-- Turns a failure into a fault, unless that is missing. -/
def faultOf (s : Stage H) (f : Failure) : Option Nat × Stage H :=
  let (ref, heap) := f.toFault s.heap
  (ref, { s with heap := heap })

/-- Completes a handle; a handle that is gone or completed already stays as it is. -/
def resolve (s : Stage H) (id : Int) (v : Value) : Stage H :=
  match s.handles.resolve id v with
  | .ok t => { s with handles := t }
  | .error _ => s

def reject (s : Stage H) (id : Int) (fault : Option Nat) : Stage H :=
  match s.handles.reject id fault with
  | .ok t => { s with handles := t }
  | .error _ => s

/-- Completes a handle as cancelled. -/
def cancel (s : Stage H) (id : Int) : Except HandleError (Stage H) :=
  let (ref, s) := s.newFault (cancelledHandle id)
  (s.handles.cancel id ref).map fun t => { s with handles := t }

end Stage

end TileMind
