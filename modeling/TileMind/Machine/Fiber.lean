import TileMind.Value.Heap

/-!
# TileMind.Machine.Fiber

One run of a function. The operand stack, the active calls and the open `try` regions are lists whose
head is the innermost element.

* `ret` leaves the innermost call, `unwind` goes back to the innermost `try`.
-/

namespace TileMind

inductive FiberState where
  | runnable | waiting | done | fault | cancelled
deriving DecidableEq, Repr, Inhabited

namespace FiberState

def name : FiberState → String
  | .runnable => "runnable"
  | .waiting => "waiting"
  | .done => "done"
  | .fault => "fault"
  | .cancelled => "cancelled"

def isTerminal : FiberState → Bool
  | .done | .fault | .cancelled => true
  | _ => false

end FiberState

/-- An active call. `base` is the height of the stack at its start. -/
structure Frame where
  func : Int
  pc : Int := 0
  base : Nat := 0
deriving DecidableEq, Repr, Inhabited

/-- An open `try` region: where to go on, and what to go back to. -/
structure Handler where
  catchPc : Int
  stackHeight : Nat
  frameDepth : Nat
deriving DecidableEq, Repr, Inhabited

/-- A fiber. `handles` are those it has created, `awaiting` the one it is parked on (0 for none). -/
structure Fiber where
  id : Nat
  state : FiberState := .runnable
  entry : Int := 0
  result : Value := .void
  fault : Option Nat := none
  stack : List Value := []
  frames : List Frame := []
  handlers : List Handler := []
  awaiting : Nat := 0
  handles : List Nat := []
  lastFault : Option Nat := none
deriving DecidableEq, Repr, Inhabited

namespace Fiber

/-- A fiber at the start of a function. -/
def start (id : Nat) (func : Int) : Fiber := { id := id, entry := func, frames := [{ func := func }] }

def render (f : Fiber) : String :=
  "fiber " ++ Decimal.digitString f.id ++ " (fn" ++ Decimal.integer f.entry ++ ", " ++
    f.state.name ++ ")"

def push (f : Fiber) (v : Value) : Fiber := { f with stack := v :: f.stack }

def drop (f : Fiber) (n : Nat) : Fiber := { f with stack := f.stack.drop n }

def jump (f : Fiber) (pc : Int) : Fiber :=
  match f.frames with
  | [] => f
  | fr :: rest => { f with frames := { fr with pc := pc } :: rest }

/-- The active calls, innermost first, each at the instruction it is executing. -/
def trace (f : Fiber) : List Site := f.frames.map fun fr => ⟨fr.func, max 0 (fr.pc - 1)⟩

/-- The stack cut to a height. A stack that is too low is filled up with unknown values. -/
def cut (stack : List Value) (height : Nat) : List Value :=
  List.replicate (height - stack.length) .unknown ++ stack.drop (stack.length - height)

/-- Leaves the innermost call. Its result, the top of its part of the stack or else void, goes to the
caller; `try` regions it left open are closed. -/
def ret (f : Fiber) : Fiber :=
  match f.frames with
  | [] => f
  | fr :: rest =>
    let result := if f.stack.length > fr.base then f.stack.headD .void else .void
    let stack := cut f.stack fr.base
    let handlers := f.handlers.dropWhile fun h => decide (rest.length < h.frameDepth)
    if rest.isEmpty then
      { f with stack := stack, frames := [], handlers := handlers, result := result, state := .done }
    else { f with stack := result :: stack, frames := rest, handlers := handlers }

/-- Goes back to the innermost `try` region with a fault; without one the fiber ends. -/
def unwind (f : Fiber) (fault : Nat) : Fiber :=
  match f.handlers with
  | [] => { f with fault := some fault, state := .fault }
  | h :: rest =>
    { f with
      handlers := rest
      stack := cut f.stack h.stackHeight
      frames := f.frames.drop (f.frames.length - h.frameDepth)
      lastFault := some fault }.jump h.catchPc

/-- What is left of a fiber that has ended. -/
def cleared (f : Fiber) : Fiber :=
  { f with stack := [], frames := [], handlers := [], awaiting := 0, handles := [] }

end Fiber

end TileMind
