import TileMind.Program.Basic
import TileMind.Value.Heap

/-!
# TileMind.Registry.Functions

Host functions: what a brain can ask of its surroundings `σ`. A function either answers at once or
starts something and completes a handle later. It may refuse with a failure, or break down; both end
as a fault of the calling fiber. From what is fatal nothing recovers.
-/

namespace TileMind

/-- Why a host function refuses: a plain text, a fault, a text around a fault, or a fault that is
missing. -/
inductive Failure where
  | plain (text : String)
  | fault (ref : Nat)
  | wrapped (text : String) (ref : Nat)
  | missing
deriving DecidableEq, Repr

namespace Failure

/-- The fault a failure stands for: its own one, or a fresh one made from its text. -/
def toFault (f : Failure) (h : Heap) : Option Nat × Heap :=
  match f with
  | .plain text =>
    let (ref, h) := h.newFault (.ofPlain text)
    (some ref, h)
  | .fault ref | .wrapped _ ref => (some ref, h)
  | .missing => (none, h)

end Failure

/-- The answer of a host function. -/
inductive Reply where
  | ok (v : Value)
  | fail (f : Failure)
  | panic (message : String)
  | fatal (message : String)
deriving DecidableEq, Repr

/-- What a host function that answers later says about its start. -/
inductive Start where
  | ok
  | fail (f : Failure)
  | panic (message : String)
  | fatal (message : String)
deriving DecidableEq, Repr

/-- What becomes of showing a value that contains itself. -/
def overflow : String := "stack overflow"

/-- A refusal for a reason that shows values. -/
def Reply.refuse : Option String → Reply
  | some text => .fail (.plain text)
  | none => .fatal overflow

def Start.refuse : Option String → Start
  | some text => .fail (.plain text)
  | none => .fatal overflow

@[simp] theorem Reply.refuse_ne_ok (reason : Option String) (v : Value) : Reply.refuse reason ≠ .ok v := by
  cases reason <;> nofun

@[simp] theorem Start.refuse_ne_ok (reason : Option String) : Start.refuse reason ≠ .ok := by
  cases reason <;> nofun

/-- Who is calling: the fiber (0 outside of one), the function and call site, and the last fault
that the fiber has caught. -/
structure CallContext where
  program : Program
  fiber : Nat := 0
  func : Int := 0
  site : Int := 0
  lastFault : Option Nat := none

/-- The rule that is calling. -/
def CallContext.rule? (c : CallContext) : Option RuleInfo := c.program.rule? c.func

/-- A host function. Exactly one of `sync` and `async` is set in a registered one. `onPage` runs for
each of its call sites on a page that is entered. -/
structure HostFunction (σ : Type) where
  name : String
  sync : Option (CallContext → Value → σ → Reply × σ) := none
  async : Option (CallContext → Value → (handle : Nat) → σ → Start × σ) := none
  onPage : Option (CallContext → σ → σ) := none

inductive FunctionError where
  | noName
  | ambiguous (name : String)
  | sealed (name : String)
  | duplicate (name : String)
deriving DecidableEq, Repr

def FunctionError.message : FunctionError → String
  | .noName => "functions: host function needs a name"
  | .ambiguous name =>
    "functions: " ++ Text.quote name ++ " must set exactly one of Sync or Async"
  | .sealed name => "functions: registry sealed, cannot register " ++ Text.quote name
  | .duplicate name => "functions: " ++ Text.quote name ++ " already registered"

/-- Host functions, numbered in order of registration. -/
structure Functions (σ : Type) where
  list : Array (HostFunction σ) := #[]
  isSealed : Bool := false

namespace Functions

variable {σ : Type}

def get? (r : Functions σ) (id : Int) : Option (HostFunction σ) :=
  if id < 0 then none else r.list[id.toNat]?

def find? (r : Functions σ) (name : String) : Option Nat :=
  let i := r.list.toList.findIdx fun f => f.name = name
  if i < r.list.size then some i else none

def register (r : Functions σ) (f : HostFunction σ) : Except FunctionError (Nat × Functions σ) :=
  if f.name = "" then .error .noName
  else if f.sync.isSome = f.async.isSome then .error (.ambiguous f.name)
  else if r.isSealed then .error (.sealed f.name)
  else if (r.find? f.name).isSome then .error (.duplicate f.name)
  else .ok (r.list.size, { r with list := r.list.push f })

def freeze (r : Functions σ) : Functions σ := { r with isSealed := true }

end Functions

end TileMind
