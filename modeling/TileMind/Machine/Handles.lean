import TileMind.Value.Heap

/-!
# TileMind.Machine.Handles

Results that arrive later. A handle is created pending and completed once; it stays in the table for
as long as its creator lives or some fiber has still to read it. Every completion that somebody may
be waiting for is put into the outbox, from where the scheduler takes it.
-/

namespace TileMind

inductive HandleState where
  | pending | resolved | rejected | cancelled
deriving DecidableEq, Repr, Inhabited

def HandleState.name : HandleState → String
  | .pending => "pending"
  | .resolved => "resolved"
  | .rejected => "rejected"
  | .cancelled => "cancelled"

/-- A handle. The owner is the fiber that created it, 0 once that one has ended. -/
structure Handle where
  id : Nat
  state : HandleState := .pending
  result : Value := .unknown
  fault : Option Nat := none
  owner : Int := 0
  waiters : List Nat := []
deriving DecidableEq, Repr, Inhabited

namespace Handle

def isDone (h : Handle) : Bool := h.state ≠ .pending

def addWaiter (h : Handle) (fiber : Nat) : Handle :=
  if h.waiters.contains fiber then h else { h with waiters := h.waiters ++ [fiber] }

def removeWaiter (h : Handle) (fiber : Nat) : Handle := { h with waiters := h.waiters.erase fiber }

end Handle

/-- A completed handle and the fibers that waited for it. -/
structure Completion where
  handle : Nat
  state : HandleState
  waiters : List Nat
deriving DecidableEq, Repr, Inhabited

/-- Why a handle is not completed. -/
inductive HandleError where
  | unknown (id : Int)
  | already (id : Int) (state : HandleState)
deriving DecidableEq, Repr

def HandleError.message : HandleError → String
  | .unknown id => "handles: unknown handle " ++ Decimal.integer id
  | .already id state => "handles: handle " ++ Decimal.integer id ++ " already " ++ state.name

/-- All handles of a scheduler, in the order of their creation. -/
structure HandleTable where
  handles : List Handle := []
  lastId : Nat := 0
  max : Int := 1024
  outbox : List Completion := []
deriving DecidableEq, Repr, Inhabited

namespace HandleTable

def ofMax (max : Int) : HandleTable := { max := if max ≤ 0 then 1024 else max }

def get? (t : HandleTable) (id : Int) : Option Handle := t.handles.find? fun h => (h.id : Int) = id

def size (t : HandleTable) : Nat := t.handles.length

def tooMany (t : HandleTable) : Fault :=
  { tag := .limitExceeded
    message := "too many outstanding handles (max " ++ Decimal.integer t.max ++ ")" }

/-- Creates a pending handle; a full table has room for none. -/
def create? (t : HandleTable) (owner : Int) : Option (Nat × HandleTable) :=
  if t.max ≤ t.handles.length then none
  else
    let id := t.lastId + 1
    some (id, { t with handles := t.handles ++ [{ id := id, owner := owner }], lastId := id })

def update (t : HandleTable) (id : Int) (f : Handle → Handle) : HandleTable :=
  { t with handles := t.handles.map fun h => if (h.id : Int) = id then f h else h }

def erase (t : HandleTable) (id : Int) : HandleTable :=
  { t with handles := t.handles.filter fun h => (h.id : Int) ≠ id }

/-- Completes a handle. One that nobody can read any more is dropped. -/
def complete (t : HandleTable) (id : Int) (state : HandleState) (result : Value)
    (fault : Option Nat) : Except HandleError HandleTable :=
  match t.get? id with
  | none => .error (.unknown id)
  | some h =>
    if h.isDone then .error (.already id h.state)
    else if h.owner = 0 && h.waiters.isEmpty then .ok (t.erase id)
    else
      let t := t.update id fun h => { h with state := state, result := result, fault := fault }
      .ok { t with outbox := t.outbox ++ [⟨h.id, state, h.waiters⟩] }

def resolve (t : HandleTable) (id : Int) (v : Value) : Except HandleError HandleTable :=
  t.complete id .resolved v none

/-- The fault may be missing; whoever reads the handle then gets nothing to raise. -/
def reject (t : HandleTable) (id : Int) (fault : Option Nat) : Except HandleError HandleTable :=
  t.complete id .rejected .nil fault

def cancel (t : HandleTable) (id : Int) (fault : Nat) : Except HandleError HandleTable :=
  t.complete id .cancelled .nil (some fault)

/-- A fiber has read a completed handle. -/
def consume (t : HandleTable) (id : Int) (fiber : Nat) : HandleTable :=
  let t := t.update id fun h => h.removeWaiter fiber
  match t.get? id with
  | some h => if h.waiters.isEmpty then t.erase id else t
  | none => t

/-- The creator of a handle has ended. -/
def releaseOne (fiber : Nat) (t : HandleTable) (id : Nat) : HandleTable :=
  match t.get? id with
  | none => t
  | some h =>
    if h.owner ≠ fiber then t
    else
      let h := { h.removeWaiter fiber with owner := 0 }
      if h.isDone && h.waiters.isEmpty then t.erase id else t.update id fun _ => h

/-- The creator of some handles has ended: completed ones that nobody waits for are dropped, pending
ones stay until they are completed. -/
def release (t : HandleTable) (fiber : Nat) (ids : List Nat) : HandleTable :=
  ids.foldl (releaseOne fiber) t

end HandleTable

def cancelledHandle (id : Int) : Fault :=
  { tag := .cancelled, message := "handle " ++ Decimal.integer id ++ " cancelled" }

def rejectedHandle (id : Int) : Fault :=
  { tag := .host, message := "handle " ++ Decimal.integer id ++ " rejected" }

end TileMind
