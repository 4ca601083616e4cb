import TileMind.Script.Operators

/-!
# TileMind.Script.Eval

Running a script. Effects happen in the order of the text and stay when a later step fails. A script
may be given a number of allocations; every value it makes with an operator, a call, brackets or
braces takes one.
-/

namespace TileMind
namespace Script

/-- Why a run ends early. -/
inductive Stop where
  | fails (message : String) (place : Place)
  | breaks (message : String)
  | exhausted (place : Place)
  | endless
deriving DecidableEq, Repr

/-- What is reported of an early end. -/
def Stop.message : Stop → String
  | .fails message p => "Runtime Error: " ++ message ++ "\n\tat " ++ p.render
  | .breaks message => message
  | .exhausted p => "Runtime Error: object allocation limit exceeded\n\tat " ++ p.render
  | .endless => "context deadline exceeded"

/-- A run: the variables of the blocks it is in, innermost first, the objects, the allocations left,
and the world it acts on. -/
structure Run (W : Type) where
  blocks : List (List (String × Object)) := []
  memory : Memory := {}
  left : Option Nat := none
  world : W

abbrev Eval (W : Type) := ExceptT Stop (StateM (Run W))

/-- How a statement ends. -/
inductive Flow where
  | next | leave | again
deriving DecidableEq, Repr, Inhabited

/-- The value of a variable; an undefined one has none. -/
def valueIn (name : String) : List (List (String × Object)) → Object
  | [] => .undefined
  | b :: bs => (b.lookup name).getD (valueIn name bs)

/-- Replaces a value in a block. -/
def replaceIn (name : String) (v : Object) : List (String × Object) → List (String × Object)
  | [] => []
  | e :: es => if e.1 = name then (name, v) :: es else e :: replaceIn name v es

/-- Changes the innermost variable of a name. -/
def assignIn (name : String) (v : Object) :
    List (List (String × Object)) → List (List (String × Object))
  | [] => []
  | b :: bs =>
    if b.any fun e => e.1 = name then replaceIn name v b :: bs else b :: assignIn name v bs

/-- Defines a variable in the innermost block. -/
def defineIn (name : String) (v : Object) :
    List (List (String × Object)) → List (List (String × Object))
  | [] => [[(name, v)]]
  | b :: bs => ((name, v) :: b) :: bs

namespace Eval

variable {W : Type}

def getValue (name : String) : Eval W Object := do return valueIn name (← get).blocks

def fail {α : Type} (e : OpError) (ofMeaningless : String) (p : Place) : Eval W α :=
  match e with
  | .meaningless => throw (.fails ("invalid operation: " ++ ofMeaningless) p)
  | .fails message => throw (.fails message p)
  | .breaks message => throw (.breaks message)

/-- Takes one allocation. -/
def allocate (p : Place) : Eval W Unit := do
  match (← get).left with
  | none => pure ()
  | some 0 => throw (.exhausted p)
  | some (n + 1) => modify fun r => { r with left := some n }

/-- Makes a new object. -/
def make (new : Memory → Object × Memory) (p : Place) : Eval W Object := do
  let (o, memory) := new (← get).memory
  allocate p
  modify fun r => { r with memory := memory }
  return o

/-- Applies an operator at a place. Equality takes no allocation. -/
def apply (op : BinaryOp) (a b : Object) (p : Place) : Eval W Object := do
  match operate op a b (← get).memory with
  | .error e => fail e (a.typeName ++ " " ++ op.sign ++ " " ++ b.typeName) p
  | .ok (o, memory) =>
    modify fun r => { r with memory := memory }
    if op = .equal || op = .notEqual then pure () else allocate p
    return o

def applyUnary (op : UnaryOp) (o : Object) (e : Expr) : Eval W Object :=
  match op, o with
  | .keep, o => pure o
  | .not, o => do return .bool ((← get).memory.isFalsy o)
  | .negate, .int n => do
    allocate e.lastStep
    return .int (Decimal.wrap64 (-n))
  | .negate, .float x => do
    allocate e.lastStep
    return .float (-x)
  | .negate, o => throw (.fails ("invalid operation: -" ++ o.typeName) e.lastStep)

/-- Freezes an array or a map. -/
def freeze (o : Object) (p : Place) : Eval W Object :=
  match o with
  | .array ref length false => do
    allocate p
    return .array ref length true
  | .map ref false => do
    allocate p
    return .map ref true
  | o => pure o

/-- Calls an object. -/
def callObject (ask : String → W → Option String × W) (f : Object) (args : List Object) (p : Place) :
    Eval W Object := do
  match f with
  | .function f =>
    let r ← get
    let (result, world) := callFunction ask f args r.memory r.world
    set { r with world := world }
    match result with
    | .error e => fail e "" p
    | .ok (o, memory) =>
      modify fun r => { r with memory := memory }
      allocate p
      return o
  | f => throw (.fails ("not callable: " ++ f.typeName) p)

def isTrue (o : Object) : Eval W Bool := do return !((← get).memory.isFalsy o)

mutual

/-- The value of an expression. -/
def expr (ask : String → W → Option String × W) : Expr → Eval W Object
  | .literal _ value =>
    match value with
    | .undefined => pure .undefined
    | .bool b => pure (.bool b)
    | .int n => pure (.int n)
    | .float x => pure (.float x)
    | .char code => pure (.char code)
    | .string s => pure (.string s)
  | .name _ s => getValue s
  | .module _ name => pure (.module name)
  | .group _ e => expr ask e
  | .array p items => do
    let objects ← exprs ask items
    make (Memory.newArray · objects (Capacity.filled objects.length)) p
  | .map p entries => do
    let pairs ← mapEntries ask entries
    make (Memory.newMap · (.ofList pairs)) p
  | .unary _ op e => do
    let o ← expr ask e
    applyUnary op o e
  | .binary op left right => do
    let a ← expr ask left
    let b ← expr ask right
    apply op a b left.place
  | .both left right => do
    let a ← expr ask left
    if ← isTrue a then expr ask right else return a
  | .either left right => do
    let a ← expr ask left
    if ← isTrue a then return a else expr ask right
  | .choose cond yes no => do
    let c ← expr ask cond
    if ← isTrue c then expr ask yes else expr ask no
  | .index e key => do
    let o ← expr ask e
    let k ← expr ask key
    match lookUp o k (← get).memory with
    | .ok v => return v
    | .error err => fail err "" key.lastStep
  | .call f args => do
    let callee ← expr ask f
    let objects ← exprs ask args
    callObject ask callee objects f.place
  | .error _ e => do
    let o ← expr ask e
    make (Memory.newError · o) e.lastStep
  | .immutable _ e => do
    let o ← expr ask e
    freeze o e.lastStep
termination_by structural e => e

def exprs (ask : String → W → Option String × W) : List Expr → Eval W (List Object)
  | [] => pure []
  | e :: es => do
    let o ← expr ask e
    let os ← exprs ask es
    return o :: os
termination_by structural es => es

def mapEntries (ask : String → W → Option String × W) :
    List (String × Expr) → Eval W (List (String × Object))
  | [] => pure []
  | (k, e) :: es => do
    let o ← expr ask e
    let os ← mapEntries ask es
    return (k, o) :: os
termination_by structural es => es

end

/-- Stores a value. The keys are computed last one first, after the value. -/
def assign (ask : String → W → Option String × W) (t : Target) (v : Object) : Eval W Unit := do
  let keys ← exprs ask t.keys.reverse
  match keys.reverse with
  | [] => modify fun r => { r with blocks := assignIn t.name v r.blocks }
  | keys =>
    let r ← get
    match changeAlong (valueIn t.name r.blocks) keys v r.memory with
    | .ok memory => set { r with memory := memory }
    | .error e => fail e "" t.place

/-- Runs something in a block of its own. -/
def inBlock (body : Eval W Flow) : Eval W Flow := do
  modify fun r => { r with blocks := [] :: r.blocks }
  let flow ← body
  modify fun r => { r with blocks := r.blocks.tail }
  return flow

/-- Rounds that a loop may take. -/
def maxRounds : Nat := 10000000

/-- Repeats until a round leaves. -/
def rounds (body : Eval W Flow) : (left : Nat) → Eval W Flow
  | 0 => throw .endless
  | left + 1 => do
    match ← body with
    | .leave => return .next
    | .next | .again => rounds body left

mutual

def stmt (ask : String → W → Option String × W) : Stmt → Eval W Flow
  | .skip => pure .next
  | .run e => do
    let _ ← expr ask e
    return .next
  | .define t e => do
    let v ← expr ask e
    modify fun r => { r with blocks := defineIn t.name v r.blocks }
    return .next
  | .assign t e => do
    let v ← expr ask e
    assign ask t v
    return .next
  | .update t current op e => do
    let a ← expr ask current
    let b ← expr ask e
    let v ← apply op a b t.place
    assign ask t v
    return .next
  | .branch cond yes no => do
    let c ← expr ask cond
    if ← isTrue c then inBlock (stmts ask yes) else inBlock (stmts ask no)
  | .loop cond body =>
    let once := inBlock (stmts ask body)
    match cond with
    | none => rounds once maxRounds
    | some e => rounds (do if ← isTrue (← expr ask e) then once else return .leave) maxRounds
  | .leave _ => pure .leave
  | .again _ => pure .again
termination_by structural s => s

/-- Runs statements in turn; one that leaves or starts a round again skips the others. -/
def stmts (ask : String → W → Option String × W) : List Stmt → Eval W Flow
  | [] => pure .next
  | s :: rest => do
    match ← stmt ask s with
    | .next => stmts ask rest
    | flow => return flow
termination_by structural ss => ss

end

end Eval

end Script
end TileMind
