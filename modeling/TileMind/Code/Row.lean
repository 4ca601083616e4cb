import TileMind.Code.Assembler
import TileMind.Code.ConstantPool
import TileMind.Code.Scope
import TileMind.Program.Basic
import TileMind.Row.Typing

/-!
# TileMind.Code.Row

Code of typed rows. The code of an expression leaves exactly one value on the operand stack: that of
the expression, after the conversions recorded for its node. Jumps go to labels, which an assembler
resolves once the code of the rule is complete.

* `Row.emit` emits the code of an expression.
* `emitRule` emits the code of a whole rule.
-/

namespace TileMind

/-- What code generation adds to a program: constants, numbered call sites, those of the current page,
variables, and problems found. -/
structure Generated where
  pool : ConstantPool := {}
  lastSite : Nat := 0
  sites : List CallSite := []
  names : Names := {}
  diags : Diagnostics := []
deriving Inhabited

namespace Generated

/-- The instruction that pushes a constant. -/
def const (g : Generated) (d : Datum) : Instr × Generated :=
  let (slot, pool) := g.pool.add d
  (.of .pushConst slot, { g with pool := pool })

def resolveVar (g : Generated) (chain : Chain) (name : String) : Nat × Generated :=
  let (id, names) := g.names.resolve chain name
  (id, { g with names := names })

/-- A fresh call site of a host function. -/
def newSite (g : Generated) (fn : Int) : Nat × Generated :=
  let site := g.lastSite + 1
  (site, { g with lastSite := site, sites := g.sites ++ [⟨fn, site⟩] })

end Generated

/-- What the code of a rule is generated for: the types of its nodes, the locals it sees and the path
it is reported under. -/
structure RuleScope where
  types : Row.TypeTable
  chain : Chain
  rule : String

/-- Conversions of the value on top of the stack. -/
def conversionCode (path : List Conversion) : List Instr :=
  path.map fun c => .of .hostCall c.fn 1 0

/-- The call of an operator whose operands are on the stack. -/
def overloadCode (o : Overload) (arity : Nat) : List Instr :=
  if o.async then [.of .hostCallAsync o.fn arity 0, .of .await]
  else [.of .hostCall o.fn arity 0]

/-- The call of a tile whose argument map is on the stack. -/
def tileCallCode (t : Tile) (site : Nat) : List Instr :=
  if t.async then [.of .hostCallArgsAsync t.fn 0 site, .of .await]
  else [.of .hostCallArgs t.fn 0 site]

/-- A rule in the making: its code so far, and what that has added to the program. -/
structure Emission where
  assembler : Assembler := {}
  generated : Generated := {}
deriving Inhabited

/-- A step that emits code. -/
abbrev Emit := StateT Emission (Except AssemblerError)

namespace Emit

variable {α : Type}

/-- Asks the assembler for something. -/
def assemble (f : Assembler → Except AssemblerError (α × Assembler)) : Emit α := fun s =>
  match f s.assembler with
  | .error e => .error e
  | .ok (x, a) => .ok (x, { s with assembler := a })

/-- Adds something to the program. -/
def generate (f : Generated → α × Generated) : Emit α := fun s =>
  .ok ((f s.generated).1, { s with generated := (f s.generated).2 })

def instr (i : Instr) : Emit Unit := assemble fun a => (a.emit i).map fun r => ((), r.2)

/-- Instructions in turn. -/
def instrs : List Instr → Emit Unit
  | [] => pure ()
  | i :: rest => do
    instr i
    instrs rest

def label : Emit Nat := assemble fun a => .ok a.newLabel

def jump (op : Op) (label : Nat) : Emit Unit :=
  assemble fun a => (a.emitJump op.byte label .a).map fun r => ((), r.2)

/-- Binds a label to the next place. -/
def mark (label : Nat) : Emit Unit := assemble fun a => (a.bind label).map fun a => ((), a)

def push (s : Scalar) : Emit Unit := do
  let i ← generate fun g => g.const (.scalar s)
  instr i

/-- Code that jumps over its second part. -/
def jumpOver (op : Op) (first second : Emit Unit) : Emit Unit := do
  let after ← label
  first
  jump op after
  second
  mark after

/-- Evaluates the right operand only if the left one does not decide; what decides is kept. -/
def shortCircuit (op : Row.BinaryOp) (left right : Emit Unit) : Emit Unit :=
  jumpOver (if op = .and then .jumpIfFalse else .jumpIfTrue)
    (do
      left
      instr (.of .dup))
    (do
      instr (.of .pop)
      right)

end Emit

namespace Row

open Emit

/-- The code of a node, given what is known of its type. A node of which nothing is known is reported
and becomes nil. -/
def emitTyped (scope : RuleScope) (m : Mark) (body : TypeInfo → Emit Unit) : Emit Unit :=
  match scope.types.get? m.id with
  | some info => body info
  | none => do
    let d := Diagnostic.ofMark .missingTypeInfo .error scope.rule m
      ("no type information for node " ++ Decimal.digitString m.id)
    generate fun g => ((), { g with diags := g.diags ++ [d] })
    push .nil

/-- A node of which something is known: its code is followed by its conversions. -/
def emitConverted (scope : RuleScope) (m : Mark) (body : TypeInfo → Emit Unit) : Emit Unit :=
  emitTyped scope m fun info => do
    body info
    instrs (conversionCode info.conversion)

mutual

def emit (scope : RuleScope) : Expr → Emit Unit
  | .literal m value => emitConverted scope m fun _ => push value
  | .variable m name => emitConverted scope m fun _ => do
    let id ← generate fun g => g.resolveVar scope.chain name
    instr (.of .loadVar id)
  | .field m object name => emitConverted scope m fun _ => do
    emit scope object
    push (.string name)
    instr (.of .getField)
  | .assign m (.variable _ name) value => emitTyped scope m fun info => do
    emit scope value
    instrs (conversionCode info.conversion)
    instr (.of .dup)
    let id ← generate fun g => g.resolveVar scope.chain name
    instr (.of .storeVar id)
  | .assign m (.field _ object name) value => emitTyped scope m fun info => do
    emit scope object
    push (.string name)
    emit scope value
    instrs (conversionCode info.conversion)
    instr (.of .setField)
  | .assign m _ _ => emitTyped scope m fun _ => push .nil
  | .binary m op left right => emitConverted scope m fun info =>
    if op.isShortCircuit then shortCircuit op (emit scope left) (emit scope right)
    else
      match info.overload with
      | none => push .nil
      | some o => do
        emit scope left
        emit scope right
        instrs (overloadCode o 2)
  | .unary m _ operand => emitConverted scope m fun info =>
    match info.overload with
    | none => push .nil
    | some o => do
      emit scope operand
      instrs (overloadCode o 1)
  | .parameter m _ value => emitConverted scope m fun _ => emit scope value
  | .modifier m _ count => emitConverted scope m fun _ => push (.int count)
  | .call m tile args => emitConverted scope m fun _ => do
    let map ← generate fun g =>
      let (slot, pool) := g.pool.add (.scalar (.string TypeId.args))
      (slot, { g with pool := pool })
    instr (.of .mapNew map)
    emitArgs scope args
    let site ← generate fun g => g.newSite tile.fn
    instrs (tileCallCode tile site)
  | .empty m => emitConverted scope m fun _ => push .void
  | .error m _ => emitConverted scope m fun _ => push .nil
termination_by structural e => e

/-- The code that stores the bound slots of a call in the map on top of the stack. -/
def emitArgs (scope : RuleScope) : Args → Emit Unit
  | .nil => pure ()
  | .cons slot value rest => do
    push (.int slot)
    emit scope value
    instr (.of .mapSet)
    emitArgs scope rest
termination_by structural args => args

end

end Row

open Emit

/-- The call of a child rule. An isolated child cannot fail its parent. -/
def emitChild (isolate : Bool) (child : Nat) : Emit Unit :=
  if isolate then jumpOver .try (pure ()) (instrs [.of .call child 0, .of .pop, .of .endTry])
  else instrs [.of .call child 0, .of .pop]

def emitChildren (isolate : Bool) : List Nat → Emit Unit
  | [] => pure ()
  | child :: rest => do
    emitChild isolate child
    emitChildren isolate rest

/-- The code of a rule from that of its rows: the action and the children run if the condition
holds. -/
def emitRule (cond action children : Emit Unit) : Emit Unit := do
  jumpOver .whenEnd
    (do
      instr (.of .whenStart)
      cond)
    (do
      instr (.of .doStart)
      action
      instr (.of .doEnd)
      children)
  instr (.of .ret)

end TileMind
