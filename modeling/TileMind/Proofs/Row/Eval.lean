import TileMind.Machine.Run
import TileMind.Row.Typing

/-!
# TileMind.Proofs.Row.Eval

The meaning of a typed row, without a stack. Evaluation goes over the tree and tells, besides its
answer, every effect in the order in which it happens: variables loaded and stored, fields read and
written, host functions called.

* `Row.eval`: the value of an expression, or the fault that ends its evaluation.
* `Machine.observe`: the same kinds of effects, as instructions of a running fiber bring them about.
-/

namespace TileMind

variable {H : Type}

/-- Something that a row does to its surroundings. A call tells its argument map, and what is in it at
that moment. -/
inductive Effect where
  | load (func var : Int)
  | store (func var : Int) (v : Value)
  | readField (obj : Value) (name : String)
  | writeField (obj : Value) (name : String) (v : Value)
  | call (fn site : Int) (args : Value) (content : Datum)

/-- The end of an evaluation: an answer or a fault and what the stage is like then, or the crash of the
machine; and what happened. -/
structure Evaluated (H α : Type) where
  answer : Except Crash (Except Nat α × Stage H)
  effects : List Effect := []

namespace Evaluated

variable {α β : Type}

/-- An answer without effects. -/
def pure (a : α) (s : Stage H) : Evaluated H α := ⟨.ok (.ok a, s), []⟩

/-- Goes on with an answer; a fault or a crash ends everything. -/
def andThen (r : Evaluated H α) (k : α → Stage H → Evaluated H β) : Evaluated H β :=
  match r.answer with
  | .ok (.ok a, s) => ⟨(k a s).answer, r.effects ++ (k a s).effects⟩
  | .ok (.error ref, s) => ⟨.ok (.error ref, s), r.effects⟩
  | .error c => ⟨.error c, r.effects⟩

/-- Raises what is wrong with an answer, and yields the value that is to be yielded otherwise. -/
def raising (answer : Except Crash (Except Fault α × Stage H)) (yield : α → β) (effects : List Effect) :
    Evaluated H β :=
  match answer with
  | .ok (.ok a, s) => ⟨.ok (.ok (yield a), s), effects⟩
  | .ok (.error e, s) => ⟨.ok (.error (s.newFault e).1, (s.newFault e).2), effects⟩
  | .error c => ⟨.error c, effects⟩

end Evaluated

namespace Row

/-- What a row is evaluated in: the machine and the fiber that host functions are called from, the
function whose variables are meant, the types of the nodes and the numbers of the variables. -/
structure Setting (H : Type) where
  machine : Machine H
  fiber : Fiber
  func : Int
  types : TypeTable
  vars : String → Int

namespace Setting

variable (c : Setting H)

/-- The call of a host function with an argument map. -/
def call (fn site : Int) (args : Value) (s : Stage H) : Evaluated H Value :=
  ⟨c.machine.callSync c.fiber fn site c.func args s, [.call fn site args (s.heap.snapshot args)]⟩

/-- The call of a host function with arguments by position; it is no call site of its own. -/
def apply (fn : Int) (values : List Value) (s : Stage H) : Evaluated H Value :=
  let r := s.heap.positionalArgs values
  c.call fn 0 r.1 { s with heap := r.2 }

/-- Conversions of a value, one after the other. -/
def convert : List Conversion → Value → Stage H → Evaluated H Value
  | [], v, s => .pure v s
  | conv :: path, v, s => (c.apply conv.fn [v] s).andThen (convert path)

def convertAt (m : Mark) (v : Value) (s : Stage H) : Evaluated H Value :=
  c.convert (c.types.get m.id).conversion v s

def load [Host H] (name : String) (s : Stage H) : Evaluated H Value :=
  ⟨.ok (.ok (Host.load s.host c.func (c.vars name)), s), [.load c.func (c.vars name)]⟩

def store [Host H] (name : String) (v : Value) (s : Stage H) : Evaluated H Value :=
  ⟨.ok (.ok v, { s with host := Host.store s.host c.func (c.vars name) v }), [.store c.func (c.vars name) v]⟩

def readField (obj : Value) (name : String) (s : Stage H) : Evaluated H Value :=
  .raising (c.machine.getField obj name s) id [.readField obj name]

def writeField (obj : Value) (name : String) (v : Value) (s : Stage H) : Evaluated H Value :=
  .raising (c.machine.setField obj name v s) (fun _ => v) [.writeField obj name v]

end Setting

/-- Stores an entry of an argument map. -/
def bindSlot (args : Value) (slot : Nat) (v : Value) (s : Stage H) : Evaluated H Unit :=
  match args with
  | .map _ ref => .pure () { s with heap := s.heap.setMap ref ((s.heap.map ref).insert (.int slot) v) }
  | _ => .pure () s

/-- Whether a value makes the right operand of `&&` or `||` superfluous. -/
def BinaryOp.decides (op : BinaryOp) (v : Value) : Bool :=
  if op = .and then !v.truthy else v.truthy

mutual

/-- The number of call sites in an expression. An operator for which no overload was found has none:
it stands for nil. -/
def sites (types : TypeTable) : Expr → Nat
  | .binary m op left right =>
    if op.isShortCircuit || (types.get m.id).overload.isSome then sites types left + sites types right
    else 0
  | .unary m _ operand => if (types.get m.id).overload.isSome then sites types operand else 0
  | .field _ object _ => sites types object
  | .assign _ (.variable _ _) value => sites types value
  | .assign _ (.field _ object _) value => sites types object + sites types value
  | .parameter _ _ value => sites types value
  | .call _ _ args => argSites types args + 1
  | _ => 0
termination_by structural e => e

def argSites (types : TypeTable) : Args → Nat
  | .nil => 0
  | .cons _ value rest => sites types value + argSites types rest
termination_by structural args => args

end

variable [Host H] (c : Setting H)

mutual

/-- The value of an expression whose call sites are numbered from the one after `site`, those of the
arguments before the call itself. -/
def eval : Expr → (site : Nat) → Stage H → Evaluated H Value
  | .literal m value, _, s => c.convertAt m (.scalar value) s
  | .variable m name, _, s => (c.load name s).andThen (c.convertAt m)
  | .field m object name, site, s =>
    (eval object site s).andThen fun obj s => (c.readField obj name s).andThen (c.convertAt m)
  | .assign m (.variable _ name) value, site, s =>
    (eval value site s).andThen fun v s => (c.convertAt m v s).andThen (c.store name)
  | .assign m (.field _ object name) value, site, s =>
    (eval object site s).andThen fun obj s =>
      (eval value (site + sites c.types object) s).andThen fun v s =>
        (c.convertAt m v s).andThen (c.writeField obj name)
  | .assign _ _ _, _, s => .pure .nil s
  | .binary m op left right, site, s =>
    if op.isShortCircuit then
      ((eval left site s).andThen fun v s =>
        if op.decides v then .pure v s else eval right (site + sites c.types left) s).andThen
        (c.convertAt m)
    else
      match (c.types.get m.id).overload with
      | none => c.convertAt m .nil s
      | some o =>
        (eval left site s).andThen fun x s =>
          (eval right (site + sites c.types left) s).andThen fun y s =>
            (c.apply o.fn [x, y] s).andThen (c.convertAt m)
  | .unary m _ operand, site, s =>
    match (c.types.get m.id).overload with
    | none => c.convertAt m .nil s
    | some o =>
      (eval operand site s).andThen fun x s => (c.apply o.fn [x] s).andThen (c.convertAt m)
  | .parameter m _ value, site, s => (eval value site s).andThen (c.convertAt m)
  | .modifier m _ count, _, s => c.convertAt m (.int count) s
  | .call m tile args, site, s =>
    (evalArgs args (s.newMap .args).1 site (s.newMap .args).2).andThen fun _ s' =>
      (c.call tile.fn (site + argSites c.types args + 1 : Nat) (s.newMap .args).1 s').andThen
        (c.convertAt m)
  | .empty m, _, s => c.convertAt m .void s
  | .error m _, _, s => c.convertAt m .nil s
termination_by structural e => e

/-- Evaluates bound slots in turn into an argument map. -/
def evalArgs : Args → (map : Value) → (site : Nat) → Stage H → Evaluated H Unit
  | .nil, _, _, s => .pure () s
  | .cons slot value rest, map, site, s =>
    (eval value site s).andThen fun v s =>
      (bindSlot map slot v s).andThen fun _ s => evalArgs rest map (site + sites c.types value) s
termination_by structural args => args

end

end Row

namespace Machine

/-- What an instruction brings about that finds its operands on the stack. -/
def brings (op : Op) (i : Instr) (func : Int) (stack : List Value) (s : Stage H) : List Effect :=
  match op, stack with
  | .loadVar, _ => [.load func i.a.toInt]
  | .storeVar, v :: _ => [.store func i.a.toInt v]
  | .getField, name :: obj :: _ => name.string?.toList.map fun field => .readField obj field
  | .setField, v :: name :: obj :: _ => name.string?.toList.map fun field => .writeField obj field v
  | .hostCall, stack | .hostCallAsync, stack =>
    let r := s.heap.positionalArgs (stack.take i.b.toInt.toNat).reverse
    [.call i.a.toInt i.c.toInt r.1 (r.2.snapshot r.1)]
  | .hostCallArgs, args :: _ | .hostCallArgsAsync, args :: _ =>
    [.call i.a.toInt i.c.toInt args (s.heap.snapshot args)]
  | _, _ => []

/-- What the instruction at hand brings about, if the stack allows it. -/
def observed (m : Machine H) (fr : Frame) (i : Instr) (f : Fiber) (s : Stage H) : List Effect :=
  match m.checkStack (f.jump (fr.pc + 1)) fr.base i, i.op? with
  | none, some op => brings op i fr.func f.stack s
  | _, _ => []

variable [Host H] (m : Machine H)

/-- What the first `n` instructions of a run bring about. -/
def observe : (n : Nat) → Fiber → Stage H → List Effect
  | 0, _, _ => []
  | n + 1, f, s =>
    match settle m.program f.frames.length f with
    | .error _ => []
    | .ok f =>
      match f.frames with
      | [] => []
      | fr :: _ =>
        match instrAt m.program fr with
        | .error _ => []
        | .ok i =>
          m.observed fr i f s ++
            match step m fr i f s with
            | .next f s => observe n f s
            | _ => []

end Machine

end TileMind
