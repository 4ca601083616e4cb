import TileMind.Registry.Services

/-!
# TileMind.Registry.Core

The operators and conversions of numbers, booleans and strings. Each is a host function named for
the operator and its operand types. `HasHeap` is all that they need of their surroundings.
-/

namespace TileMind

/-- Surroundings in which values can be looked at and made. -/
class HasHeap (σ : Type) where
  heap : σ → Heap
  setHeap : σ → Heap → σ

namespace Core

variable {σ : Type} [HasHeap σ]

/-- What is wrong with the operands of a primitive. -/
inductive Mismatch where
  | one (expected : String) (got : Value)
  | two (expected : String) (left right : Value)
deriving DecidableEq, Repr

def Mismatch.message? (h : Heap) : Mismatch → Option String
  | .one expected v => do
    let got ← h.render? v
    return "expected a " ++ expected ++ ", got " ++ got
  | .two expected v w => do
    let left ← h.render? v
    let right ← h.render? w
    return "expected two " ++ expected ++ ", got " ++ left ++ " and " ++ right

/-- A function of one operand. -/
def unary {α : Type} (expected : String) (read : Value → Option α) (f : α → Value) (h : Heap)
    (args : Value) : Except Mismatch Value :=
  let v := h.argAt args 0
  match read v with
  | some a => .ok (f a)
  | none => .error (.one expected v)

/-- A function of two operands of one kind. -/
def binary {α : Type} (expected : String) (read : Value → Option α) (f : α → α → Value) (h : Heap)
    (args : Value) : Except Mismatch Value :=
  let v := h.argAt args 0
  let w := h.argAt args 1
  match read v, read w with
  | some a, some b => .ok (f a b)
  | _, _ => .error (.two expected v w)

/-- A primitive as a host function. -/
def primitive (name : String) (f : Heap → Value → Except Mismatch Value) : HostFunction σ :=
  { name := name
    sync := some fun _ args s =>
      match f (HasHeap.heap s) args with
      | .ok v => (.ok v, s)
      | .error e => (.refuse (e.message? (HasHeap.heap s)), s) }

/-- A primitive to install: an overload or a conversion, and how it is computed. -/
inductive Primitive where
  | operator (op : OperatorId) (args : List TypeId) (result : TypeId)
      (f : Heap → Value → Except Mismatch Value)
  | conversion (source target : TypeId) (cost : Int) (f : Heap → Value → Except Mismatch Value)

def Primitive.name : Primitive → String
  | .operator op args _ _ => "op." ++ op ++ String.join (args.map ("." ++ ·))
  | .conversion source target _ _ => "conv." ++ source ++ "." ++ target

def onNumbers (op : OperatorId) (result : TypeId) (f : Float → Float → Value) : Primitive :=
  .operator op [.number, .number] result (binary "numbers" Value.number? f)

def onBooleans (op : OperatorId) (f : Bool → Bool → Value) : Primitive :=
  .operator op [.boolean, .boolean] .boolean (binary "booleans" Value.bool? f)

def onStrings (op : OperatorId) (result : TypeId) (f : String → String → Value) : Primitive :=
  .operator op [.string, .string] result (binary "strings" Value.string? f)

/-- A quotient; there is none by zero. -/
def quotient (f : Float → Float → Float) (a b : Float) : Value :=
  if b == 0.0 then .nil else .number (f a b)

/-- The primitives, in the order in which their functions are numbered. Turning a boolean into a
number costs more than turning it into a string, so mixed operands prefer concatenation. -/
def primitives : List Primitive :=
  [onNumbers "add" .number fun a b => .number (a + b),
    onNumbers "sub" .number fun a b => .number (a - b),
    onNumbers "mul" .number fun a b => .number (a * b),
    onNumbers "div" .number (quotient fun a b => a / b),
    onNumbers "mod" .number (quotient Decimal.remainder),
    .operator "neg" [.number] .number (unary "number" Value.number? fun a => .number (-a)),
    onNumbers "eq" .boolean fun a b => .bool (a == b),
    onNumbers "ne" .boolean fun a b => .bool (a != b),
    onNumbers "lt" .boolean fun a b => .bool (a < b),
    onNumbers "le" .boolean fun a b => .bool (a ≤ b),
    onNumbers "gt" .boolean fun a b => .bool (b < a),
    onNumbers "ge" .boolean fun a b => .bool (b ≤ a),
    .conversion .number .string 1
      (unary "number" Value.number? fun a => .string (Decimal.general a)),
    .operator "not" [.boolean] .boolean (unary "boolean" Value.bool? fun a => .bool (!a)),
    onBooleans "eq" fun a b => .bool (a == b),
    onBooleans "ne" fun a b => .bool (a != b),
    .conversion .boolean .string 1
      (unary "boolean" Value.bool? fun a => .string (if a then "true" else "false")),
    .conversion .boolean .number 2 (unary "boolean" Value.bool? fun a => .int (if a then 1 else 0)),
    onStrings "add" .string fun a b => .string (a ++ b),
    onStrings "eq" .boolean fun a b => .bool (a == b),
    onStrings "ne" .boolean fun a b => .bool (a != b),
    onStrings "lt" .boolean fun a b => .bool (a < b)]

/-- Adds a primitive and its function. -/
def install (s : Services σ) (p : Primitive) : Services σ :=
  match p with
  | .operator op args result f =>
    match s.functions.register (primitive p.name f) with
    | .error _ => s
    | .ok (fn, functions) =>
      match s.operators.register ⟨op, args, result, fn, false⟩ with
      | .error _ => s
      | .ok operators => { s with functions := functions, operators := operators }
  | .conversion source target cost f =>
    match s.functions.register (primitive p.name f) with
    | .error _ => s
    | .ok (fn, functions) =>
      match s.conversions.register ⟨source, target, cost, fn⟩ with
      | .error _ => s
      | .ok conversions => { s with functions := functions, conversions := conversions }

/-- Services with the primitives installed. -/
def services : Services σ := primitives.foldl install {}

end Core

end TileMind
