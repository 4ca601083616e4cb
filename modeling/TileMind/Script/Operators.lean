import TileMind.Decimal.Read
import TileMind.Script.Convert
import TileMind.Script.Syntax
import TileMind.Text.Case

/-!
# TileMind.Script.Operators

What the operators and functions of scripts do with values. Integers have 64 bits and wrap around; an
integer beside a number with a fraction becomes one; text takes anything behind a plus sign.
-/

namespace TileMind
namespace Script

-- `^` is the power that comes with the numbers, also where that of a monoid could be taken.
attribute [local instance (high)] instPowNat

/-- Why an operation does not give a value: it has no meaning for its operands, it fails with a
message, or it breaks the run. -/
inductive OpError where
  | meaningless
  | fails (message : String)
  | breaks (message : String)
deriving DecidableEq, Repr

namespace Memory

/-- Whether a value counts as false. -/
def isFalsy (m : Memory) : Object → Bool
  | .undefined => true
  | .bool b => !b
  | .int n => n = 0
  | .float x => x.isNaN
  | .char code => code = 0
  | .string s => s.isEmpty
  | .array _ length _ => length = 0
  | .map ref _ => (m.map ref).entries.isEmpty
  | .error _ => true
  | .function _ => false
  | .module name => (members name).isEmpty

/-- Equality, down to a depth. Integers and other numbers differ; an error equals itself only. -/
def equalTo (m : Memory) : (depth : Nat) → Object → Object → Bool
  | _, .undefined, .undefined => true
  | _, .bool a, .bool b => a = b
  | _, .int a, .int b => a = b
  | _, .float a, .float b => a == b
  | _, .char a, .char b => a = b
  | _, .string a, .string b => a = b
  | _, .error a, .error b => a = b
  | depth + 1, .array a k _, .array b n _ =>
    k = n && ((m.items a k).zip (m.items b n)).all fun (x, y) => m.equalTo depth x y
  | depth + 1, .map a _, .map b _ =>
    (m.map a).entries.length = (m.map b).entries.length &&
      (m.map a).entries.all fun (k, x) =>
        match (m.map b).get? k with
        | some y => m.equalTo depth x y
        | none => false
  | _, _, _ => false

def equal (m : Memory) (a b : Object) : Bool := m.equalTo readDepth a b

/-- The text of a value as a key; undefined has none. -/
def keyText? (m : Memory) (o : Object) : Option String := (m.read o).text?

end Memory

/-- An integer cut to the 32 bits of a character code. -/
def wrapChar (n : Int) : Int := n.bmod (2 ^ (32 : Nat))

/-- A comparison with an operator; nothing for other operators. -/
def compareBy (op : BinaryOp) (less greater : Bool) : Option Object :=
  match op with
  | .less => some (.bool less)
  | .greater => some (.bool greater)
  | .lessEq => some (.bool !greater)
  | .greaterEq => some (.bool !less)
  | _ => none

def intOp (op : BinaryOp) (a b : Int) : Except OpError Object :=
  match op with
  | .add => .ok (.int (Decimal.wrap64 (a + b)))
  | .sub => .ok (.int (Decimal.wrap64 (a - b)))
  | .mul => .ok (.int (Decimal.wrap64 (a * b)))
  | .quo =>
    if b = 0 then .error (.breaks "runtime error: integer divide by zero")
    else .ok (.int (Decimal.wrap64 (a.tdiv b)))
  | .rem =>
    if b = 0 then .error (.breaks "runtime error: integer divide by zero")
    else .ok (.int (a.tmod b))
  | op => (compareBy op (decide (a < b)) (decide (b < a))).elim (.error .meaningless) .ok

def floatOp (op : BinaryOp) (a b : Float) : Except OpError Object :=
  match op with
  | .add => .ok (.float (a + b))
  | .sub => .ok (.float (a - b))
  | .mul => .ok (.float (a * b))
  | .quo => .ok (.float (a / b))
  | .less => .ok (.bool (a < b))
  | .greater => .ok (.bool (b < a))
  | .lessEq => .ok (.bool (a ≤ b))
  | .greaterEq => .ok (.bool (b ≤ a))
  | _ => .error .meaningless

def charOp (op : BinaryOp) (a b : Int) : Except OpError Object :=
  match op with
  | .add => .ok (.char (wrapChar (a + b)))
  | .sub => .ok (.char (wrapChar (a - b)))
  | op => (compareBy op (decide (a < b)) (decide (b < a))).elim (.error .meaningless) .ok

def stringOp (op : BinaryOp) (a b : String) : Except OpError Object :=
  match op with
  | .add => .ok (.string (a ++ b))
  | op => (compareBy op (decide (a < b)) (decide (b < a))).elim (.error .meaningless) .ok

/-- Applies an operator. -/
def operate (op : BinaryOp) (a b : Object) (m : Memory) : Except OpError (Object × Memory) :=
  match op, a, b with
  | .equal, a, b => .ok (.bool (m.equal a b), m)
  | .notEqual, a, b => .ok (.bool !(m.equal a b), m)
  | op, .int a, .int b => (intOp op a b).map (·, m)
  | op, .int a, .float b => (floatOp op (Decimal.ofInt a) b).map (·, m)
  | op, .float a, .int b => (floatOp op a (Decimal.ofInt b)).map (·, m)
  | op, .float a, .float b => (floatOp op a b).map (·, m)
  | op, .int a, .char b | op, .char a, .int b | op, .char a, .char b => (charOp op a b).map (·, m)
  | op, .string a, .string b => (stringOp op a b).map (·, m)
  | .add, .string a, b => .ok (.string (a ++ (m.read b).render), m)
  | .add, .array a k false, .array b n false | .add, .array a k true, .array b n true =>
    .ok (m.extend a k (m.items b n))
  | _, _, _ => .error .meaningless

/-- Looks a value up by a key. What is missing reads as undefined, and so does everything in
undefined. -/
def lookUp (o key : Object) (m : Memory) : Except OpError Object :=
  let badKey := OpError.fails ("invalid index type: " ++ key.typeName)
  match o with
  | .undefined => .ok .undefined
  | .array ref length _ =>
    match key with
    | .int n => .ok (if n < 0 then .undefined else (m.items ref length).getD n.toNat .undefined)
    | _ => .error badKey
  | .map ref _ =>
    match m.keyText? key with
    | some k => .ok (((m.map ref).get? k).getD .undefined)
    | none => .error badKey
  | .module name =>
    match m.keyText? key with
    | some k => .ok ((((members name).lookup k).map .function).getD .undefined)
    | none => .error badKey
  | .string s =>
    match key with
    | .int n =>
      .ok (if n < 0 then .undefined
        else ((s.toList[n.toNat]?).map fun c => .char c.toNat).getD .undefined)
    | _ => .error badKey
  | .error ref =>
    if m.keyText? key = some "value" then .ok (m.error ref)
    else .error (.fails "invalid index on error")
  | _ => .error (.fails ("not indexable: " ++ key.typeName))

/-- An object as a position in an array. -/
def position? : Object → Option Int
  | .int n | .char n => some n
  | .float x => some (Decimal.toInt64 x)
  | .bool b => some (if b then 1 else 0)
  | .string s => Decimal.readInt64? s
  | _ => none

/-- Changes what a key leads to. -/
def change (o key value : Object) (m : Memory) : Except OpError Memory :=
  match o with
  | .array ref length false =>
    match position? key with
    | none => .error (.fails "invalid index type")
    | some n =>
      if n < 0 || (length : Int) ≤ n then .error (.fails "index out of bounds")
      else .ok (m.setRow ref ((m.row ref).write n.toNat [value]))
  | .map ref false =>
    match m.keyText? key with
    | none => .error (.fails "invalid index type")
    | some k => .ok (m.setMap ref ((m.map ref).insert k value))
  | o => .error (.fails ("not index-assignable: " ++ o.typeName))

/-- Changes what some keys lead to, one after the other. -/
def changeAlong (o : Object) (keys : List Object) (value : Object) (m : Memory) :
    Except OpError Memory :=
  match keys with
  | [] => .ok m
  | [key] => change o key value m
  | key :: rest =>
    match o with
    | .bool _ | .int _ | .float _ | .char _ | .function _ =>
      .error (.fails ("not indexable: " ++ o.typeName))
    | _ => (lookUp o key m).bind fun inner => changeAlong inner rest value m

/-- A call with the wrong number of arguments. -/
def wrongCount (f : Callable) : OpError :=
  .fails ("wrong number of arguments in call to '" ++ f.typeName ++ "'")

/-- A call with an argument of the wrong type. -/
def wrongType (f : Callable) (name expected : String) (found : Object) : OpError :=
  .fails ("invalid type for argument '" ++ name ++ "' in call to '" ++ f.typeName ++ "': expected " ++
    expected ++ ", found " ++ found.typeName)

/-- The number of items, entries or bytes. -/
def length? (o : Object) (m : Memory) : Option Nat :=
  match o with
  | .array _ length _ => some length
  | .map ref _ => some (m.map ref).entries.length
  | .string s => some (Text.byteLength s)
  | .module name => some (members name).length
  | _ => none

/-- Calls a function; `ask` asks for a page and may be refused. -/
def callFunction {W : Type} (ask : String → W → Option String × W) (f : Callable)
    (args : List Object) (m : Memory) (w : W) : Except OpError (Object × Memory) × W :=
  match f, args with
  | .len, [o] =>
    match length? o m with
    | some n => (.ok (.int n, m), w)
    | none => (.error (wrongType f "first" "array/string/bytes/map" o), w)
  | .isUndefined, [o] => (.ok (.bool (o matches .undefined), m), w)
  | .isError, [o] => (.ok (.bool (o matches .error _), m), w)
  | .append, .array ref length _ :: item :: rest => (.ok (m.extend ref length (item :: rest)), w)
  | .append, o :: _ :: _ => (.error (wrongType f "first" "array" o), w)
  | .upper, [o] =>
    match m.keyText? o with
    | some s => (.ok (.string (Text.upper s), m), w)
    | none => (.error (wrongType f "first" "string(compatible)" o), w)
  | .switchPage, [o] =>
    match m.keyText? o with
    | none => (.error (wrongType f "key" "string" o), w)
    | some key =>
      match ask key w with
      | (none, w) => (.ok (.bool true, m), w)
      | (some refusal, w) => (.ok (m.newError (.string refusal)), w)
  | f, _ => (.error (wrongCount f), w)

end Script
end TileMind
