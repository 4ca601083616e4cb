import TileMind.Value.Scalar

/-!
# TileMind.Registry.Operators

Overloads: an operator applied to operands of given types is a call of a host function.
-/

namespace TileMind

/-- The name of an operator, whatever the types of its operands. -/
abbrev OperatorId := String

structure Overload where
  op : OperatorId
  args : List TypeId
  result : TypeId
  fn : Int
  async : Bool := false
deriving DecidableEq, Repr, Inhabited

def Overload.render (o : Overload) : String :=
  o.op ++ "(" ++ ", ".intercalate o.args ++ ") -> " ++ o.result

inductive OperatorError where
  | sealed (op : OperatorId)
  | duplicate (existing : Overload)
deriving DecidableEq, Repr

def OperatorError.message : OperatorError → String
  | .sealed op => "operators: table sealed, cannot add " ++ op
  | .duplicate existing => "operators: duplicate overload " ++ existing.render

structure Operators where
  overloads : List Overload := []
  isSealed : Bool := false
deriving Repr, Inhabited

namespace Operators

/-- The overload for exactly these operand types. -/
def resolve? (t : Operators) (op : OperatorId) (args : List TypeId) : Option Overload :=
  t.overloads.find? fun o => o.op = op && o.args = args

def register (t : Operators) (o : Overload) : Except OperatorError Operators :=
  if t.isSealed then .error (.sealed o.op)
  else
    match t.resolve? o.op o.args with
    | some existing => .error (.duplicate existing)
    | none => .ok { t with overloads := t.overloads ++ [o] }

/-- The overloads of an operator with the given number of operands, in order of registration. -/
def ofArity (t : Operators) (op : OperatorId) (arity : Nat) : List Overload :=
  t.overloads.filter fun o => o.op = op && o.args.length = arity

def freeze (t : Operators) : Operators := { t with isSealed := true }

end Operators

end TileMind
