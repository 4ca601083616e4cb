import TileMind.Decimal.Layout
import TileMind.Text.Quoted

/-!
# TileMind.Value.Scalar

Values without parts. A scalar has a kind and three payload fields, as in program files; a kind
gives meaning to some of them, and the others are carried along. Two scalars are the same when kind
and all payloads agree, numbers being compared as numbers: `0` is `-0`, and a NaN is not itself.
-/

namespace TileMind

/-- The name of a type. Names of composite types are derived from their shape. -/
abbrev TypeId := String

namespace TypeId

def unknown : TypeId := "unknown"
def void : TypeId := "void"
def nil : TypeId := "nil"
def boolean : TypeId := "boolean"
def number : TypeId := "number"
def string : TypeId := "string"

/-- The type of the slot-keyed map of arguments built at every call of a tile. -/
def args : TypeId := "args"

end TypeId

/-- The kinds of values, in the order of their codes in program files. -/
inductive Kind where
  | unknown | void | nil | boolean | number | string | enum
  | list | map | struct | handle | error
deriving DecidableEq, Repr, Inhabited

namespace Kind

def name : Kind → String
  | .unknown => "unknown"
  | .void => "void"
  | .nil => "nil"
  | .boolean => "boolean"
  | .number => "number"
  | .string => "string"
  | .enum => "enum"
  | .list => "list"
  | .map => "map"
  | .struct => "struct"
  | .handle => "handle"
  | .error => "error"

def code : Kind → Nat
  | .unknown => 0
  | .void => 1
  | .nil => 2
  | .boolean => 3
  | .number => 4
  | .string => 5
  | .enum => 6
  | .list => 7
  | .map => 8
  | .struct => 9
  | .handle => 10
  | .error => 11

/-- Whether values of the kind are immutable and may be keys of a map. -/
def isPrimitive : Kind → Bool
  | .void | .nil | .boolean | .number | .string | .enum => true
  | _ => false

end Kind

/-- The kinds of scalars. -/
inductive ScalarKind where
  | unknown | void | nil | boolean | number | string | enum
deriving DecidableEq, Repr, Inhabited

def ScalarKind.kind : ScalarKind → Kind
  | .unknown => .unknown
  | .void => .void
  | .nil => .nil
  | .boolean => .boolean
  | .number => .number
  | .string => .string
  | .enum => .enum

/-- A value without parts. -/
structure Scalar where
  kind : ScalarKind := .unknown
  num : Float := 0.0
  text : String := ""
  type : TypeId := ""
deriving DecidableEq, Repr

instance : Inhabited Scalar := ⟨{}⟩

namespace Scalar

def unknown : Scalar := {}
def void : Scalar := { kind := .void }
def nil : Scalar := { kind := .nil }
def bool (b : Bool) : Scalar := { kind := .boolean, num := if b then 1.0 else 0.0 }
def number (x : Float) : Scalar := { kind := .number, num := x }
def int (n : Int) : Scalar := .number (Decimal.ofInt n)
def string (s : String) : Scalar := { kind := .string, text := s }
def enum (type : TypeId) (key : String) : Scalar := { kind := .enum, type := type, text := key }

/-- Kind and payloads agree. -/
def same (a b : Scalar) : Bool :=
  a.kind = b.kind && a.num == b.num && a.text = b.text && a.type = b.type

def isPrimitive (s : Scalar) : Bool := s.kind.kind.isPrimitive

/-- The type of a scalar: that of its kind, or the one an enum key belongs to. -/
def typeId (s : Scalar) : TypeId :=
  match s.kind with
  | .unknown => .unknown
  | .void => .void
  | .nil => .nil
  | .boolean => .boolean
  | .number => .number
  | .string => .string
  | .enum => s.type

def number? (s : Scalar) : Option Float := if s.kind = .number then some s.num else none

def bool? (s : Scalar) : Option Bool :=
  if s.kind = .boolean then some (s.num != 0.0) else none

def string? (s : Scalar) : Option String := if s.kind = .string then some s.text else none

/-- The test of conditions: nothing, and only nothing, is false beside `false` itself. -/
def truthy (s : Scalar) : Bool :=
  match s.kind with
  | .boolean => s.num != 0.0
  | .unknown | .void | .nil => false
  | .number | .string | .enum => true

/-- How a scalar is shown. -/
def render (s : Scalar) : String :=
  match s.kind with
  | .unknown => "<unknown>"
  | .void => "<void>"
  | .nil => "nil"
  | .boolean => if s.num != 0.0 then "true" else "false"
  | .number => Decimal.general s.num
  | .string => Text.quote s.text
  | .enum => s.type ++ "." ++ s.text

end Scalar

end TileMind
