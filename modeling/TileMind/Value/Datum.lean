import TileMind.Value.Fault
import TileMind.Value.OrderedMap

/-!
# TileMind.Value.Datum

Values as trees. A datum holds everything inside itself, so it has no identity and cannot change:
it is what constants are, and what is seen of a value at one moment.
-/

namespace TileMind

inductive Datum where
  | scalar (s : Scalar)
  | list (type : TypeId) (items : List Datum)
  | map (type : TypeId) (entries : List (Scalar × Datum))
  | struct (type : TypeId) (fields : List (String × Datum))
  | handle (id : Int)
  | error (fault : Fault)
deriving Repr

namespace Datum

instance : Inhabited Datum := ⟨.scalar .unknown⟩

def kind : Datum → Kind
  | .scalar s => s.kind.kind
  | .list _ _ => .list
  | .map _ _ => .map
  | .struct _ _ => .struct
  | .handle _ => .handle
  | .error _ => .error

def isPrimitive (d : Datum) : Bool := d.kind.isPrimitive

/-- A datum that may be a key of a map. -/
def scalar? : Datum → Option Scalar
  | .scalar s => some s
  | _ => none

def string? : Datum → Option String
  | .scalar s => s.string?
  | _ => none

mutual

/-- How a datum is shown. -/
def render : Datum → String
  | .scalar s => s.render
  | .list _ items => "[" ++ ", ".intercalate (renderItems items) ++ "]"
  | .map _ entries => "\x7b" ++ ", ".intercalate (renderEntries entries) ++ "\x7d"
  | .struct type _ => "<" ++ type ++ ">"
  | .handle id => "<handle " ++ Decimal.integer id ++ ">"
  | .error fault => "<error " ++ fault.text ++ ">"
termination_by structural d => d

def renderItems : List Datum → List String
  | [] => []
  | d :: rest => d.render :: renderItems rest
termination_by structural ds => ds

def renderEntries : List (Scalar × Datum) → List String
  | [] => []
  | (k, d) :: rest => (k.render ++ ": " ++ d.render) :: renderEntries rest
termination_by structural es => es

end

end Datum

end TileMind
