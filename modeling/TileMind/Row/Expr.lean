import TileMind.Row.Token
import TileMind.Tile.Catalog

/-!
# TileMind.Row.Expr

The tree of a row. Every node has a number, unique in a compilation, and the place of the token that
made it. A call binds some slots of its tile; a modifier counts how often it was given.
-/

namespace TileMind
namespace Row

inductive BinaryOp where
  | or | and | eq | ne | lt | le | gt | ge | add | sub | mul | div | mod
deriving DecidableEq, Repr, Inhabited

def BinaryOp.id : BinaryOp → OperatorId
  | .or => "or"
  | .and => "and"
  | .eq => "eq"
  | .ne => "ne"
  | .lt => "lt"
  | .le => "le"
  | .gt => "gt"
  | .ge => "ge"
  | .add => "add"
  | .sub => "sub"
  | .mul => "mul"
  | .div => "div"
  | .mod => "mod"

/-- Operators that decide by their left operand alone, where it suffices. -/
def BinaryOp.isShortCircuit : BinaryOp → Bool
  | .or | .and => true
  | _ => false

inductive UnaryOp where
  | not | neg
deriving DecidableEq, Repr, Inhabited

def UnaryOp.id : UnaryOp → OperatorId
  | .not => "not"
  | .neg => "neg"

/-- The number and the place of a node. -/
structure Mark where
  id : Nat
  pos : Position := {}
deriving DecidableEq, Repr, Inhabited

mutual

inductive Expr where
  | binary (mark : Mark) (op : BinaryOp) (left right : Expr)
  | unary (mark : Mark) (op : UnaryOp) (operand : Expr)
  | literal (mark : Mark) (value : Scalar)
  | variable (mark : Mark) (name : String)
  | field (mark : Mark) (object : Expr) (name : String)
  | assign (mark : Mark) (target value : Expr)
  | parameter (mark : Mark) (tile : Tile) (value : Expr)
  | modifier (mark : Mark) (tile : Tile) (count : Nat)
  | call (mark : Mark) (tile : Tile) (args : Args)
  | empty (mark : Mark)
  | error (mark : Mark) (message : String)

/-- The bound slots of a call, in increasing order. -/
inductive Args where
  | nil
  | cons (slot : Nat) (value : Expr) (rest : Args)

end

namespace Args

def toList : Args → List (Nat × Expr)
  | .nil => []
  | .cons slot value rest => (slot, value) :: rest.toList

def ofList : List (Nat × Expr) → Args
  | [] => .nil
  | (slot, value) :: rest => .cons slot value (ofList rest)

end Args

namespace Expr

instance : Inhabited Expr := ⟨.empty default⟩

def mark : Expr → Mark
  | .binary m _ _ _ | .unary m _ _ | .literal m _ | .variable m _ | .field m _ _
  | .assign m _ _ | .parameter m _ _ | .modifier m _ _ | .call m _ _ | .empty m | .error m _ => m

def id (e : Expr) : Nat := e.mark.id

def pos (e : Expr) : Position := e.mark.pos

/-- Whether something can be stored in what the expression names. -/
def isPlace : Expr → Bool
  | .variable _ _ | .field _ _ _ => true
  | _ => false

def isEmpty : Expr → Bool
  | .empty _ => true
  | _ => false

mutual

/-- The node and everything below it, from the top down and from left to right. -/
def nodes : Expr → List Expr
  | e@(.binary _ _ left right) => e :: (left.nodes ++ right.nodes)
  | e@(.unary _ _ operand) => e :: operand.nodes
  | e@(.field _ object _) => e :: object.nodes
  | e@(.assign _ target value) => e :: (target.nodes ++ value.nodes)
  | e@(.parameter _ _ value) => e :: value.nodes
  | e@(.call _ _ args) => e :: argNodes args
  | e@(.literal _ _) | e@(.variable _ _) | e@(.modifier _ _ _) | e@(.empty _) | e@(.error _ _) =>
    [e]
termination_by structural e => e

def argNodes : Args → List Expr
  | .nil => []
  | .cons _ value rest => value.nodes ++ argNodes rest
termination_by structural args => args

end

end Expr

end Row
end TileMind
