import TileMind.Script.Token

/-!
# TileMind.Script.Syntax

Expressions and statements of scripts. Expressions know their places in the text, since what fails
while a script runs is reported with one.
-/

namespace TileMind
namespace Script

/-- Operators on two values that are both computed first. -/
inductive BinaryOp where
  | add | sub | mul | quo | rem
  | less | greater | lessEq | greaterEq
  | equal | notEqual
deriving DecidableEq, Repr, Inhabited

def BinaryOp.sign : BinaryOp → String
  | .add => "+"
  | .sub => "-"
  | .mul => "*"
  | .quo => "/"
  | .rem => "%"
  | .less => "<"
  | .greater => ">"
  | .lessEq => "<="
  | .greaterEq => ">="
  | .equal => "=="
  | .notEqual => "!="

inductive UnaryOp where
  | not | negate | keep
deriving DecidableEq, Repr, Inhabited

/-- Values that are written down. -/
inductive Literal where
  | undefined
  | bool (b : Bool)
  | int (n : Int)
  | float (x : Float)
  | char (code : Int)
  | string (s : String)
deriving Repr, Inhabited

/-- An expression. A group is an expression in parentheses; `a.b` is the index of `a` by a string. -/
inductive Expr where
  | literal (place : Place) (value : Literal)
  | name (place : Place) (s : String)
  | array (place : Place) (items : List Expr)
  | map (place : Place) (entries : List (String × Expr))
  | group (place : Place) (e : Expr)
  | unary (place : Place) (op : UnaryOp) (e : Expr)
  | binary (op : BinaryOp) (left right : Expr)
  | both (left right : Expr)
  | either (left right : Expr)
  | choose (cond yes no : Expr)
  | index (e key : Expr)
  | call (f : Expr) (args : List Expr)
  | error (place : Place) (e : Expr)
  | immutable (place : Place) (e : Expr)
  | module (place : Place) (name : String)
deriving Repr, Inhabited

namespace Expr

/-- Where an expression starts. -/
def place : Expr → Place
  | .literal p _ | .name p _ | .array p _ | .map p _ | .group p _ | .unary p _ _ | .error p _
  | .immutable p _ | .module p _ => p
  | .binary _ e _ | .both e _ | .either e _ | .choose e _ _ | .index e _ | .call e _ => e.place

/-- The place of the last step that computes an expression. -/
def lastStep : Expr → Place
  | .group _ e | .unary _ .keep e => e.lastStep
  | .both _ e | .either _ e | .choose _ _ e => e.lastStep
  | e => e.place

end Expr

/-- What an assignment changes: a variable, or what the keys lead to from there. -/
structure Target where
  place : Place
  name : String
  keys : List Expr
deriving Repr, Inhabited

inductive Stmt where
  | skip
  | run (e : Expr)
  | define (target : Target) (e : Expr)
  | assign (target : Target) (e : Expr)
  | update (target : Target) (current : Expr) (op : BinaryOp) (e : Expr)
  | branch (cond : Expr) (yes no : List Stmt)
  | loop (cond : Option Expr) (body : List Stmt)
  | leave (place : Place)
  | again (place : Place)
deriving Repr, Inhabited

end Script
end TileMind
