import TileMind.Script.Object
import TileMind.Script.Reader

/-!
# TileMind.Script.Scope

Which names a script may use where. Every block has names of its own and sees those of the blocks
around it; a name is defined once in a block, and used after that only.
-/

namespace TileMind
namespace Script

/-- Why a script is refused before it ever runs. An assignment to the name of a built-in function
does not merely fail, it breaks the reader. -/
inductive SourceError where
  | unreadable
  | unresolved (place : Place) (name : String)
  | redeclared (place : Place) (name : String)
  | keyed (place : Place)
  | builtin (place : Place) (name : String)
  | noModule (place : Place) (name : String)
  | misplaced (place : Place) (word : String)
deriving DecidableEq, Repr

def SourceError.message : SourceError → String
  | .unreadable => "Parse Error: the statements cannot be read"
  | .unresolved p name => "Compile Error: unresolved reference '" ++ name ++ "'\n\tat " ++ p.render
  | .redeclared p name =>
    "Compile Error: '" ++ name ++ "' redeclared in this block\n\tat " ++ p.render
  | .keyed p => "Compile Error: operator ':=' not allowed with selector\n\tat " ++ p.render
  | .builtin p name =>
    "Compile Error: invalid assignment to the function '" ++ name ++ "'\n\tat " ++ p.render
  | .noModule p name => "Compile Error: module '" ++ name ++ "' not found\n\tat " ++ p.render
  | .misplaced p word => "Compile Error: " ++ word ++ " not allowed outside loop\n\tat " ++ p.render

/-- Whether the reader breaks. -/
def SourceError.isCrash : SourceError → Bool
  | .builtin _ _ => true
  | _ => false

/-- Names of built-in functions. They stand in the outermost block of every script. -/
def builtinNames : List String :=
  ["len", "copy", "append", "delete", "splice", "string", "int", "bool", "float", "char", "bytes",
    "time", "is_int", "is_float", "is_string", "is_bool", "is_char", "is_bytes", "is_array",
    "is_immutable_array", "is_map", "is_immutable_map", "is_iterable", "is_time", "is_error",
    "is_undefined", "is_function", "is_callable", "type_name", "format", "range"]

/-- The names of a block and of those around it, innermost first, and the modules at hand. -/
structure Scope where
  blocks : List (List String)
  modules : List String
deriving Repr

namespace Scope

def contains (s : Scope) (name : String) : Bool := s.blocks.any fun b => b.contains name

/-- Whether a name is that of a built-in function, and of no variable of an inner block. -/
def isBuiltin (s : Scope) (name : String) : Bool :=
  builtinNames.contains name && !(s.blocks.dropLast.any fun b => b.contains name)

/-- Whether the innermost block defines a name. -/
def defines (s : Scope) (name : String) : Bool :=
  (s.blocks.headD []).contains name || (s.blocks.tail.isEmpty && builtinNames.contains name)

def define (s : Scope) (name : String) : Scope :=
  match s.blocks with
  | [] => { s with blocks := [[name]] }
  | b :: bs => { s with blocks := (name :: b) :: bs }

/-- The scope inside a new block. -/
def inner (s : Scope) : Scope := { s with blocks := [] :: s.blocks }

mutual

/-- The first name or module in an expression that is not at hand. -/
def checkExpr (s : Scope) : Expr → Except SourceError Unit
  | .literal _ _ => .ok ()
  | .name p name => if s.contains name then .ok () else .error (.unresolved p name)
  | .module p name => if s.modules.contains name then .ok () else .error (.noModule p name)
  | .array _ items => s.checkExprs items
  | .map _ entries => s.checkEntries entries
  | .group _ e | .unary _ _ e | .error _ e | .immutable _ e => s.checkExpr e
  | .binary _ a b | .both a b | .either a b | .index a b => do
    s.checkExpr a
    s.checkExpr b
  | .choose c a b => do
    s.checkExpr c
    s.checkExpr a
    s.checkExpr b
  | .call f args => do
    s.checkExpr f
    s.checkExprs args
termination_by structural e => e

def checkExprs (s : Scope) : List Expr → Except SourceError Unit
  | [] => .ok ()
  | e :: es => do
    s.checkExpr e
    s.checkExprs es
termination_by structural es => es

def checkEntries (s : Scope) : List (String × Expr) → Except SourceError Unit
  | [] => .ok ()
  | (_, e) :: es => do
    s.checkExpr e
    s.checkEntries es
termination_by structural es => es

end

/-- Checks the variable of an assignment before its value, and its keys after it. -/
def checkTarget (s : Scope) (t : Target) (value : Except SourceError Unit) :
    Except SourceError Unit := do
  if s.contains t.name || s.isBuiltin t.name then pure () else .error (.unresolved t.place t.name)
  value
  s.checkExprs t.keys.reverse
  if s.isBuiltin t.name then .error (.builtin t.place t.name)

mutual

/-- Checks a statement; gives the scope after it. -/
def checkStmt (inLoop : Bool) : Stmt → Scope → Except SourceError Scope
  | .skip, s => .ok s
  | .run e, s => do
    s.checkExpr e
    return s
  | .define t e, s =>
    if !t.keys.isEmpty then .error (.keyed t.place)
    else if s.defines t.name then .error (.redeclared t.place t.name)
    else do
      s.checkExpr e
      return s.define t.name
  | .assign t e, s => do
    s.checkTarget t (s.checkExpr e)
    return s
  | .update t current _ e, s => do
    s.checkTarget t (do s.checkExpr current; s.checkExpr e)
    return s
  | .branch cond yes no, s => do
    s.checkExpr cond
    checkStmts inLoop yes s.inner
    checkStmts inLoop no s.inner
    return s
  | .loop cond body, s => do
    match cond with
    | some e => s.checkExpr e
    | none => pure ()
    checkStmts true body s.inner
    return s
  | .leave p, s => if inLoop then .ok s else .error (.misplaced p "break")
  | .again p, s => if inLoop then .ok s else .error (.misplaced p "continue")
termination_by structural st => st

def checkStmts (inLoop : Bool) : List Stmt → Scope → Except SourceError Unit
  | [], _ => .ok ()
  | st :: rest, s => do
    let s ← checkStmt inLoop st s
    checkStmts inLoop rest s
termination_by structural ss => ss

end

end Scope

/-- Modules a script may import unless told otherwise. -/
def standardModules : List String :=
  ["base64", "enum", "fmt", "hex", "json", "math", "rand", "text", "times"]

/-- Modules that there are. -/
def knownModules : List String := "os" :: standardModules

/-- Variables that every script has. -/
def givenNames : List String := ["args", "state", "tick", "elapsed", "result", "switch_page"]

/-- Reads a script and checks its names. -/
def parse (source : String) (modules : List String) : Except SourceError (List Stmt) :=
  match read? source with
  | none => .error .unreadable
  | some body =>
    let scope : Scope :=
      ⟨[givenNames ++ Callable.builtins.map Prod.fst], modules.filter knownModules.contains⟩
    (Scope.checkStmts false body scope).map fun _ => body

end Script
end TileMind
