import TileMind.Brain.Definition
import TileMind.Registry.Types

/-!
# TileMind.Code.Scope

Variables at compile time. A rule sees its own locals, then those of the rules around it, then the
globals. A name that nobody declares becomes a global when code first refers to it; such a global
has no declared type.
-/

namespace TileMind

/-- A variable: its number in the program and its type. -/
structure Binding where
  id : Nat
  type : TypeId := .unknown
  isDeclared : Bool := true
deriving DecidableEq, Repr, Inhabited

abbrev Locals := List (String × Binding)

/-- The locals visible in a rule: its own ones first, then those of each rule around it. -/
abbrev Chain := List Locals

/-- The nearest local of a name. -/
def Chain.find? (chain : Chain) (name : String) : Option Binding :=
  chain.findSome? fun locals => locals.lookup name

/-- The names of all variables so far, and the globals among them. -/
structure Names where
  list : List String := []
  globals : Locals := []
deriving DecidableEq, Repr, Inhabited

namespace Names

def add (n : Names) (name : String) : Nat × Names :=
  (n.list.length, { n with list := n.list ++ [name] })

def addGlobal (n : Names) (name : String) (type : TypeId) (isDeclared : Bool) : Nat × Names :=
  let (id, n) := n.add name
  (id, { n with globals := n.globals ++ [(name, ⟨id, type, isDeclared⟩)] })

/-- The variable a rule means by a name; an undeclared name becomes a global. -/
def resolve (n : Names) (chain : Chain) (name : String) : Nat × Names :=
  match chain.find? name with
  | some b => (b.id, n)
  | none =>
    match n.globals.lookup name with
    | some b => (b.id, n)
    | none => n.addGlobal name .unknown false

/-- The declared type of what a rule means by a name. -/
def typeOf? (n : Names) (chain : Chain) (name : String) : Option TypeId :=
  match chain.find? name with
  | some b => some b.type
  | none =>
    match n.globals.lookup name with
    | some b => if b.isDeclared then some b.type else none
    | none => none

end Names

end TileMind
