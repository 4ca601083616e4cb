import TileMind.Value.OrderedMap

/-!
# TileMind.Tile.CallSpec

The grammar of the arguments of a tile, and its flat form: one slot for each argument of the
grammar, numbered from left to right. A slot remembers the choices around it, outermost first, the
innermost condition it depends on, and whether it may be left out or repeated.

Numbers of choices come from a counter that is threaded through all flattenings, so that two
flattenings never share one.
-/

namespace TileMind

inductive ArgKind where
  | anonymous | parameter | modifier
deriving DecidableEq, Repr, Inhabited

def ArgKind.name : ArgKind → String
  | .anonymous => "anonymous"
  | .parameter => "parameter"
  | .modifier => "modifier"

/-- One argument: a bare value of a type, or the tile that announces it. -/
structure ArgSpec where
  kind : ArgKind
  tile : String := ""
  type : TypeId := ""
deriving DecidableEq, Repr, Inhabited

/-- The grammar of arguments. A condition applies its first branch when something of the named
choice is present, and its second one otherwise. -/
inductive CallSpec where
  | arg (spec : ArgSpec)
  | seq (items : List CallSpec)
  | bag (items : List CallSpec)
  | choice (name : String) (options : List CallSpec)
  | optional (item : CallSpec)
  | repeated (item : CallSpec) (atLeast atMost : Int)
  | conditional (choice : String) (present : CallSpec) (absent : Option CallSpec)
deriving Repr

namespace CallSpec

def anon (type : TypeId) : CallSpec := .arg { kind := .anonymous, type := type }
def param (tile : String) : CallSpec := .arg { kind := .parameter, tile := tile }
def mod (tile : String) : CallSpec := .arg { kind := .modifier, tile := tile }

end CallSpec

/-- A branch of a condition. -/
structure SlotCondition where
  choice : String
  absent : Bool := false
deriving DecidableEq, Repr, Inhabited

/-- One argument position. `groups` are the choices around it, outermost first; `group` and `option`
are the innermost one (0 if there is none) and the place in it. -/
structure Slot where
  id : Nat
  arg : ArgSpec
  group : Nat := 0
  option : Nat := 0
  groups : List Nat := []
  condition : Option SlotCondition := none
  optional : Bool := false
  repeats : Bool := false
deriving DecidableEq, Repr, Inhabited

/-- The flat form of a grammar. `choices` numbers the named choices. -/
structure FlatSpec where
  slots : List Slot := []
  choices : Fields Nat := {}
deriving DecidableEq, Repr, Inhabited

namespace FlatSpec

/-- The first slot of a parameter or modifier tile. -/
def slot? (f : FlatSpec) (kind : ArgKind) (tile : String) : Option Slot :=
  f.slots.find? fun s => s.arg.kind = kind && s.arg.tile = tile

end FlatSpec

namespace CallSpec

/-- What surrounds an argument: choices with the option taken in each, innermost first, the innermost
condition, and whether something around it is optional or repeated. -/
structure Around where
  choices : List (Nat × Nat) := []
  condition : Option SlotCondition := none
  optional : Bool := false
  repeats : Bool := false

def Around.slot (a : Around) (id : Nat) (arg : ArgSpec) : Slot :=
  { id := id
    arg := arg
    group := (a.choices.head?.map Prod.fst).getD 0
    option := (a.choices.head?.map Prod.snd).getD 0
    groups := a.choices.reverse.map Prod.fst
    condition := a.condition
    optional := a.optional
    repeats := a.repeats }

mutual

/-- Appends the slots of a grammar; the number is the last choice given out. -/
def flattenInto : CallSpec → Around → FlatSpec × Nat → FlatSpec × Nat
  | .arg spec, around, (flat, last) =>
    ({ flat with slots := flat.slots ++ [around.slot flat.slots.length spec] }, last)
  | .seq items, around, acc => flattenAll items around acc
  | .bag items, around, acc => flattenAll items around acc
  | .choice name options, around, (flat, last) =>
    let group := last + 1
    let choices := if name = "" then flat.choices else flat.choices.insert name group
    flattenOptions options 0 group around ({ flat with choices := choices }, group)
  | .optional item, around, acc => flattenInto item { around with optional := true } acc
  | .repeated item _ _, around, acc => flattenInto item { around with repeats := true } acc
  | .conditional name present none, around, acc =>
    flattenInto present { around with condition := some ⟨name, false⟩ } acc
  | .conditional name present (some absent), around, acc =>
    flattenInto absent { around with condition := some ⟨name, true⟩ }
      (flattenInto present { around with condition := some ⟨name, false⟩ } acc)
termination_by structural spec => spec

def flattenAll : List CallSpec → Around → FlatSpec × Nat → FlatSpec × Nat
  | [], _, acc => acc
  | item :: rest, around, acc => flattenAll rest around (flattenInto item around acc)
termination_by structural items => items

def flattenOptions : List CallSpec → Nat → Nat → Around → FlatSpec × Nat → FlatSpec × Nat
  | [], _, _, _, acc => acc
  | item :: rest, i, group, around, acc =>
    flattenOptions rest (i + 1) group around
      (flattenInto item { around with choices := (group, i) :: around.choices } acc)
termination_by structural items => items

end

/-- The flat form of a grammar, and the last choice given out. -/
def flatten (spec : Option CallSpec) (last : Nat) : FlatSpec × Nat :=
  match spec with
  | some spec => flattenInto spec {} ({}, last)
  | none => ({}, last)

end CallSpec

end TileMind
