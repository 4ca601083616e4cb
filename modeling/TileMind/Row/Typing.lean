import TileMind.Row.Diagnostic

/-!
# TileMind.Row.Typing

Types of the nodes of a row, in two passes. The first goes down and records the type each node is
expected to have; the second comes up, infers the type each node has, picks an overload for every
operator and records an implicit conversion wherever the two types differ.

* `typeExpr` runs both passes.
* `pickOverload` takes the overload that the cheapest conversions reach; operands of unknown type fit
  every parameter.
-/

namespace TileMind
namespace Row

/-- What is known about the type of a node. The conversions apply to the value of the node. -/
structure TypeInfo where
  inferred : TypeId := .unknown
  expected : TypeId := .unknown
  overload : Option Overload := none
  conversion : List Conversion := []
  isPlace : Bool := false
deriving DecidableEq, Repr, Inhabited

/-- The types of nodes, by number. -/
structure TypeTable where
  entries : List (Nat × TypeInfo) := []
deriving DecidableEq, Repr, Inhabited

namespace TypeTable

def get? (t : TypeTable) (id : Nat) : Option TypeInfo := t.entries.lookup id

def get (t : TypeTable) (id : Nat) : TypeInfo := (t.get? id).getD {}

def size (t : TypeTable) : Nat := t.entries.length

/-- Changes the entry of a node; a node without an entry gets one. -/
def modify (t : TypeTable) (id : Nat) (f : TypeInfo → TypeInfo) : TypeTable :=
  if t.entries.any fun e => e.1 = id then
    ⟨t.entries.map fun e => if e.1 = id then (e.1, f e.2) else e⟩
  else ⟨t.entries ++ [(id, f {})]⟩

end TypeTable

/-- What typing refers to: the registries, the declared types of variables and the rule reported on.
A variable that is not declared has no type. -/
structure TypeScope (σ : Type) where
  services : Services σ
  vars : String → Option TypeId := fun _ => none
  rule : String := ""

structure Typing where
  table : TypeTable := {}
  diags : Diagnostics := []
deriving Inhabited

namespace Typing

def modify (s : Typing) (id : Nat) (f : TypeInfo → TypeInfo) : Typing :=
  { s with table := s.table.modify id f }

def report (s : Typing) (d : Diagnostic) : Typing := { s with diags := s.diags ++ [d] }

end Typing

section Expecting

variable {σ : Type} (scope : TypeScope σ)

/-- The declared type of an assignment target. -/
def declaredType : Expr → TypeId
  | .variable _ name => (scope.vars name).getD .unknown
  | .field _ (.variable _ object) name =>
    match (scope.vars object).bind scope.services.types.get? with
    | some d => if d.kind = .struct then ((d.field? name).map FieldDef.type).getD .unknown else .unknown
    | none => .unknown
  | _ => .unknown

/-- Records an expected type, unless it says nothing. -/
def expectType (id : Nat) (type : TypeId) (s : Typing) : Typing :=
  s.modify id fun info =>
    if type = "" || type = .unknown then info else { info with expected := type }

/-- The type expected in a slot of a call. Parameters and modifiers know their own. -/
def slotType (tile : Tile) (slot : Nat) : TypeId :=
  match tile.spec.slots[slot]? with
  | some s => if s.arg.kind = .anonymous then s.arg.type else .unknown
  | none => .unknown

mutual

/-- Records the expected types of a node and of everything below it. -/
def expect : Expr → TypeId → Typing → Typing
  | .assign m target value, type, s =>
    let declared := declaredType scope target
    let s := expectType m.id type s
    let s := expect target declared s
    let s := s.modify target.id fun info => { info with isPlace := true }
    expect value declared s
  | .parameter m tile value, type, s =>
    let s := (expectType m.id type s).modify m.id fun info => { info with expected := tile.value }
    expect value tile.value s
  | .modifier m _ _, type, s =>
    (expectType m.id type s).modify m.id fun info => { info with expected := .number }
  | .call m tile args, type, s =>
    let own : TypeId := if tile.kind = .sensor then tile.output else .void
    let s := (expectType m.id type s).modify m.id fun info => { info with expected := own }
    expectArgs tile args s
  | .binary m _ left right, type, s =>
    expect right .unknown (expect left .unknown (expectType m.id type s))
  | .unary m _ operand, type, s => expect operand .unknown (expectType m.id type s)
  | .field m object _, type, s => expect object .unknown (expectType m.id type s)
  | .literal m _, type, s | .variable m _, type, s | .empty m, type, s | .error m _, type, s =>
    expectType m.id type s
termination_by structural e => e

def expectArgs (tile : Tile) : Args → Typing → Typing
  | .nil, s => s
  | .cons slot value rest, s => expectArgs tile rest (expect value (slotType tile slot) s)
termination_by structural args => args

end

end Expecting

section Inferring

variable {σ : Type} (scope : TypeScope σ)

/-- The conversions needed to turn a node of one type into another. Unknown and nil values pass as
they are; a missing route is a type mismatch. -/
def convert (m : Mark) (source target : TypeId) (s : Typing) : List Conversion × Typing :=
  if target = "" || target = .unknown || target = .void || source = .unknown || source = .nil ||
      source = target then ([], s)
  else
    match scope.services.conversions.route? source target with
    | some route => (route.path, s)
    | none =>
      ([], s.report (.ofMark .typeMismatch .error scope.rule m
        ("cannot convert " ++ source ++ " to " ++ target)))

/-- The type of a field of an object of the given type. -/
def fieldType (m : Mark) (object : TypeId) (name : String) (s : Typing) : TypeId × Typing :=
  let missing := (TypeId.unknown, s.report (.ofMark .unknownField .error scope.rule m
    (object ++ " has no field " ++ Text.quote name)))
  if object = .unknown then (.unknown, s)
  else
    match scope.services.types.get? object with
    | none => (.unknown, s)
    | some d =>
      match d.kind with
      | .struct =>
        match d.field? name with
        | some f => (f.type, s)
        | none => if d.hasReader then (.unknown, s) else missing
      | .map => (if d.elem = "" then .unknown else d.elem, s)
      | _ => missing

/-- An overload with what it takes to use it. -/
structure Candidate where
  overload : Overload
  paths : List (List Conversion)
  cost : Int
  wildcards : Nat
deriving Repr, Inhabited

/-- The conversions of operands to parameters, if there are any for all of them, with the sum of
their costs, which wraps around, and the number of operands of unknown type. -/
def reach? (conversions : Conversions) :
    List TypeId → List TypeId → Option (List (List Conversion) × Int × Nat)
  | operand :: operands, param :: params =>
    let first : Option (List Conversion × Int × Nat) :=
      if operand = .unknown then some ([], 0, 1)
      else (conversions.route? operand param).map fun route => (route.path, route.cost, 0)
    match first, reach? conversions operands params with
    | some (path, cost, wild), some (paths, costs, wilds) =>
      some (path :: paths, Decimal.wrap64 (cost + costs), wild + wilds)
    | _, _ => none
  | _, _ => some ([], 0, 0)

/-- Whether a candidate is better than the best one before it: cheaper, or as cheap with fewer
operands of unknown type. One whose cost is negative gives way to any later one. -/
def Candidate.beats (c : Candidate) : Option Candidate → Bool
  | none => true
  | some best =>
    best.cost < 0 || c.cost < best.cost || (c.cost = best.cost && c.wildcards < best.wildcards)

/-- The best overload of an operator for operands of the given types. -/
def pickOverload (services : Services σ) (op : OperatorId) (types : List TypeId) : Option Candidate :=
  (services.operators.ofArity op types.length).foldl
    (fun best o =>
      match reach? services.conversions types o.args with
      | none => best
      | some (paths, cost, wildcards) =>
        let c : Candidate := ⟨o, paths, cost, wildcards⟩
        if c.beats best then some c else best)
    none

/-- Records the conversions of operands. -/
def convertOperands : List Nat → List TypeId → List (List Conversion) → Typing → Typing
  | id :: ids, param :: params, path :: paths, s =>
    let s := if path.isEmpty then s
      else s.modify id fun info => { info with expected := param, conversion := path }
    convertOperands ids params paths s
  | _, _, _, s => s

/-- Types an operator node: its overload and the conversions of its operands. -/
def resolve (m : Mark) (op : OperatorId) (operands : List (Nat × TypeId)) (s : Typing) :
    TypeId × Typing :=
  let types := operands.map Prod.snd
  match pickOverload scope.services op types with
  | none =>
    (.unknown, s.report (.ofMark .missingOperatorOverload .error scope.rule m
      ("no overload of " ++ op ++ " for [" ++ " ".intercalate types ++ "]")))
  | some best =>
    let s := s.modify m.id fun info => { info with overload := some best.overload }
    (best.overload.result,
      convertOperands (operands.map Prod.fst) best.overload.args best.paths s)

/-- Records the type of a node that is no assignment, with its conversion to the expected one. -/
def settle (m : Mark) (type : TypeId) (s : Typing) : TypeId × Typing :=
  let (path, s) := convert scope m type (s.table.get m.id).expected s
  (type, s.modify m.id fun info => { info with inferred := type, conversion := path })

mutual

/-- Infers the type of a node after the types below it. -/
def infer : Expr → Typing → TypeId × Typing
  | .literal m value, s => settle scope m value.typeId s
  | .variable m name, s =>
    match scope.vars name with
    | some type => settle scope m type s
    | none =>
      settle scope m .unknown (s.report (.ofMark .unknownVariable .warning scope.rule m
        ("variable $" ++ name ++ " is not declared")))
  | .field m object name, s =>
    let (type, s) := infer object s
    let (type, s) := fieldType scope m type name s
    settle scope m type s
  | .assign m target value, s =>
    let (wanted, s) := infer target s
    let (found, s) := infer value s
    let info := s.table.get value.id
    let (path, s) :=
      if info.expected ≠ wanted && info.conversion.isEmpty then convert scope m found wanted s
      else ([], s)
    let type := if wanted = .unknown then found else wanted
    (type, s.modify m.id fun info => { info with inferred := type, conversion := path })
  | .binary m op left right, s =>
    let (x, s) := infer left s
    let (y, s) := infer right s
    if op.isShortCircuit then settle scope m (if x = y then x else .unknown) s
    else
      let (type, s) := resolve scope m op.id [(left.id, x), (right.id, y)] s
      settle scope m type s
  | .unary m op operand, s =>
    let (x, s) := infer operand s
    let (type, s) := resolve scope m op.id [(operand.id, x)] s
    settle scope m type s
  | .parameter m tile value, s =>
    let (_, s) := infer value s
    settle scope m tile.value s
  | .modifier m _ _, s => settle scope m .number s
  | .call m tile args, s =>
    let s := inferArgs args s
    settle scope m (if tile.kind = .sensor then tile.output else .void) s
  | .empty m, s => settle scope m .void s
  | .error m _, s => settle scope m .unknown s
termination_by structural e => e

def inferArgs : Args → Typing → Typing
  | .nil, s => s
  | .cons _ value rest, s => inferArgs rest (infer value s).2
termination_by structural args => args

end

/-- Both passes over a row. -/
def typeExpr (e : Expr) (s : Typing) : Typing := (infer scope e (expect scope e .unknown s)).2

end Inferring

end Row
end TileMind
