import TileMind.Doc.Value
import TileMind.Row.Typing

/-!
# TileMind.Doc.Row

Tiles, rows and the problems in them as documents.
-/

namespace TileMind

namespace CallSpec

/-- Reads a grammar nested at most `depth` deep: a list of a word and what it applies to. -/
def ofDocTo : (depth : Nat) → Doc → Option CallSpec
  | 0, _ => none
  | depth + 1, d =>
    let rest (n : Nat) : List CallSpec := (d.items.drop n).filterMap (ofDocTo depth)
    let item (n : Nat) : CallSpec := (ofDocTo depth (d.nth n)).getD (.seq [])
    let word := (d.nth 1).asText
    match (d.nth 0).asText with
    | "anon" => some (.anon word)
    | "param" => some (.param word)
    | "mod" => some (.mod word)
    | "seq" => some (.seq (rest 1))
    | "bag" => some (.bag (rest 1))
    | "choice" => some (.choice word (rest 2))
    | "opt" => some (.optional (item 1))
    | "repeat" => some (.repeated (item 1) (d.nth 2).asInt (d.nth 3).asInt)
    | "cond" => some (.conditional word (item 2) (ofDocTo depth (d.nth 3)))
    | _ => none

def ofDoc? (d : Doc) : Option CallSpec := ofDocTo (d.depth + 1) d

/-- Whether a part is missing in a grammar nested at most `depth` deep. Only the second branch of a
condition may be. -/
def hasGapTo : (depth : Nat) → Doc → Bool
  | 0, _ => false
  | depth + 1, d =>
    let isGap (part : Doc) : Bool := match part with
      | .null => true
      | part => hasGapTo depth part
    match (d.nth 0).asText with
    | "seq" | "bag" => (d.items.drop 1).any isGap
    | "choice" => (d.items.drop 2).any isGap
    | "opt" | "repeat" => isGap (d.nth 1)
    | "cond" => isGap (d.nth 2) || hasGapTo depth (d.nth 3)
    | _ => false

def hasGap (d : Doc) : Bool := hasGapTo (d.depth + 1) d

end CallSpec

namespace FlatSpec

/-- The choices of a flat grammar, by number. -/
def choiceNumbers (f : FlatSpec) : List Nat :=
  let used := (f.slots.flatMap Slot.groups ++ f.choices.entries.map Prod.snd).filter (· ≠ 0)
  (used.mergeSort fun a b => a ≤ b).eraseDups

/-- A flat grammar; choices are numbered from 1 on, whatever numbers they have. -/
def toDoc (f : FlatSpec) : Doc :=
  let known := f.choiceNumbers
  let rank (n : Nat) : Doc := .nat (if n = 0 then 0 else known.findIdx (· = n) + 1)
  .record
    [("slots", .each f.slots fun s =>
        .record [("id", .nat s.id), ("kind", .text s.arg.kind.name), ("tile", .text s.arg.tile),
          ("type", .text s.arg.type), ("group", rank s.group), ("option", .nat s.option),
          ("groups", .each s.groups rank),
          ("cond", .option s.condition fun c => .list [.text c.choice, .bool c.absent]),
          ("optional", .bool s.optional), ("repeat", .bool s.repeats)]),
      ("choices", .each f.choices.entries fun e => .list [.text e.1, rank e.2])]

end FlatSpec

def Tile.toDoc (t : Tile) : Doc :=
  .record
    [("id", .text t.id), ("kind", .text t.kind.name), ("fn", .int t.fn), ("fn_name", .text t.fnName),
      ("async", .bool t.async), ("output", .text t.output), ("value", .text t.value),
      ("spec", t.spec.toDoc)]

def Row.Position.toDoc (p : Row.Position) : Doc := .list [.nat p.offset, .nat p.line, .nat p.column]

def Row.Token.toDoc (t : Row.Token) : Doc :=
  .list [.text t.kind.name, .text t.literal, .nat t.pos.offset, .nat t.pos.line,
    .nat t.pos.column, .text t.render]

def Diagnostic.toDoc (d : Diagnostic) : Doc :=
  .record
    [("code", .text d.code.name), ("severity", .text d.severity.name), ("message", .text d.message),
      ("rule", .text d.rule), ("node", .nat d.node), ("pos", d.pos.toDoc), ("text", .text d.render)]

namespace Row

def TypeInfo.toDoc (i : TypeInfo) : Doc :=
  .record
    [("inferred", .text i.inferred), ("expected", .text i.expected),
      ("overload", .option i.overload fun o => .text o.render),
      ("conversion", .each i.conversion fun c => .texts [c.source, c.target]),
      ("lval", .bool i.isPlace)]

/-- A node: its number and place, what it is, and its type if there are types. -/
def nodeDoc (types : Option TypeTable) (m : Mark) (kind : String) (parts : List (String × Doc)) :
    Doc :=
  let type := match types with
    | none => []
    | some t => [("type", Doc.option (t.get? m.id) TypeInfo.toDoc)]
  .record ([("id", .nat m.id), ("pos", m.pos.toDoc), ("node", .text kind)] ++ parts ++ type)

mutual

/-- The tree of a row, with types if there are any. -/
def Expr.toDoc (types : Option TypeTable) : Expr → Doc
  | .binary m op left right => nodeDoc types m "binary"
      [("op", .text op.id), ("left", left.toDoc types), ("right", right.toDoc types)]
  | .unary m op operand => nodeDoc types m "unary"
      [("op", .text op.id), ("operand", operand.toDoc types)]
  | .literal m value => nodeDoc types m "literal" [("value", value.toDoc)]
  | .variable m name => nodeDoc types m "variable" [("name", .text name)]
  | .field m object name => nodeDoc types m "field"
      [("object", object.toDoc types), ("field", .text name)]
  | .assign m target value => nodeDoc types m "assignment"
      [("target", target.toDoc types), ("value", value.toDoc types)]
  | .parameter m tile value => nodeDoc types m "parameter"
      [("tile", .text tile.id), ("value", value.toDoc types)]
  | .modifier m tile count => nodeDoc types m "modifier"
      [("tile", .text tile.id), ("count", .nat count)]
  | .call m tile args => nodeDoc types m tile.kind.name
      [("tile", .text tile.id), ("args", .list (argDocs types args))]
  | .empty m => nodeDoc types m "empty" []
  | .error m message => nodeDoc types m "error" [("message", .text message)]
termination_by structural e => e

def argDocs (types : Option TypeTable) : Args → List Doc
  | .nil => []
  | .cons slot value rest => .list [.nat slot, value.toDoc types] :: argDocs types rest
termination_by structural args => args

end

end Row

end TileMind
