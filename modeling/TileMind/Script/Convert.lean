import TileMind.Script.Object

/-!
# TileMind.Script.Convert

Values of a brain as values of a script, and back. Containers nested more than 32 deep are cut off:
they become undefined on the way in, and nil on the way out.
-/

namespace TileMind
namespace Script

/-- Levels of containers that are converted, and the values in the last of them. -/
def maxDepth : Nat := 32

/-- The text of a number as a key. Below `2^53` a number without a fraction is written as an integer. -/
def numberText (x : Float) : String :=
  match Decimal.whole? x with
  | some n => if n.natAbs < 9007199254740992 then Decimal.integer n else Decimal.general x
  | none => Decimal.general x

/-- The key of a map entry as a string. -/
def keyText (k : Scalar) : String :=
  match k.kind with
  | .number => numberText k.num
  | .string | .enum => k.text
  | _ => k.render

/-- A value as a tree, with `left` levels left to convert. -/
def treeOfTo (h : Heap) : (left : Nat) → Value → Tree
  | 0, _ => .undefined
  | left + 1, v =>
    match v with
    | .scalar s =>
      match s.kind with
      | .boolean => .bool (s.num != 0.0)
      | .number => .float s.num
      | .string | .enum => .string s.text
      | _ => .undefined
    | .list _ ref => .array ((h.list ref).map (treeOfTo h left)) false
    | .map _ ref =>
      let pairs := (h.map ref).entries.map fun e => (keyText e.1, treeOfTo h left e.2)
      .map (Fields.ofList pairs).entries false
    | .struct _ ref => .map ((h.struct ref).entries.map fun e => (e.1, treeOfTo h left e.2)) false
    | .error ref => .error (some (.string (h.fault ref).text))
    | .handle _ => .undefined

/-- A value of the brain as a value of a script. -/
def treeOf (h : Heap) (v : Value) : Tree := treeOfTo h (maxDepth + 1) v

/-- Converts items in turn. -/
def convertAll {α β : Type} (f : α → Heap → β × Heap) : List α → Heap → List β × Heap
  | [], h => ([], h)
  | x :: rest, h =>
    let (y, h) := f x h
    let (ys, h) := convertAll f rest h
    (y :: ys, h)

/-- A tree as a value of the brain, with `left` levels left to convert. -/
def valueOfTo : (left : Nat) → Tree → Heap → Value × Heap
  | 0, _, h => (.nil, h)
  | left + 1, t, h =>
    match t with
    | .absent | .undefined => (.nil, h)
    | .bool b => (.bool b, h)
    | .int n => (.int n, h)
    | .float x => (.number x, h)
    | .char code => (.string (Tree.charText code), h)
    | .string s => (.string s, h)
    | .array items _ =>
      let (values, h) := convertAll (valueOfTo left) items h
      h.newList .unknown values
    | .map entries _ =>
      let (pairs, h) := convertAll
        (fun e h =>
          let (v, h) := valueOfTo left e.2 h
          ((Scalar.string e.1, v), h))
        entries h
      h.newMap .unknown (.ofList pairs)
    | .error value =>
      let message := match value with
        | none => "error"
        | some v => v.text?.getD ""
      let (ref, h) := h.newFault { tag := .script, message := message }
      (.error ref, h)
    | .bytes _ | .function _ => (.string t.render, h)

/-- A value of a script as a value of the brain. -/
def valueOf (t : Tree) (h : Heap) : Value × Heap := valueOfTo (maxDepth + 1) t h

mutual

/-- Builds an object from a tree. Bytes and absent values never reach a script. -/
def link : Tree → Memory → Object × Memory
  | .bool b, m => (.bool b, m)
  | .int n, m => (.int n, m)
  | .float x, m => (.float x, m)
  | .char code, m => (.char code, m)
  | .string s, m => (.string s, m)
  | .array items _, m =>
    let (objects, m) := linkItems items m
    m.newArray objects objects.length
  | .map entries _, m =>
    let (pairs, m) := linkEntries entries m
    m.newMap (.ofList pairs)
  | .error (some value), m =>
    let (o, m) := link value m
    m.newError o
  | .absent, m | .undefined, m | .bytes _, m | .function _, m | .error none, m => (.undefined, m)
termination_by structural t => t

def linkItems : List Tree → Memory → List Object × Memory
  | [], m => ([], m)
  | t :: rest, m =>
    let (o, m) := link t m
    let (os, m) := linkItems rest m
    (o :: os, m)
termination_by structural ts => ts

def linkEntries : List (String × Tree) → Memory → List (String × Object) × Memory
  | [], m => ([], m)
  | (k, t) :: rest, m =>
    let (o, m) := link t m
    let (os, m) := linkEntries rest m
    ((k, o) :: os, m)
termination_by structural es => es

end

end Script
end TileMind
