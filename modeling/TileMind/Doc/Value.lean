import TileMind.Doc.Basic
import TileMind.Value.Heap

/-!
# TileMind.Doc.Value

Values as documents. Nil, booleans and strings stand for themselves; a number is a record with its
digits, and everything else a record that names its kind.
-/

namespace TileMind

namespace FaultTag

def named : List FaultTag :=
  [.timeout, .cancelled, .host, .script, .stackOverflow, .stackUnderflow, .limitExceeded]

/-- A tag by name or by code. -/
def ofDoc : Doc → FaultTag
  | .text s => (named.find? fun t => t.name = s).getD (.other 0)
  | d => .ofCode d.asInt.toNat

end FaultTag

namespace Fault

def ofDoc (d : Doc) : Fault :=
  { tag := .ofDoc (d.get "tag")
    message := d.textAt "message"
    detail := d.textAt "detail"
    site := ⟨((d.get "site").nth 0).asInt, ((d.get "site").nth 1).asInt⟩ }

def toDoc (f : Fault) : Doc :=
  .record
    [("tag", .text f.tag.name), ("message", .text f.message), ("detail", .text f.detail),
      ("site", .text f.site.render),
      ("trace", .option f.trace fun sites => .texts (sites.map Site.render)),
      ("text", .text f.text)]

end Fault

def Scalar.toDoc (s : Scalar) : Doc :=
  match s.kind with
  | .nil => .null
  | .boolean => .bool (s.num != 0.0)
  | .string => .text s.text
  | .number => .record [("n", .number s.num)]
  | .void => .record [("k", .text "void")]
  | .unknown => .record [("k", .text "unknown")]
  | .enum => .record [("k", .text "enum"), ("t", .text s.type), ("s", .text s.text)]

namespace Datum

/-- Reads a value nested at most `depth` deep. Entries of a map are stored in turn. -/
def ofDocTo : (depth : Nat) → Doc → Datum
  | 0, _ => .scalar .unknown
  | depth + 1, d =>
    match d with
    | .null => .scalar .nil
    | .bool b => .scalar (.bool b)
    | .text s => .scalar (.string s)
    | d =>
      match d.get? "n" with
      | some n => .scalar (.number ((Decimal.read? n.asText).getD 0.0))
      | none =>
        match d.textAt "k" with
        | "void" => .scalar .void
        | "enum" => .scalar (.enum (d.textAt "t") (d.textAt "s"))
        | "list" => .list (d.textAt "t") ((d.itemsAt "items").map (ofDocTo depth))
        | "map" =>
          let pairs := (d.itemsAt "entries").filterMap fun e =>
            (ofDocTo depth (e.nth 0)).scalar?.map fun k => (k, ofDocTo depth (e.nth 1))
          .map (d.textAt "t") (OrderedMap.ofList pairs).entries
        | "struct" =>
          let pairs := (d.itemsAt "fields").map fun e =>
            ((e.nth 0).asText, ofDocTo depth (e.nth 1))
          .struct (d.textAt "t") (Fields.ofList pairs).entries
        | "handle" => .handle (Decimal.toInt64 (Decimal.ofInt (d.intAt "id")))
        | "error" => .error (.ofDoc (d.get "e"))
        | _ => .scalar .unknown

def ofDoc (d : Doc) : Datum := ofDocTo (d.depth + 1) d

/-- A value that may be missing; it is unknown then. -/
def ofField (d : Doc) (name : String) : Datum :=
  match d.get? name with
  | some v => ofDoc v
  | none => .scalar .unknown

mutual

def toDoc : Datum → Doc
  | .scalar s => s.toDoc
  | .list t items =>
    .record [("k", .text "list"), ("t", .text t), ("items", .list (itemDocs items))]
  | .map t entries =>
    .record [("k", .text "map"), ("t", .text t), ("entries", .list (entryDocs entries))]
  | .struct t fields =>
    .record [("k", .text "struct"), ("t", .text t), ("fields", .list (fieldDocs fields))]
  | .handle id => .record [("k", .text "handle"), ("id", .int id)]
  | .error f => .record [("k", .text "error"), ("e", f.toDoc)]
termination_by structural d => d

def itemDocs : List Datum → List Doc
  | [] => []
  | d :: rest => d.toDoc :: itemDocs rest
termination_by structural ds => ds

def entryDocs : List (Scalar × Datum) → List Doc
  | [] => []
  | (k, d) :: rest => .list [k.toDoc, d.toDoc] :: entryDocs rest
termination_by structural es => es

def fieldDocs : List (String × Datum) → List Doc
  | [] => []
  | (k, d) :: rest => .list [.text k, d.toDoc] :: fieldDocs rest
termination_by structural fs => fs

end

end Datum

namespace Heap

def toDoc (h : Heap) (v : Value) : Doc := (h.snapshot v).toDoc

def faultDoc (h : Heap) (ref : Option Nat) : Doc := .option ref fun r => (h.fault r).toDoc

/-- All that can be seen of a value that does not contain itself. -/
def describe? (h : Heap) (v : Value) : Option Doc := do
  let shown ← h.render? v
  let k := v.kind
  return .record
    [("value", h.toDoc v), ("string", .text shown), ("kind", .text k.name),
      ("type", .text v.typeId), ("primitive", .bool v.isPrimitive), ("truthy", .bool v.truthy),
      ("num", .list [.number v.rawNumber, .bool (k = .number)]),
      ("bool", .list [.bool (v.rawNumber != 0.0), .bool (k = .boolean)]),
      ("str", .list [.text v.rawText, .bool (k = .string)]),
      ("enum_key", .text v.enumKey),
      ("handle", .int (match v with
        | .handle id => id
        | _ => 0)),
      ("is", .each [Kind.nil, .void, .number, .string, .boolean, .handle, .error]
        fun x => .bool (k = x)),
      ("has", .each [Kind.list, .map, .struct, .error] fun x => .bool (k = x))]

/-- Links the value in a field of a document. -/
def linkField (h : Heap) (d : Doc) (name : String) : Value × Heap := link (.ofField d name) h

end Heap

end TileMind
