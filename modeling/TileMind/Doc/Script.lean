import TileMind.Doc.Basic
import TileMind.Script.Object
import TileMind.Text.Escaped

/-!
# TileMind.Doc.Script

Values of scripts as documents: records that name their kind.
-/

namespace TileMind
namespace Script
namespace Tree

/-- Reads a value nested at most `depth` deep. -/
def ofDocTo : (depth : Nat) → Doc → Tree
  | 0, _ => .undefined
  | depth + 1, d =>
    let text := d.textAt "v"
    let items := (d.itemsAt "items").map (ofDocTo depth)
    let entries := (Fields.ofList ((d.itemsAt "entries").map fun e =>
      ((e.nth 0).asText, ofDocTo depth (e.nth 1)))).entries
    match d.textAt "o" with
    | "none" => .absent
    | "bool" => .bool (d.boolAt "v")
    | "int" => .int ((Decimal.readInt64? text).getD 0)
    | "float" => .float ((Decimal.read? text).getD 0.0)
    | "char" => .char (d.intAt "v")
    | "string" => .string text
    | "bytes" => .bytes (Text.bytesOfHex text.toList)
    | "array" => .array items false
    | "iarray" => .array items true
    | "map" => .map entries false
    | "imap" => .map entries true
    | "error" => .error ((d.get? "v").map (ofDocTo depth))
    | _ => .undefined

def ofDoc (d : Doc) : Tree := ofDocTo (d.depth + 1) d

/-- A record of some kind. -/
def docOfKind (kind : String) (parts : List (String × Doc)) : Doc :=
  .record (("o", .text kind) :: parts)

mutual

def toDoc : Tree → Doc
  | .absent => docOfKind "none" []
  | .undefined => docOfKind "undefined" []
  | .bool b => docOfKind "bool" [("v", .bool b)]
  | .int n => docOfKind "int" [("v", .text (Decimal.integer n))]
  | .float x => docOfKind "float" [("v", .number x)]
  | .char code => docOfKind "char" [("v", .int code)]
  | .string s => docOfKind "string" [("v", .text s)]
  | .bytes bs => docOfKind "bytes" [("v", .text (Text.hexOfBytes bs))]
  | .array items frozen =>
    docOfKind (if frozen then "iarray" else "array") [("items", .list (itemDocs items))]
  | .map entries frozen =>
    docOfKind (if frozen then "imap" else "map") [("entries", .list (entryDocs entries))]
  | .error none => docOfKind "error" []
  | .error (some value) => docOfKind "error" [("v", value.toDoc)]
  | .function shown => docOfKind "function" [("v", .text shown)]
termination_by structural t => t

def itemDocs : List Tree → List Doc
  | [] => []
  | t :: rest => t.toDoc :: itemDocs rest
termination_by structural ts => ts

def entryDocs : List (String × Tree) → List Doc
  | [] => []
  | (k, t) :: rest => .list [.text k, t.toDoc] :: entryDocs rest
termination_by structural es => es

end

end Tree
end Script
end TileMind
