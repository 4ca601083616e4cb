import TileMind.Decimal.Layout
import TileMind.Decimal.Read

/-!
# TileMind.Doc.Basic

Documents: the structured data in which values, programs and definitions are exchanged with other
tools. Numbers of the language are written as texts, so that no digit is lost.

Reading is lenient: what is missing or of another form counts as null, zero, empty or false.
-/

namespace TileMind

inductive Doc where
  | null
  | bool (b : Bool)
  | int (n : Int)
  | text (s : String)
  | list (items : List Doc)
  | record (fields : List (String × Doc))
deriving Repr

namespace Doc

instance : Inhabited Doc := ⟨.null⟩

def get? (d : Doc) (name : String) : Option Doc :=
  match d with
  | .record fields => fields.lookup name
  | _ => none

def get (d : Doc) (name : String) : Doc := (d.get? name).getD .null

def asText : Doc → String
  | .text s => s
  | _ => ""

def asInt : Doc → Int
  | .int n => n
  | _ => 0

def asBool : Doc → Bool
  | .bool b => b
  | _ => false

def items : Doc → List Doc
  | .list items => items
  | _ => []

def nth (d : Doc) (i : Nat) : Doc := d.items.getD i .null

def textAt (d : Doc) (name : String) : String := (d.get name).asText
def intAt (d : Doc) (name : String) : Int := (d.get name).asInt
def boolAt (d : Doc) (name : String) : Bool := (d.get name).asBool
def itemsAt (d : Doc) (name : String) : List Doc := (d.get name).items
def textsAt (d : Doc) (name : String) : List String := (d.itemsAt name).map asText
def intsAt (d : Doc) (name : String) : List Int := (d.itemsAt name).map asInt

def nat (n : Nat) : Doc := .int n
def texts (xs : List String) : Doc := .list (xs.map .text)
def ints (xs : List Int) : Doc := .list (xs.map .int)
def number (x : Float) : Doc := .text (Decimal.general x)

def lines (s : String) : Doc := texts (s.splitOn "\n")

/-- A list of documents. -/
def each {α : Type} (xs : List α) (f : α → Doc) : Doc := .list (xs.map f)

/-- A document that may be missing. -/
def option {α : Type} (x : Option α) (f : α → Doc) : Doc :=
  match x with
  | some x => f x
  | none => .null

/-- A pair of what was found and whether it was. -/
def found {α : Type} (x : Option α) (missing : α) (f : α → Doc) : Doc :=
  .list [f (x.getD missing), .bool x.isSome]

def withField (d : Doc) (name : String) (v : Doc) : Doc :=
  match d with
  | .record fields => .record (fields ++ [(name, v)])
  | d => d

mutual

/-- How deep a document is nested. -/
def depth : Doc → Nat
  | .list items => depthOfItems items + 1
  | .record fields => depthOfFields fields + 1
  | _ => 0
termination_by structural d => d

def depthOfItems : List Doc → Nat
  | [] => 0
  | d :: rest => max d.depth (depthOfItems rest)
termination_by structural ds => ds

def depthOfFields : List (String × Doc) → Nat
  | [] => 0
  | (_, d) :: rest => max d.depth (depthOfFields rest)
termination_by structural fs => fs

end

end Doc

end TileMind
