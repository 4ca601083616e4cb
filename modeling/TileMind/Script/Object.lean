import TileMind.Script.Capacity
import TileMind.Value.Heap

/-!
# TileMind.Script.Object

The values of scripts. Arrays, maps and errors live in a memory. An array is the front of a row of
cells; a frozen array or map shares its contents with the one it was made from, and so does an array
with the one it was extended from, as far as there was room. A `Tree` is a value read out of its
memory.
-/

namespace TileMind
namespace Script

/-- Functions a script can call. `switchPage` asks the brain for another page, `upper` belongs to the
module of text functions. -/
inductive Callable where
  | len | isUndefined | isError | append
  | switchPage
  | upper
deriving DecidableEq, Repr, Inhabited

namespace Callable

/-- Functions that need no import. -/
def builtins : List (String × Callable) :=
  [("len", .len), ("append", .append), ("is_error", .isError), ("is_undefined", .isUndefined)]

/-- The name of the type of a function, which is its own. -/
def typeName : Callable → String
  | .len => "builtin-function:len"
  | .isUndefined => "builtin-function:is_undefined"
  | .isError => "builtin-function:is_error"
  | .append => "builtin-function:append"
  | .switchPage => "user-function:switch_page"
  | .upper => "user-function:to_upper"

/-- How a function is shown. -/
def shown : Callable → String
  | .switchPage | .upper => "<user-function>"
  | _ => "<builtin-function>"

end Callable

/-- The functions of a module. -/
def members (module : String) : List (String × Callable) :=
  if module = "text" then [("to_upper", .upper)] else []

/-- A value of a script. An array is the first `length` cells of a row. -/
inductive Object where
  | undefined
  | bool (b : Bool)
  | int (n : Int)
  | float (x : Float)
  | char (code : Int)
  | string (s : String)
  | array (ref length : Nat) (frozen : Bool)
  | map (ref : Nat) (frozen : Bool)
  | error (ref : Nat)
  | function (f : Callable)
  | module (name : String)
deriving Repr

/-- The name of an object's type. -/
def Object.typeName : Object → String
  | .undefined => "undefined"
  | .bool _ => "bool"
  | .int _ => "int"
  | .float _ => "float"
  | .char _ => "char"
  | .string _ => "string"
  | .array _ _ frozen => if frozen then "immutable-array" else "array"
  | .map _ frozen => if frozen then "immutable-map" else "map"
  | .error _ => "error"
  | .function f => f.typeName
  | .module _ => "immutable-map"

instance : Inhabited Object := ⟨.undefined⟩

/-- Cells for the items of arrays. Only those in use are there; `capacity` is how many there can
be. -/
structure CellRow where
  cells : List Object := []
  capacity : Nat := 0
deriving Repr, Inhabited

namespace CellRow

/-- Writes items from a cell on; what stands behind them stays. -/
def write (r : CellRow) (start : Nat) (items : List Object) : CellRow :=
  { r with cells := r.cells.take start ++ items ++ r.cells.drop (start + items.length) }

end CellRow

/-- The arrays, maps and errors of a script. -/
structure Memory where
  rows : Array CellRow := #[]
  maps : Array (Fields Object) := #[]
  errors : Array Object := #[]
deriving Repr

instance : Inhabited Memory := ⟨{}⟩

namespace Memory

def row (m : Memory) (ref : Nat) : CellRow := m.rows.getD ref {}
def map (m : Memory) (ref : Nat) : Fields Object := m.maps.getD ref {}
def error (m : Memory) (ref : Nat) : Object := m.errors.getD ref .undefined

/-- The items of an array. -/
def items (m : Memory) (ref length : Nat) : List Object := (m.row ref).cells.take length

/-- An array with the given items and room for `capacity` of them. -/
def newArray (m : Memory) (items : List Object) (capacity : Nat) : Object × Memory :=
  (.array m.rows.size items.length false, { m with rows := m.rows.push ⟨items, capacity⟩ })

def newMap (m : Memory) (entries : Fields Object) : Object × Memory :=
  (.map m.maps.size false, { m with maps := m.maps.push entries })

def newError (m : Memory) (value : Object) : Object × Memory :=
  (.error m.errors.size, { m with errors := m.errors.push value })

def setRow (m : Memory) (ref : Nat) (row : CellRow) : Memory :=
  { m with rows := m.rows.setIfInBounds ref row }

def setMap (m : Memory) (ref : Nat) (entries : Fields Object) : Memory :=
  { m with maps := m.maps.setIfInBounds ref entries }

/-- An array with more items behind those of another one. They go into the cells of the other array
if there is room for them, over whatever stands there, and into new cells otherwise. -/
def extend (m : Memory) (ref length : Nat) (more : List Object) : Object × Memory :=
  let row := m.row ref
  let total := length + more.length
  if total ≤ row.capacity then (.array ref total false, m.setRow ref (row.write length more))
  else m.newArray (m.items ref length ++ more) (Capacity.grown total row.capacity)

end Memory

/-- A value read out of its memory. -/
inductive Tree where
  | absent
  | undefined
  | bool (b : Bool)
  | int (n : Int)
  | float (x : Float)
  | char (code : Int)
  | string (s : String)
  | bytes (bs : List UInt8)
  | array (items : List Tree) (frozen : Bool)
  | map (entries : List (String × Tree)) (frozen : Bool)
  | error (value : Option Tree)
  | function (shown : String)
deriving Repr

namespace Tree

instance : Inhabited Tree := ⟨.undefined⟩

/-- The character of a code; a code of none gives the replacement character. -/
def charText (code : Int) : String :=
  if code < 0 then String.singleton Text.replacement
  else if h : code.toNat.isValidChar then String.singleton (Char.ofNatAux code.toNat h)
  else String.singleton Text.replacement

mutual

/-- How a value is shown. -/
def render : Tree → String
  | .absent => ""
  | .undefined => "<undefined>"
  | .bool b => if b then "true" else "false"
  | .int n => Decimal.integer n
  | .float x => Decimal.positional x
  | .char code => charText code
  | .string s => Text.quote s
  | .bytes bs => Text.ofBytes bs
  | .array items _ => "[" ++ ", ".intercalate (renderItems items) ++ "]"
  | .map entries _ => "\x7b" ++ ", ".intercalate (renderEntries entries) ++ "\x7d"
  | .error none => "error"
  | .error (some value) => "error: " ++ value.render
  | .function shown => shown
termination_by structural t => t

def renderItems : List Tree → List String
  | [] => []
  | t :: rest => t.render :: renderItems rest
termination_by structural ts => ts

def renderEntries : List (String × Tree) → List String
  | [] => []
  | (k, t) :: rest => (k ++ ": " ++ t.render) :: renderEntries rest
termination_by structural es => es

end

/-- The text of a value as a string; undefined has none. -/
def text? : Tree → Option String
  | .string s => some s
  | .undefined => none
  | t => some t.render

end Tree

/-- Reads an object down to `depth` levels of containers; what lies deeper is undefined. -/
def Memory.readTo (m : Memory) : (depth : Nat) → Object → Tree
  | _, .undefined => .undefined
  | _, .bool b => .bool b
  | _, .int n => .int n
  | _, .float x => .float x
  | _, .char code => .char code
  | _, .string s => .string s
  | _, .function f => .function f.shown
  | _, .module name => .map ((members name).map fun e => (e.1, .function e.2.shown)) true
  | 0, _ => .undefined
  | depth + 1, .array ref length frozen => .array ((m.items ref length).map (m.readTo depth)) frozen
  | depth + 1, .map ref frozen =>
    .map ((m.map ref).entries.map fun e => (e.1, m.readTo depth e.2)) frozen
  | depth + 1, .error ref => .error (some (m.readTo depth (m.error ref)))

/-- The depth to which objects are read: past what conversions look at. -/
def readDepth : Nat := 40

/-- The object as a tree. -/
def Memory.read (m : Memory) (o : Object) : Tree := m.readTo readDepth o

end Script
end TileMind
