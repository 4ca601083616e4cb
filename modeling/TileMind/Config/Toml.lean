import TileMind.Decimal.Read
import TileMind.Text.Escaped
import TileMind.Text.Quoted

/-!
# TileMind.Config.Toml

TOML documents: tables, arrays of tables, and keys with strings, integers, numbers, truth values or
arrays of them. A document is read into its entries, and the entries are put together into a tree; a
key that is given twice has no tree.
-/

namespace TileMind
namespace Toml

-- `^` is the power that comes with the numbers, also where that of a monoid could be taken.
attribute [local instance (high)] instPowNat

inductive Item where
  | string (s : String)
  | int (n : Int)
  | float (x : Float)
  | bool (b : Bool)
  | array (items : List Item)
deriving Repr, Inhabited

/-- A line of a document: the start of a table, the start of the next table of an array, or a key
with its value. -/
inductive Entry where
  | table (path : List String)
  | element (path : List String)
  | pair (path : List String) (value : Item)
deriving Repr, Inhabited

def isBlank (c : Char) : Bool := c = ' ' || c = '\t'

def skipBlanks (cs : List Char) : List Char := cs.dropWhile isBlank

/-- Drops blanks, line ends and comments. -/
def skipLines : (fuel : Nat) → List Char → List Char
  | 0, cs => cs
  | fuel + 1, cs =>
    match cs with
    | '#' :: rest => skipLines fuel (rest.dropWhile (· ≠ '\n'))
    | '\r' :: '\n' :: rest => skipLines fuel rest
    | c :: rest => if isBlank c || c = '\n' then skipLines fuel rest else cs
    | [] => []

/-- Nothing but a comment may stand before the end of a line. -/
def endOfLine (cs : List Char) : Option (List Char) :=
  match skipBlanks cs with
  | [] => some []
  | '\n' :: rest => some rest
  | '\r' :: '\n' :: rest => some rest
  | '#' :: rest => some (rest.dropWhile (· ≠ '\n'))
  | _ => none

def escapes : Text.EscapeRules where
  letter c := match c with
    | 'b' => some '\x08'
    | 't' => some '\t'
    | 'n' => some '\n'
    | 'f' => some '\x0c'
    | 'r' => some '\r'
    | 'e' => some '\x1b'
    | '"' => some '"'
    | '\\' => some '\\'
    | _ => none
  digits c := match c with
    | 'x' => some 2
    | 'u' => some 4
    | 'U' => some 8
    | _ => none

def isControl (c : Char) : Bool := (c.toNat < 32 && c ≠ '\t') || c.toNat = 127

/-- Reads a string in single quotes, which has no escapes. -/
def literal (cs : List Char) : Option (List Char × List Char) :=
  let text := cs.takeWhile fun c => c ≠ '\'' && c ≠ '\n'
  match cs.drop text.length with
  | '\'' :: rest => some (text, rest)
  | _ => none

/-- Reads a string in quotes of either kind; no control character may stand in it. -/
def quoted (cs : List Char) : Option (String × List Char) :=
  match cs with
  | '"' :: rest =>
    (escapes.read '"' rest).bind fun (text, after) =>
      if (rest.take (rest.length - after.length)).any isControl then none
      else some (Text.ofGlyphs text, after)
  | '\'' :: rest =>
    (literal rest).bind fun (text, after) =>
      if text.any isControl then none else some (String.ofList text, after)
  | _ => none

def isKeyChar (c : Char) : Bool := c.isAlphanum || c = '_' || c = '-'

/-- Reads one part of a key. -/
def keyPart (cs : List Char) : Option (String × List Char) :=
  match cs with
  | '"' :: _ | '\'' :: _ => quoted cs
  | _ =>
    let part := cs.takeWhile isKeyChar
    if part.isEmpty then none else some (String.ofList part, cs.drop part.length)

/-- Reads a key with points between its parts, and the blanks after it. -/
def key : (fuel : Nat) → List Char → Option (List String × List Char)
  | 0, _ => none
  | fuel + 1, cs =>
    (keyPart (skipBlanks cs)).bind fun (part, rest) =>
      match skipBlanks rest with
      | '.' :: rest => (key fuel rest).map fun (parts, rest) => (part :: parts, rest)
      | rest => some ([part], rest)

/-- Digits without a needless zero before them. -/
def hasLeadingZero : List Char → Bool
  | '0' :: c :: _ => c.isDigit || c = '_'
  | _ => false

/-- An integer with a sign. -/
def signedInt? (cs : List Char) : Option Int :=
  let (negative, rest) := match cs with
    | '-' :: rest => (true, rest)
    | '+' :: rest => (false, rest)
    | rest => (false, rest)
  if hasLeadingZero rest then none
  else (Text.digitsIn? 10 rest).map fun n => if negative then -(n : Int) else n

/-- An integer: decimal, or with a mark of its base and without a sign. -/
def int? (cs : List Char) : Option Int :=
  let n : Option Int := match cs with
    | '0' :: 'x' :: rest => (Text.digitsIn? 16 rest).map Int.ofNat
    | '0' :: 'o' :: rest => (Text.digitsIn? 8 rest).map Int.ofNat
    | '0' :: 'b' :: rest => (Text.digitsIn? 2 rest).map Int.ofNat
    | cs => signedInt? cs
  n.filter fun n => -2 ^ (63 : Nat) ≤ n && n < 2 ^ (63 : Nat)

/-- The runs of digits in the text of a number: before the point, behind it, and in the exponent. -/
def digitRuns (cs : List Char) : List (List Char) :=
  let isDigitOrMark (c : Char) : Bool := c.isDigit || c = '_'
  let whole := cs.takeWhile isDigitOrMark
  let (places, rest) := match cs.drop whole.length with
    | '.' :: rest => ([rest.takeWhile isDigitOrMark], rest.dropWhile isDigitOrMark)
    | rest => ([], rest)
  let power := match rest with
    | _ :: '+' :: rest | _ :: '-' :: rest | _ :: rest => [rest]
    | [] => []
  [whole] ++ places ++ power

/-- A number with a point or an exponent. Digits stand on both sides of the point, and the number is
not too large. -/
def float? (cs : List Char) : Option Float :=
  let (sign, rest) := match cs with
    | '-' :: rest => ("-", rest)
    | '+' :: rest => ("", rest)
    | rest => ("", rest)
  if rest = "inf".toList then some (if sign = "-" then -(1.0 / 0.0) else 1.0 / 0.0)
  else if rest = "nan".toList then some (0.0 / 0.0)
  else
    let runs := digitRuns rest
    if runs.length < 2 || hasLeadingZero rest || runs.any fun r => (Text.digitsIn? 10 r).isNone then
      none
    else (Decimal.read? (sign ++ String.ofList (rest.filter (· ≠ '_')))).filter Float.isFinite

/-- A truth value or a number, up to what ends it. -/
def bare (cs : List Char) : Option (Item × List Char) :=
  let isPart (c : Char) : Bool := c.isAlphanum || c = '+' || c = '-' || c = '.' || c = '_'
  let text := cs.takeWhile isPart
  let item : Option Item :=
    if text = "true".toList then some (.bool true)
    else if text = "false".toList then some (.bool false)
    else
      match int? text with
      | some n => some (.int n)
      | none => (float? text).map .float
  item.map (·, cs.drop text.length)

mutual

def value : (fuel : Nat) → List Char → Option (Item × List Char)
  | 0, _ => none
  | fuel + 1, cs =>
    match cs with
    | '"' :: _ | '\'' :: _ => (quoted cs).map fun (s, rest) => (.string s, rest)
    | '[' :: rest => (items fuel rest).map fun (is, rest) => (.array is, rest)
    | _ => bare cs
termination_by structural fuel => fuel

def items : (fuel : Nat) → List Char → Option (List Item × List Char)
  | 0, _ => none
  | fuel + 1, cs =>
    match skipLines cs.length cs with
    | ']' :: rest => some ([], rest)
    | cs =>
      (value fuel cs).bind fun (i, rest) =>
        match skipLines rest.length rest with
        | ',' :: rest => (items fuel rest).map fun (is, rest) => (i :: is, rest)
        | ']' :: rest => some ([i], rest)
        | _ => none
termination_by structural fuel => fuel

end

def entry (cs : List Char) : Option (Entry × List Char) :=
  let fuel := cs.length + 1
  match cs with
  | '[' :: '[' :: rest => do
    let (path, rest) ← key fuel rest
    match rest with
    | ']' :: ']' :: rest => (endOfLine rest).map (.element path, ·)
    | _ => none
  | '[' :: rest => do
    let (path, rest) ← key fuel rest
    match rest with
    | ']' :: rest => (endOfLine rest).map (.table path, ·)
    | _ => none
  | cs => do
    let (path, rest) ← key fuel cs
    match rest with
    | '=' :: rest =>
      let (v, rest) ← value fuel (skipBlanks rest)
      (endOfLine rest).map (.pair path v, ·)
    | _ => none

def entriesFrom : (fuel : Nat) → List Char → Option (List Entry)
  | 0, _ => none
  | fuel + 1, cs =>
    match skipLines cs.length cs with
    | [] => some []
    | cs => do
      let (e, rest) ← entry cs
      let es ← entriesFrom fuel rest
      return e :: es

/-- Whether all characters may stand in a document: a carriage return only before a line end, and no
other control character at all. -/
def isClean : List Char → Bool
  | '\r' :: '\n' :: rest => isClean rest
  | c :: rest => (c = '\n' || !isControl c) && isClean rest
  | [] => true

/-- The entries of a document, which a byte order mark may start. -/
def entries (text : String) : Option (List Entry) :=
  let cs := match text.toList with
    | '\ufeff' :: rest => rest
    | cs => cs
  if isClean cs then entriesFrom (cs.length + 1) cs else none

/-- A part of the tree of a document. A table that only its parts have named so far may still be
started. -/
inductive Node where
  | item (i : Item)
  | table (isOpen : Bool) (parts : List (String × Node))
  | tables (elements : List (List (String × Node)))
deriving Repr, Inhabited

/-- Replaces a part. -/
def replacePart (name : String) (n : Node) : List (String × Node) → List (String × Node)
  | [] => []
  | e :: es => if e.1 = name then (name, n) :: es else e :: replacePart name n es

/-- Changes the table at a path; the last one of an array of tables is meant. Tables on the way are
made as needed. -/
def changeAt (f : List (String × Node) → Option (List (String × Node))) :
    (path : List String) → List (String × Node) → Option (List (String × Node))
  | [], parts => f parts
  | name :: path, parts =>
    match parts.lookup name with
    | none => (changeAt f path []).map fun inner => parts ++ [(name, .table true inner)]
    | some (.table isOpen inner) =>
      (changeAt f path inner).map fun inner => replacePart name (.table isOpen inner) parts
    | some (.tables elements) =>
      (changeAt f path (elements.getLastD [])).map fun inner =>
        replacePart name (.tables (elements.dropLast ++ [inner])) parts
    | some (.item _) => none

def startTable (name : String) (parts : List (String × Node)) : Option (List (String × Node)) :=
  match parts.lookup name with
  | none => some (parts ++ [(name, .table false [])])
  | some (.table true inner) => some (replacePart name (.table false inner) parts)
  | some _ => none

/-- Starts the next table of an array. -/
def startElement (name : String) (parts : List (String × Node)) : Option (List (String × Node)) :=
  match parts.lookup name with
  | none => some (parts ++ [(name, .tables [[]])])
  | some (.tables elements) => some (replacePart name (.tables (elements ++ [[]])) parts)
  | some _ => none

/-- Gives a key its value. -/
def setItem (name : String) (i : Item) (parts : List (String × Node)) :
    Option (List (String × Node)) :=
  match parts.lookup name with
  | none => some (parts ++ [(name, .item i)])
  | some _ => none

/-- A document: its tree, and all keys in the order of the text. -/
structure Document where
  parts : List (String × Node) := []
  keys : List (List String) := []
deriving Repr, Inhabited

/-- Puts entries together; `here` is the table that keys belong to. -/
def assemble : (here : List String) → List Entry → Document → Option Document
  | _, [], d => some d
  | here, e :: es, d =>
    let (parts, full, next) := match e with
      | .table path =>
        (changeAt (startTable (path.getLastD "")) path.dropLast d.parts, path, path)
      | .element path =>
        (changeAt (startElement (path.getLastD "")) path.dropLast d.parts, path, path)
      | .pair path v =>
        let full := here ++ path
        (changeAt (setItem (full.getLastD "") v) full.dropLast d.parts, full, here)
    parts.bind fun parts => assemble next es ⟨parts, d.keys ++ [full]⟩

/-- Reads a document. -/
def read? (text : String) : Option Document := (entries text).bind fun es => assemble [] es {}

/-- A character of a quoted key. -/
def showChar (c : Char) : String :=
  match c with
  | '"' => "\\\""
  | '\\' => "\\\\"
  | '\x08' => "\\b"
  | '\t' => "\\t"
  | '\n' => "\\n"
  | '\x0c' => "\\f"
  | '\r' => "\\r"
  | c => if isControl c then "\\u00" ++ Text.hexOfBytes [.ofNat c.toNat] else String.singleton c

/-- A key as it is shown: parts with other characters are quoted. -/
def showKey (path : List String) : String :=
  ".".intercalate (path.map fun part =>
    if part ≠ "" && part.toList.all isKeyChar then part
    else "\"" ++ String.join (part.toList.map showChar) ++ "\"")

end Toml
end TileMind
