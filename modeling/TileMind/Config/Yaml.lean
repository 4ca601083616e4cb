import TileMind.Config.Yaml.Scalar

/-!
# TileMind.Config.Yaml

YAML documents of block mappings and sequences with plain and quoted scalars; a flow collection may
stand where a scalar does. A text is cut into lines, and the indentation of the lines decides what
belongs to what.
-/

namespace TileMind
namespace Yaml

-- A sum starts with the zero that comes with the numbers, also where that of a monoid could be taken.
attribute [local instance (high)] Zero.ofOfNat0

/-- A node. A plain scalar may be a null. -/
inductive Node where
  | scalar (text : String) (plain : Bool)
  | sequence (items : List Node)
  | mapping (entries : List (Node × Node))
deriving Repr

instance : Inhabited Node := ⟨.scalar "" true⟩

def Node.null : Node := .scalar "" true

def Node.isNull : Node → Bool
  | .scalar text true => ["", "~", "null", "Null", "NULL"].contains text
  | _ => false

/-- The scalar of some text. -/
def scalarOf (text : List Char) (plain : Bool) : Node := .scalar (String.ofList text) plain

/-! ## Flow collections -/

def skipSpace : (inComment : Bool) → List Char → List Char
  | _, [] => []
  | true, c :: rest => skipSpace (c ≠ '\n') rest
  | false, c :: rest =>
    if isSpace c then skipSpace false rest
    else if c = '#' then skipSpace true rest
    else c :: rest

mutual

def flowNode : (fuel : Nat) → List Char → Option (Node × List Char)
  | 0, _ => none
  | fuel + 1, cs =>
    match cs with
    | '[' :: rest => (flowItems fuel rest).map fun (items, rest) => (.sequence items, rest)
    | '\x7b' :: rest => (flowEntries fuel rest).map fun (entries, rest) => (.mapping entries, rest)
    | '"' :: _ | '\'' :: _ => (quoted cs).map fun (text, rest) => (scalarOf text false, rest)
    | cs =>
      if startsPlain cs then
        let (text, rest) := spanPlain true false cs
        some (scalarOf (folded .none text) true, rest)
      else none
termination_by structural fuel => fuel

/-- Reads what may follow a key: a colon and a value, or a colon alone. -/
def flowValue : (fuel : Nat) → List Char → Option (Option Node × List Char)
  | 0, _ => none
  | fuel + 1, cs =>
    match skipSpace false cs with
    | ':' :: rest =>
      match skipSpace false rest with
      | c :: rest =>
        if c = ',' || c = ']' || c = '\x7d' then some (some .null, c :: rest)
        else (flowNode fuel (c :: rest)).map fun (n, rest) => (some n, rest)
      | [] => none
    | rest => some (none, rest)
termination_by structural fuel => fuel

/-- Reads the items of a flow sequence, up to its end. An item may be a mapping of one entry. -/
def flowItems : (fuel : Nat) → List Char → Option (List Node × List Char)
  | 0, _ => none
  | fuel + 1, cs =>
    match skipSpace false cs with
    | ']' :: rest => some ([], rest)
    | cs =>
      (flowNode fuel cs).bind fun (n, rest) =>
        (flowValue fuel rest).bind fun (value, rest) =>
          let item := match value with
            | some v => .mapping [(n, v)]
            | none => n
          match skipSpace false rest with
          | ',' :: rest => (flowItems fuel rest).map fun (ns, rest) => (item :: ns, rest)
          | ']' :: rest => some ([item], rest)
          | _ => none
termination_by structural fuel => fuel

/-- Reads the entries of a flow mapping, up to its end. A key without a value has a null. -/
def flowEntries : (fuel : Nat) → List Char → Option (List (Node × Node) × List Char)
  | 0, _ => none
  | fuel + 1, cs =>
    match skipSpace false cs with
    | '\x7d' :: rest => some ([], rest)
    | cs =>
      (flowNode fuel cs).bind fun (key, rest) =>
        (flowValue fuel rest).bind fun (value, rest) =>
          let entry := (key, value.getD .null)
          match skipSpace false rest with
          | ',' :: rest => (flowEntries fuel rest).map fun (es, rest) => (entry :: es, rest)
          | '\x7d' :: rest => some ([entry], rest)
          | _ => none
termination_by structural fuel => fuel

end

/-! ## Lines -/

/-- A line: its indentation, and what stands behind it. -/
structure Line where
  indent : Nat
  text : List Char
deriving DecidableEq, Repr, Inhabited

namespace Line

def ofChars (cs : List Char) : Line :=
  let indent := (cs.takeWhile (· = ' ')).length
  ⟨indent, cs.drop indent⟩

/-- The line as it was written. -/
def chars (l : Line) : List Char := List.replicate l.indent ' ' ++ l.text

def isNoise (l : Line) : Bool :=
  match l.text with
  | [] | '#' :: _ => true
  | _ => false

def isItem (l : Line) : Bool :=
  match l.text with
  | ['-'] => true
  | '-' :: c :: _ => isBlank c
  | _ => false

/-- The key of a line in a block mapping, and what stands behind the colon. -/
def key? (l : Line) : Option (Node × List Char) :=
  let afterKey (key : Node) (rest : List Char) : Option (Node × List Char) :=
    match rest.dropWhile isBlank with
    | [':'] => some (key, [])
    | ':' :: c :: rest => if isBlank c then some (key, c :: rest) else none
    | _ => none
  match l.text with
  | '"' :: _ | '\'' :: _ =>
    (quoted l.text).bind fun (text, rest) => afterKey (scalarOf text false) rest
  | text =>
    if startsPlain text then
      let (text, rest) := spanPlain false false text
      afterKey (scalarOf (folded .none text) true) rest
    else none

end Line

/-- The lines from the next one on that is neither blank nor a comment. -/
def content (lines : List Line) : List Line := lines.dropWhile Line.isNoise

/-- What is left behind a value: blanks and a comment at most. -/
def isRestBlank (cs : List Char) : Bool :=
  match cs.dropWhile isBlank with
  | [] | '#' :: _ => true
  | _ => false

/-- Lines that go on with a plain scalar: they are indented enough, and neither a colon nor a comment
ends them. -/
def continuation (least : Nat) : List Line → Option (List Char × List Line)
  | [] => some ([], [])
  | l :: rest =>
    match l.text.dropWhile isBlank with
    | [] =>
      if l.indent < least && !l.text.isEmpty then none
      else (continuation least rest).map fun (text, rest) => ('\n' :: text, rest)
    | '#' :: comment => some ([], ⟨l.indent, '#' :: comment⟩ :: rest)
    | body =>
      if l.indent < least then some ([], l :: rest)
      else
        match spanPlain false true body with
        | (text, []) =>
          (continuation least rest).map fun (more, rest) => ('\n' :: text ++ more, rest)
        | (text, '#' :: _) => some ('\n' :: text, rest)
        | _ => none

/-- Reads a scalar or a flow collection that starts at `cs`. A plain scalar goes on in lines that are
indented by at least `least`; what has a closing mark goes on up to it. -/
def inline (least : Nat) (cs : List Char) (rest : List Line) : Option (Node × List Line) :=
  let whole := cs ++ rest.flatMap fun l => '\n' :: l.chars
  let closed (found : Option (Node × List Char)) : Option (Node × List Line) :=
    found.bind fun (n, after) =>
      if isRestBlank (after.takeWhile (· ≠ '\n')) then
        some (n, rest.drop (whole.count '\n' - after.count '\n'))
      else none
  match cs with
  | '[' :: _ | '\x7b' :: _ => closed (flowNode (2 * whole.length + 1) whole)
  | '"' :: _ | '\'' :: _ =>
    closed ((quoted whole).map fun (text, after) => (scalarOf text false, after))
  | cs =>
    if !startsPlain cs then none
    else
      match spanPlain false false cs with
      | (text, []) =>
        (continuation least rest).map fun (more, rest) =>
          (scalarOf (folded .none (text ++ more)) true, rest)
      | (text, '#' :: _) => some (scalarOf (folded .none text) true, rest)
      | _ => none

/-! ## Blocks -/

mutual

/-- Reads a block that is indented by at least `least`; without one the node is a null. -/
def block : (fuel : Nat) → (least : Nat) → List Line → Option (Node × List Line)
  | 0, _, _ => none
  | fuel + 1, least, lines =>
    match content lines with
    | [] => some (.null, [])
    | l :: rest =>
      if l.indent < least then some (.null, l :: rest)
      else if l.isItem then
        (sequence fuel l.indent (l :: rest)).map fun (items, rest) => (.sequence items, rest)
      else if l.key?.isSome then
        (mapping fuel l.indent (l :: rest)).map fun (entries, rest) => (.mapping entries, rest)
      else inline least l.text rest
termination_by structural fuel => fuel

/-- Reads the items of a sequence at some indentation. No tabs stand behind a dash. -/
def sequence : (fuel : Nat) → (indent : Nat) → List Line → Option (List Node × List Line)
  | 0, _, _ => none
  | fuel + 1, indent, lines =>
    match content lines with
    | [] => some ([], [])
    | l :: rest =>
      if l.indent < indent then some ([], l :: rest)
      else if indent < l.indent then none
      else if !l.isItem then some ([], l :: rest)
      else
        let inside := Line.ofChars (l.text.drop 1)
        let found := block fuel (indent + 1) (⟨indent + 1 + inside.indent, inside.text⟩ :: rest)
        found.bind fun (n, rest) =>
          (sequence fuel indent rest).map fun (ns, rest) => (n :: ns, rest)
termination_by structural fuel => fuel

/-- Reads the entries of a mapping at some indentation. A sequence may stand at the indentation of
its key. -/
def mapping : (fuel : Nat) → (indent : Nat) → List Line → Option (List (Node × Node) × List Line)
  | 0, _, _ => none
  | fuel + 1, indent, lines =>
    match content lines with
    | [] => some ([], [])
    | l :: rest =>
      if l.indent < indent then some ([], l :: rest)
      else if indent < l.indent then none
      else
        match l.key? with
        | none => none
        | some (key, after) =>
          let found : Option (Node × List Line) :=
            if isRestBlank after then
              match content rest with
              | next :: more =>
                if next.indent = indent && next.isItem then
                  (sequence fuel indent (next :: more)).map fun (items, rest) =>
                    (.sequence items, rest)
                else block fuel (indent + 1) (next :: more)
              | [] => some (.null, [])
            else inline (indent + 1) (after.dropWhile isBlank) rest
          found.bind fun (n, rest) =>
            (mapping fuel indent rest).map fun (es, rest) => ((key, n) :: es, rest)
termination_by structural fuel => fuel

end

/-! ## Documents -/

/-- Whether a character may stand in a document. -/
def isAllowed (c : Char) : Bool :=
  let n := c.toNat
  n = 0x09 || n = 0x0A || n = 0x0D || (0x20 ≤ n && n ≤ 0x7E) || n = 0x85 ||
    (0xA0 ≤ n && n ≤ 0xFFFD) || 0x10000 ≤ n

/-- Cuts a text into lines. -/
def cut (text : String) : List (List Char) :=
  let unmarked := match text.toList with
    | '\ufeff' :: rest => String.ofList rest
    | _ => text
  (((unmarked.replace "\r\n" "\n").replace "\r" "\n").splitOn "\n").map String.toList

/-- Whether a line parts two documents. -/
def isMark (mark : String) (cs : List Char) : Bool :=
  mark.toList.isPrefixOf cs &&
    match cs.drop mark.length with
    | [] => true
    | c :: rest => isBlank c && isRestBlank rest

/-- The lines of the first document: between marks, if there are any. Nothing if there is no
document. -/
def firstDocument (lines : List (List Char)) : Option (List Line) :=
  match lines.dropWhile fun l => (Line.ofChars l).isNoise with
  | [] => none
  | l :: rest =>
    let body := if isMark "---" l then rest else l :: rest
    some ((body.takeWhile fun l => !isMark "---" l && !isMark "..." l).map Line.ofChars)

/-- Why a text is no document. -/
inductive ReadError where
  | empty
  | malformed
deriving DecidableEq, Repr

/-- Reads the first document of a text. -/
def read (text : String) : Except ReadError Node :=
  if !text.toList.all isAllowed then .error .malformed
  else
    match firstDocument (cut text) with
    | none => .error .empty
    | some lines =>
      let size := (lines.map fun l => 2 * l.text.length + 4).sum
      match block (size + 1) 0 lines with
      | some (n, rest) => if (content rest).isEmpty then .ok n else .error .malformed
      | none => .error .malformed

end Yaml
end TileMind
