import TileMind.Text.Escaped

/-!
# TileMind.Config.Yaml.Scalar

Scalars of YAML, plain and quoted. A scalar may go over several lines: the blanks around a line end
do not count, a single line end stands for a blank, and of several the first one is left out.

* `Gap` is the white space between two parts of a scalar, and `Gap.text` what is left of it.
* `quoted` reads a scalar in quotes, `spanPlain` splits a plain one off.
-/

namespace TileMind
namespace Yaml

def isBlank (c : Char) : Bool := c = ' ' || c = '\t'

/-- White space in a scalar: blanks on one line, or a line end with further ones behind it. The first
line end is kept as a blank, unless a backslash stands before it. -/
inductive Gap where
  | blanks (cs : List Char)
  | breaks (isKept : Bool) (more : Nat)
deriving DecidableEq, Repr

namespace Gap

def none : Gap := .blanks []

/-- One blank more; blanks at the start of a line do not count. -/
def blank (c : Char) : Gap → Gap
  | .blanks cs => .blanks (cs ++ [c])
  | .breaks isKept more => .breaks isKept more

/-- One line end more; blanks before it do not count. -/
def newline : Gap → Gap
  | .blanks _ => .breaks true 0
  | .breaks isKept more => .breaks isKept (more + 1)

/-- What the white space stands for. -/
def text : Gap → List Char
  | .blanks cs => cs
  | .breaks true 0 => [' ']
  | .breaks _ more => List.replicate more '\n'

end Gap

/-- Text with its white space put right, that at its end being left out. -/
def folded : Gap → List Char → List Char
  | _, [] => []
  | gap, c :: rest =>
    if c = '\n' then folded gap.newline rest
    else if isBlank c then folded (gap.blank c) rest
    else gap.text ++ c :: folded .none rest

def escapes : Text.EscapeRules where
  letter c := match c with
    | '0' => some '\x00'
    | 'a' => some '\x07'
    | 'b' => some '\x08'
    | 't' | '\t' => some '\t'
    | 'n' => some '\n'
    | 'v' => some '\x0b'
    | 'f' => some '\x0c'
    | 'r' => some '\r'
    | 'e' => some '\x1b'
    | ' ' => some ' '
    | '"' => some '"'
    | '\'' => some '\''
    | '\\' => some '\\'
    | '/' => some '/'
    | 'N' => some (Char.ofNat 0x85)
    | '_' => some (Char.ofNat 0xA0)
    | 'L' => some (Char.ofNat 0x2028)
    | 'P' => some (Char.ofNat 0x2029)
    | _ => none
  digits c := match c with
    | 'x' => some 2
    | 'u' => some 4
    | 'U' => some 8
    | _ => none

def prepend (text : List Char) (found : Option (List Char × List Char)) :
    Option (List Char × List Char) :=
  found.map fun (more, rest) => (text ++ more, rest)

/-- Reads a scalar behind its single quote; a quote in it is written twice. -/
def singleQuoted : Gap → List Char → Option (List Char × List Char)
  | _, [] => none
  | gap, '\'' :: '\'' :: rest => prepend (gap.text ++ ['\'']) (singleQuoted .none rest)
  | gap, c :: rest =>
    if c = '\'' then some (gap.text, rest)
    else if c = '\n' then singleQuoted gap.newline rest
    else if isBlank c then singleQuoted (gap.blank c) rest
    else prepend (gap.text ++ [c]) (singleQuoted .none rest)

/-- Reads a scalar behind its double quote. A backslash at the end of a line joins it with the next
one. -/
def doubleQuoted (gap : Gap) (cs : List Char) : Option (List Char × List Char) :=
  match cs with
  | [] => none
  | '\\' :: '\n' :: rest => prepend gap.text (doubleQuoted (.breaks false 0) rest)
  | c :: cs =>
    if c = '"' then some (gap.text, cs)
    else if c = '\n' then doubleQuoted gap.newline cs
    else if isBlank c then doubleQuoted (gap.blank c) cs
    else if c = '\\' then
      match h : escapes.readOne cs with
      | none => none
      | some (g, rest) =>
        have := Text.EscapeRules.length_lt_of_readOne h
        prepend (gap.text ++ [g.shown]) (doubleQuoted .none rest)
    else prepend (gap.text ++ [c]) (doubleQuoted .none cs)
termination_by cs.length
decreasing_by all_goals (simp; try omega)

def quoted (cs : List Char) : Option (List Char × List Char) :=
  match cs with
  | '"' :: rest => doubleQuoted .none rest
  | '\'' :: rest => singleQuoted .none rest
  | _ => none

/-- Characters that start something else than a plain scalar. -/
def indicators : List Char :=
  [',', '[', ']', '\x7b', '\x7d', '#', '&', '*', '!', '|', '>', '\'', '"', '%', '@', '\x60']

/-- Whether a character parts two tokens. -/
def isSpace (c : Char) : Bool := isBlank c || c = '\n'

/-- Whether a plain scalar can start here. -/
def startsPlain (cs : List Char) : Bool :=
  match cs with
  | [] => false
  | c :: rest =>
    if c = '-' || c = '?' || c = ':' then
      match rest with
      | [] => false
      | d :: _ => !isSpace d
    else !indicators.contains c && !isSpace c

/-- Characters that end a plain scalar in a flow collection. -/
def flowMarks : List Char := [',', '[', ']', '\x7b', '\x7d']

/-- Splits a plain scalar off. It ends before a colon with a blank behind it, before a comment, and
in a flow collection before a mark of one. -/
def spanPlain (inFlow : Bool) : (afterSpace : Bool) → List Char → List Char × List Char
  | _, [] => ([], [])
  | afterSpace, c :: rest =>
    let endsAtColon := c = ':' &&
      match rest with
      | [] => true
      | d :: _ => isSpace d || (inFlow && flowMarks.contains d)
    if endsAtColon || (c = '#' && afterSpace) || (inFlow && flowMarks.contains c) then ([], c :: rest)
    else
      let (text, after) := spanPlain inFlow (isSpace c) rest
      (c :: text, after)

end Yaml
end TileMind
