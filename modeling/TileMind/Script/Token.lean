import TileMind.Decimal.Layout
import TileMind.Text.Escaped
import TileMind.Text.Numeral

/-!
# TileMind.Script.Token

The tokens of a script. A statement ends at a semicolon, or at the end of a line whose last token
could end one; such a line end becomes a token of its own.
-/

namespace TileMind
namespace Script

/-- A place in a script. Columns count bytes. -/
structure Place where
  line : Nat := 1
  column : Nat := 1
deriving DecidableEq, Repr, Inhabited

namespace Place

def render (p : Place) : String :=
  "(main):" ++ Decimal.digitString p.line ++ ":" ++ Decimal.digitString p.column

/-- The place after a character. -/
def step (p : Place) (c : Char) : Place :=
  if c = '\n' then ⟨p.line + 1, 1⟩ else ⟨p.line, p.column + c.utf8Size⟩

/-- The place after some characters. -/
def after (p : Place) (cs : List Char) : Place := cs.foldl step p

end Place

inductive Lexeme where
  | name (s : String)
  | int (s : String)
  | float (s : String)
  | char (code : Nat)
  | string (s : String)
  | sign (s : String)
  | lineEnd
  | error
deriving DecidableEq, Repr, Inhabited

structure Token where
  lexeme : Lexeme
  place : Place
deriving DecidableEq, Repr, Inhabited

/-- Words that are no names. -/
def keywords : List String :=
  ["break", "continue", "else", "for", "func", "error", "immutable", "if", "return", "export", "true",
    "false", "in", "undefined", "import"]

/-- Signs, each one before those it starts with. -/
def signs : List String :=
  ["...", ":=", "==", "!=", "<=", ">=", "&&", "||", "++", "--", "+=", "-=", "*=", "/=", "%=",
    "+", "-", "*", "/", "%", "<", ">", "=", "!", "(", ")", "[", "]", "\x7b", "\x7d", ",", ";", ":",
    ".", "?"]

/-- Whether a statement can end after a lexeme. -/
def Lexeme.endsStatement : Lexeme → Bool
  | .sign s =>
    ["break", "continue", "return", "export", "true", "false", "undefined", ")", "]", "\x7d", "++",
      "--"].contains s
  | .lineEnd | .error => false
  | _ => true

/-- A byte behind a backslash: `x` and two hexadecimal digits, or three octal ones. -/
def escapedByte? : List Char → Option (UInt8 × Nat)
  | 'x' :: a :: b :: _ =>
    match Text.hexDigit? a, Text.hexDigit? b with
    | some a, some b => some (.ofNat (16 * a + b), 3)
    | _, _ => none
  | a :: b :: c :: _ =>
    match Text.digitsIn? 8 [a], Text.digitsIn? 8 [b], Text.digitsIn? 8 [c] with
    | some a, some b, some c =>
      let n := 64 * a + 8 * b + c
      if n < 256 then some (.ofNat n, 3) else none
    | _, _, _ => none
  | _ => none

/-- Escapes between two quotes of a kind. No other quote is escaped there. -/
def escapes (quote : Char) : Text.EscapeRules where
  letter c := match c with
    | 'a' => some '\x07'
    | 'b' => some '\x08'
    | 'f' => some '\x0c'
    | 'n' => some '\n'
    | 'r' => some '\r'
    | 't' => some '\t'
    | 'v' => some '\x0b'
    | '\\' => some '\\'
    | c => if c = quote then some c else none
  digits c := match c with
    | 'u' => some 4
    | 'U' => some 8
    | _ => none
  byte := escapedByte?

def startsName (c : Char) : Bool := Text.isLetter c || c = '_'

def isNamePart (c : Char) : Bool := startsName c || Text.isNumeral c

/-- Splits off digits in some base, with underscores among them. -/
def spanDigits (base : Nat) (cs : List Char) : List Char × List Char :=
  let isPart (c : Char) : Bool := c = '_' || Text.isDigitIn base c
  (cs.takeWhile isPart, cs.dropWhile isPart)

/-- Splits off the mark of a base; without one the base is ten. -/
def spanMark : List Char → Nat × List Char × List Char
  | '0' :: m :: rest =>
    match Text.baseOfMark? m with
    | some base => (base, ['0', m], rest)
    | none => (10, [], '0' :: m :: rest)
  | rest => (10, [], rest)

/-- Splits off an exponent; nothing if it has no digits. -/
def spanExponent? : List Char → Option (List Char × List Char)
  | e :: rest =>
    if ['e', 'E', 'p', 'P'].contains e then
      let (sign, rest) := match rest with
        | '+' :: rest => (['+'], rest)
        | '-' :: rest => (['-'], rest)
        | rest => ([], rest)
      let (digits, rest) := spanDigits 10 rest
      if digits.isEmpty then none else some (e :: sign ++ digits, rest)
    else some ([], e :: rest)
  | [] => some ([], [])

/-- Reads a number. -/
def number (cs : List Char) : Lexeme × List Char :=
  let (base, mark, rest) := spanMark cs
  let (whole, rest) := spanDigits base rest
  let (fraction, rest) := match rest with
    | '.' :: after =>
      if base = 10 || base = 16 then
        let (places, rest) := spanDigits base after
        ('.' :: places, rest)
      else ([], rest)
    | rest => ([], rest)
  match spanExponent? rest with
  | none => (.error, [])
  | some (exponent, rest) =>
    if fraction.isEmpty && exponent.isEmpty then (.int (String.ofList (mark ++ whole)), rest)
    else (.float (String.ofList (mark ++ whole ++ fraction ++ exponent)), rest)

/-- Reads a sign. -/
def sign (cs : List Char) : Lexeme × List Char :=
  match signs.find? fun s => s.toList.isPrefixOf cs with
  | some s => (.sign s, cs.drop s.length)
  | none => (.error, cs.drop 1)

/-- Reads the lexeme at the start of a text that starts with neither a blank nor a comment. -/
def lexeme (cs : List Char) : Lexeme × List Char :=
  match cs with
  | [] => (.error, [])
  | '"' :: rest =>
    match (escapes '"').read '"' rest with
    | some (text, rest) => (.string (Text.joinGlyphs text), rest)
    | none => (.error, [])
  | '\'' :: rest =>
    match (escapes '\'').read '\'' rest with
    | some ([.char c], rest) => (.char c.toNat, rest)
    | some ([.stray b], rest) => (.char b.toNat, rest)
    | _ => (.error, [])
  | '\x60' :: rest =>
    match rest.dropWhile (· ≠ '\x60') with
    | [] => (.error, [])
    | _ :: after => (.string (String.ofList ((rest.takeWhile (· ≠ '\x60')).filter (· ≠ '\r'))), after)
  | c :: rest =>
    if startsName c then
      let word := String.ofList (cs.takeWhile isNamePart)
      (if keywords.contains word then .sign word else .name word, cs.dropWhile isNamePart)
    else if Text.isDigit c || (c = '.' && (rest.head?.map Text.isDigit).getD false) then number cs
    else sign cs

/-- Splits a text at the end of a comment that it starts inside of; nothing if the comment does not
end. -/
def closeComment : List Char → Option (List Char × List Char)
  | [] => none
  | '*' :: '/' :: rest => some (['*', '/'], rest)
  | c :: rest => (closeComment rest).map fun (inside, rest) => (c :: inside, rest)

def isSpace (c : Char) : Bool := c = ' ' || c = '\t' || c = '\r'

/-- Whether only blanks and comments stand before the end of the line. A comment that goes over it,
or does not end at all, counts as the end. -/
def endsLine : (fuel : Nat) → List Char → Bool
  | 0, _ => true
  | fuel + 1, cs =>
    match cs.dropWhile isSpace with
    | [] | '\n' :: _ | '/' :: '/' :: _ => true
    | '/' :: '*' :: rest =>
      match closeComment rest with
      | none => true
      | some (inside, rest) => inside.contains '\n' || endsLine fuel rest
    | _ => false

/-- The tokens of a text that starts at `p`. `ends` says whether a statement could end here. -/
def tokensFrom : (fuel : Nat) → (cs : List Char) → (p : Place) → (ends : Bool) → List Token
  | 0, _, _, _ => []
  | fuel + 1, cs, p, ends =>
    let lineEnd := if ends then [Token.mk .lineEnd p] else []
    match cs with
    | [] => lineEnd
    | '/' :: '/' :: rest =>
      let comment := '/' :: '/' :: rest.takeWhile (· ≠ '\n')
      lineEnd ++ tokensFrom fuel (rest.dropWhile (· ≠ '\n')) (p.after comment) false
    | '/' :: '*' :: rest =>
      match closeComment rest with
      | none => [⟨.error, p⟩]
      | some (inside, rest) =>
        (if endsLine fuel cs then lineEnd else []) ++
          tokensFrom fuel rest (p.after ('/' :: '*' :: inside)) false
    | c :: rest =>
      if c = '\n' then lineEnd ++ tokensFrom fuel rest (p.step c) false
      else if isSpace c then tokensFrom fuel rest (p.step c) ends
      else
        let (l, rest) := lexeme cs
        ⟨l, p⟩ :: tokensFrom fuel rest (p.after (cs.take (cs.length - rest.length))) l.endsStatement

/-- The mark that may stand before a text, and nowhere else. -/
def textMark : Char := Char.ofNat 0xFEFF

/-- The tokens of a script. It may hold no character with the code zero. -/
def tokens (source : String) : List Token :=
  let (start, cs) := match source.toList with
    | c :: cs => if c = textMark then (Place.step {} c, cs) else ({}, c :: cs)
    | [] => ({}, [])
  if cs.any fun c => c = textMark || c = '\x00' then [⟨.error, start⟩]
  else tokensFrom (cs.length + 1) cs start false

end Script
end TileMind
