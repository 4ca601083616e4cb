import TileMind.Decimal.Layout
import TileMind.Text.Letter
import TileMind.Text.Quoted

/-!
# TileMind.Row.Token

The words of a row. A row is cut into lexemes with blanks between them; each becomes a token that
knows where it starts. What fits nowhere becomes an error token, so that nothing is passed over in
silence. A row ends at its last byte or at a NUL character.

* `lexeme` reads the first lexeme of a list of characters.
* `tokens` reads a whole row, ending with the token of its end.
-/

namespace TileMind
namespace Row

open Text

/-- A place in a row. Offsets count bytes, columns count characters. -/
structure Position where
  offset : Nat := 0
  line : Nat := 0
  column : Nat := 0
deriving DecidableEq, Repr, Inhabited

def Position.render (p : Position) : String :=
  Decimal.digitString p.line ++ ":" ++ Decimal.digitString p.column

inductive TokenKind where
  | eof | error
  | number | string | word | variable
  | truth | falsity | nil
  | lparen | rparen | dot
  | assign | or | and | eq | notEq | less | lessEq | greater | greaterEq
  | plus | minus | star | slash | percent | bang
deriving DecidableEq, Repr, Inhabited

def TokenKind.name : TokenKind → String
  | .eof => "EOF"
  | .error => "ERROR"
  | .number => "NUMBER"
  | .string => "STRING"
  | .word => "WORD"
  | .variable => "VARIABLE"
  | .truth => "true"
  | .falsity => "false"
  | .nil => "nil"
  | .lparen => "("
  | .rparen => ")"
  | .dot => "."
  | .assign => "="
  | .or => "||"
  | .and => "&&"
  | .eq => "=="
  | .notEq => "!="
  | .less => "<"
  | .lessEq => "<="
  | .greater => ">"
  | .greaterEq => ">="
  | .plus => "+"
  | .minus => "-"
  | .star => "*"
  | .slash => "/"
  | .percent => "%"
  | .bang => "!"

/-- A token. The literal of a variable has no dollar sign, that of a string no quotes and no
escapes. -/
structure Token where
  kind : TokenKind
  literal : String := ""
  pos : Position := {}
deriving DecidableEq, Repr, Inhabited

namespace Token

/-- How a token is shown in messages; a long literal is cut after twenty bytes. -/
def render (t : Token) : String :=
  match t.kind with
  | .eof => "EOF"
  | .error => "ERROR(" ++ t.literal ++ ")"
  | kind =>
    if 20 < byteLength t.literal then kind.name ++ "(" ++ quoteGlyphs (clip 20 t.literal) ++ "...)"
    else kind.name ++ "(" ++ quote t.literal ++ ")"

end Token

/-- The first token of a list of characters, and how many characters it takes. -/
structure Lexeme where
  kind : TokenKind
  literal : String
  length : Nat
deriving DecidableEq, Repr, Inhabited

def isWordStart (c : Char) : Bool := c = '_' || isLetter c

def isWordChar (c : Char) : Bool := isWordStart c || isDigit c

/-- A fixed lexeme. -/
def symbol (kind : TokenKind) : Lexeme := ⟨kind, kind.name, kind.name.length⟩

/-- A lexeme of one character, or of two if the second one follows. -/
def pairOr (second : Char) (pair single : TokenKind) (rest : List Char) : Lexeme :=
  if rest.head? = some second then symbol pair else symbol single

/-- A lexeme of two equal characters, neither of which stands alone. -/
def doubled (c : Char) (kind : TokenKind) (rest : List Char) : Lexeme :=
  if rest.head? = some c then symbol kind
  else ⟨.error, "unexpected '" ++ c.toString ++ "'", 1⟩

/-- The end of a string and of a row. -/
def isEnd (c : Char) : Bool := c.toNat = 0

/-- What a character after a backslash stands for. -/
def unescape (c : Char) : Char :=
  if c = 'n' then '\n' else if c = 't' then '\t' else c

/-- The text of a string up to its closing quote, `none` if there is none, and the number of
characters read. -/
def stringBody : List Char → Option (List Char) × Nat
  | [] => (none, 0)
  | c :: rest =>
    if c = '"' then (some [], 1)
    else if isEnd c then (none, 0)
    else if c = '\\' then
      match rest with
      | [] => (none, 1)
      | e :: rest =>
        if isEnd e then (none, 1)
        else
          let (body, n) := stringBody rest
          (body.map (unescape e :: ·), n + 2)
    else
      let (body, n) := stringBody rest
      (body.map (c :: ·), n + 1)

/-- The number of characters of a number: digits with at most one point, which a digit follows. -/
def numberLength : (seenDot : Bool) → List Char → Nat
  | _, [] => 0
  | seenDot, c :: rest =>
    if isDigit c then numberLength seenDot rest + 1
    else if c = '.' && !seenDot && (rest.head?.map isDigit).getD false then
      numberLength true rest + 1
    else 0

def wordKind (word : String) : TokenKind :=
  if word = "true" then .truth
  else if word = "false" then .falsity
  else if word = "nil" then .nil
  else .word

/-- The first lexeme of a list of characters that does not start with a blank. -/
def lexeme : List Char → Lexeme
  | [] => ⟨.eof, "", 0⟩
  | c :: rest =>
    let digitNext := (rest.head?.map isDigit).getD false
    if isEnd c then ⟨.eof, "", 0⟩
    else if c = '(' then symbol .lparen
    else if c = ')' then symbol .rparen
    else if c = '.' && !digitNext then symbol .dot
    else if c = '=' then pairOr '=' .eq .assign rest
    else if c = '!' then pairOr '=' .notEq .bang rest
    else if c = '<' then pairOr '=' .lessEq .less rest
    else if c = '>' then pairOr '=' .greaterEq .greater rest
    else if c = '|' then doubled '|' .or rest
    else if c = '&' then doubled '&' .and rest
    else if c = '+' then symbol .plus
    else if c = '-' then symbol .minus
    else if c = '*' then symbol .star
    else if c = '/' then symbol .slash
    else if c = '%' then symbol .percent
    else if c = '"' then
      match stringBody rest with
      | (some body, n) => ⟨.string, String.ofList body, n + 1⟩
      | (none, n) => ⟨.error, "unterminated string", n + 1⟩
    else if c = '$' then
      let name := rest.takeWhile isWordChar
      if name.isEmpty then ⟨.error, "expected variable name after '$'", 1⟩
      else ⟨.variable, String.ofList name, name.length + 1⟩
    else if isDigit c || c = '.' then
      let n := numberLength false (c :: rest)
      ⟨.number, String.ofList ((c :: rest).take n), n⟩
    else if isWordStart c then
      let word := (c :: rest).takeWhile isWordChar
      let text := String.ofList word
      ⟨wordKind text, text, word.length⟩
    else ⟨.error, "unexpected character " ++ c.toString, 1⟩

/-- The place after a glyph, given what follows it. The end of a row stays on its last line. -/
def Position.after (p : Position) (g : Glyph) (rest : List Glyph) : Position :=
  if g.shown = '\n' && !rest.isEmpty then ⟨p.offset + g.size, p.line + 1, 1⟩
  else ⟨p.offset + g.size, p.line, p.column + 1⟩

/-- Reads tokens from a place on, after skipping glyphs that belong to the token before. -/
def tokensFrom : (skip : Nat) → List Glyph → Position → List Token
  | _, [], pos => [⟨.eof, "", pos⟩]
  | skip + 1, g :: rest, pos => tokensFrom skip rest (pos.after g rest)
  | 0, g :: rest, pos =>
    if isBlank g.shown then tokensFrom 0 rest (pos.after g rest)
    else
      let l := lexeme (g.shown :: rest.map Glyph.shown)
      let token : Token := ⟨l.kind, l.literal, pos⟩
      if l.kind = .eof then [token]
      else token :: tokensFrom (l.length - 1) rest (pos.after g rest)

/-- The tokens of a row, the last one being its end. -/
def tokens (gs : List Glyph) : List Token := tokensFrom 0 gs ⟨0, 1, 1⟩

end Row
end TileMind
