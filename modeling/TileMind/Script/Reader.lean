import TileMind.Decimal.Read
import TileMind.Script.Syntax

/-!
# TileMind.Script.Reader

From tokens to statements. Every reader takes what it knows off the front of the tokens, and gives
it with the tokens that are left. A script that they do not understand to its end has no statements.
-/

namespace TileMind
namespace Script

-- `^` is the power that comes with the numbers, also where that of a monoid could be taken.
attribute [local instance (high)] instPowNat

/-- The next token is a sign. -/
def isAt (s : String) (ts : List Token) : Bool := (ts.head?.map Token.lexeme) = some (.sign s)

/-- Takes a sign off. -/
def expect (s : String) (ts : List Token) : Option (Place × List Token) :=
  match ts with
  | t :: rest => if t.lexeme = .sign s then some (t.place, rest) else none
  | [] => none

/-- Takes off a line end, where one may stand before a closing sign. -/
def skipLineEnd : List Token → List Token
  | ⟨.lineEnd, _⟩ :: rest => rest
  | ts => ts

/-- The end of a statement. None is needed before a closing brace. -/
def endOfStatement (ts : List Token) : Option (List Token) :=
  match ts with
  | [] => some []
  | t :: rest =>
    match t.lexeme with
    | .lineEnd | .sign ";" => some rest
    | .sign ")" | .sign "\x7d" => some ts
    | _ => none

/-- An integer literal of 64 bits, in decimal or in the base that its first characters say. -/
def intLiteral? (s : String) : Option Int :=
  ((Text.markedDigits? s.toList).filter (· < 2 ^ (63 : Nat))).map fun n => (n : Int)

/-- Whether every underscore stands between two digits; `before` says whether a digit came last. -/
def marksSeparate (base : Nat) : (before : Bool) → List Char → Bool
  | _, [] => true
  | before, '_' :: rest =>
    before && (rest.head?.map (Text.isDigitIn base)).getD false && marksSeparate base false rest
  | _, c :: rest => marksSeparate base (Text.isDigitIn base c) rest

/-- The number of hexadecimal digits with a point among them and a binary exponent behind `p`. -/
def hexFloat? (cs : List Char) : Option Float :=
  let mantissa := cs.takeWhile fun c => c ≠ 'p' && c ≠ 'P'
  let whole := mantissa.takeWhile (· ≠ '.')
  let places := (mantissa.drop whole.length).drop 1
  match cs.drop mantissa.length, Text.digitsIn? 16 (whole ++ places) with
  | _ :: exponent, some m =>
    (Decimal.signedDigits? exponent).map fun e => Decimal.ofParts false m (e - 4 * places.length)
  | _, _ => none

/-- Digits without the underscores between them, if each stands between two digits. -/
def withoutMarks? (base : Nat) (before : Bool) (cs : List Char) : Option (List Char) :=
  if marksSeparate base before cs then some (cs.filter (· ≠ '_')) else none

/-- A literal with a point or an exponent. One that is too large for a number is refused. -/
def floatLiteral? (s : String) : Option Float :=
  let value := match spanMark s.toList with
    | (16, _, rest) => (withoutMarks? 16 true rest).bind hexFloat?
    | (10, _, rest) => (withoutMarks? 10 false rest).bind fun cs => Decimal.read? (String.ofList cs)
    | _ => none
  value.filter fun x => x.isFinite

/-- How tightly an operator binds, and what it makes of its operands. -/
def binary? (sign : String) : Option (Nat × (Expr → Expr → Expr)) :=
  match sign with
  | "||" => some (1, .either)
  | "&&" => some (2, .both)
  | "==" => some (3, .binary .equal)
  | "!=" => some (3, .binary .notEqual)
  | "<" => some (3, .binary .less)
  | "<=" => some (3, .binary .lessEq)
  | ">" => some (3, .binary .greater)
  | ">=" => some (3, .binary .greaterEq)
  | "+" => some (4, .binary .add)
  | "-" => some (4, .binary .sub)
  | "*" => some (5, .binary .mul)
  | "/" => some (5, .binary .quo)
  | "%" => some (5, .binary .rem)
  | _ => none

/-- The operator at the front, if it binds at least as tightly as `level`. -/
def operatorAt (level : Nat) (ts : List Token) : Option ((Nat × (Expr → Expr → Expr)) × List Token) :=
  match ts with
  | ⟨.sign s, _⟩ :: rest => ((binary? s).filter fun o => level ≤ o.1).map (·, rest)
  | _ => none

def unary? : String → Option UnaryOp
  | "!" => some .not
  | "-" => some .negate
  | "+" => some .keep
  | _ => none

/-- Goes on after an item of a list: after a comma another item must follow. -/
def anotherItem (close : String) (ts : List Token) : Option (Bool × List Token) :=
  if isAt "," ts then if isAt close ts.tail then none else some (true, ts.tail)
  else some (false, skipLineEnd ts)

mutual

/-- An expression, with a choice behind a question mark at the end. -/
def expression : (fuel : Nat) → List Token → Option (Expr × List Token)
  | 0, _ => none
  | fuel + 1, ts => do
    let (e, ts) ← operators fuel 1 ts
    if isAt "?" ts then
      let (yes, ts) ← expression fuel ts.tail
      let (_, ts) ← expect ":" ts
      let (no, ts) ← expression fuel ts
      return (.choose e yes no, ts)
    else return (e, ts)
termination_by structural fuel => fuel

/-- Operands with operators that bind at least as tightly as `level` between them. -/
def operators : (fuel : Nat) → (level : Nat) → List Token → Option (Expr × List Token)
  | 0, _, _ => none
  | fuel + 1, level, ts => do
    let (e, ts) ← operand fuel ts
    moreOperators fuel level e ts
termination_by structural fuel => fuel

def moreOperators : (fuel : Nat) → (level : Nat) → Expr → List Token → Option (Expr × List Token)
  | 0, _, _, _ => none
  | fuel + 1, level, left, ts =>
    match operatorAt level ts with
    | none => some (left, ts)
    | some ((tightness, make), ts) => do
      let (right, ts) ← operators fuel (tightness + 1) ts
      moreOperators fuel level (make left right) ts
termination_by structural fuel => fuel

/-- A value with signs before and calls or keys behind it. -/
def operand : (fuel : Nat) → List Token → Option (Expr × List Token)
  | 0, _ => none
  | fuel + 1, ts =>
    match ts with
    | [] => none
    | t :: rest =>
      let op := match t.lexeme with
        | .sign s => unary? s
        | _ => none
      match op with
      | some op => (operand fuel rest).map fun (e, ts) => (.unary t.place op e, ts)
      | none => (primary fuel t rest).bind fun (e, ts) => suffixes fuel e ts
termination_by structural fuel => fuel

/-- The value that starts with the token `t`. -/
def primary : (fuel : Nat) → (t : Token) → List Token → Option (Expr × List Token)
  | 0, _, _ => none
  | fuel + 1, t, ts =>
    let p := t.place
    match t.lexeme with
    | .name s => some (.name p s, ts)
    | .int s => (intLiteral? s).map fun n => (.literal p (.int n), ts)
    | .float s => (floatLiteral? s).map fun x => (.literal p (.float x), ts)
    | .char code => some (.literal p (.char code), ts)
    | .string s => some (.literal p (.string s), ts)
    | .sign "true" => some (.literal p (.bool true), ts)
    | .sign "false" => some (.literal p (.bool false), ts)
    | .sign "undefined" => some (.literal p .undefined, ts)
    | .sign "(" => do
      let (e, ts) ← expression fuel ts
      let (_, ts) ← expect ")" ts
      return (.group p e, ts)
    | .sign "[" => do
      let (items, ts) ← expressions fuel "]" ts
      return (.array p items, ts)
    | .sign "\x7b" => do
      let (entries, ts) ← mapEntries fuel ts
      return (.map p entries, ts)
    | .sign "error" => do
      let (_, ts) ← expect "(" ts
      let (e, ts) ← expression fuel ts
      let (_, ts) ← expect ")" ts
      return (.error p e, ts)
    | .sign "immutable" => do
      let (_, ts) ← expect "(" ts
      let (e, ts) ← expression fuel ts
      let (_, ts) ← expect ")" ts
      return (.immutable p e, ts)
    | .sign "import" =>
      match ts with
      | ⟨.sign "(", _⟩ :: ⟨.string s, _⟩ :: ⟨.sign ")", _⟩ :: ts => some (.module p s, ts)
      | _ => none
    | _ => none
termination_by structural fuel => fuel

/-- Calls and keys behind a value. -/
def suffixes : (fuel : Nat) → Expr → List Token → Option (Expr × List Token)
  | 0, _, _ => none
  | fuel + 1, e, ts =>
    match ts with
    | ⟨.sign ".", _⟩ :: ⟨.name s, p⟩ :: ts => suffixes fuel (.index e (.literal p (.string s))) ts
    | ⟨.sign ".", _⟩ :: _ => none
    | ⟨.sign "[", _⟩ :: ts => do
      let (key, ts) ← expression fuel ts
      let (_, ts) ← expect "]" ts
      suffixes fuel (.index e key) ts
    | ⟨.sign "(", _⟩ :: ts => do
      let (args, ts) ← expressions fuel ")" ts
      suffixes fuel (.call e args) ts
    | _ => some (e, ts)
termination_by structural fuel => fuel

/-- Expressions with commas between them, up to a closing sign. -/
def expressions : (fuel : Nat) → (close : String) → List Token → Option (List Expr × List Token)
  | 0, _, _ => none
  | fuel + 1, close, ts =>
    if isAt close ts then some ([], ts.tail)
    else do
      let (e, ts) ← expression fuel ts
      let (more, ts) ← anotherItem close ts
      if more then
        let (es, ts) ← expressions fuel close ts
        return (e :: es, ts)
      else
        let (_, ts) ← expect close ts
        return ([e], ts)
termination_by structural fuel => fuel

/-- The entries of a map, up to its closing brace. -/
def mapEntries : (fuel : Nat) → List Token → Option (List (String × Expr) × List Token)
  | 0, _ => none
  | fuel + 1, ts =>
    if isAt "\x7d" ts then some ([], ts.tail)
    else do
      let (key, ts) ← match ts with
        | ⟨.name s, _⟩ :: ts | ⟨.string s, _⟩ :: ts => some (s, ts)
        | _ => none
      let (_, ts) ← expect ":" ts
      let (e, ts) ← expression fuel ts
      let (more, ts) ← anotherItem "\x7d" ts
      if more then
        let (es, ts) ← mapEntries fuel ts
        return ((key, e) :: es, ts)
      else
        let (_, ts) ← expect "\x7d" ts
        return ([(key, e)], ts)
termination_by structural fuel => fuel

end

/-- The variable and keys of an expression that is assigned to. What is neither a name nor a key of
something stands for the variable with the empty name. -/
def Target.ofExpr (place : Place) : Expr → Target
  | .name _ s => ⟨place, s, []⟩
  | .index e key =>
    let t := Target.ofExpr place e
    { t with keys := t.keys ++ [key] }
  | _ => ⟨place, "", []⟩

/-- The operator of an assignment that starts from the present value. -/
def updateOp? : String → Option BinaryOp
  | "+=" => some .add
  | "-=" => some .sub
  | "*=" => some .mul
  | "/=" => some .quo
  | "%=" => some .rem
  | _ => none

/-- An assignment, a definition or a lone expression. -/
def simple (fuel : Nat) (ts : List Token) : Option (Stmt × List Token) := do
  let (e, ts) ← expression fuel ts
  let target := Target.ofExpr e.place e
  match ts with
  | ⟨.sign ":=", _⟩ :: ts =>
    let (value, ts) ← expression fuel ts
    return (.define target value, ts)
  | ⟨.sign "=", _⟩ :: ts =>
    let (value, ts) ← expression fuel ts
    return (.assign target value, ts)
  | ⟨.sign "++", _⟩ :: ts => return (.update target e .add (.literal e.place (.int 1)), ts)
  | ⟨.sign "--", _⟩ :: ts => return (.update target e .sub (.literal e.place (.int 1)), ts)
  | ⟨.sign s, _⟩ :: rest =>
    match updateOp? s with
    | some op =>
      let (value, ts) ← expression fuel rest
      return (.update target e op value, ts)
    | none => return (.run e, ts)
  | _ => return (.run e, ts)

mutual

/-- A statement with its end. -/
def statement : (fuel : Nat) → List Token → Option (Stmt × List Token)
  | 0, _ => none
  | fuel + 1, ts =>
    match ts with
    | ⟨.sign "if", _⟩ :: ts => conditional fuel ts
    | ⟨.sign "for", _⟩ :: ts => do
      let (cond, ts) ←
        if isAt "\x7b" ts then some (none, ts)
        else (expression (fuel + 1) ts).map fun (e, ts) => (some e, ts)
      let (body, ts) ← block fuel ts
      let ts ← endOfStatement ts
      return (.loop cond body, ts)
    | ⟨.sign "break", p⟩ :: ts => (endOfStatement ts).map (.leave p, ·)
    | ⟨.sign "continue", p⟩ :: ts => (endOfStatement ts).map (.again p, ·)
    | ⟨.sign ";", _⟩ :: ts | ⟨.lineEnd, _⟩ :: ts => some (.skip, ts)
    | ts => do
      let (s, ts) ← simple (fuel + 1) ts
      let ts ← endOfStatement ts
      return (s, ts)
termination_by structural fuel => fuel

/-- A conditional behind its `if`. Its condition does not start with a brace. -/
def conditional : (fuel : Nat) → List Token → Option (Stmt × List Token)
  | 0, _ => none
  | fuel + 1, ts => do
    if isAt "\x7b" ts then none
    let (cond, ts) ← expression (fuel + 1) ts
    let (yes, ts) ← block fuel ts
    match ts with
    | ⟨.sign "else", _⟩ :: ⟨.sign "if", _⟩ :: ts =>
      let (no, ts) ← conditional fuel ts
      return (.branch cond yes [no], ts)
    | ⟨.sign "else", _⟩ :: ts =>
      let (no, ts) ← block fuel ts
      let ts ← endOfStatement ts
      return (.branch cond yes no, ts)
    | ts =>
      let ts ← endOfStatement ts
      return (.branch cond yes [], ts)
termination_by structural fuel => fuel

/-- Statements in braces. -/
def block : (fuel : Nat) → List Token → Option (List Stmt × List Token)
  | 0, _ => none
  | fuel + 1, ts => do
    let (_, ts) ← expect "\x7b" ts
    statements fuel ts
termination_by structural fuel => fuel

/-- Statements up to a closing brace. -/
def statements : (fuel : Nat) → List Token → Option (List Stmt × List Token)
  | 0, _ => none
  | fuel + 1, ts =>
    if isAt "\x7d" ts then some ([], ts.tail)
    else do
      let (s, ts) ← statement fuel ts
      let (ss, ts) ← statements fuel ts
      return (s :: ss, ts)
termination_by structural fuel => fuel

end

/-- Statements up to the end. -/
def allStatements : (fuel : Nat) → List Token → Option (List Stmt)
  | 0, _ => none
  | _ + 1, [] => some []
  | fuel + 1, ts => do
    let (s, ts) ← statement (8 * fuel + 8) ts
    let ss ← allStatements fuel ts
    return s :: ss

/-- The statements of a script. -/
def read? (source : String) : Option (List Stmt) :=
  let ts := tokens source
  allStatements (ts.length + 1) ts

end Script
end TileMind
