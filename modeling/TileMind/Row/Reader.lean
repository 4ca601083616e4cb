import TileMind.Decimal.Read
import TileMind.Row.Diagnostic

/-!
# TileMind.Row.Reader

From tokens to trees, by binding strength. Reading never fails: what cannot be read becomes an error
node and a diagnostic. Operators bind, from weak to strong: assignment (to the right), or, and,
equality, comparison, sums, products (all to the left), then the unary operators and field access.

A tile word takes arguments as long as they fit a free slot of its grammar: modifiers and parameters
by name, everything else in the first free anonymous slot.

* `readRow` reads one row with a counter of node numbers that rows of a compilation share.

Depth of recursion is bounded by a number that the length of the row provides; it is never reached.
-/

namespace TileMind
namespace Row

/-- Binding strengths. -/
def assignPower : Nat := 1

/-- The operator of a token and its binding strength. -/
def binaryOp? : TokenKind → Option (BinaryOp × Nat)
  | .or => some (.or, 2)
  | .and => some (.and, 3)
  | .eq => some (.eq, 4)
  | .notEq => some (.ne, 4)
  | .less => some (.lt, 5)
  | .lessEq => some (.le, 5)
  | .greater => some (.gt, 5)
  | .greaterEq => some (.ge, 5)
  | .plus => some (.add, 6)
  | .minus => some (.sub, 6)
  | .star => some (.mul, 7)
  | .slash => some (.div, 7)
  | .percent => some (.mod, 7)
  | _ => none

/-- A reader in a row: the tokens still to read, the token of the end, the last node number given
out and the diagnostics so far. -/
structure Reader where
  rest : List Token
  last : Token
  lastId : Nat := 0
  diags : Diagnostics := []
deriving Inhabited

namespace Reader

/-- The token to read; the end of the row repeats for ever. -/
def current (r : Reader) : Token := r.rest.headD r.last

/-- The token after the current one. -/
def following (r : Reader) : Token := r.rest.tail.headD r.last

def advance (r : Reader) : Reader := { r with rest := r.rest.tail }

/-- A fresh node number for a node at `pos`. -/
def mark (r : Reader) (pos : Position) : Mark × Reader :=
  (⟨r.lastId + 1, pos⟩, { r with lastId := r.lastId + 1 })

def report (r : Reader) (d : Diagnostic) : Reader := { r with diags := r.diags ++ [d] }

/-- An error node with its diagnostic. -/
def fail (r : Reader) (rule : String) (pos : Position) (message : String) : Expr × Reader :=
  let (m, r) := r.mark pos
  (.error m message, r.report (.ofMark .parseError .error rule m message))

end Reader

/-- The slots bound so far at a call, in the order in which they were bound. -/
abbrev Bound := List (Nat × Expr)

namespace Bound

def isFilled (b : Bound) (slot : Nat) : Bool := b.any fun e => e.1 = slot

def slots (b : Bound) (spec : FlatSpec) : List Slot :=
  spec.slots.filter fun s => b.isFilled s.id

/-- Whether something in the choice with the given number is bound; 0 is no choice. -/
def groupFilled (b : Bound) (spec : FlatSpec) (group : Nat) : Bool :=
  group ≠ 0 && (b.slots spec).any fun s => s.groups.contains group

/-- Whether a value may be bound to a slot: it is free, no other option of its innermost choice is
taken, and its condition holds so far. -/
def available (b : Bound) (spec : FlatSpec) (s : Slot) : Bool :=
  !b.isFilled s.id &&
    (s.group = 0 || !(b.slots spec).any fun o => o.group = s.group && o.option ≠ s.option) &&
    match s.condition with
    | none => true
    | some cond => b.groupFilled spec ((spec.choices.get? cond.choice).getD 0) != cond.absent

/-- The slot for a parameter or modifier tile. A modifier that is bound already stays usable. -/
def find? (b : Bound) (spec : FlatSpec) (kind : ArgKind) (tile : String) : Option Nat :=
  (spec.slots.find? fun s =>
    s.arg.kind = kind && s.arg.tile = tile &&
      ((kind = .modifier && b.isFilled s.id) || b.available spec s)).map Slot.id

/-- The slot for a bare value. -/
def anonymous? (b : Bound) (spec : FlatSpec) : Option Nat :=
  (spec.slots.find? fun s => s.arg.kind = .anonymous && b.available spec s).map Slot.id

def bind (b : Bound) (slot : Nat) (e : Expr) : Bound := b ++ [(slot, e)]

/-- Counts one more occurrence of a bound modifier. -/
def recount (b : Bound) (slot : Nat) : Bound :=
  b.map fun e =>
    if e.1 = slot then
      match e.2 with
      | .modifier m tile count => (slot, .modifier m tile (count + 1))
      | _ => e
    else e

def args (b : Bound) : Args := .ofList (b.mergeSort fun x y => x.1 ≤ y.1)

end Bound

/-- How an argument starts. -/
inductive ArgStart where
  | modifier (tile : Tile)
  | parameter (tile : Tile)
  | value
  | none
deriving Repr

/-- What the current token starts at a call. A word that is no tile counts as a value, so that the
mistake is reported where it stands. -/
def argStart (c : Catalog) (t : Token) : ArgStart :=
  match t.kind with
  | .word =>
    match c.get? t.literal with
    | Option.none => .value
    | some tile =>
      match tile.kind with
      | .modifier => .modifier tile
      | .parameter => .parameter tile
      | .sensor => .value
      | .actuator => .none
  | .number | .string | .variable | .truth | .falsity | .nil | .lparen | .bang | .minus => .value
  | _ => .none

/-- Reads a chain of field accesses, at most `bound` of them. -/
def readFields : (bound : Nat) → Expr → Reader → Expr × Reader
  | 0, e, r => (e, r)
  | bound + 1, e, r =>
    if r.current.kind = .dot && r.following.kind = .word then
      let pos := r.current.pos
      let name := r.following.literal
      let (m, r) := r.mark pos
      readFields bound (.field m e name) r.advance.advance
    else (e, r)

/-- A literal read from one token. -/
def readLiteral (r : Reader) (value : Scalar) : Expr × Reader :=
  let (m, r') := r.advance.mark r.current.pos
  (.literal m value, r')

mutual

/-- Reads an expression of operators that bind at least as strongly as `power`. -/
def readExpr (c : Catalog) (rule : String) : (depth power : Nat) → Reader → Expr × Reader
  | 0, _, r => r.fail rule r.current.pos "row is nested too deeply"
  | depth + 1, power, r =>
    let (left, r) := readUnary c rule depth r
    readOperators c rule depth power left r

/-- Reads the operators that follow an operand. -/
def readOperators (c : Catalog) (rule : String) :
    (depth power : Nat) → Expr → Reader → Expr × Reader
  | 0, _, left, r => (left, r)
  | depth + 1, power, left, r =>
    let t := r.current
    if t.kind = .assign then
      if assignPower < power then (left, r)
      else
        let (value, r) := readExpr c rule depth assignPower r.advance
        if left.isPlace then
          let (m, r) := r.mark t.pos
          readOperators c rule depth power (.assign m left value) r
        else r.fail rule t.pos "cannot assign to this expression"
    else
      match binaryOp? t.kind with
      | none => (left, r)
      | some (op, strength) =>
        if strength < power then (left, r)
        else
          let (right, r) := readExpr c rule depth (strength + 1) r.advance
          let (m, r) := r.mark t.pos
          readOperators c rule depth power (.binary m op left right) r

/-- Reads an operand with the unary operators in front of it. -/
def readUnary (c : Catalog) (rule : String) : (depth : Nat) → Reader → Expr × Reader
  | 0, r => r.fail rule r.current.pos "row is nested too deeply"
  | depth + 1, r =>
    let t := r.current
    let unary (op : UnaryOp) : Expr × Reader :=
      let (m, r) := r.advance.mark t.pos
      let (operand, r) := readUnary c rule depth r
      (.unary m op operand, r)
    match t.kind with
    | .bang => unary .not
    | .minus => unary .neg
    | _ =>
      let (e, r) := readPrimary c rule depth r
      readFields r.rest.length e r

/-- Reads a literal, a variable, an expression in parentheses or a tile. -/
def readPrimary (c : Catalog) (rule : String) : (depth : Nat) → Reader → Expr × Reader
  | 0, r => r.fail rule r.current.pos "row is nested too deeply"
  | depth + 1, r =>
    let t := r.current
    match t.kind with
    | .number =>
      match (Decimal.read? t.literal).filter Float.isFinite with
      | some x => readLiteral r (.number x)
      | none => r.advance.fail rule t.pos ("invalid number " ++ Text.quote t.literal)
    | .string => readLiteral r (.string t.literal)
    | .truth => readLiteral r (.bool true)
    | .falsity => readLiteral r (.bool false)
    | .nil => readLiteral r .nil
    | .variable =>
      let (m, r) := r.advance.mark t.pos
      (.variable m t.literal, r)
    | .lparen =>
      let (e, r) := readExpr c rule depth assignPower r.advance
      if r.current.kind = .rparen then (e, r.advance)
      else r.fail rule r.current.pos ("expected ')', got " ++ r.current.render)
    | .word =>
      let r := r.advance
      match c.get? t.literal with
      | none =>
        let (m, r) := r.mark t.pos
        (.error m ("unknown tile " ++ t.literal),
          r.report (.ofMark .missingTile .error rule m ("unknown tile " ++ Text.quote t.literal)))
      | some tile =>
        let (m, r) := r.mark t.pos
        match tile.kind with
        | .sensor | .actuator =>
          let (bound, r) := readArgs c rule depth tile [] r
          (.call m tile bound.args, r)
        | .parameter =>
          let (value, r) := readUnary c rule depth r
          (.parameter m tile value, r)
        | .modifier => (.modifier m tile 1, r)
    | .eof => r.fail rule t.pos "unexpected end of row"
    | .error => r.advance.fail rule t.pos t.literal
    | _ => r.advance.fail rule t.pos ("unexpected " ++ t.render)

/-- Reads arguments of a call as long as they fit a slot. -/
def readArgs (c : Catalog) (rule : String) : (depth : Nat) → Tile → Bound → Reader → Bound × Reader
  | 0, _, bound, r => (bound, r)
  | depth + 1, tile, bound, r =>
    let t := r.current
    match argStart c t with
    | .modifier arg =>
      match bound.find? tile.spec .modifier arg.id with
      | none => (bound, r)
      | some slot =>
        if bound.isFilled slot then readArgs c rule depth tile (bound.recount slot) r.advance
        else
          let (m, r) := r.advance.mark t.pos
          readArgs c rule depth tile (bound.bind slot (.modifier m arg 1)) r
    | .parameter arg =>
      match bound.find? tile.spec .parameter arg.id with
      | none => (bound, r)
      | some slot =>
        let (m, r) := r.advance.mark t.pos
        let (value, r) := readUnary c rule depth r
        readArgs c rule depth tile (bound.bind slot (.parameter m arg value)) r
    | .value =>
      match bound.anonymous? tile.spec with
      | none => (bound, r)
      | some slot =>
        let (value, r) := readUnary c rule depth r
        readArgs c rule depth tile (bound.bind slot value) r
    | .none => (bound, r)

end

/-- Reads what the reader has before it as one row. Tokens after the expression are reported one by
one. -/
def Reader.readAll (c : Catalog) (rule : String) (r : Reader) : Expr × Reader :=
  if r.rest.isEmpty then
    let (m, r) := r.mark r.last.pos
    (.empty m, r)
  else
    let (e, r) := readExpr c rule (8 * r.rest.length + 8) assignPower r
    let extra := r.rest.map fun t => Diagnostic.ofNode .parseError .error rule e ("unexpected " ++ t.render)
    (e, { r with rest := [], diags := r.diags ++ extra })

def Reader.start (gs : List Text.Glyph) (lastId : Nat) (diags : Diagnostics) : Reader :=
  let ts := tokens gs
  { rest := ts.dropLast, last := ts.getLastD default, lastId := lastId, diags := diags }

def readRow (c : Catalog) (rule : String) (row : Text.Source) (lastId : Nat) (diags : Diagnostics) :
    Expr × Reader :=
  (Reader.start row lastId diags).readAll c rule

end Row
end TileMind
