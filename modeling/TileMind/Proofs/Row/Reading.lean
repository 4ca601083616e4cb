import TileMind.Row.Reader

/-!
# TileMind.Proofs.Row.Reading

What the reader can do, rule by rule. What reading preserves is shown once for each rule.

* `Piece`: what there is of a row while it is read.
* `Reading`: the rules. What binds stronger than what does not matter to them.
* `readings`: all that is read is read by the rules.
-/

namespace TileMind
namespace Row

/-- What there is of a part of a row while it is read: nothing, a tree, or what is bound at a call of a tile. -/
inductive Piece where
  | nothing
  | tree (e : Expr)
  | args (tile : Tile) (bound : Bound)

/-- The plain value that a token is. A number may have too many digits for one. -/
def Token.scalar? (t : Token) : Option Scalar :=
  match t.kind with
  | .number => ((Decimal.read? t.literal).filter Float.isFinite).map .number
  | .string => some (.string t.literal)
  | .truth => some (.bool true)
  | .falsity => some (.bool false)
  | .nil => some .nil
  | _ => none

/-- The operator that a token is in front of an operand. -/
def unaryOp? : TokenKind → Option UnaryOp
  | .bang => some .not
  | .minus => some .neg
  | _ => none

/-- Reading goes on from a piece and a reader to a piece and a reader. -/
inductive Reading (c : Catalog) (rule : String) : Piece → Reader → Piece → Reader → Prop where
  | refl (p : Piece) (r : Reader) : Reading c rule p r p r
  | trans {p q s : Piece} {r r' r'' : Reader} (first : Reading c rule p r q r')
      (rest : Reading c rule q r' s r'') : Reading c rule p r s r''
  /-- There is an error right here, in place of all that there was. -/
  | fail (p : Piece) (r : Reader) (pos : Position) (message : String) :
      Reading c rule p r (.tree (r.fail rule pos message).1) (r.fail rule pos message).2
  /-- There is an error later on, in place of all that there was and that was read meanwhile. -/
  | failAfter {q : Piece} {r r' : Reader} (p : Piece) (after : Reading c rule .nothing r.advance q r')
      (pos : Position) (message : String) :
      Reading c rule p r (.tree (r'.fail rule pos message).1) (r'.fail rule pos message).2
  | field {e : Expr} {r : Reader} (dot : r.current.kind = .dot) (word : r.following.kind = .word) :
      Reading c rule (.tree e) r (.tree (.field (r.mark r.current.pos).1 e r.following.literal))
        (r.mark r.current.pos).2.advance.advance
  | assign {left value : Expr} {r r' : Reader} (sign : r.current.kind = .assign) (place : left.isPlace)
      (right : Reading c rule .nothing r.advance (.tree value) r') :
      Reading c rule (.tree left) r (.tree (.assign (r'.mark r.current.pos).1 left value))
        (r'.mark r.current.pos).2
  | binary {left right : Expr} {r r' : Reader} {op : BinaryOp} {strength : Nat}
      (sign : binaryOp? r.current.kind = some (op, strength))
      (operand : Reading c rule .nothing r.advance (.tree right) r') :
      Reading c rule (.tree left) r (.tree (.binary (r'.mark r.current.pos).1 op left right))
        (r'.mark r.current.pos).2
  | unary {e : Expr} {r r' : Reader} {op : UnaryOp} (sign : unaryOp? r.current.kind = some op)
      (operand : Reading c rule .nothing (r.advance.mark r.current.pos).2 (.tree e) r') :
      Reading c rule .nothing r (.tree (.unary (r.advance.mark r.current.pos).1 op e)) r'
  | literal {r : Reader} {value : Scalar} (token : r.current.scalar? = some value) :
      Reading c rule .nothing r (.tree (readLiteral r value).1) (readLiteral r value).2
  | name {r : Reader} (token : r.current.kind = .variable) :
      Reading c rule .nothing r (.tree (.variable (r.advance.mark r.current.pos).1 r.current.literal))
        (r.advance.mark r.current.pos).2
  | parens {e : Expr} {r r' : Reader} (opening : r.current.kind = .lparen)
      (inner : Reading c rule .nothing r.advance (.tree e) r') (closing : r'.current.kind = .rparen) :
      Reading c rule .nothing r (.tree e) r'.advance
  | unknown {r : Reader} (word : r.current.kind = .word) (missing : c.get? r.current.literal = none) :
      Reading c rule .nothing r
        (.tree (.error (r.advance.mark r.current.pos).1 ("unknown tile " ++ r.current.literal)))
        ((r.advance.mark r.current.pos).2.report (.ofMark .missingTile .error rule
          (r.advance.mark r.current.pos).1 ("unknown tile " ++ Text.quote r.current.literal)))
  | call {r r' : Reader} {tile : Tile} {bound : Bound} (word : r.current.kind = .word)
      (found : c.get? r.current.literal = some tile)
      (args : Reading c rule (.args tile []) (r.advance.mark r.current.pos).2 (.args tile bound) r') :
      Reading c rule .nothing r (.tree (.call (r.advance.mark r.current.pos).1 tile bound.args)) r'
  | parameter {e : Expr} {r r' : Reader} {tile : Tile} (word : r.current.kind = .word)
      (found : c.get? r.current.literal = some tile)
      (value : Reading c rule .nothing (r.advance.mark r.current.pos).2 (.tree e) r') :
      Reading c rule .nothing r (.tree (.parameter (r.advance.mark r.current.pos).1 tile e)) r'
  | modifier {r : Reader} {tile : Tile} (word : r.current.kind = .word)
      (found : c.get? r.current.literal = some tile) :
      Reading c rule .nothing r (.tree (.modifier (r.advance.mark r.current.pos).1 tile 1))
        (r.advance.mark r.current.pos).2
  | recount {r : Reader} {tile arg : Tile} {bound : Bound} {slot : Nat}
      (start : argStart c r.current = .modifier arg)
      (found : bound.find? tile.spec .modifier arg.id = some slot) (filled : bound.isFilled slot = true) :
      Reading c rule (.args tile bound) r (.args tile (bound.recount slot)) r.advance
  | bindModifier {r : Reader} {tile arg : Tile} {bound : Bound} {slot : Nat}
      (start : argStart c r.current = .modifier arg)
      (found : bound.find? tile.spec .modifier arg.id = some slot) (free : bound.isFilled slot = false) :
      Reading c rule (.args tile bound) r
        (.args tile (bound.bind slot (.modifier (r.advance.mark r.current.pos).1 arg 1)))
        (r.advance.mark r.current.pos).2
  | bindParameter {e : Expr} {r r' : Reader} {tile arg : Tile} {bound : Bound} {slot : Nat}
      (start : argStart c r.current = .parameter arg)
      (found : bound.find? tile.spec .parameter arg.id = some slot)
      (value : Reading c rule .nothing (r.advance.mark r.current.pos).2 (.tree e) r') :
      Reading c rule (.args tile bound) r
        (.args tile (bound.bind slot (.parameter (r.advance.mark r.current.pos).1 arg e))) r'
  | bindValue {e : Expr} {r r' : Reader} {tile : Tile} {bound : Bound} {slot : Nat}
      (start : argStart c r.current = .value) (found : bound.anonymous? tile.spec = some slot)
      (value : Reading c rule .nothing r (.tree e) r') :
      Reading c rule (.args tile bound) r (.args tile (bound.bind slot e)) r'

/-- All that is read down to some depth is read by the rules. -/
structure Readings (c : Catalog) (rule : String) (depth : Nat) : Prop where
  expr : ∀ power r, Reading c rule .nothing r (.tree (readExpr c rule depth power r).1)
    (readExpr c rule depth power r).2
  operators : ∀ power left r, Reading c rule (.tree left) r (.tree (readOperators c rule depth power left r).1)
    (readOperators c rule depth power left r).2
  unary : ∀ r, Reading c rule .nothing r (.tree (readUnary c rule depth r).1) (readUnary c rule depth r).2
  primary : ∀ r, Reading c rule .nothing r (.tree (readPrimary c rule depth r).1)
    (readPrimary c rule depth r).2
  args : ∀ tile bound r, Reading c rule (.args tile bound) r (.args tile (readArgs c rule depth tile bound r).1)
    (readArgs c rule depth tile bound r).2

section

variable {c : Catalog} {rule : String} {depth : Nat}

theorem reading_readFields (bound : Nat) (e : Expr) (r : Reader) :
    Reading c rule (.tree e) r (.tree (readFields bound e r).1) (readFields bound e r).2 := by
  induction bound generalizing e r with
  | zero => exact .refl _ _
  | succ bound ih =>
    rw [readFields]
    split
    · rename_i hfield
      simp only [Bool.and_eq_true, decide_eq_true_eq] at hfield
      exact (Reading.field hfield.1 hfield.2).trans (ih _ _)
    · exact .refl _ _

theorem reading_fail_next (p : Piece) (r : Reader) (pos : Position) (message : String) :
    Reading c rule p r (.tree (r.advance.fail rule pos message).1) (r.advance.fail rule pos message).2 :=
  .failAfter p (.refl _ _) pos message

theorem Readings.zero (c : Catalog) (rule : String) : Readings c rule 0 := by
  constructor
  · intro power r
    rw [readExpr]
    exact .fail _ _ _ _
  · intro power left r
    rw [readOperators]
    exact .refl _ _
  · intro r
    rw [readUnary]
    exact .fail _ _ _ _
  · intro r
    rw [readPrimary]
    exact .fail _ _ _ _
  · intro tile bound r
    rw [readArgs]
    exact .refl _ _

variable (ih : Readings c rule depth)
include ih

theorem reading_readExpr (power : Nat) (r : Reader) :
    Reading c rule .nothing r (.tree (readExpr c rule (depth + 1) power r).1)
      (readExpr c rule (depth + 1) power r).2 := by
  rw [readExpr]
  exact (ih.unary r).trans (ih.operators _ _ _)

theorem reading_readOperators (power : Nat) (left : Expr) (r : Reader) :
    Reading c rule (.tree left) r (.tree (readOperators c rule (depth + 1) power left r).1)
      (readOperators c rule (depth + 1) power left r).2 := by
  rw [readOperators]
  dsimp only
  split
  · rename_i hassign
    split
    · exact .refl _ _
    · split
      · rename_i hplace
        exact (Reading.assign hassign hplace (ih.expr _ _)).trans (ih.operators _ _ _)
      · exact .failAfter _ (ih.expr _ _) _ _
  · split
    · exact .refl _ _
    · rename_i op strength hop
      split
      · exact .refl _ _
      · exact (Reading.binary hop (ih.expr _ _)).trans (ih.operators _ _ _)

theorem reading_readUnary (r : Reader) :
    Reading c rule .nothing r (.tree (readUnary c rule (depth + 1) r).1) (readUnary c rule (depth + 1) r).2 := by
  rw [readUnary]
  dsimp only
  split
  · rename_i hkind
    exact .unary (by rw [hkind]; rfl) (ih.unary _)
  · rename_i hkind
    exact .unary (by rw [hkind]; rfl) (ih.unary _)
  · exact (ih.primary r).trans (reading_readFields _ _ _)

theorem reading_readPrimary (r : Reader) :
    Reading c rule .nothing r (.tree (readPrimary c rule (depth + 1) r).1)
      (readPrimary c rule (depth + 1) r).2 := by
  rw [readPrimary]
  dsimp only
  split
  case h_1 hkind =>
    split
    · rename_i x hx
      exact .literal (by simp [Token.scalar?, hkind, hx])
    · exact reading_fail_next _ _ _ _
  case h_2 hkind => exact .literal (by simp [Token.scalar?, hkind])
  case h_3 hkind => exact .literal (by simp [Token.scalar?, hkind])
  case h_4 hkind => exact .literal (by simp [Token.scalar?, hkind])
  case h_5 hkind => exact .literal (by simp [Token.scalar?, hkind])
  case h_6 hkind => exact .name hkind
  case h_7 hkind =>
    split
    · rename_i hclose
      exact .parens hkind (ih.expr _ _) hclose
    · exact .failAfter _ (ih.expr _ _) _ _
  case h_8 hkind =>
    split
    · rename_i hmissing
      exact .unknown hkind hmissing
    · rename_i tile hfound
      split
      · exact .call hkind hfound (ih.args _ _ _)
      · exact .call hkind hfound (ih.args _ _ _)
      · exact .parameter hkind hfound (ih.unary _)
      · exact .modifier hkind hfound
  case h_9 => exact .fail _ _ _ _
  all_goals exact reading_fail_next _ _ _ _

theorem reading_readArgs (tile : Tile) (bound : Bound) (r : Reader) :
    Reading c rule (.args tile bound) r (.args tile (readArgs c rule (depth + 1) tile bound r).1)
      (readArgs c rule (depth + 1) tile bound r).2 := by
  rw [readArgs]
  dsimp only
  split
  · rename_i arg hstart
    split
    · exact .refl _ _
    · rename_i slot hfound
      split
      · rename_i hfilled
        exact (Reading.recount hstart hfound hfilled).trans (ih.args _ _ _)
      · rename_i hfree
        exact (Reading.bindModifier hstart hfound (Bool.eq_false_iff.mpr hfree)).trans (ih.args _ _ _)
  · rename_i arg hstart
    split
    · exact .refl _ _
    · rename_i slot hfound
      exact (Reading.bindParameter hstart hfound (ih.unary _)).trans (ih.args _ _ _)
  · rename_i hstart
    split
    · exact .refl _ _
    · rename_i slot hfound
      exact (Reading.bindValue hstart hfound (ih.unary _)).trans (ih.args _ _ _)
  · exact .refl _ _

end

theorem readings (c : Catalog) (rule : String) (depth : Nat) : Readings c rule depth := by
  induction depth with
  | zero => exact .zero c rule
  | succ depth ih =>
    exact
      { expr := reading_readExpr ih
        operators := reading_readOperators ih
        unary := reading_readUnary ih
        primary := reading_readPrimary ih
        args := reading_readArgs ih }

end Row
end TileMind
