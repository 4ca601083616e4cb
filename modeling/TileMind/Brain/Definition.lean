import TileMind.Text.Glyph
import TileMind.Value.Scalar

/-!
# TileMind.Brain.Definition

The source of a brain: pages of rules. A rule pairs a condition row with an action row; its children
run after the action whenever the condition holds.
-/

namespace TileMind

/-- A variable with its declared type; the empty type is no declaration of one. -/
structure VarDecl where
  name : String
  type : TypeId := ""
deriving DecidableEq, Repr, Inhabited

structure RuleDef where
  whenRow : Text.Source := []
  doRow : Text.Source := []
  locals : List VarDecl := []
  children : List RuleDef := []
deriving Repr, Inhabited

/-- A page. An empty id stands for the position of the page, an empty name for its id. -/
structure PageDef where
  id : String := ""
  name : String := ""
  rules : List RuleDef := []
deriving Repr, Inhabited

/-- A brain. `entry` is the id or name of the page it starts on; if empty, that is the first one. -/
structure BrainDef where
  name : String := ""
  globals : List VarDecl := []
  pages : List PageDef := []
  entry : String := ""
deriving Repr, Inhabited

end TileMind
