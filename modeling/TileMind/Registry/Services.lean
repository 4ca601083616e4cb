import TileMind.Registry.Conversions
import TileMind.Registry.Functions
import TileMind.Registry.Operators
import TileMind.Registry.Types

/-!
# TileMind.Registry.Services

The registries that a compilation and the brain running its program share, and the ceilings that a
running brain keeps.
-/

namespace TileMind

structure Services (σ : Type) where
  types : TypeRegistry σ := .initial
  functions : Functions σ := {}
  operators : Operators := {}
  conversions : Conversions := {}

namespace Services

variable {σ : Type}

/-- Freezes every registry: no later registration succeeds. -/
def freeze (s : Services σ) : Services σ :=
  { types := s.types.freeze
    functions := s.functions.freeze
    operators := s.operators.freeze
    conversions := s.conversions.freeze }

end Services

/-- Hard ceilings of a running brain. A ceiling that is not positive takes its default. -/
structure Limits where
  frames : Int := 0
  stack : Int := 0
  fibers : Int := 0
  handles : Int := 0
  budget : Int := 0
deriving DecidableEq, Repr, Inhabited

namespace Limits

def standard : Limits := ⟨64, 256, 256, 1024, 10000⟩

def orElse (n standard : Int) : Int := if n ≤ 0 then standard else n

/-- The ceilings with defaults filled in. -/
def filled (l : Limits) : Limits :=
  ⟨orElse l.frames standard.frames, orElse l.stack standard.stack, orElse l.fibers standard.fibers,
    orElse l.handles standard.handles, orElse l.budget standard.budget⟩

end Limits

end TileMind
