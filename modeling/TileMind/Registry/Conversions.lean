import TileMind.Decimal.Parts
import TileMind.Value.Scalar

/-!
# TileMind.Registry.Conversions

Implicit conversions between types: a graph whose edges have a cost and name the host function that
converts. `route?` finds the cheapest chain of at most three edges; among equally cheap ones it
takes the first in the order of registration. Costs are 64-bit integers and wrap around; a chain
whose sum turns out negative counts as none, and any other chain to the same goal takes its place.
-/

namespace TileMind

/-- One edge of the graph. -/
structure Conversion where
  source : TypeId
  target : TypeId
  cost : Int
  fn : Int
deriving DecidableEq, Repr, Inhabited

inductive ConversionError where
  | identity (source target : TypeId)
  | cost (source target : TypeId)
  | sealed (source target : TypeId)
  | duplicate (source target : TypeId)
deriving DecidableEq, Repr

def ConversionError.message : ConversionError → String
  | .identity s t => "conversions: " ++ s ++ " -> " ++ t ++ " is an identity"
  | .cost s t => "conversions: " ++ s ++ " -> " ++ t ++ " needs a positive cost"
  | .sealed s t => "conversions: registry sealed, cannot add " ++ s ++ " -> " ++ t
  | .duplicate s t => "conversions: " ++ s ++ " -> " ++ t ++ " already registered"

/-- A chain of conversions and the sum of their costs. -/
structure Route where
  path : List Conversion
  cost : Int
deriving DecidableEq, Repr, Inhabited

structure Conversions where
  edges : List Conversion := []
  isSealed : Bool := false
deriving Repr, Inhabited

namespace Conversions

/-- The longest chain of an implicit conversion. -/
def maxDepth : Nat := 3

def register (r : Conversions) (e : Conversion) : Except ConversionError Conversions :=
  if e.source = e.target then .error (.identity e.source e.target)
  else if e.cost ≤ 0 then .error (.cost e.source e.target)
  else if r.isSealed then .error (.sealed e.source e.target)
  else if r.edges.any fun x => x.source = e.source && x.target = e.target then
    .error (.duplicate e.source e.target)
  else .ok { r with edges := r.edges ++ [e] }

def outgoing (r : Conversions) (t : TypeId) : List Conversion :=
  r.edges.filter fun e => e.source = t

/-- Whether a chain of the given cost is no better than the best route so far. -/
def isBeaten (cost : Int) (best : Option Route) : Bool :=
  match best with
  | some b => 0 ≤ b.cost && b.cost ≤ cost
  | none => false

/-- Extends a chain that has reached `here` by at most `depth` further edges, through types not yet
visited. `path` is the chain in reverse and `best` the best route so far. -/
def walk (r : Conversions) (goal : TypeId) : (depth : Nat) → (here : TypeId) → (cost : Int) →
    (path : List Conversion) → (visited : List TypeId) → (best : Option Route) → Option Route
  | depth, here, cost, path, visited, best =>
    if isBeaten cost best then best
    else if here = goal then some ⟨path.reverse, cost⟩
    else
      match depth with
      | 0 => best
      | depth + 1 =>
        (r.outgoing here).foldl
          (fun best e =>
            if visited.contains e.target then best
            else
              r.walk goal depth e.target (Decimal.wrap64 (cost + e.cost)) (e :: path)
                (e.target :: visited) best)
          best

/-- The cheapest chain of conversions from one type to another. -/
def route? (r : Conversions) (source target : TypeId) : Option Route :=
  if source = target then some ⟨[], 0⟩
  else (r.walk target maxDepth source 0 [] [source] none).filter fun route => 0 ≤ route.cost

def freeze (r : Conversions) : Conversions := { r with isSealed := true }

end Conversions

end TileMind
