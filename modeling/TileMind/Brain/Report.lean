import TileMind.Brain.Basic

/-!
# TileMind.Brain.Report

The state of a brain in words: its clock, the page it is on, its globals by name, and the faults it
has seen.
-/

namespace TileMind
namespace Brain

variable {W : Type}

/-- A report on a brain that is called `id`. There is none if a global contains itself. -/
def report? (b : Brain W) (id : String) : Option String := do
  let m := b.mind
  let page := (m.activePage?.map PageInfo.name).getD "-"
  let first := "brain " ++ id ++ ": tick " ++ Decimal.digitString m.clock.tick ++ ", " ++
    Decimal.fixed 3 m.clock.seconds ++ "s elapsed, page " ++ page ++ "\n"
  let globals ← m.globalValues.entries.mapM fun (name, v) =>
    (b.heap.render? v).map fun text => "  $" ++ name ++ " = " ++ text ++ "\n"
  let faults := m.faults.map fun f => "  fault: " ++ f.render b.heap ++ "\n"
  return first ++ String.join globals ++ String.join faults

/-- Thinks a number of times, or until something goes wrong. -/
def thinkTimes (b : Brain W) (dt : Int) : Nat → Option BrainFailure × Brain W
  | 0 => (none, b)
  | n + 1 =>
    match b.think dt with
    | .error e => (some e, b)
    | .ok b => b.thinkTimes dt n

end Brain
end TileMind
