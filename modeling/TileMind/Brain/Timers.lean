import TileMind.Machine.Host

/-!
# TileMind.Brain.Timers

Handles to complete when their time has come, in the order in which that happens. Timers that are due
at the same time keep the order in which they were set.
-/

namespace TileMind

structure Timer where
  due : Int
  handle : Nat
deriving DecidableEq, Repr, Inhabited

structure TimerQueue where
  timers : List Timer := []
deriving DecidableEq, Repr, Inhabited

namespace TimerQueue

/-- Inserts a timer after all those that are not due later. -/
def insertInto (t : Timer) : List Timer → List Timer
  | [] => [t]
  | x :: rest => if t.due < x.due then t :: x :: rest else x :: insertInto t rest

def add (q : TimerQueue) (due : Int) (handle : Nat) : TimerQueue :=
  ⟨insertInto ⟨due, handle⟩ q.timers⟩

/-- The handles due at a time, and the timers that are left. -/
def due (q : TimerQueue) (now : Int) : List Nat × TimerQueue :=
  ((q.timers.takeWhile fun t => decide (t.due ≤ now)).map Timer.handle,
    ⟨q.timers.dropWhile fun t => decide (t.due ≤ now)⟩)

end TimerQueue

end TileMind
