import TileMind.Machine.Step

/-!
# TileMind.Machine.Run

Running a fiber. The end of a function is an implicit return and costs nothing; every instruction
costs one unit of the budget. A fiber runs until it ends, stops by itself or has spent its budget.
-/

namespace TileMind

variable {H : Type}

namespace Machine

/-- Does the implicit returns that are due, at most `calls` of them. -/
def settle (p : Program) : (calls : Nat) → Fiber → Except Crash Fiber
  | 0, f => .ok f
  | calls + 1, f =>
    match f.frames with
    | [] => .ok f
    | fr :: _ =>
      match p.function? fr.func with
      | none => .error (.noFunction fr.func)
      | some fn => if fr.pc < fn.code.size then .ok f else settle p calls f.ret

/-- The instruction a call stands at. -/
def instrAt (p : Program) (fr : Frame) : Except Crash Instr :=
  match p.function? fr.func with
  | none => .error (.noFunction fr.func)
  | some fn =>
    if fr.pc < 0 then .error (.noInstruction ⟨fr.func, fr.pc⟩)
    else
      match fn.code[fr.pc.toNat]? with
      | none => .error (.noInstruction ⟨fr.func, fr.pc⟩)
      | some i => .ok i

/-- Runs a fiber that has not ended for at most `budget` instructions. -/
def runFor [Host H] (m : Machine H) : (budget : Nat) → Fiber → Stage H →
    Except Crash (RunStatus × Fiber × Stage H)
  | budget, f, s =>
    match settle m.program f.frames.length f with
    | .error c => .error c
    | .ok f =>
      match f.frames with
      | [] => .ok (.done, { f with state := .done }, s)
      | fr :: _ =>
        match budget with
        | 0 => .ok (.budget, f, s)
        | budget + 1 =>
          match instrAt m.program fr with
          | .error c => .error c
          | .ok i =>
            match step m fr i f s with
            | .next f s => runFor m budget f s
            | .stop status f s => .ok (status, f, s)
            | .crash c => .error c

/-- Runs a fiber. A budget that is not positive is the one of the machine's limits. -/
def run [Host H] (m : Machine H) (budget : Int) (f : Fiber) (s : Stage H) :
    Except Crash (RunStatus × Fiber × Stage H) :=
  if f.state.isTerminal then .ok (.done, f, s)
  else
    let budget := if budget ≤ 0 then m.limits.budget else budget
    m.runFor budget.toNat { f with state := .runnable } s

end Machine

end TileMind
