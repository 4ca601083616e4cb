import TileMind.Proofs.Machine.Moves
import TileMind.Proofs.Row.Eval

/-!
# TileMind.Proofs.Machine.Trace

Stretches of a run. `Leads` follows a fiber over some instructions and collects what they bring about;
stretches are put together by `Leads.trans`, and `Leads.runFor` reads them as parts of a run.
-/

namespace TileMind

variable {H : Type}

/-- What a run with the budget left over makes of an outcome. -/
def Machine.proceed [Host H] (m : Machine H) (budget : Nat) :
    Outcome H → Except Crash (RunStatus × Fiber × Stage H)
  | .next f s => m.runFor budget f s
  | .stop status f s => .ok (status, f, s)
  | .crash c => .error c

/-- `n` instructions lead a fiber to an outcome, and bring about `es` on the way. -/
inductive Leads [Host H] (m : Machine H) : Fiber → Stage H → Nat → List Effect → Outcome H → Prop where
  | done (f : Fiber) (s : Stage H) : Leads m f s 0 [] (.next f s)
  | last {f : Fiber} {s : Stage H} {fr : Frame} {rest : List Frame} {i : Instr}
      (frames : f.frames = fr :: rest) (instr : Machine.instrAt m.program fr = .ok i) :
      Leads m f s 1 (m.observed fr i f s) (step m fr i f s)
  | more {f g : Fiber} {s t : Stage H} {fr : Frame} {rest : List Frame} {i : Instr} {n : Nat}
      {es : List Effect} {o : Outcome H} (frames : f.frames = fr :: rest)
      (instr : Machine.instrAt m.program fr = .ok i) (next : step m fr i f s = .next g t)
      (tail : Leads m g t n es o) : Leads m f s (n + 1) (m.observed fr i f s ++ es) o

section

variable [Host H] {m : Machine H} {f g : Fiber} {s t : Stage H} {n k : Nat} {es es' : List Effect}
  {o : Outcome H}

theorem Leads.trans (h : Leads m f s n es (.next g t)) (h' : Leads m g t k es' o) :
    Leads m f s (n + k) (es ++ es') o := by
  generalize hmid : Outcome.next g t = mid at h
  induction h with
  | done f s =>
    cases hmid
    simpa using h'
  | last frames instr =>
    rw [Nat.add_comm]
    exact .more frames instr hmid.symm h'
  | @more f g' s t' fr rest i n es o frames instr next tail ih =>
    rw [Nat.add_right_comm, List.append_assoc]
    exact .more frames instr next (ih hmid)

theorem settle_of_instrAt {p : Program} {fr : Frame} {rest : List Frame} {i : Instr}
    (hframes : f.frames = fr :: rest) (hi : Machine.instrAt p fr = .ok i) :
    Machine.settle p f.frames.length f = .ok f := by
  unfold Machine.instrAt at hi
  rw [hframes, List.length_cons, Machine.settle, hframes]
  dsimp only
  split at hi
  · cases hi
  · rename_i fn hfn
    split at hi
    · cases hi
    · split at hi
      · cases hi
      · rename_i hpos j hj
        have hlt := (Array.getElem?_eq_some_iff.mp hj).1
        have hin : fr.pc < fn.code.size := by omega
        rw [if_pos hin]

/-- A stretch is a part of every run whose budget reaches over it. -/
theorem Leads.runFor (h : Leads m f s n es o) :
    m.observe n f s = es ∧ ∀ budget, m.runFor (n + budget) f s = m.proceed budget o := by
  induction h with
  | done f s => exact ⟨rfl, fun budget => by rw [Nat.zero_add]; rfl⟩
  | @last f s fr rest i frames instr =>
    have hsettle := settle_of_instrAt frames instr
    refine ⟨?_, fun budget => ?_⟩
    · rw [Machine.observe, hsettle]
      simp only [frames, instr]
      cases step m fr i f s <;> simp [Machine.observe]
    · rw [Nat.add_comm, Machine.runFor, hsettle]
      simp only [frames, instr]
      cases step m fr i f s <;> rfl
  | @more f g s t fr rest i n es o frames instr next tail ih =>
    have hsettle := settle_of_instrAt frames instr
    refine ⟨?_, fun budget => ?_⟩
    · rw [Machine.observe, hsettle]
      simp only [frames, instr, next]
      rw [ih.1]
    · rw [Nat.add_right_comm, Machine.runFor, hsettle]
      simp only [frames, instr, next]
      exact ih.2 budget

end

end TileMind
