import TileMind.Proofs.Machine.Moves

/-!
# TileMind.Proofs.Machine.History

What a fiber has executed. Nothing is said about the stage an instruction finds, so whatever other
fibers and the host do in between is allowed for.

* `History`: the instructions that take a fiber from one state to another.
* `history_of_run`: running a fiber adds to its history.
-/

namespace TileMind

variable {H : Type}

/-- An executed instruction: the number of active calls, the place, and how the fiber stopped there if
it did. -/
structure Event where
  depth : Nat
  site : Site
  instr : Instr
  stopped : Option RunStatus := none
deriving DecidableEq, Repr

/-- A fiber gets from `f` to another state by executing instructions. In between it returns at the end
of a function's code, is resumed, or is ended from outside. -/
inductive History [Host H] (m : Machine H) (f : Fiber) : List Event → Fiber → Prop where
  | refl : History m f [] f
  | next {es : List Event} {g g' : Fiber} {fr : Frame} {rest : List Frame} {i : Instr} {s s' : Stage H}
      (before : History m f es g) (live : g.state.isTerminal = false) (frames : g.frames = fr :: rest)
      (instr : Machine.instrAt m.program fr = .ok i) (done : step m fr i g s = .next g' s') :
      History m f (es ++ [⟨rest.length + 1, ⟨fr.func, fr.pc⟩, i, none⟩]) g'
  | stop {es : List Event} {g g' : Fiber} {fr : Frame} {rest : List Frame} {i : Instr} {s s' : Stage H}
      {status : RunStatus} (before : History m f es g) (live : g.state.isTerminal = false)
      (frames : g.frames = fr :: rest) (instr : Machine.instrAt m.program fr = .ok i)
      (done : step m fr i g s = .stop status g' s') :
      History m f (es ++ [⟨rest.length + 1, ⟨fr.func, fr.pc⟩, i, some status⟩]) g'
  | fallOff {es : List Event} {g : Fiber} {fr : Frame} {rest : List Frame} {fn : Function}
      (before : History m f es g) (live : g.state.isTerminal = false) (frames : g.frames = fr :: rest)
      (found : m.program.function? fr.func = some fn) (past : fn.code.size ≤ fr.pc) :
      History m f es g.ret
  | finish {es : List Event} {g : Fiber} (before : History m f es g) (frames : g.frames = []) :
      History m f es { g with state := .done }
  | resume {es : List Event} {g : Fiber} (before : History m f es g)
      (live : g.state.isTerminal = false) (awaiting : Nat) :
      History m f es { g with state := .runnable, awaiting := awaiting }
  | cancel {es : List Event} {g : Fiber} (before : History m f es g) (fault : Nat) :
      History m f es { g with state := .cancelled, fault := some fault }

section

variable [Host H] {m : Machine H} {f g g' : Fiber} {es es' : List Event}

theorem History.trans (h : History m f es g) (h' : History m g es' g') : History m f (es ++ es') g' := by
  induction h' with
  | refl =>
    rw [List.append_nil]
    exact h
  | next _ live frames instr done ih =>
    rw [← List.append_assoc]
    exact .next ih live frames instr done
  | stop _ live frames instr done ih =>
    rw [← List.append_assoc]
    exact .stop ih live frames instr done
  | fallOff _ live frames found past ih => exact .fallOff ih live frames found past
  | finish _ frames ih => exact .finish ih frames
  | resume _ live awaiting ih => exact .resume ih live awaiting
  | cancel _ fault ih => exact .cancel ih fault

omit [Host H] in
theorem Moves.same_of_stop {T : HandleTable → HandleTable → Prop} {i : Instr} {site : Site}
    {s t : Stage H} {status : RunStatus} (h : Moves T i site f s (.stop status g t)) :
    g.id = f.id ∧ g.entry = f.entry := by
  generalize ho : Outcome.stop status g t = o at h
  cases h with
  | @raise g' s' fault same =>
    obtain ⟨x, u, -, ⟨hnext, -⟩ | ⟨hstop, hid, -, -, hentry⟩⟩ :=
      raise_cases g' s' fault site
    · rw [hnext] at ho
      cases ho
    · rw [hstop] at ho
      cases ho
      exact ⟨hid.trans same.id, hentry.trans same.entry⟩
  | park =>
    cases ho
    exact ⟨(f.sameRun_jump _).id, (f.sameRun_jump _).entry⟩
  | yield =>
    cases ho
    exact ⟨rfl, rfl⟩
  | _ => cases ho

theorem History.same (h : History m f es g) : g.id = f.id ∧ g.entry = f.entry := by
  induction h with
  | refl => exact ⟨rfl, rfl⟩
  | @next es g g' fr rest i s s' _ _ _ _ done ih =>
    have hmoves := step_moves (f := g) (i := i) (s := s) (m.keeps_true g.id) fr
    rw [done] at hmoves
    have hjump := g.sameRun_jump (fr.pc + 1)
    exact ⟨(hmoves.continues.id.trans hjump.id).trans ih.1,
      (hmoves.continues.entry.trans hjump.entry).trans ih.2⟩
  | @stop es g g' fr rest i s s' status _ _ _ _ done ih =>
    have hmoves := step_moves (f := g) (i := i) (s := s) (m.keeps_true g.id) fr
    rw [done] at hmoves
    have hjump := g.sameRun_jump (fr.pc + 1)
    exact ⟨(hmoves.same_of_stop.1.trans hjump.id).trans ih.1,
      (hmoves.same_of_stop.2.trans hjump.entry).trans ih.2⟩
  | fallOff _ _ _ _ _ ih =>
    exact ⟨(Fiber.continues_ret _).id.trans ih.1, (Fiber.continues_ret _).entry.trans ih.2⟩
  | finish _ _ ih => exact ih
  | resume _ _ _ ih => exact ih
  | cancel _ _ ih => exact ih

theorem History.id_eq (h : History m f es g) : g.id = f.id := h.same.1

/-! ## Runs -/

theorem history_of_settle : ∀ (calls : Nat) {f g : Fiber},
    (f.frames ≠ [] → f.state.isTerminal = false) → Machine.settle m.program calls f = .ok g →
    History m f [] g ∧ (g.frames ≠ [] → g.state.isTerminal = false)
  | 0, f, g, hlive, h => by
    cases h
    exact ⟨.refl, hlive⟩
  | calls + 1, f, g, hlive, h => by
    unfold Machine.settle at h
    split at h
    · cases h
      exact ⟨.refl, hlive⟩
    · rename_i fr rest hframes
      have hstate := hlive (by simp [hframes])
      split at h
      · cases h
      · rename_i fn hfn
        split at h
        · cases h
          exact ⟨.refl, hlive⟩
        · rename_i hpast
          have hret : History m f [] f.ret := .fallOff .refl hstate hframes hfn (by omega)
          have hlive' : f.ret.frames ≠ [] → f.ret.state.isTerminal = false := by
            intro hne
            rw [f.continues_ret.state hne]
            exact hstate
          obtain ⟨hrest, hgoes⟩ := history_of_settle calls hlive' h
          exact ⟨hret.trans hrest, hgoes⟩

/-- A fiber that goes on is as alive as it was. -/
theorem live_of_step {fr : Frame} {i : Instr} {s s' : Stage H} (hlive : f.state.isTerminal = false)
    (hstep : step m fr i f s = .next g s') (hne : g.frames ≠ []) : g.state.isTerminal = false := by
  have hmoves := step_moves (f := f) (i := i) (s := s) (m.keeps_true f.id) fr
  rw [hstep] at hmoves
  rw [hmoves.continues.state hne, (f.sameRun_jump _).state]
  exact hlive

theorem history_of_runFor (budget : Nat) {f g : Fiber} {s s' : Stage H} {status : RunStatus}
    (hlive : f.frames ≠ [] → f.state.isTerminal = false)
    (h : m.runFor budget f s = .ok (status, g, s')) : ∃ es, History m f es g := by
  induction budget generalizing f s with
  | zero =>
    unfold Machine.runFor at h
    split at h
    · cases h
    · rename_i f' hsettle
      obtain ⟨hf', -⟩ := history_of_settle _ hlive hsettle
      split at h
      · rename_i hframes
        cases h
        exact ⟨[], hf'.finish hframes⟩
      · cases h
        exact ⟨[], hf'⟩
  | succ budget ih =>
    unfold Machine.runFor at h
    split at h
    · cases h
    · rename_i f' hsettle
      obtain ⟨hf', hlive'⟩ := history_of_settle _ hlive hsettle
      split at h
      · rename_i hframes
        cases h
        exact ⟨[], hf'.finish hframes⟩
      · rename_i fr rest hframes
        have hstate := hlive' (by simp [hframes])
        dsimp only at h
        split at h
        · cases h
        · rename_i i hi
          split at h
          · rename_i f'' s'' hstep
            obtain ⟨es, hrest⟩ := ih (live_of_step hstate hstep) h
            exact ⟨_, (hf'.next hstate hframes hi hstep).trans hrest⟩
          · rename_i hstep
            cases h
            exact ⟨_, hf'.stop hstate hframes hi hstep⟩
          · cases h

/-- Running a fiber for any budget on any stage adds to its history. -/
theorem history_of_run {budget : Int} {s s' : Stage H} {status : RunStatus}
    (h : m.run budget f s = .ok (status, g, s')) : ∃ es, History m f es g := by
  unfold Machine.run at h
  split at h
  · cases h
    exact ⟨[], .refl⟩
  · rename_i hlive
    have hrunnable : History m f [] { f with state := .runnable, awaiting := f.awaiting } :=
      .resume .refl (by simpa using hlive) f.awaiting
    obtain ⟨es, hrest⟩ := history_of_runFor _ (fun _ => rfl) h
    exact ⟨_, hrunnable.trans hrest⟩

end

end TileMind
