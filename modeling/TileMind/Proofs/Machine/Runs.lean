import TileMind.Proofs.Machine.Handles
import TileMind.Proofs.Machine.Moves

/-!
# TileMind.Proofs.Machine.Runs

How the run of a fiber can stop, and what it did to the handle table by then.

* `step_waiting`: a fiber that is parked stands at its `await`, with the handle on top of its stack.
* `Machine.run_stops`: a run ends the fiber, pauses it, or parks it on a pending handle.
-/

namespace TileMind

variable {H : Type}

/-! ## Parked fibers -/

/-- The fiber is about to wait for a handle, or to read it. -/
structure AtAwait (m : Machine H) (f : Fiber) (fr : Frame) (i : Instr) (handle : Int)
    (below : List Value) : Prop where
  frame : ∃ rest, f.frames = fr :: rest
  instr : Machine.instrAt m.program fr = .ok i
  op : i.op? = some .await
  guard : m.checkStack (f.jump (fr.pc + 1)) fr.base i = none
  stack : f.stack = .handle handle :: below

/-- Some instruction is that `await`. -/
def Awaits (m : Machine H) (f : Fiber) (handle : Int) : Prop :=
  ∃ fr i below, AtAwait m f fr i handle below

theorem Awaits.unique {m : Machine H} {f : Fiber} {j k : Int} (hj : Awaits m f j) (hk : Awaits m f k) :
    j = k := by
  obtain ⟨_, _, below, hj⟩ := hj
  obtain ⟨_, _, below', hk⟩ := hk
  have hstack := hj.stack.symm.trans hk.stack
  simp only [List.cons.injEq, Value.handle.injEq] at hstack
  exact hstack.1

theorem Awaits.congr {m : Machine H} {f g : Fiber} {k : Int} (h : Awaits m f k)
    (hframes : g.frames = f.frames) (hstack : g.stack = f.stack) : Awaits m g k := by
  obtain ⟨fr, i, below, hat⟩ := h
  refine ⟨fr, i, below, ?_, hat.instr, hat.op, ?_, hstack.trans hat.stack⟩
  · rw [hframes]
    exact hat.frame
  · rw [← hat.guard]
    simp [Machine.checkStack, hstack]

theorem Awaits.parked {m : Machine H} {f : Fiber} {k : Int} (h : Awaits m f k) (awaiting : Nat)
    (state : FiberState) : Awaits m { f with awaiting := awaiting, state := state } k :=
  h.congr rfl rfl

theorem Awaits.here {m : Machine H} {f : Fiber} {fr : Frame} {rest : List Frame} {i : Instr} {k : Int}
    (h : Awaits m f k) (hframes : f.frames = fr :: rest) (hi : Machine.instrAt m.program fr = .ok i) :
    ∃ below, AtAwait m f fr i k below := by
  obtain ⟨fr', i', below, hat⟩ := h
  obtain ⟨rest', hframes'⟩ := hat.frame
  obtain ⟨rfl, rfl⟩ : fr' = fr ∧ rest' = rest := by simpa [hframes] using hframes'.symm
  obtain rfl : i' = i := Except.ok.inj (hat.instr.symm.trans hi)
  exact ⟨below, hat⟩

theorem AtAwait.step [Host H] {m : Machine H} {f : Fiber} {fr : Frame} {i : Instr} {handle : Int}
    {below : List Value} (h : AtAwait m f fr i handle below) (s : Stage H) :
    step m fr i f s = execAwait ⟨fr.func, fr.pc⟩ (f.jump (fr.pc + 1)) s := by
  simp only [TileMind.step, h.guard, h.op]
  rfl

theorem raise_ne_waiting {f g : Fiber} {s t : Stage H} {fault : Nat} {site : Site} :
    raise f s fault site ≠ .stop .waiting g t := by
  unfold raise
  dsimp only
  split <;> simp

theorem jump_jump {f : Fiber} {fr : Frame} {rest : List Frame} (hframes : f.frames = fr :: rest)
    (pc : Int) : (f.jump pc).jump fr.pc = f := by
  simp only [Fiber.jump, hframes]
  rw [← hframes]

/-- Only an `await` parks, and it leaves the fiber where it was. -/
theorem step_waiting [Host H] {m : Machine H} {f g : Fiber} {fr : Frame} {rest : List Frame} {i : Instr}
    {s t : Stage H} (hframes : f.frames = fr :: rest) (hi : Machine.instrAt m.program fr = .ok i)
    (h : step m fr i f s = .stop .waiting g t) :
    ∃ handle below x, AtAwait m f fr i handle below ∧ s.handles.get? handle = some x ∧
      x.isDone = false ∧ g = { f with awaiting := x.id, state := .waiting } ∧
      t = { s with handles := s.handles.update x.id fun h => h.addWaiter f.id } := by
  have hop : i.op? = some .await := by
    have hmoves := step_moves (f := f) (i := i) (s := s) (m.keeps_true f.id) fr
    rw [h] at hmoves
    generalize hout : Outcome.stop .waiting g t = out at hmoves
    cases hmoves with
    | park op _ _ => exact op
    | raise => exact absurd hout.symm raise_ne_waiting
    | _ => cases hout
  unfold step at h
  dsimp only at h
  split at h
  · exact absurd h raise_ne_waiting
  · rename_i hguard
    simp only [hop, exec, execAwait, withTop] at h
    rw [Fiber.jump_stack] at h
    split at h
    · cases h
    · rename_i v below hstack
      split at h
      · rename_i handle
        split at h
        · exact absurd h raise_ne_waiting
        · rename_i x hx
          split at h
          · split at h
            · cases h
            · exact absurd h raise_ne_waiting
            · cases h
          · rename_i hdone
            have hpending : x.isDone = false := by simpa using hdone
            rw [jump_jump hframes, (f.sameRun_jump _).id] at h
            cases h
            exact ⟨handle, below, x, ⟨⟨rest, hframes⟩, hi, hop, hguard, hstack⟩, hx, hpending, rfl, rfl⟩
      · cases h

/-! ## Whole runs -/

/-- How a run can stop. The machine itself and the host keep to `T`. -/
inductive Stops (m : Machine H) (T : HandleTable → HandleTable → Prop) (f : Fiber) (s : Stage H) :
    RunStatus → Fiber → Stage H → Prop where
  | ended {status : RunStatus} {g : Fiber} {t : Stage H} (isOver : status = .done ∨ status = .fault)
      (id : g.id = f.id) (awaiting : g.awaiting = f.awaiting) (terminal : g.state.isTerminal = true)
      (table : T s.handles t.handles) : Stops m T f s status g t
  | paused {status : RunStatus} {g : Fiber} {t : Stage H} (short : status = .yielded ∨ status = .budget)
      (id : g.id = f.id) (awaiting : g.awaiting = f.awaiting) (state : g.state = .runnable)
      (table : T s.handles t.handles) : Stops m T f s status g t
  | parked {g : Fiber} {t : Stage H} {table : HandleTable} {k : Int} {h : Handle} (id : g.id = f.id)
      (state : g.state = .waiting) (awaiting : g.awaiting = h.id) (place : Awaits m g h.id)
      (before : T s.handles table) (found : table.get? k = some h) (pending : h.isDone = false)
      (after : t.handles = table.update h.id fun h => h.addWaiter f.id) : Stops m T f s .waiting g t

theorem Stops.id_eq {m : Machine H} {T : HandleTable → HandleTable → Prop} {f g : Fiber}
    {s t : Stage H} {status : RunStatus} (h : Stops m T f s status g t) : g.id = f.id := by
  cases h <;> assumption

section

variable [Host H] {m : Machine H} {T : HandleTable → HandleTable → Prop}

/-- An instruction that stops a fiber stops it in one of these ways. -/
theorem step_stops {f g : Fiber} {fr : Frame} {rest : List Frame} {i : Instr} {s t : Stage H}
    {status : RunStatus} (hT : m.Keeps f.id T) (hstate : f.state = .runnable)
    (hframes : f.frames = fr :: rest) (hi : Machine.instrAt m.program fr = .ok i)
    (h : step m fr i f s = .stop status g t) : Stops m T f s status g t := by
  have hjump := f.sameRun_jump (fr.pc + 1)
  have hmoves := step_moves (i := i) (s := s) hT fr
  generalize hout : step m fr i f s = out at hmoves
  rw [h] at hout
  cases hmoves with
  | @raise g' s' fault same table =>
    obtain ⟨x, u, hu, ⟨hnext, -⟩ | ⟨hstop, hid, hawaiting, hfault, -⟩⟩ :=
      raise_cases g' s' fault ⟨fr.func, fr.pc⟩
    · rw [hnext] at hout
      cases hout
    · rw [hstop] at hout
      cases hout
      refine .ended (.inr rfl) (hid.trans (same.id.trans hjump.id))
        (hawaiting.trans (same.awaiting.trans hjump.awaiting)) (by rw [hfault]; rfl) ?_
      rw [hu]
      exact table
  | park =>
    cases hout
    obtain ⟨handle, below, x, hat, hx, hpending, hg, ht⟩ := step_waiting hframes hi h
    have hid := (HandleTable.mem_of_get? hx).2
    rw [hg, ht]
    refine .parked rfl rfl rfl ?_ (hT.refl _) hx hpending rfl
    refine ⟨fr, i, below, ⟨rest, hframes⟩, hi, hat.op, ?_, ?_⟩
    · rw [← hat.guard]
      simp [Machine.checkStack]
    · rw [hid]
      exact hat.stack
  | yield =>
    cases hout
    exact .paused (.inl rfl) hjump.id hjump.awaiting (hjump.state.trans hstate) (hT.refl _)
  | _ => cases hout

theorem settle_continues : ∀ (calls : Nat) {f g : Fiber} {p : Program},
    (f.frames ≠ [] → f.state = .runnable) → Machine.settle p calls f = .ok g →
    g.id = f.id ∧ g.awaiting = f.awaiting ∧ (g.frames ≠ [] → g.state = .runnable)
  | 0, f, g, p, hlive, h => by
    cases h
    exact ⟨rfl, rfl, hlive⟩
  | calls + 1, f, g, p, hlive, h => by
    unfold Machine.settle at h
    split at h
    · cases h
      exact ⟨rfl, rfl, hlive⟩
    · rename_i fr rest hframes
      split at h
      · cases h
      · split at h
        · cases h
          exact ⟨rfl, rfl, hlive⟩
        · have hret := f.continues_ret
          have hrunnable := hlive (by simp [hframes])
          obtain ⟨hid, hawaiting, hgoes⟩ := settle_continues calls
            (fun hne => (hret.state hne).trans hrunnable) h
          exact ⟨hid.trans hret.id, hawaiting.trans hret.awaiting, hgoes⟩

omit [Host H] in
theorem Stops.after {f f' g : Fiber} {s s' t : Stage H} {status : RunStatus}
    (htrans : ∀ {t u v}, T t u → T u v → T t v) (hid : f'.id = f.id) (hawaiting : f'.awaiting = f.awaiting)
    (htable : T s.handles s'.handles) (h : Stops m T f' s' status g t) : Stops m T f s status g t := by
  cases h with
  | ended isOver id awaiting terminal table =>
    exact .ended isOver (id.trans hid) (awaiting.trans hawaiting) terminal (htrans htable table)
  | paused short id awaiting state table =>
    exact .paused short (id.trans hid) (awaiting.trans hawaiting) state (htrans htable table)
  | parked id state awaiting place before found pending after =>
    rw [hid] at after
    exact .parked (id.trans hid) state awaiting place (htrans htable before) found pending after

theorem runFor_stops (budget : Nat) {f g : Fiber} {s t : Stage H} {status : RunStatus}
    (hT : m.Keeps f.id T) (hlive : f.frames ≠ [] → f.state = .runnable)
    (h : m.runFor budget f s = .ok (status, g, t)) : Stops m T f s status g t := by
  induction budget generalizing f s with
  | zero =>
    unfold Machine.runFor at h
    split at h
    · cases h
    · rename_i f' hsettle
      obtain ⟨hid, hawaiting, hgoes⟩ := settle_continues _ hlive hsettle
      split at h
      · cases h
        exact .ended (.inl rfl) hid hawaiting rfl (hT.refl _)
      · rename_i hframes
        cases h
        exact .paused (.inr rfl) hid hawaiting (hgoes (by simp [hframes])) (hT.refl _)
  | succ budget ih =>
    unfold Machine.runFor at h
    split at h
    · cases h
    · rename_i f' hsettle
      obtain ⟨hid, hawaiting, hgoes⟩ := settle_continues _ hlive hsettle
      split at h
      · cases h
        exact .ended (.inl rfl) hid hawaiting rfl (hT.refl _)
      · rename_i fr rest hframes
        have hrunnable := hgoes (by simp [hframes])
        have hT' : m.Keeps f'.id T := by
          rw [hid]
          exact hT
        dsimp only at h
        split at h
        · cases h
        · rename_i i hi
          split at h
          · rename_i f'' s'' hstep
            have hmoves := step_moves (i := i) (s := s) hT' fr
            rw [hstep] at hmoves
            have hjump := f'.sameRun_jump (fr.pc + 1)
            have hcont := hmoves.continues
            have hid' : f''.id = f.id := hcont.id.trans (hjump.id.trans hid)
            have hstops := ih (hid' ▸ hT)
              (fun hne => (hcont.state hne).trans (hjump.state.trans hrunnable)) h
            exact hstops.after hT.trans hid' (hcont.awaiting.trans (hjump.awaiting.trans hawaiting))
              (hmoves.table_of_next hT.refl)
          · rename_i hstep
            cases h
            exact (step_stops hT' hrunnable hframes hi hstep).after hT.trans hid hawaiting (hT.refl _)
          · cases h

/-- The run of a runnable fiber ends it, pauses it or parks it. -/
theorem run_stops {budget : Int} {f g : Fiber} {s t : Stage H} {status : RunStatus}
    (hT : m.Keeps f.id T) (hstate : f.state = .runnable)
    (h : m.run budget f s = .ok (status, g, t)) : Stops m T f s status g t := by
  unfold Machine.run at h
  split at h
  · rename_i hterminal
    rw [hstate] at hterminal
    cases hterminal
  · have hsame : { f with state := .runnable } = f := by rw [← hstate]
    dsimp only at h
    rw [hsame] at h
    exact runFor_stops _ hT (fun _ => hstate) h

end

end TileMind
