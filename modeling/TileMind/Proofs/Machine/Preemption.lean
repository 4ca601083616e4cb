import TileMind.Proofs.Machine.Safety
import TileMind.Proofs.Machine.Trace

/-!
# TileMind.Proofs.Machine.Preemption

A run as the turns of its loop, one rule for each. The budget is spent by instructions and asked for
before the next one, after the returns that are due; so a run that has spent it stands where a longer run
would go on.

* `Machine.Exec`: the run of a fiber, with the instructions it has executed and what they brought about.
* `Machine.Exec.result`, `exec_runFor`: it is what `Machine.runFor` computes.
* `Machine.Exec.trans`: a run that was preempted and the next one are one run.
* `run_preempted`: the same of whole runs.
-/

namespace TileMind

variable {H : Type}

/-- The loop of a run: with a budget, `n` instructions of a fiber are executed, which bring about `es`,
and then it ends with a result. -/
inductive Machine.Exec [Host H] (m : Machine H) : (budget : Nat) → Fiber → Stage H → (n : Nat) →
    (es : List Effect) → Except Crash (RunStatus × Fiber × Stage H) → Prop where
  | done {b : Nat} {f : Fiber} {s : Stage H} (frames : f.frames = []) :
      Exec m b f s 0 [] (.ok (.done, { f with state := .done }, s))
  | fallOff {b n : Nat} {f : Fiber} {s : Stage H} {fr : Frame} {rest : List Frame} {fn : Function}
      {es : List Effect} {r : Except Crash (RunStatus × Fiber × Stage H)} (frames : f.frames = fr :: rest)
      (found : m.program.function? fr.func = some fn) (past : fn.code.size ≤ fr.pc)
      (later : Exec m b f.ret s n es r) : Exec m b f s n es r
  | lost {b : Nat} {f : Fiber} {s : Stage H} {fr : Frame} {rest : List Frame}
      (frames : f.frames = fr :: rest) (missing : m.program.function? fr.func = none) :
      Exec m b f s 0 [] (.error (.noFunction fr.func))
  | spent {f : Fiber} {s : Stage H} {fr : Frame} {rest : List Frame} {fn : Function}
      (frames : f.frames = fr :: rest) (found : m.program.function? fr.func = some fn)
      (inside : fr.pc < fn.code.size) : Exec m 0 f s 0 [] (.ok (.budget, f, s))
  | stray {b : Nat} {f : Fiber} {s : Stage H} {fr : Frame} {rest : List Frame} {fn : Function} {c : Crash}
      (frames : f.frames = fr :: rest) (found : m.program.function? fr.func = some fn)
      (inside : fr.pc < fn.code.size) (instr : Machine.instrAt m.program fr = .error c) :
      Exec m (b + 1) f s 0 [] (.error c)
  | next {b n : Nat} {f g : Fiber} {s t : Stage H} {fr : Frame} {rest : List Frame} {i : Instr}
      {es : List Effect} {r : Except Crash (RunStatus × Fiber × Stage H)} (frames : f.frames = fr :: rest)
      (instr : Machine.instrAt m.program fr = .ok i) (went : step m fr i f s = .next g t)
      (later : Exec m b g t n es r) : Exec m (b + 1) f s (n + 1) (m.observed fr i f s ++ es) r
  | stop {b : Nat} {f g : Fiber} {s t : Stage H} {fr : Frame} {rest : List Frame} {i : Instr}
      {status : RunStatus} (frames : f.frames = fr :: rest)
      (instr : Machine.instrAt m.program fr = .ok i) (stopped : step m fr i f s = .stop status g t) :
      Exec m (b + 1) f s 1 (m.observed fr i f s) (.ok (status, g, t))
  | crash {b : Nat} {f : Fiber} {s : Stage H} {fr : Frame} {rest : List Frame} {i : Instr} {c : Crash}
      (frames : f.frames = fr :: rest) (instr : Machine.instrAt m.program fr = .ok i)
      (crashed : step m fr i f s = .crash c) :
      Exec m (b + 1) f s 1 (m.observed fr i f s) (.error c)

section

variable [Host H] {m : Machine H} {f g : Fiber} {s t : Stage H} {b b' n n' : Nat} {es es' : List Effect}
  {r : Except Crash (RunStatus × Fiber × Stage H)} {fr : Frame} {rest : List Frame} {i : Instr}

/-! ## The loop and its result -/

omit [Host H] in
theorem settle_inside {fn : Function} (hframes : f.frames = fr :: rest)
    (hfound : m.program.function? fr.func = some fn) (hinside : fr.pc < fn.code.size) :
    Machine.settle m.program f.frames.length f = .ok f := by
  rw [hframes, List.length_cons, Machine.settle, hframes]
  simp [hfound, hinside]

omit [Host H] in
/-- A return that is due is done, and then those that are due after it. -/
theorem settle_fallOff {fn : Function} (hframes : f.frames = fr :: rest)
    (hfound : m.program.function? fr.func = some fn) (hpast : fn.code.size ≤ fr.pc) :
    Machine.settle m.program f.frames.length f =
      Machine.settle m.program f.ret.frames.length f.ret := by
  have hnot : ¬ fr.pc < fn.code.size := by omega
  rw [(Fiber.ret_eq hframes).1, hframes, List.length_cons, Machine.settle, hframes]
  simp [hfound, hnot]

/-- The loop ends with what the run of the machine gives, and within the budget. -/
theorem Machine.Exec.result (h : m.Exec b f s n es r) :
    m.runFor b f s = r ∧ m.observe b f s = es ∧ n ≤ b := by
  induction h with
  | @done b f s frames =>
    have hsettle : Machine.settle m.program f.frames.length f = .ok f := by rw [frames]; rfl
    refine ⟨?_, ?_, Nat.zero_le b⟩
    · rw [Machine.runFor, hsettle]
      simp only [frames]
    · cases b with
      | zero => rfl
      | succ b =>
        rw [Machine.observe, hsettle]
        simp only [frames]
  | @fallOff b n f s fr rest fn es r frames found past later ih =>
    obtain ⟨hrun, hobserve, hle⟩ := ih
    have hsettle := settle_fallOff frames found past
    refine ⟨?_, ?_, hle⟩
    · rw [← hrun, Machine.runFor, Machine.runFor, hsettle]
    · rw [← hobserve]
      cases b with
      | zero => rfl
      | succ b => rw [Machine.observe, Machine.observe, hsettle]
  | @lost b f s fr rest frames missing =>
    have hsettle : Machine.settle m.program f.frames.length f = .error (.noFunction fr.func) := by
      rw [frames, List.length_cons, Machine.settle, frames]
      simp [missing]
    refine ⟨?_, ?_, Nat.zero_le b⟩
    · rw [Machine.runFor, hsettle]
    · cases b with
      | zero => rfl
      | succ b => rw [Machine.observe, hsettle]
  | spent frames found inside =>
    refine ⟨?_, rfl, le_rfl⟩
    rw [Machine.runFor, settle_inside frames found inside]
    simp only [frames]
  | stray frames found inside instr =>
    refine ⟨?_, ?_, Nat.zero_le _⟩
    · rw [Machine.runFor, settle_inside frames found inside]
      simp only [frames, instr]
    · rw [Machine.observe, settle_inside frames found inside]
      simp only [frames, instr]
  | next frames instr went later ih =>
    obtain ⟨hrun, hobserve, hle⟩ := ih
    refine ⟨?_, ?_, Nat.succ_le_succ hle⟩
    · rw [Machine.runFor, settle_of_instrAt frames instr]
      simp only [frames, instr, went, hrun]
    · rw [Machine.observe, settle_of_instrAt frames instr]
      simp only [frames, instr, went, hobserve]
  | stop frames instr stopped | crash frames instr stopped =>
    refine ⟨?_, ?_, Nat.succ_le_succ (Nat.zero_le _)⟩
    · rw [Machine.runFor, settle_of_instrAt frames instr]
      simp only [frames, instr, stopped]
    · rw [Machine.observe, settle_of_instrAt frames instr]
      simp only [frames, instr, stopped, List.append_nil]

/-- The returns that are due come to an end. -/
theorem exists_exec_of_inside
    (hinside : ∀ (g : Fiber) (fr : Frame) (rest : List Frame) (fn : Function), g.frames = fr :: rest →
      m.program.function? fr.func = some fn → fr.pc < fn.code.size → ∃ n es r, m.Exec b g s n es r)
    (f : Fiber) :
    ∃ n es r, m.Exec b f s n es r := by
  generalize hk : f.frames.length = k
  induction k generalizing f with
  | zero => exact ⟨0, [], _, .done (List.length_eq_zero_iff.mp hk)⟩
  | succ k ih =>
    obtain ⟨fr, rest, hframes⟩ := List.exists_cons_of_length_eq_add_one hk
    cases hfound : m.program.function? fr.func with
    | none => exact ⟨0, [], _, .lost hframes hfound⟩
    | some fn =>
      by_cases hpc : fr.pc < fn.code.size
      · exact hinside f fr rest fn hframes hfound hpc
      · have hless : f.ret.frames.length = k := by
          rw [hframes, List.length_cons] at hk
          rw [(Fiber.ret_eq hframes).1]
          omega
        obtain ⟨n, es, r, hlater⟩ := ih f.ret hless
        exact ⟨n, es, r, .fallOff hframes hfound (by omega) hlater⟩

theorem exists_exec (m : Machine H) (b : Nat) (f : Fiber) (s : Stage H) :
    ∃ n es r, m.Exec b f s n es r := by
  induction b generalizing f s with
  | zero =>
    refine exists_exec_of_inside (fun g fr rest fn hframes hfound hinside => ?_) f
    exact ⟨0, [], _, .spent hframes hfound hinside⟩
  | succ b ih =>
    refine exists_exec_of_inside (fun g fr rest fn hframes hfound hinside => ?_) f
    cases hi : Machine.instrAt m.program fr with
    | error c => exact ⟨0, [], _, .stray hframes hfound hinside hi⟩
    | ok i =>
      cases hstep : step m fr i g s with
      | next g' t =>
        obtain ⟨n, es, r, hlater⟩ := ih g' t
        exact ⟨n + 1, _, r, .next hframes hi hstep hlater⟩
      | stop status g' t => exact ⟨1, _, _, .stop hframes hi hstep⟩
      | crash c => exact ⟨1, _, _, .crash hframes hi hstep⟩

theorem exec_runFor (m : Machine H) (b : Nat) (f : Fiber) (s : Stage H) :
    ∃ n, m.Exec b f s n (m.observe b f s) (m.runFor b f s) := by
  obtain ⟨n, es, r, h⟩ := exists_exec m b f s
  obtain ⟨hrun, hobserve, -⟩ := h.result
  exact ⟨n, by rw [hrun, hobserve]; exact h⟩

/-! ## Preemption -/

theorem step_ne_budget : step m fr i f s ≠ .stop .budget g t := by
  have hmoves := step_moves (f := f) (i := i) (s := s) (m.keeps_true f.id) fr
  intro hstep
  rw [hstep] at hmoves
  generalize ho : Outcome.stop .budget g t = out at hmoves
  cases hmoves with
  | @raise x t' fault =>
    unfold raise at ho
    dsimp only at ho
    split at ho <;> cases ho
  | _ => cases ho

/-- A run that was preempted and the next one are one run. -/
theorem Machine.Exec.trans (h : m.Exec b f s n es (.ok (.budget, g, t)))
    (h' : m.Exec b' g t n' es' r) : m.Exec (b + b') f s (n + n') (es ++ es') r := by
  generalize ho : Except.ok (RunStatus.budget, g, t) = out at h
  induction h with
  | done | lost | stray | crash => cases ho
  | fallOff frames found past _ ih => exact .fallOff frames found past (ih ho)
  | spent =>
    cases ho
    simpa using h'
  | @next b n _ _ _ _ _ _ _ _ _ frames instr went _ ih =>
    rw [Nat.add_right_comm b, Nat.add_right_comm n, List.append_assoc]
    exact .next frames instr went (ih ho)
  | stop frames instr stopped =>
    cases ho
    exact absurd stopped step_ne_budget

/-- A run is preempted when it has executed as many instructions as it may. -/
theorem Machine.Exec.eq_of_budget (h : m.Exec b f s n es (.ok (.budget, g, t))) : n = b := by
  generalize ho : Except.ok (RunStatus.budget, g, t) = out at h
  induction h with
  | done | lost | stray | crash => cases ho
  | fallOff _ _ _ _ ih => exact ih ho
  | spent => rfl
  | next _ _ _ _ ih => rw [ih ho]
  | stop _ _ stopped =>
    cases ho
    exact absurd stopped step_ne_budget

theorem Machine.Exec.runnable (h : m.Exec b f s n es (.ok (.budget, g, t))) (hf : f.state = .runnable) :
    g.state = .runnable := by
  have hstops := runFor_stops b (m.keeps_true f.id) (fun _ => hf) h.result.1
  cases hstops with
  | ended isOver => simp at isOver
  | paused _ _ _ state _ => exact state

end

/-! ## Crashes -/

section

variable {m : Machine H} {f : Fiber} {s : Stage H}

theorem withTop_ne_endless {k : Value → Fiber → Outcome H} (hk : ∀ v g, k v g ≠ .crash .endless) :
    withTop f k ≠ .crash .endless := by
  unfold withTop
  split
  · simp
  · exact hk _ _

theorem withOperands_ne_endless {count : Int} {k : Value → Fiber → Stage H → Outcome H}
    (hk : ∀ v g t, k v g t ≠ .crash .endless) : withOperands count f s k ≠ .crash .endless := by
  unfold withOperands
  split
  · simp
  · exact hk _ _ _

theorem Machine.Breaks.ne_endless {c : Crash} (h : m.Breaks s c) : c ≠ .endless := by
  cases h <;> simp

theorem withResult_ne_endless {α : Type} {r : Except Crash α} {k : α → Outcome H}
    (hr : ∀ c, r = .error c → m.Breaks s c) (hk : ∀ a, k a ≠ .crash .endless) :
    withResult r k ≠ .crash .endless := by
  cases r with
  | ok a => exact hk a
  | error c => simpa [withResult] using (hr c rfl).ne_endless

theorem execHostCall_ne_endless (i : Instr) (site : Site) (args : Value) :
    execHostCall m i site args f s ≠ .crash .endless := by
  refine withResult_ne_endless (s := s) (fun c => Machine.breaks_of_callSync) fun r => ?_
  obtain ⟨ref | v, t⟩ := r
  · exact raise_ne_crash
  · simp

theorem execHostCallAsync_ne_endless (i : Instr) (site : Site) (args : Value) :
    execHostCallAsync m i site args f s ≠ .crash .endless := by
  refine withResult_ne_endless (s := s) (fun c => Machine.breaks_of_callAsync) fun r => ?_
  obtain ⟨ref | id, g, t⟩ := r
  · exact raise_ne_crash
  · simp

theorem execAwait_ne_endless (site : Site) : execAwait site f s ≠ .crash .endless := by
  refine withTop_ne_endless fun v g => ?_
  split
  · split
    · exact raiseNew_ne_crash
    · split
      · dsimp only
        split
        · simp
        · exact raise_ne_crash
        · simp
      · simp
  · simp

theorem execMapSet_ne_endless (m : Machine H) (fr : Frame) (site : Site) (key v : Value) :
    execMapSet fr site key v f s ≠ .crash .endless := by
  unfold execMapSet
  split
  · exact raiseNew_ne_crash
  · dsimp only
    split
    · simp
    · exact withResult_ne_endless (m := m) (fun c => Machine.breaks_of_badEntry) fun _ => raiseNew_ne_crash

theorem exec_ne_endless [Host H] (op : Op) (i : Instr) (fr : Frame) (site : Site) :
    exec m op i fr site f s ≠ .crash .endless := by
  unfold exec
  cases op with
  | nop | whenStart | doStart | loadVar | jump | ret | yield | «try» | endTry => simp
  | pushConst =>
    dsimp only
    split
    · simp
    · split
      · simp
      · split <;> simp
  | mapNew =>
    dsimp only
    split <;> simp
  | pop | doEnd | dup | storeVar | jumpIfFalse | whenEnd | jumpIfTrue =>
    exact withTop_ne_endless fun v g => by simp
  | call =>
    dsimp only
    split
    · exact raiseNew_ne_crash
    · simp
  | hostCall => exact withOperands_ne_endless fun v g t => execHostCall_ne_endless i site v
  | hostCallAsync => exact withOperands_ne_endless fun v g t => execHostCallAsync_ne_endless i site v
  | hostCallArgs => exact withTop_ne_endless fun v g => execHostCall_ne_endless i site v
  | hostCallArgsAsync => exact withTop_ne_endless fun v g => execHostCallAsync_ne_endless i site v
  | await => exact execAwait_ne_endless site
  | throw =>
    refine withTop_ne_endless fun v g => ?_
    exact withResult_ne_endless (m := m) (fun c => Machine.breaks_of_thrown) fun r => raise_ne_crash
  | mapSet =>
    exact withTop_ne_endless fun v g => withTop_ne_endless fun key g => execMapSet_ne_endless m fr site key v
  | getField =>
    refine withTop_ne_endless fun name g => withTop_ne_endless fun obj g => ?_
    split
    · exact withResult_ne_endless (m := m) (fun c => Machine.breaks_of_badFieldName) fun _ => raiseNew_ne_crash
    · refine withResult_ne_endless (fun c => Machine.breaks_of_getField) fun r => ?_
      obtain ⟨fault | answer, t⟩ := r
      · exact raiseNew_ne_crash
      · simp
  | setField =>
    refine withTop_ne_endless fun v g => withTop_ne_endless fun name g => withTop_ne_endless fun obj g => ?_
    split
    · exact withResult_ne_endless (m := m) (fun c => Machine.breaks_of_badFieldName) fun _ => raiseNew_ne_crash
    · refine withResult_ne_endless (fun c => Machine.breaks_of_setField) fun r => ?_
      obtain ⟨fault | answer, t⟩ := r
      · exact raiseNew_ne_crash
      · simp

theorem step_ne_endless [Host H] (fr : Frame) (i : Instr) : step m fr i f s ≠ .crash .endless := by
  unfold step
  dsimp only
  split
  · exact raiseNew_ne_crash
  · split
    · exact exec_ne_endless _ i fr _
    · exact raiseNew_ne_crash

theorem instrAt_ne_endless (p : Program) (fr : Frame) : Machine.instrAt p fr ≠ .error .endless := by
  unfold Machine.instrAt
  split
  · simp
  · split
    · simp
    · split <;> simp

theorem Machine.Exec.ne_endless [Host H] {b n : Nat} {es : List Effect}
    {r : Except Crash (RunStatus × Fiber × Stage H)} (h : m.Exec b f s n es r) : r ≠ .error .endless := by
  induction h with
  | fallOff _ _ _ _ ih | next _ _ _ _ ih => exact ih
  | stray _ _ _ instr =>
    rintro ⟨⟩
    exact instrAt_ne_endless _ _ instr
  | crash _ _ crashed =>
    rintro ⟨⟩
    exact step_ne_endless _ _ crashed
  | _ => simp

end

/-! ## Whole runs -/

def Machine.allowance (m : Machine H) (budget : Int) : Nat :=
  (if budget ≤ 0 then m.limits.budget else budget).toNat

/-- What a run brings about. -/
def Machine.effects [Host H] (m : Machine H) (budget : Int) (f : Fiber) (s : Stage H) : List Effect :=
  if f.state.isTerminal then [] else m.observe (m.allowance budget) { f with state := .runnable } s

section

variable [Host H] {m : Machine H} {f g : Fiber} {s t : Stage H}

theorem run_eq_runFor (hlive : f.state.isTerminal = false) (budget : Int) (s : Stage H) :
    m.run budget f s = m.runFor (m.allowance budget) { f with state := .runnable } s := by
  simp [Machine.run, Machine.allowance, hlive]

theorem effects_eq_observe (hlive : f.state.isTerminal = false) (budget : Int) (s : Stage H) :
    m.effects budget f s = m.observe (m.allowance budget) { f with state := .runnable } s := by
  simp [Machine.effects, hlive]

omit [Host H] in
theorem allowance_of_pos {budget : Int} (hpos : 0 < budget) : m.allowance budget = budget.toNat := by
  have hnot : ¬ budget ≤ 0 := by omega
  simp [Machine.allowance, hnot]

/-- A run comes to an end, whatever it ends with. -/
theorem run_ne_endless (m : Machine H) (budget : Int) (f : Fiber) (s : Stage H) :
    m.run budget f s ≠ .error .endless := by
  by_cases hended : f.state.isTerminal = true
  · simp [Machine.run, hended]
  · simp only [Bool.not_eq_true] at hended
    rw [run_eq_runFor hended]
    obtain ⟨n, hexec⟩ := exec_runFor m (m.allowance budget) { f with state := .runnable } s
    exact hexec.ne_endless

/-- The run of a fiber that has not ended comes to an end after at most as many instructions as its budget
says, or as the limits say for a budget that is not positive. Where it is cut into slices makes no
difference: if the budget is spent, the run with the next budget has the same outcome, of the fiber and of
all it runs in, and together the same effects as one run with both. -/
theorem run_preempted (p : Program) (svc : Services (Stage H)) (limits : Limits) (heap : Heap)
    (hm : m = (Machine.load p svc limits heap).1) (f : Fiber) (s : Stage H) :
    (∀ budget, 0 < m.allowance budget ∧ (0 < budget → (m.allowance budget : Int) = budget) ∧
      if f.state.isTerminal then m.run budget f s = .ok (.done, f, s) ∧ m.effects budget f s = []
      else ∃ n ≤ m.allowance budget,
        m.Exec (m.allowance budget) { f with state := .runnable } s n (m.effects budget f s)
          (m.run budget f s) ∧
        ∀ g t, m.run budget f s = .ok (.budget, g, t) → n = m.allowance budget) ∧
    ∀ b₁ b₂ g t, 0 < b₁ → 0 < b₂ → m.run b₁ f s = .ok (.budget, g, t) →
      m.run b₂ g t = m.run (b₁ + b₂) f s ∧
      m.effects b₁ f s ++ m.effects b₂ g t = m.effects (b₁ + b₂) f s := by
  subst hm
  constructor
  · intro budget
    refine ⟨?_, ?_, ?_⟩
    · have hdefault : 0 < limits.filled.budget := limits.filled_pos.2.2
      unfold Machine.allowance Machine.load
      dsimp only
      split <;> omega
    · intro hpos
      rw [allowance_of_pos hpos]
      omega
    · split
      · rename_i hended
        simp [Machine.run, Machine.effects, hended]
      · rename_i hlive
        simp only [Bool.not_eq_true] at hlive
        rw [run_eq_runFor hlive, effects_eq_observe hlive]
        obtain ⟨n, hexec⟩ := exec_runFor (Machine.load p svc limits heap).1 _ _ s
        refine ⟨n, hexec.result.2.2, hexec, ?_⟩
        intro g t hspent
        rw [hspent] at hexec
        exact hexec.eq_of_budget
  · intro b₁ b₂ g t hb₁ hb₂ hrun
    have hlive : f.state.isTerminal = false := by
      by_contra hended
      simp only [Bool.not_eq_false] at hended
      simp [Machine.run, hended] at hrun
    rw [run_eq_runFor hlive, allowance_of_pos hb₁] at hrun
    obtain ⟨n, hfirst⟩ := exec_runFor (Machine.load p svc limits heap).1 b₁.toNat
      { f with state := .runnable } s
    rw [hrun] at hfirst
    have hstate := hfirst.runnable rfl
    have hsame : { g with state := .runnable } = g := by rw [← hstate]
    have hlive' : g.state.isTerminal = false := by rw [hstate]; rfl
    obtain ⟨n', hsecond⟩ := exec_runFor (Machine.load p svc limits heap).1 b₂.toNat g t
    have hboth := (hfirst.trans hsecond).result
    have hsum : b₁.toNat + b₂.toNat = (b₁ + b₂).toNat := by omega
    rw [hsum] at hboth
    constructor
    · rw [run_eq_runFor hlive', run_eq_runFor hlive, hsame, allowance_of_pos hb₂,
        allowance_of_pos (by omega), hboth.1]
    · rw [effects_eq_observe hlive, effects_eq_observe hlive', effects_eq_observe hlive, hsame,
        allowance_of_pos hb₁, allowance_of_pos hb₂, allowance_of_pos (by omega), hboth.2.1]

end

/-- A function that stores again and again what another one returns, which returns at the end of its
code. -/
def repeatProgram : Program :=
  { version := Program.currentVersion
    functions := #[
      { code := #[.of .call 1 0, .of .storeVar 0, .of .jump (-2)], maxStack := 1 },
      { code := #[.of .pushConst 0], maxStack := 1 }]
    constants := #[.scalar (.bool true)]
    vars := ["x"] }

def repeatMachine : Machine Bench := (Machine.load repeatProgram {} {} {}).1

/-- The first slice ends with the return that follows on its last instruction and costs nothing. -/
theorem run_preempted_repeat : repeatProgram.check = .ok () ∧
    ∃ g t, repeatMachine.run 2 (.start 1 0) { host := {} } = .ok (.budget, g, t) ∧
      g.frames = [⟨0, 1, 0⟩] ∧ g.stack = [.bool true] ∧
      repeatMachine.run 3 g t = repeatMachine.run (2 + 3) (.start 1 0) { host := {} } ∧
      repeatMachine.effects 3 g t = [.store 0 0 (.bool true)] ∧
      repeatMachine.effects (2 + 3) (.start 1 0) { host := {} } = [.store 0 0 (.bool true)] := by
  let s : Stage Bench := { host := {} }
  have hfirst : ∃ g t, repeatMachine.run 2 (.start 1 0) s = .ok (.budget, g, t) ∧
      g.frames = [⟨0, 1, 0⟩] ∧ g.stack = [.bool true] ∧
      repeatMachine.effects 2 (.start 1 0) s = [] ∧
      repeatMachine.effects 3 g t = [.store 0 0 (.bool true)] := ⟨_, _, rfl, rfl, rfl, rfl, rfl⟩
  obtain ⟨g, t, hrun, hframes, hstack, hnone, hstored⟩ := hfirst
  obtain ⟨-, hslices⟩ := run_preempted repeatProgram {} {} {} (m := repeatMachine) rfl (.start 1 0) s
  obtain ⟨hsame, heffects⟩ := hslices 2 3 g t (by decide) (by decide) hrun
  refine ⟨by decide, g, t, hrun, hframes, hstack, hsame, hstored, ?_⟩
  rw [← heffects, hnone, hstored]
  rfl

end TileMind
