import Mathlib.Logic.Relation
import TileMind.Proofs.Machine.Safety

/-!
# TileMind.Proofs.Machine.Ceilings

The ceilings of a machine on calls and operands. A guard compares the stack with its ceiling before each
instruction, with what that instruction takes and puts there. The result of a call is put on the stack
when the call is left, and this is no instruction of the caller's: no guard has counted it.

* `Transition`: one move, of the fiber itself or of those around it.
* `transitions_iff_history`: a history is a chain of moves.
* `Machine.Runs`: the states of the fibers of a machine.
* `Scheduler.runs_of_performAll`: whatever is asked of a scheduler, its fibers are in such states.
* `Fiber.Capped`: a fiber within the ceilings, but for one value.
* `step_refused_or_admitted`: the guards of an instruction.
* `Transition.capped`: every move keeps to the ceilings, and only a return goes over them.
* `ceilings_of_runs`: how high the stack of a fiber gets, and when.
-/

namespace TileMind

/-! ## Moves between states

The life of a fiber as a relation between its states. A history lists the instructions a fiber has
executed; here every move counts, so that something can be said about each state in between.
-/

open Relation (ReflTransGen)

variable {H : Type}

/-- A fiber executes an instruction, returns at the end of a function's code, is found to have left its
last call, is resumed, or is ended from outside. Nothing is said about the stage. -/
inductive Transition [Host H] (m : Machine H) (f : Fiber) : Fiber → Prop where
  | next {g : Fiber} {fr : Frame} {rest : List Frame} {i : Instr} {s s' : Stage H}
      (live : f.state.isTerminal = false) (frames : f.frames = fr :: rest)
      (instr : Machine.instrAt m.program fr = .ok i) (done : step m fr i f s = .next g s') :
      Transition m f g
  | stop {g : Fiber} {fr : Frame} {rest : List Frame} {i : Instr} {s s' : Stage H} {status : RunStatus}
      (live : f.state.isTerminal = false) (frames : f.frames = fr :: rest)
      (instr : Machine.instrAt m.program fr = .ok i) (done : step m fr i f s = .stop status g s') :
      Transition m f g
  | fallOff {fr : Frame} {rest : List Frame} {fn : Function} (live : f.state.isTerminal = false)
      (frames : f.frames = fr :: rest) (found : m.program.function? fr.func = some fn)
      (past : fn.code.size ≤ fr.pc) : Transition m f f.ret
  | finish (frames : f.frames = []) : Transition m f { f with state := .done }
  | resume (live : f.state.isTerminal = false) (awaiting : Nat) :
      Transition m f { f with state := .runnable, awaiting := awaiting }
  | cancel (fault : Nat) : Transition m f { f with state := .cancelled, fault := some fault }

/-- Every state a fiber can get into that is started for a function of the machine's program. -/
def Machine.Runs [Host H] (m : Machine H) (f : Fiber) : Prop :=
  ∃ id func fn, m.program.function? func = some fn ∧ ReflTransGen (Transition m) (.start id func) f

section

variable [Host H] {m : Machine H} {f g : Fiber} {es : List Event}

/-! ## Chains of moves -/

theorem Transition.history (h : Transition m f g) : ∃ es, History m f es g := by
  cases h with
  | next live frames instr done => exact ⟨_, .next .refl live frames instr done⟩
  | stop live frames instr done => exact ⟨_, .stop .refl live frames instr done⟩
  | fallOff live frames found past => exact ⟨_, .fallOff .refl live frames found past⟩
  | finish frames => exact ⟨_, .finish .refl frames⟩
  | resume live awaiting => exact ⟨_, .resume .refl live awaiting⟩
  | cancel fault => exact ⟨_, .cancel .refl fault⟩

theorem History.transitions (h : History m f es g) : ReflTransGen (Transition m) f g := by
  induction h with
  | refl => exact .refl
  | next _ live frames instr done ih => exact ih.tail (.next live frames instr done)
  | stop _ live frames instr done ih => exact ih.tail (.stop live frames instr done)
  | fallOff _ live frames found past ih => exact ih.tail (.fallOff live frames found past)
  | finish _ frames ih => exact ih.tail (.finish frames)
  | resume _ live awaiting ih => exact ih.tail (.resume live awaiting)
  | cancel _ fault ih => exact ih.tail (.cancel fault)

theorem transitions_iff_history : ReflTransGen (Transition m) f g ↔ ∃ es, History m f es g := by
  constructor
  · intro h
    induction h with
    | refl => exact ⟨[], .refl⟩
    | tail _ hlast ih =>
      obtain ⟨es, hes⟩ := ih
      obtain ⟨es', hes'⟩ := hlast.history
      exact ⟨es ++ es', hes.trans hes'⟩
  · rintro ⟨es, hes⟩
    exact hes.transitions

theorem Machine.Runs.trans (hf : m.Runs f) (h : ReflTransGen (Transition m) f g) : m.Runs g := by
  obtain ⟨id, func, fn, hfn, hstart⟩ := hf
  exact ⟨id, func, fn, hfn, hstart.trans h⟩

/-- The calls and regions of a fiber of a checked program stay inside its code. -/
theorem Machine.Runs.placed (hcheck : m.program.check = .ok ()) (hf : m.Runs f) :
    f.Placed m.program := by
  obtain ⟨id, func, fn, hfn, hstart⟩ := hf
  obtain ⟨es, hes⟩ := transitions_iff_history.mp hstart
  exact hes.placed hcheck (Fiber.placed_start id hfn)

/-- What holds of a fiber at its start and is kept by every move holds in all its states. -/
theorem Machine.Runs.induction {P : Fiber → Prop} (hf : m.Runs f)
    (hstart : ∀ id func, P (.start id func)) (hstep : ∀ x y, P x → Transition m x y → P y) : P f := by
  obtain ⟨id, func, fn, -, hchain⟩ := hf
  induction hchain with
  | refl => exact hstart id func
  | tail _ hlast ih => exact hstep _ _ ih hlast

/-! ## Running -/

theorem Machine.Runs.run {budget : Int} {s s' : Stage H} {status : RunStatus} (hf : m.Runs f)
    (h : m.run budget f s = .ok (status, g, s')) : m.Runs g := by
  obtain ⟨es, hes⟩ := history_of_run h
  exact hf.trans hes.transitions

theorem Scheduler.runs_of_performAll {p : Program} {svc : Services (Stage H)} {limits : Limits}
    {heap : Heap} {host : H} {ops : List (Operation H)} {s : Scheduler H}
    (h : Operation.performAll ops (.create p svc limits heap host) = .ok s) (hf : f ∈ s.live) :
    (Machine.load p svc limits heap).1.Runs f := by
  have hlives := lives_of_performAll (numbered_create p svc limits heap host) h
  obtain ⟨x, es, hx, hnone | ⟨func, fn, hfn, rfl⟩⟩ := hlives.past f hf
  · cases hnone
  · exact ⟨f.id, func, fn, hfn, hx.transitions⟩

/-- A fiber of a scheduler goes on by moves of its own until it has ended. -/
theorem Scheduler.transitions_of_performAll {p : Program} {svc : Services (Stage H)} {limits : Limits}
    {heap : Heap} {host : H} {ops ops' : List (Operation H)} {s s' : Scheduler H}
    (h : Operation.performAll ops (.create p svc limits heap host) = .ok s)
    (h' : Operation.performAll ops' s = .ok s') (hf : f ∈ s.live) :
    ∃ g, ReflTransGen (Transition (Machine.load p svc limits heap).1) f g ∧
      (g ∈ s'.live ∨ g.state.isTerminal = true) := by
  have hlives := lives_of_performAll (numbered_create p svc limits heap host) h
  obtain ⟨es, g, hg, hend⟩ := (lives_of_performAll hlives.numbered h').future f hf
  rw [hlives.machine] at hg
  exact ⟨g, hg.transitions, hend⟩

end

/-! ## Leaving calls -/

namespace Fiber

variable {f g : Fiber} {fr : Frame} {rest : List Frame}

@[simp] theorem length_cut (stack : List Value) (height : Nat) : (cut stack height).length = height := by
  simp [cut]
  omega

theorem ret_jump (f : Fiber) (pc : Int) (hframes : f.frames ≠ []) : (f.jump pc).ret = f.ret := by
  cases hf : f.frames with
  | nil => exact absurd hf hframes
  | cons fr rest => simp [ret, jump, hf]

/-- Back in a caller, the result is the only value above what the call began with. -/
theorem length_ret (hframes : f.frames = fr :: rest) :
    f.ret.stack.length = if rest = [] then fr.base else fr.base + 1 := by
  unfold ret
  rw [hframes]
  cases rest with
  | nil => simp
  | cons c outer => simp

theorem length_unwind {h : Handler} {hs : List Handler} (hhandlers : f.handlers = h :: hs)
    (fault : Nat) : (f.unwind fault).stack.length = h.stackHeight := by
  simp [unwind, hhandlers]

end Fiber

theorem Limits.filled_ceilings_pos (limits : Limits) :
    0 < limits.filled.frames ∧ 0 < limits.filled.stack :=
  ⟨orElse_pos (by decide), orElse_pos (by decide)⟩

/-! ## The invariant -/

/-- A fiber within the ceilings, but for one value on its stack. Its calls begin, and its regions were
opened, below the ceiling. -/
structure Fiber.Capped (limits : Limits) (f : Fiber) : Prop where
  frames : (f.frames.length : Int) ≤ limits.frames
  stack : (f.stack.length : Int) ≤ limits.stack + 1
  bases : ∀ fr ∈ f.frames, (fr.base : Int) ≤ limits.stack
  handlers : ∀ h ∈ f.handlers, (h.stackHeight : Int) ≤ limits.stack

/-- What an instruction of `f` makes of it. If the stack is over its ceiling then, a call was left. -/
def Outcome.Capped (limits : Limits) (f : Fiber) : Outcome H → Prop
  | .next g _ => g.Capped limits ∧
      ((g.stack.length : Int) ≤ limits.stack ∨ (f.stack.length : Int) ≤ limits.stack ∧ g = f.ret)
  | .stop status g _ => g.Capped limits ∧ g.stack.length ≤ f.stack.length ∧
      ((f.stack.length : Int) ≤ limits.stack ∨ status = .fault)
  | .crash _ => True

section

variable {limits : Limits} {f g : Fiber} {fr : Frame} {rest : List Frame}

theorem Fiber.capped_start (hframes : 0 < limits.frames) (hstack : 0 ≤ limits.stack) (id : Nat)
    (func : Int) : (Fiber.start id func).Capped limits := by
  refine ⟨?_, ?_, ?_, ?_⟩
  · simp [Fiber.start]
    omega
  · simp [Fiber.start]
    omega
  · intro fr hfr
    obtain rfl : fr = { func := func } := by simpa [Fiber.start] using hfr
    exact hstack
  · simp [Fiber.start]

/-- What matters besides the height of the stack are the calls and the regions. -/
theorem Fiber.Capped.congr (hf : f.Capped limits) (hframes : g.frames = f.frames)
    (hhandlers : g.handlers ⊆ f.handlers) (hstack : (g.stack.length : Int) ≤ limits.stack + 1) :
    g.Capped limits := by
  refine ⟨?_, hstack, ?_, ?_⟩
  · rw [hframes]
    exact hf.frames
  · rw [hframes]
    exact hf.bases
  · intro h hh
    exact hf.handlers h (hhandlers hh)

theorem Fiber.Capped.jump (hf : f.Capped limits) (pc : Int) : (f.jump pc).Capped limits := by
  cases hframes : f.frames with
  | nil =>
    have hsame : f.jump pc = f := by simp [Fiber.jump, hframes]
    rwa [hsame]
  | cons fr rest =>
    have hjump : f.jump pc = { f with frames := { fr with pc := pc } :: rest } := by
      simp [Fiber.jump, hframes]
    rw [hjump]
    refine ⟨?_, hf.stack, ?_, hf.handlers⟩
    · simpa [hframes] using hf.frames
    · intro c hc
      rcases List.mem_cons.mp hc with rfl | hc
      · exact hf.bases fr (by simp [hframes])
      · exact hf.bases c (by simp [hframes, hc])

/-- A return goes back to the height at which the call began, and puts the result there. -/
theorem Fiber.Capped.ret (hf : f.Capped limits) (hframes : f.frames = fr :: rest) :
    f.ret.Capped limits := by
  obtain ⟨hrest, hopen⟩ := Fiber.ret_eq hframes
  have hbase := hf.bases fr (by simp [hframes])
  have hlength := hf.frames
  rw [hframes, List.length_cons] at hlength
  refine ⟨?_, ?_, ?_, ?_⟩
  · rw [hrest]
    omega
  · rw [Fiber.length_ret hframes]
    split <;> omega
  · intro c hc
    rw [hrest] at hc
    exact hf.bases c (by simp [hframes, hc])
  · intro h hh
    rw [hopen] at hh
    exact hf.handlers h ((List.dropWhile_sublist _).subset hh)

/-- A caught fault goes back to the height at which the region was opened. -/
theorem Fiber.Capped.unwind (hf : f.Capped limits) {h : Handler} {hs : List Handler}
    (hhandlers : f.handlers = h :: hs) (fault : Nat) : (f.unwind fault).Capped limits := by
  have hheight := hf.handlers h (by simp [hhandlers])
  have hbefore : Fiber.Capped limits { f with
      handlers := hs
      stack := Fiber.cut f.stack h.stackHeight
      frames := f.frames.drop (f.frames.length - h.frameDepth)
      lastFault := some fault } := by
    refine ⟨?_, ?_, ?_, ?_⟩
    · have := hf.frames
      simp only [List.length_drop]
      omega
    · simp only [Fiber.length_cut]
      omega
    · intro c hc
      exact hf.bases c (List.mem_of_mem_drop hc)
    · intro h' hh'
      exact hf.handlers h' (by simp [hhandlers, hh'])
  have hjump := hbefore.jump h.catchPc
  simpa only [Fiber.unwind, hhandlers] using hjump

/-- Raising a fault ends the fiber or brings it below the ceiling. -/
theorem Fiber.Capped.raise (hg : g.Capped limits) (hstack : g.stack.length ≤ f.stack.length)
    (t : Stage H) (fault : Nat) (site : Site) : (raise g t fault site).Capped limits f := by
  unfold TileMind.raise
  dsimp only
  cases hhandlers : g.handlers with
  | nil =>
    rw [if_pos (by rfl)]
    have hend : g.unwind fault = { g with fault := some fault, state := .fault } := by
      simp [Fiber.unwind, hhandlers]
    rw [hend]
    exact ⟨hg.congr rfl (List.Subset.refl _) hg.stack, hstack, .inr rfl⟩
  | cons h hs =>
    rw [if_neg (by simp)]
    refine ⟨hg.unwind hhandlers fault, .inl ?_⟩
    rw [Fiber.length_unwind hhandlers]
    exact hg.handlers h (by simp [hhandlers])

end

/-! ## One instruction -/

section

variable [Host H] {m : Machine H} {f g : Fiber} {fr : Frame} {rest : List Frame} {i : Instr}
  {s : Stage H}

/-- An instruction that passes its guards: the call has put its operands on the stack itself, and there
is room for what it puts there, or for the call that it makes. -/
structure Machine.Admits (m : Machine H) (fr : Frame) (i : Instr) (f : Fiber) : Prop where
  operands : i.pops ≤ (f.stack.length : Int) - fr.base
  stack : (f.stack.length : Int) - i.pops + i.pushes ≤ m.limits.stack
  frames : i.op? = some .call → ((f.jump (fr.pc + 1)).frames.length : Int) < m.limits.frames

omit [Host H] in
theorem Machine.Admits.within (h : m.Admits fr i f) {op : Op} (hop : i.op? = some op) {n : Nat}
    (hpops : op.pops = some n) (hpushes : op.pushes = n) :
    (f.stack.length : Int) ≤ m.limits.stack := by
  have hi : i.pops = n ∧ i.pushes = n := by
    simp [Instr.pops, Instr.pushes, hop, hpops, hpushes]
  have hstack := h.stack
  omega

theorem step_refused_or_admitted (m : Machine H) (fr : Frame) (i : Instr) (f : Fiber) (s : Stage H) :
    (∃ fault, step m fr i f s = raiseNew (f.jump (fr.pc + 1)) s fault ⟨fr.func, fr.pc⟩) ∨
      m.Admits fr i f := by
  unfold step
  dsimp only
  cases hcheck : m.checkStack (f.jump (fr.pc + 1)) fr.base i with
  | some fault => exact .inl ⟨fault, rfl⟩
  | none =>
    have hroom : i.pops ≤ (f.stack.length : Int) - fr.base ∧
        (f.stack.length : Int) - i.pops + i.pushes ≤ m.limits.stack := by
      simp only [Machine.checkStack, Fiber.jump_stack] at hcheck
      split at hcheck
      · cases hcheck
      · split at hcheck
        · cases hcheck
        · constructor <;> omega
    by_cases hcall : i.op? = some .call
    · by_cases hdeep : m.limits.frames ≤ ((f.jump (fr.pc + 1)).frames.length : Int)
      · left
        simp only [hcall, exec, if_pos hdeep]
        exact ⟨_, rfl⟩
      · exact .inr ⟨hroom.1, hroom.2, fun _ => by omega⟩
    · exact .inr ⟨hroom.1, hroom.2, fun hop => absurd hop hcall⟩

theorem step_capped (hf : f.Capped m.limits) (hframes : f.frames = fr :: rest) (i : Instr)
    (s : Stage H) : (step m fr i f s).Capped m.limits f := by
  have hpast := hf.jump (fr.pc + 1)
  have hsame : (f.jump (fr.pc + 1)).stack.length = f.stack.length := by simp
  rcases step_refused_or_admitted m fr i f s with ⟨fault, hrefused⟩ | hadmits
  · rw [hrefused]
    exact hpast.raise hsame.le _ _ _
  · have hroom := hadmits.stack
    have hmoves := step_moves (f := f) (i := i) (s := s) (m.keeps_true f.id) fr
    generalize step m fr i f s = out at hmoves
    cases hmoves with
    | @next g t _ _ _ frames handlers stack =>
      rw [hsame] at stack
      have hle : (g.stack.length : Int) ≤ m.limits.stack := by omega
      exact ⟨hpast.congr frames (by rw [handlers]; exact List.Subset.refl _) (by omega), .inl hle⟩
    | @jump g _ _ frames handlers stack =>
      rw [hsame] at stack
      have hle : (g.stack.length : Int) ≤ m.limits.stack := by omega
      refine ⟨(hpast.jump _).congr frames ?_ (by omega), .inl hle⟩
      rw [handlers, Fiber.jump_handlers]
      simp
    | @call g _ op frames handlers stack =>
      have hdepth := hadmits.frames op
      have hoperands := hadmits.operands
      have hpops : i.pops = i.b.toInt := by simp [Instr.pops, op, Op.pops]
      have hpushes : i.pushes = 0 := by simp [Instr.pushes, op, Op.pushes]
      -- The call begins where the operands were.
      have hle : (g.stack.length : Int) ≤ m.limits.stack := by
        rw [stack, List.length_drop, hsame]
        omega
      refine ⟨⟨?_, by omega, ?_, ?_⟩, .inl hle⟩
      · rw [frames, List.length_cons]
        omega
      · intro c hc
        rw [frames] at hc
        rcases List.mem_cons.mp hc with rfl | hc
        · exact hle
        · exact hpast.bases c hc
      · rw [handlers]
        exact hpast.handlers
    | ret op =>
      have hret : (f.jump (fr.pc + 1)).ret = f.ret := f.ret_jump _ (by simp [hframes])
      rw [hret]
      exact ⟨hf.ret hframes, .inr ⟨hadmits.within op rfl rfl, rfl⟩⟩
    | @tryStart g _ op frames handlers stack =>
      have hle : ((f.jump (fr.pc + 1)).stack.length : Int) ≤ m.limits.stack := by
        rw [hsame]
        exact hadmits.within op rfl rfl
      rw [← stack] at hle
      refine ⟨⟨by rw [frames]; exact hpast.frames, by omega, by rw [frames]; exact hpast.bases, ?_⟩,
        .inl hle⟩
      intro h hh
      rw [handlers] at hh
      rcases List.mem_cons.mp hh with rfl | hh
      · rwa [← stack]
      · exact hpast.handlers h hh
    | @tryEnd g _ op frames handlers stack =>
      have hle : (g.stack.length : Int) ≤ m.limits.stack := by
        rw [stack, hsame]
        exact hadmits.within op rfl rfl
      refine ⟨hpast.congr frames ?_ (by omega), .inl hle⟩
      rw [handlers]
      exact (List.tail_sublist _).subset
    | @raise g t fault _ _ frames handlers stack =>
      rw [hsame] at stack
      have hstack := hf.stack
      have hg := hpast.congr frames (by rw [handlers]; exact List.Subset.refl _) (by omega)
      exact hg.raise stack _ _ _
    | park op _ _ =>
      have hback := hpast.jump fr.pc
      refine ⟨hback.congr rfl (List.Subset.refl _) hback.stack, ?_, .inl (hadmits.within op rfl rfl)⟩
      simp
    | yield op => exact ⟨hpast, hsame.le, .inl (hadmits.within op rfl rfl)⟩
    | crash => trivial

/-! ## Every move -/

/-- A move keeps to the ceilings. The stack gets higher than its ceiling by leaving a call only. -/
theorem Transition.capped (hf : f.Capped m.limits) (h : Transition m f g) :
    g.Capped m.limits ∧ ((g.stack.length : Int) ≤ m.limits.stack ∨
      g.stack.length ≤ f.stack.length ∨ g = f.ret) := by
  cases h with
  | @next g fr rest i s s' _ frames _ done =>
    have hstep := step_capped hf frames i s
    rw [done] at hstep
    obtain ⟨hg, hle | ⟨-, hret⟩⟩ := hstep
    · exact ⟨hg, .inl hle⟩
    · exact ⟨hg, .inr (.inr hret)⟩
  | @stop g fr rest i s s' status _ frames _ done =>
    have hstep := step_capped hf frames i s
    rw [done] at hstep
    exact ⟨hstep.1, .inr (.inl hstep.2.1)⟩
  | fallOff _ frames _ _ => exact ⟨hf.ret frames, .inr (.inr rfl)⟩
  | finish _ => exact ⟨hf.congr rfl (List.Subset.refl _) hf.stack, .inr (.inl le_rfl)⟩
  | resume _ _ => exact ⟨hf.congr rfl (List.Subset.refl _) hf.stack, .inr (.inl le_rfl)⟩
  | cancel _ => exact ⟨hf.congr rfl (List.Subset.refl _) hf.stack, .inr (.inl le_rfl)⟩

/-- The stack gets over its ceiling by leaving a call that began at the ceiling. -/
theorem Transition.over_iff (hf : f.Capped m.limits) (hwithin : (f.stack.length : Int) ≤ m.limits.stack)
    (h : Transition m f g) : m.limits.stack < g.stack.length ↔
      g = f.ret ∧ ∃ fr c outer, f.frames = fr :: c :: outer ∧ (fr.base : Int) = m.limits.stack := by
  constructor
  · intro hover
    obtain ⟨-, hle | hle | rfl⟩ := h.capped hf
    · omega
    · omega
    · refine ⟨rfl, ?_⟩
      cases hframes : f.frames with
      | nil =>
        have hsame : f.ret = f := by simp [Fiber.ret, hframes]
        rw [hsame] at hover
        omega
      | cons fr rest =>
        have hbase := hf.bases fr (by simp [hframes])
        rw [Fiber.length_ret hframes] at hover
        cases rest with
        | nil =>
          simp at hover
          omega
        | cons c outer =>
          simp at hover
          exact ⟨fr, c, outer, rfl, by omega⟩
  · rintro ⟨rfl, fr, c, outer, hframes, hbase⟩
    rw [Fiber.length_ret hframes]
    simp
    omega

theorem Machine.Runs.capped (hframes : 0 < m.limits.frames) (hstack : 0 ≤ m.limits.stack)
    (hf : m.Runs f) : f.Capped m.limits := by
  refine hf.induction ?_ ?_
  · intro id func
    exact Fiber.capped_start hframes hstack id func
  · intro x y hx hmove
    exact (hmove.capped hx).1

/-- In every state of a fiber the number of calls is within its ceiling, and the stack is over its own
one by one value at most. It gets there by leaving a call that began at the ceiling and in no other way,
and the next instruction that is executed then takes the value away or raises a fault. -/
theorem ceilings_of_runs (p : Program) (svc : Services (Stage H)) (limits : Limits) (heap : Heap)
    (m : Machine H) (hm : m = (Machine.load p svc limits heap).1) :
    (∀ host ops s, Operation.performAll ops (.create p svc limits heap host) = .ok s →
      ∀ f ∈ s.live, m.Runs f) ∧
    ∀ f, m.Runs f →
      (f.frames.length : Int) ≤ m.limits.frames ∧ (f.stack.length : Int) ≤ m.limits.stack + 1 ∧
      (∀ g, Transition m f g → (f.stack.length : Int) ≤ m.limits.stack →
        (m.limits.stack < g.stack.length ↔
          g = f.ret ∧ ∃ fr c outer, f.frames = fr :: c :: outer ∧ (fr.base : Int) = m.limits.stack)) ∧
      (m.limits.stack < f.stack.length → ∀ fr rest i, f.frames = fr :: rest →
        Machine.instrAt p fr = .ok i → ∀ (s : Stage H) g s',
          (step m fr i f s = .next g s' → (g.stack.length : Int) ≤ m.limits.stack) ∧
          ∀ status, step m fr i f s = .stop status g s' → status = .fault) := by
  subst hm
  have hpos := limits.filled_ceilings_pos
  constructor
  · intro host ops s hops f hf
    exact Scheduler.runs_of_performAll hops hf
  · intro f hf
    have hcapped := hf.capped hpos.1 hpos.2.le
    refine ⟨hcapped.frames, hcapped.stack, ?_, ?_⟩
    · intro g hmove hwithin
      exact hmove.over_iff hcapped hwithin
    · intro hover fr rest i hframes hi s g s'
      have hstep := step_capped hcapped hframes i s
      constructor
      · intro hnext
        rw [hnext] at hstep
        obtain ⟨-, hle | ⟨hle, -⟩⟩ := hstep
        · exact hle
        · omega
      · intro status hstop
        rw [hstop] at hstep
        obtain ⟨-, -, hle | hfault⟩ := hstep
        · omega
        · exact hfault

end

/-- A function that puts a value on the stack and calls one that has nothing to return. -/
def crowdedProgram : Program :=
  { version := Program.currentVersion
    functions := #[
      { code := #[.of .pushConst 0, .of .call 1 0, .of .ret], maxStack := 2 },
      { code := #[.of .ret] }]
    constants := #[.scalar (.bool true)] }

/-- A machine that has room for one value. -/
def crowdedMachine : Machine Bench := (Machine.load crowdedProgram {} { stack := 1 } {}).1

/-- After its third instruction the function has two values on the stack. -/
theorem ceilings_of_runs_crowded :
    ∃ f s, crowdedMachine.run 3 (.start 1 0) { host := {} } = .ok (.budget, f, s) ∧
      crowdedMachine.Runs f ∧ crowdedMachine.limits.stack < f.stack.length ∧
      (f.frames.length : Int) ≤ crowdedMachine.limits.frames ∧
      (f.stack.length : Int) ≤ crowdedMachine.limits.stack + 1 ∧
      ∃ fr i, f.frames = [fr] ∧ Machine.instrAt crowdedProgram fr = .ok i ∧ i.op? = some .ret ∧
        ∀ (s : Stage Bench) g s', step crowdedMachine fr i f s = .next g s' →
          (g.stack.length : Int) ≤ crowdedMachine.limits.stack := by
  have hrun : ∃ f s, crowdedMachine.run 3 (.start 1 0) { host := {} } = .ok (.budget, f, s) ∧
      f.frames = [⟨0, 2, 0⟩] ∧ f.stack.length = 2 := ⟨_, _, rfl, rfl, rfl⟩
  obtain ⟨f, s, hrun, hframes, hstack⟩ := hrun
  have hf : crowdedMachine.Runs f := Machine.Runs.run ⟨1, 0, _, rfl, .refl⟩ hrun
  have hover : crowdedMachine.limits.stack < f.stack.length := by
    rw [hstack]
    decide
  obtain ⟨-, hall⟩ := ceilings_of_runs crowdedProgram {} { stack := 1 } {} crowdedMachine rfl
  obtain ⟨hcalls, hvalues, -, hnext⟩ := hall f hf
  refine ⟨f, s, hrun, hf, hover, hcalls, hvalues, _, .of .ret, hframes, rfl, rfl, ?_⟩
  intro s g s' hstep
  exact (hnext hover _ [] _ hframes rfl s g s').1 hstep

/-- The check accepts a program that gets the stack over its ceiling. -/
theorem crowded_over_ceiling : crowdedProgram.check = .ok () ∧ crowdedMachine.limits.stack = 1 ∧
    ∃ f s, crowdedMachine.run 3 (.start 1 0) { host := {} } = .ok (.budget, f, s) ∧
      f.stack.length = 2 :=
  ⟨by decide, by decide, _, _, rfl, rfl⟩

end TileMind
