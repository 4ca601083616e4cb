import TileMind.Proofs.Machine.Operations
import TileMind.Proofs.Machine.Trace

/-!
# TileMind.Proofs.Machine.Completion

No answer is lost, and none is given twice. Between the answer to a handle and the next run of a fiber
that waits for it, whatever else happens, the handle stays in the table with that answer and the
fiber stays in line once; then its `await` reads the answer.

* `Step.wakes`: the step that answers a handle calls whoever waits for it.
* `Steps.answered`: until the fiber is at work the answer is kept for it.
* `AtAwait.receives`: its `await` then reads the answer.
* `answer_received_once`: all of this for the runs of a scheduler.
-/

namespace TileMind

variable {H : Type}

open HandleTable (Evolves)

/-! ## Reading an answer -/

/-- What an `await` makes of the answer to a handle: the fiber goes on with the value in the place of
the handle, or the fault is raised where it stands. A fault that is missing is looked for in vain. -/
def Answer.receivedBy (a : Answer) (handle : Nat) (f : Fiber) (fr : Frame) (below : List Value)
    (s : Stage H) : Outcome H :=
  match a with
  | .resolved v => .next { f.jump (fr.pc + 1) with stack := v :: below } s
  | .rejected (some ref) | .cancelled ref =>
    raise { f.jump (fr.pc + 1) with stack := below } s ref ⟨fr.func, fr.pc⟩
  | .rejected none => .crash (.noFault handle)

theorem AtAwait.receives [Host H] {m : Machine H} {f : Fiber} {fr : Frame} {i : Instr} {handle : Nat}
    {below : List Value} (hat : AtAwait m f fr i handle below) {s : Stage H} {a : Answer}
    {fiber : Nat} (hlists : s.handles.Lists handle fiber fun h => h.Shows a) :
    TileMind.step m fr i f s =
      a.receivedBy handle f fr below { s with handles := s.handles.consume handle f.id } := by
  obtain ⟨h, hfound, -, hshows⟩ := hlists
  have hid : h.id = handle := Int.ofNat_inj.mp (HandleTable.mem_of_get? hfound).2
  have hdone := hshows.isDone
  have hself : (f.jump (fr.pc + 1)).id = f.id := (f.sameRun_jump _).id
  rw [hat.step]
  simp only [execAwait, withTop, Fiber.jump_stack, hat.stack, hfound, hdone, if_true, hid,
    hshows.state, hshows.fault, hshows.result]
  rcases a with v | (_ | ref) | ref <;>
    simp only [Answer.receivedBy, Answer.state, Answer.fault, Answer.result, Fiber.push, hself]

theorem AtAwait.woken {m : Machine H} {f : Fiber} {fr : Frame} {i : Instr} {handle : Int}
    {below : List Value} (hat : AtAwait m f fr i handle below) :
    AtAwait m (Scheduler.woken f) fr i handle below := by
  refine ⟨hat.frame, hat.instr, hat.op, ?_, hat.stack⟩
  rw [← hat.guard]
  simp [Machine.checkStack, Scheduler.woken]

/-- The run of a fiber starts with the instruction it stands at. -/
theorem Machine.run_eq_proceed [Host H] {m : Machine H} {f : Fiber} {fr : Frame} {rest : List Frame}
    {i : Instr} (hstate : f.state = .runnable) (hframes : f.frames = fr :: rest)
    (hi : Machine.instrAt m.program fr = .ok i) {budget : Int} (hbudget : 0 < budget) (s : Stage H) :
    m.run budget f s = m.proceed (budget.toNat - 1) (step m fr i f s) := by
  have hsame : { f with state := .runnable } = f := by rw [← hstate]
  have hlead := (Leads.last (s := s) hframes hi).runFor.2 (budget.toNat - 1)
  have hsum : 1 + (budget.toNat - 1) = budget.toNat := by omega
  have hpos : ¬ budget ≤ 0 := by omega
  unfold Machine.run
  dsimp only
  rw [hsame, hstate, if_neg (by simp [FiberState.isTerminal]), if_neg hpos, ← hlead, hsum]

namespace Scheduler

section

variable [Host H] {s s' : Scheduler H} {a : Action} {as : List (Int × Answer)}
  {es : List (Action × List (Int × Answer))}

/-! ## Steps and answers -/

/-- A handle that is completed or gone is not answered again. -/
theorem Step.settled (h : s.Step a as s') (hs : s.Steady) {k : Int}
    (hk : s.stage.handles.Settled k) : s'.stage.handles.Settled k ∧ ∀ b ∈ as, b.1 ≠ k := by
  obtain ⟨t, hbefore, hafter⟩ := h.acts hs
  obtain ⟨ht, hnone⟩ := hbefore.settled hk
  exact ⟨(hafter.settled ⟨ht.1, ht.2⟩).1, hnone⟩

theorem Steps.settled (h : s.Steps es s') (hs : s.Steady) {k : Int}
    (hk : s.stage.handles.Settled k) :
    s'.stage.handles.Settled k ∧ ∀ e ∈ es, ∀ b ∈ e.2, b.1 ≠ k := by
  induction h with
  | refl s => exact ⟨hk, by simp⟩
  | step first _ ih =>
    obtain ⟨hk1, hnone⟩ := first.settled hs hk
    obtain ⟨hlast, hmore⟩ := ih (first.steady hs) hk1
    exact ⟨hlast, List.forall_mem_cons.mpr ⟨hnone, hmore⟩⟩

theorem Step.answered (h : s.Step a as s') (hs : s.Steady) {fiber : Nat} (hrest : ¬ a.atWork fiber)
    {k : Int} {x : Answer} (hk : s.stage.handles.Lists k fiber fun g => g.Shows x) :
    s'.stage.handles.Lists k fiber fun g => g.Shows x := by
  obtain ⟨t, hbefore, hafter⟩ := h.acts hs
  exact (hafter.answered hrest (hbefore.answered hrest hk).1).1

theorem Steps.answered (h : s.Steps es s') (hs : s.Steady) {fiber : Nat}
    (hrest : ∀ e ∈ es, ¬ e.1.atWork fiber) {k : Int} {x : Answer}
    (hk : s.stage.handles.Lists k fiber fun g => g.Shows x) :
    s'.stage.handles.Lists k fiber fun g => g.Shows x := by
  induction h with
  | refl s => exact hk
  | step first _ ih =>
    obtain ⟨hfirst, hmore⟩ := List.forall_mem_cons.mp hrest
    exact ih (first.steady hs) hmore (first.answered hs hfirst hk)

/-- A fiber that is in line stays as it is until it is at work. -/
theorem Steps.stays (h : s.Steps es s') (hs : s.Steady) {f : Fiber} (hf : f ∈ s.live)
    (hstate : f.state ≠ .waiting) (hrest : ∀ e ∈ es, ¬ e.1.atWork f.id) : f ∈ s'.live := by
  induction h with
  | refl s => exact hf
  | step first _ ih =>
    obtain ⟨hfirst, hmore⟩ := List.forall_mem_cons.mp hrest
    obtain ⟨g, hg, rfl | ⟨hwaiting, -⟩⟩ := first.rests hs hf hfirst
    · exact ih (first.steady hs) hg hmore
    · exact absurd hwaiting hstate

omit [Host H] in
theorem Steady.waits (hs : s.Steady) {f : Fiber} (hf : f ∈ s.live) (hstate : f.state = .waiting) :
    Awaits s.machine f f.awaiting ∧
      s.stage.handles.Lists f.awaiting f.id fun h => h.isDone = false := by
  cases hs.stands hf with
  | ready state _ =>
    rw [hstate] at state
    cases state
  | waits _ _ place listed => exact ⟨place, listed⟩
  | called _ _ call => cases call

/-- The step that answers a handle answers it once, leaves the answer for whoever waits for it, and
calls that fiber. -/
theorem Step.wakes (h : s.Step a as s') (hs : s.Steady) {f : Fiber} (hf : f ∈ s.live)
    (hstate : f.state = .waiting) (hrest : ¬ a.atWork f.id) {x : Answer}
    (hx : ((f.awaiting : Int), x) ∈ as) :
    (as.filter fun b => b.1 = (f.awaiting : Int)) = [((f.awaiting : Int), x)] ∧ woken f ∈ s'.live ∧
      s'.stage.handles.Lists f.awaiting f.id fun g => g.Shows x := by
  obtain ⟨t, hbefore, hafter⟩ := h.acts hs
  obtain ⟨hnone, -⟩ | ⟨y, honce, hshows, -⟩ := hbefore.waits hrest (hs.waits hf hstate).2
  · exact absurd rfl (hnone _ hx)
  · have hmem : ((f.awaiting : Int), x) ∈ as.filter fun b => b.1 = (f.awaiting : Int) :=
      List.mem_filter.mpr ⟨hx, by simp⟩
    rw [honce, List.mem_singleton] at hmem
    obtain rfl : x = y := congrArg Prod.snd hmem
    have hkept := (hafter.answered hrest hshows).1
    refine ⟨honce, ?_, hkept⟩
    -- a fiber that still waited would wait for a pending handle
    obtain ⟨g, hg, rfl | ⟨-, rfl⟩⟩ := h.rests hs hf hrest
    · obtain ⟨z, hz, -, hpending⟩ := ((h.steady hs).waits hg hstate).2
      obtain ⟨z', hz', -, hdone⟩ := hkept
      obtain rfl : z = z' := Option.some.inj (hz.symm.trans hz')
      rw [hdone.isDone] at hpending
      cases hpending
    · exact hg

omit [Host H] in
theorem settled_of_lists {k : Int} {fiber : Nat} {x : Answer} (ht : s.stage.handles.Sound)
    (hk : s.stage.handles.Lists k fiber fun g => g.Shows x) : s.stage.handles.Settled k := by
  obtain ⟨g, hg, -, hshows⟩ := hk
  have hid := (HandleTable.mem_of_get? hg).2
  have hle := ht.id_le hg
  refine ⟨by omega, ?_⟩
  intro g' hg'
  obtain rfl : g = g' := Option.some.inj (hg.symm.trans hg')
  exact hshows.isDone

end

end Scheduler

open Scheduler

/-- Whatever operations are asked of a scheduler are done in steps. If, in some step, a handle is
answered that a fiber is parked on, then for as long as the fiber is neither run nor cancelled the
handle is there with the one answer it was given and the fiber, called once, is in line once; the
next run of the fiber starts with its `await`, which receives that answer. Nobody is ever called for
the handle again. -/
theorem answer_received_once [Host H] (p : Program) (svc : Services (Stage H)) (limits : Limits)
    (heap : Heap) (host : H) (hm : (Machine.load p svc limits heap).1.Polite) :
    (∀ (ops : List (Operation H)) (s : Scheduler H), (∀ op ∈ ops, op.Polite) →
      Operation.performAll ops (.create p svc limits heap host) = .ok s →
      ∃ es, (Scheduler.create p svc limits heap host).Steps es s) ∧
    ∀ {es₀ : List (Action × List (Int × Answer))} {s s₁ s₂ : Scheduler H} {act : Action}
      {as : List (Int × Answer)} {es : List (Action × List (Int × Answer))} {f : Fiber} {a : Answer},
      (Scheduler.create p svc limits heap host).Steps es₀ s → f ∈ s.live → f.state = .waiting →
      s.Step act as s₁ → ((f.awaiting : Int), a) ∈ as → s₁.Steps es s₂ →
      ¬ act.atWork f.id → (∀ e ∈ es, ¬ e.1.atWork f.id) →
      (as.filter fun b => b.1 = (f.awaiting : Int)) = [((f.awaiting : Int), a)] ∧
      woken f ∈ s₁.live ∧ woken f ∈ s₂.live ∧ (s₂.queue ++ s₂.next).count f.id = 1 ∧
      (s₂.stage.handles.Lists f.awaiting f.id fun h => h.Shows a) ∧
      (∃ fr i below, AtAwait s₂.machine (woken f) fr i f.awaiting below ∧
        s₂.machine.run s₂.machine.limits.budget (woken f) s₂.stage =
          s₂.machine.proceed (s₂.machine.limits.budget.toNat - 1)
            (a.receivedBy f.awaiting (woken f) fr below { s₂.stage with
              handles := s₂.stage.handles.consume f.awaiting f.id })) ∧
      ∀ es' s₃, s₁.Steps es' s₃ → (∀ e ∈ es', ∀ b ∈ e.2, b.1 ≠ f.awaiting) ∧
        ∀ g ∈ s₃.live, g.state = .waiting → g.awaiting ≠ f.awaiting := by
  have hstart := steady_create p svc limits heap host hm
  refine ⟨fun ops s hops h => Operation.steps_of_performAll hops hstart h, ?_⟩
  intro es₀ s s₁ s₂ act as es f a h₀ hf hstate hstep ha h hact hrest
  have hs := h₀.steady hstart
  have hs₁ := hstep.steady hs
  have hs₂ := h.steady hs₁
  obtain ⟨honce, hwoken, hshows⟩ := hstep.wakes hs hf hstate hact ha
  have hstays := h.stays hs₁ hwoken (by simp [woken]) hrest
  have hkept := h.answered hs₁ hrest hshows
  refine ⟨honce, hwoken, hstays, ?_, hkept, ?_, ?_⟩
  · cases hs₂.stands hstays with
    | ready _ turns => exact turns
    | waits state _ _ _ | called state _ _ => cases state
  · obtain ⟨fr, i, below, hat⟩ := (hs.waits hf hstate).1
    have hmachine : s₂.machine = s.machine := ((hstep.steps.trans h).ages hs).machine
    have hlimits : 0 < s₂.machine.limits.budget := by
      rw [hmachine, (h₀.ages hstart).machine]
      exact limits.filled_pos.2.2
    rw [← hmachine] at hat
    obtain ⟨rest, hframes⟩ := hat.frame
    refine ⟨fr, i, below, hat.woken, ?_⟩
    have hwakes : (woken f).frames = fr :: rest := hframes
    rw [Machine.run_eq_proceed rfl hwakes hat.instr hlimits, hat.woken.receives hkept]
    rfl
  · intro es' s₃ h'
    obtain ⟨hsettled, hnone⟩ := h'.settled hs₁ (settled_of_lists hs₁.sound.table hshows)
    refine ⟨hnone, ?_⟩
    intro g hg hwaiting heq
    obtain ⟨z, hz, -, hpending⟩ := ((h'.steady hs₁).waits hg hwaiting).2
    rw [heq] at hz
    rw [hsettled.2 z hz] at hpending
    cases hpending

/-- One function asks for something and leaves its handle in a variable; the other one waits for what
the variable holds. -/
def sharingProgram : Program :=
  { functions := #[
      { code := #[.of .hostCallAsync 0, .of .storeVar 0, .of .ret], maxStack := 1 },
      { code := #[.of .loadVar 0, .of .await, .of .ret], maxStack := 1 }]
    vars := ["handle"] }

/-- Two fibers come to wait for a handle whose creator has ended. -/
def sharingOps : List (Operation Bench) := [.spawn 0, .spawn 1, .spawn 1, .tick]

theorem polite_sharing : (Machine.load sharingProgram askingServices {} {}).1.Polite :=
  ⟨polite_asking.sync, polite_asking.async, polite_asking.get, polite_asking.set⟩

theorem answer_received_once_sharing :
    ∃ s f g, Operation.performAll sharingOps
        (.create sharingProgram askingServices {} {} ({} : Bench)) = .ok s ∧
      s.live = [f, g] ∧ (s.stage.handles.get? 1).map Handle.owner = some 0 ∧
      ∀ x ∈ [f, g], x.state = .waiting ∧ x.awaiting = 1 ∧
        ∃ s₁, Operation.perform s (.resolve 1 (.bool true)) = .ok s₁ ∧
          (s₁.queue ++ s₁.next).count x.id = 1 ∧
          ∃ (fr : Frame) (below : List Value) (stage : Stage Bench), s₁.machine.run s₁.machine.limits.budget (woken x) s₁.stage =
            s₁.machine.proceed (s₁.machine.limits.budget.toNat - 1)
              (.next { (woken x).jump (fr.pc + 1) with stack := .bool true :: below } stage) := by
  have hran : (Operation.performAll sharingOps
      (.create sharingProgram askingServices {} {} ({} : Bench))).toOption.any (fun s =>
        decide (s.live.map (fun x => (x.state, x.awaiting)) = [(.waiting, 1), (.waiting, 1)]) &&
        decide ((s.stage.handles.get? 1).map Handle.owner = some 0) &&
        (s.stage.handles.answer 1 (.resolved (.bool true))).toOption.isSome) = true := by
    decide +kernel
  obtain ⟨s, hs, hran⟩ := exists_of_any_toOption hran
  simp only [Bool.and_eq_true, decide_eq_true_eq] at hran
  obtain ⟨⟨hlive, howner⟩, hanswers⟩ := hran
  have hops : ∀ op ∈ sharingOps, op.Polite := by simp [sharingOps, Operation.Polite]
  obtain ⟨hsteps, hreceived⟩ := answer_received_once sharingProgram askingServices {} {} ({} : Bench)
    polite_sharing
  obtain ⟨es₀, h₀⟩ := hsteps sharingOps s hops hs
  cases ht : s.stage.handles.answer 1 (.resolved (.bool true)) with
  | error e =>
    rw [ht] at hanswers
    cases hanswers
  | ok t =>
    have hresolve : s.stage.resolve 1 (.bool true) = { s.stage with handles := t } := by
      have hok : s.stage.handles.resolve 1 (.bool true) = .ok t := ht
      simp only [Stage.resolve, hok]
    have hwork : s.Step .work [(1, .resolved (.bool true))]
        { s with stage := { s.stage with handles := t } }.deliver :=
      .work (HandleTable.Change.answer ht).evolves
    obtain ⟨f, rest, hf, hfw, hrest⟩ := List.map_eq_cons_iff.mp hlive
    obtain ⟨g, none, rfl, hgw, hnone⟩ := List.map_eq_cons_iff.mp hrest
    obtain rfl := List.map_eq_nil_iff.mp hnone
    refine ⟨s, f, g, hs, hf, howner, ?_⟩
    intro x hx
    have hxw : x.state = .waiting ∧ x.awaiting = 1 := by
      rcases List.mem_cons.mp hx with rfl | hx
      · exact Prod.mk.inj hfw
      · obtain rfl := List.mem_singleton.mp hx
        exact Prod.mk.inj hgw
    refine ⟨hxw.1, hxw.2, _, rfl, ?_⟩
    dsimp only
    rw [hresolve]
    have hasked : ((x.awaiting : Int), Answer.resolved (.bool true)) ∈
        [((1 : Int), Answer.resolved (.bool true))] := by simp [hxw.2]
    obtain ⟨-, -, -, hturn, -, ⟨fr, i, below, -, hrun⟩, -⟩ :=
      hreceived h₀ (hf ▸ hx) hxw.1 hwork hasked (.refl _) (by simp [Action.atWork]) (by simp)
    exact ⟨hturn, fr, below, _, hrun⟩

end TileMind
