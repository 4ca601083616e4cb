import TileMind.Proofs.Brain.Assignments
import TileMind.Proofs.Brain.Plays

/-!
# TileMind.Proofs.Brain.Objects

Objects in order from tick to tick. A fiber that goes on has kept its argument maps on its stack; errands, answers
and cancellations change what is held, and only with what is fresh or held already.

* `Scheduler.InOrder`: the invariant, and that each operation of a scheduler keeps it.
* `Scheduler.Closes`: a tick executes an assignment that closes a loop. No other tick breaks the invariant.
* `Scheduler.Accepts`: what may come from outside.
-/

namespace TileMind

variable {W : Type}

/-! ## Fibers -/

section

variable {p : Program} {h h' : Heap} {args args' : Set Nat} {f g : Fiber}

theorem Fiber.InPlace.later (hf : f.InPlace p h args) (hl : h.Later args h' args') : f.InPlace p h' args' :=
  ⟨hf.disciplined, hf.laid.later hl⟩

/-- What is done to a fiber in between leaves its place alone. -/
theorem Fiber.InPlace.congr (hf : f.InPlace p h args) (hframes : g.frames = f.frames)
    (hhandlers : g.handlers = f.handlers) (hstack : g.stack = f.stack) : g.InPlace p h args := by
  obtain ⟨hdisciplined, hlaid⟩ := hf
  have hhand : ∀ x ∈ g.handlers, Catches p (f.frames.map Frame.func) x := hhandlers ▸ hdisciplined.handlers
  refine ⟨⟨hdisciplined.toNested.guarded hframes hhand (hhandlers ▸ hdisciplined.nested), ?_⟩, ?_, ?_⟩
  · rw [hframes, hstack]
    exact hdisciplined.top
  · rw [hframes, hstack]
    exact hlaid.top
  · rw [hframes]
    exact hlaid.callers

theorem Fiber.inPlace_start (hp : RuleProgram p) (hl : p.Layouts) {func : Int} {fn : Function}
    (hfn : p.function? func = some fn) (id : Nat) : (Fiber.start id func).InPlace p h args := by
  have hstart := disciplined_start hp id hfn
  exact ⟨hstart, laid_of_empty hl hstart rfl (by simp [Fiber.start])⟩

end

theorem Mind.globals_ended (m : Mind W) (f : Fiber) : (m.ended f).globals = m.globals := by
  unfold ended
  split <;> rfl

/-! ## Schedulers -/

namespace Scheduler

/-- Objects are in order, what is held may be held anywhere, and fibers that go on are between two instructions.
Errands that wait do what host code may do. -/
structure InOrder (args : Set Nat) (s : Scheduler (Mind W)) : Prop where
  builds : s.machine.Builds
  ready : s.machine.Ready args s.stage
  fibers : ∀ f ∈ s.live, f.state.isTerminal = false → f.InPlace s.machine.program s.stage.heap args
  inbox : ∀ e ∈ s.inbox, e.Within Stage.Grows

section

variable {s s' : Scheduler (Mind W)} {args args' : Set Nat} {f g : Fiber} {t : Stage (Mind W)}

theorem InOrder.setStage (hs : s.InOrder args) (hl : s.stage.heap.Later args t.heap args') (ht : t.Tidy args') :
    InOrder args' { s with stage := t } :=
  ⟨hs.builds, hs.ready.later hl ht, fun f hf hlive => (hs.fibers f hf hlive).later hl, hs.inbox⟩

theorem InOrder.tidied (hs : s.InOrder args) (ht : s.stage.Tidied args t) : InOrder args { s with stage := t } :=
  hs.setStage ht.later ht.tidy

theorem InOrder.deliver (hs : s.InOrder args) : s.deliver.InOrder args := by
  refine deliver_induction (P := fun t => t.InOrder args) ?_ ?_
  · exact hs.setStage (t := { s.stage with handles := { s.stage.handles with outbox := [] } }) (.refl _ _)
      (hs.ready.tidy.setHandles hs.ready.tidy.handles)
  · intro t k w ht
    unfold wake
    split
    · exact ht
    · rename_i f hf
      split
      · refine ⟨ht.builds, ht.ready, fun g hg hlive => ?_, ht.inbox⟩
        rcases mem_setFiber hg with rfl | ⟨hg, -⟩
        · rename_i hwaits
          have hstate : f.state = .waiting := by simp_all
          exact (ht.fibers f (mem_of_fiber? hf).1 (by rw [hstate]; rfl)).congr rfl rfl rfl
        · exact ht.fibers g hg hlive
      · exact ht

theorem InOrder.work (hs : s.InOrder args) (ht : s.stage.Grows t) : InOrder args { s with stage := t }.deliver :=
  (hs.tidied (hs.ready.tidy.grown ht)).deliver

theorem InOrder.spawn (hs : s.InOrder args) {func : Int} {id : Nat} (h : s.spawn func = .ok (id, s')) :
    s'.InOrder args := by
  obtain ⟨fn, hfn⟩ : ∃ fn, s.machine.program.function? func = some fn := by
    unfold Scheduler.spawn at h
    split at h
    · cases h
    · rename_i hrange
      simp only [Bool.or_eq_true, decide_eq_true_eq, not_or, not_lt, not_le] at hrange
      obtain ⟨n, rfl⟩ := Int.eq_ofNat_of_zero_le hrange.1
      have hlt : n < s.machine.program.functions.size := by omega
      exact ⟨_, Program.function?_eq_some_iff.mpr ⟨n, rfl, Array.getElem?_eq_getElem hlt⟩⟩
  obtain ⟨-, -, rfl⟩ := spawn_eq_ok h
  refine ⟨hs.builds, hs.ready, List.forall_mem_append.mpr ⟨hs.fibers, ?_⟩, hs.inbox⟩
  exact List.forall_mem_singleton.mpr fun _ => Fiber.inPlace_start hs.builds.rules hs.builds.layouts hfn _

theorem InOrder.finish (hs : s.InOrder args) (f : Fiber) : (s.finish f).InOrder args := by
  have hleft : (if f.awaiting = 0 then s.stage.handles
      else s.stage.handles.update f.awaiting fun h => h.removeWaiter f.id).Carries (s.stage.heap.Common args) := by
    split
    · exact hs.ready.tidy.handles
    · exact hs.ready.tidy.handles.update _ fun _ hh => hh
  have hreleased := hs.ready.tidy.setHandles (hleft.release f.id f.handles)
  have hended := hreleased.setHost (m := s.stage.host.ended f.cleared) fun v hv =>
    hs.ready.tidy.host v (hv.congr (s.stage.host.globals_ended f.cleared) (s.stage.host.ended_same f.cleared).2)
  have hstage := hs.setStage (t := (s.finish f).stage) (.refl s.stage.heap args) hended
  exact ⟨hstage.builds, hstage.ready, fun g hg => hstage.fibers g (List.mem_of_mem_filter hg), hstage.inbox⟩

theorem InOrder.cancelFiber (hs : s.InOrder args) (f : Fiber) : (s.cancelFiber f).InOrder args :=
  (hs.tidied (hs.ready.tidy.tidied.faults _)).finish _

theorem InOrder.cancelAll (hs : s.InOrder args) : s.cancelAll.InOrder args := by
  have hall := List.foldlRecOn (motive := fun t : Scheduler (Mind W) => t.InOrder args) s.live Scheduler.cancelFiber hs
    fun _ ht f _ => ht.cancelFiber f
  exact ⟨hall.builds, hall.ready, hall.fibers, hall.inbox⟩

theorem InOrder.runFiber (hs : s.InOrder args) (hf : f ∈ s.live) (hstate : f.state = .runnable)
    (hopen : ∀ x ∈ s.machine.moments s.machine.limits.budget f s.stage, ¬ s.machine.Loops x)
    (h : s.runFiber f = .ok s') : ∃ args', s'.InOrder args' := by
  obtain ⟨status, g, t, hrun⟩ := ran_of_runFiber h
  have hplace := hs.fibers f hf (by rw [hstate]; rfl)
  obtain ⟨args', hlater, ht, hg⟩ := hs.ready.run hs.builds hstate hplace hopen hrun
  have hset : ({ s with stage := t }.setFiber g).InOrder args' := by
    refine ⟨hs.builds, ht, fun x hx hlive => ?_, hs.inbox⟩
    rcases mem_setFiber hx with rfl | ⟨hx, -⟩
    · exact hg hlive
    · exact (hs.fibers x hx hlive).later hlater
  refine ⟨args', ?_⟩
  have hcalled := hset.deliver
  rcases runFiber_eq_ok hrun h with ⟨-, rfl⟩ | ⟨-, rfl⟩ | ⟨-, rfl⟩
  · exact hcalled.finish g
  · exact ⟨hcalled.builds, hcalled.ready, hcalled.fibers, hcalled.inbox⟩
  · exact hcalled

theorem InOrder.doErrands (errands : List (Errand (Stage (Mind W)))) (hs : s.InOrder args)
    (hwithin : ∀ e ∈ errands, e.Within Stage.Grows) : (doErrands errands s).InOrder args := by
  induction errands generalizing s with
  | nil => exact hs
  | cons e errands ih =>
    cases hwithin e List.mem_cons_self with
    | @mk run within more =>
      have hposts : ({ s with inbox := s.inbox ++ (run s.stage).2 } : Scheduler (Mind W)).InOrder args :=
        ⟨hs.builds, hs.ready, hs.fibers, List.forall_mem_append.mpr ⟨hs.inbox, more s.stage⟩⟩
      exact ih (hposts.work (within s.stage)) fun x hx => hwithin x (List.mem_cons_of_mem _ hx)

end

/-! ## Ticks -/

section

variable {H : Type} [Host H]

/-- The instructions executed while the queue is run, with what they find. -/
def momentsIn : (rounds : Nat) → Scheduler H → List (Moment H)
  | 0, _ => []
  | rounds + 1, s =>
    match s.queue with
    | [] => []
    | id :: rest =>
      let s := { s with queue := rest }
      match s.fiber? id with
      | none => momentsIn rounds s
      | some f =>
        if f.state = FiberState.runnable then
          s.machine.moments s.machine.limits.budget f s.stage ++
            match s.runFiber f with
            | .error _ => []
            | .ok s => momentsIn rounds s
        else momentsIn rounds s

def moments (s : Scheduler H) : List (Moment H) :=
  let s := doErrands s.inbox { s with inbox := [] }
  momentsIn (maxRounds + (s.queue ++ s.next).length) { s with queue := s.queue ++ s.next, next := [] }

end

section

variable {s s' : Scheduler (Mind W)} {args : Set Nat}

theorem machine_runFiber {H : Type} [Host H] {s s' : Scheduler H} {f : Fiber} (h : s.runFiber f = .ok s') :
    s'.machine = s.machine := by
  obtain ⟨status, g, t, hrun⟩ := ran_of_runFiber h
  have hmachine := (deliver_same ({ s with stage := t }.setFiber g)).1
  rcases runFiber_eq_ok hrun h with ⟨-, rfl⟩ | ⟨-, rfl⟩ | ⟨-, rfl⟩ <;> exact hmachine

theorem machine_doErrands {H : Type} (errands : List (Errand (Stage H))) (s : Scheduler H) :
    (Scheduler.doErrands errands s).machine = s.machine := by
  induction errands generalizing s with
  | nil => rfl
  | cons e errands ih => exact (ih _).trans (deliver_same _).1

theorem InOrder.drain (rounds : Nat) (hs : s.InOrder args) (hopen : ∀ x ∈ momentsIn rounds s, ¬ s.machine.Loops x)
    (h : drain rounds s = .ok s') : ∃ args', s'.InOrder args' := by
  induction rounds generalizing s args with
  | zero =>
    unfold Scheduler.drain at h
    split at h
    · cases h
      exact ⟨args, hs⟩
    · cases h
  | succ rounds ih =>
    unfold Scheduler.drain at h
    unfold momentsIn at hopen
    cases hqueue : s.queue with
    | nil =>
      simp only [hqueue] at h
      cases h
      exact ⟨args, hs⟩
    | cons id rest =>
      simp only [hqueue] at h hopen
      have hleft : ({ s with queue := rest } : Scheduler (Mind W)).InOrder args :=
        ⟨hs.builds, hs.ready, hs.fibers, hs.inbox⟩
      cases hfound : ({ s with queue := rest } : Scheduler (Mind W)).fiber? id with
      | none =>
        simp only [hfound] at h hopen
        exact ih hleft hopen h
      | some f =>
        simp only [hfound] at h hopen
        split at h
        · rename_i hstate
          rw [if_pos hstate] at hopen
          obtain ⟨hrun, hrest⟩ := List.forall_mem_append.mp hopen
          cases hran : ({ s with queue := rest } : Scheduler (Mind W)).runFiber f with
          | error c =>
            rw [hran] at h
            cases h
          | ok t =>
            simp only [hran] at h hrest
            obtain ⟨args', ht⟩ := hleft.runFiber (mem_of_fiber? hfound).1 hstate hrun hran
            refine ih ht (fun x hx => ?_) h
            rw [machine_runFiber hran]
            exact hrest x hx
        · rename_i hstate
          rw [if_neg hstate] at hopen
          exact ih hleft hopen h

/-- A tick executes an assignment that closes a loop. -/
def Closes (s : Scheduler (Mind W)) : Prop := ∃ x ∈ s.moments, s.machine.Loops x

theorem InOrder.tick (hs : s.InOrder args) (hopen : ¬ s.Closes) (h : s.tick = .ok s') :
    ∃ args', s'.InOrder args' := by
  unfold Closes at hopen
  push Not at hopen
  unfold Scheduler.tick at h
  unfold Scheduler.moments at hopen
  dsimp only at h hopen
  have hemptied : ({ s with inbox := [] } : Scheduler (Mind W)).InOrder args :=
    ⟨hs.builds, hs.ready, hs.fibers, by simp⟩
  have hdone := hemptied.doErrands s.inbox hs.inbox
  have hmachine := machine_doErrands s.inbox { s with inbox := [] }
  generalize Scheduler.doErrands s.inbox { s with inbox := [] } = t at h hopen hdone hmachine
  refine InOrder.drain _ (s := { t with queue := t.queue ++ t.next, next := [] })
    ⟨hdone.builds, hdone.ready, hdone.fibers, hdone.inbox⟩ (fun x hx => ?_) h
  rw [show t.machine = s.machine from hmachine]
  exact hopen x hx

end

/-! ## Values from outside -/

section

variable {h : Heap} {s : Scheduler (Mind W)} {args args' : Set Nat} {v : Value}

/-- Argument maps that are on no stack any more are like other maps. -/
theorem InOrder.restrict (hs : s.InOrder args) (hsub : args' ⊆ args)
    (hkeep : ∀ f ∈ s.live, ∀ w ∈ f.stack, ∀ n ∈ args, w.ref? = some (.map n) → n ∈ args') : s.InOrder args' := by
  obtain ⟨⟨⟨hparts, hends, hknown⟩, hhost, hhandles⟩, hconstants⟩ := hs.ready
  refine ⟨hs.builds, ⟨⟨⟨?_, hends, fun n hn => hknown n (hsub hn)⟩, ?_, ?_⟩, ?_⟩, fun f hf hlive => ?_, hs.inbox⟩
  · exact fun x v hv => (hparts x v hv).mono hsub
  · exact fun v hv => (hhost v hv).mono hsub
  · exact fun x hx => (hhandles x hx).mono hsub
  · exact fun c hc => (hconstants c hc).mono hsub
  · obtain ⟨hdisciplined, hlaid⟩ := hs.fibers f hf hlive
    refine ⟨hdisciplined, fun fr rest hframes => ?_, hlaid.callers⟩
    obtain ⟨hlength, hfills⟩ := List.forall₂_iff_zip.mp (hlaid.top fr rest hframes)
    refine List.forall₂_iff_zip.mpr ⟨hlength, fun {slot w} hmem => ?_⟩
    have hw := hfills hmem
    cases slot with
    | value => exact Heap.Common.mono hw hsub
    | args =>
      obtain ⟨type, n, hn, rfl⟩ := hw
      exact ⟨type, n, hkeep f hf _ (List.of_mem_zip hmem).2 n hn rfl, rfl⟩

/-- What host code outside of fibers may hand over: a value that is held already, or an object that no fiber has on
its stack. -/
def Accepts (s : Scheduler (Mind W)) (v : Value) : Prop :=
  s.stage.Holds v ∨ (∃ x, v ∈ s.stage.heap.parts x) ∨
    ∀ x, v.ref? = some x → s.stage.heap.Has x ∧ ∀ f ∈ s.live, ∀ w ∈ f.stack, w.ref? ≠ some x

theorem InOrder.accepts (hs : s.InOrder args) (hv : s.Accepts v) :
    ∃ args', s.InOrder args' ∧ s.stage.heap.Common args' v := by
  rcases hv with hheld | ⟨x, hx⟩ | hloose
  · exact ⟨args, hs, hs.ready.tidy.common hheld⟩
  · exact ⟨args, hs, hs.ready.tidy.heap.parts x v hx⟩
  · refine ⟨{n ∈ args | v.ref? ≠ some (.map n)}, hs.restrict (Set.sep_subset _ _) ?_, fun x hx => ?_⟩
    · exact fun f hf w hw n hn hwn => ⟨hn, fun hvn => (hloose _ hvn).2 f hf w hw hwn⟩
    · refine ⟨(hloose x hx).1, ?_⟩
      rintro n ⟨-, hn⟩ rfl
      exact hn hx

end

end Scheduler

end TileMind
