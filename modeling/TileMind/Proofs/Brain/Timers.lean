import TileMind.Proofs.Brain.Plays
import TileMind.Proofs.Brain.Waits

/-!
# TileMind.Proofs.Brain.Timers

Handles, timers and fibers of a brain whose only slow tile is `wait`. They are kept in three places, and
agree in between any two requests: a fiber has at most one handle, a handle is some fiber's, and the
timers are those of the pending handles.

* `Scheduler.Waits`: the invariant, kept by everything that happens in a tick.
* `Scheduler.claimed_cancelAll`: after all fibers have ended, only handles with a timer are left.
* `Brain.Deserted.cancelTimers`: when these are cancelled too, nothing is left.
* `wait_handles_reclaimed`: what holds of a brain after any requests.
-/

namespace TileMind

variable {W : Type}

/-! ## Schedulers -/

namespace Scheduler

/-- A live fiber has asked for the handle, and not read it yet. -/
def Claims (s : Scheduler (Mind W)) (fiber k : Nat) : Prop :=
  ∃ f ∈ s.live, f.id = fiber ∧ f.Claims s.machine k

/-- Live fibers have the handles that they claim, and no other is left. -/
structure Balances (s : Scheduler (Mind W)) : Prop where
  table : s.stage.handles.Balanced s.Claims s.stage.host.queued
  stands : ∀ f ∈ s.live, f.Rests s.machine.program ∨ ∃ k, f.Claims s.machine k

/-- A scheduler for a compiled program whose only slow tile is `wait`. Numbers of handles are exact up
to 2^53, and so far fibers and handles agree. -/
structure Waits (s : Scheduler (Mind W)) : Prop where
  program : CoupledProgram s.machine.program
  services : s.machine.services.OnlyWaits
  inbox : ∀ e ∈ s.inbox, e.Within Stage.Leaves
  numbers : ∀ f ∈ s.live, f.id ≠ 0
  orderly : ∀ f ∈ s.live, f.Orderly s.machine.program
  few : s.stage.handles.lastId < 2 ^ 53 → s.Balances

section

variable {s s' : Scheduler (Mind W)} {f g : Fiber} {stage : Stage (Mind W)} {w k : Nat}

theorem Called.forall_live (h : s.Called s') (hids : (s.live.map Fiber.id).Nodup) {P : Fiber → Prop}
    (hP : ∀ f, P f → P (woken f)) (hs : ∀ f ∈ s.live, P f) : ∀ g ∈ s'.live, P g := by
  intro g hg
  obtain ⟨f, hf, rfl | ⟨-, rfl⟩⟩ := h.past hids hg
  · exact hs g hf
  · exact hP f (hs f hf)

/-- Whoever is called stays where it stands. -/
theorem Called.claims_iff (h : s.Called s') (hids : (s.live.map Fiber.id).Nodup) :
    s'.Claims w k ↔ s.Claims w k := by
  unfold Claims
  rw [h.machine]
  constructor
  · rintro ⟨g, hg, rfl, hk⟩
    obtain ⟨f, hf, rfl | ⟨-, rfl⟩⟩ := h.past hids hg
    · exact ⟨g, hf, rfl, hk⟩
    · exact ⟨f, hf, rfl, hk.congr rfl rfl rfl⟩
  · rintro ⟨f, hf, rfl, hk⟩
    obtain ⟨g, hg, rfl | ⟨-, rfl⟩⟩ := h.live f hf
    · exact ⟨g, hg, rfl, hk⟩
    · exact ⟨woken f, hg, rfl, hk.congr rfl rfl rfl⟩

theorem claims_setFiber (hf : f ∈ s.live) (hid : g.id = f.id) :
    (s.setFiber g).Claims w k ↔ (w ≠ f.id ∧ s.Claims w k) ∨ w = g.id ∧ g.Claims s.machine k := by
  constructor
  · rintro ⟨x, hx, rfl, hk⟩
    rcases mem_setFiber hx with rfl | ⟨hx, hne⟩
    · exact .inr ⟨rfl, hk⟩
    · exact .inl ⟨hid ▸ hne, x, hx, rfl, hk⟩
  · rintro (⟨hne, x, hx, rfl, hk⟩ | ⟨rfl, hk⟩)
    · exact ⟨x, setFiber_mem_of_ne hx (hid ▸ hne), rfl, hk⟩
    · exact ⟨g, setFiber_mem hf hid.symm, rfl, hk⟩

theorem Waits.deliver (hs : s.Waits) (hids : (s.live.map Fiber.id).Nodup) : s.deliver.Waits := by
  have hcalled := called_deliver s hids
  have hmachine : s.deliver.machine = s.machine := hcalled.machine
  refine ⟨?_, ?_, ?_, hcalled.forall_live hids (fun f h => h) hs.numbers, ?_, fun hsmall => ?_⟩
  · rw [hmachine]
    exact hs.program
  · rw [hmachine]
    exact hs.services
  · rw [hcalled.inbox]
    exact hs.inbox
  · rw [hmachine]
    exact hcalled.forall_live hids (fun f h => h.congr rfl rfl rfl) hs.orderly
  · rw [hcalled.stage] at hsmall
    obtain ⟨htable, hstands⟩ := hs.few hsmall
    refine ⟨?_, ?_⟩
    · rw [hcalled.stage]
      have hclaims (w k : Nat) : s.Claims w k ↔ s.deliver.Claims w k := (hcalled.claims_iff hids).symm
      exact (htable.congr hclaims).of_eq rfl rfl (.refl _)
    · rw [hmachine]
      refine hcalled.forall_live hids (fun f hf => ?_) hstands
      exact hf.imp (fun h => h.congr rfl) fun h => h.imp fun k hk => hk.congr rfl rfl rfl

/-- Something happens on the stage, and fibers and handles still agree. -/
theorem Waits.setStage (hs : s.Waits) (hle : s.stage.handles.lastId ≤ stage.handles.lastId)
    (hbalanced : s.stage.handles.Balanced s.Claims s.stage.host.queued →
      stage.handles.Balanced s.Claims stage.host.queued) : { s with stage := stage }.Waits := by
  refine ⟨hs.program, hs.services, hs.inbox, hs.numbers, hs.orderly, fun hsmall => ?_⟩
  have hsmall : stage.handles.lastId < 2 ^ 53 := hsmall
  obtain ⟨htable, hstands⟩ := hs.few (by omega)
  exact ⟨hbalanced htable, hstands⟩

theorem Waits.leaves (hs : s.Waits) (h : s.stage.Leaves stage) : { s with stage := stage }.Waits :=
  hs.setStage (by rw [h.handles]) h.balanced

theorem waits_of_empty (program : CoupledProgram s.machine.program)
    (services : s.machine.services.OnlyWaits) (inbox : ∀ e ∈ s.inbox, e.Within Stage.Leaves)
    (live : s.live = []) (handles : s.stage.handles.lastId < 2 ^ 53 → s.stage.handles.handles = [])
    (queued : s.stage.host.queued = []) : s.Waits := by
  have hnone (w k : Nat) : ¬ s.Claims w k := by
    rintro ⟨f, hf, -⟩
    rw [live] at hf
    cases hf
  refine ⟨program, services, inbox, by simp [live], by simp [live], fun hsmall => ⟨?_, by simp [live]⟩⟩
  rw [queued]
  exact HandleTable.balanced_of_nil (handles hsmall) hnone

/-- Neither the errands nor the queues matter. -/
theorem Waits.arrange (hs : s.Waits) {inbox : List (Errand (Stage (Mind W)))}
    (hwithin : ∀ e ∈ inbox, e.Within Stage.Leaves) (queue next : List Nat) :
    { s with inbox := inbox, queue := queue, next := next }.Waits :=
  ⟨hs.program, hs.services, hwithin, hs.numbers, hs.orderly,
    fun hsmall => ⟨(hs.few hsmall).table, (hs.few hsmall).stands⟩⟩

theorem Waits.spawn {func : Int} {id : Nat} (hs : s.Waits) (h : s.spawn func = .ok (id, s')) :
    s'.Waits := by
  obtain ⟨fn, hfn⟩ := function_of_spawn h
  obtain ⟨-, rfl, rfl⟩ := spawn_eq_ok h
  obtain ⟨horderly, hrests⟩ := Fiber.orderly_start hs.program (s.lastId + 1) hfn
  refine ⟨hs.program, hs.services, hs.inbox, ?_, ?_, fun hsmall => ⟨?_, ?_⟩⟩
  · intro f hf
    rcases List.mem_append.mp hf with hf | hf
    · exact hs.numbers f hf
    · obtain rfl := List.mem_singleton.mp hf
      exact Nat.succ_ne_zero _
  · intro f hf
    rcases List.mem_append.mp hf with hf | hf
    · exact hs.orderly f hf
    · obtain rfl := List.mem_singleton.mp hf
      exact horderly
  · refine (hs.few hsmall).table.congr fun w k => ⟨?_, ?_⟩
    · rintro ⟨f, hf, hk⟩
      exact ⟨f, List.mem_append_left _ hf, hk⟩
    · rintro ⟨f, hf, hid, hk⟩
      rcases List.mem_append.mp hf with hf | hf
      · exact ⟨f, hf, hid, hk⟩
      · obtain rfl := List.mem_singleton.mp hf
        exact absurd hk.awaits (hrests.not_awaits k)
  · intro f hf
    rcases List.mem_append.mp hf with hf | hf
    · exact (hs.few hsmall).stands f hf
    · obtain rfl := List.mem_singleton.mp hf
      exact .inl hrests

/-! ## Running -/

/-- While fiber `f` is away the others have what they claim. -/
theorem Waits.runs (hs : s.Waits) (hids : (s.live.map Fiber.id).Nodup) (hf : f ∈ s.live) :
    Runs s.machine (fun w k => w ≠ f.id ∧ s.Claims w k) f.id f s.stage := by
  refine ⟨rfl, hs.orderly f hf, fun hsmall => ?_⟩
  obtain ⟨htable, hstands⟩ := hs.few hsmall
  refine ⟨htable.congr fun w k => ⟨?_, ?_⟩, hstands f hf⟩
  · rintro ⟨x, hx, rfl, hk⟩
    by_cases hid : x.id = f.id
    · obtain rfl := eq_of_id_eq hids hx hf hid
      exact .inr ⟨rfl, hk⟩
    · exact .inl ⟨hid, x, hx, rfl, hk⟩
  · rintro (⟨-, hclaims⟩ | ⟨rfl, hk⟩)
    · exact hclaims
    · exact ⟨f, hf, rfl, hk⟩

/-- The fiber comes back, to be run again or called. -/
theorem Waits.comesBack (hs : s.Waits) (hf : f ∈ s.live)
    (hle : s.stage.handles.lastId ≤ stage.handles.lastId)
    (hg : Runs s.machine (fun w k => w ≠ f.id ∧ s.Claims w k) f.id g stage) :
    ({ s with stage := stage }.setFiber g).Waits := by
  have hlive (x : Fiber) (hx : x ∈ ({ s with stage := stage }.setFiber g).live) :
      x = g ∨ x ∈ s.live := (mem_setFiber hx).imp_right And.left
  refine ⟨hs.program, hs.services, hs.inbox, fun x hx => ?_, fun x hx => ?_, fun hsmall => ?_⟩
  · rcases hlive x hx with rfl | hx
    · rw [hg.number]
      exact hs.numbers f hf
    · exact hs.numbers x hx
  · rcases hlive x hx with rfl | hx
    · exact hg.orderly
    · exact hs.orderly x hx
  · have hsmall : stage.handles.lastId < 2 ^ 53 := hsmall
    obtain ⟨htable, hstands⟩ := hg.few hsmall
    refine ⟨htable.congr fun w k => (claims_setFiber (s := { s with stage := stage }) hf hg.number).symm,
      fun x hx => ?_⟩
    rcases hlive x hx with rfl | hx
    · exact hstands
    · exact (hs.few (by omega)).stands x hx

theorem balanced_finish {Owns : Nat → Nat → Prop} {queue : List Nat}
    (hs : s.stage.handles.Balanced Owns queue) (hnone : ∀ k, ¬ Owns g.id k) :
    (s.finish g).stage.handles.Balanced Owns queue := by
  have hleft : (if g.awaiting = 0 then s.stage.handles
      else s.stage.handles.update g.awaiting fun h => h.removeWaiter g.id).Balanced Owns queue := by
    split
    · exact hs
    · exact hs.removeWaiter g.awaiting g.id
  have hself : (s.finish g).stage.handles = if g.awaiting = 0 then s.stage.handles
      else s.stage.handles.update g.awaiting fun h => h.removeWaiter g.id := by
    refine HandleTable.release_eq_self (fun h hh howner => ?_) g.handles
    obtain ⟨w, hw, hown, -⟩ := (hleft.each h hh).owned
    obtain rfl : w = g.id := by omega
    exact hnone _ hown
  rw [hself]
  exact hleft

theorem claims_finish : (s.finish g).Claims w k ↔ w ≠ g.id ∧ s.Claims w k := by
  constructor
  · rintro ⟨x, hx, rfl, hk⟩
    obtain ⟨hx, hne⟩ := List.mem_filter.mp hx
    exact ⟨by simpa using hne, x, hx, rfl, hk⟩
  · rintro ⟨hne, x, hx, rfl, hk⟩
    exact ⟨x, List.mem_filter.mpr ⟨hx, by simpa using hne⟩, rfl, hk⟩

section

variable (hids : (s.live.map Fiber.id).Nodup) (hf : f ∈ s.live) (hid : g.id = f.id)

include hids

theorem nodup_setFiber : (({ s with stage := stage }.setFiber g).live.map Fiber.id).Nodup := by
  rw [ids_setFiber]
  exact hids

/-- Whoever is left when a fiber has ended was there before, and stands where it stood. -/
theorem forall_ended {P : Fiber → Prop} (hP : ∀ f, P f → P (woken f)) (hall : ∀ x ∈ s.live, P x) :
    ∀ x ∈ (({ s with stage := stage }.setFiber g).deliver.finish g).live, P x := by
  have hcalled := called_deliver ({ s with stage := stage }.setFiber g) (nodup_setFiber hids)
  have hothers : ∀ x ∈ ({ s with stage := stage }.setFiber g).deliver.live, x.id ≠ g.id → P x := by
    refine hcalled.forall_live (nodup_setFiber hids) (fun x h hne => hP x (h hne)) fun x hx hne => ?_
    rcases mem_setFiber hx with rfl | ⟨hx, -⟩
    · exact absurd rfl hne
    · exact hall x hx
  intro x hx
  obtain ⟨hx, hne⟩ := List.mem_filter.mp hx
  exact hothers x hx (by simpa using hne)

include hf hid

theorem claims_ended : (({ s with stage := stage }.setFiber g).deliver.finish g).Claims w k ↔
    w ≠ f.id ∧ s.Claims w k := by
  have hcalled := called_deliver ({ s with stage := stage }.setFiber g) (nodup_setFiber hids)
  have hset : ({ s with stage := stage }.setFiber g).emptied.Claims w k ↔
      (w ≠ f.id ∧ s.Claims w k) ∨ w = g.id ∧ g.Claims s.machine k := claims_setFiber hf hid
  rw [claims_finish, hcalled.claims_iff (nodup_setFiber hids), hset, hid]
  constructor
  · rintro ⟨hne, hother | ⟨hw, -⟩⟩
    · exact hother
    · exact absurd hw hne
  · intro hother
    exact ⟨hother.1, .inl hother⟩

theorem Waits.ended (hs : s.Waits) (hle : s.stage.handles.lastId ≤ stage.handles.lastId)
    (hg : stage.handles.lastId < 2 ^ 53 →
      stage.handles.Balanced (fun w k => w ≠ f.id ∧ s.Claims w k) stage.host.queued) :
    (({ s with stage := stage }.setFiber g).deliver.finish g).Waits := by
  have hcalled := called_deliver ({ s with stage := stage }.setFiber g) (nodup_setFiber hids)
  have hmachine : (({ s with stage := stage }.setFiber g).deliver.finish g).machine = s.machine :=
    hcalled.machine
  have hlast := (evolves_finish ({ s with stage := stage }.setFiber g).deliver g).ages.lastId
  rw [hcalled.stage] at hlast
  have hlast : stage.handles.lastId ≤
      (({ s with stage := stage }.setFiber g).deliver.finish g).stage.handles.lastId := hlast
  refine ⟨?_, ?_, ?_, forall_ended hids (fun x h => h) hs.numbers, ?_, fun hsmall => ⟨?_, ?_⟩⟩
  · rw [hmachine]
    exact hs.program
  · rw [hmachine]
    exact hs.services
  · have hinbox : (({ s with stage := stage }.setFiber g).deliver.finish g).inbox = s.inbox :=
      hcalled.inbox
    rw [hinbox]
    exact hs.inbox
  · rw [hmachine]
    exact forall_ended hids (fun x h => h.congr rfl rfl rfl) hs.orderly
  · have hdelivered : ({ s with stage := stage }.setFiber g).deliver.stage.handles.Balanced
        (fun w k => w ≠ f.id ∧ s.Claims w k) stage.host.queued := by
      rw [hcalled.stage]
      exact (hg (by omega)).of_eq rfl rfl (.refl _)
    have hfinished := balanced_finish hdelivered (g := g) fun k hk => hk.1 hid
    refine (hfinished.congr fun w k => (claims_ended hids hf hid).symm).of_eq rfl rfl (.of_eq ?_)
    have hhost : (({ s with stage := stage }.setFiber g).deliver.finish g).stage.host =
        stage.host.ended g.cleared := by
      simp only [Scheduler.finish]
      rw [hcalled.stage]
      rfl
    rw [hhost, Mind.queued, Mind.timers_ended, Mind.queued]
  · rw [hmachine]
    refine forall_ended hids (fun x hx => ?_) (hs.few (by omega)).stands
    exact hx.imp (fun h => h.congr rfl) fun h => h.imp fun k hk => hk.congr rfl rfl rfl

end

theorem Waits.runFiber (hs : s.Waits) (hids : (s.live.map Fiber.id).Nodup) (hf : f ∈ s.live)
    (hstate : f.state = .runnable) (h : s.runFiber f = .ok s') : s'.Waits := by
  obtain ⟨status, g, stage, hrun⟩ := ran_of_runFiber h
  have hid := (run_stops (hs.services.polite.keeps f.id) hstate hrun).id_eq
  obtain ⟨as, has⟩ := uses_of_run hs.services.polite hstate hrun
  have hran := (carries_tidy hs.program hs.services (hs.numbers f hf) (fun _ h => h.1 rfl)).run hstate
    (hs.runs hids hf) hrun
  have hstays (hstatus : ¬ (status = .done ∨ status = .fault)) :
      ({ s with stage := stage }.setFiber g).deliver.Waits :=
    (hs.comesBack hf has.ages.lastId (hran.stopped hstatus)).deliver (nodup_setFiber hids)
  obtain ⟨hover, rfl⟩ | ⟨hshort, rfl⟩ | ⟨rfl, rfl⟩ := runFiber_eq_ok hrun h
  · exact Waits.ended hids hf hid hs has.ages.lastId (hran.ended hover)
  · have hback := hstays (by rcases hshort with rfl | rfl <;> simp)
    exact hback.arrange hback.inbox _ _
  · exact hstays (by simp)

theorem upheld_waits : Upheld Stage.Leaves fun s : Scheduler (Mind W) => s.Steady ∧ s.Waits where
  inbox hs := hs.2.inbox
  mail hs hwithin := by
    refine ⟨(Step.mail fun e he => ?_).steady hs.1, hs.2.arrange hwithin _ _⟩
    exact (hwithin e he).polite Stage.Leaves.serves
  work hs h := by
    obtain ⟨as, has⟩ := h.serves
    exact ⟨(Step.work has).steady hs.1, (hs.2.leaves h).deliver hs.1.sound.ids⟩
  merge hs := ⟨Step.merge.steady hs.1, hs.2.arrange hs.2.inbox _ _⟩
  skip hs hqueue hidle := ⟨(Step.skip hqueue hidle).steady hs.1, hs.2.arrange hs.2.inbox _ _⟩
  run := by
    intro s s' f rest hs hqueue hf hstate h
    obtain ⟨status, g, stage, hran⟩ := ran_of_runFiber h
    obtain ⟨as, has⟩ := hs.1.sound.uses hstate hran
    have hstep : s.Step (.run f.id) as s' := .run hqueue hf hstate hran has h
    exact ⟨hstep.steady hs.1, (hs.2.arrange hs.2.inbox rest s.next).runFiber hs.1.sound.ids hf hstate h⟩

/-! ## Ending -/

theorem claimed_cancelFiber {Owns : Nat → Nat → Prop} {queue : List Nat}
    (hs : s.stage.handles.Claimed Owns queue) (f : Fiber) :
    (s.cancelFiber f).stage.handles.Claimed
      (fun w k => w = 0 ∨ Owns w k ∧ (w = f.id → k ∉ f.handles)) queue := by
  have hleft : (if f.awaiting = 0 then s.stage.handles
      else s.stage.handles.update f.awaiting fun h => h.removeWaiter f.id).Claimed Owns queue := by
    split
    · exact hs
    · exact hs.removeWaiter f.awaiting f.id
  exact hleft.release f.id f.handles

theorem claimed_cancelFibers (fibers : List Fiber) {Owns : Nat → Nat → Prop} {queue : List Nat}
    (hs : s.stage.handles.Claimed Owns queue) :
    (fibers.foldl Scheduler.cancelFiber s).stage.handles.Claimed
      (fun w k => w = 0 ∨ Owns w k ∧ ∀ f ∈ fibers, w = f.id → k ∉ f.handles) queue := by
  induction fibers generalizing s Owns with
  | nil => exact hs.mono fun _ _ hown => .inr ⟨hown, by simp⟩
  | cons f fibers ih =>
    refine (ih (claimed_cancelFiber hs f)).mono ?_
    rintro w k (hzero | ⟨hzero | ⟨hown, hfirst⟩, hrest⟩)
    · exact .inl hzero
    · exact .inl hzero
    · exact .inr ⟨hown, List.forall_mem_cons.mpr ⟨hfirst, hrest⟩⟩

theorem lastId_cancelAll : s.cancelAll.stage.handles.lastId = s.stage.handles.lastId := by
  have hfibers (fibers : List Fiber) (s : Scheduler (Mind W)) :
      (fibers.foldl Scheduler.cancelFiber s).stage.handles.lastId = s.stage.handles.lastId := by
    induction fibers generalizing s with
    | nil => rfl
    | cons f fibers ih =>
      rw [List.foldl_cons, ih]
      refine (HandleTable.lastId_release f.id f.handles).trans ?_
      split <;> rfl
  exact hfibers s.live s

/-- After all fibers have ended, the handles that are left are nobody's. -/
theorem claimed_cancelAll (hs : s.Balances) :
    s.cancelAll.stage.handles.Claimed (fun w _ => w = 0) s.stage.host.queued := by
  refine (claimed_cancelFibers s.live hs.table.toClaimed).mono ?_
  rintro w k (hzero | ⟨⟨f, hf, rfl, hk⟩, hnone⟩)
  · exact hzero
  · exact absurd hk.created (hnone f hf rfl)

end

end Scheduler

/-! ## Timers -/

section

variable {Owns : Nat → Nat → Prop} {rest : List Nat}

theorem balanced_resolve (handles : List Nat) {s : Stage (Mind W)}
    (hs : s.handles.Balanced Owns (handles ++ rest)) :
    (handles.foldl (fun (s : Stage (Mind W)) (h : Nat) => s.resolve h .void) s).handles.Balanced Owns
        rest ∧
      (handles.foldl (fun (s : Stage (Mind W)) (h : Nat) => s.resolve h .void) s).handles.lastId =
        s.handles.lastId := by
  induction handles generalizing s with
  | nil => exact ⟨hs, rfl⟩
  | cons h handles ih =>
    obtain ⟨u, hu, hbalanced, hlast⟩ := HandleTable.Balanced.answer hs (.resolved .void)
    have hresolve : s.resolve h .void = { s with handles := u } := by
      have hu : s.handles.resolve h .void = .ok u := hu
      simp only [Stage.resolve, hu]
    rw [List.foldl_cons, hresolve, ← hlast]
    exact ih hbalanced

/-- Handles that are nobody's are completed, and gone. -/
theorem claimed_cancel (handles : List Nat) {s : Stage (Mind W)}
    (hs : s.handles.Claimed (fun w _ => w = 0) handles) :
    (handles.foldl
      (fun (s : Stage (Mind W)) (h : Nat) =>
        match s.cancel h with
        | .ok s => s
        | .error _ => s) s).handles.handles = [] := by
  induction handles generalizing s with
  | nil => exact hs.handles_eq_nil
  | cons h handles ih =>
    let fault := s.newFault (cancelledHandle h)
    obtain ⟨u, hu, hclaimed, -⟩ := hs.answer (.cancelled fault.1)
    have hcancel : s.cancel h = .ok { fault.2 with handles := u } := by
      have hu : fault.2.handles.cancel h fault.1 = .ok u := hu
      simp only [Stage.cancel]
      rw [hu]
      rfl
    rw [List.foldl_cons]
    refine ih ?_
    rw [hcancel]
    exact hclaimed

end

/-! ## Brains -/

namespace Brain

variable {b b' : Brain W} {s : Scheduler (Mind W)}

def IsClear (b : Brain W) : Prop :=
  b.scheduler.stage.handles.handles = [] ∧ b.mind.timers.timers = []

/-- A brain whose only slow tile is `wait`. -/
structure Waits (b : Brain W) : Prop where
  steady : b.scheduler.Steady
  waits : b.scheduler.Waits

theorem Waits.setMind (hb : b.Waits) {m : Mind W} (h : m.timers = b.mind.timers) : (b.setMind m).Waits :=
  ⟨hb.steady.setStage rfl, hb.waits.leaves ⟨rfl, h⟩⟩

/-- Timers that are due are taken from the queue, and their handles completed. -/
theorem Waits.fireTimers (hb : b.Waits) : b.fireTimers.Waits ∧
    (b.scheduler.stage.handles.lastId < 2 ^ 53 →
      b.fireTimers.scheduler.stage.handles.lastId < 2 ^ 53) := by
  have hdue : (b.mind.timers.due b.mind.clock.elapsed).1 ++
      (b.mind.timers.due b.mind.clock.elapsed).2.timers.map Timer.handle = b.mind.queued := by
    rw [TimerQueue.due, ← List.map_append, List.takeWhile_append_dropWhile]
    rfl
  let mind : Mind W := { b.mind with timers := (b.mind.timers.due b.mind.clock.elapsed).2 }
  let stage := (b.mind.timers.due b.mind.clock.elapsed).1.foldl
    (fun (s : Stage (Mind W)) (h : Nat) => s.resolve h .void) (b.setMind mind).scheduler.stage
  have hhost : stage.host = mind := foldl_host (fun s (h : Nat) => s.resolve_host h .void) _ _
  obtain ⟨as, has⟩ : b.scheduler.stage.Serves stage :=
    serves_foldl (fun s (h : Nat) => Scheduler.serves_resolve s h .void) _ (b.setMind mind).scheduler.stage
  have hfired (hbalanced : b.scheduler.stage.handles.Balanced b.scheduler.Claims b.mind.queued) :
      stage.handles.Balanced b.scheduler.Claims mind.queued ∧
        stage.handles.lastId = b.scheduler.stage.handles.lastId :=
    balanced_resolve _ (s := (b.setMind mind).scheduler.stage) (hbalanced.of_eq rfl rfl (.of_eq hdue))
  have hwaits : { b.scheduler with stage := stage }.Waits :=
    hb.waits.setStage has.ages.lastId fun hbalanced => hhost ▸ (hfired hbalanced).1
  refine ⟨⟨hb.steady.work has, hwaits.deliver hb.steady.sound.ids⟩, fun hsmall => ?_⟩
  have hcalled := Scheduler.called_deliver { b.scheduler with stage := stage } hb.steady.sound.ids
  change { b.scheduler with stage := stage }.deliver.stage.handles.lastId < 2 ^ 53
  rw [hcalled.stage]
  exact (hfired (hb.waits.few hsmall).table).2.trans_lt hsmall

/-- A brain whose fibers have all ended. What they waited for is left. -/
structure Deserted (b : Brain W) : Prop where
  steady : b.scheduler.Steady
  program : CoupledProgram b.scheduler.machine.program
  services : b.scheduler.machine.services.OnlyWaits
  inbox : ∀ e ∈ b.scheduler.inbox, e.Within Stage.Leaves
  live : b.scheduler.live = []
  few : b.scheduler.stage.handles.lastId < 2 ^ 53 →
    b.scheduler.stage.handles.Claimed (fun w _ => w = 0) b.mind.queued

theorem Waits.cancelAll (hb : b.Waits) (fibers : Cells Nat) :
    { b.cancelAll with fibers := fibers }.Deserted := by
  obtain ⟨hmachine, -, hinbox, hmind⟩ := b.cancelAll_same
  have hlast : b.cancelAll.scheduler.stage.handles.lastId = b.scheduler.stage.handles.lastId :=
    Scheduler.lastId_cancelAll
  refine ⟨hb.steady.cancelAll, hmachine ▸ hb.waits.program, hmachine ▸ hb.waits.services,
    hinbox ▸ hb.waits.inbox, Scheduler.live_cancelAll _, fun hsmall => ?_⟩
  have hclaimed := Scheduler.claimed_cancelAll (hb.waits.few (hlast ▸ hsmall))
  change b.cancelAll.scheduler.stage.handles.Claimed (fun w _ => w = 0) b.cancelAll.mind.queued
  rw [hmind]
  exact hclaimed

/-- What nobody waits for any more is cancelled, and then nothing is left. -/
theorem Deserted.cancelTimers (hb : b.Deserted) : b.cancelTimers.Waits ∧
    b.scheduler.stage.handles.lastId ≤ b.cancelTimers.scheduler.stage.handles.lastId ∧
    (b.scheduler.stage.handles.lastId < 2 ^ 53 → b.cancelTimers.IsClear) := by
  let mind : Mind W := { b.mind with timers := {} }
  let stage := b.mind.queued.foldl
    (fun (s : Stage (Mind W)) (h : Nat) =>
      match s.cancel h with
      | .ok s => s
      | .error _ => s)
    (b.setMind mind).scheduler.stage
  have hhost : stage.host = mind := foldl_host (fun s (h : Nat) => cancelled_host s h) _ _
  obtain ⟨as, has⟩ : b.scheduler.stage.Serves stage :=
    serves_foldl (fun s (h : Nat) => serves_cancelled s h) _ (b.setMind mind).scheduler.stage
  have hcalled := Scheduler.called_deliver { b.scheduler with stage := stage } hb.steady.sound.ids
  have hdelivered : b.cancelTimers.scheduler.stage =
      { stage with handles := { stage.handles with outbox := [] } } := hcalled.stage
  have hle : b.scheduler.stage.handles.lastId ≤ b.cancelTimers.scheduler.stage.handles.lastId := by
    rw [hdelivered]
    exact has.ages.lastId
  have hlive : b.cancelTimers.scheduler.live = [] := by
    have hids := hcalled.ids
    rw [Scheduler.emptied, hb.live] at hids
    exact List.map_eq_nil_iff.mp hids
  have hqueued : b.cancelTimers.scheduler.stage.host.queued = [] := by
    rw [hdelivered]
    exact congrArg Mind.queued hhost
  have hempty (hsmall : b.scheduler.stage.handles.lastId < 2 ^ 53) :
      b.cancelTimers.scheduler.stage.handles.handles = [] := by
    rw [hdelivered]
    exact claimed_cancel _ (s := (b.setMind mind).scheduler.stage) (hb.few hsmall)
  have hmachine : b.cancelTimers.scheduler.machine = b.scheduler.machine := hcalled.machine
  have hinbox : b.cancelTimers.scheduler.inbox = b.scheduler.inbox := hcalled.inbox
  refine ⟨⟨hb.steady.work has, Scheduler.waits_of_empty (hmachine ▸ hb.program)
    (hmachine ▸ hb.services) (hinbox ▸ hb.inbox) hlive
    (fun hsmall => hempty (hle.trans_lt hsmall)) hqueued⟩, hle,
    fun hsmall => ⟨hempty hsmall, List.map_eq_nil_iff.mp hqueued⟩⟩

/-- All fibers have ended, and what they waited for is cancelled. -/
theorem Waits.cancelled (hb : b.Waits) (fibers : Cells Nat) :
    { b.cancelAll with fibers := fibers }.cancelTimers.Waits ∧
      b.scheduler.stage.handles.lastId ≤
        { b.cancelAll with fibers := fibers }.cancelTimers.scheduler.stage.handles.lastId ∧
      (b.scheduler.stage.handles.lastId < 2 ^ 53 →
        { b.cancelAll with fibers := fibers }.cancelTimers.IsClear) := by
  have hlast : b.cancelAll.scheduler.stage.handles.lastId = b.scheduler.stage.handles.lastId :=
    Scheduler.lastId_cancelAll
  rw [← hlast]
  exact (hb.cancelAll fibers).cancelTimers

theorem Waits.cleared (hb : b.Waits) : b.cleared.Waits ∧
    (b.scheduler.stage.handles.lastId < 2 ^ 53 → b.cleared.IsClear) := by
  have hnone : (b.setMind { b.mind with pending := none }).Waits := hb.setMind rfl
  obtain ⟨hwaits, -, hclear⟩ := hnone.cancelled {}
  exact ⟨hwaits, hclear⟩

theorem keeps_waits : Keeps (fun b : Brain W => b.Waits ∧ b.isStopped = false) fun _ => True where
  clock _ hb := ⟨hb.1.setMind rfl, hb.2⟩
  fire hb := ⟨hb.1.fireTimers.1, hb.2⟩
  waits _ _ := trivial
  clear hb := ⟨hb.1.cleared.1, hb.2⟩
  turn hb _ := ⟨hb.1.setMind rfl, hb.2⟩
  enter {b} site hb := by
    obtain hsame | ⟨f, hook, hf, hhook, hentered⟩ := b.enterSite_cases site
    · rwa [hsame]
    · rw [hentered]
      have hleaves := (hb.1.waits.services.functions f (Functions.mem_of_get? hf)).onPage hhook
        { program := b.program, func := -1, site := site.site } b.scheduler.stage
      have hworks := Scheduler.upheld_waits.work ⟨hb.1.steady, hb.1.waits⟩ hleaves
      exact ⟨⟨hworks.1, hworks.2⟩, hb.2⟩
  spawn hb hspawn := ⟨⟨hb.1.steady.spawn hspawn, hb.1.waits.spawn hspawn⟩, hb.2⟩
  fault heap path ref hb := by
    exact ⟨⟨hb.1.steady.setStage rfl, hb.1.waits.leaves ⟨rfl, rfl⟩⟩, hb.2⟩
  tick hb htick := by
    obtain ⟨hsteady, hwaits⟩ := Scheduler.upheld_waits.tick ⟨hb.1.steady, hb.1.waits⟩ htick
    exact ⟨⟨hsteady, hwaits⟩, hb.2⟩

/-! ## Requests -/

def Request.OnlyWaits : Request W → Prop
  | .ask (.operate _) => False
  | .ask _ => True
  | .reload q svc => q.Compiled ∧ (∀ fn ∈ q.functions, fn.code.size < 2 ^ 32) ∧
      ∀ svc' ∈ svc, svc'.OnlyWaits

/-- What holds in between two requests. Once a brain is stopped it stays clear. -/
structure Settled (b : Brain W) : Prop extends b.Waits where
  stopped : b.isStopped = true → b.scheduler.stage.handles.lastId < 2 ^ 53 → b.IsClear

theorem Settled.setMind (hb : b.Settled) {m : Mind W} (h : m.timers = b.mind.timers) :
    (b.setMind m).Settled := by
  refine ⟨hb.toWaits.setMind h, fun hstopped hsmall => ?_⟩
  obtain ⟨hhandles, htimers⟩ := hb.stopped hstopped hsmall
  exact ⟨hhandles, (congrArg TimerQueue.timers h).trans htimers⟩

theorem Settled.stop (hb : b.Settled) :
    b.stop.Settled ∧ (b.scheduler.stage.handles.lastId < 2 ^ 53 → b.stop.IsClear) := by
  unfold Brain.stop
  split
  · rename_i hstopped
    exact ⟨hb, hb.stopped hstopped⟩
  · obtain ⟨hwaits, hle, hclear⟩ := hb.toWaits.cancelled b.cancelAll.fibers
    exact ⟨⟨⟨hwaits.steady, hwaits.waits⟩, fun _ hsmall => hclear (hle.trans_lt hsmall)⟩, hclear⟩

theorem waits_create {q : Program} (hq : CoupledProgram q) {svc : Services (Stage (Mind W))}
    (hsvc : svc.OnlyWaits) (limits : Limits) (heap : Heap) {m : Mind W} (hm : m.timers = {}) :
    (Scheduler.create q svc limits heap m).Steady ∧ (Scheduler.create q svc limits heap m).Waits := by
  have hload : (Machine.load q svc limits heap).1.services.OnlyWaits := hsvc
  refine ⟨steady_create q svc limits heap m hload.polite, Scheduler.waits_of_empty hq hsvc
    (fun e he => absurd he List.not_mem_nil) rfl (fun _ => rfl) ?_⟩
  change m.timers.timers.map Timer.handle = []
  rw [hm]
  rfl

theorem Settled.reloaded (hb : b.Settled) {q : Program} (hq : CoupledProgram q)
    {svc : Option (Services (Stage (Mind W)))} (hsvc : ∀ svc' ∈ svc, svc'.OnlyWaits)
    (values : List (String × Value)) : (b.reloaded q svc values).Settled := by
  have hwaits : (svc.getD b.services).OnlyWaits := by
    cases svc with
    | none => exact hb.waits.services
    | some svc' => exact hsvc svc' rfl
  obtain ⟨hsame, -, -⟩ := restore_eq (W := W)
    { program := q, rules := Mind.rulesOf q, clock := b.mind.clock, faults := b.mind.faults,
      world := b.mind.world } values
  have htimers : (restore (W := W)
      { program := q, rules := Mind.rulesOf q, clock := b.mind.clock, faults := b.mind.faults,
        world := b.mind.world } values).timers = {} := by
    rw [hsame]
  obtain ⟨hsteady, hsched⟩ := waits_create hq hwaits b.limits b.cancelAll.heap
    (m := { restore (W := W)
      { program := q, rules := Mind.rulesOf q, clock := b.mind.clock, faults := b.mind.faults,
        world := b.mind.world } values with active := b.landing q }.setPending (b.landing q)) htimers
  exact ⟨⟨hsteady, hsched⟩, fun h => by cases h⟩

theorem Settled.think (hb : b.Settled) (dt : Int) (h : b.think dt = .ok b') : b'.Settled := by
  cases hstopped : b.isStopped with
  | true =>
    simp [Brain.think, hstopped] at h
  | false =>
    obtain hthink | ⟨b₁, hthink, hb₁⟩ | ⟨index, hthink, -⟩ | ⟨b₁, c, -, -, -, hthink⟩ :=
      keeps_waits.think ⟨hb.toWaits, hstopped⟩ dt
    · rw [hthink] at h
      cases h
    · rw [hthink] at h
      cases h
      exact ⟨hb₁.1, fun hover => by rw [hb₁.2] at hover; cases hover⟩
    · rw [hthink] at h
      cases h
    · rw [hthink] at h
      cases h

theorem Settled.requestPage (hb : b.Settled) {key : String} (h : b.requestPage key = .ok b') :
    b'.Settled := by
  rw [requestPage_eq] at h
  split at h
  · cases h
    exact hb.setMind rfl
  · cases h

theorem Settled.setVariable (hb : b.Settled) {name : String} {v : Value}
    (h : b.setVariable name v = .ok b') : b'.Settled := by
  unfold Brain.setVariable at h
  split at h
  · rename_i m hm
    cases h
    obtain ⟨i, -, rfl⟩ := Option.map_eq_some_iff.mp hm
    exact hb.setMind rfl
  · cases h

theorem Settled.request (hb : b.Settled) {r : Request W} (hr : r.OnlyWaits)
    (h : r.perform b = .ok b') : b'.Settled := by
  cases r with
  | reload q svc =>
    obtain ⟨hq, hsize, hsvc⟩ := hr
    have hcoupled : CoupledProgram q := by
      obtain ⟨σ, env, d, diags, hcompile⟩ := hq
      exact coupledProgram_of_compile hcompile hsize
    obtain rfl | hreload := Request.perform_reload h
    · exact hb
    · rw [b.reload_eq hq.check svc] at hreload
      split at hreload
      · cases hreload
      · split at hreload
        · cases hreload
        · cases hreload
          exact hb.reloaded hcoupled hsvc _
  | ask c =>
    cases c with
    | think dt =>
      simp only [Request.perform, Command.perform] at h
      split at h
      · rename_i hthink
        cases h
        exact hb.think dt hthink
      · cases h
        exact hb
      · cases h
    | requestPage key =>
      simp only [Request.perform, Command.perform] at h
      split at h
      · rename_i hpage
        cases h
        exact hb.requestPage hpage
      · cases h
        exact hb
    | setVariable name v =>
      simp only [Request.perform, Command.perform] at h
      split at h
      · rename_i hset
        cases h
        exact hb.setVariable hset
      · cases h
        exact hb
    | stop =>
      cases h
      exact hb.stop.1
    | operate op => exact hr.elim

theorem Settled.requests (hb : b.Settled) {rs : List (Request W)} (hrs : ∀ r ∈ rs, r.OnlyWaits)
    (h : Request.performAll rs b = .ok b') : b'.Settled := by
  induction rs generalizing b with
  | nil =>
    cases h
    exact hb
  | cons r rs ih =>
    obtain ⟨hr, hrs⟩ := List.forall_mem_cons.mp hrs
    rw [Request.performAll] at h
    split at h
    · rename_i hfirst
      exact ih (hb.request hr hfirst) hrs h
    · cases h

theorem settled_create {p : Program} (hp : CoupledProgram p) {svc : Services (Stage (Mind W))}
    (hsvc : svc.OnlyWaits) {limits : Limits} {heap : Heap} {world : W}
    (h : create p svc limits heap world = .ok b) : b.Settled := by
  unfold create at h
  split at h
  · cases h
  · cases h
    let m : Mind W := { program := p, rules := Mind.rulesOf p, active := p.entry, world := world }
    obtain ⟨hsteady, hwaits⟩ := waits_create hp hsvc limits heap (m := m.setPending p.entry) rfl
    exact ⟨⟨hsteady, hwaits⟩, fun h => by cases h⟩

theorem Waits.claims (hb : b.Waits) (hsmall : b.scheduler.stage.handles.lastId < 2 ^ 53) {x : Handle}
    (hx : x ∈ b.scheduler.stage.handles.handles) :
    ∃ f ∈ b.scheduler.live, x.owner = f.id ∧ f.Claims b.scheduler.machine x.id := by
  obtain ⟨w, hw, ⟨f, hf, rfl, hk⟩, -⟩ := ((hb.waits.few hsmall).table.each x hx).owned
  exact ⟨f, hf, hw, hk⟩

theorem Waits.one_handle (hb : b.Waits) (hsmall : b.scheduler.stage.handles.lastId < 2 ^ 53) {f : Fiber}
    (hf : f ∈ b.scheduler.live) :
    (b.scheduler.stage.handles.handles.filter fun x => x.owner = (f.id : Int)).length ≤ 1 := by
  have hids := (hb.waits.few hsmall).table.ids
  have hnodup := (List.Nodup.of_map Handle.id hids).filter fun x => decide (x.owner = (f.id : Int))
  have hclaims : ∀ x ∈ b.scheduler.stage.handles.handles.filter fun x => x.owner = (f.id : Int),
      x ∈ b.scheduler.stage.handles.handles ∧ f.Claims b.scheduler.machine x.id := by
    intro x hx
    obtain ⟨hmem, howner⟩ := List.mem_filter.mp hx
    obtain ⟨g, hg, hid, hk⟩ := hb.claims hsmall hmem
    have howner : x.owner = f.id := by simpa using howner
    obtain rfl := Scheduler.eq_of_id_eq hb.steady.sound.ids hg hf (by omega)
    exact ⟨hmem, hk⟩
  generalize b.scheduler.stage.handles.handles.filter (fun x => x.owner = (f.id : Int)) = own
    at hnodup hclaims ⊢
  rcases own with - | ⟨x, - | ⟨y, own⟩⟩
  · exact Nat.zero_le 1
  · exact Nat.le_refl 1
  · obtain ⟨hx, hfx⟩ := hclaims x (by simp)
    obtain ⟨hy, hfy⟩ := hclaims y (by simp)
    obtain rfl : x = y := List.inj_on_of_nodup_map hids hx hy (hfx.unique hfy)
    simp at hnodup

end Brain

/-- Whatever is asked of a brain for compiled programs whose only slow tile is `wait`: a live fiber has at
most one handle, every handle is the one of a live fiber, and there is a timer for each handle that is
pending and for no other. When the brain turns to a page, nothing is left of the one before, and
when it is stopped nothing is left at all. A handle's number is kept as a floating-point number, so
there must not be too many. -/
theorem wait_handles_reclaimed {σ : Type} {env : CompileEnv σ} {d : BrainDef} {p : Program}
    {diags : Diagnostics} (hcompile : compile env d = .ok (p, diags))
    (hsize : ∀ fn ∈ p.functions, fn.code.size < 2 ^ 32) {svc : Services (Stage (Mind W))}
    (hsvc : svc.OnlyWaits) {limits : Limits} {heap : Heap} {world : W} {b b' : Brain W}
    (hcreate : Brain.create p svc limits heap world = .ok b) {rs : List (Brain.Request W)}
    (hrs : ∀ r ∈ rs, r.OnlyWaits) (h : Brain.Request.performAll rs b = .ok b')
    (hfew : b'.scheduler.stage.handles.lastId < 2 ^ 53) :
    (∀ f ∈ b'.scheduler.live,
      (b'.scheduler.stage.handles.handles.filter fun x => x.owner = (f.id : Int)).length ≤ 1) ∧
    (∀ x ∈ b'.scheduler.stage.handles.handles, ∃ f ∈ b'.scheduler.live, x.owner = f.id) ∧
    (∀ x ∈ b'.scheduler.stage.handles.handles, x.isDone = false →
      (b'.mind.timers.timers.map Timer.handle).count x.id = 1) ∧
    (∀ t ∈ b'.mind.timers.timers, ∃ x ∈ b'.scheduler.stage.handles.handles,
      x.id = t.handle ∧ x.isDone = false) ∧
    (∀ dt,
      (b'.setMind { b'.mind with clock := Brain.advance b'.mind.clock dt }).fireTimers.cleared.IsClear) ∧
    b'.stop.IsClear ∧ (b'.isStopped = true → b'.IsClear) := by
  have hb := (Brain.settled_create (coupledProgram_of_compile hcompile hsize) hsvc hcreate).requests hrs h
  have hqueued := (hb.waits.few hfew).table.queued
  refine ⟨fun f hf => hb.one_handle hfew hf, fun x hx => ?_, fun x hx hpending => ?_, fun t ht => ?_,
    fun dt => ?_, hb.stop.2 hfew, fun hstopped => hb.stopped hstopped hfew⟩
  · obtain ⟨f, hf, howner, -⟩ := hb.claims hfew hx
    exact ⟨f, hf, howner⟩
  · exact List.count_eq_one_of_mem hqueued.nodup ((hqueued.mem_iff x.id).mpr ⟨x, hx, rfl, hpending⟩)
  · exact (hqueued.mem_iff t.handle).mp (List.mem_map_of_mem ht)
  · have hclock := hb.toWaits.setMind (m := { b'.mind with clock := Brain.advance b'.mind.clock dt }) rfl
    obtain ⟨hfired, hsmall⟩ := hclock.fireTimers
    exact hfired.cleared.2 (hsmall hfew)

/-- Two rules that wait for different times, and a third on another page. -/
def sleepingBrain : BrainDef :=
  { pages := [{ id := "day", rules := [{ doRow := "wait 2" }, { doRow := "wait 1" }] },
      { id := "night", rules := [{ doRow := "wait 3" }] }] }

/-- A wait ends, pages are turned while others go on, and the program is exchanged. -/
def sleepingRequests (p : Program) : List (Brain.Request Unit) :=
  [.ask (.think 0), .ask (.think 1000000000), .ask (.requestPage "night"), .ask (.think 0),
    .reload p none, .ask (.requestPage "day"), .ask (.think 0)]

theorem onlyWaits_shadowingEnv : shadowingEnv.services.OnlyWaits :=
  services_shadowingEnv Core.onlyWaits_services fun hinstall =>
    Builtins.onlyWaits_install Core.onlyWaits_services hinstall

theorem wait_handles_reclaimed_sleeping :
    ∃ p diags b b', compile shadowingEnv sleepingBrain = .ok (p, diags) ∧
      Brain.create p shadowingEnv.services {} {} () = .ok b ∧
      Brain.Request.performAll (sleepingRequests p) b = .ok b' ∧
      b'.scheduler.stage.handles.handles.map Handle.id = [1, 2] ∧
      b'.mind.timers.timers.map Timer.handle = [2, 1] ∧
      (∀ x ∈ b'.scheduler.stage.handles.handles, ∃ f ∈ b'.scheduler.live, x.owner = f.id) ∧
      b'.stop.IsClear := by
  have hran : (compile shadowingEnv sleepingBrain).toOption.any (fun r =>
      decide (∀ fn ∈ r.1.functions, fn.code.size < 2 ^ 32) &&
        (Brain.create r.1 shadowingEnv.services {} {} ()).toOption.any fun b =>
          (Brain.Request.performAll (sleepingRequests r.1) b).toOption.any fun b' =>
            decide (b'.scheduler.stage.handles.lastId = 2) &&
              (decide (b'.scheduler.stage.handles.handles.map Handle.id = [1, 2]) &&
                decide (b'.mind.timers.timers.map Timer.handle = [2, 1]))) = true := by
    decide +kernel
  obtain ⟨⟨p, diags⟩, hp, hran⟩ := exists_of_any_toOption hran
  obtain ⟨hsize, hran⟩ := Bool.and_eq_true_iff.mp hran
  obtain ⟨b, hb, hran⟩ := exists_of_any_toOption hran
  obtain ⟨b', hb', hran⟩ := exists_of_any_toOption hran
  simp only [Bool.and_eq_true, decide_eq_true_eq] at hsize hran
  obtain ⟨hlast, hhandles, htimers⟩ := hran
  have hrs : ∀ r ∈ sleepingRequests p, r.OnlyWaits := by
    have hcompiled : p.Compiled := ⟨_, _, _, _, hp⟩
    simpa [sleepingRequests, Brain.Request.OnlyWaits, hcompiled] using hsize
  obtain ⟨-, howned, -, -, -, hstop, -⟩ :=
    wait_handles_reclaimed hp hsize onlyWaits_shadowingEnv hb hrs hb' (by rw [hlast]; norm_num)
  exact ⟨p, diags, b, b', hp, hb, hb', hhandles, htimers, howned, hstop⟩

end TileMind
