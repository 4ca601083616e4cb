import TileMind.Bench.Host
import TileMind.Proofs.Machine.Steps
import TileMind.Proofs.Program.Check

/-!
# TileMind.Proofs.Machine.Operations

What can be asked of a scheduler from outside. Every operation, a whole tick among them, is a sequence
of steps, so what steps keep holds after any number of operations.

* `Operation.steps_of_perform`: an operation is made of steps.
* `steady_create`: the invariant holds of a new scheduler.
* `Upheld.tick`: what each step of a tick keeps, the tick keeps.
* `invariant_of_performAll`: the invariant after any operations, spelled out.
-/

namespace TileMind

variable {H : Type}

open HandleTable (Evolves)

/-- An operation on a scheduler. The last one stands for all else that a host does to its stage, such
as to create handles, or values for them. -/
inductive Operation (H : Type) where
  | spawn (func : Int)
  | tick
  | cancel (fiber : Int)
  | cancelAll
  | post (e : Errand (Stage H))
  | resolve (handle : Int) (v : Value)
  | reject (handle : Int) (fault : Option Nat)
  | cancelHandle (handle : Int)
  | act (run : Stage H → Stage H)

namespace Operation

/-- Does an operation; one that is refused changes nothing. -/
def perform [Host H] (s : Scheduler H) : Operation H → Except Crash (Scheduler H)
  | .spawn func =>
    match s.spawn func with
    | .ok (_, s) => .ok s
    | .error _ => .ok s
  | .tick => s.tick
  | .cancel fiber =>
    match s.cancel fiber with
    | .ok s => .ok s
    | .error _ => .ok s
  | .cancelAll => .ok s.cancelAll
  | .post e => .ok (s.post e)
  | .resolve handle v => .ok { s with stage := s.stage.resolve handle v }.deliver
  | .reject handle fault => .ok { s with stage := s.stage.reject handle fault }.deliver
  | .cancelHandle handle =>
    match s.stage.cancel handle with
    | .ok stage => .ok { s with stage := stage }.deliver
    | .error _ => .ok s
  | .act run => .ok { s with stage := run s.stage }.deliver

def performAll [Host H] (ops : List (Operation H)) (s : Scheduler H) : Except Crash (Scheduler H) :=
  ops.foldlM perform s

/-- Host code of the operation keeps to the operations of the handle table. -/
def Polite : Operation H → Prop
  | .post e => e.Polite
  | .act run => ∀ s : Stage H, s.Serves (run s)
  | _ => True

end Operation

/-- An errand that changes the stage within `W`, as does whatever it posts. -/
inductive Errand.Within (W : Stage H → Stage H → Prop) : Errand (Stage H) → Prop where
  | mk {run : Stage H → Stage H × List (Errand (Stage H))} (within : ∀ s : Stage H, W s (run s).1)
      (more : ∀ s, ∀ e ∈ (run s).2, e.Within W) : Errand.Within W (.mk run)

theorem Errand.Within.polite {W : Stage H → Stage H → Prop} (hW : ∀ {s t}, W s t → s.Serves t)
    {e : Errand (Stage H)} (h : e.Within W) : e.Polite := by
  induction h with
  | mk within _ ih => exact .mk (fun s => hW (within s)) ih

namespace Scheduler

section

variable [Host H] {s s' : Scheduler H}

/-! ## Ticks -/

theorem steps_doErrands (errands : List (Errand (Stage H))) (hpolite : ∀ e ∈ errands, e.Polite)
    (hs : s.Steady) : ∃ es, s.Steps es (doErrands errands s) := by
  induction errands generalizing s with
  | nil => exact ⟨[], .refl s⟩
  | cons e errands ih =>
    cases hpolite e List.mem_cons_self with
    | @mk run serves more =>
      obtain ⟨as, has⟩ := serves s.stage
      have hinbox : ∀ e ∈ s.inbox ++ (run s.stage).2, e.Polite := by
        intro x hx
        rcases List.mem_append.mp hx with hx | hx
        · exact hs.sound.inbox x hx
        · exact more s.stage x hx
      have hposts : s.Step .mail [] { s with inbox := s.inbox ++ (run s.stage).2 } := .mail hinbox
      have hworks := Step.work (s := { s with inbox := s.inbox ++ (run s.stage).2 }) has
      have hfirst := hposts.steps.trans hworks.steps
      obtain ⟨es, hrest⟩ := ih (fun x hx => hpolite x (List.mem_cons_of_mem _ hx)) (hfirst.steady hs)
      exact ⟨_, hfirst.trans hrest⟩

theorem steps_drain (rounds : Nat) (hs : s.Steady) (h : drain rounds s = .ok s') :
    ∃ es, s.Steps es s' := by
  induction rounds generalizing s with
  | zero =>
    unfold drain at h
    split at h
    · cases h
      exact ⟨[], .refl _⟩
    · cases h
  | succ rounds ih =>
    unfold drain at h
    split at h
    · cases h
      exact ⟨[], .refl _⟩
    · rename_i id rest hqueue
      have hskip (hidle : ∀ f, s.fiber? id = some f → f.state ≠ .runnable)
          (h : drain rounds { s with queue := rest } = .ok s') : ∃ es, s.Steps es s' := by
        have hfirst : s.Step .skip [] { s with queue := rest } := .skip hqueue hidle
        obtain ⟨es, hrest⟩ := ih (hfirst.steady hs) h
        exact ⟨_, .step hfirst hrest⟩
      dsimp only at h
      split at h
      · rename_i hnone
        refine hskip ?_ h
        intro f hf
        have hnone : s.fiber? id = none := hnone
        rw [hnone] at hf
        cases hf
      · rename_i f hfound
        have hfound : s.fiber? id = some f := hfound
        split at h
        · rename_i hstate
          split at h
          · cases h
          · rename_i s1 hrun
            obtain ⟨hf, hid⟩ := mem_of_fiber? hfound
            obtain ⟨status, g, stage, hran⟩ := ran_of_runFiber hrun
            obtain ⟨as, has⟩ := hs.sound.uses hstate hran
            have hid : f.id = id := by omega
            have hfirst : s.Step (.run f.id) as s1 := .run (hid ▸ hqueue) hf hstate hran has hrun
            obtain ⟨es, hrest⟩ := ih (hfirst.steady hs) h
            exact ⟨_, .step hfirst hrest⟩
        · rename_i hstate
          refine hskip ?_ h
          intro g hg
          rw [hfound] at hg
          cases hg
          exact hstate

theorem steps_tick (hs : s.Steady) (h : s.tick = .ok s') : ∃ es, s.Steps es s' := by
  unfold tick at h
  have hopens : s.Step .mail [] { s with inbox := [] } := .mail (by simp)
  have hs1 := hopens.steady hs
  obtain ⟨es, herrands⟩ := steps_doErrands s.inbox hs.sound.inbox hs1
  have hs2 := herrands.steady hs1
  have hmerges := Step.merge (s := doErrands s.inbox { s with inbox := [] })
  obtain ⟨es', hdrain⟩ := steps_drain _ (hmerges.steady hs2) h
  exact ⟨_, .step hopens (herrands.trans (.step hmerges hdrain))⟩

/-- What each step of a tick keeps, if host code is within `W`. -/
structure Upheld (W : Stage H → Stage H → Prop) (I : Scheduler H → Prop) : Prop where
  inbox : ∀ {s}, I s → ∀ e ∈ s.inbox, e.Within W
  mail : ∀ {s inbox}, I s → (∀ e ∈ inbox, e.Within W) → I { s with inbox := inbox }
  work : ∀ {s stage}, I s → W s.stage stage → I { s with stage := stage }.deliver
  merge : ∀ {s}, I s → I { s with queue := s.queue ++ s.next, next := [] }
  skip : ∀ {s id rest}, I s → s.queue = id :: rest →
    (∀ f, s.fiber? id = some f → f.state ≠ .runnable) → I { s with queue := rest }
  run : ∀ {s s' f rest}, I s → s.queue = f.id :: rest → f ∈ s.live → f.state = .runnable →
    { s with queue := rest }.runFiber f = .ok s' → I s'

theorem Upheld.doErrands {W : Stage H → Stage H → Prop} {I : Scheduler H → Prop} (hI : Upheld W I)
    (errands : List (Errand (Stage H))) (hwithin : ∀ e ∈ errands, e.Within W) (hs : I s) :
    I (doErrands errands s) := by
  induction errands generalizing s with
  | nil => exact hs
  | cons e errands ih =>
    cases hwithin e List.mem_cons_self with
    | @mk run within more =>
      refine ih (fun x hx => hwithin x (List.mem_cons_of_mem _ hx)) ?_
      have hposts : I { s with inbox := s.inbox ++ (run s.stage).2 } := by
        refine hI.mail hs fun x hx => ?_
        rcases List.mem_append.mp hx with hx | hx
        · exact hI.inbox hs x hx
        · exact more s.stage x hx
      exact hI.work hposts (within s.stage)

theorem Upheld.drain {W : Stage H → Stage H → Prop} {I : Scheduler H → Prop} (hI : Upheld W I)
    (rounds : Nat) (hs : I s) (h : drain rounds s = .ok s') : I s' := by
  induction rounds generalizing s with
  | zero =>
    unfold Scheduler.drain at h
    split at h
    · cases h
      exact hs
    · cases h
  | succ rounds ih =>
    unfold Scheduler.drain at h
    split at h
    · cases h
      exact hs
    · rename_i id rest hqueue
      dsimp only at h
      split at h
      · rename_i hnone
        have hnone : s.fiber? id = none := hnone
        exact ih (hI.skip hs hqueue (by simp [hnone])) h
      · rename_i f hfound
        have hfound : s.fiber? id = some f := hfound
        split at h
        · rename_i hstate
          split at h
          · cases h
          · rename_i s1 hrun
            obtain ⟨hf, hid⟩ := mem_of_fiber? hfound
            have hid : id = f.id := by omega
            exact ih (hI.run hs (hid ▸ hqueue) hf hstate hrun) h
        · rename_i hstate
          exact ih (hI.skip hs hqueue (by simpa [hfound] using hstate)) h

theorem Upheld.tick {W : Stage H → Stage H → Prop} {I : Scheduler H → Prop} (hI : Upheld W I)
    (hs : I s) (h : s.tick = .ok s') : I s' := by
  unfold Scheduler.tick at h
  have hopens : I { s with inbox := [] } := hI.mail hs (by simp)
  exact hI.drain _ (hI.merge (hI.doErrands s.inbox (hI.inbox hs) hopens)) h

/-! ## Operations -/

omit [Host H] in
theorem serves_resolve (stage : Stage H) (handle : Int) (v : Value) :
    stage.Serves (stage.resolve handle v) := by
  unfold Stage.resolve
  split
  · rename_i t ht
    exact ⟨_, (HandleTable.Change.answer (a := .resolved v) ht).evolves⟩
  · exact ⟨[], .refl _⟩

omit [Host H] in
theorem serves_reject (stage : Stage H) (handle : Int) (fault : Option Nat) :
    stage.Serves (stage.reject handle fault) := by
  unfold Stage.reject
  split
  · rename_i t ht
    exact ⟨_, (HandleTable.Change.answer (a := .rejected fault) ht).evolves⟩
  · exact ⟨[], .refl _⟩

omit [Host H] in
theorem serves_cancel {stage stage' : Stage H} {handle : Int}
    (h : stage.cancel handle = .ok stage') : stage.Serves stage' := by
  unfold Stage.cancel at h
  dsimp only at h
  rw [Stage.newFault_handles] at h
  cases ht : stage.handles.cancel handle (stage.newFault (cancelledHandle handle)).1 with
  | error e =>
    rw [ht] at h
    cases h
  | ok t =>
    rw [ht] at h
    cases h
    exact ⟨_, (HandleTable.Change.answer (a := .cancelled _) ht).evolves⟩

theorem steps_serves {stage : Stage H} (h : s.stage.Serves stage) :
    ∃ es, s.Steps es { s with stage := stage }.deliver := by
  obtain ⟨as, has⟩ := h
  exact ⟨_, (Step.work has).steps⟩

end

end Scheduler

open Scheduler

section

variable [Host H] {s s' : Scheduler H}

theorem Operation.spawn_of_perform {func : Int} (h : (Operation.spawn func).perform s = .ok s') :
    (∃ id, s.spawn func = .ok (id, s')) ∨ s' = s := by
  unfold perform at h
  dsimp only at h
  split at h
  · rename_i id s1 hspawn
    cases h
    exact .inl ⟨id, hspawn⟩
  · cases h
    exact .inr rfl

theorem Operation.cancel_of_perform {fiber : Int} (h : (Operation.cancel fiber).perform s = .ok s') :
    (∃ f, s.fiber? fiber = some f ∧ s' = s.cancelFiber f) ∨ s' = s := by
  unfold perform Scheduler.cancel at h
  cases hf : s.fiber? fiber with
  | none =>
    simp only [hf] at h
    cases h
    exact .inr rfl
  | some f =>
    simp only [hf] at h
    cases h
    exact .inl ⟨f, rfl, rfl⟩

theorem Operation.cancelHandle_of_perform {handle : Int}
    (h : (Operation.cancelHandle handle).perform s = .ok s') :
    (∃ stage, s.stage.cancel handle = .ok stage ∧ s' = { s with stage := stage }.deliver) ∨ s' = s := by
  unfold perform at h
  dsimp only at h
  split at h
  · rename_i stage hcancel
    cases h
    exact .inl ⟨stage, hcancel, rfl⟩
  · cases h
    exact .inr rfl

/-- Whatever an operation does is done in steps. -/
theorem Operation.steps_of_perform {op : Operation H} (hop : op.Polite) (hs : s.Steady)
    (h : op.perform s = .ok s') : ∃ es, s.Steps es s' := by
  cases op with
  | spawn func =>
    obtain ⟨id, hspawn⟩ | rfl := spawn_of_perform h
    · exact ⟨_, (Step.spawn hspawn).steps⟩
    · exact ⟨[], .refl _⟩
  | tick => exact steps_tick hs h
  | cancel fiber =>
    obtain ⟨f, hf, rfl⟩ | rfl := cancel_of_perform h
    · exact ⟨_, (Step.cancel (mem_of_fiber? hf).1).steps⟩
    · exact ⟨[], .refl _⟩
  | cancelAll =>
    cases h
    exact ⟨_, Step.cancelAll.steps⟩
  | post e =>
    cases h
    refine ⟨_, (Step.mail ?_).steps⟩
    intro x hx
    rcases List.mem_append.mp hx with hx | hx
    · exact hs.sound.inbox x hx
    · obtain rfl := List.mem_singleton.mp hx
      exact hop
  | resolve handle v =>
    cases h
    exact steps_serves (serves_resolve s.stage handle v)
  | reject handle fault =>
    cases h
    exact steps_serves (serves_reject s.stage handle fault)
  | cancelHandle handle =>
    obtain ⟨stage, hcancel, rfl⟩ | rfl := cancelHandle_of_perform h
    · exact steps_serves (serves_cancel hcancel)
    · exact ⟨[], .refl _⟩
  | act run =>
    cases h
    exact steps_serves (hop s.stage)

theorem Operation.performAll_cons_eq_ok {op : Operation H} {ops : List (Operation H)} :
    performAll (op :: ops) s = .ok s' ↔
      ∃ s1, op.perform s = .ok s1 ∧ performAll ops s1 = .ok s' := by
  rw [performAll, List.foldlM_cons]
  constructor
  · intro h
    cases hfirst : op.perform s with
    | error c =>
      rw [hfirst] at h
      cases h
    | ok s1 =>
      rw [hfirst] at h
      exact ⟨s1, rfl, h⟩
  · rintro ⟨s1, hfirst, hrest⟩
    rw [hfirst]
    exact hrest

theorem Operation.steps_of_performAll {ops : List (Operation H)} (hops : ∀ op ∈ ops, op.Polite)
    (hs : s.Steady) (h : performAll ops s = .ok s') : ∃ es, s.Steps es s' := by
  induction ops generalizing s with
  | nil =>
    cases h
    exact ⟨[], .refl _⟩
  | cons op ops ih =>
    obtain ⟨s1, hfirst, hlater⟩ := performAll_cons_eq_ok.mp h
    obtain ⟨es, hsteps⟩ := steps_of_perform (hops op List.mem_cons_self) hs hfirst
    obtain ⟨es', hrest⟩ := ih (fun x hx => hops x (List.mem_cons_of_mem _ hx)) (hsteps.steady hs) hlater
    exact ⟨_, hsteps.trans hrest⟩

/-! ## From the start -/

theorem Limits.orElse_pos {n standard : Int} (hstandard : 0 < standard) :
    0 < Limits.orElse n standard := by
  unfold Limits.orElse
  split <;> omega

theorem Limits.filled_pos (limits : Limits) :
    0 < limits.filled.fibers ∧ 0 < limits.filled.handles ∧ 0 < limits.filled.budget :=
  ⟨orElse_pos (by decide), orElse_pos (by decide), orElse_pos (by decide)⟩

variable (p : Program) (svc : Services (Stage H)) (limits : Limits) (heap : Heap) (host : H)

omit [Host H] in
theorem max_create :
    (Scheduler.create p svc limits heap host).stage.handles.max = limits.filled.handles := by
  have hpos : ¬ limits.filled.handles ≤ 0 := by
    have := limits.filled_pos
    omega
  simp only [Scheduler.create, Machine.load, HandleTable.ofMax]
  exact if_neg hpos

omit [Host H] in
theorem steady_create (hm : (Machine.load p svc limits heap).1.Polite) :
    (Scheduler.create p svc limits heap host).Steady := by
  have hpos := limits.filled_pos
  have hmax := max_create p svc limits heap host
  refine ⟨⟨hm, by simp [Scheduler.create], by simp [Scheduler.create], by simp [Scheduler.create],
    by simp [Scheduler.create], ?_, ⟨?_, ?_, ?_, ?_, ?_⟩, by simp, by simp [Scheduler.create]⟩, rfl⟩
  · exact Int.le_of_lt hpos.1
  · exact List.nodup_nil
  · intro id hid
    cases hid
  · rw [hmax]
    exact Int.le_of_lt hpos.2.1
  · intro k h hk
    cases hk
  · intro c hc
    cases hc

/-- After any operations that run to their end, every live fiber is to be run exactly once, or waits
for a pending handle that lists it exactly once and is not to be run; the ceilings are kept, and
a number that has been handed out and is not in use is never used again. -/
theorem invariant_of_performAll (hm : (Machine.load p svc limits heap).1.Polite)
    {ops : List (Operation H)} (hops : ∀ op ∈ ops, op.Polite) {s : Scheduler H}
    (h : Operation.performAll ops (.create p svc limits heap host) = .ok s) :
    (∀ f ∈ s.live,
      f.state = .runnable ∧ (s.queue ++ s.next).count f.id = 1 ∨
      f.state = .waiting ∧ f.id ∉ s.queue ∧ f.id ∉ s.next ∧
        ∃ handle, s.stage.handles.get? f.awaiting = some handle ∧ handle.state = .pending ∧
          handle.waiters.count f.id = 1) ∧
    (∀ f ∈ s.live, f.state.isTerminal = false) ∧
    (s.live.map Fiber.id).Nodup ∧ (s.stage.handles.handles.map Handle.id).Nodup ∧
    (s.live.length : Int) ≤ limits.filled.fibers ∧
    (s.stage.handles.size : Int) ≤ limits.filled.handles ∧
    (∀ f ∈ s.live, f.id ≤ s.lastId) ∧
    (∀ handle ∈ s.stage.handles.handles, handle.id ≤ s.stage.handles.lastId) ∧
    ∀ (more : List (Operation H)) (s' : Scheduler H), (∀ op ∈ more, op.Polite) →
      Operation.performAll more s = .ok s' →
      s.lastId ≤ s'.lastId ∧ s.stage.handles.lastId ≤ s'.stage.handles.lastId ∧
      (∀ id ≤ s.lastId, s.fiber? id = none → s'.fiber? id = none) ∧
      (∀ id ≤ s.stage.handles.lastId, s.stage.handles.get? id = none →
        s'.stage.handles.get? id = none) := by
  have hstart := steady_create p svc limits heap host hm
  obtain ⟨es, hsteps⟩ := Operation.steps_of_performAll hops hstart h
  have hs := hsteps.steady hstart
  have hages := hsteps.ages hstart
  have htable := hs.sound.table
  have hstands : ∀ f ∈ s.live,
      f.state = .runnable ∧ (s.queue ++ s.next).count f.id = 1 ∨
      f.state = .waiting ∧ f.id ∉ s.queue ∧ f.id ∉ s.next ∧
        ∃ handle, s.stage.handles.get? f.awaiting = some handle ∧ handle.state = .pending ∧
          handle.waiters.count f.id = 1 := by
    intro f hf
    cases hs.stands hf with
    | ready state turns => exact .inl ⟨state, turns⟩
    | waits state turns place listed =>
      obtain ⟨hq, hn⟩ := not_or.mp (mt List.mem_append.mpr (List.count_eq_zero.mp turns))
      obtain ⟨handle, hfound, hmem, hpending⟩ := listed
      refine .inr ⟨state, hq, hn, handle, hfound, by simpa [Handle.isDone] using hpending, ?_⟩
      exact List.count_eq_one_of_mem (htable.waiters _ _ hfound) hmem
    | called _ _ call => cases call
  refine ⟨hstands, ?_, hs.sound.ids, htable.ids, ?_, ?_, hs.sound.bounded, ?_, ?_⟩
  · intro f hf
    rcases hstands f hf with ⟨state, -⟩ | ⟨state, -⟩ <;> rw [state] <;> rfl
  · have hfibers := hs.sound.fibers
    rw [hages.machine] at hfibers
    exact hfibers
  · have hsize := htable.size
    rw [hages.table.max, max_create] at hsize
    exact hsize
  · intro handle hmem
    exact htable.bounded _ (List.mem_map_of_mem hmem)
  · intro more s' hmore h'
    obtain ⟨es', hsteps'⟩ := Operation.steps_of_performAll hmore hs h'
    have hages' := hsteps'.ages hs
    refine ⟨hages'.lastId, hages'.table.lastId, ?_, ?_⟩
    · intro id hle hnone
      rw [fiber?_eq_none_iff] at hnone ⊢
      exact fun hmem => hnone (hages'.ids id hmem hle)
    · intro id hle hnone
      rw [HandleTable.get?_eq_none_iff] at hnone ⊢
      exact fun hmem => hnone (hages'.table.ids id hmem hle)

end

theorem Functions.mem_of_get? {σ : Type} {r : Functions σ} {id : Int} {f : HostFunction σ}
    (h : r.get? id = some f) : f ∈ r.list := by
  unfold get? at h
  split at h
  · cases h
  · exact Array.mem_of_getElem? h

/-- A function that asks for something, waits for the answer and returns it. -/
def askingProgram : Program :=
  { functions := #[{ code := #[.of .hostCallAsync 0, .of .await, .of .ret], maxStack := 1 }] }

/-- Somebody to ask, who takes time to answer. -/
def askingServices : Services (Stage Bench) :=
  { types := { types := [] }
    functions := { list := #[{ name := "ask", async := some fun _ _ _ s => (.ok, s) }] } }

/-- Two fibers ask, and one of them is answered. -/
def askingOps : List (Operation Bench) := [.spawn 0, .spawn 0, .tick, .resolve 1 (.bool true)]

/-- Somebody to ask is all there is. -/
theorem asked_of_get? {fn : Int} {h : HostFunction (Stage Bench)}
    (hfn : askingServices.functions.get? fn = some h) :
    h.sync = none ∧ h.async = some fun _ _ _ s => (.ok, s) := by
  have hmem := Functions.mem_of_get? hfn
  simp only [askingServices, List.mem_toArray, List.mem_singleton] at hmem
  subst hmem
  exact ⟨rfl, rfl⟩

theorem polite_asking : (Machine.load askingProgram askingServices {} {}).1.Polite := by
  refine ⟨?_, ?_, ?_, ?_⟩
  · intro fn h call hfn hcall
    rw [(asked_of_get? hfn).1] at hcall
    cases hcall
  · intro fn h call hfn hcall
    rw [(asked_of_get? hfn).2] at hcall
    cases hcall
    intro c args handle s
    exact ⟨[], .refl _⟩
  · intro type get hget
    cases hget
  · intro type set hset
    cases hset

theorem invariant_of_askingOps :
    ∃ s, Operation.performAll askingOps (.create askingProgram askingServices {} {} {}) = .ok s ∧
      s.live.map Fiber.state = [.runnable, .waiting] ∧ s.queue = [1] ∧
      (∀ f ∈ s.live,
        f.state = .runnable ∧ (s.queue ++ s.next).count f.id = 1 ∨
        f.state = .waiting ∧ f.id ∉ s.queue ∧ f.id ∉ s.next ∧
          ∃ handle, s.stage.handles.get? f.awaiting = some handle ∧ handle.state = .pending ∧
            handle.waiters.count f.id = 1) := by
  have hran : (Operation.performAll askingOps
      (.create askingProgram askingServices {} {} {})).toOption.any (fun s =>
        decide (s.live.map Fiber.state = [.runnable, .waiting]) && decide (s.queue = [1])) = true := by
    decide +kernel
  obtain ⟨s, hs, hran⟩ := exists_of_any_toOption hran
  simp only [Bool.and_eq_true, decide_eq_true_eq] at hran
  have hops : ∀ op ∈ askingOps, op.Polite := by simp [askingOps, Operation.Polite]
  exact ⟨s, hs, hran.1, hran.2,
    (invariant_of_performAll askingProgram askingServices {} {} {} polite_asking hops hs).1⟩

end TileMind
