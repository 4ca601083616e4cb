import TileMind.Proofs.Machine.Scheduler

/-!
# TileMind.Proofs.Machine.Steps

The scheduler as a state machine. What it does in a tick, or is asked to do between two of them, is
taken apart into steps: in each of them one fiber runs or ends, or the host does something. A step
tells which handles it answers.

* `Step.steady`, `Steps.steady`: the invariant of the scheduler is kept.
* `Step.acts`: what a step does to the handle table.
* `Step.rests`: a fiber that is not at work stays as it is, or is called.
* `Step.ages`: numbers are handed out once.
-/

namespace TileMind

variable {H : Type}

open HandleTable (Evolves)

namespace Scheduler

/-- What a step is about. -/
inductive Action where
  | spawn
  | mail
  | work
  | merge
  | skip
  | run (fiber : Nat)
  | cancel (fiber : Nat)
  | cancelAll
deriving DecidableEq, Repr

def Action.atWork : Action → Nat → Prop
  | .run id | .cancel id => (· = id)
  | .cancelAll => fun _ => True
  | .spawn | .mail | .work | .merge | .skip => fun _ => False

/-- One step, with the handles that it answers. -/
inductive Step [Host H] (s : Scheduler H) : Action → List (Int × Answer) → Scheduler H → Prop where
  | spawn {func : Int} {id : Nat} {s' : Scheduler H} (h : s.spawn func = .ok (id, s')) :
      Step s .spawn [] s'
  | mail {inbox : List (Errand (Stage H))} (polite : ∀ e ∈ inbox, e.Polite) :
      Step s .mail [] { s with inbox := inbox }
  | work {stage : Stage H} {as : List (Int × Answer)}
      (serves : Evolves (fun _ => False) s.stage.handles as stage.handles) :
      Step s .work as { s with stage := stage }.deliver
  | merge : Step s .merge [] { s with queue := s.queue ++ s.next, next := [] }
  | skip {id : Nat} {rest : List Nat} (queue : s.queue = id :: rest)
      (idle : ∀ f, s.fiber? id = some f → f.state ≠ .runnable) :
      Step s .skip [] { s with queue := rest }
  | run {f g : Fiber} {rest : List Nat} {status : RunStatus} {stage : Stage H}
      {as : List (Int × Answer)} {s' : Scheduler H} (queue : s.queue = f.id :: rest)
      (found : f ∈ s.live) (state : f.state = .runnable)
      (ran : s.machine.run s.machine.limits.budget f s.stage = .ok (status, g, stage))
      (uses : Evolves (· = f.id) s.stage.handles as stage.handles)
      (next : { s with queue := rest }.runFiber f = .ok s') : Step s (.run f.id) as s'
  | cancel {f : Fiber} (found : f ∈ s.live) : Step s (.cancel f.id) [] (s.cancelFiber f)
  | cancelAll : Step s .cancelAll [] s.cancelAll

/-- The invariant between two steps. -/
structure Steady (s : Scheduler H) : Prop where
  sound : s.Sound [] none
  outbox : s.stage.handles.outbox = []

section

variable {s s' : Scheduler H} {a : Action} {as : List (Int × Answer)}

theorem Steady.stands (hs : s.Steady) {f : Fiber} (hf : f ∈ s.live) : s.Stands [] f := by
  have hstands := hs.sound.stands f hf
  rwa [if_neg (by simp)] at hstands

/-- The scheduler `s'` comes after `s`: the program and the ceilings are the same, and a number that
was handed out before is in use only if it was. -/
structure Ages (s s' : Scheduler H) : Prop where
  machine : s'.machine = s.machine
  lastId : s.lastId ≤ s'.lastId
  ids : ∀ id ∈ s'.live.map Fiber.id, id ≤ s.lastId → id ∈ s.live.map Fiber.id
  table : s.stage.handles.Ages s'.stage.handles

theorem Ages.refl (s : Scheduler H) : s.Ages s :=
  ⟨rfl, Nat.le_refl _, fun _ h _ => h, .refl _⟩

theorem Ages.trans {s'' : Scheduler H} (h : s.Ages s') (h' : s'.Ages s'') : s.Ages s'' := by
  refine ⟨h'.machine.trans h.machine, Nat.le_trans h.lastId h'.lastId, ?_, h.table.trans h'.table⟩
  intro id hid hle
  exact h.ids id (h'.ids id hid (Nat.le_trans hle h.lastId)) hle

/-! ## One step -/

theorem spawn_eq_ok {func : Int} {id : Nat} (h : s.spawn func = .ok (id, s')) :
    (s.live.length : Int) < s.machine.limits.fibers ∧ id = s.lastId + 1 ∧
      s' = { s with
        live := s.live ++ [Fiber.start id func], lastId := id, queue := s.queue ++ [id] } := by
  unfold Scheduler.spawn at h
  split at h
  · cases h
  · split at h
    · cases h
    · rename_i hroom
      cases h
      exact ⟨by omega, rfl, rfl⟩

theorem Steady.spawn {func : Int} {id : Nat} (hs : s.Steady) (h : s.spawn func = .ok (id, s')) :
    s'.Steady := by
  obtain ⟨hroom, rfl, rfl⟩ := spawn_eq_ok h
  have hsound := hs.sound
  have hturns (x : Nat) : Scheduler.turns { s with
      live := s.live ++ [Fiber.start (s.lastId + 1) func], lastId := s.lastId + 1,
      queue := s.queue ++ [s.lastId + 1] } x = s.turns x + if x = s.lastId + 1 then 1 else 0 :=
    count_queued s.queue s.next (s.lastId + 1) x
  have hnone : s.turns (s.lastId + 1) = 0 := by
    refine List.count_eq_zero.mpr fun hmem => ?_
    have := hsound.queued _ hmem
    omega
  refine ⟨⟨hsound.machine, hsound.inbox, ?_, ?_, ?_, ?_, hsound.table, hsound.completed, ?_⟩, hs.outbox⟩
  · rw [List.map_append]
    refine List.nodup_append.mpr ⟨hsound.ids, List.nodup_singleton _, ?_⟩
    intro x hx y hy
    obtain ⟨f, hf, rfl⟩ := List.mem_map.mp hx
    have hle := hsound.bounded f hf
    have hy : y = s.lastId + 1 := List.mem_singleton.mp hy
    omega
  · intro f hf
    rcases List.mem_append.mp hf with hf | hf
    · exact Nat.le_succ_of_le (hsound.bounded f hf)
    · obtain rfl := List.mem_singleton.mp hf
      exact Nat.le_refl _
  · intro x hx
    simp only [List.append_assoc, List.mem_append, List.mem_singleton] at hx
    rcases hx with hx | rfl | hx
    · exact Nat.le_succ_of_le (hsound.queued x (List.mem_append_left _ hx))
    · exact Nat.le_refl _
    · exact Nat.le_succ_of_le (hsound.queued x (List.mem_append_right _ hx))
  · simp only [List.length_append, List.length_singleton]
    push_cast
    omega
  · intro f hf
    rcases List.mem_append.mp hf with hf | hf
    · have hle := hsound.bounded f hf
      refine hsound.stands_congr hf rfl rfl ?_
      rw [hturns, if_neg (by omega), Nat.add_zero]
    · obtain rfl := List.mem_singleton.mp hf
      rw [if_neg (by simp)]
      refine .ready rfl ?_
      rw [hturns]
      simp [Fiber.start, hnone]

theorem Steady.work {stage : Stage H} (hs : s.Steady)
    (h : Evolves (fun _ => False) s.stage.handles as stage.handles) :
    { s with stage := stage }.deliver.Steady := by
  refine ⟨(hs.sound.evolves h ?_).deliver, deliver_outbox _ hs.sound.ids⟩
  intro f _ hfalse
  exact hfalse.elim

theorem Steady.skip {id : Nat} {rest : List Nat} (hs : s.Steady) (hqueue : s.queue = id :: rest)
    (hidle : ∀ f, s.fiber? id = some f → f.state ≠ .runnable) :
    { s with queue := rest }.Steady := by
  refine ⟨hs.sound.arrange rest s.next ?_ ?_, hs.outbox⟩
  · intro f hf
    have hcount : s.turns f.id = (rest ++ s.next).count f.id + if f.id = id then 1 else 0 := by
      rw [Scheduler.turns, hqueue, List.cons_append, count_turn]
    have hne : f.id ≠ id := by
      rintro rfl
      rw [if_pos rfl] at hcount
      have hidle := hidle f (fiber?_of_mem hs.sound.ids hf)
      cases hs.stands hf with
      | ready state _ => exact hidle state
      | waits _ turns _ _ | called _ turns _ => omega
    rw [if_neg hne] at hcount
    exact hcount.symm
  · intro x hx
    rw [hqueue]
    exact List.mem_cons_of_mem _ hx

variable [Host H]

theorem Steady.cancelFiber (hs : s.Steady) (f : Fiber) : (s.cancelFiber f).Steady := by
  let fault : Fault :=
    { tag := .cancelled, message := "fiber " ++ Decimal.digitString f.id ++ " cancelled" }
  have hnew : Evolves (fun _ => False) s.stage.handles [] (s.stage.newFault fault).2.handles := .refl _
  have hsound := hs.sound.evolves hnew (fun _ _ hfalse => hfalse.elim)
  rw [Stage.newFault_handles, callsOf, hs.outbox] at hsound
  obtain ⟨hends, hout⟩ := hsound.finish (f := { f with
    state := .cancelled, fault := some (s.stage.newFault fault).1 }) (.inl rfl) hs.outbox
  exact ⟨hends, hout⟩

/-- Ending fibers leaves those that were not among them. -/
theorem live_cancelFibers (fibers : List Fiber) (s : Scheduler H) :
    (fibers.foldl Scheduler.cancelFiber s).live =
      s.live.filter fun g => g.id ∉ fibers.map Fiber.id := by
  induction fibers generalizing s with
  | nil => simp
  | cons f fibers ih =>
    rw [List.foldl_cons, ih]
    simp only [Scheduler.cancelFiber, finish, List.filter_filter]
    refine List.filter_congr fun g _ => ?_
    rw [Bool.eq_iff_iff]
    simp only [Bool.and_eq_true, decide_eq_true_eq, List.map_cons, List.mem_cons, not_or, and_comm]

theorem same_cancelFibers (fibers : List Fiber) (s : Scheduler H) :
    (fibers.foldl Scheduler.cancelFiber s).machine = s.machine ∧
      (fibers.foldl Scheduler.cancelFiber s).lastId = s.lastId := by
  induction fibers generalizing s with
  | nil => exact ⟨rfl, rfl⟩
  | cons f fibers ih => exact ih (s.cancelFiber f)

theorem live_cancelAll (s : Scheduler H) : s.cancelAll.live = [] := by
  simp only [Scheduler.cancelAll, live_cancelFibers, List.filter_eq_nil_iff]
  intro f hf
  simpa using ⟨f, hf, rfl⟩

theorem Steady.cancelFibers (fibers : List Fiber) (hs : s.Steady) :
    (fibers.foldl Scheduler.cancelFiber s).Steady := by
  induction fibers generalizing s with
  | nil => exact hs
  | cons f fibers ih => exact ih (hs.cancelFiber f)

theorem Steady.cancelAll (hs : s.Steady) : s.cancelAll.Steady := by
  have hends := hs.cancelFibers s.live
  have hnone := s.live_cancelAll
  refine ⟨hends.sound.arrange [] [] ?_ (by simp), hends.outbox⟩
  intro f hf
  have hf : f ∈ s.cancelAll.live := hf
  rw [hnone] at hf
  cases hf

theorem Step.steady (h : s.Step a as s') (hs : s.Steady) : s'.Steady := by
  cases h with
  | spawn h => exact hs.spawn h
  | mail polite => exact ⟨hs.sound.mail polite, hs.outbox⟩
  | work serves => exact hs.work serves
  | merge =>
    refine ⟨hs.sound.arrange (s.queue ++ s.next) [] ?_ ?_, hs.outbox⟩
    · intro f _
      rw [List.append_nil]
      rfl
    · intro id hid
      rwa [List.append_nil] at hid
  | skip queue idle => exact hs.skip queue idle
  | run queue found state ran uses next =>
    have htaken := hs.sound.take queue found rfl state
    obtain ⟨hsound, hout⟩ := htaken.runFiber found state ran next
    exact ⟨hsound, hout⟩
  | cancel found => exact hs.cancelFiber _
  | cancelAll => exact hs.cancelAll

/-! ## What others notice -/

theorem evolves_cancelFiber (s : Scheduler H) (f : Fiber) :
    Evolves (· = f.id) s.stage.handles [] (s.cancelFiber f).stage.handles :=
  evolves_finish _ _

theorem evolves_cancelFibers (fibers : List Fiber) (s : Scheduler H) :
    Evolves (fun _ => True) s.stage.handles []
      (fibers.foldl Scheduler.cancelFiber s).stage.handles := by
  induction fibers generalizing s with
  | nil => exact .refl _
  | cons f fibers ih =>
    have hfirst := (s.evolves_cancelFiber f).mono (fun _ _ => trivial)
    exact hfirst.trans (ih (s.cancelFiber f))

/-- What a step does to the table: some of it before its completions are delivered, some after. -/
theorem Step.acts (h : s.Step a as s') (hs : s.Steady) :
    ∃ t, Evolves a.atWork s.stage.handles as t ∧
      Evolves a.atWork { t with outbox := [] } [] s'.stage.handles := by
  have hsame : { s.stage.handles with outbox := [] } = s.stage.handles := by rw [← hs.outbox]
  cases h with
  | spawn h =>
    obtain ⟨-, -, rfl⟩ := spawn_eq_ok h
    refine ⟨_, .refl _, ?_⟩
    rw [hsame]
    exact .refl _
  | mail | merge | skip =>
    refine ⟨_, .refl _, ?_⟩
    rw [hsame]
    exact .refl _
  | @work stage as serves =>
    refine ⟨stage.handles, serves, ?_⟩
    rw [(called_deliver { s with stage := stage } hs.sound.ids).stage]
    exact .refl _
  | @run f g rest status stage as s' queue found state ran uses next =>
    refine ⟨stage.handles, uses, ?_⟩
    have hid := (run_stops (hs.sound.machine.keeps f.id) state ran).id_eq
    obtain ⟨s1, hcalled, rfl | ⟨next, rfl⟩⟩ :=
      runFiber_called (s := { s with queue := rest }) hs.sound.ids ran next
    · have hends := s1.evolves_finish g
      rw [hcalled.stage, hid] at hends
      exact hends
    · rw [hcalled.stage]
      exact .refl _
  | cancel found =>
    refine ⟨_, .refl _, ?_⟩
    rw [hsame]
    exact s.evolves_cancelFiber _
  | cancelAll =>
    refine ⟨_, .refl _, ?_⟩
    rw [hsame]
    exact evolves_cancelFibers s.live s

/-- A fiber that a step is not about stays as it is, or is called. -/
theorem Step.rests (h : s.Step a as s') (hs : s.Steady) {f : Fiber} (hf : f ∈ s.live)
    (hrest : ¬ a.atWork f.id) : ∃ g ∈ s'.live, g = f ∨ (f.state = .waiting ∧ g = woken f) := by
  cases h with
  | spawn h =>
    obtain ⟨-, -, rfl⟩ := spawn_eq_ok h
    exact ⟨f, List.mem_append_left _ hf, .inl rfl⟩
  | mail | merge | skip => exact ⟨f, hf, .inl rfl⟩
  | @work stage as serves => exact (called_deliver { s with stage := stage } hs.sound.ids).live f hf
  | @run x y rest status stage as s' queue found state ran uses next =>
    have hid := (run_stops (hs.sound.machine.keeps x.id) state ran).id_eq
    have hne : f.id ≠ y.id := by
      rw [hid]
      exact hrest
    obtain ⟨s1, hcalled, hcase⟩ :=
      runFiber_called (s := { s with queue := rest }) hs.sound.ids ran next
    obtain ⟨g, hg, hfg⟩ := hcalled.live f (setFiber_mem_of_ne hf hne)
    have hgid : g.id = f.id := by rcases hfg with rfl | ⟨-, rfl⟩ <;> rfl
    obtain rfl | ⟨next, rfl⟩ := hcase
    · refine ⟨g, List.mem_filter.mpr ⟨hg, ?_⟩, hfg⟩
      exact decide_eq_true (hgid ▸ hne)
    · exact ⟨g, hg, hfg⟩
  | cancel found =>
    refine ⟨f, List.mem_filter.mpr ⟨hf, ?_⟩, .inl rfl⟩
    exact decide_eq_true hrest
  | cancelAll => exact absurd trivial hrest

/-! ## Numbers -/

/-- What a step does to the program, the numbers of fibers and those in use. -/
theorem Step.fibers (h : s.Step a as s') (hs : s.Steady) :
    s'.machine = s.machine ∧ s.lastId ≤ s'.lastId ∧
      ∀ id ∈ s'.live.map Fiber.id, id ≤ s.lastId → id ∈ s.live.map Fiber.id := by
  cases h with
  | spawn h =>
    obtain ⟨-, rfl, rfl⟩ := spawn_eq_ok h
    refine ⟨rfl, Nat.le_succ _, ?_⟩
    intro id hid hle
    rw [List.map_append, List.mem_append] at hid
    rcases hid with hid | hid
    · exact hid
    · have hid : id = s.lastId + 1 := List.mem_singleton.mp hid
      omega
  | mail | merge | skip => exact ⟨rfl, Nat.le_refl _, fun _ hid _ => hid⟩
  | @work stage as serves =>
    have hcalled := called_deliver { s with stage := stage } hs.sound.ids
    refine ⟨hcalled.machine, Nat.le_of_eq hcalled.lastId.symm, ?_⟩
    intro id hid _
    rw [hcalled.ids] at hid
    exact hid
  | @run f g rest status stage as s' queue found state ran uses next =>
    obtain ⟨s1, hcalled, hcase⟩ :=
      runFiber_called (s := { s with queue := rest }) hs.sound.ids ran next
    have hids : ∀ id ∈ s1.live.map Fiber.id, id ∈ s.live.map Fiber.id := by
      intro id hid
      rw [hcalled.ids] at hid
      exact (ids_setFiber { s with queue := rest, stage := stage } g) ▸ hid
    obtain rfl | ⟨next, rfl⟩ := hcase
    · refine ⟨hcalled.machine, Nat.le_of_eq hcalled.lastId.symm, fun id hid _ => hids id ?_⟩
      exact ((List.filter_sublist).map Fiber.id).subset hid
    · exact ⟨hcalled.machine, Nat.le_of_eq hcalled.lastId.symm, fun id hid _ => hids id hid⟩
  | cancel found =>
    refine ⟨rfl, Nat.le_refl _, fun id hid _ => ?_⟩
    exact ((List.filter_sublist).map Fiber.id).subset hid
  | cancelAll =>
    obtain ⟨hmachine, hlast⟩ := same_cancelFibers s.live s
    refine ⟨hmachine, Nat.le_of_eq hlast.symm, ?_⟩
    intro id hid
    rw [s.live_cancelAll] at hid
    cases hid

theorem Step.ages (h : s.Step a as s') (hs : s.Steady) : s.Ages s' := by
  obtain ⟨hmachine, hlast, hids⟩ := h.fibers hs
  obtain ⟨t, hbefore, hafter⟩ := h.acts hs
  have hemptied : t.Ages { t with outbox := [] } := ⟨rfl, Nat.le_refl _, fun _ h _ => h⟩
  exact ⟨hmachine, hlast, hids, hbefore.ages.trans (hemptied.trans hafter.ages)⟩

end

/-! ## Many steps -/

/-- Steps one after the other, with what each of them is about and what it answers. -/
inductive Steps [Host H] : Scheduler H → List (Action × List (Int × Answer)) → Scheduler H → Prop where
  | refl (s : Scheduler H) : Steps s [] s
  | step {s s' s'' : Scheduler H} {a : Action} {as : List (Int × Answer)}
      {more : List (Action × List (Int × Answer))} (first : s.Step a as s')
      (rest : Steps s' more s'') : Steps s ((a, as) :: more) s''

section

variable [Host H] {s s' s'' : Scheduler H} {es es' : List (Action × List (Int × Answer))}

theorem Step.steps {a : Action} {as : List (Int × Answer)} (h : s.Step a as s') :
    s.Steps [(a, as)] s' :=
  .step h (.refl s')

theorem Steps.trans (h : s.Steps es s') (h' : s'.Steps es' s'') : s.Steps (es ++ es') s'' := by
  induction h with
  | refl s => exact h'
  | step first _ ih => exact .step first (ih h')

theorem Steps.steady (h : s.Steps es s') (hs : s.Steady) : s'.Steady := by
  induction h with
  | refl s => exact hs
  | step first _ ih => exact ih (first.steady hs)

theorem Steps.ages (h : s.Steps es s') (hs : s.Steady) : s.Ages s' := by
  induction h with
  | refl s => exact .refl s
  | step first _ ih => exact (first.ages hs).trans (ih (first.steady hs))

end

end Scheduler

end TileMind
