import TileMind.Proofs.Machine.Dealings
import TileMind.Proofs.Machine.Operations
import TileMind.Proofs.Machine.Preemption

/-!
# TileMind.Proofs.Machine.Turns

A tick turn by turn. As long as host code answers no handle but the one it is given, a handle is answered
by a fiber only before anybody can wait for it. So nobody is called while fibers run, the queue only gets
shorter, and whoever was to be run at the start of the tick is run once.

* `Machine.AnswersOwn`: what is asked of host code.
* `HandleTable.Unheard`: nobody is to be called; `unheard_of_run`: a fiber that runs leaves it so.
* `Scheduler.TakesTurns`: fibers are run in turn. `drains_drain`: how the queue is run.
* `tick_takes_turns`: which fibers a tick runs, and in which order.
-/

namespace TileMind

variable {H : Type}

open HandleTable (Evolves)

/-! ## Handles that are answered early -/

/-- The host functions and field hooks of a machine answer no handle, or the one that they are given. They
keep to the operations of the handle table in all else. -/
structure Machine.AnswersOwn (m : Machine H) : Prop where
  sync : ∀ {fn h call}, m.services.functions.get? fn = some h → h.sync = some call →
    ∀ c args (s : Stage H), Evolves (fun _ => False) s.handles [] (call c args s).2.handles
  async : ∀ {fn h call}, m.services.functions.get? fn = some h → h.async = some call →
    ∀ c args handle (s : Stage H), ∃ as,
      Evolves (fun _ => False) s.handles as (call c args handle s).2.handles ∧
        ∀ a ∈ as, a.1 = (handle : Int)
  get : ∀ {type get}, (m.hooks type).get = some get → ∀ {obj field} {s : Stage H} {r},
    get obj field s = .ok r → Evolves (fun _ => False) s.handles [] r.2.handles
  set : ∀ {type set}, (m.hooks type).set = some set → ∀ {obj field v} {s : Stage H} {r},
    set obj field v s = .ok r → Evolves (fun _ => False) s.handles [] r.2.handles

theorem Machine.AnswersOwn.polite {m : Machine H} (hm : m.AnswersOwn) : m.Polite where
  sync hfn hcall c args s := ⟨[], hm.sync hfn hcall c args s⟩
  async hfn hcall c args handle s := by
    obtain ⟨as, has, -⟩ := hm.async hfn hcall c args handle s
    exact ⟨as, has⟩
  get hget _ _ _ _ hr := ⟨[], hm.get hget hr⟩
  set hset _ _ _ _ _ hr := ⟨[], hm.set hset hr⟩

namespace HandleTable

/-- Nobody is to be called: the handles in the outbox were completed before anybody waited for them. -/
def Unheard (t : HandleTable) : Prop := t.Sound ∧ ∀ c ∈ t.outbox, c.waiters = []

/-- Nor does anybody wait for this handle. -/
def Fresh (t : HandleTable) (id : Nat) : Prop :=
  t.Unheard ∧ ∀ h, t.get? id = some h → h.waiters = []

section

variable {t u : HandleTable} {atWork : Nat → Prop} {as : List (Int × Answer)} {id : Nat}

theorem Unheard.evolves (ht : t.Unheard) (h : Evolves atWork t [] u) : u.Unheard :=
  ⟨h.sound ht.1, by rw [h.outbox_eq]; exact ht.2⟩

/-- Nobody waits yet for a handle that has just been created. -/
theorem Unheard.fresh (ht : t.Unheard) {owner : Int} (h : t.create? owner = some (id, u)) :
    u.Fresh id := by
  have hcreated : Evolves (fun _ => False) t [] u := (Change.create h).evolves
  refine ⟨ht.evolves hcreated, ?_⟩
  intro x hx
  rcases of_get?_create h hx with hold | ⟨-, rfl⟩
  · obtain ⟨-, rfl, -⟩ := create?_eq_some h
    have hle := ht.1.id_le hold
    have hid := (mem_of_get? hold).2
    omega
  · rfl

/-- Its answer calls nobody. -/
theorem Fresh.answer (ht : t.Fresh id) {a : Answer} (h : t.answer id a = .ok u) : u.Fresh id := by
  obtain ⟨⟨hsound, hout⟩, hwaiters⟩ := ht
  have hsound' := sound_answer h hsound
  obtain ⟨g, hg, -, ⟨-, rfl⟩ | rfl⟩ := answer_eq_ok h
  · refine ⟨⟨hsound', hout⟩, ?_⟩
    intro x hx
    rw [get?_erase, if_pos rfl] at hx
    cases hx
  · refine ⟨⟨hsound', ?_⟩, ?_⟩
    · intro c hc
      rcases List.mem_append.mp hc with hc | hc
      · exact hout c hc
      · obtain rfl := List.mem_singleton.mp hc
        exact hwaiters g hg
    · intro x hx
      have hx : (t.update id fun h => h.answered a).get? id = some x := hx
      rw [get?_answered, if_pos rfl, hg] at hx
      obtain rfl := Option.some.inj hx
      exact hwaiters g hg

/-- Host code leaves it so that answers this handle at most. -/
theorem Fresh.evolves (ht : t.Fresh id) (h : Evolves (fun _ => False) t as u)
    (has : ∀ a ∈ as, a.1 = (id : Int)) : u.Fresh id := by
  induction h with
  | refl t => exact ht
  | @step t u v as bs change rest ih =>
    refine ih ?_ fun a ha => has a (List.mem_append_right _ ha)
    cases change with
    | @create owner new u h =>
      have hcreated : Evolves (fun _ => False) t [] u := (Change.create h).evolves
      refine ⟨ht.1.evolves hcreated, ?_⟩
      intro x hx
      rcases of_get?_create h hx with hold | ⟨-, rfl⟩
      · exact ht.2 x hold
      · rfl
    | @answer k a u h =>
      obtain rfl : k = id := has (k, a) (by simp)
      exact ht.answer h
    | consume hf | park hf | leave hf | release hf => exact hf.elim

end

end HandleTable

section

variable {m : Machine H} {id : Nat} {s : Stage H}

theorem fresh_resolve (hs : s.handles.Fresh id) (v : Value) : (s.resolve id v).handles.Fresh id := by
  unfold Stage.resolve
  split
  · rename_i t ht
    exact hs.answer (a := .resolved v) ht
  · exact hs

theorem fresh_reject (hs : s.handles.Fresh id) (fault : Option Nat) :
    (s.reject id fault).handles.Fresh id := by
  unfold Stage.reject
  split
  · rename_i t ht
    exact hs.answer (a := .rejected fault) ht
  · exact hs

variable [Host H]

theorem Machine.AnswersOwn.deals (hm : m.AnswersOwn) :
    m.Deals (fun s t => s.handles.Unheard → t.handles.Unheard)
      (fun id s t => s.handles.Fresh id → t.handles.Fresh id) where
  trans h h' hs := h' (h hs)
  heap _ _ hs := hs
  store _ _ _ _ hs := hs
  sync hfn hcall c args s hs := hs.evolves (hm.sync hfn hcall c args s)
  get hget _ _ _ _ hr hs := hs.evolves (hm.get hget hr)
  set hset _ _ _ _ _ hr hs := hs.evolves (hm.set hset hr)
  started {fn h call} hfn hcall c args id s t hstart hs := by
    obtain ⟨as, has, hown⟩ := hm.async hfn hcall c args id s
    rw [hstart] at has
    exact hs.evolves has hown
  refused {fn h call} hfn hcall c args id start s t hstart _ heap fault hs := by
    obtain ⟨as, has, hown⟩ := hm.async hfn hcall c args id s
    rw [hstart] at has
    have ht := hs.evolves has hown
    exact fresh_reject (s := { t with heap := heap }) ht fault
  answered s id v hs := fresh_resolve hs v

/-! ## Runs that call nobody -/

def Outcome.Unheard : Outcome H → Prop
  | .next _ t | .stop _ _ t => t.handles.Unheard
  | .crash _ => True

omit [Host H] in
theorem Outcome.Quiet.unheard {R : Stage H → Stage H → Prop} {handles : List Nat} {o : Outcome H}
    (h : o.Quiet R handles s) (hR : ∀ t, R s t → t.handles.Unheard) : o.Unheard := by
  cases o with
  | next g t => exact hR t h.1
  | stop status g t => exact hR t h.2.1
  | crash c => trivial

theorem step_unheard (hm : m.AnswersOwn) (hs : s.handles.Unheard) (fr : Frame) (i : Instr) (f : Fiber) :
    (step m fr i f s).Unheard := by
  rcases handled_step hm.deals fr i f s with ⟨hquiet, -⟩ | ⟨-, hhandled⟩
  · exact hquiet.unheard fun t ht => ht hs
  · generalize step m fr i f s = out at hhandled
    cases hhandled with
    | quiet quiet _ => exact quiet.unheard fun t ht => ht hs
    | @asks g mid t id table below op before created after =>
      have hfresh := (before hs).fresh created
      exact (after hfresh).1
    | @reads _ k h below op stack found done after =>
      have hread : Evolves (fun _ => True) s.handles []
          (s.handles.consume h.id (f.jump (fr.pc + 1)).id) :=
        (HandleTable.Change.consume trivial found done).evolves
      exact after.unheard fun t ht => ht (hs.evolves hread)
    | @parks k h below op stack found pending =>
      have hpark : Evolves (fun _ => True) s.handles []
          (s.handles.update h.id fun h => h.addWaiter (f.jump (fr.pc + 1)).id) :=
        (HandleTable.Change.park trivial found pending).evolves
      exact hs.evolves hpark

theorem carries_unheard (hm : m.AnswersOwn) :
    m.Carries (fun _ s => s.handles.Unheard) (fun _ _ t => t.handles.Unheard) where
  ret hs _ _ := hs
  next {f g s t fr rest i} hs _ _ hstep := by
    have h := step_unheard hm hs fr i f
    rwa [hstep] at h
  stop {f g s t fr rest i status} hs _ _ hstep := by
    have h := step_unheard hm hs fr i f
    rwa [hstep] at h
  done hs _ := hs
  spent hs _ := hs

theorem unheard_of_run (hm : m.AnswersOwn) {budget : Int} {f g : Fiber} {t : Stage H}
    {status : RunStatus} (hs : s.handles.Unheard) (hstate : f.state = .runnable)
    (hrun : m.run budget f s = .ok (status, g, t)) : t.handles.Unheard :=
  (carries_unheard hm).run hstate hs hrun

end

namespace Scheduler

/-! ## Those to be run -/

/-- Those among `ids` that are alive and runnable. -/
def ready (s : Scheduler H) (ids : List Nat) : List Fiber :=
  ids.filterMap fun id : Nat => (s.fiber? id).filter fun f => f.state = .runnable

section

variable {s s' : Scheduler H} {f g : Fiber} {id : Nat} {ids : List Nat}

theorem ready_skip (hidle : ∀ f, s.fiber? id = some f → f.state ≠ .runnable) :
    s.ready (id :: ids) = s.ready ids := by
  unfold ready
  rw [List.filterMap_cons_none]
  rw [Option.filter_eq_none_iff]
  intro f hf
  simpa using hidle f hf

theorem ready_cons (hfound : s.fiber? id = some f) (hstate : f.state = .runnable) :
    s.ready (id :: ids) = f :: s.ready ids := by
  unfold ready
  rw [List.filterMap_cons_some]
  rw [hfound]
  simp [Option.filter, hstate]

theorem ready_congr (h : ∀ id ∈ ids, s'.fiber? id = s.fiber? id) : s'.ready ids = s.ready ids := by
  refine List.filterMap_congr fun id hid => ?_
  rw [h id hid]

/-- They come in the order of their numbers in the queue. -/
theorem ids_ready_sublist (s : Scheduler H) (ids : List Nat) :
    ((s.ready ids).map Fiber.id).Sublist ids := by
  induction ids with
  | nil => exact .refl _
  | cons id ids ih =>
    cases hfound : s.fiber? id with
    | none =>
      rw [ready_skip (by simp [hfound])]
      exact ih.cons id
    | some f =>
      have hid : f.id = id := by
        have := (mem_of_fiber? hfound).2
        omega
      by_cases hstate : f.state = .runnable
      · rw [ready_cons hfound hstate, List.map_cons, hid]
        exact ih.cons_cons id
      · rw [ready_skip (by simpa [hfound] using hstate)]
        exact ih.cons id

/-- Everyone who is to be run is to be run once. -/
theorem Steady.count_of_runnable (hs : s.Steady) (hf : f ∈ s.live) (hstate : f.state = .runnable) :
    (s.queue ++ s.next).count f.id = 1 := by
  cases hs.stands hf with
  | ready _ turns => exact turns
  | waits state _ _ _ | called state _ _ =>
    rw [hstate] at state
    cases state

theorem Steady.mem_ready_iff (hs : s.Steady) :
    f ∈ s.ready (s.queue ++ s.next) ↔ f ∈ s.live ∧ f.state = .runnable := by
  unfold ready
  rw [List.mem_filterMap]
  constructor
  · rintro ⟨id, -, hfound⟩
    obtain ⟨hfound, hstate⟩ := Option.filter_eq_some_iff.mp hfound
    exact ⟨(mem_of_fiber? hfound).1, by simpa using hstate⟩
  · rintro ⟨hf, hstate⟩
    refine ⟨f.id, ?_, ?_⟩
    · exact List.one_le_count_iff.mp (hs.count_of_runnable hf hstate).ge
    · rw [fiber?_of_mem hs.sound.ids hf]
      simp [Option.filter, hstate]

theorem Steady.nodup_ready (hs : s.Steady) : ((s.ready (s.queue ++ s.next)).map Fiber.id).Nodup := by
  rw [List.nodup_iff_count_le_one]
  intro id
  by_cases hid : id ∈ (s.ready (s.queue ++ s.next)).map Fiber.id
  · obtain ⟨f, hf, rfl⟩ := List.mem_map.mp hid
    obtain ⟨hlive, hstate⟩ := hs.mem_ready_iff.mp hf
    rw [← hs.count_of_runnable hlive hstate]
    exact (s.ids_ready_sublist _).count_le _
  · rw [List.count_eq_zero.mpr hid]
    exact Nat.zero_le 1

theorem Steady.not_mem_rest (hs : s.Steady) {rest : List Nat} (hqueue : s.queue = f.id :: rest)
    (hf : f ∈ s.live) (hstate : f.state = .runnable) : f.id ∉ rest := by
  have hcount := hs.count_of_runnable hf hstate
  rw [hqueue, List.cons_append, List.count_cons_self, Nat.add_eq_right, List.count_eq_zero] at hcount
  exact fun hmem => hcount (List.mem_append_left _ hmem)

/-! ## One turn -/

theorem fiber?_setFiber (hne : id ≠ g.id) : (s.setFiber g).fiber? id = s.fiber? id := by
  unfold fiber? setFiber
  dsimp only
  induction s.live with
  | nil => rfl
  | cons x xs ih =>
    rw [List.map_cons, List.find?_cons, List.find?_cons, ih]
    by_cases hx : x.id = g.id
    · have hgid : ¬ (g.id : Int) = id := by omega
      have hxid : ¬ (x.id : Int) = id := by omega
      simp [hx, hgid]
    · simp [hx]

theorem fiber?_finish [Host H] (hne : id ≠ g.id) : (s.finish g).fiber? id = s.fiber? id := by
  unfold fiber? finish
  dsimp only
  rw [List.find?_filter]
  induction s.live with
  | nil => rfl
  | cons x xs ih =>
    rw [List.find?_cons, List.find?_cons, ih]
    by_cases hx : x.id = g.id
    · have hxid : ¬ (g.id : Int) = id := by omega
      simp [hx, hxid]
    · simp [hx]

/-- If nobody is to be called, delivery only empties the outbox. -/
theorem deliver_of_unheard (h : s.stage.handles.Unheard) : s.deliver = s.emptied := by
  have hnone : callsOf s.stage.handles = [] := by
    unfold callsOf
    rw [List.flatMap_eq_nil_iff]
    intro c hc
    rw [h.2 c hc]
    rfl
  rw [deliver_eq, hnone]
  rfl

/-- What a fiber that goes on in the next tick stops with. -/
def goesOn (status : RunStatus) : Bool := status = .yielded || status = .budget

/-- A fiber is run and wakes nobody: the others stay as they are, and it is put up for the next tick if it
goes on. -/
theorem runFiber_alone [Host H] {status : RunStatus} {stage : Stage H} (hid : g.id = f.id)
    (hunheard : stage.handles.Unheard)
    (hrun : s.machine.run s.machine.limits.budget f s.stage = .ok (status, g, stage)) :
    ∃ s', s.runFiber f = .ok s' ∧ s'.machine = s.machine ∧ s'.queue = s.queue ∧
      s'.next = s.next ++ (if goesOn status then [f.id] else []) ∧
      ∀ id : Nat, id ≠ f.id → s'.fiber? id = s.fiber? id := by
  have hdeliver : ({ s with stage := stage }.setFiber g).deliver =
      ({ s with stage := stage }.setFiber g).emptied := deliver_of_unheard hunheard
  have hothers : ∀ id : Nat, id ≠ f.id →
      ({ s with stage := stage }.setFiber g).emptied.fiber? id = s.fiber? id := by
    intro id hne
    exact fiber?_setFiber (s := { s with stage := stage }) (hid ▸ hne)
  unfold Scheduler.runFiber
  rw [hrun]
  dsimp only
  rw [hdeliver]
  cases status with
  | done | fault =>
    refine ⟨_, rfl, rfl, rfl, (List.append_nil _).symm, ?_⟩
    intro id hne
    rw [fiber?_finish (hid ▸ hne)]
    exact hothers id hne
  | yielded | budget => exact ⟨_, rfl, rfl, rfl, by rw [hid]; rfl, hothers⟩
  | waiting => exact ⟨_, rfl, rfl, rfl, (List.append_nil _).symm, hothers⟩

/-! ## The queue -/

/-- Fibers are run in turn, each as it stands in the scheduler then, and `runs` tells what they stopped
with. Entries of the queue whose fiber has ended are passed over. -/
inductive TakesTurns [Host H] : Scheduler H → (runs : List (Fiber × RunStatus)) → Scheduler H → Prop where
  | refl (s : Scheduler H) : TakesTurns s [] s
  | skip {s s' : Scheduler H} {id : Nat} {rest : List Nat} {runs : List (Fiber × RunStatus)}
      (queue : s.queue = id :: rest) (idle : ∀ f, s.fiber? id = some f → f.state ≠ .runnable)
      (later : TakesTurns { s with queue := rest } runs s') : TakesTurns s runs s'
  | run {s s' s'' : Scheduler H} {f g : Fiber} {rest : List Nat} {status : RunStatus} {stage : Stage H}
      {runs : List (Fiber × RunStatus)} (queue : s.queue = f.id :: rest) (found : f ∈ s.live)
      (state : f.state = .runnable)
      (ran : s.machine.run s.machine.limits.budget f s.stage = .ok (status, g, stage))
      (after : { s with queue := rest }.runFiber f = .ok s') (later : TakesTurns s' runs s'') :
      TakesTurns s ((f, status) :: runs) s''

/-- How a queue is run in which the fibers `due` are to be run: all of them in turn, so that the queue is
empty then and those that go on are up for the next tick, or up to one whose run crashes. -/
inductive Drains [Host H] (s : Scheduler H) (due : List Fiber) : Except Crash (Scheduler H) → Prop where
  | finished {runs : List (Fiber × RunStatus)} {s' : Scheduler H} (turns : s.TakesTurns runs s')
      (all : runs.map Prod.fst = due) (queue : s'.queue = [])
      (next : s'.next = s.next ++ (runs.filter fun r => goesOn r.2).map fun r => r.1.id) :
      Drains s due (.ok s')
  | crashed {runs : List (Fiber × RunStatus)} {mid : Scheduler H} {f : Fiber} {later : List Fiber}
      {c : Crash} (turns : s.TakesTurns runs mid) (upTo : due = runs.map Prod.fst ++ f :: later)
      (crash : mid.machine.run mid.machine.limits.budget f mid.stage = .error c) (ends : c ≠ .endless) :
      Drains s due (.error c)

theorem Drains.skip [Host H] {rest : List Nat} {due : List Fiber} {o : Except Crash (Scheduler H)}
    (queue : s.queue = id :: rest) (idle : ∀ f, s.fiber? id = some f → f.state ≠ .runnable)
    (h : Drains { s with queue := rest } due o) : Drains s due o := by
  cases h with
  | finished turns all queue' next => exact .finished (.skip queue idle turns) all queue' next
  | crashed turns upTo crash ends => exact .crashed (.skip queue idle turns) upTo crash ends

theorem Drains.run [Host H] {rest : List Nat} {status : RunStatus} {stage : Stage H} {due : List Fiber}
    {o : Except Crash (Scheduler H)} (queue : s.queue = f.id :: rest) (found : f ∈ s.live)
    (state : f.state = .runnable)
    (ran : s.machine.run s.machine.limits.budget f s.stage = .ok (status, g, stage))
    (after : { s with queue := rest }.runFiber f = .ok s')
    (hnext : s'.next = s.next ++ (if goesOn status then [f.id] else [])) (h : Drains s' due o) :
    Drains s (f :: due) o := by
  cases h with
  | finished turns all queue' next =>
    refine .finished (.run queue found state ran after turns) (by rw [List.map_cons, all]) queue' ?_
    rw [next, hnext, List.append_assoc, List.filter_cons]
    split <;> rfl
  | crashed turns upTo crash ends =>
    exact .crashed (.run queue found state ran after turns) (by rw [upTo]; rfl) crash ends

theorem drains_drain [Host H] (hm : s.machine.AnswersOwn) (hs : s.Steady) (rounds : Nat)
    (hrounds : s.queue.length ≤ rounds) : Drains s (s.ready s.queue) (drain rounds s) := by
  generalize hqueue : s.queue = queue at hrounds ⊢
  induction queue generalizing s rounds with
  | nil =>
    have hdone : drain rounds s = .ok s := by
      cases rounds <;> simp [drain, hqueue]
    rw [hdone]
    exact .finished (.refl s) rfl hqueue (by simp)
  | cons id rest ih =>
    obtain ⟨rounds, rfl⟩ : ∃ r, rounds = r + 1 := ⟨rounds - 1, by simp at hrounds; omega⟩
    have hrest : rest.length ≤ rounds := by simpa using hrounds
    have hskip (hidle : ∀ f, s.fiber? id = some f → f.state ≠ .runnable) :
        Drains s (s.ready (id :: rest)) (drain rounds { s with queue := rest }) := by
      rw [ready_skip hidle]
      exact (ih (s := { s with queue := rest }) hm (hs.skip hqueue hidle) rounds rfl hrest).skip hqueue hidle
    unfold drain
    rw [hqueue]
    dsimp only
    have hsame : Scheduler.fiber? { s with queue := rest } id = s.fiber? id := rfl
    rw [hsame]
    cases hfound : s.fiber? id with
    | none => exact hskip (by simp [hfound])
    | some f =>
      dsimp only
      by_cases hstate : f.state = .runnable
      · rw [if_pos hstate, ready_cons hfound hstate]
        obtain ⟨hf, hid⟩ := mem_of_fiber? hfound
        obtain rfl : f.id = id := by omega
        cases hran : s.machine.run s.machine.limits.budget f s.stage with
        | error c =>
          have hcrash : { s with queue := rest }.runFiber f = .error c := by
            simp [Scheduler.runFiber, hran]
          rw [hcrash]
          refine .crashed (.refl s) rfl hran ?_
          rintro rfl
          exact run_ne_endless _ _ _ _ hran
        | ok result =>
          obtain ⟨status, g, stage⟩ := result
          have hquiet : s.stage.handles.Unheard := ⟨hs.sound.table, by simp [hs.outbox]⟩
          have hid : g.id = f.id := (run_stops (hm.polite.keeps f.id) hstate hran).id_eq
          obtain ⟨s', hrun, hmachine, hsq, hsn, hothers⟩ :=
            runFiber_alone (s := { s with queue := rest }) hid (unheard_of_run hm hquiet hstate hran) hran
          rw [hrun]
          obtain ⟨as, huses⟩ := hs.sound.uses hstate hran
          have hstep : s.Step (.run f.id) as s' := .run hqueue hf hstate hran huses hrun
          have hnot := hs.not_mem_rest hqueue hf hstate
          have hready : s'.ready rest = s.ready rest :=
            ready_congr fun id hid => hothers id fun heq => hnot (heq ▸ hid)
          have hlater := ih (s := s') (by rw [hmachine]; exact hm) (hstep.steady hs) rounds hsq hrest
          rw [hready] at hlater
          exact hlater.run hqueue hf hstate hran hrun hsn
      · rw [if_neg hstate]
        exact hskip (by simpa [hfound] using hstate)

end

/-! ## Between the turns -/

/-- From `s` to `s'` fibers have only been put up for the current tick, behind those that were there. -/
structure Enqueues (s s' : Scheduler H) : Prop where
  next : s'.next = s.next
  queue : s.queue <+: s'.queue

section

variable {s s' s'' : Scheduler H}

theorem Enqueues.refl (s : Scheduler H) : s.Enqueues s := ⟨rfl, List.prefix_rfl⟩

theorem Enqueues.trans (h : s.Enqueues s') (h' : s'.Enqueues s'') : s.Enqueues s'' :=
  ⟨h'.next.trans h.next, h.queue.trans h'.queue⟩

theorem enqueues_wake (s : Scheduler H) (k w : Nat) : s.Enqueues (s.wake k w) := by
  unfold wake
  split
  · exact .refl s
  · split
    · exact ⟨rfl, List.prefix_append _ _⟩
    · exact .refl s

theorem enqueues_deliver (s : Scheduler H) : s.Enqueues s.deliver :=
  deliver_induction ⟨rfl, List.prefix_rfl⟩ fun t k w h => h.trans (enqueues_wake t k w)

theorem enqueues_stage (s : Scheduler H) (stage : Stage H) :
    s.Enqueues { s with stage := stage }.deliver := by
  have h := enqueues_deliver { s with stage := stage }
  exact ⟨h.next, h.queue⟩

theorem enqueues_doErrands (errands : List (Errand (Stage H))) (s : Scheduler H) :
    s.Enqueues (doErrands errands s) := by
  induction errands generalizing s with
  | nil => exact .refl s
  | cons e errands ih =>
    have hfirst := enqueues_deliver
      { s with stage := (e.run s.stage).1, inbox := s.inbox ++ (e.run s.stage).2 }
    exact Enqueues.trans ⟨hfirst.next, hfirst.queue⟩ (ih _)

end

end Scheduler

open Scheduler

section

variable [Host H] {s s' : Scheduler H}

theorem Operation.enqueues_of_perform {op : Operation H} (hop : op ≠ .tick ∧ op ≠ .cancelAll)
    (h : op.perform s = .ok s') : s.Enqueues s' := by
  cases op with
  | tick => exact absurd rfl hop.1
  | cancelAll => exact absurd rfl hop.2
  | spawn func =>
    obtain ⟨id, hspawn⟩ | rfl := spawn_of_perform h
    · obtain ⟨-, -, rfl⟩ := spawn_eq_ok hspawn
      exact ⟨rfl, List.prefix_append _ _⟩
    · exact .refl _
  | cancel fiber =>
    obtain ⟨f, -, rfl⟩ | rfl := cancel_of_perform h
    · exact ⟨rfl, List.prefix_rfl⟩
    · exact .refl _
  | post e =>
    cases h
    exact ⟨rfl, List.prefix_rfl⟩
  | resolve handle v | reject handle fault | act run =>
    cases h
    exact enqueues_stage s _
  | cancelHandle handle =>
    obtain ⟨stage, -, rfl⟩ | rfl := cancelHandle_of_perform h
    · exact enqueues_stage s _
    · exact .refl _

theorem Operation.enqueues_of_performAll {ops : List (Operation H)}
    (hops : ∀ op ∈ ops, op ≠ .tick ∧ op ≠ .cancelAll) (h : performAll ops s = .ok s') :
    s.Enqueues s' := by
  induction ops generalizing s with
  | nil =>
    cases h
    exact .refl _
  | cons op ops ih =>
    obtain ⟨s1, hfirst, hlater⟩ := performAll_cons_eq_ok.mp h
    have hhere := enqueues_of_perform (hops op List.mem_cons_self) hfirst
    exact hhere.trans (ih (fun x hx => hops x (List.mem_cons_of_mem _ hx)) hlater)

/-! ## A tick -/

variable (p : Program) (svc : Services (Stage H)) (limits : Limits) (heap : Heap) (host : H)

/-- A tick of a scheduler that any operations have led to ends. When its errands are done it runs all
fibers that are alive and runnable, each of them once: those of the queue, to which the errands add
those they wake, and behind them those that went on from the last tick, in this order. A run that crashes
ends the tick. Those that yield or spend their budget are up for the next tick in the order
in which they were run, and whatever happens until then, short of cancelling all fibers, leaves them there. -/
theorem tick_takes_turns (hown : (Machine.load p svc limits heap).1.AnswersOwn)
    {ops : List (Operation H)} (hops : ∀ op ∈ ops, op.Polite) {s : Scheduler H}
    (h : Operation.performAll ops (.create p svc limits heap host) = .ok s) :
    ∃ r due, r = doErrands s.inbox { s with inbox := [] } ∧ due = r.ready (r.queue ++ r.next) ∧
      s.Enqueues r ∧
      (∀ f, f ∈ due ↔ f ∈ r.live ∧ f.state = .runnable) ∧ (due.map Fiber.id).Nodup ∧
      (due.map Fiber.id).Sublist (r.queue ++ r.next) ∧
      Drains { r with queue := r.queue ++ r.next, next := [] } due s.tick ∧
      ∀ (more : List (Operation H)) (s' : Scheduler H), (∀ op ∈ more, op ≠ .tick ∧ op ≠ .cancelAll) →
        Operation.performAll more s = .ok s' → s.Enqueues s' := by
  have hstart := steady_create p svc limits heap host hown.polite
  obtain ⟨es, hsteps⟩ := Operation.steps_of_performAll hops hstart h
  have hs := hsteps.steady hstart
  have hopens : s.Step .mail [] { s with inbox := [] } := .mail (by simp)
  have hempty := hopens.steady hs
  obtain ⟨es', herrands⟩ := steps_doErrands s.inbox hs.sound.inbox hempty
  have hmerges := Step.merge (s := doErrands s.inbox { s with inbox := [] })
  have hmachine : (doErrands s.inbox { s with inbox := [] }).machine = (Machine.load p svc limits heap).1 :=
    ((hsteps.trans (hopens.steps.trans herrands)).ages hstart).machine
  have henqueues : s.Enqueues (doErrands s.inbox { s with inbox := [] }) := by
    have h := enqueues_doErrands s.inbox { s with inbox := [] }
    exact ⟨h.next, h.queue⟩
  have htick : s.tick = drain
      (maxRounds + ((doErrands s.inbox { s with inbox := [] }).queue ++
        (doErrands s.inbox { s with inbox := [] }).next).length)
      { doErrands s.inbox { s with inbox := [] } with
        queue := (doErrands s.inbox { s with inbox := [] }).queue ++
          (doErrands s.inbox { s with inbox := [] }).next
        next := [] } := rfl
  have hr := herrands.steady hempty
  generalize doErrands s.inbox { s with inbox := [] } = r at hr hmachine henqueues htick hmerges
  refine ⟨r, r.ready (r.queue ++ r.next), rfl, rfl, henqueues, fun f => hr.mem_ready_iff,
    hr.nodup_ready, r.ids_ready_sublist _, ?_, fun more s' hmore h' =>
      Operation.enqueues_of_performAll hmore h'⟩
  rw [htick]
  exact drains_drain (s := { r with queue := r.queue ++ r.next, next := [] }) (hmachine ▸ hown)
    (hmerges.steady hr) (maxRounds + (r.queue ++ r.next).length) (Nat.le_add_left _ _)

end

/-- A function that asks for something, reads the answer and goes on in the next tick. -/
def turningProgram : Program :=
  { functions := #[
      { code := #[.of .hostCallAsync 0, .of .await, .of .pop, .of .yield, .of .ret], maxStack := 1 }] }

/-- Somebody to ask, who answers at once. -/
def promptServices : Services (Stage Bench) :=
  { types := { types := [] }
    functions := { list := #[{
      name := "ask", async := some fun _ _ handle s => (.ok, s.resolve handle (.bool true)) }] } }

/-- Two fibers have yielded; then a third one is spawned and the first one is cancelled. -/
def turningOps : List (Operation Bench) := [.spawn 0, .spawn 0, .tick, .spawn 0, .cancel 1]

theorem answersOwn_prompt : (Machine.load turningProgram promptServices {} {}).1.AnswersOwn := by
  have hprompt {fn : Int} {h : HostFunction (Stage Bench)}
      (hfn : promptServices.functions.get? fn = some h) :
      h.sync = none ∧ h.async = some fun _ _ handle s => (.ok, s.resolve handle (.bool true)) := by
    have hmem := Functions.mem_of_get? hfn
    simp only [promptServices, List.mem_toArray, List.mem_singleton] at hmem
    subst hmem
    exact ⟨rfl, rfl⟩
  refine ⟨?_, ?_, ?_, ?_⟩
  · intro fn h call hfn hcall
    rw [(hprompt hfn).1] at hcall
    cases hcall
  · intro fn h call hfn hcall
    rw [(hprompt hfn).2] at hcall
    cases hcall
    intro c args handle s
    dsimp only
    unfold Stage.resolve
    split
    · rename_i t ht
      exact ⟨_, (HandleTable.Change.answer (a := .resolved _) ht).evolves, by simp⟩
    · exact ⟨[], .refl _, by simp⟩
  · intro type get hget
    cases hget
  · intro type set hset
    cases hset

theorem tick_takes_turns_prompt :
    ∃ s, Operation.performAll turningOps (.create turningProgram promptServices {} {} {}) = .ok s ∧
      s.queue = [3] ∧ s.next = [1, 2] ∧ (s.ready (s.queue ++ s.next)).map Fiber.id = [3, 2] ∧
      s.tick.map Scheduler.next = .ok [3] ∧
      ∃ r due, r = doErrands s.inbox { s with inbox := [] } ∧ due = r.ready (r.queue ++ r.next) ∧
        s.Enqueues r ∧
        (∀ f, f ∈ due ↔ f ∈ r.live ∧ f.state = .runnable) ∧ (due.map Fiber.id).Nodup ∧
        (due.map Fiber.id).Sublist (r.queue ++ r.next) ∧
        Drains { r with queue := r.queue ++ r.next, next := [] } due s.tick ∧
        ∀ (more : List (Operation Bench)) (s' : Scheduler Bench),
          (∀ op ∈ more, op ≠ .tick ∧ op ≠ .cancelAll) →
          Operation.performAll more s = .ok s' → s.Enqueues s' := by
  have hran : (Operation.performAll turningOps
      (.create turningProgram promptServices {} {} {})).toOption.any (fun s =>
        decide (s.queue = [3]) && decide (s.next = [1, 2]) &&
          decide ((s.ready (s.queue ++ s.next)).map Fiber.id = [3, 2]) &&
          decide (s.tick.map Scheduler.next = .ok [3])) = true := by
    decide +kernel
  obtain ⟨s, hs, hran⟩ := exists_of_any_toOption hran
  simp only [Bool.and_eq_true, decide_eq_true_eq] at hran
  obtain ⟨⟨⟨hqueue, hnext⟩, hready⟩, htick⟩ := hran
  have hops : ∀ op ∈ turningOps, op.Polite := by simp [turningOps, Operation.Polite]
  exact ⟨s, hs, hqueue, hnext, hready, htick,
    tick_takes_turns turningProgram promptServices {} {} {} answersOwn_prompt hops hs⟩

end TileMind
