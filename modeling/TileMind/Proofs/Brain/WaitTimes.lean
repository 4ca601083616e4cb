import TileMind.Proofs.Brain.Sleep
import TileMind.Proofs.Brain.Timers

/-!
# TileMind.Proofs.Brain.WaitTimes

When a wait ends. A call of `wait` gives its handle a timer, which is due when the delay has been added to
the clock. The tick whose clock reaches that time completes the handle, and no tick before, unless all
timers are cancelled in between.

The sum is cut to 64 bits. A wait that would end after the last time that can be told is due in the past,
so that it ends with the next tick.

* `Stage.Completing`: handles are completed one after the other.
* `Brain.Sleeps`, `Brain.Awaited`: a handle with a timer, and what becomes of it.
* `Request.SleepsOn`: what one request makes of handles that sleep.
* `wait_ends_when_due`: what becomes of the handle of a call of `wait`.
-/

namespace TileMind

open HandleTable (Evolves)

/-! ## Completing handles -/

namespace HandleTable

/-- The handle is pending in `t`, and completed with the answer in `u`; if nobody can read it, it is gone
then. -/
def Completes (t : HandleTable) (k : Nat) (a : Answer) (u : HandleTable) : Prop :=
  ∃ h, t.get? k = some h ∧ h.isDone = false ∧
    u.get? k = if h.owner = 0 ∧ h.waiters = [] then none else some (h.answered a)

section

variable {t u : HandleTable} {k j : Int} {a : Answer}

theorem Completes.shows {k : Nat} (h : t.Completes k a u) {x : Handle} (hx : u.get? k = some x) :
    x.Shows a := by
  obtain ⟨g, -, -, hg⟩ := h
  rw [hx] at hg
  split at hg
  · cases hg
  · cases hg
    exact g.shows_answered a

theorem get?_of_answer (h : t.answer j a = .ok u) (hne : k ≠ j) : u.get? k = t.get? k := by
  obtain ⟨g, -, -, ⟨-, rfl⟩ | rfl⟩ := answer_eq_ok h
  · rw [get?_erase, if_neg hne]
  · exact (t.get?_answered j k a).trans (if_neg hne)

theorem Pending.get? {k : Nat} (h : t.Pending k) (ht : t.Sound) :
    ∃ x, t.get? k = some x ∧ x.isDone = false := by
  obtain ⟨x, hx, rfl, hpending⟩ := h
  exact ⟨x, get?_of_mem ht.ids hx, hpending⟩

theorem pending_of_get? {k : Nat} {x : Handle} (hx : t.get? k = some x) (hpending : x.isDone = false) :
    t.Pending k := by
  obtain ⟨hmem, hid⟩ := mem_of_get? hx
  exact ⟨x, hmem, Int.ofNat_inj.mp hid, hpending⟩

end

end HandleTable

variable {W : Type}

/-- A way to complete handles that are pending, with answers of one kind. -/
structure Stage.Completing (P : Answer → Prop) (complete : Stage (Mind W) → Nat → Stage (Mind W)) :
    Prop where
  host : ∀ s j, (complete s j).host = s.host
  serves : ∀ (s : Stage (Mind W)) j, s.Serves (complete s j)
  handles : ∀ s (j : Nat), ∃ a, P a ∧
    (∀ u, s.handles.answer j a = .ok u → (complete s j).handles = u) ∧
    ∀ e, s.handles.answer j a = .error e → (complete s j).handles = s.handles

namespace Stage

section

variable {P : Answer → Prop} {complete : Stage (Mind W) → Nat → Stage (Mind W)} {s : Stage (Mind W)}
  {handles : List Nat} {k j : Nat} {x : Handle}

def finish (s : Stage (Mind W)) (h : Nat) : Stage (Mind W) := s.resolve h .void

/-- Cancels a handle if it can be. -/
def abandon (s : Stage (Mind W)) (h : Nat) : Stage (Mind W) :=
  match s.cancel h with
  | .ok s => s
  | .error _ => s

theorem completing_finish : Completing (· = .resolved .void) (finish (W := W)) where
  host s j := s.resolve_host j .void
  serves s j := Scheduler.serves_resolve s j .void
  handles s j := by
    refine ⟨_, rfl, fun u hu => ?_, fun e he => ?_⟩
    · have hu : s.handles.resolve j .void = .ok u := hu
      simp [finish, resolve, hu]
    · have he : s.handles.resolve j .void = .error e := he
      simp [finish, resolve, he]

theorem completing_abandon : Completing (fun a => ∃ ref, a = .cancelled ref) (abandon (W := W)) where
  host s j := Brain.cancelled_host s j
  serves s j := Brain.serves_cancelled s j
  handles s j := by
    let fault := s.newFault (cancelledHandle j)
    refine ⟨_, ⟨fault.1, rfl⟩, fun u hu => ?_, fun e he => ?_⟩
    · have hu : fault.2.handles.cancel j fault.1 = .ok u := hu
      have hcancel : s.cancel j = .ok { fault.2 with handles := u } := by
        simp only [cancel]
        rw [hu]
        rfl
      rw [abandon, hcancel]
    · have he : fault.2.handles.cancel j fault.1 = .error e := he
      have hcancel : s.cancel j = .error e := by
        simp only [cancel]
        rw [he]
        rfl
      rw [abandon, hcancel]

/-- Other handles are left alone, and so are those that are completed already. -/
theorem Completing.get?_eq (h : Completing P complete)
    (hk : k ≠ j ∨ ∀ x, s.handles.get? k = some x → x.isDone = true) :
    (complete s j).handles.get? k = s.handles.get? k := by
  obtain ⟨a, -, hok, herror⟩ := h.handles s j
  cases hanswer : s.handles.answer j a with
  | error e => rw [herror e hanswer]
  | ok u =>
    rw [hok u hanswer]
    refine HandleTable.get?_of_answer hanswer ?_
    rcases hk with hne | hdone
    · exact fun heq => hne (Int.ofNat_inj.mp heq)
    · obtain ⟨g, hg, hpending, -⟩ := HandleTable.answer_eq_ok hanswer
      intro heq
      rw [hdone g (heq ▸ hg)] at hpending
      cases hpending

theorem Completing.foldl_eq (h : Completing P complete)
    (hk : k ∉ handles ∨ ∀ x, s.handles.get? k = some x → x.isDone = true) :
    (handles.foldl complete s).handles.get? k = s.handles.get? k := by
  induction handles generalizing s with
  | nil => rfl
  | cons j handles ih =>
    have hfirst : (complete s j).handles.get? k = s.handles.get? k :=
      h.get?_eq (hk.imp_left fun hnone heq => hnone (heq ▸ List.mem_cons_self))
    rw [List.foldl_cons, ih, hfirst]
    rw [hfirst]
    exact hk.imp_left fun hnone hmem => hnone (List.mem_cons_of_mem _ hmem)

/-- A pending handle is completed when its turn comes. -/
theorem Completing.foldl_completes (h : Completing P complete) (hx : s.handles.get? k = some x)
    (hpending : x.isDone = false) (hmem : k ∈ handles) :
    ∃ a, P a ∧ s.handles.Completes k a (handles.foldl complete s).handles := by
  induction handles generalizing s with
  | nil => cases hmem
  | cons j handles ih =>
    by_cases hkj : k = j
    · subst hkj
      obtain ⟨a, ha, hok, -⟩ := h.handles s k
      have hanswered := hok _ (HandleTable.answer_of_pending hx hpending a)
      have hfirst : s.handles.Completes k a (complete s k).handles := by
        refine ⟨x, hx, hpending, ?_⟩
        rw [hanswered]
        split
        · rw [HandleTable.get?_erase, if_pos rfl]
        · refine (s.handles.get?_answered k k a).trans ?_
          rw [if_pos rfl, hx]
          rfl
      refine ⟨a, ha, ?_⟩
      obtain ⟨g, hg, hgpending, hthen⟩ := hfirst
      refine ⟨g, hg, hgpending, ?_⟩
      rw [List.foldl_cons, h.foldl_eq, hthen]
      exact .inr fun y hy => (HandleTable.Completes.shows ⟨g, hg, hgpending, hthen⟩ hy).isDone
    · have hother : (complete s j).handles.get? k = s.handles.get? k := h.get?_eq (.inl hkj)
      obtain ⟨a, ha, g, hg, hgpending, hthen⟩ := ih (hother.trans hx)
        ((List.mem_cons.mp hmem).resolve_left hkj)
      exact ⟨a, ha, g, hother ▸ hg, hgpending, hthen⟩

end

end Stage

namespace Brain

variable {b b' : Brain W} {k : Nat} {due : Int} {P : Answer → Prop}
  {complete : Stage (Mind W) → Nat → Stage (Mind W)} {handles : List Nat} {timers : TimerQueue}

/-! ## Timers -/

def Sleeps (b : Brain W) (k : Nat) (due : Int) : Prop := b.scheduler.stage.Sleeps k due

/-- What a tick does first: the clock advances, and handles that are due are completed. -/
def fired (b : Brain W) (dt : Int) : Brain W :=
  (b.setMind { b.mind with clock := advance b.mind.clock dt }).fireTimers

/-- What the brain does first when it turns to another page: no fiber is left. -/
def deserted (b : Brain W) : Brain W :=
  { (b.setMind { b.mind with pending := none }).cancelAll with fibers := {} }

def completed (b : Brain W) (complete : Stage (Mind W) → Nat → Stage (Mind W)) (handles : List Nat)
    (timers : TimerQueue) : Brain W :=
  { b with scheduler :=
    { b.scheduler with
      stage := handles.foldl complete
        (b.setMind { b.mind with timers := timers }).scheduler.stage }.deliver }

theorem fireTimers_eq (b : Brain W) :
    b.fireTimers = b.completed Stage.finish (b.mind.timers.due b.mind.clock.elapsed).1
      (b.mind.timers.due b.mind.clock.elapsed).2 := rfl

theorem cancelTimers_eq (b : Brain W) : b.cancelTimers = b.completed Stage.abandon b.mind.queued {} := rfl

theorem handles_completed (b : Brain W) :
    (b.completed complete handles timers).scheduler.stage.handles =
      { (handles.foldl complete
          (b.setMind { b.mind with timers := timers }).scheduler.stage).handles with outbox := [] } := by
  rw [completed, Scheduler.stage_deliver]
  rfl

theorem mind_completed (h : Stage.Completing P complete) (b : Brain W) :
    (b.completed complete handles timers).mind = { b.mind with timers := timers } := by
  rw [completed, mind, Scheduler.stage_deliver]
  exact foldl_host h.host handles _

/-- Handles are completed whose timers are taken from the queue. -/
theorem timely_completed (h : Stage.Completing P complete) (hb : b.scheduler.Timely)
    (hsorted : timers.Sorted) (hsub : timers.timers.map Timer.handle ⊆ b.mind.queued) :
    (b.completed complete handles timers).scheduler.Timely := by
  let start := (b.setMind { b.mind with timers := timers }).scheduler.stage
  have hhost : (handles.foldl complete start).host.timers = timers :=
    congrArg Mind.timers (foldl_host h.host handles start)
  obtain ⟨as, has⟩ := serves_foldl h.serves handles start
  have has : Evolves (fun _ => False) b.scheduler.stage.handles as (handles.foldl complete start).handles :=
    has
  have hstage : (handles.foldl complete start).Timely := by
    refine ⟨has.sound hb.stage.table, hhost ▸ hsorted, fun k hk => ?_⟩
    rw [Mind.queued, hhost] at hk
    exact (hb.stage.numbers k (hsub hk)).trans has.ages.lastId
  exact (Scheduler.Timely.deliver (s := { b.scheduler with stage := handles.foldl complete start })
    ⟨hb.services, hb.inbox, hstage⟩).timely

/-- A handle that sleeps is completed with the others. -/
theorem completes_completed (h : Stage.Completing P complete) (hb : b.scheduler.Timely)
    (hk : b.Sleeps k due) (hmem : k ∈ handles) :
    ∃ a, P a ∧ b.scheduler.stage.handles.Completes k a
      (b.completed complete handles timers).scheduler.stage.handles := by
  obtain ⟨x, hx, hpending⟩ := hk.pending.get? hb.stage.table
  rw [handles_completed]
  exact h.foldl_completes (s := (b.setMind { b.mind with timers := timers }).scheduler.stage) hx hpending
    hmem

theorem sleeps_completed (h : Stage.Completing P complete) (hb : b.scheduler.Timely)
    (hk : b.Sleeps k due) (hmem : k ∉ handles) (htimer : timers.timersOf k = [⟨due, k⟩]) :
    (b.completed complete handles timers).Sleeps k due := by
  obtain ⟨x, hx, hpending⟩ := hk.pending.get? hb.stage.table
  have hsame := h.foldl_eq (s := (b.setMind { b.mind with timers := timers }).scheduler.stage)
    (.inl hmem)
  refine ⟨HandleTable.pending_of_get? ?_ hpending, ?_⟩
  · rw [handles_completed]
    exact hsame.trans hx
  · have hmind : (b.completed complete handles timers).scheduler.stage.host =
        { b.mind with timers := timers } := mind_completed h b
    rw [hmind]
    exact htimer

section

variable (hb : b.scheduler.Timely)

include hb

theorem onward_setStage {stage : Stage (Mind W)} (h : b.scheduler.stage.Spares stage) :
    b.scheduler.Onward [] (b.setStage stage).scheduler :=
  hb.goes rfl hb.inbox (hb.stage.spares h)

theorem onward_setMind {m : Mind W} (h : m.timers = b.mind.timers) :
    b.scheduler.Onward [] (b.setMind m).scheduler :=
  onward_setStage hb (Stage.Leaves.spares ⟨rfl, h⟩)

theorem onward_setClock (clock : Clock) :
    b.scheduler.Onward [] (b.setMind { b.mind with clock := clock }).scheduler := onward_setMind hb rfl

theorem timely_fireTimers : b.fireTimers.scheduler.Timely := by
  rw [fireTimers_eq]
  refine timely_completed Stage.completing_finish hb (hb.stage.sorted.rest _) ?_
  exact ((List.dropWhile_sublist _).map Timer.handle).subset

theorem sleeps_fireTimers (hk : b.Sleeps k due) (hearly : b.mind.clock.elapsed < due) :
    b.fireTimers.Sleeps k due := by
  obtain ⟨hmem, htimer⟩ := hb.stage.sorted.timersOf_rest hk.timer hearly
  rw [fireTimers_eq]
  exact sleeps_completed Stage.completing_finish hb hk hmem htimer

theorem completes_fireTimers (hk : b.Sleeps k due) (hdue : due ≤ b.mind.clock.elapsed) :
    b.scheduler.stage.handles.Completes k (.resolved .void) b.fireTimers.scheduler.stage.handles := by
  rw [fireTimers_eq]
  obtain ⟨a, rfl, hcompletes⟩ := completes_completed Stage.completing_finish hb hk
    (hb.stage.sorted.mem_due hk.timer hdue)
  exact hcompletes

theorem timely_cancelTimers : b.cancelTimers.scheduler.Timely := by
  rw [cancelTimers_eq]
  exact timely_completed Stage.completing_abandon hb .nil (List.nil_subset _)

theorem completes_cancelTimers (hk : b.Sleeps k due) :
    ∃ ref, b.scheduler.stage.handles.Completes k (.cancelled ref)
      b.cancelTimers.scheduler.stage.handles := by
  rw [cancelTimers_eq]
  obtain ⟨a, ⟨ref, rfl⟩, hcompletes⟩ := completes_completed Stage.completing_abandon hb hk hk.queued
  exact ⟨ref, hcompletes⟩

theorem onward_deserted : b.scheduler.Onward [] b.deserted.scheduler := by
  have hnone := onward_setMind hb (m := { b.mind with pending := none }) rfl
  exact hnone.trans hnone.timely.cancelAll

theorem timely_cleared : b.cleared.scheduler.Timely := timely_cancelTimers (onward_deserted hb).timely

theorem cancels_cleared (hk : b.Sleeps k due) {x : Handle}
    (hx : b.cleared.scheduler.stage.handles.get? k = some x) : ∃ ref, x.Shows (.cancelled ref) := by
  have hends := onward_deserted hb
  obtain ⟨ref, hcompletes⟩ := completes_cancelTimers hends.timely (hends.stage.sleeps hk)
  exact ⟨ref, hcompletes.shows hx⟩

theorem timely_stop : b.stop.scheduler.Timely := by
  unfold Brain.stop
  split
  · exact hb
  · exact timely_cancelTimers hb.cancelAll.timely

theorem cancels_stop (hgoing : b.isStopped = false) (hk : b.Sleeps k due) {x : Handle}
    (hx : b.stop.scheduler.stage.handles.get? k = some x) : ∃ ref, x.Shows (.cancelled ref) := by
  obtain ⟨ref, hcompletes⟩ := completes_cancelTimers (b := b.cancelAll) hb.cancelAll.timely
    (hb.cancelAll.stage.sleeps hk)
  rw [Brain.stop, if_neg (by simp [hgoing])] at hx
  exact ⟨ref, hcompletes.shows hx⟩

theorem onward_startRule (func : Int) : b.scheduler.Onward [] (b.startRule func).scheduler := by
  unfold startRule
  split
  · exact hb.refl
  · split
    · rename_i hspawn
      exact hb.spawn hspawn
    · exact onward_setStage hb (Stage.Leaves.spares ⟨rfl, rfl⟩)

theorem onward_startRules : b.scheduler.Onward [] b.startRules.scheduler := by
  unfold startRules
  split
  · rename_i page _
    exact List.foldlRecOn page.roots startRule (motive := fun b' => b.scheduler.Onward [] b'.scheduler)
      hb.refl fun b' h func _ => h.trans (onward_startRule h.timely func)
  · exact hb.refl

end

theorem keeps_timely : Keeps (fun b : Brain W => b.scheduler.Timely) fun _ => True where
  clock clock hb := (onward_setClock hb clock).timely
  fire hb := timely_fireTimers hb
  waits _ _ := trivial
  clear hb := timely_cleared hb
  turn {b index} hb _ := (onward_setMind hb (m := { b.mind with active := index }) rfl).timely
  enter {b} site hb := by
    obtain hsame | ⟨f, hook, hf, hhook, hentered⟩ := b.enterSite_cases site
    · rwa [hsame]
    · rw [hentered]
      have hspares := (hb.services.functions f (Functions.mem_of_get? hf)).onPage hhook
        { program := b.program, func := -1, site := site.site } b.scheduler.stage
      exact (hb.work (hb.stage.spares hspares)).timely
  spawn hb hspawn := (hb.spawn hspawn).timely
  fault {b} heap path ref hb := by
    have hheap : b.scheduler.Onward [] (b.setStage { b.scheduler.stage with heap := heap }).scheduler :=
      onward_setStage hb (Stage.Leaves.spares ⟨rfl, rfl⟩)
    exact (onward_setMind hheap.timely (m := b.mind.record path ref) rfl).timely
  tick hb htick := (hb.tick htick).timely

/-! ## Requests -/

end Brain

/-- Host code of the operation keeps time. Completing a handle by its number is left to `act`, where it can
be seen whether the handle has a timer. -/
def Operation.KeepsTime : Operation (Mind W) → Prop
  | .post e => e.Within Stage.Spares
  | .act run => ∀ s : Stage (Mind W), s.Spares (run s)
  | .spawn _ | .tick | .cancel _ | .cancelAll => True
  | .resolve _ _ | .reject _ _ | .cancelHandle _ => False

namespace Brain

variable {b b' : Brain W} {k : Nat} {due : Int}

/-- Host code of the request keeps time, that of another program too. -/
def Request.KeepsTime : Request W → Prop
  | .ask (.operate op) => op.KeepsTime
  | .ask _ => True
  | .reload _ svc => ∀ svc' ∈ svc, svc'.KeepsTime

def Request.Reaches (b : Brain W) (due : Int) : Request W → Prop
  | .ask (.think dt) => b.isStopped = false ∧ due ≤ (advance b.mind.clock dt).elapsed
  | _ => False

/-- The request cancels all timers, and the brain is `b'` right after that. When the page changes, this is
in the middle of a tick. -/
inductive Request.Cancels (b : Brain W) : Request W → Brain W → Prop where
  | turn {dt index : Int} (going : b.isStopped = false) (pending : b.mind.pending = some index) :
      Cancels b (.ask (.think dt)) (b.fired dt).cleared
  | stop (going : b.isStopped = false) : Cancels b (.ask .stop) b.stop
  | reload {p : Program} {svc : Option (Services (Stage (Mind W)))} {b' : Brain W}
      (reload : b.reload p svc = .ok (none, b')) : Cancels b (.reload p svc) b'

/-- What becomes of a handle with a timer while requests are done. It sleeps on until either a tick reaches
its time, which resolves it before anything else happens, or all timers are cancelled. -/
inductive Awaited (k : Nat) (due : Int) : Brain W → List (Request W) → Prop where
  | nil {b : Brain W} (sleeps : b.Sleeps k due) : Awaited k due b []
  | sleeps {b b' : Brain W} {r : Request W} {rs : List (Request W)} (sleeps : b.Sleeps k due)
      (early : ¬ r.Reaches b due) (stays : ∀ b', ¬ r.Cancels b b') (perform : r.perform b = .ok b')
      (rest : Awaited k due b' rs) : Awaited k due b (r :: rs)
  | wakes {b : Brain W} {dt : Int} {rs : List (Request W)} (sleeps : b.Sleeps k due)
      (reaches : (Request.ask (.think dt)).Reaches b due)
      (completes : b.scheduler.stage.handles.Completes k (.resolved .void)
        (b.fired dt).scheduler.stage.handles) : Awaited k due b (.ask (.think dt) :: rs)
  | cancelled {b b' : Brain W} {r : Request W} {rs : List (Request W)} (sleeps : b.Sleeps k due)
      (early : ¬ r.Reaches b due) (cancels : r.Cancels b b')
      (gone : ∀ x, b'.scheduler.stage.handles.get? k = some x → ∃ ref, x.Shows (.cancelled ref)) :
      Awaited k due b (r :: rs)

section

variable (hb : b.scheduler.Timely)

include hb

theorem onward_operation {op : Operation (Mind W)} (hop : op.KeepsTime) (hne : op ≠ .tick)
    {s : Scheduler (Mind W)} (h : op.perform b.scheduler = .ok s) : b.scheduler.Onward [] s := by
  cases op with
  | spawn func =>
    obtain ⟨id, hspawn⟩ | rfl := Operation.spawn_of_perform h
    · exact hb.spawn hspawn
    · exact hb.refl
  | tick => exact absurd rfl hne
  | cancel fiber =>
    obtain ⟨f, -, rfl⟩ | rfl := Operation.cancel_of_perform h
    · exact hb.cancelFiber f
    · exact hb.refl
  | cancelAll =>
    cases h
    exact hb.cancelAll
  | post e =>
    cases h
    exact hb.goes rfl (List.forall_mem_append.mpr ⟨hb.inbox, List.forall_mem_singleton.mpr hop⟩)
      hb.stage.refl
  | act run =>
    cases h
    exact hb.work (hb.stage.spares (hop b.scheduler.stage))
  | resolve handle v | reject handle fault | cancelHandle handle => exact hop.elim

theorem timely_fired (dt : Int) : (b.fired dt).scheduler.Timely :=
  timely_fireTimers (onward_setClock hb _).timely

theorem sleeps_fired {dt : Int} (hk : b.Sleeps k due) (hearly : (advance b.mind.clock dt).elapsed < due) :
    (b.fired dt).Sleeps k due := by
  have hclock := onward_setClock hb (advance b.mind.clock dt)
  exact sleeps_fireTimers hclock.timely (hclock.stage.sleeps hk) hearly

theorem completes_fired {dt : Int} (hk : b.Sleeps k due)
    (hdue : due ≤ (advance b.mind.clock dt).elapsed) :
    b.scheduler.stage.handles.Completes k (.resolved .void) (b.fired dt).scheduler.stage.handles := by
  have hclock := onward_setClock hb (advance b.mind.clock dt)
  exact completes_fireTimers hclock.timely (hclock.stage.sleeps hk) hdue

omit hb in
theorem pending_fired (b : Brain W) (dt : Int) : (b.fired dt).mind.pending = b.mind.pending := by
  rw [fired, fireTimers_eq, mind_completed Stage.completing_finish]
  rfl

omit hb in
theorem opened_of_stays (dt : Int) (hpage : b.mind.pending = none) : b.opened dt = .ok (b.fired dt) := by
  have hnone : (b.fired dt).mind.pending = none := (b.pending_fired dt).trans hpage
  rw [fired] at hnone
  rw [opened, fired]
  simp only [hnone]

/-- What a tick has done before its fibers run, and what they do. -/
theorem onward_think {dt : Int} (h : b.think dt = .ok b') :
    ∃ ready, b.prepared dt = .ok ready ∧ ready.scheduler.Onward ready.scheduler.executed b'.scheduler := by
  rw [think_eq] at h
  cases hprepared : b.prepared dt with
  | error e =>
    rw [hprepared] at h
    cases h
  | ok ready =>
    rw [hprepared] at h
    have hready := keeps_timely.prepared hb hprepared
    simp only [Except.bind] at h
    split at h
    · cases h
    · rename_i s htick
      cases h
      exact ⟨ready, rfl, hready.tick htick⟩

/-- In a tick of a brain that stays on its page, what is not due sleeps on. -/
theorem sleeps_think {dt : Int} (hgoing : b.isStopped = false) (hpage : b.mind.pending = none)
    (hk : b.Sleeps k due) (hearly : (advance b.mind.clock dt).elapsed < due)
    (h : b.think dt = .ok b') : b'.Sleeps k due := by
  have hopened := opened_of_stays dt hpage
  obtain ⟨ready, hready, hruns⟩ := onward_think hb h
  rw [prepared_eq hgoing hopened] at hready
  cases hready
  have hstarts := onward_startRules (timely_fired hb dt)
  exact hruns.stage.sleeps (hstarts.stage.sleeps (sleeps_fired hb hk hearly))

end

/-- All that is set by the instructions of a command sleeps after it. -/
theorem onward_executed (hb : b.scheduler.Timely) {c : Command W} (h : c.perform b = .ok b')
    {e : Executed (Mind W)} (he : e ∈ c.executed b) : e.Lasts b'.scheduler.stage := by
  cases c with
  | think dt =>
    simp only [Command.executed] at he
    simp only [Command.perform] at h
    split at h
    · rename_i hthink
      cases h
      obtain ⟨ready, hready, hruns⟩ := onward_think hb hthink
      rw [hready] at he
      exact hruns.stage.sets e he
    · rename_i hrefused
      rw [think_eq] at hrefused
      cases hprepared : b.prepared dt with
      | error f =>
        rw [hprepared] at he
        cases he
      | ok ready =>
        rw [hprepared] at hrefused
        simp only [Except.bind] at hrefused
        split at hrefused <;> cases hrefused
    · cases h
  | operate op =>
    cases op with
    | tick =>
      simp only [Command.perform, Operation.perform] at h
      split at h
      · rename_i htick
        cases h
        exact (hb.tick htick).stage.sets e he
      · cases h
    | _ => cases he
  | _ => cases he

/-! ## From the start -/

theorem timely_scheduler {p : Program} {svc : Services (Stage (Mind W))} (hsvc : svc.KeepsTime)
    (limits : Limits) (heap : Heap) {m : Mind W} (hm : m.timers = {}) :
    (Scheduler.create p svc limits heap m).Timely := by
  have hmax := max_create p svc limits heap m
  have hpos := limits.filled_pos.2.1
  refine ⟨hsvc, fun e he => absurd he List.not_mem_nil, ⟨⟨.nil, ?_, ?_, ?_, ?_⟩, ?_, ?_⟩⟩
  · intro id hid
    cases hid
  · rw [hmax]
    exact Int.le_of_lt hpos
  · intro k h hk
    cases hk
  · intro c hc
    cases hc
  · change m.timers.Sorted
    rw [hm]
    exact .nil
  · intro k hk
    have hk : k ∈ m.timers.timers.map Timer.handle := hk
    rw [hm] at hk
    cases hk

theorem timely_create {p : Program} {svc : Services (Stage (Mind W))} (hsvc : svc.KeepsTime)
    {limits : Limits} {heap : Heap} {world : W} (h : create p svc limits heap world = .ok b) :
    b.scheduler.Timely := by
  unfold create at h
  split at h
  · cases h
  · cases h
    exact timely_scheduler hsvc limits heap rfl

theorem reload_eq_ok {q : Program} {svc : Option (Services (Stage (Mind W)))}
    (h : b.reload q svc = .ok (none, b')) : ∃ values, b' = b.reloaded q svc values := by
  cases hcheck : q.check with
  | error e =>
    unfold Brain.reload at h
    rw [hcheck] at h
    split at h <;> cases h
  | ok u =>
    rw [b.reload_eq hcheck svc] at h
    split at h
    · cases h
    · split at h
      · cases h
      · cases h
        exact ⟨_, rfl⟩

theorem timely_reloaded (hb : b.scheduler.Timely) {q : Program}
    {svc : Option (Services (Stage (Mind W)))} (hsvc : ∀ svc' ∈ svc, svc'.KeepsTime)
    (values : List (String × Value)) : (b.reloaded q svc values).scheduler.Timely := by
  have hkeeps : (svc.getD b.services).KeepsTime := by
    cases svc with
    | none => exact hb.services
    | some svc' => exact hsvc svc' rfl
  obtain ⟨hsame, -, -⟩ := restore_eq (W := W)
    { program := q, rules := Mind.rulesOf q, clock := b.mind.clock, faults := b.mind.faults,
      world := b.mind.world } values
  refine timely_scheduler hkeeps _ _ ?_
  change (restore (W := W) _ values).timers = {}
  rw [hsame]

/-! ## What becomes of a handle -/

/-- After the request handles sleep on, unless it reaches their time or cancels all timers. -/
structure Request.SleepsOn (r : Request W) (b b' : Brain W) : Prop where
  timely : b'.scheduler.Timely
  sleeps : ∀ {k due}, b.Sleeps k due → ¬ r.Reaches b due → (∀ b', ¬ r.Cancels b b') → b'.Sleeps k due

theorem Request.SleepsOn.of_onward {r : Request W} {es : List (Executed (Mind W))}
    (h : b.scheduler.Onward es b'.scheduler) : r.SleepsOn b b' :=
  ⟨h.timely, fun hk _ _ => h.stage.sleeps hk⟩

theorem sleepsOn_think (hb : b.scheduler.Timely) {dt : Int} (h : b.think dt = .ok b') :
    (Request.ask (.think dt)).SleepsOn b b' := by
  obtain ⟨ready, -, hruns⟩ := onward_think hb h
  refine ⟨hruns.timely, fun hk hearly hstays => ?_⟩
  have hgoing : b.isStopped = false := by
    cases hstopped : b.isStopped with
    | false => rfl
    | true => simp [Brain.think, hstopped] at h
  have hpage : b.mind.pending = none := by
    cases hpending : b.mind.pending with
    | none => rfl
    | some index => exact absurd (.turn hgoing hpending) (hstays _)
  exact sleeps_think hb hgoing hpage hk (not_le.mp fun hle => hearly ⟨hgoing, hle⟩) h

theorem sleepsOn_stop (hb : b.scheduler.Timely) : (Request.ask .stop).SleepsOn b b.stop := by
  refine ⟨timely_stop hb, fun hk _ hstays => ?_⟩
  cases hgoing : b.isStopped with
  | true =>
    rw [Brain.stop, if_pos hgoing]
    exact hk
  | false => exact absurd (.stop hgoing) (hstays _)

theorem sleepsOn_command (hb : b.scheduler.Timely) {c : Command W} (hc : (Request.ask c).KeepsTime)
    (h : c.perform b = .ok b') : (Request.ask c).SleepsOn b b' := by
  cases c with
  | think dt =>
    simp only [Command.perform] at h
    split at h
    · rename_i hthink
      cases h
      exact sleepsOn_think hb hthink
    · cases h
      exact .of_onward hb.refl
    · cases h
  | requestPage key =>
    simp only [Command.perform, requestPage_eq] at h
    cases hpage : b.mind.page? key with
    | none =>
      rw [hpage] at h
      cases h
      exact .of_onward hb.refl
    | some index =>
      rw [hpage] at h
      cases h
      exact .of_onward (onward_setMind hb rfl)
  | setVariable name v =>
    simp only [Command.perform, setVariable] at h
    cases hset : b.mind.setGlobal? name v with
    | none =>
      rw [hset] at h
      cases h
      exact .of_onward hb.refl
    | some m =>
      rw [hset] at h
      cases h
      obtain ⟨i, -, rfl⟩ := Option.map_eq_some_iff.mp hset
      exact .of_onward (onward_setMind hb rfl)
  | stop =>
    cases h
    exact sleepsOn_stop hb
  | operate op =>
    simp only [Command.perform] at h
    split at h
    · rename_i hop
      cases h
      by_cases htick : op = .tick
      · subst htick
        exact .of_onward (hb.tick hop)
      · exact .of_onward (onward_operation hb hc htick hop)
    · cases h

theorem sleepsOn_request (hb : b.scheduler.Timely) {r : Request W} (hr : r.KeepsTime)
    (h : r.perform b = .ok b') : r.SleepsOn b b' := by
  cases r with
  | ask c => exact sleepsOn_command hb hr h
  | reload q svc =>
    obtain rfl | hreload := Request.perform_reload h
    · exact .of_onward hb.refl
    · obtain ⟨values, hvalues⟩ := reload_eq_ok hreload
      exact ⟨hvalues ▸ timely_reloaded hb hr values, fun _ _ hstays => absurd (.reload hreload) (hstays _)⟩

theorem timely_requests (hb : b.scheduler.Timely) {rs : List (Request W)} (hrs : ∀ r ∈ rs, r.KeepsTime)
    (h : Request.performAll rs b = .ok b') : b'.scheduler.Timely := by
  induction rs generalizing b with
  | nil =>
    cases h
    exact hb
  | cons r rs ih =>
    obtain ⟨hr, hrs⟩ := List.forall_mem_cons.mp hrs
    rw [Request.performAll] at h
    split at h
    · rename_i hfirst
      exact ih (sleepsOn_request hb hr hfirst).timely hrs h
    · cases h

/-- What all timers are cancelled for leaves nothing pending. -/
theorem Request.Cancels.gone {r : Request W} (h : r.Cancels b b') (hb : b.scheduler.Timely)
    (hk : b.Sleeps k due) (hearly : ¬ r.Reaches b due) {x : Handle}
    (hx : b'.scheduler.stage.handles.get? k = some x) : ∃ ref, x.Shows (.cancelled ref) := by
  cases h with
  | @turn dt index going pending =>
    have hlate : (advance b.mind.clock dt).elapsed < due := not_le.mp fun hle => hearly ⟨going, hle⟩
    exact cancels_cleared (timely_fired hb dt) (sleeps_fired hb hk hlate) hx
  | stop going => exact cancels_stop hb going hk hx
  | reload hreload =>
    obtain ⟨values, rfl⟩ := reload_eq_ok hreload
    cases hx

/-- A handle that sleeps does so until its time is reached or it is cancelled. -/
theorem awaited_of_sleeps (hb : b.scheduler.Timely) (hk : b.Sleeps k due) {rs : List (Request W)}
    (hrs : ∀ r ∈ rs, r.KeepsTime) (h : Request.performAll rs b = .ok b') : Awaited k due b rs := by
  induction rs generalizing b with
  | nil => exact .nil hk
  | cons r rs ih =>
    obtain ⟨hr, hrs⟩ := List.forall_mem_cons.mp hrs
    rw [Request.performAll] at h
    split at h
    · rename_i b₁ hfirst
      by_cases hreaches : r.Reaches b due
      · obtain ⟨dt, rfl⟩ : ∃ dt, r = .ask (.think dt) := by
          unfold Request.Reaches at hreaches
          split at hreaches
          · exact ⟨_, rfl⟩
          · exact hreaches.elim
        exact .wakes hk hreaches (completes_fired hb hk hreaches.2)
      · by_cases hcancels : ∃ b', r.Cancels b b'
        · obtain ⟨b₂, hcancels⟩ := hcancels
          exact .cancelled hk hreaches hcancels fun x hx => hcancels.gone hb hk hreaches hx
        · have hstays := not_exists.mp hcancels
          have hon := sleepsOn_request hb hr hfirst
          exact .sleeps hk hreaches hstays hfirst
            (ih hon.timely (hon.sleeps hk hreaches hstays) hrs h)
    · cases h

end Brain

/-! ## Waiting -/

theorem Builtins.nanoseconds_ofNat {seconds : Nat} (h : seconds * 1000000000 < 2 ^ 53) :
    nanoseconds (Float.ofNat seconds) = seconds * 1000000000 := by
  have hsmall : seconds < 2 ^ 53 := by omega
  have hbillion : (1000000000.0 : Float) = Float.ofNat 1000000000 := by decide +kernel
  rcases Nat.eq_zero_or_pos seconds with rfl | hpos
  · decide +kernel
  · rw [nanoseconds, if_neg (Decimal.not_neg_ofNat hsmall), hbillion,
      Decimal.mul_ofNat hpos (by decide) h, Decimal.toInt64_ofNat h]
    push_cast
    rfl

/-- Any other number of seconds makes a delay that is the exact one without its fraction, or the next whole number
of nanoseconds. -/
theorem Builtins.nanoseconds_bounds {n : Float} {m : Nat} {q : Int} (hn : Decimal.parts n = .finite false m q)
    (hone : 1 ≤ (m : ℚ) * 2 ^ q * 1000000000) (hsmall : (m : ℚ) * 2 ^ q * 1000000000 < 2 ^ 53) :
    ⌊(m : ℚ) * 2 ^ q * 1000000000⌋ ≤ nanoseconds n ∧ nanoseconds n ≤ ⌈(m : ℚ) * 2 ^ q * 1000000000⌉ := by
  have hpos : m ≠ 0 := by
    rintro rfl
    norm_num at hone
  have hnormal := Decimal.normal_of_parts hn hpos
  have hfull : Decimal.IsFull m := by
    refine ⟨hnormal.full.resolve_right ?_, hnormal.lt⟩
    -- the least numbers are far below a nanosecond
    rintro rfl
    have htiny : (m : ℚ) * 2 ^ (-1074 : Int) * 1000000000 < 1 := by
      have hm : (m : ℚ) < 2 ^ (53 : Int) := by exact_mod_cast hnormal.lt
      calc (m : ℚ) * 2 ^ (-1074 : Int) * 1000000000
          < 2 ^ (53 : Int) * 2 ^ (-1074 : Int) * 2 ^ (30 : Int) := by
            gcongr
            norm_num
        _ = 2 ^ (-991 : Int) := by
            rw [← zpow_add₀ two_ne_zero, ← zpow_add₀ two_ne_zero]
            rfl
        _ < 1 := zpow_lt_one_of_neg₀ one_lt_two (by decide)
    linarith
  have hbillion : (1000000000.0 : Float) = Float.ofNat 1000000000 := by decide +kernel
  have hbounds := Decimal.toInt64_mul_ofNat hfull hn (by decide) (by decide)
    (show (m : ℚ) * 2 ^ q * (1000000000 : Nat) < 2 ^ 53 by exact_mod_cast hsmall)
  rw [nanoseconds, if_neg (Decimal.not_neg_of_unpack (hfull.unpack_of_parts hn)), hbillion]
  exact_mod_cast hbounds

/-- The instruction sets a timer as a call of `wait` with the number `n` does for the handle `k`. -/
def Executed.Waits (e : Executed (Mind W)) (n : Float) (k : Nat) : Prop :=
  e.after.timers = (e.before.after (Builtins.nanoseconds n) k).timers

instance (e : Executed (Mind W)) (n : Float) (k : Nat) : Decidable (e.Waits n k) :=
  inferInstanceAs (Decidable (_ = _))

/-- A call of `wait` with a number creates a handle, and does no more than to set its timer. -/
theorem callAsync_wait {m : Machine (Mind W)} {fn : Int}
    (hfn : m.services.functions.get? fn = some Builtins.wait) (f : Fiber) (site func : Int) {args : Value}
    {s : Stage (Mind W)} {n : Float} (hn : (s.heap.argAt args 0).number? = some n) {k : Nat}
    {table : HandleTable} (hroom : s.handles.create? f.id = some (k, table)) :
    m.callAsync f fn site func args s = .ok (.ok k, { f with handles := f.handles ++ [k] },
      { s with handles := table, host := s.host.after (Builtins.nanoseconds n) k }) := by
  have hduration : Builtins.duration s.heap (s.heap.argAt args 0) = .ok (Builtins.nanoseconds n) := by
    rw [Builtins.duration, hn]
  unfold Machine.callAsync
  rw [hfn]
  simp only [Option.bind_some, Builtins.wait, Option.map_some, Machine.startAsync, Machine.createHandle,
    hroom, hduration]
  rfl

theorem Executed.Lasts.sleeps {e : Executed (Mind W)} {t : Stage (Mind W)} (h : e.Lasts t) {n : Float}
    {k : Nat} (hwaits : e.Waits n k) :
    t.Sleeps k (Decimal.wrap64 (e.before.clock.elapsed + Builtins.nanoseconds n)) := by
  have hadded : e.after.timers = e.before.timers.add
      (Decimal.wrap64 (e.before.clock.elapsed + Builtins.nanoseconds n)) k := hwaits
  rcases h with hsame | ⟨due, j, hsets, hsleeps⟩
  · exact absurd (hadded.symm.trans hsame) (TimerQueue.add_ne _ _ _)
  · obtain ⟨rfl, rfl⟩ := TimerQueue.add_inj (hsets.symm.trans hadded)
    exact hsleeps

/-- In any brain whose host code keeps time, `wait` sets a timer for its handle, and whatever is asked of
the brain after a command in which that happened, the handle sleeps until a tick reaches the time that is
due or all timers are cancelled: the tick that reaches it resolves the handle, and none before. It is due
at the time of the call with the delay added, if that sum has 64 bits. A whole number of seconds makes a
delay of exactly as many nanoseconds as it should, as long as these are below `2^53`. The product of any other
number `m · 2^q` with `10^9` is rounded: the delay is not shorter than the exact product without its fraction, and
not longer than the next whole number. -/
theorem wait_ends_when_due {p : Program} {svc : Services (Stage (Mind W))} (hsvc : svc.KeepsTime)
    {limits : Limits} {heap : Heap} {world : W} {b b₁ b₂ b₃ : Brain W}
    (hcreate : Brain.create p svc limits heap world = .ok b) {rs rs' : List (Brain.Request W)}
    (hrs : ∀ r ∈ rs, r.KeepsTime) (h₁ : Brain.Request.performAll rs b = .ok b₁) {c : Brain.Command W}
    (hc : (Brain.Request.ask c).KeepsTime) (h₂ : c.perform b₁ = .ok b₂)
    (hrs' : ∀ r ∈ rs', r.KeepsTime) (h₃ : Brain.Request.performAll rs' b₂ = .ok b₃) :
    (∀ fn f site func args s n k table, b₁.services.functions.get? fn = some Builtins.wait →
      (s.heap.argAt args 0).number? = some n → s.handles.create? f.id = some (k, table) →
      b₁.scheduler.machine.callAsync f fn site func args s =
        .ok (.ok k, { f with handles := f.handles ++ [k] },
          { s with handles := table, host := s.host.after (Builtins.nanoseconds n) k })) ∧
    (∀ seconds, seconds * 1000000000 < 2 ^ 53 →
      Builtins.nanoseconds (Float.ofNat seconds) = seconds * 1000000000) ∧
    (∀ n m q, Decimal.parts n = .finite false m q → 1 ≤ (m : ℚ) * 2 ^ q * 1000000000 →
      (m : ℚ) * 2 ^ q * 1000000000 < 2 ^ 53 →
      ⌊(m : ℚ) * 2 ^ q * 1000000000⌋ ≤ Builtins.nanoseconds n ∧
      Builtins.nanoseconds n ≤ ⌈(m : ℚ) * 2 ^ q * 1000000000⌉) ∧
    ∀ e ∈ c.executed b₁, ∀ n k, e.Waits n k →
      ∃ due, due = Decimal.wrap64 (e.before.clock.elapsed + Builtins.nanoseconds n) ∧
        (-2 ^ 63 ≤ e.before.clock.elapsed + Builtins.nanoseconds n →
          e.before.clock.elapsed + Builtins.nanoseconds n < 2 ^ 63 →
          due = e.before.clock.elapsed + Builtins.nanoseconds n) ∧
        Brain.Awaited k due b₂ rs' := by
  have hb₁ := Brain.timely_requests (Brain.timely_create hsvc hcreate) hrs h₁
  have hb₂ := (Brain.sleepsOn_command hb₁ hc h₂).timely
  refine ⟨fun fn f site func args s n k table hfn hn hroom => callAsync_wait hfn f site func hn hroom,
    fun seconds hsmall => Builtins.nanoseconds_ofNat hsmall, fun n m q => Builtins.nanoseconds_bounds,
    fun e he n k hwaits => ⟨_, rfl, ?_, ?_⟩⟩
  · exact Decimal.wrap64_of_range
  · have hsleeps := (Brain.onward_executed hb₁ h₂ he).sleeps hwaits
    exact Brain.awaited_of_sleeps hb₂ hsleeps hrs' h₃

def nightfall : List (Brain.Request Unit) :=
  [.ask (.think 1000000000), .ask (.requestPage "night"), .ask (.think 0)]

/-- Both rules of the page begin to wait, one for two seconds and one for a single second. -/
theorem wait_ends_when_due_sleeping :
    ∃ p diags b b₁ b₂, compile shadowingEnv sleepingBrain = .ok (p, diags) ∧
      Brain.create p shadowingEnv.services {} {} () = .ok b ∧ b.think 0 = .ok b₁ ∧
      Brain.Request.performAll nightfall b₁ = .ok b₂ ∧
      Brain.Awaited 1 2000000000 b₁ nightfall ∧ Brain.Awaited 2 1000000000 b₁ nightfall := by
  have hran : (compile shadowingEnv sleepingBrain).toOption.any (fun r =>
      (Brain.create r.1 shadowingEnv.services {} {} ()).toOption.any fun b =>
        (((Brain.Command.think 0).executed b).any fun e =>
          decide (e.Waits 2.0 1) && decide (e.before.clock.elapsed = 0)) &&
        ((((Brain.Command.think 0).executed b).any fun e =>
          decide (e.Waits 1.0 2) && decide (e.before.clock.elapsed = 0)) &&
        (b.think 0).toOption.any fun b₁ =>
          (Brain.Request.performAll nightfall b₁).toOption.isSome)) = true := by
    decide +kernel
  obtain ⟨⟨p, diags⟩, hp, hran⟩ := exists_of_any_toOption hran
  obtain ⟨b, hb, hran⟩ := exists_of_any_toOption hran
  simp only [Bool.and_eq_true, List.any_eq_true, decide_eq_true_eq] at hran
  obtain ⟨⟨e, he, hlong, hzero⟩, ⟨e', he', hshort, hzero'⟩, hran⟩ := hran
  obtain ⟨b₁, hb₁, hran⟩ := exists_of_any_toOption hran
  cases hb₂ : Brain.Request.performAll nightfall b₁ with
  | error c =>
    rw [hb₂] at hran
    cases hran
  | ok b₂ =>
    have hperform : (Brain.Command.think 0).perform b = .ok b₁ := by rw [Brain.Command.perform, hb₁]
    have hnight : ∀ r ∈ nightfall, r.KeepsTime := by simp [nightfall, Brain.Request.KeepsTime]
    have hstart : ∀ r ∈ ([] : List (Brain.Request Unit)), r.KeepsTime := by simp
    obtain ⟨-, -, -, hends⟩ := wait_ends_when_due onlyWaits_shadowingEnv.keepsTime hb hstart rfl
      (c := .think 0) trivial hperform hnight hb₂
    obtain ⟨due, rfl, -, hawaited⟩ := hends e he 2.0 1 hlong
    obtain ⟨due', rfl, -, hawaited'⟩ := hends e' he' 1.0 2 hshort
    have hdue : Decimal.wrap64 (0 + Builtins.nanoseconds 2.0) = 2000000000 := by decide +kernel
    have hdue' : Decimal.wrap64 (0 + Builtins.nanoseconds 1.0) = 1000000000 := by decide +kernel
    rw [hzero, hdue] at hawaited
    rw [hzero', hdue'] at hawaited'
    exact ⟨p, diags, b, b₁, b₂, hp, hb, hb₁, hb₂, hawaited, hawaited'⟩

def patientBrain : BrainDef := { pages := [{ rules := [{ doRow := "wait 9223372036" }] }] }

/-- The rule calls `wait` after one second. Its delay has 64 bits, but the time at which it would be over
has not, and the next tick resolves the handle a nanosecond later. -/
theorem wait_of_centuries_ends_at_once :
    ∃ p diags b b₁ b₂, compile shadowingEnv patientBrain = .ok (p, diags) ∧
      Brain.create p shadowingEnv.services {} {} () = .ok b ∧ b.think 1000000000 = .ok b₁ ∧
      b₁.think 1 = .ok b₂ ∧ Builtins.nanoseconds 9223372036.0 = 9223372036 * 1000000000 ∧
      (∃ e ∈ (Brain.Command.think 1000000000).executed b, e.Waits 9223372036.0 1 ∧
        (b₁.fired 1).mind.clock.elapsed < e.before.clock.elapsed + Builtins.nanoseconds 9223372036.0) ∧
      (b₁.fired 1).mind.clock.elapsed = 1000000001 ∧
      (∃ x, b₁.scheduler.stage.handles.get? 1 = some x ∧ x.state = .pending) ∧
      ∃ x, (b₁.fired 1).scheduler.stage.handles.get? 1 = some x ∧ x.state = .resolved := by
  have hran : (compile shadowingEnv patientBrain).toOption.any (fun r =>
      (Brain.create r.1 shadowingEnv.services {} {} ()).toOption.any fun b =>
        (b.think 1000000000).toOption.any fun b₁ => (b₁.think 1).toOption.any fun _ =>
          (((Brain.Command.think 1000000000).executed b).any fun e =>
            decide (e.Waits 9223372036.0 1) && decide ((b₁.fired 1).mind.clock.elapsed <
              e.before.clock.elapsed + Builtins.nanoseconds 9223372036.0)) &&
          (decide ((b₁.fired 1).mind.clock.elapsed = 1000000001) &&
          (((b₁.scheduler.stage.handles.get? 1).any fun x => decide (x.state = .pending)) &&
          ((b₁.fired 1).scheduler.stage.handles.get? 1).any fun x =>
            decide (x.state = .resolved)))) = true := by
    decide +kernel
  obtain ⟨⟨p, diags⟩, hp, hran⟩ := exists_of_any_toOption hran
  obtain ⟨b, hb, hran⟩ := exists_of_any_toOption hran
  obtain ⟨b₁, hb₁, hran⟩ := exists_of_any_toOption hran
  obtain ⟨b₂, hb₂, hran⟩ := exists_of_any_toOption hran
  simp only [Bool.and_eq_true, List.any_eq_true, Option.any_eq_true, decide_eq_true_eq] at hran
  exact ⟨p, diags, b, b₁, b₂, hp, hb, hb₁, hb₂, by decide +kernel, hran⟩

end TileMind
