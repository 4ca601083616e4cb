import TileMind.Proofs.Brain.Waits
import TileMind.Proofs.Machine.Operations

/-!
# TileMind.Proofs.Brain.Sleep

Handles that have a timer, while fibers run. Host code may do what it likes with handles of its own, as
long as it leaves the timers alone and completes no handle that has one.

* `HostFunction.KeepsTime`: host code that does so, apart from a timer for the handle that it is called
  for.
* `Stage.Sleeps`: a pending handle with its timer.
* `Evolves.pending`: a handle stays pending until it is answered.
* `Stage.Onward`: handles that sleep go on sleeping, and those that are given a timer fall asleep.
* `Scheduler.onward_tick`: this is what a tick does.
-/

namespace TileMind

open HandleTable (Evolves Change)

/-! ## Pending handles -/

namespace HandleTable

section

variable {atWork : Nat → Prop} {t u : HandleTable} {as : List (Int × Answer)} {k : Nat}

theorem pending_releaseOne (hids : (t.handles.map Handle.id).Nodup) (fiber j : Nat)
    (hk : t.Pending k) : (t.releaseOne fiber j).Pending k := by
  unfold releaseOne
  split
  · exact hk
  · rename_i h hfound
    obtain ⟨hh, hid⟩ := mem_of_get? hfound
    split
    · exact hk
    · dsimp only
      split
      · rename_i hgone
        refine pending_erase.mpr ⟨hk, fun heq => ?_⟩
        obtain rfl : k = h.id := by omega
        exact not_pending hids hh (Bool.and_eq_true_iff.mp hgone).1 hk
      · refine (pending_update (fun g hg => ?_) fun g hg hgid => ?_).mpr hk
        · simp only [Handle.removeWaiter]
          omega
        · obtain rfl : g = h := List.inj_on_of_nodup_map hids hg hh (by omega)
          rfl

theorem Change.pending (h : Change atWork t as u) (hids : (t.handles.map Handle.id).Nodup)
    (hk : t.Pending k) (hnone : ∀ a ∈ as, a.1 ≠ k) : u.Pending k := by
  cases h with
  | create h => exact (pending_create h).mpr (.inl hk)
  | @answer j a u h =>
    have hne : (k : Int) ≠ j := fun heq => hnone _ (List.mem_singleton_self _) heq.symm
    obtain ⟨g, -, -, ⟨-, rfl⟩ | rfl⟩ := answer_eq_ok h
    · exact pending_erase.mpr ⟨hk, hne⟩
    · exact (pending_answered a).mpr ⟨hk, hne⟩
  | @consume fiber hf j h found done =>
    have hh := (mem_of_get? found).1
    rw [consume_eq hids hh]
    split
    · refine pending_erase.mpr ⟨hk, fun heq => ?_⟩
      obtain rfl : k = h.id := Int.ofNat_inj.mp heq
      exact not_pending hids hh done hk
    · exact (pending_update (f := fun h => h.removeWaiter fiber) (fun _ _ => rfl) fun _ _ _ => rfl).mpr hk
  | park hf found pending =>
    refine (pending_update (fun g _ => ?_) fun g _ _ => ?_).mpr hk
    · unfold Handle.addWaiter
      split <;> rfl
    · unfold Handle.addWaiter
      split <;> rfl
  | @leave fiber hf j =>
    exact (pending_update (f := fun h => h.removeWaiter fiber) (fun _ _ => rfl) fun _ _ _ => rfl).mpr hk
  | @release fiber hf j => exact pending_releaseOne hids fiber j hk

theorem Evolves.pending (h : Evolves atWork t as u) (ht : t.Sound) (hk : t.Pending k)
    (hnone : ∀ a ∈ as, a.1 ≠ k) : u.Pending k := by
  induction h with
  | refl t => exact hk
  | step change _ ih =>
    obtain ⟨hfirst, hrest⟩ := List.forall_mem_append.mp hnone
    exact ih (change.sound ht) (change.pending ht.ids hk hfirst) hrest

end

end HandleTable

variable {W : Type}

/-! ## Host code -/

/-- Host code leaves the timers alone, and completes no handle that has one. -/
structure Stage.Spares (s t : Stage (Mind W)) : Prop where
  timers : t.host.timers = s.host.timers
  handles : ∃ as, Evolves (fun _ => True) s.handles as t.handles ∧
    ∀ a ∈ as, ∀ k ∈ s.host.queued, a.1 ≠ (k : Int)

/-- Host code sets a timer for one handle, and completes neither this handle nor another one that has a
timer. -/
structure Stage.Sets (id : Nat) (due : Int) (s t : Stage (Mind W)) : Prop where
  timers : t.host.timers = s.host.timers.add due id
  handles : ∃ as, Evolves (fun _ => True) s.handles as t.handles ∧
    ∀ a ∈ as, ∀ k ∈ t.host.queued, a.1 ≠ (k : Int)

/-- A host function that completes no handle that has a timer, and sets timers only for the handle that
it is called for, and only if the call does not fail. -/
structure HostFunction.KeepsTime (f : HostFunction (Stage (Mind W))) : Prop where
  sync : ∀ {call}, f.sync = some call → ∀ c args (s : Stage (Mind W)), s.Spares (call c args s).2
  async : ∀ {call}, f.async = some call → ∀ c args {id} {s : Stage (Mind W)}, s.handles.Pending id →
    id ∉ s.host.queued → s.Spares (call c args id s).2 ∨
      (call c args id s).1 = .ok ∧ ∃ due, s.Sets id due (call c args id s).2
  onPage : ∀ {hook}, f.onPage = some hook → ∀ c (s : Stage (Mind W)), s.Spares (hook c s)

/-- The same of all host functions and of the hooks of types. -/
structure Services.KeepsTime (svc : Services (Stage (Mind W))) : Prop where
  functions : ∀ f ∈ svc.functions.list, f.KeepsTime
  hooks : svc.HooksWithin Stage.Spares

section

variable {s t u : Stage (Mind W)}

theorem Stage.Spares.of_evolves (htimers : t.host.timers = s.host.timers)
    (h : Evolves (fun _ => True) s.handles [] t.handles) : s.Spares t :=
  ⟨htimers, [], h, by simp⟩

theorem Stage.Leaves.spares (h : s.Leaves t) : s.Spares t :=
  .of_evolves h.timers (h.handles ▸ .refl _)

theorem Stage.Spares.refl (s : Stage (Mind W)) : s.Spares s := (Stage.Leaves.refl s).spares

theorem Stage.Spares.queued (h : s.Spares t) : t.host.queued = s.host.queued := by
  rw [Mind.queued, h.timers, Mind.queued]

theorem Stage.Spares.trans (h : s.Spares t) (h' : t.Spares u) : s.Spares u := by
  obtain ⟨as, has, hspared⟩ := h.handles
  obtain ⟨bs, hbs, hspared'⟩ := h'.handles
  rw [h.queued] at hspared'
  exact ⟨h'.timers.trans h.timers, as ++ bs, has.trans hbs, List.forall_mem_append.mpr ⟨hspared, hspared'⟩⟩

theorem Stage.Spares.answer (h : s.Spares t) {id : Nat} {a : Answer} {table : HandleTable}
    (hid : id ∉ s.host.queued) (hanswer : t.handles.answer id a = .ok table) :
    s.Spares { t with handles := table } := by
  refine h.trans ⟨rfl, _, (Change.answer hanswer).evolves, ?_⟩
  rintro _ hb k hk heq
  rw [List.mem_singleton.mp hb] at heq
  rw [h.queued] at hk
  exact hid (Int.ofNat_inj.mp heq ▸ hk)

theorem Stage.Spares.resolve (h : s.Spares t) {id : Nat} (hid : id ∉ s.host.queued) (v : Value) :
    s.Spares (t.resolve id v) := by
  unfold Stage.resolve
  split
  · rename_i hanswer
    exact h.answer (a := .resolved v) hid hanswer
  · exact h

theorem Stage.Spares.reject (h : s.Spares t) {id : Nat} (hid : id ∉ s.host.queued)
    (fault : Option Nat) : s.Spares (t.reject id fault) := by
  unfold Stage.reject
  split
  · rename_i hanswer
    exact h.answer (a := .rejected fault) hid hanswer
  · exact h

/-- What a call makes of the handle that it is called for: it may be given a timer. -/
def Stage.Hands (id : Nat) (s t : Stage (Mind W)) : Prop :=
  s.handles.Pending id → id ∉ s.host.queued → s.Spares t ∨ ∃ due, s.Sets id due t

end

/-- Host code that has nothing to do with handles and timers keeps time, and so does `wait`. -/
theorem HostFunction.OnlyWaits.keepsTime {f : HostFunction (Stage (Mind W))} (h : f.OnlyWaits) :
    f.KeepsTime where
  sync hcall c args s := (h.sync hcall c args s).spares
  async hcall c args id s _ _ := by
    rcases h.async with hnone | rfl
    · rw [hnone] at hcall
      cases hcall
    · obtain ⟨delay, hok⟩ | ⟨refusal, -, hfail⟩ := begins_wait hcall c args id s
      · rw [hok]
        exact .inr ⟨rfl, _, rfl, [], .refl _, by simp⟩
      · rw [hfail]
        exact .inl (.refl s)
  onPage hhook c s := (h.onPage hhook c s).spares

theorem Services.OnlyWaits.keepsTime {svc : Services (Stage (Mind W))} (h : svc.OnlyWaits) :
    svc.KeepsTime where
  functions f hf := (h.functions f hf).keepsTime
  hooks := h.hooks.mono Stage.Leaves.spares

section

variable {m : Machine (Mind W)}

theorem Services.KeepsTime.deals (h : m.services.KeepsTime) : m.Deals Stage.Spares Stage.Hands where
  trans := .trans
  heap s heap := Stage.Leaves.spares ⟨rfl, rfl⟩
  store s func var v := Stage.Leaves.spares ⟨rfl, s.host.timers_updateCells func var _⟩
  sync hf hcall := (h.functions _ (Functions.mem_of_get? hf)).sync hcall
  get hget _ _ _ _ hr := h.hooks.get hget hr
  set hset _ _ _ _ _ hr := h.hooks.set hset hr
  started hf hcall c args id s t hcalled hpending hfree := by
    have hkeeps := (h.functions _ (Functions.mem_of_get? hf)).async hcall c args hpending hfree
    rw [hcalled] at hkeeps
    exact hkeeps.imp_right And.right
  refused hf hcall c args id start s t hcalled hstart heap fault hpending hfree := by
    have hkeeps := (h.functions _ (Functions.mem_of_get? hf)).async hcall c args hpending hfree
    rw [hcalled] at hkeeps
    have hspares := hkeeps.resolve_right fun hok => hstart hok.1
    have hheap : s.Spares { t with heap := heap } := hspares.trans (Stage.Leaves.spares ⟨rfl, rfl⟩)
    exact .inl (hheap.reject hfree fault)
  answered s id v _ hfree := .inl ((Stage.Spares.refl s).resolve hfree v)

end

/-! ## Sleeping -/

/-- The timers are in order, and their handles have been handed out. -/
structure Stage.Timely (s : Stage (Mind W)) : Prop where
  table : s.handles.Sound
  sorted : s.host.timers.Sorted
  numbers : ∀ k ∈ s.host.queued, k ≤ s.handles.lastId

/-- The handle is pending, and has one timer. -/
structure Stage.Sleeps (s : Stage (Mind W)) (k : Nat) (due : Int) : Prop where
  pending : s.handles.Pending k
  timer : s.host.timers.timersOf k = [⟨due, k⟩]

/-- If the instruction sets a timer, the handle sleeps in the end. -/
def Executed.Lasts (e : Executed (Mind W)) (t : Stage (Mind W)) : Prop :=
  e.after.timers = e.before.timers ∨
    ∃ due k, e.after.timers = e.before.timers.add due k ∧ t.Sleeps k due

/-- Handles that sleep go on sleeping, and so do those that instructions set a timer for meanwhile. -/
structure Stage.Onward (s : Stage (Mind W)) (es : List (Executed (Mind W))) (t : Stage (Mind W)) :
    Prop where
  timely : t.Timely
  sleeps : ∀ {k due}, s.Sleeps k due → t.Sleeps k due
  sets : ∀ e ∈ es, e.Lasts t

section

variable {s t u : Stage (Mind W)} {es es' : List (Executed (Mind W))} {id k : Nat} {due : Int}

theorem Executed.Lasts.onward {e : Executed (Mind W)} (he : e.Lasts s) (h : s.Onward es t) :
    e.Lasts t :=
  he.imp_right fun ⟨due, k, hsets, hsleeps⟩ => ⟨due, k, hsets, h.sleeps hsleeps⟩

theorem Stage.Onward.trans (h : s.Onward es t) (h' : t.Onward es' u) : s.Onward (es ++ es') u :=
  ⟨h'.timely, fun hs => h'.sleeps (h.sleeps hs),
    List.forall_mem_append.mpr ⟨fun e he => (h.sets e he).onward h', h'.sets⟩⟩

theorem Stage.Timely.refl (hs : s.Timely) : s.Onward [] s := ⟨hs, id, by simp⟩

theorem Stage.Timely.same (hs : s.Timely) (hhandles : t.handles = { s.handles with outbox := [] })
    (htimers : t.host.timers = s.host.timers) : s.Onward [] t := by
  obtain ⟨hids, hbounded, hsize, hwaiters, -⟩ := hs.table
  refine ⟨⟨?_, ?_, ?_⟩, fun h => ⟨?_, ?_⟩, by simp⟩
  · rw [hhandles]
    exact ⟨hids, hbounded, hsize, hwaiters, by simp⟩
  · rw [htimers]
    exact hs.sorted
  · rw [hhandles, Mind.queued, htimers]
    exact hs.numbers
  · rw [hhandles]
    exact h.pending
  · rw [htimers]
    exact h.timer

theorem Stage.Sleeps.queued (h : s.Sleeps k due) : k ∈ s.host.queued := by
  have hmem : (⟨due, k⟩ : Timer) ∈ s.host.timers.timersOf k := h.timer ▸ List.mem_singleton_self _
  exact List.mem_map.mpr ⟨_, (List.mem_filter.mp hmem).1, rfl⟩

theorem Stage.Timely.spares (hs : s.Timely) (h : s.Spares t) : s.Onward [] t := by
  obtain ⟨as, has, hspared⟩ := h.handles
  refine ⟨⟨has.sound hs.table, h.timers ▸ hs.sorted, fun k hk => ?_⟩, fun hsleeps => ⟨?_, ?_⟩, by simp⟩
  · rw [h.queued] at hk
    exact (hs.numbers k hk).trans has.ages.lastId
  · exact has.pending hs.table hsleeps.pending fun a ha => hspared a ha _ hsleeps.queued
  · rw [h.timers]
    exact hsleeps.timer

theorem Stage.Timely.sets (hs : s.Timely) (h : s.Sets id due t) (hpending : s.handles.Pending id)
    (hnew : id ∉ s.host.queued) : s.Onward [] t ∧ t.Sleeps id due := by
  obtain ⟨as, has, hspared⟩ := h.handles
  have hqueued (k : Nat) : k ∈ t.host.queued ↔ k = id ∨ k ∈ s.host.queued := by
    rw [Mind.queued, h.timers, ((s.host.timers.add_perm due id).map Timer.handle).mem_iff]
    exact List.mem_cons
  have hbound : id ≤ s.handles.lastId := by
    obtain ⟨x, hx, rfl, -⟩ := hpending
    exact hs.table.bounded _ (List.mem_map_of_mem hx)
  have hstays {k : Nat} (hk : k ∈ t.host.queued) (hpending : s.handles.Pending k) :
      t.handles.Pending k := has.pending hs.table hpending fun a ha => hspared a ha k hk
  refine ⟨⟨⟨has.sound hs.table, ?_, fun k hk => ?_⟩, fun {k _} hsleeps => ⟨?_, ?_⟩, by simp⟩, ?_, ?_⟩
  · rw [h.timers]
    exact hs.sorted.add due id
  · rcases (hqueued k).mp hk with rfl | hk
    · exact hbound.trans has.ages.lastId
    · exact (hs.numbers k hk).trans has.ages.lastId
  · exact hstays ((hqueued k).mpr (.inr hsleeps.queued)) hsleeps.pending
  · have hne : id ≠ k := fun heq => hnew (heq ▸ hsleeps.queued)
    rw [h.timers, TimerQueue.timersOf_add_of_ne hne]
    exact hsleeps.timer
  · exact hstays ((hqueued id).mpr (.inl rfl)) hpending
  · rw [h.timers]
    exact TimerQueue.timersOf_add_new hnew due

end

/-! ## Instructions -/

/-- What an instruction does to handles that sleep. -/
def Outcome.Onward (s : Stage (Mind W)) (func : Int) : Outcome (Mind W) → Prop
  | .next _ t | .stop _ _ t => s.Onward [⟨func, s.host, t.host⟩] t
  | .crash _ => True

section

variable {m : Machine (Mind W)} {f g : Fiber} {s t mid : Stage (Mind W)} {handles : List Nat} {func : Int}
  {status : RunStatus} {budget : Nat}

theorem Stage.Timely.spares_by (hs : s.Timely) (h : s.Spares t) :
    s.Onward [⟨func, s.host, t.host⟩] t := by
  obtain ⟨htimely, hsleeps, -⟩ := hs.spares h
  exact ⟨htimely, hsleeps, List.forall_mem_singleton.mpr (.inl h.timers)⟩

theorem Outcome.Quiet.onward {o : Outcome (Mind W)} (h : o.Quiet Stage.Spares handles mid)
    (hmid : s.Spares mid) (hs : s.Timely) : o.Onward s func := by
  cases o with
  | next g t => exact hs.spares_by (hmid.trans h.1)
  | stop status g t => exact hs.spares_by (hmid.trans h.2.1)
  | crash c => trivial

theorem Stage.Timely.asks (hs : s.Timely) (hmid : s.Spares mid) {owner : Int} {id : Nat}
    {table : HandleTable} (created : mid.handles.create? owner = some (id, table))
    (after : Stage.Hands id { mid with handles := table } t) :
    s.Onward [⟨func, s.host, t.host⟩] t := by
  have hcreated : s.Spares { mid with handles := table } :=
    hmid.trans (.of_evolves rfl (Change.create created).evolves)
  have hpending : table.Pending id := (HandleTable.pending_create created).mpr (.inr rfl)
  have hnew : id ∉ mid.host.queued := by
    intro hqueued
    rw [hmid.queued] at hqueued
    obtain ⟨as, has, -⟩ := hmid.handles
    obtain ⟨-, rfl, -⟩ := HandleTable.create?_eq_some created
    have hold := (hs.numbers _ hqueued).trans has.ages.lastId
    omega
  have honward := hs.spares hcreated
  obtain hspares | ⟨due, hsets⟩ := after hpending hnew
  · exact hs.spares_by (hcreated.trans hspares)
  · obtain ⟨hthen, hsleeps⟩ := honward.timely.sets hsets hpending hnew
    obtain ⟨htimely, hgo, -⟩ := honward.trans hthen
    refine ⟨htimely, hgo, List.forall_mem_singleton.mpr (.inr ⟨due, id, ?_, hsleeps⟩)⟩
    rw [hsets.timers, hcreated.timers]

theorem onward_step (hm : m.services.KeepsTime) (hs : s.Timely) (fr : Frame) (i : Instr) (f : Fiber) :
    (step m fr i f s).Onward s fr.func := by
  have hself := Stage.Spares.refl s
  rcases handled_step hm.deals fr i f s with ⟨hquiet, -⟩ | ⟨-, hhandled⟩
  · exact hquiet.onward hself hs
  · generalize step m fr i f s = o at hhandled ⊢
    cases hhandled with
    | quiet hquiet => exact hquiet.onward hself hs
    | asks _ before created after => exact hs.asks before created after
    | reads _ _ found done after =>
      exact after.onward (.of_evolves rfl (Change.consume trivial found done).evolves) hs
    | parks _ _ found pending =>
      exact hs.spares_by (.of_evolves rfl (Change.park trivial found pending).evolves)

/-! ## Runs -/

theorem onward_runFor (hm : m.services.KeepsTime) (hs : s.Timely)
    (h : m.runFor budget f s = .ok (status, g, t)) : s.Onward (m.executedFor budget f s) t := by
  induction budget generalizing f s with
  | zero =>
    rw [Machine.executedFor]
    unfold Machine.runFor at h
    split at h
    · cases h
    · split at h <;> cases h <;> exact hs.refl
  | succ budget ih =>
    rw [Machine.executedFor]
    unfold Machine.runFor at h
    cases hsettle : Machine.settle m.program f.frames.length f with
    | error c =>
      rw [hsettle] at h
      cases h
    | ok f' =>
      simp only [hsettle] at h ⊢
      cases hframes : f'.frames with
      | nil =>
        simp only [hframes] at h ⊢
        cases h
        exact hs.refl
      | cons fr rest =>
        simp only [hframes] at h ⊢
        cases hi : Machine.instrAt m.program fr with
        | error c =>
          rw [hi] at h
          cases h
        | ok i =>
          have hfirst := onward_step hm hs fr i f'
          simp only [hi] at h ⊢
          cases hstep : step m fr i f' s with
          | next f₁ s₁ =>
            simp only [hstep] at h hfirst ⊢
            exact hfirst.trans (ih hfirst.timely h)
          | stop status f₁ s₁ =>
            simp only [hstep] at h hfirst ⊢
            cases h
            exact hfirst
          | crash c =>
            rw [hstep] at h
            cases h

theorem onward_run (hm : m.services.KeepsTime) (hs : s.Timely) {budget : Int}
    (h : m.run budget f s = .ok (status, g, t)) : s.Onward (m.executed budget f s) t := by
  unfold Machine.run at h
  unfold Machine.executed
  split at h
  · rename_i hterminal
    cases h
    rw [if_pos hterminal]
    exact hs.refl
  · rename_i hterminal
    rw [if_neg hterminal]
    exact onward_runFor hm hs h

end

/-! ## Schedulers -/

namespace Scheduler

/-- All host code keeps time, that of errands too. -/
structure Timely (s : Scheduler (Mind W)) : Prop where
  services : s.machine.services.KeepsTime
  inbox : ∀ e ∈ s.inbox, e.Within Stage.Spares
  stage : s.stage.Timely

/-- From `s` to `s'` the instructions `es` are executed, and what sleeps goes on sleeping. -/
structure Onward (s : Scheduler (Mind W)) (es : List (Executed (Mind W))) (s' : Scheduler (Mind W)) :
    Prop where
  timely : s'.Timely
  stage : s.stage.Onward es s'.stage

section

variable {s s' s'' : Scheduler (Mind W)} {es es' : List (Executed (Mind W))} {stage : Stage (Mind W)}
  {f : Fiber}

theorem Onward.trans (h : s.Onward es s') (h' : s'.Onward es' s'') : s.Onward (es ++ es') s'' :=
  ⟨h'.timely, h.stage.trans h'.stage⟩

theorem Timely.goes (hs : s.Timely) (hmachine : s'.machine = s.machine)
    (hinbox : ∀ e ∈ s'.inbox, e.Within Stage.Spares) (hstage : s.stage.Onward es s'.stage) :
    s.Onward es s' :=
  ⟨⟨hmachine ▸ hs.services, hinbox, hstage.timely⟩, hstage⟩

theorem Timely.refl (hs : s.Timely) : s.Onward [] s := ⟨hs, hs.stage.refl⟩

theorem stage_deliver (s : Scheduler (Mind W)) : s.deliver.stage = s.emptied.stage := by
  refine deliver_induction (P := fun t => t.stage = s.emptied.stage) rfl ?_
  intro t k w h
  unfold wake
  split
  · exact h
  · split <;> exact h

theorem Timely.deliver (hs : s.Timely) : s.Onward [] s.deliver := by
  obtain ⟨hmachine, hinbox, -⟩ := deliver_same s
  refine hs.goes hmachine (hinbox ▸ hs.inbox) (hs.stage.same ?_ ?_)
  · rw [s.stage_deliver]
    rfl
  · rw [s.stage_deliver]
    rfl

theorem Timely.work (hs : s.Timely) (h : s.stage.Onward es stage) :
    s.Onward es { s with stage := stage }.deliver := by
  have hset : s.Onward es { s with stage := stage } := hs.goes rfl hs.inbox h
  have hboth := hset.trans hset.timely.deliver
  rwa [List.append_nil] at hboth

theorem Timely.finish (hs : s.Timely) (f : Fiber) : s.Onward [] (s.finish f) :=
  hs.goes rfl hs.inbox (hs.stage.spares
    (.of_evolves (s.stage.host.timers_ended _) ((s.evolves_finish f).mono fun _ _ => trivial)))

theorem Timely.cancelFiber (hs : s.Timely) (f : Fiber) : s.Onward [] (s.cancelFiber f) :=
  hs.goes rfl hs.inbox (hs.stage.spares
    (.of_evolves (s.stage.host.timers_ended _) ((s.evolves_cancelFiber f).mono fun _ _ => trivial)))

theorem Timely.cancelAll (hs : s.Timely) : s.Onward [] s.cancelAll := by
  have hfibers (fibers : List Fiber) (s : Scheduler (Mind W)) (hs : s.Timely) :
      s.Onward [] (fibers.foldl Scheduler.cancelFiber s) := by
    induction fibers generalizing s with
    | nil => exact hs.refl
    | cons f fibers ih => exact (hs.cancelFiber f).trans (ih _ (hs.cancelFiber f).timely)
  have hends := hfibers s.live s hs
  exact hends.trans (hends.timely.goes rfl hends.timely.inbox hends.timely.stage.refl)

theorem Timely.spawn (hs : s.Timely) {func : Int} {id : Nat} (h : s.spawn func = .ok (id, s')) :
    s.Onward [] s' := by
  obtain ⟨-, -, rfl⟩ := spawn_eq_ok h
  exact hs.goes rfl hs.inbox hs.stage.refl

theorem Timely.runFiber (hs : s.Timely) (h : s.runFiber f = .ok s') :
    s.Onward (s.machine.executed s.machine.limits.budget f s.stage) s' := by
  obtain ⟨status, g, stage, hrun⟩ := ran_of_runFiber h
  have hruns := onward_run hs.services hs.stage hrun
  have hset : s.Onward (s.machine.executed s.machine.limits.budget f s.stage)
      ({ s with stage := stage }.setFiber g) := hs.goes rfl hs.inbox hruns
  have hback := hset.trans hset.timely.deliver
  rw [List.append_nil] at hback
  obtain ⟨-, rfl⟩ | ⟨-, rfl⟩ | ⟨-, rfl⟩ := runFiber_eq_ok hrun h
  · have hends := hback.trans (hback.timely.finish g)
    rwa [List.append_nil] at hends
  · exact ⟨⟨hback.timely.services, hback.timely.inbox, hback.timely.stage⟩, hback.stage⟩
  · exact hback

theorem Timely.doErrands (errands : List (Errand (Stage (Mind W))))
    (hwithin : ∀ e ∈ errands, e.Within Stage.Spares) (hs : s.Timely) :
    s.Onward [] (doErrands errands s) := by
  induction errands generalizing s with
  | nil => exact hs.refl
  | cons e errands ih =>
    cases hwithin e List.mem_cons_self with
    | @mk run within more =>
      have hposts : s.Onward [] { s with inbox := s.inbox ++ (run s.stage).2 } :=
        hs.goes rfl (List.forall_mem_append.mpr ⟨hs.inbox, more s.stage⟩) hs.stage.refl
      have hworks := hposts.trans (hposts.timely.work (hs.stage.spares (within s.stage)))
      exact hworks.trans (ih (fun x hx => hwithin x (List.mem_cons_of_mem _ hx)) hworks.timely)

theorem Timely.drain (rounds : Nat) (hs : s.Timely) (h : drain rounds s = .ok s') :
    s.Onward (executedIn rounds s) s' := by
  induction rounds generalizing s with
  | zero =>
    unfold Scheduler.drain at h
    split at h
    · cases h
      exact hs.refl
    · cases h
  | succ rounds ih =>
    unfold Scheduler.drain at h
    rw [executedIn]
    cases hqueue : s.queue with
    | nil =>
      simp only [hqueue] at h ⊢
      cases h
      exact hs.refl
    | cons id rest =>
      simp only [hqueue] at h ⊢
      have hskip : s.Onward [] { s with queue := rest } := hs.goes rfl hs.inbox hs.stage.refl
      cases hfound : fiber? { s with queue := rest } id with
      | none =>
        simp only [hfound] at h ⊢
        exact hskip.trans (ih hskip.timely h)
      | some f =>
        simp only [hfound] at h ⊢
        by_cases hstate : f.state = .runnable
        · rw [if_pos hstate] at h ⊢
          cases hrun : Scheduler.runFiber { s with queue := rest } f with
          | error c =>
            rw [hrun] at h
            cases h
          | ok s₁ =>
            simp only [hrun] at h ⊢
            have hran := hskip.trans (hskip.timely.runFiber hrun)
            exact hran.trans (ih hran.timely h)
        · rw [if_neg hstate] at h ⊢
          exact hskip.trans (ih hskip.timely h)

/-- What sleeps before a tick sleeps after it, and every timer that is set in the tick is there after it,
with its handle pending. -/
theorem Timely.tick (hs : s.Timely) (h : s.tick = .ok s') : s.Onward s.executed s' := by
  unfold Scheduler.tick at h
  unfold executed
  have hopens : s.Onward [] { s with inbox := [] } := hs.goes rfl (by simp) hs.stage.refl
  have herrands := hopens.trans (hopens.timely.doErrands s.inbox hs.inbox)
  generalize Scheduler.doErrands s.inbox { s with inbox := [] } = t at h herrands
  have hmerges : t.Onward [] { t with queue := t.queue ++ t.next, next := [] } :=
    herrands.timely.goes rfl herrands.timely.inbox herrands.timely.stage.refl
  have hready := herrands.trans hmerges
  exact hready.trans (hready.timely.drain _ h)

end

end Scheduler

end TileMind
