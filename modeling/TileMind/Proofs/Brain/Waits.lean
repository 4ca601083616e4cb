import Mathlib.Data.List.Perm.Basic
import Mathlib.Data.Multiset.AddSub
import TileMind.Brain.Timers
import TileMind.Proofs.Brain.Locals
import TileMind.Proofs.Decimal.Whole
import TileMind.Proofs.Machine.Claims
import TileMind.Proofs.Machine.Orderly

/-!
# TileMind.Proofs.Brain.Waits

A fiber that waits. The queue of timers is in the order in which they are due, so the timers due at a time are those
at its front. In a brain whose only slow tile is `wait`, the rules of a compiled program ask for one handle at a
time, and go to the `await` for it next.

* `TimerQueue.Sorted.add`: a new timer is put where it belongs.
* `TimerQueue.Sorted.due_eq`: what is taken from the front is what is due.
* `TimerQueue.timersOf`: the timers of one handle, which the timers of others do not touch.
* `Stage.Leaves`: host code that has nothing to do with handles and timers.
* `Services.OnlyWaits`: all host code is such, the tile that waits apart.
* `Fiber.Claims`: the handle that a fiber has asked for and not read yet.
* `carries_tidy`: while a fiber runs it has that handle and no other.
-/

namespace TileMind
namespace TimerQueue

/-- Timers are in the order in which they are due. -/
def Sorted (q : TimerQueue) : Prop := q.timers.Pairwise fun x y => x.due ≤ y.due

def timersOf (q : TimerQueue) (k : Nat) : List Timer := q.timers.filter fun t => t.handle = k

section

variable {q : TimerQueue} {t : Timer} {timers : List Timer} {due due' now : Int} {k j : Nat}

theorem insertInto_perm (t : Timer) (timers : List Timer) :
    (insertInto t timers).Perm (t :: timers) := by
  induction timers with
  | nil => exact .refl _
  | cons x timers ih =>
    rw [insertInto]
    split
    · exact .refl _
    · exact (ih.cons x).trans (.swap t x timers)

theorem add_perm (q : TimerQueue) (due : Int) (k : Nat) :
    (q.add due k).timers.Perm (⟨due, k⟩ :: q.timers) := insertInto_perm _ _

/-- A timer is told by the queue that it is added to. -/
theorem add_inj (h : q.add due k = q.add due' j) : due = due' ∧ k = j := by
  have hperm : (⟨due, k⟩ :: q.timers : List Timer).Perm (⟨due', j⟩ :: q.timers) :=
    (q.add_perm due k).symm.trans (h ▸ q.add_perm due' j)
  have hsame : (⟨due, k⟩ : Timer) = ⟨due', j⟩ :=
    (Multiset.cons_inj_left (q.timers : Multiset Timer)).mp (Multiset.coe_eq_coe.mpr hperm)
  cases hsame
  exact ⟨rfl, rfl⟩

theorem add_ne (q : TimerQueue) (due : Int) (k : Nat) : q.add due k ≠ q := by
  intro h
  have hlength := (q.add_perm due k).length_eq
  rw [h, List.length_cons] at hlength
  omega

/-! ## Order -/

theorem pairwise_insertInto (h : timers.Pairwise fun x y => x.due ≤ y.due) :
    (insertInto t timers).Pairwise fun x y => x.due ≤ y.due := by
  induction timers with
  | nil => exact List.pairwise_singleton _ _
  | cons x timers ih =>
    obtain ⟨hx, htimers⟩ := List.pairwise_cons.mp h
    rw [insertInto]
    split
    · rename_i hbefore
      refine List.pairwise_cons.mpr ⟨fun y hy => ?_, h⟩
      rcases List.mem_cons.mp hy with rfl | hy
      · exact Int.le_of_lt hbefore
      · exact Int.le_trans (Int.le_of_lt hbefore) (hx y hy)
    · rename_i hafter
      refine List.pairwise_cons.mpr ⟨fun y hy => ?_, ih htimers⟩
      rcases List.mem_cons.mp ((insertInto_perm t timers).mem_iff.mp hy) with rfl | hy
      · exact Int.not_lt.mp hafter
      · exact hx y hy

theorem Sorted.add (h : q.Sorted) (due : Int) (k : Nat) : (q.add due k).Sorted := pairwise_insertInto h

theorem takeWhile_due (h : timers.Pairwise fun x y => x.due ≤ y.due) (now : Int) :
    timers.takeWhile (fun t => decide (t.due ≤ now)) = timers.filter (fun t => decide (t.due ≤ now)) ∧
      timers.dropWhile (fun t => decide (t.due ≤ now)) =
        timers.filter fun t => decide (now < t.due) := by
  induction timers with
  | nil => exact ⟨rfl, rfl⟩
  | cons x timers ih =>
    obtain ⟨hx, htimers⟩ := List.pairwise_cons.mp h
    obtain ⟨htake, hdrop⟩ := ih htimers
    by_cases hdue : x.due ≤ now
    · simp [hdue, htake, hdrop]
    · -- From here on nothing is due.
      have hlater : ∀ y ∈ timers, now < y.due := fun y hy =>
        Int.lt_of_lt_of_le (Int.not_le.mp hdue) (hx y hy)
      have hnone : timers.filter (fun t => decide (t.due ≤ now)) = [] :=
        List.filter_eq_nil_iff.mpr fun y hy => by simpa using hlater y hy
      have hall : timers.filter (fun t => decide (now < t.due)) = timers :=
        List.filter_eq_self.mpr fun y hy => by simpa using hlater y hy
      have hx' : now < x.due := Int.not_le.mp hdue
      simp [hdue, hx', hnone, hall]

theorem Sorted.due_eq (h : q.Sorted) (now : Int) :
    q.due now = ((q.timers.filter fun t => t.due ≤ now).map Timer.handle,
      ⟨q.timers.filter fun t => now < t.due⟩) := by
  obtain ⟨htake, hdrop⟩ := takeWhile_due h now
  rw [due, htake, hdrop]

theorem Sorted.rest (h : q.Sorted) (now : Int) : (q.due now).2.Sorted := by
  rw [h.due_eq]
  exact h.filter _

/-! ## The timers of one handle -/

theorem timersOf_eq_nil (h : k ∉ q.timers.map Timer.handle) : q.timersOf k = [] :=
  List.filter_eq_nil_iff.mpr fun t ht heq =>
    h (List.mem_map.mpr ⟨t, ht, of_decide_eq_true heq⟩)

theorem filter_insertInto {p : Timer → Bool} (h : p t = false) :
    (insertInto t timers).filter p = timers.filter p := by
  induction timers with
  | nil => simp [insertInto, h]
  | cons x timers ih =>
    rw [insertInto]
    split
    · rw [List.filter_cons, if_neg (by simp [h])]
    · rw [List.filter_cons, List.filter_cons, ih]

theorem timersOf_add_of_ne (h : j ≠ k) (due : Int) : (q.add due j).timersOf k = q.timersOf k :=
  filter_insertInto (decide_eq_false h)

theorem timersOf_add_new (h : k ∉ q.timers.map Timer.handle) (due : Int) :
    (q.add due k).timersOf k = [⟨due, k⟩] := by
  have hperm := (q.add_perm due k).filter fun t => decide (t.handle = k)
  have hnone : q.timers.filter (fun t => decide (t.handle = k)) = [] := timersOf_eq_nil h
  rw [List.filter_cons, if_pos (by simp), hnone] at hperm
  exact List.perm_singleton.mp hperm

theorem Sorted.timersOf_rest (h : q.Sorted) (hk : q.timersOf k = [⟨due, k⟩]) (hlate : now < due) :
    k ∉ (q.due now).1 ∧ (q.due now).2.timersOf k = [⟨due, k⟩] := by
  rw [h.due_eq]
  constructor
  · intro hmem
    obtain ⟨t, ht, htk⟩ := List.mem_map.mp hmem
    obtain ⟨ht, hdue⟩ := List.mem_filter.mp ht
    have hof : t ∈ q.timersOf k := List.mem_filter.mpr ⟨ht, by simpa using htk⟩
    rw [hk, List.mem_singleton] at hof
    subst hof
    exact Int.not_lt.mpr (of_decide_eq_true hdue) hlate
  · have hboth : (⟨q.timers.filter fun t => now < t.due⟩ : TimerQueue).timersOf k =
        (q.timersOf k).filter fun t => now < t.due := by
      rw [timersOf, timersOf, List.filter_comm]
    rw [hboth, hk, List.filter_cons, if_pos (by simpa using hlate), List.filter_nil]

theorem Sorted.mem_due (h : q.Sorted) (hk : q.timersOf k = [⟨due, k⟩]) (hdue : due ≤ now) :
    k ∈ (q.due now).1 := by
  rw [h.due_eq]
  have hof : (⟨due, k⟩ : Timer) ∈ q.timersOf k := hk ▸ List.mem_singleton_self _
  refine List.mem_map.mpr ⟨⟨due, k⟩, List.mem_filter.mpr ⟨(List.mem_filter.mp hof).1, ?_⟩, rfl⟩
  exact decide_eq_true hdue

end

end TimerQueue

variable {W : Type}

/-! ## Host code -/

/-- The handles that have a timer. -/
def Mind.queued (m : Mind W) : List Nat := m.timers.timers.map Timer.handle

/-- Handles and timers are the same in `t`. -/
structure Stage.Leaves (s t : Stage (Mind W)) : Prop where
  handles : t.handles = s.handles
  timers : t.host.timers = s.host.timers

/-- What becomes of a new handle by the end of the call that it was created for: it is given a timer,
or completed at once. -/
inductive Stage.Begins (id : Nat) (s t : Stage (Mind W)) : Prop where
  | timer (handles : t.handles = s.handles) (queued : t.host.queued.Perm (id :: s.host.queued))
  | answer (a : Answer) (timers : t.host.timers = s.host.timers)
      (handles : ∀ u, s.handles.answer id a = .ok u → t.handles = u)

/-- A host function that leaves handles and timers alone, or the one that waits. -/
structure HostFunction.OnlyWaits (f : HostFunction (Stage (Mind W))) : Prop where
  sync : ∀ {call}, f.sync = some call → ∀ c args (s : Stage (Mind W)), s.Leaves (call c args s).2
  async : f.async = none ∨ f = Builtins.wait
  onPage : ∀ {hook}, f.onPage = some hook → ∀ c (s : Stage (Mind W)), s.Leaves (hook c s)

structure Services.OnlyWaits (svc : Services (Stage (Mind W))) : Prop where
  functions : ∀ f ∈ svc.functions.list, f.OnlyWaits
  hooks : svc.HooksWithin Stage.Leaves

section

variable {s t u : Stage (Mind W)}

theorem Stage.Leaves.refl (s : Stage (Mind W)) : s.Leaves s := ⟨rfl, rfl⟩

theorem Stage.Leaves.trans (h : s.Leaves t) (h' : t.Leaves u) : s.Leaves u :=
  ⟨h'.handles.trans h.handles, h'.timers.trans h.timers⟩

theorem Stage.Leaves.serves (h : s.Leaves t) : s.Serves t := ⟨[], h.handles ▸ .refl _⟩

theorem Stage.Leaves.queued (h : s.Leaves t) : t.host.queued = s.host.queued := by
  rw [Mind.queued, h.timers, Mind.queued]

theorem Mind.timers_updateCells (m : Mind W) (func var : Int) (f : Cells Value → Cells Value) :
    (m.updateCells func var f).timers = m.timers := by
  unfold updateCells
  split <;> rfl

theorem Mind.timers_ended (m : Mind W) (f : Fiber) : (m.ended f).timers = m.timers := by
  unfold ended
  split <;> rfl

theorem Mind.queued_after (m : Mind W) (delay : Int) (handle : Nat) :
    (m.after delay handle).queued.Perm (handle :: m.queued) :=
  (m.timers.add_perm _ handle).map _

theorem Stage.begins_resolve (s : Stage (Mind W)) (id : Nat) (v : Value) :
    s.Begins id (s.resolve id v) := by
  refine .answer (.resolved v) (by rw [s.resolve_host]) fun u hu => ?_
  have hu : s.handles.resolve id v = .ok u := hu
  simp [Stage.resolve, hu]

theorem Stage.begins_reject (h : s.Leaves t) (id : Nat) (fault : Option Nat) :
    s.Begins id (t.reject id fault) := by
  refine .answer (.rejected fault) (by rw [t.reject_host, h.timers]) fun u hu => ?_
  have hu : t.handles.reject id fault = .ok u := h.handles ▸ hu
  simp [Stage.reject, hu]

end

section

variable {m : Machine (Mind W)}

/-- A call that waits sets a timer, or its handle is rejected. -/
theorem begins_wait {call : CallContext → Value → Nat → Stage (Mind W) → Start × Stage (Mind W)}
    (hcall : (Builtins.wait : HostFunction (Stage (Mind W))).async = some call) (c : CallContext)
    (args : Value) (id : Nat) (s : Stage (Mind W)) :
    (∃ delay, call c args id s = (.ok, { s with host := s.host.after delay id })) ∨
      ∃ start, start ≠ .ok ∧ call c args id s = (start, s) := by
  obtain rfl := Option.some.inj hcall
  dsimp only
  split
  · exact .inr ⟨_, Start.refuse_ne_ok _, rfl⟩
  · exact .inl ⟨_, rfl⟩

theorem Services.OnlyWaits.wait (h : m.services.OnlyWaits) {fn : Int} {f : HostFunction (Stage (Mind W))}
    {call : CallContext → Value → Nat → Stage (Mind W) → Start × Stage (Mind W)}
    (hf : m.services.functions.get? fn = some f) (hcall : f.async = some call) :
    (Builtins.wait : HostFunction (Stage (Mind W))).async = some call := by
  rcases (h.functions f (Functions.mem_of_get? hf)).async with hnone | rfl
  · rw [hnone] at hcall
    cases hcall
  · exact hcall

theorem Services.OnlyWaits.deals (h : m.services.OnlyWaits) : m.Deals Stage.Leaves Stage.Begins where
  trans := .trans
  heap s heap := ⟨rfl, rfl⟩
  store s func var v := ⟨rfl, s.host.timers_updateCells func var _⟩
  sync hf hcall := (h.functions _ (Functions.mem_of_get? hf)).sync hcall
  get hget _ _ _ _ hr := h.hooks.get hget hr
  set hset _ _ _ _ _ hr := h.hooks.set hset hr
  started hf hcall c args id s t hcalled := by
    obtain ⟨delay, hok⟩ | ⟨refusal, hrefuses, hfail⟩ := begins_wait (h.wait hf hcall) c args id s
    · rw [hok] at hcalled
      cases hcalled
      exact .timer rfl (s.host.queued_after delay id)
    · rw [hfail] at hcalled
      exact absurd (Prod.mk.inj hcalled).1 hrefuses
  refused hf hcall c args id start s t hcalled hstart heap fault := by
    obtain ⟨delay, hok⟩ | ⟨refusal, hrefuses, hfail⟩ := begins_wait (h.wait hf hcall) c args id s
    · rw [hok] at hcalled
      cases hcalled
      exact absurd rfl hstart
    · rw [hfail] at hcalled
      cases hcalled
      exact Stage.begins_reject (s := s) (t := { s with heap := heap }) ⟨rfl, rfl⟩ id fault
  answered s id v := s.begins_resolve id v

theorem Services.OnlyWaits.polite (h : m.services.OnlyWaits) : m.Polite where
  sync hf hcall c args s := ((h.functions _ (Functions.mem_of_get? hf)).sync hcall c args s).serves
  async hf hcall c args handle s := by
    obtain ⟨delay, hok⟩ | ⟨refusal, hrefuses, hfail⟩ := begins_wait (h.wait hf hcall) c args handle s
    · rw [hok]
      exact ⟨[], .refl _⟩
    · rw [hfail]
      exact ⟨[], .refl _⟩
  get hget _ _ _ _ hr := (h.hooks.get hget hr).serves
  set hset _ _ _ _ _ hr := (h.hooks.set hset hr).serves

end

theorem Core.onlyWaits_primitive (name : String) (f : Heap → Value → Except Mismatch Value) :
    (primitive name f : HostFunction (Stage (Mind W))).OnlyWaits := by
  refine ⟨?_, .inl rfl, nofun⟩
  rintro _ ⟨⟩ c args s
  dsimp only
  split <;> exact ⟨rfl, rfl⟩

theorem Core.onlyWaits_services : (services : Services (Stage (Mind W))).OnlyWaits := by
  obtain ⟨hfunctions, htypes⟩ := forall_services (W := W) onlyWaits_primitive
  refine ⟨hfunctions, fun d hd hooks hhooks => ?_⟩
  rw [htypes d hd] at hhooks
  cases hhooks

theorem Mind.timers_setSiteState (m : Mind W) (site : Int) (state : Option SiteState) :
    (Host.setSiteState m site state).timers = m.timers := by
  cases state <;> rfl

theorem Mind.timers_requestPage (m : Mind W) (key : String) :
    (m.requestPage key).2.timers = m.timers := by
  unfold requestPage
  split <;> rfl

theorem Builtins.onlyWaits_functions (f : HostFunction (Stage (Mind W))) (hf : f ∈ functions) :
    f.OnlyWaits := by
  simp only [functions, List.mem_cons, List.not_mem_nil, or_false] at hf
  rcases hf with rfl | rfl | rfl | rfl | rfl
  · refine ⟨?_, .inl rfl, fun h => by cases h⟩
    rintro _ ⟨⟩ c args s
    dsimp only
    split
    · exact .refl s
    · rename_i key _
      have htimers := s.host.timers_requestPage key
      split <;> rename_i hrequest <;> rw [show s.host.requestPage key = _ from hrequest] at htimers
      · exact ⟨rfl, htimers⟩
      · exact ⟨rfl, htimers⟩
  · refine ⟨?_, .inl rfl, fun h => by cases h⟩
    rintro _ ⟨⟩ c args s
    exact .refl s
  · refine ⟨?_, .inl rfl, fun h => by cases h⟩
    rintro _ ⟨⟩ c args s
    exact .refl s
  · refine ⟨?_, .inl rfl, ?_⟩
    · rintro _ ⟨⟩ c args s
      dsimp only
      split
      · exact .refl s
      · exact ⟨rfl, s.host.timers_setSiteState c.site _⟩
    · rintro _ ⟨⟩ c s
      exact ⟨rfl, s.host.timers_setSiteState c.site none⟩
  · exact ⟨(fun h => by cases h), .inr rfl, fun h => by cases h⟩

/-- The tiles that every brain has leave handles and timers to the one that waits. -/
theorem Builtins.onlyWaits_install {svc svc' : Services (Stage (Mind W))} (h : svc.OnlyWaits)
    {catalog catalog' : Catalog} (hinstall : install svc catalog = .ok (svc', catalog')) :
    svc'.OnlyWaits := by
  obtain ⟨hfunctions, htypes⟩ := forall_install h.functions onlyWaits_functions hinstall
  exact ⟨hfunctions, h.hooks.congr htypes⟩

/-! ## Fibers -/

/-- The fiber has asked for the handle, and is about to read it or to wait for it. -/
structure Fiber.Claims (m : Machine (Mind W)) (f : Fiber) (k : Nat) : Prop where
  created : k ∈ f.handles
  awaits : Awaits m f k

/-- While fiber `f` runs, it has the handle that it claims, and the others have what `Others` tells. It
comes to no `await` but the one for its handle. -/
structure Tidy (m : Machine (Mind W)) (Others : Nat → Nat → Prop) (f : Fiber) (s : Stage (Mind W)) :
    Prop where
  table : s.handles.Balanced (fun w k => Others w k ∨ w = f.id ∧ f.Claims m k) s.host.queued
  stands : f.Rests m.program ∨ ∃ k, f.Claims m k

def Outcome.Tidy (m : Machine (Mind W)) (Others : Nat → Nat → Prop) : Outcome (Mind W) → Prop
  | .next g t => t.handles.lastId < 2 ^ 53 → TileMind.Tidy m Others g t
  | .stop .waiting g t => TileMind.Tidy m Others g t
  | .stop _ _ t => t.handles.Balanced Others t.host.queued
  | .crash _ => True

section

variable {m : Machine (Mind W)} {Others : Nat → Nat → Prop} {f g : Fiber} {s t : Stage (Mind W)}
  {fr : Frame} {rest : List Frame} {i : Instr} {k : Nat}

theorem Fiber.Claims.congr (h : f.Claims m k) (hframes : g.frames = f.frames)
    (hstack : g.stack = f.stack) (hhandles : g.handles = f.handles) : g.Claims m k :=
  ⟨hhandles ▸ h.created, h.awaits.congr hframes hstack⟩

theorem Fiber.Claims.unique {j : Nat} (hj : f.Claims m j) (hk : f.Claims m k) : j = k :=
  Int.ofNat_inj.mp (hj.awaits.unique hk.awaits)

theorem Stage.Leaves.balanced (h : s.Leaves t) (hs : s.handles.Balanced Others s.host.queued) :
    t.handles.Balanced Others t.host.queued := by
  rw [h.handles, h.queued]
  exact hs

/-- A fiber at rest has nothing. -/
theorem tidy_of_rests (hs : s.handles.Balanced Others s.host.queued) (hf : f.Rests m.program) :
    Tidy m Others f s :=
  ⟨hs.congr fun _ _ => ⟨.inl, fun h => h.resolve_right fun hself => hf.not_awaits _ hself.2.awaits⟩,
    .inl hf⟩

theorem Tidy.of_rests (hs : Tidy m Others f s) (hf : f.Rests m.program) :
    s.handles.Balanced Others s.host.queued :=
  hs.table.congr fun _ _ => ⟨fun h => h.resolve_right fun hself => hf.not_awaits _ hself.2.awaits, .inl⟩

theorem Outcome.Quiet.tidy {o : Outcome (Mind W)} (ho : o.Quiet Stage.Leaves f.handles s)
    (hs : s.handles.Balanced Others s.host.queued)
    (hrests : ∀ g t, o = .next g t → g.Rests m.program) : o.Tidy m Others := by
  cases o with
  | next g t => exact fun _ => tidy_of_rests (ho.1.balanced hs) (hrests g t rfl)
  | stop status g t =>
    cases status with
    | waiting => exact absurd rfl ho.1
    | _ => exact ho.2.1.balanced hs
  | crash c => trivial

theorem tidy_of_asks (hp : CoupledProgram m.program) (hne : f.id ≠ 0)
    (hframes : f.frames = fr :: rest) (hi : Machine.instrAt m.program fr = .ok i)
    (hasks : i.asks = true) (hguard : m.checkStack (f.jump (fr.pc + 1)) fr.base i = none)
    {mid : Stage (Mind W)} (hmid : mid.handles.Balanced Others mid.host.queued) {new : Nat}
    {table : HandleTable} (created : mid.handles.create? f.id = some (new, table))
    (after : Stage.Begins new { mid with handles := table } t) (hid : g.id = f.id)
    (frames : g.frames = (f.jump (fr.pc + 1)).frames) (handles : g.handles = f.handles ++ [new])
    {below : List Value} (stack : g.stack = .ofHandle new :: below)
    (length : (below.length : Int) = f.stack.length - i.pops) (hfew : t.handles.lastId < 2 ^ 53) :
    Tidy m Others g t := by
  have hcreated := hmid.create hne created
  -- The handle is given a timer, or it is not pending any more.
  obtain ⟨hbalanced, hlast⟩ :
      t.handles.Balanced (fun w k => Others w k ∨ w = f.id ∧ k = new) t.host.queued ∧
        t.handles.lastId = table.lastId := by
    cases after with
    | timer handles queued =>
      exact ⟨hcreated.of_eq (by rw [handles]) (by rw [handles]) queued, by rw [handles]⟩
    | answer a timers handles =>
      obtain ⟨u, hu, hbalanced, hlast⟩ := hcreated.answer a
      rw [handles u hu, Mind.queued, timers]
      exact ⟨hbalanced, hlast⟩
  have hsmall : new < 2 ^ 53 := by
    obtain ⟨-, -, rfl⟩ := HandleTable.create?_eq_some created
    rw [hlast] at hfew
    exact hfew
  rw [Value.ofHandle_eq hsmall] at stack
  have hclaims : g.Claims m new :=
    ⟨by simp [handles], awaits_of_asks hp hframes hi hasks hguard frames stack length⟩
  refine ⟨hbalanced.congr fun w k => or_congr_right ?_, .inr ⟨new, hclaims⟩⟩
  rw [hid]
  refine and_congr_right fun _ => ⟨?_, fun hk => hk.unique hclaims⟩
  rintro rfl
  exact hclaims

theorem Tidy.step_rests (hp : CoupledProgram m.program) (hm : m.services.OnlyWaits) (hne : f.id ≠ 0)
    (hf : f.Orderly m.program) (hs : Tidy m Others f s) (hrests : f.Rests m.program)
    (hframes : f.frames = fr :: rest) (hi : Machine.instrAt m.program fr = .ok i) :
    (step m fr i f s).Tidy m Others := by
  have hfree := hs.of_rests hrests
  have hnext {g t} (hstep : step m fr i f s = .next g t) := hf.next hp hframes hi hstep
  obtain ⟨hquiet, hfails⟩ | ⟨hguard, hhandled⟩ := handled_step hm.deals fr i f s
  · exact hquiet.tidy hfree fun g t hstep => (hnext hstep).2 (.inr hfails)
  · generalize hout : step m fr i f s = out at hhandled hnext
    cases hhandled with
    | quiet quiet fails =>
      rw [f.jump_handles] at quiet
      refine quiet.tidy hfree fun g t hstep => (hnext hstep).2 ?_
      cases hasks : i.asks with
      | false => exact .inl rfl
      | true => exact .inr (fails (Instr.asks_eq_true_iff.mp hasks))
    | @asks g mid t new table below op before created after same frames handlers handles stack length =>
      rw [(f.sameRun_jump _).id] at created
      rw [f.jump_handles] at handles
      rw [f.jump_stack] at length
      exact tidy_of_asks hp hne hframes hi (Instr.asks_eq_true_iff.mpr op) hguard (before.balanced hfree)
        created after (same.id.trans (f.sameRun_jump _).id) frames handles stack length
    | reads op => exact absurd op (hrests.op hframes hi)
    | parks op => exact absurd op (hrests.op hframes hi)

/-- An instruction of a fiber that has asked for something: the `await` for it. -/
theorem Tidy.step_claims (hp : CoupledProgram m.program) (hm : m.services.OnlyWaits)
    (hothers : ∀ k, ¬ Others f.id k) (hf : f.Orderly m.program) (hs : Tidy m Others f s)
    (hclaims : f.Claims m k) (hframes : f.frames = fr :: rest)
    (hi : Machine.instrAt m.program fr = .ok i) : (step m fr i f s).Tidy m Others := by
  obtain ⟨below, hat⟩ := hclaims.awaits.here hframes hi
  obtain ⟨h, hh, rfl, howner⟩ := hs.table.has (.inr ⟨rfl, hclaims⟩)
  have hfound := HandleTable.get?_of_mem hs.table.ids hh
  cases hdone : h.isDone with
  | true =>
    have hread : (s.handles.consume h.id f.id).Balanced Others s.host.queued := by
      refine (hs.table.consume hh hdone howner).congr fun w j => ⟨?_, fun hother => ⟨.inl hother, ?_⟩⟩
      · rintro ⟨hother | ⟨-, hself⟩, hne⟩
        · exact hother
        · exact absurd (hself.unique hclaims) hne
      · rintro rfl
        obtain rfl := hs.table.unique (.inl hother) (.inr ⟨rfl, hclaims⟩)
        exact hothers _ hother
    have hquiet := hat.reads hm.deals hfound hdone
    refine hquiet.tidy (s := { s with handles := s.handles.consume h.id f.id }) hread
      fun g t hstep => (hf.next hp hframes hi hstep).2 (.inl ?_)
    simp [Instr.asks, hat.op, Op.asks]
  | false =>
    rw [hat.parks hfound hdone]
    refine ⟨(hs.table.park hh howner).congr fun w j => ?_, .inr ⟨h.id, hclaims.congr rfl rfl rfl⟩⟩
    refine or_congr_right (and_congr_right fun _ => ⟨fun h => h.congr rfl rfl rfl, fun h => ?_⟩)
    exact h.congr rfl rfl rfl

theorem Tidy.step (hp : CoupledProgram m.program) (hm : m.services.OnlyWaits) (hne : f.id ≠ 0)
    (hothers : ∀ k, ¬ Others f.id k) (hf : f.Orderly m.program) (hs : Tidy m Others f s)
    (hframes : f.frames = fr :: rest) (hi : Machine.instrAt m.program fr = .ok i) :
    (TileMind.step m fr i f s).Tidy m Others := by
  obtain hrests | ⟨k, hclaims⟩ := hs.stands
  · exact hs.step_rests hp hm hne hf hrests hframes hi
  · exact hs.step_claims hp hm hothers hf hclaims hframes hi

/-! ## Runs -/

/-- A fiber that runs, numbered `id`. As long as few handles have been created it is tidy. -/
structure Runs (m : Machine (Mind W)) (Others : Nat → Nat → Prop) (id : Nat) (f : Fiber)
    (s : Stage (Mind W)) : Prop where
  number : f.id = id
  orderly : f.Orderly m.program
  few : s.handles.lastId < 2 ^ 53 → Tidy m Others f s

structure Ran (m : Machine (Mind W)) (Others : Nat → Nat → Prop) (id : Nat) (status : RunStatus)
    (f : Fiber) (s : Stage (Mind W)) : Prop where
  ended : status = .done ∨ status = .fault → s.handles.lastId < 2 ^ 53 →
    s.handles.Balanced Others s.host.queued
  stopped : ¬ (status = .done ∨ status = .fault) → Runs m Others id f s

theorem lastId_le_of_step (hm : m.services.OnlyWaits)
    (hstep : step m fr i f s = .next g t ∨ step m fr i f s = .stop .fault g t) :
    s.handles.lastId ≤ t.handles.lastId := by
  have hkeeps := hm.polite.keeps f.id
  have hmoves := step_moves (i := i) (s := s) hkeeps fr
  have hused : Uses f.id s.handles t.handles := by
    rcases hstep with hstep | hstep <;> rw [hstep] at hmoves
    · exact hmoves.table_of_next hkeeps.refl
    · exact hmoves.table_of_fault
  obtain ⟨as, has⟩ := hused
  exact has.ages.lastId

theorem carries_tidy (hp : CoupledProgram m.program) (hm : m.services.OnlyWaits) {id : Nat}
    (hne : id ≠ 0) (hothers : ∀ k, ¬ Others id k) : m.Carries (Runs m Others id) (Ran m Others id) where
  ret := by
    rintro f s fr rest ⟨rfl, horderly, hfew⟩ hframes hover
    obtain ⟨hret, hrests⟩ := horderly.ret hframes
    refine ⟨f.continues_ret.id, hret, fun hsmall => tidy_of_rests ((hfew hsmall).of_rests ?_) hrests⟩
    rintro fr' rest' hframes' base i hi -
    obtain ⟨rfl, -⟩ : fr = fr' ∧ rest = rest' := by simpa [hframes] using hframes'
    exact hover i (by rw [← hi]; rfl)
  next := by
    rintro f g s t fr rest i ⟨rfl, horderly, hfew⟩ hframes hi hstep
    have hmoves := step_moves (f := f) (i := i) (s := s) (m.keeps_true f.id) fr
    rw [hstep] at hmoves
    refine ⟨hmoves.continues.id.trans (f.sameRun_jump _).id, (horderly.next hp hframes hi hstep).1,
      fun hsmall => ?_⟩
    have hle := lastId_le_of_step hm (.inl hstep)
    have htidy := (hfew (by omega)).step hp hm hne hothers horderly hframes hi
    rw [hstep] at htidy
    exact htidy hsmall
  stop := by
    rintro f g s t fr rest i status ⟨rfl, horderly, hfew⟩ hframes hi hstep
    rcases horderly.stop_cases hp hframes hi hstep with rfl | rfl
    · refine ⟨fun _ hsmall => ?_, by simp⟩
      have hle := lastId_le_of_step hm (.inr hstep)
      have htidy := (hfew (by omega)).step hp hm hne hothers horderly hframes hi
      rw [hstep] at htidy
      exact htidy
    · obtain ⟨k, below, x, -, -, -, rfl, rfl⟩ := step_waiting hframes hi hstep
      refine ⟨by simp, fun _ => ⟨rfl, horderly.congr rfl rfl rfl, fun hsmall => ?_⟩⟩
      have htidy := (hfew hsmall).step hp hm hne hothers horderly hframes hi
      rw [hstep] at htidy
      exact htidy
  done := by
    rintro f s ⟨rfl, horderly, hfew⟩ hframes
    refine ⟨fun _ hsmall => (hfew hsmall).of_rests ?_, by simp⟩
    intro fr rest hframes'
    rw [hframes] at hframes'
    cases hframes'
  spent := by
    rintro f s fr rest hs -
    exact ⟨by simp, fun _ => hs⟩

end

end TileMind
