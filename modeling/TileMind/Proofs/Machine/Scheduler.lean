import TileMind.Machine.Scheduler
import TileMind.Proofs.Machine.Runs

/-!
# TileMind.Proofs.Machine.Scheduler

The invariant of the scheduler. Between any two of its actions a live fiber is either to be run once,
or waits for a pending handle that lists it. While completions are delivered, those that are still to
be called stand in between.

* `Scheduler.Sound`: the invariant, with the calls still to be made and the fiber that is away.
* `Scheduler.Sound.deliver`: all calls are made.
* `Scheduler.Sound.finish`, `Scheduler.Sound.runFiber`: ending and running a fiber.
-/

namespace TileMind

variable {H : Type}

open HandleTable (Evolves)

/-! ## Host code -/

/-- Host code made one stage of another: it created and answered handles, and touched the table in no
other way. -/
def Stage.Serves (s t : Stage H) : Prop := ∃ as, Evolves (fun _ => False) s.handles as t.handles

/-- The host functions and field hooks of a machine keep to the operations of the handle table. -/
structure Machine.Polite (m : Machine H) : Prop where
  sync : ∀ {fn h call}, m.services.functions.get? fn = some h → h.sync = some call →
    ∀ c args (s : Stage H), s.Serves (call c args s).2
  async : ∀ {fn h call}, m.services.functions.get? fn = some h → h.async = some call →
    ∀ c args handle (s : Stage H), s.Serves (call c args handle s).2
  get : ∀ {type get}, (m.hooks type).get = some get → ∀ {obj field} {s : Stage H} {r},
    get obj field s = .ok r → s.Serves r.2
  set : ∀ {type set}, (m.hooks type).set = some set → ∀ {obj field v} {s : Stage H} {r},
    set obj field v s = .ok r → s.Serves r.2

inductive Errand.Polite : Errand (Stage H) → Prop where
  | mk {run : Stage H → Stage H × List (Errand (Stage H))} (serves : ∀ s : Stage H, s.Serves (run s).1)
      (more : ∀ s, ∀ e ∈ (run s).2, e.Polite) : Errand.Polite (.mk run)

/-- What a fiber does to the table while it runs. -/
def Uses (fiber : Nat) (t u : HandleTable) : Prop := ∃ as, Evolves (· = fiber) t as u

theorem Stage.Serves.uses {s t : Stage H} (h : s.Serves t) (fiber : Nat) :
    Uses fiber s.handles t.handles := by
  obtain ⟨as, has⟩ := h
  exact ⟨as, has.mono fun _ hfalse => hfalse.elim⟩

theorem Machine.Polite.keeps {m : Machine H} (hm : m.Polite) (fiber : Nat) :
    m.Keeps fiber (Uses fiber) where
  refl t := ⟨[], .refl t⟩
  trans := by
    rintro t u v ⟨as, ht⟩ ⟨bs, hu⟩
    exact ⟨as ++ bs, ht.trans hu⟩
  create h := ⟨[], (HandleTable.Change.create h).evolves⟩
  resolved {t u handle v} h := ⟨_, (HandleTable.Change.answer (a := .resolved v) h).evolves⟩
  rejected {t u handle fault} h := ⟨_, (HandleTable.Change.answer (a := .rejected fault) h).evolves⟩
  consume {t h handle} hfound hdone := by
    have hread : HandleTable.Change (· = fiber) t [] (t.consume h.id fiber) := by
      refine .consume ?_ hfound hdone
      rfl
    exact ⟨[], hread.evolves⟩
  sync hfn hcall c args s := (hm.sync hfn hcall c args s).uses fiber
  async hfn hcall c args handle s := (hm.async hfn hcall c args handle s).uses fiber
  get hget _ _ _ _ hr := (hm.get hget hr).uses fiber
  set hset _ _ _ _ _ hr := (hm.set hset hr).uses fiber

namespace Scheduler

/-! ## Live fibers -/

def woken (f : Fiber) : Fiber := { f with awaiting := 0, state := .runnable }

@[simp] theorem woken_id (f : Fiber) : (woken f).id = f.id := rfl

section

variable {s : Scheduler H} {f g : Fiber}

theorem mem_of_fiber? {id : Int} (h : s.fiber? id = some f) : f ∈ s.live ∧ (f.id : Int) = id :=
  ⟨List.mem_of_find?_eq_some h, by simpa using List.find?_some h⟩

theorem fiber?_eq_none_iff {id : Nat} : s.fiber? id = none ↔ id ∉ s.live.map Fiber.id := by
  simp [fiber?, List.find?_eq_none]

theorem eq_of_id_eq (hids : (s.live.map Fiber.id).Nodup) (hf : f ∈ s.live) (hg : g ∈ s.live)
    (h : f.id = g.id) : f = g :=
  List.inj_on_of_nodup_map hids hf hg h

theorem fiber?_of_mem (hids : (s.live.map Fiber.id).Nodup) (hf : f ∈ s.live) :
    s.fiber? f.id = some f := by
  cases h : s.fiber? f.id with
  | none =>
    have hnone := List.find?_eq_none.mp h f hf
    simp at hnone
  | some g =>
    obtain ⟨hg, hid⟩ := mem_of_fiber? h
    rw [eq_of_id_eq hids hg hf (by omega)]

theorem ids_setFiber (s : Scheduler H) (f : Fiber) :
    (s.setFiber f).live.map Fiber.id = s.live.map Fiber.id := by
  rw [setFiber, List.map_map]
  apply List.map_congr_left
  intro g _
  simp only [Function.comp]
  split
  · rename_i h
    exact h.symm
  · rfl

theorem mem_setFiber (h : g ∈ (s.setFiber f).live) : g = f ∨ (g ∈ s.live ∧ g.id ≠ f.id) := by
  obtain ⟨x, hx, rfl⟩ := List.mem_map.mp h
  split
  · exact .inl rfl
  · rename_i hne
    exact .inr ⟨hx, hne⟩

theorem setFiber_mem (hg : g ∈ s.live) (hid : g.id = f.id) : f ∈ (s.setFiber f).live :=
  List.mem_map.mpr ⟨g, hg, by simp [hid]⟩

theorem setFiber_mem_of_ne (hg : g ∈ s.live) (hid : g.id ≠ f.id) : g ∈ (s.setFiber f).live :=
  List.mem_map.mpr ⟨g, hg, by simp [hid]⟩

end

/-! ## The invariant -/

def turns (s : Scheduler H) (fiber : Nat) : Nat := (s.queue ++ s.next).count fiber

/-- Where a live fiber stands: it is to be run once, it waits for a pending handle that lists it, or
its handle is completed and it is about to be called. -/
inductive Stands (s : Scheduler H) (calls : List (Nat × Nat)) (f : Fiber) : Prop where
  | ready (state : f.state = .runnable) (turns : s.turns f.id = 1)
  | waits (state : f.state = .waiting) (turns : s.turns f.id = 0)
      (place : Awaits s.machine f f.awaiting)
      (listed : s.stage.handles.Lists f.awaiting f.id fun h => h.isDone = false)
  | called (state : f.state = .waiting) (turns : s.turns f.id = 0)
      (call : (f.awaiting, f.id) ∈ calls)

/-- A fiber that is running, or has just been. -/
structure Away (s : Scheduler H) (f : Fiber) : Prop where
  state : f.state ≠ .waiting
  turns : s.turns f.id = 0

/-- The invariant. `calls` are still to be made, each of them for a handle that is completed; the
fiber numbered `away` is not among those to be run or called. -/
structure Sound (s : Scheduler H) (calls : List (Nat × Nat)) (away : Option Nat) : Prop where
  machine : s.machine.Polite
  inbox : ∀ e ∈ s.inbox, e.Polite
  ids : (s.live.map Fiber.id).Nodup
  bounded : ∀ f ∈ s.live, f.id ≤ s.lastId
  queued : ∀ id ∈ s.queue ++ s.next, id ≤ s.lastId
  fibers : (s.live.length : Int) ≤ s.machine.limits.fibers
  table : s.stage.handles.Sound
  completed : ∀ c ∈ calls, ∀ h, s.stage.handles.get? c.1 = some h → h.isDone = true
  stands : ∀ f ∈ s.live, if some f.id = away then s.Away f else s.Stands calls f

section

variable {s : Scheduler H} {calls : List (Nat × Nat)} {away : Option Nat}

/-- Where a fiber stands depends on the machine, on the handles and on its own turns. -/
theorem Stands.congr {s' : Scheduler H} {f : Fiber} (h : s.Stands calls f)
    (hmachine : s'.machine = s.machine)
    (hget : s'.stage.handles.get? = s.stage.handles.get?) (hturns : s'.turns f.id = s.turns f.id) :
    s'.Stands calls f := by
  cases h with
  | ready state turns => exact .ready state (hturns.trans turns)
  | waits state turns place listed =>
    refine .waits state (hturns.trans turns) (hmachine ▸ place) ?_
    unfold HandleTable.Lists at listed ⊢
    rw [hget]
    exact listed
  | called state turns call => exact .called state (hturns.trans turns) call

theorem Sound.stands_congr {s' : Scheduler H} (hs : s.Sound calls away) {f : Fiber} (hf : f ∈ s.live)
    (hmachine : s'.machine = s.machine)
    (hget : s'.stage.handles.get? = s.stage.handles.get?) (hturns : s'.turns f.id = s.turns f.id) :
    if some f.id = away then s'.Away f else s'.Stands calls f := by
  have hstands := hs.stands f hf
  split
  · rename_i haway
    rw [if_pos haway] at hstands
    exact ⟨hstands.state, hturns.trans hstands.turns⟩
  · rename_i haway
    rw [if_neg haway] at hstands
    exact hstands.congr hmachine hget hturns

theorem count_turn (w id : Nat) (l : List Nat) :
    (w :: l).count id = l.count id + if id = w then 1 else 0 := by
  by_cases h : id = w
  · simp [h]
  · simp [h, List.count_cons_of_ne (Ne.symm h)]

theorem count_queued (queue next : List Nat) (w id : Nat) :
    ((queue ++ [w]) ++ next).count id = (queue ++ next).count id + if id = w then 1 else 0 := by
  simp only [List.append_assoc, List.singleton_append, List.count_append, count_turn]
  exact (Nat.add_assoc _ _ _).symm

theorem Sound.called {f : Fiber} (hs : s.Sound ((f.awaiting, f.id) :: calls) away) (hf : f ∈ s.live)
    (hstate : f.state = .waiting) :
    { s.setFiber (woken f) with queue := s.queue ++ [f.id] }.Sound calls away := by
  obtain ⟨haway, hturns⟩ : some f.id ≠ away ∧ s.turns f.id = 0 := by
    have hstands := hs.stands f hf
    split at hstands
    · exact absurd hstate hstands.state
    · rename_i hne
      refine ⟨hne, ?_⟩
      cases hstands with
      | ready state _ =>
        rw [hstate] at state
        cases state
      | waits _ turns _ _ => exact turns
      | called _ turns _ => exact turns
  have hturns' (id : Nat) : Scheduler.turns
      { s.setFiber (woken f) with queue := s.queue ++ [f.id] } id =
        s.turns id + if id = f.id then 1 else 0 := count_queued s.queue s.next f.id id
  refine ⟨hs.machine, hs.inbox, ?_, ?_, ?_, ?_, hs.table,
    fun c hc => hs.completed c (List.mem_cons_of_mem _ hc), ?_⟩
  · exact (ids_setFiber s (woken f)).symm ▸ hs.ids
  · intro g hg
    rcases mem_setFiber hg with rfl | ⟨hg, -⟩
    · exact hs.bounded f hf
    · exact hs.bounded g hg
  · intro id hid
    simp only [List.append_assoc, List.mem_append, List.mem_singleton] at hid
    rcases hid with hid | rfl | hid
    · exact hs.queued id (List.mem_append_left _ hid)
    · exact hs.bounded f hf
    · exact hs.queued id (List.mem_append_right _ hid)
  · rw [show (s.setFiber (woken f)).live.length = s.live.length from List.length_map _]
    exact hs.fibers
  · intro g hg
    rcases mem_setFiber hg with rfl | ⟨hg, hne⟩
    · have hstays : some (woken f).id ≠ away := haway
      rw [if_neg hstays]
      refine .ready rfl ?_
      rw [hturns', woken_id, hturns, if_pos rfl]
    · have hsame := hturns' g.id
      rw [woken_id] at hne
      rw [if_neg hne, Nat.add_zero] at hsame
      have hstands := hs.stands g hg
      split
      · rename_i hgaway
        rw [if_pos hgaway] at hstands
        exact ⟨hstands.state, hsame.trans hstands.turns⟩
      · rename_i hgaway
        rw [if_neg hgaway] at hstands
        cases hstands with
        | ready state turns => exact .ready state (hsame.trans turns)
        | waits state turns place listed => exact .waits state (hsame.trans turns) place listed
        | called state turns call =>
          rcases List.mem_cons.mp call with heq | hmem
          · exact absurd (congrArg Prod.snd heq) hne
          · exact .called state (hsame.trans turns) hmem

/-- One call: whoever waits for the handle is to be run, and nobody else is affected. -/
theorem Sound.wake {k w : Nat} (hs : s.Sound ((k, w) :: calls) away) :
    (s.wake k w).Sound calls away := by
  have hcompleted : ∀ c ∈ calls, ∀ h, s.stage.handles.get? c.1 = some h → h.isDone = true :=
    fun c hc => hs.completed c (List.mem_cons_of_mem _ hc)
  -- a call that concerns nobody
  have hmissed (hnone : ∀ f ∈ s.live, f.state = .waiting → ¬ (f.awaiting = k ∧ f.id = w)) :
      s.Sound calls away := by
    refine ⟨hs.machine, hs.inbox, hs.ids, hs.bounded, hs.queued, hs.fibers, hs.table, hcompleted, ?_⟩
    intro f hf
    have hstands := hs.stands f hf
    split
    · rename_i haway
      rwa [if_pos haway] at hstands
    · rename_i haway
      rw [if_neg haway] at hstands
      cases hstands with
      | ready state turns => exact .ready state turns
      | waits state turns place listed => exact .waits state turns place listed
      | called state turns call =>
        rcases List.mem_cons.mp call with heq | hmem
        · cases heq
          exact absurd ⟨rfl, rfl⟩ (hnone f hf state)
        · exact .called state turns hmem
  unfold Scheduler.wake
  split
  · rename_i hw
    refine hmissed fun f hf _ hfw => ?_
    have hfound := fiber?_of_mem hs.ids hf
    rw [hfw.2, hw] at hfound
    cases hfound
  · rename_i f hw
    obtain ⟨hf, hid⟩ := mem_of_fiber? hw
    have hid : f.id = w := by omega
    split
    · rename_i hcond
      simp only [Bool.and_eq_true, decide_eq_true_eq] at hcond
      obtain ⟨hstate, rfl⟩ := hcond
      subst hid
      exact hs.called hf hstate
    · rename_i hcond
      refine hmissed fun g hg hstate hgw => ?_
      obtain rfl := eq_of_id_eq hs.ids hf hg (by omega)
      simp [hstate, hgw.1] at hcond

/-! ## Delivery -/

/-- The scheduler `s'` differs from `s` only in that waiting fibers have been called. -/
structure Called (s s' : Scheduler H) : Prop where
  machine : s'.machine = s.machine
  stage : s'.stage = s.stage
  lastId : s'.lastId = s.lastId
  inbox : s'.inbox = s.inbox
  ids : s'.live.map Fiber.id = s.live.map Fiber.id
  live : ∀ f ∈ s.live, ∃ g ∈ s'.live, g = f ∨ (f.state = .waiting ∧ g = woken f)

theorem Called.refl (s : Scheduler H) : s.Called s :=
  ⟨rfl, rfl, rfl, rfl, rfl, fun f hf => ⟨f, hf, .inl rfl⟩⟩

theorem Called.trans {s s' s'' : Scheduler H} (h : s.Called s') (h' : s'.Called s'') :
    s.Called s'' := by
  refine ⟨h'.machine.trans h.machine, h'.stage.trans h.stage, h'.lastId.trans h.lastId,
    h'.inbox.trans h.inbox, h'.ids.trans h.ids, ?_⟩
  intro f hf
  obtain ⟨g, hg, hfg⟩ := h.live f hf
  obtain ⟨x, hx, hgx⟩ := h'.live g hg
  refine ⟨x, hx, ?_⟩
  rcases hfg with rfl | ⟨hstate, rfl⟩
  · exact hgx
  · rcases hgx with rfl | ⟨hwaiting, -⟩
    · exact .inr ⟨hstate, rfl⟩
    · cases hwaiting

/-- A fiber after the calls is one from before them. -/
theorem Called.past {s' : Scheduler H} {g : Fiber} (h : s.Called s')
    (hids : (s.live.map Fiber.id).Nodup) (hg : g ∈ s'.live) :
    ∃ f ∈ s.live, g = f ∨ (f.state = .waiting ∧ g = woken f) := by
  obtain ⟨f, hf, hid⟩ : ∃ f ∈ s.live, f.id = g.id := by
    have hmem := List.mem_map_of_mem (f := Fiber.id) hg
    rw [h.ids] at hmem
    exact List.mem_map.mp hmem
  obtain ⟨x, hx, hcase⟩ := h.live f hf
  have hxid : x.id = f.id := by rcases hcase with rfl | ⟨-, rfl⟩ <;> rfl
  obtain rfl : x = g := eq_of_id_eq (h.ids.symm ▸ hids) hx hg (hxid.trans hid)
  exact ⟨f, hf, hcase⟩

theorem called_wake (hids : (s.live.map Fiber.id).Nodup) (k w : Nat) : s.Called (s.wake k w) := by
  unfold Scheduler.wake
  split
  · exact .refl s
  · rename_i f hw
    split
    · rename_i hcond
      simp only [Bool.and_eq_true, decide_eq_true_eq] at hcond
      obtain ⟨hf, -⟩ := mem_of_fiber? hw
      refine ⟨rfl, rfl, rfl, rfl, ids_setFiber s (woken f), ?_⟩
      intro g hg
      by_cases hid : g.id = f.id
      · obtain rfl := eq_of_id_eq hids hg hf hid
        exact ⟨woken g, setFiber_mem hg rfl, .inr ⟨hcond.1, rfl⟩⟩
      · exact ⟨g, setFiber_mem_of_ne hg hid, .inl rfl⟩
    · exact .refl s

/-- The calls that the outbox asks for. -/
def callsOf (t : HandleTable) : List (Nat × Nat) :=
  t.outbox.flatMap fun c => c.waiters.map fun w => (c.handle, w)

theorem mem_callsOf {t : HandleTable} {k w : Nat} :
    (k, w) ∈ callsOf t ↔ t.Calls k w := by
  unfold callsOf HandleTable.Calls
  simp only [List.mem_flatMap, List.mem_map, Prod.mk.injEq, Nat.cast_inj]
  constructor
  · rintro ⟨c, hc, w', hw', rfl, rfl⟩
    exact ⟨c, hc, rfl, hw'⟩
  · rintro ⟨c, hc, rfl, hw⟩
    exact ⟨c, hc, w, hw, rfl, rfl⟩

def emptied (s : Scheduler H) : Scheduler H :=
  { s with stage := { s.stage with handles := { s.stage.handles with outbox := [] } } }

theorem deliver_eq (s : Scheduler H) :
    s.deliver = (callsOf s.stage.handles).foldl (fun s c => s.wake c.1 c.2) s.emptied := by
  simp only [deliver, callsOf, List.foldl_flatMap, List.foldl_map]
  rfl

/-- Delivery empties the outbox and calls one fiber after the other. -/
theorem deliver_induction {P : Scheduler H → Prop} (emptied : P s.emptied)
    (wake : ∀ t k w, P t → P (t.wake k w)) : P s.deliver := by
  rw [deliver_eq]
  generalize s.emptied = t at emptied
  induction callsOf s.stage.handles generalizing t with
  | nil => exact emptied
  | cons c calls ih => exact ih _ (wake t c.1 c.2 emptied)

theorem Sound.wakes (hs : s.Sound calls away) :
    (calls.foldl (fun s c => s.wake c.1 c.2) s).Sound [] away := by
  induction calls generalizing s with
  | nil => exact hs
  | cons c calls ih => exact ih hs.wake

theorem Sound.emptied (hs : s.Sound calls away) : s.emptied.Sound calls away := by
  have ht := hs.table
  refine ⟨hs.machine, hs.inbox, hs.ids, hs.bounded, hs.queued, hs.fibers,
    ⟨ht.ids, ht.bounded, ht.size, ht.waiters, by simp [Scheduler.emptied]⟩, hs.completed, ?_⟩
  intro f hf
  exact hs.stands_congr hf rfl rfl rfl

theorem called_deliver (s : Scheduler H) (hids : (s.live.map Fiber.id).Nodup) :
    s.emptied.Called s.deliver :=
  deliver_induction (.refl _) fun _ k w h => h.trans (called_wake (h.ids.symm ▸ hids) k w)

/-- Delivery makes all the calls that the outbox asks for. -/
theorem Sound.deliver (hs : s.Sound (callsOf s.stage.handles) away) : s.deliver.Sound [] away := by
  rw [deliver_eq]
  exact hs.emptied.wakes

/-! ## Changes of the table -/

/-- What host code or one of the fibers does to the table, whoever is at rest either still waits or is
to be called. -/
theorem Sound.evolves (hs : s.Sound [] away) {atWork : Nat → Prop} {stage : Stage H}
    {as : List (Int × Answer)} (h : Evolves atWork s.stage.handles as stage.handles)
    (hwork : ∀ f ∈ s.live, atWork f.id → some f.id = away) :
    { s with stage := stage }.Sound (callsOf stage.handles) away := by
  have htable := h.sound hs.table
  refine ⟨hs.machine, hs.inbox, hs.ids, hs.bounded, hs.queued, hs.fibers, htable, ?_, ?_⟩
  · rintro ⟨k, w⟩ hc x hx
    obtain ⟨c, hc, hk, -⟩ := mem_callsOf.mp hc
    refine (htable.outbox c hc).2 x ?_
    rw [hk]
    exact hx
  · intro f hf
    have hstands := hs.stands f hf
    split
    · rename_i haway
      rw [if_pos haway] at hstands
      exact ⟨hstands.state, hstands.turns⟩
    · rename_i haway
      rw [if_neg haway] at hstands
      cases hstands with
      | ready state turns => exact .ready state turns
      | waits state turns place listed =>
        have hrest : ¬ atWork f.id := fun hat => haway (hwork f hf hat)
        rcases h.waits hrest listed with ⟨-, hstill⟩ | ⟨a, -, -, hcalls⟩
        · exact .waits state turns place hstill
        · exact .called state turns (mem_callsOf.mpr hcalls)
      | called _ _ call => cases call

/-! ## Leaving and coming back -/

theorem Sound.setFiber {g : Fiber} (hs : s.Sound calls (some g.id)) {away : Option Nat}
    (haway : ∀ id, some id = away → id = g.id)
    (hg : if some g.id = away then s.Away g else s.Stands calls g) :
    (s.setFiber g).Sound calls away := by
  refine ⟨hs.machine, hs.inbox, ?_, ?_, hs.queued, ?_, hs.table, hs.completed, ?_⟩
  · rw [ids_setFiber]
    exact hs.ids
  · intro f hf
    obtain ⟨x, hx, hid⟩ : ∃ x ∈ s.live, x.id = f.id := by
      have hmem := List.mem_map_of_mem (f := Fiber.id) hf
      rw [ids_setFiber] at hmem
      exact List.mem_map.mp hmem
    exact hid ▸ hs.bounded x hx
  · rw [show (s.setFiber g).live.length = s.live.length from List.length_map _]
    exact hs.fibers
  · intro f hf
    rcases mem_setFiber hf with rfl | ⟨hf, hne⟩
    · split
      · rename_i h
        rw [if_pos h] at hg
        exact ⟨hg.state, hg.turns⟩
      · rename_i h
        rw [if_neg h] at hg
        exact hg.congr rfl rfl rfl
    · have hstands := hs.stands f hf
      rw [if_neg (fun h => hne (Option.some.inj h))] at hstands
      rw [if_neg (fun h => hne (haway _ h))]
      exact hstands.congr rfl rfl rfl

theorem Sound.remove (hs : s.Sound calls away) {id : Nat} (haway : away = none ∨ away = some id) :
    { s with live := s.live.filter fun g => g.id ≠ id }.Sound calls none := by
  have hsub : (s.live.filter fun g => g.id ≠ id).Sublist s.live := List.filter_sublist
  refine ⟨hs.machine, hs.inbox, hs.ids.sublist (hsub.map _), fun f hf => hs.bounded f (hsub.subset hf),
    hs.queued, ?_, hs.table, hs.completed, ?_⟩
  · have hlen := hsub.length_le
    have := hs.fibers
    dsimp only
    omega
  · intro f hf
    obtain ⟨hf, hne⟩ := List.mem_filter.mp hf
    have hne : f.id ≠ id := by simpa using hne
    have hstands := hs.stands f hf
    rw [if_neg ?_] at hstands
    · rw [if_neg (by simp)]
      exact hstands.congr rfl rfl rfl
    · rcases haway with rfl | rfl
      · simp
      · simpa using hne

theorem Sound.take (hs : s.Sound [] none) {id : Nat} {rest : List Nat} (hq : s.queue = id :: rest)
    {f : Fiber} (hf : f ∈ s.live) (hid : f.id = id) (hstate : f.state = .runnable) :
    { s with queue := rest }.Sound [] (some f.id) := by
  have hturns (x : Nat) : s.turns x = Scheduler.turns { s with queue := rest } x +
      if x = id then 1 else 0 := by
    simp only [Scheduler.turns, hq, List.cons_append, count_turn]
  refine ⟨hs.machine, hs.inbox, hs.ids, hs.bounded, ?_, hs.fibers, hs.table, by simp, ?_⟩
  · intro x hx
    refine hs.queued x ?_
    rw [hq]
    exact List.mem_cons_of_mem _ hx
  · intro g hg
    have hstands := hs.stands g hg
    rw [if_neg (by simp)] at hstands
    have hcount := hturns g.id
    split
    · rename_i heq
      obtain rfl := eq_of_id_eq hs.ids hg hf (Option.some.inj heq)
      refine ⟨by simp [hstate], ?_⟩
      cases hstands with
      | ready _ turns =>
        rw [if_pos hid] at hcount
        omega
      | waits state _ _ _ | called state _ _ =>
        rw [hstate] at state
        cases state
    · rename_i hne
      have hne : g.id ≠ id := fun h => hne (by rw [h, hid])
      rw [if_neg hne, Nat.add_zero] at hcount
      exact hstands.congr rfl rfl hcount.symm

theorem Sound.requeue {id : Nat} (hs : s.Sound [] (some id))
    (hstate : ∀ f ∈ s.live, f.id = id → f.state = .runnable) (hle : id ≤ s.lastId) :
    { s with next := s.next ++ [id] }.Sound [] none := by
  have hturns (x : Nat) : Scheduler.turns { s with next := s.next ++ [id] } x =
      s.turns x + if x = id then 1 else 0 := by
    simp only [Scheduler.turns, List.count_append, count_turn, List.count_nil, Nat.zero_add]
    exact (Nat.add_assoc _ _ _).symm
  refine ⟨hs.machine, hs.inbox, hs.ids, hs.bounded, ?_, hs.fibers, hs.table, by simp, ?_⟩
  · intro x hx
    rw [← List.append_assoc, List.mem_append, List.mem_singleton] at hx
    rcases hx with hx | rfl
    · exact hs.queued x hx
    · exact hle
  · intro f hf
    have hstands := hs.stands f hf
    have hcount := hturns f.id
    rw [if_neg (by simp)]
    by_cases hid : f.id = id
    · rw [if_pos (by rw [hid])] at hstands
      rw [if_pos hid, hstands.turns] at hcount
      exact .ready (hstate f hf hid) hcount
    · rw [if_neg (by simpa using hid)] at hstands
      rw [if_neg hid, Nat.add_zero] at hcount
      exact hstands.congr rfl rfl hcount

theorem Sound.mail (hs : s.Sound calls away) {inbox : List (Errand (Stage H))}
    (hpolite : ∀ e ∈ inbox, e.Polite) : { s with inbox := inbox }.Sound calls away :=
  ⟨hs.machine, hpolite, hs.ids, hs.bounded, hs.queued, hs.fibers, hs.table, hs.completed,
    fun _ hf => hs.stands_congr hf rfl rfl rfl⟩

/-- The queues are arranged anew, with the same turns for all that are alive. -/
theorem Sound.arrange (hs : s.Sound calls away) (queue next : List Nat)
    (hturns : ∀ f ∈ s.live, (queue ++ next).count f.id = s.turns f.id)
    (hqueued : ∀ id ∈ queue ++ next, id ∈ s.queue ++ s.next) :
    { s with queue := queue, next := next }.Sound calls away :=
  ⟨hs.machine, hs.inbox, hs.ids, hs.bounded, fun id hid => hs.queued id (hqueued id hid), hs.fibers,
    hs.table, hs.completed, fun f hf => hs.stands_congr hf rfl rfl (hturns f hf)⟩

end

/-! ## Ending and running -/

section

variable [Host H] {s : Scheduler H}

theorem evolves_finish (s : Scheduler H) (f : Fiber) :
    Evolves (· = f.id) s.stage.handles [] (s.finish f).stage.handles := by
  simp only [finish]
  split
  · exact HandleTable.evolves_release (by rfl) f.handles
  · exact .step (.leave (by rfl) f.awaiting) (HandleTable.evolves_release (by rfl) f.handles)

theorem Sound.finish {away : Option Nat} {f : Fiber} (hs : s.Sound [] away)
    (haway : away = none ∨ away = some f.id) (hout : s.stage.handles.outbox = []) :
    (s.finish f).Sound [] none ∧ (s.finish f).stage.handles.outbox = [] := by
  have hevolves := s.evolves_finish f
  have hempty := hevolves.outbox_eq.trans hout
  have hgone : ∀ g ∈ s.live.filter fun g => g.id ≠ f.id, g.id = f.id → some g.id = none := by
    intro g hg hid
    simp [hid] at hg
  have hsound := (hs.remove haway).evolves hevolves hgone
  have hcalls : callsOf (s.finish f).stage.handles = [] := by
    rw [callsOf, hempty]
    rfl
  rw [hcalls] at hsound
  exact ⟨hsound, hempty⟩

omit [Host H] in
theorem deliver_outbox (s : Scheduler H) (hids : (s.live.map Fiber.id).Nodup) :
    s.deliver.stage.handles.outbox = [] := by
  rw [(s.called_deliver hids).stage]
  rfl

omit [Host H] in
theorem Sound.turns_away {f : Fiber} (hs : s.Sound [] (some f.id)) (hf : f ∈ s.live) :
    s.turns f.id = 0 := by
  have hstands := hs.stands f hf
  rw [if_pos rfl] at hstands
  exact hstands.turns

omit [Host H] in
/-- The fiber that has been running comes back, and whoever it completed a handle for is called. -/
theorem Sound.comesBack {f g : Fiber} {stage : Stage H} {as : List (Int × Answer)}
    (away : Option Nat) (hs : s.Sound [] (some f.id)) (hid : g.id = f.id)
    (hevolves : Evolves (· = f.id) s.stage.handles as stage.handles)
    (haway : ∀ id, some id = away → id = f.id)
    (hg : if some f.id = away then { s with stage := stage }.Away g
      else { s with stage := stage }.Stands (callsOf stage.handles) g) :
    ({ s with stage := stage }.setFiber g).deliver.Sound [] away := by
  have hwork : ∀ x ∈ s.live, x.id = f.id → some x.id = some f.id := fun x _ hx => by rw [hx]
  have hevolved := hs.evolves hevolves hwork
  rw [← hid] at haway hg hevolved
  exact (hevolved.setFiber haway hg).deliver

omit [Host H] in
/-- A fiber that does not wait is not called. -/
theorem mem_deliver {f : Fiber} (hids : (s.live.map Fiber.id).Nodup) (hf : f ∈ s.live)
    (hstate : f.state ≠ .waiting) : f ∈ s.deliver.live := by
  obtain ⟨g, hg, rfl | ⟨hwaiting, -⟩⟩ := (s.called_deliver hids).live f hf
  · exact hg
  · exact absurd hwaiting hstate

theorem ran_of_runFiber {f : Fiber} {s' : Scheduler H} (h : s.runFiber f = .ok s') :
    ∃ status g stage,
      s.machine.run s.machine.limits.budget f s.stage = .ok (status, g, stage) := by
  unfold Scheduler.runFiber at h
  split at h
  · cases h
  · rename_i status g stage hrun
    exact ⟨status, g, stage, hrun⟩

theorem runFiber_eq_ok {f g : Fiber} {status : RunStatus} {stage : Stage H} {s' : Scheduler H}
    (hrun : s.machine.run s.machine.limits.budget f s.stage = .ok (status, g, stage))
    (h : s.runFiber f = .ok s') :
    (status = .done ∨ status = .fault) ∧ s' = ({ s with stage := stage }.setFiber g).deliver.finish g ∨
    (status = .yielded ∨ status = .budget) ∧
      s' = { ({ s with stage := stage }.setFiber g).deliver with
        next := ({ s with stage := stage }.setFiber g).deliver.next ++ [g.id] } ∨
    status = .waiting ∧ s' = ({ s with stage := stage }.setFiber g).deliver := by
  simp only [Scheduler.runFiber, hrun] at h
  cases status <;> cases h <;> simp

theorem Sound.runFiber {f g : Fiber} {status : RunStatus} {stage : Stage H} {s' : Scheduler H}
    (hs : s.Sound [] (some f.id)) (hf : f ∈ s.live) (hstate : f.state = .runnable)
    (hrun : s.machine.run s.machine.limits.budget f s.stage = .ok (status, g, stage))
    (h : s.runFiber f = .ok s') : s'.Sound [] none ∧ s'.stage.handles.outbox = [] := by
  have hturns := hs.turns_away hf
  have hids : (({ s with stage := stage }.setFiber g).live.map Fiber.id).Nodup := by
    rw [ids_setFiber]
    exact hs.ids
  have hout := deliver_outbox _ hids
  have hcases := runFiber_eq_ok hrun h
  cases run_stops (hs.machine.keeps f.id) hstate hrun with
  | ended isOver id awaiting terminal table =>
    obtain ⟨as, hevolves⟩ := table
    have hback := hs.comesBack (some f.id) id hevolves (fun _ h => Option.some.inj h) (by
      rw [if_pos rfl]
      refine ⟨?_, id ▸ hturns⟩
      intro hwaiting
      rw [hwaiting] at terminal
      cases terminal)
    obtain ⟨-, rfl⟩ | ⟨hshort, -⟩ | ⟨hwaiting, -⟩ := hcases
    · exact hback.finish (.inr (by rw [id])) hout
    · rcases isOver with rfl | rfl <;> simp at hshort
    · rcases isOver with rfl | rfl <;> cases hwaiting
  | paused short id awaiting state table =>
    obtain ⟨as, hevolves⟩ := table
    have hwaiting : g.state ≠ .waiting := by simp [state]
    have hback := hs.comesBack (some f.id) id hevolves (fun _ h => Option.some.inj h) (by
      rw [if_pos rfl]
      exact ⟨hwaiting, id ▸ hturns⟩)
    have hmem := mem_deliver hids (setFiber_mem hf id.symm) hwaiting
    rw [← id] at hback
    have hagain := hback.requeue (fun x hx hxid => by
      rw [eq_of_id_eq hback.ids hx hmem hxid]
      exact state) (hback.bounded g hmem)
    obtain ⟨hover, -⟩ | ⟨-, rfl⟩ | ⟨hwaiting, -⟩ := hcases
    · rcases short with rfl | rfl <;> simp at hover
    · exact ⟨hagain, hout⟩
    · rcases short with rfl | rfl <;> cases hwaiting
  | @parked g t table k x id state awaiting place before found pending after =>
    obtain ⟨as, hevolves⟩ := before
    have hparked : Evolves (· = f.id) s.stage.handles as stage.handles := by
      rw [after]
      exact hevolves.park (by rfl) found pending
    have hlisted : stage.handles.Lists g.awaiting g.id fun h => h.isDone = false := by
      rw [after, awaiting, id]
      exact HandleTable.lists_parked found pending f.id
    obtain ⟨hover, -⟩ | ⟨hshort, -⟩ | ⟨-, rfl⟩ := hcases
    · simp at hover
    · simp at hshort
    · refine ⟨?_, hout⟩
      refine hs.comesBack none id hparked (by simp) ?_
      rw [if_neg (by simp)]
      exact .waits state (id ▸ hturns) (awaiting ▸ place) hlisted

/-- What becomes of a scheduler that has run a fiber: the others are called, and the fiber goes or
stays. -/
theorem runFiber_called {f g : Fiber} {status : RunStatus} {stage : Stage H} {s' : Scheduler H}
    (hids : (s.live.map Fiber.id).Nodup)
    (hrun : s.machine.run s.machine.limits.budget f s.stage = .ok (status, g, stage))
    (h : s.runFiber f = .ok s') :
    ∃ s1, ({ s with stage := stage }.setFiber g).emptied.Called s1 ∧
      (s' = s1.finish g ∨ ∃ next, s' = { s1 with next := next }) := by
  refine ⟨_, called_deliver _ ?_, ?_⟩
  · rw [ids_setFiber]
    exact hids
  · obtain ⟨-, rfl⟩ | ⟨-, rfl⟩ | ⟨-, rfl⟩ := runFiber_eq_ok hrun h
    · exact .inl rfl
    · exact .inr ⟨_, rfl⟩
    · exact .inr ⟨_, rfl⟩

theorem uses_of_run {m : Machine H} (hm : m.Polite) {f g : Fiber} {status : RunStatus}
    {stage stage' : Stage H} {budget : Int} (hstate : f.state = .runnable)
    (hrun : m.run budget f stage = .ok (status, g, stage')) :
    Uses f.id stage.handles stage'.handles := by
  cases run_stops (hm.keeps f.id) hstate hrun with
  | ended _ _ _ _ table => exact table
  | paused _ _ _ _ table => exact table
  | parked _ _ _ _ before found pending after =>
    obtain ⟨as, hevolves⟩ := before
    rw [after]
    exact ⟨as, hevolves.park (by rfl) found pending⟩

theorem Sound.uses {away : Option Nat} {f g : Fiber} {status : RunStatus} {stage : Stage H}
    {budget : Int} (hs : s.Sound [] away) (hstate : f.state = .runnable)
    (hrun : s.machine.run budget f s.stage = .ok (status, g, stage)) :
    Uses f.id s.stage.handles stage.handles := uses_of_run hs.machine hstate hrun

end

end Scheduler

end TileMind
