import TileMind.Proofs.Machine.Executed
import TileMind.Proofs.Machine.Lives

/-!
# TileMind.Proofs.Machine.Ticks

What a tick does to fibers and to the host. It spawns nothing: whoever is alive afterwards was alive
before, under the same number and for the same function. The host is changed by host code, and by
fibers that end, all of which were alive before.

* `Scheduler.Follows`: one scheduler comes after another without anything being spawned.
* `follows_tick`: so it is for a tick.
* `Scheduler.acts`: the code that a tick runs, in turn.
* `Scheduler.threads_tick`: a tick changes the host by that code.
-/

namespace TileMind

variable {H : Type} [Host H]

/-- What becomes of a host while fibers for the functions `entries` run: host code acts within `A`, and
fibers end. -/
inductive Happens (A : H → H → Prop) (entries : List Int) : H → H → Prop where
  | refl (h : H) : Happens A entries h h
  | acts {h h' : H} (within : A h h') : Happens A entries h h'
  | ends (h : H) (heap : Heap) {f : Fiber} (entry : f.entry ∈ entries) :
      Happens A entries h (Host.ended h heap f)
  | trans {h h' h'' : H} (first : Happens A entries h h') (rest : Happens A entries h' h'') :
      Happens A entries h h''

theorem Happens.mono {A : H → H → Prop} {entries entries' : List Int} {h h' : H}
    (hsub : entries ⊆ entries') (hh : Happens A entries h h') : Happens A entries' h h' := by
  induction hh with
  | refl h => exact .refl h
  | acts within => exact .acts within
  | ends h heap entry => exact .ends h heap (hsub entry)
  | trans _ _ ih ih' => exact .trans ih ih'

/-- Instructions, and host code called by them, act within `A`. -/
structure Machine.Within (m : Machine H) (A : H → H → Prop) : Prop where
  store : ∀ h func var v, A h (Host.store h func var v)
  sync : ∀ {fn f call}, m.services.functions.get? fn = some f → f.sync = some call →
    ∀ c args (s : Stage H), A s.host (call c args s).2.host
  async : ∀ {fn f call}, m.services.functions.get? fn = some f → f.async = some call →
    ∀ c args handle (s : Stage H), A s.host (call c args handle s).2.host
  get : ∀ {type get}, (m.hooks type).get = some get →
    ∀ {obj field} {s : Stage H} {r}, get obj field s = .ok r → A s.host r.2.host
  set : ∀ {type set}, (m.hooks type).set = some set →
    ∀ {obj field v} {s : Stage H} {r}, set obj field v s = .ok r → A s.host r.2.host

theorem Machine.Within.touches {m : Machine H} {A : H → H → Prop} (hm : m.Within A)
    (entries : List Int) (func : Int) : m.Touches func (Happens A entries) where
  refl := .refl
  trans := .trans
  store h var v := .acts (hm.store h func var v)
  sync hf hcall c args s _ := .acts (hm.sync hf hcall c args s)
  async hf hcall c args handle s _ := .acts (hm.async hf hcall c args handle s)
  get hget _ _ _ _ hr := .acts (hm.get hget hr)
  set hset _ _ _ _ _ hr := .acts (hm.set hset hr)

omit [Host H] in
/-- Who does what is forgotten. -/
theorem Accounts.collapse {R : H → H → Prop} (htrans : ∀ {h h' h''}, R h h' → R h' h'' → R h h'')
    {h h' : H} {es : List (Executed H)} (ha : Accounts (fun _ => R) R h es h') : R h h' := by
  induction ha with
  | rest between => exact between
  | step between touches _ ih => exact htrans between (htrans touches ih)

theorem happens_run {m : Machine H} {A : H → H → Prop} (hm : m.Within A) (entries : List Int)
    {budget : Int} {f g : Fiber} {s t : Stage H} {status : RunStatus}
    (h : m.run budget f s = .ok (status, g, t)) : Happens A entries s.host t.host :=
  (accounts_run (hm.touches entries) .refl h).collapse .trans

namespace Scheduler

def entries (s : Scheduler H) : List Int := s.live.map Fiber.entry

/-- The live fibers by their numbers, with the functions they are for. -/
def tags (s : Scheduler H) : List (Nat × Int) := s.live.map fun f => (f.id, f.entry)

/-- The scheduler `s'` comes after `s`, and nothing has been spawned in between. -/
structure Follows (A : H → H → Prop) (s s' : Scheduler H) : Prop where
  machine : s'.machine = s.machine
  lastId : s'.lastId = s.lastId
  inbox : (∀ e ∈ s.inbox, e.Quiet A) → ∀ e ∈ s'.inbox, e.Quiet A
  fibers : ∀ g ∈ s'.live, ∃ f ∈ s.live, g.id = f.id ∧ g.entry = f.entry
  host : Happens A s.entries s.stage.host s'.stage.host

section

variable {A : H → H → Prop} {s s' s'' : Scheduler H} {f g : Fiber}

theorem Follows.tags_subset (h : s.Follows A s') : s'.tags ⊆ s.tags := by
  intro t ht
  obtain ⟨g, hg, rfl⟩ := List.mem_map.mp ht
  obtain ⟨f, hf, hid, hentry⟩ := h.fibers g hg
  rw [hid, hentry]
  exact List.mem_map_of_mem (f := fun f : Fiber => (f.id, f.entry)) hf

theorem Follows.entries_subset (h : s.Follows A s') : s'.entries ⊆ s.entries := by
  intro e he
  obtain ⟨g, hg, rfl⟩ := List.mem_map.mp he
  obtain ⟨f, hf, -, hentry⟩ := h.fibers g hg
  rw [hentry]
  exact List.mem_map_of_mem hf

theorem Follows.trans (h : s.Follows A s') (h' : s'.Follows A s'') : s.Follows A s'' := by
  refine ⟨h'.machine.trans h.machine, h'.lastId.trans h.lastId, fun hs => h'.inbox (h.inbox hs),
    fun g hg => ?_, h.host.trans (h'.host.mono h.entries_subset)⟩
  obtain ⟨f, hf, hid, hentry⟩ := h'.fibers g hg
  obtain ⟨e, he, hid', hentry'⟩ := h.fibers f hf
  exact ⟨e, he, hid.trans hid', hentry.trans hentry'⟩

/-- All that has changed are the queues, the handles and the heap. -/
theorem Follows.of_live (hmachine : s'.machine = s.machine) (hlast : s'.lastId = s.lastId)
    (hinbox : s'.inbox = s.inbox) (hlive : s'.live = s.live)
    (hhost : Happens A s.entries s.stage.host s'.stage.host) : s.Follows A s' :=
  ⟨hmachine, hlast, by rw [hinbox]; exact id, fun g hg => ⟨g, hlive ▸ hg, rfl, rfl⟩, hhost⟩

theorem follows_setFiber (A : H → H → Prop) (hf : f ∈ s.live) (hid : g.id = f.id)
    (hentry : g.entry = f.entry) : s.Follows A (s.setFiber g) := by
  refine ⟨rfl, rfl, id, fun x hx => ?_, .refl _⟩
  rcases mem_setFiber hx with rfl | ⟨hx, -⟩
  · exact ⟨f, hf, hid, hentry⟩
  · exact ⟨x, hx, rfl, rfl⟩

theorem follows_wake (A : H → H → Prop) (s : Scheduler H) (k w : Nat) : s.Follows A (s.wake k w) := by
  unfold wake
  split
  · exact .of_live rfl rfl rfl rfl (.refl _)
  · rename_i f hfound
    split
    · have hwoken : s.Follows A (s.setFiber (woken f)) :=
        follows_setFiber A (mem_of_fiber? hfound).1 rfl rfl
      exact hwoken.trans (.of_live rfl rfl rfl rfl (.refl _))
    · exact .of_live rfl rfl rfl rfl (.refl _)

omit [Host H] in
theorem tags_wake (hids : (s.live.map Fiber.id).Nodup) (k w : Nat) : (s.wake k w).tags = s.tags := by
  unfold wake
  split
  · rfl
  · rename_i f hfound
    split
    · unfold tags setFiber
      rw [List.map_map]
      refine List.map_congr_left fun g hg => ?_
      simp only [Function.comp]
      split
      · rename_i hid
        rw [eq_of_id_eq hids hg (mem_of_fiber? hfound).1 hid]
      · rfl
    · rfl

omit [Host H] in
theorem tags_deliver (hids : (s.live.map Fiber.id).Nodup) : s.deliver.tags = s.tags := by
  refine (deliver_induction (P := fun t => (t.live.map Fiber.id).Nodup ∧ t.tags = s.tags)
    ⟨hids, rfl⟩ ?_).2
  rintro t k w ⟨hnodup, hsame⟩
  exact ⟨(called_wake hnodup k w).ids.symm ▸ hnodup, (tags_wake hnodup k w).trans hsame⟩

theorem follows_deliver (A : H → H → Prop) (s : Scheduler H) : s.Follows A s.deliver :=
  deliver_induction (.of_live rfl rfl rfl rfl (.refl _)) fun t k w h => h.trans (follows_wake A t k w)

/-- Something is done to the stage, and whoever was waiting for it is called. -/
theorem follows_stage {stage : Stage H} (hhost : Happens A s.entries s.stage.host stage.host) :
    s.Follows A { s with stage := stage }.deliver := by
  have hstage : s.Follows A { s with stage := stage } := .of_live rfl rfl rfl rfl hhost
  exact hstage.trans (follows_deliver A _)

theorem Follows.finish (h : s.Follows A s') (hentry : g.entry ∈ s.entries) :
    s.Follows A (s'.finish g) :=
  ⟨h.machine, h.lastId, h.inbox, fun x hx => h.fibers x (List.mem_of_mem_filter hx),
    h.host.trans (.ends _ _ hentry)⟩

theorem follows_runFiber (hm : s.machine.Within A) (hf : f ∈ s.live) (h : s.runFiber f = .ok s') :
    s.Follows A s' := by
  obtain ⟨status, g, stage, hrun⟩ := ran_of_runFiber h
  obtain ⟨es, hhistory⟩ := history_of_run hrun
  have hstage : s.Follows A { s with stage := stage } :=
    .of_live rfl rfl rfl rfl (happens_run hm _ hrun)
  have hset : s.Follows A ({ s with stage := stage }.setFiber g) :=
    hstage.trans (follows_setFiber A hf hhistory.same.1 hhistory.same.2)
  have hback := hset.trans (follows_deliver A _)
  rcases runFiber_eq_ok hrun h with ⟨-, rfl⟩ | ⟨-, rfl⟩ | ⟨-, rfl⟩
  · refine hback.finish ?_
    rw [hhistory.same.2]
    exact List.mem_map_of_mem hf
  · exact hback.trans (.of_live rfl rfl rfl rfl (.refl _))
  · exact hback

theorem follows_doErrands (errands : List (Errand (Stage H))) (herrands : ∀ e ∈ errands, e.Quiet A) :
    s.Follows A (doErrands errands s) := by
  induction errands generalizing s with
  | nil => exact .of_live rfl rfl rfl rfl (.refl _)
  | cons e errands ih =>
    cases herrands e List.mem_cons_self with
    | @mk run quiet more =>
      have hposts : s.Follows A { s with inbox := s.inbox ++ (run s.stage).2 } := by
        refine ⟨rfl, rfl, fun hs x hx => ?_, fun g hg => ⟨g, hg, rfl, rfl⟩, .refl _⟩
        rcases List.mem_append.mp hx with hx | hx
        · exact hs x hx
        · exact more s.stage x hx
      have hworks := hposts.trans (follows_stage (.acts (quiet s.stage)))
      exact hworks.trans (ih fun x hx => herrands x (List.mem_cons_of_mem _ hx))

theorem follows_drain (rounds : Nat) (hm : s.machine.Within A) (h : drain rounds s = .ok s') :
    s.Follows A s' := by
  induction rounds generalizing s with
  | zero =>
    unfold drain at h
    split at h
    · cases h
      exact .of_live rfl rfl rfl rfl (.refl _)
    · cases h
  | succ rounds ih =>
    unfold drain at h
    split at h
    · cases h
      exact .of_live rfl rfl rfl rfl (.refl _)
    · rename_i id rest _
      have htake : s.Follows A { s with queue := rest } := .of_live rfl rfl rfl rfl (.refl _)
      dsimp only at h
      split at h
      · exact htake.trans (ih hm h)
      · rename_i f hfound
        split at h
        · split at h
          · cases h
          · rename_i s1 hrun
            have hran := follows_runFiber (s := { s with queue := rest }) hm (mem_of_fiber? hfound).1 hrun
            have hm1 : s1.machine.Within A := by
              rw [hran.machine]
              exact hm
            exact htake.trans (hran.trans (ih hm1 h))
        · exact htake.trans (ih hm h)

theorem follows_tick (hm : s.machine.Within A) (hs : ∀ e ∈ s.inbox, e.Quiet A)
    (h : s.tick = .ok s') : s.Follows A s' := by
  unfold tick at h
  have hopens : s.Follows A { s with inbox := [] } :=
    ⟨rfl, rfl, fun _ e he => absurd he List.not_mem_nil, fun g hg => ⟨g, hg, rfl, rfl⟩, .refl _⟩
  have herrands := hopens.trans (follows_doErrands s.inbox hs)
  have hmerges (t : Scheduler H) : t.Follows A { t with queue := t.queue ++ t.next, next := [] } :=
    .of_live rfl rfl rfl rfl (.refl _)
  have hready := herrands.trans (hmerges _)
  refine hready.trans (follows_drain _ ?_ h)
  rw [hready.machine]
  exact hm

end

end Scheduler

/-! ## Acts -/

/-- The host gets from `h` to `h'` by acts, each of which finds one host and leaves another, within `A`. In
between it changes within `S`. -/
inductive Threads (A S : H → H → Prop) : H → List (H × H) → H → Prop where
  | rest {h h' : H} (between : S h h') : Threads A S h [] h'
  | step {h h' : H} {a : H × H} {acts : List (H × H)} (between : S h a.1) (act : A a.1 a.2)
      (more : Threads A S a.2 acts h') : Threads A S h (a :: acts) h'

section

variable {A S : H → H → Prop} {h h' h'' : H} {acts acts' : List (H × H)}

omit [Host H] in
theorem Threads.after (hS : ∀ {h h' h''}, S h h' → S h' h'' → S h h'') (hfirst : S h h')
    (hthen : Threads A S h' acts h'') : Threads A S h acts h'' := by
  cases hthen with
  | rest between => exact .rest (hS hfirst between)
  | step between act more => exact .step (hS hfirst between) act more

omit [Host H] in
theorem Threads.trans (hS : ∀ {h h' h''}, S h h' → S h' h'' → S h h'') (hfirst : Threads A S h acts h')
    (hthen : Threads A S h' acts' h'') : Threads A S h (acts ++ acts') h'' := by
  induction hfirst with
  | rest between => exact hthen.after hS between
  | step between act _ ih => exact .step between act (ih hthen)

omit [Host H] in
theorem Accounts.threads {es : List (Executed H)} (ha : Accounts (fun _ => A) S h es h') :
    Threads A S h (es.map fun e => (e.before, e.after)) h' := by
  induction ha with
  | rest between => exact .rest between
  | step between touches _ ih => exact .step between touches ih

end

namespace Scheduler

/-- The errands of a tick, each with the host it finds and the one it leaves. -/
def errandActs : List (Errand (Stage H)) → Scheduler H → List (H × H)
  | [], _ => []
  | e :: rest, s =>
    (s.stage.host, (e.run s.stage).1.host) ::
      errandActs rest { s with stage := (e.run s.stage).1, inbox := s.inbox ++ (e.run s.stage).2 }.deliver

/-- The code that a tick runs: its errands, then the instructions of fibers with the host code they call. -/
def acts (s : Scheduler H) : List (H × H) :=
  errandActs s.inbox { s with inbox := [] } ++ s.executed.map fun e => (e.before, e.after)

section

variable {A S : H → H → Prop} {s s' : Scheduler H}

omit [Host H] in
theorem threads_doErrands (hS : ∀ h, S h h) (errands : List (Errand (Stage H)))
    (herrands : ∀ e ∈ errands, e.Quiet A) (s : Scheduler H) :
    Threads A S s.stage.host (errandActs errands s) (doErrands errands s).stage.host := by
  induction errands generalizing s with
  | nil => exact .rest (hS _)
  | cons e errands ih =>
    cases herrands e List.mem_cons_self with
    | @mk run quiet more =>
      have hrest := ih (fun x hx => herrands x (List.mem_cons_of_mem _ hx))
        { s with stage := (run s.stage).1, inbox := s.inbox ++ (run s.stage).2 }.deliver
      rw [(deliver_same _).2.2] at hrest
      exact .step (hS _) (quiet s.stage) hrest

theorem threads_tick (hm : s.machine.Rests (fun _ => A) S) (hs : ∀ e ∈ s.inbox, e.Quiet A)
    (h : s.tick = .ok s') : Threads A S s.stage.host s.acts s'.stage.host := by
  have herrands := threads_doErrands hm.refl s.inbox hs { s with inbox := [] }
  have hmachine := (follows_doErrands (s := { s with inbox := [] }) s.inbox hs).machine
  unfold tick at h
  unfold acts executed
  generalize doErrands s.inbox { s with inbox := [] } = t at h herrands hmachine ⊢
  have hdrain := executes_drain _ (s := { t with queue := t.queue ++ t.next, next := [] })
    (by rw [hmachine]; exact hm) h
  exact herrands.trans hm.trans hdrain.host.threads

end

end Scheduler

end TileMind
