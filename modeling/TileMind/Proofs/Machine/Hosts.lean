import TileMind.Proofs.Machine.Dealings
import TileMind.Proofs.Machine.Executed
import TileMind.Proofs.Machine.Safety

/-!
# TileMind.Proofs.Machine.Hosts

The host of a checked program. It changes when an instruction stores a variable, by host code, and when
a fiber ends. What these three keep holds of the host as long as the program runs.

* `host_of_step`: an instruction stores a variable or leaves the host to host code.
* `Machine.Maintains`: what stores, host code and ends of fibers keep.
* `Scheduler.Hosts`: the invariant, with one lemma for each thing that happens to a scheduler.
* `Operation.hosts`: every operation keeps it.
-/

namespace TileMind

variable {H : Type}

/-! ## One instruction -/

/-- Whatever the host code that a machine calls does to the host is within `R`. -/
structure Machine.Calls (m : Machine H) (R : H → H → Prop) : Prop where
  refl : ∀ h, R h h
  trans : ∀ {h h' h''}, R h h' → R h' h'' → R h h''
  sync : ∀ {fn f call}, m.services.functions.get? fn = some f → f.sync = some call →
    ∀ c args (s : Stage H), R s.host (call c args s).2.host
  async : ∀ {fn f call}, m.services.functions.get? fn = some f → f.async = some call →
    ∀ c args handle (s : Stage H), R s.host (call c args handle s).2.host
  get : ∀ {type get}, (m.hooks type).get = some get →
    ∀ {obj field} {s : Stage H} {r}, get obj field s = .ok r → R s.host r.2.host
  set : ∀ {type set}, (m.hooks type).set = some set →
    ∀ {obj field v} {s : Stage H} {r}, set obj field v s = .ok r → R s.host r.2.host

section

variable [Host H] {m : Machine H} {R : H → H → Prop}

/-- An instruction that stores nothing leaves the host to host code. -/
theorem Machine.Calls.exec (hR : m.Calls R) {op : Op} (hop : op ≠ .storeVar) (i : Instr) {fr : Frame}
    {site : Site} (hfr : site.func = fr.func) (f : Fiber) (s : Stage H) :
    (TileMind.exec m op i fr site f s).Touched R s.host := by
  -- It does the same in a host that forgets what is stored, where stores are within `R` as well.
  let forgetful : Host H := { (inferInstance : Host H) with store := fun h _ _ _ => h }
  have htouches : @Machine.Touches H forgetful m site.func R :=
    @Machine.Touches.mk H forgetful m site.func R hR.refl hR.trans (fun h _ _ => hR.refl h)
      (fun hf hcall c args s _ => hR.sync hf hcall c args s)
      (fun hf hcall c args handle s _ => hR.async hf hcall c args handle s) hR.get hR.set
  have htouched := @touched_exec H R site forgetful m fr hfr htouches op i f s
  cases op with
  | storeVar => exact absurd rfl hop
  | _ => exact htouched

theorem host_of_step (hR : m.Calls R) (fr : Frame) (i : Instr) (f : Fiber) (s : Stage H) :
    (i.op? = some .storeVar ∧ ∃ v g,
      step m fr i f s = .next g { s with host := Host.store s.host fr.func i.a.toInt v }) ∨
    (step m fr i f s).Touched R s.host := by
  unfold step
  dsimp only
  split
  · exact .inr (touched_raiseNew (hR.refl _) _)
  · split
    · rename_i op hop
      by_cases hstore : op = .storeVar
      · subst hstore
        dsimp only [exec, withTop]
        split
        · exact .inr trivial
        · exact .inl ⟨hop, _, _, rfl⟩
      · exact .inr (hR.exec hstore i rfl _ s)
    · exact .inr (touched_raiseNew (hR.refl _) _)

/-! ## Runs -/

/-- What is kept (`G`) by host code, by what the program stores, and by telling of the end of a fiber. -/
structure Machine.Maintains (m : Machine H) (R : H → H → Prop) (G : H → Prop) : Prop where
  calls : m.Calls R
  works : ∀ {h h'}, R h h' → G h → G h'
  store : ∀ {func k : Nat} {fn i}, m.program.functions[func]? = some fn → fn.code[k]? = some i →
    i.op? = some .storeVar → ∀ h v, G h → G (Host.store h func i.a.toInt v)
  ended : ∀ h heap f, G h → G (Host.ended h heap f)

variable {G : H → Prop}

theorem Machine.Maintains.step (hm : m.Maintains R G) {fr : Frame} {i : Instr} (f : Fiber)
    {s : Stage H} (hi : Machine.instrAt m.program fr = .ok i) (hs : G s.host) :
    (TileMind.step m fr i f s).Touched (fun _ h => G h) s.host := by
  rcases host_of_step hm.calls fr i f s with ⟨hop, v, g, hstep⟩ | htouched
  · obtain ⟨func, k, fn, hfunc, -, hfn, hk⟩ := instrAt_eq_ok hi
    rw [hstep, hfunc]
    exact hm.store hfn hk hop s.host v hs
  · generalize TileMind.step m fr i f s = o at htouched
    cases o with
    | next g t => exact hm.works htouched hs
    | stop status g t => exact hm.works htouched hs
    | crash c => trivial

theorem Machine.Maintains.carries (hm : m.Maintains R G) :
    m.Carries (fun _ s => G s.host) fun _ _ s => G s.host where
  ret hs _ _ := hs
  next {f} _ _ _ _ _ _ hs _ hi hstep := by
    have hthere := hm.step f hi hs
    rwa [hstep] at hthere
  stop {f} _ _ _ _ _ _ _ hs _ hi hstep := by
    have hthere := hm.step f hi hs
    rwa [hstep] at hthere
  done hs _ := hs
  spent hs _ := hs

end

/-! ## Schedulers -/

/-- Host code keeps to the operations of the handle table, and to `R` with the host. -/
def Stage.Works (R : H → H → Prop) (s t : Stage H) : Prop := s.Serves t ∧ R s.host t.host

namespace Scheduler

variable [Host H] {R : H → H → Prop} {G : H → Prop} {s s' : Scheduler H}

/-- A scheduler for a checked program whose host is as `G` says. -/
structure Hosts (R : H → H → Prop) (G : H → Prop) (s : Scheduler H) : Prop where
  guarded : s.Guarded
  maintains : s.machine.Maintains R G
  inbox : ∀ e ∈ s.inbox, e.Within (Stage.Works R)
  host : G s.stage.host

omit [Host H] in
theorem deliver_eq_self (h : s.stage.handles.outbox = []) : s.deliver = s := by
  have hsame : { s.stage.handles with outbox := [] } = s.stage.handles := by rw [← h]
  unfold deliver
  rw [h, hsame]
  rfl

omit [Host H] in
theorem Steady.setStage (hs : s.Steady) {stage : Stage H} (h : stage.handles = s.stage.handles) :
    { s with stage := stage }.Steady := by
  have hnobody : { s with stage := stage }.stage.handles.outbox = [] := by rw [h, hs.outbox]
  have hsame : HandleTable.Evolves (fun _ => False) s.stage.handles [] stage.handles := h ▸ .refl _
  rw [← deliver_eq_self hnobody]
  exact hs.work hsame

theorem Hosts.work (hs : s.Hosts R G) {stage : Stage H} (hserves : s.stage.Serves stage)
    (hhost : G stage.host) : { s with stage := stage }.deliver.Hosts R G := by
  obtain ⟨as, has⟩ := hserves
  obtain ⟨hmachine, hinbox, hsame⟩ := deliver_same { s with stage := stage }
  refine ⟨(Step.work has).guarded hs.guarded, ?_, ?_, ?_⟩
  · rw [hmachine]
    exact hs.maintains
  · rw [hinbox]
    exact hs.inbox
  · rw [hsame]
    exact hhost

theorem Hosts.setHost (hs : s.Hosts R G) (heap : Heap) {h : H} (hhost : G h) :
    Scheduler.Hosts R G { s with stage := { s.stage with heap := heap, host := h } } := by
  have hserves : s.stage.Serves { s.stage with heap := heap, host := h } := ⟨[], .refl _⟩
  have hnobody : ({ s with stage := { s.stage with heap := heap, host := h } } : Scheduler H).deliver =
      { s with stage := { s.stage with heap := heap, host := h } } :=
    deliver_eq_self hs.guarded.steady.outbox
  have hworks := hs.work hserves hhost
  rwa [hnobody] at hworks

theorem Hosts.spawn (hs : s.Hosts R G) {func : Int} {id : Nat} (h : s.spawn func = .ok (id, s')) :
    s'.Hosts R G := by
  have hguarded := (Step.spawn h).guarded hs.guarded
  obtain ⟨-, -, rfl⟩ := spawn_eq_ok h
  exact ⟨hguarded, hs.maintains, hs.inbox, hs.host⟩

theorem Hosts.cancelFiber (hs : s.Hosts R G) {f : Fiber} (hf : f ∈ s.live) :
    (s.cancelFiber f).Hosts R G :=
  ⟨(Step.cancel hf).guarded hs.guarded, hs.maintains, hs.inbox, hs.maintains.ended _ _ _ hs.host⟩

theorem Hosts.cancelAll (hs : s.Hosts R G) : s.cancelAll.Hosts R G := by
  have hfibers (fibers : List Fiber) {s : Scheduler H} (hm : s.machine.Maintains R G)
      (hinbox : ∀ e ∈ s.inbox, e.Within (Stage.Works R)) (hhost : G s.stage.host) :
      (fibers.foldl Scheduler.cancelFiber s).machine.Maintains R G ∧
        (∀ e ∈ (fibers.foldl Scheduler.cancelFiber s).inbox, e.Within (Stage.Works R)) ∧
        G (fibers.foldl Scheduler.cancelFiber s).stage.host := by
    induction fibers generalizing s with
    | nil => exact ⟨hm, hinbox, hhost⟩
    | cons f fibers ih => exact ih hm hinbox (hm.ended _ _ _ hhost)
  obtain ⟨hmaintains, hinbox, hhost⟩ := hfibers s.live hs.maintains hs.inbox hs.host
  exact ⟨Step.cancelAll.guarded hs.guarded, hmaintains, hinbox, hhost⟩

theorem Hosts.runFiber (hs : s.Hosts R G) {f : Fiber} {rest : List Nat}
    (hqueue : s.queue = f.id :: rest) (hf : f ∈ s.live) (hstate : f.state = .runnable)
    (h : { s with queue := rest }.runFiber f = .ok s') : s'.Hosts R G := by
  obtain ⟨status, g, stage, hran⟩ := ran_of_runFiber h
  obtain ⟨as, has⟩ := hs.guarded.steady.sound.uses hstate hran
  have hguarded := (Step.run hqueue hf hstate hran has h).guarded hs.guarded
  have hhost := hs.maintains.carries.run hstate hs.host hran
  obtain ⟨hmachine, hinbox, hsame⟩ :=
    deliver_same ({ s with queue := rest, stage := stage }.setFiber g)
  have hdelivered : G ({ s with queue := rest, stage := stage }.setFiber g).deliver.stage.host := by
    rw [hsame]
    exact hhost
  have hmaintains : ({ s with queue := rest, stage := stage }.setFiber g).deliver.machine.Maintains R G := by
    rw [hmachine]
    exact hs.maintains
  have hmail : ∀ e ∈ ({ s with queue := rest, stage := stage }.setFiber g).deliver.inbox,
      e.Within (Stage.Works R) := by
    rw [hinbox]
    exact hs.inbox
  rcases runFiber_eq_ok hran h with ⟨-, rfl⟩ | ⟨-, rfl⟩ | ⟨-, rfl⟩
  · exact ⟨hguarded, hmaintains, hmail, hs.maintains.ended _ _ _ hdelivered⟩
  · exact ⟨hguarded, hmaintains, hmail, hdelivered⟩
  · exact ⟨hguarded, hmaintains, hmail, hdelivered⟩

theorem upheld_hosts : Upheld (Stage.Works R) (Hosts R G) where
  inbox hs := hs.inbox
  mail hs hwithin := by
    refine ⟨(Step.mail fun e he => ?_).guarded hs.guarded, hs.maintains, hwithin, hs.host⟩
    exact (hwithin e he).polite And.left
  work hs h := hs.work h.1 (hs.maintains.works h.2 hs.host)
  merge hs := ⟨Step.merge.guarded hs.guarded, hs.maintains, hs.inbox, hs.host⟩
  skip hs hqueue hidle :=
    ⟨(Step.skip hqueue hidle).guarded hs.guarded, hs.maintains, hs.inbox, hs.host⟩
  run hs hqueue hf hstate h := hs.runFiber hqueue hf hstate h

theorem Hosts.tick (hs : s.Hosts R G) (h : s.tick = .ok s') : s'.Hosts R G :=
  upheld_hosts.tick hs h

end Scheduler

/-- Host code of the operation keeps to the handle table, and to `R` with the host. -/
def Operation.Works (R : H → H → Prop) : Operation H → Prop
  | .post e => e.Within (Stage.Works R)
  | .act run => ∀ s : Stage H, s.Works R (run s)
  | _ => True

theorem Operation.hosts [Host H] {R : H → H → Prop} {G : H → Prop} {s s' : Scheduler H}
    {op : Operation H} (hop : op.Works R) (hs : s.Hosts R G) (h : op.perform s = .ok s') :
    s'.Hosts R G := by
  have hsame {stage : Stage H} (hserves : s.stage.Serves stage) (hhost : stage.host = s.stage.host) :
      { s with stage := stage }.deliver.Hosts R G := hs.work hserves (hhost ▸ hs.host)
  cases op with
  | spawn func =>
    obtain ⟨id, hspawn⟩ | rfl := spawn_of_perform h
    · exact hs.spawn hspawn
    · exact hs
  | tick => exact hs.tick h
  | cancel fiber =>
    obtain ⟨f, hf, rfl⟩ | rfl := cancel_of_perform h
    · exact hs.cancelFiber (Scheduler.mem_of_fiber? hf).1
    · exact hs
  | cancelAll =>
    cases h
    exact hs.cancelAll
  | post e =>
    cases h
    refine Scheduler.upheld_hosts.mail hs fun x hx => ?_
    rcases List.mem_append.mp hx with hx | hx
    · exact hs.inbox x hx
    · exact List.mem_singleton.mp hx ▸ hop
  | resolve handle v =>
    cases h
    exact hsame (Scheduler.serves_resolve _ _ _) (Stage.resolve_host _ _ _)
  | reject handle fault =>
    cases h
    exact hsame (Scheduler.serves_reject _ _ _) (Stage.reject_host _ _ _)
  | cancelHandle handle =>
    obtain ⟨stage, hcancel, rfl⟩ | rfl := cancelHandle_of_perform h
    · exact hsame (Scheduler.serves_cancel hcancel) (Stage.cancel_host hcancel)
    · exact hs
  | act run =>
    cases h
    exact Scheduler.upheld_hosts.work hs (hop s.stage)

end TileMind
