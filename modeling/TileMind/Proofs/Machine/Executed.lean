import TileMind.Proofs.Machine.Operations

/-!
# TileMind.Proofs.Machine.Executed

What running fibers do to the host, instruction by instruction. Whatever an instruction does to the host
it does for the function it belongs to; between instructions the host is only told of fibers that
have ended and changed by errands.

* `Machine.Touches`: what is known of the host's side of a function's instructions.
* `touched_step`: an instruction keeps to it.
* `Scheduler.executed`: the instructions that a tick executes.
* `Accounts`: the changes of the host are those that some instructions make.
* `Scheduler.executes_tick`: a tick changes the host by the instructions it executes.
-/

namespace TileMind

variable {H : Type}

/-! ## Instructions -/

/-- Whatever the instructions of a function, and host code called by them, do to the host is within `R`. -/
structure Machine.Touches [Host H] (m : Machine H) (func : Int) (R : H → H → Prop) : Prop where
  refl : ∀ h, R h h
  trans : ∀ {h h' h''}, R h h' → R h' h'' → R h h''
  store : ∀ h var v, R h (Host.store h func var v)
  sync : ∀ {fn f call}, m.services.functions.get? fn = some f → f.sync = some call →
    ∀ c args (s : Stage H), c.func = func → R s.host (call c args s).2.host
  async : ∀ {fn f call}, m.services.functions.get? fn = some f → f.async = some call →
    ∀ c args handle (s : Stage H), c.func = func → R s.host (call c args handle s).2.host
  get : ∀ {type get}, (m.hooks type).get = some get →
    ∀ {obj field} {s : Stage H} {r}, get obj field s = .ok r → R s.host r.2.host
  set : ∀ {type set}, (m.hooks type).set = some set →
    ∀ {obj field v} {s : Stage H} {r}, set obj field v s = .ok r → R s.host r.2.host

/-- The host that an instruction leaves behind is related to `h`. -/
def Outcome.Touched (R : H → H → Prop) (h : H) : Outcome H → Prop
  | .next _ s | .stop _ _ s => R h s.host
  | .crash _ => True

namespace Stage

@[simp] theorem newFault_host (s : Stage H) (f : Fault) : (s.newFault f).2.host = s.host := rfl

@[simp] theorem resolve_host (s : Stage H) (id : Int) (v : Value) : (s.resolve id v).host = s.host := by
  unfold resolve
  split <;> rfl

@[simp] theorem reject_host (s : Stage H) (id : Int) (fault : Option Nat) :
    (s.reject id fault).host = s.host := by
  unfold reject
  split <;> rfl

theorem cancel_host {s t : Stage H} {id : Int} (h : s.cancel id = .ok t) : t.host = s.host := by
  unfold cancel at h
  dsimp only at h
  cases ht : (s.newFault (cancelledHandle id)).2.handles.cancel id (s.newFault (cancelledHandle id)).1 with
  | error e =>
    rw [ht] at h
    cases h
  | ok handles =>
    rw [ht] at h
    cases h
    rfl

end Stage

section

variable {R : H → H → Prop} {h : H} {f : Fiber} {s : Stage H} {site : Site}

theorem touched_raise (hs : R h s.host) (fault : Nat) : (raise f s fault site).Touched R h := by
  unfold raise
  dsimp only
  split <;> exact hs

theorem touched_raiseNew (hs : R h s.host) (fault : Fault) : (raiseNew f s fault site).Touched R h := by
  have hfault : R h (s.newFault fault).2.host := hs
  exact touched_raise hfault _

theorem touched_withTop {k : Value → Fiber → Outcome H} (hk : ∀ v g, (k v g).Touched R h) :
    (withTop f k).Touched R h := by
  unfold withTop
  split
  · trivial
  · exact hk _ _

theorem touched_withResult {α : Type} {r : Except Crash α} {k : α → Outcome H}
    (hk : ∀ a, r = .ok a → (k a).Touched R h) : (withResult r k).Touched R h := by
  cases r with
  | ok a => exact hk a rfl
  | error c => trivial

variable [Host H] {m : Machine H}

theorem Machine.Touches.callSync {func : Int} (hR : m.Touches func R) {f : Fiber} {fn site : Int}
    {args : Value} {s : Stage H} {r : Except Nat Value × Stage H}
    (hr : m.callSync f fn site func args s = .ok r) : R s.host r.2.host := by
  cases m.callSync_eq_ok hr with
  | missing => exact hR.refl _
  | answered hh hcall called | failed hh hcall called =>
    have hhost := hR.sync hh hcall ⟨m.program, f.id, func, site, f.lastFault⟩ args s rfl
    rw [called] at hhost
    exact hhost

theorem Machine.Touches.callAsync {func : Int} (hR : m.Touches func R) {f : Fiber} {fn site : Int}
    {args : Value} {s : Stage H} {r : Except Nat Nat × Fiber × Stage H}
    (hr : m.callAsync f fn site func args s = .ok r) : R s.host r.2.2.host := by
  cases m.callAsync_eq_ok hr with
  | full => exact hR.refl _
  | @started h call id table t hh hcall created called =>
    have hhost := hR.async hh hcall ⟨m.program, f.id, func, site, f.lastFault⟩ args id
      { s with handles := table } rfl
    rwa [called] at hhost
  | @refused h call id table start t fault faults hh hcall created called =>
    have hhost := hR.async hh hcall ⟨m.program, f.id, func, site, f.lastFault⟩ args id
      { s with handles := table } rfl
    rw [called] at hhost
    rwa [Stage.reject_host]
  | failed answer => exact hR.callSync answer
  | fullAfter answer => exact hR.callSync answer
  | answered answer created =>
    rw [Stage.resolve_host]
    exact hR.callSync answer

theorem Machine.Touches.getField {func : Int} (hR : m.Touches func R) {obj : Value} {field : String}
    {s : Stage H} {r : Except Fault Value × Stage H} (hr : m.getField obj field s = .ok r) :
    R s.host r.2.host := by
  obtain hsame | ⟨type, get, v, t, hget, hread, rfl⟩ := m.getField_eq_ok hr
  · exact hsame ▸ hR.refl _
  · exact hR.get hget hread

theorem Machine.Touches.setField {func : Int} (hR : m.Touches func R) {obj : Value} {field : String}
    {v : Value} {s : Stage H} {r : Except Fault Unit × Stage H} (hr : m.setField obj field v s = .ok r) :
    R s.host r.2.host := by
  obtain ⟨heap, hheap⟩ | ⟨type, set, b, t, heap, hset, hwrite, hheap⟩ := m.setField_eq_ok hr
  · exact hheap ▸ hR.refl _
  · exact hheap ▸ hR.set hset hwrite

theorem touched_execHostCall (hR : m.Touches site.func R) (i : Instr) (args : Value) (f : Fiber)
    (s : Stage H) : (execHostCall m i site args f s).Touched R s.host := by
  refine touched_withResult fun r hr => ?_
  have hcall := hR.callSync hr
  obtain ⟨ref | v, t⟩ := r
  · exact touched_raise hcall _
  · exact hcall

theorem touched_execHostCallAsync (hR : m.Touches site.func R) (i : Instr) (args : Value) (f : Fiber)
    (s : Stage H) : (execHostCallAsync m i site args f s).Touched R s.host := by
  refine touched_withResult fun r hr => ?_
  have hcall := hR.callAsync hr
  obtain ⟨ref | id, g, t⟩ := r
  · exact touched_raise hcall _
  · exact hcall

omit [Host H] in
theorem touched_withOperands {count : Int} {k : Value → Fiber → Stage H → Outcome H}
    (hk : ∀ args g t, t.host = s.host → (k args g t).Touched R s.host) :
    (withOperands count f s k).Touched R s.host := by
  unfold withOperands
  split
  · trivial
  · exact hk _ _ _ rfl

theorem touched_execAwait (hR : m.Touches site.func R) (f : Fiber) (s : Stage H) :
    (execAwait site f s).Touched R s.host := by
  refine touched_withTop fun v g => ?_
  split
  · split
    · exact touched_raiseNew (hR.refl _) _
    · split
      · split
        · exact hR.refl _
        · exact touched_raise (hR.refl _) _
        · trivial
      · exact hR.refl _
  · exact hR.refl _

theorem touched_execMapSet (hR : m.Touches site.func R) (fr : Frame) (key v : Value) (f : Fiber)
    (s : Stage H) : (execMapSet fr site key v f s).Touched R s.host := by
  unfold execMapSet
  split
  · exact touched_raiseNew (hR.refl _) _
  · dsimp only
    split
    · exact hR.refl _
    · exact touched_withResult fun fault _ => touched_raiseNew (hR.refl _) _

/-- What an instruction does to the host it does for the function it belongs to. -/
theorem touched_exec {fr : Frame} (hfr : site.func = fr.func) (hR : m.Touches site.func R) (op : Op)
    (i : Instr) (f : Fiber) (s : Stage H) : (exec m op i fr site f s).Touched R s.host := by
  have hsame : R s.host s.host := hR.refl _
  unfold exec
  cases op with
  | nop | whenStart | doStart | jump | ret | yield | «try» | endTry | loadVar => exact hsame
  | pop | dup | doEnd | jumpIfFalse | whenEnd | jumpIfTrue =>
    exact touched_withTop fun _ _ => hsame
  | pushConst =>
    dsimp only
    split
    · trivial
    · split
      · exact hsame
      · split
        · exact hsame
        · trivial
  | mapNew =>
    dsimp only
    split
    · trivial
    · exact hsame
  | storeVar =>
    refine touched_withTop fun v g => ?_
    have hstore := hR.store s.host i.a.toInt v
    rwa [hfr] at hstore
  | call =>
    dsimp only
    split
    · exact touched_raiseNew hsame _
    · exact hsame
  | hostCall =>
    refine touched_withOperands fun args g t ht => ?_
    rw [← ht]
    exact touched_execHostCall hR i args g t
  | hostCallArgs => exact touched_withTop fun args g => touched_execHostCall hR i args g s
  | hostCallAsync =>
    refine touched_withOperands fun args g t ht => ?_
    rw [← ht]
    exact touched_execHostCallAsync hR i args g t
  | hostCallArgsAsync => exact touched_withTop fun args g => touched_execHostCallAsync hR i args g s
  | await => exact touched_execAwait hR f s
  | throw =>
    refine touched_withTop fun v g => touched_withResult fun r hr => ?_
    obtain ⟨heap, hheap⟩ := stage_thrown hr
    exact touched_raise (hheap ▸ hsame) _
  | mapSet =>
    exact touched_withTop fun v g => touched_withTop fun key g' => touched_execMapSet hR fr key v g' s
  | getField =>
    refine touched_withTop fun name g => touched_withTop fun obj g' => ?_
    split
    · exact touched_withResult fun fault _ => touched_raiseNew hsame _
    · refine touched_withResult fun r hr => ?_
      have hget := hR.getField hr
      obtain ⟨fault | answer, t⟩ := r
      · exact touched_raiseNew hget _
      · exact hget
  | setField =>
    refine touched_withTop fun v g => touched_withTop fun name g' => touched_withTop fun obj g'' => ?_
    split
    · exact touched_withResult fun fault _ => touched_raiseNew hsame _
    · refine touched_withResult fun r hr => ?_
      have hset := hR.setField hr
      obtain ⟨fault | answer, t⟩ := r
      · exact touched_raiseNew hset _
      · exact hset

theorem touched_step {fr : Frame} (hR : m.Touches fr.func R) (i : Instr) (f : Fiber) (s : Stage H) :
    (step m fr i f s).Touched R s.host := by
  unfold step
  dsimp only
  split
  · exact touched_raiseNew (hR.refl _) _
  · split
    · exact touched_exec rfl hR _ i _ s
    · exact touched_raiseNew (hR.refl _) _

end

/-! ## Runs -/

/-- An executed instruction: the function it belongs to, and the host before and after it. -/
structure Executed (H : Type) where
  func : Int
  before : H
  after : H

namespace Machine

variable [Host H] (m : Machine H)

/-- The instructions that a run for at most `budget` instructions executes. -/
def executedFor : (budget : Nat) → Fiber → Stage H → List (Executed H)
  | 0, _, _ => []
  | budget + 1, f, s =>
    match settle m.program f.frames.length f with
    | .error _ => []
    | .ok f =>
      match f.frames with
      | [] => []
      | fr :: _ =>
        match instrAt m.program fr with
        | .error _ => []
        | .ok i =>
          match step m fr i f s with
          | .next g t => ⟨fr.func, s.host, t.host⟩ :: executedFor budget g t
          | .stop _ _ t => [⟨fr.func, s.host, t.host⟩]
          | .crash _ => []

def executed (budget : Int) (f : Fiber) (s : Stage H) : List (Executed H) :=
  if f.state.isTerminal then []
  else
    let budget := if budget ≤ 0 then m.limits.budget else budget
    m.executedFor budget.toNat { f with state := .runnable } s

end Machine

namespace Scheduler

variable [Host H]

/-- The instructions executed while the queue is run. -/
def executedIn : (rounds : Nat) → Scheduler H → List (Executed H)
  | 0, _ => []
  | rounds + 1, s =>
    match s.queue with
    | [] => []
    | id :: rest =>
      let s := { s with queue := rest }
      match s.fiber? id with
      | none => executedIn rounds s
      | some f =>
        if f.state = .runnable then
          s.machine.executed s.machine.limits.budget f s.stage ++
            match s.runFiber f with
            | .error _ => []
            | .ok s => executedIn rounds s
        else executedIn rounds s

def executed (s : Scheduler H) : List (Executed H) :=
  let s := doErrands s.inbox { s with inbox := [] }
  executedIn (maxRounds + (s.queue ++ s.next).length) { s with queue := s.queue ++ s.next, next := [] }

end Scheduler

/-- The host gets from `h` to `h'` by executing instructions, each within `R` of its function. In between
it changes within `S`. -/
inductive Accounts (R : Int → H → H → Prop) (S : H → H → Prop) : H → List (Executed H) → H → Prop where
  | rest {h h' : H} (between : S h h') : Accounts R S h [] h'
  | step {h h' : H} {e : Executed H} {es : List (Executed H)} (between : S h e.before)
      (touches : R e.func e.before e.after) (more : Accounts R S e.after es h') :
      Accounts R S h (e :: es) h'

section

variable {R : Int → H → H → Prop} {S : H → H → Prop} {h h' h'' : H} {es es' : List (Executed H)}

theorem Accounts.after (hS : ∀ {h h' h''}, S h h' → S h' h'' → S h h'') (hfirst : S h h')
    (hthen : Accounts R S h' es h'') : Accounts R S h es h'' := by
  cases hthen with
  | rest between => exact .rest (hS hfirst between)
  | step between touches more => exact .step (hS hfirst between) touches more

theorem Accounts.trans (hS : ∀ {h h' h''}, S h h' → S h' h'' → S h h'')
    (hfirst : Accounts R S h es h') (hthen : Accounts R S h' es' h'') :
    Accounts R S h (es ++ es') h'' := by
  induction hfirst with
  | rest between => exact hthen.after hS between
  | step between touches _ ih => exact .step between touches (ih hthen)

variable [Host H] {m : Machine H}

theorem accounts_runFor (hR : ∀ func, m.Touches func (R func)) (hrefl : ∀ h, S h h) (budget : Nat)
    {f g : Fiber} {s t : Stage H} {status : RunStatus} (h : m.runFor budget f s = .ok (status, g, t)) :
    Accounts R S s.host (m.executedFor budget f s) t.host := by
  induction budget generalizing f s with
  | zero =>
    rw [Machine.executedFor]
    unfold Machine.runFor at h
    split at h
    · cases h
    · split at h <;> cases h <;> exact .rest (hrefl _)
  | succ budget ih =>
    rw [Machine.executedFor]
    unfold Machine.runFor at h
    cases hsettle : Machine.settle m.program f.frames.length f with
    | error c =>
      rw [hsettle] at h
      cases h
    | ok f' =>
      simp only [hsettle] at h ⊢
      cases hframes : f'.frames with
      | nil =>
        simp only [hframes] at h ⊢
        cases h
        exact .rest (hrefl _)
      | cons fr rest =>
        simp only [hframes] at h ⊢
        cases hi : Machine.instrAt m.program fr with
        | error c =>
          rw [hi] at h
          cases h
        | ok i =>
          have htouched := touched_step (hR fr.func) i f' s
          simp only [hi] at h ⊢
          cases hstep : step m fr i f' s with
          | next f₁ s₁ =>
            simp only [hstep] at h htouched ⊢
            exact .step (hrefl _) htouched (ih h)
          | stop status f₁ s₁ =>
            simp only [hstep] at h htouched ⊢
            cases h
            exact .step (hrefl _) htouched (.rest (hrefl _))
          | crash c =>
            rw [hstep] at h
            cases h

theorem accounts_run (hR : ∀ func, m.Touches func (R func)) (hrefl : ∀ h, S h h) {budget : Int}
    {f g : Fiber} {s t : Stage H} {status : RunStatus} (h : m.run budget f s = .ok (status, g, t)) :
    Accounts R S s.host (m.executed budget f s) t.host := by
  unfold Machine.run at h
  unfold Machine.executed
  split at h
  · rename_i hterminal
    cases h
    rw [if_pos hterminal]
    exact .rest (hrefl _)
  · rename_i hterminal
    rw [if_neg hterminal]
    exact accounts_runFor hR hrefl _ h

end

/-! ## Schedulers -/

/-- An errand that changes the host within `S`, as does whatever it posts. -/
inductive Errand.Quiet (S : H → H → Prop) : Errand (Stage H) → Prop where
  | mk {run : Stage H → Stage H × List (Errand (Stage H))} (quiet : ∀ s : Stage H, S s.host (run s).1.host)
      (more : ∀ s, ∀ e ∈ (run s).2, e.Quiet S) : Errand.Quiet S (.mk run)

/-- What happens between instructions, on machines like `m`, is within `S`. -/
structure Machine.Rests [Host H] (m : Machine H) (R : Int → H → H → Prop) (S : H → H → Prop) : Prop where
  refl : ∀ h, S h h
  trans : ∀ {h h' h''}, S h h' → S h' h'' → S h h''
  ended : ∀ h heap f, S h (Host.ended h heap f)
  touches : ∀ func, m.Touches func (R func)

namespace Scheduler

/-- From `s` to `s'` the instructions `es` are executed. -/
structure Executes (R : Int → H → H → Prop) (S : H → H → Prop) (es : List (Executed H))
    (s s' : Scheduler H) : Prop where
  machine : s'.machine = s.machine
  inbox : (∀ e ∈ s.inbox, e.Quiet S) → ∀ e ∈ s'.inbox, e.Quiet S
  host : Accounts R S s.stage.host es s'.stage.host

section

variable {R : Int → H → H → Prop} {S : H → H → Prop} {s s' s'' : Scheduler H}
  {es es' : List (Executed H)}

theorem deliver_same (s : Scheduler H) :
    s.deliver.machine = s.machine ∧ s.deliver.inbox = s.inbox ∧ s.deliver.stage.host = s.stage.host := by
  refine deliver_induction (P := fun t => t.machine = s.machine ∧ t.inbox = s.inbox ∧
    t.stage.host = s.stage.host) ⟨rfl, rfl, rfl⟩ ?_
  intro t k w h
  unfold wake
  split
  · exact h
  · split <;> exact h

variable [Host H] {m : Machine H}

theorem Executes.trans (hm : m.Rests R S) (h : s.Executes R S es s') (h' : s'.Executes R S es' s'') :
    s.Executes R S (es ++ es') s'' :=
  ⟨h'.machine.trans h.machine, fun hs => h'.inbox (h.inbox hs), h.host.trans hm.trans h'.host⟩

omit [Host H] in
theorem executes_nothing (hmachine : s'.machine = s.machine) (hinbox : s'.inbox = s.inbox)
    (hhost : S s.stage.host s'.stage.host) : s.Executes R S [] s' :=
  ⟨hmachine, fun hs => hinbox ▸ hs, .rest hhost⟩

omit [Host H] in
theorem executes_stage {stage : Stage H} (hhost : S s.stage.host stage.host) :
    s.Executes R S [] { s with stage := stage }.deliver := by
  obtain ⟨hmachine, hinbox, hsame⟩ := deliver_same { s with stage := stage }
  exact executes_nothing hmachine hinbox (by rw [hsame]; exact hhost)

theorem executes_finish (hm : m.Rests R S) (s : Scheduler H) (f : Fiber) :
    s.Executes R S [] (s.finish f) :=
  executes_nothing rfl rfl (hm.ended _ _ _)

theorem executes_cancelFiber (hm : m.Rests R S) (s : Scheduler H) (f : Fiber) :
    s.Executes R S [] (s.cancelFiber f) :=
  executes_nothing rfl rfl (hm.ended _ _ _)

theorem executes_cancelAll (hm : m.Rests R S) (s : Scheduler H) : s.Executes R S [] s.cancelAll := by
  have hfibers (fibers : List Fiber) (s : Scheduler H) :
      s.Executes R S [] (fibers.foldl cancelFiber s) := by
    induction fibers generalizing s with
    | nil => exact executes_nothing rfl rfl (hm.refl _)
    | cons f fibers ih => exact (executes_cancelFiber hm s f).trans hm (ih _)
  exact (hfibers s.live s).trans hm (executes_nothing rfl rfl (hm.refl _))

theorem executes_spawn (hm : m.Rests R S) {func : Int} {id : Nat} (h : s.spawn func = .ok (id, s')) :
    s.Executes R S [] s' := by
  unfold spawn at h
  split at h
  · cases h
  · split at h
    · cases h
    · cases h
      exact executes_nothing rfl rfl (hm.refl _)

theorem executes_runFiber (hm : s.machine.Rests R S) {f : Fiber} (h : s.runFiber f = .ok s') :
    s.Executes R S (s.machine.executed s.machine.limits.budget f s.stage) s' := by
  obtain ⟨status, g, stage, hrun⟩ := ran_of_runFiber h
  obtain ⟨hmachine, hinbox, hhost⟩ := deliver_same ({ s with stage := stage }.setFiber g)
  have hran : s.Executes R S (s.machine.executed s.machine.limits.budget f s.stage)
      ({ s with stage := stage }.setFiber g).deliver := by
    refine ⟨hmachine, fun hs => by rw [hinbox]; exact hs, ?_⟩
    rw [hhost]
    exact accounts_run hm.touches hm.refl hrun
  have hthen {s'' : Scheduler H}
      (hrest : ({ s with stage := stage }.setFiber g).deliver.Executes R S [] s'') :
      s.Executes R S (s.machine.executed s.machine.limits.budget f s.stage) s'' := by
    have hboth := hran.trans hm hrest
    rwa [List.append_nil] at hboth
  rcases runFiber_eq_ok hrun h with ⟨-, rfl⟩ | ⟨-, rfl⟩ | ⟨-, rfl⟩
  · exact hthen (executes_finish hm _ g)
  · exact hthen (executes_nothing rfl rfl (hm.refl _))
  · exact hran

theorem executes_doErrands (hm : m.Rests R S) (errands : List (Errand (Stage H)))
    (hquiet : ∀ e ∈ errands, e.Quiet S) (s : Scheduler H) :
    s.Executes R S [] (doErrands errands s) := by
  induction errands generalizing s with
  | nil => exact executes_nothing rfl rfl (hm.refl _)
  | cons e errands ih =>
    cases hquiet e List.mem_cons_self with
    | @mk run quiet more =>
      have hposts : s.Executes R S [] { s with inbox := s.inbox ++ (run s.stage).2 } := by
        refine ⟨rfl, fun hs x hx => ?_, .rest (hm.refl _)⟩
        rcases List.mem_append.mp hx with hx | hx
        · exact hs x hx
        · exact more s.stage x hx
      have hworks := hposts.trans hm (executes_stage (quiet s.stage))
      exact hworks.trans hm (ih (fun x hx => hquiet x (List.mem_cons_of_mem _ hx)) _)

theorem executes_drain (rounds : Nat) (hm : s.machine.Rests R S) (h : drain rounds s = .ok s') :
    s.Executes R S (executedIn rounds s) s' := by
  induction rounds generalizing s with
  | zero =>
    unfold drain at h
    split at h
    · cases h
      exact executes_nothing rfl rfl (hm.refl _)
    · cases h
  | succ rounds ih =>
    unfold drain at h
    rw [executedIn]
    cases hqueue : s.queue with
    | nil =>
      simp only [hqueue] at h ⊢
      cases h
      exact executes_nothing rfl rfl (hm.refl _)
    | cons id rest =>
      simp only [hqueue] at h ⊢
      have hskip : s.Executes R S [] { s with queue := rest } :=
        executes_nothing rfl rfl (hm.refl _)
      cases hfound : fiber? { s with queue := rest } id with
      | none =>
        simp only [hfound] at h ⊢
        exact hskip.trans hm (ih hm h)
      | some f =>
        simp only [hfound] at h ⊢
        by_cases hstate : f.state = .runnable
        · rw [if_pos hstate] at h ⊢
          cases hrun : runFiber { s with queue := rest } f with
          | error c =>
            rw [hrun] at h
            cases h
          | ok s₁ =>
            simp only [hrun] at h ⊢
            have hran := executes_runFiber (s := { s with queue := rest }) hm hrun
            have hm₁ : s₁.machine.Rests R S := by
              rw [hran.machine]
              exact hm
            exact (hskip.trans hm hran).trans hm (ih hm₁ h)
        · rw [if_neg hstate] at h ⊢
          exact hskip.trans hm (ih hm h)

theorem executes_tick (hm : s.machine.Rests R S) (hs : ∀ e ∈ s.inbox, e.Quiet S) (h : s.tick = .ok s') :
    s.Executes R S s.executed s' := by
  unfold tick at h
  unfold executed
  have hopens : s.Executes R S [] { s with inbox := [] } :=
    ⟨rfl, fun _ => by simp, .rest (hm.refl _)⟩
  have herrands := hopens.trans hm (executes_doErrands hm s.inbox hs { s with inbox := [] })
  generalize doErrands s.inbox { s with inbox := [] } = t at h herrands
  have hmerges : t.Executes R S [] { t with queue := t.queue ++ t.next, next := [] } :=
    executes_nothing rfl rfl (hm.refl _)
  have hmt : t.machine.Rests R S := by
    rw [herrands.machine]
    exact hm
  exact (herrands.trans hm hmerges).trans hm (executes_drain _ hmt h)

end

end Scheduler

end TileMind
