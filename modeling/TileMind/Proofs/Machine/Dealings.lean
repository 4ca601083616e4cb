import TileMind.Proofs.Machine.Runs

/-!
# TileMind.Proofs.Machine.Dealings

What one instruction does to the handle table, said once: most leave it to the host, an asynchronous
call creates a handle, an `await` reads a handle or parks on it. How far the host goes is left open.

* `Machine.Deals`: what is known of host code.
* `handled_step`: an instruction ends in one of these ways.
* `AtAwait.reads`, `AtAwait.parks`: the two ways out of an `await` on a handle that is there.
* `Machine.Carries`: what every instruction keeps, a run keeps.
-/

namespace TileMind

variable {H : Type}

/-- Host code is within `R`, calls that answer later apart. From the creation of a handle to the end
of the call it was created for, things stay within `A`. -/
structure Machine.Deals [Host H] (m : Machine H) (R : Stage H → Stage H → Prop)
    (A : Nat → Stage H → Stage H → Prop) : Prop where
  trans : ∀ {s t u}, R s t → R t u → R s u
  heap : ∀ (s : Stage H) heap, R s { s with heap := heap }
  store : ∀ (s : Stage H) func var v, R s { s with host := Host.store s.host func var v }
  sync : ∀ {fn h call}, m.services.functions.get? fn = some h → h.sync = some call →
    ∀ c args (s : Stage H), R s (call c args s).2
  get : ∀ {type get}, (m.hooks type).get = some get → ∀ {obj field} {s : Stage H} {r},
    get obj field s = .ok r → R s r.2
  set : ∀ {type set}, (m.hooks type).set = some set → ∀ {obj field v} {s : Stage H} {r},
    set obj field v s = .ok r → R s r.2
  started : ∀ {fn h call}, m.services.functions.get? fn = some h → h.async = some call →
    ∀ {c args id} {s t : Stage H}, call c args id s = (.ok, t) → A id s t
  refused : ∀ {fn h call}, m.services.functions.get? fn = some h → h.async = some call →
    ∀ {c args id start} {s t : Stage H}, call c args id s = (start, t) → start ≠ .ok →
    ∀ heap fault, A id s (Stage.reject { t with heap := heap } id fault)
  answered : ∀ (s : Stage H) id v, A id s (s.resolve id v)

/-- The instruction leaves the handles of its fiber, and the stage is within `R`. -/
def Outcome.Quiet (R : Stage H → Stage H → Prop) (handles : List Nat) (s : Stage H) :
    Outcome H → Prop
  | .next g t => R s t ∧ g.handles = handles
  | .stop status g t => status ≠ .waiting ∧ R s t ∧ g.handles = handles
  | .crash _ => True

/-- The instruction fails, where the fiber stands. -/
def Outcome.Fails (f : Fiber) (site : Site) (o : Outcome H) : Prop :=
  (∃ g t fault, g.frames = f.frames ∧ g.handlers = f.handlers ∧ o = raise g t fault site) ∨
    ∃ c, o = .crash c

/-- How instruction `i` at `site` can end, as far as handles go, for fiber `f`, which is past it
already. A call that is quiet has failed. -/
inductive Handled (R : Stage H → Stage H → Prop) (A : Nat → Stage H → Stage H → Prop) (i : Instr)
    (site : Site) (f : Fiber) (s : Stage H) : Outcome H → Prop where
  | quiet {o : Outcome H} (quiet : o.Quiet R f.handles s)
      (fails : i.op? = some .hostCallAsync ∨ i.op? = some .hostCallArgsAsync → o.Fails f site) :
      Handled R A i site f s o
  | asks {g : Fiber} {mid t : Stage H} {id : Nat} {table : HandleTable} {below : List Value}
      (op : i.op? = some .hostCallAsync ∨ i.op? = some .hostCallArgsAsync) (before : R s mid)
      (created : mid.handles.create? f.id = some (id, table))
      (after : A id { mid with handles := table } t) (same : f.SameRun g)
      (frames : g.frames = f.frames) (handlers : g.handlers = f.handlers)
      (handles : g.handles = f.handles ++ [id]) (stack : g.stack = .ofHandle id :: below)
      (length : (below.length : Int) = f.stack.length - i.pops) : Handled R A i site f s (.next g t)
  | reads {o : Outcome H} {k : Int} {h : Handle} {below : List Value} (op : i.op? = some .await)
      (stack : f.stack = .handle k :: below) (found : s.handles.get? k = some h)
      (done : h.isDone = true)
      (after : o.Quiet R f.handles { s with handles := s.handles.consume h.id f.id }) :
      Handled R A i site f s o
  | parks {k : Int} {h : Handle} {below : List Value} (op : i.op? = some .await)
      (stack : f.stack = .handle k :: below) (found : s.handles.get? k = some h)
      (pending : h.isDone = false) :
      Handled R A i site f s (.stop .waiting { f.jump site.pc with awaiting := h.id, state := .waiting }
        { s with handles := s.handles.update h.id fun h => h.addWaiter f.id })

@[simp] theorem Fiber.jump_handles (f : Fiber) (pc : Int) : (f.jump pc).handles = f.handles := by
  unfold jump
  split <;> rfl

theorem Fiber.unwind_handles (f : Fiber) (fault : Nat) : (f.unwind fault).handles = f.handles := by
  unfold unwind
  split
  · rfl
  · rw [jump_handles]

theorem Fiber.ret_handles (f : Fiber) : f.ret.handles = f.handles := by
  unfold ret
  split
  · rfl
  · dsimp only
    split <;> rfl

/-! ## Quiet instructions -/

section

variable [Host H] {m : Machine H} {R : Stage H → Stage H → Prop} {A : Nat → Stage H → Stage H → Prop}
  {handles : List Nat} {s t : Stage H} {f : Fiber} {site : Site}

theorem Machine.Deals.refl (hR : m.Deals R A) (s : Stage H) : R s s := hR.heap s s.heap

theorem quiet_raise (hR : m.Deals R A) (hs : R s t) (hf : f.handles = handles) (fault : Nat) :
    (raise f t fault site).Quiet R handles s := by
  have hunwind := (f.unwind_handles fault).trans hf
  unfold raise
  dsimp only
  split
  · exact ⟨by simp, hR.trans hs (hR.heap _ _), hunwind⟩
  · exact ⟨hR.trans hs (hR.heap _ _), hunwind⟩

theorem quiet_raiseNew (hR : m.Deals R A) (hs : R s t) (hf : f.handles = handles) (fault : Fault) :
    (raiseNew f t fault site).Quiet R handles s :=
  quiet_raise hR (hR.trans hs (hR.heap _ _)) hf _

omit [Host H] in
theorem quiet_withResult {α : Type} {r : Except Crash α} {k : α → Outcome H}
    (hk : ∀ a, r = .ok a → (k a).Quiet R handles s) : (withResult r k).Quiet R handles s := by
  cases r with
  | ok a => exact hk a rfl
  | error c => trivial

omit [Host H] in
theorem quiet_withTop {k : Value → Fiber → Outcome H}
    (hk : ∀ v rest, (k v { f with stack := rest }).Quiet R handles s) :
    (withTop f k).Quiet R handles s := by
  unfold withTop
  split
  · trivial
  · exact hk _ _

theorem Machine.Deals.callSync (hR : m.Deals R A) {f : Fiber} {fn site func : Int} {args : Value}
    {s : Stage H} {r : Except Nat Value × Stage H} (hr : m.callSync f fn site func args s = .ok r) :
    R s r.2 := by
  cases m.callSync_eq_ok hr with
  | missing => exact hR.heap _ _
  | answered hh hcall called =>
    have hhost := hR.sync hh hcall ⟨m.program, f.id, func, site, f.lastFault⟩ args s
    rwa [called] at hhost
  | failed hh hcall called =>
    have hhost := hR.sync hh hcall ⟨m.program, f.id, func, site, f.lastFault⟩ args s
    rw [called] at hhost
    exact hR.trans hhost (hR.heap _ _)

theorem Machine.Deals.getField (hR : m.Deals R A) {obj : Value} {field : String} {s : Stage H}
    {r : Except Fault Value × Stage H} (hr : m.getField obj field s = .ok r) : R s r.2 := by
  obtain hsame | ⟨type, get, v, t, hget, hread, rfl⟩ := m.getField_eq_ok hr
  · exact hsame ▸ hR.refl _
  · exact hR.get hget hread

theorem Machine.Deals.setField (hR : m.Deals R A) {obj : Value} {field : String} {v : Value} {s : Stage H}
    {r : Except Fault Unit × Stage H} (hr : m.setField obj field v s = .ok r) : R s r.2 := by
  obtain ⟨heap, hheap⟩ | ⟨type, set, b, t, heap, hset, hwrite, hheap⟩ := m.setField_eq_ok hr
  · exact hheap ▸ hR.heap _ _
  · exact hheap ▸ hR.trans (hR.set hset hwrite) (hR.heap _ _)

theorem quiet_execHostCall (hR : m.Deals R A) (hs : R s t) (hf : f.handles = handles) (i : Instr)
    (args : Value) : (execHostCall m i site args f t).Quiet R handles s := by
  refine quiet_withResult fun r hr => ?_
  have hcall := hR.trans hs (hR.callSync hr)
  obtain ⟨ref | v, u⟩ := r
  · exact quiet_raise hR hcall hf _
  · exact ⟨hcall, hf⟩

theorem quiet_execMapSet (hR : m.Deals R A) (hf : f.handles = handles) (fr : Frame) (key v : Value) :
    (execMapSet fr site key v f s).Quiet R handles s := by
  unfold execMapSet
  split
  · exact quiet_raiseNew hR (hR.refl _) hf _
  · dsimp only
    split
    · exact ⟨hR.heap _ _, hf⟩
    · exact quiet_withResult fun fault _ => quiet_raiseNew hR (hR.refl _) hf _

/-! ## Calls that answer later -/

/-- What is left after a call for a handle: a fault and the handles as they were, or a new handle. -/
def Asked (R : Stage H → Stage H → Prop) (A : Nat → Stage H → Stage H → Prop) (f : Fiber) (s : Stage H) :
    Except Nat Nat × Fiber × Stage H → Prop
  | (.error _, g, t) => g = f ∧ R s t
  | (.ok id, g, t) => ∃ mid table, R s mid ∧ mid.handles.create? f.id = some (id, table) ∧
      A id { mid with handles := table } t ∧ g = { f with handles := f.handles ++ [id] }

theorem asked_callAsync (hR : m.Deals R A) {f : Fiber} {fn site func : Int} {args : Value}
    {s : Stage H} {r : Except Nat Nat × Fiber × Stage H} (hr : m.callAsync f fn site func args s = .ok r) :
    Asked R A f s r := by
  cases m.callAsync_eq_ok hr with
  | full => exact ⟨rfl, hR.heap _ _⟩
  | started hh hcall created called =>
    exact ⟨s, _, hR.refl _, created, hR.started hh hcall called, rfl⟩
  | refused hh hcall created called fails =>
    exact ⟨s, _, hR.refl _, created, hR.refused hh hcall called fails _ _, rfl⟩
  | failed answer => exact ⟨rfl, hR.callSync answer⟩
  | fullAfter answer => exact ⟨rfl, hR.trans (hR.callSync answer) (hR.heap _ _)⟩
  | answered answer created =>
    exact ⟨_, _, hR.callSync answer, created, hR.answered _ _ _, rfl⟩

theorem handled_execHostCallAsync (hR : m.Deals R A) {i : Instr} {g : Fiber} {mid : Stage H}
    (hop : i.op? = some .hostCallAsync ∨ i.op? = some .hostCallArgsAsync) (hs : R s mid)
    (same : f.SameRun g) (frames : g.frames = f.frames) (handlers : g.handlers = f.handlers)
    (handles : g.handles = f.handles) (length : (g.stack.length : Int) = f.stack.length - i.pops)
    (args : Value) : Handled R A i site f s (execHostCallAsync m i site args g mid) := by
  unfold execHostCallAsync
  cases hr : m.callAsync g i.a.toInt i.c.toInt site.func args mid with
  | error c => exact .quiet trivial fun _ => .inr ⟨c, rfl⟩
  | ok r =>
    have hasked := asked_callAsync hR hr
    obtain ⟨ref | id, g', t⟩ := r
    · obtain ⟨rfl, hafter⟩ := hasked
      exact .quiet (quiet_raise hR (hR.trans hs hafter) handles _)
        fun _ => .inl ⟨_, _, _, frames, handlers, rfl⟩
    · obtain ⟨u, table, hbefore, hcreate, hafter, rfl⟩ := hasked
      rw [same.id] at hcreate
      exact .asks hop (hR.trans hs hbefore) hcreate hafter
        ⟨same.id, same.state, same.awaiting, same.entry⟩ frames handlers (by simp [Fiber.push, handles])
        rfl length

/-! ## Waiting -/

theorem quiet_read (hR : m.Deals R A) {h : Handle} (hf : f.handles = handles) {consumed : Stage H} :
    Outcome.Quiet R handles consumed (match h.state, h.fault with
      | .resolved, _ => .next (f.push h.result) consumed
      | _, some ref => raise f consumed ref site
      | _, none => .crash (.noFault h.id)) := by
  split
  · exact ⟨hR.refl _, hf⟩
  · exact quiet_raise hR (hR.refl _) hf _
  · trivial

theorem handled_execAwait (hR : m.Deals R A) {i : Instr} (hop : i.op? = some .await) :
    Handled R A i site f s (execAwait site f s) := by
  have hwaits {o : Outcome H} (ho : o.Quiet R f.handles s) : Handled R A i site f s o :=
    .quiet ho (by simp [hop])
  unfold execAwait withTop
  split
  · exact hwaits trivial
  · rename_i v below hstack
    dsimp only
    split
    · rename_i k
      split
      · exact hwaits (quiet_raiseNew hR (hR.refl _) rfl _)
      · rename_i h hfound
        split
        · rename_i hdone
          refine .reads hop hstack hfound hdone ?_
          exact quiet_read hR (f := { f with stack := below }) rfl
        · rename_i hpending
          exact .parks hop hstack hfound (by simpa using hpending)
    · exact hwaits ⟨hR.refl _, rfl⟩

/-! ## Instructions -/

/-- An instruction that neither asks nor waits leaves handles to the host. -/
theorem quiet_exec (hR : m.Deals R A) {op : Op}
    (hop : op ≠ .hostCallAsync ∧ op ≠ .hostCallArgsAsync ∧ op ≠ .await) (i : Instr) (fr : Frame) :
    (exec m op i fr site f s).Quiet R f.handles s := by
  have hsame : R s s := hR.refl _
  unfold exec
  cases op with
  | hostCallAsync | hostCallArgsAsync | await => simp at hop
  | nop | whenStart | doStart | loadVar => exact ⟨hsame, rfl⟩
  | jump => exact ⟨hsame, f.jump_handles _⟩
  | ret => exact ⟨hsame, f.ret_handles⟩
  | «try» | endTry => exact ⟨hsame, rfl⟩
  | yield => exact ⟨by simp, hsame, rfl⟩
  | pop | dup | doEnd => exact quiet_withTop fun _ _ => ⟨hsame, rfl⟩
  | jumpIfFalse | whenEnd | jumpIfTrue =>
    refine quiet_withTop fun v rest => ⟨hsame, ?_⟩
    split <;> simp
  | pushConst =>
    dsimp only
    split
    · trivial
    · split
      · exact ⟨hsame, rfl⟩
      · split
        · exact ⟨hR.heap _ _, rfl⟩
        · trivial
  | mapNew =>
    dsimp only
    split
    · trivial
    · exact ⟨hR.heap _ _, rfl⟩
  | storeVar => exact quiet_withTop fun _ _ => ⟨hR.store _ _ _ _, rfl⟩
  | call =>
    dsimp only
    split
    · exact quiet_raiseNew hR hsame rfl _
    · exact ⟨hsame, rfl⟩
  | hostCall =>
    dsimp only [withOperands]
    split
    · trivial
    · exact quiet_execHostCall hR (hR.heap _ _) rfl i _
  | hostCallArgs => exact quiet_withTop fun _ _ => quiet_execHostCall hR hsame rfl i _
  | throw =>
    refine quiet_withTop fun v rest => quiet_withResult fun r hr => ?_
    obtain ⟨heap, hheap⟩ := stage_thrown hr
    exact quiet_raise hR (hheap ▸ hR.heap s heap) rfl _
  | mapSet =>
    exact quiet_withTop fun v _ => quiet_withTop fun key _ => quiet_execMapSet hR rfl fr key v
  | getField =>
    refine quiet_withTop fun name _ => quiet_withTop fun obj _ => ?_
    split
    · exact quiet_withResult fun fault _ => quiet_raiseNew hR hsame rfl _
    · refine quiet_withResult fun r hr => ?_
      have hget := hR.getField hr
      obtain ⟨fault | answer, t⟩ := r
      · exact quiet_raiseNew hR hget rfl _
      · exact ⟨hget, rfl⟩
  | setField =>
    refine quiet_withTop fun v _ => quiet_withTop fun name _ => quiet_withTop fun obj _ => ?_
    split
    · exact quiet_withResult fun fault _ => quiet_raiseNew hR hsame rfl _
    · refine quiet_withResult fun r hr => ?_
      have hset := hR.setField hr
      obtain ⟨fault | answer, t⟩ := r
      · exact quiet_raiseNew hR hset rfl _
      · exact ⟨hset, rfl⟩

/-- What an instruction that finds its operands does to handles. -/
theorem handled_exec (hR : m.Deals R A) {op : Op} {i : Instr} (hop : i.op? = some op)
    (hpops : i.pops ≤ f.stack.length) (fr : Frame) :
    Handled R A i site f s (exec m op i fr site f s) := by
  have hcrash (c : Crash) : Handled R A i site f s (.crash c) := .quiet trivial fun _ => .inr ⟨c, rfl⟩
  cases op with
  | hostCallAsync =>
    have hb : i.pops = i.b.toInt := by simp [Instr.pops, hop, Op.pops]
    dsimp only [exec, withOperands]
    split
    · exact hcrash _
    · have hdrop : f.SameRun (f.drop i.b.toInt.toNat) := ⟨rfl, rfl, rfl, rfl⟩
      refine handled_execHostCallAsync hR (.inl hop) (hR.heap _ _) hdrop rfl rfl rfl ?_ _
      simp only [Fiber.drop, List.length_drop]
      omega
  | hostCallArgsAsync =>
    have hone : i.pops = 1 := by simp [Instr.pops, hop, Op.pops]
    dsimp only [exec]
    unfold withTop
    split
    · exact hcrash _
    · rename_i v rest hstack
      dsimp only
      have hrest : f.SameRun { f with stack := rest } := ⟨rfl, rfl, rfl, rfl⟩
      refine handled_execHostCallAsync hR (.inr hop) (hR.refl _) hrest rfl rfl rfl ?_ _
      simp [hstack, hone]
  | await => exact handled_execAwait hR hop
  | _ => exact .quiet (quiet_exec hR (by simp) i fr) (by simp [hop])

/-- What a step does to handles, unless it fails the guard of the stack. -/
theorem handled_step (hR : m.Deals R A) (fr : Frame) (i : Instr) (f : Fiber) (s : Stage H) :
    (step m fr i f s).Quiet R f.handles s ∧
        (step m fr i f s).Fails (f.jump (fr.pc + 1)) ⟨fr.func, fr.pc⟩ ∨
      m.checkStack (f.jump (fr.pc + 1)) fr.base i = none ∧
        Handled R A i ⟨fr.func, fr.pc⟩ (f.jump (fr.pc + 1)) s (step m fr i f s) := by
  have hfails (fault : Fault) :
      (raiseNew (f.jump (fr.pc + 1)) s fault ⟨fr.func, fr.pc⟩).Quiet R f.handles s ∧
        (raiseNew (f.jump (fr.pc + 1)) s fault ⟨fr.func, fr.pc⟩).Fails (f.jump (fr.pc + 1))
          ⟨fr.func, fr.pc⟩ :=
    ⟨quiet_raiseNew hR (hR.refl _) (f.jump_handles _) fault, .inl ⟨_, _, _, rfl, rfl, rfl⟩⟩
  unfold step
  dsimp only
  split
  · exact .inl (hfails _)
  · rename_i hguard
    split
    · rename_i op hop
      refine .inr ⟨hguard, handled_exec hR hop ?_ fr⟩
      by_contra hlt
      have hlow : (f.stack.length : Int) - fr.base < i.pops := by
        rw [Fiber.jump_stack] at hlt
        omega
      simp [Machine.checkStack, hlow] at hguard
    · exact .inl (hfails _)

/-- An `await` on a handle that is there and completed reads it. -/
theorem AtAwait.reads (hR : m.Deals R A) {fr : Frame} {i : Instr} {k : Int} {below : List Value}
    (hat : AtAwait m f fr i k below) {h : Handle} (found : s.handles.get? k = some h)
    (done : h.isDone = true) :
    (TileMind.step m fr i f s).Quiet R f.handles
      { s with handles := s.handles.consume h.id f.id } := by
  have hself : (f.jump (fr.pc + 1)).id = f.id := (f.sameRun_jump _).id
  rw [hat.step]
  simp only [execAwait, withTop, Fiber.jump_stack, hat.stack, found, done, if_true, hself]
  exact quiet_read hR (f := { f.jump (fr.pc + 1) with id := f.id, stack := below }) (f.jump_handles _)

/-- An `await` on a handle that is there and pending parks the fiber where it stands. -/
theorem AtAwait.parks {fr : Frame} {i : Instr} {k : Int} {below : List Value}
    (hat : AtAwait m f fr i k below) {h : Handle} (found : s.handles.get? k = some h)
    (pending : h.isDone = false) :
    TileMind.step m fr i f s = .stop .waiting { f with awaiting := h.id, state := .waiting }
      { s with handles := s.handles.update h.id fun h => h.addWaiter f.id } := by
  obtain ⟨rest, hframes⟩ := hat.frame
  have hself : (f.jump (fr.pc + 1)).id = f.id := (f.sameRun_jump _).id
  rw [hat.step]
  simp [execAwait, withTop, Fiber.jump_stack, hat.stack, found, pending, hself, jump_jump hframes]

end

/-! ## Runs -/

/-- What every return and every instruction keeps (`P`), up to the one that stops the run (`Q`). -/
structure Machine.Carries [Host H] (m : Machine H) (P : Fiber → Stage H → Prop)
    (Q : RunStatus → Fiber → Stage H → Prop) : Prop where
  ret : ∀ {f s fr rest}, P f s → f.frames = fr :: rest →
    (∀ i, Machine.instrAt m.program fr ≠ .ok i) → P f.ret s
  next : ∀ {f g s t fr rest i}, P f s → f.frames = fr :: rest →
    Machine.instrAt m.program fr = .ok i → step m fr i f s = .next g t → P g t
  stop : ∀ {f g s t fr rest i status}, P f s → f.frames = fr :: rest →
    Machine.instrAt m.program fr = .ok i → step m fr i f s = .stop status g t → Q status g t
  done : ∀ {f s}, P f s → f.frames = [] → Q .done { f with state := .done } s
  spent : ∀ {f s fr rest}, P f s → f.frames = fr :: rest → Q .budget f s

section

variable [Host H] {m : Machine H} {P : Fiber → Stage H → Prop} {Q : RunStatus → Fiber → Stage H → Prop}

theorem Machine.Carries.settle (h : m.Carries P Q) (calls : Nat) {f g : Fiber} {s : Stage H}
    (hf : P f s) (hsettle : Machine.settle m.program calls f = .ok g) : P g s := by
  induction calls generalizing f with
  | zero =>
    cases hsettle
    exact hf
  | succ calls ih =>
    unfold Machine.settle at hsettle
    split at hsettle
    · cases hsettle
      exact hf
    · rename_i fr rest hframes
      split at hsettle
      · cases hsettle
      · rename_i fn hfn
        split at hsettle
        · cases hsettle
          exact hf
        · rename_i hover
          refine ih (h.ret hf hframes fun i hi => hover ?_) hsettle
          simp only [Machine.instrAt, hfn] at hi
          split at hi
          · cases hi
          · split at hi
            · cases hi
            · rename_i hin
              have hlt := (Array.getElem?_eq_some_iff.mp hin).1
              omega

theorem Machine.Carries.runFor (h : m.Carries P Q) (budget : Nat) {f g : Fiber} {s t : Stage H}
    {status : RunStatus} (hf : P f s) (hrun : m.runFor budget f s = .ok (status, g, t)) :
    Q status g t := by
  induction budget generalizing f s with
  | zero =>
    unfold Machine.runFor at hrun
    split at hrun
    · cases hrun
    · rename_i f' hsettle
      have hf' := h.settle _ hf hsettle
      split at hrun
      · rename_i hframes
        cases hrun
        exact h.done hf' hframes
      · rename_i hframes
        cases hrun
        exact h.spent hf' hframes
  | succ budget ih =>
    unfold Machine.runFor at hrun
    split at hrun
    · cases hrun
    · rename_i f' hsettle
      have hf' := h.settle _ hf hsettle
      split at hrun
      · rename_i hframes
        cases hrun
        exact h.done hf' hframes
      · rename_i fr rest hframes
        dsimp only at hrun
        split at hrun
        · cases hrun
        · rename_i i hi
          split at hrun
          · rename_i hstep
            exact ih (h.next hf' hframes hi hstep) hrun
          · rename_i hstep
            cases hrun
            exact h.stop hf' hframes hi hstep
          · cases hrun

theorem Machine.Carries.run (h : m.Carries P Q) {budget : Int} {f g : Fiber} {s t : Stage H}
    {status : RunStatus} (hstate : f.state = .runnable) (hf : P f s)
    (hrun : m.run budget f s = .ok (status, g, t)) : Q status g t := by
  have hsame : { f with state := .runnable } = f := by rw [← hstate]
  unfold Machine.run at hrun
  dsimp only at hrun
  rw [hsame, hstate, if_neg (by simp [FiberState.isTerminal])] at hrun
  exact h.runFor _ hf hrun

end

end TileMind
