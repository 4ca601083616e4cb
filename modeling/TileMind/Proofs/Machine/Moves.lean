import Mathlib.Tactic.Linarith
import TileMind.Machine.Run

/-!
# TileMind.Proofs.Machine.Moves

What one instruction can do to a fiber, said once for all proofs about runs. The stage enters only by
its handle table, through a relation `T` that host code is known to keep to.

* `Machine.Keeps`: everything a running fiber may bring about stays within `T`.
* `Moves`: the ways in which an instruction can end.
* `exec_moves`: an instruction that finds its operands ends in one of them.
-/

namespace TileMind

variable {H : Type}

/-! ## Results -/

theorem Except.map_eq_ok_iff {ε α β : Type} {f : α → β} {r : Except ε α} {b : β} :
    r.map f = .ok b ↔ ∃ a, r = .ok a ∧ f a = b := by
  cases r <;> simp [Except.map]

theorem Except.mapError_eq_ok_iff {ε ε' α : Type} {f : ε → ε'} {r : Except ε α} {a : α} :
    r.mapError f = .ok a ↔ r = .ok a := by
  cases r <;> simp [Except.mapError]

theorem Except.mapError_eq_error_iff {ε ε' α : Type} {f : ε → ε'} {r : Except ε α} {e : ε'} :
    r.mapError f = .error e ↔ ∃ e', r = .error e' ∧ f e' = e := by
  cases r <;> simp [Except.mapError]

theorem Except.map_eq_error_iff {ε α β : Type} {f : α → β} {r : Except ε α} {e : ε} :
    r.map f = .error e ↔ r = .error e := by
  cases r <;> simp [Except.map]

/-! ## Host code -/

def Stage.withFaults (s : Stage H) (faults : Array Fault) : Stage H :=
  { s with heap := { s.heap with faults := faults } }

theorem Stage.exists_faultOf (s : Stage H) (f : Failure) : ∃ faults, (s.faultOf f).2 = s.withFaults faults := by
  cases f <;> exact ⟨_, rfl⟩

namespace Machine

section

variable (m : Machine H) {f : Fiber} {fn site func : Int} {args : Value} {s : Stage H}

/-- How a call that is answered at once can end. -/
inductive CalledSync (f : Fiber) (fn site func : Int) (args : Value) (s : Stage H) :
    Except Nat Value × Stage H → Prop where
  | missing (ref : Nat) (faults : Array Fault) :
      CalledSync f fn site func args s (.error ref, s.withFaults faults)
  | answered {h call v t} (found : m.services.functions.get? fn = some h) (sync : h.sync = some call)
      (called : call ⟨m.program, f.id, func, site, f.lastFault⟩ args s = (.ok v, t)) :
      CalledSync f fn site func args s (.ok v, t)
  | failed {h call reply t} (found : m.services.functions.get? fn = some h) (sync : h.sync = some call)
      (called : call ⟨m.program, f.id, func, site, f.lastFault⟩ args s = (reply, t)) (ref : Nat)
      (faults : Array Fault) : CalledSync f fn site func args s (.error ref, t.withFaults faults)

theorem callSync_eq_ok {r : Except Nat Value × Stage H} (hr : m.callSync f fn site func args s = .ok r) :
    m.CalledSync f fn site func args s r := by
  unfold callSync at hr
  split at hr
  · cases hr
    exact .missing _ _
  · rename_i h hh
    split at hr
    · cases hr
      exact .missing _ _
    · rename_i call hcall
      split at hr <;> rename_i hcalled
      · cases hr
        exact .answered hh hcall hcalled
      · cases hr
      · cases hr
        exact .failed hh hcall hcalled _ _
      · rename_i failure t
        obtain ⟨faults, hfault⟩ := t.exists_faultOf failure
        split at hr <;> rename_i hres <;> rw [hres] at hfault <;> cases hr <;> cases hfault <;>
          exact .failed hh hcall hcalled _ _

/-- How a call for a handle can end. -/
inductive CalledAsync (f : Fiber) (fn site func : Int) (args : Value) (s : Stage H) :
    Except Nat Nat × Fiber × Stage H → Prop where
  | full (ref : Nat) (faults : Array Fault) :
      CalledAsync f fn site func args s (.error ref, f, s.withFaults faults)
  | started {h call id table t} (found : m.services.functions.get? fn = some h) (async : h.async = some call)
      (created : s.handles.create? f.id = some (id, table))
      (called : call ⟨m.program, f.id, func, site, f.lastFault⟩ args id { s with handles := table } = (.ok, t)) :
      CalledAsync f fn site func args s (.ok id, { f with handles := f.handles ++ [id] }, t)
  | refused {h call id table start t} {fault : Option Nat} {faults : Array Fault}
      (found : m.services.functions.get? fn = some h) (async : h.async = some call)
      (created : s.handles.create? f.id = some (id, table))
      (called : call ⟨m.program, f.id, func, site, f.lastFault⟩ args id { s with handles := table } = (start, t))
      (fails : start ≠ .ok) :
      CalledAsync f fn site func args s (.ok id, { f with handles := f.handles ++ [id] },
        (t.withFaults faults).reject id fault)
  | failed {ref t} (answer : m.callSync f fn site func args s = .ok (.error ref, t)) :
      CalledAsync f fn site func args s (.error ref, f, t)
  | fullAfter {v t} (answer : m.callSync f fn site func args s = .ok (.ok v, t)) (ref : Nat)
      (faults : Array Fault) : CalledAsync f fn site func args s (.error ref, f, t.withFaults faults)
  | answered {v t id table} (answer : m.callSync f fn site func args s = .ok (.ok v, t))
      (created : t.handles.create? f.id = some (id, table)) :
      CalledAsync f fn site func args s (.ok id, { f with handles := f.handles ++ [id] },
        Stage.resolve { t with handles := table } id v)

theorem callAsync_eq_ok {r : Except Nat Nat × Fiber × Stage H}
    (hr : m.callAsync f fn site func args s = .ok r) : m.CalledAsync f fn site func args s r := by
  unfold callAsync at hr
  split at hr
  · rename_i h call hfound
    obtain ⟨h', hh, hcall⟩ := Option.bind_eq_some_iff.mp hfound
    obtain ⟨call', hcall', heq⟩ := Option.map_eq_some_iff.mp hcall
    cases heq
    unfold startAsync createHandle at hr
    cases hcreate : s.handles.create? f.id with
    | none =>
      rw [hcreate] at hr
      cases hr
      exact .full _ _
    | some created =>
      rw [hcreate] at hr
      dsimp only at hr
      split at hr <;> rename_i hres <;> cases hr
      · exact .started hh hcall' hcreate hres
      · exact .refused hh hcall' hcreate hres (by simp)
      · rename_i failure t
        obtain ⟨faults, hfault⟩ := t.exists_faultOf failure
        rw [hfault]
        exact .refused hh hcall' hcreate hres (by simp)
  · obtain ⟨⟨_ | v, t⟩, hanswer, hthen⟩ := Except.map_eq_ok_iff.mp hr
    · cases hthen
      exact .failed hanswer
    · unfold createHandle at hthen
      cases hcreate : t.handles.create? f.id with
      | none =>
        simp only [hcreate] at hthen
        cases hthen
        exact .fullAfter hanswer _ _
      | some created =>
        simp only [hcreate] at hthen
        cases hthen
        exact .answered hanswer hcreate

theorem getField_eq_ok {obj : Value} {field : String} {r : Except Fault Value × Stage H}
    (hr : m.getField obj field s = .ok r) : r.2 = s ∨ ∃ type get v t, (m.hooks type).get = some get ∧
      get obj field s = .ok (v, t) ∧ r.2 = t := by
  unfold getField at hr
  split at hr
  · obtain ⟨⟨v, t⟩, hhooked, rfl⟩ := Except.map_eq_ok_iff.mp hr
    split at hhooked
    · rename_i get hget
      exact .inr ⟨_, get, v, t, hget, Except.mapError_eq_ok_iff.mp hhooked, rfl⟩
    · cases hhooked
      exact .inl rfl
  · cases hr
    exact .inl rfl
  · split at hr
    case h_4 =>
      obtain ⟨text, -, rfl⟩ := Except.map_eq_ok_iff.mp hr
      exact .inl rfl
    all_goals
      cases hr
      exact .inl rfl

theorem setField_eq_ok {obj : Value} {field : String} {v : Value} {r : Except Fault Unit × Stage H}
    (hr : m.setField obj field v s = .ok r) : (∃ heap, r.2 = { s with heap := heap }) ∨
      ∃ type set b t heap, (m.hooks type).set = some set ∧ set obj field v s = .ok (b, t) ∧
        r.2 = { t with heap := heap } := by
  unfold setField at hr
  split at hr
  · obtain ⟨⟨b, t⟩, hhooked, rfl⟩ := Except.map_eq_ok_iff.mp hr
    split at hhooked
    · rename_i set hset
      have hwrite := Except.mapError_eq_ok_iff.mp hhooked
      cases b
      · exact .inr ⟨_, set, false, t, _, hset, hwrite, rfl⟩
      · exact .inr ⟨_, set, true, t, t.heap, hset, hwrite, rfl⟩
    · cases hhooked
      exact .inl ⟨_, rfl⟩
  · cases hr
    exact .inl ⟨_, rfl⟩
  · obtain ⟨text, -, rfl⟩ := Except.map_eq_ok_iff.mp hr
    exact .inl ⟨s.heap, rfl⟩

end

end Machine

/-- Whatever host code, and what the machine does on behalf of fiber `id`, does to the handle table is
within `T`. -/
structure Machine.Keeps (m : Machine H) (id : Nat) (T : HandleTable → HandleTable → Prop) : Prop where
  refl : ∀ t, T t t
  trans : ∀ {t u v}, T t u → T u v → T t v
  create : ∀ {t u handle}, t.create? id = some (handle, u) → T t u
  resolved : ∀ {t u handle v}, t.resolve handle v = .ok u → T t u
  rejected : ∀ {t u handle fault}, t.reject handle fault = .ok u → T t u
  consume : ∀ {t : HandleTable} {h : Handle} {handle : Int}, t.get? handle = some h →
    h.isDone = true → T t (t.consume h.id id)
  sync : ∀ {fn h call}, m.services.functions.get? fn = some h → h.sync = some call →
    ∀ c args (s : Stage H), T s.handles (call c args s).2.handles
  async : ∀ {fn h call}, m.services.functions.get? fn = some h → h.async = some call →
    ∀ c args handle (s : Stage H), T s.handles (call c args handle s).2.handles
  get : ∀ {type get}, (m.hooks type).get = some get →
    ∀ {obj field} {s : Stage H} {r}, get obj field s = .ok r → T s.handles r.2.handles
  set : ∀ {type set}, (m.hooks type).set = some set →
    ∀ {obj field v} {s : Stage H} {r}, set obj field v s = .ok r → T s.handles r.2.handles

theorem Machine.keeps_true (m : Machine H) (id : Nat) : m.Keeps id fun _ _ => True := by
  constructor <;> intros <;> trivial

/-! ## Stages -/

namespace Stage

@[simp] theorem newFault_handles (s : Stage H) (f : Fault) : (s.newFault f).2.handles = s.handles := rfl
@[simp] theorem newMap_handles (s : Stage H) (t : TypeId) : (s.newMap t).2.handles = s.handles := rfl

end Stage

section

variable {m : Machine H} {id : Nat} {T : HandleTable → HandleTable → Prop}

theorem Machine.Keeps.resolve (hT : m.Keeps id T) (s : Stage H) (handle : Int) (v : Value) :
    T s.handles (s.resolve handle v).handles := by
  unfold Stage.resolve
  split
  · rename_i t ht
    exact hT.resolved ht
  · exact hT.refl _

theorem Machine.Keeps.reject (hT : m.Keeps id T) (s : Stage H) (handle : Int) (fault : Option Nat) :
    T s.handles (s.reject handle fault).handles := by
  unfold Stage.reject
  split
  · rename_i t ht
    exact hT.rejected ht
  · exact hT.refl _

theorem Machine.Keeps.callSync (hT : m.Keeps id T) {f : Fiber} {fn site func : Int} {args : Value}
    {s : Stage H} {r : Except Nat Value × Stage H} (hr : m.callSync f fn site func args s = .ok r) :
    T s.handles r.2.handles := by
  cases m.callSync_eq_ok hr with
  | missing => exact hT.refl _
  | answered hh hcall called | failed hh hcall called =>
    have hhost := hT.sync hh hcall ⟨m.program, f.id, func, site, f.lastFault⟩ args s
    rw [called] at hhost
    exact hhost

/-- A fiber that differs at most in the handles it has created. -/
def Fiber.Retains (f g : Fiber) : Prop := ∃ handles, g = { f with handles := handles }

theorem Machine.Keeps.callAsync (hT : m.Keeps id T) {f : Fiber} (hid : f.id = id) {fn site func : Int}
    {args : Value} {s : Stage H} {r : Except Nat Nat × Fiber × Stage H}
    (hr : m.callAsync f fn site func args s = .ok r) :
    T s.handles r.2.2.handles ∧ f.Retains r.2.1 := by
  cases m.callAsync_eq_ok hr with
  | full => exact ⟨hT.refl _, f.handles, rfl⟩
  | @started h call handle table t hh hcall created called =>
    have hhost := hT.async hh hcall ⟨m.program, f.id, func, site, f.lastFault⟩ args handle
      { s with handles := table }
    rw [called] at hhost
    exact ⟨hT.trans (hT.create (hid ▸ created)) hhost, _, rfl⟩
  | @refused h call handle table start t fault faults hh hcall created called =>
    have hhost := hT.async hh hcall ⟨m.program, f.id, func, site, f.lastFault⟩ args handle
      { s with handles := table }
    rw [called] at hhost
    exact ⟨hT.trans (hT.trans (hT.create (hid ▸ created)) hhost) (hT.reject (t.withFaults faults) handle fault), _, rfl⟩
  | failed answer => exact ⟨hT.callSync answer, f.handles, rfl⟩
  | fullAfter answer => exact ⟨hT.callSync answer, f.handles, rfl⟩
  | answered answer created =>
    exact ⟨hT.trans (hT.callSync answer) (hT.trans (hT.create (hid ▸ created)) (hT.resolve _ _ _)), _, rfl⟩

theorem Machine.Keeps.getField (hT : m.Keeps id T) {obj : Value} {field : String} {s : Stage H}
    {r : Except Fault Value × Stage H} (hr : m.getField obj field s = .ok r) : T s.handles r.2.handles := by
  obtain hsame | ⟨type, get, v, t, hget, hread, rfl⟩ := m.getField_eq_ok hr
  · exact hsame ▸ hT.refl _
  · exact hT.get hget hread

theorem Machine.Keeps.setField (hT : m.Keeps id T) {obj : Value} {field : String} {v : Value} {s : Stage H}
    {r : Except Fault Unit × Stage H} (hr : m.setField obj field v s = .ok r) : T s.handles r.2.handles := by
  obtain ⟨heap, hheap⟩ | ⟨type, set, b, t, heap, hset, hwrite, hheap⟩ := m.setField_eq_ok hr
  · exact hheap ▸ hT.refl _
  · exact hheap ▸ hT.set hset hwrite

end

/-! ## Instructions -/

/-- What a running fiber keeps through every instruction that does not stop it. -/
structure Fiber.SameRun (f g : Fiber) : Prop where
  id : g.id = f.id
  state : g.state = f.state
  awaiting : g.awaiting = f.awaiting
  entry : g.entry = f.entry

namespace Fiber

theorem SameRun.refl (f : Fiber) : f.SameRun f := ⟨rfl, rfl, rfl, rfl⟩

theorem SameRun.trans {f g h : Fiber} (hfg : f.SameRun g) (hgh : g.SameRun h) : f.SameRun h :=
  ⟨hgh.id.trans hfg.id, hgh.state.trans hfg.state, hgh.awaiting.trans hfg.awaiting,
    hgh.entry.trans hfg.entry⟩

theorem sameRun_jump (f : Fiber) (pc : Int) : f.SameRun (f.jump pc) := by
  unfold jump
  split
  · exact .refl f
  · exact ⟨rfl, rfl, rfl, rfl⟩

@[simp] theorem jump_stack (f : Fiber) (pc : Int) : (f.jump pc).stack = f.stack := by
  unfold jump
  split <;> rfl

@[simp] theorem jump_handlers (f : Fiber) (pc : Int) : (f.jump pc).handlers = f.handlers := by
  unfold jump
  split <;> rfl

/-- Where a jump leads depends on the active calls alone. -/
theorem jump_frames {f g : Fiber} (h : g.frames = f.frames) (pc : Int) :
    (g.jump pc).frames = (f.jump pc).frames := by
  unfold jump
  rw [h]
  split
  · exact h
  · rfl

end Fiber

/-- How instruction `i` at `site` can end for fiber `f`, which is past it already. What lies below the
operands stays on the stack. -/
inductive Moves (T : HandleTable → HandleTable → Prop) (i : Instr) (site : Site) (f : Fiber)
    (s : Stage H) : Outcome H → Prop where
  | next {g : Fiber} {t : Stage H} (same : f.SameRun g) (table : T s.handles t.handles)
      (straight : i.op? ≠ some .call ∧ i.op? ≠ some .ret) (frames : g.frames = f.frames)
      (handlers : g.handlers = f.handlers)
      (stack : (g.stack.length : Int) = f.stack.length - i.pops + i.pushes)
      (below : f.stack.drop i.pops.toNat <:+ g.stack) : Moves T i site f s (.next g t)
  | jump {g : Fiber} (same : f.SameRun g) (isJump : i.isJump = true)
      (frames : g.frames = (f.jump (site.pc + i.a.toInt)).frames) (handlers : g.handlers = f.handlers)
      (stack : (g.stack.length : Int) = f.stack.length - i.pops + i.pushes)
      (below : f.stack.drop i.pops.toNat <:+ g.stack) : Moves T i site f s (.next g s)
  | call {g : Fiber} (same : f.SameRun g) (op : i.op? = some .call)
      (frames : g.frames = { func := i.a.toInt, base := g.stack.length } :: f.frames)
      (handlers : g.handlers = f.handlers) (stack : g.stack = f.stack.drop i.b.toInt.toNat) :
      Moves T i site f s (.next g s)
  | ret (op : i.op? = some .ret) : Moves T i site f s (.next f.ret s)
  | tryStart {g : Fiber} (same : f.SameRun g) (op : i.op? = some .try) (frames : g.frames = f.frames)
      (handlers : g.handlers =
        ⟨site.pc + i.a.toInt, f.stack.length, f.frames.length⟩ :: f.handlers)
      (stack : g.stack = f.stack) : Moves T i site f s (.next g s)
  | tryEnd {g : Fiber} (same : f.SameRun g) (op : i.op? = some .endTry) (frames : g.frames = f.frames)
      (handlers : g.handlers = f.handlers.tail) (stack : g.stack = f.stack) :
      Moves T i site f s (.next g s)
  | raise {g : Fiber} {t : Stage H} {fault : Nat} (same : f.SameRun g)
      (table : T s.handles t.handles) (frames : g.frames = f.frames)
      (handlers : g.handlers = f.handlers) (stack : g.stack.length ≤ f.stack.length)
      (below : f.stack.drop i.pops.toNat <:+ g.stack) : Moves T i site f s (raise g t fault site)
  | park {handle : Int} {h : Handle} (op : i.op? = some .await)
      (found : s.handles.get? handle = some h) (pending : h.isDone = false) :
      Moves T i site f s (.stop .waiting { f.jump site.pc with awaiting := h.id, state := .waiting }
        { s with handles := s.handles.update h.id fun h => h.addWaiter f.id })
  | yield (op : i.op? = some .yield) : Moves T i site f s (.stop .yielded f s)
  | crash {c : Crash} : Moves T i site f s (.crash c)

section

variable {m : Machine H} {T : HandleTable → HandleTable → Prop} {i : Instr} {site : Site} {f : Fiber}
  {s : Stage H}

theorem Moves.raiseNew {g : Fiber} {s' : Stage H} {fault : Fault} (same : f.SameRun g)
    (table : T s.handles s'.handles) (frames : g.frames = f.frames)
    (handlers : g.handlers = f.handlers) (stack : g.stack.length ≤ f.stack.length)
    (below : f.stack.drop i.pops.toNat <:+ g.stack) :
    Moves T i site f s (raiseNew g s' fault site) :=
  .raise (t := (s'.newFault fault).2) same table frames handlers stack below

theorem moves_withTop {g : Fiber} {k : Value → Fiber → Outcome H}
    (h : ∀ v rest, g.stack = v :: rest → Moves T i site f s (k v { g with stack := rest })) :
    Moves T i site f s (withTop g k) := by
  unfold withTop
  split
  · exact .crash
  · rename_i v rest heq
    exact h v rest heq

theorem moves_withResult {α : Type} {r : Except Crash α} {k : α → Outcome H}
    (h : ∀ a, r = .ok a → Moves T i site f s (k a)) : Moves T i site f s (withResult r k) := by
  cases r with
  | ok a => exact h a rfl
  | error c => exact .crash

theorem moves_execHostCall (hT : m.Keeps f.id T) {g : Fiber} {s' : Stage H} (args : Value)
    (same : f.SameRun g) (table : T s.handles s'.handles)
    (straight : i.op? ≠ some .call ∧ i.op? ≠ some .ret) (frames : g.frames = f.frames)
    (handlers : g.handlers = f.handlers)
    (stack : (g.stack.length : Int) + 1 = f.stack.length - i.pops + i.pushes)
    (hle : g.stack.length ≤ f.stack.length) (below : f.stack.drop i.pops.toNat <:+ g.stack) :
    Moves T i site f s (execHostCall m i site args g s') := by
  refine moves_withResult fun r hr => ?_
  have hcall := hT.callSync hr
  obtain ⟨ref | v, s''⟩ := r
  · exact .raise same (hT.trans table hcall) frames handlers hle below
  · refine .next ⟨same.id, same.state, same.awaiting, same.entry⟩ (hT.trans table hcall) straight frames
      handlers ?_ (below.trans (List.suffix_cons _ _))
    simp only [Fiber.push, List.length_cons]
    push_cast
    exact stack

theorem moves_execHostCallAsync (hT : m.Keeps f.id T) {g : Fiber} {s' : Stage H} (args : Value)
    (same : f.SameRun g) (table : T s.handles s'.handles)
    (straight : i.op? ≠ some .call ∧ i.op? ≠ some .ret) (frames : g.frames = f.frames)
    (handlers : g.handlers = f.handlers)
    (stack : (g.stack.length : Int) + 1 = f.stack.length - i.pops + i.pushes)
    (hle : g.stack.length ≤ f.stack.length) (below : f.stack.drop i.pops.toNat <:+ g.stack) :
    Moves T i site f s (execHostCallAsync m i site args g s') := by
  refine moves_withResult fun r hr => ?_
  have hcall := hT.callAsync same.id hr
  obtain ⟨ref | id, g', s''⟩ := r <;> obtain ⟨htable, handles, rfl⟩ := hcall
  · exact .raise ⟨same.id, same.state, same.awaiting, same.entry⟩ (hT.trans table htable) frames handlers hle
      below
  · refine .next ⟨same.id, same.state, same.awaiting, same.entry⟩ (hT.trans table htable) straight frames
      handlers ?_ (below.trans (List.suffix_cons _ _))
    simp only [Fiber.push, List.length_cons]
    push_cast
    exact stack

theorem moves_withOperands (hT : m.Keeps f.id T) (hpops : i.pops ≤ f.stack.length)
    (hb : i.pops = i.b.toInt) (hpush : i.pushes = 1) {k : Value → Fiber → Stage H → Outcome H}
    (hk : ∀ (args : Value) (g : Fiber) (s' : Stage H), f.SameRun g → T s.handles s'.handles →
      g.frames = f.frames → g.handlers = f.handlers →
      (g.stack.length : Int) + 1 = f.stack.length - i.pops + i.pushes →
      g.stack.length ≤ f.stack.length → f.stack.drop i.pops.toNat <:+ g.stack →
      Moves T i site f s (k args g s')) :
    Moves T i site f s (withOperands i.b.toInt f s k) := by
  unfold withOperands
  split
  · exact .crash
  · rename_i h0
    have hlen : (f.drop i.b.toInt.toNat).stack.length = f.stack.length - i.b.toInt.toNat := by
      simp [Fiber.drop]
    refine hk _ _ _ ⟨rfl, rfl, rfl, rfl⟩ (hT.refl _) rfl rfl ?_ ?_ (by rw [hb]; exact List.suffix_rfl)
    · rw [hlen, hb, hpush]
      omega
    · rw [hlen]
      omega

theorem moves_execAwait (hT : m.Keeps f.id T) (hop : i.op? = some .await) :
    Moves T i site f s (execAwait site f s) := by
  have hpops : i.pops = 1 := by simp [Instr.pops, hop, Op.pops]
  have hpushes : i.pushes = 1 := by simp [Instr.pushes, hop, Op.pushes]
  refine moves_withTop fun v rest hstack => ?_
  have hlen : f.stack.length = rest.length + 1 := by simp [hstack]
  have hbelow : f.stack.drop i.pops.toNat = rest := by simp [hpops, hstack]
  split
  · split
    · exact .raiseNew ⟨rfl, rfl, rfl, rfl⟩ (hT.refl _) rfl rfl (by simp [hlen]) (by simp [hbelow])
    · rename_i h hfound
      split
      · rename_i hdone
        have htable := hT.consume hfound hdone
        split
        · exact .next ⟨rfl, rfl, rfl, rfl⟩ htable (by simp [hop]) rfl rfl
            (by simp [Fiber.push, hlen, hpops, hpushes]) (by rw [hbelow]; exact List.suffix_cons _ _)
        · exact .raise ⟨rfl, rfl, rfl, rfl⟩ htable rfl rfl (by simp [hlen]) (by simp [hbelow])
        · exact .crash
      · rename_i hdone
        exact .park hop hfound (by simpa using hdone)
  · exact .next (.refl f) (hT.refl _) (by simp [hop]) rfl rfl (by rw [hpops, hpushes]; omega)
      (List.drop_suffix _ _)

theorem moves_execMapSet (hT : m.Keeps f.id T) (hop : i.op? = some .mapSet) (fr : Frame)
    (key v : Value) (rest : List Value) (hstack : f.stack = v :: key :: rest) :
    Moves T i site f s (execMapSet fr site key v { f with stack := rest } s) := by
  have hpops : i.pops = 2 := by simp [Instr.pops, hop, Op.pops]
  have hpushes : i.pushes = 0 := by simp [Instr.pushes, hop, Op.pushes]
  have hlen : f.stack.length = rest.length + 2 := by simp [hstack]
  have hbelow : f.stack.drop i.pops.toNat <:+ rest := by simp [hpops, hstack]
  unfold execMapSet
  split
  · exact .raiseNew ⟨rfl, rfl, rfl, rfl⟩ (hT.refl _) rfl rfl (by simp [hlen]) hbelow
  · dsimp only
    split
    · exact .next ⟨rfl, rfl, rfl, rfl⟩ (hT.refl _) (by simp [hop]) rfl rfl
        (by rw [hlen, hpops, hpushes]; push_cast; omega) hbelow
    · refine moves_withResult fun fault _ => ?_
      exact .raiseNew ⟨rfl, rfl, rfl, rfl⟩ (hT.refl _) rfl rfl (by simp [hlen]) hbelow

theorem stage_thrown {v : Value} {r : Nat × Stage H} (hr : thrown v s = .ok r) :
    ∃ heap, r.2 = { s with heap := heap } := by
  unfold thrown at hr
  split at hr
  · cases hr
    exact ⟨s.heap, rfl⟩
  · cases hr
    exact ⟨_, rfl⟩
  · obtain ⟨text, -, rfl⟩ := Except.map_eq_ok_iff.mp hr
    exact ⟨_, rfl⟩

/-- An instruction that finds its operands ends in one of the ways of `Moves`. -/
theorem exec_moves [Host H] (hT : m.Keeps f.id T) {op : Op} (hop : i.op? = some op) (fr : Frame)
    (hpops : i.pops ≤ f.stack.length) : Moves T i site f s (exec m op i fr site f s) := by
  have hp : ∀ n, op.pops = some n → i.pops = n := by
    intro n hn
    simp [Instr.pops, hop, hn]
  have hb : op.pops = none → i.pops = i.b.toInt := by
    intro hn
    simp [Instr.pops, hop, hn]
  have hq : i.pushes = op.pushes := by simp [Instr.pushes, hop]
  have hj : i.isJump = op.isJump := by simp [Instr.isJump, hop]
  have hbelow : ∀ n, op.pops = some n → i.pops.toNat = n := by
    intro n hn
    rw [hp n hn, Int.toNat_natCast]
  cases op with
  | nop | whenStart | doStart =>
    exact .next (.refl f) (hT.refl _) (by simp [hop]) rfl rfl (by rw [hp 0 rfl, hq]; simp [Op.pushes])
      (List.drop_suffix _ _)
  | pushConst =>
    simp only [exec]
    have hpush (v : Value) (heap : Heap) : Moves T i site f s (.next (f.push v) { s with heap := heap }) :=
      .next ⟨rfl, rfl, rfl, rfl⟩ (hT.refl _) (by simp [hop]) rfl rfl
        (by rw [hp 0 rfl, hq]; simp [Fiber.push, Op.pushes])
        (by rw [hbelow 0 rfl]; exact List.suffix_cons _ _)
    split
    · exact .crash
    · split
      · exact hpush _ s.heap
      · split
        · exact hpush _ _
        · exact .crash
  | pop | doEnd =>
    simp only [exec]
    refine moves_withTop fun v rest hstack => ?_
    exact .next ⟨rfl, rfl, rfl, rfl⟩ (hT.refl _) (by simp [hop]) rfl rfl
      (by rw [hp 1 rfl, hq]; simp [hstack, Op.pushes]) (by simp [hbelow 1 rfl, hstack])
  | dup =>
    simp only [exec]
    refine moves_withTop fun v rest hstack => ?_
    exact .next ⟨rfl, rfl, rfl, rfl⟩ (hT.refl _) (by simp [hop]) rfl rfl
      (by rw [hp 1 rfl, hq]; simp [Fiber.push, hstack, Op.pushes]; omega)
      (by rw [hbelow 1 rfl, hstack]; exact (List.suffix_cons _ _).trans (List.suffix_cons _ _))
  | loadVar =>
    exact .next ⟨rfl, rfl, rfl, rfl⟩ (hT.refl _) (by simp [hop]) rfl rfl
      (by rw [hp 0 rfl, hq]; simp [Fiber.push, Op.pushes])
      (by rw [hbelow 0 rfl]; exact List.suffix_cons _ _)
  | storeVar =>
    simp only [exec]
    refine moves_withTop fun v rest hstack => ?_
    exact .next ⟨rfl, rfl, rfl, rfl⟩ (hT.refl _) (by simp [hop]) rfl rfl
      (by rw [hp 1 rfl, hq]; simp [hstack, Op.pushes]) (by simp [hbelow 1 rfl, hstack])
  | jump =>
    refine .jump (f.sameRun_jump _) hj rfl (f.jump_handlers _) ?_ ?_
    · rw [hp 0 rfl, hq, Fiber.jump_stack]
      simp [Op.pushes]
    · rw [Fiber.jump_stack]
      exact List.drop_suffix _ _
  | jumpIfFalse | whenEnd | jumpIfTrue =>
    simp only [exec]
    refine moves_withTop fun v rest hstack => ?_
    have hnext : Moves T i site f s (.next { f with stack := rest } s) :=
      .next ⟨rfl, rfl, rfl, rfl⟩ (hT.refl _) (by simp [hop]) rfl rfl
        (by rw [hp 1 rfl, hq]; simp [hstack, Op.pushes]) (by simp [hbelow 1 rfl, hstack])
    have hjump : Moves T i site f s
        (.next ({ f with stack := rest }.jump (site.pc + i.a.toInt)) s) := by
      have hsame : f.SameRun { f with stack := rest } := ⟨rfl, rfl, rfl, rfl⟩
      refine .jump (hsame.trans (Fiber.sameRun_jump _ _)) hj (Fiber.jump_frames (by rfl) _)
        (Fiber.jump_handlers _ _) ?_ ?_
      · rw [hp 1 rfl, hq, Fiber.jump_stack]
        simp [hstack, Op.pushes]
      · simp [hbelow 1 rfl, hstack]
    split
    · first | exact hnext | exact hjump
    · first | exact hnext | exact hjump
  | call =>
    simp only [exec]
    split
    · exact .raiseNew (.refl f) (hT.refl _) rfl rfl le_rfl (List.drop_suffix _ _)
    · exact .call ⟨rfl, rfl, rfl, rfl⟩ hop rfl rfl rfl
  | ret => exact .ret hop
  | yield => exact .yield hop
  | hostCall =>
    exact moves_withOperands hT hpops (hb rfl) hq fun args g s' same table frames handlers stack hle below =>
      moves_execHostCall hT args same table (by simp [hop]) frames handlers stack hle below
  | hostCallArgs =>
    simp only [exec]
    refine moves_withTop fun v rest hstack => ?_
    refine moves_execHostCall hT v ⟨rfl, rfl, rfl, rfl⟩ (hT.refl _) (by simp [hop]) rfl rfl ?_
      (by simp [hstack]) (by simp [hbelow 1 rfl, hstack])
    rw [hp 1 rfl, hq]
    simp [hstack, Op.pushes]
  | hostCallAsync =>
    exact moves_withOperands hT hpops (hb rfl) hq fun args g s' same table frames handlers stack hle below =>
      moves_execHostCallAsync hT args same table (by simp [hop]) frames handlers stack hle below
  | hostCallArgsAsync =>
    simp only [exec]
    refine moves_withTop fun v rest hstack => ?_
    refine moves_execHostCallAsync hT v ⟨rfl, rfl, rfl, rfl⟩ (hT.refl _) (by simp [hop]) rfl rfl ?_
      (by simp [hstack]) (by simp [hbelow 1 rfl, hstack])
    rw [hp 1 rfl, hq]
    simp [hstack, Op.pushes]
  | await => exact moves_execAwait hT hop
  | «try» => exact .tryStart ⟨rfl, rfl, rfl, rfl⟩ hop rfl rfl rfl
  | endTry => exact .tryEnd ⟨rfl, rfl, rfl, rfl⟩ hop rfl rfl rfl
  | throw =>
    simp only [exec]
    refine moves_withTop fun v rest hstack => ?_
    refine moves_withResult fun r hr => ?_
    obtain ⟨heap, hheap⟩ := stage_thrown hr
    exact .raise ⟨rfl, rfl, rfl, rfl⟩ (hheap ▸ hT.refl _) rfl rfl (by simp [hstack])
      (by simp [hbelow 1 rfl, hstack])
  | mapNew =>
    simp only [exec]
    split
    · exact .crash
    · exact .next ⟨rfl, rfl, rfl, rfl⟩ (hT.refl _) (by simp [hop]) rfl rfl
        (by rw [hp 0 rfl, hq]; simp [Fiber.push, Op.pushes])
        (by rw [hbelow 0 rfl]; exact List.suffix_cons _ _)
  | mapSet =>
    simp only [exec]
    refine moves_withTop fun v rest hstack => moves_withTop fun key rest' hrest => ?_
    exact moves_execMapSet hT hop fr key v rest' (by rw [hstack]; exact congrArg _ hrest)
  | getField =>
    simp only [exec]
    refine moves_withTop fun name rest hstack => moves_withTop fun obj rest' hrest => ?_
    obtain rfl : rest = obj :: rest' := hrest
    have hrest : f.stack.drop i.pops.toNat = rest' := by simp [hbelow 2 rfl, hstack]
    split
    · refine moves_withResult fun fault _ => ?_
      exact .raiseNew ⟨rfl, rfl, rfl, rfl⟩ (hT.refl _) rfl rfl (by simp [hstack]; omega) (by simp [hrest])
    · refine moves_withResult fun r hr => ?_
      have htable := hT.getField hr
      obtain ⟨fault | answer, t⟩ := r
      · exact .raiseNew ⟨rfl, rfl, rfl, rfl⟩ htable rfl rfl (by simp [hstack]; omega) (by simp [hrest])
      · exact .next ⟨rfl, rfl, rfl, rfl⟩ htable (by simp [hop]) rfl rfl
          (by rw [hp 2 rfl, hq]; simp [Fiber.push, hstack, Op.pushes]; omega)
          (by rw [hrest]; exact List.suffix_cons _ _)
  | setField =>
    simp only [exec]
    refine moves_withTop fun v rest hstack => moves_withTop fun name rest' hrest =>
      moves_withTop fun obj rest'' hrest' => ?_
    obtain rfl : rest = name :: rest' := hrest
    obtain rfl : rest' = obj :: rest'' := hrest'
    have hrest : f.stack.drop i.pops.toNat = rest'' := by simp [hbelow 3 rfl, hstack]
    split
    · refine moves_withResult fun fault _ => ?_
      exact .raiseNew ⟨rfl, rfl, rfl, rfl⟩ (hT.refl _) rfl rfl (by simp [hstack]; omega) (by simp [hrest])
    · refine moves_withResult fun r hr => ?_
      have htable := hT.setField hr
      obtain ⟨fault | answer, t⟩ := r
      · exact .raiseNew ⟨rfl, rfl, rfl, rfl⟩ htable rfl rfl (by simp [hstack]; omega) (by simp [hrest])
      · exact .next ⟨rfl, rfl, rfl, rfl⟩ htable (by simp [hop]) rfl rfl
          (by rw [hp 3 rfl, hq]; simp [Fiber.push, hstack, Op.pushes]; omega)
          (by rw [hrest]; exact List.suffix_cons _ _)

/-- What a whole step can do: it fails its guards, or executes an instruction. -/
theorem step_moves [Host H] (hT : m.Keeps f.id T) (fr : Frame) :
    Moves T i ⟨fr.func, fr.pc⟩ (f.jump (fr.pc + 1)) s (step m fr i f s) := by
  have hid : m.Keeps (f.jump (fr.pc + 1)).id T := by
    rw [(f.sameRun_jump _).id]
    exact hT
  unfold step
  dsimp only
  split
  · exact .raiseNew (.refl _) (hT.refl _) rfl rfl le_rfl (List.drop_suffix _ _)
  · rename_i hcheck
    split
    · rename_i op hop
      refine exec_moves hid hop fr ?_
      by_contra hlt
      have hlow : (f.stack.length : Int) - fr.base < i.pops := by
        rw [Fiber.jump_stack] at hlt
        omega
      simp [Machine.checkStack, hlow] at hcheck
    · exact .raiseNew (.refl _) (hT.refl _) rfl rfl le_rfl (List.drop_suffix _ _)

end

/-! ## Going on -/

/-- What a fiber keeps while it runs; its state changes only when it leaves its last call. -/
structure Fiber.Continues (f g : Fiber) : Prop where
  id : g.id = f.id
  awaiting : g.awaiting = f.awaiting
  state : g.frames ≠ [] → g.state = f.state
  entry : g.entry = f.entry

theorem Fiber.SameRun.continues {f g : Fiber} (h : f.SameRun g) : f.Continues g :=
  ⟨h.id, h.awaiting, fun _ => h.state, h.entry⟩

theorem Fiber.continues_ret (f : Fiber) : f.Continues f.ret := by
  unfold ret
  split
  · exact (SameRun.refl f).continues
  · dsimp only
    split
    · exact ⟨rfl, rfl, fun hne => absurd rfl hne, rfl⟩
    · exact ⟨rfl, rfl, fun _ => rfl, rfl⟩

theorem Fiber.sameRun_unwind {f : Fiber} {h : Handler} {hs : List Handler} (hh : f.handlers = h :: hs)
    (fault : Nat) : f.SameRun (f.unwind fault) := by
  unfold unwind
  rw [hh]
  exact ⟨(sameRun_jump _ _).id, (sameRun_jump _ _).state, (sameRun_jump _ _).awaiting,
    (sameRun_jump _ _).entry⟩

section

variable {T : HandleTable → HandleTable → Prop} {i : Instr} {site : Site} {f g : Fiber} {s t : Stage H}

/-- A raised fault ends the fiber, or it goes on in a `try` region. -/
theorem raise_cases (f : Fiber) (s : Stage H) (fault : Nat) (site : Site) :
    ∃ g t, t.handles = s.handles ∧
      (raise f s fault site = .next g t ∧ f.SameRun g ∨
        raise f s fault site = .stop .fault g t ∧ g.id = f.id ∧ g.awaiting = f.awaiting ∧
          g.state = .fault ∧ g.entry = f.entry) := by
  let s' : Stage H :=
    { s with heap := s.heap.setFault fault ((s.heap.fault fault).raisedAt site f.trace) }
  refine ⟨f.unwind fault, s', rfl, ?_⟩
  unfold raise
  dsimp only
  cases hh : f.handlers with
  | nil =>
    right
    simp [Fiber.unwind, hh, s']
  | cons h hs =>
    left
    exact ⟨rfl, Fiber.sameRun_unwind hh fault⟩

/-- What an instruction after which the fiber goes on has done. -/
theorem Moves.continues (h : Moves T i site f s (.next g t)) : f.Continues g := by
  generalize ho : Outcome.next g t = o at h
  cases h with
  | next same | jump same | call same | tryStart same | tryEnd same =>
    cases ho
    exact same.continues
  | ret op =>
    cases ho
    exact f.continues_ret
  | @raise g' s' fault same =>
    obtain ⟨x, u, -, ⟨hnext, hx⟩ | ⟨hstop, -⟩⟩ := raise_cases g' s' fault site
    · rw [hnext] at ho
      cases ho
      exact (same.trans hx).continues
    · rw [hstop] at ho
      cases ho
  | park | yield | crash => cases ho

theorem Moves.table_of_next (hrefl : ∀ t, T t t) (h : Moves T i site f s (.next g t)) :
    T s.handles t.handles := by
  generalize ho : Outcome.next g t = o at h
  cases h with
  | next _ table =>
    cases ho
    exact table
  | jump | call | ret | tryStart | tryEnd =>
    cases ho
    exact hrefl _
  | @raise g' s' fault same table =>
    obtain ⟨x, u, hu, ⟨hnext, -⟩ | ⟨hstop, -⟩⟩ := raise_cases g' s' fault site
    · rw [hnext] at ho
      cases ho
      rw [hu]
      exact table
    · rw [hstop] at ho
      cases ho
  | park | yield | crash => cases ho

theorem Moves.table_of_fault (h : Moves T i site f s (.stop .fault g t)) : T s.handles t.handles := by
  generalize ho : Outcome.stop .fault g t = o at h
  cases h with
  | @raise g' s' fault same table =>
    obtain ⟨x, u, hu, ⟨hnext, -⟩ | ⟨hstop, -⟩⟩ := raise_cases g' s' fault site
    · rw [hnext] at ho
      cases ho
    · rw [hstop] at ho
      cases ho
      rw [hu]
      exact table
  | _ => cases ho

end

end TileMind
