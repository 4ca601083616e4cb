import TileMind.Proofs.Brain.Locals
import TileMind.Proofs.Value.Containment

/-!
# TileMind.Proofs.Brain.Holdings

What is held outside of objects: by variables and by handles. Host code may hand over what is new or what is
held already, so it takes part in no loop of objects.

* `Stage.Holds`: the values that variables and handles hold.
* `Stage.Tidy`: objects are in order, and so is what is held.
* `Stage.Grows`: what host code may do to a stage.
* `Services.Fresh`: host functions that do so. `Core.fresh_services` and `Builtins.fresh_install` are about those
  of every brain.
-/

namespace TileMind

variable {W : Type}

/-! ## Variables -/

namespace Mind

def Holds (m : Mind W) (v : Value) : Prop :=
  (∃ e ∈ m.globals.entries, e.2 = v) ∨ ∃ r ∈ m.rules.entries, ∃ e ∈ r.2.locals.entries, e.2 = v

section

variable {m m' : Mind W} {P : Value → Prop}

theorem forall_holds : (∀ v, m.Holds v → P v) ↔
    (∀ e ∈ m.globals.entries, P e.2) ∧ ∀ r ∈ m.rules.entries, ∀ e ∈ r.2.locals.entries, P e.2 := by
  constructor
  · intro h
    exact ⟨fun e he => h _ (.inl ⟨e, he, rfl⟩), fun r hr e he => h _ (.inr ⟨r, hr, e, he, rfl⟩)⟩
  · rintro ⟨hglobals, hrules⟩ v (⟨e, he, rfl⟩ | ⟨r, hr, e, he, rfl⟩)
    · exact hglobals e he
    · exact hrules r hr e he

theorem Holds.congr {v : Value} (h : m'.Holds v) (globals : m'.globals = m.globals) (rules : m'.rules = m.rules) :
    m.Holds v := by
  rwa [Holds, globals, rules] at h

theorem forall_updateCells (h : ∀ v, m.Holds v → P v) {f : Cells Value → Cells Value}
    (hf : ∀ c : Cells Value, (∀ e ∈ c.entries, P e.2) → ∀ e ∈ (f c).entries, P e.2) (func var : Int) :
    ∀ v, (m.updateCells func var f).Holds v → P v := by
  rw [forall_holds] at h ⊢
  unfold updateCells
  split
  · refine ⟨h.1, Cells.forall_modify (P := fun r : RuleState => ∀ e ∈ r.locals.entries, P e.2) h.2 ?_ _⟩
    exact fun r hr => hf _ hr
  · exact ⟨hf _ h.1, h.2⟩

theorem forall_store (h : ∀ v, m.Holds v → P v) {v : Value} (hv : P v) (func var : Int) :
    ∀ w, (m.store func var v).Holds w → P w :=
  forall_updateCells h (fun _ hc => Cells.forall_set hc hv var) func var

theorem forall_setGlobal? (h : ∀ v, m.Holds v → P v) {name : String} {v : Value} (hv : P v)
    (hset : m.setGlobal? name v = some m') : ∀ w, m'.Holds w → P w := by
  obtain ⟨i, -, rfl⟩ := Option.map_eq_some_iff.mp hset
  rw [forall_holds] at h ⊢
  exact ⟨Cells.forall_set h.1 hv _, h.2⟩

/-- What is read is held, or nil. -/
theorem of_load (h : ∀ v, m.Holds v → P v) (hnil : P .nil) (func var : Int) : P (m.load func var) := by
  rw [forall_holds] at h
  unfold load
  cases hv : (m.cells func var).get? var with
  | none => exact hnil
  | some v =>
    unfold cells at hv
    split at hv
    · rename_i rule _
      cases hr : m.rules.get? rule with
      | none =>
        rw [hr] at hv
        cases hv
      | some r =>
        rw [hr] at hv
        exact Cells.of_get? (Cells.of_get? (P := fun r : RuleState => ∀ e ∈ r.locals.entries, P e.2) h.2 hr) hv
    · exact Cells.of_get? h.1 hv

theorem not_holds_rulesOf (p : Program) {m : Mind W} (hrules : m.rules = rulesOf p) (hglobals : m.globals = {})
    (v : Value) : ¬ m.Holds v := by
  let Bare (c : Cells RuleState) : Prop := ∀ r ∈ c.entries, ∀ e ∈ r.2.locals.entries, False
  have hset {c : Cells RuleState} (hc : Bare c) (i : Int) (info : RuleInfo) : Bare (c.set i { info := info }) :=
    Cells.forall_set (P := fun r : RuleState => ∀ e ∈ r.locals.entries, False) hc (by simp) i
  have hmodify {c : Cells RuleState} (hc : Bare c) (i : Int) {f : RuleState → RuleState}
      (hf : ∀ r, (f r).locals = r.locals) : Bare (c.modify i f) :=
    Cells.forall_modify (P := fun r : RuleState => ∀ e ∈ r.locals.entries, False) hc
      (fun r hr => by rw [hf]; exact hr) i
  have hbare : Bare (rulesOf p) := by
    unfold rulesOf
    refine List.foldlRecOn _ _ (List.foldlRecOn _ _ (List.foldlRecOn _ _ (by simp [Bare]) ?_) ?_) ?_
    · exact fun c hc r _ => hset hc _ _
    · intro c hc r _
      split
      · exact hc
      · refine hmodify (hmodify hc _ ?_) _ ?_ <;> exact fun _ => rfl
    · rintro c hc ⟨page, i⟩ -
      refine List.foldlRecOn _ _ hc fun c hc fn _ => ?_
      split
      · exact hc
      · exact hset hc _ _
  rintro (⟨e, he, -⟩ | ⟨r, hr, e, he, -⟩)
  · rw [hglobals] at he
    cases he
  · rw [hrules] at hr
    exact hbare r hr e he

end

end Mind

/-! ## Handles -/

namespace HandleTable

/-- The handles of a table hold values that are as `P` says. -/
def Carries (t : HandleTable) (P : Value → Prop) : Prop := ∀ h ∈ t.handles, P h.result

section

variable {t u : HandleTable} {P : Value → Prop}

theorem Carries.update (ht : t.Carries P) (k : Int) {f : Handle → Handle}
    (hf : ∀ h : Handle, P h.result → P (f h).result) : (t.update k f).Carries P := by
  refine List.forall_mem_map.mpr fun h hh => ?_
  split
  · exact hf h (ht h hh)
  · exact ht h hh

theorem Carries.erase (ht : t.Carries P) (k : Int) : (t.erase k).Carries P :=
  fun h hh => ht h (List.mem_of_mem_filter hh)

theorem Carries.create (ht : t.Carries P) (hunknown : P .unknown) {owner : Int} {id : Nat}
    (h : t.create? owner = some (id, u)) : u.Carries P := by
  obtain ⟨-, -, rfl⟩ := create?_eq_some h
  exact List.forall_mem_append.mpr ⟨ht, List.forall_mem_singleton.mpr hunknown⟩

theorem Carries.complete (ht : t.Carries P) {k : Int} {state : HandleState} {v : Value} (hv : P v)
    {fault : Option Nat} (h : t.complete k state v fault = .ok u) : u.Carries P := by
  unfold HandleTable.complete at h
  repeat' split at h
  all_goals cases h
  · exact ht.erase k
  · exact ht.update k fun _ _ => hv

theorem Carries.consume (ht : t.Carries P) (k : Int) (fiber : Nat) : (t.consume k fiber).Carries P := by
  have hleft : (t.update k fun h => h.removeWaiter fiber).Carries P := ht.update k fun _ hh => hh
  unfold HandleTable.consume
  dsimp only
  repeat' split
  · exact hleft.erase k
  · exact hleft
  · exact hleft

theorem Carries.releaseOne (ht : t.Carries P) (fiber k : Nat) : (releaseOne fiber t k).Carries P := by
  unfold HandleTable.releaseOne
  split
  · exact ht
  · rename_i h hfound
    have hresult : P h.result := ht h (mem_of_get? hfound).1
    split
    · exact ht
    · dsimp only
      split
      · exact ht.erase _
      · exact ht.update _ fun _ _ => hresult

theorem Carries.release (ht : t.Carries P) (fiber : Nat) (ids : List Nat) : (t.release fiber ids).Carries P :=
  List.foldlRecOn (motive := fun u : HandleTable => u.Carries P) ids (HandleTable.releaseOne fiber) ht
    fun _ hu id _ => hu.releaseOne fiber id

end

end HandleTable

/-! ## Stages -/

namespace Stage

/-- Some variable or handle holds the value. -/
def Holds (s : Stage (Mind W)) (v : Value) : Prop := s.host.Holds v ∨ ∃ h ∈ s.handles.handles, h.result = v

/-- A value that host code may hand over, or store, on the way from `s` to `t`: it is new, or held by a
variable, a handle or an object. -/
def Offers (s t : Stage (Mind W)) (v : Value) : Prop :=
  s.heap.Fresh t.heap v ∨ s.Holds v ∨ ∃ x, v ∈ s.heap.parts x

/-- What host code may do to a stage. -/
structure Grows (s t : Stage (Mind W)) : Prop where
  heap : s.heap.Grown t.heap
  held : ∀ v, t.Holds v → s.Offers t v

/-- Objects are in order, and what is held may be held anywhere. -/
structure Tidy (s : Stage (Mind W)) (args : Set Nat) : Prop where
  heap : s.heap.Tidy args
  host : ∀ v, s.host.Holds v → s.heap.Common args v
  handles : s.handles.Carries (s.heap.Common args)

section

variable {s t : Stage (Mind W)} {args args' : Set Nat} {v : Value}

theorem offers_of_ref? (hv : v.ref? = none) : s.Offers t v := .inl (Heap.fresh_of_ref? hv)

theorem Grows.refl (s : Stage (Mind W)) : s.Grows s := ⟨.refl _, fun _ hv => .inr (.inl hv)⟩

theorem grows_of_eq (hheap : t.heap = s.heap) (hglobals : t.host.globals = s.host.globals)
    (hrules : t.host.rules = s.host.rules) (hhandles : t.handles = s.handles) : s.Grows t := by
  refine ⟨by rw [hheap]; exact .refl _, fun v hv => .inr (.inl ?_)⟩
  rcases hv with hv | hv
  · exact .inl (hv.congr hglobals hrules)
  · rw [hhandles] at hv
    exact .inr hv

theorem Tidy.common (hs : s.Tidy args) (hv : s.Holds v) : s.heap.Common args v := by
  rcases hv with hv | ⟨h, hh, rfl⟩
  · exact hs.host v hv
  · exact hs.handles h hh

theorem Tidy.offers (hs : s.Tidy args) (hgrown : s.heap.Grown t.heap) (hv : s.Offers t v) :
    t.heap.Common args v := by
  rcases hv with hnew | hheld | ⟨x, hx⟩
  · exact hnew.common hs.heap
  · exact (hs.common hheld).later hgrown.later
  · exact (hs.heap.parts x v hx).later hgrown.later

theorem Tidy.grows (hs : s.Tidy args) (h : s.Grows t) : t.Tidy args :=
  ⟨hs.heap.grown h.heap, fun v hv => hs.offers h.heap (h.held v (.inl hv)),
    fun x hx => hs.offers h.heap (h.held _ (.inr ⟨x, hx, rfl⟩))⟩

theorem Tidy.setHeap (hs : s.Tidy args) {heap : Heap} (hheap : heap.Tidy args')
    (hlater : s.heap.Later args heap args') : Stage.Tidy { s with heap := heap } args' :=
  ⟨hheap, fun v hv => (hs.host v hv).later hlater, fun h hh => (hs.handles h hh).later hlater⟩

theorem Tidy.setHandles (hs : s.Tidy args) {table : HandleTable} (h : table.Carries (s.heap.Common args)) :
    Stage.Tidy { s with handles := table } args := ⟨hs.heap, hs.host, h⟩

theorem Tidy.setHost (hs : s.Tidy args) {m : Mind W} (hm : ∀ v, m.Holds v → s.heap.Common args v) :
    Stage.Tidy { s with host := m } args := ⟨hs.heap, hm, hs.handles⟩

theorem Tidy.faults (hs : s.Tidy args) (faults : Array Fault) :
    Stage.Tidy { s with heap := { s.heap with faults := faults } } args :=
  hs.setHeap (hs.heap.faults faults) (Heap.later_faults _ _ _)

theorem Tidy.resolve (hs : s.Tidy args) (hv : s.heap.Common args v) (id : Int) :
    (s.resolve id v).Tidy args := by
  unfold Stage.resolve
  split
  · rename_i table htable
    exact hs.setHandles (hs.handles.complete hv htable)
  · exact hs

theorem Tidy.reject (hs : s.Tidy args) (id : Int) (fault : Option Nat) : (s.reject id fault).Tidy args := by
  unfold Stage.reject
  split
  · rename_i table htable
    exact hs.setHandles (hs.handles.complete (Heap.common_of_ref? rfl) htable)
  · exact hs

theorem Tidy.cancel (hs : s.Tidy args) {id : Int} (h : s.cancel id = .ok t) : t.Tidy args := by
  have hfault := hs.faults (s.heap.faults.push (cancelledHandle id))
  unfold Stage.cancel at h
  dsimp only at h
  cases hcancel : (s.newFault (cancelledHandle id)).2.handles.cancel id (s.newFault (cancelledHandle id)).1 with
  | error e =>
    rw [hcancel] at h
    cases h
  | ok table =>
    rw [hcancel] at h
    cases h
    exact hfault.setHandles (hfault.handles.complete (Heap.common_of_ref? rfl) hcancel)

theorem heap_resolve (s : Stage (Mind W)) (id : Int) (v : Value) : (s.resolve id v).heap = s.heap := by
  unfold Stage.resolve
  split <;> rfl

theorem heap_reject (s : Stage (Mind W)) (id : Int) (fault : Option Nat) :
    (s.reject id fault).heap = s.heap := by
  unfold Stage.reject
  split <;> rfl

theorem heap_cancel {id : Int} (h : s.cancel id = .ok t) : ∃ faults, t.heap = { s.heap with faults := faults } := by
  unfold Stage.cancel at h
  dsimp only at h
  cases hcancel : (s.newFault (cancelledHandle id)).2.handles.cancel id (s.newFault (cancelledHandle id)).1 with
  | error e =>
    rw [hcancel] at h
    cases h
  | ok table =>
    rw [hcancel] at h
    cases h
    exact ⟨_, rfl⟩

end

end Stage

/-! ## Host functions -/

/-- A host function that hands over what is new or held already, and stores nothing else. -/
structure HostFunction.Fresh (f : HostFunction (Stage (Mind W))) : Prop where
  sync : ∀ {call}, f.sync = some call → ∀ c args (s : Stage (Mind W)), s.Grows (call c args s).2 ∧
    ∀ v, (call c args s).1 = .ok v → s.Offers (call c args s).2 v
  async : ∀ {call}, f.async = some call → ∀ c args handle (s : Stage (Mind W)),
    s.Grows (call c args handle s).2
  onPage : ∀ {hook}, f.onPage = some hook → ∀ c (s : Stage (Mind W)), s.Grows (hook c s)

structure Services.Fresh (svc : Services (Stage (Mind W))) : Prop where
  functions : ∀ f ∈ svc.functions.list, f.Fresh
  hooks : ∀ d ∈ svc.types.types, ∀ hooks, d.hooks = some hooks →
    (∀ get, hooks.get = some get → ∀ {obj field} {s : Stage (Mind W)} {answer t},
      get obj field s = .ok (answer, t) → s.Grows t ∧ ∀ v, answer = some v → s.Offers t v) ∧
    ∀ set, hooks.set = some set → ∀ {obj field v} {s : Stage (Mind W)} {handled t},
      set obj field v s = .ok (handled, t) → s.Grows t

section

variable {m : Machine (Mind W)} {svc svc' : Services (Stage (Mind W))}

theorem Services.Fresh.function (h : svc.Fresh) {fn : Int} {f : HostFunction (Stage (Mind W))}
    (hf : svc.functions.get? fn = some f) : f.Fresh :=
  h.functions f (Functions.mem_of_get? hf)

theorem Services.Fresh.get (h : m.services.Fresh) {type : TypeId} {get} (hget : (m.hooks type).get = some get)
    {obj : Value} {field : String} {s t : Stage (Mind W)} {answer : Option Value}
    (hr : get obj field s = .ok (answer, t)) : s.Grows t ∧ ∀ v, answer = some v → s.Offers t v := by
  rcases m.hooks_cases type with hnone | ⟨d, hd, hooks, hhooks, heq⟩
  · rw [hnone] at hget
    cases hget
  · rw [heq] at hget
    exact (h.hooks d hd hooks hhooks).1 get hget hr

theorem Services.Fresh.set (h : m.services.Fresh) {type : TypeId} {set} (hset : (m.hooks type).set = some set)
    {obj : Value} {field : String} {v : Value} {s t : Stage (Mind W)} {handled : Bool}
    (hr : set obj field v s = .ok (handled, t)) : s.Grows t := by
  rcases m.hooks_cases type with hnone | ⟨d, hd, hooks, hhooks, heq⟩
  · rw [hnone] at hset
    cases hset
  · rw [heq] at hset
    exact (h.hooks d hd hooks hhooks).2 set hset hr

/-- What a primitive of the core computes refers to no object. -/
theorem Core.bare_primitives : ∀ p ∈ primitives, ∀ h args v, p.compute h args = .ok v → v.ref? = none := by
  have hone {α : Type} {expected : String} {read : Value → Option α} {f : α → Value}
      (hf : ∀ a, (f a).ref? = none) (h : Heap) (args v : Value) (hv : unary expected read f h args = .ok v) :
      v.ref? = none := by
    unfold unary at hv
    dsimp only at hv
    split at hv <;> cases hv
    exact hf _
  have htwo {α : Type} {expected : String} {read : Value → Option α} {f : α → α → Value}
      (hf : ∀ a b, (f a b).ref? = none) (h : Heap) (args v : Value)
      (hv : binary expected read f h args = .ok v) : v.ref? = none := by
    unfold binary at hv
    dsimp only at hv
    split at hv <;> cases hv
    exact hf _ _
  have hquotient (f : Float → Float → Float) (a b : Float) : (quotient f a b).ref? = none := by
    unfold quotient
    split <;> rfl
  unfold primitives
  repeat' refine List.forall_mem_cons.mpr ⟨?_, ?_⟩
  all_goals first
    | exact htwo fun _ _ => rfl
    | exact hone fun _ => rfl
    | exact htwo fun a b => hquotient _ a b
    | simp

theorem Core.fresh_primitive {name : String} {f : Heap → Value → Except Mismatch Value}
    (hf : ∀ h args v, f h args = .ok v → v.ref? = none) :
    (primitive name f : HostFunction (Stage (Mind W))).Fresh := by
  refine ⟨?_, nofun, nofun⟩
  rintro _ ⟨⟩ c args s
  dsimp only
  split
  · rename_i v hv
    refine ⟨.refl s, fun w hw => ?_⟩
    cases hw
    exact Stage.offers_of_ref? (hf _ _ _ hv)
  · exact ⟨.refl s, fun v hv => absurd hv (Reply.refuse_ne_ok _ v)⟩

/-- Operators and conversions give numbers, texts and booleans. -/
theorem Core.fresh_services : (services : Services (Stage (Mind W))).Fresh := by
  obtain ⟨hfunctions, htypes⟩ := forall_installed (W := W) (P := HostFunction.Fresh)
    fun p hp => fresh_primitive (bare_primitives p hp)
  refine ⟨hfunctions, fun d hd hooks hhooks => ?_⟩
  rw [htypes d hd] at hhooks
  cases hhooks

theorem Builtins.fresh_functions (f : HostFunction (Stage (Mind W))) (hf : f ∈ functions) : f.Fresh := by
  have hsite (s : Stage (Mind W)) (site : Int) (state : Option SiteState) :
      s.Grows { s with host := Host.setSiteState s.host site state } := by
    cases state <;> exact Stage.grows_of_eq rfl rfl rfl rfl
  simp only [functions, List.mem_cons, List.not_mem_nil, or_false] at hf
  rcases hf with rfl | rfl | rfl | rfl | rfl
  · refine ⟨?_, (fun h => by cases h), fun h => by cases h⟩
    rintro _ ⟨⟩ c args s
    dsimp only
    split
    · exact ⟨.refl s, fun v hv => absurd hv (Reply.refuse_ne_ok _ v)⟩
    · rename_i key _
      have hsame : (s.host.requestPage key).2.globals = s.host.globals ∧
          (s.host.requestPage key).2.rules = s.host.rules := by
        unfold Mind.requestPage
        split <;> exact ⟨rfl, rfl⟩
      split
      · rename_i host hrequest
        rw [show s.host.requestPage key = _ from hrequest] at hsame
        refine ⟨Stage.grows_of_eq rfl hsame.1 hsame.2 rfl, fun v hv => ?_⟩
        cases hv
        exact Stage.offers_of_ref? rfl
      · rename_i refusal host hrequest
        rw [show s.host.requestPage key = _ from hrequest] at hsame
        exact ⟨Stage.grows_of_eq rfl hsame.1 hsame.2 rfl, fun _ h => by cases h⟩
  · refine ⟨?_, (fun h => by cases h), fun h => by cases h⟩
    rintro _ ⟨⟩ c args s
    exact ⟨.refl s, by rintro _ ⟨⟩; exact Stage.offers_of_ref? rfl⟩
  · refine ⟨?_, (fun h => by cases h), fun h => by cases h⟩
    rintro _ ⟨⟩ c args s
    exact ⟨.refl s, by rintro _ ⟨⟩; exact Stage.offers_of_ref? rfl⟩
  · refine ⟨?_, (fun h => by cases h), ?_⟩
    · rintro _ ⟨⟩ c args s
      dsimp only
      split
      · exact ⟨.refl s, fun v hv => absurd hv (Reply.refuse_ne_ok _ v)⟩
      · exact ⟨hsite _ _ _, by rintro _ ⟨⟩; exact Stage.offers_of_ref? rfl⟩
    · rintro _ ⟨⟩ c s
      exact hsite _ _ _
  · refine ⟨(fun h => by cases h), ?_, fun h => by cases h⟩
    rintro _ ⟨⟩ c args handle s
    dsimp only
    split
    · exact .refl s
    · exact Stage.grows_of_eq rfl rfl rfl rfl

/-- The tiles that every brain has make no objects. -/
theorem Builtins.fresh_install (h : svc.Fresh) {catalog catalog' : Catalog}
    (hinstall : install svc catalog = .ok (svc', catalog')) : svc'.Fresh := by
  obtain ⟨hfunctions, htypes⟩ := forall_install h.functions fresh_functions hinstall
  refine ⟨hfunctions, ?_⟩
  rw [htypes]
  exact h.hooks

end

end TileMind
