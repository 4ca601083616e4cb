import Mathlib.Data.List.Nodup
import TileMind.Machine.Handles

/-!
# TileMind.Proofs.Machine.Handles

Changes of the handle table. Whatever the host, a running fiber or the scheduler does to the table is
a sequence of `Change`s, so what each of them respects holds of all (`Evolves`).

* `Evolves.sound`: the table stays well formed.
* `Evolves.waits`: a fiber that waits for a pending handle, and is not itself at work, still waits
  afterwards, or the handle was answered exactly once, is there with that answer, and the fiber is
  called.
* `Evolves.answered`: an answer stays as it is for as long as a fiber has still to read it.
-/

namespace TileMind

/-- How a handle is completed: with a value or with a fault, which may be missing when it is rejected. -/
inductive Answer where
  | resolved (v : Value)
  | rejected (fault : Option Nat)
  | cancelled (fault : Nat)
deriving DecidableEq, Repr

namespace Answer

def state : Answer → HandleState
  | .resolved _ => .resolved
  | .rejected _ => .rejected
  | .cancelled _ => .cancelled

def result : Answer → Value
  | .resolved v => v
  | .rejected _ | .cancelled _ => .nil

def fault : Answer → Option Nat
  | .resolved _ => none
  | .rejected fault => fault
  | .cancelled ref => some ref

end Answer

structure Handle.Shows (h : Handle) (a : Answer) : Prop where
  state : h.state = a.state
  result : h.result = a.result
  fault : h.fault = a.fault

def Handle.answered (h : Handle) (a : Answer) : Handle :=
  { h with state := a.state, result := a.result, fault := a.fault }

theorem Handle.shows_answered (h : Handle) (a : Answer) : (h.answered a).Shows a := ⟨rfl, rfl, rfl⟩

theorem Handle.Shows.isDone {h : Handle} {a : Answer} (hs : h.Shows a) : h.isDone = true := by
  rw [Handle.isDone, hs.state]
  cases a <;> rfl

/-- The handle `h` is completed as `g` is, or like it not at all. -/
structure Handle.SameAnswer (g h : Handle) : Prop where
  state : h.state = g.state
  result : h.result = g.result
  fault : h.fault = g.fault

theorem Handle.Shows.of_sameAnswer {g h : Handle} {a : Answer} (hg : g.Shows a)
    (hsame : g.SameAnswer h) : h.Shows a :=
  ⟨hsame.state.trans hg.state, hsame.result.trans hg.result, hsame.fault.trans hg.fault⟩

namespace HandleTable

def answer (t : HandleTable) (handle : Int) : Answer → Except HandleError HandleTable
  | .resolved v => t.resolve handle v
  | .rejected ref => t.reject handle ref
  | .cancelled ref => t.cancel handle ref

theorem answer_eq (t : HandleTable) (handle : Int) (a : Answer) :
    t.answer handle a = t.complete handle a.state a.result a.fault := by
  cases a <;> rfl

/-! ## Lookup -/

section

variable {t u : HandleTable} {k id : Int} {h : Handle}

theorem mem_of_get? (hk : t.get? k = some h) : h ∈ t.handles ∧ (h.id : Int) = k :=
  ⟨List.mem_of_find?_eq_some hk, by simpa using List.find?_some hk⟩

theorem get?_eq_none_iff {id : Nat} : t.get? id = none ↔ id ∉ t.handles.map Handle.id := by
  simp only [get?, List.find?_eq_none, decide_eq_true_eq, Int.ofNat_inj, List.mem_map, not_exists, not_and]

theorem get?_update (t : HandleTable) (id k : Int) {f : Handle → Handle}
    (hf : ∀ h : Handle, (h.id : Int) = id → (f h).id = h.id) :
    (t.update id f).get? k = if k = id then (t.get? k).map f else t.get? k := by
  unfold update get?
  dsimp only
  induction t.handles with
  | nil => simp
  | cons h rest ih =>
    rw [List.map_cons, List.find?_cons, List.find?_cons]
    have hid : (if (h.id : Int) = id then f h else h).id = h.id := by
      split
      · rename_i heq
        exact hf h heq
      · rfl
    rw [hid]
    by_cases hk : (h.id : Int) = k
    · simp only [hk, decide_true]
      split <;> simp_all
    · simp only [hk, decide_false]
      exact ih

theorem get?_answered (t : HandleTable) (id k : Int) (a : Answer) :
    (t.update id fun h => h.answered a).get? k =
      if k = id then (t.get? k).map fun h => h.answered a else t.get? k :=
  t.get?_update id k fun _ _ => rfl

theorem get?_removeWaiter (t : HandleTable) (id k : Int) (fiber : Nat) :
    (t.update id fun h => h.removeWaiter fiber).get? k =
      if k = id then (t.get? k).map fun h => h.removeWaiter fiber else t.get? k :=
  t.get?_update id k fun _ _ => rfl

theorem get?_addWaiter (t : HandleTable) (id k : Int) (fiber : Nat) :
    (t.update id fun h => h.addWaiter fiber).get? k =
      if k = id then (t.get? k).map fun h => h.addWaiter fiber else t.get? k := by
  refine t.get?_update id k fun h _ => ?_
  unfold Handle.addWaiter
  split <;> rfl

theorem get?_erase (t : HandleTable) (id k : Int) :
    (t.erase id).get? k = if k = id then none else t.get? k := by
  unfold erase get?
  dsimp only
  rw [List.find?_filter]
  split
  · rename_i hk
    subst hk
    simp
  · rename_i hk
    congr 1
    funext h
    by_cases hid : (h.id : Int) = k <;> simp [hid, hk]

theorem get?_of_mem (hids : (t.handles.map Handle.id).Nodup) (hh : h ∈ t.handles) :
    t.get? h.id = some h := by
  cases hk : t.get? h.id with
  | none =>
    have hnone := List.find?_eq_none.mp hk h hh
    simp at hnone
  | some g =>
    obtain ⟨hg, hid⟩ := mem_of_get? hk
    rw [List.inj_on_of_nodup_map hids hg hh (by omega)]

theorem mem_update {f : Handle → Handle} (hh : h ∈ (t.update k f).handles) :
    ∃ g ∈ t.handles, (g.id : Int) = k ∧ h = f g ∨ (g.id : Int) ≠ k ∧ h = g := by
  obtain ⟨g, hg, rfl⟩ := List.mem_map.mp hh
  refine ⟨g, hg, ?_⟩
  split
  · rename_i hid
    exact .inl ⟨hid, rfl⟩
  · rename_i hid
    exact .inr ⟨hid, rfl⟩

theorem mem_erase (hh : h ∈ (t.erase k).handles) : h ∈ t.handles ∧ (h.id : Int) ≠ k := by
  obtain ⟨hmem, hid⟩ := List.mem_filter.mp hh
  exact ⟨hmem, by simpa using hid⟩

theorem ids_update (t : HandleTable) {f : Handle → Handle}
    (hid : ∀ h : Handle, (h.id : Int) = k → (f h).id = h.id) :
    (t.update k f).handles.map Handle.id = t.handles.map Handle.id := by
  rw [update, List.map_map]
  refine List.map_congr_left fun h _ => ?_
  simp only [Function.comp]
  split
  · rename_i heq
    exact hid h heq
  · rfl

theorem erase_update (t : HandleTable) {f : Handle → Handle}
    (hid : ∀ h : Handle, (h.id : Int) = k → (f h).id = h.id) : (t.update k f).erase k = t.erase k := by
  simp only [HandleTable.erase, HandleTable.update]
  congr 1
  induction t.handles with
  | nil => rfl
  | cons h rest ih =>
    rw [List.map_cons, List.filter_cons, List.filter_cons, ih]
    by_cases heq : (h.id : Int) = k
    · simp [heq, hid h heq]
    · simp [heq]

theorem consume_eq (hids : (t.handles.map Handle.id).Nodup) (hh : h ∈ t.handles) (fiber : Nat) :
    t.consume h.id fiber = if h.waiters.erase fiber = [] then t.erase h.id
      else t.update h.id fun h => h.removeWaiter fiber := by
  have hfound : (t.update h.id fun h => h.removeWaiter fiber).get? h.id =
      some (h.removeWaiter fiber) := by
    rw [get?_removeWaiter, if_pos rfl, get?_of_mem hids hh]
    rfl
  have hgone : (t.update h.id fun h => h.removeWaiter fiber).erase h.id = t.erase h.id :=
    t.erase_update fun _ _ => rfl
  simp only [consume, hfound, hgone, List.isEmpty_iff]
  rfl

theorem create?_eq_some {owner : Int} {new : Nat} (h : t.create? owner = some (new, u)) :
    (t.handles.length : Int) < t.max ∧ new = t.lastId + 1 ∧
      u = { t with handles := t.handles ++ [{ id := new, owner := owner }], lastId := new } := by
  unfold create? at h
  split at h
  · cases h
  · rename_i hroom
    cases h
    exact ⟨by omega, rfl, rfl⟩

theorem of_get?_create {owner : Int} {new : Nat} (hc : t.create? owner = some (new, u))
    (hk : u.get? k = some h) :
    t.get? k = some h ∨ (k = t.lastId + 1 ∧ h = { id := new, owner := owner }) := by
  obtain ⟨-, rfl, rfl⟩ := create?_eq_some hc
  unfold get? at hk ⊢
  rw [List.find?_append, Option.or_eq_some_iff] at hk
  rcases hk with hk | ⟨-, hk⟩
  · exact .inl hk
  · obtain rfl := List.mem_singleton.mp (List.mem_of_find?_eq_some hk)
    have hid := List.find?_some hk
    simp only [decide_eq_true_eq] at hid
    exact .inr ⟨by omega, rfl⟩

theorem get?_create {owner : Int} {new : Nat} (hc : t.create? owner = some (new, u))
    (hk : t.get? k = some h) : u.get? k = some h := by
  obtain ⟨-, -, rfl⟩ := create?_eq_some hc
  unfold get? at hk ⊢
  rw [List.find?_append, hk]
  rfl

end

/-! ## Handle by handle -/

/-- Numbers are in use once, and all handles are as `P` says. -/
structure Each (t : HandleTable) (P : Handle → Prop) : Prop where
  ids : (t.handles.map Handle.id).Nodup
  bounded : ∀ h ∈ t.handles, h.id ≤ t.lastId
  each : ∀ h ∈ t.handles, P h

section

variable {t u : HandleTable} {P Q : Handle → Prop} {k : Int}

theorem Each.update (ht : t.Each P) {f : Handle → Handle}
    (hid : ∀ h : Handle, (h.id : Int) = k → (f h).id = h.id)
    (hthis : ∀ h ∈ t.handles, (h.id : Int) = k → Q (f h))
    (hother : ∀ h ∈ t.handles, (h.id : Int) ≠ k → Q h) : (t.update k f).Each Q := by
  refine ⟨t.ids_update hid ▸ ht.ids, ?_, ?_⟩
  · intro h hh
    obtain ⟨g, hg, ⟨heq, rfl⟩ | ⟨-, rfl⟩⟩ := mem_update hh
    · rw [hid g heq]
      exact ht.bounded g hg
    · exact ht.bounded h hg
  · intro h hh
    obtain ⟨g, hg, ⟨heq, rfl⟩ | ⟨heq, rfl⟩⟩ := mem_update hh
    · exact hthis g hg heq
    · exact hother h hg heq

theorem Each.erase (ht : t.Each P) (hother : ∀ h ∈ t.handles, (h.id : Int) ≠ k → Q h) :
    (t.erase k).Each Q := by
  refine ⟨ht.ids.sublist ((List.filter_sublist).map _), fun h hh => ht.bounded h (mem_erase hh).1, ?_⟩
  intro h hh
  obtain ⟨hmem, hid⟩ := mem_erase hh
  exact hother h hmem hid

theorem Each.create (ht : t.Each P) {owner : Int} {new : Nat} (h : t.create? owner = some (new, u))
    (hnew : P { id := new, owner := owner }) : u.Each P := by
  obtain ⟨-, rfl, rfl⟩ := create?_eq_some h
  refine ⟨?_, ?_, ?_⟩
  · rw [List.map_append, List.map_singleton]
    refine List.nodup_append.mpr ⟨ht.ids, List.nodup_singleton _, ?_⟩
    intro x hx y hy
    obtain ⟨g, hg, rfl⟩ := List.mem_map.mp hx
    have hle := ht.bounded g hg
    have hy : y = t.lastId + 1 := List.mem_singleton.mp hy
    omega
  · intro g hg
    rcases List.mem_append.mp hg with hg | hg
    · exact Nat.le_succ_of_le (ht.bounded g hg)
    · obtain rfl := List.mem_singleton.mp hg
      exact Nat.le_refl _
  · intro g hg
    rcases List.mem_append.mp hg with hg | hg
    · exact ht.each g hg
    · obtain rfl := List.mem_singleton.mp hg
      exact hnew

end

/-! ## Changes -/

/-- One change of the table. Host code creates and answers handles; a fiber of those at work reads one
that is completed, comes to wait for one that is not, gives up waiting, or ends. A change tells what
it answers. -/
inductive Change (atWork : Nat → Prop) (t : HandleTable) :
    List (Int × Answer) → HandleTable → Prop where
  | create {owner : Int} {new : Nat} {u : HandleTable} (h : t.create? owner = some (new, u)) :
      Change atWork t [] u
  | answer {k : Int} {a : Answer} {u : HandleTable} (h : t.answer k a = .ok u) :
      Change atWork t [(k, a)] u
  | consume {fiber : Nat} (hf : atWork fiber) {k : Int} {h : Handle} (found : t.get? k = some h)
      (done : h.isDone = true) : Change atWork t [] (t.consume h.id fiber)
  | park {fiber : Nat} (hf : atWork fiber) {k : Int} {h : Handle} (found : t.get? k = some h)
      (pending : h.isDone = false) : Change atWork t [] (t.update h.id fun h => h.addWaiter fiber)
  | leave {fiber : Nat} (hf : atWork fiber) (k : Int) :
      Change atWork t [] (t.update k fun h => h.removeWaiter fiber)
  | release {fiber : Nat} (hf : atWork fiber) (k : Nat) : Change atWork t [] (t.releaseOne fiber k)

/-- Changes one after the other, with all that they answer. -/
inductive Evolves (atWork : Nat → Prop) : HandleTable → List (Int × Answer) → HandleTable → Prop where
  | refl (t : HandleTable) : Evolves atWork t [] t
  | step {t u v : HandleTable} {as bs : List (Int × Answer)} (change : Change atWork t as u)
      (rest : Evolves atWork u bs v) : Evolves atWork t (as ++ bs) v

section

variable {atWork : Nat → Prop} {t u v : HandleTable} {as bs : List (Int × Answer)}

theorem Evolves.trans (h : Evolves atWork t as u) (h' : Evolves atWork u bs v) :
    Evolves atWork t (as ++ bs) v := by
  induction h with
  | refl t => exact h'
  | step change _ ih =>
    rw [List.append_assoc]
    exact .step change (ih h')

theorem Change.evolves (h : Change atWork t as u) : Evolves atWork t as u := by
  simpa using Evolves.step h (.refl u)

theorem Change.mono {others : Nat → Prop} (hle : ∀ f, atWork f → others f) (h : Change atWork t as u) :
    Change others t as u := by
  cases h with
  | create h => exact .create h
  | answer h => exact .answer h
  | consume hf found done => exact .consume (hle _ hf) found done
  | park hf found pending => exact .park (hle _ hf) found pending
  | leave hf k => exact .leave (hle _ hf) k
  | release hf k => exact .release (hle _ hf) k

theorem Evolves.mono {others : Nat → Prop} (hle : ∀ f, atWork f → others f)
    (h : Evolves atWork t as u) : Evolves others t as u := by
  induction h with
  | refl t => exact .refl t
  | step change _ ih => exact .step (change.mono hle) ih

theorem evolves_release {fiber : Nat} (hf : atWork fiber) (ids : List Nat) :
    Evolves atWork t [] (t.release fiber ids) := by
  induction ids generalizing t with
  | nil => exact .refl t
  | cons k ids ih => exact .step (.release hf k) ih

theorem Evolves.park (h : Evolves atWork t as u) {fiber : Nat} (hf : atWork fiber) {k : Int}
    {x : Handle} (found : u.get? k = some x) (pending : x.isDone = false) :
    Evolves atWork t as (u.update x.id fun h => h.addWaiter fiber) := by
  have hpark := h.trans (Change.park hf found pending).evolves
  rwa [List.append_nil] at hpark

theorem answer_of_pending {k : Int} {h : Handle} (hk : t.get? k = some h) (hpending : h.isDone = false)
    (a : Answer) :
    t.answer k a = .ok (if h.owner = 0 ∧ h.waiters = [] then t.erase k
      else { t.update k fun h => h.answered a with
        outbox := t.outbox ++ [⟨h.id, a.state, h.waiters⟩] }) := by
  rw [answer_eq, complete, hk]
  simp only [hpending, Bool.and_eq_true, decide_eq_true_eq, List.isEmpty_iff, Bool.false_eq_true,
    if_false]
  split <;> rfl

theorem answer_eq_ok {k : Int} {a : Answer} (h : t.answer k a = .ok u) :
    ∃ g, t.get? k = some g ∧ g.isDone = false ∧
      ((g.waiters = [] ∧ u = t.erase k) ∨
        u = { t.update k fun h => h.answered a with
              outbox := t.outbox ++ [⟨g.id, a.state, g.waiters⟩] }) := by
  rw [answer_eq, complete] at h
  split at h
  · cases h
  · rename_i g hg
    refine ⟨g, hg, ?_⟩
    split at h
    · cases h
    · rename_i hpending
      refine ⟨by simpa using hpending, ?_⟩
      split at h
      · rename_i horphan
        cases h
        simp only [Bool.and_eq_true, List.isEmpty_iff] at horphan
        exact .inl ⟨horphan.2, rfl⟩
      · cases h
        exact .inr rfl

/-! ## Well-formedness -/

/-- A well-formed table: numbers were handed out once, the ceiling is kept, nobody waits twice for a
handle, and completions in the outbox are of completed handles. -/
structure Sound (t : HandleTable) : Prop where
  ids : (t.handles.map Handle.id).Nodup
  bounded : ∀ id ∈ t.handles.map Handle.id, id ≤ t.lastId
  size : (t.handles.length : Int) ≤ t.max
  waiters : ∀ k h, t.get? k = some h → h.waiters.Nodup
  outbox : ∀ c ∈ t.outbox, c.handle ≤ t.lastId ∧ ∀ h, t.get? c.handle = some h → h.isDone = true

theorem Sound.id_le (ht : t.Sound) {k : Int} {h : Handle} (hk : t.get? k = some h) :
    h.id ≤ t.lastId :=
  ht.bounded _ (List.mem_map_of_mem (mem_of_get? hk).1)

/-- Handles of `u` are handles of `t`, which at most got completed or read. -/
structure Trims (t u : HandleTable) : Prop where
  ids : (u.handles.map Handle.id).Sublist (t.handles.map Handle.id)
  lastId : u.lastId = t.lastId
  max : u.max = t.max
  outbox : u.outbox = t.outbox
  found : ∀ k h, u.get? k = some h → ∃ g, t.get? k = some g ∧
    (g.isDone = true → h.isDone = true) ∧ (g.waiters.Nodup → h.waiters.Nodup)

theorem Trims.refl (t : HandleTable) : t.Trims t :=
  ⟨.refl _, rfl, rfl, rfl, fun _ h hk => ⟨h, hk, id, id⟩⟩

theorem Trims.trans (h : t.Trims u) (h' : u.Trims v) : t.Trims v := by
  refine ⟨h'.ids.trans h.ids, h'.lastId.trans h.lastId, h'.max.trans h.max,
    h'.outbox.trans h.outbox, ?_⟩
  intro k x hx
  obtain ⟨y, hy, hdone, hnodup⟩ := h'.found k x hx
  obtain ⟨z, hz, hdone', hnodup'⟩ := h.found k y hy
  exact ⟨z, hz, fun hd => hdone (hdone' hd), fun hn => hnodup (hnodup' hn)⟩

theorem trims_update (t : HandleTable) (k : Int) {f : Handle → Handle}
    (hid : ∀ h : Handle, (h.id : Int) = k → (f h).id = h.id)
    (hdone : ∀ h, t.get? k = some h → h.isDone = true → (f h).isDone = true)
    (hnodup : ∀ h, t.get? k = some h → h.waiters.Nodup → (f h).waiters.Nodup) :
    t.Trims (t.update k f) := by
  refine ⟨?_, rfl, rfl, rfl, ?_⟩
  · rw [t.ids_update hid]
  · intro j h hj
    rw [get?_update t k j hid] at hj
    split at hj
    · rename_i hjk
      subst hjk
      obtain ⟨g, hg, rfl⟩ := Option.map_eq_some_iff.mp hj
      exact ⟨g, hg, hdone g hg, hnodup g hg⟩
    · exact ⟨h, hj, id, id⟩

theorem trims_erase (t : HandleTable) (k : Int) : t.Trims (t.erase k) := by
  refine ⟨(List.filter_sublist).map _, rfl, rfl, rfl, ?_⟩
  intro j h hj
  rw [get?_erase] at hj
  split at hj
  · cases hj
  · exact ⟨h, hj, id, id⟩

theorem Trims.sound (h : t.Trims u) (ht : t.Sound) : u.Sound := by
  refine ⟨ht.ids.sublist h.ids, ?_, ?_, ?_, ?_⟩
  · intro id hid
    rw [h.lastId]
    exact ht.bounded id (h.ids.subset hid)
  · have hlen := h.ids.length_le
    simp only [List.length_map] at hlen
    have := ht.size
    rw [h.max]
    omega
  · intro k x hx
    obtain ⟨g, hg, -, hnodup⟩ := h.found k x hx
    exact hnodup (ht.waiters k g hg)
  · intro c hc
    rw [h.outbox] at hc
    obtain ⟨hle, hdone⟩ := ht.outbox c hc
    refine ⟨by rwa [h.lastId], ?_⟩
    intro x hx
    obtain ⟨g, hg, hkeeps, -⟩ := h.found _ x hx
    exact hkeeps (hdone g hg)

theorem trims_removeWaiter (t : HandleTable) (k : Int) (fiber : Nat) :
    t.Trims (t.update k fun h => h.removeWaiter fiber) :=
  t.trims_update k (fun _ _ => rfl) (fun _ _ => id) (fun _ _ hn => hn.erase fiber)

theorem trims_addWaiter (t : HandleTable) (k : Int) (fiber : Nat) :
    t.Trims (t.update k fun h => h.addWaiter fiber) := by
  refine t.trims_update k ?_ ?_ ?_
  · intro h _
    unfold Handle.addWaiter
    split <;> rfl
  · intro h _ hdone
    unfold Handle.addWaiter
    split <;> exact hdone
  · intro h _ hn
    unfold Handle.addWaiter
    split
    · exact hn
    · rename_i hnew
      refine List.nodup_append.mpr ⟨hn, List.nodup_singleton _, ?_⟩
      rintro x hx y hy rfl
      rw [List.mem_singleton] at hy
      subst hy
      exact hnew (List.contains_iff_mem.mpr hx)

theorem trims_consume (t : HandleTable) (k : Int) (fiber : Nat) : t.Trims (t.consume k fiber) := by
  have hread := t.trims_removeWaiter k fiber
  unfold consume
  dsimp only
  split
  · split
    · exact hread.trans (trims_erase _ k)
    · exact hread
  · exact hread

theorem trims_releaseOne (t : HandleTable) (fiber k : Nat) : t.Trims (t.releaseOne fiber k) := by
  unfold releaseOne
  split
  · exact .refl t
  · rename_i h hk
    split
    · exact .refl t
    · dsimp only
      split
      · exact t.trims_erase k
      · refine t.trims_update k ?_ ?_ ?_
        · intro g hg
          have := (mem_of_get? hk).2
          simp only [Handle.removeWaiter]
          omega
        · intro g hg hdone
          rw [hk, Option.some.injEq] at hg
          subst hg
          exact hdone
        · intro g hg hn
          rw [hk, Option.some.injEq] at hg
          subst hg
          exact hn.erase fiber

theorem sound_create {owner : Int} {new : Nat} (h : t.create? owner = some (new, u)) (ht : t.Sound) :
    u.Sound := by
  have hfound := fun k h' => of_get?_create (k := k) (h := h') h
  obtain ⟨hroom, rfl, rfl⟩ := create?_eq_some h
  refine ⟨?_, ?_, ?_, ?_, ?_⟩
  · rw [List.map_append, List.map_singleton]
    refine List.nodup_append.mpr ⟨ht.ids, List.nodup_singleton _, ?_⟩
    intro x hx y hy
    have hle := ht.bounded x hx
    have hy : y = t.lastId + 1 := List.mem_singleton.mp hy
    omega
  · intro id hid
    rw [List.map_append, List.mem_append] at hid
    rcases hid with hid | hid
    · exact Nat.le_succ_of_le (ht.bounded id hid)
    · simp only [List.map_singleton, List.mem_singleton] at hid
      exact Nat.le_of_eq hid
  · simp only [List.length_append, List.length_singleton]
    push_cast
    omega
  · intro k h' hk
    rcases hfound k h' hk with hk | ⟨-, rfl⟩
    · exact ht.waiters k h' hk
    · exact List.nodup_nil
  · intro c hc
    obtain ⟨hle, hdone⟩ := ht.outbox c hc
    refine ⟨Nat.le_succ_of_le hle, ?_⟩
    intro h' hk
    rcases hfound _ h' hk with hk | ⟨heq, -⟩
    · exact hdone h' hk
    · omega

theorem sound_answer {k : Int} {a : Answer} (h : t.answer k a = .ok u) (ht : t.Sound) : u.Sound := by
  obtain ⟨g, hg, -, ⟨-, rfl⟩ | rfl⟩ := answer_eq_ok h
  · exact (t.trims_erase k).sound ht
  · have htrims := t.trims_update k (f := fun h => h.answered a) (fun _ _ => rfl)
      (fun h _ _ => (h.shows_answered a).isDone) (fun _ _ => id)
    have hs := htrims.sound ht
    refine ⟨hs.ids, hs.bounded, hs.size, hs.waiters, ?_⟩
    intro c hc
    rw [List.mem_append] at hc
    rcases hc with hc | hc
    · exact hs.outbox c hc
    · obtain rfl := List.mem_singleton.mp hc
      refine ⟨ht.id_le hg, ?_⟩
      intro h' hk
      have hk : (t.update k fun h => h.answered a).get? g.id = some h' := hk
      rw [get?_answered, (mem_of_get? hg).2, if_pos rfl, hg] at hk
      obtain rfl := Option.some.inj hk
      exact (g.shows_answered a).isDone

theorem Change.sound (h : Change atWork t as u) (ht : t.Sound) : u.Sound := by
  cases h with
  | create h => exact sound_create h ht
  | answer h => exact sound_answer h ht
  | consume _ _ _ => exact (t.trims_consume _ _).sound ht
  | park _ _ _ => exact (t.trims_addWaiter _ _).sound ht
  | leave _ k => exact (t.trims_removeWaiter k _).sound ht
  | release _ k => exact (t.trims_releaseOne _ k).sound ht

theorem Evolves.sound (h : Evolves atWork t as u) (ht : t.Sound) : u.Sound := by
  induction h with
  | refl t => exact ht
  | step change _ ih => exact ih (change.sound ht)

/-- Every change trims the table, creates a handle or answers one. -/
theorem Change.trims_or (h : Change atWork t as u) :
    t.Trims u ∨ (∃ owner new, t.create? owner = some (new, u)) ∨ ∃ k a, t.answer k a = .ok u := by
  cases h with
  | create h => exact .inr (.inl ⟨_, _, h⟩)
  | answer h => exact .inr (.inr ⟨_, _, h⟩)
  | consume _ _ _ => exact .inl (t.trims_consume _ _)
  | park _ _ _ => exact .inl (t.trims_addWaiter _ _)
  | leave _ k => exact .inl (t.trims_removeWaiter k _)
  | release _ k => exact .inl (t.trims_releaseOne _ k)

/-- The table `u` comes after `t`: the ceiling is the same, and a number that was handed out before is
in use only if it was. -/
structure Ages (t u : HandleTable) : Prop where
  max : u.max = t.max
  lastId : t.lastId ≤ u.lastId
  ids : ∀ id ∈ u.handles.map Handle.id, id ≤ t.lastId → id ∈ t.handles.map Handle.id

theorem Ages.refl (t : HandleTable) : t.Ages t := ⟨rfl, Nat.le_refl _, fun _ h _ => h⟩

theorem Ages.trans (h : t.Ages u) (h' : u.Ages v) : t.Ages v := by
  refine ⟨h'.max.trans h.max, Nat.le_trans h.lastId h'.lastId, ?_⟩
  intro id hid hle
  exact h.ids id (h'.ids id hid (Nat.le_trans hle h.lastId)) hle

theorem Trims.ages (h : t.Trims u) : t.Ages u :=
  ⟨h.max, Nat.le_of_eq h.lastId.symm, fun _ hid _ => h.ids.subset hid⟩

theorem Change.ages (h : Change atWork t as u) : t.Ages u := by
  obtain h | ⟨owner, new, h⟩ | ⟨k, a, h⟩ := h.trims_or
  · exact h.ages
  · obtain ⟨-, rfl, rfl⟩ := create?_eq_some h
    refine ⟨rfl, Nat.le_succ _, ?_⟩
    intro id hid hle
    rw [List.map_append, List.mem_append] at hid
    rcases hid with hid | hid
    · exact hid
    · have hid : id = t.lastId + 1 := List.mem_singleton.mp hid
      omega
  · obtain ⟨g, -, -, ⟨-, rfl⟩ | rfl⟩ := answer_eq_ok h
    · exact (t.trims_erase k).ages
    · have htrims := t.trims_update k (f := fun h => h.answered a) (fun _ _ => rfl)
        (fun h _ _ => (h.shows_answered a).isDone) (fun _ _ => id)
      exact ⟨rfl, Nat.le_refl _, htrims.ages.ids⟩

theorem Evolves.ages (h : Evolves atWork t as u) : t.Ages u := by
  induction h with
  | refl t => exact .refl t
  | step change _ ih => exact change.ages.trans ih

theorem Change.outbox_subset (h : Change atWork t as u) : t.outbox ⊆ u.outbox := by
  obtain h | ⟨owner, new, h⟩ | ⟨k, a, h⟩ := h.trims_or
  · rw [h.outbox]
    exact List.Subset.refl _
  · obtain ⟨-, rfl, rfl⟩ := create?_eq_some h
    exact List.Subset.refl _
  · obtain ⟨g, -, -, ⟨-, rfl⟩ | rfl⟩ := answer_eq_ok h
    · exact List.Subset.refl _
    · exact List.subset_append_left _ _

theorem Evolves.outbox_subset (h : Evolves atWork t as u) : t.outbox ⊆ u.outbox := by
  induction h with
  | refl t => exact List.Subset.refl _
  | step change _ ih => exact List.Subset.trans change.outbox_subset ih

theorem Evolves.outbox_eq (h : Evolves atWork t [] u) : u.outbox = t.outbox := by
  generalize hnone : ([] : List (Int × Answer)) = as at h
  induction h with
  | refl t => rfl
  | @step t u v as bs change rest ih =>
    obtain ⟨rfl, rfl⟩ := List.append_eq_nil_iff.mp hnone.symm
    rw [ih rfl]
    cases change with
    | create h =>
      obtain ⟨-, -, rfl⟩ := create?_eq_some h
      rfl
    | consume _ _ _ => exact (t.trims_consume _ _).outbox
    | park _ _ _ => exact (t.trims_addWaiter _ _).outbox
    | leave _ k => exact (t.trims_removeWaiter k _).outbox
    | release _ k => exact (t.trims_releaseOne _ k).outbox

/-! ## Completion is final -/

/-- A number that was handed out, and whose handle is completed or gone. -/
def Settled (t : HandleTable) (k : Int) : Prop :=
  k ≤ t.lastId ∧ ∀ h, t.get? k = some h → h.isDone = true

theorem Trims.settled (h : t.Trims u) {k : Int} (hk : t.Settled k) : u.Settled k := by
  refine ⟨by rw [h.lastId]; exact hk.1, ?_⟩
  intro x hx
  obtain ⟨g, hg, hdone, -⟩ := h.found k x hx
  exact hdone (hk.2 g hg)

theorem settled_create {owner : Int} {new : Nat} (h : t.create? owner = some (new, u)) {k : Int}
    (hk : t.Settled k) : u.Settled k := by
  have hle : t.lastId ≤ u.lastId := by
    obtain ⟨-, rfl, rfl⟩ := create?_eq_some h
    exact Nat.le_succ _
  refine ⟨by have := hk.1; omega, ?_⟩
  intro x hx
  rcases of_get?_create h hx with hx | ⟨heq, -⟩
  · exact hk.2 x hx
  · have := hk.1
    omega

theorem settled_answer {j : Int} {a : Answer} (h : t.answer j a = .ok u) {k : Int}
    (hk : t.Settled k) : u.Settled k ∧ j ≠ k := by
  obtain ⟨g, hg, hpending, hcase⟩ := answer_eq_ok h
  have hne : j ≠ k := by
    rintro rfl
    rw [hk.2 g hg] at hpending
    cases hpending
  refine ⟨?_, hne⟩
  obtain ⟨-, rfl⟩ | rfl := hcase
  · exact (t.trims_erase j).settled hk
  · refine ⟨hk.1, ?_⟩
    intro x hx
    have hx : (t.update j fun h => h.answered a).get? k = some x := hx
    rw [get?_answered, if_neg (Ne.symm hne)] at hx
    exact hk.2 x hx

/-- A handle is completed once. -/
theorem Evolves.settled (h : Evolves atWork t as u) {k : Int} (hk : t.Settled k) :
    u.Settled k ∧ ∀ b ∈ as, b.1 ≠ k := by
  induction h with
  | refl t => exact ⟨hk, by simp⟩
  | @step t u v as bs change rest ih =>
    have hfirst : u.Settled k ∧ ∀ b ∈ as, b.1 ≠ k := by
      cases change with
      | create h => exact ⟨settled_create h hk, by simp⟩
      | answer h => exact ⟨(settled_answer h hk).1, by simpa using (settled_answer h hk).2⟩
      | consume _ _ _ => exact ⟨(t.trims_consume _ _).settled hk, by simp⟩
      | park _ _ _ => exact ⟨(t.trims_addWaiter _ _).settled hk, by simp⟩
      | leave _ j => exact ⟨(t.trims_removeWaiter j _).settled hk, by simp⟩
      | release _ j => exact ⟨(t.trims_releaseOne _ j).settled hk, by simp⟩
    obtain ⟨hlast, hmore⟩ := ih hfirst.1
    refine ⟨hlast, ?_⟩
    intro b hb
    rcases List.mem_append.mp hb with hb | hb
    · exact hfirst.2 b hb
    · exact hmore b hb

/-! ## What a fiber at rest sees -/

/-- A fiber is listed among those that have still to read a handle. -/
def Lists (t : HandleTable) (k : Int) (fiber : Nat) (P : Handle → Prop) : Prop :=
  ∃ h, t.get? k = some h ∧ fiber ∈ h.waiters ∧ P h

/-- The outbox calls a fiber for a handle. -/
def Calls (t : HandleTable) (k : Int) (fiber : Nat) : Prop :=
  ∃ c ∈ t.outbox, (c.handle : Int) = k ∧ fiber ∈ c.waiters

theorem lists_removeWaiter {fiber other : Nat} (hne : fiber ≠ other) {k : Int} {g : Handle}
    (hg : t.get? k = some g) (hmem : fiber ∈ g.waiters) (j : Int) :
    (t.update j fun h => h.removeWaiter other).Lists k fiber g.SameAnswer := by
  have hfound := t.get?_removeWaiter j k other
  rw [hg] at hfound
  split at hfound
  · exact ⟨_, hfound, (List.mem_erase_of_ne hne).mpr hmem, rfl, rfl, rfl⟩
  · exact ⟨g, hfound, hmem, rfl, rfl, rfl⟩

theorem lists_consume {fiber other : Nat} (hne : fiber ≠ other) {k : Int} {g : Handle}
    (hg : t.get? k = some g) (hmem : fiber ∈ g.waiters) (j : Int) :
    (t.consume j other).Lists k fiber g.SameAnswer := by
  obtain ⟨g', hg', hmem', hsame⟩ := lists_removeWaiter hne hg hmem j
  unfold consume
  dsimp only
  split
  · rename_i x hx
    split
    · rename_i hempty
      refine ⟨g', ?_, hmem', hsame⟩
      rw [get?_erase, if_neg ?_]
      · exact hg'
      · rintro rfl
        obtain rfl : x = g' := Option.some.inj (hx.symm.trans hg')
        rw [List.isEmpty_iff.mp hempty] at hmem'
        cases hmem'
    · exact ⟨g', hg', hmem', hsame⟩
  · exact ⟨g', hg', hmem', hsame⟩

theorem lists_addWaiter {fiber : Nat} {k : Int} {g : Handle} (hg : t.get? k = some g)
    (hmem : fiber ∈ g.waiters) (j : Int) (other : Nat) :
    (t.update j fun h => h.addWaiter other).Lists k fiber g.SameAnswer := by
  have hfound := t.get?_addWaiter j k other
  rw [hg] at hfound
  split at hfound
  · refine ⟨g.addWaiter other, hfound, ?_, ?_⟩
    · unfold Handle.addWaiter
      split
      · exact hmem
      · exact List.mem_append_left _ hmem
    · unfold Handle.addWaiter
      split <;> exact ⟨rfl, rfl, rfl⟩
  · exact ⟨g, hfound, hmem, rfl, rfl, rfl⟩

theorem lists_parked {k : Int} {h : Handle} (hk : t.get? k = some h) (hpending : h.isDone = false)
    (fiber : Nat) :
    (t.update h.id fun h => h.addWaiter fiber).Lists h.id fiber fun h => h.isDone = false := by
  have hfound := t.get?_addWaiter h.id h.id fiber
  rw [if_pos rfl, (mem_of_get? hk).2, hk] at hfound
  rw [(mem_of_get? hk).2]
  refine ⟨h.addWaiter fiber, hfound, ?_, ?_⟩
  · unfold Handle.addWaiter
    split
    · rename_i hmem
      exact List.contains_iff_mem.mp hmem
    · exact List.mem_append_right _ List.mem_cons_self
  · unfold Handle.addWaiter
    split <;> exact hpending

theorem lists_releaseOne {fiber other : Nat} (hne : fiber ≠ other) {k : Int} {g : Handle}
    (hg : t.get? k = some g) (hmem : fiber ∈ g.waiters) (j : Nat) :
    (t.releaseOne other j).Lists k fiber g.SameAnswer := by
  have hunchanged : t.Lists k fiber g.SameAnswer := ⟨g, hg, hmem, rfl, rfl, rfl⟩
  unfold releaseOne
  split
  · exact hunchanged
  · rename_i h hj
    split
    · exact hunchanged
    · dsimp only
      have hleft : fiber ∈ g.waiters.erase other := (List.mem_erase_of_ne hne).mpr hmem
      split
      · rename_i hgone
        refine ⟨g, ?_, hmem, rfl, rfl, rfl⟩
        rw [get?_erase, if_neg ?_]
        · exact hg
        · rintro rfl
          obtain rfl : g = h := Option.some.inj (hg.symm.trans hj)
          simp only [Bool.and_eq_true, List.isEmpty_iff, Handle.removeWaiter] at hgone
          rw [hgone.2] at hleft
          cases hleft
      · have hfound := t.get?_update j k (f := fun _ => { h.removeWaiter other with owner := 0 }) (by
          intro x hx
          have hid := (mem_of_get? hj).2
          simp only [Handle.removeWaiter]
          omega)
        rw [hg] at hfound
        split at hfound
        · rename_i hkj
          subst hkj
          obtain rfl : g = h := Option.some.inj (hg.symm.trans hj)
          exact ⟨_, hfound, hleft, rfl, rfl, rfl⟩
        · exact ⟨g, hfound, hmem, rfl, rfl, rfl⟩

/-- What one change makes of a handle that a fiber at rest has still to read: nothing, or it is
answered by that change. -/
theorem Change.lists (h : Change atWork t as u) {fiber : Nat} (hrest : ¬ atWork fiber) {k : Int}
    {g : Handle} (hg : t.get? k = some g) (hmem : fiber ∈ g.waiters) :
    ((∀ a ∈ as, a.1 ≠ k) ∧ u.Lists k fiber g.SameAnswer) ∨
    (g.isDone = false ∧ ∃ a, as = [(k, a)] ∧ (u.Lists k fiber fun g' => g'.Shows a) ∧
      u.Calls k fiber) := by
  cases h with
  | create h => exact .inl ⟨by simp, g, get?_create h hg, hmem, rfl, rfl, rfl⟩
  | @answer j a u h =>
    obtain ⟨x, hx, hpending, hcase⟩ := answer_eq_ok h
    by_cases hjk : k = j
    · subst hjk
      obtain rfl : g = x := Option.some.inj (hg.symm.trans hx)
      obtain ⟨hnone, -⟩ | rfl := hcase
      · rw [hnone] at hmem
        cases hmem
      · refine .inr ⟨hpending, a, rfl, ⟨g.answered a, ?_, hmem, g.shows_answered a⟩, ?_⟩
        · have hfound := t.get?_answered k k a
          rw [if_pos rfl, hg] at hfound
          exact hfound
        · exact ⟨_, List.mem_append_right _ List.mem_cons_self, (mem_of_get? hg).2, hmem⟩
    · refine .inl ⟨by simpa using Ne.symm hjk, g, ?_, hmem, rfl, rfl, rfl⟩
      obtain ⟨-, rfl⟩ | rfl := hcase
      · rw [get?_erase, if_neg hjk]
        exact hg
      · have hfound := t.get?_answered j k a
        rw [if_neg hjk, hg] at hfound
        exact hfound
  | @consume f hf j x hx done =>
    have hne : fiber ≠ f := fun heq => hrest (heq ▸ hf)
    exact .inl ⟨by simp, lists_consume hne hg hmem _⟩
  | @park f hf j x hx pending => exact .inl ⟨by simp, lists_addWaiter hg hmem _ f⟩
  | @leave f hf j =>
    have hne : fiber ≠ f := fun heq => hrest (heq ▸ hf)
    exact .inl ⟨by simp, lists_removeWaiter hne hg hmem j⟩
  | @release f hf j =>
    have hne : fiber ≠ f := fun heq => hrest (heq ▸ hf)
    exact .inl ⟨by simp, lists_releaseOne hne hg hmem j⟩

theorem Calls.mono {k : Int} {fiber : Nat} (h : t.Calls k fiber) (hsub : t.outbox ⊆ u.outbox) :
    u.Calls k fiber := by
  obtain ⟨c, hc, hk, hmem⟩ := h
  exact ⟨c, hsub hc, hk, hmem⟩

/-- An answer stays as it is for as long as a fiber has still to read it, and no other is given. -/
theorem Evolves.answered (h : Evolves atWork t as u) {fiber : Nat} (hrest : ¬ atWork fiber) {k : Int}
    {a : Answer} (ht : t.Lists k fiber fun g => g.Shows a) :
    (u.Lists k fiber fun g => g.Shows a) ∧ ∀ b ∈ as, b.1 ≠ k := by
  induction h with
  | refl t => exact ⟨ht, by simp⟩
  | step change _ ih =>
    obtain ⟨g, hg, hmem, hshows⟩ := ht
    rcases change.lists hrest hg hmem with ⟨hnone, g', hg', hmem', hsame⟩ | ⟨hpending, -⟩
    · obtain ⟨hlast, hmore⟩ := ih ⟨g', hg', hmem', hshows.of_sameAnswer hsame⟩
      refine ⟨hlast, ?_⟩
      intro b hb
      rcases List.mem_append.mp hb with hb | hb
      · exact hnone b hb
      · exact hmore b hb
    · rw [hshows.isDone] at hpending
      cases hpending

/-- A fiber at rest that waits for a handle still does so afterwards, or the handle was answered once,
and the fiber is called and finds that answer. -/
theorem Evolves.waits (h : Evolves atWork t as u) {fiber : Nat} (hrest : ¬ atWork fiber) {k : Int}
    (ht : t.Lists k fiber fun g => g.isDone = false) :
    ((∀ b ∈ as, b.1 ≠ k) ∧ u.Lists k fiber fun g => g.isDone = false) ∨
    (∃ a, (as.filter fun b => b.1 = k) = [(k, a)] ∧ (u.Lists k fiber fun g => g.Shows a) ∧
      u.Calls k fiber) := by
  induction h with
  | refl t => exact .inl ⟨by simp, ht⟩
  | @step t u v as bs change rest ih =>
    obtain ⟨g, hg, hmem, hpending⟩ := ht
    rcases change.lists hrest hg hmem with ⟨hnone, g', hg', hmem', hsame⟩ | ⟨-, a, rfl, hlists, hcalls⟩
    · have hpending' : g'.isDone = false := by
        rw [Handle.isDone, hsame.state]
        exact hpending
      have hfilter : (as.filter fun b => b.1 = k) = [] := by
        simpa [List.filter_eq_nil_iff] using hnone
      rcases ih ⟨g', hg', hmem', hpending'⟩ with ⟨hmore, hlast⟩ | ⟨a, ha, hlast, hcalls⟩
      · refine .inl ⟨?_, hlast⟩
        intro b hb
        rcases List.mem_append.mp hb with hb | hb
        · exact hnone b hb
        · exact hmore b hb
      · exact .inr ⟨a, by rw [List.filter_append, hfilter, ha, List.nil_append], hlast, hcalls⟩
    · obtain ⟨hlast, hmore⟩ := rest.answered hrest hlists
      have hfilter : (bs.filter fun b => b.1 = k) = [] := by
        simpa [List.filter_eq_nil_iff] using hmore
      exact .inr ⟨a, by simp [hfilter], hlast, hcalls.mono rest.outbox_subset⟩

end

end HandleTable

end TileMind
