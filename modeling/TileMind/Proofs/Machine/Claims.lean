import TileMind.Proofs.Machine.Handles

/-!
# TileMind.Proofs.Machine.Claims

Tables in which every handle is one fiber's, beside a queue of the handles that are to be completed.

* `HandleTable.Queued`: the queue has the pending handles, each of them once.
* `HandleTable.Claimed`: handles are waited for by their owners only, and the queue is right.
* `HandleTable.Balanced`: moreover every fiber has the handles that it is said to own.
* `Claimed.answer`: the first handle of the queue can be completed, whoever owns it.
* `Claimed.release`: the handles of a fiber that has ended are gone, or pending and nobody's.
-/

namespace TileMind

/-- The handle is its owner's, and nobody else waits for it. If the owner has ended it is pending. -/
structure Handle.Claimed (Owns : Nat → Nat → Prop) (h : Handle) : Prop where
  owned : ∃ fiber : Nat, h.owner = fiber ∧ Owns fiber h.id ∧
    (h.waiters = [] ∨ h.waiters = [fiber] ∧ fiber ≠ 0)
  orphan : h.owner = 0 → h.isDone = false

section

variable {Owns Owns' : Nat → Nat → Prop} {h : Handle} {fiber : Nat}

theorem Handle.Claimed.mono (hh : h.Claimed Owns)
    (howns : ∀ w, h.owner = (w : Nat) → Owns w h.id → Owns' w h.id) : h.Claimed Owns' := by
  obtain ⟨w, hw, hown, hwaiters⟩ := hh.owned
  exact ⟨⟨w, hw, howns w hw hown, hwaiters⟩, hh.orphan⟩

theorem Handle.Claimed.waiters (hh : h.Claimed Owns) (howner : h.owner = fiber) :
    h.waiters = [] ∨ h.waiters = [fiber] ∧ fiber ≠ 0 := by
  obtain ⟨w, hw, -, hwaiters⟩ := hh.owned
  obtain rfl : w = fiber := by omega
  exact hwaiters

/-- Nobody waits for a handle that its owner does not wait for. -/
theorem Handle.Claimed.erase_waiters (hh : h.Claimed Owns) (howner : h.owner = fiber) :
    h.waiters.erase fiber = [] := by
  rcases hh.waiters howner with hnone | ⟨hself, -⟩
  · simp [hnone]
  · simp [hself]

theorem Handle.Claimed.removeWaiter (hh : h.Claimed Owns) (fiber : Nat) :
    (h.removeWaiter fiber).Claimed Owns := by
  obtain ⟨w, hw, hown, hwaiters⟩ := hh.owned
  refine ⟨⟨w, hw, hown, ?_⟩, hh.orphan⟩
  rcases hwaiters with hnone | ⟨hself, hne⟩
  · exact .inl (by simp [Handle.removeWaiter, hnone])
  · by_cases heq : w = fiber
    · exact .inl (by simp [Handle.removeWaiter, hself, heq])
    · exact .inr ⟨by simp [Handle.removeWaiter, hself, heq], hne⟩

theorem Handle.Claimed.addWaiter (hh : h.Claimed Owns) (howner : h.owner = fiber) (hne : fiber ≠ 0) :
    (h.addWaiter fiber).Claimed Owns := by
  obtain ⟨w, hw, hown, hwaiters⟩ := hh.owned
  obtain rfl : w = fiber := by omega
  unfold Handle.addWaiter
  split
  · exact hh
  · rename_i hnew
    have hnone : h.waiters = [] := by
      rcases hwaiters with hnone | ⟨hself, -⟩
      · exact hnone
      · simp [hself] at hnew
    exact ⟨⟨w, hw, hown, .inr ⟨by simp [hnone], hne⟩⟩, hh.orphan⟩

end

namespace HandleTable

def Pending (t : HandleTable) (k : Nat) : Prop := ∃ h ∈ t.handles, h.id = k ∧ h.isDone = false

def Has (t : HandleTable) (fiber k : Nat) : Prop := ∃ h ∈ t.handles, h.id = k ∧ h.owner = fiber

/-- The queue has the handles that are pending, each of them once. -/
structure Queued (t : HandleTable) (queue : List Nat) : Prop where
  nodup : queue.Nodup
  mem_iff : ∀ k, k ∈ queue ↔ t.Pending k

/-- Every handle is somebody's who may own it, by `Owns`, and those to be completed are queued. -/
structure Claimed (t : HandleTable) (Owns : Nat → Nat → Prop) (queue : List Nat) : Prop
    extends t.Each (Handle.Claimed Owns) where
  queued : t.Queued queue

/-- Everybody has the handles that `Owns` tells, and no others. -/
structure Balanced (t : HandleTable) (Owns : Nat → Nat → Prop) (queue : List Nat) : Prop
    extends t.Claimed Owns queue where
  has : ∀ {fiber k}, Owns fiber k → t.Has fiber k
  ne_zero : ∀ {fiber k}, Owns fiber k → fiber ≠ 0

section

variable {t u : HandleTable} {Owns Owns' : Nat → Nat → Prop} {queue rest : List Nat} {fiber j : Nat}
  {k : Int} {h : Handle}

/-! ## Single changes -/

theorem update_mem {f : Handle → Handle} (hh : h ∈ t.handles) :
    (if (h.id : Int) = k then f h else h) ∈ (t.update k f).handles := List.mem_map_of_mem hh

theorem erase_mem (hh : h ∈ t.handles) (hne : (h.id : Int) ≠ k) : h ∈ (t.erase k).handles :=
  List.mem_filter.mpr ⟨hh, by simpa using hne⟩

theorem pending_erase : (t.erase k).Pending j ↔ t.Pending j ∧ (j : Int) ≠ k := by
  constructor
  · rintro ⟨h, hh, rfl, hpending⟩
    obtain ⟨hmem, hne⟩ := mem_erase hh
    exact ⟨⟨h, hmem, rfl, hpending⟩, hne⟩
  · rintro ⟨⟨h, hh, rfl, hpending⟩, hne⟩
    exact ⟨h, erase_mem hh hne, rfl, hpending⟩

theorem pending_update {f : Handle → Handle} (hid : ∀ h : Handle, (h.id : Int) = k → (f h).id = h.id)
    (hdone : ∀ h ∈ t.handles, (h.id : Int) = k → (f h).isDone = h.isDone) :
    (t.update k f).Pending j ↔ t.Pending j := by
  constructor
  · rintro ⟨h, hh, rfl, hpending⟩
    obtain ⟨g, hg, ⟨hk, rfl⟩ | ⟨hk, rfl⟩⟩ := mem_update hh
    · exact ⟨g, hg, (hid g hk).symm, hdone g hg hk ▸ hpending⟩
    · exact ⟨h, hg, rfl, hpending⟩
  · rintro ⟨h, hh, rfl, hpending⟩
    refine ⟨_, update_mem hh, ?_⟩
    split
    · rename_i hk
      exact ⟨hid h hk, (hdone h hh hk).trans hpending⟩
    · exact ⟨rfl, hpending⟩

theorem pending_answered (a : Answer) :
    (t.update k fun h => h.answered a).Pending j ↔ t.Pending j ∧ (j : Int) ≠ k := by
  constructor
  · rintro ⟨h, hh, rfl, hpending⟩
    obtain ⟨g, hg, ⟨hk, rfl⟩ | ⟨hk, rfl⟩⟩ := mem_update hh
    · rw [(g.shows_answered a).isDone] at hpending
      cases hpending
    · exact ⟨⟨h, hg, rfl, hpending⟩, hk⟩
  · rintro ⟨⟨h, hh, rfl, hpending⟩, hne⟩
    have hmem := update_mem (k := k) (f := fun h => h.answered a) hh
    rw [if_neg hne] at hmem
    exact ⟨h, hmem, rfl, hpending⟩

theorem pending_create {owner : Int} {new : Nat} (h : t.create? owner = some (new, u)) :
    u.Pending j ↔ t.Pending j ∨ j = new := by
  obtain ⟨-, -, rfl⟩ := create?_eq_some h
  simp only [Pending, List.mem_append, List.mem_singleton]
  constructor
  · rintro ⟨h, hh | rfl, hid, hpending⟩
    · exact .inl ⟨h, hh, hid, hpending⟩
    · exact .inr hid.symm
  · rintro (⟨h, hh, hid, hpending⟩ | rfl)
    · exact ⟨h, .inl hh, hid, hpending⟩
    · exact ⟨_, .inr rfl, rfl, rfl⟩

theorem not_pending (hids : (t.handles.map Handle.id).Nodup) (hh : h ∈ t.handles)
    (hdone : h.isDone = true) : ¬ t.Pending h.id := by
  rintro ⟨g, hg, hid, hpending⟩
  obtain rfl : g = h := List.inj_on_of_nodup_map hids hg hh hid
  rw [hdone] at hpending
  cases hpending

theorem Has.erase (hhas : t.Has fiber j) (hne : (j : Int) ≠ k) : (t.erase k).Has fiber j := by
  obtain ⟨h, hh, rfl, howner⟩ := hhas
  exact ⟨h, erase_mem hh hne, rfl, howner⟩

theorem Has.update {f : Handle → Handle} (hid : ∀ h : Handle, (h.id : Int) = k → (f h).id = h.id)
    (howner : ∀ h : Handle, (f h).owner = h.owner) (hhas : t.Has fiber j) :
    (t.update k f).Has fiber j := by
  obtain ⟨h, hh, rfl, hown⟩ := hhas
  refine ⟨_, update_mem hh, ?_⟩
  split
  · rename_i hk
    exact ⟨hid h hk, (howner h).trans hown⟩
  · exact ⟨rfl, hown⟩

theorem Queued.congr (hq : t.Queued queue) (hpending : ∀ k, u.Pending k ↔ t.Pending k) :
    u.Queued queue :=
  ⟨hq.nodup, fun k => (hq.mem_iff k).trans (hpending k).symm⟩

theorem Queued.perm (hq : t.Queued queue) (hperm : rest.Perm queue) : t.Queued rest :=
  ⟨hperm.nodup_iff.mpr hq.nodup, fun k => hperm.mem_iff.trans (hq.mem_iff k)⟩

theorem Queued.tail (hq : t.Queued (j :: rest))
    (hpending : ∀ k, u.Pending k ↔ t.Pending k ∧ (k : Int) ≠ j) : u.Queued rest := by
  obtain ⟨hnew, hnodup⟩ := List.nodup_cons.mp hq.nodup
  refine ⟨hnodup, fun k => ?_⟩
  rw [hpending, ← hq.mem_iff, List.mem_cons]
  constructor
  · intro hk
    exact ⟨.inr hk, fun heq => hnew (Int.ofNat_inj.mp heq ▸ hk)⟩
  · rintro ⟨rfl | hk, hne⟩
    · exact absurd rfl hne
    · exact hk

/-! ## Claims -/

theorem Claimed.mono (ht : t.Claimed Owns queue) (howns : ∀ w k, Owns w k → Owns' w k) :
    t.Claimed Owns' queue :=
  ⟨⟨ht.ids, ht.bounded, fun h hh => (ht.each h hh).mono fun _ _ => howns _ _⟩, ht.queued⟩

/-- The first handle of the queue can be completed. It is dropped if it is nobody's. -/
theorem Claimed.answer (ht : t.Claimed Owns (j :: rest)) (a : Answer) :
    ∃ u, t.answer j a = .ok u ∧ u.Claimed Owns rest ∧ u.lastId = t.lastId ∧
      ∀ w k, w ≠ 0 → t.Has w k → u.Has w k := by
  obtain ⟨h, hh, hid, hpending⟩ := (ht.queued.mem_iff j).mp List.mem_cons_self
  have hfound : t.get? j = some h := hid ▸ get?_of_mem ht.ids hh
  have honly (g : Handle) (hg : g ∈ t.handles) (hgid : g.id = j) : g = h :=
    List.inj_on_of_nodup_map ht.ids hg hh (hgid.trans hid.symm)
  refine ⟨_, answer_of_pending hfound hpending a, ?_⟩
  split
  · rename_i hnobody
    refine ⟨⟨ht.erase fun g hg _ => ht.each g hg, ht.queued.tail fun _ => pending_erase⟩, rfl, ?_⟩
    rintro w k hw ⟨g, hg, rfl, howner⟩
    refine Has.erase ⟨g, hg, rfl, howner⟩ fun heq => hw ?_
    rw [honly g hg (by omega), hnobody.1] at howner
    omega
  · rename_i hsomebody
    have heach : (t.update j fun h => h.answered a).Each (Handle.Claimed Owns) := by
      refine ht.update (fun _ _ => rfl) ?_ fun g hg _ => ht.each g hg
      intro g hg hgid
      obtain rfl := honly g hg (by omega)
      obtain ⟨w, hw, hown, hwaiters⟩ := (ht.each g hg).owned
      refine ⟨⟨w, hw, hown, hwaiters⟩, fun hzero => absurd ⟨hzero, ?_⟩ hsomebody⟩
      have hzero : g.owner = 0 := hzero
      rcases hwaiters with hnone | ⟨-, hne⟩
      · exact hnone
      · omega
    exact ⟨⟨⟨heach.ids, heach.bounded, heach.each⟩, ht.queued.tail fun _ => pending_answered a⟩, rfl,
      fun w k _ hhas => hhas.update (fun _ _ => rfl) fun _ => rfl⟩

theorem Claimed.removeWaiter (ht : t.Claimed Owns queue) (k : Int) (fiber : Nat) :
    (t.update k fun h => h.removeWaiter fiber).Claimed Owns queue :=
  ⟨ht.update (fun _ _ => rfl) (fun h hh _ => (ht.each h hh).removeWaiter fiber)
    fun h hh _ => ht.each h hh,
    ht.queued.congr fun _ => pending_update (fun _ _ => rfl) fun _ _ _ => rfl⟩

/-- The owner of a handle has ended. -/
theorem Claimed.releaseOne (ht : t.Claimed Owns queue) (fiber k : Nat) :
    (t.releaseOne fiber k).Claimed (fun w j => w = 0 ∨ Owns w j ∧ (w = fiber → j ≠ k)) queue := by
  have hother (g : Handle) (hg : g ∈ t.handles) (hne : g.id ≠ k ∨ g.owner ≠ fiber) :
      g.Claimed fun w j => w = 0 ∨ Owns w j ∧ (w = fiber → j ≠ k) := by
    refine (ht.each g hg).mono fun w hw hown => .inr ⟨hown, ?_⟩
    rintro rfl
    exact hne.resolve_right (not_not.mpr hw)
  have hothers (g : Handle) (hg : g ∈ t.handles) (hne : (g.id : Int) ≠ k) := hother g hg (.inl (by omega))
  unfold HandleTable.releaseOne
  split
  · rename_i hnone
    refine ⟨⟨ht.ids, ht.bounded, fun g hg => hother g hg (.inl ?_)⟩, ht.queued⟩
    rintro rfl
    rw [get?_of_mem ht.ids hg] at hnone
    cases hnone
  · rename_i h hfound
    obtain ⟨hh, hid⟩ := mem_of_get? hfound
    have honly (g : Handle) (hg : g ∈ t.handles) (hgid : (g.id : Int) = k) : g = h :=
      List.inj_on_of_nodup_map ht.ids hg hh (by omega)
    split
    · rename_i howner
      refine ⟨⟨ht.ids, ht.bounded, fun g hg => hother g hg ?_⟩, ht.queued⟩
      by_cases hgk : (g.id : Int) = k
      · exact .inr (honly g hg hgk ▸ howner)
      · exact .inl (by omega)
    · rename_i howner
      have hnobody : h.waiters.erase fiber = [] := (ht.each h hh).erase_waiters (not_not.mp howner)
      dsimp only
      split
      · rename_i hdone
        have hdone : h.isDone = true := (Bool.and_eq_true_iff.mp hdone).1
        refine ⟨ht.erase hothers, ht.queued.congr fun j => ?_⟩
        rw [pending_erase]
        refine ⟨And.left, fun hpending => ⟨hpending, fun hj => ?_⟩⟩
        obtain rfl : j = h.id := by omega
        exact not_pending ht.ids hh hdone hpending
      · rename_i hpending
        have hsame (g : Handle) (hgid : (g.id : Int) = k) : h.id = g.id := by omega
        have hpending : h.isDone = false := by
          simp only [Handle.removeWaiter, hnobody, List.isEmpty_nil, Bool.and_true] at hpending
          simpa [Handle.isDone] using hpending
        refine ⟨ht.update hsame (fun g hg _ => ?_) hothers,
          ht.queued.congr fun j => pending_update hsame fun g hg hgid => ?_⟩
        · exact ⟨⟨0, rfl, .inl rfl, .inl hnobody⟩, fun _ => hpending⟩
        · rw [honly g hg hgid]
          rfl

theorem Claimed.release (ht : t.Claimed Owns queue) (fiber : Nat) (ids : List Nat) :
    (t.release fiber ids).Claimed (fun w j => w = 0 ∨ Owns w j ∧ (w = fiber → j ∉ ids)) queue := by
  induction ids generalizing t Owns with
  | nil => exact ht.mono fun _ _ hown => .inr ⟨hown, by simp⟩
  | cons k ids ih =>
    refine (ih (ht.releaseOne fiber k)).mono ?_
    rintro w j (hzero | ⟨hzero | ⟨hown, hk⟩, hids⟩)
    · exact .inl hzero
    · exact .inl hzero
    · exact .inr ⟨hown, fun hw => by simp [hk hw, hids hw]⟩

/-- With nothing to be completed, handles that are nobody's are gone. -/
theorem Claimed.handles_eq_nil (ht : t.Claimed (fun w _ => w = 0) []) : t.handles = [] := by
  refine List.eq_nil_iff_forall_not_mem.mpr fun h hh => ?_
  obtain ⟨w, hw, rfl, -⟩ := (ht.each h hh).owned
  have hpending : t.Pending h.id := ⟨h, hh, rfl, (ht.each h hh).orphan hw⟩
  exact absurd ((ht.queued.mem_iff h.id).mpr hpending) List.not_mem_nil

/-! ## Balance -/

theorem Balanced.congr (ht : t.Balanced Owns queue) (howns : ∀ w k, Owns w k ↔ Owns' w k) :
    t.Balanced Owns' queue :=
  ⟨ht.mono fun w k => (howns w k).mp, fun h => ht.has ((howns _ _).mpr h),
    fun h => ht.ne_zero ((howns _ _).mpr h)⟩

theorem Balanced.of_eq (ht : t.Balanced Owns queue) (hhandles : u.handles = t.handles)
    (hlast : u.lastId = t.lastId) (hperm : rest.Perm queue) : u.Balanced Owns rest := by
  refine ⟨⟨⟨?_, ?_, ?_⟩, (ht.queued.perm hperm).congr fun k => ?_⟩, fun {fiber k} h => ?_, ht.ne_zero⟩
  · rw [hhandles]
    exact ht.ids
  · rw [hhandles, hlast]
    exact ht.bounded
  · rw [hhandles]
    exact ht.each
  · rw [Pending, Pending, hhandles]
  · rw [Has, hhandles]
    exact ht.has h

/-- A handle is one fiber's. -/
theorem Balanced.unique (ht : t.Balanced Owns queue) {w w' : Nat} (hw : Owns w j) (hw' : Owns w' j) :
    w = w' := by
  obtain ⟨g, hg, hid, howner⟩ := ht.has hw
  obtain ⟨g', hg', hid', howner'⟩ := ht.has hw'
  obtain rfl : g = g' := List.inj_on_of_nodup_map ht.ids hg hg' (hid.trans hid'.symm)
  omega

theorem Balanced.create (ht : t.Balanced Owns queue) {new : Nat} (hne : fiber ≠ 0)
    (h : t.create? fiber = some (new, u)) :
    u.Balanced (fun w k => Owns w k ∨ w = fiber ∧ k = new) (new :: queue) := by
  have hclaimed : t.Claimed (fun w k => Owns w k ∨ w = fiber ∧ k = new) queue := ht.mono fun _ _ => .inl
  have heach := hclaimed.create h ⟨⟨fiber, rfl, .inr ⟨rfl, rfl⟩, .inl rfl⟩, fun _ => rfl⟩
  have hfresh : new ∉ queue := by
    intro hmem
    obtain ⟨g, hg, hid, -⟩ := (ht.queued.mem_iff new).mp hmem
    have hle := ht.bounded g hg
    obtain ⟨-, rfl, -⟩ := create?_eq_some h
    omega
  refine ⟨⟨heach, List.nodup_cons.mpr ⟨hfresh, ht.queued.nodup⟩, fun k => ?_⟩, ?_, ?_⟩
  · rw [List.mem_cons, pending_create h, ht.queued.mem_iff, or_comm]
  · obtain ⟨-, -, rfl⟩ := create?_eq_some h
    rintro w k (hown | ⟨rfl, rfl⟩)
    · obtain ⟨g, hg, hid, howner⟩ := ht.has hown
      exact ⟨g, List.mem_append_left _ hg, hid, howner⟩
    · exact ⟨_, List.mem_append_right _ List.mem_cons_self, rfl, rfl⟩
  · rintro w k (hown | ⟨rfl, -⟩)
    · exact ht.ne_zero hown
    · exact hne

theorem Balanced.answer (ht : t.Balanced Owns (j :: rest)) (a : Answer) :
    ∃ u, t.answer j a = .ok u ∧ u.Balanced Owns rest ∧ u.lastId = t.lastId := by
  obtain ⟨u, hanswer, hu, hlast, hhas⟩ := ht.toClaimed.answer a
  exact ⟨u, hanswer, ⟨hu, fun hown => hhas _ _ (ht.ne_zero hown) (ht.has hown), ht.ne_zero⟩, hlast⟩

theorem Balanced.consume (ht : t.Balanced Owns queue) (hh : h ∈ t.handles) (hdone : h.isDone = true)
    (howner : h.owner = fiber) :
    (t.consume h.id fiber).Balanced (fun w k => Owns w k ∧ k ≠ h.id) queue := by
  have hnobody := (ht.each h hh).erase_waiters howner
  rw [consume_eq ht.ids hh, if_pos hnobody]
  refine ⟨⟨ht.erase fun g hg hne => ?_, ht.queued.congr fun k => ?_⟩, fun {w k} hown => ?_,
    fun hown => ht.ne_zero hown.1⟩
  · exact (ht.each g hg).mono fun w _ hown => ⟨hown, by omega⟩
  · rw [pending_erase]
    refine ⟨And.left, fun hpending => ⟨hpending, fun hk => ?_⟩⟩
    obtain rfl : k = h.id := by omega
    exact not_pending ht.ids hh hdone hpending
  · exact (ht.has hown.1).erase (by have := hown.2; omega)

theorem Balanced.park (ht : t.Balanced Owns queue) (hh : h ∈ t.handles) (howner : h.owner = fiber) :
    (t.update h.id fun h => h.addWaiter fiber).Balanced Owns queue := by
  have hsame (g : Handle) : (g.addWaiter fiber).id = g.id ∧ (g.addWaiter fiber).isDone = g.isDone ∧
      (g.addWaiter fiber).owner = g.owner := by
    unfold Handle.addWaiter
    split <;> exact ⟨rfl, rfl, rfl⟩
  refine ⟨⟨ht.update (fun g _ => (hsame g).1) (fun g hg hid => ?_) fun g hg _ => ht.each g hg,
    ht.queued.congr fun _ => pending_update (fun g _ => (hsame g).1) fun g _ _ => (hsame g).2.1⟩,
    fun hown => (ht.has hown).update (fun g _ => (hsame g).1) fun g => (hsame g).2.2, ht.ne_zero⟩
  obtain rfl : g = h := List.inj_on_of_nodup_map ht.ids hg hh (by omega)
  obtain ⟨w, hw, hown, -⟩ := (ht.each g hg).owned
  exact (ht.each g hg).addWaiter howner (by have := ht.ne_zero hown; omega)

theorem Balanced.removeWaiter (ht : t.Balanced Owns queue) (k : Int) (fiber : Nat) :
    (t.update k fun h => h.removeWaiter fiber).Balanced Owns queue :=
  ⟨ht.toClaimed.removeWaiter k fiber, fun hown => (ht.has hown).update (fun _ _ => rfl) fun _ => rfl,
    ht.ne_zero⟩

theorem balanced_of_nil (hnone : t.handles = []) (howns : ∀ w k, ¬ Owns w k) : t.Balanced Owns [] := by
  refine ⟨⟨⟨?_, ?_, ?_⟩, List.nodup_nil, fun k => ?_⟩, fun h => absurd h (howns _ _),
    fun h => absurd h (howns _ _)⟩ <;> simp [Pending, hnone]

theorem lastId_release (fiber : Nat) (ids : List Nat) : (t.release fiber ids).lastId = t.lastId := by
  induction ids generalizing t with
  | nil => rfl
  | cons k ids ih =>
    rw [release, List.foldl_cons, ← release, ih]
    unfold HandleTable.releaseOne
    split
    · rfl
    · split
      · rfl
      · dsimp only
        split <;> rfl

theorem release_eq_self (hnone : ∀ h ∈ t.handles, h.owner ≠ fiber) (ids : List Nat) :
    t.release fiber ids = t := by
  induction ids with
  | nil => rfl
  | cons k ids ih =>
    have hone : t.releaseOne fiber k = t := by
      unfold HandleTable.releaseOne
      split
      · rfl
      · rename_i h hfound
        rw [if_pos (hnone h (mem_of_get? hfound).1)]
    rw [release, List.foldl_cons, hone]
    exact ih

end

end HandleTable

end TileMind
