import Mathlib.Data.List.Induction
import TileMind.Proofs.Machine.Completion
import TileMind.Proofs.Machine.Dealings

/-!
# TileMind.Proofs.Machine.Leaks

Who keeps a completed handle in the table. Its creator does for as long as it lives, and so does every
fiber that has been called for it and has still to read it. A fiber that is cancelled between its
call and its next run is no longer parked, so nothing takes it off the handle's list: if the
creator has ended, that handle stays for good.

* `HandleTable.Kept`: the invariant of the table, with those who may own and read handles left open.
* `Scheduler.Tended`: the invariant of the scheduler, with the fibers that left handles behind.
* `kept_handles`: what stays in the table after any operations.
-/

namespace TileMind

variable {H : Type}

/-! ## The table -/

/-- A handle that is in the table for somebody. -/
structure Handle.Kept (Owns Reads : Nat → Nat → Prop) (h : Handle) : Prop where
  pos : 0 < h.id
  nodup : h.waiters.Nodup
  owner : h.owner = 0 ∨ ∃ fiber : Nat, h.owner = fiber ∧ Owns fiber h.id
  readers : ∀ fiber ∈ h.waiters, Reads fiber h.id
  wanted : h.isDone = true → h.owner ≠ 0 ∨ h.waiters ≠ []

theorem Handle.Kept.mono {Owns Owns' Reads Reads' : Nat → Nat → Prop} {h : Handle}
    (hh : h.Kept Owns Reads) (howns : ∀ fiber k, Owns fiber k → Owns' fiber k)
    (hreads : ∀ fiber k, Reads fiber k → Reads' fiber k) : h.Kept Owns' Reads' :=
  ⟨hh.pos, hh.nodup, hh.owner.imp_right fun ⟨fiber, heq, hown⟩ => ⟨fiber, heq, howns _ _ hown⟩,
    fun fiber hmem => hreads _ _ (hh.readers fiber hmem), hh.wanted⟩

theorem Handle.Kept.removeWaiter {Owns Reads : Nat → Nat → Prop} {h : Handle} (hh : h.Kept Owns Reads)
    (fiber : Nat) (hleft : h.isDone = true → h.owner ≠ 0 ∨ (h.removeWaiter fiber).waiters ≠ []) :
    (h.removeWaiter fiber).Kept Owns fun w j => Reads w j ∧ (w = fiber → j ≠ h.id) := by
  refine ⟨hh.pos, hh.nodup.erase fiber, hh.owner, ?_, hleft⟩
  intro w hw
  obtain ⟨hne, hmem⟩ := hh.nodup.mem_erase_iff.mp hw
  exact ⟨hh.readers w hmem, fun heq => absurd heq hne⟩

/-- The fiber is not listed under `k` at a handle of another number. -/
theorem Handle.Kept.apart {Owns Reads : Nat → Nat → Prop} {h : Handle} (hh : h.Kept Owns Reads)
    {k : Nat} (hk : h.id ≠ k) (fiber : Nat) :
    h.Kept Owns fun w j => Reads w j ∧ (w = fiber → j ≠ k) :=
  ⟨hh.pos, hh.nodup, hh.owner, fun w hw => ⟨hh.readers w hw, fun _ => hk⟩, hh.wanted⟩

namespace HandleTable

/-- Numbers are in use once, and all handles are there for somebody. -/
def Kept (t : HandleTable) (Owns Reads : Nat → Nat → Prop) : Prop := t.Each (Handle.Kept Owns Reads)

section

variable {t u v : HandleTable} {Owns Owns' Reads Reads' : Nat → Nat → Prop} {fiber : Nat} {k : Int}
  {h : Handle}

theorem Kept.mono (ht : t.Kept Owns Reads) (howns : ∀ fiber k, Owns fiber k → Owns' fiber k)
    (hreads : ∀ fiber k, Reads fiber k → Reads' fiber k) : t.Kept Owns' Reads' :=
  ⟨ht.ids, ht.bounded, fun h hh => (ht.each h hh).mono howns hreads⟩

/-- A completed handle that nobody can read is dropped, and no other is. -/
theorem Kept.answer (ht : t.Kept Owns Reads) {a : Answer} (h : t.answer k a = .ok u) :
    u.Kept Owns Reads := by
  rw [answer_eq, complete] at h
  split at h
  · cases h
  · rename_i g hg
    split at h
    · cases h
    · split at h
      · cases h
        exact ht.erase fun x hx _ => ht.each x hx
      · rename_i horphan
        cases h
        have hkept : (t.update k fun h => h.answered a).Kept Owns Reads := by
          refine ht.update (fun _ _ => rfl) ?_ fun x hx _ => ht.each x hx
          intro x hx hid
          have hsome := get?_of_mem ht.ids hx
          rw [hid, hg] at hsome
          obtain rfl := Option.some.inj hsome
          obtain ⟨hpos, hnodup, howner, hreaders, -⟩ := ht.each g hx
          refine ⟨hpos, hnodup, howner, hreaders, fun _ => ?_⟩
          by_contra hnobody
          obtain ⟨hfree, halone⟩ := not_or.mp hnobody
          have hfree : g.owner = 0 := not_not.mp hfree
          have halone : g.waiters = [] := not_not.mp halone
          simp [hfree, halone] at horphan
        exact ⟨hkept.ids, hkept.bounded, hkept.each⟩

theorem Kept.create (ht : t.Kept Owns Reads) {owner : Int} {new : Nat}
    (h : t.create? owner = some (new, u))
    (howner : owner = 0 ∨ ∃ fiber : Nat, owner = fiber ∧ Owns fiber new) : u.Kept Owns Reads := by
  have hpos : 0 < new := by
    obtain ⟨-, rfl, -⟩ := create?_eq_some h
    exact Nat.succ_pos _
  exact Each.create ht h ⟨hpos, List.nodup_nil, howner, by simp, by simp [Handle.isDone]⟩

theorem Kept.consume (ht : t.Kept Owns Reads) (hh : h ∈ t.handles) (fiber : Nat) :
    (t.consume h.id fiber).Kept Owns fun w j => Reads w j ∧ (w = fiber → j ≠ h.id) := by
  have hother : ∀ g ∈ t.handles, (g.id : Int) ≠ h.id →
      g.Kept Owns fun w j => Reads w j ∧ (w = fiber → j ≠ h.id) :=
    fun g hg hne => (ht.each g hg).apart (by omega) fiber
  rw [consume_eq ht.ids hh fiber]
  split
  · exact ht.erase hother
  · rename_i hmore
    refine ht.update (fun _ _ => rfl) ?_ hother
    intro g hg hid
    obtain rfl : g = h := List.inj_on_of_nodup_map ht.ids hg hh (by omega)
    exact (ht.each g hg).removeWaiter fiber fun _ => .inr hmore

theorem Kept.leave (ht : t.Kept Owns Reads) {k : Nat}
    (hpending : ∀ h ∈ t.handles, h.id = k → h.isDone = false) (fiber : Nat) :
    (t.update k fun h => h.removeWaiter fiber).Kept Owns
      fun w j => Reads w j ∧ (w = fiber → j ≠ k) := by
  refine ht.update (fun _ _ => rfl) ?_ fun g hg hne => (ht.each g hg).apart (by omega) fiber
  intro g hg hid
  have hid : g.id = k := by omega
  subst hid
  refine (ht.each g hg).removeWaiter fiber fun hdone => ?_
  rw [hpending g hg rfl] at hdone
  cases hdone

theorem Kept.park (ht : t.Kept Owns Reads) (k fiber : Nat) :
    (t.update k fun h => h.addWaiter fiber).Kept Owns
      fun w j => Reads w j ∨ (w = fiber ∧ j = k) := by
  have hsame (h : Handle) : (h.addWaiter fiber).id = h.id := by
    unfold Handle.addWaiter
    split <;> rfl
  refine ht.update (fun h _ => hsame h) ?_ fun g hg _ => (ht.each g hg).mono (fun _ _ h => h) (fun _ _ => .inl)
  intro g hg hid
  have hkept := ht.each g hg
  unfold Handle.addWaiter
  split
  · exact hkept.mono (fun _ _ h => h) (fun _ _ => .inl)
  · rename_i hnew
    refine ⟨hkept.pos, ?_, hkept.owner, ?_, fun _ => .inr (by simp)⟩
    · refine List.nodup_append.mpr ⟨hkept.nodup, List.nodup_singleton _, ?_⟩
      rintro x hx y hy rfl
      obtain rfl := List.mem_singleton.mp hy
      exact hnew (List.contains_iff_mem.mpr hx)
    · intro w hw
      rcases List.mem_append.mp hw with hw | hw
      · exact .inl (hkept.readers w hw)
      · exact .inr ⟨List.mem_singleton.mp hw, Int.ofNat_inj.mp hid⟩

/-- The creator of a handle has ended, and what was there for it alone goes. -/
theorem Kept.releaseOne (ht : t.Kept Owns Reads) (fiber k : Nat) :
    (t.releaseOne fiber k).Kept (fun w j => Owns w j ∧ (w = fiber → j ≠ k)) Reads := by
  -- a handle of another number, or of another fiber
  have hother (g : Handle) (hg : g ∈ t.handles) (hne : g.id ≠ k ∨ g.owner ≠ fiber) :
      g.Kept (fun w j => Owns w j ∧ (w = fiber → j ≠ k)) Reads := by
    obtain ⟨hpos, hnodup, howner, hreaders, hwanted⟩ := ht.each g hg
    refine ⟨hpos, hnodup, howner.imp_right ?_, hreaders, hwanted⟩
    rintro ⟨w, hw, hown⟩
    refine ⟨w, hw, hown, ?_⟩
    rintro rfl
    exact hne.resolve_right (not_not.mpr hw)
  have hothers (g : Handle) (hg : g ∈ t.handles) (hne : (g.id : Int) ≠ k) := hother g hg (.inl (by omega))
  unfold HandleTable.releaseOne
  split
  · rename_i hnone
    refine ⟨ht.ids, ht.bounded, fun g hg => hother g hg (.inl ?_)⟩
    rintro rfl
    rw [get?_of_mem ht.ids hg] at hnone
    cases hnone
  · rename_i h hfound
    obtain ⟨hh, hid⟩ := mem_of_get? hfound
    split
    · rename_i howner
      refine ⟨ht.ids, ht.bounded, fun g hg => hother g hg ?_⟩
      by_cases hgk : g.id = k
      · obtain rfl : g = h := List.inj_on_of_nodup_map ht.ids hg hh (by omega)
        exact .inr howner
      · exact .inl hgk
    · dsimp only
      split
      · exact ht.erase hothers
      · rename_i hwanted
        refine ht.update (fun g hg => by simp only [Handle.removeWaiter]; omega) ?_ hothers
        intro g _ _
        obtain ⟨hpos, hnodup, -, hreaders, -⟩ := ht.each h hh
        refine ⟨hpos, hnodup.erase fiber, .inl rfl, fun w hw => hreaders w (List.mem_of_mem_erase hw), ?_⟩
        intro hdone
        refine .inr fun hnone => hwanted ?_
        simp only [Bool.and_eq_true, List.isEmpty_iff]
        exact ⟨hdone, hnone⟩

theorem Kept.release (ht : t.Kept Owns Reads) (fiber : Nat) (ids : List Nat) :
    (t.release fiber ids).Kept (fun w j => Owns w j ∧ (w = fiber → j ∉ ids)) Reads := by
  induction ids generalizing t Owns with
  | nil => exact ht.mono (fun _ _ hown => ⟨hown, by simp⟩) fun _ _ h => h
  | cons k ids ih =>
    refine (ih (ht.releaseOne fiber k)).mono ?_ fun _ _ h => h
    rintro w j ⟨⟨hown, hk⟩, hids⟩
    exact ⟨hown, fun hw => by simp [hk hw, hids hw]⟩

/-! ## Host code -/

/-- What host code may do to the table: it answers handles, and creates some that no fiber owns. -/
inductive Tends : HandleTable → HandleTable → Prop where
  | refl (t : HandleTable) : Tends t t
  | answer {t u v : HandleTable} {k : Int} {a : Answer} (h : t.answer k a = .ok u)
      (rest : Tends u v) : Tends t v
  | create {t u v : HandleTable} {new : Nat} (h : t.create? 0 = some (new, u)) (rest : Tends u v) :
      Tends t v

theorem Tends.trans (h : t.Tends u) (h' : u.Tends v) : t.Tends v := by
  induction h with
  | refl t => exact h'
  | answer h _ ih => exact .answer h (ih h')
  | create h _ ih => exact .create h (ih h')

theorem Tends.evolves (h : t.Tends u) : ∃ as, Evolves (fun _ => False) t as u := by
  induction h with
  | refl t => exact ⟨[], .refl t⟩
  | answer h _ ih =>
    obtain ⟨as, hrest⟩ := ih
    exact ⟨_, .step (.answer h) hrest⟩
  | create h _ ih =>
    obtain ⟨as, hrest⟩ := ih
    exact ⟨_, .step (.create h) hrest⟩

theorem Kept.tends (ht : t.Kept Owns Reads) (h : t.Tends u) : u.Kept Owns Reads := by
  induction h with
  | refl t => exact ht
  | answer h _ ih => exact ih (ht.answer h)
  | create h _ ih => exact ih (ht.create h (.inl rfl))

end

end HandleTable

/-- Host code made one stage of another and left nobody's handle behind. -/
def Stage.Tends (s t : Stage H) : Prop := s.handles.Tends t.handles

structure Machine.Tends (m : Machine H) : Prop where
  sync : ∀ {fn h call}, m.services.functions.get? fn = some h → h.sync = some call →
    ∀ c args (s : Stage H), s.Tends (call c args s).2
  async : ∀ {fn h call}, m.services.functions.get? fn = some h → h.async = some call →
    ∀ c args handle (s : Stage H), s.Tends (call c args handle s).2
  get : ∀ {type get}, (m.hooks type).get = some get → ∀ {obj field} {s : Stage H} {r},
    get obj field s = .ok r → s.Tends r.2
  set : ∀ {type set}, (m.hooks type).set = some set → ∀ {obj field v} {s : Stage H} {r},
    set obj field v s = .ok r → s.Tends r.2

theorem Stage.Tends.serves {s t : Stage H} (h : s.Tends t) : s.Serves t := HandleTable.Tends.evolves h

theorem Stage.tends_resolve (s : Stage H) (handle : Int) (v : Value) :
    s.Tends (s.resolve handle v) := by
  unfold Stage.resolve
  split
  · rename_i t ht
    exact .answer (a := .resolved v) ht (.refl _)
  · exact .refl _

theorem Stage.tends_reject (s : Stage H) (handle : Int) (fault : Option Nat) :
    s.Tends (s.reject handle fault) := by
  unfold Stage.reject
  split
  · rename_i t ht
    exact .answer (a := .rejected fault) ht (.refl _)
  · exact .refl _

theorem Stage.tends_cancel {s t : Stage H} {handle : Int} (h : s.cancel handle = .ok t) : s.Tends t := by
  unfold Stage.cancel at h
  dsimp only at h
  rw [Stage.newFault_handles] at h
  cases ht : s.handles.cancel handle (s.newFault (cancelledHandle handle)).1 with
  | error e =>
    rw [ht] at h
    cases h
  | ok table =>
    rw [ht] at h
    cases h
    exact .answer (a := .cancelled _) ht (.refl _)

theorem Machine.Tends.polite {m : Machine H} (hm : m.Tends) : m.Polite where
  sync hfn hcall c args s := (hm.sync hfn hcall c args s).serves
  async hfn hcall c args handle s := (hm.async hfn hcall c args handle s).serves
  get hget _ _ _ _ hr := (hm.get hget hr).serves
  set hset _ _ _ _ _ hr := (hm.set hset hr).serves

theorem Machine.Tends.deals [Host H] {m : Machine H} (hm : m.Tends) :
    m.Deals Stage.Tends fun _ => Stage.Tends where
  trans := HandleTable.Tends.trans
  heap _ _ := .refl _
  store _ _ _ _ := .refl _
  sync := hm.sync
  get := hm.get
  set := hm.set
  started hfn hcall c args id s t hcalled := by
    have := hm.async hfn hcall c args id s
    rwa [hcalled] at this
  refused hfn hcall c args id start s t hcalled _ heap fault := by
    have hhost := hm.async hfn hcall c args id s
    rw [hcalled] at hhost
    exact HandleTable.Tends.trans hhost (Stage.tends_reject { t with heap := heap } id fault)
  answered s id v := s.tends_resolve id v

/-! ## Running -/

/-- The table while fiber `id` is away, of which the others own and read what `Owns` and `Reads` say.
The fiber owns what it has created; where it `stands` it may be listed. -/
def KeptBy (m : Machine H) (Owns Reads : Nat → Nat → Prop) (id : Nat) (stands : Prop) (f : Fiber)
    (s : Stage H) : Prop :=
  s.handles.Kept (fun w j => Owns w j ∨ w = id ∧ j ∈ f.handles)
    (fun w j => Reads w j ∨ w = id ∧ stands ∧ Awaits m f j)

section

variable {m : Machine H} {Owns Reads : Nat → Nat → Prop} {id : Nat} {stands : Prop} {f g : Fiber}
  {s t : Stage H}

theorem KeptBy.weaken {stands' : Prop} (h : KeptBy m Owns Reads id stands f s)
    (hle : stands → stands') : KeptBy m Owns Reads id stands' f s := by
  refine h.mono (fun _ _ h => h) ?_
  rintro w j (hreads | ⟨hw, hstands, hat⟩)
  · exact .inl hreads
  · exact .inr ⟨hw, hle hstands, hat⟩

/-- A fiber that is not listed may go anywhere. -/
theorem KeptBy.moved (h : KeptBy m Owns Reads id False f s) (hg : g.handles = f.handles)
    (ht : s.Tends t) : KeptBy m Owns Reads id False g t := by
  refine (HandleTable.Kept.tends h ht).mono ?_ ?_
  · rw [hg]
    exact fun _ _ h => h
  · rintro w j (hreads | ⟨-, hfalse, -⟩)
    · exact .inl hreads
    · exact hfalse.elim

/-- So may one that does not stand at an `await`. -/
theorem KeptBy.unlisted (h : KeptBy m Owns Reads id stands f s)
    (hnone : ∀ x ∈ s.handles.handles, id ∈ x.waiters → ¬ Awaits m f x.id) :
    KeptBy m Owns Reads id False f s := by
  refine ⟨h.ids, h.bounded, fun x hx => ?_⟩
  obtain ⟨hpos, hnodup, howner, hreaders, hwanted⟩ := h.each x hx
  refine ⟨hpos, hnodup, howner, fun w hw => ?_, hwanted⟩
  rcases hreaders w hw with hreads | ⟨rfl, -, hat⟩
  · exact .inl hreads
  · exact absurd hat (hnone x hx hw)

def Outcome.KeptBy (m : Machine H) (Owns Reads : Nat → Nat → Prop) (id : Nat) : Outcome H → Prop
  | .next g t => TileMind.KeptBy m Owns Reads id False g t
  | .stop status g t => TileMind.KeptBy m Owns Reads id (status = .waiting) g t
  | .crash _ => True

theorem Outcome.Quiet.keptBy {o : Outcome H} (ho : o.Quiet Stage.Tends f.handles s)
    (hs : TileMind.KeptBy m Owns Reads id False f s) : o.KeptBy m Owns Reads id := by
  cases o with
  | next g t => exact hs.moved ho.2 ho.1
  | stop status g t => exact (hs.moved ho.2.2 ho.2.1).weaken False.elim
  | crash c => trivial

variable [Host H] {fr : Frame} {rest : List Frame} {i : Instr}

/-- An instruction of a fiber that is not listed. -/
theorem KeptBy.step_unlisted (hm : m.Tends) (hid : f.id = id) (hs : KeptBy m Owns Reads id False f s)
    (hframes : f.frames = fr :: rest) (hi : Machine.instrAt m.program fr = .ok i) :
    (step m fr i f s).KeptBy m Owns Reads id := by
  have hself : (f.jump (fr.pc + 1)).id = id := (f.sameRun_jump _).id.trans hid
  have hhandles := f.jump_handles (fr.pc + 1)
  obtain ⟨hquiet, -⟩ | ⟨-, hhandled⟩ := handled_step hm.deals fr i f s
  · exact hquiet.keptBy hs
  · generalize hout : step m fr i f s = out at hhandled
    cases hhandled with
    | quiet quiet =>
      rw [hhandles] at quiet
      exact quiet.keptBy hs
    | @asks g mid t new table below op before created after same frames handlers handles stack length =>
      have hbefore : KeptBy m Owns Reads id False { f with handles := f.handles ++ [new] } mid := by
        refine (HandleTable.Kept.tends hs before).mono ?_ ?_
        · rintro w j (hown | ⟨hw, hmem⟩)
          · exact .inl hown
          · exact .inr ⟨hw, List.mem_append_left _ hmem⟩
        · rintro w j (hreads | ⟨-, hfalse, -⟩)
          · exact .inl hreads
          · exact hfalse.elim
      have hcreated := hbefore.create created (.inr ⟨id, by rw [hself], .inr ⟨rfl, by simp⟩⟩)
      have hnew : KeptBy m Owns Reads id False { f with handles := f.handles ++ [new] }
        { mid with handles := table } := hcreated
      exact hnew.moved (by rw [handles, hhandles]) after
    | @reads o k x below op stack found done after =>
      have hread := HandleTable.Kept.consume hs (HandleTable.mem_of_get? found).1 id
      have hnow : KeptBy m Owns Reads id False f
          { s with handles := s.handles.consume x.id (f.jump (fr.pc + 1)).id } := by
        rw [hself]
        exact hread.mono (fun _ _ h => h) fun _ _ h => h.1
      rw [hhandles] at after
      exact after.keptBy hnow
    | parks op stack found pending =>
      obtain ⟨k, below, x, hat, hx, -, hg, ht⟩ := step_waiting hframes hi hout
      have hparked := HandleTable.Kept.park hs x.id f.id
      rw [hg, ht]
      refine hparked.mono (fun _ _ h => h) ?_
      rintro w j ((hreads | ⟨-, hfalse, -⟩) | ⟨rfl, rfl⟩)
      · exact .inl hreads
      · exact hfalse.elim
      · refine .inr ⟨hid, rfl, Awaits.parked ⟨fr, i, below, ?_⟩ _ _⟩
        rw [(HandleTable.mem_of_get? hx).2]
        exact hat

/-- An instruction of a fiber that is listed at most where it stands. -/
theorem KeptBy.step (hm : m.Tends) (hid : f.id = id) (hs : KeptBy m Owns Reads id True f s)
    (hframes : f.frames = fr :: rest) (hi : Machine.instrAt m.program fr = .ok i) :
    (TileMind.step m fr i f s).KeptBy m Owns Reads id := by
  by_cases hlisted : ∃ x ∈ s.handles.handles, id ∈ x.waiters ∧ Awaits m f x.id
  · obtain ⟨x, hx, -, hawaits⟩ := hlisted
    obtain ⟨below, hat⟩ := hawaits.here hframes hi
    have hfound := HandleTable.get?_of_mem hs.ids hx
    cases hdone : x.isDone with
    | true =>
      have hread := HandleTable.Kept.consume hs hx id
      have hnow : KeptBy m Owns Reads id False f
          { s with handles := s.handles.consume x.id f.id } := by
        rw [hid]
        refine hread.mono (fun _ _ h => h) ?_
        rintro w j ⟨hreads | ⟨hw, -, hat'⟩, hne⟩
        · exact .inl hreads
        · have hjk := hat'.unique hawaits
          exact absurd (by omega) (hne hw)
      exact (hat.reads hm.deals hfound hdone).keptBy hnow
    | false =>
      have hparked := HandleTable.Kept.park hs x.id f.id
      rw [hat.parks hfound hdone]
      refine hparked.mono (fun _ _ h => h) ?_
      rintro w j ((hreads | ⟨hw, -, hat'⟩) | ⟨rfl, rfl⟩)
      · exact .inl hreads
      · exact .inr ⟨hw, rfl, hat'.parked _ _⟩
      · exact .inr ⟨hid, rfl, hawaits.parked _ _⟩
  · have hnone : ∀ x ∈ s.handles.handles, id ∈ x.waiters → ¬ Awaits m f x.id :=
      fun x hx hmem hat => hlisted ⟨x, hx, hmem, hat⟩
    exact (hs.unlisted hnone).step_unlisted hm hid hframes hi

theorem carries_keptBy (hm : m.Tends) :
    m.Carries (fun f s => f.id = id ∧ KeptBy m Owns Reads id True f s)
      (fun status g t => KeptBy m Owns Reads id (status ≠ .done ∧ status ≠ .fault) g t) where
  ret := by
    rintro f s fr rest ⟨hid, hs⟩ hframes hover
    refine ⟨f.continues_ret.id.trans hid, ?_⟩
    have hnone : ∀ x ∈ s.handles.handles, id ∈ x.waiters → ¬ Awaits m f x.id := by
      rintro x - - ⟨fr', i, below, hat⟩
      obtain ⟨rest', hframes'⟩ := hat.frame
      obtain ⟨rfl, -⟩ : fr = fr' ∧ rest = rest' := by simpa [hframes] using hframes'
      exact hover i hat.instr
    exact ((hs.unlisted hnone).moved f.ret_handles (.refl _)).weaken False.elim
  next := by
    rintro f g s t fr rest i ⟨hid, hs⟩ hframes hi hstep
    have hkept := hs.step hm hid hframes hi
    have hmoves := step_moves (f := f) (i := i) (s := s) (m.keeps_true f.id) fr
    rw [hstep] at hkept hmoves
    exact ⟨hmoves.continues.id.trans ((f.sameRun_jump _).id.trans hid), hkept.weaken False.elim⟩
  stop := by
    rintro f g s t fr rest i status ⟨hid, hs⟩ hframes hi hstep
    have hkept := hs.step hm hid hframes hi
    rw [hstep] at hkept
    exact hkept.weaken (by rintro rfl; simp)
  done := by
    rintro f s ⟨-, hs⟩ hframes
    have hnone : ∀ x ∈ s.handles.handles, id ∈ x.waiters → ¬ Awaits m f x.id := by
      rintro x - - ⟨fr, i, below, hat⟩
      obtain ⟨rest, hframes'⟩ := hat.frame
      rw [hframes] at hframes'
      cases hframes'
    exact ((hs.unlisted hnone).moved (g := { f with state := .done }) rfl (.refl _)).weaken False.elim
  spent := by
    rintro f s fr rest ⟨-, hs⟩ -
    exact hs.weaken (by simp)

end

/-! ## The scheduler -/

namespace Scheduler

def Owns (s : Scheduler H) (fiber k : Nat) : Prop := ∃ f ∈ s.live, f.id = fiber ∧ k ∈ f.handles

def Expects (s : Scheduler H) (fiber k : Nat) : Prop :=
  ∃ f ∈ s.live, f.id = fiber ∧ Awaits s.machine f k

/-- Every handle is there for a live fiber, or for one of those that are `gone`. -/
structure Tended (s : Scheduler H) (gone : Nat → Nat → Prop) : Prop where
  machine : s.machine.Tends
  inbox : ∀ e ∈ s.inbox, e.Within Stage.Tends
  idle : ∀ f ∈ s.live, f.state = .runnable → f.awaiting = 0
  table : s.stage.handles.Kept s.Owns fun w j => s.Expects w j ∨ gone w j

section

variable {s s' : Scheduler H} {gone gone' Reads : Nat → Nat → Prop} {f g : Fiber}

theorem Called.owns (h : s.Called s') {w j : Nat} (hown : s.Owns w j) : s'.Owns w j := by
  obtain ⟨f, hf, rfl, hj⟩ := hown
  obtain ⟨g, hg, rfl | ⟨-, rfl⟩⟩ := h.live f hf
  · exact ⟨g, hg, rfl, hj⟩
  · exact ⟨woken f, hg, rfl, hj⟩

theorem Called.expects (h : s.Called s') {w j : Nat} (hat : s.Expects w j) : s'.Expects w j := by
  obtain ⟨f, hf, rfl, hat⟩ := hat
  obtain ⟨g, hg, rfl | ⟨-, rfl⟩⟩ := h.live f hf
  · exact ⟨g, hg, rfl, h.machine ▸ hat⟩
  · obtain ⟨fr, i, below, hat⟩ := hat
    exact ⟨woken f, hg, rfl, h.machine ▸ ⟨fr, i, below, hat.woken⟩⟩

theorem Called.idle (h : s.Called s') (hids : (s.live.map Fiber.id).Nodup)
    (hidle : ∀ f ∈ s.live, f.state = .runnable → f.awaiting = 0) :
    ∀ g ∈ s'.live, g.state = .runnable → g.awaiting = 0 := by
  intro g hg hstate
  obtain ⟨f, hf, rfl | ⟨-, rfl⟩⟩ := h.past hids hg
  · exact hidle g hf hstate
  · rfl

theorem Tended.work {stage : Stage H} (hs : s.Tended gone) (hids : (s.live.map Fiber.id).Nodup)
    (h : s.stage.Tends stage) : { s with stage := stage }.deliver.Tended gone := by
  have hcalled := called_deliver { s with stage := stage } hids
  have htable := hs.table.tends h
  refine ⟨?_, ?_, hcalled.idle hids hs.idle, ?_⟩
  · rw [hcalled.machine]
    exact hs.machine
  · rw [hcalled.inbox]
    exact hs.inbox
  · rw [hcalled.stage]
    have hemptied : (Scheduler.emptied { s with stage := stage }).stage.handles.Kept s.Owns
        fun w j => s.Expects w j ∨ gone w j := ⟨htable.ids, htable.bounded, htable.each⟩
    exact hemptied.mono (fun _ _ hown => hcalled.owns hown)
      fun _ _ hreads => hreads.imp_left fun hat => hcalled.expects hat

theorem Tended.mono (hs : s.Tended gone) (hle : ∀ w j, gone w j → gone' w j) : s.Tended gone' :=
  ⟨hs.machine, hs.inbox, hs.idle,
    hs.table.mono (fun _ _ h => h) fun _ _ hreads => hreads.imp_right (hle _ _)⟩

theorem Tended.arrange (hs : s.Tended gone) {inbox : List (Errand (Stage H))}
    (hwithin : ∀ e ∈ inbox, e.Within Stage.Tends) (queue next : List Nat) :
    { s with inbox := inbox, queue := queue, next := next }.Tended gone :=
  ⟨hs.machine, hwithin, hs.idle, hs.table⟩

theorem Tended.spawn {func : Int} {id : Nat} (hs : s.Tended gone) (h : s.spawn func = .ok (id, s')) :
    s'.Tended gone := by
  obtain ⟨-, rfl, rfl⟩ := spawn_eq_ok h
  refine ⟨hs.machine, hs.inbox, ?_, hs.table.mono ?_ ?_⟩
  · intro f hf hstate
    rcases List.mem_append.mp hf with hf | hf
    · exact hs.idle f hf hstate
    · obtain rfl := List.mem_singleton.mp hf
      rfl
  · rintro w j ⟨f, hf, hown⟩
    exact ⟨f, List.mem_append_left _ hf, hown⟩
  · rintro w j (⟨f, hf, hat⟩ | hgone)
    · exact .inl ⟨f, List.mem_append_left _ hf, hat⟩
    · exact .inr hgone

variable [Host H]

/-- A fiber has ended. What it created is released; it is taken off the handle that it is parked on,
and off no other. -/
theorem kept_finish (hkept : s.stage.handles.Kept s.Owns Reads)
    (hown : ∀ x ∈ s.live, x.id = g.id → x.handles = g.handles)
    (hpending : g.awaiting ≠ 0 → ∀ h ∈ s.stage.handles.handles, h.id = g.awaiting → h.isDone = false)
    (hreads : ∀ w j, Reads w j → w ≠ g.id ∧ s.Expects w j ∨ gone w j ∨
      w = g.id ∧ g.awaiting ≠ 0 ∧ j = g.awaiting) :
    (s.finish g).stage.handles.Kept (s.finish g).Owns
      fun w j => (s.finish g).Expects w j ∨ gone w j := by
  have hleft : (if g.awaiting = 0 then s.stage.handles
      else s.stage.handles.update g.awaiting fun h => h.removeWaiter g.id).Kept s.Owns
      fun w j => w ≠ g.id ∧ s.Expects w j ∨ gone w j := by
    split
    · rename_i hidle
      refine hkept.mono (fun _ _ h => h) fun w j hr => ?_
      rcases hreads w j hr with hother | hgone | ⟨-, hne, -⟩
      · exact .inl hother
      · exact .inr hgone
      · exact absurd hidle hne
    · rename_i hparked
      refine (hkept.leave (hpending hparked) g.id).mono (fun _ _ h => h) ?_
      rintro w j ⟨hr, hne⟩
      rcases hreads w j hr with hother | hgone | ⟨hw, -, hj⟩
      · exact .inl hother
      · exact .inr hgone
      · exact absurd hj (hne hw)
  refine (hleft.release g.id g.handles).mono ?_ ?_
  · rintro w j ⟨⟨x, hx, rfl, hj⟩, hnot⟩
    have hne : x.id ≠ g.id := fun heq => hnot heq (hown x hx heq ▸ hj)
    exact ⟨x, List.mem_filter.mpr ⟨hx, decide_eq_true hne⟩, rfl, hj⟩
  · rintro w j (⟨hne, x, hx, rfl, hat⟩ | hgone)
    · exact .inl ⟨x, List.mem_filter.mpr ⟨hx, decide_eq_true hne⟩, rfl, hat⟩
    · exact .inr hgone

/-- A fiber is cancelled. If it was to be run it may leave the handle behind for which it was
called. -/
theorem Tended.cancelFiber (hs : s.Tended gone) (hsteady : s.Steady) (hf : f ∈ s.live)
    (hgone : ∀ j : Nat, f.state = .runnable → Awaits s.machine f j → gone f.id j) :
    (s.cancelFiber f).Tended gone := by
  have hself (x : Fiber) (hx : x ∈ s.live) (hid : x.id = f.id) : x = f :=
    eq_of_id_eq hsteady.sound.ids hx hf hid
  refine ⟨hs.machine, hs.inbox, fun x hx => hs.idle x (List.mem_filter.mp hx).1, ?_⟩
  refine kept_finish (s := { s with stage := (s.stage.newFault _).2 }) hs.table
    (fun x hx hid => by rw [hself x hx hid]) ?_ ?_
  · intro hparked x hx hid
    cases hsteady.stands hf with
    | ready state _ => exact absurd (hs.idle f hf state) hparked
    | waits _ _ _ listed =>
      obtain ⟨y, hy, -, hpending⟩ := listed
      have hfound := HandleTable.get?_of_mem hs.table.ids hx
      have hid : x.id = f.awaiting := hid
      rw [hid, hy] at hfound
      rw [← Option.some.inj hfound]
      exact hpending
    | called _ _ call => cases call
  · rintro w j (⟨x, hx, rfl, hat⟩ | hgone')
    · by_cases hid : x.id = f.id
      · obtain rfl := hself x hx hid
        right
        cases hsteady.stands hx with
        | ready state _ => exact .inl (hgone j state hat)
        | waits _ _ place listed =>
          obtain ⟨y, hy, -, -⟩ := listed
          obtain ⟨hmem, hyid⟩ := HandleTable.mem_of_get? hy
          have hpos := (hs.table.each y hmem).pos
          have hj : j = x.awaiting := Int.ofNat_inj.mp (hat.unique place)
          have hparked : x.awaiting ≠ 0 := by omega
          exact .inr ⟨rfl, hparked, hj⟩
        | called _ _ call => cases call
      · exact .inl ⟨hid, x, hx, rfl, hat⟩
    · exact .inr (.inl hgone')

omit [Host H] in
theorem Tended.keptBy (hs : s.Tended gone) (hids : (s.live.map Fiber.id).Nodup) (hf : f ∈ s.live) :
    KeptBy s.machine (fun w j => w ≠ f.id ∧ s.Owns w j)
      (fun w j => w ≠ f.id ∧ s.Expects w j ∨ gone w j) f.id True f s.stage := by
  refine hs.table.mono ?_ ?_
  · rintro w j ⟨x, hx, rfl, hj⟩
    by_cases hid : x.id = f.id
    · obtain rfl := eq_of_id_eq hids hx hf hid
      exact .inr ⟨rfl, hj⟩
    · exact .inl ⟨hid, x, hx, rfl, hj⟩
  · rintro w j (⟨x, hx, rfl, hat⟩ | hgone)
    · by_cases hid : x.id = f.id
      · obtain rfl := eq_of_id_eq hids hx hf hid
        exact .inr ⟨rfl, trivial, hat⟩
      · exact .inl (.inl ⟨hid, x, hx, rfl, hat⟩)
    · exact .inl (.inr hgone)

omit [Host H] in
/-- The fiber comes back, and whoever it completed a handle for is called. -/
theorem kept_comesBack {stage : Stage H} {stands : Prop} (hids : (s.live.map Fiber.id).Nodup)
    (hf : f ∈ s.live) (hid : g.id = f.id)
    (hkept : KeptBy s.machine (fun w j => w ≠ f.id ∧ s.Owns w j)
      (fun w j => w ≠ f.id ∧ s.Expects w j ∨ gone w j) f.id stands g stage) :
    let s' := ({ s with stage := stage }.setFiber g).deliver
    s'.stage.handles.Kept s'.Owns
      fun w j => w ≠ g.id ∧ s'.Expects w j ∨ gone w j ∨ w = g.id ∧ stands ∧ s'.Expects w j := by
  intro s'
  have hids' : ((({ s with stage := stage }.setFiber g).live).map Fiber.id).Nodup := by
    rw [ids_setFiber]
    exact hids
  have hcalled := called_deliver _ hids'
  have hback : g ∈ ({ s with stage := stage }.setFiber g).live := setFiber_mem hf hid.symm
  have hother {x : Fiber} (hx : x ∈ s.live) (hne : x.id ≠ f.id) :
      x ∈ ({ s with stage := stage }.setFiber g).live := setFiber_mem_of_ne hx (hid ▸ hne)
  rw [hcalled.stage]
  have hemptied : (({ s with stage := stage }.setFiber g).emptied).stage.handles.Kept
      (fun w j => (w ≠ f.id ∧ s.Owns w j) ∨ w = f.id ∧ j ∈ g.handles)
      (fun w j => (w ≠ f.id ∧ s.Expects w j ∨ gone w j) ∨ w = f.id ∧ stands ∧ Awaits s.machine g j) :=
    ⟨hkept.ids, hkept.bounded, hkept.each⟩
  refine hemptied.mono ?_ ?_
  · rintro w j (⟨hne, x, hx, rfl, hj⟩ | ⟨rfl, hj⟩)
    · exact hcalled.owns ⟨x, hother hx hne, rfl, hj⟩
    · exact hcalled.owns ⟨g, hback, hid, hj⟩
  · rw [hid]
    rintro w j ((⟨hne, x, hx, rfl, hat⟩ | hgone) | ⟨rfl, hstands, hat⟩)
    · exact .inl ⟨hne, hcalled.expects ⟨x, hother hx hne, rfl, hat⟩⟩
    · exact .inr (.inl hgone)
    · exact .inr (.inr ⟨rfl, hstands, hcalled.expects ⟨g, hback, hid, hat⟩⟩)

theorem Tended.runFiber (hs : s.Tended gone) (hids : (s.live.map Fiber.id).Nodup) (hf : f ∈ s.live)
    (hstate : f.state = .runnable) (h : s.runFiber f = .ok s') : s'.Tended gone := by
  obtain ⟨status, g, stage, hrun⟩ := ran_of_runFiber h
  have hstops := run_stops (hs.machine.polite.keeps f.id) hstate hrun
  have hback := kept_comesBack hids hf hstops.id_eq
    ((carries_keptBy hs.machine).run hstate ⟨rfl, hs.keptBy hids hf⟩ hrun)
  have hawaiting : g.state ≠ .waiting → g.awaiting = 0 := by
    intro hnot
    cases hstops with
    | ended _ _ awaiting => exact awaiting.trans (hs.idle f hf hstate)
    | paused _ _ awaiting => exact awaiting.trans (hs.idle f hf hstate)
    | parked _ state => exact absurd state hnot
  have hids' : ((({ s with stage := stage }.setFiber g).live).map Fiber.id).Nodup := by
    rw [ids_setFiber]
    exact hids
  have hcalled := called_deliver _ hids'
  have hmachine : (({ s with stage := stage }.setFiber g).deliver).machine.Tends := by
    rw [hcalled.machine]
    exact hs.machine
  have hinbox : ∀ e ∈ (({ s with stage := stage }.setFiber g).deliver).inbox, e.Within Stage.Tends := by
    rw [hcalled.inbox]
    exact hs.inbox
  have hidle : ∀ x ∈ (({ s with stage := stage }.setFiber g).deliver).live,
      x.state = .runnable → x.awaiting = 0 := by
    refine hcalled.idle hids' fun x hx hrunnable => ?_
    rcases mem_setFiber hx with rfl | ⟨hx, -⟩
    · exact hawaiting (by simp [hrunnable])
    · exact hs.idle x hx hrunnable
  have hstays : (({ s with stage := stage }.setFiber g).deliver).Tended gone := by
    refine ⟨hmachine, hinbox, hidle, hback.mono (fun _ _ h => h) ?_⟩
    rintro w j (⟨-, hat⟩ | hgone | ⟨-, -, hat⟩)
    · exact .inl hat
    · exact .inr hgone
    · exact .inl hat
  obtain ⟨hover, rfl⟩ | ⟨-, rfl⟩ | ⟨-, rfl⟩ := runFiber_eq_ok hrun h
  · refine ⟨hmachine, hinbox, fun x hx => hidle x (List.mem_filter.mp hx).1, kept_finish hback ?_ ?_ ?_⟩
    · intro x hx hid
      obtain ⟨y, hy, hcase⟩ := hcalled.past hids' hx
      have hy : y = g ∨ y ∈ s.live ∧ y.id ≠ g.id := mem_setFiber hy
      rcases hcase with rfl | ⟨-, rfl⟩
      · rw [hy.resolve_right fun hne => hne.2 hid]
      · rw [← hy.resolve_right fun hne => hne.2 hid]
        rfl
    · intro hparked
      refine absurd (hawaiting ?_) hparked
      cases hstops with
      | ended _ _ _ terminal =>
        intro hwaiting
        rw [hwaiting] at terminal
        cases terminal
      | paused _ _ _ state => simp [state]
      | parked => simp at hover
    · rintro w j (hother | hgone | ⟨-, ⟨hdone, hfault⟩, -⟩)
      · exact .inl hother
      · exact .inr (.inl hgone)
      · exact absurd hover (by simp [hdone, hfault])
  · exact ⟨hstays.machine, hstays.inbox, hstays.idle, hstays.table⟩
  · exact hstays

theorem upheld_tended : Upheld Stage.Tends fun s : Scheduler H => s.Steady ∧ s.Tended gone where
  inbox hs := hs.2.inbox
  mail hs hwithin := by
    refine ⟨(Step.mail fun e he => ?_).steady hs.1, hs.2.arrange hwithin _ _⟩
    exact (hwithin e he).polite Stage.Tends.serves
  work hs h := by
    obtain ⟨as, has⟩ := h.serves
    exact ⟨(Step.work has).steady hs.1, hs.2.work hs.1.sound.ids h⟩
  merge hs := ⟨Step.merge.steady hs.1, hs.2.arrange hs.2.inbox _ _⟩
  skip hs hqueue hidle := ⟨(Step.skip hqueue hidle).steady hs.1, hs.2.arrange hs.2.inbox _ _⟩
  run := by
    intro s s' f rest hs hqueue hf hstate h
    obtain ⟨status, g, stage, hran⟩ := ran_of_runFiber h
    obtain ⟨as, has⟩ := hs.1.sound.uses hstate hran
    have hstep : s.Step (.run f.id) as s' := .run hqueue hf hstate hran has h
    have htaken := hs.2.arrange hs.2.inbox rest s.next
    exact ⟨hstep.steady hs.1, htaken.runFiber hs.1.sound.ids hf hstate h⟩

theorem Tended.cancelFibers (fibers : List Fiber) (hs : s.Tended gone) (hsteady : s.Steady)
    (hlive : ∀ f ∈ fibers, f ∈ s.live) (hnodup : (fibers.map Fiber.id).Nodup)
    (hgone : ∀ f ∈ fibers, ∀ j : Nat, f.state = .runnable → Awaits s.machine f j → gone f.id j) :
    (fibers.foldl Scheduler.cancelFiber s).Tended gone := by
  induction fibers generalizing s with
  | nil => exact hs
  | cons f fibers ih =>
    obtain ⟨hnew, hnodup⟩ := List.nodup_cons.mp hnodup
    have hfirst := hs.cancelFiber hsteady (hlive f List.mem_cons_self) (hgone f List.mem_cons_self)
    refine ih hfirst (hsteady.cancelFiber f) ?_ hnodup
      fun g hg => hgone g (List.mem_cons_of_mem _ hg)
    intro g hg
    refine List.mem_filter.mpr ⟨hlive g (List.mem_cons_of_mem _ hg), decide_eq_true fun heq => hnew ?_⟩
    exact heq ▸ List.mem_map_of_mem hg

theorem Tended.cancelAll (hs : s.Tended gone) (hsteady : s.Steady)
    (hgone : ∀ f ∈ s.live, ∀ j : Nat, f.state = .runnable → Awaits s.machine f j → gone f.id j) :
    s.cancelAll.Tended gone := by
  have hends := hs.cancelFibers s.live hsteady (fun _ h => h) hsteady.sound.ids hgone
  exact hends.arrange hends.inbox [] []

end

end Scheduler

/-! ## Operations -/

namespace Operation

/-- Host code of the operation answers handles, and creates some that no fiber owns. -/
def Tends : Operation H → Prop
  | .post e => e.Within Stage.Tends
  | .act run => ∀ s : Stage H, s.Tends (run s)
  | _ => True

/-- The operation ends a fiber that was to be run and stood at its `await` on the handle. -/
def Drops (s : Scheduler H) (op : Operation H) (fiber handle : Nat) : Prop :=
  (op = .cancel fiber ∨ op = .cancelAll) ∧
    ∃ f ∈ s.live, f.id = fiber ∧ f.state = .runnable ∧ Awaits s.machine f handle

/-- One of the operations did. -/
def Abandons [Host H] (s : Scheduler H) (ops : List (Operation H)) (fiber handle : Nat) : Prop :=
  ∃ before op after s', ops = before ++ op :: after ∧ performAll before s = .ok s' ∧
    op.Drops s' fiber handle

section

variable [Host H] {s s' : Scheduler H} {gone : Nat → Nat → Prop}

theorem tended_of_perform {op : Operation H} (hop : op.Tends) (hsteady : s.Steady)
    (hs : s.Tended gone) (h : op.perform s = .ok s') :
    s'.Steady ∧ s'.Tended fun w j => gone w j ∨ op.Drops s w j := by
  have hsame : s.Tended fun w j => gone w j ∨ op.Drops s w j := hs.mono fun _ _ => .inl
  have hworks {stage : Stage H} (ht : s.stage.Tends stage) :=
    Scheduler.upheld_tended.work ⟨hsteady, hsame⟩ ht
  cases op with
  | spawn func =>
    obtain ⟨id, hspawn⟩ | rfl := spawn_of_perform h
    · exact ⟨hsteady.spawn hspawn, hsame.spawn hspawn⟩
    · exact ⟨hsteady, hsame⟩
  | tick => exact Scheduler.upheld_tended.tick ⟨hsteady, hsame⟩ h
  | cancel fiber =>
    obtain ⟨f, hf, rfl⟩ | rfl := cancel_of_perform h
    · obtain ⟨hmem, rfl⟩ := Scheduler.mem_of_fiber? hf
      refine ⟨hsteady.cancelFiber f, hsame.cancelFiber hsteady hmem ?_⟩
      intro j hstate hat
      exact .inr ⟨.inl rfl, f, hmem, rfl, hstate, hat⟩
    · exact ⟨hsteady, hsame⟩
  | cancelAll =>
    cases h
    refine ⟨hsteady.cancelAll, hsame.cancelAll hsteady ?_⟩
    intro f hf j hstate hat
    exact .inr ⟨.inr rfl, f, hf, rfl, hstate, hat⟩
  | post e =>
    cases h
    refine Scheduler.upheld_tended.mail ⟨hsteady, hsame⟩ fun x hx => ?_
    rcases List.mem_append.mp hx with hx | hx
    · exact hs.inbox x hx
    · obtain rfl := List.mem_singleton.mp hx
      exact hop
  | resolve handle v =>
    cases h
    exact hworks (s.stage.tends_resolve handle v)
  | reject handle fault =>
    cases h
    exact hworks (s.stage.tends_reject handle fault)
  | cancelHandle handle =>
    obtain ⟨stage, hcancel, rfl⟩ | rfl := cancelHandle_of_perform h
    · exact hworks (Stage.tends_cancel hcancel)
    · exact ⟨hsteady, hsame⟩
  | act run =>
    cases h
    exact hworks (hop s.stage)

theorem performAll_concat {ops : List (Operation H)} {op : Operation H}
    (h : performAll (ops ++ [op]) s = .ok s') :
    ∃ s1, performAll ops s = .ok s1 ∧ op.perform s1 = .ok s' := by
  induction ops generalizing s with
  | nil =>
    obtain ⟨s1, hop, hdone⟩ := performAll_cons_eq_ok.mp h
    cases hdone
    exact ⟨s, rfl, hop⟩
  | cons first ops ih =>
    obtain ⟨s1, hfirst, hlater⟩ := performAll_cons_eq_ok.mp h
    obtain ⟨s2, hops, hlast⟩ := ih hlater
    exact ⟨s2, performAll_cons_eq_ok.mpr ⟨s1, hfirst, hops⟩, hlast⟩

theorem tended_of_performAll {start : Scheduler H} (hsteady : start.Steady)
    (hstart : start.Tended fun _ _ => False) {ops : List (Operation H)} (hops : ∀ op ∈ ops, op.Tends)
    (h : performAll ops start = .ok s) : s.Steady ∧ s.Tended (Abandons start ops) := by
  induction ops using List.reverseRecOn generalizing s with
  | nil =>
    cases h
    exact ⟨hsteady, hstart.mono fun _ _ => False.elim⟩
  | append_singleton ops op ih =>
    obtain ⟨s1, hbefore, hlast⟩ := performAll_concat h
    obtain ⟨hsteady1, hs1⟩ := ih (fun x hx => hops x (List.mem_append_left _ hx)) hbefore
    obtain ⟨hsteady2, hs2⟩ := tended_of_perform (hops op (by simp)) hsteady1 hs1 hlast
    refine ⟨hsteady2, hs2.mono ?_⟩
    rintro w j (⟨before, x, after, s', rfl, hran, hdrops⟩ | hdrops)
    · exact ⟨before, x, after ++ [op], s', by simp, hran, hdrops⟩
    · exact ⟨ops, op, [], s1, rfl, hbefore, hdrops⟩

end

end Operation

/-- Whatever fibers are spawned, run and cancelled and whatever handles are completed, a completed
handle stays in the table for its creator, or for a live fiber that was called for it and has not
read it yet, or because such a fiber was cancelled instead of being run. So once all handles are
completed and all fibers have ended the table is empty, unless a fiber was cancelled in between. -/
theorem kept_handles [Host H] (p : Program) (svc : Services (Stage H)) (limits : Limits) (heap : Heap)
    (host : H) (hm : (Machine.load p svc limits heap).1.Tends) {ops : List (Operation H)}
    (hops : ∀ op ∈ ops, op.Tends) {s : Scheduler H}
    (h : Operation.performAll ops (.create p svc limits heap host) = .ok s) :
    (∀ x ∈ s.stage.handles.handles, x.isDone = true →
      (∃ f ∈ s.live, x.owner = f.id ∧ x.id ∈ f.handles) ∨
      (∃ f ∈ s.live, f.id ∈ x.waiters ∧ f.state = .runnable ∧ Awaits s.machine f x.id) ∨
      ∃ fiber ∈ x.waiters,
        Operation.Abandons (.create p svc limits heap host) ops fiber x.id) ∧
    (s.live = [] → (∀ x ∈ s.stage.handles.handles, x.isDone = true) →
      (∀ fiber handle, ¬ Operation.Abandons (.create p svc limits heap host) ops fiber handle) →
      s.stage.handles.handles = []) := by
  have hstart : (Scheduler.create p svc limits heap host).Tended fun _ _ => False :=
    ⟨hm, by simp [Scheduler.create], by simp [Scheduler.create], List.nodup_nil,
      fun _ hx => absurd hx List.not_mem_nil, fun _ hx => absurd hx List.not_mem_nil⟩
  obtain ⟨hsteady, hs⟩ := Operation.tended_of_performAll
    (steady_create p svc limits heap host hm.polite) hstart hops h
  have hkept : ∀ x ∈ s.stage.handles.handles, x.isDone = true →
      (∃ f ∈ s.live, x.owner = f.id ∧ x.id ∈ f.handles) ∨
      (∃ f ∈ s.live, f.id ∈ x.waiters ∧ f.state = .runnable ∧ Awaits s.machine f x.id) ∨
      ∃ fiber ∈ x.waiters,
        Operation.Abandons (.create p svc limits heap host) ops fiber x.id := by
    intro x hx hdone
    obtain ⟨-, -, howner, hreaders, hwanted⟩ := hs.table.each x hx
    rcases howner with hnobody | ⟨_, howner, f, hf, rfl, hmem⟩
    · right
      obtain ⟨fiber, hfiber⟩ := List.exists_mem_of_ne_nil _ ((hwanted hdone).resolve_left (not_not.mpr hnobody))
      rcases hreaders fiber hfiber with ⟨f, hf, rfl, hat⟩ | hgone
      · refine .inl ⟨f, hf, hfiber, ?_, hat⟩
        cases hsteady.stands hf with
        | ready state _ => exact state
        | waits _ _ place listed =>
          -- a fiber that waits waits for a pending handle
          obtain ⟨y, hy, -, hpending⟩ := listed
          rw [← hat.unique place, HandleTable.get?_of_mem hs.table.ids hx] at hy
          rw [← Option.some.inj hy, hdone] at hpending
          cases hpending
        | called _ _ call => cases call
      · exact .inr ⟨fiber, hfiber, hgone⟩
    · exact .inl ⟨f, hf, howner, hmem⟩
  refine ⟨hkept, fun hlive hdone hnone => List.eq_nil_iff_forall_not_mem.mpr fun x hx => ?_⟩
  rcases hkept x hx (hdone x hx) with ⟨f, hf, -⟩ | ⟨f, hf, -⟩ | ⟨fiber, -, hgone⟩
  · simp [hlive] at hf
  · simp [hlive] at hf
  · exact hnone _ _ hgone

/-- One function asks for something and lends its handle, the other one waits for it. -/
def lendingProgram : Program := { sharingProgram with version := Program.currentVersion }

theorem tends_lending : (Machine.load lendingProgram askingServices {} {}).1.Tends := by
  refine ⟨?_, ?_, ?_, ?_⟩
  · intro fn h call hfn hcall
    rw [(asked_of_get? hfn).1] at hcall
    cases hcall
  · intro fn h call hfn hcall
    rw [(asked_of_get? hfn).2] at hcall
    cases hcall
    intro c args handle s
    exact .refl _
  · intro type get hget
    cases hget
  · intro type set hset
    cases hset

theorem kept_handles_lending :
    ∃ s, Operation.performAll [.spawn 0, .spawn 1, .tick, .resolve 1 (.bool true), .tick]
        (.create lendingProgram askingServices {} {} ({} : Bench)) = .ok s ∧
      s.stage.handles.lastId = 1 ∧ s.live = [] ∧ s.stage.handles.handles = [] := by
  let ops : List (Operation Bench) := [.spawn 0, .spawn 1, .tick, .resolve 1 (.bool true), .tick]
  have hran : (Operation.performAll ops
      (.create lendingProgram askingServices {} {} ({} : Bench))).toOption.any (fun s =>
        decide (s.stage.handles.lastId = 1) && decide (s.live.map Fiber.id = []) &&
        s.stage.handles.handles.all Handle.isDone) = true := by
    decide +kernel
  obtain ⟨s, hs, hran⟩ := exists_of_any_toOption hran
  simp only [Bool.and_eq_true, decide_eq_true_eq, List.map_eq_nil_iff, List.all_eq_true] at hran
  obtain ⟨⟨hlast, hlive⟩, hdone⟩ := hran
  have hops : ∀ op ∈ ops, op.Tends := by simp [ops, Operation.Tends]
  have hnone : ∀ fiber handle, ¬ Operation.Abandons
      (.create lendingProgram askingServices {} {} ({} : Bench)) ops fiber handle := by
    rintro fiber handle ⟨before, op, after, s', hsplit, -, hcancels, -⟩
    have hmem : op ∈ ops := by simp [hsplit]
    rcases hcancels with rfl | rfl <;> simp [ops] at hmem
  obtain ⟨-, hempty⟩ := kept_handles lendingProgram askingServices {} {} ({} : Bench) tends_lending
    hops hs
  exact ⟨s, hs, hlast, hlive, hempty hlive hdone hnone⟩

/-- A fiber is called for a handle whose creator has ended, and cancelled before it is run: all fibers
have ended and all handles are completed, and there is a handle in the table. -/
theorem handle_left_behind : lendingProgram.check = .ok () ∧
    ∃ s, Operation.performAll [.spawn 0, .spawn 1, .tick, .resolve 1 (.bool true), .cancel 2]
        (.create lendingProgram askingServices {} {} ({} : Bench)) = .ok s ∧
      s.live = [] ∧ (∀ x ∈ s.stage.handles.handles, x.isDone = true) ∧
      s.stage.handles.handles ≠ [] := by
  have hran : (Operation.performAll [.spawn 0, .spawn 1, .tick, .resolve 1 (.bool true), .cancel 2]
      (.create lendingProgram askingServices {} {} ({} : Bench))).toOption.any (fun s =>
        decide (s.live.map Fiber.id = []) && s.stage.handles.handles.all Handle.isDone &&
        decide (s.stage.handles.handles ≠ [])) = true := by
    decide +kernel
  refine ⟨by decide, ?_⟩
  obtain ⟨s, hs, hran⟩ := exists_of_any_toOption hran
  simp only [Bool.and_eq_true, decide_eq_true_eq, List.map_eq_nil_iff, List.all_eq_true] at hran
  exact ⟨s, hs, hran.1.1, hran.1.2, hran.2⟩

end TileMind
