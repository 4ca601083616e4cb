import TileMind.Proofs.Brain.Ticks

/-!
# TileMind.Proofs.Brain.Requests

Whatever can be asked of a brain, another program included, and how a tick is put together from parts.

* `Brain.Request`: a command or another program.
* `Brain.Keeps`: what each part of a tick keeps.
* `Brain.Keeps.think`: a tick keeps it too, unless a page is missing or the fibers crash.
-/

namespace TileMind

namespace Brain

variable {W : Type}

/-! ## Requests -/

/-- What can be asked of a brain. -/
inductive Request (W : Type) where
  | ask (c : Command W)
  | reload (p : Program) (svc : Option (Services (Stage (Mind W))))

namespace Request

/-- Does what is asked; what is refused changes nothing. -/
def perform (b : Brain W) : Request W → Except Crash (Brain W)
  | .ask c => c.perform b
  | .reload p svc =>
    match b.reload p svc with
    | .ok (_, b) => .ok b
    | .error c => .error c

def performAll : List (Request W) → Brain W → Except Crash (Brain W)
  | [], b => .ok b
  | r :: rs, b =>
    match r.perform b with
    | .ok b => performAll rs b
    | .error e => .error e

end Request

section

variable {b b' : Brain W} {p : Program} {svc : Option (Services (Stage (Mind W)))}

/-- A brain that refuses a program is as before. -/
theorem reload_refused {e : BrainError} (h : b.reload p svc = .ok (some e, b')) : b' = b := by
  unfold Brain.reload at h
  split at h
  · cases h
    rfl
  · split at h
    · cases h
      rfl
    · split at h <;> cases h

def reloaded? (b : Brain W) (p : Program) (svc : Option (Services (Stage (Mind W)))) : Option (Brain W) :=
  match b.reload p svc with
  | .ok (none, b') => some b'
  | _ => none

theorem exists_reload_of_any {f : Brain W → Bool} (h : (b.reloaded? p svc).any f = true) :
    ∃ b', b.reload p svc = .ok (none, b') ∧ f b' = true := by
  unfold reloaded? at h
  split at h
  · rename_i b' hreload
    exact ⟨b', hreload, h⟩
  · cases h

theorem Request.perform_reload (h : (Request.reload p svc).perform b = .ok b') :
    b' = b ∨ b.reload p svc = .ok (none, b') := by
  unfold Request.perform at h
  dsimp only at h
  split at h
  · rename_i e b₁ hreload
    cases h
    cases e with
    | none => exact .inr hreload
    | some e => exact .inl (reload_refused hreload)
  · cases h

end

/-! ## The parts of a tick -/

/-- What each part of a tick keeps (`I`). Pages that are waited for are within `T`. -/
structure Keeps (I : Brain W → Prop) (T : Int → Prop) : Prop where
  clock : ∀ {b} clock, I b → I (b.setMind { b.mind with clock := clock })
  fire : ∀ {b}, I b → I b.fireTimers
  waits : ∀ {b index}, I b → b.mind.pending = some index → T index
  clear : ∀ {b}, I b → I b.cleared
  turn : ∀ {b index}, I b → T index → I (b.setMind { b.mind with active := index })
  enter : ∀ {b} site, I b → I (b.enterSite site)
  spawn : ∀ {b func fiber s}, I b → b.scheduler.spawn func = .ok (fiber, s) →
    I { b with scheduler := s, fibers := b.fibers.set func fiber }
  fault : ∀ {b} heap path ref, I b →
    I ((b.setStage { b.scheduler.stage with heap := heap }).setMind (b.mind.record path ref))
  tick : ∀ {b s}, I b → b.scheduler.tick = .ok s → I { b with scheduler := s }

section

variable {I : Brain W → Prop} {T : Int → Prop} {b : Brain W}

theorem Keeps.enterSites (hI : Keeps I T) (sites : List CallSite) (hb : I b) :
    I (sites.foldl enterSite b) :=
  List.foldlRecOn sites enterSite hb fun _ hb site _ => hI.enter site hb

theorem Keeps.startRule (hI : Keeps I T) (func : Int) (hb : I b) : I (b.startRule func) := by
  unfold Brain.startRule
  split
  · exact hb
  · split
    · rename_i hspawn
      exact hI.spawn hb hspawn
    · exact hI.fault _ _ _ hb

theorem Keeps.startRules (hI : Keeps I T) (hb : I b) : I b.startRules := by
  unfold Brain.startRules
  split
  · rename_i page _
    exact List.foldlRecOn page.roots Brain.startRule hb fun _ hb func _ => hI.startRule func hb
  · exact hb

def Lost (I : Brain W → Prop) (index : Int) : Prop :=
  ∃ b, I b ∧ b.mind.active = index ∧ b.mind.activePage? = none

theorem Keeps.switchPage (hI : Keeps I T) (hb : I b) {index : Int} (hindex : T index) :
    (∃ b', b.switchPage index = .ok b' ∧ I b') ∨
      b.switchPage index = .error (.noPage index) ∧ Lost I index := by
  have hturned := hI.turn (hI.clear hb) hindex
  rw [switchPage_eq]
  split
  · rename_i hnone
    exact .inr ⟨rfl, _, hturned, rfl, hnone⟩
  · rename_i page _
    exact .inl ⟨_, rfl, hI.enterSites page.sites hturned⟩

theorem Keeps.opened (hI : Keeps I T) (hb : I b) (dt : Int) :
    (∃ b', b.opened dt = .ok b' ∧ I b') ∨
      ∃ index, b.opened dt = .error (.noPage index) ∧ Lost I index := by
  have hfired := hI.fire (hI.clock (advance b.mind.clock dt) hb)
  unfold Brain.opened
  dsimp only
  split
  · rename_i index hpending
    rcases hI.switchPage hfired (hI.waits hfired hpending) with hok | hlost
    · exact .inl hok
    · exact .inr ⟨index, hlost⟩
  · exact .inl ⟨_, rfl, hfired⟩

theorem think_of_opened (hb : b.isStopped = false) {dt : Int} {b' : Brain W}
    (h : b.opened dt = .ok b') :
    b.think dt = match b'.startRules.scheduler.tick with
      | .error c => .error (.crashed c)
      | .ok s => .ok { b'.startRules with scheduler := s } := by
  rw [think_eq, prepared_eq hb h]
  rfl

theorem prepared_of_lost (hb : b.isStopped = false) {dt : Int} {c : Crash} (h : b.opened dt = .error c) :
    b.prepared dt = .error (.crashed c) := by
  unfold Brain.opened at h
  unfold Brain.prepared
  rw [if_neg (by simp [hb])]
  dsimp only at h ⊢
  generalize (b.setMind { b.mind with clock := advance b.mind.clock dt }).fireTimers = b₁ at h ⊢
  cases hpending : b₁.mind.pending with
  | none =>
    rw [hpending] at h
    cases h
  | some index =>
    rw [hpending] at h
    dsimp only at h ⊢
    rw [h]

theorem think_of_lost (hb : b.isStopped = false) {dt : Int} {c : Crash} (h : b.opened dt = .error c) :
    b.think dt = .error (.crashed c) := by
  rw [think_eq, prepared_of_lost hb h]
  rfl

theorem Keeps.prepared (hI : Keeps I T) (hb : I b) {dt : Int} {b' : Brain W}
    (h : b.prepared dt = .ok b') : I b' := by
  cases hstopped : b.isStopped with
  | true => simp [Brain.prepared, hstopped] at h
  | false =>
    rcases hI.opened hb dt with ⟨b₁, hopened, hb₁⟩ | ⟨index, hopened, -⟩
    · rw [prepared_eq hstopped hopened] at h
      cases h
      exact hI.startRules hb₁
    · rw [prepared_of_lost hstopped hopened] at h
      cases h

theorem Keeps.think (hI : Keeps I T) (hb : I b) (dt : Int) :
    b.think dt = .error (.refused .stopped) ∨ (∃ b', b.think dt = .ok b' ∧ I b') ∨
      (∃ index, b.think dt = .error (.crashed (.noPage index)) ∧ Lost I index) ∨
      ∃ b' c, b.prepared dt = .ok b' ∧ I b' ∧ b'.scheduler.tick = .error c ∧
        b.think dt = .error (.crashed c) := by
  cases hstopped : b.isStopped with
  | true => exact .inl (by simp [Brain.think, hstopped])
  | false =>
    refine .inr ?_
    rcases hI.opened hb dt with ⟨b₁, hopened, hb₁⟩ | ⟨index, hopened, hlost⟩
    · have hready := hI.startRules hb₁
      rw [think_of_opened hstopped hopened]
      cases htick : b₁.startRules.scheduler.tick with
      | error c => exact .inr (.inr ⟨_, c, prepared_eq hstopped hopened, hready, htick, rfl⟩)
      | ok s => exact .inl ⟨_, rfl, hI.tick hready htick⟩
    · exact .inr (.inl ⟨index, think_of_lost hstopped hopened, hlost⟩)

end

end Brain

end TileMind
