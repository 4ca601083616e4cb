import TileMind.Proofs.Brain.Plays

/-!
# TileMind.Proofs.Brain.Errands

What becomes of errands. A tick does those that have been posted, each once and in the order in which
they were posted, before any of its fibers runs, and leaves what they post themselves to the tick that
follows. Only a reload can come in between: the new program starts with nothing posted, so that whatever
was waiting is lost.

* `Scheduler.Pauses`: no fiber runs.
* `Scheduler.Does`: errands are done in turn.
* `Brain.Opening`: how a tick begins.
* `Brain.Mails`: what is posted in a run and what becomes of it.
* `posted_errands`: every errand has its turn in the next tick, or is lost to a reload.
-/

namespace TileMind

/-! ## Schedulers -/

namespace Scheduler

section

variable {H : Type} {s s' s'' : Scheduler H}

/-- From `s` to `s'` no fiber runs. Whoever is alive was so before, and has been called at most, or has
just been started. -/
structure Pauses (s s' : Scheduler H) : Prop where
  lastId : s.lastId ≤ s'.lastId
  live : ∀ g ∈ s'.live, (∃ f ∈ s.live, g = f ∨ (f.state = .waiting ∧ g = woken f)) ∨
    ∃ id func, s.lastId < id ∧ g = Fiber.start id func

theorem Pauses.of_live (hlast : s'.lastId = s.lastId) (hlive : s'.live ⊆ s.live) : s.Pauses s' :=
  ⟨hlast.ge, fun g hg => .inl ⟨g, hlive hg, .inl rfl⟩⟩

theorem Pauses.trans (h : s.Pauses s') (h' : s'.Pauses s'') : s.Pauses s'' := by
  refine ⟨h.lastId.trans h'.lastId, fun x hx => ?_⟩
  rcases h'.live x hx with ⟨g, hg, rfl | ⟨hwaiting, rfl⟩⟩ | ⟨id, func, hid, rfl⟩
  · exact h.live x hg
  · rcases h.live g hg with ⟨f, hf, rfl | ⟨-, rfl⟩⟩ | ⟨id, func, -, rfl⟩
    · exact .inl ⟨g, hf, .inr ⟨hwaiting, rfl⟩⟩
    · cases hwaiting
    · cases hwaiting
  · exact .inr ⟨id, func, h.lastId.trans_lt hid, rfl⟩

theorem pauses_wake (s : Scheduler H) (k w : Nat) : s.Pauses (s.wake k w) := by
  unfold wake
  split
  · exact .of_live rfl (List.Subset.refl _)
  · rename_i f hfound
    split
    · rename_i hcalled
      simp only [Bool.and_eq_true, decide_eq_true_eq] at hcalled
      refine ⟨le_rfl, fun g hg => .inl ?_⟩
      rcases mem_setFiber hg with rfl | ⟨hg, -⟩
      · exact ⟨f, (mem_of_fiber? hfound).1, .inr ⟨hcalled.1, rfl⟩⟩
      · exact ⟨g, hg, .inl rfl⟩
    · exact .of_live rfl (List.Subset.refl _)

theorem pauses_deliver (s : Scheduler H) (stage : Stage H) :
    s.Pauses { s with stage := stage }.deliver :=
  deliver_induction (.of_live rfl (List.Subset.refl _)) fun t k w h => h.trans (pauses_wake t k w)

theorem pauses_spawn {func : Int} {id : Nat} (h : s.spawn func = .ok (id, s')) : s.Pauses s' := by
  obtain ⟨-, rfl, rfl⟩ := spawn_eq_ok h
  refine ⟨Nat.le_succ _, fun g hg => ?_⟩
  rcases List.mem_append.mp hg with hg | hg
  · exact .inl ⟨g, hg, .inl rfl⟩
  · exact .inr ⟨_, func, Nat.lt_succ_self _, List.mem_singleton.mp hg⟩

/-- The errands `es` are done in turn, each on the stage that the one before has left, and post `more`.
Whoever was waiting for something that an errand does is called right after it. -/
inductive Does : Scheduler H → (es more : List (Errand (Stage H))) → Scheduler H → Prop where
  | nil (s : Scheduler H) : Does s [] [] s
  | cons {s t : Scheduler H} {e : Errand (Stage H)} {es more : List (Errand (Stage H))}
      (rest : Does
        { s with stage := (e.run s.stage).1, inbox := s.inbox ++ (e.run s.stage).2 }.deliver es more t) :
      Does s (e :: es) ((e.run s.stage).2 ++ more) t

theorem does_doErrands (es : List (Errand (Stage H))) (s : Scheduler H) :
    ∃ more, s.Does es more (doErrands es s) := by
  induction es generalizing s with
  | nil => exact ⟨[], .nil s⟩
  | cons e es ih =>
    obtain ⟨more, hrest⟩ := ih
      { s with stage := (e.run s.stage).1, inbox := s.inbox ++ (e.run s.stage).2 }.deliver
    exact ⟨_, .cons hrest⟩

theorem Does.inbox {es more : List (Errand (Stage H))} (h : s.Does es more s') :
    s'.inbox = s.inbox ++ more := by
  induction h with
  | nil s => exact (List.append_nil _).symm
  | @cons s t e es more rest ih =>
    rw [ih, (deliver_same _).2.1, List.append_assoc]

theorem Does.pauses {es more : List (Errand (Stage H))} (h : s.Does es more s') : s.Pauses s' := by
  induction h with
  | nil s => exact .of_live rfl (List.Subset.refl _)
  | @cons s t e es more rest ih =>
    have hposts : s.Pauses { s with inbox := s.inbox ++ (e.run s.stage).2 } :=
      .of_live rfl (List.Subset.refl _)
    exact (hposts.trans (pauses_deliver _ _)).trans ih

variable [Host H]

/-! ## Fibers post nothing -/

theorem inbox_runFiber {f : Fiber} (h : s.runFiber f = .ok s') : s'.inbox = s.inbox := by
  obtain ⟨status, g, stage, hran⟩ := ran_of_runFiber h
  have hdelivered := (deliver_same ({ s with stage := stage }.setFiber g)).2.1
  obtain ⟨-, rfl⟩ | ⟨-, rfl⟩ | ⟨-, rfl⟩ := runFiber_eq_ok hran h
  · exact hdelivered
  · exact hdelivered
  · exact hdelivered

theorem inbox_drain (rounds : Nat) (h : drain rounds s = .ok s') : s'.inbox = s.inbox := by
  induction rounds generalizing s with
  | zero =>
    unfold drain at h
    split at h
    · cases h
      rfl
    · cases h
  | succ rounds ih =>
    unfold drain at h
    split at h
    · cases h
      rfl
    · dsimp only at h
      split at h
      · exact (ih h :)
      · split at h
        · split at h
          · cases h
          · rename_i hrun
            have hran := inbox_runFiber hrun
            exact (ih h).trans hran
        · exact (ih h :)

end

end Scheduler

namespace Brain

variable {W : Type} {b b' b₁ : Brain W}

/-! ## How a tick begins -/

section

/-- From `b` to `b'` no fiber runs, and errands keep waiting. -/
structure Holds (b b' : Brain W) : Prop where
  inbox : b'.scheduler.inbox = b.scheduler.inbox
  pauses : b.scheduler.Pauses b'.scheduler

theorem Holds.trans {b'' : Brain W} (h : b.Holds b') (h' : b'.Holds b'') : b.Holds b'' :=
  ⟨h'.inbox.trans h.inbox, h.pauses.trans h'.pauses⟩

theorem holds_setStage (b : Brain W) (stage : Stage (Mind W)) : b.Holds (b.setStage stage) :=
  ⟨rfl, .of_live rfl (List.Subset.refl _)⟩

theorem holds_setMind (b : Brain W) (m : Mind W) : b.Holds (b.setMind m) := holds_setStage b _

theorem holds_deliver (b : Brain W) (stage : Stage (Mind W)) :
    b.Holds { b with scheduler := { b.scheduler with stage := stage }.deliver } :=
  ⟨(Scheduler.deliver_same _).2.1, b.scheduler.pauses_deliver stage⟩

theorem holds_fireTimers (b : Brain W) : b.Holds b.fireTimers :=
  (holds_setMind b _).trans (holds_deliver _ _)

theorem holds_cancelTimers (b : Brain W) : b.Holds b.cancelTimers :=
  (holds_setMind b _).trans (holds_deliver _ _)

theorem holds_cancelAll (b : Brain W) : b.Holds b.cancelAll := by
  obtain ⟨-, hlast, hinbox, -⟩ := cancelAll_same b
  refine ⟨hinbox, .of_live hlast ?_⟩
  rw [cancelAll, b.scheduler.live_cancelAll]
  exact List.nil_subset _

theorem holds_cleared (b : Brain W) : b.Holds b.cleared := by
  have hcancelled : b.Holds { (b.setMind { b.mind with pending := none }).cancelAll with fibers := {} } := by
    obtain ⟨hinbox, hpauses⟩ := (holds_setMind b { b.mind with pending := none }).trans (holds_cancelAll _)
    exact ⟨hinbox, hpauses⟩
  exact hcancelled.trans (holds_cancelTimers _)

theorem holds_enterSite (b : Brain W) (site : CallSite) : b.Holds (b.enterSite site) := by
  unfold enterSite
  split
  · exact holds_setStage b b.scheduler.stage
  · exact holds_deliver b _

theorem holds_startRule (b : Brain W) (func : Int) : b.Holds (b.startRule func) := by
  unfold startRule
  split
  · exact holds_setStage b b.scheduler.stage
  · split
    · rename_i hspawn
      refine ⟨?_, Scheduler.pauses_spawn hspawn⟩
      obtain ⟨-, -, rfl⟩ := Scheduler.spawn_eq_ok hspawn
      rfl
    · exact (holds_setStage b _).trans (holds_setMind _ _)

theorem holds_startRules (b : Brain W) : b.Holds b.startRules := by
  unfold startRules
  split
  · rename_i page _
    exact List.foldlRecOn page.roots startRule (motive := fun b' => b.Holds b')
      (holds_setStage b b.scheduler.stage) fun b' h func _ => h.trans (holds_startRule b' func)
  · exact holds_setStage b b.scheduler.stage

theorem holds_switchPage (b : Brain W) (index : Int) :
    b.switchPage index = .error (.noPage index) ∨ ∃ b', b.switchPage index = .ok b' ∧ b.Holds b' := by
  rw [switchPage_eq]
  split
  · exact .inl rfl
  · rename_i page _
    refine .inr ⟨_, rfl, ?_⟩
    exact List.foldlRecOn page.sites enterSite (motive := fun b' => b.Holds b')
      ((holds_cleared b).trans (holds_setMind _ _)) fun b' h site _ => h.trans (holds_enterSite b' site)

/-- Before it comes to errands, a tick runs no fiber, unless it finds that there is no such page. -/
theorem holds_opened (b : Brain W) (dt : Int) :
    (∃ index, b.opened dt = .error (.noPage index)) ∨ ∃ b', b.opened dt = .ok b' ∧ b.Holds b' := by
  have hfired := (holds_setMind b { b.mind with clock := advance b.mind.clock dt }).trans
    (holds_fireTimers _)
  unfold opened
  dsimp only
  split
  · rename_i index _
    rcases holds_switchPage _ index with hlost | ⟨b', hswitch, hholds⟩
    · exact .inl ⟨index, hlost⟩
    · exact .inr ⟨b', hswitch, hfired.trans hholds⟩
  · exact .inr ⟨_, rfl, hfired⟩

end

/-- A tick of `b` begins with the errands `batch`. It has started what it is to run (`ready`), but no
fiber runs before the errands are done, which leads to `s`. What they post waits for the tick that
follows. -/
structure Opening (b : Brain W) (dt : Int) (batch : List (Errand (Stage (Mind W)))) (ready : Brain W)
    (more : List (Errand (Stage (Mind W)))) (s : Scheduler (Mind W)) : Prop where
  before : b.scheduler.Pauses ready.scheduler
  does : { ready.scheduler with inbox := [] }.Does batch more s
  meanwhile : ready.scheduler.Pauses s
  runs : b.think dt =
    match Scheduler.drain (Scheduler.maxRounds + (s.queue ++ s.next).length)
        { s with queue := s.queue ++ s.next, next := [] } with
    | .error c => .error (.crashed c)
    | .ok s' => .ok { ready with scheduler := s' }
  after : ∀ {b'}, b.think dt = .ok b' → b'.scheduler.inbox = more

theorem opening_think (hgoing : b.isStopped = false) (dt : Int) :
    (∃ index, b.think dt = .error (.crashed (.noPage index)) ∧ b.opened dt = .error (.noPage index)) ∨
      ∃ ready more s, b.Opening dt b.scheduler.inbox ready more s := by
  rcases holds_opened b dt with ⟨index, hlost⟩ | ⟨b', hopened, hholds⟩
  · exact .inl ⟨index, think_of_lost hgoing hlost, hlost⟩
  · have hready := hholds.trans (holds_startRules b')
    have hthink := think_of_opened hgoing hopened
    obtain ⟨more, hdoes⟩ := Scheduler.does_doErrands b.scheduler.inbox
      { b'.startRules.scheduler with inbox := [] }
    have hempties : b'.startRules.scheduler.Pauses { b'.startRules.scheduler with inbox := [] } :=
      .of_live rfl (List.Subset.refl _)
    unfold Scheduler.tick at hthink
    rw [hready.inbox] at hthink
    refine .inr ⟨b'.startRules, more, _, hready.pauses, hdoes, hempties.trans hdoes.pauses, hthink, ?_⟩
    intro b'' hb''
    rw [hthink] at hb''
    split at hb''
    · cases hb''
    · rename_i s' hdrain
      cases hb''
      have hinbox := hdoes.inbox
      rw [List.nil_append] at hinbox
      exact (Scheduler.inbox_drain _ hdrain).trans hinbox

/-! ## What waits for a tick -/

namespace Request

/-- Requests after which errands still wait: all but those that run fibers. -/
def isPatient : Request W → Bool
  | .ask (.think _) | .ask (.operate .tick) => false
  | _ => true

def posted : Request W → List (Errand (Stage (Mind W)))
  | .ask (.operate (.post e)) => [e]
  | _ => []

/-- Some request puts another program in place. -/
def Reloads (rs : List (Request W)) (b : Brain W) : Prop :=
  ∃ before p svc late b₀ b', rs = before ++ .reload p svc :: late ∧ performAll before b = .ok b₀ ∧
    b₀.reload p svc = .ok (none, b')

theorem Reloads.cons {r : Request W} {rs : List (Request W)} (hperform : r.perform b = .ok b')
    (h : Reloads rs b') : Reloads (r :: rs) b := by
  obtain ⟨before, p, svc, late, b₀, b₁, rfl, hbefore, hreload⟩ := h
  refine ⟨r :: before, p, svc, late, b₀, b₁, rfl, ?_, hreload⟩
  rw [performAll, hperform]
  exact hbefore

end Request

theorem inbox_operation {op : Operation (Mind W)} (hop : (Request.ask (.operate op)).isPatient = true)
    {s s' : Scheduler (Mind W)} (h : op.perform s = .ok s') :
    s'.inbox = s.inbox ++ (Request.ask (.operate op)).posted := by
  have hsame (hinbox : s'.inbox = s.inbox) : s'.inbox = s.inbox ++ [] := by rw [hinbox, List.append_nil]
  cases op with
  | tick => cases hop
  | post e =>
    cases h
    rfl
  | spawn func =>
    obtain ⟨id, hspawn⟩ | rfl := Operation.spawn_of_perform h
    · obtain ⟨-, -, rfl⟩ := Scheduler.spawn_eq_ok hspawn
      exact hsame rfl
    · exact hsame rfl
  | cancel fiber =>
    obtain ⟨f, -, rfl⟩ | rfl := Operation.cancel_of_perform h
    · exact hsame rfl
    · exact hsame rfl
  | cancelAll =>
    cases h
    exact hsame (holds_cancelAll { scheduler := s }).inbox
  | cancelHandle handle =>
    obtain ⟨stage, -, rfl⟩ | rfl := Operation.cancelHandle_of_perform h
    · exact hsame (Scheduler.deliver_same _).2.1
    · exact hsame rfl
  | resolve handle v | reject handle fault | act run =>
    cases h
    exact hsame (Scheduler.deliver_same _).2.1

theorem inbox_command {c : Command W} (hc : (Request.ask c).isPatient = true)
    (h : c.perform b = .ok b') :
    b'.scheduler.inbox = b.scheduler.inbox ++ (Request.ask c).posted := by
  have hsame (hinbox : b'.scheduler.inbox = b.scheduler.inbox) :
      b'.scheduler.inbox = b.scheduler.inbox ++ [] := by
    rw [hinbox, List.append_nil]
  cases c with
  | think dt => cases hc
  | requestPage key =>
    simp only [Command.perform, requestPage_eq] at h
    cases hpage : b.mind.page? key with
    | none =>
      rw [hpage] at h
      cases h
      exact hsame rfl
    | some index =>
      rw [hpage] at h
      cases h
      exact hsame rfl
  | setVariable name v =>
    simp only [Command.perform, setVariable] at h
    cases hset : b.mind.setGlobal? name v with
    | none =>
      rw [hset] at h
      cases h
      exact hsame rfl
    | some m =>
      rw [hset] at h
      cases h
      exact hsame rfl
  | stop =>
    cases h
    refine hsame ?_
    rw [Brain.stop]
    split
    · rfl
    · exact ((holds_cancelAll b).trans (holds_cancelTimers _)).inbox
  | operate op =>
    simp only [Command.perform] at h
    split at h
    · rename_i hop
      cases h
      exact inbox_operation hc hop
    · cases h

theorem inbox_reload {p : Program} {svc : Option (Services (Stage (Mind W)))}
    (h : b.reload p svc = .ok (none, b')) : b'.scheduler.inbox = [] := by
  unfold Brain.reload at h
  split at h
  · cases h
  · split at h
    · cases h
    · split at h
      · cases h
      · cases h
        rfl

/-- What was posted keeps waiting, unless another program is put in place. -/
theorem inbox_perform {r : Request W} (hr : r.isPatient = true) (h : r.perform b = .ok b') :
    (∃ p svc, r = .reload p svc ∧ b.reload p svc = .ok (none, b')) ∨
      b'.scheduler.inbox = b.scheduler.inbox ++ r.posted := by
  cases r with
  | ask c => exact .inr (inbox_command hr h)
  | reload p svc =>
    obtain rfl | hreload := Request.perform_reload h
    · exact .inr (List.append_nil _).symm
    · exact .inl ⟨p, svc, rfl, hreload⟩

/-! ## Runs -/

/-- What became of an errand: it was done in the tick of this number, or was lost before that. -/
structure Fate (W : Type) where
  errand : Errand (Stage (Mind W))
  round : Nat
  isLost : Bool

/-- What happens to errands while requests are done. Ticks have numbers, from `n` to the one that comes
next in the end, `n'`. Of what is `posted`, it says which tick was to come next then; what an errand posts
counts from the end of the errands on. -/
inductive Mails : (n : Nat) → Brain W → List (Request W) → (posted : List (Errand (Stage (Mind W)) × Nat)) →
    (fates : List (Fate W)) → (n' : Nat) → Brain W → Prop where
  | nil (n : Nat) (b : Brain W) : Mails n b [] [] [] n b
  | wait {n n' : Nat} {b b' b'' : Brain W} {r : Request W} {rs : List (Request W)}
      {posted : List (Errand (Stage (Mind W)) × Nat)} {fates : List (Fate W)}
      (patient : r.isPatient = true ∨ b.isStopped = true) (perform : r.perform b = .ok b')
      (inbox : b'.scheduler.inbox = b.scheduler.inbox ++ r.posted)
      (rest : Mails n b' rs posted fates n' b'') :
      Mails n b (r :: rs) (r.posted.map (fun e => (e, n)) ++ posted) fates n' b''
  | lose {n n' : Nat} {b b' b'' : Brain W} {p : Program} {svc : Option (Services (Stage (Mind W)))}
      {rs : List (Request W)} {posted : List (Errand (Stage (Mind W)) × Nat)} {fates : List (Fate W)}
      (reload : b.reload p svc = .ok (none, b')) (inbox : b'.scheduler.inbox = [])
      (rest : Mails n b' rs posted fates n' b'') :
      Mails n b (.reload p svc :: rs) posted
        (b.scheduler.inbox.map (fun e => ⟨e, n, true⟩) ++ fates) n' b''
  | think {n n' : Nat} {b b' b'' ready : Brain W} {dt : Int} {more : List (Errand (Stage (Mind W)))}
      {s : Scheduler (Mind W)} {rs : List (Request W)}
      {posted : List (Errand (Stage (Mind W)) × Nat)} {fates : List (Fate W)}
      (opening : b.Opening dt b.scheduler.inbox ready more s) (think : b.think dt = .ok b')
      (rest : Mails (n + 1) b' rs posted fates n' b'') :
      Mails n b (.ask (.think dt) :: rs) (more.map (fun e => (e, n + 1)) ++ posted)
        (b.scheduler.inbox.map (fun e => ⟨e, n, false⟩) ++ fates) n' b''

section

variable {rs : List (Request W)} {posted : List (Errand (Stage (Mind W)) × Nat)} {fates : List (Fate W)}
  {n n' : Nat}

/-- The fates are those of the errands in the order in which they were posted, each in the tick that came
next. What has none yet is still waiting for it. -/
theorem Mails.in_turn (h : Mails n b rs posted fates n' b₁) :
    b.scheduler.inbox.map (fun e => (e, n)) ++ posted =
      fates.map (fun x => (x.errand, x.round)) ++ b₁.scheduler.inbox.map fun e => (e, n') := by
  induction h with
  | nil n b => simp
  | wait patient perform inbox rest ih =>
    rw [← ih, inbox, List.map_append, List.append_assoc]
  | lose reload inbox rest ih =>
    rw [inbox, List.map_nil, List.nil_append] at ih
    rw [ih, List.map_append, List.map_map, List.append_assoc]
    rfl
  | think opening think rest ih =>
    rw [opening.after think] at ih
    rw [ih, List.map_append, List.map_map, List.append_assoc]
    rfl

/-- Nothing is lost but to a reload. -/
theorem Mails.reloads (h : Mails n b rs posted fates n' b₁) (hlost : ∃ x ∈ fates, x.isLost = true) :
    Request.Reloads rs b := by
  induction h with
  | nil n b =>
    obtain ⟨x, hx, -⟩ := hlost
    cases hx
  | wait patient perform inbox rest ih => exact .cons perform (ih hlost)
  | @lose _ _ b b' _ p svc rs _ _ reload inbox rest ih =>
    exact ⟨[], p, svc, rs, b, b', rfl, rfl, reload⟩
  | @think _ _ b b' _ _ dt _ _ _ _ _ opening think rest ih =>
    obtain ⟨x, hx, hlost⟩ := hlost
    rcases List.mem_append.mp hx with hx | hx
    · obtain ⟨e, -, rfl⟩ := List.mem_map.mp hx
      cases hlost
    · have hperform : (Request.ask (.think dt)).perform b = .ok b' := by
        rw [Request.perform, Command.perform, think]
      exact .cons hperform (ih ⟨x, hx, hlost⟩)

theorem mails_performAll (hrs : ∀ r ∈ rs, r ≠ .ask (.operate .tick))
    (hrun : Request.performAll rs b = .ok b₁) (n : Nat) :
    ∃ posted fates n', Mails n b rs posted fates n' b₁ := by
  induction rs generalizing b n with
  | nil =>
    cases hrun
    exact ⟨[], [], n, .nil n _⟩
  | cons r rs ih =>
    rw [Request.performAll] at hrun
    split at hrun
    · rename_i b' hperform
      have hrs' : ∀ x ∈ rs, x ≠ .ask (.operate .tick) := fun x hx => hrs x (List.mem_cons_of_mem _ hx)
      by_cases hpatient : r.isPatient = true
      · obtain ⟨posted, fates, n', hrest⟩ := ih hrs' hrun n
        rcases inbox_perform hpatient hperform with ⟨p, svc, rfl, hreload⟩ | hinbox
        · exact ⟨_, _, n', .lose hreload (inbox_reload hreload) hrest⟩
        · exact ⟨_, _, n', .wait (.inl hpatient) hperform hinbox hrest⟩
      · -- What is not patient is a tick, which a brain that is stopped refuses.
        obtain ⟨dt, rfl⟩ : ∃ dt, r = .ask (.think dt) := by
          unfold Request.isPatient at hpatient
          split at hpatient
          · exact ⟨_, rfl⟩
          · exact absurd rfl (hrs _ List.mem_cons_self)
          · exact absurd rfl hpatient
        simp only [Request.perform, Command.perform] at hperform
        cases hstopped : b.isStopped with
        | true =>
          obtain ⟨posted, fates, n', hrest⟩ := ih hrs' hrun n
          have hrefused : b.think dt = .error (.refused .stopped) := by simp [Brain.think, hstopped]
          rw [hrefused] at hperform
          cases hperform
          refine ⟨_, _, n', .wait (.inr hstopped) ?_ (List.append_nil _).symm hrest⟩
          rw [Request.perform, Command.perform, hrefused]
        | false =>
          obtain ⟨posted, fates, n', hrest⟩ := ih hrs' hrun (n + 1)
          rcases opening_think hstopped dt with ⟨index, hlost, -⟩ | ⟨ready, more, s, hopening⟩
          · rw [hlost] at hperform
            cases hperform
          · have hthink : b.think dt = .ok b' := by
              have hruns := hopening.runs
              split at hruns
              · rw [hruns] at hperform
                cases hperform
              · rw [hruns] at hperform ⊢
                cases hperform
                rfl
            exact ⟨_, _, n', .think hopening hthink hrest⟩
    · cases hrun

end

/-- In a run of any requests the errands that were waiting and those that are posted have their turns in
this order: each of them is done in the first tick that comes then, before any fiber runs in it, or is
lost to a reload before that, or still waits for that tick, which will begin with it unless there is no
such page. What an errand posts has its turn in the tick that follows. -/
theorem posted_errands {rs : List (Request W)} (hrs : ∀ r ∈ rs, r ≠ .ask (.operate .tick))
    (hrun : Request.performAll rs b = .ok b₁) :
    (∃ posted fates n, Mails 0 b rs posted fates n b₁ ∧
      b.scheduler.inbox.map (fun e => (e, 0)) ++ posted =
        fates.map (fun x => (x.errand, x.round)) ++ b₁.scheduler.inbox.map (fun e => (e, n)) ∧
      ((∃ x ∈ fates, x.isLost = true) → Request.Reloads rs b)) ∧
    (b₁.isStopped = false → ∀ dt,
      (∃ index, b₁.think dt = .error (.crashed (.noPage index)) ∧
        b₁.opened dt = .error (.noPage index)) ∨
      ∃ ready more s, b₁.Opening dt b₁.scheduler.inbox ready more s) := by
  obtain ⟨posted, fates, n, hmails⟩ := mails_performAll hrs hrun 0
  exact ⟨⟨posted, fates, n, hmails, hmails.in_turn, hmails.reloads⟩, opening_think⟩

end Brain

def mailedBrain : BrainDef :=
  { globals := [{ name := "x", type := .number }]
    pages := [{ rules := [] }] }

def mailedErrand : Errand (Stage (Mind Unit)) :=
  .mk fun s => ({ s with host := (s.host.setGlobal? "x" (.int 7)).getD s.host }, [])

theorem posted_errands_mailedBrain :
    ∃ p diags b b₁, compile shadowingEnv mailedBrain = .ok (p, diags) ∧
      Brain.create p shadowingEnv.services {} {} () = .ok b ∧
      Brain.Request.performAll [.ask (.operate (.post mailedErrand)), .ask (.think 0)] b = .ok b₁ ∧
      b₁.mind.globalValue? "x" = some (.int 7) ∧
      ∃ posted fates n, Brain.Mails 0 b [.ask (.operate (.post mailedErrand)), .ask (.think 0)]
          posted fates n b₁ ∧
        b.scheduler.inbox.map (fun e => (e, 0)) ++ posted =
          fates.map (fun x => (x.errand, x.round)) ++ b₁.scheduler.inbox.map fun e => (e, n) := by
  have hran : (compile shadowingEnv mailedBrain).toOption.any (fun r =>
      (Brain.create r.1 shadowingEnv.services {} {} ()).toOption.any fun b =>
        (Brain.Request.performAll [.ask (.operate (.post mailedErrand)), .ask (.think 0)]
            b).toOption.any fun b₁ =>
          decide (b₁.mind.globalValue? "x" = some (.int 7))) = true := by
    decide +kernel
  obtain ⟨⟨p, diags⟩, hp, hran⟩ := exists_of_any_toOption hran
  obtain ⟨b, hb, hran⟩ := exists_of_any_toOption hran
  obtain ⟨b₁, hb₁, hran⟩ := exists_of_any_toOption hran
  obtain ⟨⟨posted, fates, n, hmails, hturns, -⟩, -⟩ := Brain.posted_errands (by simp) hb₁
  exact ⟨p, diags, b, b₁, hp, hb, hb₁, of_decide_eq_true hran, posted, fates, n, hmails, hturns⟩

/-- If the program is put in place once more before the brain thinks, the errand is not done: it is not
waiting any longer, and the global is not set. -/
theorem errand_lost_to_reload :
    ∃ p diags b b₁, compile shadowingEnv mailedBrain = .ok (p, diags) ∧
      Brain.create p shadowingEnv.services {} {} () = .ok b ∧
      (b.post mailedErrand).reload p none = .ok (none, b₁) ∧ b₁.isStopped = false ∧
      b₁.scheduler.inbox = [] ∧
      ∃ b₂, b₁.think 0 = .ok b₂ ∧ b₂.scheduler.inbox = [] ∧ b₂.mind.globalValue? "x" = some .nil := by
  have hran : (compile shadowingEnv mailedBrain).toOption.any (fun r =>
      (Brain.create r.1 shadowingEnv.services {} {} ()).toOption.any fun b =>
        ((b.post mailedErrand).reloaded? r.1 none).any fun b₁ =>
          !b₁.isStopped && (b₁.scheduler.inbox.isEmpty && (b₁.think 0).toOption.any fun b₂ =>
            b₂.scheduler.inbox.isEmpty && decide (b₂.mind.globalValue? "x" = some .nil))) = true := by
    decide +kernel
  obtain ⟨⟨p, diags⟩, hp, hran⟩ := exists_of_any_toOption hran
  obtain ⟨b, hb, hran⟩ := exists_of_any_toOption hran
  obtain ⟨b₁, hb₁, hran⟩ := Brain.exists_reload_of_any hran
  simp only [Bool.and_eq_true, Bool.not_eq_true', List.isEmpty_iff] at hran
  obtain ⟨hgoing, hempty, hran⟩ := hran
  obtain ⟨b₂, hb₂, hran⟩ := exists_of_any_toOption hran
  simp only [Bool.and_eq_true, List.isEmpty_iff, decide_eq_true_eq] at hran
  exact ⟨p, diags, b, b₁, hp, hb, hb₁, hgoing, hempty, b₂, hb₂, hran.1, hran.2⟩

end TileMind
