import TileMind.Proofs.Brain.Starts

/-!
# TileMind.Proofs.Brain.Ticks

What a brain does tick after tick. In all states its fibers are those it last started for root rules of
its page, so a tick starts each root rule that is not running, once, until there is no room for more.
The page changes at the start of a tick only, to the one that was asked for last.

* `Idles`: what a brain does between two runs of its fibers.
* `Tidy`: the invariant, which every command keeps.
* `Readies`, `Ticked`: what a tick does before its fibers run, and as a whole.
* `acts`: the code that a tick runs, which changes the mind (`Tidy.threads_think`).
* `Asked`: what pages were asked for since the page last changed, by commands and by the code of ticks.
* `tick_loop`: what follows for any commands.
-/

namespace TileMind

namespace Brain

/-! ## Between fibers -/

section

variable {W : Type} {K : String → Prop} {p : Program} {b b' b'' : Brain W} {keys keys' : List String}

/-- From `b` to `b'` no fiber starts or ends, and pages are asked for by `keys`. -/
structure Idles (K : String → Prop) (b : Brain W) (keys : List String) (b' : Brain W) : Prop where
  machine : b'.scheduler.machine = b.scheduler.machine
  inbox : (∀ e ∈ b.scheduler.inbox, e.Quiet (Mind.Asking K)) →
    ∀ e ∈ b'.scheduler.inbox, e.Quiet (Mind.Asking K)
  tags : b'.scheduler.tags = b.scheduler.tags
  lastId : b'.scheduler.lastId = b.scheduler.lastId
  fibers : b'.fibers = b.fibers
  isStopped : b'.isStopped = b.isStopped
  mind : b.mind.Stays keys [] b'.mind

theorem Idles.refl (K : String → Prop) (b : Brain W) : b.Idles K [] b :=
  ⟨rfl, id, rfl, rfl, rfl, rfl, .refl _⟩

theorem Idles.trans (h : b.Idles K keys b') (h' : b'.Idles K keys' b'') :
    b.Idles K (keys ++ keys') b'' :=
  ⟨h'.machine.trans h.machine, fun hb => h'.inbox (h.inbox hb), h'.tags.trans h.tags,
    h'.lastId.trans h.lastId, h'.fibers.trans h.fibers, h'.isStopped.trans h.isStopped,
    h.mind.trans h'.mind⟩

theorem idles_setMind (K : String → Prop) (b : Brain W) {m : Mind W} (hm : b.mind.Stays keys [] m) :
    b.Idles K keys (b.setMind m) :=
  ⟨rfl, id, rfl, rfl, rfl, rfl, hm⟩

theorem idles_deliver (K : String → Prop) (hids : (b.scheduler.live.map Fiber.id).Nodup)
    {stage : Stage (Mind W)} (hm : b.mind.Stays keys [] stage.host) :
    b.Idles K keys { b with scheduler := { b.scheduler with stage := stage }.deliver } := by
  have hcalled := Scheduler.called_deliver { b.scheduler with stage := stage } hids
  refine ⟨hcalled.machine, ?_, Scheduler.tags_deliver hids, hcalled.lastId, rfl, rfl, ?_⟩
  · intro hb e he
    rw [hcalled.inbox] at he
    exact hb e he
  · have hhost := (Scheduler.deliver_same { b.scheduler with stage := stage }).2.2
    change b.mind.Stays keys [] ({ b.scheduler with stage := stage } : Scheduler _).deliver.stage.host
    rw [hhost]
    exact hm

theorem Idles.ids (h : b.Idles K keys b') (hids : (b.scheduler.live.map Fiber.id).Nodup) :
    (b'.scheduler.live.map Fiber.id).Nodup := by
  rw [ids_eq, h.tags, ← ids_eq]
  exact hids

theorem idles_fireTimers (K : String → Prop) (hids : (b.scheduler.live.map Fiber.id).Nodup) :
    b.Idles K [] b.fireTimers := by
  have hset : b.Idles K [] (b.setMind
      { b.mind with timers := (b.mind.timers.due b.mind.clock.elapsed).2 }) :=
    idles_setMind K b (.other rfl rfl rfl rfl rfl)
  exact hset.trans (idles_deliver K (hset.ids hids)
    (.of_eq (foldl_host (fun s (h : Nat) => s.resolve_host h .void) _ _)))

theorem idles_cancelTimers (K : String → Prop) (hids : (b.scheduler.live.map Fiber.id).Nodup) :
    b.Idles K [] b.cancelTimers := by
  have hset : b.Idles K [] (b.setMind { b.mind with timers := {} }) :=
    idles_setMind K b (.other rfl rfl rfl rfl rfl)
  have hsame := foldl_host (fun s (h : Nat) => cancelled_host s h)
    (b.mind.timers.timers.map Timer.handle) (b.setMind { b.mind with timers := {} }).scheduler.stage
  exact hset.trans (idles_deliver K (hset.ids hids) (.of_eq hsame))

theorem idles_enterSite (hp : p.Paged) (hprogram : b.mind.program = p) (hsvc : b.services.Obliging K)
    (hids : (b.scheduler.live.map Fiber.id).Nodup) (site : CallSite) :
    ∃ keys, b.Idles K keys (b.enterSite site) ∧ ∀ key ∈ keys, K key := by
  obtain hsame | ⟨f, hook, hf, hhook, hentered⟩ := b.enterSite_cases site
  · rw [hsame]
    exact ⟨[], .refl K b, by simp⟩
  · rw [hentered]
    obtain ⟨keys, hasks⟩ := (hsvc.functions f (Functions.mem_of_get? hf)).onPage hhook
      { program := b.program, func := -1, site := site.site } b.scheduler.stage
    obtain ⟨hstays, hkeys⟩ := hasks.stays hp hprogram
    exact ⟨keys, idles_deliver K hids hstays, hkeys⟩

theorem idles_enterSites (hp : p.Paged) (sites : List CallSite) (hprogram : b.mind.program = p)
    (hsvc : b.services.Obliging K) (hids : (b.scheduler.live.map Fiber.id).Nodup) :
    ∃ keys, b.Idles K keys (sites.foldl enterSite b) ∧ ∀ key ∈ keys, K key := by
  induction sites generalizing b with
  | nil => exact ⟨[], .refl K b, by simp⟩
  | cons site sites ih =>
    obtain ⟨keys, hfirst, hkeys⟩ := idles_enterSite hp hprogram hsvc hids site
    have hsvc' : (b.enterSite site).services.Obliging K := by
      rw [services, hfirst.machine]
      exact hsvc
    obtain ⟨keys', hrest, hkeys'⟩ := ih (hfirst.mind.program.trans hprogram) hsvc' (hfirst.ids hids)
    exact ⟨keys ++ keys', hfirst.trans hrest, List.forall_mem_append.mpr ⟨hkeys, hkeys'⟩⟩

/-- Cancelled fibers leave nothing behind, and no fault is recorded for them. -/
theorem cancelAll_same (b : Brain W) :
    b.cancelAll.scheduler.machine = b.scheduler.machine ∧
      b.cancelAll.scheduler.lastId = b.scheduler.lastId ∧
      b.cancelAll.scheduler.inbox = b.scheduler.inbox ∧ b.cancelAll.mind = b.mind := by
  have hfibers (fibers : List Fiber) (s : Scheduler (Mind W)) :
      (fibers.foldl Scheduler.cancelFiber s).machine = s.machine ∧
        (fibers.foldl Scheduler.cancelFiber s).lastId = s.lastId ∧
        (fibers.foldl Scheduler.cancelFiber s).inbox = s.inbox ∧
        (fibers.foldl Scheduler.cancelFiber s).stage.host = s.stage.host := by
    induction fibers generalizing s with
    | nil => exact ⟨rfl, rfl, rfl, rfl⟩
    | cons f fibers ih => exact ih (s.cancelFiber f)
  exact hfibers b.scheduler.live b.scheduler

theorem tags_cancelAll (b : Brain W) : b.cancelAll.scheduler.tags = [] := by
  rw [Scheduler.tags, cancelAll, b.scheduler.live_cancelAll, List.map_nil]

end

/-! ## The invariant -/

section

variable {W : Type} {K : String → Prop} {p : Program} {b b' b'' : Brain W} {keys keys' : List String}
  {page : PageInfo}

/-- A brain that runs `p`, with host code that does no more than to ask for pages, on a page whose root
rules are all that is running. -/
structure Tidy (K : String → Prop) (p : Program) (b : Brain W) : Prop where
  program : b.program = p
  services : b.services.Obliging K
  inbox : ∀ e ∈ b.scheduler.inbox, e.Quiet (Mind.Asking K)
  going : b.isStopped = false
  carries : b.mind.Carries p
  pending : ∀ index, b.mind.pending = some index → 0 ≤ index ∧ index < p.pages.length
  page : ∃ page, b.mind.activePage? = some page ∧ b.Links page.roots

theorem Tidy.machine (hb : b.Tidy K p) (b' : Brain W)
    (h : b'.scheduler.machine = b.scheduler.machine) :
    b'.program = p ∧ b'.services.Obliging K := by
  rw [Brain.program, Brain.services, h]
  exact ⟨hb.program, hb.services⟩

theorem Tidy.ids (hb : b.Tidy K p) : (b.scheduler.live.map Fiber.id).Nodup := by
  obtain ⟨page, -, hlinks⟩ := hb.page
  exact hlinks.numbered.nodup

theorem Idles.tidy (h : b.Idles K keys b') (hp : p.Paged) (hb : b.Tidy K p) : b'.Tidy K p := by
  obtain ⟨page, hpage, hlinks⟩ := hb.page
  obtain ⟨hprogram, hsvc⟩ := hb.machine b' h.machine
  refine ⟨hprogram, hsvc, h.inbox hb.inbox, h.isStopped.trans hb.going, h.mind.carries hb.carries,
    h.mind.pending_range hp hb.carries.program hb.pending, page, ?_, ?_⟩
  · rw [Mind.activePage?_congr h.mind.program h.mind.active, hpage]
  · rw [Links, h.fibers, h.tags, h.lastId]
    exact hlinks

/-! ## Changing the page -/

/-- The brain between two pages: no fiber and no timer is left. -/
def cleared (b : Brain W) : Brain W :=
  { (b.setMind { b.mind with pending := none }).cancelAll with fibers := {} }.cancelTimers

theorem switchPage_eq (b : Brain W) (index : Int) :
    b.switchPage index =
      match { b.cleared.mind with active := index }.activePage? with
      | none => .error (.noPage index)
      | some page =>
        .ok (page.sites.foldl enterSite (b.cleared.setMind { b.cleared.mind with active := index })) :=
  rfl

/-- The live fibers that a tick keeps: all of them, unless it changes the page. -/
def kept (b : Brain W) : List (Nat × Int) := if b.mind.pending = none then b.scheduler.tags else []

/-- What a tick does before it starts rules. -/
structure Enters (K : String → Prop) (b : Brain W) (keys : List String) (b' : Brain W) : Prop where
  machine : b'.scheduler.machine = b.scheduler.machine
  inbox : (∀ e ∈ b.scheduler.inbox, e.Quiet (Mind.Asking K)) →
    ∀ e ∈ b'.scheduler.inbox, e.Quiet (Mind.Asking K)
  isStopped : b'.isStopped = b.isStopped
  lastId : b'.scheduler.lastId = b.scheduler.lastId
  tags : b'.scheduler.tags = b.kept
  fibers : b'.fibers = if b.mind.pending = none then b.fibers else {}
  mind : b.mind.turned.Stays keys [] b'.mind

theorem Enters.of_none (hpending : b.mind.pending = none) : b.Enters K [] b := by
  refine ⟨rfl, id, rfl, rfl, ?_, ?_, ?_⟩
  · rw [kept, if_pos hpending]
  · rw [if_pos hpending]
  · exact .of_eq (Mind.turned_of_none hpending).symm

theorem Idles.enters (h : b.Idles K [] b') (h' : b'.Enters K keys b'') : b.Enters K keys b'' := by
  have hpending : b'.mind.pending = b.mind.pending := h.mind.pending
  refine ⟨h'.machine.trans h.machine, fun hb => h'.inbox (h.inbox hb), h'.isStopped.trans h.isStopped,
    h'.lastId.trans h.lastId, ?_, ?_, h.mind.turned.trans h'.mind⟩
  · rw [h'.tags, kept, kept, hpending, h.tags]
  · rw [h'.fibers, hpending, h.fibers]

theorem enters_switchPage (hp : p.Paged) (hprogram : b.mind.program = p) (hsvc : b.services.Obliging K)
    {index : Int} (hpending : b.mind.pending = some index)
    (hindex : 0 ≤ index ∧ index < p.pages.length) :
    ∃ b' keys, b.switchPage index = .ok b' ∧ b.Enters K keys b' ∧ ∀ key ∈ keys, K key := by
  unfold switchPage
  dsimp only
  have hstopped : (b.setMind { b.mind with pending := none }).cancelAll.isStopped = b.isStopped := rfl
  obtain ⟨hmachine, hlast, hinbox, hmind⟩ := (b.setMind { b.mind with pending := none }).cancelAll_same
  have hnobody := (b.setMind { b.mind with pending := none }).tags_cancelAll
  generalize (b.setMind { b.mind with pending := none }).cancelAll = b₁ at *
  have hids : (({ b₁ with fibers := {} } : Brain W).scheduler.live.map Fiber.id).Nodup := by
    rw [ids_eq, hnobody]
    exact List.nodup_nil
  have htimers := idles_cancelTimers K hids
  have hids' := htimers.ids hids
  generalize ({ b₁ with fibers := {} } : Brain W).cancelTimers = b₂ at htimers hids' ⊢
  -- What is left to do is to enter the page, with the fibers and timers of the old one gone.
  have hturned : b.mind.turned.Stays [] [] { b₂.mind with active := index } := by
    have hstays : b₁.mind.Stays [] [] b₂.mind := htimers.mind
    rw [hmind] at hstays
    refine ⟨hstays.program, hstays.shape, ?_, hstays.pending, hstays.faults⟩
    simp [Mind.turned, hpending]
  obtain ⟨page, hpage⟩ := Mind.exists_activePage? (m := { b₂.mind with active := index })
    (hturned.program.trans hprogram) hindex
  have hsvc' : (b₂.setMind { b₂.mind with active := index }).services.Obliging K := by
    have hmachine' : b₂.scheduler.machine = b.scheduler.machine := htimers.machine.trans hmachine
    rw [services]
    exact hmachine' ▸ hsvc
  obtain ⟨keys, hsites, hkeys⟩ := idles_enterSites (b := b₂.setMind { b₂.mind with active := index }) hp
    page.sites (hturned.program.trans hprogram) hsvc' hids'
  refine ⟨_, keys, ?_, ⟨?_, ?_, ?_, ?_, ?_, ?_, hturned.trans hsites.mind⟩, hkeys⟩
  · rw [show (b₂.setMind { b₂.mind with active := index }).mind.activePage? = some page from hpage]
  · exact hsites.machine.trans (htimers.machine.trans hmachine)
  · intro hb
    exact hsites.inbox (htimers.inbox (hinbox ▸ hb))
  · exact hsites.isStopped.trans (htimers.isStopped.trans hstopped)
  · exact hsites.lastId.trans (htimers.lastId.trans hlast)
  · rw [kept, if_neg (by simp [hpending])]
    exact hsites.tags.trans (htimers.tags.trans hnobody)
  · rw [if_neg (by simp [hpending])]
    exact hsites.fibers.trans htimers.fibers

/-- A tick up to where it starts rules. -/
def opened (b : Brain W) (dt : Int) : Except Crash (Brain W) :=
  let b := (b.setMind { b.mind with clock := advance b.mind.clock dt }).fireTimers
  match b.mind.pending with
  | some index => b.switchPage index
  | none => .ok b

theorem prepared_eq (hb : b.isStopped = false) {dt : Int} (h : b.opened dt = .ok b') :
    b.prepared dt = .ok b'.startRules := by
  unfold opened at h
  unfold prepared
  rw [if_neg (by simp [hb])]
  dsimp only at h ⊢
  generalize (b.setMind { b.mind with clock := advance b.mind.clock dt }).fireTimers = b₁ at h ⊢
  cases hpending : b₁.mind.pending with
  | none =>
    rw [hpending] at h
    cases h
    rfl
  | some index =>
    rw [hpending] at h
    dsimp only at h ⊢
    rw [h]

theorem Tidy.opened (hp : p.Paged) (hb : b.Tidy K p) (dt : Int) :
    ∃ b' keys, b.opened dt = .ok b' ∧ b.Enters K keys b' ∧ ∀ key ∈ keys, K key := by
  have hclock : b.Idles K [] (b.setMind { b.mind with clock := advance b.mind.clock dt }) :=
    idles_setMind K b (.other rfl rfl rfl rfl rfl)
  have hfired := hclock.trans (idles_fireTimers K (hclock.ids hb.ids))
  unfold Brain.opened
  dsimp only
  generalize (b.setMind { b.mind with clock := advance b.mind.clock dt }).fireTimers = b₁ at hfired
  have hb₁ := hfired.tidy hp hb
  cases hpending : b₁.mind.pending with
  | none => exact ⟨b₁, [], rfl, hfired.enters (.of_none hpending), by simp⟩
  | some index =>
    obtain ⟨b', keys, hswitch, henters, hkeys⟩ := enters_switchPage hp hb₁.carries.program hb₁.services
      hpending (hb₁.pending index hpending)
    exact ⟨b', keys, hswitch, hfired.enters henters, hkeys⟩

theorem Enters.tidy (h : b.Enters K keys b') (hp : p.Paged) (hb : b.Tidy K p) : b'.Tidy K p := by
  obtain ⟨hprogram, hsvc⟩ := hb.machine b' h.machine
  have hcarries : b.mind.turned.Carries p := ⟨hb.carries.program, hb.carries.shape⟩
  refine ⟨hprogram, hsvc, h.inbox hb.inbox, h.isStopped.trans hb.going, h.mind.carries hcarries,
    h.mind.pending_range hp hcarries.program nofun, ?_⟩
  rw [Mind.activePage?_congr h.mind.program h.mind.active]
  have htags := h.tags
  have hfibers := h.fibers
  rw [kept] at htags
  cases hpending : b.mind.pending with
  | none =>
    obtain ⟨page, hpage, hlinks⟩ := hb.page
    rw [if_pos hpending] at htags hfibers
    refine ⟨page, by rw [Mind.turned_of_none hpending, hpage], ?_⟩
    rw [Links, hfibers, htags, h.lastId]
    exact hlinks
  | some index =>
    rw [if_neg (by simp [hpending])] at htags hfibers
    obtain ⟨page, hpage⟩ := Mind.exists_activePage? (m := b.mind.turned) hcarries.program
      (by simpa [Mind.turned, hpending] using hb.pending index hpending)
    refine ⟨page, hpage, ?_⟩
    rw [Links, hfibers, htags]
    exact linked_nil _ _

/-! ## Ticks -/

theorem Tidy.startRules (hp : p.Paged) (hb : b.Tidy K p) :
    ∃ page started refused, b.startRules.mind.activePage? = some page ∧
      b.Starts p started refused b.startRules ∧
      started ++ refused = page.roots.filter (fun r => decide (r ∉ b.scheduler.entries)) ∧
      b.startRules.Tidy K p := by
  obtain ⟨page, hpage, hlinks⟩ := hb.page
  have hmem := Mind.mem_of_activePage? hb.carries.program hpage
  obtain ⟨started, refused, hstarts, hsplit, hlinks'⟩ :=
    starts_foldl hp hmem page.roots (fun _ h => h) (hp.nodup page hmem) hb.program hb.carries hlinks
  have heq : b.startRules = page.roots.foldl startRule b := by
    rw [Brain.startRules, hpage]
  rw [← heq] at hstarts hlinks'
  obtain ⟨faults, hstays, -⟩ := hstarts.mind
  have hpage' : b.startRules.mind.activePage? = some page := by
    rw [Mind.activePage?_congr hstays.program hstays.active, hpage]
  obtain ⟨hprogram, hsvc⟩ := hb.machine _ hstarts.machine
  exact ⟨page, started, refused, hpage', hstarts, hsplit, hprogram, hsvc, hstarts.inbox ▸ hb.inbox,
    hstarts.isStopped.trans hb.going, hstays.carries hb.carries,
    hstays.pending_range hp hb.carries.program hb.pending, page, hpage', hlinks'⟩

/-- Live fibers are for rules. -/
theorem Tidy.entries_range (hp : p.Paged) (hb : b.Tidy K p) :
    ∀ e ∈ b.scheduler.entries, 0 ≤ e ∧ e < p.rules.length := by
  obtain ⟨page, hpage, hlinks⟩ := hb.page
  intro e he
  rw [entries_eq] at he
  obtain ⟨⟨id, func⟩, ht, rfl⟩ := List.mem_map.mp he
  exact hp.tabled.roots page (Mind.mem_of_activePage? hb.carries.program hpage) func
    (hlinks.known ht).1

/-- The fibers run. None is started meanwhile, and faults are recorded for rules that are running. -/
theorem Tidy.tick (hp : p.Paged) (hb : b.Tidy K p) {s : Scheduler (Mind W)}
    (h : b.scheduler.tick = .ok s) :
    ({ b with scheduler := s } : Brain W).Tidy K p ∧ s.tags ⊆ b.scheduler.tags ∧
      s.lastId = b.scheduler.lastId ∧
      ∃ keys faults, b.mind.Stays keys faults s.stage.host ∧ (∀ key ∈ keys, K key) ∧
        ∀ r ∈ faults, ∃ e ∈ b.scheduler.entries, r.rule = p.rulePath e := by
  obtain ⟨page, hpage, hlinks⟩ := hb.page
  have hwithin : b.scheduler.machine.Within (Mind.Asking K) := hb.services.within
  have hfollows := Scheduler.follows_tick hwithin hb.inbox h
  have hlives := Scheduler.lives_tick hlinks.numbered h
  obtain ⟨keys, faults, hstays, hkeys, hfaults⟩ :=
    Mind.stays_of_happens hp hb.carries (hb.entries_range hp) hfollows.host
  refine ⟨?_, hfollows.tags_subset, hfollows.lastId, keys, faults, hstays, hkeys, hfaults⟩
  obtain ⟨hprogram, hsvc⟩ := hb.machine { b with scheduler := s } hfollows.machine
  refine ⟨hprogram, hsvc, hfollows.inbox hb.inbox, hb.going, hstays.carries hb.carries,
    hstays.pending_range hp hb.carries.program hb.pending, page, ?_, ?_⟩
  · rw [← hpage]
    exact Mind.activePage?_congr hstays.program hstays.active
  · rw [Links, hfollows.lastId]
    refine hlinks.subset hfollows.tags_subset ?_
    rw [← ids_eq]
    exact hlives.numbered.nodup

/-- The brain `ready` is about to run its fibers, in a tick that has begun with `b`. Every root rule of
the page that no fiber was left for has got one, or there is no room for it and a fault is recorded. -/
structure Readies (p : Program) (b ready : Brain W) (page : PageInfo) (started refused : List Int) :
    Prop where
  active : ready.mind.active = b.mind.pending.getD b.mind.active
  onPage : ready.mind.activePage? = some page
  idle : started ++ refused = page.roots.filter fun r => decide (r ∉ b.kept.map Prod.snd)
  tags : ready.scheduler.tags = b.kept ++ numberedFrom (b.scheduler.lastId + 1) started
  lastId : ready.scheduler.lastId = b.scheduler.lastId + started.length
  full : refused ≠ [] → ready.scheduler.machine.limits.fibers ≤ ready.scheduler.live.length
  faults : ∃ faults, ready.mind.faults = b.mind.faults ++ faults ∧
    faults.map RuleFault.rule = refused.map p.rulePath

/-- The tick has ended with `b'`. While the fibers ran the page did not change and no fiber was started;
if the page has changed before, the fibers of the old one are gone. For a rule that could not be
started there is one fault, and no other. -/
structure Ticked (p : Program) (b ready b' : Brain W) (refused : List Int) : Prop where
  active : b'.mind.active = ready.mind.active
  tags : b'.scheduler.tags ⊆ ready.scheduler.tags
  lastId : b'.scheduler.lastId = ready.scheduler.lastId
  gone : b.mind.pending ≠ none → ∀ f ∈ b.scheduler.live, b'.scheduler.fiber? f.id = none
  faults : ∃ faults, b'.mind.faults = b.mind.faults ++ faults ∧
    ∀ r ∈ refused, (faults.map RuleFault.rule).count (p.rulePath r) = 1

theorem Tidy.prepared (hp : p.Paged) (hb : b.Tidy K p) (dt : Int) :
    ∃ ready page started refused keys faults, b.prepared dt = .ok ready ∧ ready.Tidy K p ∧
      b.Readies p ready page started refused ∧ b.mind.turned.Stays keys faults ready.mind ∧
      ∀ key ∈ keys, K key := by
  obtain ⟨b₁, keys, hopened, henters, hkeys⟩ := hb.opened hp dt
  obtain ⟨page, started, refused, hpage, hstarts, hsplit, hready⟩ := (henters.tidy hp hb).startRules hp
  obtain ⟨faults, hstays, hfaults⟩ := hstarts.mind
  have hturned := henters.mind.trans hstays
  refine ⟨_, page, started, refused, _, _, prepared_eq hb.going hopened, hready,
    ⟨hturned.active, hpage, ?_, ?_, ?_, ?_, faults, hturned.faults, hfaults⟩, hturned, by simpa using hkeys⟩
  · rw [hsplit, entries_eq, henters.tags]
  · rw [hstarts.tags, henters.tags, henters.lastId]
  · rw [hstarts.lastId, henters.lastId]
  · intro hne
    have hfull := hstarts.full hne
    have hlength : b₁.startRules.scheduler.live.length = b₁.scheduler.tags.length + started.length := by
      have := congrArg List.length hstarts.tags
      simpa [Scheduler.tags, numberedFrom] using this
    rw [hstarts.machine, hlength]
    exact_mod_cast hfull

section

variable {ready : Brain W} {page : PageInfo} {started refused : List Int}

/-- Nobody runs for a rule that could not be started, and it is one of the page. -/
theorem Readies.not_running (h : b.Readies p ready page started refused) (hp : p.Paged)
    (hpage : page ∈ p.pages) : refused.Nodup ∧
      ∀ r ∈ refused, r ∉ ready.scheduler.entries ∧ 0 ≤ r ∧ r < p.rules.length := by
  have hnodup : (started ++ refused).Nodup := by
    rw [h.idle]
    exact (hp.nodup page hpage).filter _
  obtain ⟨-, hrefused, hapart⟩ := List.nodup_append.mp hnodup
  refine ⟨hrefused, fun r hr => ?_⟩
  have hidle : r ∈ page.roots.filter fun r => decide (r ∉ b.kept.map Prod.snd) := by
    rw [← h.idle]
    exact List.mem_append_right _ hr
  obtain ⟨hroot, hkept⟩ := List.mem_filter.mp hidle
  refine ⟨?_, hp.tabled.roots page hpage r hroot⟩
  rw [entries_eq, h.tags, List.map_append, snd_numberedFrom, List.mem_append, not_or]
  exact ⟨by simpa using hkept, fun hstarted => hapart r hstarted r hr rfl⟩

/-- Numbers that a tick hands out are new. -/
theorem Readies.gone (h : b.Readies p ready page started refused) (hb : b.Tidy K p)
    (hpending : b.mind.pending ≠ none) {f : Fiber} (hf : f ∈ b.scheduler.live) :
    f.id ∉ ready.scheduler.tags.map Prod.fst := by
  obtain ⟨page, -, hlinks⟩ := hb.page
  have hle := hlinks.numbered.bounded f hf
  rw [h.tags, kept, if_neg hpending, List.nil_append]
  intro hid
  obtain ⟨tag, htag, hid⟩ := List.mem_map.mp hid
  obtain ⟨x, hx, rfl⟩ := List.mem_map.mp htag
  have hlt := List.le_snd_of_mem_zipIdx hx
  rw [Prod.fst_swap] at hid
  omega

/-- Of the faults that a tick records, one is for a rule that could not be started. -/
theorem Readies.count_faults (h : b.Readies p ready page started refused) (hp : p.Paged)
    (hready : ready.Tidy K p) {recorded more : List RuleFault}
    (hrecorded : recorded.map RuleFault.rule = refused.map p.rulePath)
    (hmore : ∀ fault ∈ more, ∃ e ∈ ready.scheduler.entries, fault.rule = p.rulePath e) {r : Int}
    (hr : r ∈ refused) : ((recorded ++ more).map RuleFault.rule).count (p.rulePath r) = 1 := by
  have hmem := Mind.mem_of_activePage? hready.carries.program h.onPage
  obtain ⟨hnodup, hrefused⟩ := h.not_running hp hmem
  have hown : (refused.map p.rulePath).count (p.rulePath r) = 1 := by
    refine List.count_eq_one_of_mem (hnodup.map_on ?_) (List.mem_map_of_mem hr)
    intro x hx y hy heq
    exact hp.rulePath_injective (hrefused x hx).2 (hrefused y hy).2 heq
  -- What the fibers leave is for rules that are running, and this one is not.
  have hother : (more.map RuleFault.rule).count (p.rulePath r) = 0 := by
    refine List.count_eq_zero.mpr fun hmem => ?_
    obtain ⟨fault, hfault, heq⟩ := List.mem_map.mp hmem
    obtain ⟨e, he, hrule⟩ := hmore fault hfault
    rw [hrule] at heq
    rw [hp.rulePath_injective (hready.entries_range hp e he) (hrefused r hr).2 heq] at he
    exact (hrefused r hr).1 he
  rw [List.map_append, List.count_append, hrecorded, hown, hother]

/-- A tick as a whole: `ready` is what comes before its fibers run. -/
theorem Tidy.think (hp : p.Paged) (hb : b.Tidy K p) {dt : Int} (h : b.think dt = .ok b') :
    b'.Tidy K p ∧ (∃ keys faults, b.mind.turned.Stays keys faults b'.mind ∧ ∀ key ∈ keys, K key) ∧
      ∀ ready page started refused, b.prepared dt = .ok ready →
        b.Readies p ready page started refused → b.Ticked p ready b' refused := by
  obtain ⟨ready, -, -, -, keys, faults, hprepared, hready, -, hstays, hkeys⟩ := hb.prepared hp dt
  rw [think_eq, hprepared] at h
  dsimp only [Except.bind] at h
  split at h
  · cases h
  · rename_i s htick
    cases h
    obtain ⟨htidy, htags, hlast, keys', faults', hstays', hkeys', hfaults'⟩ := hready.tick hp htick
    refine ⟨htidy, ⟨_, _, hstays.trans hstays', List.forall_mem_append.mpr ⟨hkeys, hkeys'⟩⟩, ?_⟩
    intro ready' page started refused hprepared' hreadies
    rw [hprepared] at hprepared'
    cases hprepared'
    obtain ⟨recorded, hrecorded, hpaths⟩ := hreadies.faults
    refine ⟨hstays'.active, htags, hlast, fun hpending f hf => ?_, recorded ++ faults', ?_, fun r hr =>
      hreadies.count_faults hp hready hpaths hfaults' hr⟩
    · rw [Scheduler.fiber?_eq_none_iff, ids_eq]
      intro hid
      exact hreadies.gone hb hpending hf (List.map_subset _ htags hid)
    · rw [← List.append_assoc, ← hrecorded]
      exact hstays'.faults

end

end

/-! ## What a tick asks for -/

section

variable {W : Type} {K : String → Prop} {p : Program} {b b' : Brain W}

/-- The hooks that run when a page with some call sites is entered. -/
def enterActs : List CallSite → Brain W → List (Mind W × Mind W)
  | [], _ => []
  | site :: sites, b => (b.mind, (b.enterSite site).mind) :: enterActs sites (b.enterSite site)

/-- The hooks of the page that a tick enters, if it enters one. -/
def hookActs (b : Brain W) : List (Mind W × Mind W) :=
  match b.mind.pending with
  | none => []
  | some index =>
    let entered := b.cleared.setMind { b.cleared.mind with active := index }
    match entered.mind.activePage? with
    | none => []
    | some page => enterActs page.sites entered

/-- The code that a tick runs, each part with the mind it finds and the one it leaves: the hooks of the page
that it enters, then errands, then the instructions of fibers with the host code they call. -/
def acts (b : Brain W) (dt : Int) : List (Mind W × Mind W) :=
  hookActs (b.setMind { b.mind with clock := advance b.mind.clock dt }).fireTimers ++
    match b.prepared dt with
    | .ok ready => ready.scheduler.acts
    | .error _ => []

theorem enterSite_same (b : Brain W) (site : CallSite) :
    (b.enterSite site).scheduler.machine = b.scheduler.machine ∧
      ((b.enterSite site).mind = b.mind ∨ ∃ f ∈ b.services.functions.list, ∃ hook c,
        f.onPage = some hook ∧ (b.enterSite site).mind = (hook c b.scheduler.stage).host) := by
  obtain hsame | ⟨f, hook, hf, hhook, hentered⟩ := b.enterSite_cases site
  · rw [hsame]
    exact ⟨rfl, .inl rfl⟩
  · rw [hentered]
    obtain ⟨hmachine, -, hhost⟩ := Scheduler.deliver_same { b.scheduler with
      stage := hook { program := b.program, func := -1, site := site.site } b.scheduler.stage }
    exact ⟨hmachine, .inr ⟨f, Functions.mem_of_get? hf, hook, _, hhook, hhost⟩⟩

theorem threads_enterSites (sites : List CallSite) (hsvc : b.services.Obliging K) :
    Threads (Mind.Asking K) Mind.Waits b.mind (enterActs sites b) (sites.foldl enterSite b).mind := by
  induction sites generalizing b with
  | nil => exact .rest ⟨rfl, rfl⟩
  | cons site sites ih =>
    obtain ⟨hmachine, hact⟩ := b.enterSite_same site
    have hasking : b.mind.Asking K (b.enterSite site).mind := by
      rcases hact with hsame | ⟨f, hf, hook, c, hhook, hmind⟩
      · rw [hsame]
        exact .refl K _
      · rw [hmind]
        exact (hsvc.functions f hf).onPage hhook c b.scheduler.stage
    exact .step ⟨rfl, rfl⟩ hasking (ih (by rw [services, hmachine]; exact hsvc))

theorem cleared_same (b : Brain W) : b.cleared.scheduler.machine = b.scheduler.machine ∧
    b.cleared.mind = { b.mind with pending := none, timers := {} } := by
  obtain ⟨hmachine, -, -, hmind⟩ := (b.setMind { b.mind with pending := none }).cancelAll_same
  unfold cleared
  generalize (b.setMind { b.mind with pending := none }).cancelAll = b₁ at hmachine hmind ⊢
  have hsame := foldl_host (fun s (h : Nat) => cancelled_host s h) (b₁.mind.timers.timers.map Timer.handle)
    (b₁.setMind { b₁.mind with timers := {} }).scheduler.stage
  have htimers : ({ b₁ with fibers := {} } : Brain W).cancelTimers.mind = { b₁.mind with timers := {} } :=
    (Scheduler.deliver_same _).2.2.trans hsame
  refine ⟨(Scheduler.deliver_same _).1.trans hmachine, ?_⟩
  rw [htimers, hmind]
  rfl

theorem threads_opened (hp : p.Paged) (hb : b.Tidy K p) {dt : Int} (h : b.opened dt = .ok b') :
    Threads (Mind.Asking K) Mind.Waits b.mind.turned
      (hookActs (b.setMind { b.mind with clock := advance b.mind.clock dt }).fireTimers) b'.mind := by
  have hclock : b.Idles K [] (b.setMind { b.mind with clock := advance b.mind.clock dt }) :=
    idles_setMind K b (.other rfl rfl rfl rfl rfl)
  have hfired := hclock.trans (idles_fireTimers K (hclock.ids hb.ids))
  unfold Brain.opened at h
  dsimp only at h
  generalize (b.setMind { b.mind with clock := advance b.mind.clock dt }).fireTimers = b₁ at hfired h ⊢
  have hb₁ := hfired.tidy hp hb
  have hturned : b.mind.turned.Waits b₁.mind.turned := hfired.mind.turned.waits
  unfold hookActs
  cases hpending : b₁.mind.pending with
  | none =>
    rw [hpending] at h
    cases h
    rw [Mind.turned_of_none hpending] at hturned
    exact .rest hturned
  | some index =>
    simp only [hpending, switchPage_eq] at h
    dsimp only
    obtain ⟨hmachine, hmind⟩ := b₁.cleared_same
    have hentered : b.mind.turned.Waits (b₁.cleared.setMind { b₁.cleared.mind with active := index }).mind := by
      have hprogram : b₁.cleared.mind.program = b₁.mind.program := by rw [hmind]
      have hnone : b₁.cleared.mind.pending = none := by rw [hmind]
      exact hturned.trans ⟨hprogram, hnone⟩
    cases hpage : { b₁.cleared.mind with active := index }.activePage? with
    | none =>
      rw [hpage] at h
      cases h
    | some page =>
      rw [hpage] at h
      cases h
      have hpage' : (b₁.cleared.setMind { b₁.cleared.mind with active := index }).mind.activePage? =
        some page := hpage
      rw [hpage']
      refine (threads_enterSites page.sites ?_).after Mind.Waits.trans hentered
      rw [services]
      exact hmachine ▸ hb₁.services

/-- What a tick does to the mind it does by the code that it runs, beginning with nothing asked for. -/
theorem Tidy.threads_think (hp : p.Paged) (hb : b.Tidy K p) {dt : Int} (h : b.think dt = .ok b') :
    Threads (Mind.Asking K) Mind.Waits b.mind.turned (b.acts dt) b'.mind := by
  obtain ⟨b₁, keys, hopened, henters, -⟩ := hb.opened hp dt
  obtain ⟨page, started, refused, -, hstarts, -, hready⟩ := (henters.tidy hp hb).startRules hp
  obtain ⟨faults, hstays, -⟩ := hstarts.mind
  have hprepared := prepared_eq hb.going hopened
  have hbegins := threads_opened hp hb hopened
  rw [think_eq, hprepared] at h
  dsimp only [Except.bind] at h
  rw [acts, hprepared]
  dsimp only
  split at h
  · cases h
  · rename_i s htick
    cases h
    have hticks := Scheduler.threads_tick hready.services.rests hready.inbox htick
    exact hbegins.trans Mind.Waits.trans (hticks.after Mind.Waits.trans hstays.waits)

end

/-- A brain that is going does not refuse to think. -/
theorem Tidy.think_of_perform {W : Type} {K : String → Prop} {p : Program} {b b' : Brain W} (hp : p.Paged)
    (hb : b.Tidy K p) {dt : Int} (h : (Command.think dt).perform b = .ok b') : b.think dt = .ok b' := by
  obtain ⟨b₁, -, hopened, -⟩ := hb.opened hp dt
  have hthink := think_eq b dt
  rw [prepared_eq hb.going hopened] at hthink
  dsimp only [Except.bind] at hthink
  rw [Command.perform] at h
  cases htick : b₁.startRules.scheduler.tick <;> rw [htick] at hthink <;> rw [hthink] at h ⊢
  · cases h
  · cases h
    rfl

/-! ## Commands -/

namespace Command

variable {W : Type} {K : String → Prop}

/-- What a brain may be asked for so that it is left to itself to start and to end fibers: ticks, pages,
globals, answers to handles, and host code that asks for pages at most. -/
def Obliging (K : String → Prop) : Command W → Prop
  | .think _ | .requestPage _ | .setVariable _ _ => True
  | .operate (.resolve _ _) | .operate (.reject _ _) | .operate (.cancelHandle _) => True
  | .operate (.post e) => e.Quiet (Mind.Asking K)
  | .operate (.act run) => ∀ s : Stage (Mind W), Mind.Asking K s.host (run s).host
  | .stop | .operate (.spawn _) | .operate .tick | .operate (.cancel _) | .operate .cancelAll => False

def isThink : Command W → Bool
  | .think _ => true
  | _ => false

/-- What a command asks for: the page it names, or what the code that runs meanwhile asks for in turn. -/
def Asks (K : String → Prop) (b : Brain W) (keys : List String) : Command W → Prop
  | .requestPage key => keys = [key]
  | .operate (.act run) => b.mind.Asks K keys (run b.scheduler.stage).host
  | .think dt => ∃ asked, Mind.AskedBy K (b.acts dt) asked ∧ keys = asked.flatten
  | _ => keys = []

variable {p : Program} {b b' : Brain W} {keys : List String}

theorem requestPage_eq (hp : p.Paged) (hprogram : b.mind.program = p) {key : String} {index : Int}
    (h : b.mind.page? key = some index) :
    b.requestPage key = .ok (b.setMind { b.mind with pending := some index }) := by
  have hrange := Mind.page?_range hp hprogram h
  rw [Brain.requestPage_eq, h]
  dsimp only
  rw [Mind.setPending, if_neg (by omega)]

theorem idles (hp : p.Paged) (hb : b.Tidy K p) {c : Command W} (hc : c.Obliging K)
    (hother : c.isThink = false) (hasks : c.Asks K b keys) (h : c.perform b = .ok b') :
    b.Idles K keys b' := by
  have hstage {stage : Stage (Mind W)} (hhost : stage.host = b.mind) :
      b.Idles K [] { b with scheduler := { b.scheduler with stage := stage }.deliver } :=
    idles_deliver K hb.ids (.of_eq hhost)
  cases c with
  | think dt => cases hother
  | requestPage key =>
    obtain rfl : keys = [key] := hasks
    have hstays := b.mind.stays_requestPage hp hb.carries.program key
    rw [perform, Brain.requestPage_eq] at h
    unfold Mind.requestPage at hstays
    cases hpage : b.mind.page? key with
    | none =>
      simp only [hpage] at h hstays
      cases h
      exact idles_setMind K b hstays
    | some index =>
      simp only [hpage] at h hstays
      cases h
      exact idles_setMind K b hstays
  | setVariable name v =>
    obtain rfl : keys = [] := hasks
    unfold perform Brain.setVariable Mind.setGlobal? at h
    cases hglobal : b.mind.global? name with
    | none =>
      simp only [hglobal, Option.map_none] at h
      cases h
      exact .refl K b
    | some i =>
      simp only [hglobal, Option.map_some] at h
      cases h
      exact idles_setMind K b (.other rfl rfl rfl rfl rfl)
  | stop => exact hc.elim
  | operate op =>
    simp only [perform] at h
    split at h
    · rename_i s hs
      cases h
      cases op with
      | spawn _ | tick | cancel _ | cancelAll => exact hc.elim
      | post e =>
        obtain rfl : keys = [] := hasks
        cases hs
        refine ⟨rfl, fun hinbox x hx => ?_, rfl, rfl, rfl, rfl, .refl _⟩
        rcases List.mem_append.mp hx with hx | hx
        · exact hinbox x hx
        · obtain rfl := List.mem_singleton.mp hx
          exact hc
      | resolve handle v =>
        obtain rfl : keys = [] := hasks
        cases hs
        exact hstage (Stage.resolve_host _ _ _)
      | reject handle fault =>
        obtain rfl : keys = [] := hasks
        cases hs
        exact hstage (Stage.reject_host _ _ _)
      | cancelHandle handle =>
        obtain rfl : keys = [] := hasks
        obtain ⟨stage, hcancel, rfl⟩ | rfl := Operation.cancelHandle_of_perform hs
        · exact hstage (Stage.cancel_host hcancel)
        · exact .refl K b
      | act run =>
        cases hs
        exact idles_deliver K hb.ids (Mind.Asks.stays hp hb.carries.program hasks).1
    · cases h

theorem exists_asks (hp : p.Paged) (hb : b.Tidy K p) {c : Command W} (hc : c.Obliging K)
    (h : c.perform b = .ok b') : ∃ keys, c.Asks K b keys := by
  cases c with
  | requestPage key => exact ⟨[key], rfl⟩
  | setVariable name v => exact ⟨[], rfl⟩
  | stop => exact hc.elim
  | operate op =>
    cases op with
    | act run => exact hc b.scheduler.stage
    | spawn _ | tick | cancel _ | cancelAll => exact hc.elim
    | post _ | resolve _ _ | reject _ _ | cancelHandle _ => exact ⟨[], rfl⟩
  | think dt =>
    obtain ⟨asked, hasked⟩ := Mind.exists_askedBy (hb.threads_think hp (hb.think_of_perform hp h))
    exact ⟨_, asked, hasked, rfl⟩

/-- The page that is waited for after a command is that of the last request that can be met, or else the one
of before, unless a tick has begun with it. -/
theorem pending_of_asks (hp : p.Paged) (hb : b.Tidy K p) {c : Command W} (hc : c.Obliging K)
    (hasks : c.Asks K b keys) (h : c.perform b = .ok b') :
    b'.mind.pending = (b'.mind.lastPage? keys).or (if c.isThink then none else b.mind.pending) := by
  cases hthink : c.isThink with
  | false =>
    have hstays := (idles hp hb hc hthink hasks h).mind
    rw [hstays.pending, Mind.lastPage?_congr hstays.program, if_neg (by simp)]
  | true =>
    cases c with
    | think dt =>
      obtain ⟨asked, hasked, rfl⟩ := hasks
      have hthreads := hb.threads_think hp (hb.think_of_perform hp h)
      exact (Mind.pending_of_threads (m := b.mind.turned) hp hb.carries.program hthreads hasked).2
    | _ => cases hthink

theorem tidy (hp : p.Paged) (hb : b.Tidy K p) {c : Command W} (hc : c.Obliging K)
    (h : c.perform b = .ok b') : b'.Tidy K p := by
  cases hthink : c.isThink with
  | false =>
    obtain ⟨keys, hasks⟩ := exists_asks hp hb hc h
    exact (idles hp hb hc hthink hasks h).tidy hp hb
  | true =>
    cases c with
    | think dt => exact (hb.think hp (hb.think_of_perform hp h)).1
    | _ => cases hthink

end Command

section

variable {W : Type} {K : String → Prop} {p : Program} {b₀ b b' : Brain W} {cs : List (Command W)}
  {first : Option Int} {keys : List String}

/-- Commands have led from `b₀` to `b`. Since the page last changed, pages were asked for by `keys`, in this
order; until then it was `first` that was waited for, if any. -/
inductive Asked (K : String → Prop) (b₀ : Brain W) :
    List (Command W) → Option Int → List String → Brain W → Prop where
  | start : Asked K b₀ [] b₀.mind.pending [] b₀
  | stay {cs : List (Command W)} {first : Option Int} {keys more : List String} {c : Command W}
      {b b' : Brain W} (before : Asked K b₀ cs first keys b)
      (stays : c.isThink = false ∨ b.mind.pending = none) (asks : c.Asks K b more)
      (done : c.perform b = .ok b') : Asked K b₀ (cs ++ [c]) first (keys ++ more) b'
  | switch {cs : List (Command W)} {first : Option Int} {keys more : List String} {c : Command W}
      {b b' : Brain W} (before : Asked K b₀ cs first keys b)
      (switches : c.isThink = true ∧ b.mind.pending ≠ none) (asks : c.Asks K b more)
      (done : c.perform b = .ok b') : Asked K b₀ (cs ++ [c]) none more b'

/-- The page that is waited for is that of the last request that could be met. -/
theorem Asked.pending (hp : p.Paged) (hb₀ : b₀.Tidy K p) (hcs : ∀ c ∈ cs, c.Obliging K)
    (h : Asked K b₀ cs first keys b) :
    b.Tidy K p ∧ b.mind.pending = (b.mind.lastPage? keys).or first := by
  induction h with
  | start => exact ⟨hb₀, rfl⟩
  | @stay cs first keys more c b b' _ stays asks done ih =>
    obtain ⟨hb, hpending⟩ := ih fun c hc => hcs c (List.mem_append_left _ hc)
    have hc := hcs c (by simp)
    have hb' := c.tidy hp hb hc done
    have hsame : b'.mind.program = b.mind.program := hb'.carries.program.trans hb.carries.program.symm
    have hthen : (if c.isThink then none else b.mind.pending) = b.mind.pending := by
      split
      · rename_i hthink
        exact (stays.resolve_left (by simp [hthink])).symm
      · rfl
    refine ⟨hb', ?_⟩
    rw [c.pending_of_asks hp hb hc asks done, hthen, hpending, Mind.lastPage?_congr hsame keys |>.symm,
      Mind.lastPage?_append, Option.or_assoc]
  | @switch cs first keys more c b b' _ switches asks done ih =>
    obtain ⟨hb, -⟩ := ih fun c hc => hcs c (List.mem_append_left _ hc)
    have hc := hcs c (by simp)
    exact ⟨c.tidy hp hb hc done, by rw [c.pending_of_asks hp hb hc asks done, if_pos switches.1]⟩

theorem tidy_create (hp : p.Paged) {svc : Services (Stage (Mind W))} (hsvc : svc.Obliging K)
    {limits : Limits} {heap : Heap} {world : W} (h : create p svc limits heap world = .ok b) :
    b.Tidy K p := by
  unfold create at h
  split at h
  · cases h
  · cases h
    obtain ⟨page, hpage⟩ := Mind.exists_activePage? (p := p)
      (m := ({ program := p, rules := Mind.rulesOf p, active := p.entry, world := world } : Mind W)) rfl
      hp.entry
    refine ⟨rfl, hsvc, fun e he => absurd he List.not_mem_nil, rfl, ⟨rfl, rfl⟩, fun index hindex => ?_,
      page, hpage, linked_nil _ _⟩
    obtain rfl : p.entry = index := by
      have hpending : (if p.entry < 0 then none else some p.entry) = some index := hindex
      rw [if_neg (by have := hp.entry; omega)] at hpending
      exact Option.some.inj hpending
    exact hp.entry

theorem exists_asked (hp : p.Paged) (hb₀ : b₀.Tidy K p) {done : List (Command W)}
    (hasked : Asked K b₀ done first keys b) (hdone : ∀ c ∈ done, c.Obliging K) (hcs : ∀ c ∈ cs, c.Obliging K)
    (h : Command.performAll cs b = .ok b') : ∃ first keys, Asked K b₀ (done ++ cs) first keys b' := by
  induction cs generalizing b first keys done with
  | nil =>
    cases h
    exact ⟨first, keys, by rwa [List.append_nil]⟩
  | cons c cs ih =>
    rw [Command.performAll] at h
    split at h
    · rename_i b₁ hfirst
      have hc := hcs c List.mem_cons_self
      obtain ⟨more, hasks⟩ := c.exists_asks hp (hasked.pending hp hb₀ hdone).1 hc hfirst
      have hnext : ∃ first keys, Asked K b₀ (done ++ [c]) first keys b₁ := by
        by_cases hstays : c.isThink = false ∨ b.mind.pending = none
        · exact ⟨_, _, hasked.stay hstays hasks hfirst⟩
        · rw [not_or] at hstays
          exact ⟨_, _, hasked.switch ⟨by simpa using hstays.1, hstays.2⟩ hasks hfirst⟩
      obtain ⟨first₁, keys₁, hasked₁⟩ := hnext
      rw [show done ++ c :: cs = done ++ [c] ++ cs by simp]
      exact ih hasked₁ (List.forall_mem_append.mpr ⟨hdone, by simpa using hc⟩)
        (fun x hx => hcs x (List.mem_cons_of_mem _ hx)) h
    · cases h

end

end Brain

/-- A brain for a compiled program that has pages, after any commands. All its fibers are for root rules of the
active page, no two for the same one. The page it waits for is that of the last request that could be
met since the page last changed, whether it was made by a command or by some code that a tick has run;
commands other than a tick leave the page as it is. A tick begins
with that page, where no fiber of the old one is left, starts each root rule that is not running, and
records one fault for each that there is no room for. -/
theorem tick_loop {σ : Type} {env : CompileEnv σ} {d : BrainDef} {p : Program} {diags : Diagnostics}
    (hcompile : compile env d = .ok (p, diags)) (hpages : d.pages ≠ []) {W : Type}
    {K : String → Prop} {svc : Services (Stage (Mind W))} (hsvc : svc.Obliging K) {limits : Limits}
    {heap : Heap} {world : W} {b₀ b : Brain W} (hcreate : Brain.create p svc limits heap world = .ok b₀)
    {cs : List (Brain.Command W)} (hcs : ∀ c ∈ cs, c.Obliging K)
    (hran : Brain.Command.performAll cs b₀ = .ok b) :
    (∃ page, b.mind.activePage? = some page ∧ (∀ f ∈ b.scheduler.live, f.entry ∈ page.roots) ∧
      b.scheduler.entries.Nodup) ∧
    (∃ first keys, Brain.Asked K b₀ cs first keys b) ∧
    (∀ first keys, Brain.Asked K b₀ cs first keys b →
      b.mind.pending = (b.mind.lastPage? keys).or first) ∧
    (∀ (c : Brain.Command W) (b' : Brain W), c.Obliging K → c.isThink = false → c.perform b = .ok b' →
      b'.mind.active = b.mind.active) ∧
    (∀ key, match b.mind.page? key with
      | some index => b.requestPage key = .ok (b.setMind { b.mind with pending := some index })
      | none => b.requestPage key = .error (.unknownPage key) ∧
        b.mind.requestPage key = (some (Mind.unknownPage key), b.mind)) ∧
    ∀ dt, ∃ ready page started refused, b.prepared dt = .ok ready ∧
      b.Readies p ready page started refused ∧
      ∀ b', b.think dt = .ok b' → b.Ticked p ready b' refused := by
  have hp := paged_of_compile hcompile hpages
  have hb₀ := Brain.tidy_create hp hsvc hcreate
  obtain ⟨first, keys, hasked⟩ := Brain.exists_asked hp hb₀ .start (by simp) hcs hran
  have hb := (hasked.pending hp hb₀ hcs).1
  refine ⟨?_, ⟨first, keys, hasked⟩, fun first keys h => (h.pending hp hb₀ hcs).2, ?_, ?_, ?_⟩
  · obtain ⟨page, hpage, hlinks⟩ := hb.page
    refine ⟨page, hpage, fun f hf => ?_, ?_⟩
    · have ht : (f.id, f.entry) ∈ b.scheduler.tags := List.mem_map.mpr ⟨f, hf, rfl⟩
      exact (hlinks.known ht).1
    · rw [Brain.entries_eq]
      exact hlinks.entries_nodup
  · intro c b' hc hother h
    obtain ⟨keys, hasks⟩ := c.exists_asks hp hb hc h
    exact (c.idles hp hb hc hother hasks h).mind.active
  · intro key
    split
    · rename_i index hpage
      exact Brain.Command.requestPage_eq hp hb.carries.program hpage
    · rename_i hpage
      exact ⟨by rw [Brain.requestPage_eq, hpage], by rw [Mind.requestPage, hpage]⟩
  · intro dt
    obtain ⟨ready, page, started, refused, -, -, hprepared, -, hreadies, -⟩ := hb.prepared hp dt
    exact ⟨ready, page, started, refused, hprepared, hreadies,
      fun b' h => (hb.think hp h).2.2 ready page started refused hprepared hreadies⟩

/-- Two rules by day and one by night. -/
def turningBrain : BrainDef :=
  { pages := [
      { id := "day", rules := [{ doRow := "switch_page \"night\"" }, { doRow := "switch_page \"day\"" }] },
      { id := "night", rules := [{ doRow := "switch_page \"day\"" }] }] }

def turningCommands : List (Brain.Command Unit) :=
  [.think 0, .operate (.post (.mk fun s => ({ s with host := (s.host.requestPage "night").2 }, []))),
    .requestPage "nowhere", .think 0]

theorem obliging_shadowingEnv : shadowingEnv.services.Obliging fun _ => True :=
  services_shadowingEnv Core.obliging_services fun hinstall =>
    Builtins.obliging_install (fun _ => trivial) Core.obliging_services hinstall

/-- There is room for one fiber only, and it does not get far. -/
theorem tick_loop_turningBrain :
    ∃ p diags b₀ b, compile shadowingEnv turningBrain = .ok (p, diags) ∧
      Brain.create p shadowingEnv.services { fibers := 1, budget := 1 } {} () = .ok b₀ ∧
      Brain.Command.performAll turningCommands b₀ = .ok b ∧ b.scheduler.tags = [(1, 0)] ∧
      b.mind.faults.map RuleFault.rule = ["0/1", "0/1"] ∧ b.mind.pending = some 1 ∧
      (∃ first keys, Brain.Asked (fun _ => True) b₀ turningCommands first keys b ∧
        b.mind.pending = (b.mind.lastPage? keys).or first) ∧
      ∃ ready page started refused, b.prepared 0 = .ok ready ∧
        b.Readies p ready page started refused ∧
        ∀ b', b.think 0 = .ok b' → b.Ticked p ready b' refused := by
  have hran : (compile shadowingEnv turningBrain).toOption.any (fun r =>
      (Brain.create r.1 shadowingEnv.services { fibers := 1, budget := 1 } {} ()).toOption.any fun b₀ =>
        (Brain.Command.performAll turningCommands b₀).toOption.any fun b =>
          decide (b.scheduler.tags = [(1, 0)]) &&
            (decide (b.mind.faults.map RuleFault.rule = ["0/1", "0/1"]) &&
              decide (b.mind.pending = some 1))) = true := by
    decide +kernel
  have hcommands : ∀ c ∈ turningCommands, c.Obliging fun _ => True := by
    simp only [turningCommands, List.forall_mem_cons, Brain.Command.Obliging, List.not_mem_nil,
      false_imp_iff, implies_true, and_true, true_and]
    exact .mk (fun s => ⟨_, .request s.host trivial⟩) (by simp)
  obtain ⟨⟨p, diags⟩, hc, hran⟩ := exists_of_any_toOption hran
  obtain ⟨b₀, hb₀, hran⟩ := exists_of_any_toOption hran
  obtain ⟨b, hb, hran⟩ := exists_of_any_toOption hran
  simp only [Bool.and_eq_true, decide_eq_true_eq] at hran
  obtain ⟨htags, hfaults, hpage⟩ := hran
  obtain ⟨-, ⟨first, keys, hasked⟩, hpending, -, -, hticks⟩ :=
    tick_loop hc (by simp [turningBrain]) obliging_shadowingEnv hb₀ hcommands hb
  exact ⟨p, diags, b₀, b, hc, hb₀, hb, htags, hfaults, hpage,
    ⟨first, keys, hasked, hpending first keys hasked⟩, hticks 0⟩

end TileMind
