import TileMind.Proofs.Brain.Pages

/-!
# TileMind.Proofs.Brain.Starts

How a brain starts the root rules of its page. It remembers which fiber it last started for each of
them; a rule is running as long as that fiber is alive.

* `Linked`: what is remembered, against who is alive.
* `Links.isRunning_iff`: which rules count as running.
* `starts_foldl`: which rules are started and which there is no room for.
-/

namespace TileMind

namespace Brain

/-! ## Remembered fibers -/

/-- The fibers last started for `roots` are remembered, and whoever is alive is one of them. -/
structure Linked (roots : List Int) (fibers : Cells Nat) (tags : List (Nat × Int)) (lastId : Nat) :
    Prop where
  nodup : (tags.map Prod.fst).Nodup
  known : ∀ {id func}, (id, func) ∈ tags → func ∈ roots ∧ fibers.get? func = some id
  handedOut : ∀ {func id}, fibers.get? func = some id → id ≤ lastId
  own : ∀ {func func' id}, fibers.get? func = some id → (id, func') ∈ tags → func' = func

section

variable {roots : List Int} {fibers : Cells Nat} {tags tags' : List (Nat × Int)} {lastId : Nat}

theorem linked_nil (roots : List Int) (lastId : Nat) : Linked roots {} [] lastId :=
  ⟨List.nodup_nil, nofun, nofun, nofun⟩

theorem Linked.subset (h : Linked roots fibers tags lastId) (hsub : tags' ⊆ tags)
    (hnodup : (tags'.map Prod.fst).Nodup) : Linked roots fibers tags' lastId :=
  ⟨hnodup, fun ht => h.known (hsub ht), h.handedOut, fun hf ht => h.own hf (hsub ht)⟩

theorem Linked.start (h : Linked roots fibers tags lastId) {func : Int} (hroot : func ∈ roots)
    (hidle : func ∉ tags.map Prod.snd) :
    Linked roots (fibers.set func (lastId + 1)) (tags ++ [(lastId + 1, func)]) (lastId + 1) := by
  have hfresh {func' : Int} (ht : (lastId + 1, func') ∈ tags) : False := by
    have := h.handedOut (h.known ht).2
    omega
  refine ⟨?_, ?_, ?_, ?_⟩
  · rw [List.map_append, List.nodup_append]
    refine ⟨h.nodup, List.nodup_singleton _, ?_⟩
    rintro _ hid _ hnew rfl
    obtain ⟨⟨id, func'⟩, ht, rfl⟩ := List.mem_map.mp hid
    obtain rfl : id = lastId + 1 := by simpa using hnew
    exact hfresh ht
  · intro id func' ht
    rw [Cells.get?_set]
    rcases List.mem_append.mp ht with hold | hnew
    · have hne : func' ≠ func := by
        rintro rfl
        exact hidle (List.mem_map_of_mem (f := Prod.snd) hold)
      rw [if_neg hne]
      exact h.known hold
    · cases List.mem_singleton.mp hnew
      exact ⟨hroot, if_pos rfl⟩
  · intro func' id hget
    rw [Cells.get?_set] at hget
    split at hget
    · cases hget
      exact Nat.le_refl _
    · exact Nat.le_succ_of_le (h.handedOut hget)
  · intro func' func'' id hget ht
    rw [Cells.get?_set] at hget
    rcases List.mem_append.mp ht with ht | ht
    · split at hget
      · cases hget
        exact (hfresh ht).elim
      · exact h.own hget ht
    · cases List.mem_singleton.mp ht
      split at hget
      · rename_i hfunc
        exact hfunc.symm
      · have := h.handedOut hget
        omega

theorem Linked.entries_nodup (h : Linked roots fibers tags lastId) : (tags.map Prod.snd).Nodup := by
  refine List.Nodup.map_on ?_ h.nodup.of_map
  rintro ⟨id, func⟩ ht ⟨id', func'⟩ ht' heq
  obtain rfl : func = func' := heq
  have hid := (h.known ht).2
  rw [(h.known ht').2] at hid
  rw [Option.some.inj hid]

end

section

variable {W : Type} {b : Brain W} {roots : List Int}

abbrev Links (b : Brain W) (roots : List Int) : Prop :=
  Linked roots b.fibers b.scheduler.tags b.scheduler.lastId

theorem ids_eq (b : Brain W) : b.scheduler.live.map Fiber.id = b.scheduler.tags.map Prod.fst := by
  simp [Scheduler.tags]

theorem entries_eq (b : Brain W) : b.scheduler.entries = b.scheduler.tags.map Prod.snd := by
  simp [Scheduler.tags, Scheduler.entries]

theorem Links.numbered (h : b.Links roots) : b.scheduler.Numbered := by
  refine ⟨b.ids_eq ▸ h.nodup, fun f hf => ?_⟩
  have ht : (f.id, f.entry) ∈ b.scheduler.tags := List.mem_map.mpr ⟨f, hf, rfl⟩
  exact h.handedOut (h.known ht).2

/-- A rule is running as long as some fiber for it is alive. -/
theorem Links.isRunning_iff (h : b.Links roots) (func : Int) :
    b.isRunning func = true ↔ func ∈ b.scheduler.entries := by
  have hlive (id : Nat) : b.scheduler.isLive id = true ↔ ∃ func', (id, func') ∈ b.scheduler.tags := by
    simp [Scheduler.isLive, Scheduler.tags]
  rw [entries_eq]
  unfold isRunning
  constructor
  · intro hrunning
    split at hrunning
    · rename_i id hget
      obtain ⟨func', ht⟩ := (hlive id).mp hrunning
      obtain rfl := h.own hget ht
      exact List.mem_map_of_mem (f := Prod.snd) ht
    · cases hrunning
  · intro hentry
    obtain ⟨⟨id, func⟩, ht, rfl⟩ := List.mem_map.mp hentry
    rw [(h.known ht).2]
    exact (hlive id).mpr ⟨func, ht⟩

end

/-! ## Starting rules -/

section

variable {W : Type} {p : Program} {b b' : Brain W} {page : PageInfo}

/-- Functions with the numbers of the fibers started for them. -/
def numberedFrom (id : Nat) (funcs : List Int) : List (Nat × Int) :=
  (funcs.zipIdx id).map Prod.swap

theorem numberedFrom_cons (id : Nat) (func : Int) (funcs : List Int) :
    numberedFrom id (func :: funcs) = (id, func) :: numberedFrom (id + 1) funcs := by
  simp [numberedFrom]

theorem snd_numberedFrom (id : Nat) (funcs : List Int) :
    (numberedFrom id funcs).map Prod.snd = funcs := by
  induction funcs generalizing id with
  | nil => rfl
  | cons func funcs ih => rw [numberedFrom_cons, List.map_cons, ih]

/-- Of the rules that were to be started, `started` have got a fiber each. For `refused` there was no
room, and a fault was recorded for each of them. -/
structure Starts (p : Program) (b : Brain W) (started refused : List Int) (b' : Brain W) : Prop where
  machine : b'.scheduler.machine = b.scheduler.machine
  inbox : b'.scheduler.inbox = b.scheduler.inbox
  isStopped : b'.isStopped = b.isStopped
  lastId : b'.scheduler.lastId = b.scheduler.lastId + started.length
  tags : b'.scheduler.tags = b.scheduler.tags ++ numberedFrom (b.scheduler.lastId + 1) started
  mind : ∃ faults, b.mind.Stays [] faults b'.mind ∧
    faults.map RuleFault.rule = refused.map p.rulePath
  room : started ≠ [] →
    (b.scheduler.tags.length + started.length : Int) ≤ b.scheduler.machine.limits.fibers
  full : refused ≠ [] →
    b.scheduler.machine.limits.fibers ≤ (b.scheduler.tags.length + started.length : Int)

theorem Starts.nothing (p : Program) (b : Brain W) : b.Starts p [] [] b :=
  ⟨rfl, rfl, rfl, rfl, by simp [numberedFrom], ⟨[], .refl _, rfl⟩, nofun, nofun⟩

theorem startRule_of_running (hb : b.Links page.roots) {func : Int}
    (hfunc : func ∈ b.scheduler.entries) : b.startRule func = b := by
  rw [startRule, if_pos ((hb.isRunning_iff func).mpr hfunc)]

theorem spawn_eq {s : Scheduler (Mind W)} {func : Int}
    (hrange : 0 ≤ func ∧ func < s.machine.program.functions.size) :
    s.spawn func = if s.machine.limits.fibers ≤ (s.tags.length : Int) then
        .error (.tooMany s.machine.limits.fibers)
      else .ok (s.lastId + 1, { s with
        live := s.live ++ [Fiber.start (s.lastId + 1) func]
        lastId := s.lastId + 1
        queue := s.queue ++ [s.lastId + 1] }) := by
  have hin : ¬ (decide (func < 0) || decide ((s.machine.program.functions.size : Int) ≤ func)) = true := by
    simp only [Bool.or_eq_true, decide_eq_true_eq]
    omega
  rw [Scheduler.spawn, if_neg hin, Scheduler.tags, List.length_map]

theorem startRule_of_room (hb : b.Links page.roots) {func : Int} (hidle : func ∉ b.scheduler.entries)
    (hrange : 0 ≤ func ∧ func < b.scheduler.machine.program.functions.size)
    (hroom : (b.scheduler.tags.length : Int) < b.scheduler.machine.limits.fibers) :
    b.startRule func = { b with
      scheduler := { b.scheduler with
        live := b.scheduler.live ++ [Fiber.start (b.scheduler.lastId + 1) func]
        lastId := b.scheduler.lastId + 1
        queue := b.scheduler.queue ++ [b.scheduler.lastId + 1] }
      fibers := b.fibers.set func (b.scheduler.lastId + 1) } := by
  rw [startRule, if_neg (mt (hb.isRunning_iff func).mp hidle), spawn_eq hrange, if_neg (by omega)]

theorem startRule_of_full (hb : b.Links page.roots) {func : Int} (hidle : func ∉ b.scheduler.entries)
    (hrange : 0 ≤ func ∧ func < b.scheduler.machine.program.functions.size)
    (hfull : b.scheduler.machine.limits.fibers ≤ (b.scheduler.tags.length : Int)) :
    ∃ stage ref, b.startRule func = (b.setStage stage).setMind
      (b.mind.record (((b.mind.rules.get? func).map fun r => r.info.path).getD "") ref) := by
  rw [startRule, if_neg (mt (hb.isRunning_iff func).mp hidle), spawn_eq hrange, if_pos hfull]
  exact ⟨_, _, rfl⟩

/-- A fiber was started first, and there was room for it. -/
theorem Starts.cons_started {b₁ : Brain W} {func : Int} {started refused : List Int}
    (h : b₁.Starts p started refused b') (hmachine : b₁.scheduler.machine = b.scheduler.machine)
    (hinbox : b₁.scheduler.inbox = b.scheduler.inbox) (hstopped : b₁.isStopped = b.isStopped)
    (hmind : b₁.mind = b.mind) (hlast : b₁.scheduler.lastId = b.scheduler.lastId + 1)
    (htags : b₁.scheduler.tags = b.scheduler.tags ++ [(b.scheduler.lastId + 1, func)])
    (hroom : (b.scheduler.tags.length : Int) < b.scheduler.machine.limits.fibers) :
    b.Starts p (func :: started) refused b' := by
  have hlength : b₁.scheduler.tags.length = b.scheduler.tags.length + 1 := by simp [htags]
  have hroom' := h.room
  have hfull := h.full
  rw [hmachine, hlength] at hroom' hfull
  refine ⟨h.machine.trans hmachine, h.inbox.trans hinbox, h.isStopped.trans hstopped, ?_, ?_,
    hmind ▸ h.mind, fun _ => ?_, fun hne => ?_⟩
  · rw [h.lastId, hlast, List.length_cons]
    omega
  · rw [h.tags, htags, hlast, numberedFrom_cons, List.append_assoc, List.singleton_append]
  · rw [List.length_cons]
    by_cases hnone : started = []
    · rw [hnone, List.length_nil]
      omega
    · have := hroom' hnone
      omega
  · have := hfull hne
    rw [List.length_cons]
    omega

/-- There was no room for the first one, and so there is none for those that follow. -/
theorem Starts.cons_refused {b₁ : Brain W} {func : Int} {started refused : List Int} {r : RuleFault}
    (h : b₁.Starts p started refused b') (hmachine : b₁.scheduler.machine = b.scheduler.machine)
    (hinbox : b₁.scheduler.inbox = b.scheduler.inbox) (hstopped : b₁.isStopped = b.isStopped)
    (hmind : b.mind.Stays [] [r] b₁.mind) (hrule : r.rule = p.rulePath func)
    (hlast : b₁.scheduler.lastId = b.scheduler.lastId) (htags : b₁.scheduler.tags = b.scheduler.tags)
    (hfull : b.scheduler.machine.limits.fibers ≤ (b.scheduler.tags.length : Int)) :
    started = [] ∧ b.Starts p [] (func :: refused) b' := by
  have hnone : started = [] := by
    by_contra hne
    have hroom := h.room hne
    have hpos := List.length_pos_iff.mpr hne
    rw [hmachine, htags] at hroom
    omega
  subst hnone
  obtain ⟨faults, hstays, hfaults⟩ := h.mind
  refine ⟨rfl, h.machine.trans hmachine, h.inbox.trans hinbox, h.isStopped.trans hstopped, ?_, ?_,
    ⟨r :: faults, hmind.trans hstays, ?_⟩, nofun, fun _ => ?_⟩
  · rw [h.lastId, hlast]
  · rw [h.tags, htags, hlast]
  · rw [List.map_cons, List.map_cons, hrule, hfaults]
  · simpa using hfull

/-- Root rules are started in turn: each of those that are not running gets a fiber, as long as there
is room. -/
theorem starts_foldl (hp : p.Paged) (hpage : page ∈ p.pages) (roots : List Int)
    (hroots : roots ⊆ page.roots) (hnodup : roots.Nodup) (hprogram : b.program = p)
    (hcarries : b.mind.Carries p) (hb : b.Links page.roots) :
    ∃ started refused, b.Starts p started refused (roots.foldl startRule b) ∧
      started ++ refused = roots.filter (fun r => decide (r ∉ b.scheduler.entries)) ∧
      (roots.foldl startRule b).Links page.roots := by
  induction roots generalizing b with
  | nil => exact ⟨[], [], .nothing p b, rfl, hb⟩
  | cons func roots ih =>
    obtain ⟨hnew, hnodup⟩ := List.nodup_cons.mp hnodup
    have hroot : func ∈ page.roots := hroots List.mem_cons_self
    have hrest : roots ⊆ page.roots := fun r hr => hroots (List.mem_cons_of_mem _ hr)
    rw [List.foldl_cons, List.filter_cons]
    by_cases hrunning : func ∈ b.scheduler.entries
    · rw [startRule_of_running hb hrunning, if_neg (by simpa using hrunning)]
      exact ih hrest hnodup hprogram hcarries hb
    · rw [if_pos (by simpa using hrunning)]
      have hrange := hp.roots page hpage func hroot
      rw [← hprogram] at hrange
      rcases lt_or_ge (b.scheduler.tags.length : Int) b.scheduler.machine.limits.fibers with hroom | hfull
      · have hstart := startRule_of_room hb hrunning hrange hroom
        generalize hb₁ : b.startRule func = b₁ at hstart ⊢
        have htags : b₁.scheduler.tags = b.scheduler.tags ++ [(b.scheduler.lastId + 1, func)] := by
          simp [hstart, Scheduler.tags, Fiber.start]
        have hlinks : b₁.Links page.roots := by
          have hstarted := hb.start hroot (b.entries_eq ▸ hrunning)
          rw [Links, htags, hstart]
          exact hstarted
        obtain ⟨started, refused, hstarts, hsplit, hlinks'⟩ := ih hrest hnodup
          (by rw [hstart]; exact hprogram) (by rw [hstart]; exact hcarries) hlinks
        refine ⟨func :: started, refused, ?_, ?_, hlinks'⟩
        · exact hstarts.cons_started (by rw [hstart]) (by rw [hstart]) (by rw [hstart])
            (by rw [hstart]; rfl) (by rw [hstart]) htags hroom
        · rw [List.cons_append, hsplit]
          refine congrArg (func :: ·) (List.filter_congr fun r hr => ?_)
          have hne : r ≠ func := by
            rintro rfl
            exact hnew hr
          simp [entries_eq, htags, hne]
      · obtain ⟨stage, ref, hstart⟩ := startRule_of_full hb hrunning hrange hfull
        rw [hcarries.path hp (hp.tabled.roots page hpage func hroot)] at hstart
        generalize hb₁ : b.startRule func = b₁ at hstart ⊢
        have hmind : b.mind.Stays [] [⟨p.rulePath func, b.mind.clock.tick, ref⟩] b₁.mind := by
          rw [hstart]
          exact ⟨rfl, rfl, rfl, rfl, rfl⟩
        have htags : b₁.scheduler.tags = b.scheduler.tags := by rw [hstart]; rfl
        obtain ⟨started, refused, hstarts, hsplit, hlinks'⟩ := ih hrest hnodup
          (by rw [hstart]; exact hprogram) (hmind.carries hcarries) (by rw [hstart]; exact hb)
        obtain ⟨rfl, hstarts'⟩ := hstarts.cons_refused (by rw [hstart]; rfl) (by rw [hstart]; rfl)
          (by rw [hstart]; rfl) hmind rfl (by rw [hstart]; rfl) htags hfull
        refine ⟨[], func :: refused, hstarts', ?_, hlinks'⟩
        rw [List.nil_append] at hsplit ⊢
        rw [hsplit, entries_eq, entries_eq, htags]

end

end Brain

end TileMind
