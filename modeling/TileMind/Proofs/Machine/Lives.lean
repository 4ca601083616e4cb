import TileMind.Proofs.Machine.History
import TileMind.Proofs.Machine.Operations
import TileMind.Proofs.Program.Check

/-!
# TileMind.Proofs.Machine.Lives

Fibers under a scheduler have histories. Whatever is asked of a scheduler, a fiber only ever gets on by
executing instructions, by being called and by being cancelled; host code is not restricted.

* `Scheduler.Lives`: what becomes of the fibers of a scheduler, and where they have come from.
* `lives_of_performAll`: this holds for any operations.
-/

namespace TileMind

variable {H : Type} [Host H]

namespace Scheduler

/-- Live fibers have different numbers, all of them handed out. -/
structure Numbered (s : Scheduler H) : Prop where
  nodup : (s.live.map Fiber.id).Nodup
  bounded : ∀ f ∈ s.live, f.id ≤ s.lastId

/-- Every fiber of `s` is still there in `s'` or has ended, and every fiber of `s'` comes from one of
`s` or from a spawned one. -/
structure Lives (s s' : Scheduler H) : Prop where
  machine : s'.machine = s.machine
  numbered : s'.Numbered
  future : ∀ f ∈ s.live, ∃ es g, History s.machine f es g ∧ (g ∈ s'.live ∨ g.state.isTerminal = true)
  past : ∀ g ∈ s'.live, ∃ f es, History s.machine f es g ∧ (f ∈ s.live ∨
    ∃ func fn, s.machine.program.function? func = some fn ∧ f = .start g.id func)

variable {s s' s'' : Scheduler H}

theorem Lives.refl (hs : s.Numbered) : s.Lives s :=
  ⟨rfl, hs, fun f hf => ⟨[], f, .refl, .inl hf⟩, fun g hg => ⟨g, [], .refl, .inl hg⟩⟩

theorem Lives.trans (h : s.Lives s') (h' : s'.Lives s'') : s.Lives s'' := by
  refine ⟨h'.machine.trans h.machine, h'.numbered, ?_, ?_⟩
  · intro f hf
    obtain ⟨es, g, hg, hlive | hended⟩ := h.future f hf
    · obtain ⟨es', g', hg', hend⟩ := h'.future g hlive
      exact ⟨_, g', hg.trans (h.machine ▸ hg'), hend⟩
    · exact ⟨es, g, hg, .inr hended⟩
  · intro g hg
    obtain ⟨f, es, hf, hlive | ⟨func, fn, hfn, rfl⟩⟩ := h'.past g hg
    · obtain ⟨e, es', he, horigin⟩ := h.past f hlive
      rw [h.machine] at hf
      refine ⟨e, _, he.trans hf, ?_⟩
      rwa [hf.id_eq]
    · rw [h.machine] at hf hfn
      exact ⟨_, es, hf, .inr ⟨func, fn, hfn, rfl⟩⟩

omit [Host H] in
theorem Numbered.of_ids (hs : s.Numbered) (hids : s'.live.map Fiber.id = s.live.map Fiber.id)
    (hlast : s'.lastId = s.lastId) : s'.Numbered := by
  refine ⟨hids.symm ▸ hs.nodup, fun f hf => ?_⟩
  have hid : f.id ∈ s.live.map Fiber.id := hids ▸ List.mem_map_of_mem hf
  obtain ⟨g, hg, hgf⟩ := List.mem_map.mp hid
  rw [hlast, ← hgf]
  exact hs.bounded g hg

theorem Lives.of_live (hs : s.Numbered) (hmachine : s'.machine = s.machine) (hlive : s'.live = s.live)
    (hlast : s'.lastId = s.lastId) : s.Lives s' := by
  refine ⟨hmachine, hs.of_ids (by rw [hlive]) hlast, fun f hf => ⟨[], f, .refl, .inl (hlive ▸ hf)⟩,
    fun g hg => ⟨g, [], .refl, .inl (hlive ▸ hg)⟩⟩

theorem Lives.of_futures (hs : s.Numbered) (hmachine : s'.machine = s.machine)
    (hids : s'.live.map Fiber.id = s.live.map Fiber.id) (hlast : s'.lastId = s.lastId)
    (hlive : ∀ f ∈ s.live, ∃ g ∈ s'.live, ∃ es, History s.machine f es g) : s.Lives s' := by
  have hs' := hs.of_ids hids hlast
  refine ⟨hmachine, hs', fun f hf => ?_, fun g hg => ?_⟩
  · obtain ⟨g, hg, es, hhistory⟩ := hlive f hf
    exact ⟨es, g, hhistory, .inl hg⟩
  · have hid : g.id ∈ s.live.map Fiber.id := hids ▸ List.mem_map_of_mem hg
    obtain ⟨f, hf, hfg⟩ := List.mem_map.mp hid
    obtain ⟨g', hg', es, hhistory⟩ := hlive f hf
    obtain rfl := eq_of_id_eq hs'.nodup hg' hg (hhistory.id_eq.trans hfg)
    exact ⟨f, es, hhistory, .inl hf⟩

theorem Lives.of_filter (hs : s.Numbered) (hmachine : s'.machine = s.machine)
    (hlast : s'.lastId = s.lastId) {keep : Fiber → Bool} (hlive : s'.live = s.live.filter keep)
    (hended : ∀ f ∈ s.live, keep f = false →
      ∃ es g, History s.machine f es g ∧ g.state.isTerminal = true) : s.Lives s' := by
  have hmem {f : Fiber} (hf : f ∈ s'.live) : f ∈ s.live := List.mem_of_mem_filter (hlive ▸ hf)
  refine ⟨hmachine, ⟨?_, fun f hf => hlast ▸ hs.bounded f (hmem hf)⟩, fun f hf => ?_,
    fun g hg => ⟨g, [], .refl, .inl (hmem hg)⟩⟩
  · rw [hlive]
    exact hs.nodup.sublist (List.filter_sublist.map _)
  · cases hkeep : keep f with
    | true => exact ⟨[], f, .refl, .inl (by rw [hlive]; exact List.mem_filter.mpr ⟨hf, hkeep⟩)⟩
    | false =>
      obtain ⟨es, g, hhistory, hterminal⟩ := hended f hf hkeep
      exact ⟨es, g, hhistory, .inr hterminal⟩

/-! ## What a scheduler does -/

theorem lives_deliver (hs : s.Numbered) : s.Lives s.deliver := by
  have hcalled := s.called_deliver hs.nodup
  refine .of_futures hs hcalled.machine hcalled.ids hcalled.lastId fun f hf => ?_
  obtain ⟨g, hg, rfl | ⟨hstate, rfl⟩⟩ := hcalled.live f hf
  · exact ⟨g, hg, [], .refl⟩
  · exact ⟨_, hg, [], .resume .refl (by rw [hstate]; rfl) 0⟩

theorem lives_stage (hs : s.Numbered) (stage : Stage H) : s.Lives { s with stage := stage }.deliver :=
  have hstage : s.Lives { s with stage := stage } := .of_live hs rfl rfl rfl
  hstage.trans (lives_deliver hstage.numbered)

theorem lives_setFiber (hs : s.Numbered) {f g : Fiber} {es : List Event} (hf : f ∈ s.live)
    (hg : History s.machine f es g) : s.Lives (s.setFiber g) := by
  refine .of_futures hs rfl (ids_setFiber s g) rfl fun x hx => ?_
  by_cases hid : x.id = g.id
  · obtain rfl := eq_of_id_eq hs.nodup hx hf (hid.trans hg.id_eq)
    exact ⟨g, setFiber_mem hx hid, es, hg⟩
  · exact ⟨x, setFiber_mem_of_ne hx hid, [], .refl⟩

theorem lives_finish (hs : s.Numbered) {f g : Fiber} {es : List Event} (hf : f ∈ s.live)
    (hg : History s.machine f es g) (hterminal : g.state.isTerminal = true) : s.Lives (s.finish g) := by
  refine .of_filter hs rfl rfl rfl fun x hx hgone => ?_
  have hid : x.id = g.id := by simpa using hgone
  obtain rfl := eq_of_id_eq hs.nodup hx hf (hid.trans hg.id_eq)
  exact ⟨es, g, hg, hterminal⟩

theorem lives_cancelFiber (hs : s.Numbered) {f : Fiber} (hf : f ∈ s.live) :
    s.Lives (s.cancelFiber f) := by
  refine .of_filter hs rfl rfl rfl fun x hx hgone => ?_
  have hid : x.id = f.id := by simpa using hgone
  obtain rfl := eq_of_id_eq hs.nodup hx hf hid
  exact ⟨[], _, .cancel .refl 0, rfl⟩

theorem lives_cancelAll (hs : s.Numbered) : s.Lives s.cancelAll := by
  obtain ⟨hmachine, hlast⟩ := same_cancelFibers s.live s
  have hnone : s.cancelAll.live = s.live.filter fun _ => false := by
    rw [live_cancelAll, List.filter_false]
  exact .of_filter hs hmachine hlast hnone fun x _ _ => ⟨[], _, .cancel .refl 0, rfl⟩

theorem lives_runFiber (hs : s.Numbered) {f : Fiber} (hf : f ∈ s.live) (hstate : f.state = .runnable)
    (h : s.runFiber f = .ok s') : s.Lives s' := by
  obtain ⟨status, g, stage, hrun⟩ := ran_of_runFiber h
  obtain ⟨es, hg⟩ := history_of_run hrun
  have hstops := run_stops (s.machine.keeps_true f.id) hstate hrun
  have hset : s.Lives ({ s with stage := stage }.setFiber g) := by
    have hstage : s.Lives { s with stage := stage } := .of_live hs rfl rfl rfl
    exact hstage.trans (lives_setFiber hstage.numbered hf hg)
  have hcame := hset.trans (lives_deliver hset.numbered)
  rcases runFiber_eq_ok hrun h with ⟨hover, rfl⟩ | ⟨-, rfl⟩ | ⟨-, rfl⟩
  · have hterminal : g.state.isTerminal = true := by
      cases hstops with
      | ended _ _ _ terminal => exact terminal
      | paused short => rcases hover with rfl | rfl <;> simp at short
      | parked => simp at hover
    have hmem : g ∈ ({ s with stage := stage }.setFiber g).deliver.live := by
      refine mem_deliver hset.numbered.nodup (setFiber_mem hf hg.id_eq.symm) ?_
      intro hwaiting
      rw [hwaiting] at hterminal
      cases hterminal
    exact hcame.trans (lives_finish hcame.numbered hmem .refl hterminal)
  · exact hcame.trans (.of_live hcame.numbered rfl rfl rfl)
  · exact hcame

theorem lives_doErrands (errands : List (Errand (Stage H))) (hs : s.Numbered) :
    s.Lives (doErrands errands s) := by
  induction errands generalizing s with
  | nil => exact .refl hs
  | cons e errands ih =>
    have hposts : s.Lives { s with inbox := s.inbox ++ (e.run s.stage).2 } := .of_live hs rfl rfl rfl
    have hworks := hposts.trans (lives_stage hposts.numbered (e.run s.stage).1)
    exact hworks.trans (ih hworks.numbered)

theorem lives_drain (rounds : Nat) (hs : s.Numbered) (h : drain rounds s = .ok s') : s.Lives s' := by
  induction rounds generalizing s with
  | zero =>
    unfold drain at h
    split at h
    · cases h
      exact .refl hs
    · cases h
  | succ rounds ih =>
    unfold drain at h
    split at h
    · cases h
      exact .refl hs
    · rename_i id rest hqueue
      have hskip : s.Lives { s with queue := rest } := .of_live hs rfl rfl rfl
      dsimp only at h
      split at h
      · exact hskip.trans (ih hskip.numbered h)
      · rename_i f hfound
        split at h
        · rename_i hstate
          split at h
          · cases h
          · rename_i s1 hrun
            have hran := hskip.trans
              (lives_runFiber hskip.numbered (mem_of_fiber? hfound).1 hstate hrun)
            exact hran.trans (ih hran.numbered h)
        · exact hskip.trans (ih hskip.numbered h)

theorem lives_tick (hs : s.Numbered) (h : s.tick = .ok s') : s.Lives s' := by
  unfold tick at h
  have hopens : s.Lives { s with inbox := [] } := .of_live hs rfl rfl rfl
  have herrands := hopens.trans (lives_doErrands s.inbox hopens.numbered)
  have hmerges (t : Scheduler H) (ht : t.Numbered) :
      t.Lives { t with queue := t.queue ++ t.next, next := [] } := .of_live ht rfl rfl rfl
  have hready := herrands.trans (hmerges _ herrands.numbered)
  exact hready.trans (lives_drain _ hready.numbered h)

omit [Host H] in
theorem function_of_spawn {func : Int} {id : Nat} (h : s.spawn func = .ok (id, s')) :
    ∃ fn, s.machine.program.function? func = some fn := by
  unfold spawn at h
  split at h
  · cases h
  · rename_i hrange
    simp only [Bool.or_eq_true, decide_eq_true_eq, not_or, not_lt, not_le] at hrange
    obtain ⟨n, rfl⟩ := Int.eq_ofNat_of_zero_le hrange.1
    have hn : n < s.machine.program.functions.size := by exact_mod_cast hrange.2
    exact ⟨_, Program.function?_eq_some_iff.mpr ⟨n, rfl, Array.getElem?_eq_getElem hn⟩⟩

theorem lives_spawn {func : Int} {id : Nat} (hs : s.Numbered) (h : s.spawn func = .ok (id, s')) :
    s.Lives s' := by
  have hfound := function_of_spawn h
  obtain ⟨-, rfl, rfl⟩ := spawn_eq_ok h
  have hfresh : ∀ f ∈ s.live, f.id ≠ s.lastId + 1 := by
    intro f hf
    have := hs.bounded f hf
    omega
  refine ⟨rfl, ⟨?_, ?_⟩, fun f hf => ⟨[], f, .refl, .inl (List.mem_append_left _ hf)⟩, fun g hg => ?_⟩
  · rw [List.map_append, List.nodup_append]
    refine ⟨hs.nodup, List.nodup_singleton _, ?_⟩
    intro a ha b hb
    obtain ⟨f, hf, rfl⟩ := List.mem_map.mp ha
    obtain rfl : b = s.lastId + 1 := by simpa [Fiber.start] using hb
    exact hfresh f hf
  · intro f hf
    rcases List.mem_append.mp hf with hf | hf
    · exact Nat.le_succ_of_le (hs.bounded f hf)
    · obtain rfl := List.mem_singleton.mp hf
      exact Nat.le_refl _
  · rcases List.mem_append.mp hg with hg | hg
    · exact ⟨g, [], .refl, .inl hg⟩
    · obtain rfl := List.mem_singleton.mp hg
      obtain ⟨fn, hfn⟩ := hfound
      exact ⟨_, [], .refl, .inr ⟨func, fn, hfn, rfl⟩⟩

theorem lives_of_perform {op : Operation H} (hs : s.Numbered) (h : op.perform s = .ok s') :
    s.Lives s' := by
  cases op with
  | spawn func =>
    obtain ⟨id, hspawn⟩ | rfl := Operation.spawn_of_perform h
    · exact lives_spawn hs hspawn
    · exact .refl hs
  | tick => exact lives_tick hs h
  | cancel fiber =>
    obtain ⟨f, hfound, rfl⟩ | rfl := Operation.cancel_of_perform h
    · exact lives_cancelFiber hs (mem_of_fiber? hfound).1
    · exact .refl hs
  | cancelAll =>
    cases h
    exact lives_cancelAll hs
  | post e =>
    cases h
    exact .of_live hs rfl rfl rfl
  | resolve handle v =>
    cases h
    exact lives_stage hs _
  | reject handle fault =>
    cases h
    exact lives_stage hs _
  | cancelHandle handle =>
    obtain ⟨stage, -, rfl⟩ | rfl := Operation.cancelHandle_of_perform h
    · exact lives_stage hs _
    · exact .refl hs
  | act run =>
    cases h
    exact lives_stage hs _

theorem lives_of_performAll {ops : List (Operation H)} (hs : s.Numbered)
    (h : Operation.performAll ops s = .ok s') : s.Lives s' := by
  induction ops generalizing s with
  | nil =>
    cases h
    exact .refl hs
  | cons op ops ih =>
    obtain ⟨s1, hfirst, hlater⟩ := Operation.performAll_cons_eq_ok.mp h
    have hlives := lives_of_perform hs hfirst
    exact hlives.trans (ih hlives.numbered hlater)

omit [Host H] in
theorem numbered_create (p : Program) (svc : Services (Stage H)) (limits : Limits) (heap : Heap)
    (host : H) : (Scheduler.create p svc limits heap host).Numbered :=
  ⟨List.nodup_nil, fun _ hf => absurd hf List.not_mem_nil⟩

end Scheduler

end TileMind
