import TileMind.Proofs.Brain.Locals
import TileMind.Proofs.Machine.Ticks

/-!
# TileMind.Proofs.Brain.Pages

The pages of a compiled program, and who changes the page of a mind. Whoever is not the brain itself can
only ask for a page; of several requests the last one that can be met counts.

* `paged_of_compile`: what a running brain relies on.
* `Mind.Asks`: what code outside of a brain may do to its pages.
* `Mind.Asks.pending`: what page is waited for after any requests.
-/

namespace TileMind

/-! ## Compiled programs -/

namespace Program

def rulePath (p : Program) (func : Int) : String := ((p.rule? func).map RuleInfo.path).getD ""

/-- A program that has pages, which stand in their order, each with rules of its own to start. No two
rules have the same path. -/
structure Paged (p : Program) : Prop where
  tabled : Mind.Tabled p
  index : ∀ {k : Nat} {page : PageInfo}, p.pages[k]? = some page → page.index = k
  entry : 0 ≤ p.entry ∧ p.entry < p.pages.length
  nodup : ∀ page ∈ p.pages, page.roots.Nodup
  roots : ∀ page ∈ p.pages, ∀ r ∈ page.roots, 0 ≤ r ∧ r < p.functions.size
  paths : (p.rules.map RuleInfo.path).Nodup

variable {p : Program}

theorem entry_of_check (h : p.check = .ok ()) (hpages : p.pages ≠ []) :
    0 ≤ p.entry ∧ p.entry < p.pages.length := by
  have hentry := (firstError_eq_ok_iff _).mp h
    (if p.pages.isEmpty || inBounds p.entry p.pages.length then .ok ()
      else .error (.entry p.entry p.pages.length)) (by simp)
  split at hentry
  · rename_i hin
    simpa [hpages, inBounds] using hin
  · cases hentry

theorem roots_of_check (h : p.check = .ok ()) {page : PageInfo} (hpage : page ∈ p.pages) {r : Int}
    (hr : r ∈ page.roots) : 0 ≤ r ∧ r < p.functions.size := by
  have hpage' : p.checkPage page = .ok () :=
    (firstError_eq_ok_iff _).mp h _ (List.mem_append_right _ (List.mem_map_of_mem hpage))
  have hroot := (firstError_eq_ok_iff _).mp hpage' _ (List.mem_map_of_mem hr)
  split at hroot
  · rename_i hin
    simpa [inBounds] using hin
  · cases hroot

theorem Paged.rule (hp : p.Paged) {r : Int} (hr : 0 ≤ r ∧ r < p.rules.length) :
    ∃ info ∈ p.rules, info.func = r ∧ p.rule? r = some info := by
  obtain ⟨k, rfl⟩ := Int.eq_ofNat_of_zero_le hr.1
  have hk := List.getElem?_eq_getElem (show k < p.rules.length by omega)
  exact ⟨_, List.mem_of_getElem? hk, hp.tabled.funcs hk, hp.tabled.find? hk⟩

theorem Paged.rulePath_injective (hp : p.Paged) {r r' : Int} (hr : 0 ≤ r ∧ r < p.rules.length)
    (hr' : 0 ≤ r' ∧ r' < p.rules.length) (h : p.rulePath r = p.rulePath r') : r = r' := by
  obtain ⟨info, hinfo, hfunc, hrule⟩ := hp.rule hr
  obtain ⟨info', hinfo', hfunc', hrule'⟩ := hp.rule hr'
  rw [rulePath, rulePath, hrule, hrule'] at h
  rw [← hfunc, ← hfunc', List.inj_on_of_nodup_map hp.paths hinfo hinfo' h]

end Program

theorem paged_of_compile {σ : Type} {env : CompileEnv σ} {d : BrainDef} {p : Program}
    {diags : Diagnostics} (hcompile : compile env d = .ok (p, diags)) (hpages : d.pages ≠ []) :
    p.Paged := by
  have hcheck := compile_check hcompile
  obtain ⟨plan, entry, hplan, rfl⟩ := assemble_of_compile hcompile
  have hnumbers : (d.places.map Place.number).Nodup := by
    rw [BrainDef.places, number_pagePlaces]
    exact List.nodup_range'
  have hpage {k : Nat} {page : PageInfo}
      (h : (assemble env d.pageInfos entry plan).1.pages[k]? = some page) :
      page.index = k ∧ page.roots.Nodup := by
    obtain ⟨info, hinfo, rfl⟩ : ∃ info, d.pageInfos[k]? = some info ∧
        { info with sites := _ } = page := by
      simpa [assemble, List.getElem?_zipIdx] using h
    obtain ⟨hlt, -⟩ := List.getElem?_eq_some_iff.mp hinfo
    rw [BrainDef.pageInfos, length_pageInfos] at hlt
    have hdef := d.getElem?_pageInfos (List.getElem?_eq_getElem hlt)
    rw [hdef] at hinfo
    cases hinfo
    exact ⟨rfl, ((hnumbers.sublist (List.filter_sublist.map _)).map fun _ _ => Int.ofNat.inj)⟩
  have hsome : (assemble env d.pageInfos entry plan).1.pages ≠ [] := by
    rw [← List.length_pos_iff] at hpages ⊢
    simpa [assemble, BrainDef.pageInfos, length_pageInfos] using hpages
  refine ⟨hplan.tabled, fun h => (hpage h).1, Program.entry_of_check hcheck hsome, fun page hmem => ?_,
    fun page hmem r hr => Program.roots_of_check hcheck hmem hr, ?_⟩
  · obtain ⟨k, hk⟩ := List.mem_iff_getElem?.mp hmem
    exact (hpage hk).2
  · have hrules : (assemble env d.pageInfos entry plan).1.rules.map RuleInfo.path =
        plan.jobs.map RuleJob.path := by simp [assemble, Function.comp_def, RuleJob.info]
    rw [hrules, map_eq_of_forall₂ hplan.planned fun _ _ hjob => hjob.path]
    exact d.nodup_paths

/-! ## Requests -/

namespace Mind

variable {W : Type} {K : String → Prop} {p : Program} {m m' m'' : Mind W}
  {keys keys' : List String} {faults faults' : List RuleFault}

/-- What host code may do to a mind: it asks for pages by keys that `K` allows, and leaves alone which
page is active, which one is waited for, what the rules are and which faults have been seen. -/
inductive Asks (K : String → Prop) : Mind W → List String → Mind W → Prop where
  | other {m m' : Mind W} (program : m'.program = m.program) (shape : shape m'.rules = shape m.rules)
      (active : m'.active = m.active) (pending : m'.pending = m.pending)
      (faults : m'.faults = m.faults) : Asks K m [] m'
  | request (m : Mind W) {key : String} (allowed : K key) : Asks K m [key] (m.requestPage key).2
  | trans {m m' m'' : Mind W} {keys keys' : List String} (first : Asks K m keys m')
      (rest : Asks K m' keys' m'') : Asks K m (keys ++ keys') m''

def Asking (K : String → Prop) (m m' : Mind W) : Prop := ∃ keys, m.Asks K keys m'

theorem Asking.refl (K : String → Prop) (m : Mind W) : Asking K m m :=
  ⟨[], .other rfl rfl rfl rfl rfl⟩

theorem Asking.trans (h : Asking K m m') (h' : Asking K m' m'') : Asking K m m'' := by
  obtain ⟨keys, h⟩ := h
  obtain ⟨keys', h'⟩ := h'
  exact ⟨_, h.trans h'⟩

theorem asking_updateCells (m : Mind W) (K : String → Prop) (func var : Int)
    (f : Cells Value → Cells Value) : Asking K m (m.updateCells func var f) := by
  unfold updateCells
  split
  · exact ⟨[], .other rfl (shape_modify _ _ _) rfl rfl rfl⟩
  · exact ⟨[], .other rfl rfl rfl rfl rfl⟩

/-- The page of the last key that means one. -/
def lastPage? (m : Mind W) (keys : List String) : Option Int := keys.reverse.findSome? m.page?

theorem page?_congr (h : m'.program = m.program) (key : String) : m'.page? key = m.page? key := by
  unfold page?
  rw [h]

theorem lastPage?_congr (h : m'.program = m.program) (keys : List String) :
    m'.lastPage? keys = m.lastPage? keys := by
  rw [lastPage?, lastPage?, funext (page?_congr h)]

theorem lastPage?_append (m : Mind W) (keys keys' : List String) :
    m.lastPage? (keys ++ keys') = (m.lastPage? keys').or (m.lastPage? keys) := by
  simp [lastPage?, List.findSome?_append]

theorem page?_range (hp : p.Paged) (hm : m.program = p) {key : String} {index : Int}
    (h : m.page? key = some index) : 0 ≤ index ∧ index < p.pages.length := by
  unfold page? at h
  rw [hm] at h
  split at h
  · rename_i found hfound
    cases h
    obtain ⟨page, hpage, rfl⟩ := Option.map_eq_some_iff.mp hfound
    obtain ⟨k, hk⟩ := List.mem_iff_getElem?.mp (List.mem_of_find?_eq_some hpage)
    obtain ⟨hlt, -⟩ := List.getElem?_eq_some_iff.mp hk
    rw [hp.index hk]
    omega
  · split at h
    · split at h
      · rename_i hrange
        cases h
        simpa using hrange
      · cases h
    · cases h

theorem lastPage?_range (hp : p.Paged) (hm : m.program = p) {index : Int}
    (h : m.lastPage? keys = some index) : 0 ≤ index ∧ index < p.pages.length := by
  obtain ⟨key, -, hkey⟩ := List.exists_of_findSome?_eq_some h
  exact page?_range hp hm hkey

/-- What becomes of a mind as long as its page stays: pages are asked for by `keys`, and `faults` are
recorded. -/
structure Stays (m : Mind W) (keys : List String) (faults : List RuleFault) (m' : Mind W) : Prop where
  program : m'.program = m.program
  shape : shape m'.rules = shape m.rules
  active : m'.active = m.active
  pending : m'.pending = (m.lastPage? keys).or m.pending
  faults : m'.faults = m.faults ++ faults

theorem Stays.other (hprogram : m'.program = m.program) (hshape : Mind.shape m'.rules = Mind.shape m.rules)
    (hactive : m'.active = m.active) (hpending : m'.pending = m.pending)
    (hfaults : m'.faults = m.faults) : m.Stays [] [] m' :=
  ⟨hprogram, hshape, hactive, hpending, by simpa using hfaults⟩

theorem Stays.of_eq (h : m' = m) : m.Stays [] [] m' := by
  subst h
  exact .other rfl rfl rfl rfl rfl

theorem Stays.refl (m : Mind W) : m.Stays [] [] m := .of_eq rfl

theorem Stays.trans (h : m.Stays keys faults m') (h' : m'.Stays keys' faults' m'') :
    m.Stays (keys ++ keys') (faults ++ faults') m'' := by
  refine ⟨h'.program.trans h.program, h'.shape.trans h.shape, h'.active.trans h.active, ?_, ?_⟩
  · rw [h'.pending, h.pending, lastPage?_congr h.program, lastPage?_append, Option.or_assoc]
  · rw [h'.faults, h.faults, List.append_assoc]

theorem Stays.carries (h : m.Stays keys faults m') (hm : m.Carries p) : m'.Carries p :=
  ⟨h.program.trans hm.program, h.shape.trans hm.shape⟩

theorem Stays.pending_range (h : m.Stays keys faults m') (hp : p.Paged) (hm : m.program = p)
    (hpending : ∀ index, m.pending = some index → 0 ≤ index ∧ index < p.pages.length) :
    ∀ index, m'.pending = some index → 0 ≤ index ∧ index < p.pages.length := by
  intro index hindex
  rw [h.pending, Option.or_eq_some_iff] at hindex
  rcases hindex with hlast | ⟨-, hbefore⟩
  · exact lastPage?_range hp hm hlast
  · exact hpending index hbefore

theorem stays_requestPage (hp : p.Paged) (hm : m.program = p) (key : String) :
    m.Stays [key] [] (m.requestPage key).2 := by
  unfold requestPage
  split
  · rename_i index hpage
    have hrange := page?_range hp hm hpage
    refine ⟨rfl, rfl, rfl, ?_, by simp [setPending]⟩
    simp only [setPending, if_neg (show ¬ index < 0 by omega)]
    simp [lastPage?, hpage]
  · rename_i hpage
    refine ⟨rfl, rfl, rfl, ?_, by simp⟩
    simp [lastPage?, hpage]

/-- Of what host code asks for, the last that can be met counts. -/
theorem Asks.stays (hp : p.Paged) (hm : m.program = p) (h : m.Asks K keys m') :
    m.Stays keys [] m' ∧ ∀ key ∈ keys, K key := by
  induction h with
  | other program shape active pending faults =>
    exact ⟨.other program shape active pending faults, by simp⟩
  | request m allowed => exact ⟨stays_requestPage hp hm _, by simpa using allowed⟩
  | trans _ _ ih ih' =>
    obtain ⟨hfirst, hkeys⟩ := ih hm
    obtain ⟨hrest, hkeys'⟩ := ih' (hfirst.program.trans hm)
    exact ⟨hfirst.trans hrest, List.forall_mem_append.mpr ⟨hkeys, hkeys'⟩⟩

structure Waits (m m' : Mind W) : Prop where
  program : m'.program = m.program
  pending : m'.pending = m.pending

theorem Waits.trans (h : m.Waits m') (h' : m'.Waits m'') : m.Waits m'' :=
  ⟨h'.program.trans h.program, h'.pending.trans h.pending⟩

theorem Stays.waits (h : m.Stays [] faults m') : m.Waits m' := ⟨h.program, h.pending⟩

theorem waits_ended (m : Mind W) (f : Fiber) : m.Waits (m.ended f) := by
  unfold ended
  split <;> exact ⟨rfl, rfl⟩

/-- What each of some acts asks for. -/
abbrev AskedBy (K : String → Prop) (acts : List (Mind W × Mind W)) (asked : List (List String)) : Prop :=
  List.Forall₂ (fun a keys => a.1.Asks K keys a.2) acts asked

/-- Of all that acts ask for, in turn, the last that can be met counts. -/
theorem pending_of_threads (hp : p.Paged) (hm : m.program = p) {acts : List (Mind W × Mind W)}
    (h : Threads (Asking K) Waits m acts m') {asked : List (List String)} (hasked : AskedBy K acts asked) :
    m'.program = p ∧ m'.pending = (m'.lastPage? asked.flatten).or m.pending := by
  induction h generalizing asked with
  | rest between =>
    cases hasked
    exact ⟨between.program.trans hm, by simp [lastPage?, between.pending]⟩
  | @step m m' a acts between act more ih =>
    cases hasked with
    | @cons _ keys _ asked hkeys hrest =>
      obtain ⟨hstays, -⟩ := hkeys.stays hp (between.program.trans hm)
      obtain ⟨hprogram, hpending⟩ := ih (hstays.program.trans (between.program.trans hm)) hrest
      refine ⟨hprogram, ?_⟩
      have hsame : m'.program = a.1.program := hprogram.trans (between.program.trans hm).symm
      rw [hpending, hstays.pending, between.pending, List.flatten_cons, lastPage?_append, Option.or_assoc,
        lastPage?_congr hsame keys]

theorem exists_askedBy {acts : List (Mind W × Mind W)} (h : Threads (Asking K) Waits m acts m') :
    ∃ asked, AskedBy K acts asked := by
  induction h with
  | rest => exact ⟨[], .nil⟩
  | step _ act _ ih =>
    obtain ⟨keys, hkeys⟩ := act
    obtain ⟨asked, hasked⟩ := ih
    exact ⟨_, .cons hkeys hasked⟩

/-! ## Pages -/

theorem exists_activePage? (hm : m.program = p)
    (hactive : 0 ≤ m.active ∧ m.active < p.pages.length) : ∃ page, m.activePage? = some page := by
  have hlt : m.active.toNat < p.pages.length := by omega
  refine ⟨p.pages[m.active.toNat], ?_⟩
  rw [activePage?, hm, Program.atInt?, if_neg (by omega), List.getElem?_eq_getElem hlt]

theorem mem_of_activePage? (hm : m.program = p) {page : PageInfo} (h : m.activePage? = some page) :
    page ∈ p.pages := by
  rw [activePage?, hm, Program.atInt?] at h
  split at h
  · cases h
  · exact List.mem_of_getElem? h

theorem activePage?_congr (hprogram : m'.program = m.program) (hactive : m'.active = m.active) :
    m'.activePage? = m.activePage? := by
  rw [activePage?, activePage?, hprogram, hactive]

/-- The mind when its page has changed, if another one was waited for. -/
def turned (m : Mind W) : Mind W := { m with active := m.pending.getD m.active, pending := none }

theorem turned_of_none (h : m.pending = none) : m.turned = m := by
  obtain ⟨_, _, _, _, _, _, _, pending, _, _⟩ := m
  obtain rfl : pending = none := h
  rfl

theorem Stays.turned (h : m.Stays [] [] m') : m.turned.Stays [] [] m'.turned := by
  have hpending : m'.pending = m.pending := h.pending
  refine ⟨h.program, h.shape, ?_, rfl, h.faults⟩
  simp only [Mind.turned, hpending, h.active]

/-! ## Faults -/

theorem Carries.path (hm : m.Carries p) (hp : p.Paged) {func : Int}
    (hfunc : 0 ≤ func ∧ func < p.rules.length) (unknown : String) :
    ((m.rules.get? func).map fun r => r.info.path).getD unknown = p.rulePath func := by
  obtain ⟨k, rfl⟩ := Int.eq_ofNat_of_zero_le hfunc.1
  have hk := List.getElem?_eq_getElem (show k < p.rules.length by omega)
  obtain ⟨s, hs, hinfo, -⟩ := hm.get? hp.tabled hk
  have hrule : p.rule? k = some p.rules[k] := hp.tabled.find? hk
  simp only [Program.rulePath, hs, hrule, Option.map_some, Option.getD_some, hinfo]

theorem stays_ended (hp : p.Paged) (hm : m.Carries p) {f : Fiber}
    (hf : 0 ≤ f.entry ∧ f.entry < p.rules.length) :
    ∃ faults, m.Stays [] faults (m.ended f) ∧ ∀ r ∈ faults, r.rule = p.rulePath f.entry := by
  unfold ended
  split
  · refine ⟨_, ⟨rfl, rfl, rfl, rfl, rfl⟩, fun r hr => ?_⟩
    obtain rfl := List.mem_singleton.mp hr
    exact hm.path hp hf _
  · exact ⟨[], .refl m, by simp⟩

/-- What fibers and host code do in a tick: pages are asked for, and faults are recorded for rules whose
fibers have run. -/
theorem stays_of_happens (hp : p.Paged) (hm : m.Carries p) {entries : List Int}
    (hentries : ∀ e ∈ entries, 0 ≤ e ∧ e < p.rules.length) (h : Happens (Asking K) entries m m') :
    ∃ keys faults, m.Stays keys faults m' ∧ (∀ key ∈ keys, K key) ∧
      ∀ r ∈ faults, ∃ e ∈ entries, r.rule = p.rulePath e := by
  induction h with
  | refl m => exact ⟨[], [], .refl m, by simp, by simp⟩
  | acts within =>
    obtain ⟨keys, hasks⟩ := within
    obtain ⟨hstays, hkeys⟩ := hasks.stays hp hm.program
    exact ⟨keys, [], hstays, hkeys, by simp⟩
  | ends m heap entry =>
    obtain ⟨faults, hstays, hfaults⟩ := stays_ended hp hm (hentries _ entry)
    exact ⟨[], faults, hstays, by simp, fun r hr => ⟨_, entry, hfaults r hr⟩⟩
  | trans _ _ ih ih' =>
    obtain ⟨keys, faults, hfirst, hkeys, hfaults⟩ := ih hm
    obtain ⟨keys', faults', hrest, hkeys', hfaults'⟩ := ih' (hfirst.carries hm)
    exact ⟨_, _, hfirst.trans hrest, List.forall_mem_append.mpr ⟨hkeys, hkeys'⟩,
      List.forall_mem_append.mpr ⟨hfaults, hfaults'⟩⟩

end Mind

/-! ## Host code -/

section

variable {W : Type} {K : String → Prop}

/-- A host function that does no more to the pages of a brain than to ask for some. -/
structure HostFunction.Obliging (K : String → Prop) (f : HostFunction (Stage (Mind W))) : Prop where
  sync : ∀ {call}, f.sync = some call →
    ∀ c args (s : Stage (Mind W)), Mind.Asking K s.host (call c args s).2.host
  async : ∀ {call}, f.async = some call →
    ∀ c args handle (s : Stage (Mind W)), Mind.Asking K s.host (call c args handle s).2.host
  onPage : ∀ {hook}, f.onPage = some hook →
    ∀ c (s : Stage (Mind W)), Mind.Asking K s.host (hook c s).host

structure Services.Obliging (K : String → Prop) (svc : Services (Stage (Mind W))) : Prop where
  functions : ∀ f ∈ svc.functions.list, f.Obliging K
  hooks : svc.HooksWithin fun s t => Mind.Asking K s.host t.host

theorem Services.Obliging.within {m : Machine (Mind W)} (h : m.services.Obliging K) :
    m.Within (Mind.Asking K) := by
  refine ⟨fun mind func var v => mind.asking_updateCells K func var fun c => c.set var v, ?_, ?_, ?_, ?_⟩
  · intro fn f call hf hcall
    exact (h.functions f (Functions.mem_of_get? hf)).sync hcall
  · intro fn f call hf hcall
    exact (h.functions f (Functions.mem_of_get? hf)).async hcall
  · exact fun hget _ _ _ _ hr => h.hooks.get hget hr
  · exact fun hset _ _ _ _ _ hr => h.hooks.set hset hr

theorem Services.Obliging.rests {m : Machine (Mind W)} (h : m.services.Obliging K) :
    m.Rests (fun _ => Mind.Asking K) Mind.Waits where
  refl _ := ⟨rfl, rfl⟩
  trans := Mind.Waits.trans
  ended m _ f := m.waits_ended f
  touches func :=
    { refl := .refl K
      trans := .trans
      store := fun m var v => h.within.store m func var v
      sync := fun hf hcall c args s _ => h.within.sync hf hcall c args s
      async := fun hf hcall c args handle s _ => h.within.async hf hcall c args handle s
      get := h.within.get
      set := h.within.set }

theorem Core.obliging_primitive (name : String) (f : Heap → Value → Except Mismatch Value) :
    (primitive name f : HostFunction (Stage (Mind W))).Obliging K := by
  refine ⟨?_, nofun, nofun⟩
  rintro _ ⟨⟩ c args s
  dsimp only
  split <;> exact .refl _ _

theorem Core.obliging_services : (services : Services (Stage (Mind W))).Obliging K := by
  obtain ⟨hfunctions, htypes⟩ := forall_services (W := W) (obliging_primitive (K := K))
  refine ⟨hfunctions, fun d hd hooks hhooks => ?_⟩
  rw [htypes d hd] at hhooks
  cases hhooks

theorem Mind.asking_setSiteState (m : Mind W) (site : Int) (state : Option SiteState) :
    m.Asking K (Host.setSiteState m site state) := by
  cases state <;> exact ⟨[], .other rfl rfl rfl rfl rfl⟩

theorem Builtins.obliging_functions (hK : ∀ key, K key) (f : HostFunction (Stage (Mind W)))
    (hf : f ∈ functions) : f.Obliging K := by
  simp only [functions, List.mem_cons, List.not_mem_nil, or_false] at hf
  rcases hf with rfl | rfl | rfl | rfl | rfl
  · refine ⟨?_, (fun h => by cases h), fun h => by cases h⟩
    rintro _ ⟨⟩ c args s
    dsimp only
    split
    · exact .refl _ _
    · rename_i key _
      have hasks : s.host.Asking K (s.host.requestPage key).2 := ⟨_, .request s.host (hK key)⟩
      split
      · rename_i hrequest
        rwa [show s.host.requestPage key = _ from hrequest] at hasks
      · rename_i hrequest
        rwa [show s.host.requestPage key = _ from hrequest] at hasks
  · refine ⟨?_, (fun h => by cases h), fun h => by cases h⟩
    rintro _ ⟨⟩ c args s
    exact .refl _ _
  · refine ⟨?_, (fun h => by cases h), fun h => by cases h⟩
    rintro _ ⟨⟩ c args s
    exact .refl _ _
  · refine ⟨?_, (fun h => by cases h), ?_⟩
    · rintro _ ⟨⟩ c args s
      dsimp only
      split
      · exact .refl _ _
      · exact s.host.asking_setSiteState c.site _
    · rintro _ ⟨⟩ c s
      exact s.host.asking_setSiteState c.site none
  · refine ⟨(fun h => by cases h), ?_, fun h => by cases h⟩
    rintro _ ⟨⟩ c args handle s
    dsimp only
    split
    · exact .refl _ _
    · exact ⟨[], .other rfl rfl rfl rfl rfl⟩

/-- Among the tiles that every brain has there is one that asks for pages, by any key. -/
theorem Builtins.obliging_install {svc svc' : Services (Stage (Mind W))} (hK : ∀ key, K key)
    (h : svc.Obliging K) {catalog catalog' : Catalog}
    (hinstall : install svc catalog = .ok (svc', catalog')) : svc'.Obliging K := by
  obtain ⟨hfunctions, htypes⟩ := forall_install h.functions (obliging_functions hK) hinstall
  exact ⟨hfunctions, h.hooks.congr htypes⟩

end

end TileMind
