import TileMind.Proofs.Brain.Requests
import TileMind.Proofs.Machine.Hosts
import TileMind.Proofs.Program.Records

/-!
# TileMind.Proofs.Brain.Plays

What holds of a brain whatever is asked of it, while host code does what it likes with the variables,
call sites, timers and pages that it is handed.

* `Mind.Works`: what host code may do to a mind.
* `Mind.Plays`: what holds of the mind of a brain for a compiled program.
* `Brain.Plays`: the same of the brain; every request keeps it.
* `Brain.Request.Fails`: what brings such a brain down.
* `brain_goes_on`: a brain for compiled programs crashes in no other way.
-/

namespace TileMind

/-! ## Compiled programs -/

/-- Some definition is compiled to the program. -/
def Program.Compiled (p : Program) : Prop :=
  ∃ (σ : Type) (env : CompileEnv σ) (d : BrainDef) (diags : Diagnostics), compile env d = .ok (p, diags)

namespace Program

variable {p : Program}

theorem Compiled.check (h : p.Compiled) : p.check = .ok () := by
  obtain ⟨σ, env, d, diags, hcompile⟩ := h
  exact compile_check hcompile

theorem Compiled.tabled (h : p.Compiled) : Mind.Tabled p := by
  obtain ⟨σ, env, d, diags, hcompile⟩ := h
  obtain ⟨plan, entry, hplan, rfl⟩ := assemble_of_compile hcompile
  exact hplan.tabled

theorem Compiled.paged (h : p.Compiled) (hpages : p.pages ≠ []) : p.Paged := by
  obtain ⟨σ, env, d, diags, hcompile⟩ := h
  refine paged_of_compile hcompile fun hnone => hpages ?_
  obtain ⟨plan, entry, -, rfl⟩ := assemble_of_compile hcompile
  simp [assemble, BrainDef.pageInfos, hnone, pageInfos]

/-- No host call asks for a negative number of operands. -/
theorem Compiled.breaks {H : Type} {m : Machine H} (hp : m.program.Compiled) {t : Stage H} {c : Crash}
    (h : m.LeftOpen t c) : m.Breaks t c := by
  cases h with
  | breaks h => exact h
  | @operandCount func k fn i found instr op negative =>
    obtain ⟨σ, env, d, diags, hcompile⟩ := hp
    obtain ⟨body, hcode, hadds, -⟩ := compile_adds hcompile (Array.mem_of_getElem? found)
    have hi : (body ++ [Instr.of .ret])[k]? = some i := by
      rw [hcode, List.getElem?_toArray] at instr
      exact instr
    have hpops : i.pops = i.b.toInt := by
      rcases op with hop | hop <;> simp [Instr.pops, hop, Op.pops]
    rw [List.getElem?_append] at hi
    split at hi
    · have hfits := (hadds.balanced k i hi).pops
      omega
    · obtain rfl := List.mem_singleton.mp (List.mem_of_getElem? hi)
      simp at op

end Program

/-! ## Minds -/

namespace Mind

variable {W : Type} {S : Program → Int → Int → Prop} {p : Program} {m m' : Mind W}

/-- What host code may do to a mind: it stores variables, where `S` says on behalf of which function
and which ones, it clears variables, asks for pages, and changes what is none of these. -/
inductive Works (S : Program → Int → Int → Prop) : Mind W → Mind W → Prop where
  | other {m m' : Mind W} (program : m'.program = m.program) (rules : m'.rules = m.rules)
      (globals : m'.globals = m.globals) (active : m'.active = m.active)
      (pending : m'.pending = m.pending) : Works S m m'
  | store (m : Mind W) {func var : Int} (allowed : S m.program func var) (v : Value) :
      Works S m (m.store func var v)
  | clear (m : Mind W) (func var : Int) : Works S m (m.clear func var)
  | request (m : Mind W) (key : String) : Works S m (m.requestPage key).2
  | trans {m m' m'' : Mind W} : Works S m m' → Works S m' m'' → Works S m m''

theorem Works.refl (m : Mind W) : Works S m m := .other rfl rfl rfl rfl rfl

/-- The number is that of a global, which is found under its name. -/
def IsGlobal (m : Mind W) (id : Int) : Prop :=
  ∃ (i : Nat) (name : String), id = i ∧ m.program.vars[i]? = some name ∧ m.global? name = some i

/-- Host code may store the variable on behalf of a function around which no rule declares it. -/
def Strays (S : Program → Int → Int → Prop) (m : Mind W) (id : Int) : Prop :=
  ∃ func, S m.program func id ∧ m.owner? func id = none

theorem global?_congr (h : m'.program = m.program) (name : String) : m'.global? name = m.global? name := by
  simp only [global?, isLocal, h]

theorem IsGlobal.congr {id : Int} (h : m'.program = m.program) (hid : m.IsGlobal id) : m'.IsGlobal id := by
  obtain ⟨i, name, rfl, hname, hglobal⟩ := hid
  exact ⟨i, name, rfl, h ▸ hname, by rw [global?_congr h, hglobal]⟩

theorem vars_of_global? {name : String} {i : Nat} (h : m.global? name = some i) :
    m.program.vars[i]? = some name := by
  obtain ⟨⟨x, j⟩, hfound, rfl⟩ := Option.map_eq_some_iff.mp h
  have hmem := List.mem_of_find?_eq_some hfound
  have hname := List.find?_some hfound
  simp only [Bool.and_eq_true, decide_eq_true_eq] at hname
  obtain ⟨rfl, -⟩ := hname
  simpa [List.mem_zipIdx_iff_getElem?] using hmem

theorem isGlobal_of_global? {name : String} {i : Nat} (h : m.global? name = some i) : m.IsGlobal i :=
  ⟨i, name, rfl, vars_of_global? h, h⟩

theorem ownerFrom_congr (h : shape m'.rules = shape m.rules) (var : Int) (depth : Nat) (func : Int) :
    m'.ownerFrom var depth func = m.ownerFrom var depth func := by
  induction depth generalizing func with
  | zero => rfl
  | succ depth ih =>
    have hsame := get?_of_shape h func
    unfold ownerFrom
    cases hr : m.rules.get? func with
    | none =>
      rw [hr, Option.map_none, Option.map_eq_none_iff] at hsame
      rw [hsame]
    | some r =>
      rw [hr, Option.map_some] at hsame
      obtain ⟨r', hr', heq⟩ := Option.map_eq_some_iff.mp hsame
      obtain ⟨hinfo, hparent⟩ := Prod.mk.inj heq
      simp only [hr', hinfo, hparent, ih]

theorem owner?_congr (h : shape m'.rules = shape m.rules) (func var : Int) :
    m'.owner? func var = m.owner? func var := by
  have hlength := congrArg List.length h
  simp only [shape, List.length_map] at hlength
  rw [owner?, owner?, ownerFrom_congr h, hlength]

/-- The numbers of the variables that are set among the globals. -/
def filled (m : Mind W) : List Int := m.globals.entries.map Prod.fst

/-- The mind of a brain for `p`. The page it is on and the one it waits for exist, unless there is none.
What is set among the globals are globals, and what host code put there. -/
structure Plays (S : Program → Int → Int → Prop) (p : Program) (m : Mind W) : Prop where
  carries : m.Carries p
  pages : p.pages ≠ [] → (0 ≤ m.active ∧ m.active < p.pages.length) ∧
    ∀ index, m.pending = some index → 0 ≤ index ∧ index < p.pages.length
  distinct : m.filled.Nodup
  globals : ∀ id ∈ m.filled, m.IsGlobal id ∨ m.Strays S id ∨
    ¬ p.Small ∧ ∃ name, Program.atInt? p.vars id = some name

/-- What is said about globals depends on the program and on how its rules are linked. -/
theorem Plays.congr (hm : m.Plays S p) (program : m'.program = m.program)
    (shape : shape m'.rules = shape m.rules)
    (active : p.pages ≠ [] → m'.active = m.active ∨ 0 ≤ m'.active ∧ m'.active < p.pages.length)
    (pending : ∀ index, m'.pending = some index → m.pending = some index ∨
      (p.pages ≠ [] → 0 ≤ index ∧ index < p.pages.length)) (distinct : m'.filled.Nodup)
    (globals : ∀ id ∈ m'.filled, id ∈ m.filled ∨ m.IsGlobal id ∨ m.Strays S id ∨
      ¬ p.Small ∧ ∃ name, Program.atInt? p.vars id = some name) : m'.Plays S p := by
  refine ⟨⟨program.trans hm.carries.program, shape.trans hm.carries.shape⟩, fun hpages => ?_, distinct,
    fun id hid => ?_⟩
  · obtain ⟨hactive, hpending⟩ := hm.pages hpages
    refine ⟨?_, fun index hindex => ?_⟩
    · rcases active hpages with hsame | hnew
      · rwa [hsame]
      · exact hnew
    rcases pending index hindex with hbefore | hnew
    · exact hpending index hbefore
    · exact hnew hpages
  · have hknown : m.IsGlobal id ∨ m.Strays S id ∨
        ¬ p.Small ∧ ∃ name, Program.atInt? p.vars id = some name := by
      rcases globals id hid with hbefore | hnew
      · exact hm.globals id hbefore
      · exact hnew
    rcases hknown with hglobal | ⟨func, hallowed, howner⟩ | hbig
    · exact .inl (hglobal.congr program)
    · exact .inr (.inl ⟨func, program ▸ hallowed, by rw [owner?_congr shape, howner]⟩)
    · exact .inr (.inr hbig)

theorem Plays.other (hm : m.Plays S p) (program : m'.program = m.program)
    (rules : m'.rules = m.rules) (globals : m'.globals = m.globals) (active : m'.active = m.active)
    (pending : m'.pending = m.pending) : m'.Plays S p := by
  have hsame : m'.filled = m.filled := by rw [filled, filled, globals]
  exact hm.congr program (by rw [rules]) (fun _ => .inl active)
    (fun index hindex => .inl (pending ▸ hindex)) (hsame ▸ hm.distinct) fun id hid => .inl (hsame ▸ hid)

theorem Plays.updateCells (hm : m.Plays S p) {func var : Int} {f : Cells Value → Cells Value}
    (distinct : ((f m.globals).entries.map Prod.fst).Nodup)
    (hf : m.owner? func var = none → ∀ id ∈ (f m.globals).entries.map Prod.fst,
      id ∈ m.filled ∨ m.IsGlobal id ∨ m.Strays S id ∨
        ¬ p.Small ∧ ∃ name, Program.atInt? p.vars id = some name) :
    (m.updateCells func var f).Plays S p := by
  unfold Mind.updateCells
  split
  · rename_i rule _
    exact hm.congr rfl (shape_modify m.rules rule f) (fun _ => .inl rfl) (fun _ h => .inl h)
      hm.distinct fun _ h => .inl h
  · rename_i howner
    exact hm.congr rfl rfl (fun _ => .inl rfl) (fun _ h => .inl h) distinct (hf howner)

theorem Plays.store (hm : m.Plays S p) {func var : Int}
    (hvar : m.owner? func var = none → m.IsGlobal var ∨ m.Strays S var ∨
      ¬ p.Small ∧ ∃ name, Program.atInt? p.vars var = some name) (v : Value) :
    (m.store func var v).Plays S p := by
  refine hm.updateCells (m.globals.nodup_set var v hm.distinct) fun howner id hid => ?_
  rcases m.globals.mem_keys_set hid with rfl | hbefore
  · exact .inr (hvar howner)
  · exact .inl hbefore

theorem Plays.clear (hm : m.Plays S p) (func var : Int) : (m.clear func var).Plays S p :=
  hm.updateCells (hm.distinct.sublist (m.globals.keys_erase_sublist var)) fun _ _ hid =>
    .inl ((m.globals.keys_erase_sublist var).subset hid)

theorem Plays.setPending (hp : p.Compiled) (hm : m.Plays S p) {key : String} {index : Int}
    (h : m.page? key = some index) : (m.setPending index).Plays S p := by
  refine hm.congr rfl rfl (fun _ => .inl rfl) (fun i hi => .inr fun hpages => ?_) hm.distinct
    fun _ h => .inl h
  have hrange := page?_range (hp.paged hpages) hm.carries.program h
  have hpending : (if index < 0 then none else some index) = some i := hi
  rw [if_neg (by omega)] at hpending
  exact Option.some.inj hpending ▸ hrange

theorem Plays.works (hp : p.Compiled) (h : m.Works S m') (hm : m.Plays S p) : m'.Plays S p := by
  induction h with
  | other program rules globals active pending => exact hm.other program rules globals active pending
  | store m allowed v => exact hm.store (fun howner => .inr (.inl ⟨_, allowed, howner⟩)) v
  | clear m func var => exact hm.clear func var
  | request m key =>
    unfold requestPage
    split
    · rename_i hpage
      exact hm.setPending hp hpage
    · exact hm
  | trans _ _ ih ih' => exact ih' (ih hm)

theorem Plays.ended (hm : m.Plays S p) (f : Fiber) : (m.ended f).Plays S p := by
  unfold Mind.ended
  split
  · exact hm.other rfl rfl rfl rfl rfl
  · exact hm

end Mind

/-- A compiled program stores a variable of a rule in the locals of that rule, and any other one where
it is found among the globals. -/
theorem Program.Compiled.store {p : Program} (hp : p.Compiled) {func k : Nat} {fn : Function} {i : Instr}
    (hfn : p.functions[func]? = some fn) (hk : fn.code[k]? = some i) (hop : i.op? = some .storeVar)
    {W : Type} {m : Mind W} (hm : m.Carries p) (howner : m.owner? func i.a.toInt = none) :
    m.IsGlobal i.a.toInt ∨ ¬ p.Small ∧ ∃ name, Program.atInt? p.vars i.a.toInt = some name := by
  by_cases hsmall : p.Small
  · left
    obtain ⟨σ, env, d, diags, hcompile⟩ := hp
    obtain ⟨plan, entry, hplan, rfl⟩ := assemble_of_compile hcompile
    have hlt : func < d.places.length := by
      have hsize := (Array.getElem?_eq_some_iff.mp hfn).1
      rwa [size_functions_assemble, hplan.planned.length_eq] at hsize
    have hnumber := d.number_places (List.getElem?_eq_getElem hlt)
    obtain ⟨fn', hfn', _, _, _, _, _, _, -, -, -, -, -, -, hreaches⟩ :=
      hplan.scoped hsmall (List.getElem_mem hlt)
    rw [hnumber, hfn, Option.some.injEq] at hfn'
    subst hfn'
    have hi : i ∈ fn.code.toList.filter Instr.isVar := by
      refine List.mem_filter.mpr ⟨Array.mem_toList_iff.mpr (Array.mem_of_getElem? hk), ?_⟩
      simp [Instr.isVar, hop]
    obtain ⟨n, hn⟩ := List.mem_iff_getElem?.mp hi
    obtain ⟨u, -, id, -, ha, -, hkeeps⟩ := forall₂_getElem? hreaches hn
    have hwhere := hkeeps m hm
    rw [BrainDef.Keeps, hnumber] at hwhere
    rw [ha] at howner ⊢
    split at hwhere
    · -- A local is not stored among the globals, but this one would be.
      obtain ⟨-, -, -, hstore⟩ := hwhere
      have hglobal (v : Value) : m.globals.get? id = some v := by
        have hsame := congrArg Mind.globals (hstore v)
        simp only [Mind.store, Mind.updateCells, howner] at hsame
        rw [← hsame, Cells.get?_set, if_pos rfl]
      have hboth := (hglobal .nil).symm.trans (hglobal .void)
      cases hboth
    · exact Mind.isGlobal_of_global? hwhere.1
  · refine .inr ⟨hsmall, ?_⟩
    have hin := Program.checkInstr_of_check hp.check hfn hk
    simp only [Program.checkInstr, hop] at hin
    split at hin
    · rename_i hbounds
      simp only [Program.inBounds, Bool.and_eq_true, decide_eq_true_eq] at hbounds
      have hlt : i.a.toInt.toNat < p.vars.length := by omega
      exact ⟨p.vars[i.a.toInt.toNat], by
        rw [Program.atInt?, if_neg (by omega), List.getElem?_eq_getElem hlt]⟩
    · cases hin

/-! ## Host code -/

section

variable {W : Type} {S : Program → Int → Int → Prop}

/-- A host function that keeps to the operations of the handle table and to what `S` says of variables. -/
structure HostFunction.Works (S : Program → Int → Int → Prop) (f : HostFunction (Stage (Mind W))) :
    Prop where
  sync : ∀ {call}, f.sync = some call →
    ∀ c args (s : Stage (Mind W)), s.Works (Mind.Works S) (call c args s).2
  async : ∀ {call}, f.async = some call →
    ∀ c args handle (s : Stage (Mind W)), s.Works (Mind.Works S) (call c args handle s).2
  onPage : ∀ {hook}, f.onPage = some hook →
    ∀ c (s : Stage (Mind W)), s.Works (Mind.Works S) (hook c s)

structure Services.Works (S : Program → Int → Int → Prop) (svc : Services (Stage (Mind W))) : Prop where
  functions : ∀ f ∈ svc.functions.list, f.Works S
  hooks : svc.HooksWithin (Stage.Works (Mind.Works S))

theorem Stage.Works.refl (s : Stage (Mind W)) : s.Works (Mind.Works S) s := ⟨⟨[], .refl _⟩, .refl _⟩

section

variable {m : Machine (Mind W)}

theorem Services.Works.polite (h : m.services.Works S) : m.Polite where
  sync hf hcall c args s := ((h.functions _ (Functions.mem_of_get? hf)).sync hcall c args s).1
  async hf hcall c args handle s := ((h.functions _ (Functions.mem_of_get? hf)).async hcall c args handle s).1
  get hget _ _ _ _ hr := (h.hooks.get hget hr).1
  set hset _ _ _ _ _ hr := (h.hooks.set hset hr).1

theorem Services.Works.calls (h : m.services.Works S) : m.Calls (Mind.Works S) where
  refl := .refl
  trans := .trans
  sync hf hcall c args s := ((h.functions _ (Functions.mem_of_get? hf)).sync hcall c args s).2
  async hf hcall c args handle s := ((h.functions _ (Functions.mem_of_get? hf)).async hcall c args handle s).2
  get hget _ _ _ _ hr := (h.hooks.get hget hr).2
  set hset _ _ _ _ _ hr := (h.hooks.set hset hr).2

theorem Services.Works.maintains (h : m.services.Works S) (hp : m.program.Compiled) :
    m.Maintains (Mind.Works S) (Mind.Plays S m.program) where
  calls := h.calls
  works hworks hm := hm.works hp hworks
  store hfn hk hop mind v hm := hm.store (fun howner => by
    rcases hp.store hfn hk hop hm.carries howner with hglobal | hbig
    · exact .inl hglobal
    · exact .inr (.inr hbig)) v
  ended mind heap f hm := hm.ended f

end

theorem Core.works_primitive (name : String) (f : Heap → Value → Except Mismatch Value) :
    (primitive name f : HostFunction (Stage (Mind W))).Works S := by
  refine ⟨?_, nofun, nofun⟩
  rintro _ ⟨⟩ c args s
  dsimp only
  split <;> exact ⟨⟨[], .refl _⟩, .refl _⟩

theorem Core.works_services : (services : Services (Stage (Mind W))).Works S := by
  obtain ⟨hfunctions, htypes⟩ := forall_services (W := W) (works_primitive (S := S))
  refine ⟨hfunctions, fun d hd hooks hhooks => ?_⟩
  rw [htypes d hd] at hhooks
  cases hhooks

theorem Mind.works_setSiteState (m : Mind W) (site : Int) (state : Option SiteState) :
    m.Works S (Host.setSiteState m site state) := by
  cases state <;> exact .other rfl rfl rfl rfl rfl

theorem Builtins.works_functions (f : HostFunction (Stage (Mind W))) (hf : f ∈ functions) :
    f.Works S := by
  have hhost {s : Stage (Mind W)} {m : Mind W} (hm : s.host.Works S m) :
      s.Works (Mind.Works S) { s with host := m } := ⟨⟨[], .refl _⟩, hm⟩
  simp only [functions, List.mem_cons, List.not_mem_nil, or_false] at hf
  rcases hf with rfl | rfl | rfl | rfl | rfl
  · refine ⟨?_, (fun h => by cases h), fun h => by cases h⟩
    rintro _ ⟨⟩ c args s
    dsimp only
    split
    · exact .refl s
    · rename_i key _
      have hworks : s.host.Works S (s.host.requestPage key).2 := .request s.host key
      split <;> rename_i hrequest <;> rw [show s.host.requestPage key = _ from hrequest] at hworks
      · exact hhost hworks
      · exact hhost hworks
  · refine ⟨?_, (fun h => by cases h), fun h => by cases h⟩
    rintro _ ⟨⟩ c args s
    exact .refl s
  · refine ⟨?_, (fun h => by cases h), fun h => by cases h⟩
    rintro _ ⟨⟩ c args s
    exact .refl s
  · refine ⟨?_, (fun h => by cases h), ?_⟩
    · rintro _ ⟨⟩ c args s
      dsimp only
      split
      · exact .refl s
      · exact hhost (s.host.works_setSiteState c.site _)
    · rintro _ ⟨⟩ c s
      exact hhost (s.host.works_setSiteState c.site none)
  · refine ⟨(fun h => by cases h), ?_, fun h => by cases h⟩
    rintro _ ⟨⟩ c args handle s
    dsimp only
    split
    · exact .refl s
    · exact hhost (.other rfl rfl rfl rfl rfl)

theorem Builtins.works_install {svc svc' : Services (Stage (Mind W))} (h : svc.Works S)
    {catalog catalog' : Catalog} (hinstall : install svc catalog = .ok (svc', catalog')) :
    svc'.Works S := by
  obtain ⟨hfunctions, htypes⟩ := forall_install h.functions works_functions hinstall
  exact ⟨hfunctions, h.hooks.congr htypes⟩

end

/-! ## Brains -/

namespace Brain

variable {W : Type} {S : Program → Int → Int → Prop} {p : Program} {b b' : Brain W}

/-- A brain for `p`, with host code that keeps to what `S` says of variables. -/
structure Plays (S : Program → Int → Int → Prop) (p : Program) (b : Brain W) : Prop where
  compiled : p.Compiled
  program : b.program = p
  services : b.services.Works S
  hosts : b.scheduler.Hosts (Mind.Works S) (Mind.Plays S p)

theorem Plays.mind (hb : b.Plays S p) : b.mind.Plays S p := hb.hosts.host

theorem Plays.of_hosts (hb : b.Plays S p) (hmachine : b'.scheduler.machine = b.scheduler.machine)
    (hhosts : b'.scheduler.Hosts (Mind.Works S) (Mind.Plays S p)) : b'.Plays S p := by
  refine ⟨hb.compiled, ?_, ?_, hhosts⟩
  · rw [Brain.program, hmachine]
    exact hb.program
  · rw [Brain.services, hmachine]
    exact hb.services

theorem Plays.setMind (hb : b.Plays S p) {m : Mind W} (hm : m.Plays S p) : (b.setMind m).Plays S p :=
  hb.of_hosts rfl (hb.hosts.setHost b.heap hm)

theorem Plays.answer (hb : b.Plays S p) {stage : Stage (Mind W)} (hserves : b.scheduler.stage.Serves stage)
    (hhost : stage.host = b.mind) :
    Plays S p { b with scheduler := { b.scheduler with stage := stage }.deliver } := by
  refine hb.of_hosts (Scheduler.deliver_same { b.scheduler with stage := stage }).1 ?_
  exact hb.hosts.work hserves (hhost ▸ hb.mind)

theorem serves_foldl {f : Stage (Mind W) → Nat → Stage (Mind W)} (hf : ∀ (s : Stage (Mind W)) h, s.Serves (f s h))
    (handles : List Nat) (s : Stage (Mind W)) : s.Serves (handles.foldl f s) := by
  induction handles generalizing s with
  | nil => exact ⟨[], .refl _⟩
  | cons h handles ih =>
    obtain ⟨as, has⟩ := hf s h
    obtain ⟨bs, hbs⟩ := ih (f s h)
    exact ⟨as ++ bs, has.trans hbs⟩

theorem Plays.fireTimers (hb : b.Plays S p) : b.fireTimers.Plays S p := by
  have hset := hb.setMind (m := { b.mind with timers := (b.mind.timers.due b.mind.clock.elapsed).2 })
    (hb.mind.other rfl rfl rfl rfl rfl)
  exact hset.answer (serves_foldl (fun s (h : Nat) => Scheduler.serves_resolve s h .void) _ _)
    (foldl_host (fun s (h : Nat) => s.resolve_host h .void) _ _)

theorem serves_cancelled (s : Stage (Mind W)) (h : Nat) :
    s.Serves (match s.cancel h with | .ok s => s | .error _ => s) := by
  split
  · rename_i hcancel
    exact Scheduler.serves_cancel hcancel
  · exact ⟨[], .refl _⟩

theorem Plays.cancelTimers (hb : b.Plays S p) : b.cancelTimers.Plays S p := by
  have hset := hb.setMind (m := { b.mind with timers := {} }) (hb.mind.other rfl rfl rfl rfl rfl)
  exact hset.answer (serves_foldl (fun s (h : Nat) => serves_cancelled s h) _ _)
    (foldl_host (fun s (h : Nat) => cancelled_host s h) _ _)

theorem Plays.cancelAll (hb : b.Plays S p) : b.cancelAll.Plays S p :=
  hb.of_hosts b.cancelAll_same.1 hb.hosts.cancelAll

theorem keeps_plays : Keeps (Plays (W := W) S p)
    fun index => p.pages ≠ [] → 0 ≤ index ∧ index < p.pages.length where
  clock clock hb := hb.setMind (hb.mind.other rfl rfl rfl rfl rfl)
  fire hb := hb.fireTimers
  waits hb hpending hpages := (hb.mind.pages hpages).2 _ hpending
  clear {b} hb := by
    have hnone := hb.setMind (m := { b.mind with pending := none })
      (hb.mind.congr rfl rfl (fun _ => .inl rfl) (fun _ h => by cases h) hb.mind.distinct
        fun _ h => .inl h)
    have hends : Plays S p { (b.setMind { b.mind with pending := none }).cancelAll with fibers := {} } :=
      hnone.cancelAll.of_hosts rfl hnone.cancelAll.hosts
    exact hends.cancelTimers
  turn {b index} hb hindex := by
    exact hb.setMind (hb.mind.congr rfl rfl (fun hpages => .inr (hindex hpages)) (fun _ h => .inl h)
      hb.mind.distinct fun _ h => .inl h)
  enter {b} site hb := by
    obtain hsame | ⟨f, hook, hf, hhook, hentered⟩ := b.enterSite_cases site
    · rwa [hsame]
    · rw [hentered]
      obtain ⟨hserves, hworks⟩ := (hb.services.functions f (Functions.mem_of_get? hf)).onPage hhook
        { program := b.program, func := -1, site := site.site } b.scheduler.stage
      refine hb.of_hosts (Scheduler.deliver_same _).1 (hb.hosts.work hserves ?_)
      exact hb.mind.works hb.compiled hworks
  spawn {b _ _ _} hb hspawn := by
    have hmachine := hspawn
    obtain ⟨-, -, rfl⟩ := Scheduler.spawn_eq_ok hspawn
    exact hb.of_hosts rfl (hb.hosts.spawn hmachine)
  fault heap path ref hb :=
    hb.of_hosts rfl (hb.hosts.setHost heap (hb.mind.other rfl rfl rfl rfl rfl))
  tick hb htick := by
    obtain ⟨es, hsteps⟩ := Scheduler.steps_tick hb.hosts.guarded.steady htick
    exact hb.of_hosts (hsteps.ages hb.hosts.guarded.steady).machine (hb.hosts.tick htick)

/-! ## Requests -/

/-- Host code of the command keeps to the handle table and to what `S` says of variables. -/
def Command.Works (S : Program → Int → Int → Prop) : Command W → Prop
  | .operate op => op.Works (Mind.Works S)
  | _ => True

def Request.Works (S : Program → Int → Int → Prop) : Request W → Prop
  | .ask c => c.Works S
  | .reload q svc => q.Compiled ∧ ∀ svc' ∈ svc, svc'.Works S

/-- What brings down a brain that plays. A tick may not end; it may think with a program that has no
pages; it may take another program after host code has set a variable that the one before does not have;
and a fiber may break the machine. -/
inductive Request.Fails (S : Program → Int → Int → Prop) (b : Brain W) : Request W → Crash → Prop where
  | endless {r : Request W} : Fails S b r .endless
  | noPage {dt index : Int} (pages : b.program.pages = []) : Fails S b (.ask (.think dt)) (.noPage index)
  | noVariable {q svc} {func id : Int} (allowed : S b.program func id)
      (missing : Program.atInt? b.program.vars id = none) : Fails S b (.reload q svc) (.noVariable id)
  | thinking {dt : Int} {ready : Brain W} {c : Crash} (prepared : b.prepared dt = .ok ready)
      (breaks : ready.scheduler.Breaks c) : Fails S b (.ask (.think dt)) c
  | operating {op : Operation (Mind W)} {c : Crash} (breaks : b.scheduler.Breaks c) :
      Fails S b (.ask (.operate op)) c

/-- Only what the check of a program leaves open and a compiled program does not is left. -/
theorem Plays.breaks (hb : b.Plays S p) {c : Crash} (h : b.scheduler.LeftOpen c) :
    c = .endless ∨ b.scheduler.Breaks c := by
  obtain rfl | ⟨es, s, f, hsteps, hf, n, g, t, hran, hopen⟩ := h
  · exact .inl rfl
  · have hmachine := (hsteps.ages hb.hosts.guarded.steady).machine
    have hcompiled : s.machine.program.Compiled := by
      rw [hmachine, show b.scheduler.machine.program = p from hb.program]
      exact hb.compiled
    exact .inr ⟨es, s, f, n, g, t, hsteps, hf, hmachine, hran, hcompiled.breaks hopen⟩

theorem Plays.not_lost {index : Int} (h : Lost (Plays (W := W) S p) index) : p.pages = [] := by
  obtain ⟨b, hb, -, hnone⟩ := h
  by_contra hpages
  obtain ⟨page, hpage⟩ := Mind.exists_activePage? hb.mind.carries.program (hb.mind.pages hpages).1
  rw [hpage] at hnone
  cases hnone

theorem Plays.think (hb : b.Plays S p) (dt : Int) :
    (∃ b', (Command.think dt).perform b = .ok b' ∧ b'.Plays S p) ∨
      ∃ c, (Command.think dt).perform b = .error c ∧ Request.Fails S b (.ask (.think dt)) c := by
  unfold Command.perform
  dsimp only
  obtain hthink | ⟨b', hthink, hb'⟩ | ⟨index, hthink, hlost⟩ | ⟨b', c, hprepared, hb', htick, hthink⟩ :=
    keeps_plays.think hb dt
  · exact .inl ⟨b, by rw [hthink], hb⟩
  · exact .inl ⟨b', by rw [hthink], hb'⟩
  · refine .inr ⟨_, by rw [hthink], .noPage ?_⟩
    rw [hb.program]
    exact Plays.not_lost hlost
  · refine .inr ⟨c, by rw [hthink], ?_⟩
    obtain rfl | hbreaks := hb'.breaks (Scheduler.tick_crash hb'.hosts.guarded htick)
    · exact .endless
    · exact .thinking hprepared hbreaks

theorem Plays.requestPage (hb : b.Plays S p) (key : String) (h : b.requestPage key = .ok b') :
    b'.Plays S p := by
  rw [requestPage_eq] at h
  split at h
  · rename_i hpage
    cases h
    exact hb.setMind (hb.mind.setPending hb.compiled hpage)
  · cases h

theorem Plays.setVariable (hb : b.Plays S p) {name : String} {v : Value}
    (h : b.setVariable name v = .ok b') : b'.Plays S p := by
  unfold Brain.setVariable Mind.setGlobal? at h
  cases hglobal : b.mind.global? name with
  | none =>
    simp only [hglobal, Option.map_none] at h
    cases h
  | some i =>
    simp only [hglobal, Option.map_some] at h
    cases h
    refine hb.setMind (hb.mind.congr rfl rfl (fun _ => .inl rfl) (fun _ h => .inl h)
      (b.mind.globals.nodup_set i v hb.mind.distinct) fun id hid => ?_)
    rcases b.mind.globals.mem_keys_set hid with rfl | hbefore
    · exact .inr (.inl (Mind.isGlobal_of_global? hglobal))
    · exact .inl hbefore

theorem Plays.stop (hb : b.Plays S p) : b.stop.Plays S p := by
  unfold Brain.stop
  split
  · exact hb
  · exact hb.cancelAll.cancelTimers.of_hosts rfl hb.cancelAll.cancelTimers.hosts

theorem Plays.command (hb : b.Plays S p) {c : Command W} (hc : c.Works S) :
    (∃ b', c.perform b = .ok b' ∧ b'.Plays S p) ∨
      ∃ e, c.perform b = .error e ∧ Request.Fails S b (.ask c) e := by
  cases c with
  | think dt => exact hb.think dt
  | requestPage key =>
    unfold Command.perform
    dsimp only
    split
    · rename_i b' h
      exact .inl ⟨b', rfl, hb.requestPage key h⟩
    · exact .inl ⟨b, rfl, hb⟩
  | setVariable name v =>
    unfold Command.perform
    dsimp only
    split
    · rename_i b' h
      exact .inl ⟨b', rfl, hb.setVariable h⟩
    · exact .inl ⟨b, rfl, hb⟩
  | stop => exact .inl ⟨b.stop, rfl, hb.stop⟩
  | operate op =>
    unfold Command.perform
    dsimp only
    cases h : op.perform b.scheduler with
    | ok s =>
      have hpolite : op.Polite := by
        cases op with
        | post e => exact Errand.Within.polite And.left hc
        | act run => exact fun s => (hc s).1
        | _ => trivial
      obtain ⟨es, hsteps⟩ := Operation.steps_of_perform hpolite hb.hosts.guarded.steady h
      exact .inl ⟨_, rfl, hb.of_hosts (hsteps.ages hb.hosts.guarded.steady).machine
        (Operation.hosts hc hb.hosts h)⟩
    | error e =>
      refine .inr ⟨e, rfl, ?_⟩
      obtain rfl | hbreaks := hb.breaks (Operation.crash_of_perform hb.hosts.guarded h)
      · exact .endless
      · exact .operating hbreaks

/-! ## Another program -/

theorem hosts_create {q : Program} (hq : q.Compiled) {svc : Services (Stage (Mind W))}
    (hsvc : svc.Works S) (limits : Limits) (heap : Heap) {m : Mind W} (hm : m.Plays S q) :
    (Scheduler.create q svc limits heap m).Hosts (Mind.Works S) (Mind.Plays S q) := by
  have hload : (Machine.load q svc limits heap).1.services.Works S := hsvc
  have hcompiled : (Machine.load q svc limits heap).1.program.Compiled := hq
  exact ⟨guarded_create q svc limits heap m hq.check hload.polite, hload.maintains hcompiled,
    fun e he => absurd he List.not_mem_nil, hm⟩

theorem Plays.start {q : Program} {m : Mind W} (hprogram : m.program = q)
    (hrules : m.rules = Mind.rulesOf q) (hdistinct : m.filled.Nodup)
    (hglobals : ∀ id ∈ m.filled, m.IsGlobal id) {index : Int}
    (hindex : q.pages ≠ [] → 0 ≤ index ∧ index < q.pages.length) :
    ({ m with active := index }.setPending index).Plays S q := by
  refine ⟨⟨hprogram, by rw [← hrules]; rfl⟩, fun hpages => ⟨hindex hpages, fun i hi => ?_⟩,
    hdistinct, fun id hid => .inl ((hglobals id hid).congr rfl)⟩
  have hpending : (if index < 0 then none else some index) = some i := hi
  split at hpending
  · cases hpending
  · exact Option.some.inj hpending ▸ hindex hpages

theorem entry_range {q : Program} (hq : q.Compiled) (hpages : q.pages ≠ []) :
    0 ≤ q.entry ∧ q.entry < q.pages.length :=
  Program.entry_of_check hq.check hpages

theorem plays_create (hp : p.Compiled) {svc : Services (Stage (Mind W))} (hsvc : svc.Works S)
    (limits : Limits) (heap : Heap) (world : W) :
    ∃ b, create p svc limits heap world = .ok b ∧ b.Plays S p := by
  have hm : Mind.Plays S p
      (({ program := p, rules := Mind.rulesOf p, active := p.entry, world := world } : Mind W).setPending
        p.entry) :=
    Plays.start (m := { program := p, rules := Mind.rulesOf p, world := world }) rfl rfl
      List.nodup_nil (fun _ h => absurd h List.not_mem_nil) (entry_range hp)
  unfold create
  rw [hp.check]
  exact ⟨_, rfl, hp, rfl, hsvc, hosts_create hp hsvc limits heap hm⟩

theorem restore_eq (m : Mind W) (values : List (String × Value)) :
    restore m values = { m with globals := (restore m values).globals } ∧
      (m.filled.Nodup → (restore m values).filled.Nodup) ∧
      ∀ id ∈ (restore m values).filled, id ∈ m.filled ∨ m.IsGlobal id := by
  induction values generalizing m with
  | nil => exact ⟨rfl, fun h => h, fun _ h => .inl h⟩
  | cons value values ih =>
    obtain ⟨name, v⟩ := value
    have hcons : restore m ((name, v) :: values) = restore ((m.setGlobal? name v).getD m) values := rfl
    rw [hcons]
    cases hglobal : m.global? name with
    | none =>
      simp only [Mind.setGlobal?, hglobal, Option.map_none, Option.getD_none]
      exact ih m
    | some i =>
      simp only [Mind.setGlobal?, hglobal, Option.map_some, Option.getD_some]
      obtain ⟨hsame, hdistinct, hfilled⟩ := ih { m with globals := m.globals.set i v }
      refine ⟨hsame, fun h => hdistinct (m.globals.nodup_set i v h), fun id hid => ?_⟩
      rcases hfilled id hid with hbefore | hid
      · rcases m.globals.mem_keys_set hbefore with rfl | hbefore
        · exact .inr (Mind.isGlobal_of_global? hglobal)
        · exact .inl hbefore
      · exact .inr (hid.congr rfl)

def Named (b : Brain W) (values : List (String × Value)) : Prop :=
  List.Forall₂ (fun e value => Program.atInt? b.program.vars e.1 = some value.1 ∧ e.2 = value.2)
    b.mind.globals.entries values

/-- What is carried over, or which variable the program does not have. -/
theorem carried_cases (b : Brain W) :
    (∃ values, b.carried = .ok values ∧ b.Named values) ∨
    ∃ id ∈ b.mind.filled, Program.atInt? b.program.vars id = none ∧ b.carried = .error (.noVariable id) := by
  cases hcarried : b.carried with
  | ok values =>
    refine .inl ⟨values, rfl, (Wire.mapM_eq_ok_iff.mp hcarried).imp fun e value h => ?_⟩
    dsimp only at h
    split at h
    · rename_i hname
      cases h
      exact ⟨hname, rfl⟩
    · cases h
  | error c =>
    obtain ⟨e, he, h⟩ := Wire.exists_of_mapM_eq_error hcarried
    dsimp only at h
    split at h
    · cases h
    · rename_i hname
      cases h
      exact .inr ⟨e.1, List.mem_map_of_mem he, hname, rfl⟩

/-- What is set and is no variable of the program was put there by host code. -/
theorem Plays.carried (hb : b.Plays S p) :
    (∃ values, b.carried = .ok values ∧ b.Named values) ∨
    ∃ func id, S p func id ∧ Program.atInt? p.vars id = none ∧ b.carried = .error (.noVariable id) := by
  obtain hok | ⟨id, hid, hnone, hcarried⟩ := b.carried_cases
  · exact .inl hok
  · rw [hb.program] at hnone
    rcases hb.mind.globals id hid with ⟨i, name, rfl, hname, -⟩ | ⟨func, hallowed, -⟩ | ⟨-, name, hname⟩
    · rw [hb.mind.carries.program] at hname
      simp [Program.atInt?, hname] at hnone
    · rw [hb.mind.carries.program] at hallowed
      exact .inr ⟨func, id, hallowed, hnone, hcarried⟩
    · rw [hname] at hnone
      cases hnone

/-- The page that a program begins with when it takes over. -/
def landing (b : Brain W) (q : Program) : Int :=
  let current := (b.mind.activePage?.map PageInfo.id).getD ""
  (if current = "" then none else q.page? current).getD q.entry

theorem landing_range (b : Brain W) {q : Program} (hq : q.Compiled) (hpages : q.pages ≠ []) :
    0 ≤ b.landing q ∧ b.landing q < q.pages.length := by
  unfold landing
  dsimp only
  generalize (b.mind.activePage?.map PageInfo.id).getD "" = current
  split
  · exact entry_range hq hpages
  · cases hpage : q.page? current with
    | none => exact entry_range hq hpages
    | some index =>
      have hkey : ({ b.mind with program := q } : Mind W).page? current = some index := by
        simp [Mind.page?, hpage]
      exact Mind.page?_range (hq.paged hpages) rfl hkey

/-- The brain after another program has taken over, with the values of its globals. -/
def reloaded (b : Brain W) (q : Program) (svc : Option (Services (Stage (Mind W))))
    (values : List (String × Value)) : Brain W :=
  let mind : Mind W :=
    { program := q
      rules := Mind.rulesOf q
      clock := b.mind.clock
      faults := b.mind.faults
      world := b.mind.world }
  { scheduler := Scheduler.create q (svc.getD b.services) b.limits b.cancelAll.heap
      ({ restore mind values with active := b.landing q }.setPending (b.landing q))
    limits := b.limits }

theorem reload_eq (b : Brain W) {q : Program} (hcheck : q.check = .ok ())
    (svc : Option (Services (Stage (Mind W)))) :
    b.reload q svc =
      if b.isStopped then .ok (some .stopped, b)
      else
        match b.carried with
        | .error c => .error c
        | .ok values => .ok (none, b.reloaded q svc values) := by
  obtain ⟨hmachine, -, -, hmind⟩ := b.cancelAll_same
  have hservices : b.cancelAll.services = b.services := by rw [services, hmachine, services]
  unfold reload
  rw [hcheck]
  dsimp only
  rw [hmind, hservices]
  rfl

theorem Plays.reloaded (hb : b.Plays S p) {q : Program} (hq : q.Compiled)
    {svc : Option (Services (Stage (Mind W)))} (hsvc : ∀ svc' ∈ svc, svc'.Works S)
    (values : List (String × Value)) : (b.reloaded q svc values).Plays S q := by
  have hworks : (svc.getD b.services).Works S := by
    cases svc with
    | none => exact hb.services
    | some svc' => exact hsvc svc' rfl
  refine ⟨hq, rfl, hworks, hosts_create hq hworks _ _ ?_⟩
  obtain ⟨hsame, hdistinct, hfilled⟩ := restore_eq (W := W)
    { program := q, rules := Mind.rulesOf q, clock := b.mind.clock, faults := b.mind.faults,
      world := b.mind.world } values
  refine Plays.start (by rw [hsame]) (by rw [hsame]) (hdistinct List.nodup_nil) (fun id hid => ?_)
    (b.landing_range hq)
  rcases hfilled id hid with hbefore | hglobal
  · exact absurd hbefore List.not_mem_nil
  · rw [hsame]
    exact hglobal.congr rfl

theorem Plays.request (hb : b.Plays S p) {r : Request W} (hr : r.Works S) :
    (∃ q b', r.perform b = .ok b' ∧ b'.Plays S q ∧ (q = p ∨ ∃ svc, r = .reload q svc)) ∨
      ∃ c, r.perform b = .error c ∧ r.Fails S b c := by
  cases r with
  | ask c =>
    obtain ⟨b', h, hb'⟩ | hcrash := hb.command hr
    · exact .inl ⟨p, b', h, hb', .inl rfl⟩
    · exact .inr hcrash
  | reload q svc =>
    obtain ⟨hq, hsvc⟩ := hr
    unfold Request.perform
    dsimp only
    rw [b.reload_eq hq.check svc]
    cases b.isStopped with
    | true => exact .inl ⟨p, b, rfl, hb, .inl rfl⟩
    | false =>
      obtain ⟨values, hcarried, -⟩ | ⟨func, id, hallowed, hnone, hcarried⟩ := hb.carried
      · rw [hcarried]
        exact .inl ⟨q, _, rfl, hb.reloaded hq hsvc values, .inr ⟨svc, rfl⟩⟩
      · rw [hcarried]
        rw [← hb.program] at hallowed hnone
        exact .inr ⟨_, rfl, .noVariable hallowed hnone⟩

/-- The program of a brain, after any requests, is the first one or one that was asked for. -/
def InPlay (p : Program) (rs : List (Request W)) (q : Program) : Prop :=
  q = p ∨ ∃ svc, Request.reload q svc ∈ rs

/-- What requests keep. If they crash, there is a first one that does, after others have been done. -/
theorem Plays.requests (hb : b.Plays S p) {rs : List (Request W)} (hrs : ∀ r ∈ rs, r.Works S) :
    (∃ q b', Request.performAll rs b = .ok b' ∧ b'.Plays S q) ∨
      ∃ before r after b₁ c, rs = before ++ r :: after ∧ Request.performAll before b = .ok b₁ ∧
        InPlay p before b₁.program ∧ r.Fails S b₁ c ∧ Request.performAll rs b = .error c := by
  induction rs generalizing p b with
  | nil => exact .inl ⟨p, b, rfl, hb⟩
  | cons r rs ih =>
    obtain ⟨hr, hrs⟩ := List.forall_mem_cons.mp hrs
    obtain ⟨p₁, b₁, h, hb₁, hp₁⟩ | ⟨c, h, hfails⟩ := hb.request hr
    · obtain ⟨q, b', hrest, hb'⟩ | ⟨before, r', after, b₂, c, rfl, hbefore, hplay, hfails, hrest⟩ :=
        ih hb₁ hrs
      · exact .inl ⟨q, b', by rw [Request.performAll, h]; exact hrest, hb'⟩
      · refine .inr ⟨r :: before, r', after, b₂, c, rfl, ?_, ?_, hfails, ?_⟩
        · rw [Request.performAll, h]
          exact hbefore
        · rcases hplay with hsame | ⟨svc, hmem⟩
          · rcases hp₁ with rfl | ⟨svc, rfl⟩
            · exact .inl hsame
            · exact .inr ⟨svc, by rw [hsame]; exact List.mem_cons_self⟩
          · exact .inr ⟨svc, List.mem_cons_of_mem _ hmem⟩
        · rw [Request.performAll, h]
          exact hrest
    · refine .inr ⟨[], r, rs, b, c, rfl, rfl, .inl hb.program, hfails, ?_⟩
      rw [Request.performAll, h]

end Brain

theorem works_shadowingEnv (S : Program → Int → Int → Prop) : shadowingEnv.services.Works S :=
  services_shadowingEnv Core.works_services fun hinstall =>
    Builtins.works_install Core.works_services hinstall

-- Host code may set any number; one that is no variable brings down the next change of programs.
example : (compile shadowingEnv turningBrain).toOption.any (fun r =>
    (Brain.create r.1 shadowingEnv.services {} {} ()).toOption.any fun b =>
      match Brain.Request.performAll
        [.ask (.operate (.act fun s => { s with host := s.host.store (-1) 7 .nil })), .reload r.1 none] b with
      | .error c => decide (c = .noVariable 7)
      | .ok _ => false) = true := by
  decide +kernel

end TileMind
