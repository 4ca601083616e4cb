import TileMind.Proofs.Code.Emits

/-!
# TileMind.Proofs.Code.Assembled

Whatever the rows say, the program assembled from a plan passes its check: every operand was taken
from a table that only grows afterwards, and every jump stays inside its function.

* `assemble` is what compilation puts together before the check.
* `PlanOf.has`: every instruction finds what it refers to.
* `assembled_check`: the check succeeds.
-/

namespace TileMind

/-! ## References -/

/-- Everything that an instruction refers to by number is there. -/
structure Program.Has (p : Program) (i : Instr) : Prop where
  constant : i.op? = some .pushConst ∨ i.op? = some .mapNew →
    ∃ slot : Nat, i.a = Int32.ofInt slot ∧ slot < p.constants.size
  var : i.op? = some .loadVar ∨ i.op? = some .storeVar →
    ∃ id : Nat, i.a = Int32.ofInt id ∧ id < p.vars.length
  function : i.op? = some .call → ∃ func : Nat, i.a = Int32.ofInt func ∧ func < p.functions.size

/-- All numbers fit into an operand. -/
structure Program.Small (p : Program) : Prop where
  functions : p.functions.size < 2 ^ 31
  constants : p.constants.size < 2 ^ 31
  vars : p.vars.length < 2 ^ 31
  code : ∀ fn ∈ p.functions, fn.code.size < 2 ^ 31

instance (p : Program) : Decidable p.Small :=
  decidable_of_iff (p.functions.size < 2 ^ 31 ∧ p.constants.size < 2 ^ 31 ∧ p.vars.length < 2 ^ 31 ∧
    ∀ fn ∈ p.functions, fn.code.size < 2 ^ 31)
    ⟨fun h => ⟨h.1, h.2.1, h.2.2.1, h.2.2.2⟩, fun h => ⟨h.functions, h.constants, h.vars, h.code⟩⟩

namespace Program

variable {p : Program}

theorem inBounds_ofInt {a : Int32} {k n : Nat} (ha : a = Int32.ofInt k) (hk : k < n)
    (hn : n < 2 ^ 31) : inBounds a.toInt n = true := by
  rw [ha, toInt_ofInt_of_lt (by omega)]
  simp [inBounds]
  omega

theorem checkInstr_eq_ok (hp : p.Small) {length : Nat} {site : Site} {i : Instr} (h : p.Has i)
    (hjump : i.isJump = true → 0 ≤ site.pc + i.a.toInt ∧ site.pc + i.a.toInt ≤ length) :
    p.checkInstr length site i = .ok () := by
  unfold checkInstr
  dsimp only
  split
  · rename_i hop
    obtain ⟨slot, ha, hlt⟩ := h.constant (.inl hop)
    rw [if_pos (inBounds_ofInt ha hlt hp.constants)]
  · rename_i hop
    obtain ⟨slot, ha, hlt⟩ := h.constant (.inr hop)
    rw [if_pos (inBounds_ofInt ha hlt hp.constants)]
  · rename_i hop
    obtain ⟨id, ha, hlt⟩ := h.var (.inl hop)
    rw [if_pos (inBounds_ofInt ha hlt hp.vars)]
  · rename_i hop
    obtain ⟨id, ha, hlt⟩ := h.var (.inr hop)
    rw [if_pos (inBounds_ofInt ha hlt hp.vars)]
  · rename_i hop
    obtain ⟨func, ha, hlt⟩ := h.function hop
    rw [if_pos (inBounds_ofInt ha hlt hp.functions)]
  · rename_i op _ _ _ _ _ hop
    rw [if_neg]
    intro hbad
    rw [Bool.and_eq_true] at hbad
    have := hjump (by simp [Instr.isJump, hop, hbad.1])
    simp [this] at hbad
  · rfl

theorem check_eq_ok (hversion : p.version = currentVersion)
    (hentry : p.pages = [] ∨ inBounds p.entry p.pages.length = true)
    (hcode : ∀ (func : Nat) fn (k : Nat) i, p.functions[func]? = some fn → fn.code[k]? = some i →
      p.checkInstr fn.code.size ⟨func, k⟩ i = .ok ())
    (hroots : ∀ page ∈ p.pages, ∀ func ∈ page.roots, inBounds func p.functions.size = true) :
    p.check = .ok () := by
  refine (firstError_eq_ok_iff _).mpr fun c hc => ?_
  rcases List.mem_append.mp hc with hc | hc
  · rcases List.mem_append.mp hc with hc | hc
    · simp only [List.mem_cons, List.not_mem_nil, or_false] at hc
      rcases hc with rfl | rfl
      · rw [checkVersion, if_pos hversion]
      · rw [if_pos]
        rcases hentry with hpages | hentry
        · simp [hpages]
        · simp [hentry]
    · obtain ⟨⟨fn, func⟩, hfn, rfl⟩ := List.mem_map.mp hc
      rw [List.mem_zipIdx_iff_getElem?, Array.getElem?_toList] at hfn
      refine (firstError_eq_ok_iff _).mpr fun c hc => ?_
      obtain ⟨⟨i, k⟩, hi, rfl⟩ := List.mem_map.mp hc
      rw [List.mem_zipIdx_iff_getElem?, Array.getElem?_toList] at hi
      exact hcode func fn k i hfn hi
  · obtain ⟨page, hpage, rfl⟩ := List.mem_map.mp hc
    refine (firstError_eq_ok_iff _).mpr fun c hc => ?_
    obtain ⟨func, hfunc, rfl⟩ := List.mem_map.mp hc
    rw [if_pos (hroots page hpage func hfunc)]

end Program

/-! ## Variables -/

theorem Names.Gains.id_lt {n n' : Names} {added : Locals} (h : n.Gains added n')
    {b : String × Binding} (hb : b ∈ added) : b.2.id < n'.list.length := by
  have hid := List.mem_map_of_mem (f := fun b : String × Binding => b.2.id) hb
  rw [h.ids, List.mem_range'_1] at hid
  rw [h.list, List.length_append, List.length_map]
  exact hid.2

theorem forall₂_getElem? {α β : Type} {R : α → β → Prop} {xs : List α} {ys : List β}
    (h : List.Forall₂ R xs ys) {k : Nat} {x : α} (hx : xs[k]? = some x) :
    ∃ y, ys[k]? = some y ∧ R x y := by
  induction h generalizing k with
  | nil => simp at hx
  | cons hxy _ ih =>
    cases k with
    | zero =>
      simp only [List.getElem?_cons_zero, Option.some.injEq] at hx
      subst hx
      exact ⟨_, rfl, hxy⟩
    | succ k => exact ih hx

section

variable {σ : Type} {env : CompileEnv σ} {d : BrainDef} {p : Plan} {g : Generated}

/-- All variables in the end: the globals that are declared, the locals rule by rule, and the globals
that nobody declares. -/
theorem PlanOf.names_of_extends (h : PlanOf env d p)
    (hg : Generated.Extends { names := p.names, diags := p.diags } g) :
    ∃ implicit, g.names.globals = p.names.globals ++ implicit ∧
      Names.Gains {} (p.names.globals ++ p.jobs.flatMap RuleJob.own ++ implicit) g.names ∧
      ∀ b ∈ implicit, b.2.isDeclared = false := by
  obtain ⟨implicit, hglobals, hgains, hundeclared⟩ := hg.names
  exact ⟨implicit, hglobals, h.names.append hgains, hundeclared⟩

theorem Planned.mem_owns {owns : List Locals} {job : RuleJob} {q : Place}
    (h : Planned env owns job q) (hown : job.own ∈ owns) {locals : Locals} (hl : locals ∈ job.chain) :
    locals ∈ owns := by
  obtain ⟨outer, hchain, hscopes⟩ := h.chain
  rw [hchain] at hl
  rcases List.mem_cons.mp hl with rfl | hl
  · exact hown
  · obtain ⟨k, hk⟩ := List.mem_iff_getElem?.mp hl
    obtain ⟨n, -, hn⟩ := forall₂_getElem? hscopes.flip hk
    exact List.mem_of_getElem? hn

/-- What a name of a rule resolves to is one of the variables, and has that name. -/
theorem PlanOf.mem_of_resolves (h : PlanOf env d p)
    (hg : Generated.Extends { names := p.names, diags := p.diags } g) {job : RuleJob}
    (hjob : job ∈ p.jobs) {name : String} {id : Nat} (hr : g.names.Resolves job.chain name id) :
    ∃ all b, Names.Gains {} all g.names ∧ (name, b) ∈ all ∧ b.id = id := by
  obtain ⟨implicit, hglobals, hgains, -⟩ := h.names_of_extends hg
  refine ⟨p.names.globals ++ p.jobs.flatMap RuleJob.own ++ implicit, ?_⟩
  rcases hr with hr | ⟨-, hr⟩
  · obtain ⟨b, hb, rfl⟩ := Option.map_eq_some_iff.mp hr
    obtain ⟨locals, hlocals, hlookup⟩ := List.exists_of_findSome?_eq_some hb
    obtain ⟨k, hk⟩ := List.mem_iff_getElem?.mp hjob
    obtain ⟨q, -, hq⟩ := forall₂_getElem? h.planned hk
    have howns := hq.mem_owns (List.mem_map_of_mem hjob) hlocals
    obtain ⟨owner, howner, rfl⟩ := List.mem_map.mp howns
    refine ⟨b, hgains, List.mem_append_left _ (List.mem_append_right _ ?_), rfl⟩
    exact List.mem_flatMap.mpr ⟨owner, howner, mem_of_lookup_eq_some hlookup⟩
  · obtain ⟨b, hb, rfl⟩ := Option.map_eq_some_iff.mp hr
    have hmem := mem_of_lookup_eq_some hb
    rw [hglobals] at hmem
    refine ⟨b, hgains, ?_, rfl⟩
    rcases List.mem_append.mp hmem with hmem | hmem <;> simp [hmem]

theorem PlanOf.resolves_lt (h : PlanOf env d p)
    (hg : Generated.Extends { names := p.names, diags := p.diags } g) {job : RuleJob}
    (hjob : job ∈ p.jobs) {name : String} {id : Nat} (hr : g.names.Resolves job.chain name id) :
    id < g.names.list.length := by
  obtain ⟨all, b, hgains, hmem, rfl⟩ := h.mem_of_resolves hg hjob hr
  exact hgains.id_lt hmem

/-! ## Assembled programs -/

variable (env)

/-- The program of a plan, before it is checked. -/
def assemble (pages : List PageInfo) (entry : Int) (plan : Plan) : Program × Diagnostics :=
  let start : Progress := { generated := { names := plan.names, diags := plan.diags } }
  let (functions, sites, p) := resolveEach (resolvedRule env) plan.jobs start
  ({ version := Program.currentVersion
     functions := functions.toArray
     constants := p.generated.pool.values
     vars := p.generated.names.list
     entry := entry
     ruleIndex := .ofList (plan.jobs.map fun job => (job.path, (job.func : Int)))
     pages := pages.zipIdx.map fun (page, i) =>
       { page with sites := (sites.filter fun s => s.1 = i).map Prod.snd }
     rules := plan.jobs.map RuleJob.info }, p.generated.diags)

/-- What a definition compiles to, before it is checked. -/
def assembled (d : BrainDef) : Except CompileError (Program × Diagnostics) :=
  (plan env d).map fun (pages, entry, plan) => assemble env pages entry plan

theorem compile_eq (d : BrainDef) :
    compile env d = (assembled env d).bind fun r =>
      match r.1.check with
      | .ok _ => .ok r
      | .error e => .error (.invalid e) := by
  unfold compile assembled
  cases plan env d with
  | error e => rfl
  | ok planned =>
    simp only [bind, Except.bind, compileRules_eq]
    rfl

/-- The function of a rule, with what was generated before it, by it and in the end. -/
theorem assemble_function (pages : List PageInfo) (entry : Int) {k : Nat} {job : RuleJob}
    (hk : p.jobs[k]? = some job) :
    ∃ q, Generated.Extends { names := p.names, diags := p.diags } q.generated ∧
      (assemble env pages entry p).1.functions[k]? = some (resolvedRule env job q).1 ∧
      ∃ g, (resolvedRule env job q).2.generated.Extends g ∧
        (assemble env pages entry p).1.constants = g.pool.values ∧
        (assemble env pages entry p).1.vars = g.names.list := by
  obtain ⟨-, -, hall⟩ := resolveEach_spec env p.jobs
    { generated := { names := p.names, diags := p.diags } }
  obtain ⟨q, hq, hfn, hfinal⟩ := hall k job hk
  refine ⟨q, hq, ?_, _, hfinal, rfl, rfl⟩
  unfold assemble
  dsimp only
  rw [List.getElem?_toArray]
  exact hfn

theorem size_functions_assemble (pages : List PageInfo) (entry : Int) :
    (assemble env pages entry p).1.functions.size = p.jobs.length := by
  obtain ⟨hlen, -⟩ := resolveEach_spec env p.jobs
    { generated := { names := p.names, diags := p.diags } }
  exact hlen

theorem job_of_function {pages : List PageInfo} {entry : Int} {k : Nat} {fn : Function}
    (hf : (assemble env pages entry p).1.functions[k]? = some fn) : ∃ job, p.jobs[k]? = some job := by
  obtain ⟨hlt, -⟩ := Array.getElem?_eq_some_iff.mp hf
  rw [size_functions_assemble] at hlt
  exact ⟨_, List.getElem?_eq_getElem hlt⟩

theorem Program.has_of {p : Program} {op : Op} (hop : op.isFree = true ∨ op.inRow = false)
    (hcall : op ≠ .call) (a b c : Int) : p.Has (.of op a b c) := by
  constructor <;> intro h <;> simp only [Instr.op?_of, Option.some.injEq] at h
  · rcases h with rfl | rfl <;> rcases hop with hop | hop <;> cases hop
  · rcases h with rfl | rfl <;> rcases hop with hop | hop <;> cases hop
  · exact absurd h hcall

/-- Code of rows refers to what is there in the end. -/
theorem Emits.has {chain : Chain} {g g' final : Generated} {c : List Instr} {us : List (Op × String)}
    (h : Emits chain g c us g') (hpool : g.pool.InRange) (hfinal : g'.Extends final) {p : Program}
    (hconstants : p.constants = final.pool.values)
    (hvars : ∀ name id, final.names.Resolves chain name id → id < p.vars.length)
    {i : Instr} (hi : i ∈ c) : p.Has i := by
  refine ⟨fun hop => ?_, fun hop => ?_, fun hop => ?_⟩
  · obtain ⟨slot, ha, hlt⟩ := h.constant hpool hi hop
    have := hfinal.values.length_le
    simp only [Array.length_toList] at this
    exact ⟨slot, ha, by rw [hconstants]; omega⟩
  · have hvar : i ∈ c.filter Instr.isVar := List.mem_filter.mpr ⟨hi, by simpa [Instr.isVar] using hop⟩
    obtain ⟨k, hk⟩ := List.mem_iff_getElem?.mp hvar
    obtain ⟨u, -, id, hid, hr⟩ := forall₂_getElem? h.vars hk
    exact ⟨id, by rw [hid, Instr.a_of], hvars u.2 id (hr.mono hfinal.globals)⟩
  · obtain ⟨op, hop', hrow⟩ := h.inRow hi
    rw [hop, Option.some.injEq] at hop'
    subst hop'
    cases hrow

theorem has_childrenCode {p : Program} (isolate : Bool) {children : List Nat}
    (h : ∀ child ∈ children, child < p.functions.size) {i : Instr}
    (hi : i ∈ childrenCode isolate children) : p.Has i := by
  obtain ⟨child, hchild, hi⟩ := List.mem_flatMap.mp hi
  have hcall : p.Has (.of .call child 0) := by
    refine ⟨by simp, by simp, fun _ => ⟨child, by rw [Instr.a_of], h child hchild⟩⟩
  have hpop : p.Has (.of .pop) := Program.has_of (.inl rfl) (by simp) 0 0 0
  have htry : p.Has (.of .try 4) := Program.has_of (.inr rfl) (by simp) 4 0 0
  have hend : p.Has (.of .endTry) := Program.has_of (.inr rfl) (by simp) 0 0 0
  split at hi <;> simp only [List.mem_cons, List.not_mem_nil, or_false] at hi
  · rcases hi with rfl | rfl | rfl | rfl <;> assumption
  · rcases hi with rfl | rfl <;> assumption

theorem has_ruleCode {p : Program} {cond action children : List Instr}
    (hcond : ∀ i ∈ cond, p.Has i) (haction : ∀ i ∈ action, p.Has i)
    (hchildren : ∀ i ∈ children, p.Has i) : ∀ i ∈ ruleCode cond action children, p.Has i := by
  intro i hi
  simp only [ruleCode, List.mem_append, List.mem_cons, List.not_mem_nil, or_false] at hi
  rcases hi with (((((rfl | hi) | rfl | rfl) | hi) | rfl) | hi) | rfl
  · exact Program.has_of (.inr rfl) (by simp) _ _ _
  · exact hcond i hi
  · exact Program.has_of (.inr rfl) (by simp) _ _ _
  · exact Program.has_of (.inr rfl) (by simp) _ _ _
  · exact haction i hi
  · exact Program.has_of (.inr rfl) (by simp) _ _ _
  · exact hchildren i hi
  · exact Program.has_of (.inr rfl) (by simp) _ _ _

variable {env}

theorem PlanOf.child_lt (h : PlanOf env d p) {k : Nat} {job : RuleJob} (hk : p.jobs[k]? = some job)
    {child : Nat} (hchild : child ∈ job.children) : child < p.jobs.length := by
  obtain ⟨q, hq, hplanned⟩ := forall₂_getElem? h.planned hk
  rw [hplanned.children, d.childNumbers_places (List.mem_of_getElem? hq)] at hchild
  obtain ⟨place, hplace, rfl⟩ := List.mem_map.mp hchild
  obtain ⟨n, hn⟩ := List.mem_iff_getElem?.mp (List.mem_of_mem_filter hplace)
  rw [d.number_places hn, h.planned.length_eq]
  exact (List.getElem?_eq_some_iff.mp hn).1

theorem PlanOf.has (h : PlanOf env d p) {pages : List PageInfo} {entry : Int} {k : Nat}
    {fn : Function} (hf : (assemble env pages entry p).1.functions[k]? = some fn) {i : Instr}
    (hi : i ∈ fn.code.toList) : (assemble env pages entry p).1.Has i := by
  obtain ⟨job, hk⟩ := job_of_function env hf
  obtain ⟨q, hq, hfn, final, hfinal, hconstants, hvars⟩ := assemble_function env pages entry hk
  rw [hf, Option.some.injEq] at hfn
  subst hfn
  obtain ⟨_, _, _, _, cond, action, g, -, -, hcode, -, -, hcond, haction⟩ := resolvedRule_emits env job q
  have hpool : q.generated.pool.InRange := hq.inRange (by intro _ _ hslot; cases hslot)
  have hall := hq.trans ((hcond.extends.trans haction.extends).trans hfinal)
  have hlt (name : String) (id : Nat) (hr : final.names.Resolves job.chain name id) :
      id < (assemble env pages entry p).1.vars.length := by
    rw [hvars]
    exact h.resolves_lt hall (List.mem_of_getElem? hk) hr
  rw [hcode, List.toList_toArray] at hi
  refine has_ruleCode (fun i hi => hcond.has hpool (haction.extends.trans hfinal) hconstants hlt hi)
    (fun i hi => haction.has (hcond.extends.inRange hpool) hfinal hconstants hlt hi)
    (fun i hi => has_childrenCode _ (fun child hchild => ?_) hi) i hi
  rw [size_functions_assemble]
  exact h.child_lt hk hchild

/-! ## The check -/

theorem Adds.target {body : List Instr} (h : Adds body 0 0)
    (hsize : (body ++ [Instr.of .ret]).length < 2 ^ 31) {k : Nat} {i : Instr}
    (hi : (body ++ [Instr.of .ret])[k]? = some i) (hj : i.isJump = true) :
    0 ≤ (k : Int) + i.a.toInt ∧ (k : Int) + i.a.toInt ≤ (body ++ [Instr.of .ret]).length := by
  rw [List.length_append, List.length_singleton] at hsize ⊢
  by_cases hk : k < body.length
  · rw [List.getElem?_append_left hk] at hi
    obtain ⟨dist, -, ha, hle, -⟩ := (h.balanced k i hi).jump hj
    rw [ha, toInt_ofInt_of_lt (by omega)]
    omega
  · obtain ⟨j, rfl⟩ := Nat.exists_eq_add_of_le (Nat.le_of_not_lt hk)
    rw [List.getElem?_append_right (by omega), Nat.add_sub_cancel_left] at hi
    obtain ⟨-, rfl⟩ : j = 0 ∧ Instr.of .ret = i := by
      cases j with
      | zero => simpa using hi
      | succ j => simp at hi
    simp [Op.isJump] at hj

theorem mem_pageInfos {info : PageInfo} (h : info ∈ d.pageInfos) :
    ∃ (k : Nat) (page : PageDef), d.pages[k]? = some page ∧
      info = page.info k ((d.places.filter (Place.isRoot k)).map Place.number) := by
  obtain ⟨k, hk⟩ := List.mem_iff_getElem?.mp h
  have hlt := (List.getElem?_eq_some_iff.mp hk).1
  rw [BrainDef.pageInfos, length_pageInfos] at hlt
  have hpage := List.getElem?_eq_getElem hlt
  refine ⟨k, d.pages[k], hpage, ?_⟩
  rw [BrainDef.getElem?_pageInfos hpage, Option.some.injEq] at hk
  exact hk.symm

theorem entryPage_inBounds {entry : Int} (h : entryPage d.pageInfos d.entry = .ok entry) :
    d.pages = [] ∨ Program.inBounds entry d.pages.length = true := by
  unfold entryPage at h
  split at h
  · cases h
    cases hpages : d.pages with
    | nil => exact .inl rfl
    | cons page pages => exact .inr (by simp [Program.inBounds])
  · split at h
    · rename_i index hindex
      cases h
      obtain ⟨info, hinfo, rfl⟩ := Option.map_eq_some_iff.mp hindex
      obtain ⟨k, page, hpage, rfl⟩ := mem_pageInfos (List.mem_reverse.mp (List.mem_of_find?_eq_some hinfo))
      right
      have := (List.getElem?_eq_some_iff.mp hpage).1
      simpa [Program.inBounds, PageDef.info] using this
    · cases h

/-- What is assembled from a plan passes the check. -/
theorem assembled_check (h : PlanOf env d p) {entry : Int}
    (hentry : entryPage d.pageInfos d.entry = .ok entry)
    (hsmall : (assemble env d.pageInfos entry p).1.Small) :
    (assemble env d.pageInfos entry p).1.check = .ok () := by
  have hpages : (assemble env d.pageInfos entry p).1.pages.length = d.pages.length := by
    simp [assemble, BrainDef.pageInfos, length_pageInfos]
  refine Program.check_eq_ok rfl ?_ ?_ ?_
  · rw [hpages]
    rcases entryPage_inBounds hentry with hnil | hin
    · exact .inl (List.eq_nil_of_length_eq_zero (by rw [hpages, hnil]; rfl))
    · exact .inr hin
  · intro func fn k i hfn hi
    have hmem : i ∈ fn.code.toList := Array.mem_toList_iff.mpr (Array.mem_of_getElem? hi)
    refine Program.checkInstr_eq_ok hsmall (h.has hfn hmem) fun hj => ?_
    obtain ⟨job, hk⟩ := job_of_function env hfn
    obtain ⟨q, -, hfn', -⟩ := assemble_function env d.pageInfos entry hk
    rw [hfn, Option.some.injEq] at hfn'
    subst hfn'
    obtain ⟨body, hcode, hbody, -⟩ := resolvedRule_adds env job q
    have hsize := hsmall.code _ (Array.mem_of_getElem? hfn)
    rw [hcode, List.getElem?_toArray] at hi
    rw [hcode, List.size_toArray] at hsize ⊢
    exact hbody.target hsize hi hj
  · intro page hpage func hfunc
    obtain ⟨⟨info, j⟩, hinfo, rfl⟩ := List.mem_map.mp hpage
    rw [List.mem_zipIdx_iff_getElem?] at hinfo
    obtain ⟨k, page, hpage, rfl⟩ := mem_pageInfos (List.mem_of_getElem? hinfo)
    obtain ⟨root, hroot, rfl⟩ := List.mem_map.mp hfunc
    obtain ⟨place, hplace, rfl⟩ := List.mem_map.mp hroot
    obtain ⟨n, hn⟩ := List.mem_iff_getElem?.mp (List.mem_of_mem_filter hplace)
    have := (List.getElem?_eq_some_iff.mp hn).1
    rw [d.number_places hn, size_functions_assemble, h.planned.length_eq]
    simpa [Program.inBounds] using this

end

end TileMind
