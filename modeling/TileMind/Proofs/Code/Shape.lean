import Mathlib.Logic.Relation
import TileMind.Proofs.Code.Assembled

/-!
# TileMind.Proofs.Code.Shape

Compilation is total apart from two structural errors, and the program has the shape of the rule
tree.

* `filter_isCall_ruleCode`: the only calls in a rule are those of its children.
* `compile_shape`: when a definition is compiled, and how its rules, functions and calls are laid
  out.
-/

namespace TileMind

/-! ## Calls -/

def Instr.isCall (i : Instr) : Bool := i.op? = some .call

/-- The functions that a function calls, in the order of its code. -/
def Function.callees (fn : Function) : List Int :=
  (fn.code.toList.filter Instr.isCall).map fun i => i.a.toInt

theorem Emits.filter_isCall {chain : Chain} {g g' : Generated} {c : List Instr}
    {us : List (Op × String)} (h : Emits chain g c us g') : c.filter Instr.isCall = [] := by
  rw [List.filter_eq_nil_iff]
  intro i hi hcall
  obtain ⟨op, hop, hrow⟩ := h.inRow hi
  rw [Instr.isCall, hop, decide_eq_true_eq, Option.some.injEq] at hcall
  subst hcall
  cases hrow

theorem filter_isCall_childrenCode (isolate : Bool) (children : List Nat) :
    (childrenCode isolate children).filter Instr.isCall =
      children.map fun (child : Nat) => .of .call child 0 := by
  induction children with
  | nil => rfl
  | cons child children ih =>
    have hcons : childrenCode isolate (child :: children) =
        (if isolate then [Instr.of .try 4, .of .call child 0, .of .pop, .of .endTry]
          else [Instr.of .call child 0, .of .pop]) ++ childrenCode isolate children := rfl
    rw [hcons, List.filter_append, ih]
    cases isolate <;> simp [Instr.isCall]

/-- The only calls in a rule are those of its children. -/
theorem filter_isCall_ruleCode {chain : Chain} {g g' g'' : Generated} {cond action : List Instr}
    {us vs : List (Op × String)} (hcond : Emits chain g cond us g')
    (haction : Emits chain g' action vs g'') (isolate : Bool) (children : List Nat) :
    (ruleCode cond action (childrenCode isolate children)).filter Instr.isCall =
      children.map fun (child : Nat) => .of .call child 0 := by
  simp only [ruleCode, List.filter_append, hcond.filter_isCall, haction.filter_isCall,
    filter_isCall_childrenCode]
  simp [Instr.isCall]

/-! ## Programs shaped like rule trees -/

def Program.Calls (p : Program) (caller callee : Nat) : Prop :=
  ∃ fn, p.functions[caller]? = some fn ∧ (callee : Int) ∈ fn.callees

/-- The entry of the rule table for the rule at a place. -/
structure RuleInfo.Describes (r : RuleInfo) (q : Place) : Prop where
  path : r.path = q.path
  func : r.func = q.number
  page : r.page = q.page
  parent : r.parent = (q.parent.map Int.ofNat).getD (-1)

/-- A function compiled from the rows of the rule at a place. -/
def Function.Compiles {σ : Type} (env : CompileEnv σ) (fn : Function) (q : Place) : Prop :=
  ∃ job progress, job.path = q.path ∧ job.whenRow = q.rule.whenRow ∧ job.doRow = q.rule.doRow ∧
    fn = (resolvedRule env job progress).1

/-- A program laid out like the rule tree of a definition. -/
structure TreeShaped {σ : Type} (env : CompileEnv σ) (d : BrainDef) (p : Program) : Prop where
  rules : List.Forall₂ RuleInfo.Describes p.rules d.places
  functions : List.Forall₂ (Function.Compiles env) p.functions.toList d.places
  numbered : ∀ (k : Nat) r, p.rules[k]? = some r → r.func = k
  parents : ∀ r ∈ p.rules, r.parent = -1 ∨
    ∃ parent ∈ p.rules, parent.func = r.parent ∧ r.parent < r.func
  paths : (p.rules.map RuleInfo.path).Nodup
  index : ∀ path func, p.ruleIndex.get? path = some func ↔
    ∃ r ∈ p.rules, r.path = path ∧ r.func = func
  onto : ∀ func : Nat, func < p.functions.size → ∃! path, p.ruleIndex.get? path = some (func : Int)
  calls : ∀ (f : Nat) fn, p.functions[f]? = some fn →
    fn.callees = (p.rules.filter fun r => r.parent = (f : Int)).map RuleInfo.func
  acyclic : ∀ f, ¬ Relation.TransGen p.Calls f f

/-- Whether a key means a page that stands at position `i`. -/
def PageDef.Answers (d : PageDef) (i : Nat) (key : String) : Prop :=
  let id := if d.id = "" then Decimal.digitString i else d.id
  key = id ∨ key = if d.name = "" then id else d.name

section

variable {σ : Type} {env : CompileEnv σ} {d : BrainDef} {p : Plan}

theorem filter_map_of_forall₂ {α β γ : Type} {R : α → β → Prop} {xs : List α} {ys : List β}
    (h : List.Forall₂ R xs ys) {P : α → Bool} {Q : β → Bool} {f : α → γ} {g : β → γ}
    (hR : ∀ x y, R x y → P x = Q y ∧ f x = g y) : (xs.filter P).map f = (ys.filter Q).map g := by
  induction h with
  | nil => rfl
  | cons hxy _ ih =>
    obtain ⟨hP, hf⟩ := hR _ _ hxy
    rw [List.filter_cons, List.filter_cons, hP]
    split
    · rw [List.map_cons, List.map_cons, hf, ih]
    · exact ih

theorem Planned.describes {owns : List Locals} {job : RuleJob} {q : Place}
    (h : Planned env owns job q) : job.info.Describes q := by
  refine ⟨h.path, ?_, ?_, ?_⟩
  · rw [RuleJob.info, h.func]
  · rw [RuleJob.info, h.page]
  · rw [RuleJob.info, h.parent]

theorem PlanOf.describes (h : PlanOf env d p) :
    List.Forall₂ RuleInfo.Describes (p.jobs.map RuleJob.info) d.places := by
  rw [List.forall₂_map_left_iff]
  exact h.planned.imp fun _ _ hq => hq.describes

theorem RuleInfo.Describes.isChild_iff {r : RuleInfo} {q : Place} (h : r.Describes q) (f : Nat) :
    r.parent = (f : Int) ↔ q.isBelow (some f) = true := by
  rw [h.parent, Place.isBelow, decide_eq_true_eq]
  cases q.parent with
  | none => simp
  | some n => simp

theorem parents_of_describes {rules : List RuleInfo}
    (h : List.Forall₂ RuleInfo.Describes rules d.places) {r : RuleInfo} (hr : r ∈ rules) :
    r.parent = -1 ∨ ∃ parent ∈ rules, parent.func = r.parent ∧ r.parent < r.func := by
  obtain ⟨k, hk⟩ := List.mem_iff_getElem?.mp hr
  obtain ⟨q, hq, hdescribes⟩ := forall₂_getElem? h hk
  rcases d.parent_places (List.mem_of_getElem? hq) with ⟨houter, -⟩ | ⟨place, hplace, i, hchild⟩
  · left
    rw [hdescribes.parent, Place.parent, houter]
    rfl
  · right
    obtain ⟨n, hn⟩ := List.mem_iff_getElem?.mp hplace
    obtain ⟨parent, hparent, hdescribes'⟩ := forall₂_getElem? h.flip hn
    have heq : r.parent = place.number := by
      rw [hdescribes.parent, Place.parent, hchild.outer]
      rfl
    refine ⟨parent, List.mem_of_getElem? hparent, hdescribes'.func.trans heq.symm, ?_⟩
    rw [heq, hdescribes.func]
    exact_mod_cast hchild.lt

theorem PlanOf.callees (h : PlanOf env d p) {pages : List PageInfo} {entry : Int}
    (hsmall : (assemble env pages entry p).1.Small) {f : Nat} {fn : Function}
    (hf : (assemble env pages entry p).1.functions[f]? = some fn) :
    fn.callees = ((p.jobs.map RuleJob.info).filter fun r => r.parent = (f : Int)).map
      RuleInfo.func := by
  obtain ⟨job, hk⟩ := job_of_function env hf
  obtain ⟨q, -, hfn, -⟩ := assemble_function env pages entry hk
  rw [hf, Option.some.injEq] at hfn
  subst hfn
  obtain ⟨place, hplace, hplanned⟩ := forall₂_getElem? h.planned hk
  obtain ⟨_, _, _, _, cond, action, g, -, -, hcode, -, -, hcond, haction⟩ := resolvedRule_emits env job q
  have hnumber := d.number_places hplace
  have hfilter : ((p.jobs.map RuleJob.info).filter fun r => r.parent = (f : Int)).map RuleInfo.func =
      (d.places.filter (Place.isBelow (some f))).map fun q => (q.number : Int) := by
    refine filter_map_of_forall₂ h.describes fun r q hr => ⟨?_, hr.func⟩
    rw [Bool.eq_iff_iff, decide_eq_true_eq]
    exact hr.isChild_iff f
  have hchildren := d.childNumbers_places (List.mem_of_getElem? hplace)
  rw [hnumber] at hchildren
  rw [hfilter, Function.callees, hcode, List.toList_toArray, filter_isCall_ruleCode hcond haction,
    List.map_map, hplanned.children, hnumber, hchildren, List.map_map]
  refine List.map_congr_left fun q hq => ?_
  -- A number of a rule fits into the operand.
  have hlt : q.number < 2 ^ 31 := by
    obtain ⟨n, hn⟩ := List.mem_iff_getElem?.mp (List.mem_of_mem_filter hq)
    have hsize := hsmall.functions
    rw [size_functions_assemble, h.planned.length_eq] at hsize
    rw [d.number_places hn]
    exact Nat.lt_trans (List.getElem?_eq_some_iff.mp hn).1 hsize
  simp [toInt_ofInt_of_lt hlt]

theorem PlanOf.lt_of_calls (h : PlanOf env d p) {pages : List PageInfo} {entry : Int}
    (hsmall : (assemble env pages entry p).1.Small) {f g : Nat}
    (hfg : (assemble env pages entry p).1.Calls f g) : f < g := by
  obtain ⟨fn, hfn, hmem⟩ := hfg
  rw [h.callees hsmall hfn] at hmem
  obtain ⟨r, hr, hfunc⟩ := List.mem_map.mp hmem
  obtain ⟨hr, hparent⟩ := List.mem_filter.mp hr
  rw [decide_eq_true_eq] at hparent
  rcases parents_of_describes h.describes hr with hroot | ⟨-, -, -, hlt⟩
  · omega
  · omega

theorem PlanOf.functions (h : PlanOf env d p) (pages : List PageInfo) (entry : Int) :
    List.Forall₂ (Function.Compiles env) (assemble env pages entry p).1.functions.toList d.places := by
  rw [List.forall₂_iff_get]
  refine ⟨?_, fun k hk hk' => ?_⟩
  · rw [Array.length_toList, size_functions_assemble, h.planned.length_eq]
  · have hlt : k < p.jobs.length := by rwa [h.planned.length_eq]
    have hjob := List.getElem?_eq_getElem hlt
    obtain ⟨q, -, hfn, -⟩ := assemble_function env pages entry hjob
    obtain ⟨place, hplace, hplanned⟩ := forall₂_getElem? h.planned hjob
    rw [← Array.getElem?_toList, List.getElem?_eq_getElem hk, Option.some.injEq] at hfn
    rw [List.getElem?_eq_getElem hk', Option.some.injEq] at hplace
    refine ⟨p.jobs[k], q, ?_, ?_, ?_, hfn⟩
    · exact hplanned.path.trans (by rw [← hplace]; rfl)
    · exact hplanned.whenRow.trans (by rw [← hplace]; rfl)
    · exact hplanned.doRow.trans (by rw [← hplace]; rfl)

theorem PlanOf.treeShaped (h : PlanOf env d p) {pages : List PageInfo} {entry : Int}
    (hsmall : (assemble env pages entry p).1.Small) :
    TreeShaped env d (assemble env pages entry p).1 := by
  have hrules : (assemble env pages entry p).1.rules = p.jobs.map RuleJob.info := rfl
  have hdescribes := h.describes
  have hpaths : ((p.jobs.map RuleJob.info).map RuleInfo.path).Nodup := by
    rw [map_eq_of_forall₂ hdescribes fun _ _ hr => hr.path]
    exact d.nodup_paths
  have hnumbered (k : Nat) (r : RuleInfo) (hr : (p.jobs.map RuleJob.info)[k]? = some r) :
      r.func = k := by
    obtain ⟨q, hq, hdesc⟩ := forall₂_getElem? hdescribes hr
    rw [hdesc.func, d.number_places hq]
  have hindex (path : String) (func : Int) :
      (assemble env pages entry p).1.ruleIndex.get? path = some func ↔
        ∃ r ∈ p.jobs.map RuleJob.info, r.path = path ∧ r.func = func := by
    have hnodup : ((p.jobs.map fun job => (job.path, (job.func : Int))).map Prod.fst).Nodup := by
      rw [List.map_map] at hpaths ⊢
      exact hpaths
    refine (Fields.get?_ofList hnodup path func).trans ?_
    simp [List.mem_map, RuleJob.info]
  refine ⟨hdescribes, h.functions pages entry, hnumbered,
    fun r hr => parents_of_describes hdescribes hr, hpaths, hindex, ?_,
    fun f fn hf => h.callees hsmall hf, ?_⟩
  · intro func hfunc
    rw [size_functions_assemble] at hfunc
    have hget : (p.jobs.map RuleJob.info)[func]? = some (p.jobs[func]).info := by
      rw [List.getElem?_map, List.getElem?_eq_getElem hfunc]
      rfl
    have hnumber := hnumbered func _ hget
    refine ⟨(p.jobs[func]).info.path, (hindex _ _).mpr
      ⟨_, List.mem_of_getElem? hget, rfl, hnumber⟩, ?_⟩
    intro path hpath
    obtain ⟨r, hr, rfl, hrfunc⟩ := (hindex _ _).mp hpath
    obtain ⟨k, hk⟩ := List.mem_iff_getElem?.mp hr
    have hknum := hnumbered k r hk
    have hkeq : k = func := by omega
    subst hkeq
    rw [hget, Option.some.injEq] at hk
    rw [hk]
  · intro f hcycle
    have hlt : ∀ {f g : Nat}, Relation.TransGen (assemble env pages entry p).1.Calls f g → f < g := by
      intro f g hfg
      induction hfg with
      | single hfg => exact h.lt_of_calls hsmall hfg
      | tail _ hfg ih => exact ih.trans (h.lt_of_calls hsmall hfg)
    exact Nat.lt_irrefl f (hlt hcycle)

theorem entryPage_error_iff (d : BrainDef) :
    (∃ e, entryPage d.pageInfos d.entry = .error e) ↔
      d.entry ≠ "" ∧ ∀ (k : Nat) page, d.pages[k]? = some page → ¬ page.Answers k d.entry := by
  unfold entryPage
  by_cases hkey : d.entry = ""
  · simp [hkey]
  · have hanswers : entryPage? d.pageInfos d.entry = none ↔
        ∀ (k : Nat) page, d.pages[k]? = some page → ¬ page.Answers k d.entry := by
      rw [entryPage?, Option.map_eq_none_iff, List.find?_eq_none]
      constructor
      · intro hnone k page hpage hanswers
        have hmem := List.mem_of_getElem? (BrainDef.getElem?_pageInfos hpage)
        refine hnone _ (List.mem_reverse.mpr hmem) ?_
        rcases hanswers with hid | hname
        · simp [PageDef.info, ← hid]
        · simp [PageDef.info, ← hname]
      · intro hnone info hinfo hmatch
        obtain ⟨k, page, hpage, rfl⟩ := mem_pageInfos (List.mem_reverse.mp hinfo)
        refine hnone k page hpage ?_
        simp only [Bool.or_eq_true, decide_eq_true_eq] at hmatch
        rcases hmatch with hid | hname
        · exact .inl hid.symm
        · exact .inr hname.symm
    rw [if_neg hkey, ← hanswers]
    cases entryPage? d.pageInfos d.entry with
    | none => simp [hkey]
    | some index => simp

/-- Compilation fails exactly if two globals share a name or the entry page does not exist, as long as
all numbers fit into operands; and what it makes is laid out like the rule tree. -/
theorem compile_shape {σ : Type} (env : CompileEnv σ) (d : BrainDef)
    (hsize : ∀ p diags, assembled env d = .ok (p, diags) → p.Small) :
    ((∃ e, compileGiven (some d) (some env) = .error e) ↔
      ¬ (d.globals.map VarDecl.name).Nodup ∨
        d.entry ≠ "" ∧ ∀ (k : Nat) page, d.pages[k]? = some page → ¬ page.Answers k d.entry) ∧
    ∀ p diags, compileGiven (some d) (some env) = .ok (p, diags) → TreeShaped env d p := by
  have hgiven : compileGiven (some d) (some env) = compile env d := rfl
  rw [hgiven, ← entryPage_error_iff, compile_eq]
  unfold assembled at hsize ⊢
  have hcases := plan_cases env d
  by_cases hnodup : (d.globals.map VarDecl.name).Nodup
  · rw [if_pos hnodup] at hcases
    cases hentry : entryPage d.pageInfos d.entry with
    | error e =>
      rw [hentry] at hcases
      dsimp only at hcases
      rw [hcases]
      exact ⟨by simp [Except.map, Except.bind], by simp [Except.map, Except.bind]⟩
    | ok entry =>
      rw [hentry] at hcases
      obtain ⟨p, hp, hplan⟩ := hcases
      rw [hp] at hsize ⊢
      have hsmall := hsize (assemble env d.pageInfos entry p).1 (assemble env d.pageInfos entry p).2 rfl
      have hcheck := assembled_check hplan hentry hsmall
      simp only [Except.map, Except.bind, hcheck]
      refine ⟨by simp [hnodup], ?_⟩
      intro q diags hq
      cases hq
      exact hplan.treeShaped hsmall
  · rw [if_neg hnodup] at hcases
    obtain ⟨name, hname⟩ := hcases
    rw [hname]
    exact ⟨by simp [hnodup, Except.map, Except.bind], by simp [Except.map, Except.bind]⟩

/-- A brain with rules three deep, rows that make no sense and an entry page that is a position. -/
def nestedBrain : BrainDef :=
  { globals := [{ name := "x" }]
    pages := [
      { id := "a"
        rules := [{ whenRow := "((", doRow := "$x = \"", children := [{}, { children := [{}] }] }] },
      { rules := [{}] }]
    entry := "1" }

def bareEnv : CompileEnv Unit := { services := {}, catalog := {} }

theorem compile_shape_nestedBrain :
    ∃ p diags, compileGiven (some nestedBrain) (some bareEnv) = .ok (p, diags) ∧
      TreeShaped bareEnv nestedBrain p ∧ p.rules.length = 5 := by
  have hsmall : (assembled bareEnv nestedBrain).toOption.all (fun r => decide r.1.Small) = true := by
    decide +kernel
  have hsize : ∀ p diags, assembled bareEnv nestedBrain = .ok (p, diags) → p.Small := by
    intro p diags h
    rw [h] at hsmall
    simpa [Except.toOption] using hsmall
  obtain ⟨herror, hshape⟩ := compile_shape bareEnv nestedBrain hsize
  cases hc : compileGiven (some nestedBrain) (some bareEnv) with
  | error e =>
    rcases herror.mp ⟨e, hc⟩ with hnodup | ⟨-, hentry⟩
    · exact absurd (by decide) hnodup
    · exact absurd (.inl (by decide)) (hentry 1 _ rfl)
  | ok r =>
    obtain ⟨p, diags⟩ := r
    refine ⟨p, diags, rfl, hshape p diags hc, ?_⟩
    rw [(hshape p diags hc).rules.length_eq]
    decide

end

end TileMind
