import TileMind.Proofs.Code.Places
import TileMind.Proofs.Value.Lookup

/-!
# TileMind.Proofs.Code.Plan

What the plan of a definition holds. Planning threads the numbers of variables and the list of rules
through the whole tree; read off at the end, the rules are the places of the definition, each sees
its own locals and those of the rules around it, and the variables are numbered in the order in which
they are listed.

* `Names.Gains`: some variables were added and numbered in turn.
* `Declares`: the variables of one place are those that are declared there.
* `plan_cases`: what a plan is like, and when there is none.
-/

namespace TileMind

/-! ## Variables -/

/-- The variables `added` came to `n`, numbered in turn. -/
structure Names.Gains (n : Names) (added : Locals) (n' : Names) : Prop where
  list : n'.list = n.list ++ added.map Prod.fst
  ids : added.map (fun b => b.2.id) = List.range' n.list.length added.length

namespace Names

theorem Gains.refl (n : Names) : n.Gains [] n := ⟨by simp, rfl⟩

theorem Gains.append {n n' n'' : Names} {first second : Locals} (h : n.Gains first n')
    (h' : n'.Gains second n'') : n.Gains (first ++ second) n'' := by
  refine ⟨by rw [h'.list, h.list, List.map_append, List.append_assoc], ?_⟩
  have hlen : n'.list.length = n.list.length + first.length := by
    rw [h.list, List.length_append, List.length_map]
  rw [List.map_append, h.ids, h'.ids, hlen, List.length_append, List.range'_append_1]

theorem gains_add (n : Names) (name : String) (type : TypeId) (isDeclared : Bool) :
    n.Gains [(name, ⟨n.list.length, type, isDeclared⟩)] (n.add name).2 :=
  ⟨rfl, rfl⟩

theorem gains_addGlobal (n : Names) (name : String) (type : TypeId) (isDeclared : Bool) :
    n.Gains [(name, ⟨n.list.length, type, isDeclared⟩)] (n.addGlobal name type isDeclared).2 :=
  ⟨rfl, rfl⟩

end Names

section

variable {σ : Type} (env : CompileEnv σ)

/-- The type that a declaration gives. A type that does not exist gives none. -/
def VarDecl.typeIn (v : VarDecl) : TypeId :=
  if v.type ≠ "" ∧ env.services.types.contains v.type then v.type else .unknown

theorem declaredTypeOf_fst (v : VarDecl) (rule : String) (diags : Diagnostics) :
    (declaredTypeOf env v rule diags).1 = v.typeIn env := by
  unfold declaredTypeOf VarDecl.typeIn
  split
  · rw [if_neg (by simp_all)]
  · split
    · rw [if_pos (by simp_all)]
    · rw [if_neg (by simp_all)]

/-- The variables of one place are the first declarations of their names. -/
def Declares (vs : List VarDecl) (locals : Locals) : Prop :=
  ∀ name, (locals.lookup name).map (fun b => (b.type, b.isDeclared)) =
    (vs.find? fun v => v.name = name).map fun v => (v.typeIn env, true)

/-- Declaring locals adds those whose names are new. -/
theorem declareLocals_spec (path : String) (vs : List VarDecl) (locals : Locals) (p : Plan) :
    ∃ added, (declareLocals env path vs locals p).1 = locals ++ added ∧
      (declareLocals env path vs locals p).2.jobs = p.jobs ∧
      (declareLocals env path vs locals p).2.names.globals = p.names.globals ∧
      p.names.Gains added (declareLocals env path vs locals p).2.names ∧
      ∀ name, locals.lookup name = none →
        (added.lookup name).map (fun b => (b.type, b.isDeclared)) =
          (vs.find? fun v => v.name = name).map fun v => (v.typeIn env, true) := by
  induction vs generalizing locals p with
  | nil =>
    rw [declareLocals]
    exact ⟨[], by simp, rfl, rfl, .refl _, fun _ _ => rfl⟩
  | cons v vs ih =>
    rw [declareLocals]
    by_cases hdup : (locals.lookup v.name).isSome
    · rw [if_pos hdup]
      obtain ⟨added, hlocals, hjobs, hglobals, hgains, hdeclares⟩ := ih locals _
      refine ⟨added, hlocals, hjobs, hglobals, hgains, ?_⟩
      intro name hname
      have hne : v.name ≠ name := by
        rintro rfl
        simp [hname] at hdup
      rw [hdeclares name hname, List.find?_cons_of_neg (by simpa using hne)]
    · rw [if_neg hdup]
      dsimp only
      obtain ⟨added, hlocals, hjobs, hglobals, hgains, hdeclares⟩ := ih _ _
      refine ⟨(v.name, ⟨p.names.list.length, (declaredTypeOf env v path p.diags).1, true⟩) :: added, ?_,
        hjobs, hglobals, (p.names.gains_add v.name _ _).append hgains, ?_⟩
      · rw [hlocals, List.append_assoc, List.singleton_append]
        rfl
      · intro name hname
        rw [lookup_cons_eq]
        by_cases heq : name = v.name
        · subst heq
          simp [declaredTypeOf_fst]
        · rw [List.find?_cons_of_neg (by simpa using Ne.symm heq), if_neg heq]
          refine hdeclares name ?_
          rw [List.lookup_append, hname, lookup_cons_eq, if_neg heq]
          rfl

theorem nodup_declareLocals (path : String) (vs : List VarDecl) (locals : Locals) (p : Plan)
    (h : (locals.map Prod.fst).Nodup) :
    ((declareLocals env path vs locals p).1.map Prod.fst).Nodup := by
  induction vs generalizing locals p with
  | nil => rwa [declareLocals]
  | cons v vs ih =>
    rw [declareLocals]
    by_cases hdup : (locals.lookup v.name).isSome
    · rw [if_pos hdup]
      exact ih locals _ h
    · rw [if_neg hdup]
      refine ih _ _ ?_
      have hnew := lookup_eq_none_iff.mp (Option.not_isSome_iff_eq_none.mp hdup)
      rw [List.map_append, List.nodup_append]
      refine ⟨h, List.nodup_singleton _, ?_⟩
      intro name hname other hother
      rw [List.mem_singleton.mp hother]
      rintro rfl
      exact hnew hname

/-- The globals can be declared if their names differ. -/
theorem declareGlobals_spec (vs : List VarDecl) (p : Plan) :
    if (vs.map VarDecl.name).Nodup ∧ ∀ v ∈ vs, p.names.globals.lookup v.name = none then
      ∃ p' added, declareGlobals env vs p = .ok p' ∧ p'.jobs = p.jobs ∧
        p'.names.globals = p.names.globals ++ added ∧ p.names.Gains added p'.names ∧
        Declares env vs added
    else ∃ name, declareGlobals env vs p = .error (.duplicateVariable name) := by
  induction vs generalizing p with
  | nil =>
    rw [if_pos (by simp), declareGlobals]
    exact ⟨p, [], rfl, rfl, by simp, .refl _, fun _ => rfl⟩
  | cons v vs ih =>
    rw [declareGlobals]
    by_cases hdup : (p.names.globals.lookup v.name).isSome
    · rw [if_neg (by rintro ⟨-, h⟩; simp [h v List.mem_cons_self] at hdup), if_pos hdup]
      exact ⟨_, rfl⟩
    · have hnone : p.names.globals.lookup v.name = none := Option.not_isSome_iff_eq_none.mp hdup
      rw [if_neg hdup]
      dsimp only
      -- The names that are left must differ from this one, too.
      have hiff : ((v :: vs).map VarDecl.name).Nodup ∧
          (∀ w ∈ v :: vs, p.names.globals.lookup w.name = none) ↔
          (vs.map VarDecl.name).Nodup ∧ ∀ w ∈ vs,
            (p.names.addGlobal v.name (declaredTypeOf env v "" p.diags).1 true).2.globals.lookup
              w.name = none := by
        simp only [Names.addGlobal, Names.add, List.map_cons, List.nodup_cons, List.mem_map, not_exists, not_and,
          List.forall_mem_cons, List.lookup_append, Option.or_eq_none_iff, hnone, true_and]
        constructor
        · rintro ⟨⟨hne, hnodup⟩, hlookup⟩
          refine ⟨hnodup, fun w hw => ⟨hlookup w hw, ?_⟩⟩
          rw [lookup_cons_eq, if_neg (hne w hw)]
          rfl
        · rintro ⟨hnodup, hlookup⟩
          refine ⟨⟨fun w hw heq => ?_, hnodup⟩, fun w hw => (hlookup w hw).1⟩
          have := (hlookup w hw).2
          rw [lookup_cons_eq, if_pos heq] at this
          cases this
      have hspec := ih { p with
        names := (p.names.addGlobal v.name (declaredTypeOf env v "" p.diags).1 true).2
        diags := (declaredTypeOf env v "" p.diags).2 }
      dsimp only at hspec
      by_cases hok : ((v :: vs).map VarDecl.name).Nodup ∧
          ∀ w ∈ v :: vs, p.names.globals.lookup w.name = none
      · rw [if_pos hok]
        rw [if_pos (hiff.mp hok)] at hspec
        obtain ⟨p', added, hp', hjobs, hglobals, hgains, hdeclares⟩ := hspec
        refine ⟨p', (v.name, ⟨p.names.list.length, (declaredTypeOf env v "" p.diags).1, true⟩) :: added,
          hp', hjobs, ?_, (p.names.gains_addGlobal v.name _ _).append hgains, ?_⟩
        · rw [hglobals]
          simp [Names.addGlobal, Names.add]
        · intro name
          rw [lookup_cons_eq]
          by_cases heq : name = v.name
          · subst heq
            simp [declaredTypeOf_fst]
          · rw [List.find?_cons_of_neg (by simpa using Ne.symm heq), ← hdeclares name, if_neg heq]
      · rw [if_neg hok]
        rwa [if_neg fun h => hok (hiff.mpr h)] at hspec

/-! ## Rules -/

def RuleJob.own (job : RuleJob) : Locals := job.chain.headD []

/-- A chain of scopes belongs to rules of the given numbers. -/
def Scopes (owns : List Locals) (numbers : List Nat) (chain : Chain) : Prop :=
  List.Forall₂ (fun n locals => owns[n]? = some locals) numbers chain

theorem Scopes.mono {owns owns' : List Locals} (h : owns <+: owns') {numbers : List Nat} {chain : Chain}
    (hs : Scopes owns numbers chain) : Scopes owns' numbers chain := by
  obtain ⟨rest, rfl⟩ := h
  refine hs.imp fun n locals hn => ?_
  rw [List.getElem?_append_left (List.getElem?_eq_some_iff.mp hn).1, hn]

/-- A job does the rule at a place, where `owns` are the locals of all rules. -/
structure Planned (owns : List Locals) (job : RuleJob) (q : Place) : Prop where
  path : job.path = q.path
  page : job.page = q.page
  func : job.func = q.number
  parent : job.parent = q.parent
  whenRow : job.whenRow = q.rule.whenRow
  doRow : job.doRow = q.rule.doRow
  children : job.children = childNumbers q.rule.children (q.number + 1)
  locals : job.locals =
    q.rule.locals.map fun v => ((job.own.lookup v.name).map Binding.id).getD 0
  declares : Declares env q.rule.locals job.own
  distinct : (job.own.map Prod.fst).Nodup
  chain : ∃ outer, job.chain = job.own :: outer ∧ Scopes owns q.outer outer

theorem Planned.mono {owns owns' : List Locals} (h : owns <+: owns') {job : RuleJob} {q : Place}
    (hp : Planned env owns job q) : Planned env owns' job q := by
  obtain ⟨outer, hchain, hscopes⟩ := hp.chain
  exact { hp with chain := ⟨outer, hchain, hscopes.mono h⟩ }

/-- The jobs `js` for some places came to a plan, with their locals. -/
structure Plans (p p' : Plan) (js : List RuleJob) (places : List Place) : Prop where
  jobs : p'.jobs = p.jobs ++ js
  globals : p'.names.globals = p.names.globals
  gains : p.names.Gains (js.flatMap RuleJob.own) p'.names
  planned : List.Forall₂ (Planned env (p'.jobs.map RuleJob.own)) js places

variable {env}

theorem Plans.refl (p : Plan) : Plans env p p [] [] := ⟨by simp, rfl, .refl _, .nil⟩

theorem Plans.append {p p' p'' : Plan} {js js' : List RuleJob} {qs qs' : List Place}
    (h : Plans env p p' js qs) (h' : Plans env p' p'' js' qs') :
    Plans env p p'' (js ++ js') (qs ++ qs') := by
  have howns : p'.jobs.map RuleJob.own <+: p''.jobs.map RuleJob.own := by
    rw [h'.jobs, List.map_append]
    exact List.prefix_append _ _
  refine ⟨by rw [h'.jobs, h.jobs, List.append_assoc], h'.globals.trans h.globals, ?_, ?_⟩
  · rw [List.flatMap_append]
    exact h.gains.append h'.gains
  · exact List.rel_append (h.planned.imp fun _ _ => .mono env howns) h'.planned

theorem Plans.length_eq {p p' : Plan} {js : List RuleJob} {qs : List Place}
    (h : Plans env p p' js qs) : p'.jobs.length = p.jobs.length + qs.length := by
  rw [h.jobs, List.length_append, h.planned.length_eq]

theorem Plans.scopes {p p' : Plan} {js : List RuleJob} {qs : List Place} (h : Plans env p p' js qs)
    {outer : List Nat} {chain : Chain} (hs : Scopes (p.jobs.map RuleJob.own) outer chain) :
    Scopes (p'.jobs.map RuleJob.own) outer chain := by
  refine hs.mono ?_
  rw [h.jobs, List.map_append]
  exact List.prefix_append _ _

theorem modify_length_append {α : Type} (f : α → α) (xs : List α) (y : α) (ys : List α) :
    (xs ++ y :: ys).modify xs.length f = xs ++ f y :: ys := by
  induction xs with
  | nil => rfl
  | cons x xs ih => simpa using ih

theorem Plans.rule {p p' : Plan} {job : RuleJob} {js : List RuleJob} {q : Place} {qs : List Place}
    {names : Names} {diags : Diagnostics} (hglobals : names.globals = p.names.globals)
    (hgains : p.names.Gains job.own names)
    (hjob : ∀ owns, p.jobs.map RuleJob.own ++ [job.own] <+: owns →
      Planned env owns { job with children := childNumbers q.rule.children (q.number + 1) } q)
    (h : Plans env { jobs := p.jobs ++ [job], names := names, diags := diags } p' js qs) :
    Plans env p (p'.setChildren p.jobs.length (childNumbers q.rule.children (q.number + 1)))
      ({ job with children := childNumbers q.rule.children (q.number + 1) } :: js) (q :: qs) := by
  have hjobs : (p'.setChildren p.jobs.length (childNumbers q.rule.children (q.number + 1))).jobs =
      p.jobs ++ { job with children := childNumbers q.rule.children (q.number + 1) } :: js := by
    rw [Plan.setChildren, h.jobs, List.append_assoc]
    exact modify_length_append _ p.jobs job js
  have howns : (p'.setChildren p.jobs.length (childNumbers q.rule.children (q.number + 1))).jobs.map
      RuleJob.own = p'.jobs.map RuleJob.own := by
    rw [hjobs, h.jobs]
    simp [RuleJob.own]
  refine ⟨hjobs, h.globals.trans hglobals, hgains.append h.gains, ?_⟩
  rw [howns]
  refine .cons (hjob _ ?_) h.planned
  rw [h.jobs, List.map_append, List.map_append]
  exact List.prefix_append _ _

variable (env)

mutual

theorem planRule_spec (page : Nat) : ∀ (r : RuleDef) (path : String) (outer : List Nat)
    (chain : Chain) (p : Plan), Scopes (p.jobs.map RuleJob.own) outer chain →
    (planRule env page r path outer.head? chain p).1 = p.jobs.length ∧
      ∃ js, Plans env p (planRule env page r path outer.head? chain p).2 js
        (r.places page path outer p.jobs.length)
  | ⟨whenRow, doRow, declared, children⟩, path, outer, chain, p, hchain => by
    obtain ⟨added, hlocals, hjobs, hglobals, hgains, hdeclares⟩ :=
      declareLocals_spec env path declared [] p
    have hdistinct := nodup_declareLocals env path declared [] p List.nodup_nil
    rw [planRule, RuleDef.places]
    generalize declareLocals env path declared [] p = l at hlocals hjobs hglobals hgains hdistinct ⊢
    obtain ⟨own, p₁⟩ := l
    dsimp only at hlocals hjobs hglobals hgains hdistinct ⊢
    rw [List.nil_append] at hlocals
    subst hlocals
    rw [hjobs]
    refine ⟨rfl, ?_⟩
    generalize hjob : ({
        path := path, page := page, func := p.jobs.length, parent := outer.head?
        whenRow := whenRow, doRow := doRow
        locals := declared.map fun v => ((own.lookup v.name).map Binding.id).getD 0
        chain := own :: chain } : RuleJob) = job
    have hown : job.own = own := by rw [← hjob]; rfl
    have hscopes : Scopes ((p.jobs ++ [job]).map RuleJob.own) (p.jobs.length :: outer)
        (own :: chain) := by
      refine .cons ?_ (hchain.mono ?_)
      · simp [hown]
      · rw [List.map_append]
        exact List.prefix_append _ _
    obtain ⟨hfuncs, js, hplans⟩ := planRules_spec page children path 0 (p.jobs.length :: outer)
      (own :: chain) { p₁ with jobs := p.jobs ++ [job] } hscopes
    simp only [List.head?_cons, List.length_append, List.length_singleton] at hfuncs hplans
    rw [hfuncs]
    refine ⟨_, Plans.rule
      (q := ⟨path, page, p.jobs.length, outer, ⟨whenRow, doRow, declared, children⟩⟩)
      hglobals (by rwa [hown]) ?_ hplans⟩
    intro owns howns
    subst hjob
    exact ⟨rfl, rfl, rfl, rfl, rfl, rfl, rfl, rfl, fun name => hdeclares name rfl, hdistinct,
      chain, rfl, hchain.mono ((List.prefix_append _ _).trans howns)⟩
termination_by structural r => r

theorem planRules_spec (page : Nat) : ∀ (rs : List RuleDef) (path : String) (i : Nat)
    (outer : List Nat) (chain : Chain) (p : Plan), Scopes (p.jobs.map RuleJob.own) outer chain →
    (planRules env page rs path i outer.head? chain p).1 = childNumbers rs p.jobs.length ∧
      ∃ js, Plans env p (planRules env page rs path i outer.head? chain p).2 js
        (placesBelow page rs path i outer p.jobs.length)
  | [], path, i, outer, chain, p, _ => by
    rw [planRules]
    exact ⟨rfl, [], .refl p⟩
  | r :: rest, path, i, outer, chain, p, hchain => by
    obtain ⟨hfunc, js, hfirst⟩ := planRule_spec page r (childPath path i) outer chain p hchain
    obtain ⟨hfuncs, js', hrest⟩ := planRules_spec page rest path (i + 1) outer chain _
      (hfirst.scopes hchain)
    rw [hfirst.length_eq, r.length_places] at hfuncs hrest
    rw [planRules, placesBelow, childNumbers]
    dsimp only
    rw [hfunc, hfuncs]
    exact ⟨rfl, js ++ js', hfirst.append hrest⟩
termination_by structural rs => rs

end

/-- What is known of pages before their rules are compiled; `n` is the number of the first rule. -/
def pageInfos : List PageDef → (i : Nat) → (n : Nat) → List PageInfo
  | [], _, _ => []
  | d :: rest, i, n =>
    d.info i (childNumbers d.rules n) :: pageInfos rest (i + 1) (n + countRules d.rules)

/-- The root rules of a page are its rules that have no parent. -/
theorem getElem?_pageInfos {ds : List PageDef} {i n k : Nat} {d : PageDef} (h : ds[k]? = some d) :
    (pageInfos ds i n)[k]? = some (d.info (i + k)
      (((pagePlaces ds i n).filter (Place.isRoot (i + k))).map Place.number)) := by
  induction ds generalizing i n k with
  | nil => simp at h
  | cons c ds ih =>
    rw [pageInfos, pagePlaces, List.filter_append, List.map_append]
    cases k with
    | zero =>
      simp only [List.getElem?_cons_zero, Option.some.injEq] at h
      subst h
      simp only [Nat.add_zero]
      have hlater : (pagePlaces ds (i + 1) (n + countRules c.rules)).filter (Place.isRoot i) = [] := by
        rw [List.filter_eq_nil_iff]
        intro q hq
        have := page_of_mem_pagePlaces hq
        simp only [Place.isRoot, Bool.and_eq_true, decide_eq_true_eq]
        omega
      rw [hlater, filter_isRoot_placesBelow, List.map_nil, List.append_nil, List.getElem?_cons_zero]
    | succ k =>
      rw [List.getElem?_cons_succ] at h
      have hearlier : (placesBelow i c.rules (Decimal.digitString i) 0 [] n).filter
          (Place.isRoot (i + (k + 1))) = [] := by
        rw [List.filter_eq_nil_iff]
        intro q hq
        have := page_of_mem_placesBelow hq
        simp only [Place.isRoot, Bool.and_eq_true, decide_eq_true_eq]
        omega
      rw [hearlier, List.map_nil, List.nil_append, List.getElem?_cons_succ, Nat.add_comm k 1,
        ← Nat.add_assoc]
      exact ih h

theorem length_pageInfos (ds : List PageDef) (i n : Nat) : (pageInfos ds i n).length = ds.length := by
  induction ds generalizing i n with
  | nil => rfl
  | cons d ds ih => rw [pageInfos, List.length_cons, List.length_cons, ih]

theorem planPages_spec (ds : List PageDef) (i : Nat) (p : Plan) :
    (planPages env ds i p).1 = pageInfos ds i p.jobs.length ∧
      ∃ js, Plans env p (planPages env ds i p).2 js (pagePlaces ds i p.jobs.length) := by
  induction ds generalizing i p with
  | nil =>
    rw [planPages]
    exact ⟨rfl, [], .refl p⟩
  | cons d ds ih =>
    obtain ⟨hroots, js, hfirst⟩ :=
      planRules_spec env i d.rules (Decimal.digitString i) 0 [] [] p .nil
    obtain ⟨hpages, js', hrest⟩ := ih (i + 1)
      (planRules env i d.rules (Decimal.digitString i) 0 none [] p).2
    rw [List.head?_nil] at hroots hfirst
    rw [hfirst.length_eq, length_placesBelow] at hpages hrest
    rw [planPages, pageInfos, pagePlaces]
    dsimp only
    rw [hroots, hpages]
    exact ⟨rfl, js ++ js', hfirst.append hrest⟩

/-! ## Whole definitions -/

/-- The pages of a definition, with the numbers of their root rules. -/
def BrainDef.pageInfos (d : BrainDef) : List PageInfo := TileMind.pageInfos d.pages 0 0

theorem BrainDef.getElem?_pageInfos {d : BrainDef} {k : Nat} {page : PageDef}
    (h : d.pages[k]? = some page) : d.pageInfos[k]? =
      some (page.info k ((d.places.filter (Place.isRoot k)).map Place.number)) := by
  have hpage := TileMind.getElem?_pageInfos (i := 0) (n := 0) h
  rwa [Nat.zero_add] at hpage

/-- A plan for a definition. -/
structure PlanOf (d : BrainDef) (p : Plan) : Prop where
  globals : Declares env d.globals p.names.globals
  names : Names.Gains {} (p.names.globals ++ p.jobs.flatMap RuleJob.own) p.names
  planned : List.Forall₂ (Planned env (p.jobs.map RuleJob.own)) p.jobs d.places

/-- Two globals of the same name, or an entry page that does not exist, are all that keeps a
definition from being planned. -/
theorem plan_cases (d : BrainDef) :
    if (d.globals.map VarDecl.name).Nodup then
      match entryPage d.pageInfos d.entry with
      | .ok entry => ∃ p, plan env d = .ok (d.pageInfos, entry, p) ∧ PlanOf env d p
      | .error e => plan env d = .error e
    else ∃ name, plan env d = .error (.duplicateVariable name) := by
  have hglobals := declareGlobals_spec env d.globals {}
  by_cases hnodup : (d.globals.map VarDecl.name).Nodup
  · rw [if_pos ⟨hnodup, fun _ _ => rfl⟩] at hglobals
    rw [if_pos hnodup]
    obtain ⟨p, added, hp, hjobs, hadded, hgains, hdeclares⟩ := hglobals
    rw [List.nil_append] at hadded
    obtain ⟨hpages, js, hplans⟩ := planPages_spec env d.pages 0 p
    rw [hjobs] at hpages hplans
    change _ = d.pageInfos at hpages
    have hplan : plan env d = (entryPage d.pageInfos d.entry).bind fun entry =>
        .ok (d.pageInfos, entry, (planPages env d.pages 0 p).2) := by
      rw [plan, hp, ← hpages]
      rfl
    have hjs : (planPages env d.pages 0 p).2.jobs = js := by
      rw [hplans.jobs, hjobs]
      rfl
    cases hentry : entryPage d.pageInfos d.entry with
    | error e => rw [hplan, hentry]; rfl
    | ok entry =>
      refine ⟨_, by rw [hplan, hentry]; rfl, ?_, ?_, ?_⟩
      · rwa [hplans.globals, hadded]
      · rw [hplans.globals, hadded, hjs]
        exact hgains.append hplans.gains
      · have hplanned := hplans.planned
        rwa [← hjs] at hplanned
  · rw [if_neg fun h => hnodup h.1] at hglobals
    rw [if_neg hnodup]
    obtain ⟨name, hname⟩ := hglobals
    refine ⟨name, ?_⟩
    rw [plan, hname]
    rfl

end

end TileMind
