import Mathlib.Data.List.Nodup
import TileMind.Proofs.Brain.Rules
import TileMind.Proofs.Row.Locality
import TileMind.Proofs.Row.Ready

/-!
# TileMind.Proofs.Brain.Scope

Compiled code and a running brain mean the same variables. Compilation looks a name up in the locals of
a rule and of the rules around it; a brain looks a number up in the rules that a rule is linked to.
Both find the nearest declaration.

* `BrainDef.declarer?`, `BrainDef.declaration?`: what a rule means by a name.
* `PlanOf.find?_chain`: compilation finds it.
* `PlanOf.keeps`: so does a brain, by the number that compilation gives.
* `PlanOf.scoped`: both, for every instruction of a rule that reads or writes a variable.
-/

namespace TileMind

/-! ## What a rule means by a name -/

/-- The local that a rule declares under a name; the first one counts. -/
def RuleDef.local? (r : RuleDef) (x : String) : Option VarDecl := r.locals.find? fun v => v.name = x

/-- The number of the nearest rule, from a rule outwards, that declares a name. -/
def BrainDef.declarer? (d : BrainDef) (q : Place) (x : String) : Option Nat :=
  (q.number :: q.outer).find? fun n => (d.places[n]?).any fun r => (r.rule.local? x).isSome

/-- The declaration of what a rule means by a name. -/
def BrainDef.declaration? (d : BrainDef) (q : Place) (x : String) : Option VarDecl :=
  match d.declarer? q x with
  | some n => (d.places[n]?).bind fun r => r.rule.local? x
  | none => d.globals.find? fun v => v.name = x

/-- The variable `x` of a rule is kept under `id` in the locals of the rule that declares it, or else in the
globals. -/
def BrainDef.Keeps {W : Type} (d : BrainDef) (m : Mind W) (q : Place) (x : String) (id : Nat) : Prop :=
  match d.declarer? q x with
  | some n => ∃ r, m.rules.get? n = some r ∧ m.load q.number id = (r.locals.get? id).getD .nil ∧
      ∀ v, m.store q.number id v = { m with
        rules := m.rules.modify n fun r => { r with locals := r.locals.set id v } }
  | none => m.global? x = some id ∧ m.load q.number id = (m.globals.get? id).getD .nil ∧
      ∀ v, m.store q.number id v = { m with globals := m.globals.set id v }

/-! ## Numbers of variables -/

theorem Names.Gains.getElem? {all : Locals} {n : Names} (h : Names.Gains {} all n) {i : Nat}
    {b : String × Binding} (hb : all[i]? = some b) : b.2.id = i ∧ n.list[i]? = some b.1 := by
  have hid := congrArg (fun ids => ids[i]?) h.ids
  have hlt := (List.getElem?_eq_some_iff.mp hb).1
  simp only [List.getElem?_map, hb, Option.map_some, List.length_nil] at hid
  rw [List.getElem?_range' hlt] at hid
  refine ⟨by simpa using hid, ?_⟩
  rw [h.list, List.nil_append, List.getElem?_map, hb]
  rfl

theorem Names.Gains.nodup {all : Locals} {n : Names} (h : Names.Gains {} all n) :
    (all.map fun b => b.2.id).Nodup := by
  rw [h.ids]
  exact List.nodup_range'

section

variable {σ W : Type} {env : CompileEnv σ} {d : BrainDef} {plan : Plan} {entry : Int}

theorem Planned.contains_iff {owns : List Locals} {job : RuleJob} {q : Place}
    (h : Planned env owns job q) (id : Nat) :
    job.info.locals.contains (id : Int) = true ↔ ∃ b ∈ job.own, b.2.id = id := by
  have hmem : job.info.locals.contains (id : Int) = true ↔ id ∈ job.locals := by
    simp [RuleJob.info]
  rw [hmem, h.locals, List.mem_map]
  constructor
  · rintro ⟨v, hv, rfl⟩
    have hdeclared := h.declares v.name
    have hfound : (q.rule.locals.find? fun w => w.name = v.name).isSome := by
      rw [List.find?_isSome]
      exact ⟨v, hv, by simp⟩
    obtain ⟨w, hw⟩ := Option.isSome_iff_exists.mp hfound
    rw [hw, Option.map_some] at hdeclared
    obtain ⟨b, hb, -⟩ := Option.map_eq_some_iff.mp hdeclared
    exact ⟨(v.name, b), mem_of_lookup_eq_some hb, by simp [hb]⟩
  · rintro ⟨⟨name, b⟩, hb, rfl⟩
    -- A name is declared once, so looking it up finds this very variable.
    have hlookup : job.own.lookup name = some b := by
      cases hl : job.own.lookup name with
      | none => exact absurd (List.mem_map_of_mem hb) (lookup_eq_none_iff.mp hl)
      | some c =>
        have hinj := List.inj_on_of_nodup_map h.distinct (mem_of_lookup_eq_some hl) hb rfl
        cases hinj
        rfl
    have hdeclared := h.declares name
    rw [hlookup, Option.map_some] at hdeclared
    obtain ⟨v, hv, -⟩ := Option.map_eq_some_iff.mp hdeclared.symm
    have hname : v.name = name := by simpa using List.find?_some hv
    exact ⟨v, List.mem_of_find?_eq_some hv, by rw [hname, hlookup]; rfl⟩

theorem PlanOf.lists_iff (h : PlanOf env d plan) (id n : Nat) :
    (assemble env d.pageInfos entry plan).1.lists id n = true ↔
      ∃ job, plan.jobs[n]? = some job ∧ ∃ b ∈ job.own, b.2.id = id := by
  have hrules : (assemble env d.pageInfos entry plan).1.rules[n]? =
      (plan.jobs[n]?).map RuleJob.info := by
    simp [assemble]
  rw [Program.lists, hrules]
  cases hjob : plan.jobs[n]? with
  | none => simp
  | some job =>
    obtain ⟨q, -, hplanned⟩ := forall₂_getElem? h.planned hjob
    rw [Option.map_some, Option.any_some, hplanned.contains_iff]
    simp

/-- No two rules list the same variable. -/
theorem PlanOf.eq_of_listed (h : PlanOf env d plan) {i j : Nat} {job job' : RuleJob}
    (hi : plan.jobs[i]? = some job) (hj : plan.jobs[j]? = some job') {b b' : String × Binding}
    (hb : b ∈ job.own) (hb' : b' ∈ job'.own) (hid : b.2.id = b'.2.id) : i = j := by
  have hnodup := h.names.nodup
  rw [List.map_append, List.nodup_append, List.map_flatMap, List.nodup_flatMap] at hnodup
  have hpairs := List.pairwise_iff_getElem.mp hnodup.2.1.2
  obtain ⟨hlt, rfl⟩ := List.getElem?_eq_some_iff.mp hi
  obtain ⟨hlt', rfl⟩ := List.getElem?_eq_some_iff.mp hj
  have hmem := List.mem_map_of_mem (f := fun b : String × Binding => b.2.id) hb
  have hmem' := List.mem_map_of_mem (f := fun b : String × Binding => b.2.id) hb'
  rcases Nat.lt_trichotomy i j with hij | hij | hij
  · exact absurd (hid ▸ hmem') (fun hboth => hpairs i j hlt hlt' hij hmem hboth)
  · exact hij
  · exact absurd (hid ▸ hmem') (fun hboth => hpairs j i hlt' hlt hij hboth hmem)

/-- In a chain of scopes, a name is found in that of the nearest rule which has it. -/
theorem Scopes.find? {owns : List Locals} {numbers : List Nat} {chain : Chain}
    (h : Scopes owns numbers chain) (x : String) :
    chain.find? x = (numbers.find? fun n => (owns[n]?).any fun l => (l.lookup x).isSome).bind
      fun n => (owns[n]?).bind fun l => l.lookup x := by
  unfold Chain.find?
  induction h with
  | nil => rfl
  | @cons n locals numbers chain hn _ ih =>
    rw [List.findSome?_cons, List.find?_cons, hn, Option.any_some]
    cases hl : locals.lookup x with
    | some b => simp [hn, hl]
    | none => simpa using ih

/-- What the locals of a rule say of a name is what the definition says of it. -/
theorem PlanOf.declares_own (h : PlanOf env d plan) (n : Nat) (x : String) :
    ((plan.jobs.map RuleJob.own)[n]?.bind fun l => l.lookup x).map
        (fun b => (b.type, b.isDeclared)) =
      (d.places[n]?.bind fun r => r.rule.local? x).map fun v => (v.typeIn env, true) := by
  rw [List.getElem?_map]
  cases hjob : plan.jobs[n]? with
  | none =>
    have hnone : d.places[n]? = none := by
      rw [List.getElem?_eq_none_iff] at hjob ⊢
      rwa [← h.planned.length_eq]
    rw [hnone]
    rfl
  | some job =>
    obtain ⟨q, hq, hplanned⟩ := forall₂_getElem? h.planned hjob
    rw [hq]
    exact hplanned.declares x

/-- Compilation finds the nearest declaration of a name. -/
theorem PlanOf.find?_chain (h : PlanOf env d plan) {q : Place} {job : RuleJob}
    (hjob : plan.jobs[q.number]? = some job)
    (hplanned : Planned env (plan.jobs.map RuleJob.own) job q) (x : String) :
    job.chain.find? x = (d.declarer? q x).bind fun n =>
      (plan.jobs.map RuleJob.own)[n]?.bind fun l => l.lookup x := by
  obtain ⟨outer, hchain, hscopes⟩ := hplanned.chain
  have hall : Scopes (plan.jobs.map RuleJob.own) (q.number :: q.outer) job.chain := by
    rw [hchain]
    refine .cons ?_ hscopes
    rw [List.getElem?_map, hjob]
    rfl
  rw [hall.find? x, BrainDef.declarer?]
  refine congrArg (fun f => Option.bind (List.find? f _) _) (funext fun n => ?_)
  have hdeclares := congrArg Option.isSome (h.declares_own n x)
  rw [Option.isSome_map, Option.isSome_map, Option.isSome_bind, Option.isSome_bind] at hdeclares
  exact hdeclares

theorem PlanOf.typeOf?_eq (h : PlanOf env d plan) {g : Generated}
    (hg : Generated.Extends { names := plan.names, diags := plan.diags } g) {q : Place} {job : RuleJob}
    (hjob : plan.jobs[q.number]? = some job)
    (hplanned : Planned env (plan.jobs.map RuleJob.own) job q) (x : String) :
    g.names.typeOf? job.chain x = (d.declaration? q x).map (VarDecl.typeIn env) := by
  obtain ⟨implicit, hglobals, -, hundeclared⟩ := h.names_of_extends hg
  rw [Names.typeOf?, h.find?_chain hjob hplanned x, BrainDef.declaration?]
  cases hdeclarer : d.declarer? q x with
  | some n =>
    have hdeclares := h.declares_own n x
    have hsome : (d.places[n]?.bind fun r => r.rule.local? x).isSome := by
      have hdeclares := List.find?_some hdeclarer
      rwa [Option.isSome_bind]
    obtain ⟨v, hv⟩ := Option.isSome_iff_exists.mp hsome
    rw [hv, Option.map_some] at hdeclares
    obtain ⟨b, hb, hpair⟩ := Option.map_eq_some_iff.mp hdeclares
    simp only [Option.bind_some, hb, hv, Option.map_some]
    rw [(Prod.mk.inj hpair).1]
  | none =>
    have hdeclares := h.globals x
    rw [Option.bind_none, hglobals, List.lookup_append]
    cases hglobal : plan.names.globals.lookup x with
    | some b =>
      rw [hglobal, Option.map_some] at hdeclares
      obtain ⟨v, hv, hpair⟩ := Option.map_eq_some_iff.mp hdeclares.symm
      obtain ⟨htype, hdeclared⟩ := Prod.mk.inj hpair
      simp only [Option.some_or, ← hdeclared, if_true, hv, Option.map_some, htype]
    | none =>
      rw [hglobal, Option.map_none] at hdeclares
      have hv := Option.map_eq_none_iff.mp hdeclares.symm
      rw [Option.none_or]
      cases himplicit : implicit.lookup x with
      | none => simp [hv]
      | some b =>
        have := hundeclared _ (mem_of_lookup_eq_some himplicit)
        simp_all

/-! ## What a brain finds -/

theorem find?_eq_some_of_unique {n : Nat} {xs : List Nat} {f : Nat → Bool} (hn : n ∈ xs)
    (hf : ∀ k, f k = true ↔ k = n) : xs.find? f = some n := by
  cases hfind : xs.find? f with
  | none => exact absurd ((hf n).mpr rfl) (List.find?_eq_none.mp hfind n hn)
  | some k => rw [(hf k).mp (List.find?_some hfind)]

/-- The variable that is found by a name has the least number of all that have this name. -/
theorem id_le_of_lookup {locals : Locals} (hids : (locals.map fun b => b.2.id).Pairwise (· < ·))
    {x : String} {b c : Binding} (hb : locals.lookup x = some b) (hc : (x, c) ∈ locals) :
    b.id ≤ c.id := by
  induction locals with
  | nil => cases hc
  | cons e locals ih =>
    obtain ⟨name, first⟩ := e
    rw [List.map_cons, List.pairwise_cons] at hids
    rw [lookup_cons_eq] at hb
    by_cases hx : x = name
    · rw [if_pos hx, Option.some.injEq] at hb
      subst hb
      rcases List.mem_cons.mp hc with heq | hc
      · cases heq
        exact Nat.le_refl _
      · exact Nat.le_of_lt (hids.1 _ (List.mem_map_of_mem (f := fun b : String × Binding => b.2.id) hc))
    · rw [if_neg hx] at hb
      rcases List.mem_cons.mp hc with heq | hc
      · cases heq
        exact absurd rfl hx
      · exact ih hids.2 hb hc

/-- The numbers of globals are in order, and no rule lists one. -/
theorem PlanOf.globals_apart (h : PlanOf env d plan) {g : Generated}
    (hg : Generated.Extends { names := plan.names, diags := plan.diags } g) :
    (g.names.globals.map fun b => b.2.id).Pairwise (· < ·) ∧
      ∀ b ∈ g.names.globals, ∀ job ∈ plan.jobs, ∀ c ∈ job.own, c.2.id ≠ b.2.id := by
  obtain ⟨implicit, hglobals, hgains, -⟩ := h.names_of_extends hg
  have hordered : ((plan.names.globals ++ plan.jobs.flatMap RuleJob.own ++ implicit).map
      fun b => b.2.id).Pairwise (· < ·) := by
    rw [hgains.ids]
    exact List.pairwise_lt_range'
  have hsub : g.names.globals.Sublist
      (plan.names.globals ++ plan.jobs.flatMap RuleJob.own ++ implicit) := by
    rw [hglobals]
    exact (List.sublist_append_left _ _).append (List.Sublist.refl _)
  refine ⟨hordered.sublist (hsub.map _), ?_⟩
  have hnodup := hgains.nodup
  rw [List.map_append, List.map_append, List.nodup_append, List.nodup_append] at hnodup
  obtain ⟨⟨-, -, hfirst⟩, -, hlast⟩ := hnodup
  intro b hb job hjob c hc heq
  have hcmem : c.2.id ∈ (plan.jobs.flatMap RuleJob.own).map fun b => b.2.id :=
    List.mem_map.mpr ⟨c, List.mem_flatMap.mpr ⟨job, hjob, hc⟩, rfl⟩
  rw [hglobals] at hb
  rcases List.mem_append.mp hb with hb | hb
  · exact hfirst _ (List.mem_map_of_mem (f := fun b : String × Binding => b.2.id) hb) _ hcmem heq.symm
  · exact hlast _ (List.mem_append_right _ hcmem) _
      (List.mem_map_of_mem (f := fun b : String × Binding => b.2.id) hb) heq

theorem PlanOf.isLocal_iff (h : PlanOf env d plan) {m : Mind W}
    (hm : m.Carries (assemble env d.pageInfos entry plan).1) (id : Nat) :
    m.isLocal id = true ↔ ∃ job ∈ plan.jobs, ∃ b ∈ job.own, b.2.id = id := by
  rw [Mind.isLocal, hm.program, List.any_eq_true]
  constructor
  · rintro ⟨r, hr, hlists⟩
    obtain ⟨job, hjob, rfl⟩ : ∃ job ∈ plan.jobs, job.info = r := by simpa [assemble] using hr
    obtain ⟨n, hn⟩ := List.mem_iff_getElem?.mp hjob
    obtain ⟨q, -, hplanned⟩ := forall₂_getElem? h.planned hn
    exact ⟨job, hjob, (hplanned.contains_iff id).mp hlists⟩
  · rintro ⟨job, hjob, hb⟩
    obtain ⟨n, hn⟩ := List.mem_iff_getElem?.mp hjob
    obtain ⟨q, -, hplanned⟩ := forall₂_getElem? h.planned hn
    exact ⟨job.info, List.mem_map_of_mem hjob, (hplanned.contains_iff id).mpr hb⟩

theorem PlanOf.global?_eq (h : PlanOf env d plan) {g : Generated}
    (hg : Generated.Extends { names := plan.names, diags := plan.diags } g) {m : Mind W}
    (hm : m.Carries (assemble env d.pageInfos entry plan).1)
    (hvars : (assemble env d.pageInfos entry plan).1.vars = g.names.list) {x : String} {b : Binding}
    (hb : g.names.globals.lookup x = some b) : m.global? x = some b.id := by
  obtain ⟨implicit, hglobals, hgains, -⟩ := h.names_of_extends hg
  obtain ⟨hordered, hapart⟩ := h.globals_apart hg
  have hmem := mem_of_lookup_eq_some hb
  have hall : (x, b) ∈ plan.names.globals ++ plan.jobs.flatMap RuleJob.own ++ implicit := by
    rw [hglobals] at hmem
    rcases List.mem_append.mp hmem with hmem | hmem <;> simp [hmem]
  obtain ⟨i, hi⟩ := List.mem_iff_getElem?.mp hall
  obtain ⟨hid, hname⟩ := hgains.getElem? hi
  dsimp only at hid hname
  rw [Mind.global?, hm.program, hvars, hid, Option.map_eq_some_iff]
  refine ⟨(x, i), ?_, rfl⟩
  obtain ⟨hlt, hget⟩ := List.getElem?_eq_some_iff.mp hname
  rw [List.find?_eq_some_iff_getElem]
  refine ⟨?_, i, by simpa using hlt, by simp [hget], ?_⟩
  · have hlocal : m.isLocal i = false := by
      rw [Bool.eq_false_iff, ne_eq, h.isLocal_iff hm i]
      rintro ⟨job, hjob, c, hc, hcid⟩
      exact hapart _ hmem job hjob c hc (hcid.trans hid.symm)
    simp [hlocal]
  · -- Whatever has the name and comes earlier is a local.
    intro j hj
    have hjlt : j < g.names.list.length := Nat.lt_trans hj hlt
    simp only [List.getElem_zipIdx, Nat.zero_add, Bool.not_eq_true', Bool.and_eq_false_iff,
      decide_eq_false_iff_not, Bool.not_eq_false']
    by_cases hx : g.names.list[j] = x
    · right
      rw [h.isLocal_iff hm j]
      have hjall : j < (plan.names.globals ++ plan.jobs.flatMap RuleJob.own ++ implicit).length := by
        rw [hgains.list] at hjlt
        simpa using hjlt
      have hc := List.getElem?_eq_getElem hjall
      generalize (plan.names.globals ++ plan.jobs.flatMap RuleJob.own ++ implicit)[j] = c at hc
      obtain ⟨hcid, hcname⟩ := hgains.getElem? hc
      rw [List.getElem?_eq_getElem hjlt, hx, Option.some.injEq] at hcname
      have hnot : c ∉ g.names.globals := by
        intro hglobal
        obtain ⟨name, c⟩ := c
        cases hcname
        have := id_le_of_lookup hordered hb hglobal
        dsimp only at hcid
        omega
      rw [hglobals, List.mem_append, not_or] at hnot
      have hcmem := List.mem_of_getElem? hc
      rw [List.mem_append, List.mem_append] at hcmem
      rcases hcmem with (hcmem | hcmem) | hcmem
      · exact absurd hcmem hnot.1
      · obtain ⟨job, hjob, hcown⟩ := List.mem_flatMap.mp hcmem
        exact ⟨job, hjob, c, hcown, hcid⟩
      · exact absurd hcmem hnot.2
    · exact .inl hx

/-- The number that compilation gives to a name leads a brain to the variable that is meant. -/
theorem PlanOf.keeps (h : PlanOf env d plan) {g : Generated}
    (hg : Generated.Extends { names := plan.names, diags := plan.diags } g)
    (hvars : (assemble env d.pageInfos entry plan).1.vars = g.names.list) {q : Place}
    (hq : q ∈ d.places) {job : RuleJob} (hjob : plan.jobs[q.number]? = some job)
    (hplanned : Planned env (plan.jobs.map RuleJob.own) job q) {x : String} {id : Nat}
    (hr : g.names.Resolves job.chain x id) {m : Mind W}
    (hm : m.Carries (assemble env d.pageInfos entry plan).1) : d.Keeps m q x id := by
  have howner := h.owner?_eq hm id hq
  have hfind := h.find?_chain hjob hplanned x
  rw [BrainDef.Keeps]
  cases hdeclarer : d.declarer? q x with
  | some n =>
    have hdeclares := List.find?_some hdeclarer
    have hown := congrArg Option.isSome (h.declares_own n x)
    rw [Option.isSome_map, Option.isSome_map, Option.isSome_bind, Option.isSome_bind] at hown
    rw [← hown, ← Option.isSome_bind, Option.isSome_iff_exists] at hdeclares
    obtain ⟨b, hb⟩ := hdeclares
    rw [hdeclarer, Option.bind_some, hb] at hfind
    have hid : b.id = id := by simpa [Names.Resolves, hfind] using hr
    subst hid
    obtain ⟨own, hown, hlookup⟩ := Option.bind_eq_some_iff.mp hb
    obtain ⟨owner, howns, rfl⟩ : ∃ owner, plan.jobs[n]? = some owner ∧ owner.own = own := by
      simpa using hown
    have hmem := mem_of_lookup_eq_some hlookup
    -- Only the rule that declares the variable lists it.
    have hlists (k : Nat) : (assemble env d.pageInfos entry plan).1.lists b.id k = true ↔ k = n := by
      rw [h.lists_iff]
      constructor
      · rintro ⟨other, hother, c, hc, hcid⟩
        exact h.eq_of_listed hother howns hc hmem hcid
      · rintro rfl
        exact ⟨owner, howns, _, hmem, rfl⟩
    rw [find?_eq_some_of_unique (List.mem_of_find?_eq_some hdeclarer) hlists] at howner
    have hrule : (assemble env d.pageInfos entry plan).1.rules[n]? = some owner.info := by
      simp [assemble, howns]
    obtain ⟨r, hget, -⟩ := hm.get? h.tabled hrule
    refine ⟨r, hget, ?_, fun v => ?_⟩
    · simp [Mind.load, Mind.cells, howner, hget]
    · simp [Mind.store, Mind.updateCells, howner]
  | none =>
    rw [hdeclarer, Option.bind_none] at hfind
    obtain ⟨b, hb, rfl⟩ : ∃ b, g.names.globals.lookup x = some b ∧ b.id = id := by
      simpa [Names.Resolves, hfind] using hr
    have hnone : (q.number :: q.outer).find?
        ((assemble env d.pageInfos entry plan).1.lists b.id) = none := by
      rw [List.find?_eq_none]
      intro n _ hlists
      obtain ⟨other, hother, c, hc, hcid⟩ := (h.lists_iff b.id n).mp hlists
      exact (h.globals_apart hg).2 _ (mem_of_lookup_eq_some hb) other (List.mem_of_getElem? hother) c hc
        hcid
    rw [hnone, Option.map_none] at howner
    refine ⟨h.global?_eq hg hm hvars hb, ?_, fun v => ?_⟩
    · simp [Mind.load, Mind.cells, howner]
    · simp [Mind.store, Mind.updateCells, howner]

theorem PlanOf.vars_of_resolves (h : PlanOf env d plan) {g : Generated}
    (hg : Generated.Extends { names := plan.names, diags := plan.diags } g) {job : RuleJob}
    (hjob : job ∈ plan.jobs) {x : String} {id : Nat} (hr : g.names.Resolves job.chain x id) :
    g.names.list[id]? = some x := by
  obtain ⟨all, b, hgains, hmem, rfl⟩ := h.mem_of_resolves hg hjob hr
  obtain ⟨i, hi⟩ := List.mem_iff_getElem?.mp hmem
  obtain ⟨hid, hname⟩ := hgains.getElem? hi
  dsimp only at hid
  rwa [hid]

end

/-! ## Types of variables -/

section

variable {σ : Type}

open Row

/-- Inference gives to a variable the type of its scope. -/
theorem inferred_typeExpr (scope : TypeScope σ) {e : Expr} (he : e.ids.Nodup) (s : Typing) {m : Mark}
    {x : String} (hx : .variable m x ∈ e.nodes) :
    ((typeExpr scope e s).table.get m.id).inferred = (scope.vars x).getD .unknown := by
  obtain ⟨s', hrecords⟩ := inferredAt scope e.operands e (expect scope e .unknown s) he
    (List.Subset.refl _) _ hx
  have hinferred := hrecords.inferred
  have hsettle (type : TypeId) (t : Typing) :
      ((settle scope m type t).2.table.get m.id).inferred = type := by
    simp [settle, Typing.modify, TypeTable.get, TypeTable.get?_modify]
  have hown : ((infer scope (.variable m x) s').2.table.get m.id).inferred =
      (scope.vars x).getD .unknown := by
    rw [infer]
    split
    · rename_i type htype
      rw [hsettle, htype]
      rfl
    · rename_i hnone
      rw [hsettle, hnone]
      rfl
  exact hinferred.trans hown

theorem within_typeExpr (scope : TypeScope σ) (e : Expr) (s : Typing) :
    s.Within e.ids (typeExpr scope e s) :=
  (within_expect scope e .unknown s).trans (within_infer scope e _)

/-- The types that rows of a rule give to variables are those that the rule sees. -/
theorem inferred_readRule (env : CompileEnv σ) (job : RuleJob) (p : Progress) {cond action : Expr}
    {types : TypeTable} {after : Progress} (hread : readRule env job p = (cond, action, types, after))
    {m : Mark} {x : String} (hx : .variable m x ∈ cond.nodes ++ action.nodes) :
    ∃ info, types.get? m.id = some info ∧
      info.inferred = (p.generated.names.typeOf? job.chain x).getD .unknown := by
  have hcond := drawn_readRow env.catalog job.path job.whenRow p.lastNode p.generated.diags
  unfold readRule at hread
  dsimp only at hread
  generalize readRow env.catalog job.path job.whenRow p.lastNode p.generated.diags = first at hread hcond
  obtain ⟨e, r⟩ := first
  have haction := drawn_readRow env.catalog job.path job.doRow r.lastId r.diags
  dsimp only at hread hcond haction
  generalize readRow env.catalog job.path job.doRow r.lastId r.diags = second at hread haction
  obtain ⟨e', r'⟩ := second
  simp only [Prod.mk.injEq] at hread
  obtain ⟨rfl, rfl, rfl, -⟩ := hread
  dsimp only at haction ⊢
  generalize hscope : (⟨env.services, p.generated.names.typeOf? job.chain, job.path⟩ : TypeScope σ) = scope
  have hfirst := covers_typeExpr scope e ⟨{}, r'.diags⟩
  have hsecond := covers_typeExpr scope e' (typeExpr scope e ⟨{}, r'.diags⟩)
  have hvars : scope.vars x = p.generated.names.typeOf? job.chain x := by rw [← hscope]
  rw [← hvars]
  rcases List.mem_append.mp hx with hx | hx
  · obtain ⟨info, hinfo⟩ := hsecond.keeps m.id (hfirst.nodes _ hx)
    have hout : m.id ∉ e'.ids := by
      intro hmem
      have hle : m.id ≤ r.lastId := (hcond.range _ (List.mem_map_of_mem hx)).2
      have hlt := (haction.range _ hmem).1
      omega
    have hinferred := inferred_typeExpr scope hcond.nodup ⟨{}, r'.diags⟩ hx
    have hkept := (within_typeExpr scope e' (typeExpr scope e ⟨{}, r'.diags⟩)).outside m.id hout
    refine ⟨info, hinfo, ?_⟩
    rw [← hinferred, ← TypeTable.get_of_get? hkept, TypeTable.get, hinfo]
    rfl
  · obtain ⟨info, hinfo⟩ : (typeExpr scope e' _).table.Has m.id := hsecond.nodes _ hx
    have hinferred := inferred_typeExpr scope haction.nodup (typeExpr scope e ⟨{}, r'.diags⟩) hx
    refine ⟨info, hinfo, ?_⟩
    rw [← hinferred, TypeTable.get, hinfo]
    rfl

/-! ## Compiled rules -/

theorem filter_isVar_ruleCode (cond action : List Instr) (isolate : Bool) (children : List Nat) :
    (ruleCode cond action (childrenCode isolate children)).filter Instr.isVar =
      cond.filter Instr.isVar ++ action.filter Instr.isVar := by
  have hchildren : (childrenCode isolate children).filter Instr.isVar = [] := by
    rw [List.filter_eq_nil_iff]
    intro i hi
    obtain ⟨child, -, hi⟩ := List.mem_flatMap.mp hi
    cases isolate <;> simp at hi <;> rcases hi with rfl | rfl | rfl | rfl <;> simp [Instr.isVar]
  simp only [ruleCode, List.filter_append, hchildren]
  simp [Instr.isVar]

/-- The instruction does what `u` says to a variable of the rule at `q`. In every brain that runs the
program, its number leads to where the variable is kept. -/
def Instr.Reaches (d : BrainDef) (p : Program) (q : Place) (i : Instr) (u : Op × String) : Prop :=
  ∃ id : Nat, i.op? = some u.1 ∧ i.a.toInt = id ∧ p.vars[id]? = some u.2 ∧
    ∀ {W : Type} (m : Mind W), m.Carries p → d.Keeps m q u.2 id

/-- The function was compiled from the rows of the rule at `q`. Variables have there the types that are
declared for them, and the code reaches every variable that the rows use. -/
def Function.Scoped (env : CompileEnv σ) (d : BrainDef) (p : Program) (q : Place) (fn : Function) : Prop :=
  ∃ job progress cond action types after,
    readRule env job progress = (cond, action, types, after) ∧
    fn = (resolvedRule env job progress).1 ∧
    job.path = q.path ∧ job.whenRow = q.rule.whenRow ∧ job.doRow = q.rule.doRow ∧
    (∀ m x, .variable m x ∈ cond.nodes ++ action.nodes → ∃ info, types.get? m.id = some info ∧
      info.inferred = ((d.declaration? q x).map (VarDecl.typeIn env)).getD .unknown) ∧
    List.Forall₂ (Instr.Reaches d p q) (fn.code.toList.filter Instr.isVar)
      ((if cond.isEmpty then [] else uses types cond) ++ uses types action)

/-- Every rule is compiled to a function that takes variables as the definition scopes them. -/
theorem PlanOf.scoped {env : CompileEnv σ} {d : BrainDef} {plan : Plan} {entry : Int}
    (h : PlanOf env d plan) (hsmall : (assemble env d.pageInfos entry plan).1.Small) {q : Place}
    (hq : q ∈ d.places) :
    ∃ fn, (assemble env d.pageInfos entry plan).1.functions[q.number]? = some fn ∧
      fn.Scoped env d (assemble env d.pageInfos entry plan).1 q := by
  obtain ⟨job, hjob, hplanned, -⟩ := h.rule entry hq
  obtain ⟨progress, hstart, hfn, g, hfinal, -, hvars⟩ := assemble_function env d.pageInfos entry hjob
  obtain ⟨cond, action, types, after, condCode, actionCode, g', hread, -, hcode, -, -, hcond, haction⟩ :=
    resolvedRule_emits env job progress
  have hall := hstart.trans ((hcond.extends.trans haction.extends).trans hfinal)
  have hmem := List.mem_of_getElem? hjob
  refine ⟨_, hfn, job, progress, cond, action, types, after, hread, rfl, hplanned.path, hplanned.whenRow,
    hplanned.doRow, fun m x hx => ?_, ?_⟩
  · obtain ⟨info, hinfo, htype⟩ := inferred_readRule env job progress hread hx
    rw [h.typeOf?_eq hstart hjob hplanned] at htype
    exact ⟨info, hinfo, htype⟩
  · have hreaches {i : Instr} {u : Op × String} (hi : i.UsesVar job.chain g.names u) :
        i.Reaches d (assemble env d.pageInfos entry plan).1 q u := by
      obtain ⟨id, rfl, hr⟩ := hi
      have hlt := h.resolves_lt hall hmem hr
      rw [← hvars] at hlt
      refine ⟨id, Instr.op?_of .., ?_, ?_, fun m hm => h.keeps hall hvars hq hjob hplanned hr hm⟩
      · rw [Instr.a_of, toInt_ofInt_of_lt (Nat.lt_trans hlt hsmall.vars)]
      · rw [hvars]
        exact h.vars_of_resolves hall hmem hr
    rw [hcode, List.toList_toArray, filter_isVar_ruleCode]
    refine List.rel_append (hcond.vars.imp fun i u hi => ?_) (haction.vars.imp fun i u hi => ?_)
    · obtain ⟨id, rfl, hr⟩ := hi
      exact hreaches ⟨id, rfl, hr.mono (haction.extends.trans hfinal).globals⟩
    · obtain ⟨id, rfl, hr⟩ := hi
      exact hreaches ⟨id, rfl, hr.mono hfinal.globals⟩

end

end TileMind
