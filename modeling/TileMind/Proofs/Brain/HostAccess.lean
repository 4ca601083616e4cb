import TileMind.Proofs.Brain.Plays

/-!
# TileMind.Proofs.Brain.HostAccess

Variables that host code asks for by name. It is given the number of the first variable of that name in
the table of the program, wherever it is called from. The table has the globals that are declared, then
the locals rule by rule and in the end the globals that nobody declares. So host code gets at what the
calling rule means if and only if the nearest declaration is also the first one; if it is not, the two
have nothing to do with each other.

* `Mind.SameCell`, `Mind.Apart`: whether two numbers lead a rule to the same place.
* `BrainDef.firstDeclarer?`: whose variable comes first in the table.
* `PlanOf.varIndex?_eq`: the table has that one under a name.
* `host_access`: host code against the code of a rule.
-/

namespace TileMind

/-! ## Cells -/

theorem Cells.get?_erase {α : Type} (c : Cells α) (i k : Int) :
    (c.erase i).get? k = if k = i then none else c.get? k := by
  obtain ⟨entries⟩ := c
  rw [erase, get?, get?]
  induction entries with
  | nil => exact (ite_self none).symm
  | cons e entries ih =>
    obtain ⟨first, v⟩ := e
    rw [List.filter_cons]
    by_cases hfirst : first = i
    · rw [if_neg (by simp [hfirst]), ih, lookup_cons_eq, hfirst]
      split
      · rfl
      · rfl
    · rw [if_pos (by simp [hfirst]), lookup_cons_eq, lookup_cons_eq, ih]
      by_cases hk : k = first
      · rw [if_pos hk, if_neg fun heq => hfirst (hk.symm.trans heq), if_pos hk]
      · rw [if_neg hk, if_neg hk]

namespace Mind

section

variable {W : Type} {m : Mind W} {func i j : Int}

/-- For a function, the variables `i` and `j` are kept in one place. -/
structure SameCell (m : Mind W) (func i j : Int) : Prop where
  load : m.load func i = m.load func j
  store : ∀ v, (m.store func i v).load func j = v
  clear : (m.clear func i).load func j = .nil

/-- What a function does to variable `i` is not seen in `j`. -/
structure Apart (m : Mind W) (func i j : Int) : Prop where
  store : ∀ v, (m.store func i v).load func j = m.load func j
  clear : (m.clear func i).load func j = m.load func j

theorem isSome_of_ownerFrom {var : Int} {depth : Nat} {func rule : Int}
    (h : m.ownerFrom var depth func = some rule) : (m.rules.get? rule).isSome := by
  induction depth generalizing func with
  | zero => cases h
  | succ depth ih =>
    rw [ownerFrom] at h
    split at h
    · cases h
    · rename_i r hr
      split at h
      · cases h
        simp [hr]
      · split at h
        · cases h
        · exact ih h

theorem cells_updateCells (m : Mind W) (func i j : Int) (f : Cells Value → Cells Value) :
    (m.updateCells func i f).cells func j =
      if m.owner? func j = m.owner? func i then f (m.cells func i) else m.cells func j := by
  have howner : (m.updateCells func i f).owner? func j = m.owner? func j := by
    refine owner?_congr ?_ func j
    rw [updateCells]
    split
    · exact shape_modify _ _ _
    · rfl
  rw [cells, howner, updateCells, cells, cells]
  cases hi : m.owner? func i with
  | none =>
    cases hj : m.owner? func j with
    | none => simp
    | some rule => simp
  | some rule =>
    cases hj : m.owner? func j with
    | none => simp
    | some rule' =>
      obtain ⟨r, hr⟩ := Option.isSome_iff_exists.mp (isSome_of_ownerFrom hi)
      by_cases hsame : rule' = rule
      · simp [hsame, Cells.get?_modify, hr]
      · simp [hsame, Cells.get?_modify]

theorem load_updateCells (m : Mind W) (func i j : Int) (f : Cells Value → Cells Value) :
    (m.updateCells func i f).load func j =
      if m.owner? func j = m.owner? func i then ((f (m.cells func i)).get? j).getD .nil
      else m.load func j := by
  rw [load, cells_updateCells]
  split <;> rfl

theorem sameCell_self (m : Mind W) (func i : Int) : m.SameCell func i i := by
  refine ⟨rfl, fun v => ?_, ?_⟩
  · simp [store, load_updateCells, Cells.get?_set]
  · simp [clear, load_updateCells, Cells.get?_erase]

theorem apart_of_ne (m : Mind W) (func : Int) (h : i ≠ j) : m.Apart func i j := by
  -- Where both are kept together, the cells of the one do not change for the other.
  have hcells (howner : m.owner? func j = m.owner? func i) : m.cells func j = m.cells func i := by
    rw [cells, cells, howner]
  refine ⟨fun v => ?_, ?_⟩
  · rw [store, load_updateCells]
    split
    · rename_i howner
      rw [Cells.get?_set, if_neg h.symm, load, hcells howner]
    · rfl
  · rw [clear, load_updateCells]
    split
    · rename_i howner
      rw [Cells.get?_erase, if_neg h.symm, load, hcells howner]
    · rfl

end

end Mind

/-! ## The table of variables -/

/-- The rule whose variable is the first one of a name in the table of a program; `none` stands for the
globals, which come before all rules if they are declared, and after them if they are not. -/
def BrainDef.firstDeclarer? (d : BrainDef) (x : String) : Option Nat :=
  if d.globals.any fun v => v.name = x then none
  else d.places.findIdx? fun r => (r.rule.local? x).isSome

/-- In a table whose variables are numbered in order, a name is found where its first variable is. -/
theorem findIdx_of_lookup {locals : Locals} {first : Nat}
    (hids : locals.map (fun b => b.2.id) = List.range' first locals.length) {x : String} {b : Binding}
    (hb : locals.lookup x = some b) : first + (locals.map Prod.fst).findIdx (· = x) = b.id := by
  induction locals generalizing first with
  | nil => cases hb
  | cons e locals ih =>
    obtain ⟨name, c⟩ := e
    rw [List.map_cons, List.length_cons, List.range'_succ, List.cons.injEq] at hids
    rw [lookup_cons_eq] at hb
    rw [List.map_cons, List.findIdx_cons]
    by_cases hx : x = name
    · rw [if_pos hx, Option.some.injEq] at hb
      simp [← hb, ← hids.1, hx]
    · rw [if_neg hx] at hb
      have hrest := ih hids.2 hb
      have hne : ¬ name = x := fun h => hx h.symm
      simp only [hne, decide_false, cond_false]
      omega

theorem lookup_flatMap {α : Type} (xs : List α) (f : α → Locals) (x : String) :
    (xs.flatMap f).lookup x =
      (xs.findIdx? fun a => ((f a).lookup x).isSome).bind fun n =>
        (xs.map f)[n]?.bind fun l => l.lookup x := by
  induction xs with
  | nil => rfl
  | cons a xs ih =>
    rw [List.flatMap_cons, List.lookup_append, List.findIdx?_cons]
    cases ha : (f a).lookup x with
    | some b => simp [ha]
    | none =>
      rw [ih]
      cases xs.findIdx? fun a => ((f a).lookup x).isSome with
      | none => simp
      | some n => simp

section

variable {σ : Type} {env : CompileEnv σ} {d : BrainDef} {plan : Plan} {entry : Int} {g : Generated}
  {x : String}

/-- The variable of a name that a rule declares, or of the globals. -/
def Plan.binding? (plan : Plan) (globals : Locals) (x : String) : Option Nat → Option Binding
  | some n => (plan.jobs.map RuleJob.own)[n]?.bind fun l => l.lookup x
  | none => globals.lookup x

/-- A rule means the variable of the nearest rule that declares the name. -/
theorem PlanOf.binding?_declarer? (h : PlanOf env d plan) {q : Place} {job : RuleJob}
    (hjob : plan.jobs[q.number]? = some job)
    (hplanned : Planned env (plan.jobs.map RuleJob.own) job q) {id : Nat}
    (hr : g.names.Resolves job.chain x id) :
    (plan.binding? g.names.globals x (d.declarer? q x)).map Binding.id = some id := by
  have hfind := h.find?_chain hjob hplanned x
  cases hdeclarer : d.declarer? q x with
  | none =>
    rw [hdeclarer, Option.bind_none] at hfind
    rw [Plan.binding?]
    simpa [Names.Resolves, hfind] using hr
  | some n =>
    rw [hdeclarer, Option.bind_some] at hfind
    have hdeclares := List.find?_some hdeclarer
    have hown := congrArg Option.isSome (h.declares_own n x)
    rw [Option.isSome_map, Option.isSome_map, Option.isSome_bind (x := d.places[n]?)] at hown
    rw [← hown, ← hfind] at hdeclares
    obtain ⟨b, hb⟩ := Option.isSome_iff_exists.mp hdeclares
    rw [Plan.binding?, ← hfind]
    simpa [Names.Resolves, hb] using hr

theorem Planned.findIdx?_eq {owns : List Locals} {jobs : List RuleJob} {places : List Place}
    (h : List.Forall₂ (Planned env owns) jobs places) (x : String) :
    (jobs.findIdx? fun job => (job.own.lookup x).isSome) =
      places.findIdx? fun r => (r.rule.local? x).isSome := by
  induction h with
  | nil => rfl
  | @cons job q jobs places hfirst _ ih =>
    have hsame := congrArg Option.isSome (hfirst.declares x)
    rw [Option.isSome_map, Option.isSome_map] at hsame
    rw [List.findIdx?_cons, List.findIdx?_cons, ih, hsame]
    rfl

/-- The first variable of a name in the table is that of the first declaration. -/
theorem PlanOf.binding?_firstDeclarer? (h : PlanOf env d plan) {implicit : Locals}
    (hglobals : g.names.globals = plan.names.globals ++ implicit) (x : String) :
    (plan.names.globals ++ plan.jobs.flatMap RuleJob.own ++ implicit).lookup x =
      plan.binding? g.names.globals x (d.firstDeclarer? x) := by
  have hdeclared := congrArg Option.isSome (h.globals x)
  rw [Option.isSome_map, Option.isSome_map, List.isSome_find?] at hdeclared
  rw [BrainDef.firstDeclarer?, ← hdeclared, List.lookup_append, List.lookup_append, lookup_flatMap,
    Planned.findIdx?_eq h.planned x]
  cases hglobal : plan.names.globals.lookup x with
  | some b => simp [Plan.binding?, hglobals, List.lookup_append, hglobal]
  | none =>
    rw [Option.isSome_none, if_neg (by simp), Option.none_or]
    cases hfirst : d.places.findIdx? fun r => (r.rule.local? x).isSome with
    | none => simp [Plan.binding?, hglobals, List.lookup_append, hglobal]
    | some n =>
      obtain ⟨hlt, hlocal, -⟩ := List.findIdx?_eq_some_iff_getElem.mp hfirst
      have hown := congrArg Option.isSome (h.declares_own n x)
      rw [List.getElem?_eq_getElem hlt, Option.bind_some, Option.isSome_map, Option.isSome_map, hlocal]
        at hown
      obtain ⟨b, hb⟩ := Option.isSome_iff_exists.mp hown
      rw [Option.bind_some, Plan.binding?, hb, Option.some_or]

/-- Different declarations of a name have different numbers. -/
theorem PlanOf.binding?_inj (h : PlanOf env d plan)
    (hg : Generated.Extends { names := plan.names, diags := plan.diags } g) {o o' : Option Nat}
    {b c : Binding} (hb : plan.binding? g.names.globals x o = some b)
    (hc : plan.binding? g.names.globals x o' = some c) (hid : b.id = c.id) : o = o' := by
  have hlocal {n : Nat} {b : Binding} (hb : plan.binding? g.names.globals x (some n) = some b) :
      ∃ job, plan.jobs[n]? = some job ∧ (x, b) ∈ job.own := by
    obtain ⟨own, hown, hlookup⟩ := Option.bind_eq_some_iff.mp hb
    obtain ⟨job, hjob, rfl⟩ : ∃ job, plan.jobs[n]? = some job ∧ job.own = own := by simpa using hown
    exact ⟨job, hjob, mem_of_lookup_eq_some hlookup⟩
  have hapart := (h.globals_apart hg).2
  cases o with
  | none =>
    cases o' with
    | none => rfl
    | some n =>
      obtain ⟨job, hjob, hmem⟩ := hlocal hc
      exact absurd hid.symm
        (hapart _ (mem_of_lookup_eq_some hb) job (List.mem_of_getElem? hjob) _ hmem)
  | some n =>
    obtain ⟨job, hjob, hmem⟩ := hlocal hb
    cases o' with
    | none =>
      exact absurd hid (hapart _ (mem_of_lookup_eq_some hc) job (List.mem_of_getElem? hjob) _ hmem)
    | some n' =>
      obtain ⟨job', hjob', hmem'⟩ := hlocal hc
      rw [h.eq_of_listed hjob hjob' hmem hmem' hid]

/-- Under a name that a rule uses, a program has a variable. It is what the rule means if and only if the
nearest declaration is the first one. -/
theorem PlanOf.varIndex?_eq (h : PlanOf env d plan)
    (hg : Generated.Extends { names := plan.names, diags := plan.diags } g)
    (hvars : (assemble env d.pageInfos entry plan).1.vars = g.names.list) {q : Place} {job : RuleJob}
    (hjob : plan.jobs[q.number]? = some job)
    (hplanned : Planned env (plan.jobs.map RuleJob.own) job q) {id : Nat}
    (hr : g.names.Resolves job.chain x id) :
    ∃ j, (assemble env d.pageInfos entry plan).1.varIndex? x = some j ∧
      (j = id ↔ d.declarer? q x = d.firstDeclarer? x) := by
  obtain ⟨implicit, hglobals, hgains, -⟩ := h.names_of_extends hg
  have hnear := h.binding?_declarer? hjob hplanned hr
  have hfirst := h.binding?_firstDeclarer? hglobals x
  obtain ⟨b, hb, rfl⟩ := Option.map_eq_some_iff.mp hnear
  have hname := h.vars_of_resolves hg (List.mem_of_getElem? hjob) hr
  have hmem : x ∈ g.names.list := List.mem_of_getElem? hname
  have hlist := hgains.list
  rw [List.nil_append] at hlist
  cases hlookup : (plan.names.globals ++ plan.jobs.flatMap RuleJob.own ++ implicit).lookup x with
  | none => exact absurd (hlist ▸ hmem) (lookup_eq_none_iff.mp hlookup)
  | some c =>
    have hindex := findIdx_of_lookup hgains.ids hlookup
    rw [List.length_nil, Nat.zero_add, ← hlist] at hindex
    rw [hlookup] at hfirst
    refine ⟨c.id, ?_, fun hid => ?_, fun hsame => ?_⟩
    · have hlt : g.names.list.findIdx (fun name => decide (name = x)) < g.names.list.length :=
        List.findIdx_lt_length_of_exists ⟨x, hmem, by simp⟩
      rw [Program.varIndex?, hvars, if_pos hlt, hindex]
    · exact h.binding?_inj hg hb hfirst.symm hid.symm
    · rw [hsame, ← hfirst, Option.some.injEq] at hb
      rw [hb]

/-- The instructions of a rule that use variables go by what the rule means. -/
theorem PlanOf.resolves_code (h : PlanOf env d plan) (entry : Int) {q : Place} (hq : q ∈ d.places) :
    ∃ job fn g, plan.jobs[q.number]? = some job ∧ Planned env (plan.jobs.map RuleJob.own) job q ∧
      (assemble env d.pageInfos entry plan).1.functions[q.number]? = some fn ∧
      Generated.Extends { names := plan.names, diags := plan.diags } g ∧
      (assemble env d.pageInfos entry plan).1.vars = g.names.list ∧
      ∀ i ∈ fn.code.toList, i.isVar = true → ∃ u, i.UsesVar job.chain g.names u := by
  obtain ⟨job, hjob, hplanned, -⟩ := h.rule entry hq
  obtain ⟨progress, hstart, hfn, g, hfinal, -, hvars⟩ := assemble_function env d.pageInfos entry hjob
  obtain ⟨cond, action, types, after, condCode, actionCode, g', -, -, hcode, -, -, hcond, haction⟩ :=
    resolvedRule_emits env job progress
  have hall := hstart.trans ((hcond.extends.trans haction.extends).trans hfinal)
  refine ⟨job, _, g, hjob, hplanned, hfn, hall, hvars, fun i hi hvar => ?_⟩
  have hmem := List.mem_filter.mpr ⟨hi, hvar⟩
  rw [hcode, List.toList_toArray, filter_isVar_ruleCode, List.mem_append] at hmem
  rcases hmem with hmem | hmem
  · obtain ⟨k, hk⟩ := List.mem_iff_getElem?.mp hmem
    obtain ⟨u, -, id, rfl, hr⟩ := forall₂_getElem? hcond.vars hk
    exact ⟨u, id, rfl, hr.mono (haction.extends.trans hfinal).globals⟩
  · obtain ⟨k, hk⟩ := List.mem_iff_getElem?.mp hmem
    obtain ⟨u, -, id, rfl, hr⟩ := forall₂_getElem? haction.vars hk
    exact ⟨u, id, rfl, hr.mono hfinal.globals⟩

/-! ## Compiled brains -/

variable {p : Program} {diags : Diagnostics}

/-- Whatever a compiled rule uses under the name `x`, host code called from there finds a variable under
that name too. If the nearest declaration of `x` is the first one, the code and the host load, store and
clear in the same place: the locals of the nearest rule that declares `x`, or else the globals. If it is
not, neither sees anything of what the other one does. -/
theorem host_access (hcompile : compile env d = .ok (p, diags)) (hsmall : p.Small) {q : Place}
    (hq : q ∈ d.places) :
    ∃ fn, p.functions[q.number]? = some fn ∧ fn.Scoped env d p q ∧
      ∀ i ∈ fn.code.toList, i.isVar = true → ∃ (x : String) (id j : Nat),
        i.a.toInt = id ∧ p.vars[id]? = some x ∧ p.varIndex? x = some j ∧
        ∀ {W : Type} (m : Mind W), m.Carries p → d.Keeps m q x id ∧
          if d.declarer? q x = d.firstDeclarer? x then m.SameCell q.number j id
          else m.Apart q.number j id ∧ m.Apart q.number id j := by
  obtain ⟨plan, entry, hplan, rfl⟩ := assemble_of_compile hcompile
  obtain ⟨job, fn, g, hjob, hplanned, hfn, hg, hvars, hcode⟩ := hplan.resolves_code entry hq
  obtain ⟨fn', hfn', hscoped⟩ := hplan.scoped hsmall hq
  obtain rfl : fn' = fn := Option.some.inj (hfn'.symm.trans hfn)
  refine ⟨fn', hfn, hscoped, fun i hi hvar => ?_⟩
  obtain ⟨⟨op, x⟩, id, rfl, hr⟩ := hcode i hi hvar
  obtain ⟨j, hj, hsame⟩ := hplan.varIndex?_eq hg hvars hjob hplanned hr
  have hmem := List.mem_of_getElem? hjob
  have hlt := hplan.resolves_lt hg hmem hr
  rw [← hvars] at hlt
  refine ⟨x, id, j, ?_, ?_, hj, fun m hm => ⟨hplan.keeps hg hvars hq hjob hplanned hr hm, ?_⟩⟩
  · rw [Instr.a_of, toInt_ofInt_of_lt (Nat.lt_trans hlt hsmall.vars)]
  · rw [hvars]
    exact hplan.vars_of_resolves hg hmem hr
  · split
    · rename_i hdeclared
      rw [hsame.mpr hdeclared]
      exact m.sameCell_self q.number id
    · rename_i hother
      have hne : (j : Int) ≠ id := fun heq => hother (hsame.mp (Int.ofNat.inj heq))
      exact ⟨m.apart_of_ne q.number hne, m.apart_of_ne q.number hne.symm⟩

end

/-- For the rule that declares the local and the rule inside it, host code has hold of something else;
for the rule beside them, of the same. -/
theorem host_access_shadowingBrain :
    ∃ p diags, compile shadowingEnv shadowingBrain = .ok (p, diags) ∧ p.Small ∧
      ∀ m : Mind Unit, m.Carries p → ∀ q ∈ shadowingBrain.places,
        ∃ fn, p.functions[q.number]? = some fn ∧
          ∀ i ∈ fn.code.toList, i.isVar = true → ∃ id j : Nat,
            i.a.toInt = id ∧ p.vars[id]? = some "n" ∧ p.varIndex? "n" = some j ∧
            if q.number = 2 then m.SameCell q.number j id
            else m.Apart q.number j id ∧ m.Apart q.number id j := by
  have hran : (compile shadowingEnv shadowingBrain).toOption.any (fun r =>
      decide r.1.Small && decide (r.1.vars = ["n", "n"])) = true := by
    decide +kernel
  obtain ⟨⟨p, diags⟩, hp, hran⟩ := exists_of_any_toOption hran
  simp only [Bool.and_eq_true, decide_eq_true_eq] at hran
  obtain ⟨hsmall, hvars⟩ := hran
  have hdeclared : ∀ q ∈ shadowingBrain.places,
      shadowingBrain.declarer? q "n" = shadowingBrain.firstDeclarer? "n" ↔ q.number = 2 := by
    decide +kernel
  refine ⟨p, diags, hp, hsmall, fun m hm q hq => ?_⟩
  obtain ⟨fn, hfn, -, hcode⟩ := host_access hp hsmall hq
  refine ⟨fn, hfn, fun i hi hvar => ?_⟩
  obtain ⟨x, id, j, ha, hname, hj, hcell⟩ := hcode i hi hvar
  obtain rfl : x = "n" := by
    have hmem := List.mem_of_getElem? hname
    rw [hvars] at hmem
    simpa using hmem
  refine ⟨id, j, ha, hname, hj, ?_⟩
  simpa only [hdeclared q hq] using (hcell m hm).2

/-- A tile that reads `x` by the first number of this name, wherever it is called. -/
def peeking : HostFunction (Stage (Mind Unit)) :=
  { name := "peek"
    sync := some fun c _ s =>
      match c.program.varIndex? "x" with
      | some i => (.ok (s.host.load c.func i), s)
      | none => (.ok .nil, s) }

def peekingEnv : CompileEnv (Stage (Mind Unit)) :=
  match Builtins.register [peeking] shadowingEnv.services with
  | .error _ => shadowingEnv
  | .ok svc =>
    match shadowingEnv.catalog.addSensor svc "peek" "peek" none .unknown with
    | .error _ => { shadowingEnv with services := svc }
    | .ok catalog => { services := svc, catalog := catalog }

/-- A rule sets the global `x`. The next one sets a local of that name and asks the tile for `x`. -/
def peekingBrain : BrainDef :=
  { globals := [{ name := "x", type := .number }, { name := "seen", type := .unknown }]
    pages := [{ rules := [
      { doRow := "$x = 5" },
      { locals := [{ name := "x", type := .number }], whenRow := "$x = 1", doRow := "$seen = peek" }] }] }

/-- The rule has set its own `x` to 1, and the tile that it calls sees the 5 of the global. -/
theorem host_reads_shadowed_global :
    ∃ p diags b b', compile peekingEnv peekingBrain = .ok (p, diags) ∧
      Brain.create p peekingEnv.services {} {} () = .ok b ∧ b.think 0 = .ok b' ∧
      p.vars = ["x", "seen", "x"] ∧ p.varIndex? "x" = some 0 ∧ b'.mind.load 1 2 = .int 1 ∧
      b'.mind.globalValue? "seen" = some (.int 5) := by
  have hran : (compile peekingEnv peekingBrain).toOption.any (fun r =>
      (Brain.create r.1 peekingEnv.services {} {} ()).toOption.any fun b =>
        (b.think 0).toOption.any fun b' =>
          decide (r.1.vars = ["x", "seen", "x"]) && (decide (r.1.varIndex? "x" = some 0) &&
            (decide (b'.mind.load 1 2 = .int 1) &&
              decide (b'.mind.globalValue? "seen" = some (.int 5))))) = true := by
    decide +kernel
  obtain ⟨⟨p, diags⟩, hp, hran⟩ := exists_of_any_toOption hran
  obtain ⟨b, hb, hran⟩ := exists_of_any_toOption hran
  obtain ⟨b', hb', hran⟩ := exists_of_any_toOption hran
  simp only [Bool.and_eq_true, decide_eq_true_eq] at hran
  exact ⟨p, diags, b, b', hp, hb, hb', hran.1, hran.2.1, hran.2.2.1, hran.2.2.2⟩

end TileMind
