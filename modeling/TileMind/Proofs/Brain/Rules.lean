import TileMind.Brain.Mind
import TileMind.Proofs.Code.Layout

/-!
# TileMind.Proofs.Brain.Rules

The rules that a mind keeps. They are rebuilt from the rule table of a program; for a compiled one they
are the rules of the definition, each linked to the rule around it. What a run changes are their
locals only.

* `Mind.Carries`: the rules of a mind are those of a program, with any locals.
* `Mind.rulesOf_get?`: what a rule is linked to.
* `Mind.Carries.owner?_eq`: the rule that holds a variable is the nearest one that lists it.
-/

namespace TileMind

/-! ## The rules of a program -/

namespace Mind

variable {W : Type}

def linkRule (c : Cells RuleState) (r : RuleInfo) : Cells RuleState :=
  if r.parent < 0 || (c.get? r.parent).isNone then c
  else
    (c.modify r.func fun s => { s with parent := some r.parent }).modify r.parent
      fun s => { s with children := s.children ++ [r.func] }

/-- A rule that no program changes: what it is, what it is linked to and its locals. -/
def bare (s : RuleState) : RuleInfo × Option Int × Cells Value := (s.info, s.parent, s.locals)

theorem keys_linkRule (c : Cells RuleState) (r : RuleInfo) :
    (linkRule c r).entries.map Prod.fst = c.entries.map Prod.fst := by
  unfold linkRule
  split
  · rfl
  · rw [Cells.keys_modify, Cells.keys_modify]

theorem keys_foldl_linkRule (c : Cells RuleState) (rs : List RuleInfo) :
    (rs.foldl linkRule c).entries.map Prod.fst = c.entries.map Prod.fst := by
  induction rs generalizing c with
  | nil => rfl
  | cons r rs ih => rw [List.foldl_cons, ih, keys_linkRule]

theorem bare_modify (c : Cells RuleState) (i k : Int) {f : RuleState → RuleState}
    {g : RuleState → RuleInfo × Option Int × Cells Value} (hf : ∀ s, k = i → bare (f s) = g s)
    (hg : ∀ s, k ≠ i → bare s = g s) : ((c.modify i f).get? k).map bare = (c.get? k).map g := by
  rw [Cells.get?_modify]
  by_cases hk : k = i
  · rw [if_pos hk, Option.map_map]
    exact congrArg (Option.map · (c.get? k)) (funext fun s => hf s hk)
  · rw [if_neg hk]
    exact congrArg (Option.map · (c.get? k)) (funext fun s => hg s hk)

theorem bare_linkRule (c : Cells RuleState) (r : RuleInfo) (k : Int) :
    ((linkRule c r).get? k).map bare = (c.get? k).map fun s =>
      (s.info, if k = r.func ∧ 0 ≤ r.parent ∧ (c.get? r.parent).isSome then some r.parent else s.parent,
        s.locals) := by
  unfold linkRule
  by_cases hparent : 0 ≤ r.parent ∧ (c.get? r.parent).isSome
  · have hlinks : ¬ ((decide (r.parent < 0) || (c.get? r.parent).isNone) = true) := by
      simp [hparent.1, Option.isSome_iff_ne_none.mp hparent.2]
    rw [if_neg hlinks]
    have hchildren (c : Cells RuleState) : ((c.modify r.parent fun s =>
        { s with children := s.children ++ [r.func] }).get? k).map bare = (c.get? k).map bare :=
      bare_modify c r.parent k (fun _ _ => rfl) (fun _ _ => rfl)
    rw [hchildren]
    refine bare_modify c r.func k (fun s hk => ?_) (fun s hk => ?_)
    · rw [if_pos ⟨hk, hparent⟩]
      rfl
    · rw [if_neg fun h => hk h.1]
      rfl
  · have hskips : (decide (r.parent < 0) || (c.get? r.parent).isNone) = true := by
      rw [Bool.or_eq_true, decide_eq_true_eq, ← Option.not_isSome]
      by_cases h : 0 ≤ r.parent
      · exact .inr (by simpa using fun hsome => hparent ⟨h, hsome⟩)
      · exact .inl (by omega)
    rw [if_pos hskips]
    refine congrArg (Option.map · (c.get? k)) (funext fun s => ?_)
    rw [if_neg fun h => hparent h.2]
    rfl

theorem bare_foldl_linkRule (rs : List RuleInfo) (hrs : (rs.map RuleInfo.func).Nodup)
    (c : Cells RuleState) (k : Int) :
    ((rs.foldl linkRule c).get? k).map bare = (c.get? k).map fun s =>
      (s.info, match rs.find? fun r => r.func = k with
        | some r => if 0 ≤ r.parent ∧ (c.get? r.parent).isSome then some r.parent else s.parent
        | none => s.parent, s.locals) := by
  induction rs generalizing c with
  | nil => rfl
  | cons r rs ih =>
    obtain ⟨hr, hrs⟩ := List.nodup_cons.mp hrs
    have hkeys (n : Int) : ((linkRule c r).get? n).isSome = (c.get? n).isSome := by
      rw [Bool.eq_iff_iff, Cells.isSome_get?_iff, Cells.isSome_get?_iff, keys_linkRule]
    have hbare := bare_linkRule c r k
    rw [List.foldl_cons, ih hrs]
    cases hs : c.get? k with
    | none =>
      rw [hs] at hbare
      simp [Option.map_eq_none_iff.mp hbare]
    | some s =>
      rw [hs] at hbare
      obtain ⟨s', hs', hbare⟩ := Option.map_eq_some_iff.mp hbare
      obtain ⟨hinfo, hparent, hlocals⟩ : s'.info = s.info ∧ s'.parent = _ ∧ s'.locals = s.locals := by
        simpa [bare] using hbare
      rw [hs', Option.map_some, Option.map_some, hinfo, hlocals, hparent]
      by_cases hk : r.func = k
      · have hnone : rs.find? (fun r => decide (r.func = k)) = none := by
          rw [List.find?_eq_none]
          intro x hx
          have hne : x.func ≠ k := by
            rintro rfl
            exact hr (hk ▸ List.mem_map_of_mem hx)
          simpa using hne
        rw [hnone, List.find?_cons_of_pos (by simpa using hk)]
        simp [hk]
      · rw [List.find?_cons_of_neg (by simpa using hk)]
        simp only [hkeys, Ne.symm hk, false_and, if_false]

/-- A rule table as compilation makes it: rules stand in the order of their functions, and what they
refer to exists. -/
structure Tabled (p : Program) : Prop where
  funcs : ∀ {k : Nat} {r : RuleInfo}, p.rules[k]? = some r → r.func = k
  parents : ∀ r ∈ p.rules, r.parent < p.rules.length
  roots : ∀ page ∈ p.pages, ∀ fn ∈ page.roots, 0 ≤ fn ∧ fn < p.rules.length

def unlinked (p : Program) : Cells RuleState := ⟨p.rules.map fun r => (r.func, { info := r })⟩

theorem foldl_eq_self {α β : Type} {f : β → α → β} {b : β} {xs : List α} (h : ∀ x ∈ xs, f b x = b) :
    xs.foldl f b = b := by
  induction xs with
  | nil => rfl
  | cons x xs ih =>
    rw [List.foldl_cons, h x List.mem_cons_self]
    exact ih fun y hy => h y (List.mem_cons_of_mem _ hy)

section

variable {p : Program}

theorem Tabled.map_func (hp : Tabled p) :
    p.rules.map RuleInfo.func = (List.range p.rules.length).map Int.ofNat := by
  apply List.ext_getElem?
  intro k
  rw [List.getElem?_map, List.getElem?_map]
  cases hr : p.rules[k]? with
  | none =>
    have hlt := List.getElem?_eq_none_iff.mp hr
    simp [hlt]
  | some r =>
    have hlt := (List.getElem?_eq_some_iff.mp hr).1
    simp [hlt, hp.funcs hr]

theorem Tabled.mem_keys (hp : Tabled p) {k : Int} :
    k ∈ p.rules.map RuleInfo.func ↔ 0 ≤ k ∧ k < p.rules.length := by
  rw [hp.map_func, List.mem_map]
  constructor
  · rintro ⟨n, hn, rfl⟩
    exact ⟨Int.natCast_nonneg n, Int.ofNat_lt.mpr (List.mem_range.mp hn)⟩
  · rintro ⟨h0, hlt⟩
    exact ⟨k.toNat, List.mem_range.mpr (by omega), Int.toNat_of_nonneg h0⟩

theorem Tabled.nodup (hp : Tabled p) : (p.rules.map RuleInfo.func).Nodup := by
  rw [hp.map_func]
  exact List.nodup_range.map fun _ _ h => Int.ofNat.inj h

theorem rulesOf_eq (hp : Tabled p) :
    rulesOf p = p.rules.foldl linkRule (unlinked p) := by
  have hown : p.rules.foldl (fun c r => c.set r.func { info := r }) ({} : Cells RuleState) =
      unlinked p := by
    have hentries := Cells.foldl_set ({} : Cells RuleState) RuleInfo.func (fun r => { info := r })
      p.rules (by simpa using hp.nodup)
    generalize p.rules.foldl (fun c r => c.set r.func { info := r }) ({} : Cells RuleState) = own
      at hentries
    cases own
    simpa [unlinked] using hentries
  unfold rulesOf
  dsimp only
  rw [hown]
  change (p.pages.zipIdx.foldl _ (p.rules.foldl linkRule _)) = _
  refine foldl_eq_self fun x hx => foldl_eq_self fun fn hfn => ?_
  obtain ⟨page, i⟩ := x
  have hpage : page ∈ p.pages := List.fst_mem_of_mem_zipIdx hx
  rw [if_pos]
  rw [Cells.isSome_get?_iff, keys_foldl_linkRule, unlinked, List.map_map]
  exact hp.mem_keys.mpr (hp.roots page hpage fn hfn)

theorem Tabled.find? (hp : Tabled p) {k : Nat} {r : RuleInfo} (hr : p.rules[k]? = some r) :
    p.rules.find? (fun r => decide (r.func = (k : Int))) = some r := by
  obtain ⟨hlt, hget⟩ := List.getElem?_eq_some_iff.mp hr
  rw [List.find?_eq_some_iff_getElem]
  refine ⟨by simpa using hp.funcs hr, k, hlt, hget, fun j hj => ?_⟩
  have hfunc := hp.funcs (List.getElem?_eq_getElem (Nat.lt_trans hj hlt))
  simp only [hfunc, Bool.not_eq_true', decide_eq_false_iff_not]
  omega

theorem get?_unlinked (p : Program) (k : Int) : (unlinked p).get? k =
    (p.rules.find? fun r => decide (r.func = k)).map fun r => { info := r } := by
  unfold unlinked Cells.get?
  induction p.rules with
  | nil => rfl
  | cons r rs ih =>
    rw [List.map_cons, lookup_cons_eq, List.find?_cons]
    by_cases hk : k = r.func
    · simp [hk]
    · rw [if_neg hk, ih, decide_eq_false (Ne.symm hk)]

theorem rulesOf_get? (hp : Tabled p) {k : Nat} {r : RuleInfo} (hr : p.rules[k]? = some r) :
    ((rulesOf p).get? k).map bare =
      some (r, if r.parent < 0 then none else some r.parent, {}) := by
  rw [rulesOf_eq hp, bare_foldl_linkRule _ hp.nodup, get?_unlinked, hp.find? hr, Option.map_some,
    Option.map_some]
  simp only [Option.some.injEq, Prod.mk.injEq, and_true, true_and]
  by_cases hneg : r.parent < 0
  · rw [if_pos hneg, if_neg (by omega)]
  · have hlt := hp.parents r (List.mem_of_getElem? hr)
    obtain ⟨n, hn⟩ := Int.eq_ofNat_of_zero_le (by omega : 0 ≤ r.parent)
    have hparent : p.rules[n]? = some p.rules[n] := List.getElem?_eq_getElem (by omega)
    have hsome : ((unlinked p).get? r.parent).isSome := by
      rw [get?_unlinked, hn, hp.find? hparent]
      rfl
    rw [if_neg hneg, if_pos ⟨by omega, hsome⟩]

theorem length_rulesOf (hp : Tabled p) : (rulesOf p).entries.length = p.rules.length := by
  rw [← List.length_map Prod.fst, rulesOf_eq hp, keys_foldl_linkRule]
  simp [unlinked]

end

def shape (rules : Cells RuleState) : List (Int × RuleInfo × Option Int) :=
  rules.entries.map fun e => (e.1, e.2.info, e.2.parent)

/-- The mind is that of a brain that runs a program. Its locals may be any. -/
structure Carries (m : Mind W) (p : Program) : Prop where
  program : m.program = p
  shape : shape m.rules = shape (rulesOf p)

theorem get?_of_shape {c c' : Cells RuleState} (h : shape c = shape c') (k : Int) :
    (c.get? k).map (fun s => (s.info, s.parent)) = (c'.get? k).map fun s => (s.info, s.parent) := by
  have hlookup (entries : List (Int × RuleState)) : (entries.lookup k).map (fun s => (s.info, s.parent)) =
      (entries.map fun e => (e.1, e.2.info, e.2.parent)).lookup k := by
    induction entries with
    | nil => rfl
    | cons e entries ih =>
      obtain ⟨key, s⟩ := e
      rw [List.map_cons, lookup_cons_eq, lookup_cons_eq, ← ih]
      split <;> rfl
  rw [Cells.get?, Cells.get?, hlookup, hlookup]
  exact congrArg (List.lookup k) h

theorem Carries.get? {m : Mind W} {p : Program} (hm : m.Carries p) (hp : Tabled p) {k : Nat}
    {r : RuleInfo} (hr : p.rules[k]? = some r) :
    ∃ s, m.rules.get? k = some s ∧ s.info = r ∧
      s.parent = if r.parent < 0 then none else some r.parent := by
  have hsame := get?_of_shape hm.shape k
  obtain ⟨s, hs, hbare⟩ := Option.map_eq_some_iff.mp (rulesOf_get? hp hr)
  rw [hs, Option.map_some] at hsame
  obtain ⟨s', hs', hpair⟩ := Option.map_eq_some_iff.mp hsame
  simp only [bare, Prod.mk.injEq] at hbare hpair
  exact ⟨s', hs', hpair.1.trans hbare.1, hpair.2.trans hbare.2.1⟩

theorem Carries.length {m : Mind W} {p : Program} (hm : m.Carries p) (hp : Tabled p) :
    m.rules.entries.length = p.rules.length := by
  have hlength := congrArg List.length hm.shape
  simpa [Mind.shape, length_rulesOf hp] using hlength

theorem Carries.get?_eq_none {m : Mind W} {p : Program} (hm : m.Carries p) (hp : Tabled p) {k : Int}
    (hk : k < 0 ∨ p.rules.length ≤ k) : m.rules.get? k = none := by
  have hkeys : m.rules.entries.map Prod.fst = p.rules.map RuleInfo.func := by
    have hfst := congrArg (List.map Prod.fst) hm.shape
    have hof : (rulesOf p).entries.map Prod.fst = p.rules.map RuleInfo.func := by
      rw [rulesOf_eq hp, keys_foldl_linkRule, unlinked, List.map_map]
      rfl
    simp only [Mind.shape, List.map_map] at hfst
    rw [← hof]
    exact hfst
  rw [← Option.not_isSome_iff_eq_none, Cells.isSome_get?_iff, hkeys, hp.mem_keys]
  omega

end Mind

/-! ## The rules of a definition -/

section

variable {σ W : Type} {env : CompileEnv σ} {d : BrainDef} {plan : Plan} {entry : Int}

/-- The number of rules around a rule is less than its own number. -/
theorem BrainDef.length_outer_le {q : Place} (hq : q ∈ d.places) : q.outer.length ≤ q.number := by
  induction hn : q.number using Nat.strong_induction_on generalizing q with
  | _ n ih =>
    rcases d.parent_places hq with ⟨houter, -⟩ | ⟨parent, hparent, i, hchild⟩
    · rw [houter]
      exact Nat.zero_le _
    · have hlt := hchild.lt
      have hle := ih parent.number (by omega) hparent rfl
      rw [hchild.outer, List.length_cons]
      omega

theorem BrainDef.getElem?_number {q : Place} (hq : q ∈ d.places) : d.places[q.number]? = some q := by
  obtain ⟨k, hk⟩ := List.mem_iff_getElem?.mp hq
  rwa [d.number_places hk]

theorem PlanOf.rule (h : PlanOf env d plan) (entry : Int) {q : Place} (hq : q ∈ d.places) :
    ∃ job, plan.jobs[q.number]? = some job ∧ Planned env (plan.jobs.map RuleJob.own) job q ∧
      (assemble env d.pageInfos entry plan).1.rules[q.number]? = some job.info := by
  obtain ⟨job, hjob, hplanned⟩ := forall₂_getElem? h.planned.flip (d.getElem?_number hq)
  refine ⟨job, hjob, hplanned, ?_⟩
  simp [assemble, hjob]

theorem PlanOf.tabled (h : PlanOf env d plan) :
    Mind.Tabled (assemble env d.pageInfos entry plan).1 := by
  have hlength : (assemble env d.pageInfos entry plan).1.rules.length = d.places.length := by
    simp [assemble, h.planned.length_eq]
  have hplace {k : Nat} {r : RuleInfo}
      (hr : (assemble env d.pageInfos entry plan).1.rules[k]? = some r) :
      ∃ q ∈ d.places, k = q.number ∧ r.func = q.number ∧
        r.parent = (q.parent.map Int.ofNat).getD (-1) := by
    obtain ⟨job, hjob, rfl⟩ : ∃ job, plan.jobs[k]? = some job ∧ job.info = r := by
      simpa [assemble] using hr
    obtain ⟨q, hq, hplanned⟩ := forall₂_getElem? h.planned hjob
    refine ⟨q, List.mem_of_getElem? hq, (d.number_places hq).symm, ?_, ?_⟩
    · simp [RuleJob.info, hplanned.func]
    · simp [RuleJob.info, hplanned.parent]
  refine ⟨fun hr => ?_, fun r hr => ?_, fun page hpage fn hfn => ?_⟩
  · obtain ⟨q, -, rfl, hfunc, -⟩ := hplace hr
    exact hfunc
  · obtain ⟨k, hk⟩ := List.mem_iff_getElem?.mp hr
    obtain ⟨q, hq, rfl, -, hparent⟩ := hplace hk
    have hlt := (List.getElem?_eq_some_iff.mp hk).1
    rw [hparent, Place.parent]
    rcases d.parent_places hq with ⟨houter, -⟩ | ⟨parent, -, i, hchild⟩
    · simp [houter]
      omega
    · have := hchild.lt
      simp [hchild.outer]
      omega
  · rw [hlength]
    obtain ⟨⟨info, j⟩, hinfo, rfl⟩ := List.mem_map.mp hpage
    obtain ⟨k, page, hpage, rfl⟩ := mem_pageInfos (List.fst_mem_of_mem_zipIdx hinfo)
    obtain ⟨root, hroot, rfl⟩ := List.mem_map.mp hfn
    obtain ⟨place, hplace, rfl⟩ := List.mem_map.mp hroot
    obtain ⟨n, hn⟩ := List.mem_iff_getElem?.mp (List.mem_of_mem_filter hplace)
    have := (List.getElem?_eq_some_iff.mp hn).1
    rw [d.number_places hn]
    exact ⟨Int.natCast_nonneg n, Int.ofNat_lt.mpr this⟩

/-- Whether the rule with a number lists a variable among its locals. -/
def Program.lists (p : Program) (var : Int) (n : Nat) : Bool :=
  (p.rules[n]?).any fun r => r.locals.contains var

theorem PlanOf.ownerFrom_eq (h : PlanOf env d plan) {m : Mind W}
    (hm : m.Carries (assemble env d.pageInfos entry plan).1) (var : Int) (depth : Nat) {q : Place}
    (hq : q ∈ d.places) : m.ownerFrom var depth q.number =
      (((q.number :: q.outer).take depth).find?
        ((assemble env d.pageInfos entry plan).1.lists var)).map Int.ofNat := by
  induction depth generalizing q with
  | zero => rfl
  | succ depth ih =>
    obtain ⟨job, hjob, hplanned, hrule⟩ := h.rule entry hq
    obtain ⟨s, hs, hinfo, hparent⟩ := hm.get? h.tabled hrule
    have hlists : (assemble env d.pageInfos entry plan).1.lists var q.number =
        s.info.locals.contains var := by
      rw [Program.lists, hrule, Option.any_some, hinfo]
    have hlink : s.parent = q.parent.map Int.ofNat := by
      have hinfo' : job.info.parent = (q.parent.map Int.ofNat).getD (-1) := by
        simp [RuleJob.info, hplanned.parent]
      rw [hparent, hinfo']
      cases q.parent with
      | none => rfl
      | some n =>
        rw [Option.map_some, Option.getD_some, if_neg (by simp)]
    rw [Mind.ownerFrom, hs, List.take_succ_cons, List.find?_cons, hlists]
    dsimp only
    cases s.info.locals.contains var with
    | true => rfl
    | false =>
      rw [if_neg (by simp), hlink, Place.parent]
      rcases d.parent_places hq with ⟨houter, -⟩ | ⟨parent, hparent, i, hchild⟩
      · simp [houter]
      · rw [hchild.outer]
        exact ih hparent

/-- A variable is held by the nearest rule that lists it. -/
theorem PlanOf.owner?_eq (h : PlanOf env d plan) {m : Mind W}
    (hm : m.Carries (assemble env d.pageInfos entry plan).1) (var : Int) {q : Place}
    (hq : q ∈ d.places) : m.owner? q.number var =
      ((q.number :: q.outer).find?
        ((assemble env d.pageInfos entry plan).1.lists var)).map Int.ofNat := by
  have hlt := (List.getElem?_eq_some_iff.mp (d.getElem?_number hq)).1
  have hlength : m.rules.entries.length = d.places.length := by
    rw [hm.length h.tabled]
    simp [assemble, h.planned.length_eq]
  have hdepth : (q.number :: q.outer).length ≤ m.rules.entries.length + 1 := by
    have := BrainDef.length_outer_le hq
    rw [List.length_cons]
    omega
  rw [Mind.owner?, h.ownerFrom_eq hm var _ hq, List.take_of_length_le hdepth]

end

end TileMind
