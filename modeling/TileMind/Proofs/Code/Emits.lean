import TileMind.Proofs.Code.Compile
import TileMind.Proofs.Code.Generated
import TileMind.Proofs.Code.Plan

/-!
# TileMind.Proofs.Code.Emits

Code generation seen as a sequence of few kinds of steps: an instruction that refers to nothing, one
that refers to a constant, one that refers to a variable, and changes that leave no code. Everything
that holds of each kind of step then holds of the code of every tree, typed or not.

* `Row.uses`: the variables that the code of a tree refers to, in order.
* `Row.emits_code`: the code of a tree comes about in such steps, and refers to these variables.
* `Emits.extends`: constants and variables keep their places.
* `Emits.refersTo`, `Emits.vars`: what the code refers to is in the tables.
-/

namespace TileMind

/-- The opcodes of rows that refer to no table of the program. -/
def Op.isFree : Op → Bool
  | .pop | .dup | .jumpIfFalse | .jumpIfTrue | .hostCall | .hostCallAsync | .hostCallArgs
  | .hostCallArgsAsync | .await | .mapSet | .getField | .setField => true
  | _ => false

def Op.inRow : Op → Bool
  | .pushConst | .mapNew | .loadVar | .storeVar => true
  | op => op.isFree

/-- Code generated in a rule that sees `chain`, with the variables that it refers to. -/
inductive Emits (chain : Chain) : Generated → List Instr → List (Op × String) → Generated → Prop where
  | note (g : Generated) (lastSite : Nat) (sites : List CallSite) (diags : Diagnostics) :
    Emits chain g [] [] { g with lastSite := lastSite, sites := sites, diags := diags }
  | plain (g : Generated) (op : Op) (h : op.isFree = true) (a b c : Int) :
    Emits chain g [.of op a b c] [] g
  | const (g : Generated) (op : Op) (h : op = .pushConst ∨ op = .mapNew) (d : Datum) :
    Emits chain g [.of op (g.pool.add d).1] [] { g with pool := (g.pool.add d).2 }
  | var (g : Generated) (op : Op) (h : op = .loadVar ∨ op = .storeVar) (name : String) :
    Emits chain g [.of op (g.resolveVar chain name).1] [(op, name)] (g.resolveVar chain name).2
  | append {g g' g'' : Generated} {c d : List Instr} {us vs : List (Op × String)} :
    Emits chain g c us g' → Emits chain g' d vs g'' → Emits chain g (c ++ d) (us ++ vs) g''

variable {chain : Chain} {g g' g'' : Generated} {c : List Instr} {us : List (Op × String)}

theorem emits_nil (chain : Chain) (g : Generated) : Emits chain g [] [] g := .note g g.lastSite g.sites g.diags

theorem emits_push (chain : Chain) (g : Generated) (s : Scalar) :
    Emits chain g (g.push s).1 [] (g.push s).2 :=
  .const g .pushConst (.inl rfl) (.scalar s)

theorem Emits.andPlain (h : Emits chain g c us g') (op : Op) (hop : op.isFree = true) (x y z : Int) :
    Emits chain g (c ++ [Instr.of op x y z]) us g' := by
  have happ := h.append (.plain g' op hop x y z)
  rwa [List.append_nil] at happ

theorem Emits.andPush (h : Emits chain g c us g') (s : Scalar) :
    Emits chain g (c ++ (g'.push s).1) us (g'.push s).2 := by
  have happ := h.append (emits_push chain g' s)
  rwa [List.append_nil] at happ

theorem Emits.andSite (h : Emits chain g c us g') (fn : Int) : Emits chain g c us (g'.newSite fn).2 := by
  have happ := h.append (.note g' (g'.lastSite + 1) (g'.sites ++ [⟨fn, ↑(g'.lastSite + 1)⟩]) g'.diags)
  rwa [List.append_nil, List.append_nil] at happ

theorem Emits.andConvert (h : Emits chain g c us g') (path : List Conversion) :
    Emits chain g (c ++ conversionCode path) us g' := by
  induction path generalizing c with
  | nil => simpa [conversionCode] using h
  | cons conv path ih =>
    have hrest := ih (h.andPlain .hostCall rfl conv.fn 1 0)
    rwa [List.append_assoc] at hrest

theorem Emits.andOverload (h : Emits chain g c us g') (o : Overload) (arity : Nat) :
    Emits chain g (c ++ overloadCode o arity) us g' := by
  unfold overloadCode
  split
  · have hawait := (h.andPlain .hostCallAsync rfl o.fn arity 0).andPlain .await rfl 0 0 0
    rwa [List.append_assoc] at hawait
  · exact h.andPlain .hostCall rfl o.fn arity 0

theorem Emits.andTileCall (h : Emits chain g c us g') (t : Tile) (site : Nat) :
    Emits chain g (c ++ tileCallCode t site) us g' := by
  unfold tileCallCode
  split
  · have hawait :=
      (h.andPlain .hostCallArgsAsync rfl t.fn 0 site).andPlain .await rfl 0 0 0
    rwa [List.append_assoc] at hawait
  · exact h.andPlain .hostCallArgs rfl t.fn 0 site

namespace Row

def TypeTable.guard {α : Type} (types : TypeTable) (m : Mark) (uses : List α) : List α :=
  if (types.get? m.id).isSome then uses else []

mutual

/-- The variables that the code of an expression reads and writes, in order. -/
def uses (types : TypeTable) : Expr → List (Op × String)
  | .variable m name => types.guard m [(.loadVar, name)]
  | .field m object _ => types.guard m (uses types object)
  | .assign m (.variable _ name) value => types.guard m (uses types value ++ [(.storeVar, name)])
  | .assign m (.field _ object _) value => types.guard m (uses types object ++ uses types value)
  | .binary m op left right =>
    types.guard m
      (if op.isShortCircuit || (types.get m.id).overload.isSome then
        uses types left ++ uses types right
      else [])
  | .unary m _ operand =>
    types.guard m (if (types.get m.id).overload.isSome then uses types operand else [])
  | .parameter m _ value => types.guard m (uses types value)
  | .call m _ args => types.guard m (argUses types args)
  | _ => []
termination_by structural e => e

def argUses (types : TypeTable) : Args → List (Op × String)
  | .nil => []
  | .cons _ value rest => uses types value ++ argUses types rest
termination_by structural args => args

end

theorem emits_typedCode {scope : RuleScope} {m : Mark} {g : Generated} {us : List (Op × String)}
    {body : TypeInfo → Generated → List Instr × Generated}
    (h : ∀ info, scope.types.get? m.id = some info →
      Emits scope.chain g (body info g).1 us (body info g).2) :
    Emits scope.chain g (typedCode scope m g body).1 (scope.types.guard m us)
      (typedCode scope m g body).2 := by
  unfold typedCode TypeTable.guard
  cases hinfo : scope.types.get? m.id with
  | some info => exact h info hinfo
  | none => exact (Emits.note g g.lastSite g.sites _).append (emits_push _ _ .nil)

/-- A node that refers to no variable whatever is known of it. -/
theorem emits_typedPush {scope : RuleScope} {m : Mark} {g : Generated}
    {body : TypeInfo → Generated → List Instr × Generated}
    (h : ∀ info, Emits scope.chain g (body info g).1 [] (body info g).2) :
    Emits scope.chain g (typedCode scope m g body).1 [] (typedCode scope m g body).2 := by
  have hcode := emits_typedCode (m := m) fun info _ => h info
  rwa [TypeTable.guard, ite_self] at hcode

mutual

/-- The code of an expression refers to the variables it uses. -/
theorem emits_code (scope : RuleScope) : ∀ (e : Expr) (g : Generated),
    Emits scope.chain g (code scope e g).1 (uses scope.types e) (code scope e g).2
  | .literal m value, g => by
    rw [code]
    exact emits_typedPush fun info => (emits_push _ g value).andConvert info.conversion
  | .variable m name, g => by
    rw [code, uses]
    exact emits_typedCode fun info _ => (Emits.var g .loadVar (.inl rfl) name).andConvert info.conversion
  | .field m object name, g => by
    rw [code, uses]
    refine emits_typedCode fun info _ => ?_
    exact (((emits_code scope object g).andPush (.string name)).andPlain .getField
      rfl 0 0 0).andConvert info.conversion
  | .assign m (.variable _ name) value, g => by
    rw [code, uses]
    refine emits_typedCode fun info _ => ?_
    have hstore := (((emits_code scope value g).andConvert info.conversion).andPlain .dup
      rfl 0 0 0).append (.var _ .storeVar (.inr rfl) name)
    rwa [List.append_assoc] at hstore
  | .assign m (.field _ object name) value, g => by
    rw [code, uses]
    refine emits_typedCode fun info _ => ?_
    have hvalue := ((emits_code scope object g).andPush (.string name)).append
      (emits_code scope value _)
    exact (hvalue.andConvert info.conversion).andPlain .setField rfl 0 0 0
  | .assign m (.literal _ _) _, g | .assign m (.unary _ _ _) _, g
  | .assign m (.binary _ _ _ _) _, g | .assign m (.assign _ _ _) _, g
  | .assign m (.parameter _ _ _) _, g | .assign m (.modifier _ _ _) _, g
  | .assign m (.call _ _ _) _, g | .assign m (.empty _) _, g
  | .assign m (.error _ _) _, g => by
    simp only [code, uses]
    exact emits_typedPush fun info => emits_push _ g .nil
  | .binary m op left right, g => by
    rw [code, uses]
    refine emits_typedCode fun info hinfo => ?_
    have hget : scope.types.get m.id = info := by simp [TypeTable.get, hinfo]
    rw [hget]
    cases hop : op.isShortCircuit with
    | true =>
      have hleft := ((emits_code scope left g).andPlain .dup rfl 0 0 0).andPlain
        (if op = .and then .jumpIfFalse else .jumpIfTrue) (by split <;> rfl)
        (((code scope right (code scope left g).2).1.length : Int) + 2) 0 0
      have hboth := (hleft.andPlain .pop rfl 0 0 0).append (emits_code scope right _)
      simpa [shortCircuitCode] using hboth.andConvert info.conversion
    | false =>
      cases ho : info.overload with
      | none => simpa using (emits_push _ g .nil).andConvert info.conversion
      | some o =>
        have hboth := (emits_code scope left g).append (emits_code scope right _)
        simpa using (hboth.andOverload o 2).andConvert info.conversion
  | .unary m op operand, g => by
    rw [code, uses]
    refine emits_typedCode fun info hinfo => ?_
    have hget : scope.types.get m.id = info := by simp [TypeTable.get, hinfo]
    rw [hget]
    cases ho : info.overload with
    | none => simpa using (emits_push _ g .nil).andConvert info.conversion
    | some o => simpa using ((emits_code scope operand g).andOverload o 1).andConvert info.conversion
  | .parameter m tile value, g => by
    rw [code, uses]
    exact emits_typedCode fun info _ => (emits_code scope value g).andConvert info.conversion
  | .modifier m tile count, g => by
    rw [code]
    exact emits_typedPush fun info => (emits_push _ g _).andConvert info.conversion
  | .call m tile args, g => by
    rw [code, uses]
    refine emits_typedCode fun info _ => ?_
    have hmap := (emits_nil scope.chain g).append
      (.const g .mapNew (.inr rfl) (.scalar (.string TypeId.args)))
    have hargs := hmap.append (emits_argsCode scope args _)
    exact ((hargs.andSite tile.fn).andTileCall tile _).andConvert info.conversion
  | .empty m, g => by
    rw [code]
    exact emits_typedPush fun info => (emits_push _ g .void).andConvert info.conversion
  | .error m _, g => by
    rw [code]
    exact emits_typedPush fun info => (emits_push _ g .nil).andConvert info.conversion
termination_by structural e => e

theorem emits_argsCode (scope : RuleScope) : ∀ (args : Args) (g : Generated),
    Emits scope.chain g (argsCode scope args g).1 (argUses scope.types args) (argsCode scope args g).2
  | .nil, g => emits_nil _ g
  | .cons slot value rest, g => by
    rw [argsCode, argUses]
    have hvalue := (emits_push scope.chain g (.int slot)).append (emits_code scope value _)
    exact (hvalue.andPlain .mapSet rfl 0 0 0).append (emits_argsCode scope rest _)
termination_by structural args => args

end

end Row

/-! ## What stays in place -/

/-- The index of a pool points into it. -/
def ConstantPool.InRange (p : ConstantPool) : Prop :=
  ∀ key slot, p.index.lookup key = some slot → slot < p.values.size

theorem ConstantPool.InRange.add {p : ConstantPool} (h : p.InRange) (d : Datum) :
    (p.add d).2.InRange ∧ (p.add d).1 < (p.add d).2.values.size := by
  have hpush : (p.push d).2.InRange ∧ (p.push d).1 < (p.push d).2.values.size := by
    refine ⟨fun key slot hslot => ?_, by simp [push]⟩
    have := h key slot hslot
    simp only [push, Array.size_push]
    omega
  unfold ConstantPool.add
  split
  · split
    · split
      · rename_i hslot
        exact ⟨h, h _ _ hslot⟩
      · refine ⟨fun key slot hslot => ?_, by simp⟩
        simp only [List.lookup_append, Option.or_eq_some_iff] at hslot
        rw [Array.size_push]
        rcases hslot with hslot | ⟨-, hslot⟩
        · have := h key slot hslot
          omega
        · rw [List.lookup_cons] at hslot
          split at hslot
          · cases hslot
            exact Nat.lt_succ_self _
          · cases hslot
    · exact hpush
  · exact hpush

/-- Everything of `g` keeps its place in `g'`. New variables are globals that nobody declares. -/
structure Generated.Extends (g g' : Generated) : Prop where
  values : g.pool.values.toList <+: g'.pool.values.toList
  inRange : g.pool.InRange → g'.pool.InRange
  names : ∃ implicit, g'.names.globals = g.names.globals ++ implicit ∧
    g.names.Gains implicit g'.names ∧ ∀ b ∈ implicit, b.2.isDeclared = false

theorem Generated.Extends.refl (g : Generated) : g.Extends g :=
  ⟨List.prefix_rfl, id, [], by simp, .refl _, by simp⟩

theorem Generated.Extends.trans (h : g.Extends g') (h' : g'.Extends g'') : g.Extends g'' := by
  obtain ⟨first, hfirst, hgains, hundeclared⟩ := h.names
  obtain ⟨second, hsecond, hgains', hundeclared'⟩ := h'.names
  refine ⟨h.values.trans h'.values, fun hg => h'.inRange (h.inRange hg), first ++ second,
    by rw [hsecond, hfirst, List.append_assoc], hgains.append hgains', ?_⟩
  intro b hb
  rcases List.mem_append.mp hb with hb | hb
  · exact hundeclared b hb
  · exact hundeclared' b hb

theorem Generated.Extends.globals (h : g.Extends g') : g.names.globals <+: g'.names.globals := by
  obtain ⟨implicit, hglobals, -⟩ := h.names
  exact ⟨implicit, hglobals.symm⟩

theorem Generated.extends_resolveVar (g : Generated) (chain : Chain) (name : String) :
    g.Extends (g.resolveVar chain name).2 := by
  refine ⟨List.prefix_rfl, id, ?_⟩
  unfold resolveVar Names.resolve
  dsimp only
  split
  · exact ⟨[], by simp, .refl _, by simp⟩
  · split
    · exact ⟨[], by simp, .refl _, by simp⟩
    · exact ⟨_, rfl, g.names.gains_addGlobal name .unknown false, by simp⟩

theorem Emits.extends (h : Emits chain g c us g') : g.Extends g' := by
  induction h with
  | note g lastSite sites diags => exact ⟨List.prefix_rfl, id, [], by simp, ⟨by simp, rfl⟩, by simp⟩
  | plain g => exact .refl g
  | const g _ _ d =>
    exact ⟨g.pool.values_prefix_add d, fun hg => (hg.add d).1, [], by simp, .refl _, by simp⟩
  | var g _ _ name => exact g.extends_resolveVar chain name
  | append _ _ ih ih' => exact ih.trans ih'

/-! ## What code refers to -/

def Instr.isVar (i : Instr) : Bool := i.op? = some .loadVar || i.op? = some .storeVar

theorem Emits.constant (h : Emits chain g c us g') (hg : g.pool.InRange) {i : Instr} (hi : i ∈ c)
    (hop : i.op? = some .pushConst ∨ i.op? = some .mapNew) :
    ∃ slot : Nat, i.a = Int32.ofInt slot ∧ slot < g'.pool.values.size := by
  induction h with
  | note => cases hi
  | plain g op hfree =>
    rw [List.mem_singleton.mp hi, Instr.op?_of, Option.some.injEq, Option.some.injEq] at hop
    rcases hop with rfl | rfl <;> cases hfree
  | const g _ _ d =>
    rw [List.mem_singleton.mp hi]
    exact ⟨_, rfl, (hg.add d).2⟩
  | var g _ hvar =>
    rw [List.mem_singleton.mp hi, Instr.op?_of, Option.some.injEq, Option.some.injEq] at hop
    rcases hvar with rfl | rfl <;> simp at hop
  | append hc hd ihc ihd =>
    rcases List.mem_append.mp hi with hi | hi
    · obtain ⟨slot, ha, hlt⟩ := ihc hg hi
      have := hd.extends.values.length_le
      simp only [Array.length_toList] at this
      exact ⟨slot, ha, by omega⟩
    · exact ihd (hc.extends.inRange hg) hi

theorem Emits.inRow (h : Emits chain g c us g') {i : Instr} (hi : i ∈ c) :
    ∃ op, i.op? = some op ∧ op.inRow = true := by
  induction h with
  | note => cases hi
  | plain g op hfree =>
    rw [List.mem_singleton.mp hi, Instr.op?_of]
    refine ⟨_, rfl, ?_⟩
    cases op <;> first | rfl | cases hfree
  | const g _ hconst =>
    rw [List.mem_singleton.mp hi, Instr.op?_of]
    rcases hconst with rfl | rfl <;> exact ⟨_, rfl, rfl⟩
  | var g _ hvar =>
    rw [List.mem_singleton.mp hi, Instr.op?_of]
    rcases hvar with rfl | rfl <;> exact ⟨_, rfl, rfl⟩
  | append _ _ ihc ihd =>
    rcases List.mem_append.mp hi with hi | hi
    · exact ihc hi
    · exact ihd hi

/-- The instruction does what a use says, to the variable that is meant in the end. -/
def Instr.UsesVar (chain : Chain) (n : Names) (i : Instr) (u : Op × String) : Prop :=
  ∃ id : Nat, i = .of u.1 id ∧ n.Resolves chain u.2 id

/-- The instructions that refer to variables are the uses, in order. -/
theorem Emits.vars (h : Emits chain g c us g') :
    List.Forall₂ (Instr.UsesVar chain g'.names) (c.filter Instr.isVar) us := by
  induction h with
  | note => exact .nil
  | plain g op hfree a b c =>
    have hvar : (Instr.of op a b c).isVar = false := by
      cases op <;> first | (cases hfree; done) | simp [Instr.isVar]
    simp [hvar]
  | const g _ hconst d =>
    rcases hconst with rfl | rfl <;> simp [Instr.isVar]
  | var g op hvar name =>
    have hisVar : (Instr.of op (g.resolveVar chain name).1).isVar = true := by
      rcases hvar with rfl | rfl <;> simp [Instr.isVar]
    rw [List.filter_cons_of_pos hisVar, List.filter_nil]
    exact .cons ⟨_, rfl, g.names.resolves_resolve chain name⟩ .nil
  | append hc hd ihc ihd =>
    rw [List.filter_append]
    refine List.rel_append (ihc.imp fun i u => ?_) ihd
    rintro ⟨id, hi, hr⟩
    exact ⟨id, hi, hr.mono hd.extends.globals⟩

/-! ## Rules -/

section

variable {σ : Type} (env : CompileEnv σ)

/-- The parts of the code of a rule. -/
theorem resolvedRule_emits (job : RuleJob) (p : Progress) :
    ∃ cond action types q condCode actionCode g, readRule env job p = (cond, action, types, q) ∧
      (resolvedRule env job p).1.name = job.path ∧
      (resolvedRule env job p).1.code = (ruleCode condCode actionCode
        (childrenCode env.isolateChildren job.children)).toArray ∧
      Adds condCode 0 1 ∧ Adds actionCode 0 1 ∧
      Emits job.chain p.generated condCode (if cond.isEmpty then [] else Row.uses types cond) g ∧
      Emits job.chain g actionCode (Row.uses types action) (resolvedRule env job p).2.generated := by
  have hread : (readRule env job p).2.2.2.generated =
      { p.generated with diags := (readRule env job p).2.2.2.generated.diags } := rfl
  unfold resolvedRule
  generalize readRule env job p = rows at hread ⊢
  obtain ⟨cond, action, types, q⟩ := rows
  dsimp only at hread ⊢
  have hstart : Emits job.chain p.generated [] [] q.generated := by
    rw [hread]
    exact .note p.generated _ _ _
  refine ⟨cond, action, types, q, _, _, _, rfl, rfl, rfl, ?_,
    Row.adds_code ⟨types, job.chain, job.path⟩ action _ le_rfl, ?_,
    Row.emits_code ⟨types, job.chain, job.path⟩ action _⟩
  · split
    · exact adds_push q.generated _ le_rfl
    · exact Row.adds_code _ cond q.generated le_rfl
  · split
    · exact hstart.append (emits_push _ q.generated (.bool true))
    · exact hstart.append (Row.emits_code ⟨types, job.chain, job.path⟩ cond q.generated)

theorem resolvedRule_extends (job : RuleJob) (p : Progress) :
    p.generated.Extends (resolvedRule env job p).2.generated := by
  obtain ⟨_, _, _, _, _, _, g, -, -, -, -, -, hcond, haction⟩ := resolvedRule_emits env job p
  exact hcond.extends.trans haction.extends

theorem extends_sites (g : Generated) (sites : List CallSite) : g.Extends { g with sites := sites } := by
  have hnote : Emits [] g [] [] { g with sites := sites } := .note g g.lastSite sites g.diags
  exact hnote.extends

/-- Rules are compiled one after the other; each finds in place what the ones before have left. -/
theorem resolveEach_spec (jobs : List RuleJob) (p : Progress) :
    (resolveEach (resolvedRule env) jobs p).1.length = jobs.length ∧
    p.generated.Extends (resolveEach (resolvedRule env) jobs p).2.2.generated ∧
    ∀ (k : Nat) job, jobs[k]? = some job → ∃ q, p.generated.Extends q.generated ∧
      (resolveEach (resolvedRule env) jobs p).1[k]? = some (resolvedRule env job q).1 ∧
      (resolvedRule env job q).2.generated.Extends
        (resolveEach (resolvedRule env) jobs p).2.2.generated := by
  induction jobs generalizing p with
  | nil =>
    rw [resolveEach]
    exact ⟨rfl, .refl _, by simp⟩
  | cons job jobs ih =>
    rw [resolveEach]
    dsimp only
    generalize hstart : ({ p with generated := { p.generated with sites := [] } } : Progress) = start
    have hp : p.generated.Extends start.generated := by
      rw [← hstart]
      exact extends_sites p.generated []
    have hfirst := hp.trans (resolvedRule_extends env job start)
    obtain ⟨hlen, hrest, hall⟩ := ih (resolvedRule env job start).2
    refine ⟨by rw [List.length_cons, hlen, List.length_cons], hfirst.trans hrest, ?_⟩
    intro k job' hk
    cases k with
    | zero =>
      simp only [List.getElem?_cons_zero, Option.some.injEq] at hk
      subst hk
      exact ⟨start, hp, rfl, hrest⟩
    | succ k =>
      rw [List.getElem?_cons_succ] at hk
      obtain ⟨q, hq, hfn, hfinal⟩ := hall k job' hk
      exact ⟨q, hfirst.trans hq, hfn, hfinal⟩

end

end TileMind
