import TileMind.Proofs.Code.Layout
import TileMind.Proofs.Row.Calls
import TileMind.Proofs.Row.Progress
import TileMind.Proofs.Row.Reports

/-!
# TileMind.Proofs.Code.Degradation

Problems in rows do not stop a compilation: what cannot be compiled becomes nil. That is not silent. A node is
faulty if it stands for something that could not be read, or if it is an operator for which no overload was found.
A tree of which every node was typed is compiled without a further report, and what becomes nil in it are the
faulty nodes. There is an error about each of these, under the path of the rule and with the number of the node.

* `Row.Told`: an error about a node is among the diagnostics.
* `Row.explained_readRow`: the nodes that could not be read.
* `Row.told_typeExpr`: the operators without an overload.
* `Row.code_of_faulty`, `Row.code_ne_placeholder`: what becomes nil, and what does not.
* `told_readRule`: the errors about a rule.
* `degradation_diagnosed`: what becomes of the rules of a brain.
-/

namespace TileMind
namespace Row

/-- An error about a node of a rule is among the diagnostics. -/
def Told (diags : Diagnostics) (rule : String) (id : Nat) : Prop :=
  ∃ d ∈ diags, d.isError = true ∧ d.rule = rule ∧ d.node = id

theorem Told.mono {diags diags' : Diagnostics} {rule : String} {id : Nat} (h : Told diags rule id)
    (hle : diags <+: diags') : Told diags' rule id := by
  obtain ⟨d, hd, hother⟩ := h
  exact ⟨d, hle.subset hd, hother⟩

/-! ## What could not be read -/

def Expr.isError : Expr → Bool
  | .error _ _ => true
  | _ => false

/-- If a node could not be read, there is an error about it. -/
def Explained (diags : Diagnostics) (rule : String) (n : Expr) : Prop := n.isError = true → Told diags rule n.id

section

variable {diags diags' : Diagnostics} {rule : String} {e : Expr}

theorem Explained.mono (h : e.All (Explained diags rule)) (hle : diags <+: diags') :
    e.All (Explained diags' rule) :=
  Expr.All.mono h fun _ hn hfault => (hn hfault).mono hle

theorem explained_fail (r : Reader) (rule : String) (pos : Position) (message : String) :
    (r.fail rule pos message).1.All (Explained (r.fail rule pos message).2.diags rule) := by
  refine all_error.mpr fun _ => ?_
  exact ⟨_, List.mem_append_right _ (List.mem_singleton_self _), rfl, rfl, rfl⟩

/-- A node that could be read needs no error. -/
theorem explained_of_read (h : e.isError = false) : Explained diags rule e := by
  simp [Explained, h]

end

/-- There is an error about every node of a piece that could not be read. -/
def Piece.Explained (diags : Diagnostics) (rule : String) : Piece → Prop
  | .nothing => True
  | .tree e => e.All (Row.Explained diags rule)
  | .args _ bound => ∀ x ∈ bound, x.2.All (Row.Explained diags rule)

section

variable {diags diags' : Diagnostics} {rule : String} {e : Expr} {b : Bound}

theorem explained_recount (h : ∀ x ∈ b, x.2.All (Explained diags rule)) (slot : Nat) :
    ∀ x ∈ b.recount slot, x.2.All (Explained diags rule) := by
  intro x hx
  obtain ⟨y, hy, rfl⟩ := List.mem_map.mp hx
  split
  · split
    · exact all_modifier.mpr (explained_of_read rfl)
    · exact h y hy
  · exact h y hy

theorem explained_bind {slot : Nat} (h : ∀ x ∈ b, x.2.All (Explained diags rule)) (hle : diags <+: diags')
    (he : e.All (Explained diags' rule)) : ∀ x ∈ b.bind slot e, x.2.All (Explained diags' rule) := by
  intro x hx
  rcases List.mem_append.mp hx with hx | hx
  · exact Explained.mono (h x hx) hle
  · rwa [List.mem_singleton.mp hx]

/-- If what was there is explained, so is what is read next. -/
theorem Reading.explained {c : Catalog} {p q : Piece} {r r' : Reader} (h : Reading c rule p r q r')
    (hp : p.Explained r.diags rule) : q.Explained r'.diags rule := by
  induction h with
  | refl => exact hp
  | trans _ _ ihfirst ihrest => exact ihrest (ihfirst hp)
  | fail p r => exact explained_fail _ _ _ _
  | failAfter => exact explained_fail _ _ _ _
  | field => exact all_field.mpr ⟨explained_of_read rfl, hp⟩
  | assign _ _ hright ih =>
    exact all_assign.mpr ⟨explained_of_read rfl, Explained.mono hp hright.onward.diags, ih trivial⟩
  | binary _ hoperand ih =>
    exact all_binary.mpr ⟨explained_of_read rfl, Explained.mono hp hoperand.onward.diags, ih trivial⟩
  | unary _ _ ih => exact all_unary.mpr ⟨explained_of_read rfl, ih trivial⟩
  | literal => exact all_literal.mpr (explained_of_read rfl)
  | name => exact all_variable.mpr (explained_of_read rfl)
  | parens _ _ _ ih => exact ih trivial
  | unknown =>
    refine all_error.mpr fun _ => ?_
    exact ⟨_, List.mem_append_right _ (List.mem_singleton_self _), rfl, rfl, rfl⟩
  | call _ _ _ ih =>
    have hargs := ih fun _ hx => absurd hx List.not_mem_nil
    exact all_call.mpr ⟨explained_of_read rfl, all_ofList fun x hx => hargs x (List.mem_mergeSort.mp hx)⟩
  | parameter _ _ _ ih => exact all_parameter.mpr ⟨explained_of_read rfl, ih trivial⟩
  | modifier => exact all_modifier.mpr (explained_of_read rfl)
  | recount => exact explained_recount hp _
  | bindModifier => exact explained_bind hp List.prefix_rfl (all_modifier.mpr (explained_of_read rfl))
  | bindParameter _ _ hvalue ih =>
    exact explained_bind hp hvalue.onward.diags (all_parameter.mpr ⟨explained_of_read rfl, ih trivial⟩)
  | bindValue _ _ hvalue ih => exact explained_bind hp hvalue.onward.diags (ih trivial)

end

theorem explained_readRow (c : Catalog) (rule : String) (row : Text.Source) (lastId : Nat) (diags : Diagnostics) :
    (readRow c rule row lastId diags).1.All (Explained (readRow c rule row lastId diags).2.diags rule) := by
  unfold readRow Reader.readAll
  split
  · simp [Explained, Expr.isError]
  · exact Explained.mono (((readings c rule _).expr _ _).explained trivial) (List.prefix_append _ _)

theorem prefix_readRow (c : Catalog) (rule : String) (row : Text.Source) (lastId : Nat) (diags : Diagnostics) :
    diags <+: (readRow c rule row lastId diags).2.diags := by
  unfold readRow Reader.readAll
  split
  · exact List.prefix_rfl
  · exact ((readings c rule _).expr assignPower
      (Reader.start row lastId diags)).onward.diags.trans (List.prefix_append _ _)

/-! ## Operators without an overload -/

section

variable {σ : Type} {scope : TypeScope σ} {e n : Expr} {s : Typing}

theorem within_typeExpr (scope : TypeScope σ) (e : Expr) (s : Typing) : s.Within e.ids (typeExpr scope e s) :=
  (within_expect scope e .unknown s).trans (within_infer scope e _)

/-- There is an error about every operator that has no overload in the end. -/
theorem told_typeExpr (he : e.ids.Nodup) (hn : n ∈ e.nodes) {op : OperatorId} (hop : n.operator? = some op)
    (hnone : ((typeExpr scope e s).table.get n.id).overload = none) :
    Told (typeExpr scope e s).diags scope.rule n.id := by
  have hops : n.ownOperands ⊆ e.operands := fun id hid => List.mem_flatMap.mpr ⟨n, hn, hid⟩
  have hnodup := Expr.nodup_node e he hn
  obtain ⟨s', hrecords, hhears⟩ := heardAt scope he (expect scope e .unknown s) hn
  obtain ⟨operands, hinfer, hseen, -⟩ := hrecords.operator hnodup hops hop
  have htypes : operands.map Prod.snd = n.operandTypes (typeExpr scope e s).table := by
    rw [hseen, List.map_map]
    rfl
  have hpick : pickOverload scope.services op (operands.map Prod.snd) = none := by
    by_contra hpicked
    obtain ⟨best, hbest⟩ := Option.ne_none_iff_exists'.mp hpicked
    rw [htypes] at hbest
    have htakes := (hrecords.takes hnodup hops hop hbest).overload
    rw [show (infer scope e (expect scope e .unknown s)).2 = typeExpr scope e s from rfl, hnone] at htakes
    cases htakes
  have hresolve := diags_resolve scope n.mark op operands (inferParts scope n.parts s')
  rw [if_pos hpick] at hresolve
  have hsettle := (within_settle scope n.mark
    (resolve scope n.mark op operands (inferParts scope n.parts s')).1
    (resolve scope n.mark op operands (inferParts scope n.parts s')).2).diags
  rw [← hinfer, hresolve] at hsettle
  exact ⟨_, (hsettle.trans hrecords.diags).subset (List.mem_append_right _ (List.mem_singleton_self _)),
    rfl, rfl, rfl⟩

end

/-! ## Placeholders -/

mutual

/-- Code generation reports nothing about nodes of which the type is known. -/
theorem diags_code (scope : RuleScope) : ∀ (e : Expr) (g : Generated),
    e.All (fun n => scope.types.Has n.id) → (code scope e g).2.diags = g.diags
  | .literal m value, g, he => by
    rw [code, typedCode_of_has (m := m) he.self]
    rfl
  | .variable m name, g, he => by
    rw [code, typedCode_of_has (m := m) he.self]
    rfl
  | .field m object name, g, he => by
    obtain ⟨hn, ho⟩ := all_field.mp he
    rw [code, typedCode_of_has (m := m) hn]
    exact diags_code scope object g ho
  | .assign m (.variable mt name) value, g, he => by
    obtain ⟨hn, -, hv⟩ := all_assign.mp he
    rw [code, typedCode_of_has (m := m) hn]
    exact diags_code scope value g hv
  | .assign m (.field mt object name) value, g, he => by
    obtain ⟨hn, ht, hv⟩ := all_assign.mp he
    obtain ⟨-, ho⟩ := all_field.mp ht
    rw [code, typedCode_of_has (m := m) hn]
    exact (diags_code scope value _ hv).trans (diags_code scope object g ho)
  | .assign m (.literal _ _) _, g, he | .assign m (.unary _ _ _) _, g, he
  | .assign m (.binary _ _ _ _) _, g, he | .assign m (.assign _ _ _) _, g, he
  | .assign m (.parameter _ _ _) _, g, he | .assign m (.modifier _ _ _) _, g, he
  | .assign m (.call _ _ _) _, g, he | .assign m (.empty _) _, g, he
  | .assign m (.error _ _) _, g, he => by
    simp only [code, typedCode_of_has (m := m) he.self]
    rfl
  | .binary m op left right, g, he => by
    obtain ⟨hn, hl, hr⟩ := all_binary.mp he
    have hparts := (diags_code scope right (code scope left g).2 hr).trans (diags_code scope left g hl)
    rw [code, typedCode_of_has (m := m) hn]
    dsimp only
    split
    · exact hparts
    · split
      · rfl
      · exact hparts
  | .unary m op operand, g, he => by
    obtain ⟨hn, hx⟩ := all_unary.mp he
    rw [code, typedCode_of_has (m := m) hn]
    dsimp only
    split
    · rfl
    · exact diags_code scope operand g hx
  | .parameter m tile value, g, he => by
    obtain ⟨hn, hv⟩ := all_parameter.mp he
    rw [code, typedCode_of_has (m := m) hn]
    exact diags_code scope value g hv
  | .modifier m tile count, g, he => by
    rw [code, typedCode_of_has (m := m) he.self]
    rfl
  | .call m tile args, g, he => by
    obtain ⟨hn, ha⟩ := all_call.mp he
    rw [code, typedCode_of_has (m := m) hn]
    exact diags_argsCode scope args _ ha
  | .empty m, g, he => by
    rw [code, typedCode_of_has (m := m) he.self]
    rfl
  | .error m _, g, he => by
    rw [code, typedCode_of_has (m := m) he.self]
    rfl
termination_by structural e => e

theorem diags_argsCode (scope : RuleScope) : ∀ (args : Args) (g : Generated),
    args.All (fun n => scope.types.Has n.id) → (argsCode scope args g).2.diags = g.diags
  | .nil, g, _ => rfl
  | .cons slot value rest, g, ha => by
    obtain ⟨hv, hr⟩ := all_cons.mp ha
    rw [argsCode]
    exact (diags_argsCode scope rest _ hr).trans (diags_code scope value (g.push (.int slot)).2 hv)
termination_by structural args => args

end

/-- Operators compute something from other values, whether they have overloads or not. -/
def Expr.isOperator : Expr → Bool
  | .binary _ _ _ _ | .unary _ _ _ => true
  | _ => false

/-- A node that does not do what the row says: it could not be read, or it is an operator that needs an overload
and has none. -/
def Expr.Faulty (types : TypeTable) (n : Expr) : Prop :=
  n.isError = true ∨ n.operator? ≠ none ∧ (types.get n.id).overload = none

instance (types : TypeTable) (n : Expr) : Decidable (n.Faulty types) :=
  inferInstanceAs (Decidable (_ ∨ _))

/-- What a node becomes that cannot be compiled: nil. -/
def placeholder (scope : RuleScope) (n : Expr) (g : Generated) : List Instr × Generated :=
  converted (scope.types.get n.id) (g.push .nil)

/-- Code in which there is more than a constant is not that of nil. -/
theorem converted_ne_push {front : List Instr} {i : Instr} (hi : i ∈ front) (hop : i.op? ≠ some .pushConst)
    (info : TypeInfo) (g g' : Generated) :
    (converted info (front, g)).1 ≠ (converted info (g'.push .nil)).1 := by
  intro heq
  obtain rfl := List.append_cancel_right heq
  rw [List.mem_singleton.mp hi] at hop
  exact hop (Instr.op?_of .pushConst _ 0 0)

theorem exists_mem_overloadCode (o : Overload) (arity : Nat) :
    ∃ i ∈ overloadCode o arity, i.op? ≠ some .pushConst := by
  unfold overloadCode
  split
  · exact ⟨_, List.mem_cons_self, by simp⟩
  · exact ⟨_, List.mem_cons_self, by simp⟩

section

variable (scope : RuleScope) {n : Expr}

/-- What is faulty becomes nil. -/
theorem code_of_faulty (hhas : scope.types.Has n.id) (h : n.Faulty scope.types) (g : Generated) :
    code scope n g = placeholder scope n g := by
  rcases h with hfault | ⟨hop, hnone⟩
  · cases n with
    | error m message =>
      rw [code, typedCode_of_has (m := m) hhas]
      rfl
    | _ => cases hfault
  · cases n with
    | binary m op left right =>
      have hlong : op.isShortCircuit = false := by
        by_contra hshort
        exact hop (if_pos (by simpa using hshort))
      have hnone : (scope.types.get m.id).overload = none := hnone
      rw [code, typedCode_of_has (m := m) hhas, hlong, hnone]
      rfl
    | unary m op operand =>
      have hnone : (scope.types.get m.id).overload = none := hnone
      rw [code, typedCode_of_has (m := m) hhas, hnone]
      rfl
    | _ => exact absurd rfl hop

/-- An operator that is not faulty does not become nil. -/
theorem code_ne_placeholder (hhas : scope.types.Has n.id) (hop : n.isOperator = true)
    (hsound : ¬ n.Faulty scope.types) (g g' : Generated) :
    (code scope n g).1 ≠ (placeholder scope n g').1 := by
  cases n with
  | binary m op left right =>
    rw [code, typedCode_of_has (m := m) hhas]
    dsimp only
    split
    · have hdup (l r : List Instr) : .of .dup ∈ shortCircuitCode op l r := by simp [shortCircuitCode]
      exact converted_ne_push (hdup _ _) (by simp) (scope.types.get m.id) _ g'
    · rename_i hlong
      split
      · rename_i hnone
        exact absurd (.inr ⟨by simp [Expr.operator?, hlong], hnone⟩) hsound
      · rename_i o _
        obtain ⟨i, hi, hcall⟩ := exists_mem_overloadCode o 2
        exact converted_ne_push (List.mem_append_right _ hi) hcall (scope.types.get m.id) _ g'
  | unary m op operand =>
    rw [code, typedCode_of_has (m := m) hhas]
    dsimp only
    split
    · rename_i hnone
      exact absurd (.inr ⟨by simp [Expr.operator?], hnone⟩) hsound
    · rename_i o _
      obtain ⟨i, hi, hcall⟩ := exists_mem_overloadCode o 1
      exact converted_ne_push (List.mem_append_right _ hi) hcall (scope.types.get m.id) _ g'
  | _ => cases hop

end

end Row

/-! ## Rules -/

open Row

section

variable {σ : Type} (env : CompileEnv σ)

/-- Rules in the order they are compiled, each with what was generated before it. -/
def compileTurns : List RuleJob → Progress → List (RuleJob × Progress)
  | [], _ => []
  | job :: rest, p =>
    let start : Progress := { p with generated := { p.generated with sites := [] } }
    (job, start) :: compileTurns rest (resolvedRule env job start).2

/-- The rules of a brain in the order they are compiled, each with what was generated before it. -/
def BrainDef.turns (d : BrainDef) : List (RuleJob × Progress) :=
  match plan env d with
  | .ok (_, _, p) => compileTurns env p.jobs { generated := { names := p.names, diags := p.diags } }
  | .error _ => []

variable {env} {job : RuleJob} {cond action : Expr} {types : TypeTable} {before after : Progress}

/-- Both rows of a rule are read, and then they are typed one after the other. -/
theorem readRule_cases (hread : readRule env job before = (cond, action, types, after)) :
    ∃ (rc ra : Reader) (scope : TypeScope σ), scope.rule = job.path ∧
      readRow env.catalog job.path job.whenRow before.lastNode before.generated.diags = (cond, rc) ∧
      readRow env.catalog job.path job.doRow rc.lastId rc.diags = (action, ra) ∧
      types = (typeExpr scope action (typeExpr scope cond ⟨{}, ra.diags⟩)).table ∧
      after.generated.diags = (typeExpr scope action (typeExpr scope cond ⟨{}, ra.diags⟩)).diags := by
  unfold readRule at hread
  generalize readRow env.catalog job.path job.whenRow before.lastNode before.generated.diags = first at hread ⊢
  obtain ⟨cond', rc⟩ := first
  dsimp only at hread
  generalize hsecond : readRow env.catalog job.path job.doRow rc.lastId rc.diags = second at hread
  obtain ⟨action', ra⟩ := second
  simp only [Prod.mk.injEq] at hread
  obtain ⟨rfl, rfl, htypes, hafter⟩ := hread
  exact ⟨rc, ra, ⟨env.services, before.generated.names.typeOf? job.chain, job.path⟩, rfl, rfl, hsecond,
    htypes.symm, by rw [← hafter]⟩

/-- Every node of a rule was typed, and there is an error about every faulty one. -/
theorem told_readRule (hread : readRule env job before = (cond, action, types, after)) :
    ∀ n ∈ cond.nodes ++ action.nodes, types.Has n.id ∧
      (n.Faulty types → Told after.generated.diags job.path n.id) := by
  obtain ⟨rc, ra, scope, hrule, hcond, haction, rfl, hafter⟩ := readRule_cases hread
  rw [hafter]
  have hids := drawn_readRow env.catalog job.path job.whenRow before.lastNode before.generated.diags
  have hids' := drawn_readRow env.catalog job.path job.doRow rc.lastId rc.diags
  have hfaults := explained_readRow env.catalog job.path job.whenRow before.lastNode before.generated.diags
  have hfaults' := explained_readRow env.catalog job.path job.doRow rc.lastId rc.diags
  have hmore := prefix_readRow env.catalog job.path job.doRow rc.lastId rc.diags
  simp only [hcond, haction] at hids hids' hfaults hfaults' hmore
  -- the condition is typed first; typing the action leaves its entries alone
  have hfirst := within_typeExpr scope cond ⟨{}, ra.diags⟩
  have hlater := within_typeExpr scope action (typeExpr scope cond ⟨{}, ra.diags⟩)
  intro n hn
  rcases List.mem_append.mp hn with hn | hn
  · have hout : n.id ∉ action.ids := fun hid => by
      have := hids.range _ (List.mem_map_of_mem hn)
      have := hids'.range _ hid
      omega
    have hget := TypeTable.get_of_get? (hlater.outside n.id hout)
    refine ⟨(covers_typeExpr scope action _).keeps _ ((covers_typeExpr scope cond _).nodes n hn), ?_⟩
    rintro (hfault | ⟨hop, hnone⟩)
    · exact (hfaults n hn hfault).mono (hmore.trans (hfirst.diags.trans hlater.diags))
    · obtain ⟨op, hop⟩ := Option.ne_none_iff_exists'.mp hop
      rw [hget] at hnone
      exact hrule ▸ (told_typeExpr hids.nodup hn hop hnone).mono hlater.diags
  · refine ⟨(covers_typeExpr scope action _).nodes n hn, ?_⟩
    rintro (hfault | ⟨hop, hnone⟩)
    · exact (hfaults' n hn hfault).mono (hfirst.diags.trans hlater.diags)
    · obtain ⟨op, hop⟩ := Option.ne_none_iff_exists'.mp hop
      exact hrule ▸ told_typeExpr hids'.nodup hn hop hnone

/-- Reading reports, compiling what was read does not. -/
theorem diags_resolvedRule (hread : readRule env job before = (cond, action, types, after)) :
    (resolvedRule env job before).2.generated.diags = after.generated.diags := by
  have hhas := told_readRule hread
  have hcond : cond.All fun n => types.Has n.id := fun n hn => (hhas n (List.mem_append_left _ hn)).1
  have haction : action.All fun n => types.Has n.id := fun n hn => (hhas n (List.mem_append_right _ hn)).1
  unfold resolvedRule
  rw [hread]
  dsimp only
  rw [diags_code _ action _ haction]
  split
  · rfl
  · exact diags_code _ cond _ hcond

theorem prefix_readRule (hread : readRule env job before = (cond, action, types, after)) :
    before.generated.diags <+: after.generated.diags := by
  obtain ⟨rc, ra, scope, -, hcond, haction, -, hafter⟩ := readRule_cases hread
  have hfirst := prefix_readRow env.catalog job.path job.whenRow before.lastNode before.generated.diags
  have hsecond := prefix_readRow env.catalog job.path job.doRow rc.lastId rc.diags
  simp only [hcond, haction] at hfirst hsecond
  rw [hafter]
  exact hfirst.trans (hsecond.trans ((within_typeExpr scope cond ⟨{}, ra.diags⟩).diags.trans
    (within_typeExpr scope action _).diags))

theorem prefix_resolvedRule (job : RuleJob) (before : Progress) :
    before.generated.diags <+: (resolvedRule env job before).2.generated.diags := by
  generalize hread : readRule env job before = rows
  obtain ⟨cond, action, types, after⟩ := rows
  rw [diags_resolvedRule hread]
  exact prefix_readRule hread

variable (env) in
theorem map_fst_compileTurns (jobs : List RuleJob) (p : Progress) :
    (compileTurns env jobs p).map Prod.fst = jobs := by
  induction jobs generalizing p with
  | nil => rfl
  | cons job jobs ih => rw [compileTurns, List.map_cons, ih]

theorem resolveEach_turns (jobs : List RuleJob) (p : Progress) :
    (resolveEach (resolvedRule env) jobs p).1 =
      (compileTurns env jobs p).map fun turn => (resolvedRule env turn.1 turn.2).1 := by
  induction jobs generalizing p with
  | nil => rfl
  | cons job jobs ih =>
    rw [resolveEach, compileTurns, List.map_cons]
    dsimp only
    rw [ih]

theorem prefix_resolveEach (jobs : List RuleJob) (p : Progress) :
    p.generated.diags <+: (resolveEach (resolvedRule env) jobs p).2.2.generated.diags := by
  induction jobs generalizing p with
  | nil => exact List.prefix_rfl
  | cons job jobs ih =>
    rw [resolveEach]
    dsimp only
    generalize hstart : ({ p with generated := { p.generated with sites := [] } } : Progress) = start
    have hp : p.generated.diags = start.generated.diags := by rw [← hstart]
    rw [hp]
    exact (prefix_resolvedRule job start).trans (ih (resolvedRule env job start).2)

/-- What is reported about a rule is still there in the end. -/
theorem prefix_of_mem_compileTurns {jobs : List RuleJob} {p : Progress} (h : (job, before) ∈ compileTurns env jobs p) :
    (resolvedRule env job before).2.generated.diags <+:
      (resolveEach (resolvedRule env) jobs p).2.2.generated.diags := by
  induction jobs generalizing p with
  | nil => cases h
  | cons first jobs ih =>
    rw [resolveEach]
    rw [compileTurns] at h
    dsimp only at h ⊢
    generalize ({ p with generated := { p.generated with sites := [] } } : Progress) = start at h ⊢
    rcases List.mem_cons.mp h with h | h
    · obtain ⟨rfl, rfl⟩ := Prod.mk.inj h
      exact prefix_resolveEach jobs (resolvedRule env job before).2
    · exact ih h

section

variable {d : BrainDef} {p : Program} {diags : Diagnostics}

theorem assembled_of_compile (h : compile env d = .ok (p, diags)) :
    ∃ pages entry planned, plan env d = .ok (pages, entry, planned) ∧
      assemble env pages entry planned = (p, diags) := by
  rw [compile_eq] at h
  unfold assembled at h
  cases hplan : plan env d with
  | error e =>
    rw [hplan] at h
    cases h
  | ok planned =>
    obtain ⟨pages, entry, planned⟩ := planned
    rw [hplan] at h
    simp only [Except.map, Except.bind] at h
    split at h
    · exact ⟨pages, entry, planned, rfl, Except.ok.inj h⟩
    · cases h

/-- The functions and the rule table of a program are those of the rules in turn, and what is reported about each
rule is in the diagnostics. -/
theorem turns_of_compile (h : compile env d = .ok (p, diags)) :
    p.functions.toList = (d.turns env).map (fun turn => (resolvedRule env turn.1 turn.2).1) ∧
      p.rules = (d.turns env).map (fun turn => turn.1.info) ∧
      ∀ {job before}, (job, before) ∈ d.turns env →
        (resolvedRule env job before).2.generated.diags <+: diags := by
  obtain ⟨pages, entry, planned, hplan, hassemble⟩ := assembled_of_compile h
  have hprogram := congrArg Prod.fst hassemble
  have hdiags := congrArg Prod.snd hassemble
  dsimp only at hprogram hdiags
  subst hprogram hdiags
  rw [BrainDef.turns, hplan]
  dsimp only
  generalize hstart : ({ generated := { names := planned.names, diags := planned.diags } } : Progress) = start
  refine ⟨?_, ?_, fun {job before} hturn => ?_⟩
  · rw [← resolveEach_turns, ← hstart]
    rfl
  · have hjobs := congrArg (List.map RuleJob.info) (map_fst_compileTurns env planned.jobs start)
    rw [List.map_map] at hjobs
    exact hjobs.symm
  · have hprefix := prefix_of_mem_compileTurns hturn
    rwa [← hstart] at hprefix

/-- What becomes of the rules of a brain. Every node of a rule was typed, so that nothing is reported about it when
its code is generated. A faulty node becomes nil, and there is an error about it. If there is no error about a rule,
then all of it could be read, and none of its operators becomes nil. -/
theorem degradation_diagnosed (h : compile env d = .ok (p, diags)) :
    p.functions.toList = (d.turns env).map (fun turn => (resolvedRule env turn.1 turn.2).1) ∧
    p.rules.map RuleInfo.path = (d.turns env).map (fun turn => turn.1.path) ∧
    ∀ {job before}, (job, before) ∈ d.turns env →
      ∀ {cond action types after}, readRule env job before = (cond, action, types, after) →
        (resolvedRule env job before).2.generated.diags = after.generated.diags ∧
        (∀ n ∈ cond.nodes ++ action.nodes, types.Has n.id ∧ (n.Faulty types → Told diags job.path n.id ∧
          ∀ g, code ⟨types, job.chain, job.path⟩ n g = placeholder ⟨types, job.chain, job.path⟩ n g)) ∧
        ((∀ x ∈ diags, x.isError = true → x.rule ≠ job.path) → ∀ n ∈ cond.nodes ++ action.nodes,
          n.isError = false ∧ (n.isOperator = true → ∀ g g',
            (code ⟨types, job.chain, job.path⟩ n g).1 ≠ (placeholder ⟨types, job.chain, job.path⟩ n g').1)) := by
  obtain ⟨hfunctions, hrules, hprefix⟩ := turns_of_compile h
  refine ⟨hfunctions, by rw [hrules, List.map_map]; rfl, fun {job before} hturn {cond action types after} hread => ?_⟩
  have hdiags := diags_resolvedRule hread
  have hkept := hdiags ▸ hprefix hturn
  have htold (n : Expr) (hn : n ∈ cond.nodes ++ action.nodes) (hfault : n.Faulty types) : Told diags job.path n.id :=
    ((told_readRule hread n hn).2 hfault).mono hkept
  refine ⟨hdiags, fun n hn => ?_, fun hclean n hn => ?_⟩
  · have hhas := (told_readRule hread n hn).1
    exact ⟨hhas, fun hfault => ⟨htold n hn hfault,
      code_of_faulty ⟨types, job.chain, job.path⟩ hhas hfault⟩⟩
  have hsound : ¬ n.Faulty types := fun hfault => by
    obtain ⟨x, hx, herror, hrule, -⟩ := htold n hn hfault
    exact hclean x hx herror hrule
  exact ⟨Bool.eq_false_iff.mpr fun hfault => hsound (.inl hfault), fun hop =>
    code_ne_placeholder ⟨types, job.chain, job.path⟩ (told_readRule hread n hn).1 hop hsound⟩

end

end

/-- A brain with two rules; nothing can be added where it is compiled. -/
def addingBrain : BrainDef :=
  { pages := [{ id := "a", rules := [{ whenRow := "1 + 2" }, { whenRow := "true && false" }] }] }

theorem addingBrain_compiles : ∃ p diags, compile bareEnv addingBrain = .ok (p, diags) ∧
    ∀ x ∈ diags, x.isError = true → x.rule ≠ "0/1" := by
  obtain ⟨⟨p, diags⟩, h, hclean⟩ := exists_of_any_toOption (r := compile bareEnv addingBrain)
    (f := fun r => r.2.all fun x => !x.isError || x.rule != "0/1") (by decide +kernel)
  refine ⟨p, diags, h, fun x hx herror => ?_⟩
  simpa [herror] using List.all_eq_true.mp hclean x hx

/-- The sum has no overload. -/
theorem addingBrain_sum : ∃ turn ∈ addingBrain.turns bareEnv, turn.1.path = "0/0" ∧
    ∃ n ∈ (readRule bareEnv turn.1 turn.2).1.nodes, n.Faulty (readRule bareEnv turn.1 turn.2).2.2.1 := by
  have h : ((addingBrain.turns bareEnv).any fun turn => decide (turn.1.path = "0/0") &&
      (readRule bareEnv turn.1 turn.2).1.nodes.any fun n =>
        decide (n.Faulty (readRule bareEnv turn.1 turn.2).2.2.1)) = true := by
    decide +kernel
  simpa only [List.any_eq_true, Bool.and_eq_true, decide_eq_true_eq] using h

/-- The conjunction has none either, and needs none. -/
theorem addingBrain_conjunction : ∃ turn ∈ addingBrain.turns bareEnv, turn.1.path = "0/1" ∧
    ∃ n ∈ (readRule bareEnv turn.1 turn.2).1.nodes, n.isOperator = true ∧
      ((readRule bareEnv turn.1 turn.2).2.2.1.get n.id).overload = none := by
  have h : ((addingBrain.turns bareEnv).any fun turn => decide (turn.1.path = "0/1") &&
      (readRule bareEnv turn.1 turn.2).1.nodes.any fun n => n.isOperator &&
        decide (((readRule bareEnv turn.1 turn.2).2.2.1.get n.id).overload = none)) = true := by
    decide +kernel
  simpa only [List.any_eq_true, Bool.and_eq_true, decide_eq_true_eq] using h

/-- The sum becomes nil and is reported. Nothing is reported about the conjunction, which is compiled. -/
theorem degradation_diagnosed_addingBrain :
    ∃ p diags, compile bareEnv addingBrain = .ok (p, diags) ∧ (∃ id, Told diags "0/0" id) ∧
      (∀ x ∈ diags, x.isError = true → x.rule ≠ "0/1") ∧
      ∃ turn ∈ addingBrain.turns bareEnv, turn.1.path = "0/1" ∧
        ∃ n ∈ (readRule bareEnv turn.1 turn.2).1.nodes, n.isOperator = true ∧ ∀ g g',
          (code ⟨(readRule bareEnv turn.1 turn.2).2.2.1, turn.1.chain, turn.1.path⟩ n g).1 ≠
            (placeholder ⟨(readRule bareEnv turn.1 turn.2).2.2.1, turn.1.chain, turn.1.path⟩ n g').1 := by
  obtain ⟨p, diags, h, hclean⟩ := addingBrain_compiles
  obtain ⟨sum, hsum, hpath, n, hn, hfault⟩ := addingBrain_sum
  obtain ⟨conjunction, hconjunction, hpath', m, hm, hop, -⟩ := addingBrain_conjunction
  refine ⟨p, diags, h, ⟨n.id, ?_⟩, hclean, conjunction, hconjunction, hpath', m, hm, hop, ?_⟩
  · have hdiagnosed := ((degradation_diagnosed h).2.2 hsum rfl).2.1 n (List.mem_append_left _ hn)
    exact hpath ▸ (hdiagnosed.2 hfault).1
  · have hdiagnosed := ((degradation_diagnosed h).2.2 hconjunction rfl).2.2 (hpath'.symm ▸ hclean) m
      (List.mem_append_left _ hm)
    exact hdiagnosed.2 hop

/-- An operator can be without an overload and without an error: those that decide by jumps need none. -/
theorem conjunction_unreported :
    ∃ p diags, compile bareEnv addingBrain = .ok (p, diags) ∧ ∃ turn ∈ addingBrain.turns bareEnv,
      ∃ n ∈ (readRule bareEnv turn.1 turn.2).1.nodes, n.isOperator = true ∧
        ((readRule bareEnv turn.1 turn.2).2.2.1.get n.id).overload = none ∧ ¬ Told diags turn.1.path n.id := by
  obtain ⟨p, diags, h, hclean⟩ := addingBrain_compiles
  obtain ⟨turn, hturn, hpath, n, hn, hop, hnone⟩ := addingBrain_conjunction
  refine ⟨p, diags, h, turn, hturn, n, hn, hop, hnone, ?_⟩
  rintro ⟨x, hx, herror, hrule, -⟩
  exact hclean x hx herror (hrule.trans hpath)

end TileMind
