import TileMind.Proofs.Row.Resolution

/-!
# TileMind.Proofs.Row.Reports

What typing reports, and about which nodes; and with it, what becomes of an operator in a row.

* `reports_infer`: inference reports about the nodes of the tree only.
* `heardAt`: what is reported about a node is reported while it is inferred.
* `resolved_operators`: a missing overload is reported if none suits; otherwise the overload, the type of the
  node and the conversions of the operands are those of the first of the cheapest.
-/

namespace TileMind
namespace Row

/-! ## Reports -/

/-- On the way from `s` to `t` something is reported, all of it such that `P`. -/
def Typing.Reports (P : Diagnostic → Prop) (s t : Typing) : Prop :=
  ∃ new, t.diags = s.diags ++ new ∧ ∀ d ∈ new, P d

namespace Typing.Reports

variable {P Q : Diagnostic → Prop} {s t u : Typing}

theorem of_eq (h : t.diags = s.diags) : s.Reports P t := ⟨[], by simp [h], by simp⟩

theorem trans (h : s.Reports P t) (h' : t.Reports P u) : s.Reports P u := by
  obtain ⟨new, ht, hnew⟩ := h
  obtain ⟨new', hu, hnew'⟩ := h'
  refine ⟨new ++ new', by rw [hu, ht, List.append_assoc], fun d hd => ?_⟩
  exact (List.mem_append.mp hd).elim (hnew d) (hnew' d)

theorem mono (h : s.Reports P t) (hle : ∀ d, P d → Q d) : s.Reports Q t := by
  obtain ⟨new, ht, hnew⟩ := h
  exact ⟨new, ht, fun d hd => hle d (hnew d hd)⟩

theorem report {d : Diagnostic} (hd : P d) : s.Reports P (s.report d) :=
  ⟨[d], rfl, by simpa using hd⟩

end Typing.Reports

section

variable {σ : Type} (scope : TypeScope σ)

theorem reports_convert (m : Mark) (source target : TypeId) (s : Typing) :
    s.Reports (fun d => d.node = m.id ∧ d.code = .typeMismatch) (convert scope m source target s).2 := by
  unfold convert
  split
  · exact .of_eq rfl
  · split
    · exact .of_eq rfl
    · exact .report ⟨rfl, rfl⟩

theorem reports_fieldType (m : Mark) (object : TypeId) (name : String) (s : Typing) :
    s.Reports (fun d => d.node = m.id) (fieldType scope m object name s).2 := by
  have hmissing {message : String} : s.Reports (fun d => d.node = m.id)
      (s.report (.ofMark .unknownField .error scope.rule m message)) := .report rfl
  unfold fieldType
  dsimp only
  repeat' split
  all_goals first | exact .of_eq rfl | exact hmissing

theorem reports_settle (m : Mark) (type : TypeId) (s : Typing) :
    s.Reports (fun d => d.node = m.id ∧ d.code = .typeMismatch) (settle scope m type s).2 :=
  reports_convert scope m type (s.table.get m.id).expected s

theorem diags_convertOperands : ∀ (ids : List Nat) (params : List TypeId) (paths : List (List Conversion))
    (s : Typing), (convertOperands ids params paths s).diags = s.diags
  | [], _, _, _ => rfl
  | _ :: _, [], _, _ => rfl
  | _ :: _, _ :: _, [], _ => rfl
  | id :: ids, param :: params, path :: paths, s => by
    rw [convertOperands, diags_convertOperands ids params paths]
    split <;> rfl

/-- Resolving reports a missing overload if none is picked, and nothing otherwise. -/
theorem diags_resolve (m : Mark) (op : OperatorId) (operands : List (Nat × TypeId)) (s : Typing) :
    (resolve scope m op operands s).2.diags = s.diags ++
      if pickOverload scope.services op (operands.map Prod.snd) = none then
        [Diagnostic.ofMark .missingOperatorOverload .error scope.rule m
          ("no overload of " ++ op ++ " for [" ++ " ".intercalate (operands.map Prod.snd) ++ "]")]
      else [] := by
  unfold resolve
  dsimp only
  cases pickOverload scope.services op (operands.map Prod.snd) with
  | none => rfl
  | some best => simp [diags_convertOperands, Typing.modify]

theorem reports_resolve (m : Mark) (op : OperatorId) (operands : List (Nat × TypeId)) (s : Typing) :
    s.Reports (fun d => d.node = m.id) (resolve scope m op operands s).2 := by
  refine ⟨_, diags_resolve scope m op operands s, fun d hd => ?_⟩
  split at hd
  · rw [List.mem_singleton.mp hd]
    rfl
  · cases hd

theorem reports_top (e : Expr) (s : Typing) :
    (inferParts scope e.parts s).Reports (fun d => d.node = e.id) (infer scope e s).2 := by
  have hsettle (m : Mark) (type : TypeId) (t : Typing) :
      t.Reports (fun d => d.node = m.id) (settle scope m type t).2 :=
    (reports_settle scope m type t).mono fun _ h => h.1
  cases e with
  | «variable» m name =>
    rw [infer]
    split
    · exact hsettle m _ _
    · have hunknown (d : Diagnostic) (hd : d.node = m.id) : s.Reports (fun d => d.node = m.id) (s.report d) :=
        .report hd
      exact (hunknown _ rfl).trans (hsettle m _ _)
  | field m object name =>
    rw [infer]
    exact (reports_fieldType scope m _ name _).trans (hsettle m _ _)
  | assign m target value =>
    rw [infer]
    dsimp only
    split
    · exact (reports_convert scope m _ _ _).mono fun _ h => h.1
    · exact .of_eq rfl
  | binary m op left right =>
    rw [infer]
    dsimp only
    split
    · exact hsettle m _ _
    · exact (reports_resolve scope m op.id [(left.id, _), (right.id, _)] _).trans (hsettle m _ _)
  | unary m op operand =>
    rw [infer]
    exact (reports_resolve scope m op.id [(operand.id, _)] _).trans (hsettle m _ _)
  | call m tile args =>
    rw [infer, inferArgs_eq]
    exact hsettle m _ _
  | literal m value | parameter m tile value | modifier m tile count | empty m | error m message =>
    rw [infer]
    exact hsettle m _ _

theorem reports_inferParts (cs : List Expr)
    (h : ∀ c ∈ cs, ∀ s : Typing, s.Reports (fun d => d.node ∈ c.ids) (infer scope c s).2) (s : Typing) :
    s.Reports (fun d => d.node ∈ cs.flatMap Expr.ids) (inferParts scope cs s) := by
  induction cs generalizing s with
  | nil => exact .of_eq rfl
  | cons c cs ih =>
    have hfirst := (h c List.mem_cons_self s).mono (Q := fun d => d.node ∈ (c :: cs).flatMap Expr.ids)
      fun d hd => by simp [hd]
    have hrest := ih (fun x hx => h x (List.mem_cons_of_mem _ hx)) (infer scope c s).2
    exact hfirst.trans (hrest.mono fun d hd => by simpa using .inr (by simpa using hd))

/-- Inference reports about the nodes of the tree. -/
theorem reports_infer (e : Expr) : ∀ s : Typing, s.Reports (fun d => d.node ∈ e.ids) (infer scope e s).2 := by
  induction e using Expr.induction_parts with
  | h e ih =>
    intro s
    have hparts := reports_inferParts scope e.parts ih s
    have htop := reports_top scope e s
    rw [e.ids_eq]
    exact (hparts.mono fun d hd => List.mem_cons_of_mem _ hd).trans
      (htop.mono fun d hd => by rw [hd]; exact List.mem_cons_self)

mutual

/-- Expectations are recorded without a report. -/
theorem diags_expect : ∀ (e : Expr) (type : TypeId) (s : Typing), (expect scope e type s).diags = s.diags
  | .assign m target value, type, s => by
    rw [expect, diags_expect value, Typing.modify, diags_expect target]
    rfl
  | .parameter m tile value, type, s => by
    rw [expect]
    exact (diags_expect value tile.value _).trans rfl
  | .modifier m tile count, type, s => by
    rw [expect]
    rfl
  | .call m tile args, type, s => by
    rw [expect]
    exact (diags_expectArgs tile args _).trans rfl
  | .binary m op left right, type, s => by
    rw [expect, diags_expect right, diags_expect left]
    rfl
  | .unary m op operand, type, s => by
    rw [expect, diags_expect operand]
    rfl
  | .field m object name, type, s => by
    rw [expect, diags_expect object]
    rfl
  | .literal m value, type, s => by
    rw [expect]
    rfl
  | .variable m name, type, s => by
    rw [expect]
    rfl
  | .empty m, type, s => by
    rw [expect]
    rfl
  | .error m message, type, s => by
    rw [expect]
    rfl
termination_by structural e => e

theorem diags_expectArgs (tile : Tile) : ∀ (args : Args) (s : Typing),
    (expectArgs scope tile args s).diags = s.diags
  | .nil, s => by rw [expectArgs]
  | .cons slot value rest, s => by
    rw [expectArgs, diags_expectArgs tile rest, diags_expect value]
termination_by structural args => args

end

/-- In typing from `s` to `t`, what is reported about nodes of the tree `a` is reported while it is inferred,
from `s'` on. -/
structure Hears (a : Expr) (s s' t : Typing) : Prop where
  before : s.Reports (fun d => d.node ∉ a.ids) s'
  after : (infer scope a s').2.Reports (fun d => d.node ∉ a.ids) t

variable {scope} {e a n : Expr} {s s' t : Typing}

theorem Hears.part {c : Expr} {before after : List Expr} (h : Hears scope n s s' t) (hn : n.ids.Nodup)
    (hparts : n.parts = before ++ c :: after) : Hears scope c s (inferParts scope before s') t := by
  obtain ⟨-, htop, hbefore, hafter⟩ := Expr.nodup_part hn hparts
  have hsub : c.ids ⊆ n.ids := by
    intro id hid
    rw [n.ids_eq, hparts]
    simp [hid]
  have hall : inferParts scope n.parts s' =
      inferParts scope after (infer scope c (inferParts scope before s')).2 := by
    rw [hparts, inferParts, List.foldl_append, List.foldl_cons]
    rfl
  have hfirst := reports_inferParts scope before (fun x _ => reports_infer scope x) s'
  have hlast := reports_inferParts scope after (fun x _ => reports_infer scope x)
    (infer scope c (inferParts scope before s')).2
  have hown := reports_top scope n s'
  rw [hall] at hown
  constructor
  · exact (h.before.mono fun d hd hmem => hd (hsub hmem)).trans
      (hfirst.mono fun d hd hmem => hbefore _ hmem hd)
  · refine ((hlast.mono fun d hd hmem => hafter _ hmem hd).trans (hown.mono fun d hd hmem => ?_)).trans
      (h.after.mono fun d hd hmem => hd (hsub hmem))
    exact htop (hd ▸ hmem)

variable (scope) in
/-- What inference records for a node, and reports about it, is decided at that node. -/
theorem heardAt (he : e.ids.Nodup) (s : Typing) (ha : a ∈ e.nodes) :
    ∃ s', Records scope e.operands a s s' (infer scope e s).2 ∧ Hears scope a s s' (infer scope e s).2 := by
  have hstart : Records scope e.operands e s s (infer scope e s).2 ∧ Hears scope e s s (infer scope e s).2 :=
    ⟨⟨fun _ _ => rfl, List.prefix_rfl, rfl, fun _ _ _ => rfl⟩, .of_eq rfl, .of_eq rfl⟩
  refine exists_state_of_node scope (R := fun a s' => Records scope e.operands a s s' (infer scope e s).2 ∧
    Hears scope a s s' (infer scope e s).2) hstart he ?_ a ha
  rintro n hn c before after s' ⟨hrecords, hhears⟩ hnodup hparts
  exact ⟨hrecords.part hnodup hparts fun id hid => List.mem_flatMap.mpr ⟨n, hn, hid⟩,
    hhears.part hnodup hparts⟩

/-- Whether a missing overload was reported about a node, on the way from `s` to `t`. -/
def Typing.Misses (id : Nat) (s t : Typing) : Prop :=
  ∃ d ∈ t.diags.drop s.diags.length, d.code = .missingOperatorOverload ∧ d.node = id

/-- A missing overload is reported about an operator exactly when none is picked for it. -/
theorem misses_iff (hn : n.ids.Nodup) {op : OperatorId} {operands : List (Nat × TypeId)}
    (hinfer : infer scope n s' = settle scope n.mark
      (resolve scope n.mark op operands (inferParts scope n.parts s')).1
      (resolve scope n.mark op operands (inferParts scope n.parts s')).2)
    (h : Hears scope n s s' t) :
    s.Misses n.id t ↔ pickOverload scope.services op (operands.map Prod.snd) = none := by
  obtain ⟨first, hfirst, hfirstNode⟩ := h.before
  obtain ⟨parts, hparts, hpartsNode⟩ :=
    reports_inferParts scope n.parts (fun x _ => reports_infer scope x) s'
  have hresolve := diags_resolve scope n.mark op operands (inferParts scope n.parts s')
  obtain ⟨last, hlast, hlastCode⟩ := reports_settle scope n.mark
    (resolve scope n.mark op operands (inferParts scope n.parts s')).1
    (resolve scope n.mark op operands (inferParts scope n.parts s')).2
  obtain ⟨rest, hrest, hrestNode⟩ := h.after
  rw [← hinfer, hresolve, hparts, hfirst] at hlast
  rw [hlast] at hrest
  have hnode : n.id ∈ n.ids := n.id_mem_ids
  have htop := n.id_not_mem_parts hn
  unfold Typing.Misses
  rw [hrest]
  simp only [List.append_assoc, List.drop_left']
  constructor
  · rintro ⟨d, hd, hcode, hid⟩
    by_contra hpicked
    rw [if_neg hpicked] at hd
    simp only [List.nil_append, List.mem_append] at hd
    rcases hd with hd | hd | hd | hd
    · exact hfirstNode d hd (hid ▸ hnode)
    · exact htop (hid ▸ hpartsNode d hd)
    · rw [(hlastCode d hd).2] at hcode
      cases hcode
    · exact hrestNode d hd (hid ▸ hnode)
  · intro hnone
    rw [if_pos hnone]
    exact ⟨_, List.mem_append_right _ (List.mem_append_right _ (List.mem_append_left _
      (List.mem_singleton_self _))), rfl, rfl⟩

/-! ## Operators -/

def Expr.operandTypes (n : Expr) (types : TypeTable) : List TypeId :=
  n.ownOperands.map fun id => (types.get id).inferred

/-- The overload is recorded for an operator, with its result as the type, and operands that have to be
converted have the cheapest routes from their types to the parameters. -/
structure Expr.Takes (n : Expr) (r : Conversions) (types : TypeTable) (o : Overload) : Prop where
  overload : (types.get n.id).overload = some o
  result : (types.get n.id).inferred = o.result
  operand : ∀ x ∈ n.ownOperands.zip o.args, (types.get x.1).inferred ≠ .unknown →
    (types.get x.1).inferred ≠ x.2 →
      ∃ route, r.route? (types.get x.1).inferred x.2 = some route ∧ (types.get x.1).conversion = route.path

/-- An operator takes the overload that is picked for the types that are recorded for its operands. -/
theorem Records.takes {ops : List Nat} (h : Records scope ops n s s' t) (hn : n.ids.Nodup)
    (hops : n.ownOperands ⊆ ops) {op : OperatorId} (hop : n.operator? = some op) {best : Candidate}
    (hbest : pickOverload scope.services op (n.operandTypes t.table) = some best) :
    n.Takes scope.services.conversions t.table best.overload := by
  obtain ⟨operands, -, hseen, hresult, hoverload, hentries⟩ := h.operator hn hops hop
  have htypes : operands.map Prod.snd = n.operandTypes t.table := by
    rw [hseen, List.map_map]
    rfl
  have hnumbers : (n.mark.id :: operands.map Prod.fst).Nodup := by
    rw [hseen, List.map_map, Function.comp_def, List.map_id']
    exact n.nodup_ownOperands hn
  obtain ⟨htype, hpicked, hoperands⟩ := get?_resolve scope (inferParts scope n.parts s') hnumbers
    (htypes ▸ hbest)
  refine ⟨hoverload.trans hpicked, hresult.trans htype, ?_⟩
  rintro ⟨id, param⟩ hzip hknown hother
  obtain ⟨i, hboth⟩ := List.mem_iff_getElem?.mp hzip
  obtain ⟨hid, hparam⟩ := List.getElem?_zip_eq_some.mp hboth
  have hoperand : operands[i]? = some (id, (t.table.get id).inferred) := by
    rw [hseen, List.getElem?_map, hid]
    rfl
  obtain ⟨param', path, hparam', hpath, hnil, -, hentry⟩ := hoperands hoperand
  obtain rfl : param' = param := Option.some.inj (hparam'.symm.trans hparam)
  have hneeded : path ≠ [] := fun hempty => (hnil.mp hempty).elim hknown hother
  have hconversion : (t.table.get id).conversion = path := by
    rw [TypeTable.get, hentries id (List.mem_of_getElem? hid), hentry, if_neg hneeded]
    rfl
  obtain ⟨ho, hcandidate⟩ := mem_of_pickOverload hbest
  have hroute := (candidate?_eq_some ho hcandidate).2.2.2
  have hat : (n.operandTypes t.table)[i]? = some (t.table.get id).inferred := by
    rw [Expr.operandTypes, List.getElem?_map, hid]
    rfl
  rw [hroute, List.getElem?_zipWith, hat, hparam, Option.some_inj, Conversions.operandRoute?,
    if_neg hknown] at hpath
  cases hfound : scope.services.conversions.route? (t.table.get id).inferred param' with
  | none =>
    rw [hfound] at hpath
    exact absurd hpath.symm hneeded
  | some route =>
    rw [hfound] at hpath
    exact ⟨route, rfl, hconversion.trans hpath.symm⟩

variable (scope) in
/-- What becomes of an operator in a row, in an affordable graph of conversions: a missing overload is reported
if and only if none suits the operands. Otherwise one that suits is taken, and as long as the costs of those that
suit fit 64 bits, it is the first of the cheapest, and the one for exactly these types if there is one. -/
theorem resolved_operators {catalog : Catalog} {rule : String} {row : Text.Source} {lastId : Nat} {diags : Diagnostics}
    {r : Reader} (hread : readRow catalog rule row lastId diags = (e, r)) (ht : typeExpr scope e s = t)
    (hbuilt : scope.services.conversions.Built) (haffordable : scope.services.conversions.Affordable)
    (hn : n ∈ e.nodes) {op : OperatorId} (hop : n.operator? = some op) {types : List TypeId}
    (htypes : n.operandTypes t.table = types) {overloads : List Overload}
    (hoverloads : scope.services.operators.ofArity op types.length = overloads) :
    (s.Misses n.id t ↔ ∀ o ∈ overloads, ¬ scope.services.conversions.Suits types o.args) ∧
    ((∃ o ∈ overloads, scope.services.conversions.Suits types o.args) → ∃ best ∈ overloads,
      scope.services.conversions.Suits types best.args ∧ n.Takes scope.services.conversions t.table best ∧
      (ExpensesFit scope.services op types →
        scope.services.conversions.IsCheapest types overloads best ∧
          (.unknown ∉ types → ∀ o, scope.services.operators.resolve? op types = some o → best = o))) := by
  subst hoverloads ht htypes
  have he : e.ids.Nodup := by
    have hdrawn := drawn_readRow catalog rule row lastId diags
    rw [hread] at hdrawn
    exact hdrawn.nodup
  have hops : n.ownOperands ⊆ e.operands := fun id hid => List.mem_flatMap.mpr ⟨n, hn, hid⟩
  have hnodup := Expr.nodup_node e he hn
  obtain ⟨s', hrecords, hhears⟩ := heardAt scope he (expect scope e .unknown s) hn
  have hnone : pickOverload scope.services op (n.operandTypes (typeExpr scope e s).table) = none ↔ _ :=
    pickOverload_eq_none_iff hbuilt haffordable
  constructor
  · obtain ⟨operands, hinfer, hseen, -⟩ := hrecords.operator hnodup hops hop
    have hmisses := misses_iff hnodup hinfer hhears
    rw [hseen, List.map_map] at hmisses
    rw [← hnone, Typing.Misses, ← diags_expect scope e .unknown s]
    exact hmisses
  · rintro ⟨o, ho, hsuits⟩
    cases hbest : pickOverload scope.services op (n.operandTypes (typeExpr scope e s).table) with
    | none => exact absurd hsuits (hnone.mp hbest o ho)
    | some best =>
      obtain ⟨hmem, hcandidate⟩ := mem_of_pickOverload hbest
      refine ⟨best.overload, hmem, ?_, hrecords.takes hnodup hops hop hbest, fun hfits => ?_⟩
      · exact (isSome_candidate?_iff hbuilt haffordable hmem).mp (Option.isSome_iff_exists.mpr ⟨_, hcandidate⟩)
      · have hcheapest := cheapest_of_pickOverload hbuilt haffordable hfits hbest
        exact ⟨hcheapest, fun hknown o hexact =>
          exact_of_cheapest hbuilt haffordable hcheapest hknown hexact⟩

end

/-- Sums of numbers, and of texts. -/
def sums : List Overload :=
  [⟨"add", [.number, .number], .number, 0, false⟩, ⟨"add", [.string, .string], .string, 0, false⟩]

/-- Only numbers are converted, to texts. -/
def sumScope (cost : Int) : TypeScope Unit :=
  { services := { operators := ⟨sums, false⟩, conversions := ⟨[⟨.number, .string, cost, 0⟩], false⟩ }
    vars := fun name => if name = "a" then some .string else none }

theorem built_sumScope {cost : Int} (hcost : 0 < cost) : (sumScope cost).services.conversions.Built := by
  refine .register (e := ⟨.number, .string, cost, 0⟩) .empty ?_
  rw [Conversions.register, if_neg (show ¬ TypeId.number = TypeId.string by decide), if_neg (not_le.mpr hcost)]
  rfl

def mixedRow : Expr × Reader := readRow {} "" "1 + $a" 0 []

def mixedTyping : Typing := typeExpr (sumScope 1) mixedRow.1 {}

theorem mixedRow_operator : mixedRow.1.nodes.any (fun n => decide (n.operator? = some "add") &&
    decide (n.operandTypes mixedTyping.table = [.number, .string]) &&
    decide ((mixedTyping.table.get n.id).overload = sums[1]?)) = true := by
  decide

/-- The number is turned into a text and added to the other one. -/
theorem resolved_operators_mixed : ∃ n ∈ mixedRow.1.nodes, n.operator? = some "add" ∧
    ∃ best : Overload, best.args = [.string, .string] ∧
      n.Takes (sumScope 1).services.conversions mixedTyping.table best ∧
      (sumScope 1).services.conversions.IsCheapest [.number, .string] sums best := by
  have hbuilt := built_sumScope (show (0 : Int) < 1 by decide)
  have haffordable : (sumScope 1).services.conversions.Affordable :=
    Conversions.affordable_of_cost_le hbuilt.cost_pos (by decide)
  obtain ⟨n, hn, hoperator⟩ := List.any_eq_true.mp mixedRow_operator
  simp only [Bool.and_eq_true, decide_eq_true_eq] at hoperator
  obtain ⟨⟨hop, htypes⟩, hoverload⟩ := hoperator
  have hread : readRow {} "" "1 + $a" 0 [] = (mixedRow.1, mixedRow.2) := rfl
  have htyped : typeExpr (sumScope 1) mixedRow.1 {} = mixedTyping := rfl
  have hall : (sumScope 1).services.operators.ofArity "add" [TypeId.number, TypeId.string].length = sums := rfl
  have hedge : (sumScope 1).services.conversions.Leads .number .string [⟨.number, .string, 1, 0⟩] :=
    .cons (e := ⟨.number, .string, 1, 0⟩) List.mem_cons_self (.nil _)
  have hsuits : (sumScope 1).services.conversions.Suits [.number, .string] [.string, .string] :=
    .cons (.inr ⟨_, hedge, by decide⟩) (.cons (.inr ⟨[], .nil _, by decide⟩) .nil)
  obtain ⟨best, -, -, htakes, hcheapest⟩ := (resolved_operators (sumScope 1) hread htyped hbuilt haffordable
    hn hop htypes hall).2 ⟨⟨"add", [.string, .string], .string, 0, false⟩, by decide, hsuits⟩
  obtain rfl : _ = best := Option.some.inj (hoverload.symm.trans htakes.overload)
  have hfit : ∀ o ∈ sums,
      Decimal.wrap64 ((sumScope 1).services.conversions.expense [.number, .string] o.args) =
        (sumScope 1).services.conversions.expense [.number, .string] o.args := by
    decide +kernel
  have hfits : ExpensesFit (sumScope 1).services "add" [.number, .string] := fun o ho _ => hfit o (hall ▸ ho)
  exact ⟨n, hn, hop, _, rfl, htakes, (hcheapest hfits).1⟩

/-- Where a conversion costs more than half of what 64 bits hold, two of them cost too little. -/
def dearCost : Int := 4611686018427387904

def plainRow : Expr × Reader := readRow {} "" "1 + 2" 0 []

def plainTyping : Typing := typeExpr (sumScope dearCost) plainRow.1 {}

theorem plainRow_operator : plainRow.1.nodes.any (fun n => decide (n.operator? = some "add") &&
    decide (n.operandTypes plainTyping.table = [.number, .number]) &&
    decide ((plainTyping.table.get n.id).overload = sums[1]?)) = true := by
  decide

theorem affordable_dear : (sumScope dearCost).services.conversions.Affordable := by
  rintro source goal path ⟨hleads, -⟩
  cases hleads with
  | nil => rfl
  | @cons e _ path hmem hrest =>
    obtain rfl := List.mem_singleton.mp hmem
    have hlast : path = [] := by
      generalize hsource : (⟨.number, .string, dearCost, 0⟩ : Conversion).target = type at hrest
      cases hrest with
      | nil => rfl
      | cons hmem _ =>
        rw [List.mem_singleton.mp hmem] at hsource
        exact absurd hsource (by decide)
    subst hlast
    decide

/-- Two numbers are turned into texts to be added, though there is an overload for numbers. -/
theorem exact_overload_loses :
    (sumScope dearCost).services.conversions.Built ∧ (sumScope dearCost).services.conversions.Affordable ∧
    ∃ n ∈ plainRow.1.nodes, n.operator? = some "add" ∧
      n.operandTypes plainTyping.table = [.number, .number] ∧ ∃ exact best : Overload,
        (sumScope dearCost).services.operators.resolve? "add" [.number, .number] = some exact ∧
        (plainTyping.table.get n.id).overload = some best ∧ best ≠ exact ∧
        (sumScope dearCost).services.conversions.expense [.number, .number] exact.args <
          (sumScope dearCost).services.conversions.expense [.number, .number] best.args := by
  refine ⟨built_sumScope (by decide), affordable_dear, ?_⟩
  obtain ⟨n, hn, hoperator⟩ := List.any_eq_true.mp plainRow_operator
  simp only [Bool.and_eq_true, decide_eq_true_eq] at hoperator
  obtain ⟨⟨hop, htypes⟩, hoverload⟩ := hoperator
  exact ⟨n, hn, hop, htypes, _, _, rfl, hoverload, by decide, by decide +kernel⟩

end Row

end TileMind
