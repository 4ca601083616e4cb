import TileMind.Proofs.Row.Numbers
import TileMind.Proofs.Value.Lookup
import TileMind.Row.Typing

/-!
# TileMind.Proofs.Row.Locality

Typing a tree whose nodes have different numbers. Both passes change entries of nodes below only, so
what is recorded for a node is decided where the passes come to it; the one exception is an operand,
whose operator may give it a conversion afterwards.

* `within_infer`, `within_expect`: what the passes leave alone.
* `inferredAt`, `expectedAt`: what they record for a node inside of a tree.
-/

namespace TileMind
namespace Row

theorem TypeTable.get?_modify (t : TypeTable) (id j : Nat) (f : TypeInfo → TypeInfo) :
    (t.modify id f).get? j = if j = id then some (f (t.get id)) else t.get? j := by
  have hany : (t.entries.any fun e => e.1 = id) = (t.entries.lookup id).isSome := by
    rw [Bool.eq_iff_iff, Option.isSome_iff_ne_none, ne_eq, lookup_eq_none_iff, Classical.not_not]
    simp
  unfold modify get get?
  rw [hany]
  cases hlookup : t.entries.lookup id with
  | some info =>
    simp only [Option.isSome_some, if_true]
    rw [lookup_map_ite]
    by_cases hj : j = id
    · simp [hj, hlookup]
    · simp [hj]
  | none =>
    rw [if_neg (by simp), List.lookup_append, lookup_cons_eq]
    by_cases hj : j = id
    · simp [hj, hlookup]
    · simp [hj]

theorem TypeTable.get_of_get? {t u : TypeTable} {id : Nat} (h : u.get? id = t.get? id) :
    u.get id = t.get id := by
  rw [get, get, h]

/-- What is found out about a node itself, apart from what its surroundings want. -/
def TypeInfo.findings (i : TypeInfo) : TypeId × Option Overload := (i.inferred, i.overload)

theorem TypeTable.findings_modify (t : TypeTable) (id j : Nat) {f : TypeInfo → TypeInfo}
    (h : j = id → (f (t.get id)).findings = (t.get id).findings) :
    ((t.modify id f).get j).findings = (t.get j).findings := by
  rw [get, get?_modify]
  split
  · rename_i hj
    rw [hj]
    exact h hj
  · rfl

/-! ## Stretches of typing -/

/-- On the way from `s` to `t` no other entries than those of `ids` change, and what is reported is
kept. -/
structure Typing.Within (ids : List Nat) (s t : Typing) : Prop where
  outside : ∀ id ∉ ids, t.table.get? id = s.table.get? id
  diags : s.diags <+: t.diags

namespace Typing.Within

variable {ids ids' : List Nat} {s t u : Typing}

theorem refl (ids : List Nat) (s : Typing) : s.Within ids s := ⟨fun _ _ => rfl, List.prefix_rfl⟩

theorem trans (h : s.Within ids t) (h' : t.Within ids u) : s.Within ids u :=
  ⟨fun id hid => (h'.outside id hid).trans (h.outside id hid), h.diags.trans h'.diags⟩

theorem mono (h : s.Within ids t) (hsub : ids ⊆ ids') : s.Within ids' t :=
  ⟨fun id hid => h.outside id fun hmem => hid (hsub hmem), h.diags⟩

theorem modify {id : Nat} (h : s.Within ids t) (hid : id ∈ ids) (f : TypeInfo → TypeInfo) :
    s.Within ids (t.modify id f) := by
  refine ⟨fun j hj => ?_, h.diags⟩
  have hne : j ≠ id := fun heq => hj (heq ▸ hid)
  rw [Typing.modify, TypeTable.get?_modify, if_neg hne, h.outside j hj]

theorem report (h : s.Within ids t) (d : Diagnostic) : s.Within ids (t.report d) :=
  ⟨h.outside, h.diags.trans (List.prefix_append _ _)⟩

end Typing.Within

/-- The operator of a node, if it is one that has overloads. -/
def Expr.operator? : Expr → Option OperatorId
  | .binary _ op _ _ => if op.isShortCircuit then none else some op.id
  | .unary _ op _ => some op.id
  | _ => none

/-- The operands of an operator that has overloads. -/
def Expr.ownOperands : Expr → List Nat
  | .binary _ op left right => if op.isShortCircuit then [] else [left.id, right.id]
  | .unary _ _ operand => [operand.id]
  | _ => []

/-- The numbers of all nodes in a tree that are operands of operators with overloads. -/
def Expr.operands (e : Expr) : List Nat := e.nodes.flatMap Expr.ownOperands

theorem Expr.mem_ownOperands {e : Expr} {id : Nat} (h : id ∈ e.ownOperands) :
    id ∈ e.operands ∧ ∃ c ∈ e.parts, id = c.id := by
  refine ⟨List.mem_flatMap.mpr ⟨e, Expr.mem_nodes_iff.mpr (.inl rfl), h⟩, ?_⟩
  cases e with
  | binary m op left right =>
    simp only [Expr.ownOperands] at h
    split at h
    · cases h
    · simpa [Expr.parts] using h
  | unary m op operand => simpa [Expr.ownOperands, Expr.parts] using h
  | _ => cases h

theorem Expr.exists_operator {e : Expr} {id : Nat} (h : id ∈ e.ownOperands) :
    ∃ op, e.operator? = some op := by
  cases e with
  | binary m op left right =>
    simp only [Expr.ownOperands] at h
    split at h
    · cases h
    · rename_i hop
      exact ⟨op.id, by rw [Expr.operator?, if_neg hop]⟩
  | unary m op operand => exact ⟨op.id, rfl⟩
  | _ => cases h

/-! ## Inference -/

section

variable {σ : Type} (scope : TypeScope σ)

theorem within_convert (ids : List Nat) (m : Mark) (source target : TypeId) (s : Typing) :
    s.Within ids (convert scope m source target s).2 := by
  unfold convert
  split
  · exact .refl _ s
  · split
    · exact .refl _ s
    · exact (Typing.Within.refl _ s).report _

theorem within_fieldType (ids : List Nat) (m : Mark) (object : TypeId) (name : String) (s : Typing) :
    s.Within ids (fieldType scope m object name s).2 := by
  have hsame := Typing.Within.refl ids s
  unfold fieldType
  dsimp only
  repeat' split
  all_goals first | exact hsame | exact hsame.report _

theorem within_settle (m : Mark) (type : TypeId) (s : Typing) :
    s.Within [m.id] (settle scope m type s).2 := by
  unfold settle
  exact (within_convert scope _ m type _ s).modify List.mem_cons_self _

/-- What operators do to their operands leaves alone what was found out about them. -/
theorem within_convertOperands (ids : List Nat) (params : List TypeId) (paths : List (List Conversion))
    (s : Typing) : s.Within ids (convertOperands ids params paths s) ∧
      ∀ id, ((convertOperands ids params paths s).table.get id).findings = (s.table.get id).findings := by
  induction ids generalizing params paths s with
  | nil =>
    rw [convertOperands]
    · exact ⟨.refl _ s, fun _ => rfl⟩
    · simp
  | cons id ids ih =>
    match params, paths with
    | [], _ =>
      rw [convertOperands]
      · exact ⟨.refl _ s, fun _ => rfl⟩
      · simp
    | _ :: _, [] =>
      rw [convertOperands]
      · exact ⟨.refl _ s, fun _ => rfl⟩
      · simp
    | param :: params, path :: paths =>
      rw [convertOperands]
      split
      · obtain ⟨hw, hi⟩ := ih params paths s
        exact ⟨hw.mono (by simp), hi⟩
      · obtain ⟨hw, hi⟩ := ih params paths
          (s.modify id fun info => { info with expected := param, conversion := path })
        refine ⟨((Typing.Within.refl _ s).modify List.mem_cons_self _).trans (hw.mono (by simp)), ?_⟩
        intro j
        rw [hi j]
        exact s.table.findings_modify id j fun _ => rfl

theorem within_resolve (m : Mark) (op : OperatorId) (operands : List (Nat × TypeId)) (s : Typing) :
    s.Within (m.id :: operands.map Prod.fst) (resolve scope m op operands s).2 ∧
      ∀ id ≠ m.id,
        ((resolve scope m op operands s).2.table.get id).findings = (s.table.get id).findings := by
  unfold resolve
  dsimp only
  split
  · exact ⟨(Typing.Within.refl _ s).report _, fun _ _ => rfl⟩
  · rename_i best _
    obtain ⟨hw, hi⟩ := within_convertOperands (operands.map Prod.fst) best.overload.args best.paths
      (s.modify m.id fun info => { info with overload := some best.overload })
    refine ⟨((Typing.Within.refl _ s).modify List.mem_cons_self _).trans (hw.mono (by simp)), ?_⟩
    intro j hj
    rw [hi j]
    exact s.table.findings_modify m.id j fun heq => absurd heq hj

def inferParts (cs : List Expr) (s : Typing) : Typing := cs.foldl (fun s c => (infer scope c s).2) s

theorem inferArgs_eq : ∀ (args : Args) (s : Typing),
    inferArgs scope args s = inferParts scope (args.toList.map Prod.snd) s
  | .nil, s => rfl
  | .cons slot value rest, s => by
    rw [inferArgs, inferArgs_eq rest]
    rfl

/-- On the way from `s` to `t` the top of a tree is inferred: its own entry changes, and for its operands
`ids` what they are converted to. -/
structure Typing.Tops (top : Nat) (ids : List Nat) (s t : Typing) : Prop where
  within : s.Within (top :: ids) t
  findings : ∀ id ≠ top, (t.table.get id).findings = (s.table.get id).findings

theorem Typing.Within.tops {top : Nat} {s t : Typing} (h : s.Within [top] t) (ids : List Nat) :
    s.Tops top ids t := by
  refine ⟨h.mono (by simp), fun id hid => ?_⟩
  rw [TypeTable.get_of_get? (h.outside id (by simpa using hid))]

theorem Typing.Tops.trans {top : Nat} {ids : List Nat} {s t u : Typing} (h : s.Tops top ids t)
    (h' : t.Tops top ids u) : s.Tops top ids u :=
  ⟨h.within.trans h'.within, fun id hid => (h'.findings id hid).trans (h.findings id hid)⟩

/-- A tree is inferred after its parts. -/
theorem tops_infer (e : Expr) (s : Typing) :
    (inferParts scope e.parts s).Tops e.id e.ownOperands (infer scope e s).2 := by
  have hsettle (m : Mark) (type : TypeId) (t : Typing) (ids : List Nat) :
      t.Tops m.id ids (settle scope m type t).2 := (within_settle scope m type t).tops ids
  have hresolve (m : Mark) (op : OperatorId) (operands : List (Nat × TypeId)) (t : Typing) :
      t.Tops m.id (operands.map Prod.fst) (resolve scope m op operands t).2 := by
    obtain ⟨hw, hfindings⟩ := within_resolve scope m op operands t
    exact ⟨hw, hfindings⟩
  cases e with
  | «variable» m name =>
    rw [infer]
    split
    · exact hsettle m _ _ _
    · exact (((Typing.Within.refl _ _).report _).tops _).trans (hsettle m _ _ _)
  | field m object name =>
    rw [infer]
    exact ((within_fieldType scope _ m _ name _).tops _).trans (hsettle m _ _ _)
  | assign m target value =>
    rw [infer]
    dsimp only
    split
    · exact ((within_convert scope _ m _ _ _).modify List.mem_cons_self _).tops _
    · exact ((Typing.Within.refl _ _).modify List.mem_cons_self _).tops _
  | binary m op left right =>
    rw [infer, Expr.ownOperands]
    dsimp only
    split
    · exact hsettle m _ _ _
    · exact (hresolve m op.id [(left.id, _), (right.id, _)] _).trans (hsettle m _ _ _)
  | unary m op operand =>
    rw [infer]
    exact (hresolve m op.id [(operand.id, _)] _).trans (hsettle m _ _ _)
  | call m tile args =>
    rw [infer, inferArgs_eq]
    exact hsettle m _ _ _
  | literal m value | parameter m tile value | modifier m tile count | empty m | error m message =>
    rw [infer]
    exact hsettle m _ _ _

theorem within_inferParts (cs : List Expr) (h : ∀ c ∈ cs, ∀ s : Typing, s.Within c.ids (infer scope c s).2)
    (s : Typing) : s.Within (cs.flatMap Expr.ids) (inferParts scope cs s) := by
  induction cs generalizing s with
  | nil => exact .refl _ s
  | cons c cs ih =>
    have hc : s.Within ((c :: cs).flatMap Expr.ids) (infer scope c s).2 :=
      (h c List.mem_cons_self s).mono (by simp)
    have hcs := ih (fun x hx => h x (List.mem_cons_of_mem _ hx)) (infer scope c s).2
    exact hc.trans (hcs.mono (by simp))

theorem within_infer (e : Expr) : ∀ s : Typing, s.Within e.ids (infer scope e s).2 := by
  induction e using Expr.induction_parts with
  | h e ih =>
    intro s
    have hparts : s.Within e.ids (inferParts scope e.parts s) := by
      refine (within_inferParts scope e.parts ih s).mono ?_
      rw [e.ids_eq]
      exact List.subset_cons_self _ _
    refine hparts.trans ((tops_infer scope e s).within.mono ?_)
    intro id hid
    rw [e.ids_eq]
    rcases List.mem_cons.mp hid with rfl | hid
    · exact List.mem_cons_self
    · obtain ⟨-, c, hc, rfl⟩ := Expr.mem_ownOperands hid
      exact List.mem_cons_of_mem _ (List.mem_flatMap.mpr ⟨c, hc, c.id_mem_ids⟩)

/-- In typing from `s` to `t`, the tree `a` is inferred from `s'` on. What is recorded for it stays, but
for what one of `ops` gets from its operator. -/
structure Records (ops : List Nat) (a : Expr) (s s' t : Typing) : Prop where
  start : ∀ id ∈ a.ids, s'.table.get? id = s.table.get? id
  diags : (infer scope a s').2.diags <+: t.diags
  findings : (t.table.get a.id).findings = ((infer scope a s').2.table.get a.id).findings
  entry : ∀ id ∈ a.ids, (id = a.id → id ∉ ops) →
    t.table.get? id = (infer scope a s').2.table.get? id

section

variable {scope} {ops : List Nat} {a : Expr} {s s' t : Typing}

theorem Records.inferred (h : Records scope ops a s s' t) :
    (t.table.get a.id).inferred = ((infer scope a s').2.table.get a.id).inferred :=
  congrArg Prod.fst h.findings

/-- What is recorded for a tree says what is recorded for its parts. The operator on top can change the
entry of its operand, but of no node below that. -/
theorem Records.part {n c : Expr} {before after : List Expr} (h : Records scope ops n s s' t)
    (hn : n.ids.Nodup) (hparts : n.parts = before ++ c :: after) (hops : n.ownOperands ⊆ ops) :
    Records scope ops c s (inferParts scope before s') t := by
  obtain ⟨-, htop, hbefore, hafter⟩ := Expr.nodup_part hn hparts
  have hsub : c.ids ⊆ n.ids := by
    refine Expr.ids_subset n (Expr.mem_nodes_iff.mpr (.inr ⟨c, ?_, Expr.mem_nodes_iff.mpr (.inl rfl)⟩))
    rw [hparts]
    simp
  have hfirst := within_inferParts scope before (fun x _ => within_infer scope x) s'
  have hlast := within_inferParts scope after (fun x _ => within_infer scope x)
    (infer scope c (inferParts scope before s')).2
  have hall : inferParts scope n.parts s' =
      inferParts scope after (infer scope c (inferParts scope before s')).2 := by
    rw [hparts, inferParts, List.foldl_append, List.foldl_cons]
    rfl
  obtain ⟨hw, hfindings⟩ := tops_infer scope n s'
  rw [hall] at hw hfindings
  have hne {id : Nat} (hid : id ∈ c.ids) : id ≠ n.id := fun heq => htop (heq ▸ hid)
  have hkept {id : Nat} (hid : id ∈ c.ids) : t.table.get? id = (infer scope n s').2.table.get? id :=
    h.entry id (hsub hid) fun heq => absurd heq (hne hid)
  refine ⟨fun id hid => ?_, (hlast.diags.trans hw.diags).trans h.diags, ?_, fun id hid hout => ?_⟩
  · rw [hfirst.outside id (hbefore id hid), h.start id (hsub hid)]
  · rw [TypeTable.get_of_get? (hkept c.id_mem_ids), hfindings c.id (hne c.id_mem_ids),
      TypeTable.get_of_get? (hlast.outside c.id (hafter c.id c.id_mem_ids))]
  · rw [hkept hid, hw.outside id, hlast.outside id (hafter id hid)]
    intro hmem
    rcases List.mem_cons.mp hmem with heq | hmem
    · exact hne hid heq
    · obtain ⟨-, x, hx, heq⟩ := Expr.mem_ownOperands hmem
      rw [hparts, List.mem_append, List.mem_cons] at hx
      rcases hx with hx | rfl | hx
      · exact hbefore id hid (List.mem_flatMap.mpr ⟨x, hx, heq ▸ x.id_mem_ids⟩)
      · exact hout heq (hops hmem)
      · exact hafter id hid (List.mem_flatMap.mpr ⟨x, hx, heq ▸ x.id_mem_ids⟩)

variable (scope) in
/-- What holds of a tree and of the state in which it is inferred holds of every node, if it passes on to the
parts in their states. -/
theorem exists_state_of_node {R : Expr → Typing → Prop} {e : Expr} {s' : Typing} (h : R e s')
    (hnodup : e.ids.Nodup)
    (hpart : ∀ n ∈ e.nodes, ∀ {c : Expr} {before after : List Expr} {s' : Typing}, R n s' → n.ids.Nodup →
      n.parts = before ++ c :: after → R c (inferParts scope before s')) :
    ∀ a ∈ e.nodes, ∃ s', R a s' := by
  induction e using Expr.induction_parts generalizing s' with
  | h e ih =>
    intro a ha
    rcases Expr.mem_nodes_iff.mp ha with rfl | ⟨c, hc, ha⟩
    · exact ⟨s', h⟩
    · obtain ⟨before, after, hparts⟩ := List.append_of_mem hc
      refine ih c hc (hpart e (Expr.mem_nodes_iff.mpr (.inl rfl)) h hnodup hparts)
        (Expr.nodup_part hnodup hparts).1 (fun n hn => ?_) a ha
      exact hpart n (Expr.mem_nodes_iff.mpr (.inr ⟨c, hc, hn⟩))

/-- What is recorded for a tree says what is recorded for every node of it. -/
theorem Records.node {e : Expr} (h : Records scope ops e s s' t) (hnodup : e.ids.Nodup)
    (hops : e.operands ⊆ ops) : ∀ a ∈ e.nodes, ∃ s', Records scope ops a s s' t := by
  refine exists_state_of_node scope h hnodup fun n hn c before after s' hrecords hnodup hparts => ?_
  exact hrecords.part hnodup hparts (List.Subset.trans
    (fun id hid => List.mem_flatMap.mpr ⟨n, hn, hid⟩) hops)

end

/-- What inference records for a node is decided at that node. -/
theorem inferredAt (ops : List Nat) (e : Expr) (s : Typing) (hnodup : e.ids.Nodup)
    (hops : e.operands ⊆ ops) (a : Expr) (ha : a ∈ e.nodes) :
    ∃ s', Records scope ops a s s' (infer scope e s).2 :=
  Records.node ⟨fun _ _ => rfl, List.prefix_rfl, rfl, fun _ _ _ => rfl⟩ hnodup hops a ha

/-! ## Expectation -/

/-- What is expected of a node itself, if `type` is expected in its place and `before` was so far. -/
def Expr.expectation (type before : TypeId) : Expr → TypeId
  | .parameter _ tile _ => tile.value
  | .modifier _ _ _ => .number
  | .call _ tile _ => if tile.kind = .sensor then tile.output else .void
  | _ => if type = "" || type = .unknown then before else type

/-- Types are expected of trees in turn. -/
inductive Expecting : List Expr → Typing → Typing → Prop where
  | nil (s : Typing) : Expecting [] s s
  | cons {c : Expr} {cs : List Expr} {s t u : Typing} (type : TypeId)
      (within : (expect scope c type s).Within c.ids t)
      (expected : ∀ id, (t.table.get id).expected = ((expect scope c type s).table.get id).expected)
      (rest : Expecting cs t u) : Expecting (c :: cs) s u

theorem Expecting.cons_self {c : Expr} {cs : List Expr} {s t : Typing} (type : TypeId)
    (h : Expecting scope cs (expect scope c type s) t) : Expecting scope (c :: cs) s t :=
  .cons type (.refl _ _) (fun _ => rfl) h

theorem expecting_expectArgs (tile : Tile) : ∀ (args : Args) (s : Typing),
    Expecting scope (args.toList.map Prod.snd) s (expectArgs scope tile args s)
  | .nil, s => .nil s
  | .cons slot value rest, s => by
    rw [expectArgs]
    exact .cons_self scope (slotType tile slot) (expecting_expectArgs tile rest _)

theorem expected_modify (s : Typing) (id j : Nat) (f : TypeInfo → TypeInfo) :
    ((s.modify id f).table.get j).expected =
      if j = id then (f (s.table.get id)).expected else (s.table.get j).expected := by
  rw [TypeTable.get, Typing.modify, TypeTable.get?_modify]
  split <;> rfl

/-- First the top of a tree learns what is expected of it, then its parts do. -/
theorem expect_top (e : Expr) (type : TypeId) (s : Typing) :
    ∃ t, s.Within [e.id] t ∧
      (t.table.get e.id).expected = e.expectation type (s.table.get e.id).expected ∧
      Expecting scope e.parts t (expect scope e type s) := by
  have hfirst (m : Mark) : s.Within [m.id] (expectType m.id type s) :=
    (Typing.Within.refl _ s).modify List.mem_cons_self _
  have hown (m : Mark) : ((expectType m.id type s).table.get m.id).expected =
      if type = "" || type = .unknown then (s.table.get m.id).expected else type := by
    rw [expectType, expected_modify, if_pos rfl]
    split <;> rfl
  have hset (m : Mark) (own : TypeId) :
      (((expectType m.id type s).modify m.id fun info => { info with expected := own }).table.get
        m.id).expected = own := by
    rw [expected_modify, if_pos rfl]
  cases e with
  | assign m target value =>
    rw [expect]
    refine ⟨_, hfirst m, hown m, .cons (declaredType scope target)
      ((Typing.Within.refl _ _).modify target.id_mem_ids _) (fun id => ?_)
      (.cons_self scope (declaredType scope target) (.nil _))⟩
    rw [expected_modify]
    split
    · rename_i hid
      rw [hid]
    · rfl
  | parameter m tile value =>
    rw [expect]
    exact ⟨_, (hfirst m).modify List.mem_cons_self _, hset m tile.value,
      .cons_self scope tile.value (.nil _)⟩
  | modifier m tile count =>
    rw [expect]
    exact ⟨_, (hfirst m).modify List.mem_cons_self _, hset m .number, .nil _⟩
  | call m tile args =>
    rw [expect]
    exact ⟨_, (hfirst m).modify List.mem_cons_self _, hset m _, expecting_expectArgs scope tile args _⟩
  | binary m op left right =>
    rw [expect]
    exact ⟨_, hfirst m, hown m, .cons_self scope .unknown (.cons_self scope .unknown (.nil _))⟩
  | unary m op operand =>
    rw [expect]
    exact ⟨_, hfirst m, hown m, .cons_self scope .unknown (.nil _)⟩
  | field m object name =>
    rw [expect]
    exact ⟨_, hfirst m, hown m, .cons_self scope .unknown (.nil _)⟩
  | literal m value | «variable» m name | empty m | error m message =>
    rw [expect]
    exact ⟨_, hfirst m, hown m, .nil _⟩

theorem Expecting.within {cs : List Expr} {s t : Typing} (h : Expecting scope cs s t)
    (hcs : ∀ c ∈ cs, ∀ (type : TypeId) (s : Typing), s.Within c.ids (expect scope c type s)) :
    s.Within (cs.flatMap Expr.ids) t := by
  induction h with
  | nil s => exact .refl _ s
  | @cons c cs s t u type within _ _ ih =>
    have hc : s.Within ((c :: cs).flatMap Expr.ids) t :=
      ((hcs c List.mem_cons_self type s).trans within).mono (by simp)
    exact hc.trans ((ih fun x hx => hcs x (List.mem_cons_of_mem _ hx)).mono (by simp))

theorem within_expect (e : Expr) : ∀ (type : TypeId) (s : Typing),
    s.Within e.ids (expect scope e type s) := by
  induction e using Expr.induction_parts with
  | h e ih =>
    intro type s
    obtain ⟨t, htop, -, hparts⟩ := expect_top scope e type s
    rw [e.ids_eq]
    exact (htop.mono (by simp)).trans ((hparts.within scope ih).mono (List.subset_cons_self _ _))

theorem expected_expect {e : Expr} (he : e.ids.Nodup) (type : TypeId) (s : Typing) :
    ((expect scope e type s).table.get e.id).expected =
      e.expectation type (s.table.get e.id).expected := by
  obtain ⟨t, -, hexpected, hparts⟩ := expect_top scope e type s
  have hw := hparts.within scope fun c _ => within_expect scope c
  rw [e.ids_eq, List.nodup_cons] at he
  rw [TypeTable.get_of_get? (hw.outside e.id he.1), hexpected]

/-- The way from `s` to `t` expects a type of the tree `a` from `s'` on, and that stays. -/
def ExpectedAt (a : Expr) (s t : Typing) : Prop :=
  ∃ type s', (∀ id ∈ a.ids, s'.table.get? id = s.table.get? id) ∧
    ∀ id ∈ a.ids, (t.table.get id).expected = ((expect scope a type s').table.get id).expected

theorem Expecting.at {cs : List Expr} {s t : Typing} (h : Expecting scope cs s t) {c a : Expr}
    (hc : c ∈ cs) (hnodup : (cs.flatMap Expr.ids).Nodup) (ha : a.ids ⊆ c.ids)
    (hcs : ∀ (type : TypeId) (s : Typing), ExpectedAt scope a s (expect scope c type s)) :
    ExpectedAt scope a s t := by
  induction h with
  | nil s => cases hc
  | @cons x cs s t u type within expected rest ih =>
    rw [List.flatMap_cons, List.nodup_append] at hnodup
    obtain ⟨-, hrest, hapart⟩ := hnodup
    rcases List.mem_cons.mp hc with rfl | hc
    · obtain ⟨type', s', hstart, hexpected⟩ := hcs type s
      refine ⟨type', s', hstart, fun id hid => ?_⟩
      have hw := rest.within scope fun c _ => within_expect scope c
      have hout : id ∉ cs.flatMap Expr.ids := fun hmem => hapart id (ha hid) id hmem rfl
      rw [TypeTable.get_of_get? (hw.outside id hout), expected, hexpected id hid]
    · obtain ⟨type', s', hstart, hexpected⟩ := ih hc hrest
      refine ⟨type', s', fun id hid => (hstart id hid).trans ?_, hexpected⟩
      have hout : id ∉ x.ids := fun hmem =>
        hapart id hmem id (List.mem_flatMap.mpr ⟨c, hc, ha hid⟩) rfl
      rw [within.outside id hout, (within_expect scope x type s).outside id hout]

/-- What is expected of a node inside of a tree is decided at that node. -/
theorem expectedAt (e : Expr) : ∀ (type : TypeId) (s : Typing), e.ids.Nodup → ∀ a ∈ e.nodes,
    ExpectedAt scope a s (expect scope e type s) := by
  induction e using Expr.induction_parts with
  | h e ih =>
    intro type s hnodup a ha
    rcases Expr.mem_nodes_iff.mp ha with rfl | ⟨c, hc, ha⟩
    · exact ⟨type, s, fun _ _ => rfl, fun _ _ => rfl⟩
    · obtain ⟨t, htop, -, hparts⟩ := expect_top scope e type s
      obtain ⟨before, after, hsplit⟩ := List.append_of_mem hc
      obtain ⟨hcnodup, hout, -⟩ := Expr.nodup_part hnodup hsplit
      have hsub := Expr.ids_subset c ha
      rw [e.ids_eq, List.nodup_cons] at hnodup
      obtain ⟨type', s', hstart, hexpected⟩ := hparts.at scope hc hnodup.2 hsub
        fun type s => ih c hc type s hcnodup a ha
      refine ⟨type', s', fun id hid => (hstart id hid).trans ?_, hexpected⟩
      refine htop.outside id fun hmem => ?_
      rw [List.mem_singleton.mp hmem] at hid
      exact hout (hsub hid)

end

end Row
end TileMind
