import Mathlib.Data.List.Nodup
import TileMind.Proofs.Row.Overloads

/-!
# TileMind.Proofs.Row.Settled

What inference records at the top of a tree whose nodes have different numbers: its type, and, unless it
is an assignment, the conversions to the type that is expected of it.

* `Conversions.Fits`: what turns a value of one type into one of another.
* `fits_convert`: conversions that are recorded without an error do.
* `inferred_infer`, `expected_infer`, `settles_infer`: what is recorded.
* `Records.operator`: what an operator sees and records.
* `Records.operand`: what it changes of what its operand records.
-/

namespace TileMind

/-- The chain makes `goal` out of a value of type `source`. Unknown and nil values pass as they are. -/
def Conversions.Fits (r : Conversions) (source goal : TypeId) (path : List Conversion) : Prop :=
  r.Leads source goal path ∨ path = [] ∧ (source = .unknown ∨ source = .nil)

theorem Conversions.fits_nil_iff {r : Conversions} {source goal : TypeId} :
    r.Fits source goal [] ↔ source = goal ∨ source = .unknown ∨ source = .nil := by
  rw [Fits, leads_nil_iff]
  simp

theorem Diagnostics.hasErrors_of_prefix {ds ds' : Diagnostics} (h : ds <+: ds')
    (hok : ds'.hasErrors = false) : ds.hasErrors = false := by
  simp only [hasErrors, List.any_eq_false] at hok ⊢
  exact fun d hd => hok d (h.subset hd)

namespace Row

/-- A type that says something about values. -/
def Informative (type : TypeId) : Prop := type ≠ "" ∧ type ≠ .unknown ∧ type ≠ .void

section

variable {σ : Type} (scope : TypeScope σ)

theorem convert_table (m : Mark) (source target : TypeId) (s : Typing) :
    (convert scope m source target s).2.table = s.table := by
  unfold convert
  repeat' split
  all_goals rfl

@[simp] theorem convert_self (m : Mark) (type : TypeId) (s : Typing) :
    convert scope m type type s = ([], s) := by
  simp [convert]

@[simp] theorem convert_unknown (m : Mark) (source : TypeId) (s : Typing) :
    convert scope m source .unknown s = ([], s) := by
  simp [convert]

/-- Conversions to an informative type fit, or there is an error. -/
theorem fits_convert {m : Mark} {source target : TypeId} {s : Typing} (htarget : Informative target)
    (hok : (convert scope m source target s).2.diags.hasErrors = false) :
    scope.services.conversions.Fits source target (convert scope m source target s).1 := by
  obtain ⟨hempty, hunknown, hvoid⟩ := htarget
  unfold convert at hok ⊢
  split at hok
  · rename_i hnothing
    rw [if_pos hnothing, Conversions.fits_nil_iff]
    simp only [hempty, hunknown, hvoid, decide_false, Bool.false_or, Bool.or_eq_true,
      decide_eq_true_eq] at hnothing
    rcases hnothing with hpass | hsame
    · exact .inr hpass
    · exact .inl hsame
  · rename_i hneeded
    rw [if_neg hneeded]
    split at hok
    · rename_i route hroute
      exact .inl (Conversions.leads_route? hroute)
    · simp [Typing.report, Diagnostics.hasErrors, Diagnostic.isError, Diagnostic.ofMark] at hok

/-! ## The top of a tree -/

theorem get_settle (m : Mark) (type : TypeId) (s : Typing) :
    (settle scope m type s).2.table.get m.id = { s.table.get m.id with
      inferred := type
      conversion := (convert scope m type (s.table.get m.id).expected s).1 } := by
  simp only [settle, Typing.modify, convert_table]
  rw [TypeTable.get, TypeTable.get?_modify, if_pos rfl]
  rfl

theorem expected_resolve {m : Mark} {op : OperatorId} {operands : List (Nat × TypeId)} (s : Typing)
    (hm : m.id ∉ operands.map Prod.fst) :
    ((resolve scope m op operands s).2.table.get m.id).expected = (s.table.get m.id).expected := by
  unfold resolve
  dsimp only
  split
  · rfl
  · rw [TypeTable.get_of_get? ((within_convertOperands _ _ _ _).1.outside m.id hm), expected_modify,
      if_pos rfl]

def Expr.isAssign : Expr → Bool
  | .assign _ _ _ => true
  | _ => false

theorem Expr.id_not_mem_parts {e : Expr} (he : e.ids.Nodup) : e.id ∉ e.parts.flatMap Expr.ids := by
  rw [e.ids_eq, List.nodup_cons] at he
  exact he.1

theorem Expr.id_not_mem_ownOperands {e : Expr} (he : e.ids.Nodup) : e.id ∉ e.ownOperands := by
  intro hmem
  obtain ⟨-, c, hc, heq⟩ := Expr.mem_ownOperands hmem
  exact e.id_not_mem_parts he (List.mem_flatMap.mpr ⟨c, hc, heq ▸ c.id_mem_ids⟩)

theorem get_inferParts {e : Expr} (he : e.ids.Nodup) (s : Typing) :
    (inferParts scope e.parts s).table.get e.id = s.table.get e.id :=
  TypeTable.get_of_get? ((within_inferParts scope e.parts (fun c _ => within_infer scope c) s).outside
    e.id (e.id_not_mem_parts he))

/-- A node that is no assignment is settled in the end, with what was expected of it. -/
theorem settles_infer {e : Expr} (he : e.ids.Nodup) (hplain : e.isAssign = false) (s : Typing) :
    ∃ u, infer scope e s = settle scope e.mark (infer scope e s).1 u ∧
      (u.table.get e.id).expected = (s.table.get e.id).expected := by
  have hparts := get_inferParts scope he s
  have htop := e.id_not_mem_ownOperands he
  cases e with
  | assign m target value => cases hplain
  | «variable» m name =>
    rw [infer]
    split
    · exact ⟨s, rfl, rfl⟩
    · exact ⟨_, rfl, rfl⟩
  | field m object name =>
    have hfield := within_fieldType scope [] m (infer scope object s).1 name (infer scope object s).2
    refine ⟨(fieldType scope m (infer scope object s).1 name (infer scope object s).2).2, ?_, ?_⟩
    · rw [infer]
      rfl
    · rw [TypeTable.get_of_get? (hfield.outside _ List.not_mem_nil)]
      exact congrArg TypeInfo.expected hparts
  | binary m op left right =>
    rw [infer]
    dsimp only
    split
    · exact ⟨_, rfl, congrArg TypeInfo.expected hparts⟩
    · rename_i hop
      refine ⟨_, rfl, (expected_resolve scope _ ?_).trans (congrArg TypeInfo.expected hparts)⟩
      rw [Expr.ownOperands, if_neg hop] at htop
      exact htop
  | unary m op operand =>
    rw [infer]
    exact ⟨_, rfl, (expected_resolve scope _ htop).trans (congrArg TypeInfo.expected hparts)⟩
  | parameter m tile value =>
    rw [infer]
    exact ⟨_, rfl, congrArg TypeInfo.expected hparts⟩
  | call m tile args =>
    rw [infer, inferArgs_eq]
    exact ⟨_, rfl, congrArg TypeInfo.expected hparts⟩
  | literal m value | modifier m tile count | empty m | error m message =>
    rw [infer]
    exact ⟨s, rfl, rfl⟩

/-- The conversions that an assignment records for itself, if `info` is recorded for its value: none, if
the value was to be converted already. -/
def ownPath (m : Mark) (info : TypeInfo) (found wanted : TypeId) (s : Typing) : List Conversion × Typing :=
  if info.expected ≠ wanted && info.conversion.isEmpty then convert scope m found wanted s else ([], s)

theorem ownPath_table (m : Mark) (info : TypeInfo) (found wanted : TypeId) (s : Typing) :
    (ownPath scope m info found wanted s).2.table = s.table := by
  unfold ownPath
  split
  · exact convert_table scope m found wanted s
  · rfl

theorem infer_assign (m : Mark) (target value : Expr) (s : Typing) :
    infer scope (.assign m target value) s =
      let (wanted, s) := infer scope target s
      let (found, s) := infer scope value s
      let (path, s) := ownPath scope m (s.table.get value.id) found wanted s
      let type := if wanted = .unknown then found else wanted
      (type, s.modify m.id fun info => { info with inferred := type, conversion := path }) := by
  rw [infer]
  rfl

theorem get_infer_assign {m : Mark} {target value : Expr} (he : (Expr.assign m target value).ids.Nodup)
    {s t u : Typing} {wanted found : TypeId} (htarget : infer scope target s = (wanted, t))
    (hvalue : infer scope value t = (found, u)) :
    (infer scope (.assign m target value) s).2.table.get m.id = { s.table.get m.id with
      inferred := if wanted = .unknown then found else wanted
      conversion := (ownPath scope m (u.table.get value.id) found wanted u).1 } := by
  have hparts := get_inferParts scope he s
  simp only [Expr.parts, inferParts, List.foldl_cons, List.foldl_nil, htarget, hvalue] at hparts
  change u.table.get m.id = s.table.get m.id at hparts
  rw [infer_assign, htarget]
  simp only [hvalue]
  rw [Typing.modify, TypeTable.get, TypeTable.get?_modify, if_pos rfl, ownPath_table, hparts]
  rfl

theorem get_infer {e : Expr} (he : e.ids.Nodup) (s : Typing) :
    ((infer scope e s).2.table.get e.id).inferred = (infer scope e s).1 ∧
      ((infer scope e s).2.table.get e.id).expected = (s.table.get e.id).expected := by
  cases hplain : e.isAssign with
  | false =>
    obtain ⟨u, hsettle, hexpected⟩ := settles_infer scope he hplain s
    rw [hsettle]
    have hget := get_settle scope e.mark (infer scope e s).1 u
    exact ⟨congrArg TypeInfo.inferred hget, (congrArg TypeInfo.expected hget).trans hexpected⟩
  | true =>
    cases e with
    | assign m target value =>
      have hget := get_infer_assign scope he (s := s) rfl rfl
      have hinferred := congrArg TypeInfo.inferred hget
      have hexpected := congrArg TypeInfo.expected hget
      exact ⟨by rwa [infer_assign] at hinferred ⊢, hexpected⟩
    | _ => cases hplain

/-- A node that is no assignment has the conversions from its type to the expected one. -/
theorem converts_infer {e : Expr} (he : e.ids.Nodup) (hplain : e.isAssign = false) {s t : Typing}
    {type : TypeId} (h : infer scope e s = (type, t)) :
    ∃ u, (t.table.get e.id).conversion = (convert scope e.mark type (t.table.get e.id).expected u).1 ∧
      (convert scope e.mark type (t.table.get e.id).expected u).2.diags = t.diags := by
  obtain ⟨u, hsettle, -⟩ := settles_infer scope he hplain s
  rw [h] at hsettle
  have hget := get_settle scope e.mark type u
  have hdiags : (settle scope e.mark type u).2.diags =
      (convert scope e.mark type (u.table.get e.mark.id).expected u).2.diags := rfl
  rw [← hsettle] at hget hdiags
  have hexpected := congrArg TypeInfo.expected hget
  change (t.table.get e.id).expected = (u.table.get e.mark.id).expected at hexpected
  rw [hexpected]
  exact ⟨u, congrArg TypeInfo.conversion hget, hdiags.symm⟩

/-! ## Operands -/

/-- The operator takes an operand at another type than the operand has. -/
def Expr.Recasts (types : TypeTable) (n : Expr) (id : Nat) : Prop :=
  ∃ o ∈ (types.get n.id).overload, ∃ x ∈ n.ownOperands.zip o.args, x.1 = id ∧
    (types.get id).inferred ≠ .unknown ∧ (types.get id).inferred ≠ x.2

instance (types : TypeTable) (n : Expr) (id : Nat) : Decidable (n.Recasts types id) :=
  inferInstanceAs (Decidable (∃ o ∈ (types.get n.id).overload, ∃ x ∈ n.ownOperands.zip o.args, x.1 = id ∧
    (types.get id).inferred ≠ .unknown ∧ (types.get id).inferred ≠ x.2))

theorem Expr.Recasts.mem_ownOperands {types : TypeTable} {n : Expr} {id : Nat} (h : n.Recasts types id) :
    id ∈ n.ownOperands := by
  obtain ⟨o, -, ⟨operand, param⟩, hx, rfl, -⟩ := h
  exact (List.of_mem_zip hx).1

/-- An operator with overloads is resolved after its operands, with the types recorded for them. -/
theorem infer_operator {n : Expr} (hn : n.ids.Nodup) {op : OperatorId} (hop : n.operator? = some op)
    (s : Typing) :
    ∃ operands, infer scope n s = settle scope n.mark
        (resolve scope n.mark op operands (inferParts scope n.parts s)).1
        (resolve scope n.mark op operands (inferParts scope n.parts s)).2 ∧
      operands.map Prod.fst = n.ownOperands ∧
      ∀ x ∈ operands, x.2 = ((inferParts scope n.parts s).table.get x.1).inferred := by
  cases n with
  | binary m op' left right =>
    simp only [Expr.operator?] at hop
    split at hop
    · cases hop
    · rename_i hplain
      cases hop
      obtain ⟨hleft, -, -, hapart⟩ := Expr.nodup_part hn
        (show (Expr.binary m op' left right).parts = [] ++ left :: [right] from rfl)
      obtain ⟨hright, -⟩ := Expr.nodup_part hn
        (show (Expr.binary m op' left right).parts = [left] ++ right :: [] from rfl)
      have hout : left.id ∉ right.ids := by simpa using hapart left.id left.id_mem_ids
      refine ⟨[(left.id, (infer scope left s).1),
        (right.id, (infer scope right (infer scope left s).2).1)], ?_, ?_, ?_⟩
      · rw [infer]
        simp only [hplain]
        rfl
      · simp [Expr.ownOperands, hplain]
      · have hfirst := (get_infer scope hleft s).1
        have hsecond := (get_infer scope hright (infer scope left s).2).1
        have hkept := (within_infer scope right (infer scope left s).2).outside left.id hout
        simp [Expr.parts, inferParts, hsecond, TypeTable.get_of_get? hkept, hfirst]
  | unary m op' operand =>
    cases hop
    obtain ⟨hoperand, -⟩ := Expr.nodup_part hn
      (show (Expr.unary m op' operand).parts = [] ++ operand :: [] from rfl)
    refine ⟨[(operand.id, (infer scope operand s).1)], ?_, rfl, ?_⟩
    · rw [infer]
      rfl
    · simp [Expr.parts, inferParts, (get_infer scope hoperand s).1]
  | _ => cases hop

section

variable {scope} {e a n : Expr} {s s' t : Typing}

/-- Nodes of a tree are told apart by their numbers. -/
theorem Expr.eq_of_id_eq {b : Expr} (he : e.ids.Nodup) (ha : a ∈ e.nodes) (hb : b ∈ e.nodes)
    (hid : a.id = b.id) : a = b :=
  List.inj_on_of_nodup_map he ha hb hid

theorem Expr.nodup_ownOperands (n : Expr) (hn : n.ids.Nodup) : (n.id :: n.ownOperands).Nodup := by
  refine List.nodup_cons.mpr ⟨n.id_not_mem_ownOperands hn, ?_⟩
  cases n with
  | binary m op left right =>
    obtain ⟨-, -, -, hapart⟩ := Expr.nodup_part hn
      (show (Expr.binary m op left right).parts = [] ++ left :: [right] from rfl)
    have hout : left.id ∉ right.ids := by simpa using hapart left.id left.id_mem_ids
    have hne : left.id ≠ right.id := fun heq => hout (heq ▸ right.id_mem_ids)
    simp only [Expr.ownOperands]
    split <;> simp [hne]
  | _ => simp [Expr.ownOperands]

variable (scope) in
/-- The parts that are inferred after a part leave it alone. -/
theorem get?_inferParts {before after : List Expr} (hn : n.ids.Nodup) (hparts : n.parts = before ++ a :: after)
    (s : Typing) :
    (inferParts scope n.parts s).table.get? a.id =
      (infer scope a (inferParts scope before s)).2.table.get? a.id := by
  obtain ⟨-, -, -, hafter⟩ := Expr.nodup_part hn hparts
  rw [hparts, inferParts, List.foldl_append, List.foldl_cons]
  exact (within_inferParts scope after (fun x _ => within_infer scope x) _).outside a.id
    (hafter a.id a.id_mem_ids)

/-- What is recorded in the end for an operator and its operands is what resolving it has recorded. It sees
the types that are recorded in the end. -/
theorem Records.operator {ops : List Nat} (h : Records scope ops n s s' t) (hn : n.ids.Nodup)
    (hops : n.ownOperands ⊆ ops) {op : OperatorId} (hop : n.operator? = some op) :
    ∃ operands, infer scope n s' = settle scope n.mark
        (resolve scope n.mark op operands (inferParts scope n.parts s')).1
        (resolve scope n.mark op operands (inferParts scope n.parts s')).2 ∧
      operands = n.ownOperands.map (fun id => (id, (t.table.get id).inferred)) ∧
      (t.table.get n.id).inferred = (resolve scope n.mark op operands (inferParts scope n.parts s')).1 ∧
      (t.table.get n.id).overload =
        ((resolve scope n.mark op operands (inferParts scope n.parts s')).2.table.get n.id).overload ∧
      ∀ id ∈ n.ownOperands, t.table.get? id =
        (resolve scope n.mark op operands (inferParts scope n.parts s')).2.table.get? id := by
  obtain ⟨operands, hinfer, hids, htypes⟩ := infer_operator scope hn hop s'
  have hget := get_settle scope n.mark (resolve scope n.mark op operands (inferParts scope n.parts s')).1
    (resolve scope n.mark op operands (inferParts scope n.parts s')).2
  have hfindings := h.findings
  rw [hinfer] at hfindings
  have hinferred := (congrArg Prod.fst hfindings).trans (congrArg TypeInfo.inferred hget)
  have hoverload := (congrArg Prod.snd hfindings).trans (congrArg TypeInfo.overload hget)
  have htype : ∀ id ∈ n.ownOperands,
      ((inferParts scope n.parts s').table.get id).inferred = (t.table.get id).inferred := by
    intro id hid
    obtain ⟨-, a, ha, rfl⟩ := Expr.mem_ownOperands hid
    obtain ⟨before, after, hparts⟩ := List.append_of_mem ha
    rw [(h.part hn hparts hops).inferred, TypeTable.get_of_get? (get?_inferParts scope hn hparts s')]
  refine ⟨operands, hinfer, ?_, hinferred, hoverload, fun id hid => ?_⟩
  · rw [← hids, List.map_map]
    refine (List.map_id operands).symm.trans (List.map_congr_left fun x hx => ?_)
    exact Prod.ext rfl ((htypes x hx).trans (htype x.1 (hids ▸ List.mem_map_of_mem hx)))
  · have hne : id ≠ n.id := by
      rintro rfl
      exact n.id_not_mem_ownOperands hn hid
    have hmem : id ∈ n.ids := by
      obtain ⟨-, a, ha, rfl⟩ := Expr.mem_ownOperands hid
      rw [n.ids_eq]
      exact List.mem_cons_of_mem _ (List.mem_flatMap.mpr ⟨a, ha, a.id_mem_ids⟩)
    rw [h.entry id hmem fun heq => absurd heq hne, hinfer]
    exact (within_settle scope n.mark _ _).outside id fun hmem => hne (List.mem_singleton.mp hmem)

/-- What is recorded for an operand. If its operator takes it at another type, these are the conversions
to that type in place of its own. -/
theorem Records.operand {ops : List Nat} (h : Records scope ops n s s' t) (hn : n.ids.Nodup)
    (hops : n.ownOperands ⊆ ops) (ha : a ∈ n.parts) (hid : a.id ∈ n.ownOperands)
    (hok : t.diags.hasErrors = false) :
    ∃ u, Records scope ops a s u t ∧
      (¬ n.Recasts t.table a.id → t.table.get? a.id = (infer scope a u).2.table.get? a.id) ∧
      (n.Recasts t.table a.id → ∃ goal, goal ≠ (t.table.get a.id).inferred ∧
        (t.table.get a.id).conversion ≠ [] ∧
        scope.services.conversions.Leads (t.table.get a.id).inferred goal (t.table.get a.id).conversion) := by
  obtain ⟨before, after, hparts⟩ := List.append_of_mem ha
  refine ⟨_, h.part hn hparts hops, ?_⟩
  have hbetween := get?_inferParts scope hn hparts s'
  obtain ⟨op, hop⟩ := Expr.exists_operator hid
  obtain ⟨operands, hinfer, hseen, -, hoverload, hentries⟩ := h.operator hn hops hop
  generalize hv : inferParts scope n.parts s' = v at hinfer hoverload hentries hbetween
  have hfinal := hentries a.id hid
  have hdiags := h.diags
  rw [hinfer] at hdiags
  have hnumbers : (n.mark.id :: operands.map Prod.fst).Nodup := by
    rw [hseen, List.map_map, Function.comp_def, List.map_id']
    exact n.nodup_ownOperands hn
  obtain ⟨o, ho, hoperands⟩ := resolves_resolve scope hnumbers (Diagnostics.hasErrors_of_prefix
    ((within_settle scope n.mark _ (resolve scope n.mark op operands v).2).diags.trans hdiags) hok)
  have hpicked : (t.table.get n.id).overload = some o := hoverload.trans ho
  have hat {i : Nat} (hi : n.ownOperands[i]? = some a.id) :
      operands[i]? = some (a.id, (t.table.get a.id).inferred) := by
    rw [hseen, List.getElem?_map, hi]
    rfl
  constructor
  · intro hkeeps
    obtain ⟨i, hi⟩ := List.mem_iff_getElem?.mp hid
    obtain ⟨param, hparam, hentry⟩ := hoperands (hat hi)
    split at hentry
    · rw [hfinal, hentry, hbetween]
    · rename_i hother
      rw [not_or] at hother
      have hzip : (a.id, param) ∈ n.ownOperands.zip o.args :=
        List.mem_of_getElem? (List.getElem?_zip_eq_some.mpr ⟨hi, hparam⟩)
      exact absurd ⟨o, hpicked, _, hzip, rfl, hother⟩ hkeeps
  · rintro ⟨o', ho', ⟨operand, param⟩, hzip, rfl, hknown, hother⟩
    obtain ⟨i, hboth⟩ := List.mem_iff_getElem?.mp hzip
    obtain ⟨hi, hparam⟩ := List.getElem?_zip_eq_some.mp hboth
    obtain rfl : o = o' := Option.some.inj (hpicked.symm.trans ho')
    obtain ⟨param', hparam', hentry⟩ := hoperands (hat hi)
    obtain rfl : param' = param := Option.some.inj (hparam'.symm.trans hparam)
    rw [if_neg fun hsame => hsame.elim hknown hother] at hentry
    obtain ⟨path, hpath, hleads, hconversion⟩ := hentry
    rw [← TypeTable.get_of_get? hfinal] at hconversion
    rw [hconversion]
    exact ⟨param', hother.symm, hpath, hleads⟩

end

end

end Row
end TileMind
