import TileMind.Machine.Host
import TileMind.Proofs.Code.Generated
import TileMind.Proofs.Row.Settled

/-!
# TileMind.Proofs.Row.Stores

What is stored has the type of the place, with two exceptions. An assignment that is the value of another
one is not converted for the outer place, and the conversions that an operator wants of an assignment
are made before the store.

* `storePath`: the conversions that the code of an assignment makes before it stores.
* `fits_infer_assign`: what inference records for the value and the assignment.
* `typed_stores`: when the value fits the place.
-/

namespace TileMind
namespace Row

/-! ## Conversions before a store -/

/-- The conversions at the end of the code of a node. Those of an assignment are made before its store. -/
def Expr.lastConversions (types : TypeTable) (e : Expr) : List Conversion :=
  if e.isAssign then [] else (types.get e.id).conversion

/-- The conversions of a value before it is stored by the assignment `m`. -/
def storePath (types : TypeTable) (m : Mark) (value : Expr) : List Conversion :=
  value.lastConversions types ++ (types.get m.id).conversion

section

variable {rs : RuleScope}

theorem conversionCode_append (path path' : List Conversion) :
    conversionCode (path ++ path') = conversionCode path ++ conversionCode path' :=
  List.map_append

theorem code_lastConversions {e : Expr} (he : rs.types.Has e.id) (g : Generated) :
    ∃ before, (code rs e g).1 = before ++ conversionCode (e.lastConversions rs.types) := by
  cases e with
  | assign m target value => exact ⟨_, (List.append_nil _).symm⟩
  | binary m op left right =>
    rw [code, typedCode_of_has (m := m) he]
    split
    · exact ⟨_, rfl⟩
    · split <;> exact ⟨_, rfl⟩
  | unary m op operand =>
    rw [code, typedCode_of_has (m := m) he]
    split <;> exact ⟨_, rfl⟩
  | literal m value | «variable» m name | field m object name | parameter m tile value
  | modifier m tile count | call m tile args | empty m | error m message =>
    rw [code, typedCode_of_has (m := m) he]
    exact ⟨_, rfl⟩

/-- Right before it stores, the code of an assignment makes these conversions. -/
theorem code_storePath {m : Mark} {target value : Expr} (hplace : target.isPlace = true)
    (hm : rs.types.Has m.id) (hvalue : rs.types.Has value.id) (g : Generated) :
    ∃ before store, (code rs (.assign m target value) g).1 =
        before ++ conversionCode (storePath rs.types m value) ++ store ∧
      (store = [.of .setField] ∨ ∃ id : Nat, store = [.of .dup, .of .storeVar id]) := by
  rw [storePath, conversionCode_append]
  cases target with
  | «variable» _ name =>
    obtain ⟨before, hbefore⟩ := code_lastConversions hvalue g
    rw [code, typedCode_of_has hm]
    refine ⟨before, _, ?_, .inr ⟨((code rs value g).2.resolveVar rs.chain name).1, rfl⟩⟩
    simp only [hbefore, List.append_assoc]
  | field _ object name =>
    rw [code, typedCode_of_has hm]
    obtain ⟨before, hbefore⟩ := code_lastConversions hvalue ((code rs object g).2.push (.string name)).2
    refine ⟨(code rs object g).1 ++ ((code rs object g).2.push (.string name)).1 ++ before, _, ?_, .inl rfl⟩
    simp only [hbefore, List.append_assoc]
  | _ => cases hplace

end

/-! ## Inference -/

section

variable {σ : Type} (scope : TypeScope σ)

/-- If the type of a place is known at all, it is the declared one or nothing is declared. -/
theorem declaredType_cases (target : Expr) (s : Typing) (hknown : (infer scope target s).1 ≠ .unknown) :
    declaredType scope target = (infer scope target s).1 ∨ declaredType scope target = .unknown := by
  cases target with
  | «variable» m name =>
    rw [infer] at hknown ⊢
    rw [declaredType]
    cases hvar : scope.vars name with
    | none => exact .inr rfl
    | some type => exact .inl rfl
  | field m object name =>
    cases object with
    | «variable» m' x =>
      rw [declaredType]
      cases hvar : scope.vars x with
      | none => exact .inr rfl
      | some object =>
        rw [Option.bind_some]
        cases hd : scope.services.types.get? object with
        | none => exact .inr rfl
        | some d =>
          dsimp only
          by_cases hkind : d.kind = .struct
          · rw [if_pos hkind]
            cases hfield : d.field? name with
            | none => exact .inr rfl
            | some f =>
              have hinfer : (infer scope (.field m (.variable m' x) name) s).1 =
                  if object = .unknown then .unknown else f.type := by
                simp only [infer, hvar, settle, fieldType]
                split
                · rfl
                · simp [hd, hkind, hfield]
              rw [hinfer] at hknown ⊢
              by_cases hobject : object = .unknown
              · simp [hobject] at hknown
              · rw [if_neg hobject]
                exact .inl rfl
          · rw [if_neg hkind]
            exact .inr rfl
    | _ => exact .inr rfl
  | _ => exact .inr rfl

/-- Of a value either its own type is expected or what is declared for the place; of an assignment the
latter. -/
theorem expectation_cases (value : Expr) {declared : TypeId} (hdeclared : declared ≠ "") (s : Typing) :
    value.expectation declared .unknown = declared ∨
      value.isAssign = false ∧ value.expectation declared .unknown = (infer scope value s).1 := by
  have hplace : (if declared = "" || declared = .unknown then .unknown else declared) = declared := by
    by_cases hunknown : declared = .unknown
    · simp [hunknown]
    · simp [hdeclared, hunknown]
  cases value with
  | parameter m tile value | modifier m tile count | call m tile args =>
    rw [infer]
    exact .inr ⟨rfl, rfl⟩
  | _ => exact .inl hplace

/-- An assignment is a fit value of another one, although it is not converted for that. Its type does as
it is, or the outer place was not known to have a type when the value was expected to have it. -/
def PassesOn (types : TypeTable) (target value : Expr) (type : TypeId) : Prop :=
  ((types.get value.id).inferred = type ∨ (types.get value.id).inferred = .unknown ∨
    (types.get value.id).inferred = .nil) ∨
  declaredType scope target = .unknown ∧ (types.get value.id).conversion = []

variable {m : Mark} {target value : Expr}

theorem prefix_ownPath (m : Mark) (info : TypeInfo) (found wanted : TypeId) (s : Typing) :
    s.diags <+: (ownPath scope m info found wanted s).2.diags := by
  unfold ownPath
  split
  · exact (within_convert scope [] m found wanted s).diags
  · exact List.prefix_rfl

/-- What is recorded for the target and the value of an assignment, and what its own conversions go by. -/
theorem infer_assign_parts (he : (Expr.assign m target value).ids.Nodup) {s t u v : Typing}
    {wanted found : TypeId} (hwanted : infer scope target s = (wanted, t))
    (hfound : infer scope value t = (found, u)) (hv : (infer scope (.assign m target value) s).2 = v) :
    (v.table.get target.id).inferred = wanted ∧ v.table.get value.id = u.table.get value.id ∧
      (u.table.get value.id).inferred = found ∧
      (u.table.get value.id).expected = (s.table.get value.id).expected ∧
      v.diags = (ownPath scope m (u.table.get value.id) found wanted u).2.diags := by
  obtain ⟨htarget, htop, -, hapart⟩ := Expr.nodup_part he
    (show (Expr.assign m target value).parts = [] ++ target :: [value] from rfl)
  obtain ⟨hvalue, htop', hapart', -⟩ := Expr.nodup_part he
    (show (Expr.assign m target value).parts = [target] ++ value :: [] from rfl)
  change m.id ∉ target.ids at htop
  change m.id ∉ value.ids at htop'
  have hfirst := within_infer scope target s
  have hsecond := within_infer scope value t
  have htargetTypes := get_infer scope htarget s
  have hvalueTypes := get_infer scope hvalue t
  rw [hwanted] at hfirst htargetTypes
  rw [hfound] at hsecond hvalueTypes
  rw [infer_assign, hwanted] at hv
  simp only [hfound] at hv
  have hout {id : Nat} (hid : id ≠ m.id) : v.table.get id = u.table.get id := by
    refine TypeTable.get_of_get? ?_
    rw [← hv, Typing.modify, TypeTable.get?_modify, if_neg hid, ownPath_table]
  have htargetOut : target.id ∉ value.ids := by simpa using hapart target.id target.id_mem_ids
  have hvalueOut : value.id ∉ target.ids := by simpa using hapart' value.id value.id_mem_ids
  refine ⟨?_, hout fun heq => htop' (heq ▸ value.id_mem_ids), hvalueTypes.1, ?_, ?_⟩
  · rw [hout fun heq => htop (heq ▸ target.id_mem_ids),
      TypeTable.get_of_get? (hsecond.outside target.id htargetOut), htargetTypes.1]
  · rw [hvalueTypes.2, TypeTable.get_of_get? (hfirst.outside value.id hvalueOut)]
  · rw [← hv]
    rfl

/-- A value that was expected to have its own type, that of the place or any type fits after its own
conversions and those of the assignment. -/
theorem fits_ownPath {info : TypeInfo} {found wanted : TypeId} {u w : Typing} {m' : Mark}
    (hknown : Informative wanted)
    (hconversion : info.conversion = (convert scope m' found info.expected w).1)
    (hw : (convert scope m' found info.expected w).2.diags.hasErrors = false)
    (hu : (ownPath scope m info found wanted u).2.diags.hasErrors = false)
    (hexpected : info.expected = found ∨ info.expected = wanted ∨ info.expected = .unknown) :
    scope.services.conversions.Fits found wanted
      (info.conversion ++ (ownPath scope m info found wanted u).1) := by
  by_cases hwanted : info.expected = wanted
  · -- The value was to be converted to the type of the place.
    rw [hwanted] at hconversion hw
    simp only [ownPath, hwanted, ne_eq, not_true_eq_false, decide_false, Bool.false_and,
      Bool.false_eq_true, if_false, List.append_nil]
    rw [hconversion]
    exact fits_convert scope hknown hw
  · -- The value stays as it is, so that the assignment converts it.
    have hnone : info.conversion = [] := by
      rw [hconversion]
      rcases hexpected with heq | heq | heq
      · simp [heq]
      · exact absurd heq hwanted
      · simp [heq]
    simp only [ownPath, hnone, hwanted, ne_eq, not_false_eq_true, decide_true, List.isEmpty_nil,
      Bool.and_self, if_true, List.nil_append] at hu ⊢
    exact fits_convert scope hknown hu

/-- Where an assignment is inferred, what is recorded for it and its value makes the value fit, unless
the value is an assignment itself. -/
theorem fits_infer_assign (he : (Expr.assign m target value).ids.Nodup) {s t : Typing}
    (ht : (infer scope (.assign m target value) s).2 = t)
    (hexpected : (s.table.get value.id).expected =
      value.expectation (declaredType scope target) .unknown)
    (hok : t.diags.hasErrors = false) {type : TypeId}
    (htype : (t.table.get target.id).inferred = type) (hknown : Informative type) :
    scope.services.conversions.Fits (t.table.get value.id).inferred type (storePath t.table m value) ↔
      (value.isAssign = true → PassesOn scope t.table target value type) := by
  cases hwanted : infer scope target s with
  | mk wanted s1 =>
  cases hfound : infer scope value s1 with
  | mk found s2 =>
  obtain ⟨hinferred, hentry, hvalue, hsame, hdiags⟩ := infer_assign_parts scope he hwanted hfound ht
  obtain rfl : wanted = type := hinferred.symm.trans htype
  have hown := congrArg TypeInfo.conversion (get_infer_assign scope he hwanted hfound)
  rw [ht] at hown
  have hdeclared := declaredType_cases scope target s (by rw [hwanted]; exact hknown.2.1)
  rw [hwanted] at hdeclared
  dsimp only at hown hdeclared
  rw [storePath, hown, Expr.lastConversions, PassesOn, hentry, hvalue]
  rw [hexpected] at hsame
  rw [hdiags] at hok
  have hnonempty : declaredType scope target ≠ "" := by
    rcases hdeclared with heq | heq
    · rw [heq]
      exact hknown.1
    · rw [heq]
      decide
  have hcases := expectation_cases scope value hnonempty s1
  rw [hfound, ← hsame] at hcases
  cases hplain : value.isAssign with
  | false =>
    have hnodup := (Expr.nodup_part he
      (show (Expr.assign m target value).parts = [target] ++ value :: [] from rfl)).1
    obtain ⟨u, hconversion, hu⟩ := converts_infer scope hnodup hplain hfound
    have hearlier := Diagnostics.hasErrors_of_prefix (prefix_ownPath scope m _ found wanted s2) hok
    have hfits := fits_ownPath scope hknown hconversion (by rwa [hu]) hok ?_
    · simpa using hfits
    · rcases hcases with heq | ⟨-, heq⟩
      · rw [heq]
        exact .inr hdeclared
      · exact .inl heq
  | true =>
    simp only [hplain, Bool.true_eq_false, false_and, or_false] at hcases
    simp only [if_true, List.nil_append, forall_const]
    rcases hdeclared with heq | heq
    · -- The inner assignment was expected to have the type of the outer place.
      simp [ownPath, hcases, heq, Conversions.fits_nil_iff, hknown.2.1]
    · have hne : declaredType scope target ≠ wanted := by
        rw [heq]
        exact fun hunknown => hknown.2.1 hunknown.symm
      by_cases hnone : (s2.table.get value.id).conversion = []
      · have hpath : ownPath scope m (s2.table.get value.id) found wanted s2 =
            convert scope m found wanted s2 := by
          simp [ownPath, hcases, hne, hnone]
        rw [hpath] at hok ⊢
        exact iff_of_true (fits_convert scope hknown hok) (.inr ⟨heq, hnone⟩)
      · simp [ownPath, hcases, hne, hnone, Conversions.fits_nil_iff]

/-! ## Rows -/

variable {e : Expr}

theorem expected_value (he : e.ids.Nodup) {s : Typing} (hfresh : ∀ id ∈ e.ids, s.table.get? id = none)
    (ha : .assign m target value ∈ e.nodes) :
    ((expect scope e .unknown s).table.get value.id).expected =
      value.expectation (declaredType scope target) .unknown := by
  have hnodup := Expr.nodup_node e he ha
  obtain ⟨hvalue, htop, hapart, -⟩ := Expr.nodup_part hnodup
    (show (Expr.assign m target value).parts = [target] ++ value :: [] from rfl)
  have hmem : value.id ∈ (Expr.assign m target value).ids := by simp [value.id_mem_ids]
  obtain ⟨type, s', hstart, hexpected⟩ := expectedAt scope e .unknown s he _ ha
  have hbefore : (s'.table.get value.id).expected = .unknown := by
    rw [TypeTable.get, hstart value.id hmem, hfresh value.id (Expr.ids_subset e ha hmem)]
    rfl
  have htarget := within_expect scope target (declaredType scope target) (expectType m.id type s')
  have hout : value.id ∉ target.ids := by simpa using hapart value.id value.id_mem_ids
  change m.id ∉ value.ids at htop
  have hne : value.id ≠ m.id := fun heq => htop (heq ▸ value.id_mem_ids)
  have hne' : value.id ≠ target.id := fun heq => hout (heq ▸ target.id_mem_ids)
  rw [hexpected value.id hmem, expect, expected_expect scope hvalue, expected_modify, if_neg hne',
    TypeTable.get_of_get? (htarget.outside _ hout), expectType, expected_modify, if_neg hne, hbefore]

section

variable {scope} {ops : List Nat} {s u t : Typing}

/-- What is recorded in the end for an assignment and its parts. -/
theorem Records.assign (h : Records scope ops (.assign m target value) s u t)
    (he : (Expr.assign m target value).ids.Nodup) {type : TypeId}
    (htype : (t.table.get target.id).inferred = type) (hknown : Informative type) :
    (t.table.get m.id).inferred = type ∧
      t.table.get target.id = (infer scope (.assign m target value) u).2.table.get target.id ∧
      t.table.get value.id = (infer scope (.assign m target value) u).2.table.get value.id := by
  obtain ⟨-, htop, -⟩ := Expr.nodup_part he
    (show (Expr.assign m target value).parts = [] ++ target :: [value] from rfl)
  obtain ⟨-, htop', -⟩ := Expr.nodup_part he
    (show (Expr.assign m target value).parts = [target] ++ value :: [] from rfl)
  have htarget : t.table.get target.id =
      (infer scope (.assign m target value) u).2.table.get target.id := by
    refine TypeTable.get_of_get? (h.entry _ (by simp [target.id_mem_ids]) fun heq => ?_)
    exact absurd (heq ▸ target.id_mem_ids) htop
  have hvalue : t.table.get value.id =
      (infer scope (.assign m target value) u).2.table.get value.id := by
    refine TypeTable.get_of_get? (h.entry _ (by simp [value.id_mem_ids]) fun heq => ?_)
    exact absurd (heq ▸ value.id_mem_ids) htop'
  refine ⟨?_, htarget, hvalue⟩
  obtain ⟨hwanted, -⟩ := infer_assign_parts scope he rfl rfl rfl
  rw [← htarget, htype] at hwanted
  have hown := h.inferred
  rw [(get_infer scope he u).1, infer_assign] at hown
  simp only [← hwanted, hknown.2.1, if_false] at hown
  exact hown

end

section

variable {scope} {s t : Typing} (he : e.ids.Nodup) (ht : (infer scope e s).2 = t)
  (hok : t.diags.hasErrors = false)

include he ht hok

theorem records_operand {a n : Expr} (ha : a ∈ e.nodes) (hn : n ∈ e.nodes) (hid : a.id ∈ n.ownOperands) :
    ∃ u, Records scope e.operands a s u t ∧
      (¬ n.Recasts t.table a.id → t.table.get? a.id = (infer scope a u).2.table.get? a.id) ∧
      (n.Recasts t.table a.id → ∃ goal, goal ≠ (t.table.get a.id).inferred ∧
        (t.table.get a.id).conversion ≠ [] ∧
        scope.services.conversions.Leads (t.table.get a.id).inferred goal (t.table.get a.id).conversion) := by
  subst ht
  obtain ⟨-, c, hc, heq⟩ := Expr.mem_ownOperands hid
  obtain rfl := Expr.eq_of_id_eq he ha (Expr.part_mem_nodes e hn hc) heq
  obtain ⟨s', hrecords⟩ := inferredAt scope e.operands e s he (List.Subset.refl _) n hn
  have hops : n.ownOperands ⊆ e.operands := fun id hid => List.mem_flatMap.mpr ⟨n, hn, hid⟩
  exact hrecords.operand (Expr.nodup_node e he hn) hops hc hid hok

/-- A node that no operator takes at another type keeps what is recorded for it. -/
theorem records_kept {a : Expr} (ha : a ∈ e.nodes) (hkept : ∀ n ∈ e.nodes, ¬ n.Recasts t.table a.id) :
    ∃ u, Records scope e.operands a s u t ∧
      t.table.get? a.id = (infer scope a u).2.table.get? a.id := by
  by_cases hid : a.id ∈ e.operands
  · obtain ⟨n, hn, hid⟩ := List.mem_flatMap.mp hid
    obtain ⟨u, hrecords, hentry, -⟩ := records_operand he ht hok ha hn hid
    exact ⟨u, hrecords, hentry (hkept n hn)⟩
  · subst ht
    obtain ⟨u, hrecords⟩ := inferredAt scope e.operands e s he (List.Subset.refl _) a ha
    exact ⟨u, hrecords, hrecords.entry a.id a.id_mem_ids fun _ => hid⟩

/-- Conversions that an operator wants lead a value past the type of the place. -/
theorem not_fits_of_recasts (ha : .assign m target value ∈ e.nodes) {n : Expr} (hn : n ∈ e.nodes)
    (hrecasts : n.Recasts t.table m.id) {type : TypeId}
    (htype : (t.table.get target.id).inferred = type) (hknown : Informative type) (source : TypeId) :
    ¬ scope.services.conversions.Fits source type (storePath t.table m value) := by
  obtain ⟨u, hrecords, -, hconverted⟩ := records_operand he ht hok ha hn hrecasts.mem_ownOperands
  obtain ⟨goal, hgoal, hpath, hleads⟩ := hconverted hrecasts
  obtain ⟨hown, -⟩ := hrecords.assign (Expr.nodup_node e he ha) htype hknown
  change goal ≠ (t.table.get m.id).inferred at hgoal
  change (t.table.get m.id).conversion ≠ [] at hpath
  change scope.services.conversions.Leads (t.table.get m.id).inferred goal _ at hleads
  rw [hown] at hgoal
  rintro (hfits | ⟨hempty, -⟩)
  · obtain ⟨middle, -, hlast⟩ := hfits.split
    exact hgoal (hleads.goal_eq hlast hpath)
  · exact hpath (List.append_eq_nil_iff.mp hempty).2

end

variable {scope}

/-- In a row that was read and typed without errors, the value of an assignment is stored at the type of
the place if and only if no operator takes the assignment at another type and, if the value is an
assignment itself, that needs no conversion for the outer place. The conversions are those that the code
makes right before it stores. -/
theorem typed_stores {catalog : Catalog} {rule : String} {row : Text.Source} {lastId : Nat} {diags : Diagnostics}
    {r : Reader} (hread : readRow catalog rule row lastId diags = (e, r)) {s t : Typing}
    (hfresh : ∀ id ∈ e.ids, s.table.get? id = none) (ht : typeExpr scope e s = t)
    (hok : t.diags.hasErrors = false) (ha : .assign m target value ∈ e.nodes) {type : TypeId}
    (htype : (t.table.get target.id).inferred = type) (hknown : Informative type) :
    (scope.services.conversions.Fits (t.table.get value.id).inferred type (storePath t.table m value) ↔
      (∀ n ∈ e.nodes, ¬ n.Recasts t.table m.id) ∧
        (value.isAssign = true → PassesOn scope t.table target value type)) ∧
    (target.isPlace = true → ∀ (rs : RuleScope) (g : Generated), rs.types = t.table →
      ∃ before store, (code rs (.assign m target value) g).1 =
          before ++ conversionCode (storePath t.table m value) ++ store ∧
        (store = [.of .setField] ∨ ∃ id : Nat, store = [.of .dup, .of .storeVar id])) := by
  have he : e.ids.Nodup := by
    have hdrawn := drawn_readRow catalog rule row lastId diags
    rw [hread] at hdrawn
    exact hdrawn.nodup
  constructor
  · by_cases hkept : ∀ n ∈ e.nodes, ¬ n.Recasts t.table m.id
    · obtain ⟨u, hrecords, hentry⟩ := records_kept he ht hok ha hkept
      have hnodup := Expr.nodup_node e he ha
      obtain ⟨-, htarget, hvalue⟩ := hrecords.assign hnodup htype hknown
      have hexpected := expected_value scope he hfresh ha
      rw [← TypeTable.get_of_get? (hrecords.start value.id (by simp [value.id_mem_ids]))] at hexpected
      have hlocal := fits_infer_assign scope hnodup rfl hexpected
        (Diagnostics.hasErrors_of_prefix hrecords.diags hok) (htarget ▸ htype) hknown
      have hm : t.table.get m.id = (infer scope (.assign m target value) u).2.table.get m.id :=
        TypeTable.get_of_get? hentry
      simp only [storePath, Expr.lastConversions, PassesOn, ← hvalue, ← hm] at hlocal ⊢
      rw [hlocal]
      exact ⟨fun h => ⟨hkept, h⟩, fun h => h.2⟩
    · simp only [not_forall, Classical.not_not] at hkept
      obtain ⟨n, hn, hrecasts⟩ := hkept
      exact iff_of_false (not_fits_of_recasts he ht hok ha hn hrecasts htype hknown _)
        fun h => h.1 n hn hrecasts
  · intro hplace rs g hrs
    have hcovers := (covers_typeExpr scope e s).nodes
    rw [ht, ← hrs] at hcovers
    have hvalue : value ∈ e.nodes := Expr.part_mem_nodes e ha (by simp [Expr.parts])
    obtain ⟨before, store, hcode⟩ := code_storePath hplace (hcovers _ ha) (hcovers _ hvalue) g
    rw [hrs] at hcode
    exact ⟨before, store, hcode⟩

end

/-- A text `$a` and a number `$b`. -/
def chainedScope : TypeScope (Stage Unit) :=
  { services := Core.services
    vars := fun name => if name = "a" then some .string else if name = "b" then some .number else none }

def chainedRow : Expr × Reader := readRow {} "" "$a = $b = 1" 0 []

def chainedTyping : Typing := typeExpr chainedScope chainedRow.1 {}

theorem chainedRow_inner : chainedRow.1.nodes.any (fun n => match n with
    | .assign m target value => !value.isAssign &&
      decide ((chainedTyping.table.get target.id).inferred = .number) &&
      chainedRow.1.nodes.all fun n => !decide (n.Recasts chainedTyping.table m.id)
    | _ => false) = true := by
  decide

/-- The inner assignment stores a number in the place of a number. -/
theorem typed_stores_inner :
    chainedTyping.diags.hasErrors = false ∧ ∃ m target value,
      .assign m target value ∈ chainedRow.1.nodes ∧ value.isAssign = false ∧
      (chainedTyping.table.get target.id).inferred = .number ∧
      chainedScope.services.conversions.Fits (chainedTyping.table.get value.id).inferred .number
        (storePath chainedTyping.table m value) := by
  have hok : chainedTyping.diags.hasErrors = false := by decide +kernel
  obtain ⟨n, hn, hfits⟩ := List.any_eq_true.mp chainedRow_inner
  cases n with
  | assign m target value =>
    simp only [Bool.and_eq_true, Bool.not_eq_true', decide_eq_true_eq, List.all_eq_true,
      decide_eq_false_iff_not] at hfits
    obtain ⟨⟨hplain, htype⟩, hkept⟩ := hfits
    have hread : readRow {} "" "$a = $b = 1" 0 [] = (chainedRow.1, chainedRow.2) := rfl
    have htyped : typeExpr chainedScope chainedRow.1 {} = chainedTyping := rfl
    have hknown : Informative .number := ⟨by decide, by decide, by decide⟩
    have hstores := typed_stores hread (fun _ _ => rfl) htyped hok hn htype hknown
    exact ⟨hok, m, target, value, hn, hplain, htype, hstores.1.mpr ⟨hkept, by simp [hplain]⟩⟩
  | _ => cases hfits

theorem chainedRow_outer : chainedRow.1.nodes.any (fun n => match n with
    | .assign m target value =>
      decide ((chainedTyping.table.get target.id).inferred = .string) &&
      decide ((chainedTyping.table.get value.id).inferred = .number) &&
      decide ((chainedTyping.table.get value.id).conversion ++
        (chainedTyping.table.get m.id).conversion = []) &&
      decide (storePath chainedTyping.table m value = [])
    | _ => false) = true := by
  decide

/-- The outer assignment stores the number in the place of a text as it is, though nothing is wrong with
the row. -/
theorem unconverted_store_of_chain :
    chainedTyping.diags.hasErrors = false ∧ ∃ m target value,
      .assign m target value ∈ chainedRow.1.nodes ∧
      (chainedTyping.table.get target.id).inferred = .string ∧
      (chainedTyping.table.get value.id).inferred = .number ∧
      (chainedTyping.table.get value.id).conversion ++ (chainedTyping.table.get m.id).conversion = [] ∧
      storePath chainedTyping.table m value = [] ∧
      ¬ chainedScope.services.conversions.Fits (chainedTyping.table.get value.id).inferred .string
        (storePath chainedTyping.table m value) := by
  have hok : chainedTyping.diags.hasErrors = false := by decide +kernel
  obtain ⟨n, hn, hfails⟩ := List.any_eq_true.mp chainedRow_outer
  cases n with
  | assign m target value =>
    simp only [Bool.and_eq_true, decide_eq_true_eq] at hfails
    obtain ⟨⟨⟨htype, hfound⟩, hrecorded⟩, hpath⟩ := hfails
    refine ⟨hok, m, target, value, hn, htype, hfound, hrecorded, hpath, ?_⟩
    rw [hpath, hfound, Conversions.fits_nil_iff]
    decide
  | _ => cases hfails

end Row
end TileMind
