import TileMind.Proofs.Row.Stores

/-!
# TileMind.Proofs.Row.Arguments

What is handed to a tile has the type of the slot, or of the parameter, with one exception. Calls,
parameters and modifiers go by a type of their own wherever they stand, and assignments by that of their
target, so none of them is converted for a slot.

* `Expr.takes`: the values that a node hands on, with the types wanted of them.
* `expected_argument`: what is expected of such a value.
* `fits_infer_argument`: what inference records for it.
* `code_argument`: where its code stands in that of the node.
* `typed_arguments`: when the value fits.
-/

namespace TileMind
namespace Row

/-- The values that a node binds for a tile, with the types wanted of them: those in the slots of a call
and that of a parameter. Parameters and modifiers in a slot are wanted at no type. -/
def Expr.takes : Expr → List (Expr × TypeId)
  | .call _ tile args => args.toList.map fun x => (x.2, slotType tile x.1)
  | .parameter _ tile value => [(value, tile.value)]
  | _ => []

/-- Nodes that are the same wherever they stand: no type is expected of them from outside, or none is
made of them. -/
def Expr.isSelfTyped : Expr → Bool
  | .assign _ _ _ | .parameter _ _ _ | .modifier _ _ _ | .call _ _ _ => true
  | _ => false

theorem Expr.takes_part {n value : Expr} {type : TypeId} (h : (value, type) ∈ n.takes) :
    value ∈ n.parts ∧ n.ownOperands = [] := by
  cases n with
  | call m tile args =>
    obtain ⟨x, hx, heq⟩ := List.mem_map.mp h
    cases heq
    exact ⟨List.mem_map_of_mem hx, rfl⟩
  | parameter m tile inner =>
    cases List.mem_singleton.mp h
    exact ⟨List.mem_singleton_self _, rfl⟩
  | _ => cases h

section

variable {σ : Type} (scope : TypeScope σ) {value : Expr} {type : TypeId}

/-! ## Expectation -/

theorem expectation_of_selfTyped (hself : value.isSelfTyped = true) (hplain : value.isAssign = false)
    (type before : TypeId) (s : Typing) :
    value.expectation type before = (infer scope value s).1 := by
  cases value with
  | assign m target inner => cases hplain
  | parameter m tile inner | modifier m tile count | call m tile args =>
    rw [infer]
    rfl
  | _ => cases hself

theorem expectation_of_not_selfTyped (hself : value.isSelfTyped = false) (type before : TypeId) :
    value.expectation type before = if type = "" || type = .unknown then before else type := by
  cases value with
  | assign m target inner | parameter m tile inner | modifier m tile count | call m tile args =>
    cases hself
  | _ => rfl

theorem expected_expectArgs (tile : Tile) : ∀ {args : Args} (s : Typing),
    ((args.toList.map Prod.snd).flatMap Expr.ids).Nodup → ∀ {slot : Nat},
    (slot, value) ∈ args.toList →
    ((expectArgs scope tile args s).table.get value.id).expected =
      value.expectation (slotType tile slot) (s.table.get value.id).expected
  | .nil, _, _, _, hmem => by cases hmem
  | .cons slot first rest, s, hnodup, slot', hmem => by
    rw [Args.toList, List.map_cons, List.flatMap_cons, List.nodup_append] at hnodup
    obtain ⟨hfirst, hrest, hapart⟩ := hnodup
    rw [expectArgs]
    rcases List.mem_cons.mp hmem with heq | hmem
    · cases heq
      have hlater := (expecting_expectArgs scope tile rest (expect scope value (slotType tile slot) s)).within
        scope fun c _ => within_expect scope c
      have hout : value.id ∉ (rest.toList.map Prod.snd).flatMap Expr.ids := fun hid =>
        hapart _ value.id_mem_ids _ hid rfl
      rw [TypeTable.get_of_get? (hlater.outside _ hout), expected_expect scope hfirst]
    · have hid : value.id ∈ (rest.toList.map Prod.snd).flatMap Expr.ids :=
        List.mem_flatMap.mpr ⟨value, List.mem_map_of_mem hmem, value.id_mem_ids⟩
      have hout : value.id ∉ first.ids := fun hin => hapart _ hin _ hid rfl
      rw [expected_expectArgs tile _ hrest hmem,
        TypeTable.get_of_get? ((within_expect scope first _ s).outside _ hout)]

/-- A node passes the type that it wants on to the value. -/
theorem expected_takes {n : Expr} (hn : n.ids.Nodup) (htakes : (value, type) ∈ n.takes)
    (wanted : TypeId) (s : Typing) :
    ((expect scope n wanted s).table.get value.id).expected =
      value.expectation type (s.table.get value.id).expected := by
  obtain ⟨before, after, hparts⟩ := List.append_of_mem (Expr.takes_part htakes).1
  obtain ⟨hvalue, htop, -⟩ := Expr.nodup_part hn hparts
  have hne : value.id ≠ n.id := fun heq => htop (heq ▸ value.id_mem_ids)
  cases n with
  | call m tile args =>
    obtain ⟨⟨slot, value⟩, hx, heq⟩ := List.mem_map.mp htakes
    cases heq
    change value.id ≠ m.id at hne
    have hargs : ((args.toList.map Prod.snd).flatMap Expr.ids).Nodup := by
      rw [Expr.ids_eq] at hn
      exact (List.nodup_cons.mp hn).2
    rw [expect, expected_expectArgs scope tile _ hargs hx, expected_modify, if_neg hne, expectType,
      expected_modify, if_neg hne]
  | parameter m tile inner =>
    cases List.mem_singleton.mp htakes
    change value.id ≠ m.id at hne
    rw [expect, expected_expect scope hvalue, expected_modify, if_neg hne, expectType, expected_modify,
      if_neg hne]
  | _ => cases htakes

theorem expected_argument {e n : Expr} (he : e.ids.Nodup) {s : Typing}
    (hfresh : ∀ id ∈ e.ids, s.table.get? id = none) (hn : n ∈ e.nodes)
    (htakes : (value, type) ∈ n.takes) :
    ((expect scope e .unknown s).table.get value.id).expected = value.expectation type .unknown := by
  have hvalue : value ∈ n.nodes :=
    Expr.mem_nodes_iff.mpr (.inr ⟨value, (Expr.takes_part htakes).1, Expr.mem_nodes_iff.mpr (.inl rfl)⟩)
  have hmem : value.id ∈ n.ids := Expr.ids_subset n hvalue value.id_mem_ids
  obtain ⟨wanted, s', hstart, hexpected⟩ := expectedAt scope e .unknown s he n hn
  have hbefore : (s'.table.get value.id).expected = .unknown := by
    rw [TypeTable.get, hstart value.id hmem, hfresh value.id (Expr.ids_subset e hn hmem)]
    rfl
  rw [hexpected value.id hmem, expected_takes scope (Expr.nodup_node e he hn) htakes, hbefore]

/-! ## Inference -/

variable {scope} in
/-- Nothing is recorded for a part of a node that is no operator, once it is inferred. -/
theorem Records.entry_part {ops : List Nat} {n c : Expr} {before after : List Expr} {s s' t : Typing}
    (h : Records scope ops n s s' t) (hn : n.ids.Nodup) (hparts : n.parts = before ++ c :: after)
    (hplain : n.ownOperands = []) :
    t.table.get? c.id = (infer scope c (inferParts scope before s')).2.table.get? c.id := by
  obtain ⟨-, htop, -, hafter⟩ := Expr.nodup_part hn hparts
  have hne : c.id ≠ n.id := fun heq => htop (heq ▸ c.id_mem_ids)
  have hmem : c.id ∈ n.ids := by
    rw [n.ids_eq, hparts]
    exact List.mem_cons_of_mem _ (List.mem_flatMap.mpr ⟨c, by simp, c.id_mem_ids⟩)
  have htops := (tops_infer scope n s').1
  rw [hplain] at htops
  have hlater := within_inferParts scope after (fun x _ => within_infer scope x)
    (infer scope c (inferParts scope before s')).2
  have hall : inferParts scope n.parts s' =
      inferParts scope after (infer scope c (inferParts scope before s')).2 := by
    rw [hparts, inferParts, List.foldl_append, List.foldl_cons]
    rfl
  rw [h.entry c.id hmem fun heq => absurd heq hne, htops.outside c.id (by simpa using hne), hall,
    hlater.outside c.id (hafter c.id c.id_mem_ids)]

/-- A value that no type was expected of, or its own, is left as it is. -/
theorem lastConversions_infer_eq_nil (hvalue : value.ids.Nodup) {s : Typing}
    (hexpected : (s.table.get value.id).expected = value.expectation type .unknown)
    (hown : value.isSelfTyped = true ∨ type = "") :
    value.lastConversions (infer scope value s).2.table = [] := by
  rw [Expr.lastConversions]
  cases hplain : value.isAssign with
  | true => rfl
  | false =>
    obtain ⟨u, hconversion, -⟩ := converts_infer scope hvalue hplain (s := s) rfl
    rw [(get_infer scope hvalue s).2, hexpected] at hconversion
    rw [if_neg (by simp), hconversion]
    cases hself : value.isSelfTyped with
    | true => simp [expectation_of_selfTyped scope hself hplain type .unknown s]
    | false =>
      have hempty : type = "" := hown.resolve_left (by simp [hself])
      simp [expectation_of_not_selfTyped hself, hempty]

/-- Where an argument is inferred, what is recorded for it makes it fit, unless it goes by a type of its
own. -/
theorem fits_infer_argument (hvalue : value.ids.Nodup) {s : Typing}
    (hexpected : (s.table.get value.id).expected = value.expectation type .unknown)
    (hok : (infer scope value s).2.diags.hasErrors = false) (hunknown : type ≠ .unknown)
    (hvoid : type ≠ .void) :
    scope.services.conversions.Fits (infer scope value s).1 type
        (value.lastConversions (infer scope value s).2.table) ↔
      (value.isSelfTyped = true ∨ type = "" →
        (infer scope value s).1 = type ∨ (infer scope value s).1 = .unknown ∨
          (infer scope value s).1 = .nil) := by
  by_cases hown : value.isSelfTyped = true ∨ type = ""
  · rw [lastConversions_infer_eq_nil scope hvalue hexpected hown, Conversions.fits_nil_iff]
    simp [hown]
  · refine iff_of_true ?_ fun h => absurd h hown
    obtain ⟨hself, hempty⟩ := not_or.mp hown
    rw [Bool.not_eq_true] at hself
    have hplain : value.isAssign = false := by
      cases value with
      | assign m target inner => cases hself
      | _ => rfl
    obtain ⟨u, hconversion, hdiags⟩ := converts_infer scope hvalue hplain (s := s) rfl
    have hwanted : value.expectation type .unknown = type := by
      simp [expectation_of_not_selfTyped hself, hempty, hunknown]
    rw [(get_infer scope hvalue s).2, hexpected, hwanted] at hconversion hdiags
    rw [Expr.lastConversions, hplain, if_neg (by simp), hconversion]
    exact fits_convert scope ⟨hempty, hunknown, hvoid⟩ (by rw [hdiags]; exact hok)

end

/-! ## Code -/

theorem argsCode_argument (rs : RuleScope) {value : Expr} {slot : Nat} : ∀ {args : Args} (g : Generated),
    (slot, value) ∈ args.toList → ∃ before g' rest,
      (argsCode rs args g).1 = before ++ (code rs value g').1 ++ Instr.of .mapSet :: rest
  | .nil, _, hmem => by cases hmem
  | .cons slot' first more, g, hmem => by
    rw [argsCode]
    rcases List.mem_cons.mp hmem with heq | hmem
    · cases heq
      refine ⟨(g.push (.int slot)).1, (g.push (.int slot)).2,
        (argsCode rs more (code rs value (g.push (.int slot)).2).2).1, ?_⟩
      simp only [List.append_assoc, List.singleton_append]
    · obtain ⟨before, g', rest, hcode⟩ :=
        argsCode_argument rs (code rs first (g.push (.int slot')).2).2 hmem
      refine ⟨(g.push (.int slot')).1 ++ (code rs first (g.push (.int slot')).2).1 ++ [Instr.of .mapSet] ++
        before, g', rest, ?_⟩
      simp only [hcode, List.append_assoc]

/-- The code of a node has that of each value that it takes in it, and right after it the value is bound;
that of a parameter is what the parameter is. -/
theorem code_argument {rs : RuleScope} {n value : Expr} {type : TypeId} (htakes : (value, type) ∈ n.takes)
    (hn : rs.types.Has n.id) (g : Generated) :
    ∃ before g' after, (code rs n g).1 = before ++ (code rs value g').1 ++ after ∧
      ((∃ rest, after = .of .mapSet :: rest) ∨
        after = conversionCode (rs.types.get n.id).conversion) := by
  cases n with
  | call m tile args =>
    obtain ⟨⟨slot, value⟩, hx, heq⟩ := List.mem_map.mp htakes
    cases heq
    rw [code, typedCode_of_has (m := m) hn]
    dsimp only [converted]
    obtain ⟨before, g', rest, hcode⟩ := argsCode_argument rs
      { g with pool := (g.pool.add (.scalar (.string TypeId.args))).2 } hx
    rw [hcode]
    refine ⟨.of .mapNew (g.pool.add (.scalar (.string TypeId.args))).1 :: before, g', ?_⟩
    simp only [List.append_assoc, List.cons_append, List.cons.injEq, true_and, List.append_cancel_left_eq]
    exact ⟨_, rfl, .inl ⟨_, rfl⟩⟩
  | parameter m tile inner =>
    cases List.mem_singleton.mp htakes
    rw [code, typedCode_of_has (m := m) hn]
    exact ⟨[], g, _, rfl, .inr rfl⟩
  | _ => cases htakes

/-! ## Rows -/

section

variable {σ : Type} {scope : TypeScope σ} {e n value : Expr} {type : TypeId}

/-- In a row that was read and typed without errors, a value that a call binds for a slot, or a parameter
for its tile, fits the type wanted of it if and only if it needs no conversion or is none of the nodes
that go by a type of their own. The conversions are those that the code makes right before the value is
bound. -/
theorem typed_arguments {catalog : Catalog} {rule : String} {row : Text.Source} {lastId : Nat} {diags : Diagnostics}
    {r : Reader} (hread : readRow catalog rule row lastId diags = (e, r)) {s t : Typing}
    (hfresh : ∀ id ∈ e.ids, s.table.get? id = none) (ht : typeExpr scope e s = t)
    (hok : t.diags.hasErrors = false) (hn : n ∈ e.nodes) (htakes : (value, type) ∈ n.takes)
    (hunknown : type ≠ .unknown) (hvoid : type ≠ .void) :
    (scope.services.conversions.Fits (t.table.get value.id).inferred type
        (value.lastConversions t.table) ↔
      (value.isSelfTyped = true ∨ type = "" →
        (t.table.get value.id).inferred = type ∨ (t.table.get value.id).inferred = .unknown ∨
          (t.table.get value.id).inferred = .nil)) ∧
    ∀ (rs : RuleScope) (g : Generated), rs.types = t.table →
      ∃ before own after, (code rs n g).1 =
          before ++ own ++ conversionCode (value.lastConversions t.table) ++ after ∧
        (∃ g', (code rs value g').1 = own ++ conversionCode (value.lastConversions t.table)) ∧
        ((∃ rest, after = .of .mapSet :: rest) ∨
          after = conversionCode (t.table.get n.id).conversion) := by
  have he : e.ids.Nodup := by
    have hdrawn := drawn_readRow catalog rule row lastId diags
    rw [hread] at hdrawn
    exact hdrawn.nodup
  have hnodup := Expr.nodup_node e he hn
  obtain ⟨hpart, hplain⟩ := Expr.takes_part htakes
  constructor
  · subst ht
    obtain ⟨s', hrecords⟩ := inferredAt scope e.operands e (expect scope e .unknown s) he
      (List.Subset.refl _) n hn
    obtain ⟨before, after, hparts⟩ := List.append_of_mem hpart
    have hvalue := (Expr.nodup_part hnodup hparts).1
    have hown := hrecords.part hnodup hparts (by simp [hplain])
    have hentry := TypeTable.get_of_get? (hrecords.entry_part hnodup hparts hplain)
    have hexpected := expected_argument scope he hfresh hn htakes
    rw [← TypeTable.get_of_get? (hown.start value.id value.id_mem_ids)] at hexpected
    have hfits := fits_infer_argument scope hvalue hexpected
      (Diagnostics.hasErrors_of_prefix hown.diags hok) hunknown hvoid
    simp only [typeExpr, Expr.lastConversions, hentry, (get_infer scope hvalue _).1] at hfits ⊢
    exact hfits
  · intro rs g hrs
    have hcovers := (covers_typeExpr scope e s).nodes
    rw [ht, ← hrs] at hcovers
    obtain ⟨before, g', after, hcode, hafter⟩ := code_argument htakes (hcovers n hn) g
    obtain ⟨own, hown⟩ := code_lastConversions (hcovers value (Expr.part_mem_nodes e hn hpart)) g'
    rw [hrs] at hown hafter
    refine ⟨before, own, after, ?_, ⟨g', hown⟩, hafter⟩
    rw [hcode, hown]
    simp only [List.append_assoc]

end

/-- An actuator that takes a text, and a sensor that yields a number. -/
def sayingCatalog : Catalog :=
  { tiles := [
      { id := "say", kind := .actuator, spec := (CallSpec.flatten (some (.anon .string)) 0).1 },
      { id := "distance", kind := .sensor, output := .number }] }

def sayingRow : Expr × Reader := readRow sayingCatalog "" "say 1" 0 []

def sayingTyping : Typing := typeExpr chainedScope sayingRow.1 {}

theorem sayingRow_argument : sayingRow.1.nodes.any (fun n => n.takes.any fun x =>
    decide (x.2 = .string) && !x.1.isSelfTyped &&
    decide ((sayingTyping.table.get x.1.id).inferred = .number)) = true := by
  decide +kernel

/-- A number that is written in the slot of a text fits. -/
theorem typed_arguments_saying :
    sayingTyping.diags.hasErrors = false ∧ ∃ n value, n ∈ sayingRow.1.nodes ∧
      (value, .string) ∈ n.takes ∧ (sayingTyping.table.get value.id).inferred = .number ∧
      chainedScope.services.conversions.Fits .number .string (value.lastConversions sayingTyping.table) := by
  have hok : sayingTyping.diags.hasErrors = false := by decide +kernel
  obtain ⟨n, hn, hargs⟩ := List.any_eq_true.mp sayingRow_argument
  obtain ⟨⟨value, type⟩, htakes, hvalue⟩ := List.any_eq_true.mp hargs
  simp only [Bool.and_eq_true, Bool.not_eq_true', decide_eq_true_eq] at hvalue
  obtain ⟨⟨rfl, hself⟩, hinferred⟩ := hvalue
  have hread : readRow sayingCatalog "" "say 1" 0 [] = (sayingRow.1, sayingRow.2) := rfl
  have htyped : typeExpr chainedScope sayingRow.1 {} = sayingTyping := rfl
  have hfits := (typed_arguments hread (fun _ _ => rfl) htyped hok hn htakes (by decide) (by decide)).1.mpr
    fun h => absurd (h.resolve_left (by simp [hself])) (by decide)
  rw [hinferred] at hfits
  exact ⟨hok, n, value, hn, htakes, hinferred, hfits⟩

def sensingRow : Expr × Reader := readRow sayingCatalog "" "say distance" 0 []

def sensingTyping : Typing := typeExpr chainedScope sensingRow.1 {}

theorem sensingRow_argument : sensingRow.1.nodes.any (fun n => n.takes.any fun x =>
    decide (x.2 = .string) && decide ((sensingTyping.table.get x.1.id).inferred = .number) &&
    decide ((sensingTyping.table.get x.1.id).conversion = []) &&
    decide (x.1.lastConversions sensingTyping.table = [])) = true := by
  decide +kernel

/-- The number of a sensor is bound for a text as it is, though nothing is wrong with the row and numbers
can be converted. -/
theorem unconverted_argument_of_sensor :
    sensingTyping.diags.hasErrors = false ∧
      (chainedScope.services.conversions.route? .number .string).isSome = true ∧
      ∃ n value, n ∈ sensingRow.1.nodes ∧ (value, .string) ∈ n.takes ∧
        (sensingTyping.table.get value.id).inferred = .number ∧
        (sensingTyping.table.get value.id).conversion = [] ∧
        ¬ chainedScope.services.conversions.Fits (sensingTyping.table.get value.id).inferred .string
          (value.lastConversions sensingTyping.table) := by
  have hok : sensingTyping.diags.hasErrors = false := by decide +kernel
  have hroute : (chainedScope.services.conversions.route? .number .string).isSome = true := by
    decide +kernel
  obtain ⟨n, hn, hargs⟩ := List.any_eq_true.mp sensingRow_argument
  obtain ⟨⟨value, type⟩, htakes, hvalue⟩ := List.any_eq_true.mp hargs
  simp only [Bool.and_eq_true, decide_eq_true_eq] at hvalue
  obtain ⟨⟨⟨rfl, hinferred⟩, hrecorded⟩, hpath⟩ := hvalue
  refine ⟨hok, hroute, n, value, hn, htakes, hinferred, hrecorded, ?_⟩
  rw [hpath, hinferred, Conversions.fits_nil_iff]
  decide

end Row
end TileMind
