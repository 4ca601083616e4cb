import TileMind.Proofs.Code.Emission
import TileMind.Proofs.Row.Eval
import TileMind.Proofs.Row.Ready

/-!
# TileMind.Proofs.Code.Generated

What code generation leaves in place: constants keep their slots and variables their numbers, and the
call sites of a tree are numbered one after the other (`Row.numbered_code`).
-/

namespace TileMind

/-! ## Variables -/

/-- A rule means variable `id` by a name. -/
def Names.Resolves (n : Names) (chain : Chain) (name : String) (id : Nat) : Prop :=
  (chain.find? name).map Binding.id = some id ∨
    chain.find? name = none ∧ (n.globals.lookup name).map Binding.id = some id

theorem Names.resolves_resolve (n : Names) (chain : Chain) (name : String) :
    (n.resolve chain name).2.Resolves chain name (n.resolve chain name).1 := by
  unfold resolve
  cases hchain : chain.find? name with
  | some b => exact .inl (by simp [hchain])
  | none =>
    right
    refine ⟨hchain, ?_⟩
    cases hglobal : n.globals.lookup name with
    | some b => simp [hglobal]
    | none => simp [addGlobal, add, List.lookup_append, hglobal]

theorem Names.resolve_of_resolves {n : Names} {chain : Chain} {name : String} {id : Nat}
    (h : n.Resolves chain name id) : (n.resolve chain name).1 = id := by
  unfold resolve
  rcases h with h | ⟨hchain, h⟩
  · obtain ⟨b, hb, rfl⟩ := Option.map_eq_some_iff.mp h
    rw [hb]
  · obtain ⟨b, hb, rfl⟩ := Option.map_eq_some_iff.mp h
    rw [hchain, hb]

theorem Names.Resolves.mono {n n' : Names} (h : n.globals <+: n'.globals) {chain : Chain}
    {name : String} {id : Nat} (hr : n.Resolves chain name id) : n'.Resolves chain name id := by
  rcases hr with hr | ⟨hchain, hr⟩
  · exact .inl hr
  · obtain ⟨b, hb, rfl⟩ := Option.map_eq_some_iff.mp hr
    exact .inr ⟨hchain, by rw [h.lookup_eq_some hb]; rfl⟩

theorem Names.globals_prefix_resolve (n : Names) (chain : Chain) (name : String) :
    n.globals <+: (n.resolve chain name).2.globals := by
  unfold resolve
  split
  · exact List.prefix_rfl
  · split
    · exact List.prefix_rfl
    · exact List.prefix_append _ _

/-! ## Growth -/

/-- Everything of `g` is still there in `g'`. -/
structure Generated.Grows (g g' : Generated) : Prop where
  pool : g.pool.values.toList <+: g'.pool.values.toList
  built : g.pool.Built → g'.pool.Built
  globals : g.names.globals <+: g'.names.globals

namespace Generated

variable {g g' g'' : Generated}

theorem Grows.refl (g : Generated) : g.Grows g := ⟨List.prefix_rfl, id, List.prefix_rfl⟩

theorem Grows.trans (h : g.Grows g') (h' : g'.Grows g'') : g.Grows g'' :=
  ⟨h.pool.trans h'.pool, fun hb => h'.built (h.built hb), h.globals.trans h'.globals⟩

theorem grows_push (g : Generated) {s : Scalar} (hs : s.Plain) : g.Grows (g.push s).2 :=
  ⟨g.pool.values_prefix_add (.scalar s), fun hb => hb.add hs, List.prefix_rfl⟩

theorem grows_resolveVar (g : Generated) (chain : Chain) (name : String) :
    g.Grows (g.resolveVar chain name).2 :=
  ⟨List.prefix_rfl, id, g.names.globals_prefix_resolve chain name⟩

theorem grows_newSite (g : Generated) (fn : Int) : g.Grows (g.newSite fn).2 :=
  ⟨List.prefix_rfl, id, List.prefix_rfl⟩

end Generated

namespace Row

theorem typedCode_of_has {scope : RuleScope} {m : Mark} (h : scope.types.Has m.id) (g : Generated)
    (body : TypeInfo → Generated → List Instr × Generated) :
    typedCode scope m g body = body (scope.types.get m.id) g := by
  obtain ⟨info, hinfo⟩ := h
  simp [typedCode, TypeTable.get, hinfo]

@[simp] theorem converted_fst (info : TypeInfo) (r : List Instr × Generated) :
    (converted info r).1 = r.1 ++ conversionCode info.conversion := rfl

@[simp] theorem converted_snd (info : TypeInfo) (r : List Instr × Generated) :
    (converted info r).2 = r.2 := rfl

/-- What is generated for a part of a tree, and how many call sites that takes. -/
structure Numbered (g g' : Generated) (count : Nat) : Prop where
  grows : g.Grows g'
  sites : g'.lastSite = g.lastSite + count

theorem Numbered.refl (g : Generated) : Numbered g g 0 := ⟨.refl g, rfl⟩

theorem Numbered.trans {g g' g'' : Generated} {n n' : Nat} (h : Numbered g g' n)
    (h' : Numbered g' g'' n') : Numbered g g'' (n + n') :=
  ⟨h.grows.trans h'.grows, by rw [h'.sites, h.sites, Nat.add_assoc]⟩

theorem numbered_push (g : Generated) {s : Scalar} (hs : s.Plain) : Numbered g (g.push s).2 0 :=
  ⟨g.grows_push hs, rfl⟩

theorem numbered_resolveVar (g : Generated) (chain : Chain) (name : String) :
    Numbered g (g.resolveVar chain name).2 0 :=
  ⟨g.grows_resolveVar chain name, rfl⟩

theorem numbered_newSite (g : Generated) (fn : Int) : Numbered g (g.newSite fn).2 1 :=
  ⟨g.grows_newSite fn, rfl⟩

mutual

theorem numbered_code (scope : RuleScope) : ∀ (e : Expr) (g : Generated),
    e.All (Expr.Ready scope.types) → Numbered g (code scope e g).2 (sites scope.types e)
  | .literal m value, g, he => by
    have hn := he.self
    rw [code, typedCode_of_has (m := m) hn.typed]
    exact numbered_push g (plainLiteral_literal.mp hn.plain)
  | .variable m name, g, he => by
    rw [code, typedCode_of_has (m := m) he.self.typed]
    exact numbered_resolveVar g _ _
  | .field m object name, g, he => by
    obtain ⟨hn, ho⟩ := all_field.mp he
    rw [code, typedCode_of_has (m := m) hn.typed]
    exact (numbered_code scope object g ho).trans (numbered_push _ (.string name))
  | .assign m (.variable mt name) value, g, he => by
    obtain ⟨hn, -, hv⟩ := all_assign.mp he
    rw [code, typedCode_of_has (m := m) hn.typed]
    exact (numbered_code scope value g hv).trans (numbered_resolveVar _ _ _)
  | .assign m (.field mt object name) value, g, he => by
    obtain ⟨hn, ht, hv⟩ := all_assign.mp he
    obtain ⟨-, ho⟩ := all_field.mp ht
    rw [code, typedCode_of_has (m := m) hn.typed]
    exact ((numbered_code scope object g ho).trans (numbered_push _ (.string name))).trans
      (numbered_code scope value _ hv)
  | .assign m (.literal _ _) _, g, he | .assign m (.unary _ _ _) _, g, he
  | .assign m (.binary _ _ _ _) _, g, he | .assign m (.assign _ _ _) _, g, he
  | .assign m (.parameter _ _ _) _, g, he | .assign m (.modifier _ _ _) _, g, he
  | .assign m (.call _ _ _) _, g, he | .assign m (.empty _) _, g, he
  | .assign m (.error _ _) _, g, he => by
    simp only [code, typedCode_of_has (m := m) he.self.typed]
    exact numbered_push g .nil
  | .binary m op left right, g, he => by
    obtain ⟨hn, hl, hr⟩ := all_binary.mp he
    rw [code, typedCode_of_has (m := m) hn.typed]
    have hparts := (numbered_code scope left g hl).trans (numbered_code scope right (code scope left g).2 hr)
    rw [sites]
    cases hop : op.isShortCircuit with
    | true => simpa [hop] using hparts
    | false =>
      cases ho : (scope.types.get m.id).overload with
      | none => simpa [hop, ho] using numbered_push g .nil
      | some o => simpa [hop, ho] using hparts
  | .unary m op operand, g, he => by
    obtain ⟨hn, hx⟩ := all_unary.mp he
    rw [code, typedCode_of_has (m := m) hn.typed, sites]
    cases ho : (scope.types.get m.id).overload with
    | none => simpa [ho] using numbered_push g .nil
    | some o => simpa [ho] using numbered_code scope operand g hx
  | .parameter m tile value, g, he => by
    obtain ⟨hn, hv⟩ := all_parameter.mp he
    rw [code, typedCode_of_has (m := m) hn.typed]
    exact numbered_code scope value g hv
  | .modifier m tile count, g, he => by
    rw [code, typedCode_of_has (m := m) he.self.typed]
    exact numbered_push g (Scalar.plain_int count)
  | .call m tile args, g, he => by
    obtain ⟨hn, ha⟩ := all_call.mp he
    rw [code, typedCode_of_has (m := m) hn.typed, sites]
    have hargs := (numbered_push g (.string TypeId.args)).trans (numbered_argsCode scope args _ ha)
    rw [Nat.zero_add] at hargs
    exact hargs.trans (numbered_newSite _ _)
  | .empty m, g, he => by
    rw [code, typedCode_of_has (m := m) he.self.typed]
    exact numbered_push g .void
  | .error m _, g, he => by
    rw [code, typedCode_of_has (m := m) he.self.typed]
    exact numbered_push g .nil
termination_by structural e => e

theorem numbered_argsCode (scope : RuleScope) : ∀ (args : Args) (g : Generated),
    args.All (Expr.Ready scope.types) → Numbered g (argsCode scope args g).2 (argSites scope.types args)
  | .nil, g, _ => .refl g
  | .cons slot value rest, g, ha => by
    obtain ⟨hv, hr⟩ := all_cons.mp ha
    rw [argsCode, argSites]
    have hvalue := (numbered_push g (Scalar.plain_int slot)).trans
      (numbered_code scope value (g.push (.int slot)).2 hv)
    rw [Nat.zero_add] at hvalue
    exact hvalue.trans (numbered_argsCode scope rest _ hr)
termination_by structural args => args

end

end Row

end TileMind
