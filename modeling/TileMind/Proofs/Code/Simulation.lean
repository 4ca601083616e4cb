import TileMind.Proofs.Code.Generated
import TileMind.Proofs.Code.Stretch

/-!
# TileMind.Proofs.Code.Simulation

The code of a row does what evaluating the row does.

* `Row.does_code`: the simulation, by induction on the tree.
-/

namespace TileMind

open Row (Setting Expr Args TypeTable)

variable {H : Type}

/-! ## What the code refers to -/

/-- The constants and variables that code generation handed out are those of the setting, and every
number in use fits an operand. -/
structure Linked (c : Setting H) (chain : Chain) (g : Generated) : Prop where
  constants : ∀ (slot : Nat) (sc : Scalar), g.pool.values[slot]? = some (.scalar sc) →
    slot < 2 ^ 31 ∧ c.machine.constants[slot]? = some (.scalar sc)
  vars : ∀ name id, g.names.Resolves chain name id → c.vars name = id ∧ id < 2 ^ 31
  sites : g.lastSite < 2 ^ 31

section

variable {c : Setting H} {chain : Chain} {g g' : Generated} {n : Nat}

theorem getElem?_mono {α : Type} {xs ys : Array α} (h : xs.toList <+: ys.toList) {k : Nat} {x : α}
    (hx : xs[k]? = some x) : ys[k]? = some x := by
  rw [← Array.getElem?_toList] at hx ⊢
  obtain ⟨more, hmore⟩ := h
  rw [← hmore, List.getElem?_append_left (List.getElem?_eq_some_iff.mp hx).1]
  exact hx

theorem Linked.mono (h : Linked c chain g') (hn : Row.Numbered g g' n) : Linked c chain g := by
  refine ⟨?_, ?_, ?_⟩
  · intro slot sc hslot
    exact h.constants slot sc (getElem?_mono hn.grows.pool hslot)
  · intro name id hr
    exact h.vars name id (hr.mono hn.grows.globals)
  · have hfinal := h.sites
    rw [hn.sites] at hfinal
    omega

theorem Linked.constant (h : Linked c chain g) {slot : Nat} {sc : Scalar}
    (hslot : g.pool.values[slot]? = some (.scalar sc)) :
    c.machine.constant? (Int32.ofInt slot) = some (.scalar sc) := by
  obtain ⟨hlt, hc⟩ := h.constants slot sc hslot
  rw [Machine.constant?, toInt_ofInt_of_lt hlt, if_neg (by omega), Int.toNat_natCast]
  exact hc

theorem Linked.resolved {name : String} (h : Linked c chain (g.resolveVar chain name).2) :
    ((g.resolveVar chain name).1 : Int) = c.vars name ∧ IsOperand (c.vars name) := by
  obtain ⟨hname, hlt⟩ := h.vars name _ (g.names.resolves_resolve chain name)
  refine ⟨hname.symm, ?_⟩
  rw [hname]
  constructor <;> omega

end

namespace Row

def Expr.tile? : Expr → Option Tile
  | .call _ tile _ => some tile
  | _ => none

/-- The overload and the tile of a node answer at once. -/
def Expr.Synchronous (types : TypeTable) (n : Expr) : Prop :=
  (∀ o ∈ (types.get n.id).overload, o.async = false) ∧ ∀ t ∈ n.tile?, t.async = false

/-- An operand can hold the number of each function that a node calls. -/
def Expr.Addressable (types : TypeTable) (n : Expr) : Prop :=
  (∀ conv ∈ (types.get n.id).conversion, IsOperand conv.fn) ∧
    (∀ o ∈ (types.get n.id).overload, IsOperand o.fn) ∧ ∀ t ∈ n.tile?, IsOperand t.fn

instance (types : TypeTable) (n : Expr) : Decidable (n.Synchronous types) :=
  inferInstanceAs (Decidable (_ ∧ _))

instance (types : TypeTable) (n : Expr) : Decidable (n.Addressable types) :=
  inferInstanceAs (Decidable (_ ∧ _ ∧ _))

/-- What the simulation needs to know of a node. -/
structure Expr.Direct (types : TypeTable) (n : Expr) : Prop where
  ready : n.Ready types
  sync : n.Synchronous types
  fns : n.Addressable types

theorem Expr.All.imp {P Q : Expr → Prop} {e : Expr} (h : ∀ n, P n → Q n) (he : e.All P) : e.All Q :=
  fun n hn => h n (he n hn)

theorem Args.All.imp {P Q : Expr → Prop} {args : Args} (h : ∀ n, P n → Q n) (ha : args.All P) :
    args.All Q :=
  fun n hn => h n (ha n hn)

/-- What the code of a rule is generated for, in a setting. -/
abbrev Setting.scope (c : Setting H) (chain : Chain) (rule : String) : RuleScope :=
  ⟨c.types, chain, rule⟩

theorem code_call {scope : RuleScope} {m : Mark} (h : scope.types.Has m.id) (tile : Tile) (args : Args)
    (g : Generated) : code scope (.call m tile args) g =
      ([Instr.of .mapNew (g.pool.add (.scalar (.string TypeId.args))).1] ++
        ((argsCode scope args (g.push (.string TypeId.args)).2).1 ++
          (tileCallCode tile ((argsCode scope args (g.push (.string TypeId.args)).2).2.newSite tile.fn).1 ++
            conversionCode (scope.types.get m.id).conversion)),
        ((argsCode scope args (g.push (.string TypeId.args)).2).2.newSite tile.fn).2) := by
  rw [code, typedCode_of_has h]
  simp only [converted, List.cons_append, List.append_assoc, List.nil_append]
  rfl

/-! ## Parts of the code -/

section

variable [Host H] {c : Setting H} {chain : Chain} {g : Generated} {pc : Int} {stack : List Value}
  {s : Stage H}

theorem does_push (hg : g.pool.Built) {sc : Scalar} (hsc : sc.Plain)
    (hl : Linked c chain (g.push sc).2) :
    Does c pc (g.push sc).1 stack stack (fun _ : Unit => .scalar sc :: stack) s (.pure () s) :=
  does_pushConst (hl.constant (ConstantPool.values_add hg hsc)) (ConstantPool.isPrimitive_of_plain hsc)

theorem does_convertAt {n : Expr} (hn : n.Addressable c.types) (v : Value) :
    Does c pc (conversionCode (c.types.get n.id).conversion) stack (v :: stack)
      (fun v : Value => v :: stack) s (c.convert (c.types.get n.id).conversion v s) :=
  does_conversionCode hn.1 v

theorem does_nilConst (hg : g.pool.Built) (hl : Linked c chain (g.push .nil).2) :
    Does c pc (g.push .nil).1 stack stack (fun v : Value => v :: stack) s (.pure .nil s) := by
  have hnone : Does c (pc + (g.push .nil).1.length) [] stack (.nil :: stack)
      (fun v : Value => v :: stack) s (.pure .nil s) := does_nil rfl fun _ => rfl
  exact List.append_nil (g.push .nil).1 ▸ (does_push hg .nil hl).prepare hnone

theorem does_constant {n : Expr} (hn : n.Addressable c.types) (hg : g.pool.Built) {sc : Scalar}
    (hsc : sc.Plain) (hl : Linked c chain (g.push sc).2) :
    Does c pc ((g.push sc).1 ++ conversionCode (c.types.get n.id).conversion) stack stack
      (fun v : Value => v :: stack) s (c.convert (c.types.get n.id).conversion (.scalar sc) s) :=
  (does_push hg hsc hl).prepare (does_convertAt hn _)

/-- An operator on its operands, then the conversions of its node. -/
theorem does_overload {n : Expr} (hn : n.Direct c.types) {o : Overload}
    (ho : (c.types.get n.id).overload = some o) (values : List Value) (hvalues : values.length < 2 ^ 31) :
    Does c pc (overloadCode o values.length ++ conversionCode (c.types.get n.id).conversion) stack
      (values.reverse ++ stack) (fun v : Value => v :: stack) s
      ((c.apply o.fn values s).andThen (c.convert (c.types.get n.id).conversion)) := by
  have hsync : o.async = false := hn.sync.1 o ho
  rw [overloadCode, if_neg (by simp [hsync])]
  exact (does_hostCall (hn.fns.2.1 o ho) values hvalues).andThen fun v t => does_convertAt hn.fns v

/-- A tile on its argument map, then the conversions of its node. -/
theorem does_tileCall {m : Mark} {tile : Tile} {args : Args} (hn : (Expr.call m tile args).Direct c.types)
    {site : Nat} (hsite : site < 2 ^ 31) (map : Value) :
    Does c pc (tileCallCode tile site ++ conversionCode (c.types.get m.id).conversion) stack
      (map :: stack) (fun v : Value => v :: stack) s
      ((c.call tile.fn site map s).andThen (c.convertAt m)) := by
  have hsync : tile.async = false := hn.sync.2 tile rfl
  rw [tileCallCode, if_neg (by simp [hsync])]
  exact (does_hostCallArgs (hn.fns.2.2 tile rfl) hsite map).andThen fun v t => does_convertAt hn.fns v

end

/-! ## The simulation -/

variable [Host H] {c : Setting H} {chain : Chain} {rule : String}

mutual

theorem does_code : ∀ (e : Expr) (g : Generated) (pc : Int) (stack : List Value) (s : Stage H),
    e.All (Expr.Direct c.types) → g.pool.Built → Linked c chain (code (c.scope chain rule) e g).2 →
      Does c pc (code (c.scope chain rule) e g).1 stack stack (fun v : Value => v :: stack) s
        (eval c e g.lastSite s)
  | .literal m value, g, pc, stack, s, he, hg, hl => by
    have hn := he.self
    rw [code, typedCode_of_has (m := m) hn.ready.typed] at hl ⊢
    exact does_constant hn.fns hg (plainLiteral_literal.mp hn.ready.plain) hl
  | .variable m name, g, pc, stack, s, he, hg, hl => by
    have hn := he.self
    rw [code, typedCode_of_has (m := m) hn.ready.typed] at hl ⊢
    obtain ⟨hid, hword⟩ := hl.resolved
    rw [converted_fst, hid, eval]
    exact (does_loadVar hword).andThen fun v t => does_convertAt hn.fns v
  | .field m object name, g, pc, stack, s, he, hg, hl => by
    obtain ⟨hn, ho⟩ := all_field.mp he
    rw [code, typedCode_of_has (m := m) hn.ready.typed] at hl ⊢
    have hobject := numbered_code (c.scope chain rule) object g (ho.imp fun _ h => h.ready)
    have hkey : (Scalar.string name).Plain := .string name
    have hlo := hl.mono (numbered_push _ hkey)
    rw [converted_fst, List.append_assoc, List.append_assoc, eval]
    refine (does_code object g pc stack s ho hg hlo).andThen ?_
    intro obj s
    refine ((does_push (hobject.grows.built hg) hkey hl).lower [obj]).prepare ?_
    exact (does_getField rfl obj).andThen fun v t => does_convertAt hn.fns v
  | .assign m (.variable mt name) value, g, pc, stack, s, he, hg, hl => by
    obtain ⟨hn, -, hv⟩ := all_assign.mp he
    rw [code, typedCode_of_has (m := m) hn.ready.typed] at hl ⊢
    have hlv := hl.mono (numbered_resolveVar _ chain name)
    obtain ⟨hid, hword⟩ := hl.resolved
    dsimp only
    rw [hid, List.append_assoc, eval]
    refine (does_code value g pc stack s hv hg hlv).andThen fun v t => ?_
    exact (does_convertAt hn.fns v).andThen fun v t => does_storeVar hword v
  | .assign m (.field mt object name) value, g, pc, stack, s, he, hg, hl => by
    obtain ⟨hn, ht, hv⟩ := all_assign.mp he
    obtain ⟨-, ho⟩ := all_field.mp ht
    rw [code, typedCode_of_has (m := m) hn.ready.typed] at hl ⊢
    have hobject := numbered_code (c.scope chain rule) object g (ho.imp fun _ h => h.ready)
    have hkey : (Scalar.string name).Plain := .string name
    have hpush := numbered_push (code (c.scope chain rule) object g).2 hkey
    have hvalue := numbered_code (c.scope chain rule) value
      ((code (c.scope chain rule) object g).2.push (.string name)).2 (hv.imp fun _ h => h.ready)
    have hlk := hl.mono hvalue
    have hgo := hobject.grows.built hg
    have hsites : ((code (c.scope chain rule) object g).2.push (.string name)).2.lastSite =
        g.lastSite + sites c.types object := hobject.sites
    dsimp only
    simp only [List.append_assoc]
    rw [eval]
    refine (does_code object g pc stack s ho hg (hlk.mono hpush)).andThen fun obj t => ?_
    refine ((does_push hgo hkey hlk).lower [obj]).prepare ?_
    rw [← hsites]
    refine (((does_code value _ _ _ t hv (hpush.grows.built hgo) hl).lower
      [.scalar (.string name), obj]).andThen fun v t => ?_)
    refine (((does_convertAt hn.fns v).lower [.scalar (.string name), obj]).andThen
      fun v t => ?_)
    exact does_setField rfl obj v
  | .assign m (.literal _ _) _, g, pc, stack, s, he, hg, hl
  | .assign m (.unary _ _ _) _, g, pc, stack, s, he, hg, hl
  | .assign m (.binary _ _ _ _) _, g, pc, stack, s, he, hg, hl
  | .assign m (.assign _ _ _) _, g, pc, stack, s, he, hg, hl
  | .assign m (.parameter _ _ _) _, g, pc, stack, s, he, hg, hl
  | .assign m (.modifier _ _ _) _, g, pc, stack, s, he, hg, hl
  | .assign m (.call _ _ _) _, g, pc, stack, s, he, hg, hl
  | .assign m (.empty _) _, g, pc, stack, s, he, hg, hl
  | .assign m (.error _ _) _, g, pc, stack, s, he, hg, hl => by
    have htyped : (c.scope chain rule).types.Has m.id := he.self.ready.typed
    simp only [code, typedCode_of_has htyped] at hl ⊢
    simp only [eval]
    exact does_nilConst hg hl
  | .binary m op left right, g, pc, stack, s, he, hg, hl => by
    obtain ⟨hn, hx, hy⟩ := all_binary.mp he
    rw [code, typedCode_of_has (m := m) hn.ready.typed] at hl ⊢
    have hleft := numbered_code (c.scope chain rule) left g (hx.imp fun _ h => h.ready)
    have hright := numbered_code (c.scope chain rule) right (code (c.scope chain rule) left g).2
      (hy.imp fun _ h => h.ready)
    have hgl := hleft.grows.built hg
    rw [eval]
    cases hop : op.isShortCircuit with
    | true =>
      simp only [hop, if_true, converted_snd] at hl ⊢
      rw [converted_fst, shortCircuitCode, List.append_assoc (code (c.scope chain rule) left g).1,
        ← hleft.sites]
      refine Does.andThen ?_ fun v t => does_convertAt hn.fns v
      refine (does_code left g pc stack s hx hg (hl.mono hright)).andThen fun v t => ?_
      exact does_shortCircuit (does_code right _ _ _ t hy hgl hl)
    | false =>
      cases ho : (c.types.get m.id).overload with
      | none =>
        simp only [hop, ho, Bool.false_eq_true, if_false] at hl ⊢
        exact does_constant hn.fns hg .nil hl
      | some o =>
        simp only [hop, ho, Bool.false_eq_true, if_false, converted_snd] at hl ⊢
        rw [converted_fst, List.append_assoc, List.append_assoc, ← hleft.sites]
        refine (does_code left g pc stack s hx hg (hl.mono hright)).andThen fun x t => ?_
        refine ((does_code right _ _ _ t hy hgl hl).lower [x]).andThen fun y t => ?_
        exact does_overload hn ho [x, y] (by simp)
  | .unary m op operand, g, pc, stack, s, he, hg, hl => by
    obtain ⟨hn, hx⟩ := all_unary.mp he
    rw [code, typedCode_of_has (m := m) hn.ready.typed] at hl ⊢
    rw [eval]
    cases ho : (c.types.get m.id).overload with
    | none =>
      simp only [ho] at hl ⊢
      exact does_constant hn.fns hg .nil hl
    | some o =>
      simp only [ho, converted_snd] at hl ⊢
      rw [converted_fst, List.append_assoc]
      refine (does_code operand g pc stack s hx hg hl).andThen fun x t => ?_
      exact does_overload hn ho [x] (by simp)
  | .parameter m tile value, g, pc, stack, s, he, hg, hl => by
    obtain ⟨hn, hv⟩ := all_parameter.mp he
    rw [code, typedCode_of_has (m := m) hn.ready.typed] at hl ⊢
    exact (does_code value g pc stack s hv hg hl).andThen fun v t => does_convertAt hn.fns v
  | .modifier m tile count, g, pc, stack, s, he, hg, hl => by
    have hn := he.self
    rw [code, typedCode_of_has (m := m) hn.ready.typed] at hl ⊢
    exact does_constant hn.fns hg (Scalar.plain_int count) hl
  | .call m tile args, g, pc, stack, s, he, hg, hl => by
    obtain ⟨hn, ha⟩ := all_call.mp he
    have hname : (Scalar.string TypeId.args).Plain := .string _
    have hargs := numbered_argsCode (c.scope chain rule) args (g.push (.string TypeId.args)).2
      (ha.imp fun _ h => h.ready)
    have hsite := numbered_newSite
      (argsCode (c.scope chain rule) args (g.push (.string TypeId.args)).2).2 tile.fn
    have hsites : (argsCode (c.scope chain rule) args (g.push (.string TypeId.args)).2).2.lastSite =
        g.lastSite + argSites c.types args := hargs.sites
    rw [code_call (m := m) hn.ready.typed] at hl ⊢
    have hla := hl.mono hsite
    have hslot := (hla.mono hargs).constant (ConstantPool.values_add hg hname)
    rw [eval, ← hsites]
    refine (does_mapNew hslot rfl).prepare ?_
    refine (does_argsCode args _ _ _ _ _ _ ha ((numbered_push g hname).grows.built hg) hla).andThen
      fun _ t => ?_
    exact does_tileCall hn hl.sites _
  | .empty m, g, pc, stack, s, he, hg, hl => by
    have hn := he.self
    rw [code, typedCode_of_has (m := m) hn.ready.typed] at hl ⊢
    exact does_constant hn.fns hg .void hl
  | .error m message, g, pc, stack, s, he, hg, hl => by
    have hn := he.self
    rw [code, typedCode_of_has (m := m) hn.ready.typed] at hl ⊢
    exact does_constant hn.fns hg .nil hl
termination_by structural e => e

theorem does_argsCode : ∀ (args : Args) (g : Generated) (pc : Int) (type : TypeId) (ref : Nat)
    (stack : List Value) (s : Stage H), args.All (Expr.Direct c.types) → g.pool.Built →
      Linked c chain (argsCode (c.scope chain rule) args g).2 →
        Does c pc (argsCode (c.scope chain rule) args g).1 stack (.map type ref :: stack)
          (fun _ : Unit => .map type ref :: stack) s
          (evalArgs c args (.map type ref) g.lastSite s)
  | .nil, g, pc, type, ref, stack, s, _, _, _ => does_nil rfl fun _ => rfl
  | .cons slot value rest, g, pc, type, ref, stack, s, ha, hg, hl => by
    obtain ⟨hv, hr⟩ := all_cons.mp ha
    rw [argsCode] at hl ⊢
    have hkey := Scalar.plain_int slot
    have hpush := numbered_push g hkey
    have hvalue := numbered_code (c.scope chain rule) value (g.push (.int slot)).2
      (hv.imp fun _ h => h.ready)
    have hrest := numbered_argsCode (c.scope chain rule) rest
      (code (c.scope chain rule) value (g.push (.int slot)).2).2 (hr.imp fun _ h => h.ready)
    have hgk := hpush.grows.built hg
    have hlv := hl.mono hrest
    dsimp only
    rw [List.append_assoc, List.append_assoc, evalArgs]
    refine ((does_push hg hkey (hlv.mono hvalue)).lower [.map type ref]).prepare ?_
    refine ((does_code value _ _ _ s hv hgk hlv).lower [.int slot, .map type ref]).andThen
      fun v t => ?_
    refine (does_mapSet type ref slot v).andThen fun _ t => ?_
    have hsites : (code (c.scope chain rule) value (g.push (.int slot)).2).2.lastSite =
        g.lastSite + sites c.types value := hvalue.sites
    rw [← hsites]
    exact does_argsCode rest _ _ type ref stack t hr (hvalue.grows.built hgk) hl
termination_by structural args => args

end

end Row

end TileMind
