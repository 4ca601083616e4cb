import TileMind.Proofs.Code.Layout
import TileMind.Proofs.Machine.Safety

/-!
# TileMind.Proofs.Code.Coupled

Whoever asks for something waits for it at once. In generated code every call that is answered later
is followed by an `await`, and there is no other way to get to an `await`.

* `Coupled.append`: coupled code is put together from coupled pieces.
* `Row.coupled_code`, `coupled_ruleCode`: the code of rows and rules is coupled.
* `couples_of_compile`: where the functions of a compiled program can lead.
-/

namespace TileMind

/-- Calls that are answered later. -/
def Op.asks : Op → Bool
  | .hostCallAsync | .hostCallArgsAsync => true
  | _ => false

def Instr.asks (i : Instr) : Bool := (i.op?.map Op.asks).getD false

@[simp] theorem Instr.asks_of (op : Op) (a b c : Int) : (Instr.of op a b c).asks = op.asks := by
  simp [Instr.asks]

theorem Instr.asks_eq_true_iff {i : Instr} :
    i.asks = true ↔ i.op? = some .hostCallAsync ∨ i.op? = some .hostCallArgsAsync := by
  unfold Instr.asks
  cases hop : i.op? with
  | none => simp
  | some op => cases op <;> simp [Op.asks]

/-! ## Pieces of code -/

/-- A call for something and the `await` behind it stand together, and nothing leads in between. -/
structure Coupled (code : List Instr) : Prop where
  asks : ∀ {k : Nat} {i : Instr}, code[k]? = some i → i.asks = true →
    ∃ j, code[k + 1]? = some j ∧ j.op? = some .await
  awaits : ∀ {k : Nat} {j : Instr}, code[k]? = some j → j.op? = some .await →
    ∃ n i, k = n + 1 ∧ code[n]? = some i ∧ i.asks = true
  jumps : ∀ {k : Nat} {i : Instr}, code[k]? = some i → i.isJump = true →
    ∃ d : Nat, i.a = Int32.ofInt d ∧ k + d ≤ code.length ∧
      ∀ j, code[k + d]? = some j → j.op? ≠ some .await

theorem coupled_nil : Coupled [] := ⟨by simp, by simp, by simp⟩

theorem Coupled.head {code : List Instr} (h : Coupled code) {i : Instr} (hi : code[0]? = some i) :
    i.op? ≠ some .await := by
  intro hop
  obtain ⟨n, -, hn, -⟩ := h.awaits hi hop
  omega

theorem Coupled.append {front back : List Instr} (hfront : Coupled front) (hback : Coupled back) :
    Coupled (front ++ back) := by
  have hleft {k : Nat} {x : Instr} (hx : front[k]? = some x) : (front ++ back)[k]? = some x := by
    rw [List.getElem?_append_left (List.getElem?_eq_some_iff.mp hx).1, hx]
  have hright {k : Nat} {x : Instr} (hx : back[k]? = some x) :
      (front ++ back)[front.length + k]? = some x := by
    rw [List.getElem?_append_right (by omega), Nat.add_sub_cancel_left, hx]
  refine ⟨fun hi hasks => ?_, fun hj hop => ?_, fun hi hjump => ?_⟩
  · rcases getElem?_append_cases hi with ⟨-, hx⟩ | ⟨k, rfl, hx⟩
    · obtain ⟨j, hj, hop⟩ := hfront.asks hx hasks
      exact ⟨j, hleft hj, hop⟩
    · obtain ⟨j, hj, hop⟩ := hback.asks hx hasks
      exact ⟨j, hright hj, hop⟩
  · rcases getElem?_append_cases hj with ⟨-, hx⟩ | ⟨k, rfl, hx⟩
    · obtain ⟨n, i, hn, hi, hasks⟩ := hfront.awaits hx hop
      exact ⟨n, i, hn, hleft hi, hasks⟩
    · obtain ⟨n, i, rfl, hi, hasks⟩ := hback.awaits hx hop
      exact ⟨front.length + n, i, rfl, hright hi, hasks⟩
  · rcases getElem?_append_cases hi with ⟨-, hx⟩ | ⟨k, rfl, hx⟩
    · obtain ⟨n, ha, hle, htarget⟩ := hfront.jumps hx hjump
      refine ⟨n, ha, by rw [List.length_append]; omega, fun j hj => ?_⟩
      rcases getElem?_append_cases hj with ⟨-, hy⟩ | ⟨k', hk', hy⟩
      · exact htarget j hy
      · -- A jump to the end of the first piece leads to the start of the second one.
        obtain rfl : k' = 0 := by omega
        exact hback.head hy
    · obtain ⟨n, ha, hle, htarget⟩ := hback.jumps hx hjump
      refine ⟨n, ha, by rw [List.length_append]; omega, fun j hj => ?_⟩
      rw [Nat.add_assoc, List.getElem?_append_right (by omega), Nat.add_sub_cancel_left] at hj
      exact htarget j hj

theorem coupled_single (op : Op) (a b c : Int)
    (h : op.asks = false ∧ op ≠ .await ∧ op.isJump = false) : Coupled [.of op a b c] := by
  refine ⟨fun hi hasks => ?_, fun hj hop => ?_, fun hi hjump => ?_⟩
  · obtain ⟨-, rfl⟩ := getElem?_singleton_cases hi
    simp [h.1] at hasks
  · obtain ⟨-, rfl⟩ := getElem?_singleton_cases hj
    simp [h.2.1] at hop
  · obtain ⟨-, rfl⟩ := getElem?_singleton_cases hi
    simp [h.2.2] at hjump

theorem coupled_pair {op : Op} (a b c : Int) (h : op.asks = true) :
    Coupled [.of op a b c, .of .await] := by
  have hne : op ≠ .await ∧ op.isJump = false := by cases op <;> simp_all [Op.asks, Op.isJump]
  refine ⟨fun {k i} hi hasks => ?_, fun {k j} hj hop => ?_, fun {k i} hi hjump => ?_⟩
  · rcases k with _ | k
    · exact ⟨.of .await, rfl, by simp⟩
    · obtain ⟨-, rfl⟩ := getElem?_singleton_cases hi
      simp [Op.asks] at hasks
  · rcases k with _ | k
    · cases hj
      simp [hne.1] at hop
    · obtain ⟨rfl, rfl⟩ := getElem?_singleton_cases hj
      exact ⟨0, _, rfl, rfl, by simpa using h⟩
  · rcases k with _ | k
    · cases hi
      simp [hne.2] at hjump
    · obtain ⟨-, rfl⟩ := getElem?_singleton_cases hi
      simp [Op.isJump] at hjump

theorem coupled_jump {op : Op} {rest : List Instr} {d : Int} (h : op.isJump = true)
    (hd : d = rest.length + 1) (hrest : Coupled rest) : Coupled (.of op d :: rest) := by
  have hne : op.asks = false ∧ op ≠ .await := by cases op <;> simp_all [Op.asks, Op.isJump]
  refine ⟨fun {k i} hi hasks => ?_, fun {k j} hj hop => ?_, fun {k i} hi hjump => ?_⟩
  · rcases k with _ | k
    · cases hi
      simp [hne.1] at hasks
    · exact hrest.asks hi hasks
  · rcases k with _ | k
    · cases hj
      simp [hne.2] at hop
    · obtain ⟨n, i, rfl, hi, hasks⟩ := hrest.awaits hj hop
      exact ⟨n + 1, i, rfl, hi, hasks⟩
  · rcases k with _ | k
    · cases hi
      refine ⟨rest.length + 1, by simp [hd], by simp, fun j hj => ?_⟩
      simp at hj
    · obtain ⟨n, ha, hle, htarget⟩ := hrest.jumps hi hjump
      refine ⟨n, ha, by rw [List.length_cons]; omega, fun j hj => htarget j ?_⟩
      rwa [Nat.add_right_comm, List.getElem?_cons_succ] at hj

/-! ## Expressions -/

theorem coupled_push (g : Generated) (s : Scalar) : Coupled (g.push s).1 :=
  coupled_single .pushConst _ _ _ (by decide)

theorem coupled_conversionCode (path : List Conversion) : Coupled (conversionCode path) := by
  induction path with
  | nil => exact coupled_nil
  | cons c path ih => exact (coupled_single .hostCall c.fn 1 0 (by decide)).append ih

theorem coupled_overloadCode (o : Overload) (arity : Nat) : Coupled (overloadCode o arity) := by
  unfold overloadCode
  split
  · exact coupled_pair _ _ _ rfl
  · exact coupled_single .hostCall _ _ _ (by decide)

theorem coupled_tileCallCode (t : Tile) (site : Nat) : Coupled (tileCallCode t site) := by
  unfold tileCallCode
  split
  · exact coupled_pair _ _ _ rfl
  · exact coupled_single .hostCallArgs _ _ _ (by decide)

theorem coupled_shortCircuitCode (op : Row.BinaryOp) {left right : List Instr} (hl : Coupled left)
    (hr : Coupled right) : Coupled (shortCircuitCode op left right) := by
  have hover : Coupled (.of .pop :: right) := (coupled_single .pop 0 0 0 (by decide)).append hr
  have hjump : Coupled (.of (if op = .and then .jumpIfFalse else .jumpIfTrue) (right.length + 2) ::
      .of .pop :: right) := by
    refine coupled_jump (by split <;> rfl) ?_ hover
    rw [List.length_cons]
    push_cast
    ring
  have hdup : Coupled [.of .dup] := coupled_single .dup 0 0 0 (by decide)
  simpa [shortCircuitCode] using hl.append (hdup.append hjump)

namespace Row

theorem coupled_converted (info : TypeInfo) {r : List Instr × Generated} (hr : Coupled r.1) :
    Coupled (converted info r).1 :=
  hr.append (coupled_conversionCode info.conversion)

theorem coupled_typedCode (scope : RuleScope) (m : Mark) (g : Generated)
    {body : TypeInfo → Generated → List Instr × Generated} (hbody : ∀ info, Coupled (body info g).1) :
    Coupled (typedCode scope m g body).1 := by
  unfold typedCode
  split
  · exact hbody _
  · exact coupled_push _ _

mutual

theorem coupled_code (scope : RuleScope) : ∀ (e : Expr) (g : Generated), Coupled (code scope e g).1
  | .literal m value, g => by
    rw [code]
    exact coupled_typedCode scope m g fun info => coupled_converted info (coupled_push g value)
  | .variable m name, g => by
    rw [code]
    refine coupled_typedCode scope m g fun info => coupled_converted info ?_
    exact coupled_single .loadVar _ _ _ (by decide)
  | .field m object name, g => by
    rw [code]
    refine coupled_typedCode scope m g fun info => coupled_converted info ?_
    have hkey := coupled_push (code scope object g).2 (.string name)
    exact ((coupled_code scope object g).append hkey).append
      (coupled_single .getField 0 0 0 (by decide))
  | .assign m (.variable _ name) value, g => by
    rw [code]
    refine coupled_typedCode scope m g fun info => ?_
    have hstore (a : Int) : Coupled [.of .dup, .of .storeVar a] :=
      (coupled_single .dup 0 0 0 (by decide)).append (coupled_single .storeVar a 0 0 (by decide))
    exact ((coupled_code scope value g).append (coupled_conversionCode _)).append (hstore _)
  | .assign m (.field _ object name) value, g => by
    rw [code]
    refine coupled_typedCode scope m g fun info => ?_
    have hkey := coupled_push (code scope object g).2 (.string name)
    have hvalue := ((coupled_code scope object g).append hkey).append
      (coupled_code scope value ((code scope object g).2.push (.string name)).2)
    exact (hvalue.append (coupled_conversionCode info.conversion)).append
      (coupled_single .setField 0 0 0 (by decide))
  | .assign m (.literal _ _) _, g | .assign m (.unary _ _ _) _, g
  | .assign m (.binary _ _ _ _) _, g | .assign m (.assign _ _ _) _, g
  | .assign m (.parameter _ _ _) _, g | .assign m (.modifier _ _ _) _, g
  | .assign m (.call _ _ _) _, g | .assign m (.empty _) _, g
  | .assign m (.error _ _) _, g => by
    simp only [code]
    exact coupled_typedCode scope m g fun _ => coupled_push g .nil
  | .binary m op left right, g => by
    rw [code]
    refine coupled_typedCode scope m g fun info => ?_
    have hl := coupled_code scope left g
    have hr := coupled_code scope right (code scope left g).2
    split
    · exact coupled_converted info (coupled_shortCircuitCode op hl hr)
    · split
      · exact coupled_converted info (coupled_push g .nil)
      · exact coupled_converted info ((hl.append hr).append (coupled_overloadCode _ 2))
  | .unary m _ operand, g => by
    rw [code]
    refine coupled_typedCode scope m g fun info => ?_
    split
    · exact coupled_converted info (coupled_push g .nil)
    · exact coupled_converted info ((coupled_code scope operand g).append (coupled_overloadCode _ 1))
  | .parameter m _ value, g => by
    rw [code]
    exact coupled_typedCode scope m g fun info => coupled_converted info (coupled_code scope value g)
  | .modifier m _ count, g => by
    rw [code]
    exact coupled_typedCode scope m g fun info => coupled_converted info (coupled_push g _)
  | .call m tile args, g => by
    rw [code]
    refine coupled_typedCode scope m g fun info => coupled_converted info ?_
    have hargs (a : Int) (g : Generated) :=
      (coupled_single .mapNew a 0 0 (by decide)).append (coupled_argsCode scope args g)
    exact (hargs _ _).append (coupled_tileCallCode tile _)
  | .empty m, g => by
    rw [code]
    exact coupled_typedCode scope m g fun info => coupled_converted info (coupled_push g .void)
  | .error m _, g => by
    rw [code]
    exact coupled_typedCode scope m g fun info => coupled_converted info (coupled_push g .nil)
termination_by structural e => e

theorem coupled_argsCode (scope : RuleScope) :
    ∀ (args : Args) (g : Generated), Coupled (argsCode scope args g).1
  | .nil, _ => coupled_nil
  | .cons slot value rest, g => by
    rw [argsCode]
    have hvalue := (coupled_push g (.int slot)).append (coupled_code scope value (g.push (.int slot)).2)
    exact (hvalue.append (coupled_single .mapSet _ _ _ (by decide))).append (coupled_argsCode scope rest _)
termination_by structural args => args

end

end Row

/-! ## Rules -/

theorem coupled_childrenCode (isolate : Bool) (children : List Nat) :
    Coupled (childrenCode isolate children) := by
  have hcall (child : Nat) : Coupled [.of .call child 0, .of .pop] :=
    (coupled_single .call child 0 0 (by decide)).append (coupled_single .pop 0 0 0 (by decide))
  induction children with
  | nil => exact coupled_nil
  | cons child children ih =>
    refine Coupled.append ?_ ih
    cases isolate with
    | false => exact hcall child
    | true =>
      exact coupled_jump rfl rfl ((hcall child).append (coupled_single .endTry 0 0 0 (by decide)))

theorem coupled_ruleCode {cond action children : List Instr} (hcond : Coupled cond)
    (haction : Coupled action) (hchildren : Coupled children) :
    Coupled (ruleCode cond action children) := by
  have hmark (op : Op) (h : op.asks = false ∧ op ≠ .await ∧ op.isJump = false) : Coupled [.of op] :=
    coupled_single op 0 0 0 h
  have hover := (((hmark .doStart (by decide)).append haction).append (hmark .doEnd (by decide))).append
    hchildren
  have hwhen : Coupled (.of .whenEnd (action.length + children.length + 3) ::
      ([Instr.of .doStart] ++ action ++ [Instr.of .doEnd] ++ children)) := by
    refine coupled_jump rfl ?_ hover
    simp only [List.length_append, List.length_cons, List.length_nil]
    push_cast
    ring
  have hall := (((hmark .whenStart (by decide)).append hcond).append hwhen).append (hmark .ret (by decide))
  simpa [ruleCode] using hall

section

variable {σ : Type} (env : CompileEnv σ)

theorem coupled_resolvedRule (job : RuleJob) (p : Progress) :
    Coupled (resolvedRule env job p).1.code.toList := by
  obtain ⟨types, cond, action, g, c, hcond, hcode⟩ := resolvedRule_code env job p
  have hc : Coupled c.1 := by
    rcases hcond with rfl | rfl
    · exact coupled_push g _
    · exact Row.coupled_code _ cond g
  rw [hcode]
  exact coupled_ruleCode hc (Row.coupled_code ⟨types, job.chain, job.path⟩ action c.2)
    (coupled_childrenCode env.isolateChildren job.children)

variable {env} {d : BrainDef} {p : Program} {diags : Diagnostics}

theorem coupled_of_compile (h : compile env d = .ok (p, diags)) {fn : Function}
    (hfn : fn ∈ p.functions) : Coupled fn.code.toList := by
  obtain ⟨job, q, rfl⟩ := exists_resolvedRule h hfn
  exact coupled_resolvedRule env job q

end

/-! ## Places -/

/-- No `await` stands there. -/
def Program.Rests (p : Program) (func pc : Int) : Prop :=
  ∀ base i, Machine.instrAt p ⟨func, pc, base⟩ = .ok i → i.op? ≠ some .await

/-- Whoever asks gets to an `await`, and nobody else does. -/
structure Program.Couples (p : Program) : Prop where
  start : ∀ func, p.Rests func 0
  next : ∀ {fr i}, Machine.instrAt p fr = .ok i → i.asks = false → p.Rests fr.func (fr.pc + 1)
  jump : ∀ {fr i}, Machine.instrAt p fr = .ok i → i.isJump = true → p.Rests fr.func (fr.pc + i.a.toInt)
  asks : ∀ {fr i}, Machine.instrAt p fr = .ok i → i.asks = true →
    ∃ j, Machine.instrAt p { fr with pc := fr.pc + 1 } = .ok j ∧ j.op? = some .await

theorem Machine.instrAt_of_getElem? {p : Program} {func k : Nat} {fn : Function} {i : Instr}
    (hfn : p.functions[func]? = some fn) (hi : fn.code.toList[k]? = some i) (base : Nat) :
    Machine.instrAt p ⟨func, k, base⟩ = .ok i := by
  have hfound : p.function? func = some fn := Program.function?_eq_some_iff.mpr ⟨func, rfl, hfn⟩
  have hneg : ¬ ((k : Int) < 0) := by omega
  rw [Array.getElem?_toList] at hi
  simp only [Machine.instrAt, hfound, hneg, if_false, Int.toNat_natCast, hi]

theorem couples_of_compile {σ : Type} {env : CompileEnv σ} {d : BrainDef} {p : Program}
    {diags : Diagnostics} (h : compile env d = .ok (p, diags))
    (hsize : ∀ fn ∈ p.functions, fn.code.size < 2 ^ 32) : p.Couples := by
  have hrests {func k : Nat} {fn : Function} (hfn : p.functions[func]? = some fn)
      (hnone : ∀ j, fn.code.toList[k]? = some j → j.op? ≠ some .await) : p.Rests func k := by
    intro base j hj
    obtain ⟨func', k', fn', hfunc, hk', hfn', hj'⟩ := instrAt_eq_ok hj
    obtain ⟨rfl, rfl⟩ : func = func' ∧ k = k' := ⟨Int.ofNat_inj.mp hfunc, Int.ofNat_inj.mp hk'⟩
    obtain rfl := Option.some.inj (hfn.symm.trans hfn')
    exact hnone j (by rw [Array.getElem?_toList, hj'])
  refine ⟨fun func base i hi => ?_, fun {fr i} hi hasks => ?_, fun {fr i} hi hjump => ?_,
    fun {fr i} hi hasks => ?_⟩
  · obtain ⟨func, k, fn, -, hk, hfn, hi⟩ := instrAt_eq_ok hi
    obtain rfl : k = 0 := (Int.ofNat_inj.mp hk).symm
    refine (coupled_of_compile h (Array.mem_of_getElem? hfn)).head ?_
    rwa [Array.getElem?_toList]
  all_goals
    obtain ⟨func, k, fn, hfunc, hpc, hfn, hi⟩ := instrAt_eq_ok hi
    have hcoupled := coupled_of_compile h (Array.mem_of_getElem? hfn)
    have hi' : fn.code.toList[k]? = some i := by rw [Array.getElem?_toList, hi]
  · rw [hfunc, hpc]
    refine hrests hfn (k := k + 1) fun j hj hop => ?_
    obtain ⟨n, i', hn, hi'', hasks'⟩ := hcoupled.awaits hj hop
    obtain rfl : k = n := by omega
    obtain rfl := Option.some.inj (hi'.symm.trans hi'')
    rw [hasks] at hasks'
    cases hasks'
  · obtain ⟨n, ha, hle, htarget⟩ := hcoupled.jumps hi' hjump
    have hlands := Program.target_of_checkInstr
      (Program.checkInstr_of_check (compile_check h) hfn hi) hjump
    have hsmall := hsize fn (Array.mem_of_getElem? hfn)
    rw [Array.length_toList] at hle
    have hn : i.a.toInt = n := by
      rw [ha]
      exact toInt_ofInt_of_lands hle hsmall (ha ▸ hlands.1)
    rw [hfunc, hpc, hn]
    exact hrests hfn (k := k + n) htarget
  · obtain ⟨j, hj, hop⟩ := hcoupled.asks hi' hasks
    have hthere := Machine.instrAt_of_getElem? hfn hj fr.base
    refine ⟨j, ?_, hop⟩
    rw [← hthere]
    simp [hfunc, hpc]

end TileMind
