import TileMind.Proofs.Code.Compile

/-!
# TileMind.Proofs.Code.ArgumentMaps

Where argument maps are on the operand stack. The map for the arguments of a call is made, filled and handed
over by the code of that call alone, so it is known of every place of generated code which values on the
stack are such maps.

* `Forms`: a piece of code, with what is on the stack before and after it.
* `Forms.placed`: what each of its instructions finds and leaves.
* `Row.forms_code`: the code of an expression leaves a value, whatever calls are under way.
* `length_layoutAt`: the stack is as high as there are values on it.
* `layouts_of_compile`: the functions of a compiled program.
-/

namespace TileMind

/-- What is on the operand stack: a value, or the map for the arguments of a call that is under way. -/
inductive StackSlot where
  | value
  | args
deriving DecidableEq, Repr

/-- What an instruction takes off the stack, or looks at. -/
def Op.takes (op : Op) (pops : Nat) : List StackSlot :=
  match op with
  | .mapSet => [.value, .value, .args]
  | .hostCallArgs | .hostCallArgsAsync => [.args]
  | _ => List.replicate pops .value

/-- What it leaves there instead. A call leaves the result of the called function. -/
def Op.gives : Op → List StackSlot
  | .mapNew | .mapSet => [.args]
  | .call => [.value]
  | op => List.replicate op.pushes .value

namespace Instr

def takes (i : Instr) : List StackSlot := (i.op?.map fun op => op.takes i.pops.toNat).getD []
def gives (i : Instr) : List StackSlot := (i.op?.map Op.gives).getD []

/-- What is on the stack after an instruction. -/
def relay (slots : List StackSlot) (i : Instr) : List StackSlot := i.gives ++ slots.drop i.takes.length

@[simp] theorem relay_takes (i : Instr) (slots : List StackSlot) :
    relay (i.takes ++ slots) i = i.gives ++ slots := by
  rw [relay, List.drop_left]

theorem takes_of {op : Op} (a b c : Int) {n : Nat} (h : op.pops = some n) :
    (Instr.of op a b c).takes = op.takes n := by
  simp [takes, pops_of op a b c h]

@[simp] theorem gives_of (op : Op) (a b c : Int) : (Instr.of op a b c).gives = op.gives := by
  simp [gives]

/-- What is taken and what is left make up the change in height. -/
theorem effect_eq_length {i : Instr} (hknown : i.op? ≠ none) (hpops : 0 ≤ i.pops) :
    i.effect = (i.gives.length : Int) - i.takes.length := by
  obtain ⟨op, hop⟩ := Option.ne_none_iff_exists'.mp hknown
  obtain ⟨n, hn⟩ := Int.eq_ofNat_of_zero_le hpops
  simp only [effect, takes, gives, pushes, hop, hn, Option.map_some, Option.getD_some, Int.toNat_natCast]
  simp only [pops, hop] at hn
  cases op <;> simp_all [Op.takes, Op.gives, Op.pushes, Op.pops]

end Instr

/-- What is on the stack at the `k`-th instruction of a function. -/
def layoutAt (code : List Instr) (k : Nat) : List StackSlot := (code.take k).foldl Instr.relay []

/-! ## Pieces of code -/

/-- Code that finds one stack and leaves another, along its jumps as well, which lead to its end. -/
inductive Forms : List Instr → List StackSlot → List StackSlot → Prop where
  | nil (slots : List StackSlot) : Forms [] slots slots
  | one {i : Instr} (straight : i.isJump = false) (slots : List StackSlot) :
      Forms [i] (i.takes ++ slots) (i.gives ++ slots)
  | past {i : Instr} {rest : List Instr} {slots : List StackSlot}
      (lands : i.a = Int32.ofInt (rest.length + 1))
      (stays : Forms rest (i.gives ++ slots) (i.gives ++ slots)) :
      Forms (i :: rest) (i.takes ++ slots) (i.gives ++ slots)
  | append {front back : List Instr} {before between after : List StackSlot}
      (first : Forms front before between) (second : Forms back between after) :
      Forms (front ++ back) before after

/-- What the `k`-th instruction finds and leaves if `before` is on the stack at the start of the code. -/
def PlacedAt (before : List StackSlot) (code : List Instr) (k : Nat) (i : Instr) : Prop :=
  ∃ slots, (code.take k).foldl Instr.relay before = i.takes ++ slots ∧
    (i.isJump = true → ∃ d : Nat, i.a = Int32.ofInt d ∧ k + d ≤ code.length ∧
      (code.take (k + d)).foldl Instr.relay before = i.gives ++ slots)

section

variable {code front back : List Instr} {before between after : List StackSlot} {k : Nat} {i : Instr}

theorem Forms.foldl_relay (h : Forms code before after) : code.foldl Instr.relay before = after := by
  induction h with
  | nil slots => rfl
  | one straight slots => simp
  | past lands stays ih => simpa using ih
  | append first second ih ih' => rw [List.foldl_append, ih, ih']

theorem PlacedAt.append_left (h : PlacedAt before front k i) (hk : k < front.length) (back : List Instr) :
    PlacedAt before (front ++ back) k i := by
  obtain ⟨slots, hfinds, hjump⟩ := h
  refine ⟨slots, by rwa [List.take_append_of_le_length hk.le], fun hi => ?_⟩
  obtain ⟨d, ha, hle, hthere⟩ := hjump hi
  exact ⟨d, ha, by rw [List.length_append]; omega, by rwa [List.take_append_of_le_length hle]⟩

theorem PlacedAt.append_right (hfront : front.foldl Instr.relay before = between)
    (h : PlacedAt between back k i) : PlacedAt before (front ++ back) (front.length + k) i := by
  have hat (n : Nat) : ((front ++ back).take (front.length + n)).foldl Instr.relay before =
      (back.take n).foldl Instr.relay between := by
    rw [List.take_length_add_append, List.foldl_append, hfront]
  obtain ⟨slots, hfinds, hjump⟩ := h
  refine ⟨slots, by rw [hat, hfinds], fun hi => ?_⟩
  obtain ⟨d, ha, hle, hthere⟩ := hjump hi
  exact ⟨d, ha, by rw [List.length_append]; omega, by rw [Nat.add_assoc, hat, hthere]⟩

theorem Forms.placed (h : Forms code before after) (hi : code[k]? = some i) : PlacedAt before code k i := by
  induction h generalizing k with
  | nil slots => cases hi
  | @one j straight slots =>
    obtain ⟨rfl, rfl⟩ : k = 0 ∧ j = i := by
      rcases k with _ | k
      · exact ⟨rfl, by simpa using hi⟩
      · simp at hi
    exact ⟨slots, rfl, fun hjump => by rw [straight] at hjump; cases hjump⟩
  | @past j rest slots lands stays ih =>
    rcases k with _ | k
    · obtain rfl : j = i := by simpa using hi
      refine ⟨slots, rfl, fun _ => ⟨rest.length + 1, lands, by simp, ?_⟩⟩
      simpa using stays.foldl_relay
    · have hstart : [j].foldl Instr.relay (j.takes ++ slots) = j.gives ++ slots := by simp
      have hright := (ih (by simpa using hi)).append_right hstart
      rwa [List.length_singleton, Nat.add_comm] at hright
  | @append front back before between after first second ih ih' =>
    by_cases hk : k < front.length
    · rw [List.getElem?_append_left hk] at hi
      exact (ih hi).append_left hk back
    · obtain ⟨j, rfl⟩ := Nat.exists_eq_add_of_le (Nat.le_of_not_lt hk)
      rw [List.getElem?_append_right (by omega), Nat.add_sub_cancel_left] at hi
      exact (ih' hi).append_right first.foldl_relay

end

/-! ## Instructions as they are generated -/

section

variable {slots : List StackSlot}

theorem forms_of (op : Op) (a b c : Int) {n : Nat} (hn : op.pops = some n) (hop : op.isJump = false)
    (slots : List StackSlot) : Forms [.of op a b c] (op.takes n ++ slots) (op.gives ++ slots) := by
  have hone := Forms.one (i := .of op a b c) (by simpa using hop) slots
  rwa [Instr.takes_of a b c hn, Instr.gives_of] at hone

theorem forms_hostCall {op : Op} (hop : op = .hostCall ∨ op = .hostCallAsync) (a c : Int) {n : Nat}
    (hn : n < 2 ^ 31) (slots : List StackSlot) :
    Forms [.of op a n c] (List.replicate n StackSlot.value ++ slots) (.value :: slots) := by
  have hpops : (Instr.of op a n c).pops = n := by
    have hnone : op.pops = none := by rcases hop with rfl | rfl <;> rfl
    rw [Instr.pops_of_operand op a n c hnone, toInt_ofInt_of_lt hn]
  have hone := Forms.one (i := .of op a n c) (by rcases hop with rfl | rfl <;> simp [Op.isJump]) slots
  rcases hop with rfl | rfl <;> simpa [Instr.takes, hpops, Op.takes, Op.gives, Op.pushes] using hone

theorem forms_jump (op : Op) {rest : List Instr} {d : Int} {n : Nat} (hn : op.pops = some n)
    (hd : d = rest.length + 1) (slots : List StackSlot)
    (hrest : Forms rest (op.gives ++ slots) (op.gives ++ slots)) :
    Forms (.of op d :: rest) (op.takes n ++ slots) (op.gives ++ slots) := by
  have hover : Forms (.of op d :: rest) ((Instr.of op d).takes ++ slots) ((Instr.of op d).gives ++ slots) :=
    .past (by simp [hd]) (by simpa using hrest)
  rwa [Instr.takes_of d 0 0 hn, Instr.gives_of] at hover

/-! ## Expressions -/

theorem forms_push (g : Generated) (s : Scalar) (slots : List StackSlot) :
    Forms (g.push s).1 slots (.value :: slots) :=
  forms_of .pushConst _ _ _ rfl rfl slots

theorem forms_conversionCode (path : List Conversion) (slots : List StackSlot) :
    Forms (conversionCode path) (.value :: slots) (.value :: slots) := by
  induction path with
  | nil => exact .nil _
  | cons c path ih => exact (forms_hostCall (n := 1) (.inl rfl) c.fn 0 (by decide) slots).append ih

theorem forms_overloadCode (o : Overload) (arity : Nat) (ha : arity < 2 ^ 31) (slots : List StackSlot) :
    Forms (overloadCode o arity) (List.replicate arity StackSlot.value ++ slots) (.value :: slots) := by
  unfold overloadCode
  split
  · exact (forms_hostCall (.inr rfl) o.fn 0 ha slots).append (forms_of .await 0 0 0 rfl rfl slots)
  · exact forms_hostCall (.inl rfl) o.fn 0 ha slots

theorem forms_tileCallCode (t : Tile) (site : Nat) (slots : List StackSlot) :
    Forms (tileCallCode t site) (.args :: slots) (.value :: slots) := by
  unfold tileCallCode
  split
  · exact (forms_of .hostCallArgsAsync t.fn 0 site rfl rfl slots).append (forms_of .await 0 0 0 rfl rfl slots)
  · exact forms_of .hostCallArgs t.fn 0 site rfl rfl slots

theorem forms_shortCircuitCode (op : Row.BinaryOp) {left right : List Instr}
    (hl : Forms left slots (.value :: slots)) (hr : Forms right slots (.value :: slots)) :
    Forms (shortCircuitCode op left right) slots (.value :: slots) := by
  have hdup : Forms [.of .dup] (.value :: slots) (.value :: .value :: slots) :=
    forms_of .dup 0 0 0 rfl rfl slots
  have hover : Forms (.of .pop :: right) (.value :: slots) (.value :: slots) :=
    (forms_of .pop 0 0 0 rfl rfl slots).append hr
  have hd : (right.length + 2 : Int) = ((Instr.of .pop :: right).length : Int) + 1 := by
    rw [List.length_cons]
    push_cast
    ring
  have hjump : Forms (.of (if op = .and then .jumpIfFalse else .jumpIfTrue) (right.length + 2) ::
      .of .pop :: right) (.value :: .value :: slots) (.value :: slots) := by
    split
    · exact forms_jump .jumpIfFalse (n := 1) rfl hd (.value :: slots) hover
    · exact forms_jump .jumpIfTrue (n := 1) rfl hd (.value :: slots) hover
  simpa [shortCircuitCode] using hl.append (hdup.append hjump)

namespace Row

theorem forms_converted (info : TypeInfo) {r : List Instr × Generated}
    (hr : Forms r.1 slots (.value :: slots)) : Forms (converted info r).1 slots (.value :: slots) :=
  hr.append (forms_conversionCode info.conversion slots)

theorem forms_typedCode (scope : RuleScope) (m : Mark) (g : Generated)
    {body : TypeInfo → Generated → List Instr × Generated}
    (hbody : ∀ info, Forms (body info g).1 slots (.value :: slots)) :
    Forms (typedCode scope m g body).1 slots (.value :: slots) := by
  unfold typedCode
  split
  · exact hbody _
  · exact forms_push _ _ slots

mutual

/-- The code of an expression leaves a value on whatever is on the stack. -/
theorem forms_code (scope : RuleScope) : ∀ (e : Expr) (g : Generated) (slots : List StackSlot),
    Forms (code scope e g).1 slots (.value :: slots)
  | .literal m value, g, slots => by
    rw [code]
    exact forms_typedCode scope m g fun info => forms_converted info (forms_push g value slots)
  | .variable m name, g, slots => by
    rw [code]
    refine forms_typedCode scope m g fun info => forms_converted info ?_
    exact forms_of .loadVar _ _ _ rfl rfl slots
  | .field m object name, g, slots => by
    rw [code]
    refine forms_typedCode scope m g fun info => forms_converted info ?_
    have hkey := forms_push (code scope object g).2 (.string name) (.value :: slots)
    exact ((forms_code scope object g slots).append hkey).append (forms_of .getField 0 0 0 rfl rfl slots)
  | .assign m (.variable _ name) value, g, slots => by
    rw [code]
    refine forms_typedCode scope m g fun info => ?_
    have hconv := (forms_code scope value g slots).append (forms_conversionCode info.conversion slots)
    have hstore (a : Int) : Forms [.of .dup, .of .storeVar a] (.value :: slots) (.value :: slots) :=
      (forms_of .dup 0 0 0 rfl rfl slots).append (forms_of .storeVar a 0 0 rfl rfl (.value :: slots))
    exact hconv.append (hstore _)
  | .assign m (.field _ object name) value, g, slots => by
    rw [code]
    refine forms_typedCode scope m g fun info => ?_
    have hkey := (forms_code scope object g slots).append
      (forms_push (code scope object g).2 (.string name) (.value :: slots))
    have hval := hkey.append (forms_code scope value ((code scope object g).2.push (.string name)).2
      (.value :: .value :: slots))
    have hconv := hval.append (forms_conversionCode info.conversion (.value :: .value :: slots))
    exact hconv.append (forms_of .setField 0 0 0 rfl rfl slots)
  | .assign m (.literal _ _) _, g, slots | .assign m (.unary _ _ _) _, g, slots
  | .assign m (.binary _ _ _ _) _, g, slots | .assign m (.assign _ _ _) _, g, slots
  | .assign m (.parameter _ _ _) _, g, slots | .assign m (.modifier _ _ _) _, g, slots
  | .assign m (.call _ _ _) _, g, slots | .assign m (.empty _) _, g, slots
  | .assign m (.error _ _) _, g, slots => by
    simp only [code]
    exact forms_typedCode scope m g fun _ => forms_push g .nil slots
  | .binary m op left right, g, slots => by
    rw [code]
    refine forms_typedCode scope m g fun info => ?_
    have hl := forms_code scope left g slots
    split
    · exact forms_converted info
        (forms_shortCircuitCode op hl (forms_code scope right (code scope left g).2 slots))
    · split
      · exact forms_converted info (forms_push g .nil slots)
      · rename_i o _
        have hr := hl.append (forms_code scope right (code scope left g).2 (.value :: slots))
        exact forms_converted info (hr.append (forms_overloadCode o 2 (by decide) slots))
  | .unary m _ operand, g, slots => by
    rw [code]
    refine forms_typedCode scope m g fun info => ?_
    split
    · exact forms_converted info (forms_push g .nil slots)
    · rename_i o _
      have hoperand := forms_code scope operand g slots
      exact forms_converted info (hoperand.append (forms_overloadCode o 1 (by decide) slots))
  | .parameter m _ value, g, slots => by
    rw [code]
    exact forms_typedCode scope m g fun info => forms_converted info (forms_code scope value g slots)
  | .modifier m _ count, g, slots => by
    rw [code]
    exact forms_typedCode scope m g fun info => forms_converted info (forms_push g (.int count) slots)
  | .call m tile args, g, slots => by
    rw [code]
    refine forms_typedCode scope m g fun info => forms_converted info ?_
    have hargs (a : Int) (g : Generated) :=
      (forms_of .mapNew a 0 0 rfl rfl slots).append (forms_argsCode scope args g slots)
    exact (hargs _ _).append (forms_tileCallCode tile _ slots)
  | .empty m, g, slots => by
    rw [code]
    exact forms_typedCode scope m g fun info => forms_converted info (forms_push g .void slots)
  | .error m _, g, slots => by
    rw [code]
    exact forms_typedCode scope m g fun info => forms_converted info (forms_push g .nil slots)
termination_by structural e => e

/-- Storing the bound slots of a call leaves its map where it is. -/
theorem forms_argsCode (scope : RuleScope) : ∀ (args : Args) (g : Generated) (slots : List StackSlot),
    Forms (argsCode scope args g).1 (.args :: slots) (.args :: slots)
  | .nil, _, slots => .nil _
  | .cons slot value rest, g, slots => by
    rw [argsCode]
    have hkey := forms_push g (.int slot) (.args :: slots)
    have hval := hkey.append
      (forms_code scope value (g.push (.int slot)).2 (.value :: .args :: slots))
    have hentry := hval.append (forms_of .mapSet 0 0 0 rfl rfl slots)
    exact hentry.append (forms_argsCode scope rest _ slots)
termination_by structural args => args

end

end Row

/-! ## Rules -/

theorem forms_call (func : Int) : Forms [.of .call func 0] [] [.value] := by
  have hone := Forms.one (i := .of .call func 0) (by simp [Op.isJump]) []
  have hpops : (Instr.of .call func 0).pops = 0 := Instr.pops_of_operand .call func 0 0 rfl
  simpa [Instr.takes, hpops, Op.takes, Op.gives] using hone

theorem forms_childrenCode (isolate : Bool) (children : List Nat) :
    Forms (childrenCode isolate children) [] [] := by
  have hcall (child : Nat) : Forms [.of .call child 0, .of .pop] [] [] :=
    (forms_call child).append (forms_of .pop 0 0 0 rfl rfl [])
  induction children with
  | nil => exact .nil []
  | cons child children ih =>
    refine Forms.append ?_ ih
    cases isolate with
    | false => exact hcall child
    | true =>
      have hend : Forms [.of .endTry] [] [] := forms_of .endTry 0 0 0 rfl rfl []
      exact forms_jump .try (n := 0) rfl rfl [] ((hcall child).append hend)

theorem forms_ruleCode {cond action children : List Instr} (hcond : Forms cond [] [.value])
    (haction : Forms action [] [.value]) (hchildren : Forms children [] []) :
    Forms (ruleCode cond action children) [] [] := by
  have hmark (op : Op) (h : op.pops = some 0 ∧ op.isJump = false ∧ op.takes 0 = [] ∧ op.gives = []) :
      Forms [.of op] [] [] := by
    have hone := forms_of op 0 0 0 h.1 h.2.1 []
    rwa [h.2.2.1, h.2.2.2] at hone
  have hend : Forms [.of .doEnd] [.value] [] := forms_of .doEnd 0 0 0 rfl rfl []
  have hover := (((hmark .doStart (by decide)).append haction).append hend).append hchildren
  have hwhen : Forms (.of .whenEnd (action.length + children.length + 3) ::
      ([Instr.of .doStart] ++ action ++ [Instr.of .doEnd] ++ children)) [.value] [] := by
    refine forms_jump .whenEnd (n := 1) rfl ?_ [] hover
    simp only [List.length_append, List.length_cons, List.length_nil]
    push_cast
    ring
  have hall := (((hmark .whenStart (by decide)).append hcond).append hwhen).append (hmark .ret (by decide))
  simpa [ruleCode] using hall

end

section

variable {σ : Type} (env : CompileEnv σ)

theorem forms_resolvedRule (job : RuleJob) (p : Progress) :
    Forms (resolvedRule env job p).1.code.toList [] [] := by
  obtain ⟨types, cond, action, g, c, hcond, hcode⟩ := resolvedRule_code env job p
  have hc : Forms c.1 [] [.value] := by
    rcases hcond with rfl | rfl
    · exact forms_push g _ []
    · exact Row.forms_code _ cond g []
  rw [hcode]
  exact forms_ruleCode hc (Row.forms_code ⟨types, job.chain, job.path⟩ action c.2 [])
    (forms_childrenCode env.isolateChildren job.children)

variable {env} {d : BrainDef} {p : Program} {diags : Diagnostics}

theorem forms_of_compile (h : compile env d = .ok (p, diags)) {fn : Function} (hfn : fn ∈ p.functions) :
    Forms fn.code.toList [] [] := by
  obtain ⟨job, q, rfl⟩ := exists_resolvedRule h hfn
  exact forms_resolvedRule env job q

end

/-! ## Places -/

section

variable {code : List Instr} {after : List StackSlot} {k : Nat} {i : Instr}

theorem layoutAt_succ (hi : code[k]? = some i) : layoutAt code (k + 1) = Instr.relay (layoutAt code k) i := by
  simp [layoutAt, List.take_add_one, hi]

theorem length_layoutAt (hshape : RuleShaped code) (hforms : Forms code [] after) (hk : k ≤ code.length) :
    ((layoutAt code k).length : Int) = heightAt code k := by
  induction k with
  | zero => rfl
  | succ k ih =>
    have hi := List.getElem?_eq_getElem (Nat.lt_of_succ_le hk)
    obtain ⟨slots, hfinds, -⟩ := hforms.placed hi
    have hknown : code[k].op? ≠ none ∧ 0 ≤ code[k].pops := by
      rcases hshape.place k _ hi with hin | hr
      · obtain ⟨op, hop, -⟩ := hin.fits.known
        exact ⟨by simp [hop], hin.fits.pops.1⟩
      · simp [hr.op, Instr.pops, Op.pops]
    have hheight := ih (Nat.le_of_succ_le hk)
    have hat : layoutAt code k = code[k].takes ++ slots := hfinds
    rw [layoutAt_succ hi, heightAt_succ hi, ← hheight, hat, Instr.relay_takes,
      Instr.effect_eq_length hknown.1 hknown.2]
    simp only [List.length_append]
    push_cast
    ring

end

/-- Functions that find argument maps where they have put them. -/
structure Program.Layouts (p : Program) : Prop where
  place : ∀ {func : Int} {fn : Function} {k : Nat} {i : Instr}, p.function? func = some fn →
    fn.code.toList[k]? = some i → ∃ slots, layoutAt fn.code.toList k = i.takes ++ slots ∧
      layoutAt fn.code.toList (k + 1) = i.gives ++ slots ∧
      ∀ d : Nat, i.isJump = true → i.a.toInt = d → layoutAt fn.code.toList (k + d) = i.gives ++ slots
  length : ∀ {func : Int} {fn : Function} {k : Nat}, p.function? func = some fn → k ≤ fn.code.size →
    ((layoutAt fn.code.toList k).length : Int) = heightAt fn.code.toList k

theorem layouts_of_compile {σ : Type} {env : CompileEnv σ} {d : BrainDef} {p : Program}
    {diags : Diagnostics} (h : compile env d = .ok (p, diags))
    (hsize : ∀ fn ∈ p.functions, fn.code.size < 2 ^ 32) : p.Layouts := by
  have hfound : ∀ {func : Int} {fn : Function}, p.function? func = some fn →
      fn.code.size < 2 ^ 32 ∧ RuleShaped fn.code.toList ∧ Forms fn.code.toList [] [] := by
    intro func fn hf
    obtain ⟨n, -, hn⟩ := Program.function?_eq_some_iff.mp hf
    have hmem := Array.mem_of_getElem? hn
    exact ⟨hsize fn hmem, (compile_ruleShaped h hn (hsize fn hmem)).1, forms_of_compile h hmem⟩
  refine ⟨fun {func fn k i} hf hi => ?_, fun {func fn k} hf hk => ?_⟩
  · obtain ⟨hlen, -, hforms⟩ := hfound hf
    obtain ⟨slots, hfinds, hjump⟩ := hforms.placed hi
    have hat : layoutAt fn.code.toList k = i.takes ++ slots := hfinds
    refine ⟨slots, hat, by rw [layoutAt_succ hi, hat, Instr.relay_takes], fun d hj hd => ?_⟩
    obtain ⟨d', ha, hle, hthere⟩ := hjump hj
    rw [Array.length_toList] at hle
    -- The distance of the jump has not been cut, since it leads forward.
    have hsame : (Int32.ofInt d').toInt = d' :=
      toInt_ofInt_of_lands hle hlen (by rw [← ha, hd]; positivity)
    have hdd : d = d' := by
      rw [ha, hsame] at hd
      exact_mod_cast hd.symm
    rw [hdd]
    exact hthere
  · obtain ⟨-, hshape, hforms⟩ := hfound hf
    exact length_layoutAt hshape hforms (by simpa using hk)

end TileMind
