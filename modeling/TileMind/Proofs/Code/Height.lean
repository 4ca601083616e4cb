import Mathlib.Tactic.Linarith
import TileMind.Proofs.Code.Emission

/-!
# TileMind.Proofs.Code.Height

Stack heights of generated code. Run straight through, code changes the height by the sum of its
effects, so every place in it has one height (`heightAt`). Code is balanced when these heights are
right on every path: each instruction finds its operands, and a jump lands where the height is the
one it leaves.

* `Adds.append`: balanced code is put together from balanced pieces.
* `Row.adds_code`: the code of an expression is balanced at any height and adds one value.
* `adds_ruleBody`: the code of a rule up to its return is balanced and adds nothing.
-/

namespace TileMind

/-! ## Instructions as they are generated -/

theorem Op.ofByte?_byte (op : Op) : Op.ofByte? op.byte = some op := by
  cases op <;> decide

namespace Instr

@[simp] theorem op?_of (op : Op) (a b c : Int) : (Instr.of op a b c).op? = some op :=
  Op.ofByte?_byte op

@[simp] theorem a_of (op : Op) (a b c : Int) : (Instr.of op a b c).a = Int32.ofInt a := rfl
@[simp] theorem b_of (op : Op) (a b c : Int) : (Instr.of op a b c).b = Int32.ofInt b := rfl
@[simp] theorem c_of (op : Op) (a b c : Int) : (Instr.of op a b c).c = Int32.ofInt c := rfl

@[simp] theorem pushes_of (op : Op) (a b c : Int) : (Instr.of op a b c).pushes = op.pushes := by
  simp [pushes]

@[simp] theorem isJump_of (op : Op) (a b c : Int) : (Instr.of op a b c).isJump = op.isJump := by
  simp [isJump]

theorem pops_of (op : Op) (a b c : Int) {n : Nat} (h : op.pops = some n) :
    (Instr.of op a b c).pops = n := by
  simp [pops, h]

theorem pops_of_operand (op : Op) (a b c : Int) (h : op.pops = none) :
    (Instr.of op a b c).pops = (Int32.ofInt b).toInt := by
  simp [pops, h]

end Instr

theorem toInt_ofInt_of_lt {n : Nat} (h : n < 2 ^ 31) : (Int32.ofInt n).toInt = n :=
  Int32.toInt_ofInt_of_le (by omega) (by omega)

/-! ## Heights -/

/-- The change in height that code makes when run straight through. -/
def netEffect (code : List Instr) : Int := (code.map Instr.effect).sum

/-- The height at the `k`-th instruction, counted from the start of the code. -/
def heightAt (code : List Instr) (k : Nat) : Int := netEffect (code.take k)

@[simp] theorem netEffect_nil : netEffect [] = 0 := rfl

@[simp] theorem netEffect_cons (i : Instr) (code : List Instr) :
    netEffect (i :: code) = i.effect + netEffect code := rfl

@[simp] theorem netEffect_append (c d : List Instr) :
    netEffect (c ++ d) = netEffect c + netEffect d := by
  simp [netEffect]

@[simp] theorem heightAt_zero (code : List Instr) : heightAt code 0 = 0 := rfl

@[simp] theorem heightAt_cons_succ (i : Instr) (code : List Instr) (k : Nat) :
    heightAt (i :: code) (k + 1) = i.effect + heightAt code k := rfl

@[simp] theorem heightAt_length (code : List Instr) : heightAt code code.length = netEffect code := by
  simp [heightAt]

theorem heightAt_append_left {c d : List Instr} {k : Nat} (h : k ≤ c.length) :
    heightAt (c ++ d) k = heightAt c k := by
  simp [heightAt, List.take_append_of_le_length h]

theorem heightAt_append_right (c d : List Instr) (k : Nat) :
    heightAt (c ++ d) (c.length + k) = netEffect c + heightAt d k := by
  simp [heightAt, List.take_length_add_append]

theorem heightAt_succ {code : List Instr} {k : Nat} {i : Instr} (h : code[k]? = some i) :
    heightAt code (k + 1) = heightAt code k + i.effect := by
  simp [heightAt, List.take_add_one, h]

/-! ## Balanced code -/

/-- What the `k`-th instruction of `code` needs if the stack holds `h` values at the start of the
code. -/
structure Fits (code : List Instr) (h : Int) (k : Nat) (i : Instr) : Prop where
  known : ∃ op, i.op? = some op ∧ op ≠ .jump ∧ op ≠ .ret ∧ op ≠ .throw ∧ op ≠ .yield
  pops : 0 ≤ i.pops ∧ i.pops ≤ h + heightAt code k
  map : i.op? = some .mapSet → 3 ≤ h + heightAt code k
  call : i.op? = some .call ∨ i.op? = some .try → h + heightAt code k = 0 ∧ i.b = 0
  jump : i.isJump = true → ∃ d : Nat, 0 < d ∧ i.a = Int32.ofInt d ∧ k + d ≤ code.length ∧
    heightAt code (k + d) = heightAt code k + i.effect

def Balanced (code : List Instr) (h : Int) : Prop := ∀ k i, code[k]? = some i → Fits code h k i

theorem Fits.append_left {c : List Instr} {h : Int} {k : Nat} {i : Instr} (hf : Fits c h k i)
    (hk : k < c.length) (d : List Instr) : Fits (c ++ d) h k i := by
  have heq : heightAt (c ++ d) k = heightAt c k := heightAt_append_left hk.le
  refine ⟨hf.known, by rw [heq]; exact hf.pops, by rw [heq]; exact hf.map,
    by rw [heq]; exact hf.call, ?_⟩
  intro hj
  obtain ⟨dist, h0, ha, hle, hh⟩ := hf.jump hj
  refine ⟨dist, h0, ha, by rw [List.length_append]; omega, ?_⟩
  rw [heq, heightAt_append_left hle, hh]

theorem Fits.append_right {d : List Instr} {h : Int} {k : Nat} {i : Instr} (c : List Instr)
    (hf : Fits d (h + netEffect c) k i) : Fits (c ++ d) h (c.length + k) i := by
  have heq : h + heightAt (c ++ d) (c.length + k) = h + netEffect c + heightAt d k := by
    rw [heightAt_append_right, add_assoc]
  refine ⟨hf.known, by rw [heq]; exact hf.pops, by rw [heq]; exact hf.map,
    by rw [heq]; exact hf.call, ?_⟩
  intro hj
  obtain ⟨dist, h0, ha, hle, hh⟩ := hf.jump hj
  refine ⟨dist, h0, ha, by rw [List.length_append]; omega, ?_⟩
  rw [Nat.add_assoc, heightAt_append_right, heightAt_append_right, hh, add_assoc]

theorem balanced_nil (h : Int) : Balanced [] h := by
  intro k i hi
  cases hi

theorem balanced_append {c d : List Instr} {h : Int} (hc : Balanced c h)
    (hd : Balanced d (h + netEffect c)) : Balanced (c ++ d) h := by
  intro k i hi
  by_cases hk : k < c.length
  · rw [List.getElem?_append_left hk] at hi
    exact (hc k i hi).append_left hk d
  · obtain ⟨j, rfl⟩ := Nat.exists_eq_add_of_le (Nat.le_of_not_lt hk)
    rw [List.getElem?_append_right (by omega), Nat.add_sub_cancel_left] at hi
    exact (hd j i hi).append_right c

/-! ## Pieces of code -/

/-- Code that is balanced on a stack of height `h` and adds `n` values to it. -/
structure Adds (code : List Instr) (h n : Int) : Prop where
  balanced : Balanced code h
  net : netEffect code = n

theorem adds_nil (h : Int) : Adds [] h 0 := ⟨balanced_nil h, rfl⟩

theorem Adds.append {c d : List Instr} {h n m : Int} (hc : Adds c h n) (hd : Adds d (h + n) m) :
    Adds (c ++ d) h (n + m) := by
  refine ⟨balanced_append hc.balanced ?_, ?_⟩
  · rw [hc.net]
    exact hd.balanced
  · rw [netEffect_append, hc.net, hd.net]

/-- An opcode that neither leaves the straight path nor calls a function. -/
def Op.isPlain : Op → Bool
  | .jump | .ret | .throw | .yield | .call | .try | .jumpIfFalse | .jumpIfTrue | .whenEnd => false
  | _ => true

theorem adds_single {i : Instr} {op : Op} {h n : Int} (hop : i.op? = some op)
    (hplain : op.isPlain = true) (h0 : 0 ≤ i.pops) (hpops : i.pops ≤ h)
    (hmap : op = .mapSet → 3 ≤ h) (hn : i.effect = n) : Adds [i] h n := by
  refine ⟨?_, by simp [hn]⟩
  intro k j hj
  rcases k with _ | k
  · simp only [List.getElem?_cons_zero, Option.some.injEq] at hj
    subst hj
    refine ⟨⟨op, hop, ?_⟩, ⟨h0, by simpa using hpops⟩, ?_, ?_, ?_⟩
    · cases op <;> simp_all [Op.isPlain]
    · intro hm
      rw [hop, Option.some.injEq] at hm
      simpa using hmap hm
    · intro hm
      rw [hop, Option.some.injEq, Option.some.injEq] at hm
      rcases hm with rfl | rfl <;> cases hplain
    · intro hm
      simp only [Instr.isJump, hop, Option.map_some, Option.getD_some] at hm
      cases op <;> simp_all [Op.isPlain, Op.isJump]
  · simp at hj

theorem adds_of (op : Op) {a b c h : Int} {n : Nat} (hn : op.pops = some n)
    (hplain : op.isPlain = true) (hh : n ≤ h) (hmap : op = .mapSet → 3 ≤ h) :
    Adds [.of op a b c] h (op.pushes - n) := by
  have hp : (Instr.of op a b c).pops = n := Instr.pops_of op a b c hn
  refine adds_single (Instr.op?_of op a b c) hplain (by omega) (by omega) hmap ?_
  have hcall : op ≠ .call := by
    rintro rfl
    cases hplain
  simp [Instr.effect, hp, hcall]

theorem adds_hostCall {op : Op} (hop : op = .hostCall ∨ op = .hostCallAsync) {a c h : Int} {n : Nat}
    (hn : n < 2 ^ 31) (hh : n ≤ h) : Adds [.of op a n c] h (1 - n) := by
  have hpops : op.pops = none := by rcases hop with rfl | rfl <;> rfl
  have hp : (Instr.of op a n c).pops = n := by
    rw [Instr.pops_of_operand op a n c hpops, toInt_ofInt_of_lt hn]
  refine adds_single (Instr.op?_of op a n c) ?_ (by omega) (by omega) ?_ ?_
  · rcases hop with rfl | rfl <;> rfl
  · rintro rfl
    rcases hop with hop | hop <;> cases hop
  · rcases hop with rfl | rfl <;> simp [Instr.effect, hp, Op.pushes]

theorem adds_jump {op : Op} {rest : List Instr} {h d m : Int} {n : Nat} (hn : op.pops = some n)
    (hop : op = .jumpIfFalse ∨ op = .jumpIfTrue ∨ op = .whenEnd ∨ op = .try ∧ h = 0)
    (hh : n ≤ h) (hd : d = rest.length + 1) (hm : m = -n) (hrest : Adds rest (h + m) 0) :
    Adds (.of op d :: rest) h m := by
  have hp : (Instr.of op d).pops = n := Instr.pops_of op d 0 0 hn
  have he : (Instr.of op d).effect = m := by
    rcases hop with rfl | rfl | rfl | ⟨rfl, -⟩ <;> simp [Instr.effect, hp, Op.pushes, hm]
  refine ⟨?_, by rw [netEffect_cons, he, hrest.net, add_zero]⟩
  intro k j hj
  rcases k with _ | k
  · simp only [List.getElem?_cons_zero, Option.some.injEq] at hj
    subst hj
    refine ⟨⟨op, Instr.op?_of op d 0 0, ?_⟩, ⟨by omega, by simpa [hp] using hh⟩, ?_, ?_, ?_⟩
    · rcases hop with rfl | rfl | rfl | ⟨rfl, -⟩ <;> decide
    · intro hm
      rcases hop with rfl | rfl | rfl | ⟨rfl, -⟩ <;> simp at hm
    · intro hm
      rcases hop with rfl | rfl | rfl | ⟨rfl, h0⟩ <;> simp at hm
      exact ⟨by simpa using h0, rfl⟩
    · intro _
      refine ⟨rest.length + 1, by omega, by simp [hd], by simp, ?_⟩
      rw [Nat.zero_add, heightAt_cons_succ, heightAt_length, hrest.net]
      simp
  · rw [List.getElem?_cons_succ] at hj
    have hf : Fits ([Instr.of op d] ++ rest) h ([Instr.of op d].length + k) j := by
      apply Fits.append_right
      simpa [he] using hrest.balanced k j hj
    rwa [List.length_singleton, Nat.add_comm] at hf

/-! ## Expressions -/

theorem adds_const (g : Generated) (d : Datum) {h : Int} (hh : 0 ≤ h) :
    Adds [(g.const d).1] h 1 :=
  adds_of .pushConst rfl rfl (by simpa using hh) (by simp)

theorem adds_push (g : Generated) (s : Scalar) {h : Int} (hh : 0 ≤ h) : Adds (g.push s).1 h 1 :=
  adds_const g (.scalar s) hh

theorem adds_conversionCode (path : List Conversion) {h : Int} (hh : 1 ≤ h) :
    Adds (conversionCode path) h 0 := by
  induction path with
  | nil => exact adds_nil h
  | cons c path ih =>
    have hc : Adds [.of .hostCall c.fn (1 : Nat) 0] h (1 - (1 : Nat)) :=
      adds_hostCall (.inl rfl) (by decide) (by simpa using hh)
    exact hc.append (by simpa using ih)

theorem adds_overloadCode (o : Overload) {h : Int} {arity : Nat} (ha : arity < 2 ^ 31)
    (hh : arity ≤ h) : Adds (overloadCode o arity) h (1 - arity) := by
  unfold overloadCode
  split
  · have hcall : Adds [.of .hostCallAsync o.fn arity 0] h (1 - arity) :=
      adds_hostCall (.inr rfl) ha hh
    have hawait : Adds [.of .await] (h + (1 - arity)) 0 :=
      adds_of .await rfl rfl (by push_cast; omega) (by simp)
    simpa using hcall.append hawait
  · exact adds_hostCall (.inl rfl) ha hh

theorem adds_tileCallCode (t : Tile) (site : Nat) {h : Int} (hh : 1 ≤ h) :
    Adds (tileCallCode t site) h 0 := by
  unfold tileCallCode
  split
  · have hcall : Adds [.of .hostCallArgsAsync t.fn 0 site] h 0 :=
      adds_of .hostCallArgsAsync rfl rfl (by simpa using hh) (by simp)
    have hawait : Adds [.of .await] (h + 0) 0 :=
      adds_of .await rfl rfl (by simpa using hh) (by simp)
    exact hcall.append hawait
  · exact adds_of .hostCallArgs rfl rfl (by simpa using hh) (by simp)

theorem adds_shortCircuitCode (op : Row.BinaryOp) {left right : List Instr} {h : Int} (hh : 0 ≤ h)
    (hl : Adds left h 1) (hr : Adds right h 1) : Adds (shortCircuitCode op left right) h 1 := by
  have hdup : Adds [.of .dup] (h + 1) 1 :=
    adds_of .dup rfl rfl (by push_cast; omega) (by simp)
  have hpop : Adds [.of .pop] (h + 1) (-1) :=
    adds_of .pop rfl rfl (by push_cast; omega) (by simp)
  -- What is jumped over takes the left value off and puts the right one in its place.
  have hover : Adds (.of .pop :: right) (h + 1) 0 :=
    hpop.append (m := 1) (by simpa using hr)
  have hjump : Adds (.of (if op = .and then .jumpIfFalse else .jumpIfTrue) (right.length + 2) ::
      .of .pop :: right) (h + 2) (-1) := by
    refine adds_jump (n := 1) ?_ ?_ (by push_cast; omega) (by simp; omega) rfl (by simpa [add_assoc] using hover)
    · split <;> rfl
    · split <;> simp
  have := (hl.append hdup).append (m := -1) (by simpa [add_assoc] using hjump)
  simpa [shortCircuitCode] using this

namespace Row

theorem adds_converted (info : TypeInfo) {r : List Instr × Generated} {h : Int} (hh : 0 ≤ h)
    (hr : Adds r.1 h 1) : Adds (converted info r).1 h 1 :=
  hr.append (m := 0) (adds_conversionCode info.conversion (by omega))

theorem adds_typedCode (scope : RuleScope) (m : Mark) (g : Generated)
    {body : TypeInfo → Generated → List Instr × Generated} {h : Int} (hh : 0 ≤ h)
    (hbody : ∀ info, Adds (body info g).1 h 1) : Adds (typedCode scope m g body).1 h 1 := by
  unfold typedCode
  split
  · exact hbody _
  · exact adds_push _ _ hh

mutual

/-- The code of an expression adds its value. -/
theorem adds_code (scope : RuleScope) :
    ∀ (e : Expr) (g : Generated) {h : Int}, 0 ≤ h → Adds (code scope e g).1 h 1
  | .literal m value, g, h, hh => by
    rw [code]
    exact adds_typedCode scope m g hh fun info => adds_converted info hh (adds_push g value hh)
  | .variable m name, g, h, hh => by
    rw [code]
    refine adds_typedCode scope m g hh fun info => adds_converted info hh ?_
    exact adds_of .loadVar rfl rfl (by simpa using hh) (by simp)
  | .field m object name, g, h, hh => by
    rw [code]
    refine adds_typedCode scope m g hh fun info => adds_converted info hh ?_
    have hobj := adds_code scope object g hh
    have hkey := adds_push (code scope object g).2 (.string name) (h := h + 1) (by omega)
    exact (hobj.append hkey).append (adds_of .getField rfl rfl (by push_cast; omega) (by simp))
  | .assign m (.variable _ name) value, g, h, hh => by
    rw [code]
    refine adds_typedCode scope m g hh fun info => ?_
    have hval := adds_code scope value g hh
    have hconv := hval.append (adds_conversionCode info.conversion (by omega))
    have hdup : Adds [.of .dup] (h + (1 + 0)) 1 :=
      adds_of .dup rfl rfl (by push_cast; omega) (by simp)
    have hstore (a : Int) : Adds [.of .storeVar a] (h + (1 + 0) + 1) (-1) :=
      adds_of .storeVar rfl rfl (by push_cast; omega) (by simp)
    exact hconv.append (hdup.append (hstore _))
  | .assign m (.field _ object name) value, g, h, hh => by
    rw [code]
    refine adds_typedCode scope m g hh fun info => ?_
    have hobj := adds_code scope object g hh
    have hkey := hobj.append (adds_push (code scope object g).2 (.string name) (by omega))
    have hval := hkey.append (adds_code scope value
      ((code scope object g).2.push (.string name)).2 (by omega))
    have hconv := hval.append (adds_conversionCode info.conversion (by omega))
    exact hconv.append (adds_of .setField rfl rfl (by push_cast; omega) (by simp))
  | .assign m (.literal _ _) _, g, h, hh | .assign m (.unary _ _ _) _, g, h, hh
  | .assign m (.binary _ _ _ _) _, g, h, hh | .assign m (.assign _ _ _) _, g, h, hh
  | .assign m (.parameter _ _ _) _, g, h, hh | .assign m (.modifier _ _ _) _, g, h, hh
  | .assign m (.call _ _ _) _, g, h, hh | .assign m (.empty _) _, g, h, hh
  | .assign m (.error _ _) _, g, h, hh => by
    simp only [code]
    exact adds_typedCode scope m g hh fun _ => adds_push g .nil hh
  | .binary m op left right, g, h, hh => by
    rw [code]
    refine adds_typedCode scope m g hh fun info => ?_
    have hl := adds_code scope left g hh
    split
    · exact adds_converted info hh
        (adds_shortCircuitCode op hh hl (adds_code scope right _ hh))
    · split
      · exact adds_converted info hh (adds_push g .nil hh)
      · rename_i o _
        have hr := hl.append (adds_code scope right (code scope left g).2 (by omega))
        have hcall : Adds (overloadCode o 2) (h + (1 + 1)) (1 - (2 : Nat)) :=
          adds_overloadCode o (by decide) (by push_cast; omega)
        exact adds_converted info hh (hr.append hcall)
  | .unary m _ operand, g, h, hh => by
    rw [code]
    refine adds_typedCode scope m g hh fun info => ?_
    split
    · exact adds_converted info hh (adds_push g .nil hh)
    · rename_i o _
      have hcall : Adds (overloadCode o 1) (h + 1) (1 - (1 : Nat)) :=
        adds_overloadCode o (by decide) (by push_cast; omega)
      exact adds_converted info hh ((adds_code scope operand g hh).append hcall)
  | .parameter m _ value, g, h, hh => by
    rw [code]
    exact adds_typedCode scope m g hh fun info =>
      adds_converted info hh (adds_code scope value g hh)
  | .modifier m _ count, g, h, hh => by
    rw [code]
    exact adds_typedCode scope m g hh fun info =>
      adds_converted info hh (adds_push g (.int count) hh)
  | .call m tile args, g, h, hh => by
    rw [code]
    refine adds_typedCode scope m g hh fun info => adds_converted info hh ?_
    have hnew (a : Int) : Adds [.of .mapNew a] h 1 :=
      adds_of .mapNew rfl rfl (by simpa using hh) (by simp)
    have hargs (a : Int) (g : Generated) :=
      (hnew a).append (adds_argsCode scope args g (by omega))
    exact (hargs _ _).append (adds_tileCallCode tile _ (by omega))
  | .empty m, g, h, hh => by
    rw [code]
    exact adds_typedCode scope m g hh fun info => adds_converted info hh (adds_push g .void hh)
  | .error m _, g, h, hh => by
    rw [code]
    exact adds_typedCode scope m g hh fun info => adds_converted info hh (adds_push g .nil hh)
termination_by structural e => e

/-- Storing the bound slots of a call leaves the map where it is. -/
theorem adds_argsCode (scope : RuleScope) :
    ∀ (args : Args) (g : Generated) {h : Int}, 1 ≤ h → Adds (argsCode scope args g).1 h 0
  | .nil, g, h, _ => adds_nil h
  | .cons slot value rest, g, h, hh => by
    rw [argsCode]
    have hkey := adds_push g (.int slot) (h := h) (by omega)
    have hval := hkey.append (adds_code scope value (g.push (.int slot)).2 (by omega))
    have hset : Adds [.of .mapSet] (h + (1 + 1)) (-2) :=
      adds_of .mapSet rfl rfl (by push_cast; omega) (by omega)
    have hentry := hval.append hset
    exact hentry.append (adds_argsCode scope rest _ (by omega))
termination_by structural args => args

end

end Row

/-! ## Rules -/

theorem adds_call (func : Int) : Adds [.of .call func 0] 0 1 := by
  have hp : (Instr.of .call func 0).pops = 0 := Instr.pops_of_operand .call func 0 0 rfl
  have he : (Instr.of .call func 0).effect = 1 := by simp [Instr.effect, hp]
  refine ⟨?_, by simp [he]⟩
  intro k j hj
  rcases k with _ | k
  · simp only [List.getElem?_cons_zero, Option.some.injEq] at hj
    subst hj
    refine ⟨⟨.call, Instr.op?_of .call func 0 0, by decide⟩, by simp [hp], by simp, ?_, by simp [Op.isJump]⟩
    intro _
    exact ⟨by simp, rfl⟩
  · simp at hj

theorem adds_childCode (isolate : Bool) (child : Nat) :
    Adds (if isolate then [.of .try 4, .of .call child 0, .of .pop, .of .endTry]
      else [.of .call child 0, .of .pop]) 0 0 := by
  have hpop : Adds [.of .pop] (0 + 1) (-1) := adds_of .pop rfl rfl (by decide) (by simp)
  have hcall : Adds [.of .call child 0, .of .pop] 0 0 := (adds_call child).append hpop
  split
  · have hend : Adds [.of .endTry] (0 + 0) 0 := adds_of .endTry rfl rfl (by decide) (by simp)
    exact adds_jump (n := 0) rfl (by simp) (by decide) rfl rfl (hcall.append hend)
  · exact hcall

theorem adds_childrenCode (isolate : Bool) (children : List Nat) :
    Adds (childrenCode isolate children) 0 0 := by
  induction children with
  | nil => exact adds_nil 0
  | cons child children ih => exact (adds_childCode isolate child).append ih

/-- The code of a rule up to its return takes off whatever it puts on the stack. -/
theorem adds_ruleBody {cond action children : List Instr} (hcond : Adds cond 0 1)
    (haction : Adds action 0 1) (hchildren : Adds children 0 0) :
    ∃ body, ruleCode cond action children = body ++ [Instr.of .ret] ∧ Adds body 0 0 := by
  have hstart : Adds [.of .whenStart] 0 0 := adds_of .whenStart rfl rfl (by decide) (by simp)
  have hdo : Adds [.of .doStart] 0 0 := adds_of .doStart rfl rfl (by decide) (by simp)
  have hend : Adds [.of .doEnd] (0 + 1) (-1) := adds_of .doEnd rfl rfl (by decide) (by simp)
  have hover := ((hdo.append haction).append hend).append hchildren
  have hwhen : Adds (.of .whenEnd (action.length + children.length + 3) ::
      ([Instr.of .doStart] ++ action ++ [Instr.of .doEnd] ++ children)) (0 + (0 + 1)) (-1) :=
    adds_jump (n := 1) rfl (by simp) (by decide) (by simp; omega) rfl hover
  refine ⟨_, ?_, (hstart.append hcond).append hwhen⟩
  simp [ruleCode]

end TileMind
