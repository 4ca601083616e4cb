import TileMind.Code.Compile
import TileMind.Proofs.Code.Height
import TileMind.Proofs.Code.Survey
import TileMind.Proofs.Program.Check

/-!
# TileMind.Proofs.Code.Compile

What every function of a compiled program is like.

* `RuleShaped`: what every place in the code of a rule can be.
* `RuleShaped.reaches_eq`: every path comes to a place with the height of that place.
* `heightAt_le_maxStackDepth`: no place is higher than the computed depth.
* `exists_resolvedRule`: each of the functions of a compiled program is a compiled rule.
* `compile_check`: a compiled program is accepted.
* `compile_ruleShaped`: each function has the shape of a rule, and the depth recorded for it
  is the one computed from its code.
-/

namespace TileMind

/-! ## The shape of the code of a rule

The depth computed for such code is one that its heights never exceed.
-/

/-- A place before the end: the instruction fits, and a jump stays inside the code. -/
structure Inside (code : List Instr) (k : Nat) (i : Instr) : Prop where
  fits : Fits code 0 k i
  next : k + 1 < code.length
  jump : i.isJump = true → ∃ d : Nat, 0 < d ∧ i.a.toInt = d ∧ k + d < code.length ∧
    heightAt code (k + d) = heightAt code k + i.effect

/-- The last place, which returns with nothing on the stack. -/
structure AtReturn (code : List Instr) (k : Nat) (i : Instr) : Prop where
  op : i.op? = some .ret
  height : heightAt code k = 0
  last : k + 1 = code.length

/-- Code all of whose places are like those of a rule. -/
structure RuleShaped (code : List Instr) : Prop where
  pos : 0 < code.length
  short : code.length < 2 ^ 32
  place : ∀ k i, code[k]? = some i → Inside code k i ∨ AtReturn code k i

/-- Every jump of the code stays inside it. -/
def Lands (code : List Instr) : Prop :=
  ∀ (k : Nat) i, code[k]? = some i → i.isJump = true →
    0 ≤ (k : Int) + i.a.toInt ∧ (k : Int) + i.a.toInt ≤ code.length

/-- A distance that was cut to 32 bits leads out of the code, unless the cut left it as it was. -/
theorem toInt_ofInt_of_lands {k d n : Nat} (hd : k + d ≤ n) (hn : n < 2 ^ 32)
    (h : 0 ≤ (k : Int) + (Int32.ofInt d).toInt) : (Int32.ofInt d).toInt = d := by
  rw [Int32.toInt_ofInt] at h ⊢
  have hcut := Int.bmod_emod (x := (d : Int)) (m := Int32.size)
  have hlt := Int.bmod_lt (x := (d : Int)) (m := Int32.size) (by decide)
  have hle := Int.le_bmod (x := (d : Int)) (m := Int32.size) (by decide)
  simp only [Int32.size] at *
  omega

theorem ruleShaped_of_adds {body : List Instr} (hbody : Adds body 0 0)
    (hlands : Lands (body ++ [Instr.of .ret])) (hlen : (body ++ [Instr.of .ret]).length < 2 ^ 32) :
    RuleShaped (body ++ [Instr.of .ret]) := by
  refine ⟨by simp, hlen, ?_⟩
  intro k i hi
  by_cases hk : k < body.length
  · left
    have hi' : body[k]? = some i := by rwa [List.getElem?_append_left hk] at hi
    have hf := hbody.balanced k i hi'
    refine ⟨hf.append_left hk _, by simpa using hk, ?_⟩
    intro hj
    obtain ⟨d, h0, ha, hle, hh⟩ := hf.jump hj
    have hd : k + d ≤ (body ++ [Instr.of .ret]).length := by simp; omega
    refine ⟨d, h0, ?_, by simp; omega, ?_⟩
    · rw [ha]
      apply toInt_ofInt_of_lands hd hlen
      rw [← ha]
      exact (hlands k i hi hj).1
    · rw [heightAt_append_left hle, heightAt_append_left hk.le, hh]
  · right
    have hlt : k < (body ++ [Instr.of .ret]).length := (List.getElem?_eq_some_iff.mp hi).1
    have hk' : k = body.length := by
      rw [List.length_append, List.length_singleton] at hlt
      omega
    subst hk'
    simp only [List.getElem?_concat_length, Option.some.injEq] at hi
    subst hi
    refine ⟨Instr.op?_of .ret 0 0 0, ?_, by simp⟩
    rw [heightAt_append_left (by omega), heightAt_length, hbody.net]

/-! ## Paths through the code of a rule -/

section

variable {code : List Instr} {k : Nat} {i : Instr} {x y : Nat × Int}

theorem Inside.after_eq (h : Inside code k i) :
    i.after (heightAt code k) = heightAt code k + i.effect := by
  have := h.fits.pops
  rw [Instr.after, if_neg (by omega)]

theorem Inside.nexts (h : Inside code k i) : ((k + 1 : Nat) : Int) ∈ i.nexts k ∧
    ∀ pc ∈ i.nexts k, pc = (k + 1 : Nat) ∨ i.isJump = true ∧ pc = k + i.a.toInt := by
  obtain ⟨op, hop, hne⟩ := h.fits.known
  simp only [Instr.nexts, Instr.isJump, hop, Option.map_some, Option.getD_some]
  cases op <;> simp [Op.isJump] at hne ⊢

theorem RuleShaped.flows_next (hshape : RuleShaped code) (hk : k + 1 < code.length) :
    Flows code.toArray (k, heightAt code k) (k + 1, heightAt code (k + 1)) := by
  obtain ⟨i, hi⟩ : ∃ i, code[k]? = some i := ⟨_, List.getElem?_eq_getElem (by omega)⟩
  rcases hshape.place k i hi with hin | hr
  · exact ⟨by simpa using hk, i, by simpa using hi, hin.nexts.1, by
      rw [hin.after_eq, heightAt_succ hi]⟩
  · have := hr.last
    omega

theorem RuleShaped.flows (hshape : RuleShaped code) (h : Flows code.toArray x y)
    (hx : x.2 = heightAt code x.1) : x.1 < y.1 ∧ y.2 = heightAt code y.1 := by
  obtain ⟨i, hi, hnext, hy⟩ := h.along
  rw [List.getElem?_toArray] at hi
  rcases hshape.place x.1 i hi with hin | hr
  · rw [hx, hin.after_eq] at hy
    obtain heq | ⟨hj, heq⟩ := hin.nexts.2 _ hnext
    · have hy1 : y.1 = x.1 + 1 := by omega
      exact ⟨by omega, by rw [hy, hy1, heightAt_succ hi]⟩
    · obtain ⟨d, hd, ha, -, hheight⟩ := hin.jump hj
      have hy1 : y.1 = x.1 + d := by omega
      exact ⟨by omega, by rw [hy, hy1, hheight]⟩
  · simp [Instr.nexts, hr.op] at hnext

/-- Every path comes to a place with the height of that place. -/
theorem RuleShaped.reaches_eq (hshape : RuleShaped code) (h : Reaches code.toArray x) :
    x.2 = heightAt code x.1 := by
  induction h with
  | refl => rfl
  | tail _ hxy ih => exact (hshape.flows hxy ih).2

theorem RuleShaped.reaches (hshape : RuleShaped code) (hk : k < code.length) :
    Reaches code.toArray (k, heightAt code k) := by
  induction k with
  | zero => exact .refl
  | succ k ih => exact (ih (by omega)).tail (hshape.flows_next hk)

theorem RuleShaped.heightAt_le (hshape : RuleShaped code) (hk : k ≤ code.length) : heightAt code k ≤ 2 * k := by
  induction k with
  | zero => simp
  | succ k ih =>
    obtain ⟨i, hi⟩ : ∃ i, code[k]? = some i := ⟨_, List.getElem?_eq_getElem hk⟩
    have hle := ih (by omega)
    have heffect : i.effect ≤ 2 := by
      have hpushes := i.pushes_le
      have hpops : 0 ≤ i.pops := by
        rcases hshape.place k i hi with hin | hr
        · exact hin.fits.pops.1
        · simp [Instr.pops, hr.op, Op.pops]
      unfold Instr.effect
      split <;> omega
    rw [heightAt_succ hi]
    push_cast
    omega

/-- The heights of code whose places can be told apart by 32 bits fit 64 bits. -/
theorem RuleShaped.narrow (hshape : RuleShaped code) : Survey.Narrow code.toArray := by
  intro k h i hreach hi
  rw [List.getElem?_toArray] at hi
  obtain rfl : h = heightAt code k := hshape.reaches_eq hreach
  have hk := (List.getElem?_eq_some_iff.mp hi).1
  have hshort := hshape.short
  have hle := hshape.heightAt_le hk.le
  have hnext := hshape.heightAt_le (k := k + 1) hk
  rcases hshape.place k i hi with hin | hr
  · rw [hin.after_eq, ← heightAt_succ hi]
    have hpops := hin.fits.pops.1
    omega
  · have hpops : i.pops = 0 := by simp [Instr.pops, hr.op, Op.pops]
    have heffect : i.effect = 0 := by simp [Instr.effect, hpops, hr.op, Instr.pushes, Op.pushes]
    rw [Instr.after, hr.height, hpops, heffect]
    decide

/-- The computed depth is an upper bound of the heights. -/
theorem heightAt_le_maxStackDepth (hshape : RuleShaped code) (hk : k ≤ code.length) :
    heightAt code k ≤ maxStackDepth code.toArray := by
  have hgreatest := isGreatest_maxStackDepth hshape.narrow
  have h0 : 0 ≤ maxStackDepth code.toArray := hgreatest.2 (.inl rfl)
  cases k with
  | zero => exact h0
  | succ k =>
    obtain ⟨i, hi⟩ : ∃ i, code[k]? = some i := ⟨_, List.getElem?_eq_getElem (by omega)⟩
    have hle := hgreatest.2 (.inr ⟨k, _, i, hshape.reaches hk, by simpa using hi, rfl⟩)
    rcases hshape.place k i hi with hin | hr
    · rwa [hin.after_eq, ← heightAt_succ hi] at hle
    · have heffect : i.effect = 0 := by
        simp [Instr.effect, Instr.pops, hr.op, Instr.pushes, Op.pushes, Op.pops]
      rw [heightAt_succ hi, hr.height, heffect]
      exact h0

end

/-! ## Compiled functions -/

section

variable {σ : Type} (env : CompileEnv σ)

/-- A compiled rule is made of the code of its condition, or of `true` where it has none, of its action and
of its children. -/
theorem resolvedRule_code (job : RuleJob) (p : Progress) : ∃ types cond action g c,
    (c = g.push (.bool true) ∨ c = Row.code ⟨types, job.chain, job.path⟩ cond g) ∧
      (resolvedRule env job p).1.code = (ruleCode c.1 (Row.code ⟨types, job.chain, job.path⟩ action c.2).1
        (childrenCode env.isolateChildren job.children)).toArray := by
  unfold resolvedRule
  generalize readRule env job p = rows
  obtain ⟨cond, action, types, q⟩ := rows
  dsimp only
  refine ⟨types, cond, action, q.generated, _, ?_, rfl⟩
  split
  · exact .inl rfl
  · exact .inr rfl

/-- What the rows and children of a compiled rule add is taken off again, and it returns. -/
theorem resolvedRule_adds (job : RuleJob) (p : Progress) :
    ∃ body, (resolvedRule env job p).1.code = (body ++ [.of .ret]).toArray ∧ Adds body 0 0 ∧
      (resolvedRule env job p).1.maxStack = maxStackDepth (resolvedRule env job p).1.code := by
  obtain ⟨types, cond, action, g, c, hcond, hcode⟩ := resolvedRule_code env job p
  have hc : Adds c.1 0 1 := by
    rcases hcond with rfl | rfl
    · exact adds_push g _ le_rfl
    · exact Row.adds_code _ cond g le_rfl
  obtain ⟨body, hbody, hadds⟩ := adds_ruleBody hc
    (Row.adds_code ⟨types, job.chain, job.path⟩ action c.2 le_rfl)
    (adds_childrenCode env.isolateChildren job.children)
  exact ⟨body, by rw [hcode, hbody], hadds, rfl⟩

variable {env} {d : BrainDef} {p : Program} {diags : Diagnostics}

theorem compile_eq_ok (h : compile env d = .ok (p, diags)) :
    p.check = .ok () ∧ ∃ pages entry plan', plan env d = .ok (pages, entry, plan') ∧
      p.functions = (resolveEach (resolvedRule env) plan'.jobs
        { generated := { names := plan'.names, diags := plan'.diags } }).1.toArray := by
  unfold compile at h
  cases hplan : plan env d with
  | error e =>
    rw [hplan] at h
    cases h
  | ok planned =>
    obtain ⟨pages, entry, plan'⟩ := planned
    rw [hplan] at h
    simp only [bind, Except.bind, compileRules_eq] at h
    split at h
    · rename_i hcheck
      simp only [pure, Except.pure, Except.ok.injEq, Prod.mk.injEq] at h
      obtain ⟨rfl, -⟩ := h
      exact ⟨hcheck, pages, entry, plan', rfl, rfl⟩
    · cases h

theorem compile_check (h : compile env d = .ok (p, diags)) : p.check = .ok () := (compile_eq_ok h).1

theorem exists_resolvedRule_of_mem {jobs : List RuleJob} {before : Progress} {fn : Function}
    (hfn : fn ∈ (resolveEach (resolvedRule env) jobs before).1) :
    ∃ job q, fn = (resolvedRule env job q).1 := by
  induction jobs generalizing before with
  | nil => cases hfn
  | cons job jobs ih =>
    rw [resolveEach] at hfn
    rcases List.mem_cons.mp hfn with rfl | hfn
    · exact ⟨job, _, rfl⟩
    · exact ih hfn

theorem exists_resolvedRule (h : compile env d = .ok (p, diags)) {fn : Function} (hfn : fn ∈ p.functions) :
    ∃ job q, fn = (resolvedRule env job q).1 := by
  obtain ⟨-, pages, entry, plan', -, hfunctions⟩ := compile_eq_ok h
  rw [hfunctions, List.mem_toArray] at hfn
  exact exists_resolvedRule_of_mem hfn

theorem compile_adds (h : compile env d = .ok (p, diags)) {fn : Function} (hfn : fn ∈ p.functions) :
    ∃ body, fn.code = (body ++ [.of .ret]).toArray ∧ Adds body 0 0 ∧
      fn.maxStack = maxStackDepth fn.code := by
  obtain ⟨job, q, rfl⟩ := exists_resolvedRule h hfn
  exact resolvedRule_adds env job q

/-- A function of a compiled program, as long as its places can be told apart by 32 bits. -/
theorem compile_ruleShaped (h : compile env d = .ok (p, diags)) {func : Nat} {fn : Function}
    (hf : p.functions[func]? = some fn) (hsize : fn.code.size < 2 ^ 32) :
    RuleShaped fn.code.toList ∧ fn.maxStack = maxStackDepth fn.code.toList.toArray := by
  obtain ⟨body, hcode, hbody, hmax⟩ := compile_adds h (Array.mem_of_getElem? hf)
  have hlands : Lands (body ++ [Instr.of .ret]) := by
    intro k i hi hj
    have hk : fn.code[k]? = some i := by
      rw [hcode, List.getElem?_toArray]
      exact hi
    have htarget := Program.target_of_checkInstr (Program.checkInstr_of_check (compile_check h) hf hk) hj
    simpa [hcode] using htarget
  have hlen : (body ++ [Instr.of .ret]).length < 2 ^ 32 := by
    rw [hcode] at hsize
    exact hsize
  refine ⟨?_, by simpa using hmax⟩
  rw [hcode]
  exact ruleShaped_of_adds hbody hlands hlen

end

end TileMind
