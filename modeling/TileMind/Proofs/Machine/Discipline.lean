import TileMind.Bench.Host
import TileMind.Proofs.Code.Compile
import TileMind.Proofs.Machine.History

/-!
# TileMind.Proofs.Machine.Discipline

Stack discipline of compiled programs. A fiber that executes one is, between any two instructions, at
the height that its place in the code has: `Disciplined` says so for the running function, for the
callers that wait for it and for the open `try` regions.

* `Disciplined.step`: an instruction keeps it.
* `Reachable.sound`: it holds in every state a fiber can get into, until the fiber ends.
* `stack_discipline_of_compile`: what follows for the operand stack of a compiled program.
-/

namespace TileMind

variable {H : Type}

/-! ## Programs made of rules -/

/-- A program all of whose functions have the shape of rules and call functions that exist. -/
structure RuleProgram (p : Program) : Prop where
  shaped : ∀ {func : Int} {fn : Function}, p.function? func = some fn → RuleShaped fn.code.toList
  depth : ∀ {func : Int} {fn : Function}, p.function? func = some fn →
    fn.maxStack = maxStackDepth fn.code.toList.toArray
  callee : ∀ {func : Int} {fn : Function} {k : Nat} {i : Instr}, p.function? func = some fn →
    fn.code[k]? = some i → i.op? = some .call → ∃ callee, p.function? i.a.toInt = some callee

theorem ruleProgram_of_compile {σ : Type} {env : CompileEnv σ} {d : BrainDef} {p : Program}
    {diags : Diagnostics} (h : compile env d = .ok (p, diags))
    (hsize : ∀ fn ∈ p.functions, fn.code.size < 2 ^ 32) : RuleProgram p := by
  have hfound : ∀ {func : Int} {fn : Function}, p.function? func = some fn →
      RuleShaped fn.code.toList ∧ fn.maxStack = maxStackDepth fn.code.toList.toArray := by
    intro func fn hf
    obtain ⟨n, -, hn⟩ := Program.function?_eq_some_iff.mp hf
    exact compile_ruleShaped h hn (hsize fn (Array.mem_of_getElem? hn))
  refine ⟨fun hf => (hfound hf).1, fun hf => (hfound hf).2, ?_⟩
  intro func fn k i hf hi hop
  obtain ⟨n, -, hn⟩ := Program.function?_eq_some_iff.mp hf
  exact Program.callee_of_checkInstr (Program.checkInstr_of_check (compile_check h) hn hi) hop

/-! ## The invariant -/

/-- A call that stands at a place of its function where the height is `h`. -/
structure Stands (p : Program) (fr : Frame) (h : Int) : Prop where
  base : fr.base = 0
  place : ∃ (fn : Function) (k : Nat), p.function? fr.func = some fn ∧ fr.pc = k ∧
    k < fn.code.size ∧ heightAt fn.code.toList k = h

/-- A `try` region of one of the active functions, which ends at a place of height 0. -/
structure Catches (p : Program) (funcs : List Int) (h : Handler) : Prop where
  height : h.stackHeight = 0
  depth : h.frameDepth ≤ funcs.length
  place : ∃ (func : Int) (outer : List Int) (fn : Function) (k : Nat),
    funcs.drop (funcs.length - h.frameDepth) = func :: outer ∧ p.function? func = some fn ∧
    h.catchPc = k ∧ k < fn.code.size ∧ heightAt fn.code.toList k = 0

/-- What holds even within an instruction. A caller stands right behind its call, where the result of
the called function is the only value. -/
structure Nested (p : Program) (f : Fiber) : Prop where
  bases : ∀ fr ∈ f.frames, fr.base = 0
  callers : ∀ fr ∈ f.frames.tail, Stands p fr 1
  handlers : ∀ h ∈ f.handlers, Catches p (f.frames.map Frame.func) h
  nested : f.handlers.Pairwise fun inner outer => outer.frameDepth ≤ inner.frameDepth

/-- A fiber between two instructions. -/
structure Disciplined (p : Program) (f : Fiber) : Prop extends Nested p f where
  top : ∀ fr rest, f.frames = fr :: rest → Stands p fr f.stack.length

/-- What is left of it when a fiber has ended: the stack is no higher than the executing function
may have it. -/
structure Bounded (p : Program) (f : Fiber) : Prop where
  bases : ∀ fr ∈ f.frames, fr.base = 0
  stack : ∀ fr rest, f.frames = fr :: rest →
    ∃ fn, p.function? fr.func = some fn ∧ f.stack.length ≤ fn.maxStack

/-- A `try` region stays what it is when a function is called. -/
theorem Catches.cons {p : Program} {funcs : List Int} {h : Handler} (hc : Catches p funcs h)
    (func : Int) : Catches p (func :: funcs) h := by
  have hdepth := hc.depth
  refine ⟨hc.height, by simp; omega, ?_⟩
  have hdrop : (func :: funcs).length - h.frameDepth = (funcs.length - h.frameDepth) + 1 := by
    simp
    omega
  rw [hdrop, List.drop_succ_cons]
  exact hc.place

theorem Catches.drop {p : Program} {funcs : List Int} {h : Handler} (hc : Catches p funcs h)
    {n : Nat} (hn : h.frameDepth ≤ funcs.length - n) : Catches p (funcs.drop n) h := by
  refine ⟨hc.height, by simpa using hn, ?_⟩
  have hdepth : n + ((funcs.drop n).length - h.frameDepth) = funcs.length - h.frameDepth ∨
      funcs.length ≤ n := by
    rw [List.length_drop]
    omega
  rcases hdepth with hdepth | hdepth
  · rw [List.drop_drop, hdepth]
    exact hc.place
  · obtain ⟨func, outer, -, -, hdrop, -⟩ := hc.place
    have h0 : h.frameDepth = 0 := by omega
    rw [h0, Nat.sub_zero, List.drop_length] at hdrop
    cases hdrop

theorem Catches.pos {p : Program} {funcs : List Int} {h : Handler} (hc : Catches p funcs h) :
    0 < h.frameDepth := by
  obtain ⟨func, outer, -, -, hdrop, -⟩ := hc.place
  by_contra h0
  have h0 : h.frameDepth = 0 := by omega
  rw [h0, Nat.sub_zero, List.drop_length] at hdrop
  cases hdrop

theorem Disciplined.bounded {p : Program} (hp : RuleProgram p) {f : Fiber} (hf : Disciplined p f) :
    Bounded p f := by
  refine ⟨hf.bases, ?_⟩
  · intro fr rest hframes
    obtain ⟨fn, k, hfn, -, hk, hheight⟩ := (hf.top fr rest hframes).place
    refine ⟨fn, hfn, ?_⟩
    rw [hp.depth hfn, ← hheight]
    exact heightAt_le_maxStackDepth (hp.shaped hfn) (by simpa using hk.le)

/-! ## Leaving functions -/

theorem cut_zero (stack : List Value) : Fiber.cut stack 0 = [] := by
  simp [Fiber.cut]

/-- Regions are nested, so those that a return leaves open are no deeper than it. -/
theorem frameDepth_le_of_mem_dropWhile {depth : Nat} {hs : List Handler}
    (hnested : hs.Pairwise fun inner outer => outer.frameDepth ≤ inner.frameDepth) {h : Handler}
    (hh : h ∈ hs.dropWhile fun h => decide (depth < h.frameDepth)) : h.frameDepth ≤ depth := by
  induction hs with
  | nil => cases hh
  | cons inner hs ih =>
    obtain ⟨hall, hrest⟩ := List.pairwise_cons.mp hnested
    rw [List.dropWhile_cons] at hh
    split at hh
    · exact ih hrest hh
    · rename_i hdepth
      rw [decide_eq_true_eq] at hdepth
      rcases List.mem_cons.mp hh with rfl | hh
      · omega
      · have := hall h hh
        omega

/-- A return leaves the caller with the result alone. -/
theorem Nested.ret {p : Program} {f : Fiber} (hf : Nested p f) {fr : Frame} {rest : List Frame}
    (hframes : f.frames = fr :: rest) : Disciplined p f.ret := by
  have hbase : fr.base = 0 := hf.bases fr (by rw [hframes]; exact List.mem_cons_self)
  have hcallers : ∀ c ∈ rest, Stands p c 1 := by
    have := hf.callers
    rwa [hframes] at this
  -- The regions still open belong to functions that are still active.
  have hopen : ∀ h ∈ f.handlers.dropWhile fun h => decide (rest.length < h.frameDepth),
      Catches p (rest.map Frame.func) h := by
    intro h hh
    have hle := frameDepth_le_of_mem_dropWhile hf.nested hh
    have hc := (hf.handlers h ((List.dropWhile_sublist _).subset hh)).drop (n := 1)
      (by rw [hframes]; simpa using hle)
    simpa [hframes] using hc
  have hsorted := hf.nested.sublist (List.dropWhile_sublist fun h => decide (rest.length < h.frameDepth))
  unfold Fiber.ret
  rw [hframes]
  dsimp only
  split
  · rename_i hempty
    obtain rfl : rest = [] := by simpa using hempty
    refine ⟨⟨by simp, by simp, hopen, hsorted⟩, by simp⟩
  · refine ⟨⟨fun c hc => (hcallers c hc).base, fun c hc => hcallers c (List.mem_of_mem_tail hc),
      hopen, hsorted⟩, ?_⟩
    intro c outer hc
    obtain rfl : rest = c :: outer := hc
    rw [hbase, cut_zero]
    exact hcallers c List.mem_cons_self

/-- A caught fault leads to the end of its region, with nothing on the stack. -/
theorem Nested.unwind {p : Program} {f : Fiber} (hf : Nested p f) {h : Handler} {hs : List Handler}
    (hhandlers : f.handlers = h :: hs) (fault : Nat) : Disciplined p (f.unwind fault) := by
  have hc := hf.handlers h (by rw [hhandlers]; exact List.mem_cons_self)
  have hn : f.frames.length - (f.frames.length - h.frameDepth) = h.frameDepth := by
    have := hc.depth
    rw [List.length_map] at this
    omega
  obtain ⟨func, outer, fn, k, hdrop, hfn, hpc, hk, hheight⟩ := hc.place
  rw [List.length_map, ← List.map_drop] at hdrop
  obtain ⟨fr, rest, hframes, hfunc, -⟩ := List.map_eq_cons_iff.mp hdrop
  have hmem : ∀ c ∈ fr :: rest, c ∈ f.frames := by
    rw [← hframes]
    exact fun c hc => (List.drop_sublist _ _).subset hc
  have hunwind : f.unwind fault =
      { f with
        handlers := hs
        stack := []
        frames := { fr with pc := k } :: rest
        lastFault := some fault } := by
    simp [Fiber.unwind, hhandlers, Fiber.jump, hframes, hc.height, cut_zero, hpc]
  rw [hunwind]
  refine ⟨⟨?_, ?_, ?_, ?_⟩, ?_⟩
  · intro c hcmem
    rcases List.mem_cons.mp hcmem with rfl | hcmem
    · exact hf.bases fr (hmem fr List.mem_cons_self)
    · exact hf.bases c (hmem c (List.mem_cons_of_mem _ hcmem))
  · intro c hcmem
    refine hf.callers c ?_
    have htail : rest = f.frames.tail.drop (f.frames.length - h.frameDepth) := by
      rw [← List.drop_one, List.drop_drop, Nat.add_comm, ← List.drop_drop, hframes]
      rfl
    rw [htail] at hcmem
    exact (List.drop_sublist _ _).subset hcmem
  · intro h' hh'
    obtain ⟨hall, -⟩ := List.pairwise_cons.mp (hhandlers ▸ hf.nested)
    have hle := hall h' hh'
    have hcatch := (hf.handlers h' (by rw [hhandlers]; exact List.mem_cons_of_mem _ hh')).drop
      (n := f.frames.length - h.frameDepth) (by rw [List.length_map, hn]; exact hle)
    rw [← List.map_drop, hframes] at hcatch
    simpa using hcatch
  · exact (List.pairwise_cons.mp (hhandlers ▸ hf.nested)).2
  · intro c outer' hc'
    cases hc'
    refine ⟨hf.bases fr (hmem fr List.mem_cons_self), fn, k, ?_, rfl, hk, by simpa using hheight⟩
    rw [← hfn, ← hfunc]

/-! ## The instruction at hand -/

/-- Where a disciplined fiber is about to execute `i`: at the `k`-th instruction of `fn`. -/
structure Executes (p : Program) (f : Fiber) (fr : Frame) (i : Instr) (fn : Function) (k : Nat) :
    Prop where
  func : p.function? fr.func = some fn
  pc : fr.pc = k
  instr : fn.code.toList[k]? = some i
  height : heightAt fn.code.toList k = f.stack.length
  place : Inside fn.code.toList k i ∨ AtReturn fn.code.toList k i

section

variable {p : Program} {f : Fiber} {fr : Frame} {rest : List Frame} {i : Instr} {fn : Function}
  {k : Nat}

theorem Disciplined.executes (hp : RuleProgram p) (hf : Disciplined p f) (hframes : f.frames = fr :: rest)
    (hi : Machine.instrAt p fr = .ok i) : ∃ fn k, Executes p f fr i fn k := by
  obtain ⟨fn, k, hfn, hpc, hk, hheight⟩ := (hf.top fr rest hframes).place
  have hcode : fn.code.toList[k]? = some i := by
    have hneg : ¬ ((k : Int) < 0) := by omega
    simp only [Machine.instrAt, hfn, hpc, hneg, if_false, Int.toNat_natCast] at hi
    rw [Array.getElem?_toList]
    split at hi
    · cases hi
    · rename_i j hj
      cases hi
      exact hj
  exact ⟨fn, k, hfn, hpc, hcode, hheight, (hp.shaped hfn).place k i hcode⟩

/-- The operands are there, and what the instruction itself pushes stays below the recorded depth. -/
theorem Executes.room (hp : RuleProgram p) (he : Executes p f fr i fn k) :
    0 ≤ i.pops ∧ i.pops ≤ f.stack.length ∧ f.stack.length - i.pops + i.pushes ≤ fn.maxStack := by
  have hk := (List.getElem?_eq_some_iff.mp he.instr).1
  have hpops : 0 ≤ i.pops ∧ i.pops ≤ f.stack.length := by
    rcases he.place with hin | hr
    · have := hin.fits.pops
      have := he.height
      omega
    · simp [Instr.pops, hr.op, Op.pops]
  refine ⟨hpops.1, hpops.2, ?_⟩
  have hnext := heightAt_le_maxStackDepth (hp.shaped he.func) (k := k + 1) hk
  rw [heightAt_succ he.instr, he.height, ← hp.depth he.func] at hnext
  have hpush : (i.pushes : Int) ≤ i.effect + i.pops := by
    unfold Instr.effect
    split
    · rename_i hcall
      simp [Instr.pushes, hcall, Op.pushes]
    · omega
  omega

/-! ## One instruction -/

theorem Nested.moved (hf : Nested p f) (hframes : f.frames = fr :: rest) {g : Fiber} {pc : Int}
    (hg : g.frames = { fr with pc := pc } :: rest) (hhandlers : g.handlers = f.handlers) :
    Nested p g := by
  have hfuncs : g.frames.map Frame.func = f.frames.map Frame.func := by simp [hg, hframes]
  refine ⟨?_, ?_, ?_, by rw [hhandlers]; exact hf.nested⟩
  · intro c hc
    rw [hg] at hc
    rcases List.mem_cons.mp hc with rfl | hc
    · exact hf.bases fr (by rw [hframes]; exact List.mem_cons_self)
    · exact hf.bases c (by rw [hframes]; exact List.mem_cons_of_mem _ hc)
  · have hcallers := hf.callers
    rw [hframes] at hcallers
    rwa [hg]
  · rw [hhandlers, hfuncs]
    exact hf.handlers

theorem Nested.called (hf : Nested p f) (hframes : f.frames = fr :: rest) (hfr : Stands p fr 1)
    {g : Fiber} {func : Int} (hg : g.frames = { func := func, base := 0 } :: f.frames)
    (hhandlers : g.handlers = f.handlers) : Nested p g := by
  refine ⟨?_, ?_, ?_, by rw [hhandlers]; exact hf.nested⟩
  · intro c hc
    rw [hg] at hc
    rcases List.mem_cons.mp hc with rfl | hc
    · rfl
    · exact hf.bases c hc
  · intro c hc
    rw [hg, List.tail_cons, hframes] at hc
    rcases List.mem_cons.mp hc with rfl | hc
    · exact hfr
    · exact hf.callers c (by rw [hframes]; exact hc)
  · rw [hhandlers, hg]
    exact fun h hh => (hf.handlers h hh).cons func

theorem Nested.guarded (hf : Nested p f) {g : Fiber} (hg : g.frames = f.frames)
    (hhandlers : ∀ h ∈ g.handlers, Catches p (f.frames.map Frame.func) h)
    (hnested : g.handlers.Pairwise fun inner outer => outer.frameDepth ≤ inner.frameDepth) :
    Nested p g :=
  ⟨by rw [hg]; exact hf.bases, by rw [hg]; exact hf.callers, by rw [hg]; exact hhandlers, hnested⟩

theorem Nested.disciplined (hf : Nested p f) (hframes : f.frames = { fr with pc := (k : Int) } :: rest)
    (hfn : p.function? fr.func = some fn) (hk : k < fn.code.size)
    (hheight : heightAt fn.code.toList k = f.stack.length) : Disciplined p f := by
  refine ⟨hf, ?_⟩
  intro c outer hc
  rw [hframes] at hc
  cases hc
  exact ⟨hf.bases _ (by rw [hframes]; exact List.mem_cons_self), fn, k, hfn, rfl, hk, hheight⟩

/-- What an instruction of a disciplined fiber leaves behind. -/
def Outcome.Disciplined (p : Program) : Outcome H → Prop
  | .next g _ => TileMind.Disciplined p g
  | .stop _ g _ => TileMind.Disciplined p g ∨ g.state = .fault ∧ Bounded p g
  | .crash _ => True

theorem Executes.raise (hp : RuleProgram p) (he : Executes p f fr i fn k) (hf : Nested p f)
    (hframes : f.frames = fr :: rest) {g : Fiber} {pc : Int} {s : Stage H} {fault : Nat} {site : Site}
    (hg : g.frames = { fr with pc := pc } :: rest) (hhandlers : g.handlers = f.handlers)
    (hstack : g.stack.length ≤ f.stack.length) :
    (TileMind.raise g s fault site).Disciplined p := by
  have hnested := hf.moved hframes hg hhandlers
  unfold TileMind.raise
  dsimp only
  cases hhs : g.handlers with
  | nil =>
    simp only [List.isEmpty_nil, if_true]
    right
    have hunwind : g.unwind fault = { g with fault := some fault, state := .fault } := by
      simp [Fiber.unwind, hhs]
    rw [hunwind]
    refine ⟨rfl, hnested.bases, ?_⟩
    intro c outer hc
    obtain ⟨rfl, -⟩ : { fr with pc := pc } = c ∧ rest = outer := by
      simpa [hg] using hc
    refine ⟨fn, he.func, ?_⟩
    have hk := (List.getElem?_eq_some_iff.mp he.instr).1
    have hmax := heightAt_le_maxStackDepth (hp.shaped he.func) hk.le
    rw [he.height, ← hp.depth he.func] at hmax
    calc (g.stack.length : Int) ≤ f.stack.length := by exact_mod_cast hstack
      _ ≤ fn.maxStack := hmax
  | cons h hs =>
    simp only [List.isEmpty_cons, Bool.false_eq_true, if_false]
    exact hnested.unwind hhs fault

theorem Executes.inside (he : Executes p f fr i fn k) (hop : i.op? ≠ some .ret) :
    Inside fn.code.toList k i := by
  rcases he.place with hin | hr
  · exact hin
  · exact absurd hr.op hop

theorem Disciplined.step [Host H] {m : Machine H} (hp : RuleProgram m.program)
    (hf : Disciplined m.program f) (hframes : f.frames = fr :: rest)
    (hi : Machine.instrAt m.program fr = .ok i) (s : Stage H) :
    (TileMind.step m fr i f s).Disciplined m.program := by
  obtain ⟨fn, k, he⟩ := hf.executes hp hframes hi
  have hnext : heightAt fn.code.toList (k + 1) = f.stack.length + i.effect := by
    rw [heightAt_succ he.instr, he.height]
  have hjump (pc : Int) : (f.jump pc).frames = { fr with pc := pc } :: rest := by
    simp [Fiber.jump, hframes]
  have hpast : (f.jump (fr.pc + 1)).frames = { fr with pc := ((k + 1 : Nat) : Int) } :: rest := by
    rw [hjump, he.pc]
    rfl
  have hbase : fr.base = 0 := (hf.top fr rest hframes).base
  have hnested := hf.toNested.moved hframes hpast (f.jump_handlers _)
  have hmoves := step_moves (f := f) (i := i) (s := s) (m.keeps_true f.id) fr
  generalize TileMind.step m fr i f s = outcome at hmoves ⊢
  cases hmoves with
  | @next g s' same table straight frames handlers stack =>
    have hin := he.inside straight.2
    rw [hpast] at frames
    rw [Fiber.jump_handlers] at handlers
    refine (hf.toNested.moved hframes frames handlers).disciplined frames he.func
      (by simpa using hin.next) ?_
    rw [hnext, stack, Fiber.jump_stack, Instr.effect, if_neg straight.1]
    omega
  | @jump g same isJump frames handlers stack =>
    have hret : i.op? ≠ some .ret := by
      intro hop
      simp [Instr.isJump, hop, Op.isJump] at isJump
    have hcall : i.op? ≠ some .call := by
      intro hop
      simp [Instr.isJump, hop, Op.isJump] at isJump
    obtain ⟨d, -, ha, hlt, hheight⟩ := (he.inside hret).jump isJump
    have htarget : ((f.jump (fr.pc + 1)).jump (fr.pc + i.a.toInt)).frames =
        { fr with pc := ((k + d : Nat) : Int) } :: rest := by
      simp [Fiber.jump, hframes, he.pc, ha]
    rw [htarget] at frames
    rw [Fiber.jump_handlers] at handlers
    refine (hf.toNested.moved hframes frames handlers).disciplined frames he.func
      (by simpa using hlt) ?_
    rw [hheight, he.height, stack, Fiber.jump_stack, Instr.effect, if_neg hcall]
    omega
  | @call g same op frames handlers stack =>
    have hin := he.inside (by simp [op])
    obtain ⟨hzero, hb⟩ := hin.fits.call (.inl op)
    have hempty : f.stack.length = 0 := by
      have := he.height
      omega
    have hstack : g.stack = f.stack := by
      rw [stack, hb, Fiber.jump_stack]
      rfl
    have heffect : i.effect = 1 := by
      have hpops : i.pops = 0 := by simp [Instr.pops, op, Op.pops, hb]
      simp [Instr.effect, op, hpops]
    obtain ⟨callee, hcallee⟩ := hp.callee (k := k) he.func (by simpa using he.instr) op
    have hcaller : Stands m.program { fr with pc := ((k + 1 : Nat) : Int) } 1 :=
      ⟨hbase, fn, k + 1, he.func, rfl, by simpa using hin.next, by rw [hnext, hempty, heffect]; rfl⟩
    rw [hstack, hempty] at frames
    refine @Nested.disciplined _ _ { func := i.a.toInt, base := 0 } _ _ 0
      (hnested.called hpast hcaller frames handlers) frames hcallee
      (by simpa using (hp.shaped hcallee).pos) ?_
    simp [hstack, hempty]
  | ret op => exact hnested.ret hpast
  | @tryStart g same op frames handlers stack =>
    have hin := he.inside (by simp [op])
    obtain ⟨hzero, -⟩ := hin.fits.call (.inr op)
    obtain ⟨d, -, ha, hlt, htarget⟩ := hin.jump (by simp [Instr.isJump, op, Op.isJump])
    have hempty : f.stack.length = 0 := by
      have := he.height
      omega
    have heffect : i.effect = 0 := by
      simp [Instr.effect, Instr.pops, Instr.pushes, op, Op.pops, Op.pushes]
    have hcatch : fr.pc + i.a.toInt = ((k + d : Nat) : Int) := by
      rw [he.pc, ha]
      rfl
    rw [Fiber.jump_stack, hempty] at handlers
    have hregion : ∀ h ∈ g.handlers, Catches m.program ((f.jump (fr.pc + 1)).frames.map Frame.func) h := by
      intro h hh
      rw [handlers] at hh
      rcases List.mem_cons.mp hh with rfl | hh
      · refine ⟨rfl, by simp, fr.func, rest.map Frame.func, fn, k + d, ?_, he.func, hcatch,
          by simpa using hlt, ?_⟩
        · rw [hpast]
          simp
        · rw [htarget, heffect]
          omega
      · exact hnested.handlers h hh
    have hsorted : g.handlers.Pairwise fun inner outer => outer.frameDepth ≤ inner.frameDepth := by
      rw [handlers]
      refine List.pairwise_cons.mpr ⟨?_, hnested.nested⟩
      intro h hh
      simpa using (hnested.handlers h hh).depth
    refine (hnested.guarded frames hregion hsorted).disciplined (frames.trans hpast) he.func
      (by simpa using hin.next) ?_
    rw [hnext, stack, Fiber.jump_stack, heffect, add_zero]
  | @tryEnd g same op frames handlers stack =>
    have hin := he.inside (by simp [op])
    have heffect : i.effect = 0 := by
      simp [Instr.effect, Instr.pops, Instr.pushes, op, Op.pops, Op.pushes]
    have htail : g.handlers.Sublist (f.jump (fr.pc + 1)).handlers := by
      rw [handlers]
      exact List.tail_sublist _
    refine (hnested.guarded frames (fun h hh => hnested.handlers h (htail.subset hh))
      (hnested.nested.sublist htail)).disciplined (frames.trans hpast) he.func
      (by simpa using hin.next) ?_
    rw [hnext, stack, Fiber.jump_stack, heffect, add_zero]
  | @raise g s' fault same table frames handlers stack =>
    rw [hpast] at frames
    rw [Fiber.jump_handlers] at handlers
    rw [Fiber.jump_stack] at stack
    exact he.raise hp hf.toNested hframes frames handlers stack
  | park op found pending =>
    left
    have hback : ((f.jump (fr.pc + 1)).jump fr.pc).frames = fr :: rest := by
      simp [Fiber.jump, hframes]
    refine ⟨hf.toNested.guarded (hback.trans hframes.symm) ?_ ?_, ?_⟩
    · simpa using hf.handlers
    · simpa using hf.nested
    · intro c outer hc
      obtain ⟨rfl, -⟩ : fr = c ∧ rest = outer := by
        simpa [hback] using hc
      simpa using hf.top fr rest hframes
  | yield op =>
    obtain ⟨op', hop', hne⟩ := (he.inside (by simp [op])).fits.known
    rw [op, Option.some.injEq] at hop'
    exact absurd hop'.symm hne.2.2.2
  | crash => trivial

end

/-! ## Every state of a fiber -/

/-- The states that a fiber can get into, whatever the stage is like at each of its instructions. It
starts at a function, executes instructions, returns at the end of a function's code, is resumed, or
is ended from outside. -/
inductive Reachable [Host H] (m : Machine H) : Fiber → Prop where
  | start (id : Nat) {func : Int} {fn : Function} (found : m.program.function? func = some fn) :
      Reachable m (.start id func)
  | next {f g : Fiber} {fr : Frame} {rest : List Frame} {i : Instr} {s s' : Stage H}
      (before : Reachable m f) (live : f.state.isTerminal = false) (frames : f.frames = fr :: rest)
      (instr : Machine.instrAt m.program fr = .ok i) (done : step m fr i f s = .next g s') :
      Reachable m g
  | stop {f g : Fiber} {fr : Frame} {rest : List Frame} {i : Instr} {s s' : Stage H}
      {status : RunStatus} (before : Reachable m f) (live : f.state.isTerminal = false)
      (frames : f.frames = fr :: rest) (instr : Machine.instrAt m.program fr = .ok i)
      (done : step m fr i f s = .stop status g s') : Reachable m g
  | fallOff {f : Fiber} {fr : Frame} {rest : List Frame} {fn : Function} (before : Reachable m f)
      (live : f.state.isTerminal = false) (frames : f.frames = fr :: rest)
      (found : m.program.function? fr.func = some fn) (past : fn.code.size ≤ fr.pc) :
      Reachable m f.ret
  | finish {f : Fiber} (before : Reachable m f) (frames : f.frames = []) :
      Reachable m { f with state := .done }
  | resume {f : Fiber} (before : Reachable m f) (live : f.state.isTerminal = false) (awaiting : Nat) :
      Reachable m { f with state := .runnable, awaiting := awaiting }
  | cancel {f : Fiber} (before : Reachable m f) (fault : Nat) :
      Reachable m { f with state := .cancelled, fault := some fault }
  | clear {f : Fiber} (before : Reachable m f) : Reachable m f.cleared

theorem disciplined_start {p : Program} (hp : RuleProgram p) (id : Nat) {func : Int} {fn : Function}
    (hfn : p.function? func = some fn) : Disciplined p (.start id func) := by
  refine ⟨⟨?_, by simp [Fiber.start], by simp [Fiber.start], by simp [Fiber.start]⟩, ?_⟩
  · intro fr hfr
    obtain rfl : fr = { func := func } := by simpa [Fiber.start] using hfr
    rfl
  · intro fr rest hframes
    obtain ⟨rfl, -⟩ : { func := func } = fr ∧ [] = rest := by
      simpa [Fiber.start] using hframes
    exact ⟨rfl, fn, 0, hfn, rfl, by simpa using (hp.shaped hfn).pos, by simp [Fiber.start]⟩

/-- A fiber is disciplined until it ends. -/
theorem Reachable.sound [Host H] {m : Machine H} (hp : RuleProgram m.program) {f : Fiber}
    (hf : Reachable m f) :
    Disciplined m.program f ∨ f.state.isTerminal = true ∧ Bounded m.program f := by
  -- A fiber that has not ended is disciplined, so its next instruction keeps it so.
  have hlive {f : Fiber} (ih : Disciplined m.program f ∨
      f.state.isTerminal = true ∧ Bounded m.program f) (live : f.state.isTerminal = false) :
      Disciplined m.program f := by
    rcases ih with ih | ⟨hterminal, -⟩
    · exact ih
    · rw [live] at hterminal
      cases hterminal
  induction hf with
  | start id found => exact .inl (disciplined_start hp id found)
  | @next f g fr rest i s s' _ live frames instr done ih =>
    have hstep := (hlive ih live).step hp frames instr s
    rw [done] at hstep
    exact .inl hstep
  | @stop f g fr rest i s s' status _ live frames instr done ih =>
    have hstep := (hlive ih live).step hp frames instr s
    rw [done] at hstep
    rcases hstep with hstep | ⟨hfault, hbounded⟩
    · exact .inl hstep
    · exact .inr ⟨by rw [hfault]; rfl, hbounded⟩
  | fallOff _ live frames _ _ ih => exact .inl ((hlive ih live).toNested.ret frames)
  | finish _ frames ih =>
    rcases ih with ih | ⟨-, hbounded⟩
    · exact .inl ⟨⟨ih.bases, ih.callers, ih.handlers, ih.nested⟩, ih.top⟩
    · exact .inr ⟨rfl, hbounded.bases, hbounded.stack⟩
  | resume _ live awaiting ih =>
    have ih := hlive ih live
    exact .inl ⟨⟨ih.bases, ih.callers, ih.handlers, ih.nested⟩, ih.top⟩
  | cancel _ fault ih =>
    rcases ih with ih | ⟨-, hbounded⟩
    · exact .inl ⟨⟨ih.bases, ih.callers, ih.handlers, ih.nested⟩, ih.top⟩
    · exact .inr ⟨rfl, hbounded.bases, hbounded.stack⟩
  | clear _ ih =>
    refine .inl ⟨⟨?_, ?_, ?_, ?_⟩, ?_⟩ <;> simp [Fiber.cleared]

/-! ## Runs stay within the reachable states -/

section

variable [Host H] {m : Machine H}

theorem History.reachable {f g : Fiber} {es : List Event} (h : History m f es g) (hf : Reachable m f) :
    Reachable m g := by
  induction h with
  | refl => exact hf
  | next _ live frames instr done ih => exact ih.next live frames instr done
  | stop _ live frames instr done ih => exact ih.stop live frames instr done
  | fallOff _ live frames found past ih => exact ih.fallOff live frames found past
  | finish _ frames ih => exact ih.finish frames
  | resume _ live awaiting ih => exact ih.resume live awaiting
  | cancel _ fault ih => exact ih.cancel fault

/-- A run that was tested where it stops, in front of an instruction. -/
theorem exists_history_of_any {f : Fiber} (hlive : f.frames ≠ [] → f.state.isTerminal = false) {n : Nat}
    {s : Stage H} {P : Fiber → Instr → Bool}
    (h : (m.runFor n f s).toOption.any (fun x => !x.2.1.state.isTerminal &&
      x.2.1.frames.head?.any fun fr => (Machine.instrAt m.program fr).toOption.any (P x.2.1)) = true) :
    ∃ es g fr rest i, History m f es g ∧ g.state.isTerminal = false ∧ g.frames = fr :: rest ∧
      Machine.instrAt m.program fr = .ok i ∧ P g i = true := by
  obtain ⟨⟨status, g, t⟩, hran, htested⟩ := exists_of_any_toOption h
  obtain ⟨es, hhistory⟩ := history_of_runFor n hlive hran
  obtain ⟨hstate, hfound⟩ := Bool.and_eq_true_iff.mp htested
  cases hframes : g.frames with
  | nil => simp [hframes] at hfound
  | cons fr rest =>
    rw [hframes, List.head?_cons, Option.any_some] at hfound
    obtain ⟨i, hi, hP⟩ := exists_of_any_toOption hfound
    exact ⟨es, g, fr, rest, i, hhistory, by simpa using hstate, hframes, hi, hP⟩

/-- Running a fiber for any budget on any stage leads to one of its reachable states. -/
theorem Reachable.run {budget : Int} {f g : Fiber} {s s' : Stage H} {status : RunStatus}
    (hf : Reachable m f) (h : m.run budget f s = .ok (status, g, s')) : Reachable m g := by
  obtain ⟨es, hhistory⟩ := history_of_run h
  exact hhistory.reachable hf

end

/-! ## Compiled programs -/

/-- The instruction at hand raises a stack underflow: its guard finds too few values, or it is to
store an entry where the frame holds no map below the key. -/
def Machine.Underflows (m : Machine H) (fr : Frame) (i : Instr) (f : Fiber) : Prop :=
  (∃ fault, m.checkStack (f.jump (fr.pc + 1)) fr.base i = some fault ∧ fault.tag = .stackUnderflow) ∨
    i.op? = some .mapSet ∧ f.stack.length ≤ fr.base + 2

/-- The guard of the instruction at hand raises an overflow of the operand stack. -/
def Machine.Overflows (m : Machine H) (fr : Frame) (i : Instr) (f : Fiber) : Prop :=
  ∃ fault, m.checkStack (f.jump (fr.pc + 1)) fr.base i = some fault ∧ fault.tag = .stackOverflow

theorem Executes.not_underflows {m : Machine H} (hp : RuleProgram m.program) {f : Fiber} {fr : Frame}
    {i : Instr} {fn : Function} {k : Nat} (he : Executes m.program f fr i fn k) (hbase : fr.base = 0) :
    ¬ m.Underflows fr i f := by
  obtain ⟨-, hpops, -⟩ := he.room hp
  rintro (⟨fault, hfault, htag⟩ | ⟨hop, hlow⟩)
  · have hlow : ¬ (i.pops > (f.stack.length : Int) - (0 : Nat)) := by
      push_cast
      omega
    simp only [Machine.checkStack, Fiber.jump_stack, hbase, hlow, if_false] at hfault
    split at hfault
    · cases hfault
      cases htag
    · cases hfault
  · have hmap := (he.inside (by simp [hop])).fits.map hop
    have := he.height
    omega

theorem Executes.lt_of_overflows {m : Machine H} (hp : RuleProgram m.program) {f : Fiber} {fr : Frame}
    {i : Instr} {fn : Function} {k : Nat} (he : Executes m.program f fr i fn k) (hbase : fr.base = 0)
    (h : m.Overflows fr i f) : m.limits.stack < fn.maxStack := by
  obtain ⟨-, hpops, hroom⟩ := he.room hp
  obtain ⟨fault, hfault, htag⟩ := h
  simp only [Machine.checkStack, Fiber.jump_stack, hbase] at hfault
  split at hfault
  · cases hfault
    cases htag
  · split at hfault
    · omega
    · cases hfault

theorem Executes.checkStack_eq_none {m : Machine H} (hp : RuleProgram m.program) {f : Fiber}
    {fr : Frame} {i : Instr} {fn : Function} {k : Nat} (he : Executes m.program f fr i fn k)
    (hbase : fr.base = 0) (hroom : ¬ m.Overflows fr i f) :
    m.checkStack (f.jump (fr.pc + 1)) fr.base i = none := by
  cases hcheck : m.checkStack (f.jump (fr.pc + 1)) fr.base i with
  | none => rfl
  | some fault =>
    have htag : fault.tag = .stackUnderflow ∨ fault.tag = .stackOverflow := by
      unfold Machine.checkStack at hcheck
      dsimp only at hcheck
      split at hcheck
      · cases hcheck
        exact .inl rfl
      · split at hcheck
        · cases hcheck
          exact .inr rfl
        · cases hcheck
    rcases htag with htag | htag
    · exact absurd (.inl ⟨fault, hcheck, htag⟩) (he.not_underflows hp hbase)
    · exact absurd ⟨fault, hcheck, htag⟩ hroom

/-- A return finds nothing on the stack, so it hands back void. -/
theorem Executes.ret [Host H] {m : Machine H} (hp : RuleProgram m.program) {f : Fiber} {fr : Frame}
    {rest : List Frame} {i : Instr} {fn : Function} {k : Nat} (he : Executes m.program f fr i fn k)
    (hbase : fr.base = 0) (hframes : f.frames = fr :: rest) (hop : i.op? = some .ret) :
    f.stack = [] ∧ ∀ s : Stage H, ¬ m.Overflows fr i f → ∃ g, step m fr i f s = .next g s ∧
      g.frames = rest ∧ (rest = [] → g.state = .done ∧ g.result = .void) ∧
      (rest ≠ [] → g.stack = [.void]) := by
  have hr : AtReturn fn.code.toList k i := by
    rcases he.place with hin | hr
    · obtain ⟨op, hop', hne⟩ := hin.fits.known
      rw [hop, Option.some.injEq] at hop'
      exact absurd hop'.symm hne.2.1
    · exact hr
  have hempty : f.stack = [] := by
    apply List.eq_nil_of_length_eq_zero
    have := he.height
    rw [hr.height] at this
    omega
  refine ⟨hempty, ?_⟩
  intro s hroom
  have hstep : step m fr i f s = .next (f.jump (fr.pc + 1)).ret s := by
    simp only [step, he.checkStack_eq_none hp hbase hroom, hop, exec]
  have hjump : (f.jump (fr.pc + 1)).frames = { fr with pc := fr.pc + 1 } :: rest := by
    simp [Fiber.jump, hframes]
  refine ⟨_, hstep, ?_⟩
  unfold Fiber.ret
  rw [hjump, Fiber.jump_stack, hempty, hbase]
  cases rest with
  | nil => simp
  | cons c outer => simp [cut_zero]

/-- In every state that a fiber of a compiled program can get into, all its calls start from an empty
stack, and the stack is within the depth recorded for the executing function. No instruction
underflows, a rule returns void, and only a ceiling below a recorded depth can overflow. -/
theorem stack_discipline_of_compile [Host H] {σ : Type} {env : CompileEnv σ} {d : BrainDef}
    {p : Program} {diags : Diagnostics} (h : compile env d = .ok (p, diags))
    (hsize : ∀ fn ∈ p.functions, fn.code.size < 2 ^ 32) (m : Machine H) (hm : m.program = p)
    {f : Fiber} (hf : Reachable m f) :
    (∀ fr ∈ f.frames, fr.base = 0) ∧
    (∀ fr rest, f.frames = fr :: rest →
      ∃ fn, p.function? fr.func = some fn ∧ f.stack.length ≤ fn.maxStack) ∧
    (f.state.isTerminal = false → ∀ fr rest i, f.frames = fr :: rest →
      Machine.instrAt p fr = .ok i →
      ¬ m.Underflows fr i f ∧
      (i.op? = some .ret → f.stack = [] ∧ ∀ s : Stage H, ¬ m.Overflows fr i f →
        ∃ g, step m fr i f s = .next g s ∧ g.frames = rest ∧
          (rest = [] → g.state = .done ∧ g.result = .void) ∧ (rest ≠ [] → g.stack = [.void])) ∧
      (m.Overflows fr i f → ∃ fn ∈ p.functions, m.limits.stack < fn.maxStack)) := by
  subst hm
  have hp := ruleProgram_of_compile h hsize
  have hbounded : Bounded m.program f := by
    rcases hf.sound hp with hd | ⟨-, hb⟩
    · exact hd.bounded hp
    · exact hb
  refine ⟨hbounded.bases, hbounded.stack, ?_⟩
  intro hlive fr rest i hframes hi
  have hd : Disciplined m.program f := by
    rcases hf.sound hp with hd | ⟨hterminal, -⟩
    · exact hd
    · rw [hlive] at hterminal
      cases hterminal
  obtain ⟨fn, k, he⟩ := hd.executes hp hframes hi
  have hbase := (hd.top fr rest hframes).base
  refine ⟨he.not_underflows hp hbase, fun hop => he.ret hp hbase hframes hop, ?_⟩
  intro hover
  obtain ⟨n, -, hn⟩ := Program.function?_eq_some_iff.mp he.func
  exact ⟨fn, Array.mem_of_getElem? hn, he.lt_of_overflows hp hbase hover⟩

/-- A rule with an isolated child, both of which change a variable. -/
def countingBrain : BrainDef :=
  { pages := [{ rules := [{
      whenRow := "true && 2"
      doRow := "$x = 3"
      children := [{ doRow := "$x = $x + 1" }] }] }] }

def countingEnv : CompileEnv (Stage Bench) :=
  { services := Core.services, catalog := {}, isolateChildren := true }

/-- After twenty instructions the rule has called its child, which is about to add two numbers; after
four more the child returns. -/
theorem stack_discipline_of_countingBrain :
    ∃ p diags, compile countingEnv countingBrain = .ok (p, diags) ∧
      (∀ fn ∈ p.functions, fn.code.size < 2 ^ 32) ∧
      ∃ m : Machine Bench, m = (Machine.load p Core.services {} {}).1 ∧
        (∃ f fr rest i, Reachable m f ∧ f.frames = fr :: rest ∧ rest.length = 1 ∧
          Machine.instrAt p fr = .ok i ∧ i.op? = some .hostCall ∧ f.stack.length = 2 ∧
          (∃ fn, p.function? fr.func = some fn ∧ f.stack.length ≤ fn.maxStack) ∧ ¬ m.Underflows fr i f) ∧
        ∃ f fr rest i, Reachable m f ∧ f.frames = fr :: rest ∧ rest.length = 1 ∧
          Machine.instrAt p fr = .ok i ∧ i.op? = some .ret ∧ f.stack = [] ∧
          ∀ s : Stage Bench, ¬ m.Overflows fr i f → ∃ g, step m fr i f s = .next g s ∧
            g.frames = rest ∧ g.stack = [.void] := by
  have hcompiled : (compile countingEnv countingBrain).toOption.any (fun r =>
      (r.1.functions.all fun fn => fn.code.size < 2 ^ 32) && ((r.1.function? 0).isSome &&
        (((Machine.load r.1 Core.services {} {}).1.runFor 20 (.start 1 0)
            ({ host := {} } : Stage Bench)).toOption.any (fun x => !x.2.1.state.isTerminal &&
          x.2.1.frames.head?.any fun fr => (Machine.instrAt r.1 fr).toOption.any fun i =>
            decide (i.op? = some .hostCall) && (decide (x.2.1.stack.length = 2) &&
              decide (x.2.1.frames.length = 2))) &&
        ((Machine.load r.1 Core.services {} {}).1.runFor 24 (.start 1 0)
            ({ host := {} } : Stage Bench)).toOption.any (fun x => !x.2.1.state.isTerminal &&
          x.2.1.frames.head?.any fun fr => (Machine.instrAt r.1 fr).toOption.any fun i =>
            decide (i.op? = some .ret) && decide (x.2.1.frames.length = 2))))) = true := by
    decide +kernel
  obtain ⟨⟨p, diags⟩, hp, hran⟩ := exists_of_any_toOption hcompiled
  obtain ⟨hsize, hran⟩ := Bool.and_eq_true_iff.mp hran
  obtain ⟨hfn, hran⟩ := Bool.and_eq_true_iff.mp hran
  obtain ⟨hadds, hreturns⟩ := Bool.and_eq_true_iff.mp hran
  simp only [Array.all_eq_true_iff_forall_mem, decide_eq_true_eq] at hsize
  obtain ⟨fn, hfn⟩ := Option.isSome_iff_exists.mp hfn
  have hstart : Reachable (Machine.load (H := Bench) p Core.services {} {}).1 (.start 1 0) := .start 1 hfn
  refine ⟨p, diags, hp, hsize, _, rfl, ?_, ?_⟩
  · obtain ⟨_, f, fr, rest, i, hf, hlive, hframes, hi, htest⟩ :=
      exists_history_of_any (P := fun f i => decide (i.op? = some .hostCall) &&
        (decide (f.stack.length = 2) && decide (f.frames.length = 2))) (fun _ => rfl) hadds
    simp only [Bool.and_eq_true, decide_eq_true_eq, hframes, List.length_cons] at htest
    obtain ⟨hop, htwo, hlength⟩ := htest
    have hreach := hf.reachable hstart
    obtain ⟨-, hstack, hinstr⟩ := stack_discipline_of_compile hp hsize _ rfl hreach
    exact ⟨f, fr, rest, i, hreach, hframes, by omega, hi, hop, htwo, hstack fr rest hframes,
      (hinstr hlive fr rest i hframes hi).1⟩
  · obtain ⟨_, f, fr, rest, i, hf, hlive, hframes, hi, htest⟩ :=
      exists_history_of_any (P := fun f i => decide (i.op? = some .ret) && decide (f.frames.length = 2))
        (fun _ => rfl) hreturns
    simp only [Bool.and_eq_true, decide_eq_true_eq, hframes, List.length_cons] at htest
    obtain ⟨hop, hlength⟩ := htest
    have hreach := hf.reachable hstart
    obtain ⟨-, -, hinstr⟩ := stack_discipline_of_compile hp hsize _ rfl hreach
    obtain ⟨hempty, hret⟩ := (hinstr hlive fr rest i hframes hi).2.1 hop
    refine ⟨f, fr, rest, i, hreach, hframes, by omega, hi, hop, hempty, fun s hroom => ?_⟩
    obtain ⟨g, hstep, hrest, -, hvoid⟩ := hret s hroom
    refine ⟨g, hstep, hrest, hvoid ?_⟩
    rintro rfl
    simp at hlength

end TileMind
