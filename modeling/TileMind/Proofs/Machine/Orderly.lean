import TileMind.Proofs.Code.Coupled
import TileMind.Proofs.Machine.Dealings
import TileMind.Proofs.Machine.Discipline

/-!
# TileMind.Proofs.Machine.Orderly

Where the fibers of a compiled program can stand. A fiber is at an `await` only if its last instruction
asked for something: jumps, calls, returns and caught faults lead elsewhere.

* `Fiber.Rests`: the fiber is not at an `await`.
* `Fiber.Orderly`: what is known of a fiber between two instructions.
* `Fiber.Orderly.next`: an instruction keeps it, and one that does not ask leaves the fiber at rest.
-/

namespace TileMind

variable {H : Type}

/-- A program made of rules that leads to an `await` only by asking. -/
structure CoupledProgram (p : Program) : Prop where
  rules : RuleProgram p
  couples : p.Couples

theorem coupledProgram_of_compile {σ : Type} {env : CompileEnv σ} {d : BrainDef} {p : Program}
    {diags : Diagnostics} (h : compile env d = .ok (p, diags))
    (hsize : ∀ fn ∈ p.functions, fn.code.size < 2 ^ 32) : CoupledProgram p :=
  ⟨ruleProgram_of_compile h hsize, couples_of_compile h hsize⟩

namespace Fiber

def Rests (p : Program) (f : Fiber) : Prop :=
  ∀ fr rest, f.frames = fr :: rest → p.Rests fr.func fr.pc

/-- A fiber between two instructions: its stack is as high as its place tells, and no caller waits for
it right before an `await`. -/
structure Orderly (p : Program) (f : Fiber) : Prop where
  disciplined : Disciplined p f
  callers : ∀ fr ∈ f.frames.tail, p.Rests fr.func fr.pc

@[simp] theorem jump_tail (f : Fiber) (pc : Int) : (f.jump pc).frames.tail = f.frames.tail := by
  cases h : f.frames <;> simp [jump, h]

/-- A caught fault leaves callers where they are. -/
theorem unwind_tail_subset (f : Fiber) (fault : Nat) :
    (f.unwind fault).frames.tail ⊆ f.frames.tail := by
  unfold unwind
  split
  · exact List.Subset.refl _
  · rw [jump_tail]
    dsimp only
    rw [← List.drop_one, List.drop_drop, Nat.add_comm, ← List.drop_drop, List.drop_one]
    exact List.drop_subset _ _

variable {p : Program} {f g : Fiber} {fr : Frame} {rest : List Frame} {i : Instr}

theorem Orderly.congr (hf : f.Orderly p) (hframes : g.frames = f.frames)
    (hhandlers : g.handlers = f.handlers) (hstack : g.stack = f.stack) : g.Orderly p := by
  obtain ⟨⟨hnested, htop⟩, hcallers⟩ := hf
  refine ⟨⟨⟨?_, ?_, ?_, ?_⟩, ?_⟩, ?_⟩
  · rw [hframes]
    exact hnested.bases
  · rw [hframes]
    exact hnested.callers
  · rw [hframes, hhandlers]
    exact hnested.handlers
  · rw [hhandlers]
    exact hnested.nested
  · rw [hframes, hstack]
    exact htop
  · rw [hframes]
    exact hcallers

theorem Rests.congr (hf : f.Rests p) (hframes : g.frames = f.frames) : g.Rests p := by
  unfold Rests
  rw [hframes]
  exact hf

theorem Rests.op (hf : f.Rests p) (hframes : f.frames = fr :: rest)
    (hi : Machine.instrAt p fr = .ok i) : i.op? ≠ some .await :=
  hf fr rest hframes fr.base i hi

theorem Rests.not_awaits {m : Machine H} (hf : f.Rests m.program) (k : Int) : ¬ Awaits m f k := by
  rintro ⟨fr, i, below, hat⟩
  obtain ⟨rest, hframes⟩ := hat.frame
  exact hf.op hframes hat.instr hat.op

theorem orderly_start (hp : CoupledProgram p) (id : Nat) {func : Int} {fn : Function}
    (hfn : p.function? func = some fn) :
    (Fiber.start id func).Orderly p ∧ (Fiber.start id func).Rests p := by
  refine ⟨⟨disciplined_start hp.rules id hfn, by simp [Fiber.start]⟩, fun fr rest hframes => ?_⟩
  obtain ⟨rfl, -⟩ : { func := func } = fr ∧ [] = rest := by simpa [Fiber.start] using hframes
  exact hp.couples.start func

/-- There is something on the stack at an `await`. -/
theorem Orderly.rests_of_stack (hp : CoupledProgram p) (hf : f.Orderly p) (hstack : f.stack = []) :
    f.Rests p := by
  intro fr rest hframes base i hi hop
  have hhere : Machine.instrAt p fr = .ok i := by rw [← hi]; rfl
  obtain ⟨fn, k, he⟩ := hf.disciplined.executes hp.rules hframes hhere
  obtain ⟨-, hpops, -⟩ := he.room hp.rules
  simp [Instr.pops, hop, Op.pops, hstack] at hpops

/-- No rule gives up its turn. -/
theorem Orderly.not_yield (hp : CoupledProgram p) (hf : f.Orderly p) (hframes : f.frames = fr :: rest)
    (hi : Machine.instrAt p fr = .ok i) : i.op? ≠ some .yield := by
  intro hop
  obtain ⟨fn, k, he⟩ := hf.disciplined.executes hp.rules hframes hi
  obtain ⟨op, hop', hne⟩ := (he.inside (by simp [hop])).fits.known
  rw [hop, Option.some.injEq] at hop'
  exact hne.2.2.2 hop'.symm

theorem Orderly.ret (hf : f.Orderly p) (hframes : f.frames = fr :: rest) :
    f.ret.Orderly p ∧ f.ret.Rests p := by
  obtain ⟨hrest, -⟩ := Fiber.ret_eq hframes
  have hcallers : ∀ c ∈ rest, p.Rests c.func c.pc := by
    intro c hc
    exact hf.callers c (by rw [hframes]; exact hc)
  refine ⟨⟨hf.disciplined.toNested.ret hframes, ?_⟩, ?_⟩
  · rw [hrest]
    exact fun c hc => hcallers c (List.mem_of_mem_tail hc)
  · intro c outer hc
    rw [hrest] at hc
    exact hcallers c (by simp [hc])

end Fiber

/-- A fault that is caught leaves nothing on the stack. -/
theorem stack_of_raise {p : Program} {f g g' : Fiber} {s t : Stage H} {fault : Nat} {site : Site}
    (hf : Nested p f) (hhandlers : g'.handlers = f.handlers) (h : raise g' s fault site = .next g t) :
    g.stack = [] ∧ g = g'.unwind fault := by
  unfold raise at h
  dsimp only at h
  split at h
  · cases h
  · rename_i hne
    cases h
    obtain ⟨x, hs, hx⟩ : ∃ x hs, g'.handlers = x :: hs := by
      cases hh : g'.handlers with
      | nil => simp [hh] at hne
      | cons x hs => exact ⟨x, hs, rfl⟩
    have hheight := (hf.handlers x (by rw [← hhandlers, hx]; exact List.mem_cons_self)).height
    refine ⟨?_, rfl⟩
    simp [Fiber.unwind, hx, hheight, cut_zero]

section

variable [Host H] {m : Machine H} {f g : Fiber} {fr : Frame} {rest : List Frame} {i : Instr}
  {s t : Stage H}

/-- An instruction keeps a fiber in order, and leaves it at rest unless it has asked. -/
theorem Fiber.Orderly.next (hp : CoupledProgram m.program) (hf : f.Orderly m.program)
    (hframes : f.frames = fr :: rest) (hi : Machine.instrAt m.program fr = .ok i)
    (hstep : step m fr i f s = .next g t) :
    g.Orderly m.program ∧
      (i.asks = false ∨ (step m fr i f s).Fails (f.jump (fr.pc + 1)) ⟨fr.func, fr.pc⟩ →
        g.Rests m.program) := by
  have hdisciplined := hf.disciplined.step hp.rules hframes hi s
  have hpast : (f.jump (fr.pc + 1)).frames = { fr with pc := fr.pc + 1 } :: rest := by
    simp [Fiber.jump, hframes]
  have htail : rest = f.frames.tail := by rw [hframes]; rfl
  have hmoves := step_moves (f := f) (i := i) (s := s) (m.keeps_true f.id) fr
  rw [hstep] at hdisciplined hmoves
  -- A fault leads to a place where the stack is empty, and so to rest.
  have hfails : (Outcome.next g t).Fails (f.jump (fr.pc + 1)) ⟨fr.func, fr.pc⟩ →
      g.Orderly m.program ∧ g.Rests m.program := by
    rintro (⟨g', u, fault, hframes', hhandlers, hraise⟩ | ⟨c, hcrash⟩)
    · have hsame : g'.handlers = f.handlers := hhandlers.trans (f.jump_handlers _)
      obtain ⟨hstack, rfl⟩ := stack_of_raise hf.disciplined.toNested hsame hraise.symm
      have horderly : (g'.unwind fault).Orderly m.program := by
        refine ⟨hdisciplined, fun c hc => hf.callers c ?_⟩
        have hin := g'.unwind_tail_subset fault hc
        rwa [hframes', Fiber.jump_tail] at hin
      exact ⟨horderly, horderly.rests_of_stack hp hstack⟩
    · cases hcrash
  have hplain (hsame : g.frames.tail = f.frames.tail)
      (hrests : i.asks = false → g.Rests m.program) :
      g.Orderly m.program ∧ (i.asks = false ∨ (step m fr i f s).Fails (f.jump (fr.pc + 1))
        ⟨fr.func, fr.pc⟩ → g.Rests m.program) := by
    refine ⟨⟨hdisciplined, hsame ▸ hf.callers⟩, ?_⟩
    rintro (hasks | hfail)
    · exact hrests hasks
    · rw [hstep] at hfail
      exact (hfails hfail).2
  have hstraight (hg : g.frames = (f.jump (fr.pc + 1)).frames) : i.asks = false → g.Rests m.program := by
    intro hasks c outer hc
    rw [hg, hpast] at hc
    cases hc
    exact hp.couples.next hi hasks
  generalize hout : Outcome.next g t = out at hmoves
  cases hmoves with
  | next _ _ _ frames _ _ =>
    cases hout
    exact hplain (by rw [frames, Fiber.jump_tail]) (hstraight frames)
  | jump _ isJump frames _ _ =>
    cases hout
    refine hplain (by rw [frames, Fiber.jump_tail, Fiber.jump_tail]) fun _ c outer hc => ?_
    have hthere : ((f.jump (fr.pc + 1)).jump (fr.pc + i.a.toInt)).frames =
        { fr with pc := fr.pc + i.a.toInt } :: rest := by simp [Fiber.jump, hframes]
    rw [frames, hthere] at hc
    cases hc
    exact hp.couples.jump hi isJump
  | call _ op frames _ _ =>
    cases hout
    have hasks : i.asks = false := by simp [Instr.asks, op, Op.asks]
    refine ⟨⟨hdisciplined, fun c hc => ?_⟩, fun _ c outer hc => ?_⟩
    · rw [frames, hpast] at hc
      rcases List.mem_cons.mp hc with rfl | hc
      · exact hp.couples.next hi hasks
      · exact hf.callers c (htail ▸ hc)
    · rw [frames] at hc
      cases hc
      exact hp.couples.start _
  | ret _ =>
    cases hout
    obtain ⟨hrest, -⟩ := Fiber.ret_eq hpast
    refine ⟨⟨hdisciplined, fun c hc => ?_⟩, fun _ c outer hc => ?_⟩
    · rw [hrest] at hc
      exact hf.callers c (htail ▸ List.mem_of_mem_tail hc)
    · rw [hrest] at hc
      exact hf.callers c (by rw [← htail, hc]; exact List.mem_cons_self)
  | tryStart _ _ frames _ _ =>
    cases hout
    exact hplain (by rw [frames, Fiber.jump_tail]) (hstraight frames)
  | tryEnd _ _ frames _ _ =>
    cases hout
    exact hplain (by rw [frames, Fiber.jump_tail]) (hstraight frames)
  | @raise g' u fault _ _ frames handlers _ =>
    obtain ⟨horderly, hrests⟩ := hfails (.inl ⟨g', u, fault, frames, handlers, hout⟩)
    exact ⟨horderly, fun _ => hrests⟩
  | park => cases hout
  | yield => cases hout
  | crash => cases hout

theorem Fiber.Orderly.stop_cases (hp : CoupledProgram m.program) (hf : f.Orderly m.program)
    (hframes : f.frames = fr :: rest) (hi : Machine.instrAt m.program fr = .ok i) {status : RunStatus}
    (hstep : step m fr i f s = .stop status g t) : status = .fault ∨ status = .waiting := by
  have hmoves := step_moves (f := f) (i := i) (s := s) (m.keeps_true f.id) fr
  rw [hstep] at hmoves
  generalize hout : Outcome.stop status g t = out at hmoves
  cases hmoves with
  | @raise g' u fault =>
    obtain ⟨x, v, -, ⟨hnext, -⟩ | ⟨hstop, -⟩⟩ := raise_cases g' u fault ⟨fr.func, fr.pc⟩
    · rw [hnext] at hout
      cases hout
    · rw [hstop] at hout
      cases hout
      exact .inl rfl
  | park =>
    cases hout
    exact .inr rfl
  | yield op => exact absurd op (hf.not_yield hp hframes hi)
  | _ => cases hout

omit [Host H] in
/-- A fiber that has asked stands at its `await`, with the handle on top of its stack. -/
theorem awaits_of_asks (hp : CoupledProgram m.program) (hframes : f.frames = fr :: rest)
    (hi : Machine.instrAt m.program fr = .ok i) (hasks : i.asks = true)
    (hguard : m.checkStack (f.jump (fr.pc + 1)) fr.base i = none)
    (frames : g.frames = (f.jump (fr.pc + 1)).frames) {k : Int} {below : List Value}
    (stack : g.stack = .handle k :: below) (length : (below.length : Int) = f.stack.length - i.pops) :
    Awaits m g k := by
  obtain ⟨j, hj, hop⟩ := hp.couples.asks hi hasks
  refine ⟨{ fr with pc := fr.pc + 1 }, j, below, ⟨rest, ?_⟩, hj, hop, ?_, stack⟩
  · rw [frames]
    simp [Fiber.jump, hframes]
  -- The call made room for the handle, and the `await` puts its answer in the same place.
  · have hone : j.pops = 1 ∧ j.pushes = 1 := by simp [Instr.pops, Instr.pushes, hop, Op.pops, Op.pushes]
    have hpushes : i.pushes = 1 := by
      rcases Instr.asks_eq_true_iff.mp hasks with hop' | hop' <;> simp [Instr.pushes, hop', Op.pushes]
    simp only [Machine.checkStack, Fiber.jump_stack, hpushes] at hguard
    simp only [Machine.checkStack, Fiber.jump_stack, hone.1, hone.2, stack, List.length_cons]
    split at hguard
    · cases hguard
    · split at hguard
      · cases hguard
      · rw [if_neg (by omega), if_neg (by omega)]

end

end TileMind
