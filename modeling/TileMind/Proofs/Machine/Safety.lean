import TileMind.Proofs.Machine.Lives
import TileMind.Proofs.Machine.Progress

/-!
# TileMind.Proofs.Machine.Safety

What the check of a program is worth. Whatever the instructions of a checked program are, the calls of
a fiber and its open `try` regions stay inside the code. One thing in it can bring the machine down,
which nobody checks: a host call that asks for a negative number of operands. Anything else that does
is not the program's.

* `step_placed`, `History.placed`: no instruction leads out of the code.
* `step_crash`, `run_crash`: how an instruction and a run can crash.
* `crash_of_checked`: how a scheduler for a checked program can.
-/

namespace TileMind

variable {H : Type}

/-! ## Places -/

/-- The function has code up to `pc`; right behind its last instruction counts. -/
def Program.Reaches (p : Program) (func pc : Int) : Prop :=
  ∃ fn, p.function? func = some fn ∧ 0 ≤ pc ∧ pc ≤ fn.code.size

/-- A `try` region leads into the code of the call that opened it, which is one of the active ones. -/
def Handler.Leads (p : Program) (funcs : List Int) (h : Handler) : Prop :=
  ∃ func outer, func :: outer <:+ funcs ∧ h.frameDepth = outer.length + 1 ∧ p.Reaches func h.catchPc

/-- Calls and regions stay inside the code, and regions of inner calls come first. -/
structure Fiber.Placed (p : Program) (f : Fiber) : Prop where
  frames : ∀ fr ∈ f.frames, p.Reaches fr.func fr.pc
  handlers : ∀ h ∈ f.handlers, h.Leads p (f.frames.map Frame.func)
  nested : f.handlers.Pairwise fun inner outer => outer.frameDepth ≤ inner.frameDepth

section

variable {p : Program} {f g : Fiber} {fr : Frame} {rest : List Frame}

theorem Handler.Leads.mono {h : Handler} {funcs funcs' : List Int} (hh : h.Leads p funcs)
    (hsub : funcs <:+ funcs') : h.Leads p funcs' := by
  obtain ⟨func, outer, hfuncs, hrest⟩ := hh
  exact ⟨func, outer, hfuncs.trans hsub, hrest⟩

/-- Leaving calls does not affect the regions further out. -/
theorem Handler.Leads.of_suffix {h : Handler} {funcs funcs' : List Int} (hh : h.Leads p funcs)
    (hsub : funcs' <:+ funcs) (hdepth : h.frameDepth ≤ funcs'.length) : h.Leads p funcs' := by
  obtain ⟨func, outer, hfuncs, hlength, hreaches⟩ := hh
  refine ⟨func, outer, List.suffix_of_suffix_length_le hfuncs hsub ?_, hlength, hreaches⟩
  rw [List.length_cons]
  omega

theorem Fiber.placed_start (id : Nat) {func : Int} {fn : Function} (hfn : p.function? func = some fn) :
    (Fiber.start id func).Placed p := by
  refine ⟨fun fr hfr => ?_, by simp [Fiber.start], by simp [Fiber.start]⟩
  obtain rfl : fr = { func := func } := by simpa [Fiber.start] using hfr
  exact ⟨fn, hfn, Int.le_refl 0, Int.natCast_nonneg _⟩

/-- What is said about a fiber's places depends on its calls and regions alone. -/
theorem Fiber.Placed.congr (hf : f.Placed p) (hframes : g.frames = f.frames)
    (hhandlers : g.handlers = f.handlers) : g.Placed p :=
  ⟨hframes ▸ hf.frames, by rw [hframes, hhandlers]; exact hf.handlers, hhandlers ▸ hf.nested⟩

theorem Fiber.Placed.jump (hf : f.Placed p) (hframes : f.frames = fr :: rest) {pc : Int}
    (hpc : p.Reaches fr.func pc) : (f.jump pc).Placed p := by
  have hjump : (f.jump pc).frames = { fr with pc := pc } :: rest := by simp [Fiber.jump, hframes]
  refine ⟨fun c hc => ?_, fun h hh => ?_, by rw [Fiber.jump_handlers]; exact hf.nested⟩
  · rw [hjump] at hc
    rcases List.mem_cons.mp hc with rfl | hc
    · exact hpc
    · exact hf.frames c (by rw [hframes]; exact List.mem_cons_of_mem _ hc)
  · rw [Fiber.jump_handlers] at hh
    have hleads := hf.handlers h hh
    rw [hframes] at hleads
    rw [hjump]
    exact hleads

theorem Fiber.Placed.called (hf : f.Placed p) {callee : Frame}
    (hcallee : p.Reaches callee.func callee.pc) (hframes : g.frames = callee :: f.frames)
    (hhandlers : g.handlers = f.handlers) : g.Placed p := by
  refine ⟨fun c hc => ?_, fun h hh => ?_, hhandlers ▸ hf.nested⟩
  · rw [hframes] at hc
    rcases List.mem_cons.mp hc with rfl | hc
    · exact hcallee
    · exact hf.frames c hc
  · rw [hhandlers] at hh
    rw [hframes, List.map_cons]
    exact (hf.handlers h hh).mono (List.suffix_cons _ _)

theorem Fiber.Placed.opened (hf : f.Placed p) (hframes : f.frames = fr :: rest) {h : Handler}
    (hcatch : p.Reaches fr.func h.catchPc) (hdepth : h.frameDepth = f.frames.length)
    (hsame : g.frames = f.frames) (hhandlers : g.handlers = h :: f.handlers) : g.Placed p := by
  refine ⟨hsame ▸ hf.frames, fun h' hh => ?_, ?_⟩
  · rw [hsame]
    rw [hhandlers] at hh
    rcases List.mem_cons.mp hh with rfl | hh
    · refine ⟨fr.func, rest.map Frame.func, ?_, by simp [hdepth, hframes], hcatch⟩
      simp [hframes]
    · exact hf.handlers h' hh
  · rw [hhandlers]
    refine List.pairwise_cons.mpr ⟨fun h' hh => ?_, hf.nested⟩
    obtain ⟨func, outer, hfuncs, hdepth', -⟩ := hf.handlers h' hh
    have hlength := hfuncs.length_le
    simp only [List.length_cons, List.length_map] at hlength
    omega

theorem Fiber.Placed.closed (hf : f.Placed p) (hsame : g.frames = f.frames)
    (hhandlers : g.handlers = f.handlers.tail) : g.Placed p := by
  refine ⟨hsame ▸ hf.frames, fun h hh => ?_, ?_⟩
  · rw [hsame]
    rw [hhandlers] at hh
    exact hf.handlers h (List.mem_of_mem_tail hh)
  · rw [hhandlers]
    exact hf.nested.sublist (List.tail_sublist _)

theorem Fiber.ret_eq (hframes : f.frames = fr :: rest) :
    f.ret.frames = rest ∧
      f.ret.handlers = f.handlers.dropWhile fun h => decide (rest.length < h.frameDepth) := by
  unfold Fiber.ret
  rw [hframes]
  dsimp only
  split
  · rename_i hempty
    exact ⟨(List.isEmpty_iff.mp hempty).symm, rfl⟩
  · exact ⟨rfl, rfl⟩

theorem Fiber.Placed.ret (hf : f.Placed p) (hframes : f.frames = fr :: rest) : f.ret.Placed p := by
  obtain ⟨hrest, hopen⟩ := Fiber.ret_eq hframes
  refine ⟨fun c hc => ?_, fun h hh => ?_, ?_⟩
  · rw [hrest] at hc
    exact hf.frames c (by rw [hframes]; exact List.mem_cons_of_mem _ hc)
  · rw [hopen] at hh
    have hdepth := frameDepth_le_of_mem_dropWhile hf.nested hh
    have hleads := hf.handlers h ((List.dropWhile_sublist _).subset hh)
    rw [hrest]
    refine hleads.of_suffix ?_ (by simpa using hdepth)
    rw [hframes, List.map_cons]
    exact List.suffix_cons _ _
  · rw [hopen]
    exact hf.nested.sublist (List.dropWhile_sublist _)

/-- A caught fault leads to the call that opened the region; without a region the fiber stays where it
is. -/
theorem Fiber.Placed.unwind (hf : f.Placed p) (fault : Nat) : (f.unwind fault).Placed p := by
  cases hhandlers : f.handlers with
  | nil =>
    refine hf.congr ?_ ?_
    · simp [Fiber.unwind, hhandlers]
    · simp [Fiber.unwind, hhandlers]
  | cons h hs =>
    obtain ⟨func, outer, hfuncs, hdepth, hreaches⟩ := hf.handlers h (by simp [hhandlers])
    -- The calls that are left are the one that opened the region and those further out.
    have hlength : outer.length + 1 ≤ f.frames.length := by
      simpa using hfuncs.length_le
    have hdrop : (f.frames.drop (f.frames.length - h.frameDepth)).map Frame.func = func :: outer := by
      rw [List.map_drop]
      refine (List.suffix_iff_eq_drop.mp hfuncs).symm ▸ ?_
      rw [List.length_cons, List.length_map, hdepth]
    obtain ⟨fr, rest, hframes, hfunc, hrest⟩ := List.map_eq_cons_iff.mp hdrop
    obtain ⟨hinner, houter⟩ := List.pairwise_cons.mp (hhandlers ▸ hf.nested)
    have hbefore : Fiber.Placed p { f with
        handlers := hs
        stack := Fiber.cut f.stack h.stackHeight
        frames := f.frames.drop (f.frames.length - h.frameDepth)
        lastFault := some fault } := by
      refine ⟨fun c hc => hf.frames c (List.mem_of_mem_drop hc), fun h' hh' => ?_, houter⟩
      have hleads := hf.handlers h' (by rw [hhandlers]; exact List.mem_cons_of_mem _ hh')
      refine hleads.of_suffix ?_ ?_
      · dsimp only
        rw [List.map_drop]
        exact List.drop_suffix _ _
      · have hle := hinner h' hh'
        dsimp only
        rw [hdrop, List.length_cons]
        omega
    have hjump := hbefore.jump hframes (hfunc ▸ hreaches)
    simpa only [Fiber.unwind, hhandlers] using hjump

end

/-! ## One instruction -/

/-- What the check of a program leaves open for an instruction: a host call that asks for a negative
number of operands, and what breaks although the program is sound. -/
inductive Machine.LeftOpen (m : Machine H) (s : Stage H) : Crash → Prop where
  | operandCount {func k : Nat} {fn : Function} {i : Instr} (found : m.program.functions[func]? = some fn)
      (instr : fn.code[k]? = some i) (op : i.op? = some .hostCall ∨ i.op? = some .hostCallAsync)
      (negative : i.b.toInt < 0) : LeftOpen m s (.operandCount i.b.toInt)
  | breaks {c : Crash} (h : m.Breaks s c) : LeftOpen m s c

/-- A machine that runs a checked program. -/
structure Machine.Checked (m : Machine H) : Prop where
  check : m.program.check = .ok ()
  constants : m.constants.size = m.program.constants.size
  polite : m.Polite

theorem raise_ne_crash {f : Fiber} {s : Stage H} {fault : Nat} {site : Site} {c : Crash} :
    raise f s fault site ≠ .crash c := by
  unfold raise
  dsimp only
  split <;> simp

theorem raiseNew_ne_crash {f : Fiber} {s : Stage H} {fault : Fault} {site : Site} {c : Crash} :
    raiseNew f s fault site ≠ .crash c := raise_ne_crash

theorem instrAt_eq_ok {p : Program} {fr : Frame} {i : Instr} (h : Machine.instrAt p fr = .ok i) :
    ∃ (func k : Nat) (fn : Function), fr.func = func ∧ fr.pc = k ∧ p.functions[func]? = some fn ∧
      fn.code[k]? = some i := by
  unfold Machine.instrAt at h
  split at h
  · cases h
  · rename_i fn hfn
    obtain ⟨func, hfunc, hfound⟩ := Program.function?_eq_some_iff.mp hfn
    split at h
    · cases h
    · split at h
      · cases h
      · rename_i hpc j hj
        cases h
        exact ⟨func, fr.pc.toNat, fn, hfunc, by omega, hfound, hj⟩

section

variable [Host H] {m : Machine H} {f : Fiber} {fr : Frame} {rest : List Frame} {i : Instr}
  {s : Stage H}

/-- An instruction that finds its operands and its constant crashes on a negative number of operands, or
it breaks. A function call with a negative number takes none. -/
theorem exec_crash {op : Op} (hop : i.op? = some op) (hpops : i.pops ≤ f.stack.length)
    (hconstant : op = .pushConst ∨ op = .mapNew → m.constant? i.a ≠ none) {site : Site} {c : Crash}
    (h : exec m op i fr site f s = .crash c) :
    (op = .hostCall ∨ op = .hostCallAsync) ∧ i.b.toInt < 0 ∧ c = .operandCount i.b.toInt ∨
      m.Breaks s c := by
  by_cases h0 : 0 ≤ i.pops
  · have hgoes := exec_goes (s := s) hop fr h0 hpops hconstant site
    rw [h] at hgoes
    exact .inr hgoes
  · have hnone : op.pops = none := by
      cases hn : op.pops with
      | none => rfl
      | some n =>
        have : i.pops = n := by simp [Instr.pops, hop, hn]
        omega
    have hb : i.b.toInt < 0 := by
      have : i.pops = i.b.toInt := by simp [Instr.pops, hop, hnone]
      omega
    left
    cases op with
    | hostCall =>
      simp only [exec, withOperands, if_pos hb] at h
      cases h
      exact ⟨.inl rfl, hb, rfl⟩
    | hostCallAsync =>
      simp only [exec, withOperands, if_pos hb] at h
      cases h
      exact ⟨.inr rfl, hb, rfl⟩
    | call =>
      simp only [exec] at h
      split at h
      · exact absurd h raiseNew_ne_crash
      · cases h
    | _ => cases hnone

theorem step_crash (hm : m.Checked) (hi : Machine.instrAt m.program fr = .ok i)
    {c : Crash} (h : step m fr i f s = .crash c) : m.LeftOpen s c := by
  obtain ⟨func, k, fn, hfunc, hpc, hfn, hk⟩ := instrAt_eq_ok hi
  have hchecked := Program.checkInstr_of_check hm.check hfn hk
  unfold step at h
  dsimp only at h
  split at h
  · exact absurd h raiseNew_ne_crash
  · rename_i hguard
    split at h
    · rename_i op hop
      have hpops : i.pops ≤ (f.jump (fr.pc + 1)).stack.length := by
        by_contra hlow
        rw [Fiber.jump_stack] at hlow
        have hfew : (f.stack.length : Int) - fr.base < i.pops := by omega
        simp [Machine.checkStack, hfew] at hguard
      have hconstant : op = .pushConst ∨ op = .mapNew → m.constant? i.a ≠ none := by
        intro hconst
        obtain ⟨hpos, hlt⟩ := Program.constant_of_checkInstr hchecked (by simpa [hop] using hconst)
        rw [Machine.constant?, if_neg (by omega), Array.getElem?_eq_getElem (by rw [hm.constants]; omega)]
        simp
      obtain ⟨hcall, hb, rfl⟩ | hbreaks := exec_crash hop hpops hconstant h
      · refine .operandCount hfn hk ?_ hb
        rcases hcall with rfl | rfl
        · exact .inl hop
        · exact .inr hop
      · exact .breaks hbreaks
    · exact absurd h raiseNew_ne_crash

/-- The fiber that an instruction leaves behind is in its place. -/
def Outcome.Placed (p : Program) : Outcome H → Prop
  | .next f _ | .stop _ f _ => f.Placed p
  | .crash _ => True

/-- Jumps were checked, a called function exists, and a region is opened for the call at hand. -/
theorem step_placed (hcheck : m.program.check = .ok ()) (hf : f.Placed m.program)
    (hframes : f.frames = fr :: rest) (hi : Machine.instrAt m.program fr = .ok i) (s : Stage H) :
    (step m fr i f s).Placed m.program := by
  obtain ⟨func, k, fn, hfunc, hpc, hfn, hk⟩ := instrAt_eq_ok hi
  have hchecked := Program.checkInstr_of_check hcheck hfn hk
  have hfound : m.program.function? fr.func = some fn :=
    Program.function?_eq_some_iff.mpr ⟨func, hfunc, hfn⟩
  have hlt : k < fn.code.size := (Array.getElem?_eq_some_iff.mp hk).1
  have htarget (hjump : i.isJump = true) : m.program.Reaches fr.func (fr.pc + i.a.toInt) := by
    have hin := Program.target_of_checkInstr hchecked hjump
    rw [hpc]
    exact ⟨fn, hfound, hin.1, hin.2⟩
  have hpast : (f.jump (fr.pc + 1)).Placed m.program :=
    hf.jump hframes ⟨fn, hfound, by omega, by omega⟩
  have hpastFrames : (f.jump (fr.pc + 1)).frames = { fr with pc := fr.pc + 1 } :: rest := by
    simp [Fiber.jump, hframes]
  have hmoves := step_moves (f := f) (i := i) (s := s) (m.keeps_true f.id) fr
  generalize step m fr i f s = out at hmoves
  cases hmoves with
  | next _ _ _ frames handlers _ => exact hpast.congr frames handlers
  | jump _ isJump frames handlers _ =>
    have hthere := hpast.jump hpastFrames (htarget isJump)
    exact hthere.congr frames (handlers.trans (Fiber.jump_handlers _ _).symm)
  | call _ op frames handlers _ =>
    obtain ⟨callee, hcallee⟩ := Program.callee_of_checkInstr hchecked op
    exact hpast.called ⟨callee, hcallee, Int.le_refl 0, Int.natCast_nonneg _⟩ frames handlers
  | ret _ => exact hpast.ret hpastFrames
  | tryStart _ op frames handlers _ =>
    have hjump : i.isJump = true := by simp [Instr.isJump, op, Op.isJump]
    exact hpast.opened hpastFrames (htarget hjump) rfl frames handlers
  | tryEnd _ _ frames handlers _ => exact hpast.closed frames handlers
  | @raise g t fault _ _ frames handlers _ =>
    have hplaced := (hpast.congr frames handlers).unwind fault
    unfold raise
    dsimp only
    split
    · exact hplaced
    · exact hplaced
  | park _ _ _ =>
    have hhere : m.program.Reaches fr.func fr.pc := ⟨fn, hfound, by omega, by omega⟩
    exact (hpast.jump hpastFrames hhere).congr rfl rfl
  | yield _ => exact hpast
  | crash => trivial

theorem History.placed {g : Fiber} {es : List Event} (hcheck : m.program.check = .ok ())
    (h : History m f es g) (hf : f.Placed m.program) : g.Placed m.program := by
  induction h with
  | refl => exact hf
  | @next es g g' fr rest i s s' _ _ frames instr done ih =>
    have hplaced := step_placed hcheck ih frames instr s
    rwa [done] at hplaced
  | @stop es g g' fr rest i s s' status _ _ frames instr done ih =>
    have hplaced := step_placed hcheck ih frames instr s
    rwa [done] at hplaced
  | fallOff _ _ frames _ _ ih => exact ih.ret frames
  | finish _ _ ih => exact ih.congr rfl rfl
  | resume _ _ _ ih => exact ih.congr rfl rfl
  | cancel _ _ ih => exact ih.congr rfl rfl

end

/-! ## Runs -/

/-- The returns that are due lead to an instruction, or out of the last call. -/
theorem Fiber.Placed.settle {p : Program} (calls : Nat) {f : Fiber} (hf : f.Placed p)
    (hcalls : f.frames.length ≤ calls) :
    ∃ g, Machine.settle p calls f = .ok g ∧ g.Placed p ∧ g.id = f.id ∧
      ∀ fr rest, g.frames = fr :: rest → ∃ i, Machine.instrAt p fr = .ok i := by
  induction calls generalizing f with
  | zero =>
    have hnone : f.frames = [] := List.length_eq_zero_iff.mp (Nat.le_zero.mp hcalls)
    refine ⟨f, rfl, hf, rfl, fun fr rest hframes => ?_⟩
    rw [hnone] at hframes
    cases hframes
  | succ calls ih =>
    cases hframes : f.frames with
    | nil =>
      refine ⟨f, by simp [Machine.settle, hframes], hf, rfl, fun fr rest hcons => ?_⟩
      rw [hframes] at hcons
      cases hcons
    | cons fr rest =>
      obtain ⟨fn, hfn, hpos, hle⟩ := hf.frames fr (by simp [hframes])
      by_cases hlt : fr.pc < fn.code.size
      · refine ⟨f, by simp [Machine.settle, hframes, hfn, hlt], hf, rfl, fun c outer hcons => ?_⟩
        rw [hframes] at hcons
        cases hcons
        have hk : fr.pc.toNat < fn.code.size := by omega
        refine ⟨fn.code[fr.pc.toNat], ?_⟩
        simp only [Machine.instrAt, hfn, if_neg (show ¬ fr.pc < 0 by omega),
          Array.getElem?_eq_getElem hk]
      · have hrest : f.ret.frames.length ≤ calls := by
          rw [(Fiber.ret_eq hframes).1]
          simpa [hframes] using hcalls
        obtain ⟨g, hg, hplaced, hid, hinstr⟩ := ih (hf.ret hframes) hrest
        refine ⟨g, by simp [Machine.settle, hframes, hfn, hlt, hg], hplaced, ?_, hinstr⟩
        rw [hid, f.continues_ret.id]

section

variable [Host H] {m : Machine H} {f : Fiber} {s : Stage H} {c : Crash}

/-- A run comes to a stage at which the crash is left open. -/
def Machine.ComesTo (m : Machine H) (f : Fiber) (s : Stage H) (c : Crash) : Prop :=
  ∃ n g t, m.runFor n f s = .ok (.budget, g, t) ∧ m.LeftOpen t c

theorem runFor_crash (hm : m.Checked) (budget : Nat) (hf : f.Placed m.program)
    (h : m.runFor budget f s = .error c) : m.ComesTo f s c := by
  induction budget generalizing f s with
  | zero =>
    obtain ⟨g, hg, -⟩ := hf.settle _ (Nat.le_refl _)
    unfold Machine.runFor at h
    rw [hg] at h
    dsimp only at h
    split at h <;> cases h
  | succ budget ih =>
    obtain ⟨g, hg, hplaced, -, hinstr⟩ := hf.settle _ (Nat.le_refl _)
    unfold Machine.runFor at h
    rw [hg] at h
    dsimp only at h
    split at h
    · cases h
    · rename_i fr rest hframes
      obtain ⟨i, hi⟩ := hinstr fr rest hframes
      have hthere := step_placed hm.check hplaced hframes hi s
      rw [hi] at h
      dsimp only at h
      split at h
      · rename_i f' s' hstep
        rw [hstep] at hthere
        obtain ⟨n, g', t, hran, hopen⟩ := ih hthere h
        refine ⟨n + 1, g', t, ?_, hopen⟩
        unfold Machine.runFor
        simp only [hg, hframes, hi, hstep, hran]
      · cases h
      · rename_i hstep
        cases h
        refine ⟨0, g, s, ?_, step_crash hm hi hstep⟩
        unfold Machine.runFor
        simp only [hg, hframes]

theorem run_crash (hm : m.Checked) {budget : Int} (hf : f.Placed m.program) (hstate : f.state = .runnable)
    (h : m.run budget f s = .error c) : m.ComesTo f s c := by
  unfold Machine.run at h
  split at h
  · cases h
  · have hsame : { f with state := .runnable } = f := by rw [← hstate]
    rw [hsame] at h
    exact runFor_crash hm _ hf h

end

/-! ## Schedulers -/

namespace Scheduler

variable [Host H] {s s' : Scheduler H}

/-- The invariant of a scheduler for a checked program. -/
structure Guarded (s : Scheduler H) : Prop where
  steady : s.Steady
  checked : s.machine.Checked
  placed : ∀ f ∈ s.live, f.Placed s.machine.program

omit [Host H] in
theorem Steady.numbered (hs : s.Steady) : s.Numbered := ⟨hs.sound.ids, hs.sound.bounded⟩

theorem Step.lives {a : Action} {as : List (Int × Answer)} (h : s.Step a as s') (hs : s.Numbered) :
    s.Lives s' := by
  cases h with
  | spawn h => exact lives_spawn hs h
  | mail _ | merge | skip _ _ => exact .of_live hs rfl rfl rfl
  | work _ => exact lives_stage hs _
  | @run f g rest status stage as s' _ found state _ _ next =>
    have htake : s.Lives { s with queue := rest } := .of_live hs rfl rfl rfl
    exact htake.trans (lives_runFiber htake.numbered found state next)
  | cancel found => exact lives_cancelFiber hs found
  | cancelAll => exact lives_cancelAll hs

theorem Lives.placed (h : s.Lives s') (hcheck : s.machine.program.check = .ok ())
    (hs : ∀ f ∈ s.live, f.Placed s.machine.program) : ∀ g ∈ s'.live, g.Placed s'.machine.program := by
  intro g hg
  rw [h.machine]
  obtain ⟨f, es, hhistory, hlive | ⟨func, fn, hfn, rfl⟩⟩ := h.past g hg
  · exact hhistory.placed hcheck (hs f hlive)
  · exact hhistory.placed hcheck (Fiber.placed_start _ hfn)

theorem Step.guarded {a : Action} {as : List (Int × Answer)} (h : s.Step a as s') (hs : s.Guarded) :
    s'.Guarded := by
  have hlives := h.lives hs.steady.numbered
  exact ⟨h.steady hs.steady, hlives.machine ▸ hs.checked, hlives.placed hs.checked.check hs.placed⟩

theorem Steps.guarded {es : List (Action × List (Int × Answer))} (h : s.Steps es s')
    (hs : s.Guarded) : s'.Guarded := by
  induction h with
  | refl s => exact hs
  | step first _ ih => exact ih (first.guarded hs)

theorem run_of_runFiber {f : Fiber} {c : Crash} (h : s.runFiber f = .error c) :
    s.machine.run s.machine.limits.budget f s.stage = .error c := by
  unfold runFiber at h
  split at h
  · rename_i c' hrun
    cases h
    exact hrun
  · dsimp only at h
    split at h <;> cases h

/-- One round of a tick: there is nothing left to run, or a step is made, or a run crashes. -/
theorem drain_succ (rounds : Nat) (hs : s.Steady) :
    drain (rounds + 1) s = .ok s ∨
    (∃ a as s', s.Step a as s' ∧ drain (rounds + 1) s = drain rounds s') ∨
    ∃ f rest c, f ∈ s.live ∧ f.state = .runnable ∧ { s with queue := rest }.runFiber f = .error c ∧
      drain (rounds + 1) s = .error c := by
  cases hqueue : s.queue with
  | nil => exact .inl (by simp [drain, hqueue])
  | cons id rest =>
    have hskip (hidle : ∀ f, s.fiber? id = some f → f.state ≠ .runnable) :
        s.Step .skip [] { s with queue := rest } := .skip hqueue hidle
    cases hfound : s.fiber? id with
    | none =>
      have hnone : Scheduler.fiber? { s with queue := rest } id = none := hfound
      refine .inr (.inl ⟨_, _, _, hskip (by simp [hfound]), ?_⟩)
      simp [drain, hqueue, hnone]
    | some f =>
      have hsome : Scheduler.fiber? { s with queue := rest } id = some f := hfound
      obtain ⟨hf, hid⟩ := mem_of_fiber? hfound
      by_cases hstate : f.state = .runnable
      · cases hrun : { s with queue := rest }.runFiber f with
        | error c =>
          exact .inr (.inr ⟨f, rest, c, hf, hstate, hrun, by simp [drain, hqueue, hsome, hstate, hrun]⟩)
        | ok s' =>
          obtain ⟨status, g, stage, hran⟩ := ran_of_runFiber hrun
          obtain ⟨as, has⟩ := hs.sound.uses hstate hran
          have hid : f.id = id := by omega
          refine .inr (.inl ⟨_, as, s', .run (hid ▸ hqueue) hf hstate hran has hrun, ?_⟩)
          simp [drain, hqueue, hsome, hstate, hrun]
      · refine .inr (.inl ⟨_, _, _, hskip (by simp [hfound, hstate]), ?_⟩)
        simp [drain, hqueue, hsome, hstate]

/-- A tick does not end, or in its course a live fiber comes to a stage at which the crash is left open. -/
def LeftOpen (s : Scheduler H) (c : Crash) : Prop :=
  c = .endless ∨ ∃ es s' f, s.Steps es s' ∧ f ∈ s'.live ∧ s'.machine.ComesTo f s'.stage c

/-- In its course a live fiber comes to a stage at which the machine breaks. -/
def Breaks (s : Scheduler H) (c : Crash) : Prop :=
  ∃ es s' f n g t, s.Steps es s' ∧ f ∈ s'.live ∧ s'.machine = s.machine ∧
    s'.machine.runFor n f s'.stage = .ok (.budget, g, t) ∧ s'.machine.Breaks t c

theorem LeftOpen.after {es : List (Action × List (Int × Answer))} {c : Crash} (hsteps : s.Steps es s')
    (h : s'.LeftOpen c) : s.LeftOpen c := by
  obtain rfl | ⟨es', s'', f, hmore, hf, hcomes⟩ := h
  · exact .inl rfl
  · exact .inr ⟨es ++ es', s'', f, hsteps.trans hmore, hf, hcomes⟩

theorem drain_crash (rounds : Nat) (hs : s.Guarded) {c : Crash} (h : drain rounds s = .error c) :
    s.LeftOpen c := by
  induction rounds generalizing s with
  | zero =>
    unfold drain at h
    split at h
    · cases h
    · cases h
      exact .inl rfl
  | succ rounds ih =>
    obtain hdone | ⟨a, as, s', hstep, hrest⟩ | ⟨f, rest, c', hf, hstate, hrun, hcrash⟩ :=
      drain_succ rounds hs.steady
    · rw [hdone] at h
      cases h
    · rw [hrest] at h
      exact (ih (hstep.guarded hs) h).after hstep.steps
    · rw [hcrash] at h
      cases h
      have hran := run_of_runFiber hrun
      exact .inr ⟨[], s, f, .refl s, hf, run_crash hs.checked (hs.placed f hf) hstate hran⟩

theorem tick_crash (hs : s.Guarded) {c : Crash} (h : s.tick = .error c) : s.LeftOpen c := by
  unfold tick at h
  have hopens : s.Step .mail [] { s with inbox := [] } := .mail (by simp)
  have hempty := hopens.guarded hs
  obtain ⟨es, herrands⟩ := steps_doErrands s.inbox hs.steady.sound.inbox hempty.steady
  have hmerges := Step.merge (s := doErrands s.inbox { s with inbox := [] })
  have hready := hopens.steps.trans (herrands.trans hmerges.steps)
  exact (drain_crash _ (hready.guarded hs) h).after hready

end Scheduler

open Scheduler

section

variable [Host H] {s : Scheduler H}

theorem Operation.crash_of_perform {op : Operation H} (hs : s.Guarded) {c : Crash}
    (h : op.perform s = .error c) : s.LeftOpen c := by
  cases op with
  | tick => exact tick_crash hs h
  | spawn func | cancel fiber | cancelHandle handle =>
    simp only [perform] at h
    split at h <;> cases h
  | cancelAll | post e | resolve handle v | reject handle fault | act run => cases h

variable (p : Program) (svc : Services (Stage H)) (limits : Limits) (heap : Heap) (host : H)

omit [Host H] in
theorem guarded_create (hcheck : p.check = .ok ()) (hm : (Machine.load p svc limits heap).1.Polite) :
    (Scheduler.create p svc limits heap host).Guarded :=
  ⟨steady_create p svc limits heap host hm,
    ⟨hcheck, Machine.size_constants_load p svc limits heap, hm⟩,
    fun _ hf => absurd hf List.not_mem_nil⟩

end

end TileMind
