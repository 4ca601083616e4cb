import TileMind.Proofs.Machine.Ceilings

/-!
# TileMind.Proofs.Machine.Operands

What a call leaves of its caller's operands. The values that lie below the base of a call stay there
until the call is left, whatever it executes: its instructions find their operands above the base, the
calls it makes begin above it, and the regions it opens go back to a height above it.

* `Fiber.Inside`: a fiber inside of a call.
* `Fiber.Leaves`: the two ways out of a call.
* `Fiber.Inside.transition`: a move stays inside of the call or leaves it in one of them.
* `calls_spare_operands`: what the caller finds after the call.
-/

namespace TileMind

open Relation (ReflTransGen)

variable {H : Type}

/-! ## Stacks -/

theorem suffix_drop {low stack : List Value} {n : Nat} (h : low <:+ stack)
    (hn : n + low.length ≤ stack.length) : low <:+ stack.drop n := by
  refine List.suffix_of_suffix_length_le h (List.drop_suffix _ _) ?_
  rw [List.length_drop]
  omega

theorem suffix_cut {low stack : List Value} {height : Nat} (h : low <:+ stack)
    (hheight : low.length ≤ height) : low <:+ Fiber.cut stack height := by
  have hlength := h.length_le
  have hdrop : low <:+ stack.drop (stack.length - height) := suffix_drop h (by omega)
  exact hdrop.trans (List.suffix_append _ _)

theorem cut_append (above low : List Value) : Fiber.cut (above ++ low) low.length = low := by
  simp [Fiber.cut]

namespace Fiber

@[simp] theorem length_frames_jump (f : Fiber) (pc : Int) :
    (f.jump pc).frames.length = f.frames.length := by
  cases hframes : f.frames <;> simp [jump, hframes]

end Fiber

/-! ## Inside of a call -/

/-- A fiber inside of the call `callee`: the calls `outer` wait for it, and the values `low` lie below
everything that it, and the calls it has made, have put on the stack or will go back to. -/
structure Fiber.Inside (callee : Frame) (outer : List Frame) (low : List Value) (f : Fiber) : Prop where
  frames : ∃ inner pc, f.frames = inner ++ { callee with pc := pc } :: outer ∧
    ∀ fr ∈ inner, low.length ≤ fr.base
  stack : low <:+ f.stack
  handlers : ∀ h ∈ f.handlers, outer.length < h.frameDepth → low.length ≤ h.stackHeight

/-- The ways out of a call: it returns, with the top of what it has put on the stack or else void, or a
fault is caught in a region that was open before. -/
inductive Fiber.Leaves (outer : List Frame) (low : List Value) (f g : Fiber) : Prop where
  | returned {above : List Value} (found : f.stack = above ++ low) (back : g = f.ret)
      (frames : g.frames = outer) (stack : g.stack = above.headD .void :: low)
  | unwound {x : Fiber} {h : Handler} {hs : List Handler} {fault : Nat} (region : f.handlers = h :: hs)
      (outside : h.frameDepth ≤ outer.length) (same : x.handlers = f.handlers)
      (caught : g = x.unwind fault) (frames : g.frames.length = h.frameDepth)
      (stack : g.stack.length = h.stackHeight)

namespace Fiber

variable {callee : Frame} {outer : List Frame} {low : List Value} {f g : Fiber} {fr : Frame}
  {rest : List Frame}

theorem Inside.length_lt (hf : f.Inside callee outer low) : outer.length < f.frames.length := by
  obtain ⟨inner, pc, hframes, -⟩ := hf.frames
  rw [hframes]
  simp
  omega

theorem Inside.congr (hf : f.Inside callee outer low) (hframes : g.frames = f.frames)
    (hhandlers : g.handlers ⊆ f.handlers) (hstack : low <:+ g.stack) : g.Inside callee outer low := by
  refine ⟨?_, hstack, ?_⟩
  · rw [hframes]
    exact hf.frames
  · intro h hh
    exact hf.handlers h (hhandlers hh)

/-- The innermost call begins above the values. -/
theorem Inside.base_le (hbase : callee.base = low.length) (hf : f.Inside callee outer low)
    (hframes : f.frames = fr :: rest) : low.length ≤ fr.base := by
  obtain ⟨inner, pc, hsplit, hinner⟩ := hf.frames
  rw [hframes] at hsplit
  cases inner with
  | nil =>
    obtain ⟨rfl, -⟩ := List.cons.inj hsplit
    exact hbase.ge
  | cons c inner =>
    obtain ⟨rfl, -⟩ := List.cons.inj hsplit
    exact hinner fr List.mem_cons_self

theorem Inside.jump (hf : f.Inside callee outer low) (pc : Int) :
    (f.jump pc).Inside callee outer low := by
  refine ⟨?_, by simpa using hf.stack, by simpa using hf.handlers⟩
  obtain ⟨inner, pc', hframes, hinner⟩ := hf.frames
  cases inner with
  | nil => exact ⟨[], pc, by simp [Fiber.jump, hframes], by simp⟩
  | cons c inner =>
    refine ⟨{ c with pc := pc } :: inner, pc', by simp [Fiber.jump, hframes], ?_⟩
    intro fr hfr
    rcases List.mem_cons.mp hfr with rfl | hfr
    · exact hinner c List.mem_cons_self
    · exact hinner fr (List.mem_cons_of_mem _ hfr)

theorem Inside.call (hf : f.Inside callee outer low) (hframes : g.frames = fr :: f.frames)
    (hbase : low.length ≤ fr.base) (hhandlers : g.handlers = f.handlers) (hstack : low <:+ g.stack) :
    g.Inside callee outer low := by
  refine ⟨?_, hstack, by rw [hhandlers]; exact hf.handlers⟩
  obtain ⟨inner, pc, hsplit, hinner⟩ := hf.frames
  refine ⟨fr :: inner, pc, by rw [hframes, hsplit]; rfl, ?_⟩
  intro c hc
  rcases List.mem_cons.mp hc with rfl | hc
  · exact hbase
  · exact hinner c hc

theorem Inside.ret_inner (hf : f.Inside callee outer low) (hdeep : outer.length + 1 < f.frames.length) :
    f.ret.Inside callee outer low := by
  obtain ⟨inner, pc, hframes, hinner⟩ := hf.frames
  cases inner with
  | nil => simp [hframes] at hdeep
  | cons fr inner =>
    rw [List.cons_append] at hframes
    obtain ⟨hrest, hopen⟩ := Fiber.ret_eq hframes
    refine ⟨⟨inner, pc, hrest, ?_⟩, ?_, ?_⟩
    · intro c hc
      exact hinner c (List.mem_cons_of_mem _ hc)
    · have hcut := suffix_cut hf.stack (hinner fr List.mem_cons_self)
      simp only [Fiber.ret, hframes]
      rw [if_neg (by simp)]
      exact hcut.trans (List.suffix_cons _ _)
    · intro h hh
      rw [hopen] at hh
      exact hf.handlers h ((List.dropWhile_sublist _).subset hh)

theorem Inside.ret (hbase : callee.base = low.length) (houter : outer ≠ [])
    (hf : f.Inside callee outer low) : f.ret.Inside callee outer low ∨ f.Leaves outer low f.ret := by
  obtain ⟨inner, pc, hframes, hinner⟩ := hf.frames
  cases inner with
  | nil =>
    right
    obtain ⟨above, habove⟩ := hf.stack
    refine .returned habove.symm rfl ?_ ?_
    · simp [Fiber.ret, hframes, houter]
    · simp only [Fiber.ret, hframes, List.nil_append, hbase, ← habove, cut_append]
      rw [if_neg (by simpa using houter)]
      cases above with
      | nil => simp
      | cons v above =>
        have hmore : (v :: above ++ low).length > low.length := by
          rw [List.length_append, List.length_cons]
          omega
        rw [if_pos hmore]
        rfl
  | cons fr inner =>
    left
    refine hf.ret_inner ?_
    rw [hframes, List.cons_append, List.length_cons, List.length_append, List.length_cons]
    omega

theorem Inside.unwind_inner (hg : g.Inside callee outer low) {h : Handler} {hs : List Handler}
    (hhandlers : g.handlers = h :: hs) (hinside : outer.length < h.frameDepth) (fault : Nat) :
    (g.unwind fault).Inside callee outer low := by
  have hheight := hg.handlers h (by simp [hhandlers]) hinside
  have hbefore : Inside callee outer low { g with
      handlers := hs
      stack := cut g.stack h.stackHeight
      frames := g.frames.drop (g.frames.length - h.frameDepth)
      lastFault := some fault } := by
    refine ⟨?_, suffix_cut hg.stack hheight, ?_⟩
    · obtain ⟨inner, pc, hframes, hinner⟩ := hg.frames
      -- Only calls made inside are left.
      have hle : g.frames.length - h.frameDepth ≤ inner.length := by
        simp [hframes]
        omega
      refine ⟨inner.drop (g.frames.length - h.frameDepth), pc, ?_, ?_⟩
      · dsimp only
        rw [hframes] at hle ⊢
        rw [List.drop_append_of_le_length hle]
      · intro c hc
        exact hinner c (List.mem_of_mem_drop hc)
    · intro h' hh'
      exact hg.handlers h' (by simp [hhandlers, hh'])
  have hjump := hbefore.jump h.catchPc
  simpa only [Fiber.unwind, hhandlers] using hjump

/-- A fault is caught inside of the call, or in a region that was open before. The instruction of `f`
that raises it may have taken its operands already. -/
theorem Inside.unwind (hg : g.Inside callee outer low) {h : Handler} {hs : List Handler}
    (hregions : f.handlers = h :: hs) (hsame : g.handlers = f.handlers) (fault : Nat) :
    (g.unwind fault).Inside callee outer low ∨ f.Leaves outer low (g.unwind fault) := by
  have hhandlers : g.handlers = h :: hs := hsame.trans hregions
  by_cases hinside : outer.length < h.frameDepth
  · exact .inl (hg.unwind_inner hhandlers hinside fault)
  · right
    have hlength := hg.length_lt
    refine .unwound hregions (by omega) hsame rfl ?_ (length_unwind hhandlers fault)
    simp only [Fiber.unwind, hhandlers, length_frames_jump, List.length_drop]
    omega

theorem Leaves.length_le (h : f.Leaves outer low g) : g.frames.length ≤ outer.length := by
  cases h with
  | returned _ _ frames _ => rw [frames]
  | unwound _ outside _ _ frames _ => rwa [frames]

end Fiber

/-! ## One instruction -/

/-- An instruction of `f` stays inside of the call or leaves it. A fiber that stops is inside. -/
def Outcome.Spares (callee : Frame) (outer : List Frame) (low : List Value) (f : Fiber) :
    Outcome H → Prop
  | .next g _ => g.Inside callee outer low ∨ f.Leaves outer low g
  | .stop _ g _ => g.Inside callee outer low
  | .crash _ => True

section

variable {callee : Frame} {outer : List Frame} {low : List Value} {f g : Fiber} {fr : Frame}
  {rest : List Frame}

/-- A fault is caught inside of the call, leaves it, or ends the fiber. -/
theorem Fiber.Inside.raise (hg : g.Inside callee outer low) (hsame : g.handlers = f.handlers)
    (t : Stage H) (fault : Nat) (site : Site) :
    (raise g t fault site).Spares callee outer low f := by
  unfold TileMind.raise
  dsimp only
  cases hregions : g.handlers with
  | nil =>
    rw [if_pos (by rfl)]
    have hend : g.unwind fault = { g with fault := some fault, state := .fault } := by
      simp [Fiber.unwind, hregions]
    rw [hend]
    exact hg.congr rfl (List.Subset.refl _) hg.stack
  | cons h hs =>
    rw [if_neg (by simp)]
    exact hg.unwind (hsame.symm.trans hregions) hsame fault

variable [Host H] {m : Machine H} {i : Instr} {s : Stage H}

theorem step_spares (hbase : callee.base = low.length) (houter : outer ≠ [])
    (hf : f.Inside callee outer low) (hframes : f.frames = fr :: rest) (i : Instr) (s : Stage H) :
    (step m fr i f s).Spares callee outer low f := by
  have hpast := hf.jump (fr.pc + 1)
  have hregions : (f.jump (fr.pc + 1)).handlers = f.handlers := f.jump_handlers _
  rcases step_refused_or_admitted m fr i f s with ⟨fault, hrefused⟩ | hadmits
  · rw [hrefused]
    exact hpast.raise hregions _ _ _
  · -- The operands lie above the base of the innermost call, so none of the values is taken.
    have hbelow : low <:+ (f.jump (fr.pc + 1)).stack.drop i.pops.toNat := by
      have hlow := hf.base_le hbase hframes
      have hheight := hf.stack.length_le
      have hoperands := hadmits.operands
      refine suffix_drop hpast.stack ?_
      rw [Fiber.jump_stack]
      omega
    have hmoves := step_moves (f := f) (i := i) (s := s) (m.keeps_true f.id) fr
    generalize step m fr i f s = out at hmoves
    cases hmoves with
    | next _ _ _ frames handlers _ below =>
      left
      exact hpast.congr frames (by simp [handlers]) (hbelow.trans below)
    | jump _ _ frames handlers _ below =>
      left
      exact (hpast.jump _).congr frames (by simp [handlers]) (hbelow.trans below)
    | @call g _ op frames handlers stack =>
      left
      have hpops : i.pops = i.b.toInt := by simp [Instr.pops, op, Op.pops]
      have hstack : low <:+ g.stack := by
        rw [stack, ← hpops]
        exact hbelow
      exact hpast.call frames hstack.length_le handlers hstack
    | ret op =>
      rw [f.ret_jump _ (by simp [hframes])]
      exact hf.ret hbase houter
    | @tryStart g _ op frames handlers stack =>
      left
      have hstack : low <:+ g.stack := by
        rw [stack]
        exact hpast.stack
      refine ⟨by rw [frames]; exact hpast.frames, hstack, ?_⟩
      intro h hh hdepth
      rw [handlers] at hh
      rcases List.mem_cons.mp hh with rfl | hh
      · exact hpast.stack.length_le
      · exact hpast.handlers h hh hdepth
    | tryEnd _ op frames handlers stack =>
      left
      refine hpast.congr frames ?_ (by rw [stack]; exact hpast.stack)
      rw [handlers]
      exact (List.tail_sublist _).subset
    | @raise g t fault _ _ frames handlers _ below =>
      have hg : g.Inside callee outer low :=
        hpast.congr frames (by rw [handlers]; exact List.Subset.refl _) (hbelow.trans below)
      exact hg.raise (handlers.trans hregions) _ _ _
    | park op _ _ => exact (hpast.jump fr.pc).congr rfl (List.Subset.refl _) (hpast.jump fr.pc).stack
    | yield op => exact hpast
    | crash => trivial

/-! ## Every move -/

/-- A move stays inside of a call or leaves it. -/
theorem Fiber.Inside.transition (hbase : callee.base = low.length) (houter : outer ≠ [])
    (hf : f.Inside callee outer low) (h : Transition m f g) :
    g.Inside callee outer low ∨ f.Leaves outer low g := by
  cases h with
  | @next g fr rest i s s' _ frames _ done =>
    have hstep := step_spares (m := m) hbase houter hf frames i s
    rwa [done] at hstep
  | @stop g fr rest i s s' status _ frames _ done =>
    have hstep := step_spares (m := m) hbase houter hf frames i s
    rw [done] at hstep
    exact .inl hstep
  | fallOff _ _ _ _ => exact hf.ret hbase houter
  | finish _ => exact .inl (hf.congr rfl (List.Subset.refl _) hf.stack)
  | resume _ _ => exact .inl (hf.congr rfl (List.Subset.refl _) hf.stack)
  | cancel _ => exact .inl (hf.congr rfl (List.Subset.refl _) hf.stack)

/-- The states that a fiber gets into while more than `depth` calls are active. -/
def Machine.Deeper (m : Machine H) (depth : Nat) : Fiber → Fiber → Prop :=
  ReflTransGen fun f g => Transition m f g ∧ depth < g.frames.length

theorem Fiber.Inside.deeper (hbase : callee.base = low.length) (houter : outer ≠ [])
    (hf : f.Inside callee outer low) (h : m.Deeper outer.length f g) : g.Inside callee outer low := by
  induction h with
  | refl => exact hf
  | tail _ hlast ih =>
    obtain ⟨hmove, hdepth⟩ := hlast
    rcases ih.transition hbase houter hmove with hinside | hleaves
    · exact hinside
    · have := hleaves.length_le
      omega

end

/-! ## Calls -/

section

variable [Host H] {m : Machine H} {f g : Fiber} {fr : Frame} {rest : List Frame} {i : Instr}
  {s s' : Stage H}

omit [Host H] in
/-- A caught fault is caught in one of the active calls. -/
theorem length_le_of_raise {fault : Nat} {site : Site} (h : raise f s fault site = .next g s') :
    g.frames.length ≤ f.frames.length := by
  unfold raise at h
  dsimp only at h
  split at h
  · cases h
  · cases h
    cases hregions : f.handlers with
    | nil => simp [Fiber.unwind, hregions]
    | cons r rs => simp [Fiber.unwind, hregions]

/-- What a call does that is made: it takes its operands away and begins there. -/
theorem call_of_step (hop : i.op? = some .call) (hframes : f.frames = fr :: rest)
    (hstep : step m fr i f s = .next g s') (hdeeper : f.frames.length < g.frames.length) :
    i.b.toInt ≤ (f.stack.length : Int) - fr.base ∧ g.stack = f.stack.drop i.b.toInt.toNat ∧
      g.frames = { func := i.a.toInt, base := g.stack.length } :: { fr with pc := fr.pc + 1 } :: rest ∧
      g.handlers = f.handlers := by
  have hpast : (f.jump (fr.pc + 1)).frames = { fr with pc := fr.pc + 1 } :: rest := by
    simp [Fiber.jump, hframes]
  have hlength : (f.jump (fr.pc + 1)).frames.length = f.frames.length := by simp
  rcases step_refused_or_admitted m fr i f s with ⟨fault, hrefused⟩ | hadmits
  · have hle := length_le_of_raise (hrefused.symm.trans hstep)
    omega
  · have hpops : i.pops = i.b.toInt := by simp [Instr.pops, hop, Op.pops]
    have hmoves := step_moves (f := f) (i := i) (s := s) (m.keeps_true f.id) fr
    rw [hstep] at hmoves
    generalize ho : Outcome.next g s' = out at hmoves
    cases hmoves with
    | next _ _ straight => exact absurd hop straight.1
    | jump _ isJump => simp [Instr.isJump, hop, Op.isJump] at isJump
    | call _ _ frames handlers stack =>
      cases ho
      refine ⟨hpops ▸ hadmits.operands, ?_, ?_, ?_⟩
      · rw [stack, Fiber.jump_stack]
      · rw [frames, hpast]
      · rw [handlers, Fiber.jump_handlers]
    | ret op | tryStart _ op | tryEnd _ op =>
      rw [hop] at op
      cases op
    | @raise x t fault _ _ frames =>
      have hle := length_le_of_raise ho.symm
      rw [frames] at hle
      omega
    | park | yield | crash => cases ho

/-- The calls of a checked program leave the operands of their callers alone. Between the step that makes
a call and the move that leaves it, whatever is executed, called, raised and caught and however often the
fiber is suspended, the values below the operands of the call stay on the stack, and the callers stay
where they are. The call is left by a return, and then these values, the result and the instruction
behind the call are what the caller finds, or by a fault that is caught further out. -/
theorem calls_spare_operands (p : Program) (hcheck : p.check = .ok ()) (svc : Services (Stage H))
    (limits : Limits) (heap : Heap) (hm : m = (Machine.load p svc limits heap).1) :
    (∀ host ops sch, Operation.performAll ops (.create p svc limits heap host) = .ok sch →
      ∀ f ∈ sch.live, m.Runs f ∧ ∀ ops' sch', Operation.performAll ops' sch = .ok sch' →
        ∃ g, ReflTransGen (Transition m) f g ∧ (g ∈ sch'.live ∨ g.state.isTerminal = true)) ∧
    ∀ f fr rest i (s : Stage H) g s', m.Runs f → f.frames = fr :: rest →
      Machine.instrAt p fr = .ok i → i.op? = some .call → 0 ≤ i.b.toInt →
      step m fr i f s = .next g s' → f.frames.length < g.frames.length →
      ∃ taken low, f.stack = taken ++ low ∧ (taken.length : Int) = i.b.toInt ∧ fr.base ≤ low.length ∧
        g.frames = { func := i.a.toInt, base := low.length } :: { fr with pc := fr.pc + 1 } :: rest ∧
        g.stack = low ∧
        ∀ h, m.Deeper (rest.length + 1) g h →
          low <:+ h.stack ∧
          (∃ inner pc, h.frames = inner ++
            { func := i.a.toInt, pc := pc, base := low.length } :: { fr with pc := fr.pc + 1 } :: rest) ∧
          ∀ h', Transition m h h' → h'.frames.length ≤ rest.length + 1 →
            h.Leaves ({ fr with pc := fr.pc + 1 } :: rest) low h' := by
  subst hm
  constructor
  · intro host ops sch hops f hf
    refine ⟨Scheduler.runs_of_performAll hops hf, ?_⟩
    intro ops' sch' hops'
    exact Scheduler.transitions_of_performAll hops hops' hf
  · intro f fr rest i s g s' hf hframes hi hop hb hstep hdeeper
    obtain ⟨hroom, hstack, hcalls, hregions⟩ := call_of_step hop hframes hstep hdeeper
    have hdrop : g.stack.length = f.stack.length - i.b.toInt.toNat := by
      rw [hstack, List.length_drop]
    -- All open regions belong to the calls that wait.
    have hinside : g.Inside { func := i.a.toInt, base := g.stack.length }
        ({ fr with pc := fr.pc + 1 } :: rest) g.stack := by
      refine ⟨⟨[], 0, hcalls, by simp⟩, List.suffix_rfl, ?_⟩
      intro h hh hdepth
      rw [hregions] at hh
      obtain ⟨func, outer, hsuffix, houter, -⟩ := (hf.placed hcheck).handlers h hh
      have hlength := hsuffix.length_le
      simp only [List.length_cons, List.length_map, hframes] at hlength hdepth
      omega
    refine ⟨f.stack.take i.b.toInt.toNat, g.stack, ?_, ?_, ?_, hcalls, rfl, ?_⟩
    · rw [hstack, List.take_append_drop]
    · rw [List.length_take]
      omega
    · omega
    · intro h hh
      have hh' := hinside.deeper rfl (by simp) hh
      obtain ⟨inner, pc, hsplit, -⟩ := hh'.frames
      refine ⟨hh'.stack, ⟨inner, pc, hsplit⟩, ?_⟩
      intro h' hmove hle
      rcases hh'.transition rfl (by simp) hmove with hstays | hleaves
      · have := hstays.length_lt
        rw [List.length_cons] at this
        omega
      · exact hleaves

end

/-- A function that has two values on the stack when it calls another one with the upper of them. That
one catches a fault of its own, yields, and returns a value. -/
def sparingProgram : Program :=
  { version := Program.currentVersion
    functions := #[
      { code := #[.of .pushConst 0, .of .pushConst 1, .of .call 1 1, .of .ret], maxStack := 2 },
      { code := #[.of .try 3, .of .pushConst 1, .of .throw, .of .yield, .of .pushConst 1, .of .ret]
        maxStack := 1 }]
    constants := #[.scalar (.bool true), .scalar (.bool false)] }

def sparingMachine : Machine Bench := (Machine.load sparingProgram {} {} {}).1

def sparingFiber (stack : List Value) (frames : List Frame) (lastFault : Option Nat) : Fiber :=
  { id := 1, stack := stack, frames := frames, lastFault := lastFault }

theorem calls_spare_operands_sparing : sparingProgram.check = .ok () ∧
    ∃ f g h, sparingMachine.Runs f ∧ f.frames = [⟨0, 2, 0⟩] ∧ f.stack = [.bool false, .bool true] ∧
      Transition sparingMachine f g ∧ sparingMachine.Deeper 1 g h ∧ h.frames = [⟨1, 5, 1⟩, ⟨0, 3, 0⟩] ∧
      ∀ h', Transition sparingMachine h h' → h'.frames.length ≤ 1 →
        h'.frames = [⟨0, 3, 0⟩] ∧ h'.stack = [.bool false, .bool true] := by
  let s : Stage Bench := { host := {} }
  let f := sparingFiber [.bool false, .bool true] [⟨0, 2, 0⟩] none
  let g := sparingFiber [.bool true] [⟨1, 0, 1⟩, ⟨0, 3, 0⟩] none
  let h := sparingFiber [.bool false, .bool true] [⟨1, 5, 1⟩, ⟨0, 3, 0⟩] (some 0)
  have hcheck : sparingProgram.check = .ok () := by decide
  have hrun : sparingMachine.run 2 (.start 1 0) s = .ok (.budget, f, s) := rfl
  have hf : sparingMachine.Runs f := Machine.Runs.run ⟨1, 0, _, rfl, .refl⟩ hrun
  have hstep : step sparingMachine ⟨0, 2, 0⟩ (.of .call 1 1) f s = .next g s := rfl
  have hh : sparingMachine.Deeper 1 g h := by
    have htry : sparingMachine.Deeper 1 g _ :=
      .tail .refl ⟨.next (i := .of .try 3) (s := s) rfl rfl rfl rfl, by decide⟩
    have hpush : sparingMachine.Deeper 1 g _ :=
      .tail htry ⟨.next (i := .of .pushConst 1) (s := s) rfl rfl rfl rfl, by decide⟩
    have hcaught : sparingMachine.Deeper 1 g _ :=
      .tail hpush ⟨.next (i := .of .throw) (s := s) rfl rfl rfl rfl, by decide⟩
    have hyield : sparingMachine.Deeper 1 g _ :=
      .tail hcaught ⟨.stop (i := .of .yield) (s := s) rfl rfl rfl rfl, by decide⟩
    have hresume : sparingMachine.Deeper 1 g _ := .tail hyield ⟨.resume rfl 0, by decide⟩
    exact .tail hresume ⟨.next (i := .of .pushConst 1) (s := s) rfl rfl rfl rfl, by decide⟩
  obtain ⟨-, hcalls⟩ := calls_spare_operands sparingProgram hcheck {} {} {} (m := sparingMachine) rfl
  obtain ⟨taken, low, -, -, -, -, hlow, hinside⟩ :=
    hcalls f _ [] _ s g s hf rfl rfl rfl (by decide) hstep (by decide)
  obtain ⟨-, -, hleaves⟩ := hinside h hh
  refine ⟨hcheck, f, g, h, hf, rfl, rfl, .next rfl rfl rfl hstep, hh, rfl, ?_⟩
  intro h' hmove hle
  cases hleaves h' hmove hle with
  | @returned above found _ frames stack =>
    have habove : above ++ low = [.bool false] ++ low := by
      rw [← found, ← hlow]
      rfl
    obtain rfl := List.append_cancel_right habove
    refine ⟨frames, ?_⟩
    rw [stack, ← hlow]
    rfl
  | unwound region => cases region

end TileMind
