import TileMind.Proofs.Machine.Regions

/-!
# TileMind.Proofs.Machine.Catches

What a caught fault finds again of the time when its region was opened. The region has kept the height of
the stack and the number of the active calls, and no values. The calls that were active still are, as the
region is closed when they are left; the values are still there as far as the call that opened the region
has not taken them.

* `try_of_step`: what opening a region does.
* `Machine.Holding`: the time while a region is open and a part of the stack is left alone.
* `Machine.Ends.length_le`, `Fiber.Within.holding`: how this time ends.
* `catch_restores`: what the fiber goes on with.
-/

namespace TileMind

open Relation (ReflTransGen)

variable {H : Type}

section

variable [Host H] {m : Machine H} {owner : Frame} {outer : List Frame} {low : List Value}
  {r : Handler} {rs : List Handler} {f g : Fiber} {fr : Frame} {rest : List Frame} {i : Instr}
  {s s' : Stage H}

/-! ## The open region -/

theorem try_of_step (hop : i.op? = some .try) (hframes : f.frames = fr :: rest)
    (hstep : step m fr i f s = .next g s') (hopens : f.handlers.length < g.handlers.length) :
    g.handlers = ⟨fr.pc + i.a.toInt, f.stack.length, f.frames.length⟩ :: f.handlers ∧
      g.frames = { fr with pc := fr.pc + 1 } :: rest ∧ g.stack = f.stack := by
  have hmoves := step_moves (f := f) (i := i) (s := s) (m.keeps_true f.id) fr
  rw [hstep] at hmoves
  generalize ho : Outcome.next g s' = out at hmoves
  cases hmoves with
  | next _ _ _ _ handlers | jump _ _ _ handlers =>
    cases ho
    simp [handlers] at hopens
  | call _ op | ret op | tryEnd _ op =>
    rw [hop] at op
    cases op
  | tryStart _ _ frames handlers stack =>
    cases ho
    refine ⟨by simpa using handlers, ?_, by simpa using stack⟩
    rw [frames]
    simp [Fiber.jump, hframes]
  | @raise x t fault _ _ _ handlers =>
    rw [Fiber.jump_handlers] at handlers
    obtain rfl := unwind_of_raise ho.symm
    cases hregions : f.handlers with
    | nil => simp [Fiber.unwind, handlers, hregions] at hopens
    | cons r rs => simp [Fiber.unwind, handlers, hregions] at hopens
  | park | yield | crash => cases ho

/-- The states that a fiber gets into while more than `count` regions are open, and while the call at depth
`depth` takes none of the lowest `keep` values. -/
def Machine.Holding (m : Machine H) (depth keep count : Nat) : Fiber → Fiber → Prop :=
  ReflTransGen fun f g => m.TakesAbove depth keep f ∧ Transition m f g ∧ count < g.handlers.length

omit [Host H] in
theorem Machine.takesAbove_of_instr {depth keep : Nat} (hframes : f.frames = fr :: rest)
    (hi : Machine.instrAt m.program fr = .ok i) (hkeep : keep + i.pops ≤ f.stack.length) :
    m.TakesAbove depth keep f := by
  intro fr' rest' i' hframes' hi' _ _
  obtain ⟨rfl, -⟩ := List.cons.inj (hframes.symm.trans hframes')
  rw [hi] at hi'
  cases hi'
  exact hkeep

/-- Once a region of the call has come to an end it is not open any more. -/
theorem Machine.Ends.length_le (hr : outer.length < r.frameDepth)
    (hf : f.Within owner outer low (r :: rs)) (h : m.Ends owner outer low (r :: rs) f g) :
    g.handlers.length ≤ rs.length := by
  cases h with
  | closed found innermost close still =>
    obtain ⟨-, -, -, -, -, regions, left, -⟩ := close
    rw [left, ← (List.cons.inj (innermost.symm.trans regions)).2]
  | returned innermost back =>
    obtain ⟨opened, hopened, hdepth, -⟩ := hf
    cases hframes : f.frames with
    | nil => simp [hframes] at innermost
    | cons fr rest =>
      obtain hrest : rest.length = outer.length := by simpa [hframes] using innermost
      -- The return closes all regions of the call.
      have hclosed : f.ret.handlers = rs.dropWhile fun h => decide (outer.length < h.frameDepth) := by
        rw [(Fiber.ret_eq hframes).2, hopened, hrest, List.dropWhile_append,
          List.dropWhile_eq_nil_iff.mpr (by simpa using hdepth)]
        simp [hr]
      rw [back, hclosed]
      exact (List.dropWhile_sublist _).length_le
  | caught found innermost catch' =>
    rw [(catch'.region innermost).1]

theorem Fiber.Within.holding (hregions : ∀ h ∈ r :: rs, h.frameDepth ≤ outer.length + 1)
    (hr : outer.length < r.frameDepth) (hf : f.Within owner outer low (r :: rs))
    (h : m.Holding (outer.length + 1) low.length rs.length f g) : g.Within owner outer low (r :: rs) := by
  induction h with
  | refl => exact hf
  | tail _ hlast ih =>
    obtain ⟨habove, hmove, hopen⟩ := hlast
    rcases ih.transition hregions habove hmove with hstays | hends
    · exact hstays
    · have := hends.length_le hr ih
      omega

/-! ## The caught fault -/

/-- A fault that is caught in a region of the call leads back to the call and to the values that are left
alone. -/
theorem Fiber.Within.caught {fault : Nat} (hf : f.Within owner outer low (r :: rs))
    (habove : m.TakesAbove (outer.length + 1) low.length f) (hinnermost : f.handlers = r :: rs)
    (hdepth : r.frameDepth = outer.length + 1) (hheight : low.length ≤ r.stackHeight)
    (h : m.Catches fault f g) :
    g.frames = { owner with pc := r.catchPc } :: outer ∧ low <:+ g.stack := by
  cases h with
  | @mk x fr rest i s t t' live frames instr raised calls regions below caught =>
    have hx : x.handlers = r :: rs := regions.trans hinnermost
    have hpast := hf.jump (fr.pc + 1)
    constructor
    · obtain rfl := unwind_of_raise caught
      obtain ⟨inner, pc, hsplit, -⟩ := hpast.frames
      have hcalls : x.frames = inner ++ { owner with pc := pc } :: outer := calls.trans hsplit
      have hdrop : x.frames.drop (x.frames.length - r.frameDepth) = { owner with pc := pc } :: outer := by
        rw [hcalls, hdepth, List.length_append, List.length_cons, Nat.add_sub_cancel,
          List.drop_left]
      simp [Fiber.unwind, hx, Fiber.jump, hdrop]
    · rcases step_refused_or_admitted m fr i f s with ⟨fault', hrefused⟩ | hadmits
      · -- The guards have raised the fault, and nothing was taken.
        have hnext := hrefused.symm.trans (raised.trans caught)
        obtain rfl := unwind_of_raise (f := f.jump (fr.pc + 1)) (t := t') hnext
        simpa [Fiber.unwind, hinnermost] using suffix_cut hf.stack hheight
      · obtain rfl := unwind_of_raise caught
        have hlow := (hf.suffix_drop habove frames instr hadmits).trans below
        simpa [Fiber.unwind, hx] using suffix_cut hlow hheight

/-- Where a fiber of a checked program goes on when a fault is caught. Take a TRY that opens a region, and
the time while this is open and the call that opened it takes none of the values `low`, which lay on the
bottom of its stack. During this time the region stays as it is. It ends when an END_TRY closes the region,
when the call is left by a return, or when a fault is caught in it. With the fault the fiber goes on at the
catch address, in the same call with the same callers, with the regions that were open before the TRY, and
with a stack as high as at the TRY and with `low` on the bottom; if `low` is all that was on it, this is the
stack of then. -/
theorem catch_restores (p : Program) (hcheck : p.check = .ok ()) (svc : Services (Stage H))
    (limits : Limits) (heap : Heap) (hm : m = (Machine.load p svc limits heap).1) :
    (∀ host ops sch, Operation.performAll ops (.create p svc limits heap host) = .ok sch →
      ∀ f ∈ sch.live, m.Runs f ∧ ∀ ops' sch', Operation.performAll ops' sch = .ok sch' →
        ∃ g, ReflTransGen (Transition m) f g ∧ (g ∈ sch'.live ∨ g.state.isTerminal = true)) ∧
    ∀ f fr rest i (s : Stage H) g s', m.Runs f → f.frames = fr :: rest →
      Machine.instrAt p fr = .ok i → i.op? = some .try → step m fr i f s = .next g s' →
      f.handlers.length < g.handlers.length →
      ∃ r : Handler, r = ⟨fr.pc + i.a.toInt, f.stack.length, f.frames.length⟩ ∧
        g.handlers = r :: f.handlers ∧ g.stack = f.stack ∧
        ∀ low, low <:+ f.stack →
          ∀ x, m.Holding f.frames.length low.length f.handlers.length g x →
            m.TakesAbove f.frames.length low.length x →
          (∃ opened, x.handlers = opened ++ r :: f.handlers) ∧
          (∀ y, Transition m x y → y.handlers.length ≤ f.handlers.length →
            m.Closes r x y ∨ x.frames.length = f.frames.length ∧ y = x.ret ∨
              ∃ fault, x.handlers = r :: f.handlers ∧ m.Catches fault x y) ∧
          ∀ fault y, x.handlers = r :: f.handlers → m.Catches fault x y →
            y.frames = { fr with pc := fr.pc + i.a.toInt } :: rest ∧ y.handlers = f.handlers ∧
            y.lastFault = some fault ∧ y.stack.length = f.stack.length ∧ low <:+ y.stack ∧
            (low = f.stack → y.stack = f.stack) := by
  subst hm
  constructor
  · intro host ops sch hops f hf
    refine ⟨Scheduler.runs_of_performAll hops hf, ?_⟩
    intro ops' sch' hops'
    exact Scheduler.transitions_of_performAll hops hops' hf
  · intro f fr rest i s g s' hf hframes hi hop hstep hopens
    obtain ⟨hregions, hcalls, hstack⟩ := try_of_step hop hframes hstep hopens
    refine ⟨_, rfl, hregions, hstack, ?_⟩
    intro low hlow x hx habove
    have hlength : f.frames.length = rest.length + 1 := by rw [hframes, List.length_cons]
    -- No region that is open belongs to a call that is not active yet.
    have hdepth : ∀ h ∈ (⟨fr.pc + i.a.toInt, f.stack.length, f.frames.length⟩ : Handler) :: f.handlers,
        h.frameDepth ≤ rest.length + 1 := by
      intro h hh
      rcases List.mem_cons.mp hh with rfl | hh
      · exact hlength.le
      · obtain ⟨func, outer, hsuffix, houter, -⟩ := (hf.placed hcheck).handlers h hh
        have hle := hsuffix.length_le
        simp only [List.length_cons, List.length_map, hframes] at hle
        omega
    have hwithin : g.Within fr rest low
        (⟨fr.pc + i.a.toInt, f.stack.length, f.frames.length⟩ :: f.handlers) :=
      ⟨[], hregions, by simp, ⟨[], fr.pc + 1, hcalls, by simp⟩, by rw [← hstack] at hlow; exact hlow,
        by simp⟩
    rw [hlength] at hx habove
    have hinside := hwithin.holding hdepth (by rw [hlength]; exact Nat.lt_succ_self _) hx
    obtain ⟨opened, hopened, -⟩ := id hinside
    refine ⟨⟨opened, hopened⟩, ?_, ?_⟩
    · intro y hmove hle
      rcases hinside.transition hdepth habove hmove with hstays | hends
      · have := hstays.length_le
        rw [List.length_cons] at this
        omega
      · cases hends with
        | closed found _ close _ =>
          obtain ⟨rfl, -⟩ := List.cons.inj found
          exact .inl close
        | returned innermost back => exact .inr (.inl ⟨innermost.trans hlength.symm, back⟩)
        | caught _ innermost catch' => exact .inr (.inr ⟨_, innermost, catch'⟩)
    · intro fault y hinnermost hcatch
      obtain ⟨hleft, hfault, hheight, -⟩ := hcatch.region hinnermost
      obtain ⟨hback, hkept⟩ :=
        hinside.caught habove hinnermost hlength hlow.length_le hcatch
      refine ⟨hback, hleft, hfault, hheight, hkept, ?_⟩
      rintro rfl
      exact (hkept.eq_of_length hheight.symm).symm

end

/-- A function with a value on the stack that opens a region and calls another one in it. That one throws. -/
def guardedProgram : Program :=
  { version := Program.currentVersion
    functions := #[
      { code := #[.of .pushConst 0, .of .try 4, .of .pushConst 1, .of .call 1 1, .of .endTry, .of .ret]
        maxStack := 2 },
      { code := #[.of .pushConst 1, .of .throw], maxStack := 1 }]
    constants := #[.scalar (.bool true), .scalar (.bool false)] }

def guardedMachine : Machine Bench := (Machine.load guardedProgram {} {} {}).1

theorem catch_restores_guarded : guardedProgram.check = .ok () ∧
    ∃ f g x y fault, guardedMachine.Runs f ∧ f.frames = [⟨0, 1, 0⟩] ∧ f.stack = [.bool true] ∧
      Transition guardedMachine f g ∧ g.handlers = [⟨5, 1, 1⟩] ∧ guardedMachine.Holding 1 1 0 g x ∧
      x.frames = [⟨1, 1, 1⟩, ⟨0, 4, 0⟩] ∧ guardedMachine.Catches fault x y ∧
      y.frames = [⟨0, 5, 0⟩] ∧ y.handlers = [] ∧ y.lastFault = some fault ∧ y.stack = [.bool true] := by
  let s : Stage Bench := { host := {} }
  let f : Fiber := { id := 1, stack := [.bool true], frames := [⟨0, 1, 0⟩] }
  let g : Fiber := { id := 1, stack := [.bool true], frames := [⟨0, 2, 0⟩], handlers := [⟨5, 1, 1⟩] }
  let x : Fiber :=
    { id := 1, stack := [.bool false, .bool true], frames := [⟨1, 1, 1⟩, ⟨0, 4, 0⟩],
      handlers := [⟨5, 1, 1⟩] }
  have hcheck : guardedProgram.check = .ok () := by decide
  have hrun : guardedMachine.run 1 (.start 1 0) s = .ok (.budget, f, s) := rfl
  have hf : guardedMachine.Runs f := Machine.Runs.run ⟨1, 0, _, rfl, .refl⟩ hrun
  have hstep : step guardedMachine ⟨0, 1, 0⟩ (.of .try 4) f s = .next g s := rfl
  have hx : guardedMachine.Holding 1 1 0 g x := by
    have hpushed : guardedMachine.Holding 1 1 0 g _ :=
      .tail .refl ⟨guardedMachine.takesAbove_of_instr (i := .of .pushConst 1) rfl rfl (by decide),
        .next (i := .of .pushConst 1) (s := s) rfl rfl rfl rfl, by decide⟩
    have hcalled : guardedMachine.Holding 1 1 0 g _ :=
      .tail hpushed ⟨guardedMachine.takesAbove_of_instr (i := .of .call 1 1) rfl rfl (by decide),
        .next (i := .of .call 1 1) (s := s) rfl rfl rfl rfl, by decide⟩
    exact .tail hcalled ⟨guardedMachine.takesAbove_of_instr (i := .of .pushConst 1) rfl rfl (by decide),
      .next (i := .of .pushConst 1) (s := s) rfl rfl rfl rfl, by decide⟩
  have habove : guardedMachine.TakesAbove 1 1 x :=
    guardedMachine.takesAbove_of_instr (i := .of .throw) rfl rfl (by decide)
  have hcatch : ∃ y, guardedMachine.Catches 0 x y :=
    ⟨_, .mk (x := { x with stack := [.bool true], frames := [⟨1, 2, 1⟩, ⟨0, 4, 0⟩] })
      (i := .of .throw) (s := s) rfl rfl rfl rfl rfl rfl List.suffix_rfl rfl⟩
  obtain ⟨y, hcatch⟩ := hcatch
  obtain ⟨-, hregions⟩ := catch_restores guardedProgram hcheck {} {} {} (m := guardedMachine) rfl
  obtain ⟨r, rfl, hopen, -, hheld⟩ := hregions f _ [] _ s g s hf rfl rfl rfl hstep (by decide)
  obtain ⟨-, -, hcaught⟩ := hheld f.stack List.suffix_rfl x hx habove
  obtain ⟨hframes, hhandlers, hfault, -, -, hstack⟩ := hcaught 0 y rfl hcatch
  exact ⟨hcheck, f, g, x, y, 0, hf, rfl, rfl, .next rfl rfl rfl hstep, hopen, hx, rfl, hcatch, hframes,
    hhandlers, hfault, hstack rfl⟩

/-- A function that opens a region, and takes the value below it away before it throws. -/
def spentProgram : Program :=
  { version := Program.currentVersion
    functions := #[
      { code := #[.of .pushConst 0, .of .try 5, .of .pop, .of .pushConst 1, .of .pushConst 1, .of .throw,
          .of .ret]
        maxStack := 2 }]
    constants := #[.scalar (.bool true), .scalar (.bool false)] }

def spentMachine : Machine Bench := (Machine.load spentProgram {} {} {}).1

/-- The check accepts a program whose stack, when a fault is caught, does not hold the values that it held
when the region was opened. -/
theorem stack_not_restored : spentProgram.check = .ok () ∧
    ∃ f g x y fault, spentMachine.Runs f ∧ f.frames = [⟨0, 1, 0⟩] ∧ Transition spentMachine f g ∧
      g.handlers = [⟨6, 1, 1⟩] ∧ ReflTransGen (Transition spentMachine) g x ∧
      x.handlers = g.handlers ∧ spentMachine.Catches fault x y ∧ y.frames = [⟨0, 6, 0⟩] ∧
      f.stack = [.bool true] ∧ y.stack = [.bool false] := by
  let s : Stage Bench := { host := {} }
  let f : Fiber := { id := 1, stack := [.bool true], frames := [⟨0, 1, 0⟩] }
  let g : Fiber := { id := 1, stack := [.bool true], frames := [⟨0, 2, 0⟩], handlers := [⟨6, 1, 1⟩] }
  let x : Fiber :=
    { id := 1, stack := [.bool false, .bool false], frames := [⟨0, 5, 0⟩], handlers := [⟨6, 1, 1⟩] }
  have hrun : spentMachine.run 1 (.start 1 0) s = .ok (.budget, f, s) := rfl
  have hf : spentMachine.Runs f := Machine.Runs.run ⟨1, 0, _, rfl, .refl⟩ hrun
  have hx : ReflTransGen (Transition spentMachine) g x := by
    have htaken : ReflTransGen (Transition spentMachine) g _ :=
      .tail .refl (.next (i := .of .pop) (s := s) rfl rfl rfl rfl)
    have hpushed : ReflTransGen (Transition spentMachine) g _ :=
      .tail htaken (.next (i := .of .pushConst 1) (s := s) rfl rfl rfl rfl)
    exact .tail hpushed (.next (i := .of .pushConst 1) (s := s) rfl rfl rfl rfl)
  refine ⟨by decide, f, g, x, _, 0, hf, rfl, .next (i := .of .try 5) (s := s) rfl rfl rfl rfl, rfl, hx, rfl,
    .mk (x := { x with stack := [.bool false], frames := [⟨0, 6, 0⟩] })
      (i := .of .throw) (s := s) rfl rfl rfl rfl rfl rfl List.suffix_rfl rfl, rfl, rfl, rfl⟩

end TileMind
