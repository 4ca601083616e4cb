import Mathlib.Data.List.TakeWhile
import TileMind.Proofs.Machine.Operands

/-!
# TileMind.Proofs.Machine.Regions

The regions of all calls stand on one stack. What a call opens stands on top of what was open before, and
goes when the call is left. What was open before stays, but for one instruction: an END_TRY closes the
innermost region, whichever call has opened it.

* `Fiber.Within`: a fiber inside of a call, with the regions that were open before.
* `Machine.Ends`: the three ways in which this comes to an end.
* `Fiber.Within.transition`: a move stays within or ends it.
* `calls_keep_regions`: the regions that a caller finds after a call.
-/

namespace TileMind

open Relation (ReflTransGen)

variable {H : Type}

/-! ## Inside of a call, above the regions of before -/

/-- A fiber inside of the call `owner`, for which the calls `outer` wait. The regions on top of `regions`
were opened inside, and they and the calls made inside go back to nothing below the values `low`. -/
def Fiber.Within (owner : Frame) (outer : List Frame) (low : List Value) (regions : List Handler)
    (f : Fiber) : Prop :=
  ∃ opened, f.handlers = opened ++ regions ∧ (∀ h ∈ opened, outer.length < h.frameDepth) ∧
    ({ f with handlers := opened } : Fiber).Inside owner outer low

namespace Fiber

variable {owner : Frame} {outer : List Frame} {low : List Value} {regions : List Handler} {f g : Fiber}
  {fr : Frame} {rest : List Frame}

theorem jump_with_handlers (f : Fiber) (handlers : List Handler) (pc : Int) :
    ({ f with handlers := handlers } : Fiber).jump pc = { f.jump pc with handlers := handlers } := by
  cases hframes : f.frames <;> simp [jump, hframes]

theorem Within.stack (hf : f.Within owner outer low regions) : low <:+ f.stack := by
  obtain ⟨opened, -, -, hinside⟩ := hf
  exact hinside.stack

theorem Within.frames (hf : f.Within owner outer low regions) :
    ∃ inner pc, f.frames = inner ++ { owner with pc := pc } :: outer ∧
      ∀ fr ∈ inner, low.length ≤ fr.base := by
  obtain ⟨opened, -, -, hinside⟩ := hf
  exact hinside.frames

theorem Within.length_lt (hf : f.Within owner outer low regions) : outer.length < f.frames.length := by
  obtain ⟨opened, -, -, hinside⟩ := hf
  exact hinside.length_lt

theorem Within.length_le (hf : f.Within owner outer low regions) :
    regions.length ≤ f.handlers.length := by
  obtain ⟨opened, hopened, -, -⟩ := hf
  simp [hopened]

/-- The innermost region was opened inside, or none of those that were is left. -/
theorem Within.innermost (hf : f.Within owner outer low regions) :
    f.handlers = regions ∨ ∃ h hs, f.handlers = h :: hs ∧ outer.length < h.frameDepth ∧
      regions.length < f.handlers.length := by
  obtain ⟨opened, hopened, hdepth, -⟩ := hf
  cases opened with
  | nil => exact .inl hopened
  | cons h opened =>
    refine .inr ⟨h, opened ++ regions, hopened, hdepth h List.mem_cons_self, ?_⟩
    rw [hopened, List.cons_append, List.length_cons, List.length_append]
    omega

theorem Within.jump (hf : f.Within owner outer low regions) (pc : Int) :
    (f.jump pc).Within owner outer low regions := by
  obtain ⟨opened, hopened, hdepth, hinside⟩ := hf
  refine ⟨opened, by rw [jump_handlers, hopened], hdepth, ?_⟩
  rw [← jump_with_handlers]
  exact hinside.jump pc

theorem Within.congr (hf : f.Within owner outer low regions) (hframes : g.frames = f.frames)
    (hhandlers : g.handlers = f.handlers) (hstack : low <:+ g.stack) :
    g.Within owner outer low regions := by
  obtain ⟨opened, hopened, hdepth, hinside⟩ := hf
  exact ⟨opened, hhandlers.trans hopened, hdepth, hinside.congr hframes (List.Subset.refl _) hstack⟩

theorem Within.call (hf : f.Within owner outer low regions) (hframes : g.frames = fr :: f.frames)
    (hbase : low.length ≤ fr.base) (hhandlers : g.handlers = f.handlers) (hstack : low <:+ g.stack) :
    g.Within owner outer low regions := by
  obtain ⟨opened, hopened, hdepth, hinside⟩ := hf
  exact ⟨opened, hhandlers.trans hopened, hdepth, hinside.call hframes hbase rfl hstack⟩

theorem Within.opens (hf : f.Within owner outer low regions) {h : Handler}
    (hframes : g.frames = f.frames) (hstack : g.stack = f.stack)
    (hhandlers : g.handlers = h :: f.handlers) (hdepth : h.frameDepth = f.frames.length)
    (hheight : h.stackHeight = f.stack.length) : g.Within owner outer low regions := by
  have hinner := hf.length_lt
  have hlow := hf.stack.length_le
  obtain ⟨opened, hopened, hdepths, hinside⟩ := hf
  refine ⟨h :: opened, by rw [hhandlers, hopened]; rfl, ?_, ?_⟩
  · intro r hr
    rcases List.mem_cons.mp hr with rfl | hr
    · omega
    · exact hdepths r hr
  · refine ⟨?_, ?_, ?_⟩
    · dsimp only
      rw [hframes]
      exact hinside.frames
    · dsimp only
      rw [hstack]
      exact hinside.stack
    · intro r hr hinner
      rcases List.mem_cons.mp hr with rfl | hr
      · omega
      · exact hinside.handlers r hr hinner

/-- The innermost region is closed. If it was not opened inside, one less is left of the others. -/
theorem Within.closes (hf : f.Within owner outer low regions) (hframes : g.frames = f.frames)
    (hstack : g.stack = f.stack) (hhandlers : g.handlers = f.handlers.tail) :
    g.Within owner outer low regions ∨ f.handlers = regions ∧ g.Within owner outer low regions.tail := by
  obtain ⟨opened, hopened, hdepth, hinside⟩ := hf
  cases opened with
  | nil =>
    right
    refine ⟨hopened, [], by rw [hhandlers, hopened]; rfl, by simp, ?_⟩
    refine hinside.congr hframes (List.Subset.refl _) ?_
    dsimp only
    rw [hstack]
    exact hinside.stack
  | cons h opened =>
    left
    refine ⟨opened, by rw [hhandlers, hopened]; rfl, ?_, ?_⟩
    · intro r hr
      exact hdepth r (List.mem_cons_of_mem _ hr)
    · refine hinside.congr hframes (List.subset_cons_self _ _) ?_
      dsimp only
      rw [hstack]
      exact hinside.stack

/-- Leaving a call closes regions of that call only. -/
theorem dropWhile_regions {opened : List Handler} {depth : Nat}
    (hregions : ∀ r ∈ regions, r.frameDepth ≤ depth) :
    ((opened ++ regions).dropWhile fun h => decide (depth < h.frameDepth)) =
      (opened.dropWhile fun h => decide (depth < h.frameDepth)) ++ regions := by
  induction opened with
  | nil =>
    cases regions with
    | nil => rfl
    | cons r rs =>
      have hr : ¬ depth < r.frameDepth := by
        have := hregions r List.mem_cons_self
        omega
      simp [hr]
  | cons h opened ih =>
    by_cases hdeep : depth < h.frameDepth
    · simpa [hdeep] using ih
    · simp [hdeep]

theorem Within.ret (hregions : ∀ r ∈ regions, r.frameDepth ≤ outer.length + 1)
    (hf : f.Within owner outer low regions) (hdeep : outer.length + 1 < f.frames.length) :
    f.ret.Within owner outer low regions := by
  obtain ⟨opened, hopened, hdepth, hinside⟩ := hf
  cases hframes : f.frames with
  | nil => simp [hframes] at hdeep
  | cons fr rest =>
    have hrest : outer.length + 1 ≤ rest.length := by
      rw [hframes, List.length_cons] at hdeep
      omega
    refine ⟨opened.dropWhile fun h => decide (rest.length < h.frameDepth), ?_, ?_, ?_⟩
    · rw [(ret_eq hframes).2, hopened]
      exact dropWhile_regions fun r hr => (hregions r hr).trans hrest
    · intro r hr
      exact hdepth r ((List.dropWhile_sublist _).subset hr)
    · have hret := hinside.ret_inner hdeep
      refine hret.congr ?_ ?_ ?_
      · dsimp only
        rw [(ret_eq hframes).1, (ret_eq (f := { f with handlers := opened }) hframes).1]
      · dsimp only
        rw [(ret_eq (f := { f with handlers := opened }) hframes).2]
        exact List.Subset.refl _
      · have hsame : ({ f with handlers := opened } : Fiber).ret.stack = f.ret.stack := by
          simp only [Fiber.ret, hframes]
          split <;> rfl
        rw [← hsame]
        exact hret.stack

/-- A fault is caught in a region that was opened inside. -/
theorem Within.unwind (hf : f.Within owner outer low regions)
    (hopen : regions.length < f.handlers.length) (fault : Nat) :
    (f.unwind fault).Within owner outer low regions := by
  obtain ⟨opened, hopened, hdepth, hinside⟩ := hf
  cases opened with
  | nil => simp [hopened] at hopen
  | cons h opened =>
    have hcaught := hinside.unwind_inner rfl (hdepth h List.mem_cons_self) fault
    have hsame : ({ f with handlers := h :: opened } : Fiber).unwind fault =
        { f.unwind fault with handlers := opened } := by
      simp [Fiber.unwind, hopened, Fiber.jump]
      split <;> rfl
    refine ⟨opened, by simp [Fiber.unwind, hopened], ?_, ?_⟩
    · intro r hr
      exact hdepth r (List.mem_cons_of_mem _ hr)
    · rwa [hsame] at hcaught

end Fiber

/-! ## One instruction -/

section

variable [Host H] {m : Machine H} {owner : Frame} {outer : List Frame} {low : List Value}
  {regions : List Handler} {f g : Fiber} {fr : Frame} {rest : List Frame} {i : Instr} {s : Stage H}

/-- An END_TRY that passes its guards closes the region `r`. -/
inductive Machine.Closes (m : Machine H) (r : Handler) (f g : Fiber) : Prop where
  | mk {fr : Frame} {rest : List Frame} {i : Instr} {rs : List Handler} {s s' : Stage H}
      (live : f.state.isTerminal = false) (frames : f.frames = fr :: rest)
      (instr : Machine.instrAt m.program fr = .ok i) (op : i.op? = some .endTry)
      (admitted : m.Admits fr i f) (found : f.handlers = r :: rs) (left : g.handlers = rs)
      (done : step m fr i f s = .next g s') : Closes m r f g

/-- The instruction at hand raises `fault`, having taken its operands or not, and the fault is caught. -/
inductive Machine.Catches (m : Machine H) (fault : Nat) (f g : Fiber) : Prop where
  | mk {x : Fiber} {fr : Frame} {rest : List Frame} {i : Instr} {s t t' : Stage H}
      (live : f.state.isTerminal = false) (frames : f.frames = fr :: rest)
      (instr : Machine.instrAt m.program fr = .ok i)
      (raised : step m fr i f s = raise x t fault ⟨fr.func, fr.pc⟩)
      (calls : x.frames = (f.jump (fr.pc + 1)).frames) (regions : x.handlers = f.handlers)
      (below : f.stack.drop i.pops.toNat <:+ x.stack)
      (caught : raise x t fault ⟨fr.func, fr.pc⟩ = .next g t') : Catches m fault f g

/-- If the instruction at hand belongs to the call at depth `depth` and passes its guards, it takes none
of the lowest `keep` values. -/
def Machine.TakesAbove (m : Machine H) (depth keep : Nat) (f : Fiber) : Prop :=
  ∀ fr rest i, f.frames = fr :: rest → Machine.instrAt m.program fr = .ok i →
    f.frames.length = depth → m.Admits fr i f → keep + i.pops ≤ f.stack.length

/-- How a move can end that a fiber is inside of a call above the regions of before: an END_TRY closes one
of these, the call is left, or a fault is caught in one of them. -/
inductive Machine.Ends (m : Machine H) (owner : Frame) (outer : List Frame) (low : List Value)
    (regions : List Handler) (f g : Fiber) : Prop where
  | closed {r : Handler} {rs : List Handler} (found : regions = r :: rs)
      (innermost : f.handlers = regions) (close : m.Closes r f g)
      (still : g.Within owner outer low rs) : Ends m owner outer low regions f g
  | returned (innermost : f.frames.length = outer.length + 1) (back : g = f.ret) :
      Ends m owner outer low regions f g
  | caught {r : Handler} {rs : List Handler} {fault : Nat} (found : regions = r :: rs)
      (innermost : f.handlers = regions) (catch' : m.Catches fault f g) :
      Ends m owner outer low regions f g

/-- An instruction of `f` stays within, or ends it. A fiber that stops is within. -/
def Outcome.Within (m : Machine H) (owner : Frame) (outer : List Frame) (low : List Value)
    (regions : List Handler) (f : Fiber) : Outcome H → Prop
  | .next g _ => g.Within owner outer low regions ∨ m.Ends owner outer low regions f g
  | .stop _ g _ => g.Within owner outer low regions
  | .crash _ => True

omit [Host H] in
theorem raise_eq_next {h : Handler} {hs : List Handler} (hhandlers : f.handlers = h :: hs) (s : Stage H)
    (fault : Nat) (site : Site) : ∃ t, raise f s fault site = .next (f.unwind fault) t := by
  unfold raise
  rw [hhandlers]
  exact ⟨_, rfl⟩

/-- A fault is caught in a region that was opened inside, ends it, or ends the fiber. -/
theorem Fiber.Within.raise {x : Fiber} {t : Stage H} {fault : Nat}
    (hx : x.Within owner outer low regions) (hlive : f.state.isTerminal = false)
    (hframes : f.frames = fr :: rest) (hi : Machine.instrAt m.program fr = .ok i)
    (hraised : step m fr i f s = raise x t fault ⟨fr.func, fr.pc⟩)
    (hcalls : x.frames = (f.jump (fr.pc + 1)).frames) (hregions : x.handlers = f.handlers)
    (hbelow : f.stack.drop i.pops.toNat <:+ x.stack) :
    (raise x t fault ⟨fr.func, fr.pc⟩).Within m owner outer low regions f := by
  cases hhandlers : x.handlers with
  | nil =>
    have hend : x.unwind fault = { x with fault := some fault, state := .fault } := by
      simp [Fiber.unwind, hhandlers]
    unfold TileMind.raise
    dsimp only
    rw [hhandlers, if_pos (by rfl), hend]
    exact hx.congr rfl rfl hx.stack
  | cons h hs =>
    obtain ⟨t', ht'⟩ := raise_eq_next hhandlers t fault ⟨fr.func, fr.pc⟩
    rw [ht']
    rcases hx.innermost with hnone | ⟨-, -, -, -, hopen⟩
    · right
      exact .caught (hnone.symm.trans hhandlers) (hregions.symm.trans hnone)
        (.mk hlive hframes hi hraised hcalls hregions hbelow ht')
    · exact .inl (hx.unwind hopen fault)

omit [Host H] in
/-- An instruction that passes its guards takes none of the values that lie below the calls made inside. -/
theorem Fiber.Within.suffix_drop (hf : f.Within owner outer low regions)
    (habove : m.TakesAbove (outer.length + 1) low.length f) (hframes : f.frames = fr :: rest)
    (hi : Machine.instrAt m.program fr = .ok i) (hadmits : m.Admits fr i f) :
    low <:+ f.stack.drop i.pops.toNat := by
  have hheight := hf.stack.length_le
  refine TileMind.suffix_drop hf.stack ?_
  obtain ⟨inner, pc, hsplit, hinner⟩ := hf.frames
  cases inner with
  | nil =>
    have := habove fr rest i hframes hi (by simp [hsplit]) hadmits
    omega
  | cons c inner =>
    rw [hframes, List.cons_append] at hsplit
    obtain ⟨rfl, -⟩ := List.cons.inj hsplit
    have hbase := hinner fr List.mem_cons_self
    have hoperands := hadmits.operands
    omega

theorem step_within (hregions : ∀ r ∈ regions, r.frameDepth ≤ outer.length + 1)
    (hf : f.Within owner outer low regions)
    (habove : m.TakesAbove (outer.length + 1) low.length f) (hlive : f.state.isTerminal = false)
    (hframes : f.frames = fr :: rest) (hi : Machine.instrAt m.program fr = .ok i) (s : Stage H) :
    (step m fr i f s).Within m owner outer low regions f := by
  have hpast := hf.jump (fr.pc + 1)
  rcases step_refused_or_admitted m fr i f s with ⟨fault, hrefused⟩ | hadmits
  · rw [hrefused]
    refine hpast.raise hlive hframes hi hrefused rfl (f.jump_handlers _) ?_
    rw [Fiber.jump_stack]
    exact List.drop_suffix _ _
  · have hbelow : low <:+ (f.jump (fr.pc + 1)).stack.drop i.pops.toNat := by
      rw [Fiber.jump_stack]
      exact hf.suffix_drop habove hframes hi hadmits
    have hmoves := step_moves (f := f) (i := i) (s := s) (m.keeps_true f.id) fr
    generalize hout : step m fr i f s = out at hmoves
    cases hmoves with
    | next _ _ _ frames handlers _ below =>
      left
      exact hpast.congr frames handlers (hbelow.trans below)
    | jump _ _ frames handlers _ below =>
      left
      exact (hpast.jump _).congr frames (by simp [handlers]) (hbelow.trans below)
    | @call g _ op frames handlers stack =>
      left
      have hpops : i.pops = i.b.toInt := by simp [Instr.pops, op, Op.pops]
      have hstack : low <:+ g.stack := by
        rw [stack, ← hpops]
        exact hbelow
      exact hpast.call frames hstack.length_le handlers hstack
    | ret op =>
      rw [f.ret_jump _ (by simp [hframes])]
      have hdepth := hf.length_lt
      by_cases hdeep : outer.length + 1 < f.frames.length
      · exact .inl (hf.ret hregions hdeep)
      · exact .inr (.returned (by omega) rfl)
    | tryStart _ op frames handlers stack =>
      left
      exact hpast.opens frames stack handlers rfl rfl
    | @tryEnd g _ op frames handlers stack =>
      rcases hpast.closes frames stack handlers with hstays | ⟨hnone, hless⟩
      · exact .inl hstays
      · rw [Fiber.jump_handlers] at hnone handlers
        cases hfound : regions with
        | nil =>
          left
          simpa [hfound] using hless
        | cons r rs =>
          right
          rw [hfound] at hnone
          refine .closed rfl hnone ?_ (by simpa [hfound] using hless)
          exact .mk hlive hframes hi op hadmits hnone (by rw [handlers, hnone]; rfl) hout
    | raise _ _ frames handlers _ below =>
      have hx := hpast.congr frames handlers (hbelow.trans below)
      refine hx.raise hlive hframes hi hout frames (handlers.trans (f.jump_handlers _)) ?_
      rwa [Fiber.jump_stack] at below
    | park op _ _ => exact (hpast.jump fr.pc).congr rfl rfl (hpast.jump fr.pc).stack
    | yield op => exact hpast
    | crash => trivial

/-! ## Every move -/

/-- A move stays within or ends it. -/
theorem Fiber.Within.transition (hregions : ∀ r ∈ regions, r.frameDepth ≤ outer.length + 1)
    (hf : f.Within owner outer low regions)
    (habove : m.TakesAbove (outer.length + 1) low.length f) (h : Transition m f g) :
    g.Within owner outer low regions ∨ m.Ends owner outer low regions f g := by
  cases h with
  | @next g fr rest i s s' live frames instr done =>
    have hstep := step_within hregions hf habove live frames instr s
    rwa [done] at hstep
  | @stop g fr rest i s s' status live frames instr done =>
    have hstep := step_within hregions hf habove live frames instr s
    rw [done] at hstep
    exact .inl hstep
  | fallOff _ _ _ _ =>
    have hdepth := hf.length_lt
    by_cases hdeep : outer.length + 1 < f.frames.length
    · exact .inl (hf.ret hregions hdeep)
    · exact .inr (.returned (by omega) rfl)
  | finish _ => exact .inl (hf.congr rfl rfl hf.stack)
  | resume _ _ => exact .inl (hf.congr rfl rfl hf.stack)
  | cancel _ => exact .inl (hf.congr rfl rfl hf.stack)

/-! ## Ends -/

omit [Host H] in
theorem unwind_of_raise {t : Stage H} {fault : Nat} {site : Site} (h : raise f s fault site = .next g t) :
    g = f.unwind fault := by
  unfold raise at h
  dsimp only at h
  split at h
  · cases h
  · cases h
    rfl

/-- Where a caught fault leads: the region goes back to the calls and the height it was opened at. -/
theorem Machine.Catches.region {r : Handler} {rs : List Handler} {fault : Nat} (h : m.Catches fault f g)
    (hfound : f.handlers = r :: rs) :
    g.handlers = rs ∧ g.lastFault = some fault ∧ g.stack.length = r.stackHeight ∧
      g.frames.length = min r.frameDepth f.frames.length := by
  cases h with
  | @mk x fr rest i s t t' live frames instr raised calls regions below caught =>
    obtain rfl := unwind_of_raise caught
    have hx : x.handlers = r :: rs := regions.trans hfound
    have hlength : x.frames.length = f.frames.length := by simp [calls]
    have hjump : ∀ y : Fiber, (y.jump r.catchPc).lastFault = y.lastFault := by
      intro y
      cases hy : y.frames <;> simp [Fiber.jump, hy]
    refine ⟨by simp [Fiber.unwind, hx], by simp [Fiber.unwind, hx, hjump], Fiber.length_unwind hx _, ?_⟩
    simp only [Fiber.unwind, hx, Fiber.length_frames_jump, List.length_drop, hlength]
    omega

omit [Host H] in
theorem Fiber.length_frames_ret (f : Fiber) : f.ret.frames.length = f.frames.length - 1 := by
  cases hframes : f.frames with
  | nil => simp [Fiber.ret, hframes]
  | cons fr rest => simp [(Fiber.ret_eq hframes).1]

/-- As long as the call is active, only an END_TRY takes away a region of before. -/
theorem Machine.Ends.closed_of_lt (hregions : ∀ r ∈ regions, r.frameDepth ≤ outer.length)
    (h : m.Ends owner outer low regions f g) (hdeep : outer.length < g.frames.length) :
    ∃ r rs, regions = r :: rs ∧ m.Closes r f g ∧ g.Within owner outer low rs := by
  cases h with
  | @closed r rs found _ close still => exact ⟨r, rs, found, close, still⟩
  | returned innermost back =>
    rw [back, f.length_frames_ret] at hdeep
    omega
  | @caught r rs fault found innermost catch' =>
    have hr := hregions r (by simp [found])
    have hlength := (catch'.region (innermost.trans found)).2.2.2
    omega

/-- The call is left by a return or by a fault. -/
theorem Machine.Ends.left_of_le (h : m.Ends owner outer low regions f g)
    (hout : g.frames.length ≤ outer.length) :
    f.frames.length = outer.length + 1 ∧ g = f.ret ∨
      ∃ r rs fault, regions = r :: rs ∧ f.handlers = regions ∧ m.Catches fault f g := by
  cases h with
  | closed _ _ _ still =>
    have := still.length_lt
    omega
  | returned innermost back => exact .inl ⟨innermost, back⟩
  | @caught r rs fault found innermost catch' => exact .inr ⟨r, rs, fault, found, innermost, catch'⟩

/-! ## The time of a call -/

omit [Host H] in
theorem Machine.takesAbove_zero (m : Machine H) (depth : Nat) (f : Fiber) : m.TakesAbove depth 0 f := by
  intro fr rest i _ _ _ hadmits
  have hoperands := hadmits.operands
  omega

theorem Machine.Closes.transition {r : Handler} (h : m.Closes r f g) : Transition m f g := by
  cases h with
  | mk live frames instr _ _ _ _ done => exact .next live frames instr done

/-- Any other instruction closes nothing in this way. -/
theorem Machine.not_closes (hframes : f.frames = fr :: rest) (hi : Machine.instrAt m.program fr = .ok i)
    (hop : i.op? ≠ some .endTry) (r : Handler) : ¬ m.Closes r f g := by
  rintro ⟨-, frames, instr, op, -⟩
  obtain ⟨rfl, -⟩ := List.cons.inj (hframes.symm.trans frames)
  rw [hi] at instr
  cases instr
  exact hop op

/-- The states that a fiber gets into while more than `depth` calls are active. The number counts how
often an END_TRY has closed a region of one of the outermost `depth` calls. -/
inductive Machine.Closing (m : Machine H) (depth : Nat) (f : Fiber) : Nat → Fiber → Prop where
  | refl : Closing m depth f 0 f
  | closes {n : Nat} {g h : Fiber} {r : Handler} (before : Closing m depth f n g)
      (close : m.Closes r g h) (foreign : r.frameDepth ≤ depth) (deep : depth < h.frames.length) :
      Closing m depth f (n + 1) h
  | moves {n : Nat} {g h : Fiber} (before : Closing m depth f n g) (move : Transition m g h)
      (other : ∀ r, r.frameDepth ≤ depth → ¬ m.Closes r g h) (deep : depth < h.frames.length) :
      Closing m depth f n h

theorem Machine.Deeper.closing {depth : Nat} (h : m.Deeper depth f g) : ∃ n, m.Closing depth f n g := by
  induction h with
  | refl => exact ⟨0, .refl⟩
  | @tail x y _ hlast ih =>
    obtain ⟨n, hn⟩ := ih
    obtain ⟨hmove, hdeep⟩ := hlast
    by_cases hclose : ∃ r : Handler, r.frameDepth ≤ depth ∧ m.Closes r x y
    · obtain ⟨r, hforeign, hclose⟩ := hclose
      exact ⟨n + 1, hn.closes hclose hforeign hdeep⟩
    · exact ⟨n, hn.moves hmove (fun r hr hc => hclose ⟨r, hr, hc⟩) hdeep⟩

theorem Machine.Closing.deeper {depth n : Nat} (h : m.Closing depth f n g) : m.Deeper depth f g := by
  induction h with
  | refl => exact .refl
  | closes _ close _ deep ih => exact ih.tail ⟨close.transition, deep⟩
  | moves _ move _ deep ih => exact ih.tail ⟨move, deep⟩

/-- While a call is active, the regions of its callers are those of before, less the ones that an END_TRY
inside has closed. -/
theorem Fiber.Within.closing {n : Nat} (hregions : ∀ r ∈ regions, r.frameDepth ≤ outer.length)
    (hf : f.Within owner outer [] regions) (h : m.Closing outer.length f n g) :
    n ≤ regions.length ∧ g.Within owner outer [] (regions.drop n) := by
  have hleft : ∀ n, ∀ r ∈ regions.drop n, r.frameDepth ≤ outer.length :=
    fun n r hr => hregions r (List.mem_of_mem_drop hr)
  have hnext : ∀ {n g h}, g.Within owner outer [] (regions.drop n) → Transition m g h →
      h.Within owner outer [] (regions.drop n) ∨ m.Ends owner outer [] (regions.drop n) g h :=
    fun {n g h} hg hmove =>
      hg.transition (fun r hr => (hleft n r hr).trans (Nat.le_succ _)) (m.takesAbove_zero _ g) hmove
  induction h with
  | refl => exact ⟨Nat.zero_le _, hf⟩
  | @closes n g h r before close foreign deep ih =>
    obtain ⟨hn, hg⟩ := ih
    rcases hnext hg close.transition with hstays | hends
    · -- The region is not of this call, so it is one of those of before.
      obtain ⟨-, -, -, -, -, found, left, -⟩ := close
      rcases hg.innermost with hnone | ⟨h', hs, hfound, hinner, -⟩
      · have hle := hstays.length_le
        rw [← hnone, found, left, List.length_cons] at hle
        omega
      · obtain ⟨rfl, -⟩ := List.cons.inj (hfound.symm.trans found)
        omega
    · obtain ⟨r', rs, hfound, -, hstill⟩ := hends.closed_of_lt (hleft n) deep
      have hlength : (regions.drop n).length = rs.length + 1 := by rw [hfound, List.length_cons]
      rw [List.length_drop] at hlength
      refine ⟨by omega, ?_⟩
      rwa [← List.tail_drop, hfound]
  | @moves n g h before move other deep ih =>
    obtain ⟨hn, hg⟩ := ih
    refine ⟨hn, ?_⟩
    rcases hnext hg move with hstays | hends
    · exact hstays
    · obtain ⟨r, rs, hfound, hclose, -⟩ := hends.closed_of_lt (hleft n) deep
      exact absurd hclose (other r (hleft n r (by simp [hfound])))

/-- The calls of a checked program keep the regions of their callers open. Between the step that makes a
call and the move that leaves it, whatever is opened, closed, raised and caught and however often the fiber
is suspended, the regions that were open before are open below those of the call, but for the innermost
ones of them that an END_TRY inside has closed. A return leaves the caller with just these, and a fault
that is caught further out with those around the one it is caught in. -/
theorem calls_keep_regions (p : Program) (hcheck : p.check = .ok ()) (svc : Services (Stage H))
    (limits : Limits) (heap : Heap) (hm : m = (Machine.load p svc limits heap).1) :
    (∀ host ops sch, Operation.performAll ops (.create p svc limits heap host) = .ok sch →
      ∀ f ∈ sch.live, m.Runs f ∧ ∀ ops' sch', Operation.performAll ops' sch = .ok sch' →
        ∃ g, ReflTransGen (Transition m) f g ∧ (g ∈ sch'.live ∨ g.state.isTerminal = true)) ∧
    ∀ f fr rest i (s : Stage H) g s', m.Runs f → f.frames = fr :: rest →
      Machine.instrAt p fr = .ok i → i.op? = some .call →
      step m fr i f s = .next g s' → f.frames.length < g.frames.length →
      g.handlers = f.handlers ∧
      (∀ h, m.Deeper (rest.length + 1) g h ↔ ∃ n, m.Closing (rest.length + 1) g n h) ∧
      ∀ n h, m.Closing (rest.length + 1) g n h → n ≤ f.handlers.length ∧
        (∃ opened, h.handlers = opened ++ f.handlers.drop n ∧
          ∀ r ∈ opened, rest.length + 1 < r.frameDepth) ∧
        ∀ h', Transition m h h' → h'.frames.length ≤ rest.length + 1 →
          (h' = h.ret ∧ h'.frames = { fr with pc := fr.pc + 1 } :: rest ∧
            h'.handlers = f.handlers.drop n) ∨
          ∃ fault r rs, m.Catches fault h h' ∧ f.handlers.drop n = r :: rs ∧ h'.handlers = rs ∧
            h'.frames.length = r.frameDepth := by
  subst hm
  constructor
  · intro host ops sch hops f hf
    refine ⟨Scheduler.runs_of_performAll hops hf, ?_⟩
    intro ops' sch' hops'
    exact Scheduler.transitions_of_performAll hops hops' hf
  · intro f fr rest i s g s' hf hframes hi hop hstep hdeeper
    obtain ⟨-, -, hcalls, hregions⟩ := call_of_step hop hframes hstep hdeeper
    -- All open regions belong to the calls that wait.
    have hdepth : ∀ r ∈ f.handlers, r.frameDepth ≤ ({ fr with pc := fr.pc + 1 } :: rest).length := by
      intro r hr
      obtain ⟨func, outer, hsuffix, houter, -⟩ := (hf.placed hcheck).handlers r hr
      have hlength := hsuffix.length_le
      simp only [List.length_cons, List.length_map, hframes] at hlength ⊢
      omega
    have hwithin : g.Within { func := i.a.toInt, base := g.stack.length }
        ({ fr with pc := fr.pc + 1 } :: rest) [] f.handlers :=
      ⟨[], hregions, by simp, ⟨[], 0, hcalls, by simp⟩, List.nil_suffix, by simp⟩
    refine ⟨hregions, fun h => ⟨fun hh => hh.closing, fun ⟨n, hn⟩ => hn.deeper⟩, ?_⟩
    intro n h hh
    obtain ⟨hn, hinside⟩ := hwithin.closing hdepth hh
    have hdepth' : ∀ r ∈ f.handlers.drop n, r.frameDepth ≤ ({ fr with pc := fr.pc + 1 } :: rest).length :=
      fun r hr => hdepth r (List.mem_of_mem_drop hr)
    obtain ⟨opened, hopened, hinner, -⟩ := id hinside
    refine ⟨hn, ⟨opened, hopened, hinner⟩, ?_⟩
    intro h' hmove hout
    rcases hinside.transition (fun r hr => (hdepth' r hr).trans (Nat.le_succ _))
      (Machine.takesAbove_zero _ _ h) hmove with hstays | hends
    · have := hstays.length_lt
      rw [List.length_cons] at this
      omega
    · rcases hends.left_of_le hout with ⟨hlength, rfl⟩ | ⟨r, rs, fault, hfound, hnone, hcatch⟩
      · left
        obtain ⟨inner, pc, hsplit, -⟩ := hinside.frames
        obtain rfl : inner = [] := by
          rw [hsplit, List.length_append, List.length_cons] at hlength
          exact List.length_eq_zero_iff.mp (by omega)
        obtain ⟨hrest, hleft⟩ := Fiber.ret_eq hsplit
        refine ⟨rfl, hrest, ?_⟩
        rw [hleft, hopened, Fiber.dropWhile_regions hdepth',
          List.dropWhile_eq_nil_iff.mpr (by simpa using hinner), List.nil_append]
      · right
        obtain ⟨hleft, -, -, hlength⟩ := hcatch.region (hnone.trans hfound)
        have hr := hdepth' r (by simp [hfound])
        have hinner := hinside.length_lt
        exact ⟨fault, r, rs, hcatch, hfound, hleft, by omega⟩

end

/-- A function that calls another one inside of a region. That one catches a fault of its own, and goes on
with the END_TRY of the region in which it was caught. -/
def strayProgram : Program :=
  { version := Program.currentVersion
    functions := #[
      { code := #[.of .try 3, .of .call 1 0, .of .yield, .of .ret], maxStack := 1 },
      { code := #[.of .try 3, .of .pushConst 0, .of .throw, .of .endTry, .of .ret], maxStack := 1 }]
    constants := #[.scalar (.bool true)] }

def strayMachine : Machine Bench := (Machine.load strayProgram {} {} {}).1

/-- Its fiber somewhere on the way. -/
def strayFiber (frames : List Frame) (handlers : List Handler) (lastFault : Option Nat) : Fiber :=
  { id := 1, frames := frames, handlers := handlers, lastFault := lastFault }

def strayCaller : Fiber := strayFiber [⟨0, 1, 0⟩] [⟨3, 0, 1⟩] none

def strayCallee : Fiber := strayFiber [⟨1, 4, 0⟩, ⟨0, 2, 0⟩] [] (some 0)

theorem runs_strayCaller : strayMachine.Runs strayCaller := by
  have hrun : strayMachine.run 1 (.start 1 0) { host := {} } = .ok (.budget, strayCaller, { host := {} }) :=
    rfl
  exact Machine.Runs.run ⟨1, 0, _, rfl, .refl⟩ hrun

/-- Inside of the call, one END_TRY closes the region of the caller. -/
theorem closing_strayCallee :
    strayMachine.Closing 1 (strayFiber [⟨1, 0, 0⟩, ⟨0, 2, 0⟩] [⟨3, 0, 1⟩] none) 1 strayCallee := by
  let s : Stage Bench := { host := {} }
  have hopened : strayMachine.Closing 1 (strayFiber [⟨1, 0, 0⟩, ⟨0, 2, 0⟩] [⟨3, 0, 1⟩] none) 0 _ :=
    .moves .refl (.next (i := .of .try 3) (s := s) rfl rfl rfl rfl)
      (fun r _ => strayMachine.not_closes (i := .of .try 3) rfl rfl (by decide) r) (by decide)
  have hpushed : strayMachine.Closing 1 (strayFiber [⟨1, 0, 0⟩, ⟨0, 2, 0⟩] [⟨3, 0, 1⟩] none) 0 _ :=
    .moves hopened (.next (i := .of .pushConst 0) (s := s) rfl rfl rfl rfl)
      (fun r _ => strayMachine.not_closes (i := .of .pushConst 0) rfl rfl (by decide) r) (by decide)
  have hcaught : strayMachine.Closing 1 (strayFiber [⟨1, 0, 0⟩, ⟨0, 2, 0⟩] [⟨3, 0, 1⟩] none) 0 _ :=
    .moves hpushed (.next (i := .of .throw) (s := s) rfl rfl rfl rfl)
      (fun r _ => strayMachine.not_closes (i := .of .throw) rfl rfl (by decide) r) (by decide)
  refine .closes (r := ⟨3, 0, 1⟩) hcaught ?_ (by decide) (by decide)
  exact .mk (i := .of .endTry) (s := s) rfl rfl rfl rfl
    ⟨by decide, by decide, fun h => by cases h⟩ rfl rfl rfl

theorem calls_keep_regions_stray : strayProgram.check = .ok () ∧ strayMachine.Runs strayCaller ∧
    strayCaller.handlers = [⟨3, 0, 1⟩] ∧
    ∃ g, Transition strayMachine strayCaller g ∧ g.frames = [⟨1, 0, 0⟩, ⟨0, 2, 0⟩] ∧
      g.handlers = [⟨3, 0, 1⟩] ∧ strayMachine.Closing 1 g 1 strayCallee ∧
      ∀ h', Transition strayMachine strayCallee h' → h'.frames.length ≤ 1 →
        h' = strayCallee.ret ∧ h'.frames = [⟨0, 2, 0⟩] ∧ h'.handlers = [] := by
  let s : Stage Bench := { host := {} }
  have hcheck : strayProgram.check = .ok () := by decide
  have hstep : step strayMachine ⟨0, 1, 0⟩ (.of .call 1 0) strayCaller s =
      .next (strayFiber [⟨1, 0, 0⟩, ⟨0, 2, 0⟩] [⟨3, 0, 1⟩] none) s := rfl
  obtain ⟨-, hcalls⟩ := calls_keep_regions strayProgram hcheck {} {} {} (m := strayMachine) rfl
  obtain ⟨hregions, -, hinside⟩ :=
    hcalls strayCaller _ [] _ s _ s runs_strayCaller rfl rfl rfl hstep (by decide)
  obtain ⟨-, -, hleft⟩ := hinside 1 strayCallee closing_strayCallee
  refine ⟨hcheck, runs_strayCaller, rfl, _, .next rfl rfl rfl hstep, rfl, hregions,
    closing_strayCallee, ?_⟩
  intro h' hmove hout
  rcases hleft h' hmove hout with hret | ⟨fault, r, rs, -, hfound, -⟩
  · exact hret
  · cases hfound

/-- The check accepts a program in which a call that returns has closed the region of its caller. -/
theorem region_closed_by_callee : strayProgram.check = .ok () ∧ strayMachine.Runs strayCaller ∧
    ∃ g, Transition strayMachine strayCaller g ∧ g.frames = [⟨1, 0, 0⟩, ⟨0, 2, 0⟩] ∧
      strayMachine.Deeper 1 g strayCallee ∧ Transition strayMachine strayCallee strayCallee.ret ∧
      strayCallee.ret.frames = [⟨0, 2, 0⟩] ∧ strayCallee.ret.handlers ≠ strayCaller.handlers := by
  let s : Stage Bench := { host := {} }
  refine ⟨by decide, runs_strayCaller, _, .next (i := .of .call 1 0) (s := s) rfl rfl rfl rfl,
    rfl, closing_strayCallee.deeper, ?_, rfl, by decide⟩
  exact .next (i := .of .ret) (s := s) rfl rfl rfl rfl

end TileMind
