import TileMind.Proofs.Code.Layout
import TileMind.Proofs.Machine.Discipline

/-!
# TileMind.Proofs.Machine.Isolation

A child rule that fails does not fail its parent. In a fiber of a program compiled with isolated
children, the open `try` regions are known from where the active calls stand: every call that waits
for a child has exactly one, and the running one has one while it deals with a child.

* `Isolated`: the invariant.
* `Passes`: what one instruction can do to the active calls.
* `Isolated.step`: an instruction keeps the invariant and does one of these.
* `child_isolation`: once the rows of a rule are done, it calls every child once and returns.
-/

namespace TileMind

variable {H : Type} {layout : Int → Layout}

/-! ## Places and regions -/

namespace Layout

variable {l : Layout} {k j o : Nat}

/-- Where a fault is caught that arises at a place: behind the child that is dealt with there. -/
def catch? (l : Layout) (k : Nat) : Option Nat :=
  if l.start ≤ k ∧ (k - l.start) % 4 ≠ 0 then some (l.start + 4 * ((k - l.start) / 4 + 1)) else none

theorem catch?_of_le (h : k ≤ l.start) : l.catch? k = none := by
  rw [catch?, if_neg (by omega)]

theorem catch?_child (l : Layout) (j : Nat) : l.catch? (l.start + 4 * j) = none := by
  rw [catch?, if_neg (by omega)]

theorem catch?_last (l : Layout) : l.catch? l.last = none := l.catch?_child l.children.length

theorem catch?_inside (l : Layout) (j : Nat) (h0 : 0 < o) (h4 : o < 4) :
    l.catch? (l.start + 4 * j + o) = some (l.start + 4 * (j + 1)) := by
  rw [catch?, if_pos (by omega)]
  congr 1
  omega

/-- How many children have been called when a rule stands at a place. -/
def called (l : Layout) (k : Nat) : Nat := (k + 2 - l.start) / 4

end Layout

def regions (layout : Int → Layout) : List Frame → List Handler
  | [] => []
  | fr :: rest =>
    (((layout fr.func).catch? fr.pc.toNat).map fun k => ⟨(k : Int), 0, rest.length + 1⟩).toList ++
      regions layout rest

/-- A call that stands behind the call of a child. -/
def Calling (layout : Int → Layout) (fr : Frame) : Prop :=
  ∃ j child : Nat, (layout fr.func).children[j]? = some child ∧
    fr.pc = ((layout fr.func).start + 4 * j + 2 : Nat)

structure Isolated (layout : Int → Layout) (f : Fiber) : Prop where
  handlers : f.handlers = regions layout f.frames
  callers : ∀ fr ∈ f.frames.tail, Calling layout fr

theorem regions_of_none (fr : Frame) {k : Nat} (hpc : fr.pc = k)
    (hnone : (layout fr.func).catch? k = none) (rest : List Frame) :
    regions layout (fr :: rest) = regions layout rest := by
  rw [regions, hpc, Int.toNat_natCast, hnone]
  rfl

theorem regions_of_some (fr : Frame) {k n : Nat} (hpc : fr.pc = k)
    (hsome : (layout fr.func).catch? k = some n) (rest : List Frame) :
    regions layout (fr :: rest) = ⟨n, 0, rest.length + 1⟩ :: regions layout rest := by
  rw [regions, hpc, Int.toNat_natCast, hsome]
  rfl

theorem frameDepth_le_of_mem_regions {frames : List Frame} {h : Handler}
    (hh : h ∈ regions layout frames) : h.frameDepth ≤ frames.length := by
  induction frames with
  | nil => cases hh
  | cons fr rest ih =>
    rw [regions, List.mem_append] at hh
    rcases hh with hh | hh
    · obtain ⟨k, -, rfl⟩ := Option.map_eq_some_iff.mp (Option.mem_toList.mp hh)
      exact le_rfl
    · exact Nat.le_succ_of_le (ih hh)

/-! ## One instruction -/

/-- What executing instruction `i` of the innermost call `fr` can make of the active calls. -/
inductive Passes (layout : Int → Layout) (fr : Frame) (rest : List Frame) (i : Instr) :
    List Frame → Prop where
  | own {k k' : Nat} (pc : fr.pc = k) (lt : k < (layout fr.func).start) (forward : k < k')
      (target : k' ≤ (layout fr.func).start ∨ k' = (layout fr.func).last)
      (plain : i.op? ≠ some .call) : Passes layout fr rest i ({ fr with pc := (k' : Int) } :: rest)
  | child {j child o : Nat} (found : (layout fr.func).children[j]? = some child)
      (pc : fr.pc = ((layout fr.func).start + 4 * j + o : Nat)) (place : o = 0 ∨ o = 2 ∨ o = 3)
      (plain : i.op? ≠ some .call) :
      Passes layout fr rest i
        ({ fr with pc := ((layout fr.func).start + 4 * j + (o + 1) : Nat) } :: rest)
  | call {j child base : Nat} (found : (layout fr.func).children[j]? = some child)
      (pc : fr.pc = ((layout fr.func).start + 4 * j + 1 : Nat)) (instr : i = .of .call child 0) :
      Passes layout fr rest i ({ func := child, base := base } ::
        { fr with pc := ((layout fr.func).start + 4 * j + 2 : Nat) } :: rest)
  | ret (pc : fr.pc = (layout fr.func).last) (op : i.op? = some .ret) :
      Passes layout fr rest i rest
  | caught {j child o : Nat} (found : (layout fr.func).children[j]? = some child)
      (pc : fr.pc = ((layout fr.func).start + 4 * j + o : Nat)) (pos : 0 < o) (lt : o < 4)
      (instr : if o = 1 then i = .of .call child 0 else i.op? ≠ some .call) :
      Passes layout fr rest i ({ fr with pc := ((layout fr.func).start + 4 * (j + 1) : Nat) } :: rest)
  | passed {k j child : Nat} {c : Frame} {outer : List Frame} (callers : rest = c :: outer)
      (pc : fr.pc = k) (lt : k < (layout fr.func).start)
      (found : (layout c.func).children[j]? = some child)
      (waits : c.pc = ((layout c.func).start + 4 * j + 2 : Nat)) (plain : i.op? ≠ some .call) :
      Passes layout fr rest i ({ c with pc := ((layout c.func).start + 4 * (j + 1) : Nat) } :: outer)

/-- What an instruction of an isolated fiber leaves behind. Only a fault in the rows of the outermost
call is not caught. -/
def Outcome.Isolates (layout : Int → Layout) (fr : Frame) (rest : List Frame) (i : Instr) :
    Outcome H → Prop
  | .next g _ => Isolated layout g ∧ Passes layout fr rest i g.frames
  | .stop status g _ =>
    status = .waiting ∧ g.state = .waiting ∧ Isolated layout g ∧ g.frames = fr :: rest ∧
        i.op? ≠ some .call ∨
      status = .fault ∧ g.state = .fault ∧ rest = [] ∧
        ∃ k : Nat, fr.pc = k ∧ k < (layout fr.func).start ∧ i.op? ≠ some .doEnd
  | .crash _ => True

/-- A fault is caught by the innermost region. -/
theorem raise_of_handlers {g : Fiber} {n depth : Nat} {hs : List Handler}
    (hh : g.handlers = ⟨n, 0, depth⟩ :: hs) {c : Frame} {outer : List Frame}
    (hframes : g.frames.drop (g.frames.length - depth) = c :: outer) (t : Stage H) (fault : Nat)
    (site : Site) : ∃ g' t', raise g t fault site = .next g' t' ∧ g'.handlers = hs ∧
      g'.frames = { c with pc := (n : Int) } :: outer := by
  have hopen : g.handlers.isEmpty = false := by rw [hh]; rfl
  refine ⟨g.unwind fault, _, by simp only [raise, hopen]; rfl, ?_, ?_⟩
  · simp [Fiber.unwind, hh, Fiber.jump, hframes]
  · simp [Fiber.unwind, hh, Fiber.jump, hframes]

section

variable {f g : Fiber} {fr : Frame} {rest : List Frame} {i : Instr} {k : Nat}

theorem Isolated.moved (hi : Isolated layout f) (hframes : f.frames = fr :: rest) {n : Nat}
    (hg : g.frames = { fr with pc := (n : Int) } :: rest) (hh : g.handlers = regions layout rest)
    (hn : (layout fr.func).catch? n = none) : Isolated layout g := by
  refine ⟨?_, ?_⟩
  · rw [hh, hg, regions_of_none { fr with pc := (n : Int) } rfl hn]
  · have hcallers := hi.callers
    rw [hframes] at hcallers
    rwa [hg]

theorem Isolated.movedInside (hi : Isolated layout f) (hframes : f.frames = fr :: rest) {n c : Nat}
    (hg : g.frames = { fr with pc := (n : Int) } :: rest) (hn : (layout fr.func).catch? n = some c)
    (hh : g.handlers = ⟨c, 0, rest.length + 1⟩ :: regions layout rest) : Isolated layout g := by
  refine ⟨?_, ?_⟩
  · rw [hh, hg, regions_of_some { fr with pc := (n : Int) } rfl hn]
  · have hcallers := hi.callers
    rw [hframes] at hcallers
    rwa [hg]

theorem Isolated.raiseCaught (hi : Isolated layout f) (hframes : f.frames = fr :: rest) {j child o : Nat}
    (found : (layout fr.func).children[j]? = some child)
    (hpc : fr.pc = ((layout fr.func).start + 4 * j + o : Nat)) (h0 : 0 < o) (h4 : o < 4)
    (hinstr : if o = 1 then i = .of .call child 0 else i.op? ≠ some .call) {pc : Int}
    (hg : g.frames = { fr with pc := pc } :: rest) (hh : g.handlers = f.handlers) (t : Stage H)
    (fault : Nat) (site : Site) : (raise g t fault site).Isolates layout fr rest i := by
  have hsome := (layout fr.func).catch?_inside j h0 h4
  rw [hi.handlers, hframes, regions_of_some fr hpc hsome] at hh
  have hdrop : g.frames.drop (g.frames.length - (rest.length + 1)) = { fr with pc := pc } :: rest := by
    rw [hg]
    simp
  obtain ⟨g', t', hraise, hhandlers, hframes'⟩ := raise_of_handlers hh hdrop t fault site
  rw [hraise]
  refine ⟨hi.moved hframes hframes' hhandlers ((layout fr.func).catch?_child (j + 1)), ?_⟩
  rw [hframes']
  exact .caught found hpc h0 h4 hinstr

theorem Isolated.raiseOwn (hi : Isolated layout f) (hframes : f.frames = fr :: rest)
    (hpc : fr.pc = k) (hlt : k < (layout fr.func).start) (plain : i.op? ≠ some .call)
    (hdo : i.op? ≠ some .doEnd) {pc : Int} (hg : g.frames = { fr with pc := pc } :: rest)
    (hh : g.handlers = f.handlers) (t : Stage H) (fault : Nat) (site : Site) :
    (raise g t fault site).Isolates layout fr rest i := by
  rw [hi.handlers, hframes, regions_of_none fr hpc (Layout.catch?_of_le hlt.le)] at hh
  cases rest with
  | nil =>
    have hraise : raise g t fault site = .stop .fault (g.unwind fault) { t with
        heap := t.heap.setFault fault ((t.heap.fault fault).raisedAt site g.trace) } := by
      have hempty : g.handlers.isEmpty = true := by rw [hh]; rfl
      simp only [raise, hempty, if_true]
    have hstate : (g.unwind fault).state = .fault := by simp [Fiber.unwind, hh, regions]
    rw [hraise]
    exact .inr ⟨rfl, hstate, rfl, k, hpc, hlt, hdo⟩
  | cons c outer =>
    obtain ⟨j, child, found, hwaits⟩ := hi.callers c (by rw [hframes]; exact List.mem_cons_self)
    have hsome := (layout c.func).catch?_inside j (o := 2) (by decide) (by decide)
    rw [regions_of_some c hwaits hsome] at hh
    have hdrop : g.frames.drop (g.frames.length - (outer.length + 1)) = c :: outer := by
      rw [hg]
      simp
    obtain ⟨g', t', hraise, hhandlers, hframes'⟩ := raise_of_handlers hh hdrop t fault site
    rw [hraise]
    refine ⟨⟨?_, ?_⟩, ?_⟩
    · rw [hhandlers, hframes']
      exact (regions_of_none { c with pc := ((layout c.func).start + 4 * (j + 1) : Nat) } rfl
        ((layout c.func).catch?_child (j + 1)) outer).symm
    · intro d hd
      rw [hframes', List.tail_cons] at hd
      exact hi.callers d (by rw [hframes]; exact List.mem_cons_of_mem _ hd)
    · rw [hframes']
      exact .passed rfl hpc hlt found hwaits plain

theorem ne_of_isOwn {op : Op} (h : Layout.isOwn op = true) :
    op ≠ .call ∧ op ≠ .ret ∧ op ≠ .try ∧ op ≠ .endTry ∧ op ≠ .yield := by
  refine ⟨?_, ?_, ?_, ?_, ?_⟩ <;> rintro rfl <;> cases h

variable {m : Machine H} {s : Stage H} {T : HandleTable → HandleTable → Prop} {o : Outcome H}

theorem Isolated.stepOwn (hi : Isolated layout f) (hframes : f.frames = fr :: rest)
    (hpc : fr.pc = k) (hown : (layout fr.func).Own k i) (hdo : i.op? ≠ some .doEnd)
    (hmoves : Moves T i ⟨fr.func, fr.pc⟩ (f.jump (fr.pc + 1)) s o) :
    o.Isolates layout fr rest i := by
  have hpast : (f.jump (fr.pc + 1)).frames = { fr with pc := ((k + 1 : Nat) : Int) } :: rest := by
    simp [Fiber.jump, hframes, hpc]
  have hregions : f.handlers = regions layout rest := by
    rw [hi.handlers, hframes, regions_of_none fr hpc (Layout.catch?_of_le hown.lt.le)]
  obtain ⟨op, hop, hisOwn⟩ := hown.op
  obtain ⟨hcall, hret, htry, hend, hyield⟩ := ne_of_isOwn hisOwn
  have hplain : i.op? ≠ some .call := by
    rw [hop]
    exact fun h => hcall (Option.some.inj h)
  cases hmoves with
  | next same table straight frames handlers stack =>
    rw [hpast] at frames
    rw [Fiber.jump_handlers, hregions] at handlers
    have hle : k + 1 ≤ (layout fr.func).start := hown.lt
    refine ⟨hi.moved hframes frames handlers (Layout.catch?_of_le hle), ?_⟩
    rw [frames]
    exact .own hpc hown.lt (Nat.lt_succ_self k) (.inl hle) hplain
  | jump same isJump frames handlers stack =>
    obtain ⟨d, hd, ha, htarget⟩ := hown.jump isJump
    have hlands : ((f.jump (fr.pc + 1)).jump (fr.pc + i.a.toInt)).frames =
        { fr with pc := ((k + d : Nat) : Int) } :: rest := by
      simp [Fiber.jump, hframes, hpc, ha]
    rw [hlands] at frames
    rw [Fiber.jump_handlers, hregions] at handlers
    have hnone : (layout fr.func).catch? (k + d) = none := by
      rcases htarget with hlt | hlast
      · exact Layout.catch?_of_le hlt.le
      · rw [hlast]
        exact (layout fr.func).catch?_last
    refine ⟨hi.moved hframes frames handlers hnone, ?_⟩
    rw [frames]
    exact .own hpc hown.lt (Nat.lt_add_of_pos_right hd) (htarget.imp_left Nat.le_of_lt) hplain
  | call same op' => exact absurd op' hplain
  | ret op' =>
    rw [hop, Option.some.injEq] at op'
    exact absurd op' hret
  | tryStart same op' =>
    rw [hop, Option.some.injEq] at op'
    exact absurd op' htry
  | tryEnd same op' =>
    rw [hop, Option.some.injEq] at op'
    exact absurd op' hend
  | raise same table frames handlers stack =>
    rw [hpast] at frames
    rw [Fiber.jump_handlers] at handlers
    exact hi.raiseOwn hframes hpc hown.lt hplain hdo frames handlers _ _ _
  | park op' found pending =>
    have hback : ((f.jump (fr.pc + 1)).jump fr.pc).frames = fr :: rest := by
      simp [Fiber.jump, hframes]
    refine .inl ⟨rfl, rfl, ⟨?_, ?_⟩, hback, hplain⟩
    · simp only [Fiber.jump_handlers, hback]
      rw [hi.handlers, hframes]
    · have hcallers := hi.callers
      rw [hframes] at hcallers
      rwa [hback]
  | yield op' =>
    rw [hop, Option.some.injEq] at op'
    exact absurd op' hyield
  | crash => trivial

theorem Isolated.stepCall (hi : Isolated layout f) (hframes : f.frames = fr :: rest) {j child : Nat}
    (hsmall : child < 2 ^ 31) (found : (layout fr.func).children[j]? = some child)
    (hpc : fr.pc = ((layout fr.func).start + 4 * j + 1 : Nat))
    (hmoves : Moves T (.of .call child 0) ⟨fr.func, fr.pc⟩ (f.jump (fr.pc + 1)) s o) :
    o.Isolates layout fr rest (.of .call child 0) := by
  have hpast : (f.jump (fr.pc + 1)).frames =
      { fr with pc := (((layout fr.func).start + 4 * j + 2 : Nat) : Int) } :: rest := by
    simp [Fiber.jump, hframes, hpc]
    ring
  cases hmoves with
  | next same table straight => simp at straight
  | jump same isJump => simp [Op.isJump] at isJump
  | @call g same op frames handlers stack =>
    rw [Instr.a_of, toInt_ofInt_of_lt hsmall, hpast] at frames
    rw [Fiber.jump_handlers, hi.handlers, hframes,
      regions_of_some fr hpc ((layout fr.func).catch?_inside j (o := 1) (by decide) (by decide))]
      at handlers
    refine ⟨⟨?_, ?_⟩, ?_⟩
    · -- The called function starts without a region; its caller has moved within its own.
      have hnone : (layout child).catch? 0 = none := Layout.catch?_of_le (Nat.zero_le _)
      have hsome := (layout fr.func).catch?_inside j (o := 2) (by decide) (by decide)
      rw [handlers, frames, regions_of_none { func := child, base := g.stack.length } rfl hnone,
        regions_of_some { fr with pc := (((layout fr.func).start + 4 * j + 2 : Nat) : Int) } rfl hsome]
    · intro c hc
      rw [frames, List.tail_cons] at hc
      rcases List.mem_cons.mp hc with rfl | hc
      · exact ⟨j, child, found, rfl⟩
      · exact hi.callers c (by rw [hframes]; exact hc)
    · rw [frames]
      exact .call found hpc rfl
  | ret op => simp at op
  | tryStart same op => simp at op
  | tryEnd same op => simp at op
  | raise same table frames handlers stack =>
    rw [hpast] at frames
    rw [Fiber.jump_handlers] at handlers
    exact hi.raiseCaught hframes found hpc (by decide) (by decide) (by simp) frames handlers _ _ _
  | park op => simp at op
  | yield op => simp at op
  | crash => trivial

theorem Isolated.stepDrop (hi : Isolated layout f) (hframes : f.frames = fr :: rest) {j child : Nat}
    (found : (layout fr.func).children[j]? = some child)
    (hpc : fr.pc = ((layout fr.func).start + 4 * j + 2 : Nat))
    (hmoves : Moves T (.of .pop) ⟨fr.func, fr.pc⟩ (f.jump (fr.pc + 1)) s o) :
    o.Isolates layout fr rest (.of .pop) := by
  have hpast : (f.jump (fr.pc + 1)).frames =
      { fr with pc := (((layout fr.func).start + 4 * j + 3 : Nat) : Int) } :: rest := by
    simp [Fiber.jump, hframes, hpc]
    ring
  cases hmoves with
  | next same table straight frames handlers stack =>
    rw [hpast] at frames
    rw [Fiber.jump_handlers, hi.handlers, hframes,
      regions_of_some fr hpc ((layout fr.func).catch?_inside j (o := 2) (by decide) (by decide))]
      at handlers
    refine ⟨hi.movedInside hframes frames
      ((layout fr.func).catch?_inside j (o := 3) (by decide) (by decide)) handlers, ?_⟩
    rw [frames]
    exact .child found hpc (.inr (.inl rfl)) (by simp)
  | jump same isJump => simp [Op.isJump] at isJump
  | call same op => simp at op
  | ret op => simp at op
  | tryStart same op => simp at op
  | tryEnd same op => simp at op
  | raise same table frames handlers stack =>
    rw [hpast] at frames
    rw [Fiber.jump_handlers] at handlers
    exact hi.raiseCaught hframes found hpc (by decide) (by decide) (by simp) frames handlers _ _ _
  | park op => simp at op
  | yield op => simp at op
  | crash => trivial

/-- With nothing on the stack, the guard of an instruction that needs and pushes nothing holds. -/
theorem checkStack_of_empty (hlimit : 0 ≤ m.limits.stack) (hempty : f.stack = []) {base : Nat}
    (hbase : base = 0) (hpops : i.pops = 0) (hpushes : i.pushes = 0) (pc : Int) :
    m.checkStack (f.jump pc) base i = none := by
  unfold Machine.checkStack
  simp only [Fiber.jump_stack, hempty, hbase, hpops, hpushes, List.length_nil]
  rw [if_neg (by decide), if_neg (by push_cast; omega)]

variable [Host H]

theorem step_doEnd (hop : i.op? = some .doEnd) (hbase : fr.base = 0) (hlimit : 0 ≤ m.limits.stack)
    {v : Value} (hstack : f.stack = [v]) :
    step m fr i f s = .next { f.jump (fr.pc + 1) with stack := [] } s := by
  have hcheck : m.checkStack (f.jump (fr.pc + 1)) fr.base i = none := by
    have hpops : i.pops = 1 := by simp [Instr.pops, hop, Op.pops]
    have hpushes : i.pushes = 0 := by simp [Instr.pushes, hop, Op.pushes]
    unfold Machine.checkStack
    simp only [Fiber.jump_stack, hstack, hbase, hpops, hpushes, List.length_singleton]
    rw [if_neg (by decide), if_neg (by push_cast; omega)]
  simp only [step, hcheck, hop, exec, withTop, Fiber.jump_stack, hstack]

theorem Isolated.stepEnter (hi : Isolated layout f) (hframes : f.frames = fr :: rest) {j child : Nat}
    (found : (layout fr.func).children[j]? = some child)
    (hpc : fr.pc = ((layout fr.func).start + 4 * j : Nat)) (hempty : f.stack = [])
    (hcheck : m.checkStack (f.jump (fr.pc + 1)) fr.base (.of .try 4) = none) :
    (step m fr (.of .try 4) f s).Isolates layout fr rest (.of .try 4) := by
  have hpast : (f.jump (fr.pc + 1)).frames =
      { fr with pc := (((layout fr.func).start + 4 * j + 1 : Nat) : Int) } :: rest := by
    simp [Fiber.jump, hframes, hpc]
  have hfour : (Instr.of .try 4).a.toInt = 4 := by decide
  have hstep : step m fr (.of .try 4) f s = .next { f.jump (fr.pc + 1) with
      handlers := ⟨fr.pc + 4, 0, rest.length + 1⟩ :: f.handlers } s := by
    simp only [step, hcheck, Instr.op?_of, exec, hfour, Fiber.jump_stack, Fiber.jump_handlers, hempty,
      hpast, List.length_cons, List.length_nil]
  rw [hstep]
  refine ⟨hi.movedInside hframes hpast
    ((layout fr.func).catch?_inside j (o := 1) (by decide) (by decide)) ?_, ?_⟩
  · rw [hi.handlers, hframes, regions_of_none fr hpc ((layout fr.func).catch?_child j), hpc]
    push_cast
    congr 2
  · change Passes layout fr rest (.of .try 4) (f.jump (fr.pc + 1)).frames
    rw [hpast]
    exact .child found hpc (.inl rfl) (by simp)

theorem Isolated.stepLeave (hi : Isolated layout f) (hframes : f.frames = fr :: rest) {j child : Nat}
    (found : (layout fr.func).children[j]? = some child)
    (hpc : fr.pc = ((layout fr.func).start + 4 * j + 3 : Nat)) :
    (step m fr (.of .endTry) f s).Isolates layout fr rest (.of .endTry) := by
  have hpast : (f.jump (fr.pc + 1)).frames =
      { fr with pc := (((layout fr.func).start + 4 * (j + 1) : Nat) : Int) } :: rest := by
    simp [Fiber.jump, hframes, hpc]
    ring
  cases hcheck : m.checkStack (f.jump (fr.pc + 1)) fr.base (.of .endTry) with
  | some fault =>
    simp only [step, hcheck]
    exact hi.raiseCaught hframes found hpc (by decide) (by decide) (by simp) hpast
      (f.jump_handlers _) _ _ _
  | none =>
    have hstep : step m fr (.of .endTry) f s =
        .next { f.jump (fr.pc + 1) with handlers := f.handlers.tail } s := by
      simp only [step, hcheck, Instr.op?_of, exec, Fiber.jump_handlers]
    rw [hstep]
    refine ⟨hi.moved hframes hpast ?_ ((layout fr.func).catch?_child (j + 1)), ?_⟩
    · rw [hi.handlers, hframes, regions_of_some fr hpc
        ((layout fr.func).catch?_inside j (o := 3) (by decide) (by decide)), List.tail_cons]
    · change Passes layout fr rest (.of .endTry) (f.jump (fr.pc + 1)).frames
      rw [hpast]
      exact .child found hpc (.inr (.inr rfl)) (by simp)

theorem Isolated.stepRet (hi : Isolated layout f) (hframes : f.frames = fr :: rest)
    (hpc : fr.pc = (layout fr.func).last)
    (hcheck : m.checkStack (f.jump (fr.pc + 1)) fr.base (.of .ret) = none) :
    (step m fr (.of .ret) f s).Isolates layout fr rest (.of .ret) := by
  have hpast : (f.jump (fr.pc + 1)).frames = { fr with pc := fr.pc + 1 } :: rest := by
    simp [Fiber.jump, hframes]
  have hstep : step m fr (.of .ret) f s = .next (f.jump (fr.pc + 1)).ret s := by
    simp only [step, hcheck, Instr.op?_of, exec]
  -- No region of the calls that stay is as deep as the one that is left.
  have hopen : (f.jump (fr.pc + 1)).handlers.dropWhile (fun h => decide (rest.length < h.frameDepth)) =
      regions layout rest := by
    rw [Fiber.jump_handlers, hi.handlers, hframes,
      regions_of_none fr hpc (layout fr.func).catch?_last]
    cases hr : regions layout rest with
    | nil => rfl
    | cons h hs =>
      have hle := frameDepth_le_of_mem_regions (hr ▸ List.mem_cons_self : h ∈ regions layout rest)
      rw [List.dropWhile_cons_of_neg (by simpa using hle)]
  have hret : (f.jump (fr.pc + 1)).ret.frames = rest ∧
      (f.jump (fr.pc + 1)).ret.handlers = regions layout rest := by
    unfold Fiber.ret
    rw [hpast]
    dsimp only
    rw [hopen]
    split
    · rename_i hnil
      exact ⟨(List.isEmpty_iff.mp hnil).symm, rfl⟩
    · exact ⟨rfl, rfl⟩
  rw [hstep]
  refine ⟨⟨?_, ?_⟩, ?_⟩
  · rw [hret.1, hret.2]
  · intro c hc
    rw [hret.1] at hc
    exact hi.callers c (by rw [hframes]; exact List.mem_of_mem_tail hc)
  · rw [hret.1]
    exact .ret hpc (by simp)

omit [Host H] in
theorem Disciplined.atDoEnd {p : Program} (hp : RuleProgram p) (hl : Isolating p layout)
    (hd : Disciplined p f) (hframes : f.frames = fr :: rest) (hinstr : Machine.instrAt p fr = .ok i)
    (hop : i.op? = some .doEnd) :
    fr.pc + 1 = (layout fr.func).start ∧ ∃ v, f.stack = [v] := by
  obtain ⟨fn, k, he⟩ := hd.executes hp hframes hinstr
  have hspot : (layout fr.func).Spot k i := by
    refine Layout.spot_of_getElem? (hl.sound he.func) ?_
    rw [← hl.code he.func]
    exact he.instr
  have hstart : k + 1 = (layout fr.func).start := by
    cases hspot with
    | own hown => exact hown.doEnd hop
    | _ => simp at hop
  -- The action has left one value, as there is none behind the end of it.
  have hzero := Layout.heightAt_start (hl.sound he.func)
  rw [← hl.code he.func, ← hstart, heightAt_succ he.instr, he.height] at hzero
  have heffect : i.effect = -1 := by
    simp [Instr.effect, Instr.pops, Instr.pushes, hop, Op.pops, Op.pushes]
  refine ⟨?_, List.length_eq_one_iff.mp (by omega)⟩
  rw [he.pc, ← hstart]
  rfl

/-- An instruction of an isolated fiber keeps it isolated. -/
theorem Isolated.step (hp : RuleProgram m.program) (hl : Isolating m.program layout)
    (hlimit : 0 ≤ m.limits.stack) (hd : Disciplined m.program f) (hi : Isolated layout f)
    (hframes : f.frames = fr :: rest) (hinstr : Machine.instrAt m.program fr = .ok i) (s : Stage H) :
    (TileMind.step m fr i f s).Isolates layout fr rest i := by
  obtain ⟨fn, k, he⟩ := hd.executes hp hframes hinstr
  have hbase := (hd.top fr rest hframes).base
  have hspot : (layout fr.func).Spot k i := by
    refine Layout.spot_of_getElem? (hl.sound he.func) ?_
    rw [← hl.code he.func]
    exact he.instr
  have hmoves := step_moves (i := i) (s := s) (m.keeps_true f.id) fr
  have hpc := he.pc
  have hempty (h : heightAt fn.code.toList k = 0) : f.stack = [] := by
    apply List.eq_nil_of_length_eq_zero
    have := he.height
    omega
  cases hspot with
  | own hown =>
    by_cases hdo : i.op? = some .doEnd
    · obtain ⟨hstart, v, hstack⟩ := hd.atDoEnd hp hl hframes hinstr hdo
      have hpast : (f.jump (fr.pc + 1)).frames =
          { fr with pc := (((layout fr.func).start : Nat) : Int) } :: rest := by
        rw [hstart]
        simp [Fiber.jump, hframes]
      rw [step_doEnd hdo hbase hlimit hstack]
      refine ⟨hi.moved hframes hpast ?_ (Layout.catch?_of_le le_rfl), ?_⟩
      · rw [Fiber.jump_handlers, hi.handlers, hframes,
          regions_of_none fr hpc (Layout.catch?_of_le hown.lt.le)]
      · change Passes layout fr rest i (f.jump (fr.pc + 1)).frames
        rw [hpast]
        exact .own hpc hown.lt hown.lt (.inl le_rfl) (by simp [hdo])
    · exact hi.stepOwn hframes hpc hown hdo hmoves
  | @enter j child found =>
    have hzero : heightAt fn.code.toList ((layout fr.func).start + 4 * j) = 0 := by
      have := ((he.inside (by simp)).fits.call (.inr (Instr.op?_of ..))).1
      omega
    have hnil := hempty hzero
    refine hi.stepEnter hframes found hpc hnil (checkStack_of_empty hlimit hnil hbase ?_ ?_ _)
    · simp [Instr.pops, Op.pops]
    · simp [Op.pushes]
  | call found =>
    obtain ⟨-, hlt⟩ := hl.child he.func (List.mem_of_getElem? found)
    exact hi.stepCall hframes (Nat.lt_trans hlt hl.small) found hpc hmoves
  | drop found => exact hi.stepDrop hframes found hpc hmoves
  | leave found => exact hi.stepLeave hframes found hpc
  | ret =>
    have hnil : f.stack = [] := by
      rcases he.place with hin | hr
      · obtain ⟨op, hop, hne⟩ := hin.fits.known
        rw [Instr.op?_of, Option.some.injEq] at hop
        exact absurd hop.symm hne.2.1
      · exact hempty hr.height
    refine hi.stepRet hframes hpc (checkStack_of_empty hlimit hnil hbase ?_ ?_ _)
    · simp [Instr.pops, Op.pops]
    · simp [Op.pushes]

end

end TileMind
