import TileMind.Proofs.Brain.Holdings
import TileMind.Proofs.Code.ArgumentMaps
import TileMind.Proofs.Machine.Discipline
import TileMind.Proofs.Machine.Preemption

/-!
# TileMind.Proofs.Brain.Assignments

How objects come to hold each other while compiled code runs. An assignment to a field is the one instruction
that stores a value in an object which other values may refer to already. All others build new objects, or
fill an argument map that nothing refers to but the stack.

* `Machine.Loops`: an assignment that closes a loop.
* `Fiber.Laid`: argument maps are where the code has put them, and nowhere else.
* `tidy_step`: any instruction but such an assignment leaves objects in order.
* `Machine.moments`: the instructions that a run executes.
* `Machine.Ready.run`: what a run keeps.
-/

namespace TileMind

/-! ## Assignments -/

/-- A fiber that is about to execute an instruction. -/
structure Moment (H : Type) where
  fiber : Fiber
  stage : Stage H
  instr : Instr

namespace Machine

variable {H : Type}

/-- An assignment to the field stores the value in the object itself: it is a map, or a struct no hook of which
takes the value. -/
def Stores (m : Machine H) (obj : Value) (field : String) (v : Value) (s : Stage H) : Prop :=
  match obj with
  | .map _ _ => True
  | .struct type _ => ∀ set, (m.hooks type).set = some set → ∃ t, set obj field v s = .ok (false, t)
  | _ => False

/-- The instruction at hand stores a value in a map or a struct that is reached from that value. -/
def Loops (m : Machine H) (x : Moment H) : Prop :=
  x.instr.op? = some .setField ∧ ∃ v name obj below field, x.fiber.stack = v :: name :: obj :: below ∧
    name.string? = some field ∧ m.Stores obj field v x.stage ∧
    ∃ y z, v.ref? = some y ∧ obj.ref? = some z ∧ x.stage.heap.Reaches y z

end Machine

/-! ## Stacks -/

/-- What is on the stack at the place of a call. -/
def Program.layout (p : Program) (fr : Frame) : List StackSlot :=
  match p.function? fr.func with
  | some fn => layoutAt fn.code.toList fr.pc.toNat
  | none => []

/-- A value that may be held anywhere, or an argument map. -/
def Heap.Fills (h : Heap) (args : Set Nat) : StackSlot → Value → Prop
  | .value, v => h.Common args v
  | .args, v => ∃ type, ∃ n ∈ args, v = .map type n

/-- The stack of a fiber is as its place in the code says. A caller finds a result there and nothing else. -/
structure Fiber.Laid (p : Program) (h : Heap) (args : Set Nat) (f : Fiber) : Prop where
  top : ∀ fr rest, f.frames = fr :: rest → List.Forall₂ (h.Fills args) (p.layout fr) f.stack
  callers : ∀ fr ∈ f.frames.tail, p.layout fr = [.value]

section

variable {p : Program} {h h' : Heap} {args args' : Set Nat} {f g : Fiber}

theorem Heap.Fills.later {slot : StackSlot} {v : Value} (hv : h.Fills args slot v)
    (hl : h.Later args h' args') : h'.Fills args' slot v := by
  cases slot with
  | value => exact Heap.Common.later hv hl
  | args =>
    obtain ⟨type, n, hn, rfl⟩ := hv
    exact ⟨type, n, hl.kept hn, rfl⟩

theorem Fiber.Laid.later (hf : f.Laid p h args) (hl : h.Later args h' args') : f.Laid p h' args' :=
  ⟨fun fr rest hframes => (hf.top fr rest hframes).imp fun _ _ hv => hv.later hl, hf.callers⟩

theorem layout_eq {fr : Frame} {fn : Function} {k : Nat} (hfn : p.function? fr.func = some fn) (hk : fr.pc = k) :
    p.layout fr = layoutAt fn.code.toList k := by
  simp [Program.layout, hfn, hk]

theorem layout_start (p : Program) (func : Int) (base : Nat) : p.layout { func := func, base := base } = [] := by
  unfold Program.layout
  split <;> rfl

theorem laid_of_empty (hl : p.Layouts) (hf : Disciplined p f) (hstack : f.stack = [])
    (hcallers : ∀ fr ∈ f.frames.tail, p.layout fr = [.value]) : f.Laid p h args := by
  refine ⟨fun fr rest hframes => ?_, hcallers⟩
  obtain ⟨fn, k, hfn, hpc, hk, hheight⟩ := (hf.top fr rest hframes).place
  have hlength := hl.length hfn hk.le
  rw [hheight, hstack] at hlength
  have hempty : layoutAt fn.code.toList k = [] := List.length_eq_zero_iff.mp (by exact_mod_cast hlength)
  rw [layout_eq hfn hpc, hempty, hstack]
  exact .nil

theorem forall_of_replicate {n : Nat} {values : List Value}
    (hv : List.Forall₂ (h.Fills args) (List.replicate n .value) values) : ∀ v ∈ values, h.Common args v := by
  induction n generalizing values with
  | zero =>
    cases hv
    simp
  | succ n ih =>
    cases hv with
    | cons hfirst hrest => exact List.forall_mem_cons.mpr ⟨hfirst, ih hrest⟩

end

/-! ## Past an instruction -/

/-- A fiber that is past the instruction at `site` already, on top of `slots`. -/
structure Fiber.Past (p : Program) (i : Instr) (site : Site) (slots : List StackSlot) (f : Fiber) : Prop where
  nested : Nested p f
  callers : ∀ fr ∈ f.frames.tail, p.layout fr = [.value]
  here : ∀ fr rest, f.frames = fr :: rest → p.layout fr = i.gives ++ slots
  back : ∀ fr rest, f.frames = fr :: rest → p.layout { fr with pc := site.pc } = i.takes ++ slots
  target : i.isJump = true → ∀ fr rest, f.frames = fr :: rest →
    p.layout { fr with pc := site.pc + i.a.toInt } = i.gives ++ slots

/-- What an instruction leaves behind is in order, and later than the heap `h`. -/
def Outcome.Neat {W : Type} (p : Program) (h : Heap) (args : Set Nat) : Outcome (Mind W) → Prop
  | .next g t => ∃ args', h.Later args t.heap args' ∧ t.Tidy args' ∧ g.Laid p t.heap args'
  | .stop _ g t => ∃ args', h.Later args t.heap args' ∧ t.Tidy args' ∧
      (g.state.isTerminal = false → g.Laid p t.heap args')
  | .crash _ => True

section

variable {W : Type} {p : Program} {i : Instr} {site : Site} {slots : List StackSlot} {f g : Fiber} {h : Heap}
  {s t : Stage (Mind W)} {args args' : Set Nat}

theorem Fiber.Past.congr (hf : f.Past p i site slots) (hframes : g.frames = f.frames)
    (hhandlers : g.handlers = f.handlers) : g.Past p i site slots := by
  refine ⟨?_, ?_, ?_, ?_, ?_⟩
  · refine hf.nested.guarded hframes ?_ ?_
    · rw [hhandlers]
      exact hf.nested.handlers
    · rw [hhandlers]
      exact hf.nested.nested
  all_goals rw [hframes]
  · exact hf.callers
  · exact hf.here
  · exact hf.back
  · exact hf.target

/-- The instruction has left what it is to leave. -/
theorem Fiber.Past.laid (hf : f.Past p i site slots)
    (hstack : List.Forall₂ (h.Fills args) (i.gives ++ slots) f.stack) : f.Laid p h args :=
  ⟨fun fr rest hframes => by rw [hf.here fr rest hframes]; exact hstack, hf.callers⟩

theorem Fiber.Past.next (hf : f.Past p i site slots) (hs : s.Tidy args)
    (hstack : List.Forall₂ (s.heap.Fills args) (i.gives ++ slots) f.stack) :
    (Outcome.next f s).Neat p s.heap args :=
  ⟨args, .refl _ _, hs, hf.laid hstack⟩

theorem laid_jump {pc : Int} {there : List StackSlot} (hcallers : ∀ fr ∈ f.frames.tail, p.layout fr = [.value])
    (hthere : ∀ fr rest, f.frames = fr :: rest → p.layout { fr with pc := pc } = there)
    (hstack : List.Forall₂ (h.Fills args) there f.stack) : (f.jump pc).Laid p h args := by
  unfold Fiber.jump
  split
  · rename_i hnone
    refine ⟨fun fr rest hframes => ?_, hcallers⟩
    rw [hnone] at hframes
    cases hframes
  · rename_i fr rest hframes
    rw [hframes] at hcallers
    refine ⟨fun c outer hc => ?_, hcallers⟩
    cases hc
    rw [hthere fr rest hframes]
    exact hstack

theorem Fiber.Past.jumped (hf : f.Past p i site slots) (hs : s.Tidy args) (hi : i.isJump = true)
    (hstack : List.Forall₂ (s.heap.Fills args) (i.gives ++ slots) f.stack) :
    (Outcome.next (f.jump (site.pc + i.a.toInt)) s).Neat p s.heap args :=
  ⟨args, .refl _ _, hs, laid_jump hf.callers (hf.target hi) hstack⟩

theorem Outcome.Neat.after {o : Outcome (Mind W)} (ho : o.Neat p s.heap args') (hl : h.Later args s.heap args') :
    o.Neat p h args := by
  cases o with
  | next g t =>
    obtain ⟨args'', hlater, ht⟩ := ho
    exact ⟨args'', hl.trans hlater, ht⟩
  | stop status g t =>
    obtain ⟨args'', hlater, ht⟩ := ho
    exact ⟨args'', hl.trans hlater, ht⟩
  | crash c => trivial

/-- A fault ends the fiber, or leads to where nothing is on the stack. -/
theorem Fiber.Past.raise (hl : p.Layouts) (hf : f.Past p i site slots) (hs : s.Tidy args) (fault : Nat) :
    (TileMind.raise f s fault site).Neat p s.heap args := by
  have hraised := hs.faults (s.heap.setFault fault ((s.heap.fault fault).raisedAt site f.trace)).faults
  have hlater := Heap.later_faults s.heap args
    (s.heap.setFault fault ((s.heap.fault fault).raisedAt site f.trace)).faults
  unfold TileMind.raise
  dsimp only
  cases hhandlers : f.handlers with
  | nil =>
    refine ⟨args, hlater, hraised, fun hlive => ?_⟩
    simp [Fiber.unwind, hhandlers, FiberState.isTerminal] at hlive
  | cons r rs =>
    refine ⟨args, hlater, hraised, laid_of_empty hl (hf.nested.unwind hhandlers fault) ?_ ?_⟩
    · have hheight := (hf.nested.handlers r (by rw [hhandlers]; exact List.mem_cons_self)).height
      simp [Fiber.unwind, hhandlers, hheight, cut_zero]
    · intro fr hfr
      refine hf.callers fr ?_
      simp only [Fiber.unwind, hhandlers, Fiber.jump] at hfr
      split at hfr
      · rename_i hnone
        rw [hnone] at hfr
        cases hfr
      · rename_i c outer hcons
        have hsuffix : c :: outer <:+ f.frames := hcons ▸ List.drop_suffix _ _
        obtain ⟨front, hfront⟩ := hsuffix
        rw [← hfront]
        cases front with
        | nil => exact hfr
        | cons d front => exact List.mem_append_right _ (List.mem_cons_of_mem _ hfr)

theorem Fiber.Past.raiseNew (hl : p.Layouts) (hf : f.Past p i site slots) (hs : s.Tidy args) (fault : Fault) :
    (TileMind.raiseNew f s fault site).Neat p s.heap args := by
  have hnew := hs.faults (s.heap.faults.push fault)
  exact (hf.raise hl hnew _).after (Heap.later_faults _ _ _)

end

/-! ## Host code -/

/-- A stage in order that comes after another one, with the same argument maps. -/
structure Stage.Tidied {W : Type} (args : Set Nat) (s t : Stage (Mind W)) : Prop where
  tidy : t.Tidy args
  later : s.heap.Later args t.heap args

/-- A fiber that differs in its handles at most. -/
structure Fiber.SameStack (f g : Fiber) : Prop where
  frames : g.frames = f.frames
  handlers : g.handlers = f.handlers
  stack : g.stack = f.stack

section

variable {W : Type} {m : Machine (Mind W)} {s t u : Stage (Mind W)} {args : Set Nat} {f g : Fiber}

theorem Stage.Tidy.tidied (hs : s.Tidy args) : s.Tidied args s := ⟨hs, .refl _ _⟩

theorem Stage.Tidied.trans (h : s.Tidied args t) (h' : t.Tidied args u) : s.Tidied args u :=
  ⟨h'.tidy, h.later.trans h'.later⟩

theorem Stage.Tidied.faults (h : s.Tidied args t) (faults : Array Fault) :
    Stage.Tidied args s { t with heap := { t.heap with faults := faults } } :=
  ⟨h.tidy.faults faults, h.later.trans (Heap.later_faults _ _ _)⟩

theorem Stage.Tidied.reject (h : s.Tidied args t) (id : Int) (fault : Option Nat) :
    s.Tidied args (t.reject id fault) :=
  ⟨h.tidy.reject id fault, by rw [Stage.heap_reject]; exact h.later⟩

theorem Stage.Tidy.grown (hs : s.Tidy args) (h : s.Grows t) : s.Tidied args t := ⟨hs.grows h, h.heap.later⟩

theorem Services.Fresh.callSync (hm : m.services.Fresh) (hs : s.Tidy args) {f : Fiber} {fn site func : Int}
    {a : Value} {r : Except Nat Value × Stage (Mind W)} (hr : m.callSync f fn site func a s = .ok r) :
    s.Tidied args r.2 ∧ ∀ v, r.1 = .ok v → r.2.heap.Common args v := by
  cases m.callSync_eq_ok hr with
  | missing => exact ⟨hs.tidied.faults _, nofun⟩
  | answered hx hcall called =>
    obtain ⟨hgrows, hoffers⟩ := (hm.function hx).sync hcall ⟨m.program, f.id, func, site, f.lastFault⟩ a s
    rw [called] at hgrows hoffers
    refine ⟨hs.grown hgrows, fun v hv => ?_⟩
    cases hv
    exact hs.offers hgrows.heap (hoffers _ rfl)
  | failed hx hcall called =>
    have hgrows := ((hm.function hx).sync hcall ⟨m.program, f.id, func, site, f.lastFault⟩ a s).1
    rw [called] at hgrows
    exact ⟨(hs.grown hgrows).faults _, nofun⟩

theorem Stage.Tidy.created (hs : s.Tidy args) {fiber : Int} {id : Nat} {table : HandleTable}
    (hcreate : s.handles.create? fiber = some (id, table)) : s.Tidied args { s with handles := table } :=
  ⟨hs.setHandles (hs.handles.create (Heap.common_of_ref? rfl) hcreate), .refl _ _⟩

theorem Services.Fresh.callAsync (hm : m.services.Fresh) (hs : s.Tidy args) {f : Fiber} {fn site func : Int}
    {a : Value} {r : Except Nat Nat × Fiber × Stage (Mind W)} (hr : m.callAsync f fn site func a s = .ok r) :
    s.Tidied args r.2.2 ∧ f.SameStack r.2.1 := by
  cases m.callAsync_eq_ok hr with
  | full => exact ⟨hs.tidied.faults _, rfl, rfl, rfl⟩
  | @started x call id table t hx hcall created called =>
    have hcreated := hs.created created
    have hgrows := (hm.function hx).async hcall ⟨m.program, f.id, func, site, f.lastFault⟩ a id
      { s with handles := table }
    rw [called] at hgrows
    exact ⟨hcreated.trans (hcreated.tidy.grown hgrows), rfl, rfl, rfl⟩
  | @refused x call id table start t fault faults hx hcall created called =>
    have hcreated := hs.created created
    have hgrows := (hm.function hx).async hcall ⟨m.program, f.id, func, site, f.lastFault⟩ a id
      { s with handles := table }
    rw [called] at hgrows
    exact ⟨((hcreated.trans (hcreated.tidy.grown hgrows)).faults faults).reject _ _, rfl, rfl, rfl⟩
  | failed answer => exact ⟨(hm.callSync hs answer).1, rfl, rfl, rfl⟩
  | fullAfter answer => exact ⟨(hm.callSync hs answer).1.faults _, rfl, rfl, rfl⟩
  | answered answer created =>
    obtain ⟨hcalled, hcommon⟩ := hm.callSync hs answer
    have hcreated := hcalled.tidy.created created
    have hv := (hcommon _ rfl).later hcreated.later
    refine ⟨⟨hcreated.tidy.resolve hv _, ?_⟩, rfl, rfl, rfl⟩
    rw [Stage.heap_resolve]
    exact hcalled.later.trans hcreated.later

theorem Services.Fresh.getField (hm : m.services.Fresh) (hs : s.Tidy args) {obj : Value} {field : String}
    {r : Except Fault Value × Stage (Mind W)} (hr : m.getField obj field s = .ok r) :
    s.Tidied args r.2 ∧ ∀ v, r.1 = .ok v → r.2.heap.Common args v := by
  have hpart {t : Stage (Mind W)} (ht : t.Tidy args) {x : Ref} {o : Option Value}
      (ho : ∀ v, o = some v → v ∈ t.heap.parts x) : t.heap.Common args (o.getD .nil) := by
    cases o with
    | none => exact Heap.common_of_ref? rfl
    | some v => exact ht.heap.parts x v (ho v rfl)
  unfold Machine.getField at hr
  split at hr
  · rename_i type ref
    obtain ⟨⟨answer, t⟩, hhooked, rfl⟩ := Except.map_eq_ok_iff.mp hr
    split at hhooked
    · rename_i get hget
      obtain ⟨hgrows, hoffers⟩ := hm.get hget (Except.mapError_eq_ok_iff.mp hhooked)
      refine ⟨hs.grown hgrows, fun v hv => ?_⟩
      cases hv
      cases answer with
      | none => exact hpart (hs.grows hgrows) fun w hw => Heap.mem_parts_struct hw
      | some w => exact hs.offers hgrows.heap (hoffers w rfl)
    · cases hhooked
      refine ⟨hs.tidied, fun v hv => ?_⟩
      cases hv
      exact hpart hs fun w hw => Heap.mem_parts_struct hw
  · cases hr
    refine ⟨hs.tidied, fun v hv => ?_⟩
    cases hv
    exact hpart hs fun w hw => Heap.mem_parts_map hw
  · split at hr
    case h_4 =>
      obtain ⟨text, -, rfl⟩ := Except.map_eq_ok_iff.mp hr
      exact ⟨hs.tidied, nofun⟩
    all_goals
      cases hr
      refine ⟨hs.tidied, fun v hv => ?_⟩
      cases hv
      exact Heap.common_of_ref? rfl

theorem Services.Fresh.setField (hm : m.services.Fresh) (hs : s.Tidy args) {obj v : Value} {field : String}
    (hobj : s.heap.Common args obj) (hv : s.heap.Common args v)
    (hopen : m.Stores obj field v s → ∀ y z, v.ref? = some y → obj.ref? = some z → ¬ s.heap.Reaches y z)
    {r : Except Fault Unit × Stage (Mind W)} (hr : m.setField obj field v s = .ok r) : s.Tidied args r.2 := by
  unfold Machine.setField at hr
  split at hr
  · rename_i type ref
    obtain ⟨hhas, -⟩ := hobj (.struct ref) rfl
    -- The hook may have added to the heap before it gave the value back.
    have hstored {t : Stage (Mind W)} (hgrows : s.Grows t) (hstores : m.Stores (.struct type ref) field v s) :
        s.Tidied args
          { t with heap := t.heap.setStruct ref ((t.heap.struct ref).insert field v) } := by
      have ht := hs.grows hgrows
      have hnot (y : Ref) (hy : v.ref? = some y) : ¬ t.heap.Reaches y (.struct ref) := fun hreach =>
        hopen hstores y _ hy rfl (hgrows.heap.reaches hhas hreach)
      have hlater := t.heap.later_setStruct args ref ((t.heap.struct ref).insert field v)
      exact ⟨ht.setHeap (ht.heap.insertStruct (hv.later hgrows.heap.later) hnot field) hlater,
        hgrows.heap.later.trans hlater⟩
    obtain ⟨⟨handled, t⟩, hhooked, rfl⟩ := Except.map_eq_ok_iff.mp hr
    split at hhooked
    · rename_i set hset
      have hwrite := Except.mapError_eq_ok_iff.mp hhooked
      have hgrows := hm.set hset hwrite
      cases handled with
      | true => exact hs.grown hgrows
      | false =>
        refine hstored hgrows fun set' hset' => ?_
        rw [hset] at hset'
        cases hset'
        exact ⟨t, hwrite⟩
    · rename_i hset
      cases hhooked
      exact hstored (.refl s) fun set hset' => by rw [hset] at hset'; cases hset'
  · rename_i type ref
    cases hr
    have hnot (y : Ref) (hy : v.ref? = some y) : ¬ s.heap.Reaches y (.map ref) := hopen trivial y _ hy rfl
    have hlater := s.heap.later_setMap args ref ((s.heap.map ref).insert (.string field) v)
    exact ⟨hs.setHeap (hs.heap.insertMap hv hnot _) hlater, hlater⟩
  · obtain ⟨text, -, rfl⟩ := Except.map_eq_ok_iff.mp hr
    exact hs.tidied

end

/-! ## Instructions -/

section

variable {W : Type} {m : Machine (Mind W)} {i : Instr} {site : Site} {slots : List StackSlot} {f : Fiber}
  {s t : Stage (Mind W)} {args : Set Nat}

/-- An instruction that leaves a value, in a stage that comes after the one it has found. -/
theorem Fiber.Past.push (hf : f.Past m.program i site slots) (hgives : i.gives = [.value]) (ht : s.Tidied args t)
    {v : Value} (hv : t.heap.Common args v) (hstack : List.Forall₂ (s.heap.Fills args) slots f.stack) :
    (Outcome.next (f.push v) t).Neat m.program s.heap args := by
  have hpushed : List.Forall₂ (t.heap.Fills args) (i.gives ++ slots) (v :: f.stack) := by
    rw [hgives]
    exact .cons hv (hstack.imp fun _ _ hw => hw.later ht.later)
  have hpast : (f.push v).Past m.program i site slots := hf.congr rfl rfl
  exact (hpast.next ht.tidy hpushed).after ht.later

theorem neat_withResult {p : Program} {h : Heap} {α : Type} {r : Except Crash α} {k : α → Outcome (Mind W)}
    (hk : ∀ a, r = .ok a → (k a).Neat p h args) : (withResult r k).Neat p h args := by
  cases r with
  | ok a => exact hk a rfl
  | error c => trivial

theorem Fiber.Past.execHostCall (hl : m.program.Layouts) (hm : m.services.Fresh)
    (hf : f.Past m.program i site slots) (hgives : i.gives = [.value]) (hs : s.Tidy args)
    (hstack : List.Forall₂ (s.heap.Fills args) slots f.stack) (a : Value) :
    (TileMind.execHostCall m i site a f s).Neat m.program s.heap args := by
  refine neat_withResult fun r hr => ?_
  obtain ⟨hcalled, hcommon⟩ := hm.callSync hs hr
  obtain ⟨ref | v, t⟩ := r
  · exact (hf.raise hl hcalled.tidy _).after hcalled.later
  · exact hf.push hgives hcalled (hcommon _ rfl) hstack

theorem Fiber.Past.execHostCallAsync (hl : m.program.Layouts) (hm : m.services.Fresh)
    (hf : f.Past m.program i site slots) (hgives : i.gives = [.value]) (hs : s.Tidy args)
    (hstack : List.Forall₂ (s.heap.Fills args) slots f.stack) (a : Value) :
    (TileMind.execHostCallAsync m i site a f s).Neat m.program s.heap args := by
  refine neat_withResult fun r hr => ?_
  obtain ⟨hcalled, hsame⟩ := hm.callAsync hs hr
  obtain ⟨ref | id, g, t⟩ := r
  · exact ((hf.congr hsame.frames hsame.handlers).raise hl hcalled.tidy _).after hcalled.later
  · refine (hf.congr hsame.frames hsame.handlers).push hgives hcalled (Heap.common_of_ref? rfl) ?_
    rw [hsame.stack]
    exact hstack

/-- The operands of a call by position are taken into a new object. -/
theorem tidy_withOperands (hs : s.Tidy args) {count : Int}
    (hstack : List.Forall₂ (s.heap.Fills args) (List.replicate count.toNat StackSlot.value ++ slots) f.stack)
    {k : Value → Fiber → Stage (Mind W) → Outcome (Mind W)}
    (hk : ∀ a (t : Stage (Mind W)), t.Tidy args →
      List.Forall₂ (t.heap.Fills args) slots (f.drop count.toNat).stack →
      (k a (f.drop count.toNat) t).Neat m.program t.heap args) :
    (TileMind.withOperands count f s k).Neat m.program s.heap args := by
  have hlength : (List.replicate count.toNat StackSlot.value).length = count.toNat := List.length_replicate
  have htaken := List.forall₂_take count.toNat hstack
  have hbelow := List.forall₂_drop count.toNat hstack
  rw [List.take_left' hlength] at htaken
  rw [List.drop_left' hlength] at hbelow
  have hvalues : ∀ v ∈ (f.stack.take count.toNat).reverse, s.heap.Common args v :=
    fun v hv => forall_of_replicate htaken v (List.mem_reverse.mp hv)
  have hmade := hs.heap.positionalArgs hvalues
  unfold TileMind.withOperands
  split
  · trivial
  · exact (hk _ _ (hs.setHeap hmade.tidy hmade.later)
      (hbelow.imp fun _ _ hv => hv.later hmade.later)).after hmade.later

theorem Fiber.Past.execAwait (hl : m.program.Layouts) (hf : f.Past m.program i site slots)
    (htakes : i.takes = [.value]) (hgives : i.gives = [.value]) (hs : s.Tidy args)
    (hstack : List.Forall₂ (s.heap.Fills args) (.value :: slots) f.stack) :
    (TileMind.execAwait site f s).Neat m.program s.heap args := by
  obtain ⟨v, below, hv, hbelow, hfstack⟩ := List.forall₂_cons_left_iff.mp hstack
  have hrest : ({ f with stack := below } : Fiber).Past m.program i site slots := hf.congr rfl rfl
  unfold TileMind.execAwait withTop
  rw [hfstack]
  dsimp only
  split
  · rename_i id
    split
    · exact hrest.raiseNew hl hs _
    · rename_i x hx
      have hconsumed := hs.setHandles (hs.handles.consume x.id f.id)
      split
      · split
        · exact hrest.push hgives ⟨hconsumed, .refl _ _⟩ (hs.handles x (HandleTable.mem_of_get? hx).1) hbelow
        · exact hrest.raise hl hconsumed _
        · trivial
      · refine ⟨args, .refl _ _, hs.setHandles (hs.handles.update _ fun h hh => ?_), fun _ => ?_⟩
        · unfold Handle.addWaiter
          split <;> exact hh
        · -- The fiber stands at its `await` again.
          have hback := laid_jump hf.callers hf.back (by rw [htakes]; exact hstack)
          exact ⟨hback.top, hback.callers⟩
  · refine hf.next hs ?_
    rw [hgives]
    exact hstack

theorem Fiber.Past.ret (hf : f.Past m.program i site slots) (hs : s.Tidy args) (hstack : f.stack = []) :
    (Outcome.next f.ret s).Neat m.program s.heap args := by
  refine ⟨args, .refl _ _, hs, ?_⟩
  have hcallers := hf.callers
  unfold Fiber.ret
  split
  · rename_i hnone
    refine ⟨fun fr rest hframes => ?_, hcallers⟩
    rw [hnone] at hframes
    cases hframes
  · rename_i fr rest hframes
    rw [hframes, List.tail_cons] at hcallers
    have hbase : fr.base = 0 := hf.nested.bases fr (by rw [hframes]; exact List.mem_cons_self)
    dsimp only
    split
    · exact ⟨nofun, by simp⟩
    · refine ⟨fun c outer hc => ?_, fun c hc => hcallers c (List.mem_of_mem_tail hc)⟩
      obtain rfl : rest = c :: outer := hc
      rw [hcallers c List.mem_cons_self, hstack, hbase]
      exact .cons (Heap.common_of_ref? rfl) .nil

theorem Fiber.Past.call (hf : f.Past m.program i site slots) (hs : s.Tidy args) (hgives : i.gives = [.value])
    (hslots : slots = []) (hstack : f.stack = []) (func : Int) (base : Nat) :
    (Outcome.next { f with frames := { func := func, base := base } :: f.frames } s).Neat m.program s.heap args := by
  refine ⟨args, .refl _ _, hs, fun fr rest hframes => ?_, fun fr hfr => ?_⟩
  · cases hframes
    rw [layout_start, hstack]
    exact .nil
  · rw [List.tail_cons] at hfr
    cases hframes : f.frames with
    | nil =>
      rw [hframes] at hfr
      cases hfr
    | cons c outer =>
      have hcallers := hf.callers
      rw [hframes] at hfr hcallers
      rcases List.mem_cons.mp hfr with rfl | hfr
      · rw [hf.here _ _ hframes, hgives, hslots]
        rfl
      · exact hcallers fr hfr

theorem Fiber.Past.execMapSet (hl : m.program.Layouts) (hf : f.Past m.program i site slots)
    (hgives : i.gives = [.args]) (hs : s.Tidy args) {fr : Frame} {key v : Value} (hv : s.heap.Common args v)
    (hstack : List.Forall₂ (s.heap.Fills args) (.args :: slots) f.stack) :
    (TileMind.execMapSet fr site key v f s).Neat m.program s.heap args := by
  obtain ⟨target, below, ⟨type, n, hn, rfl⟩, -, hfstack⟩ := List.forall₂_cons_left_iff.mp hstack
  unfold TileMind.execMapSet
  split
  · exact hf.raiseNew hl hs _
  · rw [hfstack, List.headD_cons]
    dsimp only
    split
    · rename_i heap hstored
      have hset : ∃ k : Scalar, heap = s.heap.setMap n ((s.heap.map n).insert k v) := by
        cases key with
        | scalar k =>
          obtain ⟨entries, hentries, rfl⟩ := Option.map_eq_some_iff.mp hstored
          unfold OrderedMap.insert? at hentries
          split at hentries
          · cases hentries
            exact ⟨k, rfl⟩
          · cases hentries
        | _ => cases hstored
      obtain ⟨k, rfl⟩ := hset
      have hlater := s.heap.later_setMap args n ((s.heap.map n).insert k v)
      have hfilled : List.Forall₂ ((s.heap.setMap n ((s.heap.map n).insert k v)).Fills args)
          (i.gives ++ slots) f.stack := by
        rw [hgives]
        exact hstack.imp fun _ _ hw => hw.later hlater
      exact (hf.next (hs.setHeap (hs.heap.insertArg hn hv k) hlater) hfilled).after hlater
    · exact neat_withResult fun fault _ => hf.raiseNew hl hs _

end

/-! ## All instructions -/

section

variable {W : Type} {m : Machine (Mind W)} {i : Instr} {site : Site} {slots : List StackSlot} {f : Fiber}
  {s t : Stage (Mind W)} {args : Set Nat} {fr : Frame}

theorem takes_eq {op : Op} (hop : i.op? = some op) {n : Nat} (hn : op.pops = some n) : i.takes = op.takes n := by
  simp [Instr.takes, hop, Instr.pops, hn]

theorem gives_eq {op : Op} (hop : i.op? = some op) : i.gives = op.gives := by simp [Instr.gives, hop]

/-- An instruction leaves objects in order, unless it is an assignment that closes a loop. -/
theorem tidy_exec (hl : m.program.Layouts) (hm : m.services.Fresh) {op : Op} (hop : i.op? = some op)
    (hop' : op ≠ .jump ∧ op ≠ .throw ∧ op ≠ .yield) (hconst : ∀ c ∈ m.constants, s.heap.Common args c)
    (hf : f.Past m.program i site slots) (hs : s.Tidy args)
    (hstack : List.Forall₂ (s.heap.Fills args) (i.takes ++ slots) f.stack)
    (halone : op = .call ∨ op = .ret → f.stack = []) (hopen : ¬ m.Loops ⟨f, s, i⟩) :
    (exec m op i fr site f s).Neat m.program s.heap args := by
  have hgives := gives_eq hop
  -- What an instruction has taken off the stack is gone, and the fiber is still past it.
  have hpast (stack : List Value) : ({ f with stack := stack } : Fiber).Past m.program i site slots :=
    hf.congr rfl rfl
  unfold exec
  cases op with
  | jump | throw | yield => simp at hop'
  | nop | whenStart | doStart =>
    have htakes := takes_eq hop rfl
    refine hf.next hs ?_
    rw [hgives]
    rwa [htakes] at hstack
  | pushConst =>
    have htakes := takes_eq hop rfl
    rw [htakes] at hstack
    dsimp only
    split
    · trivial
    · rename_i c hc
      have hcommon : s.heap.Common args c := by
        unfold Machine.constant? at hc
        split at hc
        · cases hc
        · exact hconst c (Array.mem_of_getElem? hc)
      split
      · exact hf.push hgives hs.tidied hcommon hstack
      · split
        · rename_i hcopy
          have hmade := Heap.deepCopy_made hs.heap hcommon hcopy
          exact hf.push hgives ⟨hs.setHeap hmade.tidy hmade.later, hmade.later⟩
            (hmade.common _ List.mem_cons_self) hstack
        · trivial
  | pop | doEnd =>
    rw [takes_eq hop rfl] at hstack
    obtain ⟨v, below, hv, hbelow, hfstack⟩ := List.forall₂_cons_left_iff.mp hstack
    simp only [withTop, hfstack]
    refine (hpast below).next hs ?_
    rw [hgives]
    exact hbelow
  | dup =>
    rw [takes_eq hop rfl] at hstack
    obtain ⟨v, below, hv, hbelow, hfstack⟩ := List.forall₂_cons_left_iff.mp hstack
    simp only [withTop, hfstack]
    refine (hpast (v :: v :: below)).next hs ?_
    rw [hgives]
    exact .cons hv (.cons hv hbelow)
  | loadVar =>
    rw [takes_eq hop rfl] at hstack
    exact hf.push hgives hs.tidied (Mind.of_load hs.host (Heap.common_of_ref? rfl) _ _) hstack
  | storeVar =>
    rw [takes_eq hop rfl] at hstack
    obtain ⟨v, below, hv, hbelow, hfstack⟩ := List.forall₂_cons_left_iff.mp hstack
    simp only [withTop, hfstack]
    refine (hpast below).next (hs.setHost (Mind.forall_store hs.host hv _ _)) ?_
    rw [hgives]
    exact hbelow
  | jumpIfFalse | whenEnd | jumpIfTrue =>
    rw [takes_eq hop rfl] at hstack
    obtain ⟨v, below, hv, hbelow, hfstack⟩ := List.forall₂_cons_left_iff.mp hstack
    have hleft : List.Forall₂ (s.heap.Fills args) (i.gives ++ slots) below := by
      rw [hgives]
      exact hbelow
    have hjump : i.isJump = true := by simp [Instr.isJump, hop, Op.isJump]
    simp only [withTop, hfstack]
    split
    · first
        | exact (hpast below).next hs hleft
        | exact (hpast below).jumped hs hjump hleft
    · first
        | exact (hpast below).jumped hs hjump hleft
        | exact (hpast below).next hs hleft
  | call =>
    have hempty := halone (.inl rfl)
    rw [hempty] at hstack
    obtain ⟨-, hslots⟩ := List.append_eq_nil_iff.mp (List.forall₂_nil_right_iff.mp hstack)
    dsimp only
    split
    · exact hf.raiseNew hl hs _
    · have hdropped : (f.drop i.b.toInt.toNat).Past m.program i site slots := hf.congr rfl rfl
      exact hdropped.call hs hgives hslots (by simp [Fiber.drop, hempty]) _ _
  | ret => exact hf.ret hs (halone (.inr rfl))
  | hostCall =>
    have htakes : i.takes = List.replicate i.b.toInt.toNat .value := by
      simp [Instr.takes, hop, Instr.pops, Op.pops, Op.takes]
    rw [htakes] at hstack
    have hdropped : (f.drop i.b.toInt.toNat).Past m.program i site slots := hf.congr rfl rfl
    exact tidy_withOperands hs hstack fun a t ht hbelow => hdropped.execHostCall hl hm hgives ht hbelow a
  | hostCallAsync =>
    have htakes : i.takes = List.replicate i.b.toInt.toNat .value := by
      simp [Instr.takes, hop, Instr.pops, Op.pops, Op.takes]
    rw [htakes] at hstack
    have hdropped : (f.drop i.b.toInt.toNat).Past m.program i site slots := hf.congr rfl rfl
    exact tidy_withOperands hs hstack fun a t ht hbelow => hdropped.execHostCallAsync hl hm hgives ht hbelow a
  | hostCallArgs =>
    rw [takes_eq hop rfl] at hstack
    obtain ⟨a, below, -, hbelow, hfstack⟩ := List.forall₂_cons_left_iff.mp hstack
    simp only [withTop, hfstack]
    exact (hpast below).execHostCall hl hm hgives hs hbelow a
  | hostCallArgsAsync =>
    rw [takes_eq hop rfl] at hstack
    obtain ⟨a, below, -, hbelow, hfstack⟩ := List.forall₂_cons_left_iff.mp hstack
    simp only [withTop, hfstack]
    exact (hpast below).execHostCallAsync hl hm hgives hs hbelow a
  | await =>
    have htakes := takes_eq hop rfl
    rw [htakes] at hstack
    exact hf.execAwait hl htakes hgives hs hstack
  | «try» | endTry =>
    rw [takes_eq hop rfl] at hstack
    have hlaid : f.Laid m.program s.heap args := hf.laid (by rw [hgives]; exact hstack)
    exact ⟨args, .refl _ _, hs, hlaid.top, hlaid.callers⟩
  | mapNew =>
    rw [takes_eq hop rfl] at hstack
    dsimp only
    split
    · trivial
    · rename_i name _
      obtain ⟨hnew, hlater⟩ := hs.heap.newArgs (name.string?.getD "")
      refine ⟨_, hlater, hs.setHeap hnew hlater, Fiber.Past.laid (hf.congr rfl rfl) ?_⟩
      rw [hgives]
      exact .cons ⟨_, _, Set.mem_insert _ _, rfl⟩ (hstack.imp fun _ _ hv => hv.later hlater)
  | mapSet =>
    rw [takes_eq hop rfl] at hstack
    obtain ⟨v, stack₁, hv, hstack₁, hfstack⟩ := List.forall₂_cons_left_iff.mp hstack
    obtain ⟨key, stack₂, -, hstack₂, rfl⟩ := List.forall₂_cons_left_iff.mp hstack₁
    simp only [withTop, hfstack]
    exact (hpast stack₂).execMapSet hl hgives hs hv hstack₂
  | getField =>
    rw [takes_eq hop rfl] at hstack
    obtain ⟨name, stack₁, -, hstack₁, hfstack⟩ := List.forall₂_cons_left_iff.mp hstack
    obtain ⟨obj, below, -, hbelow, rfl⟩ := List.forall₂_cons_left_iff.mp hstack₁
    simp only [withTop, hfstack]
    split
    · exact neat_withResult fun fault _ => (hpast below).raiseNew hl hs _
    · refine neat_withResult fun r hr => ?_
      obtain ⟨hread, hcommon⟩ := hm.getField hs hr
      obtain ⟨fault | w, t⟩ := r
      · exact ((hpast below).raiseNew hl hread.tidy _).after hread.later
      · exact (hpast below).push hgives hread (hcommon _ rfl) hbelow
  | setField =>
    rw [takes_eq hop rfl] at hstack
    obtain ⟨v, stack₁, hv, hstack₁, hfstack⟩ := List.forall₂_cons_left_iff.mp hstack
    obtain ⟨name, stack₂, -, hstack₂, rfl⟩ := List.forall₂_cons_left_iff.mp hstack₁
    obtain ⟨obj, below, hobj, hbelow, rfl⟩ := List.forall₂_cons_left_iff.mp hstack₂
    simp only [withTop, hfstack]
    split
    · exact neat_withResult fun fault _ => (hpast below).raiseNew hl hs _
    · rename_i field hname
      refine neat_withResult fun r hr => ?_
      have hset := hm.setField hs hobj hv (fun hstores y z hy hz hreach =>
        hopen ⟨hop, v, name, obj, below, field, hfstack, hname, hstores, y, z, hy, hz, hreach⟩) hr
      obtain ⟨fault | _, t⟩ := r
      · exact ((hpast below).raiseNew hl hset.tidy _).after hset.later
      · exact (hpast below).push hgives hset (hv.later hset.later) hbelow

/-- Where a disciplined fiber is about to execute `i`, it has moved past it. -/
theorem Fiber.Laid.past (hl : m.program.Layouts) {rest : List Frame} {fn : Function} {k : Nat}
    (hf : Disciplined m.program f) (hlaid : f.Laid m.program s.heap args) (hframes : f.frames = fr :: rest)
    (he : Executes m.program f fr i fn k) : ∃ slots,
    (f.jump (fr.pc + 1)).Past m.program i ⟨fr.func, fr.pc⟩ slots ∧
      List.Forall₂ (s.heap.Fills args) (i.takes ++ slots) f.stack := by
  obtain ⟨slots, hat, hnext, hjump⟩ := hl.place he.func he.instr
  have hmoved : (f.jump (fr.pc + 1)).frames = { fr with pc := fr.pc + 1 } :: rest := by
    simp [Fiber.jump, hframes]
  have hat' := hlaid.top fr rest hframes
  rw [layout_eq he.func he.pc, hat] at hat'
  refine ⟨slots, ⟨hf.toNested.moved hframes hmoved (f.jump_handlers _), ?_, ?_, ?_, ?_⟩, hat'⟩
  all_goals rw [hmoved]
  · have hcallers := hlaid.callers
    rwa [hframes] at hcallers
  · rintro _ _ ⟨⟩
    rw [← hnext]
    exact layout_eq he.func (by simp [he.pc])
  · rintro _ _ ⟨⟩
    rw [← hat]
    exact layout_eq he.func he.pc
  · rintro hi _ _ ⟨⟩
    have hret : i.op? ≠ some .ret := by
      intro hop
      simp [Instr.isJump, hop, Op.isJump] at hi
    obtain ⟨d, -, ha, -, -⟩ := (he.inside hret).jump hi
    rw [← hjump d hi ha]
    refine layout_eq he.func ?_
    simp [he.pc, ha]

/-- So does any step of a disciplined fiber. -/
theorem tidy_step (hp : RuleProgram m.program) (hl : m.program.Layouts) (hm : m.services.Fresh)
    (hconst : ∀ c ∈ m.constants, s.heap.Common args c) {rest : List Frame} (hf : Disciplined m.program f)
    (hlaid : f.Laid m.program s.heap args) (hs : s.Tidy args) (hframes : f.frames = fr :: rest)
    (hi : Machine.instrAt m.program fr = .ok i) (hopen : ¬ m.Loops ⟨f, s, i⟩) :
    (step m fr i f s).Neat m.program s.heap args := by
  obtain ⟨fn, k, he⟩ := hf.executes hp hframes hi
  obtain ⟨slots, hpast, hstack⟩ := hlaid.past hl hf hframes he
  unfold step
  dsimp only
  split
  · exact hpast.raiseNew hl hs _
  · split
    · rename_i op hop
      have hempty (hheight : heightAt fn.code.toList k = 0) : (f.jump (fr.pc + 1)).stack = [] := by
        rw [Fiber.jump_stack]
        refine List.eq_nil_of_length_eq_zero ?_
        have := he.height
        omega
      have hplace : (op ≠ .jump ∧ op ≠ .throw ∧ op ≠ .yield) ∧
          (op = .call ∨ op = .ret → heightAt fn.code.toList k = 0) := by
        rcases he.place with hin | hr
        · obtain ⟨op', hop', hne⟩ := hin.fits.known
          obtain rfl : op = op' := by simpa [hop] using hop'
          refine ⟨⟨hne.1, hne.2.2⟩, ?_⟩
          rintro (rfl | rfl)
          · simpa using (hin.fits.call (.inl hop)).1
          · exact absurd rfl hne.2.1
        · obtain rfl : op = .ret := by simpa [hop] using hr.op
          exact ⟨by decide, fun _ => hr.height⟩
      refine tidy_exec hl hm hop hplace.1 hconst hpast hs (by rwa [Fiber.jump_stack])
        (fun halone => hempty (hplace.2 halone)) ?_
      rintro ⟨hset, v, name, obj, below, field, hfound, hcloses⟩
      rw [Fiber.jump_stack] at hfound
      exact hopen ⟨hset, v, name, obj, below, field, hfound, hcloses⟩
    · exact hpast.raiseNew hl hs _

end

/-! ## Runs -/

namespace Machine

variable {H : Type} [Host H] (m : Machine H)

/-- The instructions that a run for at most `budget` instructions executes, with what they find. -/
def momentsFor : (budget : Nat) → Fiber → Stage H → List (Moment H)
  | 0, _, _ => []
  | budget + 1, f, s =>
    match settle m.program f.frames.length f with
    | .error _ => []
    | .ok f =>
      match f.frames with
      | [] => []
      | fr :: _ =>
        match instrAt m.program fr with
        | .error _ => []
        | .ok i =>
          ⟨f, s, i⟩ ::
            match step m fr i f s with
            | .next g t => momentsFor budget g t
            | .stop _ _ _ | .crash _ => []

def moments (budget : Int) (f : Fiber) (s : Stage H) : List (Moment H) :=
  if f.state.isTerminal then [] else m.momentsFor (m.allowance budget) { f with state := .runnable } s

end Machine

section

variable {W : Type} {m : Machine (Mind W)} {f g : Fiber} {s t : Stage (Mind W)} {args : Set Nat}

/-- A machine with the code of rules and with host code that makes no loops. -/
structure Machine.Builds (m : Machine (Mind W)) : Prop where
  rules : RuleProgram m.program
  layouts : m.program.Layouts
  services : m.services.Fresh

structure Fiber.InPlace (p : Program) (h : Heap) (args : Set Nat) (f : Fiber) : Prop where
  disciplined : Disciplined p f
  laid : f.Laid p h args

structure Machine.Ready (m : Machine (Mind W)) (args : Set Nat) (s : Stage (Mind W)) : Prop where
  tidy : s.Tidy args
  constants : ∀ c ∈ m.constants, s.heap.Common args c

/-- What a run has left behind is in order, and later than the heap `h`. A fiber that goes on is between two
instructions. -/
def Machine.Leaves (m : Machine (Mind W)) (h : Heap) (args : Set Nat) (g : Fiber) (t : Stage (Mind W)) : Prop :=
  ∃ args', h.Later args t.heap args' ∧ m.Ready args' t ∧
    (g.state.isTerminal = false → g.InPlace m.program t.heap args')

theorem Machine.Ready.later (hs : m.Ready args s) {args' : Set Nat} (hl : s.heap.Later args t.heap args')
    (ht : t.Tidy args') : m.Ready args' t :=
  ⟨ht, fun c hc => (hs.constants c hc).later hl⟩

theorem Disciplined.settle (hf : Disciplined m.program f) :
    Machine.settle m.program f.frames.length f = .ok f := by
  cases hframes : f.frames with
  | nil => rfl
  | cons fr rest =>
    obtain ⟨fn, k, hfn, hpc, hk, -⟩ := (hf.top fr rest hframes).place
    rw [← hframes]
    exact settle_inside hframes hfn (by omega)

theorem Machine.Ready.step (hm : m.Builds) (hs : m.Ready args s) (hf : f.InPlace m.program s.heap args)
    {fr : Frame} {rest : List Frame} {i : Instr} (hframes : f.frames = fr :: rest)
    (hi : Machine.instrAt m.program fr = .ok i) (hopen : ¬ m.Loops ⟨f, s, i⟩) :
    match TileMind.step m fr i f s with
    | .next g t => ∃ args', s.heap.Later args t.heap args' ∧ m.Ready args' t ∧ g.InPlace m.program t.heap args'
    | .stop _ g t => m.Leaves s.heap args g t
    | .crash _ => True := by
  have htidy := tidy_step hm.rules hm.layouts hm.services hs.constants hf.disciplined hf.laid hs.tidy hframes hi hopen
  have hdisciplined := hf.disciplined.step hm.rules hframes hi s
  split <;> rename_i hstep <;> rw [hstep] at htidy hdisciplined
  · obtain ⟨args', hlater, ht, hlaid⟩ := htidy
    exact ⟨args', hlater, hs.later hlater ht, hdisciplined, hlaid⟩
  · obtain ⟨args', hlater, ht, hlaid⟩ := htidy
    refine ⟨args', hlater, hs.later hlater ht, fun hlive => ⟨?_, hlaid hlive⟩⟩
    rcases hdisciplined with hstands | ⟨hfault, -⟩
    · exact hstands
    · rw [hfault] at hlive
      cases hlive
  · trivial

/-- What a run leaves behind, if none of its assignments closes a loop. -/
theorem Machine.Ready.runFor (hm : m.Builds) (budget : Nat) (hs : m.Ready args s)
    (hf : f.InPlace m.program s.heap args) (hopen : ∀ x ∈ m.momentsFor budget f s, ¬ m.Loops x)
    {status : RunStatus} (h : m.runFor budget f s = .ok (status, g, t)) : m.Leaves s.heap args g t := by
  induction budget generalizing f s args with
  | zero =>
    rw [Machine.runFor, hf.disciplined.settle] at h
    cases hframes : f.frames with
    | nil =>
      simp only [hframes] at h
      cases h
      exact ⟨args, .refl _ _, hs, fun hlive => by cases hlive⟩
    | cons fr rest =>
      simp only [hframes] at h
      cases h
      exact ⟨args, .refl _ _, hs, fun _ => hf⟩
  | succ budget ih =>
    rw [Machine.runFor, hf.disciplined.settle] at h
    rw [Machine.momentsFor, hf.disciplined.settle] at hopen
    cases hframes : f.frames with
    | nil =>
      simp only [hframes] at h
      cases h
      exact ⟨args, .refl _ _, hs, fun hlive => by cases hlive⟩
    | cons fr rest =>
      simp only [hframes] at h hopen
      cases hi : Machine.instrAt m.program fr with
      | error c =>
        rw [hi] at h
        cases h
      | ok i =>
        simp only [hi] at h hopen
        have hstepped := hs.step hm hf hframes hi (hopen _ List.mem_cons_self)
        cases hstep : TileMind.step m fr i f s with
        | next f' s' =>
          simp only [hstep] at h hopen hstepped
          obtain ⟨args', hlater, hs', hf'⟩ := hstepped
          obtain ⟨args'', hlater', hrest⟩ := ih hs' hf' (fun x hx => hopen x (List.mem_cons_of_mem _ hx)) h
          exact ⟨args'', hlater.trans hlater', hrest⟩
        | stop status' f' s' =>
          simp only [hstep] at h hstepped
          cases h
          exact hstepped
        | crash c =>
          rw [hstep] at h
          cases h

theorem Machine.Ready.run (hm : m.Builds) {budget : Int} (hs : m.Ready args s) (hstate : f.state = .runnable)
    (hf : f.InPlace m.program s.heap args) (hopen : ∀ x ∈ m.moments budget f s, ¬ m.Loops x)
    {status : RunStatus} (h : m.run budget f s = .ok (status, g, t)) : m.Leaves s.heap args g t := by
  have hlive : f.state.isTerminal = false := by rw [hstate]; rfl
  have hsame : { f with state := .runnable } = f := by rw [← hstate]
  rw [run_eq_runFor hlive, hsame] at h
  rw [Machine.moments, hlive, hsame] at hopen
  exact hs.runFor hm _ hf hopen h

end

end TileMind
