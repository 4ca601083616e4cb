import TileMind.Proofs.Code.Height
import TileMind.Proofs.Machine.Trace

/-!
# TileMind.Proofs.Code.Stretch

Code that does what an evaluation says. `Does` relates a stretch of code, placed anywhere in a program
and run on any stack, to an evaluation: the same effects in the same order, then the answer on the
stack or the same fault raised from within the stretch.

* `Does.andThen`: stretches one after the other do what the evaluations do one after the other.
* `does_single`: what one instruction does, by its execution.
* `does_shortCircuit`: the jump over a superfluous operand.
-/

namespace TileMind

open Row (Setting)

variable {H : Type} {α β : Type}

/-- An operand can hold the number. -/
def IsOperand (n : Int) : Prop := -2 ^ 31 ≤ n ∧ n < 2 ^ 31

instance (n : Int) : Decidable (IsOperand n) := inferInstanceAs (Decidable (_ ∧ _))

theorem toInt_ofInt_of_isOperand {n : Int} (h : IsOperand n) : (Int32.ofInt n).toInt = n :=
  Int32.toInt_ofInt_of_le h.1 h.2

/-! ## A fiber at a place -/

/-- The fiber with its innermost call at another instruction, and another stack. -/
def Fiber.placed (f : Fiber) (pc : Int) (stack : List Value) : Fiber := { f.jump pc with stack := stack }

section

variable {f : Fiber} {fr : Frame} {rest : List Frame} {pc : Int} {stack : List Value}

@[simp] theorem placed_stack : (f.placed pc stack).stack = stack := rfl

theorem placed_frames (h : f.frames = fr :: rest) :
    (f.placed pc stack).frames = { fr with pc := pc } :: rest := by
  simp [Fiber.placed, Fiber.jump, h]

@[simp] theorem placed_jump (pc' : Int) : (f.placed pc stack).jump pc' = f.placed pc' stack := by
  cases h : f.frames <;> simp [Fiber.placed, Fiber.jump, h]

@[simp] theorem placed_push (v : Value) : (f.placed pc stack).push v = f.placed pc (v :: stack) := rfl

@[simp] theorem placed_drop (n : Nat) : (f.placed pc stack).drop n = f.placed pc (stack.drop n) := rfl

@[simp] theorem placed_with_stack (stack' : List Value) :
    { f.placed pc stack with stack := stack' } = f.placed pc stack' := rfl

/-- A host function sees who calls it, not where on the stack. -/
@[simp] theorem callSync_placed (m : Machine H) (fn site func : Int) (args : Value) (s : Stage H) :
    m.callSync (f.placed pc stack) fn site func args s = m.callSync f fn site func args s := by
  have hid : (f.placed pc stack).id = f.id := (f.sameRun_jump pc).id
  have hfault : (f.placed pc stack).lastFault = f.lastFault := by
    cases h : f.frames <;> simp [Fiber.placed, Fiber.jump, h]
  unfold Machine.callSync
  rw [hid, hfault]

end

/-! ## Code in a program -/

/-- The code stands at `pc` of the function, in reach of its jumps. The fiber is in a call of that
function which owns nothing of `below`, and there is room for what the code does to a stack of the
given height. -/
structure Loaded (c : Setting H) (pc : Int) (code : List Instr) (below : List Value) (height : Int) :
    Prop where
  instr : ∀ (k : Nat) i base, code[k]? = some i →
    Machine.instrAt c.machine.program ⟨c.func, pc + k, base⟩ = .ok i
  short : code.length < 2 ^ 31
  frame : ∃ pc' base rest, c.fiber.frames = ⟨c.func, pc', base⟩ :: rest ∧ base ≤ below.length
  room : ∀ k ≤ code.length, height + heightAt code k ≤ c.machine.limits.stack

section

variable {c : Setting H} {pc height : Int} {x y : List Instr} {below : List Value}

theorem Loaded.left (h : Loaded c pc (x ++ y) below height) : Loaded c pc x below height := by
  have hlength := h.short
  rw [List.length_append] at hlength
  refine ⟨?_, by omega, h.frame, ?_⟩
  · intro k i base hi
    have hk := (List.getElem?_eq_some_iff.mp hi).1
    exact h.instr k i base (by rwa [List.getElem?_append_left hk])
  · intro k hk
    rw [← heightAt_append_left (d := y) hk]
    exact h.room k (by rw [List.length_append]; omega)

theorem Loaded.right (h : Loaded c pc (x ++ y) below height) :
    Loaded c (pc + x.length) y below (height + netEffect x) := by
  have hlength := h.short
  rw [List.length_append] at hlength
  refine ⟨?_, by omega, h.frame, ?_⟩
  · intro k i base hi
    have hget : (x ++ y)[x.length + k]? = some i := by
      rw [List.getElem?_append_right (by omega), Nat.add_sub_cancel_left]
      exact hi
    have hcode := h.instr (x.length + k) i base hget
    rwa [Nat.cast_add, ← add_assoc] at hcode
  · intro k hk
    have hroom := h.room (x.length + k) (by rw [List.length_append]; omega)
    rwa [heightAt_append_right, ← add_assoc] at hroom

theorem Loaded.raised (h : Loaded c pc x below height) (top : List Value) :
    Loaded c pc x (top ++ below) height := by
  obtain ⟨pc', base, rest, hframes, hbase⟩ := h.frame
  refine ⟨h.instr, h.short, ⟨pc', base, rest, hframes, ?_⟩, h.room⟩
  rw [List.length_append]
  omega

end

/-! ## Stretches -/

theorem checkStack_eq_none {m : Machine H} {f : Fiber} {base : Nat} {i : Instr}
    (hbase : base + i.pops ≤ f.stack.length)
    (hroom : f.stack.length + i.effect ≤ m.limits.stack) (hcall : i.op? ≠ some .call) :
    m.checkStack f base i = none := by
  rw [Instr.effect, if_neg hcall] at hroom
  unfold Machine.checkStack
  dsimp only
  rw [if_neg (by omega), if_neg (by omega)]

section

variable [Host H]

/-- A fiber started at `pc` ends behind the code with what an answer leaves on the stack, or a fault
is raised at one of its instructions, or the machine crashes there; nothing of `below` is touched. -/
def Ends (c : Setting H) (pc : Int) (length : Nat) (below stack : List Value) (after : α → List Value)
    (s : Stage H) (r : Evaluated H α) : Prop :=
  match r.answer with
  | .ok (.ok a, t) => ∃ n, Leads c.machine (c.fiber.placed pc stack) s n r.effects
      (.next (c.fiber.placed (pc + length) (after a)) t)
  | .ok (.error ref, t) => ∃ n junk, ∃ k : Nat, k < length ∧
      Leads c.machine (c.fiber.placed pc stack) s n r.effects
        (raise (c.fiber.placed (pc + k + 1) (junk ++ below)) t ref ⟨c.func, pc + k⟩)
  | .error crash => ∃ n, Leads c.machine (c.fiber.placed pc stack) s n r.effects (.crash crash)

/-- The code, wherever it is loaded, does what the evaluation says. -/
structure Does (c : Setting H) (pc : Int) (code : List Instr) (below stack : List Value)
    (after : α → List Value) (s : Stage H) (r : Evaluated H α) : Prop where
  height : ∀ a, ((after a).length : Int) = stack.length + netEffect code
  ends : Loaded c pc code below stack.length → Ends c pc code.length below stack after s r

variable {c : Setting H} {pc : Int} {x y : List Instr} {below stack : List Value} {s : Stage H}

theorem does_nil {after : α → List Value} {a : α} (ha : after a = stack)
    (hheight : ∀ b, (after b).length = stack.length) : Does c pc [] below stack after s (.pure a s) := by
  refine ⟨by simp [hheight], fun _ => ⟨0, ?_⟩⟩
  simp only [List.length_nil, Nat.cast_zero, add_zero, ha]
  exact .done _ _

theorem Ends.after {after : α → List Value} {r : Evaluated H α} {n length length' : Nat}
    {es : List Effect} {stack' : List Value} {t : Stage H}
    (hleads : Leads c.machine (c.fiber.placed pc stack) s n es
      (.next (c.fiber.placed (pc + length) stack') t))
    (h : Ends c (pc + length) length' below stack' after t r) :
    Ends c pc (length + length') below stack after s { r with effects := es ++ r.effects } := by
  rcases hr : r.answer with crash | ⟨ref | a, u⟩
  · simp only [Ends, hr] at h ⊢
    obtain ⟨n', hleads'⟩ := h
    exact ⟨n + n', hleads.trans hleads'⟩
  · simp only [Ends, hr] at h ⊢
    obtain ⟨n', junk, j, hj, hleads'⟩ := h
    refine ⟨n + n', junk, length + j, by omega, ?_⟩
    rw [Nat.cast_add, ← add_assoc]
    exact hleads.trans hleads'
  · simp only [Ends, hr] at h ⊢
    obtain ⟨n', hleads'⟩ := h
    refine ⟨n + n', ?_⟩
    rw [Nat.cast_add, ← add_assoc]
    exact hleads.trans hleads'

theorem Does.andThen [Inhabited α] {after : α → List Value} {after' : β → List Value}
    {r : Evaluated H α} {k : α → Stage H → Evaluated H β} (h : Does c pc x below stack after s r)
    (h' : ∀ a t, Does c (pc + x.length) y below (after a) after' t (k a t)) :
    Does c pc (x ++ y) below stack after' s (r.andThen k) := by
  refine ⟨?_, ?_⟩
  · intro b
    have hx := h.height default
    have hy := (h' default s).height b
    rw [netEffect_append]
    omega
  intro hloaded
  have hfirst := h.ends hloaded.left
  rw [List.length_append]
  rcases hr : r.answer with crash | ⟨ref | a, t⟩
  · simp only [Ends, hr] at hfirst
    simp only [Ends, Evaluated.andThen, hr]
    exact hfirst
  · simp only [Ends, hr] at hfirst
    obtain ⟨n, junk, j, hj, hleads⟩ := hfirst
    simp only [Ends, Evaluated.andThen, hr]
    exact ⟨n, junk, j, by omega, hleads⟩
  · simp only [Ends, hr] at hfirst
    obtain ⟨n, hleads⟩ := hfirst
    have hright := hloaded.right
    rw [← h.height a] at hright
    have hsecond := ((h' a t).ends hright).after hleads
    simpa only [Evaluated.andThen, hr] using hsecond

/-- Code that only prepares the stack adds nothing to what follows. -/
theorem Does.prepare {stack' : List Value} {t : Stage H} {after : α → List Value} {r : Evaluated H α}
    (h : Does c pc x below stack (fun _ : Unit => stack') s (.pure () t))
    (h' : Does c (pc + x.length) y below stack' after t r) :
    Does c pc (x ++ y) below stack after s r := by
  refine ⟨?_, ?_⟩
  · intro a
    have hx := h.height ()
    have hy := h'.height a
    rw [netEffect_append]
    omega
  intro hloaded
  obtain ⟨n, hleads⟩ := h.ends hloaded.left
  have hright := hloaded.right
  rw [← h.height ()] at hright
  have hsecond := (h'.ends hright).after hleads
  rw [List.length_append]
  exact hsecond

theorem Does.lower {after : α → List Value} {r : Evaluated H α} (top : List Value)
    (h : Does c pc x (top ++ below) stack after s r) : Does c pc x below stack after s r := by
  refine ⟨h.height, ?_⟩
  intro hloaded
  have hends := h.ends (hloaded.raised top)
  rcases hr : r.answer with crash | ⟨ref | a, t⟩
  · simp only [Ends, hr] at hends ⊢
    exact hends
  · simp only [Ends, hr] at hends ⊢
    obtain ⟨n, junk, j, hj, hleads⟩ := hends
    refine ⟨n, junk ++ top, j, hj, ?_⟩
    rwa [List.append_assoc]
  · simp only [Ends, hr] at hends ⊢
    exact hends

/-! ## Single instructions -/

omit [Host H] in
@[simp] theorem Evaluated.effects_raising (answer : Except Crash (Except Fault α × Stage H)) (yield : α → β)
    (es : List Effect) : (Evaluated.raising answer yield es).effects = es := by
  unfold Evaluated.raising
  split <;> rfl

/-- The outcome of an instruction that evaluates something. -/
def Evaluated.outcome (r : Evaluated H α) (f : Fiber) (after : α → List Value) (below : List Value)
    (site : Site) : Outcome H :=
  match r.answer with
  | .ok (.ok a, s) => .next (f.placed (site.pc + 1) (after a)) s
  | .ok (.error ref, s) => raise (f.placed (site.pc + 1) below) s ref site
  | .error crash => .crash crash

/-- One loaded instruction is executed. It takes its operands; what it needs besides, it leaves in
place. -/
theorem Loaded.leads {i : Instr} {op : Op} (operands stays : List Value)
    (hloaded : Loaded c pc [i] below (operands ++ (stays ++ below)).length) (hop : i.op? = some op)
    (hcall : op ≠ .call) (hpops : i.pops = operands.length) (s : Stage H) :
    ∃ base ≤ below.length,
      Leads c.machine (c.fiber.placed pc (operands ++ (stays ++ below))) s 1
        (Machine.brings op i c.func (operands ++ (stays ++ below)) s)
        (exec c.machine op i ⟨c.func, pc, base⟩ ⟨c.func, pc⟩
          (c.fiber.placed (pc + 1) (operands ++ (stays ++ below))) s) := by
  obtain ⟨pc', base, rest, hframes, hbase⟩ := hloaded.frame
  have hinstr := hloaded.instr 0 i base rfl
  have hroom := hloaded.room 1 (Nat.le_refl 1)
  rw [Nat.cast_zero, add_zero] at hinstr
  have hheight : heightAt [i] 1 = i.effect := by simp [heightAt]
  rw [hheight] at hroom
  have hcheck : c.machine.checkStack
      (c.fiber.placed (pc + 1) (operands ++ (stays ++ below))) base i = none := by
    refine checkStack_eq_none ?_ hroom (by simpa [hop] using hcall)
    rw [placed_stack, List.length_append, List.length_append]
    omega
  have hplaced : (c.fiber.placed pc (operands ++ (stays ++ below))).frames =
      ⟨c.func, pc, base⟩ :: rest := placed_frames hframes
  have hlast := Leads.last (m := c.machine) (s := s) hplaced hinstr
  refine ⟨base, hbase, ?_⟩
  simpa only [Machine.observed, step, placed_jump, placed_stack, hcheck, hop] using hlast

theorem does_single {i : Instr} {op : Op} (operands stays : List Value) {after : α → List Value}
    {r : Evaluated H α} (hop : i.op? = some op) (hcall : op ≠ .call)
    (hpops : i.pops = operands.length)
    (hafter : ∀ a, (after a).length = (stays ++ below).length + op.pushes)
    (hbrings : Machine.brings op i c.func (operands ++ (stays ++ below)) s = r.effects)
    (hexec : ∀ base, base ≤ below.length → exec c.machine op i ⟨c.func, pc, base⟩ ⟨c.func, pc⟩
      (c.fiber.placed (pc + 1) (operands ++ (stays ++ below))) s =
        r.outcome c.fiber after (stays ++ below) ⟨c.func, pc⟩) :
    Does c pc [i] below (operands ++ (stays ++ below)) after s r := by
  refine ⟨?_, ?_⟩
  · intro a
    have hpushes : i.pushes = op.pushes := by simp [Instr.pushes, hop]
    have hnocall : i.op? ≠ some .call := by simpa [hop] using hcall
    rw [hafter a, netEffect_cons, netEffect_nil, Instr.effect, if_neg hnocall, hpops, hpushes]
    simp only [List.length_append]
    push_cast
    omega
  intro hloaded
  obtain ⟨base, hbase, hleads⟩ := hloaded.leads operands stays hop hcall hpops s
  rw [hbrings, hexec base hbase] at hleads
  rcases hr : r.answer with crash | ⟨ref | a, t⟩
  · simp only [Ends, hr]
    simp only [Evaluated.outcome, hr] at hleads
    exact ⟨1, hleads⟩
  · simp only [Ends, hr]
    simp only [Evaluated.outcome, hr] at hleads
    refine ⟨1, stays, 0, by simp, ?_⟩
    simpa using hleads
  · simp only [Ends, hr]
    simp only [Evaluated.outcome, hr] at hleads
    exact ⟨1, hleads⟩

/-- What an instruction with a fixed number of operands does. -/
theorem does_of (op : Op) {a b d : Int} (operands : List Value) {after : α → List Value}
    {r : Evaluated H α} (hpops : op.pops = some operands.length)
    (hafter : ∀ x, (after x).length = stack.length + op.pushes)
    (hbrings : Machine.brings op (.of op a b d) c.func (operands ++ stack) s = r.effects)
    (hexec : ∀ base, base ≤ stack.length → exec c.machine op (.of op a b d) ⟨c.func, pc, base⟩
      ⟨c.func, pc⟩ (c.fiber.placed (pc + 1) (operands ++ stack)) s =
        r.outcome c.fiber after stack ⟨c.func, pc⟩) :
    Does c pc [.of op a b d] stack (operands ++ stack) after s r := by
  have hcall : op ≠ .call := by
    rintro rfl
    cases hpops
  exact does_single operands [] (Instr.op?_of op a b d) hcall (Instr.pops_of op a b d hpops) hafter
    hbrings hexec

theorem does_pushConst {slot : Int} {v : Value}
    (hv : c.machine.constant? (Int32.ofInt slot) = some v) (hprim : v.isPrimitive = true) :
    Does c pc [.of .pushConst slot] stack stack (fun _ : Unit => v :: stack) s (.pure () s) := by
  apply does_of .pushConst [] rfl (fun _ => rfl) rfl
  intro base _
  simp [exec, hv, hprim, Evaluated.outcome, Evaluated.pure]

theorem does_dup (v : Value) :
    Does c pc [.of .dup] stack (v :: stack) (fun _ : Unit => v :: v :: stack) s (.pure () s) := by
  apply does_of .dup [v] rfl (fun _ => rfl) rfl
  intro base _
  simp [exec, withTop, Evaluated.outcome, Evaluated.pure]

theorem does_pop (v : Value) :
    Does c pc [.of .pop] stack (v :: stack) (fun _ : Unit => stack) s (.pure () s) := by
  apply does_of .pop [v] rfl (fun _ => rfl) rfl
  intro base _
  simp [exec, withTop, Evaluated.outcome, Evaluated.pure]

theorem does_loadVar {name : String} (hid : IsOperand (c.vars name)) :
    Does c pc [.of .loadVar (c.vars name)] stack stack (fun v : Value => v :: stack) s (c.load name s) := by
  have hid := toInt_ofInt_of_isOperand hid
  apply does_of .loadVar [] rfl (fun _ => rfl)
  · simp [Machine.brings, Setting.load, hid]
  intro base _
  simp [exec, Evaluated.outcome, Setting.load, hid]

theorem does_storeVar {name : String} (hid : IsOperand (c.vars name)) (v : Value) :
    Does c pc [.of .dup, .of .storeVar (c.vars name)] stack (v :: stack) (fun v : Value => v :: stack)
      s (c.store name v s) := by
  have hid := toInt_ofInt_of_isOperand hid
  have hstore : Does c (pc + 1) [.of .storeVar (c.vars name)] (v :: stack) (v :: v :: stack)
      (fun v : Value => v :: stack) s (c.store name v s) := by
    refine does_of .storeVar [v] rfl ?_ ?_ ?_
    · intro _
      rfl
    · simp [Machine.brings, Setting.store, hid]
    intro base _
    simp [exec, withTop, Evaluated.outcome, Setting.store, hid]
  exact (does_dup v).prepare (hstore.lower [v])

theorem does_getField {key : Value} {name : String} (hkey : key.string? = some name) (obj : Value) :
    Does c pc [.of .getField] stack (key :: obj :: stack) (fun v : Value => v :: stack) s
      (c.readField obj name s) := by
  apply does_of .getField [key, obj] rfl (fun _ => rfl)
  · simp only [Machine.brings, Setting.readField, List.cons_append, hkey, Evaluated.effects_raising]
    rfl
  intro base _
  simp only [exec, withTop, Evaluated.outcome, Setting.readField, placed_stack, List.cons_append, hkey]
  rcases c.machine.getField obj name s with _ | ⟨_ | _, t⟩ <;> rfl

theorem does_setField {key : Value} {name : String} (hkey : key.string? = some name) (obj v : Value) :
    Does c pc [.of .setField] stack (v :: key :: obj :: stack) (fun v : Value => v :: stack) s
      (c.writeField obj name v s) := by
  apply does_of .setField [v, key, obj] rfl (fun _ => rfl)
  · simp only [Machine.brings, Setting.writeField, List.cons_append, hkey, Evaluated.effects_raising]
    rfl
  intro base _
  simp only [exec, withTop, Evaluated.outcome, Setting.writeField, placed_stack, List.cons_append,
    hkey]
  rcases c.machine.setField obj name v s with _ | ⟨_ | _, t⟩ <;> rfl

theorem does_mapNew {slot : Int} {name : Value} {type : TypeId}
    (hname : c.machine.constant? (Int32.ofInt slot) = some name) (htype : name.string? = some type) :
    Does c pc [.of .mapNew slot] stack stack (fun _ : Unit => (s.newMap type).1 :: stack) s
      (.pure () (s.newMap type).2) := by
  apply does_of .mapNew [] rfl (fun _ => rfl) rfl
  intro base _
  simp [exec, hname, htype, Evaluated.outcome, Evaluated.pure]

/-- The store of an entry finds the map under its two operands. -/
theorem does_mapSet (type : TypeId) (ref slot : Nat) (v : Value) :
    Does c pc [.of .mapSet] stack (v :: .int slot :: .map type ref :: stack)
      (fun _ : Unit => .map type ref :: stack) s (Row.bindSlot (.map type ref) slot v s) := by
  apply does_single [v, .int slot] [.map type ref] (Instr.op?_of .mapSet _ _ _)
  · decide
  · exact Instr.pops_of .mapSet _ _ _ rfl
  · intro _
    rfl
  · rfl
  intro base hbase
  have hown : ¬ stack.length + 1 ≤ base := by omega
  have hkey : (Scalar.int slot).isPrimitive = true := rfl
  simp [exec, withTop, execMapSet, hown, Evaluated.outcome, Row.bindSlot, Evaluated.pure, Value.int,
    OrderedMap.insert?, hkey]

/-- A host function called with arguments by position finds the last one on top. -/
theorem does_hostCall {fn : Int} (hfn : IsOperand fn) (values : List Value)
    (hvalues : values.length < 2 ^ 31) :
    Does c pc [.of .hostCall fn values.length 0] stack (values.reverse ++ stack)
      (fun v : Value => v :: stack) s (c.apply fn values s) := by
  have hfn := toInt_ofInt_of_isOperand hfn
  have hcount := toInt_ofInt_of_lt hvalues
  have hzero : (Int32.ofInt 0).toInt = 0 := rfl
  have htake : (values.reverse ++ stack).take values.length = values.reverse := by
    rw [List.take_append_of_le_length (by simp), List.take_of_length_le (by simp)]
  apply does_single values.reverse [] (Instr.op?_of .hostCall _ _ _) (by decide)
  · rw [Instr.pops_of_operand .hostCall _ _ _ rfl, hcount, List.length_reverse]
  · intro _
    rfl
  · simp [Machine.brings, Setting.apply, Setting.call, hfn, hcount, htake]
  intro base _
  have hdrop : (values.reverse ++ stack).drop values.length = stack := by
    rw [List.drop_append_of_le_length (by simp), List.drop_of_length_le (by simp), List.nil_append]
  simp only [exec, withOperands, Instr.a_of, Instr.b_of, Instr.c_of, hcount, hfn, hzero,
    Int.toNat_natCast, placed_stack, placed_drop, List.nil_append, htake, hdrop, List.reverse_reverse, execHostCall,
    callSync_placed, Evaluated.outcome, Setting.apply, Setting.call]
  rw [if_neg (by omega)]
  rcases c.machine.callSync c.fiber fn 0 c.func (s.heap.positionalArgs values).1
    { s with heap := (s.heap.positionalArgs values).2 } with _ | ⟨_ | _, t⟩ <;> rfl

theorem does_hostCallArgs {fn : Int} {site : Nat} (hfn : IsOperand fn)
    (hsite : site < 2 ^ 31) (args : Value) :
    Does c pc [.of .hostCallArgs fn 0 site] stack (args :: stack) (fun v : Value => v :: stack) s
      (c.call fn site args s) := by
  have hfn := toInt_ofInt_of_isOperand hfn
  apply does_of .hostCallArgs [args] rfl (fun _ => rfl)
  · simp [Machine.brings, Setting.call, hfn, toInt_ofInt_of_lt hsite]
  intro base _
  simp only [exec, withTop, execHostCall, Evaluated.outcome, Setting.call, placed_stack,
    List.cons_append, List.nil_append, placed_with_stack, callSync_placed, Instr.a_of, Instr.c_of, hfn,
    toInt_ofInt_of_lt hsite]
  rcases c.machine.callSync c.fiber fn site c.func args s with _ | ⟨_ | _, t⟩ <;> rfl

/-! ## Conversions and jumps -/

theorem does_conversionCode {path : List Conversion} (hpath : ∀ conv ∈ path, IsOperand conv.fn)
    (v : Value) : Does c pc (conversionCode path) stack (v :: stack) (fun v : Value => v :: stack) s
      (c.convert path v s) := by
  induction path generalizing pc v s with
  | nil => exact does_nil rfl (fun _ => rfl)
  | cons conv path ih =>
    have hfirst : Does c pc [.of .hostCall conv.fn 1 0] stack (v :: stack) (fun v : Value => v :: stack)
        s (c.apply conv.fn [v] s) := does_hostCall (hpath conv List.mem_cons_self) [v] (by simp)
    exact hfirst.andThen fun v t => ih (fun conv h => hpath conv (List.mem_cons_of_mem _ h)) v

/-- The jump of an operator on its left value: over the right operand if that one is superfluous. -/
def jumpOp (op : Row.BinaryOp) : Op := if op = .and then .jumpIfFalse else .jumpIfTrue

theorem pops_jumpOp (op : Row.BinaryOp) : (jumpOp op).pops = some 1 := by
  unfold jumpOp
  split <;> rfl

theorem pushes_jumpOp (op : Row.BinaryOp) : (jumpOp op).pushes = 0 := by
  unfold jumpOp
  split <;> rfl

theorem jumpOp_ne_call (op : Row.BinaryOp) : jumpOp op ≠ .call := by
  unfold jumpOp
  split <;> decide

omit [Host H] in
theorem brings_jumpOp (op : Row.BinaryOp) (i : Instr) (func : Int) (stack : List Value) :
    Machine.brings (jumpOp op) i func stack s = [] := by
  unfold jumpOp
  split <;> rfl

theorem exec_jumpOp {m : Machine H} (op : Row.BinaryOp) (i : Instr) (fr : Frame) (site : Site)
    (f : Fiber) (v : Value) : exec m (jumpOp op) i fr site (f.placed pc (v :: stack)) s =
      .next (f.placed (if op.decides v then site.pc + i.a.toInt else pc) stack) s := by
  unfold jumpOp Row.BinaryOp.decides
  by_cases hop : op = .and
  · cases hv : v.truthy <;> simp [hop, exec, withTop, hv]
  · cases hv : v.truthy <;> simp [hop, exec, withTop, hv]

/-- A left value that does not decide is dropped for the right operand. -/
theorem does_fallThrough {op : Row.BinaryOp} {v : Value} (hv : op.decides v = false) {d : Int}
    {r : Evaluated H Value}
    (h : Does c (pc + 1 + 1 + 1) y stack stack (fun v : Value => v :: stack) s r) :
    Does c pc ([Instr.of .dup] ++ ([Instr.of (jumpOp op) d] ++ ([Instr.of .pop] ++ y))) stack (v :: stack)
      (fun v : Value => v :: stack) s r := by
  have hjump : Does c (pc + 1) [.of (jumpOp op) d] (v :: stack) (v :: v :: stack)
      (fun _ : Unit => v :: stack) s (.pure () s) := by
    refine does_of (jumpOp op) [v] (pops_jumpOp op) ?_ ?_ ?_
    · intro _
      rw [pushes_jumpOp, add_zero]
    · rw [brings_jumpOp]
      rfl
    intro base _
    rw [List.singleton_append, exec_jumpOp, hv]
    rfl
  exact (does_dup v).prepare ((hjump.lower [v]).prepare ((does_pop v).prepare h))

/-- A left value that decides is kept, and the right operand is jumped over. -/
theorem does_shortCircuit {op : Row.BinaryOp} {v : Value} {r : Evaluated H Value}
    (h : Does c (pc + 1 + 1 + 1) y stack stack (fun v : Value => v :: stack) s r) :
    Does c pc ([Instr.of .dup] ++ ([Instr.of (jumpOp op) (y.length + 2)] ++ ([Instr.of .pop] ++ y))) stack (v :: stack)
      (fun v : Value => v :: stack) s (if op.decides v then .pure v s else r) := by
  refine ⟨?_, ?_⟩
  · intro v'
    have hy := h.height v'
    have hjump : (Instr.of (jumpOp op) (y.length + 2)).effect = -1 := by
      rw [Instr.effect, if_neg (by simpa using jumpOp_ne_call op),
        Instr.pops_of _ _ _ _ (pops_jumpOp op), Instr.pushes_of, pushes_jumpOp]
      rfl
    have hdup : (Instr.of .dup).effect = 1 := rfl
    have hpop : (Instr.of .pop).effect = -1 := rfl
    simp only [netEffect_append, netEffect_cons, netEffect_nil, hjump, hdup, hpop]
    simp only [List.length_cons] at hy ⊢
    push_cast at hy ⊢
    omega
  intro hloaded
  cases hv : op.decides v with
  | false =>
    simp only [Bool.false_eq_true, if_false]
    exact (does_fallThrough hv h).ends hloaded
  | true =>
    simp only [if_true]
    have hdup : Does c pc [.of .dup] stack (v :: stack) (fun _ : Unit => v :: v :: stack) s
        (.pure () s) := does_dup v
    obtain ⟨n, hfirst⟩ := hdup.ends hloaded.left
    have hright := hloaded.right.left
    rw [← hdup.height ()] at hright
    obtain ⟨base, -, hjump⟩ := Loaded.leads [v] [v] hright
      (Instr.op?_of _ _ _ _) (jumpOp_ne_call op) (Instr.pops_of _ _ _ _ (pops_jumpOp op)) s
    rw [brings_jumpOp, List.singleton_append, exec_jumpOp, hv] at hjump
    have hlength := hloaded.short
    have hdistance : (Int32.ofInt (y.length + 2)).toInt = y.length + 2 := by
      apply toInt_ofInt_of_isOperand
      simp only [List.length_append, List.length_cons, List.length_nil] at hlength
      constructor <;> omega
    have hlands : pc + ([Instr.of .dup].length : Nat) + (y.length + 2 : Int) =
        pc + (([Instr.of .dup] ++ ([Instr.of (jumpOp op) (y.length + 2)] ++
          ([Instr.of .pop] ++ y))).length : Nat) := by
      simp only [List.length_append, List.length_cons, List.length_nil]
      push_cast
      omega
    rw [if_pos rfl, Instr.a_of, hdistance, hlands] at hjump
    exact ⟨n + 1, hfirst.trans hjump⟩

end

end TileMind
