import TileMind.Proofs.Machine.Discipline
import TileMind.Proofs.Value.Containment

/-!
# TileMind.Proofs.Machine.Progress

What a compiled program leaves to break its machine. A disciplined fiber finds the operands of every
instruction and the constants are there, so whatever goes wrong in the program goes wrong inside the
fiber. What remains are values that contain themselves, host code that nothing catches, and handles
that were rejected without a fault.

* `Machine.Breaks`: these ways to crash.
* `exec_goes`: an instruction that finds what it needs crashes in no other way.
* `Reachable.goes`: nor does a fiber of a loaded program.
-/

namespace TileMind

variable {H : Type}

/-- What breaks a machine at a stage although its program is sound: a value that contains itself is
shown or copied, a handle has failed without a fault, or host code breaks down where nothing catches
it. -/
inductive Machine.Breaks (m : Machine H) (s : Stage H) : Crash → Prop where
  | circular {v : Value} (loop : s.heap.Circular v) : Breaks m s (.circular v)
  | noFault {k : Int} {h : Handle} (found : s.handles.get? k = some h) (done : h.isDone = true)
      (failed : h.state ≠ .resolved) (missing : h.fault = none) : Breaks m s (.noFault h.id)
  | reading {type get obj field message} (found : (m.hooks type).get = some get)
      (fails : get obj field s = .error message) : Breaks m s (.hook type message)
  | writing {type set obj field v message} (found : (m.hooks type).set = some set)
      (fails : set obj field v s = .error message) : Breaks m s (.hook type message)
  | calling {fn h call c args message} {before after : Stage H}
      (found : m.services.functions.get? fn = some h) (sync : h.sync = some call)
      (fails : call c args before = (.fatal message, after)) : Breaks m s (.fatal h.name message)
  | asking {fn h call c args id message} {before after : Stage H}
      (found : m.services.functions.get? fn = some h) (async : h.async = some call)
      (fails : call c args id before = (.fatal message, after)) : Breaks m s (.fatal h.name message)

/-- The machine can go on, unless it breaks in one of these ways. -/
def Outcome.Goes (breaks : Crash → Prop) : Outcome H → Prop
  | .next _ _ | .stop _ _ _ => True
  | .crash c => breaks c

/-! ## What breaks -/

section

variable {m : Machine H} {s : Stage H} {v : Value} {c : Crash}

theorem Machine.breaks_of_shown (h : shown s.heap v = .error c) : m.Breaks s c := by
  unfold shown at h
  split at h
  · cases h
  · rename_i hnone
    cases h
    exact .circular (Heap.circular_of_render? hnone)

theorem Machine.breaks_of_badFieldName (h : badFieldName s.heap v = .error c) : m.Breaks s c :=
  breaks_of_shown (Except.map_eq_error_iff.mp h)

theorem Machine.breaks_of_badEntry {target : Value} (h : badEntry s.heap v target = .error c) :
    m.Breaks s c := by
  unfold badEntry at h
  cases hkey : shown s.heap v with
  | error c' =>
    rw [hkey] at h
    cases h
    exact breaks_of_shown hkey
  | ok key =>
    cases htarget : shown s.heap target with
    | error c' =>
      rw [hkey, htarget] at h
      cases h
      exact breaks_of_shown htarget
    | ok text =>
      rw [hkey, htarget] at h
      cases h

theorem Machine.breaks_of_thrown (h : thrown v s = .error c) : m.Breaks s c := by
  unfold thrown at h
  split at h
  · cases h
  · cases h
  · exact breaks_of_shown (Except.map_eq_error_iff.mp h)

theorem Machine.breaks_of_getField {field : String} (h : m.getField v field s = .error c) : m.Breaks s c := by
  unfold getField at h
  split at h
  · have hhooked := Except.map_eq_error_iff.mp h
    split at hhooked
    · rename_i get hget
      obtain ⟨message, hfails, rfl⟩ := Except.mapError_eq_error_iff.mp hhooked
      exact .reading hget hfails
    · cases hhooked
  · cases h
  · split at h
    case h_4 => exact breaks_of_shown (Except.map_eq_error_iff.mp h)
    all_goals cases h

theorem Machine.breaks_of_setField {field : String} {value : Value}
    (h : m.setField v field value s = .error c) : m.Breaks s c := by
  unfold setField at h
  split at h
  · have hhooked := Except.map_eq_error_iff.mp h
    split at hhooked
    · rename_i set hset
      obtain ⟨message, hfails, rfl⟩ := Except.mapError_eq_error_iff.mp hhooked
      exact .writing hset hfails
    · cases hhooked
  · cases h
  · exact breaks_of_shown (Except.map_eq_error_iff.mp h)

variable {f : Fiber} {fn site func : Int} {args : Value} {mid : Stage H}

theorem Machine.breaks_of_callSync (h : m.callSync f fn site func args mid = .error c) : m.Breaks s c := by
  unfold callSync at h
  split at h
  · cases h
  · rename_i hfn
    split at h
    · cases h
    · rename_i hcall
      split at h
      · cases h
      · rename_i hfails
        cases h
        exact .calling hfn hcall hfails
      · cases h
      · dsimp only at h
        split at h <;> cases h

theorem Machine.breaks_of_callAsync (h : m.callAsync f fn site func args mid = .error c) : m.Breaks s c := by
  unfold callAsync at h
  split at h
  · rename_i hfound
    obtain ⟨h', hfn, hcall⟩ := Option.bind_eq_some_iff.mp hfound
    obtain ⟨call', hcall', heq⟩ := Option.map_eq_some_iff.mp hcall
    cases heq
    unfold startAsync at h
    split at h
    · cases h
    · split at h
      · cases h
      · rename_i hfails
        cases h
        exact .asking hfn hcall' hfails
      · cases h
      · cases h
  · exact breaks_of_callSync (Except.map_eq_error_iff.mp h)

end

/-! ## Instructions -/

section

variable {f : Fiber} {s : Stage H} {site : Site} {breaks : Crash → Prop}

theorem raise_goes (f : Fiber) (s : Stage H) (fault : Nat) (site : Site) :
    (raise f s fault site).Goes breaks := by
  unfold raise
  dsimp only
  split <;> trivial

theorem withTop_goes {k : Value → Fiber → Outcome H} (hpos : 1 ≤ f.stack.length)
    (hk : ∀ v rest, f.stack = v :: rest → (k v { f with stack := rest }).Goes breaks) :
    (withTop f k).Goes breaks := by
  unfold withTop
  split
  · rename_i hnil
    simp [hnil] at hpos
  · rename_i v rest hstack
    exact hk v rest hstack

theorem withOperands_goes {count : Int} (hcount : 0 ≤ count)
    {k : Value → Fiber → Stage H → Outcome H} (hk : ∀ args g t, (k args g t).Goes breaks) :
    (withOperands count f s k).Goes breaks := by
  unfold withOperands
  rw [if_neg (by omega)]
  exact hk _ _ _

theorem withResult_goes {α : Type} {r : Except Crash α} {k : α → Outcome H}
    (hr : ∀ c, r = .error c → breaks c) (hk : ∀ a, (k a).Goes breaks) : (withResult r k).Goes breaks := by
  cases r with
  | ok a => exact hk a
  | error c => exact hr c rfl

theorem execHostCall_goes (m : Machine H) (i : Instr) (site : Site) (args : Value) (f : Fiber)
    (mid : Stage H) : (execHostCall m i site args f mid).Goes (m.Breaks s) := by
  refine withResult_goes (fun c => Machine.breaks_of_callSync) fun r => ?_
  obtain ⟨ref | v, t⟩ := r
  · exact raise_goes _ _ _ _
  · trivial

theorem execHostCallAsync_goes (m : Machine H) (i : Instr) (site : Site) (args : Value) (f : Fiber)
    (mid : Stage H) : (execHostCallAsync m i site args f mid).Goes (m.Breaks s) := by
  refine withResult_goes (fun c => Machine.breaks_of_callAsync) fun r => ?_
  obtain ⟨ref | id, g, t⟩ := r
  · exact raise_goes _ _ _ _
  · trivial

theorem execMapSet_goes (m : Machine H) (fr : Frame) (site : Site) (key v : Value) (f : Fiber) (s : Stage H) :
    (execMapSet fr site key v f s).Goes (m.Breaks s) := by
  unfold execMapSet
  split
  · exact raise_goes _ _ _ _
  · dsimp only
    split
    · trivial
    · exact withResult_goes (fun c => Machine.breaks_of_badEntry) fun _ => raise_goes _ _ _ _

theorem execAwait_goes (m : Machine H) (hpos : 1 ≤ f.stack.length) (site : Site) :
    (execAwait site f s).Goes (m.Breaks s) := by
  refine withTop_goes hpos fun v rest _ => ?_
  split
  · split
    · exact raise_goes _ _ _ _
    · rename_i h hfound
      split
      · rename_i hdone
        dsimp only
        split
        · trivial
        · exact raise_goes _ _ _ _
        · rename_i hmissing hfailed
          exact .noFault hfound hdone hfailed hmissing
      · trivial
  · trivial

variable [Host H] {m : Machine H} {i : Instr}

theorem exec_goes {op : Op} (hop : i.op? = some op) (fr : Frame) (h0 : 0 ≤ i.pops)
    (hpops : i.pops ≤ f.stack.length)
    (hconstant : op = .pushConst ∨ op = .mapNew → m.constant? i.a ≠ none) (site : Site) :
    (exec m op i fr site f s).Goes (m.Breaks s) := by
  have hp {n : Nat} (hn : op.pops = some n) : n ≤ f.stack.length := by
    have : i.pops = n := by simp [Instr.pops, hop, hn]
    omega
  have hb (hn : op.pops = none) : 0 ≤ i.b.toInt := by
    have : i.pops = i.b.toInt := by simp [Instr.pops, hop, hn]
    omega
  cases op with
  | nop | whenStart | doStart | loadVar | jump | ret | yield | «try» | endTry => trivial
  | pushConst =>
    simp only [exec]
    split
    · rename_i hnone
      exact absurd hnone (hconstant (by simp))
    · split
      · trivial
      · split
        · trivial
        · rename_i hnone
          exact .circular (Heap.circular_of_deepCopy? hnone)
  | mapNew =>
    simp only [exec]
    split
    · rename_i hnone
      exact absurd hnone (hconstant (by simp))
    · trivial
  | pop | doEnd | dup | storeVar | jumpIfFalse | whenEnd | jumpIfTrue =>
    simp only [exec]
    refine withTop_goes (hp rfl) fun _ _ _ => ?_
    trivial
  | call =>
    simp only [exec]
    split
    · exact raise_goes _ _ _ _
    · trivial
  | hostCall => exact withOperands_goes (hb rfl) fun _ _ _ => execHostCall_goes _ _ _ _ _ _
  | hostCallAsync => exact withOperands_goes (hb rfl) fun _ _ _ => execHostCallAsync_goes _ _ _ _ _ _
  | hostCallArgs =>
    simp only [exec]
    refine withTop_goes (hp rfl) fun _ _ _ => ?_
    exact execHostCall_goes _ _ _ _ _ _
  | hostCallArgsAsync =>
    simp only [exec]
    refine withTop_goes (hp rfl) fun _ _ _ => ?_
    exact execHostCallAsync_goes _ _ _ _ _ _
  | await => exact execAwait_goes m (hp rfl) site
  | throw =>
    simp only [exec]
    refine withTop_goes (hp rfl) fun _ _ _ => ?_
    exact withResult_goes (fun c => Machine.breaks_of_thrown) fun _ => raise_goes _ _ _ _
  | mapSet =>
    have htwo := hp rfl
    simp only [exec]
    refine withTop_goes (by omega) fun v rest hstack => withTop_goes ?_ fun key _ _ => ?_
    · simp only [hstack, List.length_cons] at htwo
      exact Nat.le_of_succ_le_succ htwo
    · exact execMapSet_goes _ _ _ _ _ _ _
  | getField =>
    have htwo := hp rfl
    simp only [exec]
    refine withTop_goes (by omega) fun name rest hstack => withTop_goes ?_ fun obj _ _ => ?_
    · simp only [hstack, List.length_cons] at htwo
      exact Nat.le_of_succ_le_succ htwo
    · split
      · exact withResult_goes (fun c => Machine.breaks_of_badFieldName) fun _ => raise_goes _ _ _ _
      · refine withResult_goes (fun c => Machine.breaks_of_getField) fun r => ?_
        obtain ⟨fault | answer, t⟩ := r
        · exact raise_goes _ _ _ _
        · trivial
  | setField =>
    have hthree := hp rfl
    simp only [exec]
    refine withTop_goes (by omega) fun v rest hstack => withTop_goes ?_ fun name rest' hrest =>
      withTop_goes ?_ fun obj _ _ => ?_
    · simp only [hstack, List.length_cons] at hthree
      exact Nat.le_trans (by decide) (Nat.le_of_succ_le_succ hthree)
    · obtain rfl : rest = name :: rest' := hrest
      simp only [hstack, List.length_cons] at hthree
      exact Nat.le_of_succ_le_succ (Nat.le_of_succ_le_succ hthree)
    · split
      · exact withResult_goes (fun c => Machine.breaks_of_badFieldName) fun _ => raise_goes _ _ _ _
      · refine withResult_goes (fun c => Machine.breaks_of_setField) fun r => ?_
        obtain ⟨fault | answer, t⟩ := r
        · exact raise_goes _ _ _ _
        · trivial

end

/-! ## Loaded programs -/

theorem length_linkItems (items : List Datum) (h : Heap) :
    (Heap.linkItems items h).1.length = items.length := by
  induction items generalizing h with
  | nil => rw [Heap.linkItems]; rfl
  | cons d items ih =>
    rw [Heap.linkItems]
    simp [ih]

theorem Machine.size_constants_load (p : Program) (svc : Services (Stage H)) (limits : Limits)
    (heap : Heap) : (Machine.load p svc limits heap).1.constants.size = p.constants.size := by
  simp [Machine.load, Machine.linkConstants, length_linkItems]

theorem Program.constant_of_checkInstr {p : Program} {n : Nat} {site : Site} {i : Instr}
    (h : p.checkInstr n site i = .ok ()) (hop : i.op? = some .pushConst ∨ i.op? = some .mapNew) :
    0 ≤ i.a.toInt ∧ i.a.toInt < p.constants.size := by
  have hin : inBounds i.a.toInt p.constants.size = true := by
    rcases hop with hop | hop <;> simpa [checkInstr, hop] using h
  simpa [inBounds] using hin

/-- A live fiber of a compiled program that is in the middle of its calls has an instruction to
execute, and that goes on unless something breaks that is not the program's. -/
theorem Reachable.goes [Host H] {m : Machine H} (hp : RuleProgram m.program)
    (hcheck : m.program.check = .ok ()) (hconstants : m.constants.size = m.program.constants.size)
    {f : Fiber} (hf : Reachable m f) (hlive : f.state.isTerminal = false) {fr : Frame}
    {rest : List Frame} (hframes : f.frames = fr :: rest) :
    ∃ i, Machine.instrAt m.program fr = .ok i ∧
      ∀ s : Stage H, (step m fr i f s).Goes (m.Breaks s) := by
  have hd : Disciplined m.program f := by
    rcases hf.sound hp with hd | ⟨hterminal, -⟩
    · exact hd
    · rw [hlive] at hterminal
      cases hterminal
  have hfr := hd.top fr rest hframes
  obtain ⟨fn, k, hfn, hpc, hk, -⟩ := hfr.place
  have hinstr : Machine.instrAt m.program fr = .ok fn.code[k] := by
    have hneg : ¬ ((k : Int) < 0) := by omega
    simp only [Machine.instrAt, hfn, hpc, hneg, if_false, Int.toNat_natCast]
    rw [Array.getElem?_eq_getElem hk]
  refine ⟨fn.code[k], hinstr, fun s => ?_⟩
  obtain ⟨fn', k', he⟩ := hd.executes hp hframes hinstr
  obtain ⟨h0, hpops, -⟩ := he.room hp
  unfold step
  dsimp only
  split
  · exact raise_goes _ _ _ _
  · split
    · rename_i op hop
      refine exec_goes hop fr h0 (by rwa [Fiber.jump_stack]) (fun hconst => ?_) _
      obtain ⟨n, -, hn⟩ := Program.function?_eq_some_iff.mp hfn
      have hchecked := Program.checkInstr_of_check hcheck hn (Array.getElem?_eq_getElem hk)
      obtain ⟨hpos, hlt⟩ := Program.constant_of_checkInstr hchecked (by simpa [hop] using hconst)
      rw [Machine.constant?, if_neg (by omega), Array.getElem?_eq_getElem (by omega)]
      simp
    · exact raise_goes _ _ _ _

end TileMind
