import TileMind.Proofs.Machine.Isolation
import TileMind.Proofs.Machine.Lives
import TileMind.Proofs.Machine.Progress

/-!
# TileMind.Proofs.Machine.Children

How a rule deals with its children when they are isolated. Once the rows of the rule are done, nothing
that happens in its children, nor in theirs, keeps it from calling every one of them in turn and from
returning, save what breaks the machine.

* `Dealing`: the call of a rule whose rows are done, and the children it has called.
* `Dealing.step`, `Dealing.history`: an instruction, and any number of them.
* `left`: a bound on the instructions that a fiber has still to execute.
* `child_isolation`: what follows for compiled programs.
* `child_breaks_machine`: a child that is not called, as the one before it breaks the machine.
-/

namespace TileMind

variable {H : Type} {layout : Int → Layout}

/-! ## Fibers of isolating programs -/

/-- A machine for a program with isolated children. -/
structure Machine.Isolates (m : Machine H) (layout : Int → Layout) : Prop where
  rules : RuleProgram m.program
  isolating : Isolating m.program layout
  limit : 0 ≤ m.limits.stack

section

variable [Host H] {m : Machine H} {f g h : Fiber} {fr : Frame} {rest : List Frame} {i : Instr}
  {es : List Event}

theorem Reachable.disciplined (hm : m.Isolates layout) (hf : Reachable m f)
    (hlive : f.state.isTerminal = false) : Disciplined m.program f := by
  rcases hf.sound hm.rules with hd | ⟨hterminal, -⟩
  · exact hd
  · rw [hlive] at hterminal
    cases hterminal

/-- A live fiber does not stand behind the code of a function. -/
theorem Reachable.not_past (hm : m.Isolates layout) (hf : Reachable m f)
    (hlive : f.state.isTerminal = false) (hframes : f.frames = fr :: rest) {fn : Function}
    (hfn : m.program.function? fr.func = some fn) : ¬ (fn.code.size : Int) ≤ fr.pc := by
  obtain ⟨fn', k, hfn', hpc, hk, -⟩ := ((hf.disciplined hm hlive).top fr rest hframes).place
  rw [hfn, Option.some.injEq] at hfn'
  subst hfn'
  omega

theorem isolated_start (layout : Int → Layout) (id : Nat) (func : Int) :
    Isolated layout (.start id func) := by
  refine ⟨?_, by simp [Fiber.start]⟩
  exact (regions_of_none { func := func } rfl (Layout.catch?_of_le (Nat.zero_le _)) []).symm

theorem Reachable.isolated (hm : m.Isolates layout) (hf : Reachable m f)
    (hlive : f.state.isTerminal = false) : Isolated layout f := by
  induction hf with
  | start id found => exact isolated_start layout id _
  | @next f g fr rest i s s' before live frames instr done ih =>
    have hstep := (ih live).step hm.rules hm.isolating hm.limit (before.disciplined hm live) frames
      instr s
    rw [done] at hstep
    exact hstep.1
  | @stop f g fr rest i s s' status before live frames instr done ih =>
    have hstep := (ih live).step hm.rules hm.isolating hm.limit (before.disciplined hm live) frames
      instr s
    rw [done] at hstep
    rcases hstep with ⟨-, -, hisolated, -⟩ | ⟨-, hfault, -⟩
    · exact hisolated
    · rw [hfault] at hlive
      cases hlive
  | fallOff before live frames found past => exact absurd past (before.not_past hm live frames found)
  | finish | cancel => cases hlive
  | resume _ live awaiting ih => exact ⟨(ih live).handlers, (ih live).callers⟩
  | clear => exact ⟨rfl, by simp [Fiber.cleared]⟩

theorem Reachable.isolates (hm : m.Isolates layout) (hf : Reachable m f)
    (hlive : f.state.isTerminal = false) (hframes : f.frames = fr :: rest)
    (hinstr : Machine.instrAt m.program fr = .ok i) (s : Stage H) :
    (step m fr i f s).Isolates layout fr rest i :=
  (hf.isolated hm hlive).step hm.rules hm.isolating hm.limit (hf.disciplined hm hlive) hframes hinstr s

end

/-! ## The children of one call -/

/-- The functions that were called by the call at a depth. -/
def callsAt (depth : Nat) (es : List Event) : List Int :=
  es.filterMap fun e =>
    if e.depth = depth ∧ e.instr.op? = some .call then some e.instr.a.toInt else none

@[simp] theorem callsAt_nil (depth : Nat) : callsAt depth [] = [] := rfl

theorem callsAt_append (depth : Nat) (es es' : List Event) :
    callsAt depth (es ++ es') = callsAt depth es ++ callsAt depth es' :=
  List.filterMap_append

theorem callsAt_of_ne {depth : Nat} {e : Event} (h : e.depth ≠ depth) : callsAt depth [e] = [] := by
  simp [callsAt, h]

theorem callsAt_of_plain (depth : Nat) {e : Event} (h : e.instr.op? ≠ some .call) :
    callsAt depth [e] = [] := by
  simp [callsAt, h]

theorem callsAt_call {child : Nat} (hsmall : child < 2 ^ 31) {e : Event}
    (hinstr : e.instr = .of .call child 0) : callsAt e.depth [e] = [(child : Int)] := by
  simp [callsAt, hinstr, toInt_ofInt_of_lt hsmall]

/-- The call of `func` on top of `rest` has done its rows, stands at place `k`, and has called
`calls`. -/
structure Dealing (layout : Int → Layout) (func : Int) (rest : List Frame) (calls : List Int)
    (frames : List Frame) (k : Nat) : Prop where
  active : ∃ above c, frames = above ++ c :: rest ∧ c.func = func ∧ c.pc = k
  start : (layout func).start ≤ k
  last : k ≤ (layout func).last
  calls : calls = ((layout func).children.take ((layout func).called k)).map Int.ofNat

section

variable {func : Int} {rest outer frames frames' : List Frame} {calls : List Int} {k : Nat}
  {fr : Frame} {i : Instr}

theorem take_succ_of_getElem? {children : List Nat} {j child : Nat} (h : children[j]? = some child) :
    (children.take (j + 1)).map Int.ofNat = (children.take j).map Int.ofNat ++ [(child : Int)] := by
  rw [List.take_add_one, h, List.map_append]
  rfl

theorem Dealing.top (hd : Dealing layout func rest calls frames k) (hframes : frames = fr :: outer)
    (hdepth : outer.length = rest.length) : fr.func = func ∧ fr.pc = k ∧ outer = rest := by
  obtain ⟨above, c, hactive, hfunc, hpc⟩ := hd.active
  rw [hframes] at hactive
  cases above with
  | nil =>
    obtain ⟨rfl, rfl⟩ := List.cons.inj hactive
    exact ⟨hfunc, hpc, rfl⟩
  | cons a above =>
    have hlength := congrArg List.length hactive
    simp only [List.length_cons, List.length_append] at hlength
    omega

theorem Dealing.stepTop (hd : Dealing layout fr.func rest calls (fr :: rest) k) (hpc : fr.pc = k)
    (hsmall : ∀ child ∈ (layout fr.func).children, child < 2 ^ 31)
    (hp : Passes layout fr rest i frames') {e : Event} (hdepth : e.depth = rest.length + 1)
    (hinstr : e.instr = i) :
    (∃ k', Dealing layout fr.func rest (calls ++ callsAt (rest.length + 1) [e]) frames' k') ∨
      frames' = rest ∧ i.op? = some .ret ∧
        calls ++ callsAt (rest.length + 1) [e] = (layout fr.func).children.map Int.ofNat := by
  have hlast : (layout fr.func).last = (layout fr.func).start + 4 * (layout fr.func).children.length :=
    rfl
  have hstart := hd.start
  have hplain (h : i.op? ≠ some .call) : calls ++ callsAt (rest.length + 1) [e] = calls := by
    rw [callsAt_of_plain _ (by rwa [hinstr]), List.append_nil]
  have hnew {j child : Nat} (found : (layout fr.func).children[j]? = some child)
      (hi : i = .of .call child 0) (hj : (layout fr.func).called k = j) :
      calls ++ callsAt (rest.length + 1) [e] =
        ((layout fr.func).children.take (j + 1)).map Int.ofNat := by
    rw [hd.calls, hj, ← hdepth, callsAt_call (hsmall child (List.mem_of_getElem? found))
      (hinstr.trans hi), take_succ_of_getElem? found]
  cases hp with
  | own pc lt => omega
  | @child j child o found pc place plain =>
    have hj := (List.getElem?_eq_some_iff.mp found).1
    refine .inl ⟨_, ⟨[], _, rfl, rfl, rfl⟩, by omega, by omega, ?_⟩
    rw [hplain plain, hd.calls]
    congr 2
    unfold Layout.called
    omega
  | @call j child base found pc instr =>
    have hj := (List.getElem?_eq_some_iff.mp found).1
    refine .inl ⟨_, ⟨[_], _, rfl, rfl, rfl⟩, by omega, by omega, ?_⟩
    rw [hnew found instr (by unfold Layout.called; omega)]
    congr 2
    unfold Layout.called
    omega
  | ret pc op =>
    refine .inr ⟨rfl, op, ?_⟩
    have hall : (layout fr.func).called k = (layout fr.func).children.length := by
      unfold Layout.called
      omega
    rw [hplain (by simp [op]), hd.calls, hall, List.take_length]
  | @caught j child o found pc pos lt instr =>
    have hj := (List.getElem?_eq_some_iff.mp found).1
    refine .inl ⟨_, ⟨[], _, rfl, rfl, rfl⟩, by omega, by omega, ?_⟩
    have hnext : (layout fr.func).called ((layout fr.func).start + 4 * (j + 1)) = j + 1 := by
      unfold Layout.called
      omega
    rw [hnext]
    split at instr
    · exact hnew found instr (by unfold Layout.called; omega)
    · rw [hplain instr, hd.calls]
      congr 2
      unfold Layout.called
      omega
  | passed callers pc lt => omega

/-- An instruction of a call inside of it. A fault that leaves the call of a child is caught behind
that child. -/
theorem Dealing.stepInside {above : List Frame} {c : Frame}
    (hd : Dealing layout c.func rest calls (fr :: (above ++ c :: rest)) k) (hpc : c.pc = k)
    (hp : Passes layout fr (above ++ c :: rest) i frames') :
    ∃ k', Dealing layout c.func rest calls frames' k' := by
  have hlast : (layout c.func).last = (layout c.func).start + 4 * (layout c.func).children.length :=
    rfl
  have hstays (above' : List Frame) (h : frames' = above' ++ c :: rest) :
      ∃ k', Dealing layout c.func rest calls frames' k' :=
    ⟨k, ⟨above', c, h, rfl, hpc⟩, hd.start, hd.last, hd.calls⟩
  cases hp with
  | own | child | caught => exact hstays (_ :: above) rfl
  | call => exact hstays (_ :: _ :: above) rfl
  | ret => exact hstays above rfl
  | @passed k₀ j child c' outer callers pc lt found waits =>
    cases above with
    | nil =>
      obtain ⟨rfl, rfl⟩ := List.cons.inj callers
      have hj := (List.getElem?_eq_some_iff.mp found).1
      refine ⟨_, ⟨[], _, rfl, rfl, rfl⟩, by omega, by omega, ?_⟩
      rw [hd.calls]
      congr 2
      unfold Layout.called
      omega
    | cons b above =>
      obtain ⟨rfl, rfl⟩ := List.cons.inj callers
      exact hstays (_ :: above) rfl

/-- One instruction: the rule goes on with its children, or it returns and has called them all. -/
theorem Dealing.step (hd : Dealing layout func rest calls frames k) (hframes : frames = fr :: outer)
    (hsmall : ∀ child ∈ (layout func).children, child < 2 ^ 31)
    (hp : Passes layout fr outer i frames') {e : Event} (hdepth : e.depth = outer.length + 1)
    (hinstr : e.instr = i) :
    (∃ k', Dealing layout func rest (calls ++ callsAt (rest.length + 1) [e]) frames' k') ∨
      outer = rest ∧ frames' = rest ∧ i.op? = some .ret ∧
        calls ++ callsAt (rest.length + 1) [e] = (layout func).children.map Int.ofNat := by
  obtain ⟨above, c, hactive, rfl, hpc⟩ := hd.active
  rw [hframes] at hactive hd
  cases above with
  | nil =>
    obtain ⟨rfl, rfl⟩ := List.cons.inj hactive
    exact (hd.stepTop hpc hsmall hp hdepth hinstr).imp_right fun h => ⟨rfl, h⟩
  | cons a above =>
    rw [List.cons_append] at hactive
    obtain ⟨rfl, rfl⟩ := List.cons.inj hactive
    have hother : e.depth ≠ rest.length + 1 := by
      simp only [List.length_append, List.length_cons] at hdepth
      omega
    rw [callsAt_of_ne hother, List.append_nil]
    exact .inl (hd.stepInside hpc hp)

end

/-! ## The rest of a fiber's life -/

/-- The call on top of `rest` has been left by its return. -/
structure Returned (rest : List Frame) (h : Fiber) : Prop where
  frames : h.frames = rest
  last : rest = [] → h.result = .void ∧ (h.state = .done ∨ h.state = .cancelled)
  inner : rest ≠ [] → h.stack = [.void] ∧ (h.state.isTerminal = false ∨ h.state = .cancelled)

section

variable [Host H] {m : Machine H} {f g h : Fiber} {fr : Frame} {rest outer : List Frame} {i : Instr}
  {es : List Event}

theorem Reachable.returned (hm : m.Isolates layout) (hf : Reachable m f)
    (hlive : f.state.isTerminal = false) (hframes : f.frames = fr :: rest)
    (hinstr : Machine.instrAt m.program fr = .ok i) (hop : i.op? = some .ret) {s s' : Stage H}
    (hstep : step m fr i f s = .next g s') : Returned rest g := by
  have hd := hf.disciplined hm hlive
  obtain ⟨fn, k, he⟩ := hd.executes hm.rules hframes hinstr
  have hbase := (hd.top fr rest hframes).base
  obtain ⟨hempty, hreturns⟩ := he.ret hm.rules hbase hframes hop
  have hroom : ¬ m.Overflows fr i f := by
    rintro ⟨fault, hfault, -⟩
    rw [checkStack_of_empty hm.limit hempty hbase (by simp [Instr.pops, hop, Op.pops])
      (by simp [Instr.pushes, hop, Op.pushes])] at hfault
    cases hfault
  obtain ⟨g', hg', hrest, hlast, hinner⟩ := hreturns s hroom
  rw [hstep] at hg'
  cases hg'
  refine ⟨hrest, fun hnil => ⟨(hlast hnil).2, .inl (hlast hnil).1⟩, fun hne => ⟨hinner hne, .inl ?_⟩⟩
  exact live_of_step hlive hstep (by rwa [hrest])

/-- What a call whose rows are done has come to after `es`: it deals with its children, or it has called
all of them and has returned. -/
structure Dealt (layout : Int → Layout) (func : Int) (rest : List Frame) (es : List Event)
    (h : Fiber) : Prop where
  sites : ∀ e ∈ es, e.depth = rest.length + 1 → e.site.func = func
  place : (∃ k, Dealing layout func rest (callsAt (rest.length + 1) es) h.frames k) ∧
      h.state ≠ .fault ∧ h.state ≠ .done ∨
    callsAt (rest.length + 1) es = (layout func).children.map Int.ofNat ∧ Returned rest h

section

variable {func : Int} {e : Event}

omit [Host H] in
/-- Whoever executes an instruction inside of the call has not returned. -/
theorem Dealt.dealing (hd : Dealt layout func rest es f) (hframes : f.frames = fr :: outer)
    (hdepth : e.depth = outer.length + 1) (hinside : rest.length < e.depth) :
    ∃ k, Dealing layout func rest (callsAt (rest.length + 1) es) f.frames k := by
  rcases hd.place with ⟨hdealing, -⟩ | ⟨-, hreturned⟩
  · exact hdealing
  · have hlength := congrArg List.length (hreturned.frames.symm.trans hframes)
    rw [List.length_cons] at hlength
    omega

omit [Host H] in
theorem Dealt.sites_append (hd : Dealt layout func rest es f) (hframes : f.frames = fr :: outer)
    (hdepth : e.depth = outer.length + 1) (hsite : e.site.func = fr.func)
    (hinside : rest.length < e.depth) :
    ∀ e' ∈ es ++ [e], e'.depth = rest.length + 1 → e'.site.func = func := by
  obtain ⟨k, hk⟩ := hd.dealing hframes hdepth hinside
  intro e' he' hdepth'
  rcases List.mem_append.mp he' with he' | he'
  · exact hd.sites e' he' hdepth'
  · obtain rfl := List.mem_singleton.mp he'
    rw [hsite]
    exact (hk.top hframes (by omega)).1

variable (hm : m.Isolates layout) (hsmall : ∀ child ∈ (layout func).children, child < 2 ^ 31)

include hm hsmall in
theorem Dealt.next (hd : Dealt layout func rest es f) (hf : Reachable m f)
    (hlive : f.state.isTerminal = false) (hframes : f.frames = fr :: outer)
    (hinstr : Machine.instrAt m.program fr = .ok i) {s s' : Stage H}
    (hstep : step m fr i f s = .next g s') (hdepth : e.depth = outer.length + 1)
    (hsite : e.site.func = fr.func) (he : e.instr = i) (hinside : rest.length < e.depth) :
    Dealt layout func rest (es ++ [e]) g := by
  have hpasses := hf.isolates hm hlive hframes hinstr s
  rw [hstep] at hpasses
  obtain ⟨k, hk⟩ := hd.dealing hframes hdepth hinside
  refine ⟨hd.sites_append hframes hdepth hsite hinside, ?_⟩
  rw [callsAt_append]
  rcases hk.step hframes hsmall hpasses.2 hdepth he with ⟨k', hk'⟩ | ⟨rfl, hleft, hop, hcalls⟩
  · refine .inl ⟨⟨k', hk'⟩, ?_⟩
    obtain ⟨above, c, hactive, -⟩ := hk'.active
    have hlive' := live_of_step hlive hstep (by simp [hactive])
    constructor <;> intro hstate <;> rw [hstate] at hlive' <;> cases hlive'
  · exact .inr ⟨hcalls, hf.returned hm hlive hframes hinstr hop hstep⟩

include hm in
/-- Inside of the call no fault ends the fiber. -/
theorem Dealt.stop (hd : Dealt layout func rest es f) (hf : Reachable m f)
    (hlive : f.state.isTerminal = false) (hframes : f.frames = fr :: outer)
    (hinstr : Machine.instrAt m.program fr = .ok i) {s s' : Stage H} {status : RunStatus}
    (hstep : step m fr i f s = .stop status g s') (hdepth : e.depth = outer.length + 1)
    (hsite : e.site.func = fr.func) (he : e.instr = i) (hinside : rest.length < e.depth) :
    Dealt layout func rest (es ++ [e]) g := by
  have hisolates := hf.isolates hm hlive hframes hinstr s
  rw [hstep] at hisolates
  obtain ⟨k, hk⟩ := hd.dealing hframes hdepth hinside
  refine ⟨hd.sites_append hframes hdepth hsite hinside, ?_⟩
  rcases hisolates with ⟨-, hstate, -, hsame, hplain⟩ | ⟨-, -, rfl, k', hpc, hlt, -⟩
  · left
    rw [callsAt_append, callsAt_of_plain _ (by rwa [he]), List.append_nil, hsame, ← hframes, hstate]
    exact ⟨⟨k, hk⟩, by simp, by simp⟩
  · have hroot : ([] : List Frame).length = rest.length := by
      rw [List.length_nil] at hdepth ⊢
      omega
    obtain ⟨rfl, hpc', -⟩ := hk.top hframes hroot
    have := hk.start
    omega

include hm hsmall in
theorem Dealing.history {k : Nat} (hf : Reachable m f) (hlive : f.state.isTerminal = false)
    (hd : Dealing layout func rest [] f.frames k) (hh : History m f es g)
    (hinside : ∀ e ∈ es, rest.length < e.depth) : Dealt layout func rest es g := by
  induction hh with
  | refl =>
    refine ⟨by simp, .inl ⟨⟨k, hd⟩, ?_⟩⟩
    constructor <;> intro hstate <;> rw [hstate] at hlive <;> cases hlive
  | next before live frames instr done ih =>
    have hlast := hinside _ (List.mem_append_right _ List.mem_cons_self)
    exact (ih fun e he => hinside e (List.mem_append_left _ he)).next hm hsmall (before.reachable hf)
      live frames instr done rfl rfl rfl hlast
  | stop before live frames instr done ih =>
    have hlast := hinside _ (List.mem_append_right _ List.mem_cons_self)
    exact (ih fun e he => hinside e (List.mem_append_left _ he)).stop hm (before.reachable hf)
      live frames instr done rfl rfl rfl hlast
  | fallOff before live frames found past =>
    exact absurd past ((before.reachable hf).not_past hm live frames found)
  | finish before frames ih =>
    obtain ⟨hsites, ⟨⟨k', hk'⟩, -⟩ | ⟨hcalls, hreturned⟩⟩ := ih hinside
    · obtain ⟨above, c, hactive, -⟩ := hk'.active
      simp [frames] at hactive
    · have hnil : rest = [] := hreturned.frames.symm.trans frames
      exact ⟨hsites, .inr ⟨hcalls, hreturned.frames, fun _ => ⟨(hreturned.last hnil).1, .inl rfl⟩,
        fun hne => absurd hnil hne⟩⟩
  | resume before live awaiting ih =>
    obtain ⟨hsites, ⟨hdealing, -⟩ | ⟨hcalls, hreturned⟩⟩ := ih hinside
    · exact ⟨hsites, .inl ⟨hdealing, by simp, by simp⟩⟩
    · refine ⟨hsites, .inr ⟨hcalls, hreturned.frames, fun hnil => ?_, fun hne =>
        ⟨(hreturned.inner hne).1, .inl rfl⟩⟩⟩
      rcases (hreturned.last hnil).2 with hstate | hstate <;> rw [hstate] at live <;> cases live
  | cancel before fault ih =>
    obtain ⟨hsites, ⟨hdealing, -⟩ | ⟨hcalls, hreturned⟩⟩ := ih hinside
    · exact ⟨hsites, .inl ⟨hdealing, by simp, by simp⟩⟩
    · exact ⟨hsites, .inr ⟨hcalls, hreturned.frames, fun hnil => ⟨(hreturned.last hnil).1, .inr rfl⟩,
        fun hne => ⟨(hreturned.inner hne).1, .inr rfl⟩⟩⟩

end

/-! ## Faults -/

omit [Host H] in
theorem Passes.bottom {frames' : List Frame} (hp : Passes layout fr rest i frames') : frames' = [] ∨
    (frames'.map Frame.func).getLast? = ((fr :: rest).map Frame.func).getLast? := by
  cases hp with
  | own | child | caught => exact .inr rfl
  | call => exact .inr List.getLast?_cons_cons
  | ret =>
    cases rest with
    | nil => exact .inl rfl
    | cons c outer => exact .inr List.getLast?_cons_cons.symm
  | passed callers =>
    subst callers
    exact .inr List.getLast?_cons_cons.symm

omit [Host H] in
/-- Only a return leaves the last call. -/
theorem Passes.of_nil {frames' : List Frame} (hp : Passes layout fr rest i frames')
    (hnil : frames' = []) : rest = [] ∧ i.op? = some .ret := by
  cases hp with
  | ret pc op => exact ⟨hnil, op⟩
  | _ => cases hnil

theorem Reachable.state_of_next (hm : m.Isolates layout) (hf : Reachable m f)
    (hlive : f.state.isTerminal = false) (hframes : f.frames = fr :: rest)
    (hinstr : Machine.instrAt m.program fr = .ok i) {s s' : Stage H}
    (hstep : step m fr i f s = .next g s') : g.state ≠ .fault := by
  intro hfault
  have hnil : g.frames = [] := by
    by_contra hne
    have hlive' := live_of_step hlive hstep hne
    rw [hfault] at hlive'
    cases hlive'
  have hpasses := hf.isolates hm hlive hframes hinstr s
  rw [hstep] at hpasses
  obtain ⟨hrest, hop⟩ := hpasses.2.of_nil hnil
  obtain ⟨-, hstate⟩ := (hf.returned hm hlive hframes hinstr hop hstep).last hrest
  rcases hstate with hstate | hstate <;> rw [hstate] at hfault <;> cases hfault

/-- A fiber ends in a fault only while its first function evaluates its own rows. -/
theorem History.fault {func : Int} {id : Nat} {fn : Function} (hm : m.Isolates layout)
    (hfn : m.program.function? func = some fn) (hh : History m (.start id func) es g) :
    (g.state.isTerminal = false → g.frames ≠ [] →
      (g.frames.map Frame.func).getLast? = some func) ∧
    (g.state = .fault → ∃ before e, es = before ++ [e] ∧ e.stopped = some .fault ∧ e.depth = 1 ∧
      e.site.func = func ∧ ∃ k : Nat, e.site.pc = (k : Int) ∧ k < (layout func).start ∧
        Machine.instrAt m.program ⟨func, k, 0⟩ = .ok e.instr ∧ e.instr.op? ≠ some .doEnd) := by
  have hstart : Reachable m (.start id func) := .start id hfn
  induction hh with
  | refl => exact ⟨fun _ _ => rfl, fun hfault => nomatch hfault⟩
  | @next es f g fr rest i s s' before live frames instr done ih =>
    have hf := before.reachable hstart
    have hpasses := hf.isolates hm live frames instr s
    rw [done] at hpasses
    refine ⟨fun _ hne => ?_, fun hfault => absurd hfault (hf.state_of_next hm live frames instr done)⟩
    rcases hpasses.2.bottom with hnil | hsame
    · exact absurd hnil hne
    · rw [hsame, ← frames]
      exact ih.1 live (by simp [frames])
  | @stop es f g fr rest i s s' status before live frames instr done ih =>
    have hisolates := (before.reachable hstart).isolates hm live frames instr s
    have hbottom := ih.1 live (by simp [frames])
    rw [done] at hisolates
    rcases hisolates with ⟨-, hstate, -, hsame, -⟩ | ⟨rfl, hstate, rfl, k, hpc, hlt, hop⟩
    · refine ⟨fun _ _ => by rwa [hsame, ← frames], fun hfault => ?_⟩
      rw [hstate] at hfault
      cases hfault
    · obtain rfl : fr.func = func := by simpa [frames] using hbottom
      refine ⟨fun hlive => ?_, fun _ => ⟨es, _, rfl, rfl, rfl, rfl, k, hpc, hlt, ?_, hop⟩⟩
      · rw [hstate] at hlive
        cases hlive
      · rw [← instr, ← hpc]
        rfl
  | fallOff before live frames found past =>
    exact absurd past ((before.reachable hstart).not_past hm live frames found)
  | finish | cancel => exact ⟨fun hlive => (nomatch hlive), fun hfault => nomatch hfault⟩
  | resume _ live _ ih => exact ⟨fun _ => ih.1 live, fun hfault => nomatch hfault⟩

end

/-! ## Termination -/

/-- A bound on the instructions of a whole call of a function: its own, and those of its children. Calls
nest no deeper than `n`. -/
def weight (layout : Int → Layout) : (n : Nat) → (func : Nat) → Nat
  | 0, _ => 0
  | n + 1, func =>
    (layout func).last + 1 + ((layout func).children.map (weight layout n)).sum

/-- A bound on the instructions that a call has still to execute, in a program of `n` functions. -/
def Frame.left (layout : Int → Layout) (n : Nat) (fr : Frame) : Nat :=
  (layout fr.func).last + 1 - fr.pc.toNat +
    (((layout fr.func).children.drop ((layout fr.func).called fr.pc.toNat)).map fun child =>
      weight layout (n - child) child).sum

/-- A bound on the instructions that active calls have still to execute. -/
def left (layout : Int → Layout) (n : Nat) (frames : List Frame) : Nat :=
  (frames.map (Frame.left layout n)).sum

theorem weight_mono (layout : Int → Layout) {n n' : Nat} (h : n ≤ n') (func : Nat) :
    weight layout n func ≤ weight layout n' func := by
  induction n generalizing n' func with
  | zero => exact Nat.zero_le _
  | succ n ih =>
    obtain ⟨n', rfl⟩ : ∃ k, n' = k + 1 := ⟨n' - 1, by omega⟩
    simp only [weight]
    gcongr with child
    exact List.sum_le_sum fun child _ => ih (by omega) child

theorem sum_drop_le {α : Type} (f : α → Nat) (xs : List α) {a b : Nat} (h : a ≤ b) :
    ((xs.drop b).map f).sum ≤ ((xs.drop a).map f).sum := by
  obtain ⟨d, rfl⟩ := Nat.exists_eq_add_of_le h
  rw [← List.drop_drop]
  exact ((List.drop_sublist d _).map f).sum_le_sum fun _ _ => Nat.zero_le _

theorem Frame.left_forward (layout : Int → Layout) (n : Nat) (fr : Frame) {k k' : Nat} (hpc : fr.pc = k)
    (hforward : k < k') (hk : k' ≤ (layout fr.func).last) :
    Frame.left layout n { fr with pc := (k' : Int) } < fr.left layout n := by
  have hcalled : (layout fr.func).called k ≤ (layout fr.func).called k' := by
    unfold Layout.called
    omega
  have hsum := sum_drop_le (fun child => weight layout (n - child) child) (layout fr.func).children
    hcalled
  simp only [Frame.left, hpc, Int.toNat_natCast]
  omega

theorem Frame.left_pos (layout : Int → Layout) (n : Nat) (fr : Frame) {k : Nat} (hpc : fr.pc = k)
    (hk : k ≤ (layout fr.func).last) : 0 < fr.left layout n := by
  simp only [Frame.left, hpc, Int.toNat_natCast]
  omega

theorem Frame.left_child {p : Program} (hl : Isolating p layout) {child : Nat} {fn : Function}
    (hfn : p.function? child = some fn) (base : Nat) :
    Frame.left layout p.functions.size { func := child, base := base } ≤
      weight layout (p.functions.size - child) child := by
  have hlt : child < p.functions.size := by
    obtain ⟨n, hn, hget⟩ := Program.function?_eq_some_iff.mp hfn
    have := (Array.getElem?_eq_some_iff.mp hget).1
    omega
  have hstart : (layout child).called 0 = 0 := by
    unfold Layout.called Layout.start
    omega
  obtain ⟨n, hn⟩ : ∃ n, p.functions.size - child = n + 1 := ⟨p.functions.size - child - 1, by omega⟩
  simp only [Frame.left, Int.toNat_zero, hstart, List.drop_zero, hn, weight, Nat.sub_zero]
  gcongr
  refine List.sum_le_sum fun grandchild hgrandchild => weight_mono layout ?_ grandchild
  have := (hl.child hfn hgrandchild).1
  omega

/-- Every instruction after which a fiber goes on brings it closer to its end. -/
theorem Passes.left_lt {p : Program} (hl : Isolating p layout) {fr : Frame} {rest frames' : List Frame}
    {i : Instr} {fn : Function} (hfn : p.function? fr.func = some fn)
    (hp : Passes layout fr rest i frames') :
    left layout p.functions.size frames' < left layout p.functions.size (fr :: rest) := by
  have hlast (func : Int) : (layout func).last = (layout func).start + 4 * (layout func).children.length :=
    rfl
  have hlastFr := hlast fr.func
  simp only [left, List.map_cons, List.sum_cons]
  cases hp with
  | own pc lt forward target =>
    have := fr.left_forward layout p.functions.size pc forward (by omega)
    simp only [List.map_cons, List.sum_cons]
    omega
  | @child j child o found pc place =>
    have hj := (List.getElem?_eq_some_iff.mp found).1
    have hforward : (layout fr.func).start + 4 * j + o < (layout fr.func).start + 4 * j + (o + 1) := by
      omega
    have := fr.left_forward layout p.functions.size pc hforward (by omega)
    simp only [List.map_cons, List.sum_cons]
    omega
  | @call j child base found pc =>
    obtain ⟨hj, hget⟩ := List.getElem?_eq_some_iff.mp found
    obtain ⟨fn', hfn'⟩ : ∃ fn', p.function? child = some fn' := by
      have hlt := (hl.child hfn (List.mem_of_getElem? found)).2
      exact ⟨_, Program.function?_eq_some_iff.mpr ⟨child, rfl, Array.getElem?_eq_getElem hlt⟩⟩
    have hcallee := Frame.left_child hl hfn' base
    have hcalled : (layout fr.func).called ((layout fr.func).start + 4 * j + 1) = j := by
      unfold Layout.called
      omega
    have hcalled' : (layout fr.func).called ((layout fr.func).start + 4 * j + 2) = j + 1 := by
      unfold Layout.called
      omega
    have hdrop := List.drop_eq_getElem_cons hj
    rw [hget] at hdrop
    simp only [List.map_cons, List.sum_cons, Frame.left, pc, Int.toNat_natCast, hcalled, hcalled',
      hdrop] at hcallee ⊢
    omega
  | ret pc =>
    have := fr.left_pos layout p.functions.size pc le_rfl
    omega
  | @caught j child o found pc pos lt =>
    have hj := (List.getElem?_eq_some_iff.mp found).1
    have hforward : (layout fr.func).start + 4 * j + o < (layout fr.func).start + 4 * (j + 1) := by
      omega
    have := fr.left_forward layout p.functions.size pc hforward (by omega)
    simp only [List.map_cons, List.sum_cons]
    omega
  | @passed k j child c outer callers pc lt found waits =>
    subst callers
    have hj := (List.getElem?_eq_some_iff.mp found).1
    have hlastC := hlast c.func
    have hforward : (layout c.func).start + 4 * j + 2 < (layout c.func).start + 4 * (j + 1) := by
      omega
    have := c.left_forward layout p.functions.size waits hforward (by omega)
    simp only [List.map_cons, List.sum_cons]
    omega

/-- The instructions after which a fiber went on, as opposed to those it stopped at. -/
def goneOn (es : List Event) : Nat := es.countP fun e => e.stopped = none

theorem History.goneOn_le [Host H] {m : Machine H} {f g : Fiber} {es : List Event}
    (hm : m.Isolates layout) (hf : Reachable m f) (hh : History m f es g) :
    goneOn es ≤ left layout m.program.functions.size f.frames ∧
    (g.state.isTerminal = false → goneOn es + left layout m.program.functions.size g.frames ≤
      left layout m.program.functions.size f.frames) := by
  induction hh with
  | refl => exact ⟨Nat.zero_le _, fun _ => (Nat.zero_add _).le⟩
  | @next es g g' fr rest i s s' before live frames instr done ih =>
    have hg := before.reachable hf
    have hpasses := hg.isolates hm live frames instr s
    rw [done] at hpasses
    obtain ⟨fn, k, he⟩ := (hg.disciplined hm live).executes hm.rules frames instr
    have hlt := hpasses.2.left_lt hm.isolating he.func
    have hle := ih.2 live
    rw [frames] at hle
    have hcount : goneOn (es ++ [⟨rest.length + 1, ⟨fr.func, fr.pc⟩, i, none⟩]) = goneOn es + 1 := by
      simp [goneOn]
    rw [hcount]
    exact ⟨by omega, fun _ => by omega⟩
  | @stop es g g' fr rest i s s' status before live frames instr done ih =>
    have hisolates := (before.reachable hf).isolates hm live frames instr s
    rw [done] at hisolates
    have hcount : goneOn (es ++ [⟨rest.length + 1, ⟨fr.func, fr.pc⟩, i, some status⟩]) = goneOn es := by
      simp [goneOn]
    rw [hcount]
    refine ⟨ih.1, fun hlive => ?_⟩
    rcases hisolates with ⟨-, -, -, hsame, -⟩ | ⟨-, hstate, -⟩
    · rw [hsame, ← frames]
      exact ih.2 live
    · rw [hstate] at hlive
      cases hlive
  | fallOff before live frames found past =>
    exact absurd past ((before.reachable hf).not_past hm live frames found)
  | finish _ _ ih | cancel _ _ ih => exact ⟨ih.1, fun hlive => nomatch hlive⟩
  | resume _ live _ ih => exact ⟨ih.1, fun _ => ih.2 live⟩

/-! ## Compiled programs -/

/-- The functions of the children of a rule, in order. -/
def Program.childrenOf (p : Program) (func : Int) : List Int :=
  (p.rules.filter fun r => r.parent = func).map RuleInfo.func

/-- How the call of a rule on top of `rest` gets on when its rows are done. It calls its children in
turn and nothing else. As long as it is active, the fiber does not end by itself and can go on, unless
the machine breaks; when it has been left, it has called all of them and has returned. -/
structure CallsChildren [Host H] (m : Machine H) (func : Int) (rest : List Frame) (es : List Event)
    (h : Fiber) : Prop where
  sites : ∀ e ∈ es, e.depth = rest.length + 1 → e.site.func = func
  calls : callsAt (rest.length + 1) es <+: m.program.childrenOf func
  active : rest.length < h.frames.length → h.state ≠ .fault ∧ h.state ≠ .done ∧
    (h.state.isTerminal = false → ∃ fr outer i, h.frames = fr :: outer ∧
      Machine.instrAt m.program fr = .ok i ∧ ∀ s : Stage H, (step m fr i h s).Goes (m.Breaks s))
  left : h.frames.length ≤ rest.length →
    callsAt (rest.length + 1) es = m.program.childrenOf func ∧ Returned rest h

theorem Dealt.callsChildren [Host H] {m : Machine H} {func : Int} {rest : List Frame} {es : List Event}
    {h : Fiber} (hd : Dealt layout func rest es h)
    (hchildren : (layout func).children.map Int.ofNat = m.program.childrenOf func)
    (hgoes : h.state.isTerminal = false → ∀ fr outer, h.frames = fr :: outer →
      ∃ i, Machine.instrAt m.program fr = .ok i ∧ ∀ s : Stage H, (step m fr i h s).Goes (m.Breaks s)) :
    CallsChildren m func rest es h := by
  rcases hd.place with ⟨⟨k, hk⟩, hstate⟩ | ⟨hcalls, hreturned⟩
  · obtain ⟨above, c, hactive, -⟩ := hk.active
    have hlength : rest.length < h.frames.length := by
      rw [hactive, List.length_append, List.length_cons]
      omega
    refine ⟨hd.sites, ?_, fun _ => ⟨hstate.1, hstate.2, fun hlive => ?_⟩, fun hle => ?_⟩
    · rw [hk.calls, ← hchildren]
      exact (List.take_prefix _ _).map Int.ofNat
    · cases hframes : h.frames with
      | nil => simp [hframes] at hlength
      | cons fr outer =>
        obtain ⟨i, hi, hsteps⟩ := hgoes hlive fr outer hframes
        exact ⟨fr, outer, i, rfl, hi, hsteps⟩
    · omega
  · refine ⟨hd.sites, ?_, fun hlt => ?_, fun _ => ⟨by rw [hcalls, hchildren], hreturned⟩⟩
    · rw [hcalls, hchildren]
    · rw [hreturned.frames] at hlt
      omega

section

variable [Host H] {σ : Type} {env : CompileEnv σ} {d : BrainDef} {p : Program} {diags : Diagnostics}

omit [Host H] in
theorem isolates_of_compile (h : compile env d = .ok (p, diags)) (hiso : env.isolateChildren = true)
    (hsmall : p.Small) (svc : Services (Stage H)) (limits : Limits) (heap : Heap) :
    ∃ layout, (Machine.load p svc limits heap).1.Isolates layout ∧
      ∀ {func : Int} {fn : Function}, p.function? func = some fn →
        (layout func).children.map Int.ofNat = p.childrenOf func := by
  obtain ⟨layout, hl, hchildren⟩ := isolating_of_compile h hiso hsmall
  have hsize : ∀ fn ∈ p.functions, fn.code.size < 2 ^ 32 := by
    intro fn hfn
    have := hsmall.code fn hfn
    omega
  refine ⟨layout, ⟨ruleProgram_of_compile h hsize, hl, ?_⟩, hchildren⟩
  change (0 : Int) ≤ Limits.orElse limits.stack Limits.standard.stack
  unfold Limits.orElse
  split
  · decide
  · omega

/-- Let a program be compiled with isolated children. Whatever is asked of a scheduler, its fibers have
histories. In each of them a rule whose rows are done calls its children one after the other and
returns, whatever goes wrong in them, as long as the machine does not break; there is a bound on the
instructions it takes. A fiber ends in a fault only if the fault arises in the rows of the rule it was
started for. -/
theorem child_isolation (h : compile env d = .ok (p, diags)) (hiso : env.isolateChildren = true)
    (hsmall : p.Small) (svc : Services (Stage H)) (limits : Limits) (heap : Heap) (m : Machine H)
    (hm : m = (Machine.load p svc limits heap).1) :
    (∀ host ops s, Operation.performAll ops (.create p svc limits heap host) = .ok s → ∀ f ∈ s.live,
      (∃ func fn es, p.function? func = some fn ∧ History m (.start f.id func) es f) ∧
      ∀ ops' s', Operation.performAll ops' s = .ok s' →
        ∃ es g, History m f es g ∧ (g ∈ s'.live ∨ g.state.isTerminal = true)) ∧
    ∀ id func fn before f, p.function? func = some fn → History m (.start id func) before f →
      (f.state.isTerminal = false → ∀ fr rest i, f.frames = fr :: rest →
        Machine.instrAt p fr = .ok i → i.op? = some .doEnd →
        ∀ s : Stage H, ∃ g, step m fr i f s = .next g s ∧
          (∃ n, ∀ es h, History m g es h → goneOn es ≤ n) ∧
          ∀ es h, History m g es h → (∀ e ∈ es, rest.length < e.depth) →
            CallsChildren m fr.func rest es h) ∧
      (f.state = .fault → ∃ es e, before = es ++ [e] ∧ e.stopped = some .fault ∧ e.depth = 1 ∧
        e.site.func = func ∧ ∃ k j : Nat, e.site.pc = (k : Int) ∧ k < j ∧
          fn.code[j]? = some (.of .doEnd)) := by
  subst hm
  obtain ⟨layout, hm, hchildren⟩ := isolates_of_compile h hiso hsmall svc limits heap
  refine ⟨fun host ops s hops f hf => ?_, fun id func fn before f hfn hbefore => ⟨?_, fun hfault => ?_⟩⟩
  · have hlives := Scheduler.lives_of_performAll (Scheduler.numbered_create p svc limits heap host) hops
    refine ⟨?_, fun ops' s' hops' => ?_⟩
    · obtain ⟨x, es, hx, hnone | ⟨func, fn, hfn, rfl⟩⟩ := hlives.past f hf
      · cases hnone
      · exact ⟨func, fn, es, hfn, hx⟩
    · have hfuture := (Scheduler.lives_of_performAll hlives.numbered hops').future f hf
      rwa [hlives.machine] at hfuture
  · intro hlive fr rest i hframes hinstr hop s
    have hf := hbefore.reachable (.start id hfn)
    have hd := hf.disciplined hm hlive
    obtain ⟨hstart, v, hstack⟩ := hd.atDoEnd hm.rules hm.isolating hframes hinstr hop
    have hfr := hd.top fr rest hframes
    have hstep := step_doEnd (s := s) hop hfr.base hm.limit hstack
    have hg := hf.next hlive hframes hinstr hstep
    refine ⟨_, hstep, ⟨_, fun es h hh => (hh.goneOn_le hm hg).1⟩, fun es h' hh hinside => ?_⟩
    obtain ⟨fn', -, hfn', -⟩ := hfr.place
    have hdealing : Dealing layout fr.func rest [] (f.jump (fr.pc + 1)).frames
        (layout fr.func).start := by
      refine ⟨⟨[], { fr with pc := fr.pc + 1 }, ?_, rfl, hstart⟩, le_rfl, Nat.le_add_right _ _, ?_⟩
      · simp [Fiber.jump, hframes]
      · simp [Layout.called]
    have hcallable : ∀ child ∈ (layout fr.func).children, child < 2 ^ 31 := by
      intro child hchild
      exact Nat.lt_trans (hm.isolating.child hfn' hchild).2 hm.isolating.small
    have hlive' : (f.jump (fr.pc + 1)).state.isTerminal = false := by
      rwa [(f.sameRun_jump _).state]
    refine (hdealing.history hm hcallable hg hlive' hh hinside).callsChildren (hchildren hfn') ?_
    intro hlive fr outer hframes
    exact (hh.reachable hg).goes hm.rules (compile_check h) (Machine.size_constants_load ..) hlive hframes
  · obtain ⟨es, e, hlast, hstopped, hdepth, hfunc, k, hpc, hlt, hinstr, hop⟩ :=
      (hbefore.fault hm hfn).2 hfault
    have hend : fn.code[(layout func).start - 1]? = some (.of .doEnd) := by
      rw [← Array.getElem?_toList, hm.isolating.code hfn]
      exact (layout func).getElem?_doEnd
    refine ⟨es, e, hlast, hstopped, hdepth, hfunc, k, (layout func).start - 1, hpc, ?_, hend⟩
    by_contra hge
    obtain rfl : k = (layout func).start - 1 := by omega
    have hneg : ¬ (((layout func).start - 1 : Nat) : Int) < 0 := by omega
    have hat : Machine.instrAt p ⟨func, ((layout func).start - 1 : Nat), 0⟩ = .ok (.of .doEnd) := by
      simp only [Machine.instrAt, hfn, hneg, if_false, Int.toNat_natCast, hend]
    rw [Except.ok.inj (hinstr.symm.trans hat)] at hop
    exact hop (Instr.op?_of ..)

end

/-- After eleven instructions the first rule of `countingBrain` has done its rows. -/
theorem child_isolation_countingBrain :
    ∃ p diags, compile countingEnv countingBrain = .ok (p, diags) ∧ p.Small ∧ p.childrenOf 0 = [1] ∧
      ∃ (m : Machine Bench) (before : List Event) (f : Fiber) (fr : Frame) (i : Instr),
        m = (Machine.load p Core.services {} {}).1 ∧ History m (.start 1 0) before f ∧
        f.state.isTerminal = false ∧ f.frames = [fr] ∧ Machine.instrAt p fr = .ok i ∧
        i.op? = some .doEnd ∧ ∀ s : Stage Bench, ∃ g, step m fr i f s = .next g s ∧
          ∀ es h, History m g es h → (∀ e ∈ es, 0 < e.depth) → CallsChildren m fr.func [] es h := by
  have hran : (compile countingEnv countingBrain).toOption.any (fun r =>
      decide r.1.Small && (decide (r.1.childrenOf 0 = [1]) && ((r.1.function? 0).isSome &&
        ((Machine.load r.1 Core.services {} {}).1.runFor 11 (.start 1 0)
            ({ host := {} } : Stage Bench)).toOption.any fun x => !x.2.1.state.isTerminal &&
          x.2.1.frames.head?.any fun fr => (Machine.instrAt r.1 fr).toOption.any fun i =>
            decide (i.op? = some .doEnd) && decide (x.2.1.frames.length = 1)))) = true := by
    decide +kernel
  obtain ⟨⟨p, diags⟩, hc, hran⟩ := exists_of_any_toOption hran
  obtain ⟨hsmall, hran⟩ := Bool.and_eq_true_iff.mp hran
  obtain ⟨hchildren, hran⟩ := Bool.and_eq_true_iff.mp hran
  obtain ⟨hfn, hran⟩ := Bool.and_eq_true_iff.mp hran
  obtain ⟨fn, hfn⟩ := Option.isSome_iff_exists.mp hfn
  obtain ⟨before, f, fr, rest, i, hbefore, hlive, hframes, hi, htest⟩ :=
    exists_history_of_any (P := fun f i => decide (i.op? = some .doEnd) && decide (f.frames.length = 1))
      (fun _ => rfl) hran
  simp only [Bool.and_eq_true, decide_eq_true_eq, hframes, List.length_cons] at htest
  obtain ⟨hop, hlength⟩ := htest
  obtain rfl : rest = [] := List.eq_nil_of_length_eq_zero (by omega)
  refine ⟨p, diags, hc, of_decide_eq_true hsmall, of_decide_eq_true hchildren,
    (Machine.load p Core.services {} {}).1, before, f, fr, i, rfl, hbefore, hlive, hframes, hi, hop, fun s => ?_⟩
  obtain ⟨-, hall⟩ :=
    child_isolation (H := Bench) hc rfl (of_decide_eq_true hsmall) Core.services {} {} _ rfl
  obtain ⟨g, hstep, -, hcalls⟩ := (hall 1 0 fn before f hfn hbefore).1 hlive fr [] i hframes hi hop s
  exact ⟨g, hstep, hcalls⟩

def mapMaker : HostFunction (Stage Bench) :=
  { name := "make"
    sync := some fun _ _ s =>
      let (v, heap) := s.heap.newMap "map<unknown>"
      (.ok v, { s with heap := heap }) }

def mapMakingServices : Services (Stage Bench) :=
  let core : Services (Stage Bench) := Core.services
  { core with
    types := { core.types with types := core.types.types ++ [.map .unknown] }
    functions := { core.functions with list := core.functions.list.push mapMaker } }

def mapMakingEnv : CompileEnv (Stage Bench) :=
  { services := mapMakingServices
    catalog := (Catalog.addSensor {} mapMakingServices "make" "make" none "map<unknown>").toOption.getD {}
    isolateChildren := true }

/-- A rule makes a map. One child puts the map in itself, the next one adds a number to it, and there is
a third. -/
def selfishBrain : BrainDef :=
  { pages := [{ rules := [{ doRow := "$m = make", children := [
      { doRow := "$m.self = $m" }, { doRow := "$x = $m + 1" }, { doRow := "$y = 1" }] }] }] }

/-- What is wrong with the sum cannot be told, as the map would have to be shown. So the machine breaks
although children are isolated, and the third child is not called. -/
theorem child_breaks_machine :
    ∃ p diags, compile mapMakingEnv selfishBrain = .ok (p, diags) ∧ p.childrenOf 0 = [1, 2, 3] ∧
      Operation.performAll [.spawn 0, .tick] (.create p mapMakingServices {} {} ({} : Bench)) =
        .error (.fatal "op.add.number.number" "stack overflow") := by
  have hran : (compile mapMakingEnv selfishBrain).toOption.any (fun r =>
      decide (r.1.childrenOf 0 = ([1, 2, 3] : List Int)) &&
        match Operation.performAll [.spawn 0, .tick] (.create r.1 mapMakingServices {} {} ({} : Bench)) with
        | .error c => decide (c = .fatal "op.add.number.number" "stack overflow")
        | .ok _ => false) = true := by
    decide +kernel
  obtain ⟨⟨p, diags⟩, hp, hran⟩ := exists_of_any_toOption hran
  obtain ⟨hchildren, hran⟩ := Bool.and_eq_true_iff.mp hran
  refine ⟨p, diags, hp, of_decide_eq_true hchildren, ?_⟩
  split at hran
  · rename_i herror
    rw [herror, of_decide_eq_true hran]
  · cases hran

end TileMind
