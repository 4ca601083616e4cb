import TileMind.Code.Compile

/-!
# TileMind.Proofs.Code.Emission

Code without labels. Jumps are relative, so the code of an expression is the code of its parts put one
after the other. That is what an assembler makes of what was emitted: it has never a reason to refuse
anything, and resolves every label.

* `Row.code`, `ruleCode`: the code of an expression, and of a whole rule.
* `Assembler.Writes`: an assembler has gone on with some code.
* `compileRules_eq`: rules are compiled to this code.
-/

namespace TileMind

/-! ## Code without labels -/

def Generated.push (g : Generated) (s : Scalar) : List Instr × Generated :=
  let (i, g) := g.const (.scalar s)
  ([i], g)

/-- Evaluates the right operand only if the left one does not decide; what decides is kept. -/
def shortCircuitCode (op : Row.BinaryOp) (left right : List Instr) : List Instr :=
  left ++
    [.of .dup, .of (if op = .and then .jumpIfFalse else .jumpIfTrue) (right.length + 2), .of .pop] ++
    right

namespace Row

/-- The code of a node after `body`, given what is known of its type. A node of which nothing is known
is reported and becomes nil. -/
def typedCode (scope : RuleScope) (m : Mark) (g : Generated)
    (body : TypeInfo → Generated → List Instr × Generated) : List Instr × Generated :=
  match scope.types.get? m.id with
  | some info => body info g
  | none =>
    let d := Diagnostic.ofMark .missingTypeInfo .error scope.rule m
      ("no type information for node " ++ Decimal.digitString m.id)
    { g with diags := g.diags ++ [d] }.push .nil

/-- Code followed by the conversions of the node. -/
def converted (info : TypeInfo) (r : List Instr × Generated) : List Instr × Generated :=
  (r.1 ++ conversionCode info.conversion, r.2)

mutual

def code (scope : RuleScope) : Expr → Generated → List Instr × Generated
  | .literal m value, g => typedCode scope m g fun info g => converted info (g.push value)
  | .variable m name, g => typedCode scope m g fun info g =>
    let (id, g) := g.resolveVar scope.chain name
    converted info ([.of .loadVar id], g)
  | .field m object name, g => typedCode scope m g fun info g =>
    let (obj, g) := code scope object g
    let (key, g) := g.push (.string name)
    converted info (obj ++ key ++ [.of .getField], g)
  | .assign m (.variable _ name) value, g => typedCode scope m g fun info g =>
    let (val, g) := code scope value g
    let (id, g) := g.resolveVar scope.chain name
    (val ++ conversionCode info.conversion ++ [.of .dup, .of .storeVar id], g)
  | .assign m (.field _ object name) value, g => typedCode scope m g fun info g =>
    let (obj, g) := code scope object g
    let (key, g) := g.push (.string name)
    let (val, g) := code scope value g
    (obj ++ key ++ val ++ conversionCode info.conversion ++ [.of .setField], g)
  | .assign m _ _, g => typedCode scope m g fun _ g => g.push .nil
  | .binary m op left right, g => typedCode scope m g fun info g =>
    if op.isShortCircuit then
      let (l, g) := code scope left g
      let (r, g) := code scope right g
      converted info (shortCircuitCode op l r, g)
    else
      match info.overload with
      | none => converted info (g.push .nil)
      | some o =>
        let (l, g) := code scope left g
        let (r, g) := code scope right g
        converted info (l ++ r ++ overloadCode o 2, g)
  | .unary m _ operand, g => typedCode scope m g fun info g =>
    match info.overload with
    | none => converted info (g.push .nil)
    | some o =>
      let (x, g) := code scope operand g
      converted info (x ++ overloadCode o 1, g)
  | .parameter m _ value, g => typedCode scope m g fun info g =>
    converted info (code scope value g)
  | .modifier m _ count, g => typedCode scope m g fun info g =>
    converted info (g.push (.int count))
  | .call m tile args, g => typedCode scope m g fun info g =>
    let (slot, pool) := g.pool.add (.scalar (.string TypeId.args))
    let (bound, g) := argsCode scope args { g with pool := pool }
    let (site, g) := g.newSite tile.fn
    converted info (.of .mapNew slot :: bound ++ tileCallCode tile site, g)
  | .empty m, g => typedCode scope m g fun info g => converted info (g.push .void)
  | .error m _, g => typedCode scope m g fun info g => converted info (g.push .nil)
termination_by structural e => e

/-- The code that stores the bound slots of a call in the map on top of the stack. -/
def argsCode (scope : RuleScope) : Args → Generated → List Instr × Generated
  | .nil, g => ([], g)
  | .cons slot value rest, g =>
    let (key, g) := g.push (.int slot)
    let (val, g) := code scope value g
    let (more, g) := argsCode scope rest g
    (key ++ val ++ [.of .mapSet] ++ more, g)
termination_by structural args => args

end

end Row

/-- Calls of child rules. An isolated child cannot fail its parent. -/
def childrenCode (isolate : Bool) (children : List Nat) : List Instr :=
  children.flatMap fun (child : Nat) =>
    if isolate then [.of .try 4, .of .call child 0, .of .pop, .of .endTry]
    else [.of .call child 0, .of .pop]

/-- The code of a rule from that of its rows: the action and the children run if the condition
holds. -/
def ruleCode (cond action children : List Instr) : List Instr :=
  [.of .whenStart] ++ cond ++ [.of .whenEnd (action.length + children.length + 3), .of .doStart] ++
    action ++ [.of .doEnd] ++ children ++ [.of .ret]

/-! ## Assemblers -/

namespace Assembler

variable {places : Array (Option Nat)} {fs : List Fixup} {code done : Array Instr} {f : Fixup}

theorem size_patchAll (h : patchAll places fs code = (done, none)) : done.size = code.size := by
  induction fs generalizing code with
  | nil =>
    cases h
    rfl
  | cons f fs ih =>
    rw [patchAll, patch] at h
    cases hplace : places.getD f.label none with
    | none => simp [hplace] at h
    | some k =>
      simp only [hplace] at h
      rw [ih h, Array.size_modify]

theorem modify_push_of_lt {n : Nat} (hlt : n < code.size) (i : Instr) (g : Instr → Instr) :
    (code.push i).modify n g = (code.modify n g).push i := by
  apply Array.ext_getElem?
  intro j
  rw [Array.getElem?_modify, Array.getElem?_push, Array.getElem?_push, Array.getElem?_modify,
    Array.size_modify]
  by_cases hj : j = code.size
  · rw [if_pos hj, if_pos hj, if_neg (by omega)]
  · rw [if_neg hj, if_neg hj]

theorem modify_push_size (code : Array Instr) (i : Instr) (g : Instr → Instr) :
    (code.push i).modify code.size g = code.push (g i) := by
  apply Array.ext_getElem?
  intro j
  rw [Array.getElem?_modify, Array.getElem?_push, Array.getElem?_push]
  by_cases hj : j = code.size
  · rw [if_pos hj.symm, if_pos hj, if_pos hj]
    rfl
  · rw [if_neg (fun heq => hj heq.symm), if_neg hj, if_neg hj]

/-- What is added later is not touched by what had to be filled in before. -/
theorem patchAll_push (hwithin : ∀ f ∈ fs, f.index < code.size) (i : Instr)
    (h : patchAll places fs code = (done, none)) :
    patchAll places fs (code.push i) = (done.push i, none) := by
  induction fs generalizing code with
  | nil =>
    cases h
    rfl
  | cons f fs ih =>
    rw [patchAll, patch] at h ⊢
    cases hplace : places.getD f.label none with
    | none => simp [hplace] at h
    | some k =>
      simp only [hplace] at h ⊢
      rw [modify_push_of_lt (hwithin f List.mem_cons_self)]
      refine ih (fun x hx => ?_) h
      rw [Array.size_modify]
      exact hwithin x (List.mem_cons_of_mem f hx)

theorem patchAll_concat (h : patchAll places fs code = (done, none)) {k : Nat}
    (hplace : places[f.label]? = some (some k)) :
    patchAll places (fs ++ [f]) code = (done.modify f.index fun i =>
      i.setOperand f.operand (Int32.ofInt ((k : Int) - f.index)), none) := by
  induction fs generalizing code with
  | nil =>
    cases h
    simp [patchAll, patch, Array.getD_eq_getD_getElem?, hplace]
  | cons g fs ih =>
    rw [List.cons_append, patchAll]
    rw [patchAll] at h
    cases hpatch : patch places code g with
    | error e => simp [hpatch] at h
    | ok code' =>
      rw [hpatch] at h
      exact ih h

variable {s s' s'' : Assembler} {before first second : List Instr}

/-- With labels in these places, what was added so far becomes this code. -/
structure Resolves (places : Array (Option Nat)) (s : Assembler) (code : List Instr) : Prop where
  within : ∀ f ∈ s.fixups, f.index < s.code.size
  filled : patchAll places s.fixups s.code = (code.toArray, none)

theorem Resolves.size (h : s.Resolves places before) : s.code.size = before.length :=
  (size_patchAll h.filled).symm

/-- An assembler has gone on with some code: labels it had mean what they meant, and in the places of its
labels the code is appended. -/
structure Writes (s s' : Assembler) (code : List Instr) : Prop where
  isOpen : s'.isFinished = false
  kept : ∀ (l : Nat) x, s.labels[l]? = some x → s'.labels[l]? = some x
  appended : ∀ places : Array (Option Nat),
    (∀ (l : Nat) (k : Nat), s'.labels[l]? = some (some k) → places[l]? = some (some k)) →
    ∀ before, s.Resolves places before → s'.Resolves places (before ++ code)

theorem Writes.nil (h : s.isFinished = false) : s.Writes s [] :=
  ⟨h, fun _ _ h => h, fun _ _ before h => by rwa [List.append_nil]⟩

theorem Writes.append (h : s.Writes s' first) (h' : s'.Writes s'' second) :
    s.Writes s'' (first ++ second) := by
  refine ⟨h'.isOpen, fun l x hl => h'.kept l x (h.kept l x hl), fun places hplaces before hbefore => ?_⟩
  rw [← List.append_assoc]
  exact h'.appended places hplaces _
    (h.appended places (fun l k hl => hplaces l k (h'.kept l _ hl)) before hbefore)

theorem writes_emit (h : s.isFinished = false) (i : Instr) :
    s.emit i = .ok (s.code.size, { s with code := s.code.push i }) ∧
      s.Writes { s with code := s.code.push i } [i] := by
  refine ⟨by rw [emit, h]; rfl, h, fun _ _ h => h, fun places _ before hbefore => ⟨fun f hf => ?_, ?_⟩⟩
  · rw [Array.size_push]
    exact Nat.lt_succ_of_lt (hbefore.within f hf)
  · rw [patchAll_push hbefore.within i hbefore.filled]
    simp

/-- A label that is bound once what lies before it is written. -/
def Awaits (s : Assembler) (l : Nat) : Prop := s.labels[l]? = some none

theorem awaits_newLabel (s : Assembler) : s.newLabel.2.Awaits s.labels.size := by
  simp [Awaits, newLabel]

theorem Writes.awaits (h : s.Writes s' first) {l : Nat} (hl : s.Awaits l) : s'.Awaits l := h.kept l none hl

def jumped (s : Assembler) (op : Op) (l : Nat) : Assembler :=
  { s with code := s.code.push { code := op.byte }, fixups := s.fixups ++ [⟨s.code.size, l, .a⟩] }

theorem emitJump_eq (h : s.isFinished = false) (op : Op) {l : Nat} (hl : s.Awaits l) :
    s.emitJump op.byte l .a = .ok (s.code.size, s.jumped op l) := by
  have hlabel : s.label? l = some none := by
    rw [label?, if_neg (by omega), Int.toNat_natCast]
    exact hl
  rw [emitJump, if_neg (by simp [h]), hlabel]
  rfl

theorem Resolves.jumped (h : s.Resolves places before) (op : Op) {l k : Nat}
    (hplace : places[l]? = some (some k)) :
    (s.jumped op l).Resolves places (before ++ [.of op ((k : Int) - before.length)]) := by
  refine ⟨fun f hf => ?_, ?_⟩
  · rw [Assembler.jumped, Array.size_push]
    rcases List.mem_append.mp hf with hf | hf
    · exact Nat.lt_succ_of_lt (h.within f hf)
    · rw [List.mem_singleton.mp hf]
      exact Nat.lt_succ_self _
  · have hsize : before.toArray.size = s.code.size := size_patchAll h.filled
    rw [Assembler.jumped, patchAll_concat (patchAll_push h.within _ h.filled) hplace]
    rw [← hsize, modify_push_size, List.size_toArray, List.push_toArray]
    rfl

def bound (s : Assembler) (l : Nat) : Assembler :=
  { s with labels := s.labels.setIfInBounds l (some s.code.size) }

theorem bind_eq {l : Nat} (hl : s.Awaits l) : s.bind l = .ok (s.bound l) := by
  have hlabel : s.label? l = some none := by
    rw [label?, if_neg (by omega), Int.toNat_natCast]
    exact hl
  rw [bind, hlabel]
  rfl

theorem finish_of_writes (h : Writes {} s first) : s.finish.1 = .ok first.toArray := by
  have hfilled := (h.appended s.labels (fun _ _ h => h) [] ⟨by simp, rfl⟩).filled
  rw [finish, h.isOpen]
  simp only [Bool.false_eq_true, if_false, hfilled, List.nil_append]

end Assembler

/-! ## What is emitted -/

namespace Emit

variable {α : Type} {m n : Emit Unit} {f k : Generated → List Instr × Generated} {s : Emission}

/-- A step emits this code and leaves this behind, whatever was emitted before. -/
def Writes (m : Emit Unit) (f : Generated → List Instr × Generated) : Prop :=
  ∀ s : Emission, s.assembler.isFinished = false → ∃ a,
    m.run s = .ok ((), { assembler := a, generated := (f s.generated).2 }) ∧
      s.assembler.Writes a (f s.generated).1

theorem run_bind_ok {m : Emit α} {n : α → Emit Unit} {x : α} {s' : Emission}
    (h : m.run s = .ok (x, s')) : (m >>= n).run s = (n x).run s' := by
  rw [StateT.run_bind, h]
  rfl

theorem Writes.congr (h : m.Writes f) (heq : ∀ g, f g = k g) : m.Writes k := funext heq ▸ h

theorem writes_pure : Writes (pure ()) fun g => ([], g) := fun s hs => ⟨s.assembler, rfl, .nil hs⟩

theorem Writes.bind (hm : m.Writes f) (hn : n.Writes k) :
    Writes (m >>= fun _ => n) fun g => ((f g).1 ++ (k (f g).2).1, (k (f g).2).2) := by
  intro s hs
  obtain ⟨a, hrun, hwrites⟩ := hm s hs
  obtain ⟨a', hrun', hwrites'⟩ := hn { assembler := a, generated := (f s.generated).2 } hwrites.isOpen
  exact ⟨a', (run_bind_ok hrun).trans hrun', hwrites.append hwrites'⟩

theorem Writes.generate (add : Generated → α × Generated) {n : α → Emit Unit}
    {k : α → Generated → List Instr × Generated} (h : ∀ x, (n x).Writes (k x)) :
    Writes (generate add >>= n) fun g => k (add g).1 (add g).2 := by
  intro s hs
  obtain ⟨a, hrun, hwrites⟩ := h (add s.generated).1 { s with generated := (add s.generated).2 } hs
  have hadd : (Emit.generate add).run s =
      .ok ((add s.generated).1, { s with generated := (add s.generated).2 }) := rfl
  exact ⟨a, (run_bind_ok hadd).trans hrun, hwrites⟩

theorem run_instr (hs : s.assembler.isFinished = false) (i : Instr) :
    (instr i).run s =
      .ok ((), { s with assembler := { s.assembler with code := s.assembler.code.push i } }) := by
  have hemit := (s.assembler.writes_emit hs i).1
  simp [instr, assemble, StateT.run, hemit, Except.map]

theorem writes_instr (i : Instr) : (instr i).Writes fun g => ([i], g) := fun _ hs =>
  ⟨_, run_instr hs i, (Assembler.writes_emit hs i).2⟩

theorem writes_instrs (is : List Instr) : (instrs is).Writes fun g => (is, g) := by
  induction is with
  | nil => exact writes_pure
  | cons i is ih => exact (writes_instr i).bind ih

theorem writes_push (v : Scalar) : (push v).Writes fun g => g.push v :=
  .generate _ fun i => writes_instr i

theorem run_label : label.run s = .ok (s.assembler.labels.size, { s with assembler := s.assembler.newLabel.2 }) :=
  rfl

theorem run_jump (hs : s.assembler.isFinished = false) (op : Op) {l : Nat} (hl : s.assembler.Awaits l) :
    (jump op l).run s = .ok ((), { s with assembler := s.assembler.jumped op l }) := by
  have hemit := Assembler.emitJump_eq hs op hl
  simp [jump, assemble, StateT.run, hemit, Except.map]

theorem run_mark {l : Nat} (hl : s.assembler.Awaits l) :
    (mark l).run s = .ok ((), { s with assembler := s.assembler.bound l }) := by
  have hbind := Assembler.bind_eq hl
  simp [mark, assemble, StateT.run, hbind, Except.map]

/-- Code that jumps over its second part: the jump goes to what comes next. -/
theorem writes_jumpOver (op : Op) (hm : m.Writes f) (hn : n.Writes k) :
    (jumpOver op m n).Writes fun g =>
      ((f g).1 ++ [.of op ((k (f g).2).1.length + 1)] ++ (k (f g).2).1, (k (f g).2).2) := by
  intro s hs
  have hnew := s.assembler.awaits_newLabel
  generalize hl : s.assembler.labels.size = l at hnew
  obtain ⟨a, hrun, hfirst⟩ := hm { s with assembler := s.assembler.newLabel.2 } hs
  obtain ⟨a', hrun', hsecond⟩ := hn { assembler := a.jumped op l, generated := (f s.generated).2 } hfirst.isOpen
  have hwaits := hfirst.awaits hnew
  have hwaits' : a'.Awaits l := hsecond.awaits hwaits
  refine ⟨a'.bound l, ?_, hsecond.isOpen, fun i x hi => ?_, fun places hplaces before hbefore => ?_⟩
  · rw [jumpOver, run_bind_ok run_label, run_bind_ok hrun, hl, run_bind_ok (run_jump hfirst.isOpen op hwaits),
      run_bind_ok hrun']
    exact run_mark hwaits'
  · have hlt : i < l := hl ▸ (Array.getElem?_eq_some_iff.mp hi).1
    have hkept : a'.labels[i]? = some x := by
      refine hsecond.kept i x (hfirst.kept i x ?_)
      rw [Assembler.newLabel, Array.getElem?_push, if_neg (by omega)]
      exact hi
    rw [Assembler.bound, Array.getElem?_setIfInBounds, if_neg (by omega)]
    exact hkept
  · have hlt : l < a'.labels.size := (Array.getElem?_eq_some_iff.mp hwaits').1
    have hplace : places[l]? = some (some a'.code.size) := by
      apply hplaces
      rw [Assembler.bound, Array.getElem?_setIfInBounds, if_pos rfl, if_pos hlt]
    have hknown : ∀ (i : Nat) (j : Nat), a'.labels[i]? = some (some j) → places[i]? = some (some j) := by
      intro i j hi
      apply hplaces
      have hne : l ≠ i := by
        rintro rfl
        rw [hwaits'] at hi
        cases hi
      rw [Assembler.bound, Array.getElem?_setIfInBounds, if_neg hne]
      exact hi
    have hjumped := (hfirst.appended places (fun i j hi => hknown i j (hsecond.kept i _ hi)) before
      ⟨hbefore.within, hbefore.filled⟩).jumped op hplace
    have hdone := hsecond.appended places hknown _ hjumped
    have hdistance : (a'.code.size : Int) - ((before ++ (f s.generated).1).length : Nat) =
        ((k (f s.generated).2).1.length + 1 : Int) := by
      rw [hdone.size]
      simp only [List.length_append, List.length_cons, List.length_nil]
      omega
    rw [hdistance] at hdone
    rw [← List.append_assoc, ← List.append_assoc]
    exact ⟨hdone.within, hdone.filled⟩

theorem writes_shortCircuit (op : Row.BinaryOp) (hm : m.Writes f) (hn : n.Writes k) :
    (shortCircuit op m n).Writes fun g =>
      (shortCircuitCode op (f g).1 (k (f g).2).1, (k (f g).2).2) := by
  refine (writes_jumpOver _ (hm.bind (writes_instr (.of .dup))) ((writes_instr (.of .pop)).bind hn)).congr fun g => ?_
  simp [shortCircuitCode, Int.add_assoc]

end Emit

namespace Row

open Emit

variable {scope : RuleScope} {m : Mark}

theorem writes_emitTyped {body : TypeInfo → Emit Unit} {f : TypeInfo → Generated → List Instr × Generated}
    (h : ∀ info, (body info).Writes (f info)) :
    (emitTyped scope m body).Writes fun g => typedCode scope m g f := by
  unfold emitTyped typedCode
  cases scope.types.get? m.id with
  | none => exact .generate _ fun _ => writes_push .nil
  | some info => exact h info

theorem writes_emitConverted {body : TypeInfo → Emit Unit} {f : TypeInfo → Generated → List Instr × Generated}
    (h : ∀ info, (body info).Writes (f info)) :
    (emitConverted scope m body).Writes fun g => typedCode scope m g fun info g => converted info (f info g) :=
  writes_emitTyped fun info => (h info).bind (writes_instrs (conversionCode info.conversion))

/-- The use of a variable that is resolved first. -/
theorem writes_resolved (chain : Chain) (name : String) (op : Op) :
    Writes (do
      let id ← generate fun g => g.resolveVar chain name
      instr (.of op id)) fun g =>
        ([.of op (g.resolveVar chain name).1], (g.resolveVar chain name).2) :=
  Writes.generate (fun g => g.resolveVar chain name) (k := fun id g => ([.of op id], g))
    fun id => writes_instr (.of op id)

/-- The call of a tile: its map, its arguments, and the call with a fresh number. -/
theorem writes_tileCall (tile : Tile) {args : Emit Unit} {f : Generated → List Instr × Generated}
    (h : args.Writes f) :
    Writes (do
      let map ← generate fun g =>
        let (slot, pool) := g.pool.add (.scalar (.string TypeId.args))
        (slot, { g with pool := pool })
      instr (.of .mapNew map)
      args
      let site ← generate fun g => g.newSite tile.fn
      instrs (tileCallCode tile site)) fun g =>
        let (slot, pool) := g.pool.add (.scalar (.string TypeId.args))
        let (bound, g) := f { g with pool := pool }
        let (site, g) := g.newSite tile.fn
        (.of .mapNew slot :: bound ++ tileCallCode tile site, g) := by
  have hsite : Writes (do
      let site ← generate fun g => g.newSite tile.fn
      instrs (tileCallCode tile site)) fun g =>
        (tileCallCode tile (g.newSite tile.fn).1, (g.newSite tile.fn).2) :=
    Writes.generate (fun g => g.newSite tile.fn) (k := fun site g => (tileCallCode tile site, g))
      fun site => writes_instrs (tileCallCode tile site)
  refine Writes.generate (fun g =>
      let (slot, pool) := g.pool.add (.scalar (.string TypeId.args))
      (slot, { g with pool := pool }))
    (k := fun map g =>
      let (bound, g) := f g
      let (site, g) := g.newSite tile.fn
      (.of .mapNew map :: bound ++ tileCallCode tile site, g)) fun map => ?_
  refine ((writes_instr (.of .mapNew map)).bind (h.bind hsite)).congr fun g => ?_
  simp

mutual

/-- What is emitted for an expression is its code. -/
theorem writes_emit (scope : RuleScope) : ∀ e, (emit scope e).Writes (code scope e)
  | .literal m value => by
    rw [emit]
    exact writes_emitConverted fun _ => writes_push value
  | .variable m name => by
    rw [emit]
    exact writes_emitConverted fun _ => writes_resolved scope.chain name .loadVar
  | .field m object name => by
    rw [emit]
    have hparts := (writes_emit scope object).bind
      ((writes_push (.string name)).bind (writes_instr (.of .getField)))
    refine (writes_emitConverted fun _ => hparts).congr fun g => ?_
    simp only [code, List.append_assoc]
  | .assign m (.variable _ name) value => by
    rw [emit]
    have hparts (info : TypeInfo) := (writes_emit scope value).bind
      ((writes_instrs (conversionCode info.conversion)).bind ((writes_instr (.of .dup)).bind
        (writes_resolved scope.chain name .storeVar)))
    refine (writes_emitTyped hparts).congr fun g => ?_
    simp only [code, List.append_assoc, List.singleton_append]
  | .assign m (.field _ object name) value => by
    rw [emit]
    have hparts (info : TypeInfo) := (writes_emit scope object).bind ((writes_push (.string name)).bind
      ((writes_emit scope value).bind ((writes_instrs (conversionCode info.conversion)).bind
        (writes_instr (.of .setField)))))
    refine (writes_emitTyped hparts).congr fun g => ?_
    simp only [code, List.append_assoc]
  | .assign m (.literal _ _) _ | .assign m (.unary _ _ _) _ | .assign m (.binary _ _ _ _) _
  | .assign m (.assign _ _ _) _ | .assign m (.parameter _ _ _) _ | .assign m (.modifier _ _ _) _
  | .assign m (.call _ _ _) _ | .assign m (.empty _) _ | .assign m (.error _ _) _ => by
    simp only [emit]
    refine (writes_emitTyped fun _ => writes_push .nil).congr fun g => ?_
    simp only [code]
  | .binary m op left right => by
    rw [emit]
    have hleft := writes_emit scope left
    have hright := writes_emit scope right
    have hparts (info : TypeInfo) : Writes
        (if op.isShortCircuit then shortCircuit op (emit scope left) (emit scope right)
        else
          match info.overload with
          | none => push .nil
          | some o => do
            emit scope left
            emit scope right
            instrs (overloadCode o 2)) fun g =>
        if op.isShortCircuit then
          (shortCircuitCode op (code scope left g).1 (code scope right (code scope left g).2).1,
            (code scope right (code scope left g).2).2)
        else
          match info.overload with
          | none => g.push .nil
          | some o => ((code scope left g).1 ++ ((code scope right (code scope left g).2).1 ++ overloadCode o 2),
              (code scope right (code scope left g).2).2) := by
      split
      · exact writes_shortCircuit op hleft hright
      · cases info.overload with
        | none => exact writes_push .nil
        | some o => exact hleft.bind (hright.bind (writes_instrs (overloadCode o 2)))
    refine (writes_emitConverted hparts).congr fun g => ?_
    rw [code]
    congr 1
    funext info g
    split
    · rfl
    · cases info.overload with
      | none => rfl
      | some o => simp only [List.append_assoc]
  | .unary m op operand => by
    rw [emit]
    have hoperand := writes_emit scope operand
    have hparts (info : TypeInfo) : Writes
        (match info.overload with
        | none => push .nil
        | some o => do
          emit scope operand
          instrs (overloadCode o 1)) fun g =>
        match info.overload with
        | none => g.push .nil
        | some o => ((code scope operand g).1 ++ overloadCode o 1, (code scope operand g).2) := by
      cases info.overload with
      | none => exact writes_push .nil
      | some o => exact hoperand.bind (writes_instrs (overloadCode o 1))
    refine (writes_emitConverted hparts).congr fun g => ?_
    rw [code]
    congr 1
    funext info g
    cases info.overload <;> rfl
  | .parameter m _ value => by
    rw [emit]
    exact writes_emitConverted fun _ => writes_emit scope value
  | .modifier m _ count => by
    rw [emit]
    exact writes_emitConverted fun _ => writes_push (.int count)
  | .call m tile args => by
    rw [emit]
    exact writes_emitConverted fun _ => writes_tileCall tile (writes_emitArgs scope args)
  | .empty m => by
    rw [emit]
    exact writes_emitConverted fun _ => writes_push .void
  | .error m _ => by
    rw [emit]
    exact writes_emitConverted fun _ => writes_push .nil
termination_by structural e => e

theorem writes_emitArgs (scope : RuleScope) : ∀ args, (emitArgs scope args).Writes (argsCode scope args)
  | .nil => by
    rw [emitArgs]
    exact writes_pure
  | .cons slot value rest => by
    rw [emitArgs]
    refine ((writes_push (.int slot)).bind ((writes_emit scope value).bind
      ((writes_instr (.of .mapSet)).bind (writes_emitArgs scope rest)))).congr fun g => ?_
    simp only [argsCode, List.append_assoc]
termination_by structural args => args

end

end Row

/-! ## Rules -/

open Emit

theorem writes_emitChildren (isolate : Bool) (children : List Nat) :
    (emitChildren isolate children).Writes fun g => (childrenCode isolate children, g) := by
  induction children with
  | nil => exact writes_pure
  | cons child rest ih =>
    have hchild : (emitChild isolate child).Writes fun g =>
        (if isolate then [.of .try 4, .of .call child 0, .of .pop, .of .endTry]
          else [.of .call child 0, .of .pop], g) := by
      cases isolate with
      | true => exact writes_jumpOver .try writes_pure (writes_instrs _)
      | false => exact writes_instrs _
    exact hchild.bind ih

/-- What is emitted for a rule is its code. -/
theorem writes_emitRule {cond action : Emit Unit} {f k : Generated → List Instr × Generated}
    (hcond : cond.Writes f) (haction : action.Writes k) (isolate : Bool) (children : List Nat) :
    (emitRule cond action (emitChildren isolate children)).Writes fun g =>
      (ruleCode (f g).1 (k (f g).2).1 (childrenCode isolate children), (k (f g).2).2) := by
  have hfirst := (writes_instr (.of .whenStart)).bind hcond
  have hsecond := (writes_instr (.of .doStart)).bind
    (haction.bind ((writes_instr (.of .doEnd)).bind (writes_emitChildren isolate children)))
  refine ((writes_jumpOver .whenEnd hfirst hsecond).bind (writes_instr (.of .ret))).congr fun g => ?_
  have hdistance (a c : Int) : a + (c + 1) + 1 + 1 = a + c + 3 := by omega
  simp [ruleCode, hdistance]

section

variable {σ : Type} (env : CompileEnv σ)

def resolvedRule (job : RuleJob) (p : Progress) : Function × Progress :=
  let (cond, action, types, p) := readRule env job p
  let scope : RuleScope := ⟨types, job.chain, job.path⟩
  let g := p.generated
  let (condCode, g) := if cond.isEmpty then g.push (.bool true) else Row.code scope cond g
  let (actionCode, g) := Row.code scope action g
  let code := (ruleCode condCode actionCode (childrenCode env.isolateChildren job.children)).toArray
  ({ name := job.path, code := code, maxStack := maxStackDepth code },
    { p with generated := g })

/-- Rules as they are compiled in turn by `one`, and the page of each call site. -/
def resolveEach (one : RuleJob → Progress → Function × Progress) :
    List RuleJob → Progress → List Function × List (Nat × CallSite) × Progress
  | [], p => ([], [], p)
  | job :: rest, p =>
    let (f, p) := one job { p with generated := { p.generated with sites := [] } }
    let sites := p.generated.sites.map fun site => (job.page, site)
    let (fs, more, p) := resolveEach one rest p
    (f :: fs, sites ++ more, p)

/-- An assembler that is given the code of a rule refuses nothing. -/
theorem assembleRule_of_writes {body : Emit Unit} {f : Generated → List Instr × Generated} (h : body.Writes f)
    (g : Generated) : assembleRule body g = .ok ((f g).1.toArray, (f g).2) := by
  obtain ⟨a, hrun, hwrites⟩ := h { generated := g } rfl
  rw [assembleRule, hrun]
  simp only [bind, Except.bind, Assembler.finish_of_writes hwrites]
  rfl

theorem compileRule_eq (job : RuleJob) (p : Progress) :
    compileRule env job p = .ok (resolvedRule env job p) := by
  unfold compileRule resolvedRule
  generalize readRule env job p = rows
  obtain ⟨cond, action, types, q⟩ := rows
  dsimp only
  have hcond : Writes (if cond.isEmpty then Emit.push (.bool true)
      else Row.emit ⟨types, job.chain, job.path⟩ cond) fun g =>
        if cond.isEmpty then g.push (.bool true) else Row.code ⟨types, job.chain, job.path⟩ cond g := by
    split
    · exact writes_push (.bool true)
    · exact Row.writes_emit _ cond
  rw [assembleRule_of_writes
    (writes_emitRule hcond (Row.writes_emit _ action) env.isolateChildren job.children)]

/-- Compiling rules does not fail. -/
theorem compileRules_eq (jobs : List RuleJob) (p : Progress) :
    compileRules env jobs p = .ok (resolveEach (resolvedRule env) jobs p) := by
  induction jobs generalizing p with
  | nil => rfl
  | cons job rest ih =>
    rw [compileRules, resolveEach, compileRule_eq]
    generalize resolvedRule env job _ = r
    obtain ⟨fn, q⟩ := r
    dsimp only [bind, Except.bind]
    rw [ih]
    rfl

end

end TileMind
