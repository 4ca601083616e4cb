import TileMind.Proofs.Code.Shape

/-!
# TileMind.Proofs.Code.Layout

Where things are in the code of a rule whose children are isolated. The rows of the rule come first;
then each child has four instructions, which open a `try` region, call the child, drop its result and
close the region; a return is last.

* `Layout.spot_of_getElem?`: what an instruction is, by its place.
* `isolating_of_compile`: the functions of a program compiled with isolated children have such
  layouts.
-/

namespace TileMind

theorem getElem?_append_cases {α : Type} {front rest : List α} {k : Nat} {x : α}
    (h : (front ++ rest)[k]? = some x) :
    k < front.length ∧ front[k]? = some x ∨ ∃ j, k = front.length + j ∧ rest[j]? = some x := by
  by_cases hk : k < front.length
  · exact .inl ⟨hk, by rwa [List.getElem?_append_left hk] at h⟩
  · rw [List.getElem?_append_right (by omega)] at h
    exact .inr ⟨k - front.length, by omega, h⟩

theorem getElem?_singleton_cases {α : Type} {x y : α} {k : Nat} (h : [x][k]? = some y) :
    k = 0 ∧ y = x := by
  cases k with
  | zero => exact ⟨rfl, by simpa using h.symm⟩
  | succ k => simp at h

/-- The parts of the code of a rule. -/
structure Layout where
  cond : List Instr
  action : List Instr
  children : List Nat
deriving Inhabited

namespace Layout

def code (l : Layout) : List Instr := ruleCode l.cond l.action (childrenCode true l.children)

def start (l : Layout) : Nat := l.cond.length + l.action.length + 4

def last (l : Layout) : Nat := l.start + 4 * l.children.length

/-- Rows whose code is as it is generated. -/
structure Sound (l : Layout) : Prop where
  cond : Adds l.cond 0 1
  action : Adds l.action 0 1
  condRow : ∀ i ∈ l.cond, ∃ op, i.op? = some op ∧ op.inRow = true
  actionRow : ∀ i ∈ l.action, ∃ op, i.op? = some op ∧ op.inRow = true
  small : l.last < 2 ^ 31

/-- The opcodes that the rows of a rule are made of, with the marks around them. -/
def isOwn : Op → Bool
  | .whenStart | .whenEnd | .doStart | .doEnd => true
  | op => op.inRow

/-- An instruction of the rows of a rule: a jump stays in the rows or skips the children. -/
structure Own (l : Layout) (k : Nat) (i : Instr) : Prop where
  lt : k < l.start
  op : ∃ op, i.op? = some op ∧ isOwn op = true
  jump : i.isJump = true → ∃ d : Nat, 0 < d ∧ i.a.toInt = d ∧ (k + d < l.start ∨ k + d = l.last)
  doEnd : i.op? = some .doEnd → k + 1 = l.start

/-- What stands at a place of the code. -/
inductive Spot (l : Layout) : Nat → Instr → Prop where
  | own {k : Nat} {i : Instr} (h : l.Own k i) : Spot l k i
  | enter {j child : Nat} (h : l.children[j]? = some child) : Spot l (l.start + 4 * j) (.of .try 4)
  | call {j child : Nat} (h : l.children[j]? = some child) :
    Spot l (l.start + 4 * j + 1) (.of .call child 0)
  | drop {j child : Nat} (h : l.children[j]? = some child) : Spot l (l.start + 4 * j + 2) (.of .pop)
  | leave {j child : Nat} (h : l.children[j]? = some child) :
    Spot l (l.start + 4 * j + 3) (.of .endTry)
  | ret : Spot l l.last (.of .ret)

theorem length_childrenCode (children : List Nat) :
    (childrenCode true children).length = 4 * children.length := by
  induction children with
  | nil => rfl
  | cons child children ih =>
    have hcons : childrenCode true (child :: children) =
        [Instr.of .try 4, .of .call child 0, .of .pop, .of .endTry] ++ childrenCode true children := rfl
    rw [hcons, List.length_append, ih]
    simp only [List.length_cons, List.length_nil]
    omega

theorem getElem?_childrenCode {children : List Nat} {k : Nat} {i : Instr}
    (h : (childrenCode true children)[k]? = some i) :
    ∃ j child : Nat, children[j]? = some child ∧
      (k = 4 * j ∧ i = .of .try 4 ∨ k = 4 * j + 1 ∧ i = .of .call child 0 ∨
        k = 4 * j + 2 ∧ i = .of .pop ∨ k = 4 * j + 3 ∧ i = .of .endTry) := by
  induction children generalizing k with
  | nil => simp [childrenCode] at h
  | cons child children ih =>
    have hcons : childrenCode true (child :: children) =
        [Instr.of .try 4, .of .call child 0, .of .pop, .of .endTry] ++ childrenCode true children := rfl
    rw [hcons] at h
    rcases getElem?_append_cases h with ⟨hk, hfirst⟩ | ⟨j, rfl, hrest⟩
    · refine ⟨0, child, rfl, ?_⟩
      simp only [List.length_cons, List.length_nil] at hk
      have hk4 : k = 0 ∨ k = 1 ∨ k = 2 ∨ k = 3 := by omega
      rcases hk4 with rfl | rfl | rfl | rfl <;> simp at hfirst <;> simp [hfirst]
    · obtain ⟨n, c, hc, hcases⟩ := ih hrest
      refine ⟨n + 1, c, hc, ?_⟩
      simp only [List.length_cons, List.length_nil]
      rcases hcases with ⟨rfl, rfl⟩ | ⟨rfl, rfl⟩ | ⟨rfl, rfl⟩ | ⟨rfl, rfl⟩
      · exact .inl ⟨by omega, rfl⟩
      · exact .inr (.inl ⟨by omega, rfl⟩)
      · exact .inr (.inr (.inl ⟨by omega, rfl⟩))
      · exact .inr (.inr (.inr ⟨by omega, rfl⟩))

theorem length_code (l : Layout) : l.code.length = l.last + 1 := by
  simp only [code, ruleCode, List.length_append, List.length_cons, List.length_nil,
    length_childrenCode, last, start]
  omega

/-- The rows with their marks. -/
def marked (l : Layout) : List Instr :=
  [.of .whenStart] ++ l.cond ++
    [.of .whenEnd (l.action.length + (childrenCode true l.children).length + 3), .of .doStart] ++ l.action

theorem length_marked (l : Layout) : l.marked.length + 1 = l.start := by
  simp only [marked, List.length_append, List.length_cons, List.length_nil, start]
  omega

theorem code_eq (l : Layout) :
    l.code = l.marked ++ Instr.of .doEnd :: (childrenCode true l.children ++ [Instr.of .ret]) := by
  simp [code, ruleCode, marked]

theorem getElem?_doEnd (l : Layout) : l.code[l.start - 1]? = some (.of .doEnd) := by
  rw [← l.length_marked, code_eq, Nat.add_sub_cancel, List.getElem?_append_right le_rfl, Nat.sub_self]
  rfl

/-- The rows leave nothing on the stack. -/
theorem heightAt_start {l : Layout} (hl : l.Sound) : heightAt l.code l.start = 0 := by
  rw [← l.length_marked, code_eq, heightAt_append_right, marked]
  simp [hl.cond.net, hl.action.net, Instr.effect, Instr.pops, Op.pops, Op.pushes]

theorem isOwn_of_inRow {op : Op} (h : op.inRow = true) : isOwn op = true ∧ op ≠ .doEnd := by
  cases op <;> first | (cases h; done) | exact ⟨rfl, by simp⟩

/-- An instruction of a row, which stands behind `before` others and has the rest of the row after
it. -/
theorem own_of_row {l : Layout} (hl : l.Sound) {row : List Instr} (hadds : Adds row 0 1)
    (hrow : ∀ i ∈ row, ∃ op, i.op? = some op ∧ op.inRow = true) {before k : Nat} {i : Instr}
    {n : Nat} (hn : n = before + k) (hbefore : before + row.length < l.start)
    (hi : row[k]? = some i) : l.Own n i := by
  obtain ⟨op, hop, hin⟩ := hrow i (List.mem_of_getElem? hi)
  obtain ⟨hown, hne⟩ := isOwn_of_inRow hin
  have hk := (List.getElem?_eq_some_iff.mp hi).1
  have hsmall := hl.small
  have hlast : l.start ≤ l.last := Nat.le_add_right _ _
  refine ⟨by omega, ⟨op, hop, hown⟩, fun hj => ?_, fun hdo => ?_⟩
  · obtain ⟨d, hd, ha, hle, -⟩ := (hadds.balanced k i hi).jump hj
    exact ⟨d, hd, by rw [ha, toInt_ofInt_of_lt (by omega)], .inl (by omega)⟩
  · rw [hop, Option.some.injEq] at hdo
    exact absurd hdo hne

theorem own_of_mark {l : Layout} {op : Op} {k : Nat} (hk : k < l.start)
    (hop : op = .whenStart ∨ op = .doStart ∨ op = .doEnd ∧ k + 1 = l.start) : l.Own k (.of op) := by
  refine ⟨hk, ⟨op, Instr.op?_of op 0 0 0, ?_⟩, fun hj => ?_, fun hdo => ?_⟩
  · rcases hop with rfl | rfl | ⟨rfl, -⟩ <;> rfl
  · rcases hop with rfl | rfl | ⟨rfl, -⟩ <;> simp [Op.isJump] at hj
  · rcases hop with rfl | rfl | ⟨rfl, hlast⟩ <;> simp at hdo
    exact hlast

/-- The end of the condition skips everything up to the return. -/
theorem own_whenEnd {l : Layout} (hl : l.Sound) {k : Nat} (hk : k = l.cond.length + 1) :
    l.Own k (.of .whenEnd (l.action.length + (childrenCode true l.children).length + 3)) := by
  have hsmall := hl.small
  have hstart : l.start = l.cond.length + l.action.length + 4 := rfl
  have hlast : l.last = l.start + 4 * l.children.length := rfl
  refine ⟨by omega, ⟨.whenEnd, by simp, rfl⟩, fun _ => ?_, by simp⟩
  have hdist : ((l.action.length : Int) + (childrenCode true l.children).length + 3) =
      ((l.action.length + 4 * l.children.length + 3 : Nat) : Int) := by
    rw [length_childrenCode]
    push_cast
    ring
  refine ⟨l.action.length + 4 * l.children.length + 3, by omega, ?_, .inr (by omega)⟩
  rw [Instr.a_of, hdist, toInt_ofInt_of_lt (by omega)]

theorem spot_of_getElem? {l : Layout} (hl : l.Sound) {k : Nat} {i : Instr}
    (h : l.code[k]? = some i) : l.Spot k i := by
  have hstart : l.start = l.cond.length + l.action.length + 4 := rfl
  have hlast : l.last = l.start + 4 * l.children.length := rfl
  unfold code ruleCode at h
  simp only [List.append_assoc] at h
  rcases getElem?_append_cases h with ⟨-, hi⟩ | ⟨k₁, hk₁, h₁⟩
  · obtain ⟨rfl, rfl⟩ := getElem?_singleton_cases hi
    exact .own (own_of_mark (by omega) (.inl rfl))
  rw [List.length_singleton] at hk₁
  rcases getElem?_append_cases h₁ with ⟨-, hi⟩ | ⟨k₂, hk₂, h₂⟩
  · exact .own (own_of_row hl hl.cond hl.condRow hk₁ (by omega) hi)
  rcases getElem?_append_cases h₂ with ⟨hlt, hi⟩ | ⟨k₃, hk₃, h₃⟩
  · simp only [List.length_cons, List.length_nil] at hlt
    cases k₂ with
    | zero =>
      simp only [List.getElem?_cons_zero, Option.some.injEq] at hi
      subst hi
      exact .own (own_whenEnd hl (by omega))
    | succ k₂ =>
      obtain ⟨rfl, rfl⟩ := getElem?_singleton_cases hi
      exact .own (own_of_mark (by omega) (.inr (.inl rfl)))
  simp only [List.length_cons, List.length_nil] at hk₃
  rcases getElem?_append_cases h₃ with ⟨-, hi⟩ | ⟨k₄, hk₄, h₄⟩
  · have hk : k = l.cond.length + 3 + k₃ := by omega
    exact .own (own_of_row hl hl.action hl.actionRow hk (by omega) hi)
  rcases getElem?_append_cases h₄ with ⟨-, hi⟩ | ⟨k₅, hk₅, h₅⟩
  · obtain ⟨rfl, rfl⟩ := getElem?_singleton_cases hi
    exact .own (own_of_mark (by omega) (.inr (.inr ⟨rfl, by omega⟩)))
  rw [List.length_singleton] at hk₅
  have hk : k = l.start + k₅ := by omega
  rw [hk]
  rcases getElem?_append_cases h₅ with ⟨-, hi⟩ | ⟨k₆, hk₆, h₆⟩
  · obtain ⟨j, child, hchild, hcases⟩ := getElem?_childrenCode hi
    rcases hcases with ⟨rfl, rfl⟩ | ⟨rfl, rfl⟩ | ⟨rfl, rfl⟩ | ⟨rfl, rfl⟩
    · exact .enter hchild
    · exact .call hchild
    · exact .drop hchild
    · exact .leave hchild
  · obtain ⟨rfl, rfl⟩ := getElem?_singleton_cases h₆
    rw [hk₆, length_childrenCode, Nat.add_zero, ← hlast]
    exact .ret

end Layout

/-! ## Compiled programs -/

/-- A program whose functions are laid out like rules with isolated children, each of which has a
higher number than its parent. -/
structure Isolating (p : Program) (layout : Int → Layout) : Prop where
  code : ∀ {func : Int} {fn : Function}, p.function? func = some fn →
    fn.code.toList = (layout func).code
  sound : ∀ {func : Int} {fn : Function}, p.function? func = some fn → (layout func).Sound
  child : ∀ {func : Int} {fn : Function} {child : Nat}, p.function? func = some fn →
    child ∈ (layout func).children → func < child ∧ child < p.functions.size
  small : p.functions.size < 2 ^ 31

section

variable {σ : Type} {env : CompileEnv σ} {d : BrainDef} {p : Program} {diags : Diagnostics}

/-- A compiled program was assembled from a plan and starts on the entry page. -/
theorem planned_of_compile (h : compile env d = .ok (p, diags)) :
    ∃ plan entry, PlanOf env d plan ∧ entryPage d.pageInfos d.entry = .ok entry ∧
      p = (assemble env d.pageInfos entry plan).1 := by
  rw [compile_eq] at h
  unfold assembled at h
  have hcases := plan_cases env d
  split at hcases
  · split at hcases
    · rename_i entry hentry
      obtain ⟨plan, hplan, hof⟩ := hcases
      rw [hplan] at h
      refine ⟨plan, entry, hof, hentry, ?_⟩
      simp only [Except.map, Except.bind] at h
      split at h
      · cases h
        rfl
      · cases h
    · rw [hcases] at h
      cases h
  · obtain ⟨name, hname⟩ := hcases
    rw [hname] at h
    cases h

theorem assemble_of_compile (h : compile env d = .ok (p, diags)) :
    ∃ plan entry, PlanOf env d plan ∧ p = (assemble env d.pageInfos entry plan).1 := by
  obtain ⟨plan, entry, hof, -, hp⟩ := planned_of_compile h
  exact ⟨plan, entry, hof, hp⟩

theorem isolating_of_compile (h : compile env d = .ok (p, diags)) (hiso : env.isolateChildren = true)
    (hsmall : p.Small) : ∃ layout, Isolating p layout ∧
      ∀ {func : Int} {fn : Function}, p.function? func = some fn →
        (layout func).children.map Int.ofNat =
          (p.rules.filter fun r => r.parent = func).map RuleInfo.func := by
  obtain ⟨plan, entry, hof, rfl⟩ := assemble_of_compile h
  have hlayout : ∀ func : Int, ∃ l : Layout, ∀ fn,
      (assemble env d.pageInfos entry plan).1.function? func = some fn →
        fn.code.toList = l.code ∧ l.Sound ∧
        (∀ child ∈ l.children, func < child ∧ child < plan.jobs.length) ∧
        l.children.map Int.ofNat =
          ((plan.jobs.map RuleJob.info).filter fun r => r.parent = func).map RuleInfo.func := by
    intro func
    cases hfn : (assemble env d.pageInfos entry plan).1.function? func with
    | none => exact ⟨default, by simp⟩
    | some fn =>
      obtain ⟨n, rfl, hn⟩ := Program.function?_eq_some_iff.mp hfn
      obtain ⟨job, hjob⟩ := job_of_function env hn
      obtain ⟨q, -, hq, -⟩ := assemble_function env d.pageInfos entry hjob
      rw [hn, Option.some.injEq] at hq
      obtain ⟨_, _, _, _, cond, action, g, -, -, hcode, hcond, haction, hemits, hemits'⟩ :=
        resolvedRule_emits env job q
      rw [← hq, hiso] at hcode
      have hcallees := hof.callees hsmall hn
      have hchildren : fn.callees = job.children.map Int.ofNat := by
        rw [Function.callees, hcode, List.toList_toArray, filter_isCall_ruleCode hemits hemits',
          List.map_map]
        refine List.map_congr_left fun child hchild => ?_
        have hlt := hof.child_lt hjob hchild
        have hsize := hsmall.functions
        rw [size_functions_assemble] at hsize
        simp [toInt_ofInt_of_lt (Nat.lt_trans hlt hsize)]
      refine ⟨⟨cond, action, job.children⟩, fun fn' hfn' => ?_⟩
      cases hfn'
      have hcode' : fn.code.toList = (⟨cond, action, job.children⟩ : Layout).code := by
        rw [hcode, List.toList_toArray]
        rfl
      have hsize := hsmall.code fn (Array.mem_of_getElem? hn)
      rw [← Array.length_toList, hcode', Layout.length_code] at hsize
      refine ⟨hcode', ⟨hcond, haction, fun i hi => hemits.inRow hi, fun i hi => hemits'.inRow hi,
        by omega⟩, fun child hchild => ⟨?_, hof.child_lt hjob hchild⟩, hchildren ▸ hcallees⟩
      have hcalls : (assemble env d.pageInfos entry plan).1.Calls n child := by
        refine ⟨fn, hn, ?_⟩
        rw [hchildren]
        exact List.mem_map_of_mem (f := Int.ofNat) hchild
      exact_mod_cast hof.lt_of_calls hsmall hcalls
  choose layout hall using hlayout
  refine ⟨layout, ⟨fun hf => (hall _ _ hf).1, fun hf => (hall _ _ hf).2.1, fun hf hchild => ?_,
    hsmall.functions⟩, fun hf => (hall _ _ hf).2.2.2⟩
  rw [size_functions_assemble]
  exact (hall _ _ hf).2.2.1 _ hchild

end

end TileMind
