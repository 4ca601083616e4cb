import TileMind.Bench.Setup
import TileMind.Proofs.Code.Simulation

/-!
# TileMind.Proofs.Code.Correct

Rows run as they are evaluated. A fiber that comes to the code of a row does what `Row.eval` says: the
same effects in the same order, and then it is behind the code with the value on top of its stack, or
the fault of the evaluation is raised.

* `Row.runFor_code`: for every row that was read and typed, whatever the surroundings.
-/

namespace TileMind

variable {H : Type}

/-! ## Constants of a loaded program -/

theorem getElem?_linkItems {items : List Datum} {k : Nat} {sc : Scalar}
    (h : items[k]? = some (.scalar sc)) (heap : Heap) :
    (Heap.linkItems items heap).1[k]? = some (.scalar sc) := by
  induction items generalizing k heap with
  | nil => cases h
  | cons d items ih =>
    cases k with
    | zero =>
      obtain rfl : d = .scalar sc := by simpa using h
      rfl
    | succ k => exact ih (by simpa using h) _

theorem getElem?_load {p : Program} {k : Nat} {sc : Scalar}
    (h : p.constants[k]? = some (.scalar sc)) (svc : Services (Stage H)) (limits : Limits) (heap : Heap) :
    (Machine.load p svc limits heap).1.constants[k]? = some (.scalar sc) := by
  rw [← Array.getElem?_toList] at h
  simpa [Machine.load, Machine.linkConstants] using getElem?_linkItems h heap

namespace Row

/-! ## Rows in a program -/

/-- Generated code stands at `pc` of a function, in a program with the constants it refers to. The
program is not so large that an operand could not hold its numbers. -/
structure Installed (p : Program) (func : Int) (pc : Nat) (chain : Chain)
    (r : List Instr × Generated) : Prop where
  code : ∃ fn, p.function? func = some fn ∧ r.1 <+: fn.code.toList.drop pc
  constants : r.2.pool.values.toList <+: p.constants.toList
  length : r.1.length < 2 ^ 31
  slots : r.2.pool.values.size ≤ 2 ^ 31
  sites : r.2.lastSite < 2 ^ 31
  globals : ∀ b ∈ r.2.names.globals, b.2.id < 2 ^ 31
  locals : ∀ locals ∈ chain, ∀ b ∈ locals, b.2.id < 2 ^ 31

/-- The setting of a row in a loaded program: variables have the numbers that its code refers to. -/
def Setting.loaded (p : Program) (svc : Services (Stage H)) (limits : Limits) (heap : Heap) (f : Fiber)
    (func : Int) (types : TypeTable) (chain : Chain) (names : Names) : Setting H where
  machine := (Machine.load p svc limits heap).1
  fiber := f
  func := func
  types := types
  vars name := (names.resolve chain name).1

section

variable {p : Program} {func : Int} {pc : Nat} {chain : Chain} {r : List Instr × Generated}

theorem mem_of_lookup {locals : Locals} {name : String} {b : Binding}
    (h : locals.lookup name = some b) : (name, b) ∈ locals := by
  obtain ⟨before, after, rfl, -⟩ := List.lookup_eq_some_iff.mp h
  simp

theorem Installed.id_lt (h : Installed p func pc chain r) {name : String} {id : Nat}
    (hid : r.2.names.Resolves chain name id) : id < 2 ^ 31 := by
  rcases hid with hlocal | ⟨-, hglobal⟩
  · obtain ⟨b, hb, rfl⟩ := Option.map_eq_some_iff.mp hlocal
    obtain ⟨locals, hmem, hlookup⟩ := List.exists_of_findSome?_eq_some hb
    exact h.locals locals hmem _ (mem_of_lookup hlookup)
  · obtain ⟨b, hb, rfl⟩ := Option.map_eq_some_iff.mp hglobal
    exact h.globals _ (mem_of_lookup hb)

theorem Installed.linked (h : Installed p func pc chain r) (svc : Services (Stage H)) (limits : Limits)
    (heap : Heap) (f : Fiber) (types : TypeTable) :
    Linked (.loaded p svc limits heap f func types chain r.2.names) chain r.2 := by
  refine ⟨?_, ?_, h.sites⟩
  · intro slot sc hslot
    have hlt := (Array.getElem?_eq_some_iff.mp hslot).1
    have hsize := h.slots
    exact ⟨by omega, getElem?_load (getElem?_mono h.constants hslot) svc limits heap⟩
  · intro name id hid
    exact ⟨congrArg Nat.cast (Names.resolve_of_resolves hid), h.id_lt hid⟩

theorem Installed.instrAt (h : Installed p func pc chain r) {k : Nat} {i : Instr}
    (hi : r.1[k]? = some i) (base : Nat) : Machine.instrAt p ⟨func, pc + k, base⟩ = .ok i := by
  obtain ⟨fn, hfn, more, hmore⟩ := h.code
  have hcode : fn.code[pc + k]? = some i := by
    rw [← Array.getElem?_toList, ← List.getElem?_drop, ← hmore,
      List.getElem?_append_left (List.getElem?_eq_some_iff.mp hi).1]
    exact hi
  have hpos : ¬ ((pc : Int) + k < 0) := by omega
  have hnat : ((pc : Int) + k).toNat = pc + k := by omega
  simp only [Machine.instrAt, hfn, if_neg hpos, hnat, hcode]

end

/-- A row that was read and typed runs as it is evaluated. -/
theorem runFor_code [Host H] {e : Expr} {t : Typing} (he : Typed e t)
    (hsync : e.All (Expr.Synchronous t.table)) (hfns : e.All (Expr.Addressable t.table)) (chain : Chain)
    (rule : String) {g : Generated} (hg : g.pool.Built) {p : Program} {func : Int} {pc : Nat}
    (hp : Installed p func pc chain (code ⟨t.table, chain, rule⟩ e g)) (svc : Services (Stage H))
    (limits : Limits) (heap : Heap) {f : Fiber} {base : Nat} {rest : List Frame}
    (hframes : f.frames = ⟨func, pc, base⟩ :: rest) (hbase : base ≤ f.stack.length)
    (hroom : ∀ k ≤ (code ⟨t.table, chain, rule⟩ e g).1.length,
      f.stack.length + heightAt (code ⟨t.table, chain, rule⟩ e g).1 k ≤ limits.filled.stack)
    (s : Stage H) :
    let m := (Machine.load p svc limits heap).1
    let made := code ⟨t.table, chain, rule⟩ e g
    let r := eval (.loaded p svc limits heap f func t.table chain made.2.names) e g.lastSite s
    ∃ n, m.observe n f s = r.effects ∧
      match r.answer with
      | .ok (.ok v, t) => ∀ budget, m.runFor (n + budget) f s =
          m.runFor budget (f.placed (pc + made.1.length) (v :: f.stack)) t
      | .ok (.error ref, t) => ∃ junk, ∃ k : Nat, k < made.1.length ∧ ∀ budget, m.runFor (n + budget) f s =
          m.proceed budget (raise (f.placed (pc + k + 1) (junk ++ f.stack)) t ref ⟨func, pc + k⟩)
      | .error crash => ∀ budget, m.runFor (n + budget) f s = .error crash := by
  intro m made r
  have hdirect : e.All (Expr.Direct t.table) := fun n hn => ⟨he.ready n hn, hsync n hn, hfns n hn⟩
  have hdoes : Does (.loaded p svc limits heap f func t.table chain made.2.names) pc made.1 f.stack f.stack
      (fun v : Value => v :: f.stack) s r :=
    does_code e g pc f.stack s hdirect hg (hp.linked svc limits heap f t.table)
  have hends := hdoes.ends ⟨fun k i base hi => hp.instrAt hi base, hp.length,
    ⟨pc, base, rest, hframes, hbase⟩, hroom⟩
  have hstart : f.placed pc f.stack = f := by
    simp only [Fiber.placed, Fiber.jump, hframes]
    rw [← hframes]
  rcases hr : r.answer with crash | ⟨ref | v, t⟩
  · simp only [Ends, hr] at hends
    obtain ⟨n, hleads⟩ := hends
    have hrun := hleads.runFor
    simp only [Setting.loaded, hstart] at hrun
    exact ⟨n, hrun.1, hrun.2⟩
  · simp only [Ends, hr] at hends
    obtain ⟨n, junk, k, hk, hleads⟩ := hends
    have hrun := hleads.runFor
    simp only [Setting.loaded, hstart] at hrun
    exact ⟨n, hrun.1, junk, k, hk, hrun.2⟩
  · simp only [Ends, hr] at hends
    obtain ⟨n, hleads⟩ := hends
    have hrun := hleads.runFor
    simp only [Setting.loaded, hstart] at hrun
    exact ⟨n, hrun.1, hrun.2⟩

/-- A row with an assignment to a field, a jump over its right operand, a tile and an operator. -/
def greeting : Expr :=
  (readRow { tiles := [{ id := "ready", kind := .sensor, fn := 3, output := .boolean }] } "0/0"
    "$hero.name = ready && $title + \": \"" 0 []).1

def greetingTyping : Typing :=
  typeExpr { services := (Core.services : Services (Stage Bench)), vars := fun _ => some .string }
    greeting {}

def greetingCode : List Instr × Generated := code ⟨greetingTyping.table, [], "0/0"⟩ greeting {}

def programOf (r : List Instr × Generated) : Program :=
  { functions := #[{ code := r.1.toArray }], constants := r.2.pool.values }

theorem installed_programOf {r : List Instr × Generated} (hlength : r.1.length < 2 ^ 31)
    (hslots : r.2.pool.values.size ≤ 2 ^ 31) (hsites : r.2.lastSite < 2 ^ 31)
    (hglobals : ∀ b ∈ r.2.names.globals, b.2.id < 2 ^ 31) : Installed (programOf r) 0 0 [] r where
  code := ⟨{ code := r.1.toArray }, rfl, by simp⟩
  constants := List.prefix_rfl
  length := hlength
  slots := hslots
  sites := hsites
  globals := hglobals
  locals := by simp

theorem runFor_code_greeting :
    greetingCode.1.length = 11 ∧ Installed (programOf greetingCode) 0 0 [] greetingCode ∧
      ∃ n, (Machine.load (programOf greetingCode) Core.services .standard {}).1.observe n (.start 1 0)
          { host := ({} : Bench) } =
        (eval (.loaded (programOf greetingCode) Core.services .standard {} (.start 1 0) 0 greetingTyping.table []
          greetingCode.2.names) greeting 0 { host := ({} : Bench) }).effects := by
  have htyped : Typed greeting greetingTyping := .row _ _ _ _ _ _ _
  have hsync : ∀ n ∈ greeting.nodes, n.Synchronous greetingTyping.table := by decide +kernel
  have hfns : ∀ n ∈ greeting.nodes, n.Addressable greetingTyping.table := by decide +kernel
  have hinstalled : Installed (programOf greetingCode) 0 0 [] greetingCode :=
    installed_programOf (by decide +kernel) (by decide +kernel) (by decide +kernel) (by decide +kernel)
  have hroom : ∀ k ≤ greetingCode.1.length,
      (Fiber.start 1 0).stack.length + heightAt greetingCode.1 k ≤ Limits.standard.filled.stack := by
    decide +kernel
  have hframes : (Fiber.start 1 0).frames = ⟨0, (0 : Nat), 0⟩ :: [] := rfl
  have hrun := runFor_code htyped hsync hfns [] "0/0" (g := {}) .empty hinstalled Core.services
    .standard {} hframes (Nat.zero_le _) hroom { host := ({} : Bench) }
  refine ⟨by decide +kernel, hinstalled, ?_⟩
  rw [greetingCode] at hrun ⊢
  exact hrun.imp fun n h => h.1

end Row

end TileMind
