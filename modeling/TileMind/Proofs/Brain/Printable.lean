import TileMind.Proofs.Brain.Objects
import TileMind.Proofs.Brain.Reload
import TileMind.Proofs.Brain.Requests

/-!
# TileMind.Proofs.Brain.Printable

Whether values can be printed: as long as no object under them holds itself. Host code that hands over what is
fresh makes no such object, and neither does compiled code, save by an assignment to a field of an object that is
reached from the value assigned.

* `Brain.InOrder`: what each part of a tick keeps.
* `Brain.Request.Fair`, `Brain.Request.Closes`: what may come from outside, and what closes a loop.
* `Brain.held_values_print`: for every brain that is reached without that.
* `assignment_closes_loop`: a brain that is reached with it.
-/

namespace TileMind

variable {W : Type}

/-- A compiled program. Its code is small enough that no jump is cut. -/
structure Program.Whole (p : Program) : Prop where
  compiled : p.Compiled
  code : ∀ fn ∈ p.functions, fn.code.size < 2 ^ 32

/-! ## Parts of a tick -/

section

variable {s t : Stage (Mind W)} {args : Set Nat} {m m' : Mind W}

theorem Stage.Tidied.foldl {f : Stage (Mind W) → Nat → Stage (Mind W)}
    (hf : ∀ t : Stage (Mind W), t.Tidy args → ∀ n, t.Tidied args (f t n)) (ns : List Nat) (hs : s.Tidy args) :
    s.Tidied args (ns.foldl f s) :=
  List.foldlRecOn (motive := fun t : Stage (Mind W) => s.Tidied args t) ns f hs.tidied
    fun t ht n _ => ht.trans (hf t ht.tidy n)

theorem Stage.Tidy.resolved (hs : s.Tidy args) {v : Value} (hv : s.heap.Common args v) (id : Int) :
    s.Tidied args (s.resolve id v) :=
  ⟨hs.resolve hv id, by rw [Stage.heap_resolve]; exact .refl _ _⟩

theorem Stage.Tidy.cancelled (hs : s.Tidy args) {id : Int} (h : s.cancel id = .ok t) : s.Tidied args t := by
  refine ⟨hs.cancel h, ?_⟩
  obtain ⟨faults, hheap⟩ := Stage.heap_cancel h
  rw [hheap]
  exact Heap.later_faults _ _ _

end

namespace Brain

section

variable {b b' : Brain W} {args : Set Nat}

abbrev InOrder (args : Set Nat) (b : Brain W) : Prop := b.scheduler.InOrder args

theorem InOrder.held (hb : b.InOrder args) {v : Value} (hv : b.mind.Holds v) : b.heap.Common args v :=
  hb.ready.tidy.host v hv

theorem InOrder.setMind (hb : b.InOrder args) {m : Mind W} (hm : ∀ v, m.Holds v → b.heap.Common args v) :
    (b.setMind m).InOrder args :=
  Scheduler.InOrder.tidied hb ⟨hb.ready.tidy.setHost hm, .refl _ _⟩

theorem InOrder.sameVariables (hb : b.InOrder args) {m : Mind W} (hglobals : m.globals = b.mind.globals)
    (hrules : m.rules = b.mind.rules) : (b.setMind m).InOrder args :=
  hb.setMind fun _ hv => hb.held (hv.congr hglobals hrules)

theorem InOrder.answer (hb : b.InOrder args) {t : Stage (Mind W)} (ht : b.scheduler.stage.Tidied args t) :
    InOrder args { b with scheduler := { b.scheduler with stage := t }.deliver } :=
  (Scheduler.InOrder.tidied hb ht).deliver

theorem InOrder.fireTimers (hb : b.InOrder args) : b.fireTimers.InOrder args := by
  have hset : (b.setMind { b.mind with timers := (b.mind.timers.due b.mind.clock.elapsed).2 }).InOrder args :=
    hb.sameVariables rfl rfl
  exact hset.answer (.foldl (fun t ht n => ht.resolved (Heap.common_of_ref? rfl) n) _ hset.ready.tidy)

theorem InOrder.cancelTimers (hb : b.InOrder args) : b.cancelTimers.InOrder args := by
  have hset : (b.setMind { b.mind with timers := {} }).InOrder args := hb.sameVariables rfl rfl
  refine hset.answer (.foldl (fun t ht n => ?_) _ hset.ready.tidy)
  split
  · rename_i hcancel
    exact ht.cancelled hcancel
  · exact ht.tidied

theorem InOrder.cleared (hb : b.InOrder args) : b.cleared.InOrder args := by
  have hset : (b.setMind { b.mind with pending := none }).InOrder args := hb.sameVariables rfl rfl
  have hends : InOrder args { (b.setMind { b.mind with pending := none }).cancelAll with fibers := {} } :=
    Scheduler.InOrder.cancelAll hset
  exact hends.cancelTimers

theorem InOrder.enterSite (hb : b.InOrder args) (site : CallSite) : (b.enterSite site).InOrder args := by
  obtain hsame | ⟨f, hook, hf, hhook, hentered⟩ := b.enterSite_cases site
  · rwa [hsame]
  · rw [hentered]
    exact Scheduler.InOrder.work hb ((hb.builds.services.function hf).onPage hhook _ _)

theorem InOrder.switchPage (hb : b.InOrder args) {index : Int} (h : b.switchPage index = .ok b') :
    b'.InOrder args := by
  rw [switchPage_eq] at h
  split at h
  · cases h
  · rename_i page _
    cases h
    have hturned : (b.cleared.setMind { b.cleared.mind with active := index }).InOrder args :=
      hb.cleared.sameVariables rfl rfl
    exact List.foldlRecOn (motive := fun b : Brain W => b.InOrder args) page.sites Brain.enterSite hturned
      fun _ hb site _ => hb.enterSite site

theorem InOrder.startRule (hb : b.InOrder args) (func : Int) : (b.startRule func).InOrder args := by
  unfold Brain.startRule
  split
  · exact hb
  · split
    · rename_i hspawn
      exact Scheduler.InOrder.spawn hb hspawn
    · rename_i e _
      have hfault : (b.setStage (b.scheduler.stage.newFault e.fault).2).InOrder args :=
        Scheduler.InOrder.tidied hb (hb.ready.tidy.tidied.faults _)
      exact hfault.sameVariables rfl rfl

theorem InOrder.startRules (hb : b.InOrder args) : b.startRules.InOrder args := by
  unfold Brain.startRules
  split
  · rename_i page _
    exact List.foldlRecOn (motive := fun b : Brain W => b.InOrder args) page.roots Brain.startRule hb
      fun _ hb func _ => hb.startRule func
  · exact hb

theorem InOrder.prepared (hb : b.InOrder args) {dt : Int} (h : b.prepared dt = .ok b') : b'.InOrder args := by
  unfold Brain.prepared at h
  split at h
  · cases h
  · have hset : (b.setMind { b.mind with clock := advance b.mind.clock dt }).InOrder args :=
      hb.sameVariables rfl rfl
    have hfired := hset.fireTimers
    dsimp only at h
    split at h
    · split at h
      · cases h
      · rename_i hswitch
        cases h
        exact (hfired.switchPage hswitch).startRules
    · cases h
      exact hfired.startRules

theorem InOrder.stop (hb : b.InOrder args) : b.stop.InOrder args := by
  unfold Brain.stop
  split
  · exact hb
  · have hends : b.cancelAll.InOrder args := Scheduler.InOrder.cancelAll hb
    exact hends.cancelTimers

/-! ## Beginning -/

theorem inOrder_start {p : Program} (hp : p.Whole) {svc : Services (Stage (Mind W))} (hsvc : svc.Fresh)
    (limits : Limits) {heap : Heap} (hheap : heap.Tidy args) {m : Mind W}
    (hm : ∀ v, m.Holds v → heap.Common args v) : (Scheduler.create p svc limits heap m).InOrder args := by
  obtain ⟨σ, env, d, diags, hcompile⟩ := hp.compiled
  have hlinked := Heap.linkItems_made p.constants.toList heap hheap
  refine ⟨⟨ruleProgram_of_compile hcompile hp.code, layouts_of_compile hcompile hp.code, hsvc⟩,
    ⟨⟨hlinked.tidy, fun v hv => (hm v hv).later hlinked.later, ?_⟩, ?_⟩, ?_, ?_⟩
  · exact fun h hh => absurd hh List.not_mem_nil
  · exact fun c hc => hlinked.common c (List.mem_toArray.mp hc)
  · exact fun f hf => absurd hf List.not_mem_nil
  · exact fun e he => absurd he List.not_mem_nil

theorem inOrder_create {p : Program} (hp : p.Whole) {svc : Services (Stage (Mind W))} (hsvc : svc.Fresh)
    {limits : Limits} {heap : Heap} (hheap : heap.Tidy args) {world : W}
    (h : Brain.create p svc limits heap world = .ok b) : b.InOrder args := by
  unfold Brain.create at h
  split at h
  · cases h
  · cases h
    exact inOrder_start hp hsvc limits hheap fun v hv =>
      absurd hv (Mind.not_holds_rulesOf p (by rfl) (by rfl) v)

theorem forall_restore {P : Value → Prop} {m : Mind W} (hm : ∀ v, m.Holds v → P v)
    {values : List (String × Value)} (hvalues : ∀ e ∈ values, P e.2) : ∀ v, (restore m values).Holds v → P v := by
  refine List.foldlRecOn (motive := fun m : Mind W => ∀ v, m.Holds v → P v) values _ hm fun m hm e he => ?_
  dsimp only
  cases hset : m.setGlobal? e.1 e.2 with
  | none => exact hm
  | some m' => exact Mind.forall_setGlobal? hm (hvalues e he) hset

/-- What a reload carries over is what globals have held. -/
theorem holds_of_carried {values : List (String × Value)} (h : b.carried = .ok values) :
    ∀ e ∈ values, b.mind.Holds e.2 := by
  obtain ⟨values', hvalues, hnamed⟩ | ⟨id, -, -, herror⟩ := b.carried_cases
  · cases h.symm.trans hvalues
    rintro ⟨name, v⟩ he
    obtain ⟨id, hmem, -⟩ := (mem_carried hnamed).mp he
    exact .inl ⟨_, hmem, rfl⟩
  · cases h.symm.trans herror

theorem InOrder.reload (hb : b.InOrder args) {p : Program} (hp : p.Whole)
    {svc : Option (Services (Stage (Mind W)))} (hsvc : ∀ svc' ∈ svc, svc'.Fresh)
    (h : b.reload p svc = .ok (none, b')) : b'.InOrder args := by
  unfold Brain.reload at h
  split at h
  · cases h
  · split at h
    · cases h
    · split at h
      · cases h
      · rename_i values hcarried
        cases h
        have hends : b.cancelAll.InOrder args := Scheduler.InOrder.cancelAll hb
        have hmind : b.cancelAll.mind = b.mind := b.cancelAll_same.2.2.2
        refine inOrder_start hp ?_ _ hends.ready.tidy.heap ?_
        · cases svc with
          | none => exact hends.builds.services
          | some svc => exact hsvc svc rfl
        · intro v hv
          refine forall_restore (P := b.cancelAll.heap.Common args) ?_ (fun e he => ?_) v
            (hv.congr rfl rfl)
          · exact fun v hv => absurd hv (Mind.not_holds_rulesOf p rfl rfl v)
          · exact hends.held (hmind ▸ holds_of_carried hcarried e he)

end

end Brain

/-! ## Requests -/

/-- What an operation hands over is fresh or held already. -/
def Operation.Fair (s : Scheduler (Mind W)) : Operation (Mind W) → Prop
  | .post e => e.Within Stage.Grows
  | .resolve _ v => s.Accepts v
  | .act run => ∀ t : Stage (Mind W), t.Grows (run t)
  | _ => True

namespace Brain

namespace Command

def Fair (b : Brain W) : Command W → Prop
  | .setVariable _ v => b.scheduler.Accepts v
  | .operate op => op.Fair b.scheduler
  | _ => True

/-- An assignment that the command executes closes a loop. -/
def Closes (b : Brain W) : Command W → Prop
  | .think dt => ∃ b', b.prepared dt = .ok b' ∧ b'.scheduler.Closes
  | .operate .tick => b.scheduler.Closes
  | _ => False

end Command

namespace Request

/-- What a request hands over is fresh or held already, and a program that takes over is compiled. -/
def Fair (b : Brain W) : Request W → Prop
  | .ask c => c.Fair b
  | .reload p svc => p.Whole ∧ ∀ svc' ∈ svc, svc'.Fresh

def Closes (b : Brain W) : Request W → Prop
  | .ask c => c.Closes b
  | .reload _ _ => False

end Request

section

variable {b b' : Brain W} {args : Set Nat}

theorem InOrder.operate (hb : b.InOrder args) {op : Operation (Mind W)} (hop : op.Fair b.scheduler)
    (hopen : ¬ (Command.operate op).Closes b) {s : Scheduler (Mind W)} (h : op.perform b.scheduler = .ok s) :
    ∃ args', s.InOrder args' := by
  cases op with
  | spawn func =>
    obtain ⟨id, hspawn⟩ | rfl := Operation.spawn_of_perform h
    · exact ⟨args, Scheduler.InOrder.spawn hb hspawn⟩
    · exact ⟨args, hb⟩
  | tick => exact Scheduler.InOrder.tick hb hopen h
  | cancel fiber =>
    obtain ⟨f, -, rfl⟩ | rfl := Operation.cancel_of_perform h
    · exact ⟨args, Scheduler.InOrder.cancelFiber hb f⟩
    · exact ⟨args, hb⟩
  | cancelAll =>
    cases h
    exact ⟨args, Scheduler.InOrder.cancelAll hb⟩
  | post e =>
    cases h
    refine ⟨args, hb.builds, hb.ready, hb.fibers, ?_⟩
    exact List.forall_mem_append.mpr ⟨hb.inbox, List.forall_mem_singleton.mpr hop⟩
  | resolve handle v =>
    cases h
    obtain ⟨args', hs, hv⟩ := Scheduler.InOrder.accepts hb hop
    exact ⟨args', (hs.tidied (hs.ready.tidy.resolved hv handle)).deliver⟩
  | reject handle fault =>
    cases h
    exact ⟨args, (Scheduler.InOrder.tidied hb (hb.ready.tidy.tidied.reject handle fault)).deliver⟩
  | cancelHandle handle =>
    obtain ⟨stage, hcancel, rfl⟩ | rfl := Operation.cancelHandle_of_perform h
    · exact ⟨args, (Scheduler.InOrder.tidied hb (hb.ready.tidy.cancelled hcancel)).deliver⟩
    · exact ⟨args, hb⟩
  | act run =>
    cases h
    exact ⟨args, Scheduler.InOrder.work hb (hop _)⟩

theorem InOrder.think (hb : b.InOrder args) {dt : Int} (hopen : ¬ (Command.think dt).Closes b)
    (h : b.think dt = .ok b') : ∃ args', b'.InOrder args' := by
  rw [think_eq] at h
  cases hprepared : b.prepared dt with
  | error e =>
    rw [hprepared] at h
    cases h
  | ok b₁ =>
    rw [hprepared] at h
    dsimp only [Except.bind] at h
    split at h
    · cases h
    · rename_i s htick
      cases h
      exact Scheduler.InOrder.tick (hb.prepared hprepared) (fun hcloses => hopen ⟨b₁, hprepared, hcloses⟩) htick

theorem InOrder.command (hb : b.InOrder args) {c : Command W} (hc : c.Fair b) (hopen : ¬ c.Closes b)
    (h : c.perform b = .ok b') : ∃ args', b'.InOrder args' := by
  cases c with
  | think dt =>
    unfold Command.perform at h
    dsimp only at h
    split at h
    · rename_i hthink
      cases h
      exact hb.think hopen hthink
    · cases h
      exact ⟨args, hb⟩
    · cases h
  | requestPage key =>
    rw [Command.perform, requestPage_eq] at h
    cases hpage : b.mind.page? key with
    | none =>
      simp only [hpage] at h
      cases h
      exact ⟨args, hb⟩
    | some index =>
      simp only [hpage] at h
      cases h
      exact ⟨args, hb.sameVariables rfl rfl⟩
  | setVariable name v =>
    obtain ⟨args', hb', hv⟩ := Scheduler.InOrder.accepts hb hc
    unfold Command.perform Brain.setVariable at h
    cases hset : b.mind.setGlobal? name v with
    | none =>
      simp only [hset] at h
      cases h
      exact ⟨args, hb⟩
    | some m =>
      simp only [hset] at h
      cases h
      exact ⟨args', InOrder.setMind hb' (Mind.forall_setGlobal? (fun v => InOrder.held hb') hv hset)⟩
  | stop =>
    cases h
    exact ⟨args, hb.stop⟩
  | operate op =>
    unfold Command.perform at h
    dsimp only at h
    split at h
    · rename_i s hs
      cases h
      exact hb.operate hc hopen hs
    · cases h

theorem InOrder.request (hb : b.InOrder args) {r : Request W} (hr : r.Fair b) (hopen : ¬ r.Closes b)
    (h : r.perform b = .ok b') : ∃ args', b'.InOrder args' := by
  cases r with
  | ask c => exact hb.command hr hopen h
  | reload p svc =>
    obtain rfl | hreload := Request.perform_reload h
    · exact ⟨args, hb⟩
    · exact ⟨args, hb.reload hr.1 hr.2 hreload⟩

end

/-! ## Printing -/

/-- A brain that has come from `b₀` by requests that hand over what is fresh or held, while no assignment has closed
a loop. -/
inductive Reached (b₀ : Brain W) : Brain W → Prop where
  | start : Reached b₀ b₀
  | next {b b' : Brain W} {r : Request W} (reached : Reached b₀ b) (fair : r.Fair b) (opens : ¬ r.Closes b)
      (performs : r.perform b = .ok b') : Reached b₀ b'

section

variable {b₀ b : Brain W} {args : Set Nat}

theorem InOrder.reached (hb : b₀.InOrder args) (h : Reached b₀ b) : ∃ args', b.InOrder args' := by
  induction h with
  | start => exact ⟨args, hb⟩
  | next _ fair opens performs ih =>
    obtain ⟨args', hb'⟩ := ih
    exact hb'.request fair opens performs

/-- Values held by a brain can be printed. As long as no assignment to a field has stored a value in an object that
is reached from it, no object under a value that is held holds itself, so that reading the value comes to an end,
and so does showing it. -/
theorem held_values_print {σ : Type} {env : CompileEnv σ} {d : BrainDef} {p : Program} {diags : Diagnostics}
    (hcompile : compile env d = .ok (p, diags)) (hsize : ∀ fn ∈ p.functions, fn.code.size < 2 ^ 32)
    {svc : Services (Stage (Mind W))} (hsvc : svc.Fresh) {limits : Limits} {heap : Heap} (hheap : heap.Tidy ∅)
    {world : W} (hcreate : Brain.create p svc limits heap world = .ok b₀) (h : Reached b₀ b) :
    ∀ v, b.scheduler.stage.Holds v →
      (∀ x, b.heap.Under v x → ¬ Relation.TransGen b.heap.Contains x x) ∧
      (∀ n, b.heap.size < n → b.heap.snapshotTo n v = b.heap.snapshot v) ∧
      ∃ text, b.heap.render? v = some text := by
  have hstart := inOrder_create ⟨⟨σ, env, d, diags, hcompile⟩, hsize⟩ hsvc hheap hcreate
  obtain ⟨args, hb⟩ := hstart.reached h
  have hends := hb.ready.tidy.heap.ends
  exact fun v _ => ⟨fun x _ => (hends x).not_contains, fun n hn => Heap.snapshotTo_of_ends (fun x _ => hends x) hn,
    (Heap.nests_of_ends fun x _ => hends x).renderTo⟩

end

end Brain

/-! ## Brains that make maps -/

def making : HostFunction (Stage (Mind Unit)) :=
  { name := "make"
    sync := some fun _ _ s =>
      let (v, heap) := s.heap.newMap "map<unknown>"
      (.ok v, { s with heap := heap }) }

def makingServices : Services (Stage (Mind Unit)) :=
  let svc := shadowingEnv.services
  { svc with
    types := { svc.types with types := svc.types.types ++ [.map .unknown] }
    functions := { svc.functions with list := svc.functions.list.push making } }

def makingEnv : CompileEnv (Stage (Mind Unit)) :=
  { services := makingServices
    catalog := (shadowingEnv.catalog.addSensor makingServices "make" "make" none
      "map<unknown>").toOption.getD {} }

theorem fresh_making : making.Fresh := by
  refine ⟨?_, nofun, nofun⟩
  rintro _ ⟨⟩ c args s
  refine ⟨⟨s.heap.grown_newMap "map<unknown>", fun v hv => .inr (.inl hv)⟩, ?_⟩
  rintro v ⟨⟩
  refine .inl fun x hx => ?_
  cases hx
  exact ⟨lt_irrefl _, by simp [Heap.Has, Heap.newMap]⟩

theorem fresh_makingServices : makingServices.Fresh := by
  have hbefore : shadowingEnv.services.Fresh :=
    services_shadowingEnv Core.fresh_services fun hinstall =>
      Builtins.fresh_install Core.fresh_services hinstall
  refine ⟨fun f hf => ?_, fun d hd hooks hhooks => ?_⟩
  · rcases Array.mem_push.mp hf with hf | rfl
    · exact hbefore.functions f hf
    · exact fresh_making
  · rcases List.mem_append.mp hd with hd | hd
    · exact hbefore.hooks d hd hooks hhooks
    · cases List.mem_singleton.mp hd
      cases hhooks

theorem tidy_empty : Heap.Tidy {} ∅ := by
  have hnone (x : Ref) : Heap.parts {} x = [] := Heap.parts_of_not_has (by cases x <;> exact Nat.not_lt_zero _)
  refine ⟨fun x v hv => ?_, fun x => .intro x ?_, fun n hn => hn.elim⟩
  · rw [hnone x] at hv
    cases hv
  · rintro y ⟨v, hv, -⟩
    rw [hnone x] at hv
    cases hv

/-- A rule makes a map and keeps another one in it. -/
def nestingBrain : BrainDef :=
  { pages := [{ rules := [{
      doRow := "$m = make"
      children := [{ doRow := "$m.inner = make" }, { doRow := "$m.n = 5" }] }] }] }

/-- If the instruction at hand is an assignment, it stores a value that holds nothing, and not in itself. -/
def Moment.isOpen {H : Type} (x : Moment H) : Bool :=
  x.instr.op? ≠ some .setField ||
    match x.fiber.stack with
    | v :: _ :: obj :: _ =>
      match v.ref? with
      | none => true
      | some y => (x.stage.heap.parts y).isEmpty && obj.ref? ≠ some y
    | _ => true

theorem Moment.not_loops {H : Type} {x : Moment H} (hx : x.isOpen = true) (m : Machine H) : ¬ m.Loops x := by
  rintro ⟨hop, v, name, obj, below, field, hstack, -, -, y, z, hy, hz, hreach⟩
  simp only [Moment.isOpen, hop, hstack, hy, hz, ne_eq, not_true_eq_false, decide_false, Bool.false_or,
    Bool.and_eq_true, List.isEmpty_iff, decide_eq_true_eq, Option.some.injEq] at hx
  obtain ⟨hempty, hne⟩ := hx
  rcases Relation.ReflTransGen.cases_head hreach with rfl | ⟨w, ⟨u, hu, -⟩, -⟩
  · exact hne rfl
  · rw [hempty] at hu
    cases hu

theorem held_values_print_nestingBrain :
    ∃ p diags b₀ b, compile makingEnv nestingBrain = .ok (p, diags) ∧ (∀ fn ∈ p.functions, fn.code.size < 2 ^ 32) ∧
      Brain.create p makingServices {} {} () = .ok b₀ ∧ Brain.Reached b₀ b ∧
      b.mind.globals.entries = [(0, .map "map<unknown>" 1)] ∧
      (b.heap.map 1).entries = [(.string "inner", .map "map<unknown>" 3), (.string "n", .int 5)] ∧
      (∀ x, b.heap.Under (.map "map<unknown>" 1) x → ¬ Relation.TransGen b.heap.Contains x x) ∧
      (∀ n, b.heap.size < n →
        b.heap.snapshotTo n (.map "map<unknown>" 1) = b.heap.snapshot (.map "map<unknown>" 1)) ∧
      ∃ text, b.heap.render? (.map "map<unknown>" 1) = some text := by
  have hran : (compile makingEnv nestingBrain).toOption.any (fun r =>
      decide (∀ fn ∈ r.1.functions, fn.code.size < 2 ^ 32) &&
        (Brain.create r.1 makingServices {} {} ()).toOption.any fun b₀ =>
          ((b₀.prepared 0).toOption.any fun b => b.scheduler.moments.all Moment.isOpen) &&
            (b₀.think 0).toOption.any fun b =>
              decide (b.mind.globals.entries = [(0, .map "map<unknown>" 1)]) &&
                decide ((b.heap.map 1).entries =
                  [(.string "inner", .map "map<unknown>" 3), (.string "n", .int 5)])) = true := by
    decide +kernel
  obtain ⟨⟨p, diags⟩, hp, hran⟩ := exists_of_any_toOption hran
  rw [Bool.and_eq_true, decide_eq_true_eq] at hran
  obtain ⟨hsize, hran⟩ := hran
  obtain ⟨b₀, hb₀, hran⟩ := exists_of_any_toOption hran
  obtain ⟨hopen, hran⟩ := Bool.and_eq_true_iff.mp hran
  obtain ⟨b₁, hprepared, hopen⟩ := exists_of_any_toOption hopen
  obtain ⟨b, hb, hran⟩ := exists_of_any_toOption hran
  simp only [Bool.and_eq_true, decide_eq_true_eq] at hran
  obtain ⟨hglobals, hentries⟩ := hran
  have hreached : Brain.Reached b₀ b := by
    refine .next (r := .ask (.think 0)) .start trivial ?_ (by simp [Brain.Request.perform, Brain.Command.perform, hb])
    rintro ⟨b', hb', x, hx, hloops⟩
    cases hprepared.symm.trans hb'
    exact Moment.not_loops (List.all_eq_true.mp hopen x hx) _ hloops
  have hheld : b.scheduler.stage.Holds (.map "map<unknown>" 1) :=
    .inl (.inl ⟨_, hglobals ▸ List.mem_singleton_self _, rfl⟩)
  obtain ⟨hacyclic, hreads⟩ := Brain.held_values_print hp hsize fresh_makingServices tidy_empty hb₀ hreached _ hheld
  exact ⟨p, diags, b₀, b, hp, hsize, hb₀, hreached, hglobals, hentries, hacyclic, hreads⟩

/-- A rule makes a map and keeps the map in itself. -/
def loopingBrain : BrainDef :=
  { pages := [{ rules := [{ doRow := "$m = make", children := [{ doRow := "$m.self = $m" }] }] }] }

/-- Host functions return what is fresh, and still a global holds a map that holds itself. However deep the map is
read, reading it comes to no end, and it cannot be shown. -/
theorem assignment_closes_loop :
    ∃ p diags b₀ b, compile makingEnv loopingBrain = .ok (p, diags) ∧ makingServices.Fresh ∧
      Brain.create p makingServices {} {} () = .ok b₀ ∧ b₀.think 0 = .ok b ∧
      b.mind.Holds (.map "map<unknown>" 1) ∧ b.heap.Contains (.map 1) (.map 1) ∧
      (∀ n, b.heap.snapshotTo n (.map "map<unknown>" 1) ≠ b.heap.snapshotTo (n + 1) (.map "map<unknown>" 1)) ∧
      b.heap.render? (.map "map<unknown>" 1) = none := by
  have hran : (compile makingEnv loopingBrain).toOption.any (fun r =>
      (Brain.create r.1 makingServices {} {} ()).toOption.any fun b₀ =>
        (b₀.think 0).toOption.any fun b =>
          decide (b.mind.globals.entries = [(0, .map "map<unknown>" 1)]) &&
            decide ((b.heap.map 1).entries = [(.string "self", .map "map<unknown>" 1)])) = true := by
    decide +kernel
  obtain ⟨⟨p, diags⟩, hp, hran⟩ := exists_of_any_toOption hran
  obtain ⟨b₀, hb₀, hran⟩ := exists_of_any_toOption hran
  obtain ⟨b, hb, hran⟩ := exists_of_any_toOption hran
  simp only [Bool.and_eq_true, decide_eq_true_eq] at hran
  obtain ⟨hglobals, hentries⟩ := hran
  refine ⟨p, diags, b₀, b, hp, fresh_makingServices, hb₀, hb, ?_, ?_, fun n => ?_, ?_⟩
  · exact .inl ⟨_, hglobals ▸ List.mem_singleton_self _, rfl⟩
  · have hself : (Scalar.string "self", Value.map "map<unknown>" 1) ∈ (b.heap.map 1).entries :=
      hentries ▸ List.mem_singleton_self _
    exact ⟨.map "map<unknown>" 1, (OrderedMap.mem_table_of_mem_entries hself).resolve_left (by decide), rfl⟩
  · induction n with
    | zero => simp [Heap.snapshotTo]
    | succ n ih =>
      intro heq
      rw [Heap.snapshotTo, Heap.snapshotTo, hentries] at heq
      simp only [List.map_cons, List.map_nil, Datum.map.injEq, List.cons.injEq, Prod.mk.injEq, true_and,
        and_true] at heq
      exact ih heq
  · have hnever (n : Nat) : b.heap.renderTo n (.map "map<unknown>" 1) = none := by
      induction n with
      | zero => simp [Heap.renderTo]
      | succ n ih => simp [Heap.renderTo, hentries, ih]
    exact hnever _

end TileMind
