import TileMind.Brain.Basic
import TileMind.Brain.Builtins
import TileMind.Proofs.Brain.Scope
import TileMind.Proofs.Machine.Executed

/-!
# TileMind.Proofs.Brain.Locals

Who changes the locals of a rule. An instruction reaches the locals of the rule it belongs to and of the
rules around that one; all else that a brain does leaves the rules alone. Host functions are taken to
use variables in the scope of the rule that calls them, as they are asked to.

* `Mind.Uses`: what host code may do to the variables of a brain.
* `Core.discreet_services`, `Builtins.discreet_install`: what every brain can call keeps to its scope.
* `Brain.Command`: what can be asked of a brain, short of exchanging its program.
* `PlanOf.confines`: what is changed in the scope of a function.
* `scoping_agrees`: compiled code and running brains mean the same variables.
-/

namespace TileMind

namespace Mind

variable {W : Type}

/-- Code called by a function may change variables as the function sees them, and all that is neither the
program nor a rule. -/
inductive Uses (func : Int) : Mind W → Mind W → Prop where
  | other {m m' : Mind W} (program : m'.program = m.program) (rules : m'.rules = m.rules) : Uses func m m'
  | store (m : Mind W) (var : Int) (v : Value) : Uses func m (m.store func var v)
  | clear (m : Mind W) (var : Int) : Uses func m (m.clear func var)
  | trans {m m' m'' : Mind W} : Uses func m m' → Uses func m' m'' → Uses func m m''

theorem Uses.refl (func : Int) (m : Mind W) : Uses func m m := .other rfl rfl

abbrev Outside : Mind W → Mind W → Prop := Uses (-1)

/-- The locals of a rule. -/
def locals? (m : Mind W) (n : Int) : Option (Cells Value) := (m.rules.get? n).map RuleState.locals

theorem ended_same (m : Mind W) (f : Fiber) :
    (m.ended f).program = m.program ∧ (m.ended f).rules = m.rules := by
  unfold ended
  split <;> exact ⟨rfl, rfl⟩

end Mind

/-- A host function that uses variables in the scope it is called in. -/
structure HostFunction.Discreet {W : Type} (f : HostFunction (Stage (Mind W))) : Prop where
  sync : ∀ {call}, f.sync = some call →
    ∀ c args (s : Stage (Mind W)), Mind.Uses c.func s.host (call c args s).2.host
  async : ∀ {call}, f.async = some call →
    ∀ c args handle (s : Stage (Mind W)), Mind.Uses c.func s.host (call c args handle s).2.host
  onPage : ∀ {hook}, f.onPage = some hook →
    ∀ c (s : Stage (Mind W)), Mind.Uses c.func s.host (hook c s).host

/-- What the field hooks of all types do, where they do not break down, is within `R`. -/
def Services.HooksWithin {σ : Type} (svc : Services σ) (R : σ → σ → Prop) : Prop :=
  ∀ d ∈ svc.types.types, ∀ hooks, d.hooks = some hooks →
    (∀ get, hooks.get = some get → ∀ {obj field s r}, get obj field s = .ok r → R s r.2) ∧
    ∀ set, hooks.set = some set → ∀ {obj field v s r}, set obj field v s = .ok r → R s r.2

theorem Services.HooksWithin.congr {σ : Type} {svc svc' : Services σ} {R : σ → σ → Prop}
    (h : svc.HooksWithin R) (htypes : svc'.types = svc.types) : svc'.HooksWithin R := by
  unfold HooksWithin
  rw [htypes]
  exact h

theorem Services.HooksWithin.mono {σ : Type} {svc : Services σ} {R R' : σ → σ → Prop}
    (h : svc.HooksWithin R) (hsub : ∀ {s t}, R s t → R' s t) : svc.HooksWithin R' :=
  fun d hd hooks hhooks => ⟨fun get hget _ _ _ _ hr => hsub ((h d hd hooks hhooks).1 get hget hr),
    fun set hset _ _ _ _ _ hr => hsub ((h d hd hooks hhooks).2 set hset hr)⟩

/-- Host code that uses variables in the scope it is called in. Hooks of types are told no scope. -/
structure Services.Discreet {W : Type} (svc : Services (Stage (Mind W))) : Prop where
  functions : ∀ f ∈ svc.functions.list, f.Discreet
  hooks : svc.HooksWithin fun s t => ∀ func, Mind.Uses func s.host t.host

section

variable {W : Type} {m : Machine (Mind W)} {svc : Services (Stage (Mind W))}

theorem Services.Discreet.function (h : svc.Discreet) {fn : Int} {f : HostFunction (Stage (Mind W))}
    (hf : svc.functions.get? fn = some f) : f.Discreet :=
  h.functions f (Functions.mem_of_get? hf)

theorem Machine.hooks_cases (m : Machine (Mind W)) (type : TypeId) : m.hooks type = {} ∨
    ∃ d ∈ m.services.types.types, ∃ hooks, d.hooks = some hooks ∧ m.hooks type = hooks := by
  unfold Machine.hooks
  cases htype : m.services.types.get? type with
  | none => exact .inl rfl
  | some d =>
    cases hd : d.hooks with
    | none => exact .inl (by simp [hd])
    | some hooks => exact .inr ⟨d, List.mem_of_find?_eq_some htype, hooks, hd, by simp [hd]⟩

section

variable {R : Stage (Mind W) → Stage (Mind W) → Prop} {type : TypeId} {obj : Value} {field : String}
  {s : Stage (Mind W)}

theorem Services.HooksWithin.get (h : m.services.HooksWithin R) {get} (hget : (m.hooks type).get = some get)
    {r : Option Value × Stage (Mind W)} (hr : get obj field s = .ok r) : R s r.2 := by
  rcases m.hooks_cases type with hnone | ⟨d, hd, hooks, hhooks, heq⟩
  · rw [hnone] at hget
    cases hget
  · rw [heq] at hget
    exact (h d hd hooks hhooks).1 get hget hr

theorem Services.HooksWithin.set (h : m.services.HooksWithin R) {set} (hset : (m.hooks type).set = some set)
    {v : Value} {r : Bool × Stage (Mind W)} (hr : set obj field v s = .ok r) : R s r.2 := by
  rcases m.hooks_cases type with hnone | ⟨d, hd, hooks, hhooks, heq⟩
  · rw [hnone] at hset
    cases hset
  · rw [heq] at hset
    exact (h d hd hooks hhooks).2 set hset hr

end

theorem Services.Discreet.touches (h : m.services.Discreet) (func : Int) :
    m.Touches func (Mind.Uses func) := by
  refine ⟨.refl func, .trans, fun h var v => .store h var v, ?_, ?_, ?_, ?_⟩
  · rintro fn f call hf hcall c args s rfl
    exact (h.function hf).sync hcall c args s
  · rintro fn f call hf hcall c args handle s rfl
    exact (h.function hf).async hcall c args handle s
  · exact fun hget _ _ _ _ hr => h.hooks.get hget hr func
  · exact fun hset _ _ _ _ _ hr => h.hooks.set hset hr func

theorem Services.Discreet.rests (h : m.services.Discreet) : m.Rests Mind.Uses Mind.Outside := by
  refine ⟨.refl (-1), .trans, fun mind heap f => ?_, h.touches⟩
  obtain ⟨hprogram, hrules⟩ := mind.ended_same f
  exact .other hprogram hrules

end

/-! ## The services of every brain -/

section

variable {W : Type} {svc svc' : Services (Stage (Mind W))}

theorem Services.forall_register {P : HostFunction (Stage (Mind W)) → Prop}
    {functions functions' : Functions (Stage (Mind W))} (h : ∀ f ∈ functions.list, P f)
    {f : HostFunction (Stage (Mind W))} (hf : P f) {fn : Nat}
    (hregister : functions.register f = .ok (fn, functions')) : ∀ g ∈ functions'.list, P g := by
  unfold Functions.register at hregister
  repeat' split at hregister
  all_goals cases hregister
  intro g hg
  rcases Array.mem_push.mp hg with hg | rfl
  · exact h g hg
  · exact hf

/-- How a primitive is computed. -/
def Core.Primitive.compute : Primitive → Heap → Value → Except Mismatch Value
  | .operator _ _ _ f | .conversion _ _ _ f => f

/-- All functions of the core are those of its primitives, and no type has hooks. -/
theorem Core.forall_installed {P : HostFunction (Stage (Mind W)) → Prop}
    (hP : ∀ p ∈ primitives, P (primitive p.name p.compute)) :
    (∀ f ∈ (services : Services (Stage (Mind W))).functions.list, P f) ∧
      ∀ d ∈ (services : Services (Stage (Mind W))).types.types, d.hooks = none := by
  have hinstall (svc : Services (Stage (Mind W))) (p : Primitive) (hp : P (primitive p.name p.compute))
      (h : ∀ f ∈ svc.functions.list, P f) :
      (∀ f ∈ (install svc p).functions.list, P f) ∧ (install svc p).types = svc.types := by
    unfold install
    split
    all_goals
      split
      · exact ⟨h, rfl⟩
      · rename_i functions hregister
        split
        · exact ⟨h, rfl⟩
        · exact ⟨Services.forall_register h hp hregister, rfl⟩
  have hall (ps : List Primitive) (hps : ∀ p ∈ ps, P (primitive p.name p.compute))
      (svc : Services (Stage (Mind W))) (h : ∀ f ∈ svc.functions.list, P f) :
      (∀ f ∈ (ps.foldl install svc).functions.list, P f) ∧
        (ps.foldl install svc).types = svc.types := by
    induction ps generalizing svc with
    | nil => exact ⟨h, rfl⟩
    | cons p ps ih =>
      obtain ⟨hfirst, htypes⟩ := hinstall svc p (hps p List.mem_cons_self) h
      obtain ⟨hrest, htypes'⟩ := ih (fun q hq => hps q (List.mem_cons_of_mem _ hq)) _ hfirst
      exact ⟨hrest, htypes'.trans htypes⟩
  unfold services
  generalize primitives = ps at hP
  obtain ⟨hfunctions, htypes⟩ := hall ps hP {} fun f hf => absurd hf (Array.not_mem_empty f)
  refine ⟨hfunctions, ?_⟩
  rw [htypes]
  simp [TypeRegistry.initial, TypeRegistry.primitive]

/-- Operators and conversions are all made in one way. -/
theorem Core.forall_services {P : HostFunction (Stage (Mind W)) → Prop}
    (hP : ∀ name f, P (primitive name f)) :
    (∀ f ∈ (services : Services (Stage (Mind W))).functions.list, P f) ∧
      ∀ d ∈ (services : Services (Stage (Mind W))).types.types, d.hooks = none :=
  forall_installed fun _ _ => hP _ _

theorem Core.discreet_primitive (name : String) (f : Heap → Value → Except Mismatch Value) :
    (primitive name f : HostFunction (Stage (Mind W))).Discreet := by
  refine ⟨?_, nofun, nofun⟩
  rintro _ ⟨⟩ c args s
  dsimp only
  split <;> exact .refl _ _

theorem Core.discreet_services : (services : Services (Stage (Mind W))).Discreet := by
  obtain ⟨hfunctions, htypes⟩ := forall_services (W := W) discreet_primitive
  refine ⟨hfunctions, fun d hd hooks hhooks => ?_⟩
  rw [htypes d hd] at hhooks
  cases hhooks

theorem Mind.uses_setSiteState (func : Int) (m : Mind W) (site : Int) (state : Option SiteState) :
    m.Uses func (Host.setSiteState m site state) := by
  cases state <;> exact .other rfl rfl

theorem Mind.uses_requestPage (func : Int) (m : Mind W) (key : String) :
    m.Uses func (m.requestPage key).2 := by
  unfold requestPage
  split <;> exact .other rfl rfl

theorem Builtins.discreet_functions (f : HostFunction (Stage (Mind W))) (hf : f ∈ functions) :
    f.Discreet := by
  simp only [functions, List.mem_cons, List.not_mem_nil, or_false] at hf
  rcases hf with rfl | rfl | rfl | rfl | rfl
  · refine ⟨?_, nofun, nofun⟩
    rintro _ ⟨⟩ c args s
    dsimp only
    split
    · exact .refl _ _
    · rename_i key _
      have huses := s.host.uses_requestPage c.func key
      split
      · rename_i hrequest
        rwa [show s.host.requestPage key = _ from hrequest] at huses
      · rename_i hrequest
        rwa [show s.host.requestPage key = _ from hrequest] at huses
  · refine ⟨?_, nofun, nofun⟩
    rintro _ ⟨⟩ c args s
    exact .refl _ _
  · refine ⟨?_, nofun, nofun⟩
    rintro _ ⟨⟩ c args s
    exact .refl _ _
  · refine ⟨?_, nofun, ?_⟩
    · rintro _ ⟨⟩ c args s
      dsimp only
      split
      · exact .refl _ _
      · exact s.host.uses_setSiteState c.func c.site _
    · rintro _ ⟨⟩ c s
      exact s.host.uses_setSiteState c.func c.site none
  · refine ⟨nofun, ?_, nofun⟩
    rintro _ ⟨⟩ c args handle s
    dsimp only
    split
    · exact .refl _ _
    · exact .other rfl rfl

theorem Builtins.forall_install {P : HostFunction (Stage (Mind W)) → Prop}
    (h : ∀ f ∈ svc.functions.list, P f) (hP : ∀ f ∈ functions, P f) {catalog catalog' : Catalog}
    (hinstall : install svc catalog = .ok (svc', catalog')) :
    (∀ f ∈ svc'.functions.list, P f) ∧ svc'.types = svc.types := by
  have hall (fs : List (HostFunction (Stage (Mind W)))) (hfs : ∀ f ∈ fs, P f)
      (svc : Services (Stage (Mind W))) (h : ∀ f ∈ svc.functions.list, P f)
      (hregister : register fs svc = .ok svc') :
      (∀ f ∈ svc'.functions.list, P f) ∧ svc'.types = svc.types := by
    induction fs generalizing svc with
    | nil =>
      cases hregister
      exact ⟨h, rfl⟩
    | cons f fs ih =>
      rw [register] at hregister
      split at hregister
      · cases hregister
      · rename_i functions hf
        exact ih (fun g hg => hfs g (List.mem_cons_of_mem _ hg)) { svc with functions := functions }
          (Services.forall_register h (hfs f List.mem_cons_self) hf) hregister
  unfold install at hinstall
  split at hinstall
  · cases hinstall
  · rename_i hregister
    split at hinstall
    · cases hinstall
    · cases hinstall
      exact hall functions hP svc h hregister

theorem Builtins.discreet_install (h : svc.Discreet) {catalog catalog' : Catalog}
    (hinstall : install svc catalog = .ok (svc', catalog')) : svc'.Discreet := by
  obtain ⟨hfunctions, htypes⟩ := forall_install h.functions discreet_functions hinstall
  exact ⟨hfunctions, h.hooks.congr htypes⟩

end

/-! ## What a brain does -/

namespace Brain

variable {W : Type}

def prepared (b : Brain W) (dt : Int) : Except BrainFailure (Brain W) :=
  if b.isStopped then .error (.refused .stopped)
  else
    let b := (b.setMind { b.mind with clock := advance b.mind.clock dt }).fireTimers
    match b.mind.pending with
    | some index =>
      match b.switchPage index with
      | .error c => .error (.crashed c)
      | .ok b => .ok b.startRules
    | none => .ok b.startRules

theorem think_eq (b : Brain W) (dt : Int) :
    b.think dt = (b.prepared dt).bind fun b =>
      match b.scheduler.tick with
      | .error c => .error (.crashed c)
      | .ok s => .ok { b with scheduler := s } := by
  unfold think prepared
  split
  · rfl
  · dsimp only
    generalize (b.setMind { b.mind with clock := advance b.mind.clock dt }).fireTimers = b'
    cases hpending : b'.mind.pending with
    | none => rfl
    | some index =>
      dsimp only
      cases b'.switchPage index <;> rfl

/-- What can be asked of a brain that keeps its program. -/
inductive Command (W : Type) where
  | think (dt : Int)
  | requestPage (key : String)
  | setVariable (name : String) (v : Value)
  | stop
  | operate (op : Operation (Mind W))

namespace Command

/-- Does what is asked; what is refused changes nothing. -/
def perform (b : Brain W) : Command W → Except Crash (Brain W)
  | .think dt =>
    match b.think dt with
    | .ok b => .ok b
    | .error (.refused _) => .ok b
    | .error (.crashed c) => .error c
  | .requestPage key =>
    match b.requestPage key with
    | .ok b => .ok b
    | .error _ => .ok b
  | .setVariable name v =>
    match b.setVariable name v with
    | .ok b => .ok b
    | .error _ => .ok b
  | .stop => .ok b.stop
  | .operate op =>
    match op.perform b.scheduler with
    | .ok s => .ok { b with scheduler := s }
    | .error c => .error c

/-- The instructions that are executed meanwhile. -/
def executed (b : Brain W) : Command W → List (Executed (Mind W))
  | .think dt =>
    match b.prepared dt with
    | .ok b => b.scheduler.executed
    | .error _ => []
  | .operate .tick => b.scheduler.executed
  | _ => []

def performAll : List (Command W) → Brain W → Except Crash (Brain W)
  | [], b => .ok b
  | c :: cs, b =>
    match c.perform b with
    | .ok b => performAll cs b
    | .error e => .error e

def executedAll : List (Command W) → Brain W → List (Executed (Mind W))
  | [], _ => []
  | c :: cs, b =>
    c.executed b ++
      match c.perform b with
      | .ok b => executedAll cs b
      | .error _ => []

/-- Host code of the command changes no locals. -/
def Discreet : Command W → Prop
  | .operate (.post e) => e.Quiet Mind.Outside
  | .operate (.act run) => ∀ s : Stage (Mind W), Mind.Outside s.host (run s).host
  | _ => True

end Command

/-- From one brain to another the instructions `es` are executed. -/
abbrev Executes (es : List (Executed (Mind W))) (b b' : Brain W) : Prop :=
  b.scheduler.Executes Mind.Uses Mind.Outside es b'.scheduler

section

variable {b b' b'' : Brain W} {es es' : List (Executed (Mind W))}

abbrev Discreet (b : Brain W) : Prop := b.scheduler.machine.services.Discreet

theorem Executes.discreet (h : b.Executes es b') (hb : b.Discreet) : b'.Discreet := by
  rw [Discreet, h.machine]
  exact hb

theorem Executes.trans (hb : b.Discreet) (h : b.Executes es b') (h' : b'.Executes es' b'') :
    b.Executes (es ++ es') b'' :=
  Scheduler.Executes.trans hb.rests h h'

theorem executes_setMind (b : Brain W) {m : Mind W} (hm : Mind.Outside b.mind m) :
    b.Executes [] (b.setMind m) :=
  Scheduler.executes_nothing rfl rfl hm

theorem executes_deliver (b : Brain W) {stage : Stage (Mind W)}
    (hstage : Mind.Outside b.scheduler.stage.host stage.host) :
    b.Executes [] { b with scheduler := { b.scheduler with stage := stage }.deliver } :=
  Scheduler.executes_stage hstage

theorem foldl_host {α : Type} {f : Stage (Mind W) → α → Stage (Mind W)} (hf : ∀ s x, (f s x).host = s.host)
    (xs : List α) (s : Stage (Mind W)) : (xs.foldl f s).host = s.host := by
  induction xs generalizing s with
  | nil => rfl
  | cons x xs ih => rw [List.foldl_cons, ih, hf]

theorem executes_fireTimers (hb : b.Discreet) : b.Executes [] b.fireTimers := by
  have hset : b.Executes [] (b.setMind
      { b.mind with timers := (b.mind.timers.due b.mind.clock.elapsed).2 }) :=
    executes_setMind b (.other rfl rfl)
  refine hset.trans hb (executes_deliver _ ?_)
  rw [foldl_host fun s (h : Nat) => s.resolve_host h .void]
  exact .refl _ _

theorem cancelled_host (s : Stage (Mind W)) (h : Nat) :
    (match s.cancel h with | .ok s => s | .error _ => s).host = s.host := by
  split
  · rename_i hcancel
    exact Stage.cancel_host hcancel
  · rfl

theorem executes_cancelTimers (hb : b.Discreet) : b.Executes [] b.cancelTimers := by
  have hsame := foldl_host (fun s (h : Nat) => cancelled_host s h)
    (b.mind.timers.timers.map Timer.handle) (b.setMind { b.mind with timers := {} }).scheduler.stage
  have hset : b.Executes [] (b.setMind { b.mind with timers := {} }) :=
    executes_setMind b (.other rfl rfl)
  exact hset.trans hb (executes_deliver _ (.other (congrArg Mind.program hsame)
    (congrArg Mind.rules hsame)))

/-- When a page is entered, what happens at a site is what its function does to the stage, if it is told. -/
theorem enterSite_cases (b : Brain W) (site : CallSite) : b.enterSite site = b ∨
    ∃ f hook, b.services.functions.get? site.fn = some f ∧ f.onPage = some hook ∧ b.enterSite site =
      { b with scheduler := { b.scheduler with
        stage := hook { program := b.program, func := -1, site := site.site } b.scheduler.stage }.deliver } := by
  unfold enterSite
  split
  · exact .inl rfl
  · rename_i hook hfound
    obtain ⟨f, hf, hhook⟩ := Option.bind_eq_some_iff.mp hfound
    exact .inr ⟨f, hook, hf, hhook, rfl⟩

theorem executes_enterSite (hb : b.Discreet) (site : CallSite) : b.Executes [] (b.enterSite site) := by
  obtain hsame | ⟨f, hook, hf, hhook, hentered⟩ := b.enterSite_cases site
  · rw [hsame]
    exact Scheduler.executes_nothing rfl rfl (.refl _ _)
  · rw [hentered]
    exact executes_deliver b ((hb.function hf).onPage hhook ⟨b.program, 0, -1, site.site, none⟩ _)

theorem executes_foldl {α : Type} {f : Brain W → α → Brain W}
    (hf : ∀ b : Brain W, b.Discreet → ∀ x, b.Executes [] (f b x)) (xs : List α) (hb : b.Discreet) :
    b.Executes [] (xs.foldl f b) := by
  induction xs generalizing b with
  | nil => exact Scheduler.executes_nothing rfl rfl (.refl _ _)
  | cons x xs ih =>
    have hfirst := hf b hb x
    exact hfirst.trans hb (ih (hfirst.discreet hb))

theorem executes_switchPage (hb : b.Discreet) {index : Int} (h : b.switchPage index = .ok b') :
    b.Executes [] b' := by
  unfold switchPage at h
  dsimp only at h
  have hclear : b.Executes [] (b.setMind { b.mind with pending := none }) :=
    executes_setMind b (.other rfl rfl)
  generalize b.setMind { b.mind with pending := none } = b1 at h hclear
  have hb1 := hclear.discreet hb
  have hcancel : b1.Executes [] { b1.cancelAll with fibers := {} } :=
    Scheduler.executes_cancelAll hb1.rests b1.scheduler
  generalize ({ b1.cancelAll with fibers := {} } : Brain W) = b2 at h hcancel
  have hb2 := hcancel.discreet hb1
  have htimers := executes_cancelTimers hb2
  generalize b2.cancelTimers = b3 at h htimers
  have hb3 := htimers.discreet hb2
  have hactive : b3.Executes [] (b3.setMind { b3.mind with active := index }) :=
    executes_setMind b3 (.other rfl rfl)
  generalize b3.setMind { b3.mind with active := index } = b4 at h hactive
  split at h
  · cases h
  · rename_i page _
    cases h
    have hsites := executes_foldl (fun b hb site => executes_enterSite hb site) page.sites
      (hactive.discreet hb3)
    exact ((hclear.trans hb hcancel).trans hb htimers).trans hb (hactive.trans hb3 hsites)

theorem executes_startRule (hb : b.Discreet) (func : Int) : b.Executes [] (b.startRule func) := by
  unfold startRule
  split
  · exact Scheduler.executes_nothing rfl rfl (.refl _ _)
  · split
    · rename_i hspawn
      exact Scheduler.executes_spawn hb.rests hspawn
    · exact Scheduler.executes_nothing rfl rfl (.other rfl rfl)

theorem executes_startRules (hb : b.Discreet) : b.Executes [] b.startRules := by
  unfold startRules
  split
  · exact executes_foldl (fun b hb func => executes_startRule hb func) _ hb
  · exact Scheduler.executes_nothing rfl rfl (.refl _ _)

theorem executes_prepared (hb : b.Discreet) {dt : Int} (h : b.prepared dt = .ok b') :
    b.Executes [] b' := by
  unfold prepared at h
  split at h
  · cases h
  · dsimp only at h
    have hclock : b.Executes [] (b.setMind { b.mind with clock := advance b.mind.clock dt }) :=
      executes_setMind b (.other rfl rfl)
    have hfire := hclock.trans hb (executes_fireTimers (hclock.discreet hb))
    generalize (b.setMind { b.mind with clock := advance b.mind.clock dt }).fireTimers = b1 at h hfire
    have hb1 := hfire.discreet hb
    split at h
    · split at h
      · cases h
      · rename_i b2 hswitch
        cases h
        have hswitched := hfire.trans hb (executes_switchPage hb1 hswitch)
        exact hswitched.trans hb (executes_startRules (hswitched.discreet hb))
    · cases h
      exact hfire.trans hb (executes_startRules hb1)

/-- Errands that wait to be done keep to the outside of rules. -/
abbrev Calm (b : Brain W) : Prop := ∀ e ∈ b.scheduler.inbox, e.Quiet Mind.Outside

theorem executes_think (hb : b.Discreet) (hcalm : b.Calm) {dt : Int} (h : b.think dt = .ok b') :
    b.Executes ((Command.think dt).executed b) b' := by
  rw [think_eq] at h
  rw [Command.executed]
  cases hprepared : b.prepared dt with
  | error e =>
    rw [hprepared] at h
    cases h
  | ok b1 =>
    rw [hprepared] at h
    have hfirst := executes_prepared hb hprepared
    dsimp only [Except.bind] at h ⊢
    split at h
    · cases h
    · rename_i s hs
      cases h
      exact hfirst.trans hb
        (Scheduler.executes_tick (hfirst.discreet hb).rests (hfirst.inbox hcalm) hs)

theorem executes_operate (hb : b.Discreet) (hcalm : b.Calm) {op : Operation (Mind W)}
    (hop : (Command.operate op).Discreet) {s : Scheduler (Mind W)}
    (h : op.perform b.scheduler = .ok s) :
    b.Executes ((Command.operate op).executed b) { b with scheduler := s } := by
  have hsame : b.Executes [] b := Scheduler.executes_nothing rfl rfl (.refl _ _)
  cases op with
  | spawn func =>
    obtain ⟨id, hspawn⟩ | rfl := Operation.spawn_of_perform h
    · exact Scheduler.executes_spawn hb.rests hspawn
    · exact hsame
  | tick => exact Scheduler.executes_tick hb.rests hcalm h
  | cancel fiber =>
    obtain ⟨f, -, rfl⟩ | rfl := Operation.cancel_of_perform h
    · exact Scheduler.executes_cancelFiber hb.rests b.scheduler f
    · exact hsame
  | cancelAll =>
    cases h
    exact Scheduler.executes_cancelAll hb.rests b.scheduler
  | post e =>
    cases h
    refine ⟨rfl, fun hs x hx => ?_, .rest (.refl _ _)⟩
    rcases List.mem_append.mp hx with hx | hx
    · exact hs x hx
    · obtain rfl := List.mem_singleton.mp hx
      exact hop
  | resolve handle v =>
    cases h
    refine executes_deliver b ?_
    rw [Stage.resolve_host]
    exact .refl _ _
  | reject handle fault =>
    cases h
    refine executes_deliver b ?_
    rw [Stage.reject_host]
    exact .refl _ _
  | cancelHandle handle =>
    obtain ⟨stage, hcancel, rfl⟩ | rfl := Operation.cancelHandle_of_perform h
    · refine executes_deliver b ?_
      rw [Stage.cancel_host hcancel]
      exact .refl _ _
    · exact hsame
  | act run =>
    cases h
    exact executes_deliver b (hop _)

/-- Whatever a command changes in the mind of a brain is changed by the instructions executed, or lies
outside of the rules. -/
theorem Command.executes (hb : b.Discreet) (hcalm : b.Calm) {c : Command W} (hc : c.Discreet)
    (h : c.perform b = .ok b') : b.Executes (c.executed b) b' := by
  have hsame : b.Executes [] b := Scheduler.executes_nothing rfl rfl (.refl _ _)
  cases c with
  | think dt =>
    unfold perform at h
    dsimp only at h
    split at h
    · rename_i b1 hthink
      cases h
      exact executes_think hb hcalm hthink
    · rename_i e hthink
      cases h
      rw [think_eq] at hthink
      -- A tick is refused before any fiber runs.
      have hrefused : b.prepared dt = .error (.refused e) := by
        cases hprepared : b.prepared dt with
        | error e' =>
          rw [hprepared] at hthink
          exact hthink
        | ok b1 =>
          rw [hprepared] at hthink
          dsimp only [Except.bind] at hthink
          split at hthink <;> cases hthink
      rw [Command.executed, hrefused]
      exact hsame
    · cases h
  | requestPage key =>
    rw [perform, requestPage_eq] at h
    cases hpage : b.mind.page? key with
    | none =>
      simp only [hpage] at h
      cases h
      exact hsame
    | some index =>
      simp only [hpage] at h
      cases h
      exact executes_setMind b (.other rfl rfl)
  | setVariable name v =>
    unfold perform Brain.setVariable Mind.setGlobal? at h
    cases hglobal : b.mind.global? name with
    | none =>
      simp only [hglobal, Option.map_none] at h
      cases h
      exact hsame
    | some i =>
      simp only [hglobal, Option.map_some] at h
      cases h
      exact executes_setMind b (.other rfl rfl)
  | stop =>
    cases h
    unfold Brain.stop
    split
    · exact hsame
    · have hcancel : b.Executes [] b.cancelAll := Scheduler.executes_cancelAll hb.rests b.scheduler
      exact hcancel.trans hb (executes_cancelTimers (hcancel.discreet hb))
  | operate op =>
    unfold perform at h
    dsimp only at h
    split at h
    · rename_i s hs
      cases h
      exact executes_operate hb hcalm hc hs
    · cases h

theorem Command.executes_all (hb : b.Discreet) (hcalm : b.Calm) {cs : List (Command W)}
    (hcs : ∀ c ∈ cs, c.Discreet) (h : performAll cs b = .ok b') : b.Executes (executedAll cs b) b' := by
  induction cs generalizing b with
  | nil =>
    cases h
    exact Scheduler.executes_nothing rfl rfl (.refl _ _)
  | cons c cs ih =>
    rw [performAll] at h
    rw [executedAll]
    split at h
    · rename_i b1 hfirst
      have hc := executes hb hcalm (hcs c List.mem_cons_self) hfirst
      exact hc.trans hb (ih (hc.discreet hb) (hc.inbox hcalm)
        (fun x hx => hcs x (List.mem_cons_of_mem _ hx)) h)
    · cases h

end

end Brain

/-! ## What changes in the scope of a function -/

/-- Only locals of the rule that a function belongs to, and of the rules around it, differ. -/
def BrainDef.Confines {W : Type} (d : BrainDef) (func : Int) (m m' : Mind W) : Prop :=
  ∀ n : Nat, m'.locals? n ≠ m.locals? n →
    ∃ q ∈ d.places, (q.number : Int) = func ∧ n ∈ q.number :: q.outer

namespace Mind

variable {W : Type} {m m' : Mind W} {p : Program}

theorem shape_modify (rules : Cells RuleState) (i : Int) (f : Cells Value → Cells Value) :
    shape (rules.modify i fun r => { r with locals := f r.locals }) = shape rules := by
  unfold shape Cells.modify
  rw [List.map_map]
  refine List.map_congr_left fun e _ => ?_
  simp only [Function.comp]
  split <;> rfl

theorem Carries.updateCells (hm : m.Carries p) (func var : Int) (f : Cells Value → Cells Value) :
    (m.updateCells func var f).Carries p := by
  unfold Mind.updateCells
  split
  · exact ⟨hm.program, by rw [shape_modify, hm.shape]⟩
  · exact ⟨hm.program, hm.shape⟩

theorem locals?_updateCells {n : Int} {func var : Int} (f : Cells Value → Cells Value)
    (hn : m.owner? func var ≠ some n) : (m.updateCells func var f).locals? n = m.locals? n := by
  unfold Mind.updateCells
  split
  · rename_i rule howner
    have hne : n ≠ rule := by
      rintro rfl
      exact hn howner
    rw [locals?, locals?, Cells.get?_modify, if_neg hne]
  · rfl

end Mind

section

variable {σ W : Type} {env : CompileEnv σ} {d : BrainDef} {plan : Plan} {entry : Int} {m m' : Mind W}

theorem PlanOf.mem_of_owner? (h : PlanOf env d plan)
    (hm : m.Carries (assemble env d.pageInfos entry plan).1) {func var : Int} {n : Nat}
    (howner : m.owner? func var = some (n : Int)) :
    ∃ q ∈ d.places, (q.number : Int) = func ∧ n ∈ q.number :: q.outer := by
  by_cases hrule : 0 ≤ func ∧ func < d.places.length
  · obtain ⟨k, rfl⟩ := Int.eq_ofNat_of_zero_le hrule.1
    have hlt : k < d.places.length := by omega
    have hq := List.getElem?_eq_getElem hlt
    have hnumber := d.number_places hq
    refine ⟨_, List.getElem_mem hlt, by rw [hnumber], ?_⟩
    have heq := h.owner?_eq hm var (List.getElem_mem hlt)
    rw [hnumber, howner] at heq
    obtain ⟨k', hk', hcast⟩ := Option.map_eq_some_iff.mp heq.symm
    rw [← Int.ofNat.inj hcast, hnumber]
    exact List.mem_of_find?_eq_some hk'
  · -- A function that is no rule sees globals only.
    have hlength : (assemble env d.pageInfos entry plan).1.rules.length = d.places.length := by
      simp [assemble, h.planned.length_eq]
    have hnone := hm.get?_eq_none h.tabled (k := func) (by omega)
    simp [Mind.owner?, Mind.ownerFrom, hnone] at howner

/-- In the scope of a function only its own locals and those around it change. -/
theorem PlanOf.confines (h : PlanOf env d plan)
    (hm : m.Carries (assemble env d.pageInfos entry plan).1) {func : Int} (huses : Mind.Uses func m m') :
    m'.Carries (assemble env d.pageInfos entry plan).1 ∧ d.Confines func m m' := by
  have hcells {m : Mind W} (hm : m.Carries (assemble env d.pageInfos entry plan).1) (var : Int)
      (f : Cells Value → Cells Value) :
      (m.updateCells func var f).Carries (assemble env d.pageInfos entry plan).1 ∧
        d.Confines func m (m.updateCells func var f) := by
    refine ⟨hm.updateCells func var f, fun n hn => ?_⟩
    by_cases howner : m.owner? func var = some (n : Int)
    · exact h.mem_of_owner? hm howner
    · exact absurd (Mind.locals?_updateCells f howner) hn
  induction huses with
  | other program rules =>
    refine ⟨⟨program.trans hm.program, by rw [rules, hm.shape]⟩, fun n hn => absurd ?_ hn⟩
    rw [Mind.locals?, Mind.locals?, rules]
  | store m var v => exact hcells hm var _
  | clear m var => exact hcells hm var _
  | @trans m m' m'' _ _ ih ih' =>
    obtain ⟨hm', hfirst⟩ := ih hm
    obtain ⟨hm'', hsecond⟩ := ih' hm'
    refine ⟨hm'', fun n hn => ?_⟩
    by_cases hsame : m'.locals? n = m.locals? n
    · exact hsecond n (hsame ▸ hn)
    · exact hfirst n hsame

theorem PlanOf.outside (h : PlanOf env d plan)
    (hm : m.Carries (assemble env d.pageInfos entry plan).1) (houtside : Mind.Outside m m') :
    m'.Carries (assemble env d.pageInfos entry plan).1 ∧ ∀ n : Nat, m'.locals? n = m.locals? n := by
  obtain ⟨hm', hconfines⟩ := h.confines hm houtside
  refine ⟨hm', fun n => ?_⟩
  by_contra hne
  obtain ⟨q, -, hq, -⟩ := hconfines n hne
  omega

/-- The instructions executed account for all changes of locals. -/
theorem PlanOf.accounts (h : PlanOf env d plan)
    (hm : m.Carries (assemble env d.pageInfos entry plan).1) {es : List (Executed (Mind W))}
    (haccounts : Accounts Mind.Uses Mind.Outside m es m') :
    m'.Carries (assemble env d.pageInfos entry plan).1 ∧
      Accounts d.Confines (fun m m' : Mind W => ∀ n : Nat, m'.locals? n = m.locals? n) m es m' := by
  induction haccounts with
  | rest between =>
    obtain ⟨hm', hsame⟩ := h.outside hm between
    exact ⟨hm', .rest hsame⟩
  | step between touches _ ih =>
    obtain ⟨hbefore, hsame⟩ := h.outside hm between
    obtain ⟨hafter, hconfines⟩ := h.confines hbefore touches
    obtain ⟨hm', hrest⟩ := ih hafter
    exact ⟨hm', .step hsame hconfines hrest⟩

end

/-! ## Compilation and running brains -/

section

variable {σ : Type} {env : CompileEnv σ} {d : BrainDef} {p : Program} {diags : Diagnostics}

/-- Compilation and brains agree about variables. The code of every rule reaches each variable that its
rows use where the nearest declaration puts it, and inference takes it by the declared type. In a
brain that keeps its program, however it is used, the locals of a rule change only by instructions
of that rule and of rules inside it. -/
theorem scoping_agrees (hcompile : compile env d = .ok (p, diags)) (hsmall : p.Small) :
    (∀ q ∈ d.places, ∃ fn, p.functions[q.number]? = some fn ∧ fn.Scoped env d p q) ∧
    ∀ {W : Type} (svc : Services (Stage (Mind W))) (limits : Limits) (heap : Heap) (world : W)
      (b b' : Brain W) (cs : List (Brain.Command W)), svc.Discreet → (∀ c ∈ cs, c.Discreet) →
      Brain.create p svc limits heap world = .ok b → Brain.Command.performAll cs b = .ok b' →
      b'.mind.Carries p ∧
        Accounts d.Confines (fun m m' : Mind W => ∀ n : Nat, m'.locals? n = m.locals? n)
          b.mind (Brain.Command.executedAll cs b) b'.mind := by
  obtain ⟨plan, entry, hplan, rfl⟩ := assemble_of_compile hcompile
  refine ⟨fun q hq => hplan.scoped hsmall hq, ?_⟩
  intro W svc limits heap world b b' cs hsvc hcs hcreate hperform
  unfold Brain.create at hcreate
  split at hcreate
  · cases hcreate
  · cases hcreate
    have hruns := Brain.Command.executes_all hsvc (fun e he => absurd he List.not_mem_nil) hcs hperform
    exact hplan.accounts ⟨rfl, rfl⟩ hruns.host

end

/-- A local that has the name of a global. A rule inside uses the local, a rule beside it the global. -/
def shadowingBrain : BrainDef :=
  { globals := [{ name := "n", type := .number }]
    pages := [{ rules := [
      { locals := [{ name := "n", type := .string }]
        doRow := "$n = \"local\""
        children := [{ doRow := "$n = $n + \"!\"" }] },
      { doRow := "$n = 5" }] }] }

def shadowingEnv : CompileEnv (Stage (Mind Unit)) :=
  match Builtins.install Core.services {} with
  | .ok (svc, catalog) => { services := svc, catalog := catalog }
  | .error _ => { services := Core.services, catalog := {} }

theorem services_shadowingEnv {P : Services (Stage (Mind Unit)) → Prop} (hcore : P Core.services)
    (hinstalled : ∀ {svc catalog}, Builtins.install Core.services {} = .ok (svc, catalog) → P svc) :
    P shadowingEnv.services := by
  unfold shadowingEnv
  split
  · rename_i hinstall
    exact hinstalled hinstall
  · exact hcore

theorem discreet_shadowingEnv : shadowingEnv.services.Discreet :=
  services_shadowingEnv Core.discreet_services fun hinstall =>
    Builtins.discreet_install Core.discreet_services hinstall

theorem scoping_agrees_shadowingBrain :
    ∃ p diags, compile shadowingEnv shadowingBrain = .ok (p, diags) ∧ p.Small ∧
      (∀ q ∈ shadowingBrain.places, ∃ fn, p.functions[q.number]? = some fn ∧
        fn.Scoped shadowingEnv shadowingBrain p q) ∧
      ∃ b b' : Brain Unit, Brain.create p shadowingEnv.services {} {} () = .ok b ∧
        Brain.Command.performAll [.think 0] b = .ok b' ∧
        b'.mind.load 1 1 = .string "local!" ∧ b'.mind.load 2 0 = .int 5 ∧
        Accounts shadowingBrain.Confines (fun m m' : Mind Unit => ∀ n : Nat, m'.locals? n = m.locals? n)
          b.mind (Brain.Command.executedAll [.think 0] b) b'.mind := by
  have hran : (compile shadowingEnv shadowingBrain).toOption.any (fun r =>
      decide r.1.Small && (Brain.create r.1 shadowingEnv.services {} {} ()).toOption.any fun b =>
        (Brain.Command.performAll [.think 0] b).toOption.any fun b' =>
          decide (b'.mind.load 1 1 = .string "local!") && decide (b'.mind.load 2 0 = .int 5)) = true := by
    decide +kernel
  obtain ⟨⟨p, diags⟩, hc, hran⟩ := exists_of_any_toOption hran
  simp only [Bool.and_eq_true, decide_eq_true_eq] at hran
  obtain ⟨hsmall, hran⟩ := hran
  obtain ⟨b, hb, hran⟩ := exists_of_any_toOption hran
  obtain ⟨b', hb', hran⟩ := exists_of_any_toOption hran
  simp only [Bool.and_eq_true, decide_eq_true_eq] at hran
  obtain ⟨hscoped, hruns⟩ := scoping_agrees hc hsmall
  have haccounts := hruns shadowingEnv.services {} {} () b b' [.think 0] discreet_shadowingEnv
    (by simp [Brain.Command.Discreet]) hb hb'
  exact ⟨p, diags, hc, hsmall, hscoped, b, b', hb, hb', hran.1, hran.2, haccounts.2⟩

end TileMind
