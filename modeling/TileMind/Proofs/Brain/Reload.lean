import TileMind.Proofs.Brain.Plays

/-!
# TileMind.Proofs.Brain.Reload

What is left of a brain when another program takes over. Values are carried over by name, whatever
number they were kept under; so the number of a local, once host code has set it among the globals,
passes for the global of its name.

* `Mind.Misplaced`: a value among the globals that is not the global of its name.
* `Brain.get?_restore`, `Brain.lookup_carried`: the way of a value from one program to the other.
* `Brain.TakesOver`: what is kept and what is not.
* `reload_carries`: this for every brain, and who misplaces values.
-/

namespace TileMind

namespace Mind

variable {W : Type} {S : Program → Int → Int → Prop} {p : Program} {m : Mind W}

/-- A value is set among the globals under a number of this name, but the global of the name has
another number, or there is none. -/
def Misplaced (m : Mind W) (name : String) (id : Int) : Prop :=
  (m.globals.get? id).isSome ∧ Program.atInt? m.program.vars id = some name ∧
    ∀ i : Nat, m.global? name = some i → id ≠ i

theorem Plays.strays (hm : m.Plays S p) (hsmall : p.Small) {name : String} {id : Int}
    (h : m.Misplaced name id) : m.Strays S id := by
  obtain ⟨hset, hname, hother⟩ := h
  rcases hm.globals id (m.globals.isSome_get?_iff.mp hset) with ⟨i, x, rfl, hx, hglobal⟩ | hstrays | hbig
  · obtain rfl : x = name := by simpa [Program.atInt?, hx] using hname
    exact absurd rfl (hother i hglobal)
  · exact hstrays
  · exact absurd hsmall hbig.1

theorem locals_rulesOf (hp : Tabled p) {func : Int} {r : RuleState} (h : (rulesOf p).get? func = some r) :
    r.locals = {} := by
  by_cases hrule : 0 ≤ func ∧ func < p.rules.length
  · obtain ⟨k, rfl⟩ := Int.eq_ofNat_of_zero_le hrule.1
    have hbare := rulesOf_get? hp (List.getElem?_eq_getElem (show k < p.rules.length by omega))
    have hget : (rulesOf p).get? k = some r := h
    rw [hget, Option.map_some, Option.some.injEq] at hbare
    exact congrArg (fun t : RuleInfo × Option Int × Cells Value => t.2.2) hbare
  · have hcarries : Carries { program := p, rules := rulesOf p, world := () } p := ⟨rfl, rfl⟩
    have hnone : (rulesOf p).get? func = none := hcarries.get?_eq_none hp (by omega)
    rw [hnone] at h
    cases h

end Mind

namespace Brain

variable {W : Type} {S : Program → Int → Int → Prop} {p q : Program} {b : Brain W}

/-! ## From one program to the other -/

theorem get?_restore (m : Mind W) (values : List (String × Value)) {name : String} {i : Nat}
    (hglobal : m.global? name = some i) :
    (restore m values).globals.get? i = (values.reverse.lookup name).or (m.globals.get? i) := by
  induction values generalizing m with
  | nil => rfl
  | cons value values ih =>
    obtain ⟨x, v⟩ := value
    have hcons : restore m ((x, v) :: values) = restore ((m.setGlobal? x v).getD m) values := rfl
    rw [hcons, List.reverse_cons, List.lookup_append, lookup_cons_eq]
    by_cases hx : name = x
    · subst hx
      have hset : (m.setGlobal? name v).getD m = { m with globals := m.globals.set i v } := by
        simp [Mind.setGlobal?, hglobal]
      rw [hset, ih { m with globals := m.globals.set i v } hglobal, Cells.get?_set, if_pos rfl,
        if_pos rfl, Option.or_assoc, Option.some_or]
    · rw [if_neg hx, List.lookup_nil, Option.or_none]
      cases hother : m.global? x with
      | none =>
        have hset : (m.setGlobal? x v).getD m = m := by simp [Mind.setGlobal?, hother]
        rw [hset, ih m hglobal]
      | some j =>
        have hset : (m.setGlobal? x v).getD m = { m with globals := m.globals.set j v } := by
          simp [Mind.setGlobal?, hother]
        have hne : (i : Int) ≠ j := by
          intro heq
          obtain rfl := Int.ofNat.inj heq
          have hboth := (Mind.vars_of_global? hglobal).symm.trans (Mind.vars_of_global? hother)
          exact hx (Option.some.inj hboth)
        rw [hset, ih { m with globals := m.globals.set j v } hglobal, Cells.get?_set, if_neg hne]

/-- What is carried over under a name: the values of its numbers. -/
theorem mem_carried {values : List (String × Value)} (h : b.Named values) {name : String} {v : Value} :
    (name, v) ∈ values ↔
      ∃ id, (id, v) ∈ b.mind.globals.entries ∧ Program.atInt? b.program.vars id = some name := by
  constructor
  · intro hmem
    obtain ⟨k, hk⟩ := List.mem_iff_getElem?.mp hmem
    obtain ⟨⟨id, w⟩, he, hname, rfl⟩ := forall₂_getElem? h.flip hk
    exact ⟨id, List.mem_of_getElem? he, hname⟩
  · rintro ⟨id, he, hname⟩
    obtain ⟨k, hk⟩ := List.mem_iff_getElem?.mp he
    obtain ⟨⟨x, w⟩, hvalue, hx, rfl⟩ := forall₂_getElem? h hk
    obtain rfl : x = name := Option.some.inj (hx.symm.trans hname)
    exact List.mem_of_getElem? hvalue

/-- If nothing is misplaced under a name, the value that is carried over is that of the global. -/
theorem lookup_carried (hb : b.mind.Plays S p) (hprogram : b.program = p)
    {values : List (String × Value)} (h : b.Named values) {name : String} (hplaced : ∀ id, ¬ b.mind.Misplaced name id) :
    values.reverse.lookup name = (b.mind.global? name).bind fun (i : Nat) => b.mind.globals.get? i := by
  have hvars : b.mind.program.vars = b.program.vars := by rw [hb.carries.program, hprogram]
  have hglobal {id : Int} {v : Value} (he : (id, v) ∈ b.mind.globals.entries)
      (hname : Program.atInt? b.program.vars id = some name) :
      ∃ i : Nat, b.mind.global? name = some i ∧ b.mind.globals.get? i = some v := by
    have hset : b.mind.globals.get? id = some v := lookup_of_mem hb.distinct he
    by_contra hother
    refine hplaced id ⟨by rw [hset]; rfl, by rwa [hvars], fun i hi => ?_⟩
    rintro rfl
    exact hother ⟨i, hi, hset⟩
  cases hlookup : values.reverse.lookup name with
  | some v =>
    have hmem : (name, v) ∈ values := List.mem_reverse.mp (mem_of_lookup_eq_some hlookup)
    obtain ⟨id, he, hname⟩ := (mem_carried h).mp hmem
    obtain ⟨i, hi, hset⟩ := hglobal he hname
    rw [hi, Option.bind_some, hset]
  | none =>
    cases hi : b.mind.global? name with
    | none => rfl
    | some i =>
      cases hset : b.mind.globals.get? i with
      | none => rw [Option.bind_some, hset]
      | some v =>
        have hname : Program.atInt? b.program.vars i = some name := by
          rw [← hvars]
          simp [Program.atInt?, Mind.vars_of_global? hi]
        have hmem : (name, v) ∈ values := (mem_carried h).mpr ⟨i, mem_of_lookup_eq_some hset, hname⟩
        have hnone := lookup_eq_none_iff.mp hlookup
        exact absurd (List.mem_map_of_mem (List.mem_reverse.mpr hmem)) hnone

/-! ## Taking over -/

/-- The brain `b'` is what is left of `b` when `q` takes over. A global has the value that the global of
its name had, if nothing was misplaced under that name; in any case a value that was carried over had
the same name before. The clock and the faults go on, all else starts afresh. -/
structure TakesOver (q : Program) (b b' : Brain W) : Prop where
  program : b'.program = q
  globals : ∀ name v, b'.mind.globalValue? name = some v → (∀ id, ¬ b.mind.Misplaced name id) →
    v = (b.mind.globalValue? name).getD .nil
  sources : ∀ name v, b'.mind.globalValue? name = some v → v = .nil ∨
    ∃ id, b.mind.globals.get? id = some v ∧ Program.atInt? b.program.vars id = some name
  locals : ∀ func r, b'.mind.rules.get? func = some r → r.locals = {}
  sites : b'.mind.sites = {}
  live : b'.scheduler.live = []
  timers : b'.mind.timers = {}
  clock : b'.mind.clock = b.mind.clock
  faults : b'.mind.faults = b.mind.faults

theorem Plays.takesOver (hb : b.Plays S p) (hq : q.Compiled) (svc : Option (Services (Stage (Mind W))))
    {values : List (String × Value)} (h : b.Named values) : TakesOver q b (b.reloaded q svc values) := by
  let fresh : Mind W :=
    { program := q, rules := Mind.rulesOf q, clock := b.mind.clock, faults := b.mind.faults,
      world := b.mind.world }
  obtain ⟨hsame, -, -⟩ := restore_eq fresh values
  have hmind : (b.reloaded q svc values).mind =
      { restore fresh values with active := b.landing q }.setPending (b.landing q) := rfl
  -- What a name means depends on the program alone.
  have hvalue {name : String} {v : Value} (hv : (b.reloaded q svc values).mind.globalValue? name = some v) :
      v = (values.reverse.lookup name).getD .nil := by
    obtain ⟨i, hi, rfl⟩ := Option.map_eq_some_iff.mp hv
    have hglobal : fresh.global? name = some i := by
      rw [← hi]
      exact (Mind.global?_congr (by rw [hmind, hsame]; rfl) name).symm
    have hget := get?_restore fresh values hglobal
    rw [show fresh.globals.get? i = none from rfl, Option.or_none] at hget
    rw [hmind, ← hget]
    rfl
  refine ⟨rfl, fun name v hv hplaced => ?_, fun name v hv => ?_, fun func r hr => ?_, ?_, rfl, ?_, ?_, ?_⟩
  · rw [hvalue hv, lookup_carried hb.mind hb.program h hplaced, Mind.globalValue?]
    cases b.mind.global? name <;> rfl
  · rw [hvalue hv]
    cases hlookup : values.reverse.lookup name with
    | none => exact .inl rfl
    | some w =>
      have hmem : (name, w) ∈ values := List.mem_reverse.mp (mem_of_lookup_eq_some hlookup)
      obtain ⟨id, he, hname⟩ := (mem_carried h).mp hmem
      exact .inr ⟨id, lookup_of_mem hb.mind.distinct he, hname⟩
  · have hrules : (b.reloaded q svc values).mind.rules = Mind.rulesOf q := by
      rw [hmind, hsame]
      rfl
    rw [hrules] at hr
    exact Mind.locals_rulesOf hq.tabled hr
  all_goals
    rw [hmind, hsame]
    rfl

end Brain

/-- Another program takes over from a brain that is not stopped, however it was used. Globals keep their
values by name, and nothing else is kept but the clock and the faults, unless host code has set a
variable that the program does not have, which crashes. What is misplaced among the globals, and so may
pass for a global of its name, was put there by host code on behalf of a function around which no rule
declares it. -/
theorem reload_carries {σ : Type} {env : CompileEnv σ} {d : BrainDef} {p : Program} {diags : Diagnostics}
    (hcompile : compile env d = .ok (p, diags)) {W : Type} {S : Program → Int → Int → Prop}
    {svc : Services (Stage (Mind W))} (hsvc : svc.Works S) {limits : Limits} {heap : Heap} {world : W}
    {b₀ b : Brain W} (hcreate : Brain.create p svc limits heap world = .ok b₀)
    {rs : List (Brain.Request W)} (hrs : ∀ r ∈ rs, r.Works S)
    (hran : Brain.Request.performAll rs b₀ = .ok b) (hgoing : b.isStopped = false)
    {σ' : Type} {env' : CompileEnv σ'} {d' : BrainDef} {q : Program} {diags' : Diagnostics}
    (hcompile' : compile env' d' = .ok (q, diags')) (svc' : Option (Services (Stage (Mind W)))) :
    ((∃ b', b.reload q svc' = .ok (none, b') ∧ b.TakesOver q b') ∨
      ∃ func id, S b.program func id ∧ Program.atInt? b.program.vars id = none ∧
        b.reload q svc' = .error (.noVariable id)) ∧
    (b.program.Small → ∀ name id, b.mind.Misplaced name id → b.mind.Strays S id) := by
  have hq : q.Compiled := ⟨σ', env', d', diags', hcompile'⟩
  obtain ⟨b₁, hb₁, hstart⟩ :=
    Brain.plays_create (W := W) ⟨σ, env, d, diags, hcompile⟩ hsvc limits heap world
  obtain rfl : b₀ = b₁ := Except.ok.inj (hcreate.symm.trans hb₁)
  obtain ⟨p₁, hb⟩ : ∃ p₁, b.Plays S p₁ := by
    obtain ⟨p₁, b₁, hran₁, hb⟩ | ⟨_, _, _, _, _, -, -, -, -, hcrash⟩ := hstart.requests hrs
    · obtain rfl : b = b₁ := Except.ok.inj (hran.symm.trans hran₁)
      exact ⟨p₁, hb⟩
    · rw [hran] at hcrash
      cases hcrash
  have hprogram := hb.program
  subst hprogram
  refine ⟨?_, fun hsmall name id hmisplaced => hb.mind.strays hsmall hmisplaced⟩
  rw [b.reload_eq hq.check svc', hgoing]
  obtain ⟨values, hcarried, hnamed⟩ | ⟨func, id, hallowed, hnone, hcarried⟩ := hb.carried
  · rw [hcarried]
    exact .inl ⟨_, rfl, hb.takesOver hq svc' hnamed⟩
  · rw [hcarried]
    exact .inr ⟨func, id, hallowed, hnone, rfl⟩

/-- A tile that sets `x` by the first number of this name, wherever it is called. -/
def noting : HostFunction (Stage (Mind Unit)) :=
  { name := "note"
    sync := some fun c _ s =>
      match s.host.program.varIndex? "x" with
      | some i => (.ok .void, { s with host := s.host.store c.func i (.int 7) })
      | none => (.ok .void, s) }

def notingEnv : CompileEnv (Stage (Mind Unit)) :=
  match Builtins.register [noting] shadowingEnv.services with
  | .error _ => shadowingEnv
  | .ok svc =>
    match shadowingEnv.catalog.addActuator svc "note" "note" none with
    | .error _ => { shadowingEnv with services := svc }
    | .ok catalog => { services := svc, catalog := catalog }

def Noted (p : Program) (_ id : Int) : Prop := ∃ i, p.varIndex? "x" = some i ∧ id = i

theorem works_noting : noting.Works Noted := by
  refine ⟨?_, nofun, nofun⟩
  rintro _ ⟨⟩ c args s
  dsimp only
  split
  · rename_i i hi
    exact ⟨⟨[], .refl _⟩, .store s.host ⟨i, hi, rfl⟩ _⟩
  · exact .refl s

theorem works_notingEnv : notingEnv.services.Works Noted := by
  have hbefore := works_shadowingEnv Noted
  unfold notingEnv
  split
  · exact hbefore
  · rename_i svc hregister
    have hsvc : svc.Works Noted := by
      unfold Builtins.register at hregister
      split at hregister
      · cases hregister
      · rename_i hfunctions
        cases hregister
        exact ⟨Services.forall_register hbefore.functions works_noting hfunctions,
          hbefore.hooks.congr rfl⟩
    split <;> exact hsvc

/-- A rule has a local `x`, and another one sets `x` where there is none. -/
def notingBrain : BrainDef :=
  { globals := [{ name := "y", type := .number }]
    pages := [{ rules := [
      { locals := [{ name := "x", type := .number }], doRow := "$x = 1" },
      { whenRow := "$y = 5", doRow := "note" }] }] }

def notedBrain : BrainDef :=
  { globals := [{ name := "x", type := .number }, { name := "y", type := .number }]
    pages := [{ rules := [] }] }

theorem reload_carries_noting :
    ∃ p q diags diags' b₀ b b', compile notingEnv notingBrain = .ok (p, diags) ∧
      compile notingEnv notedBrain = .ok (q, diags') ∧
      Brain.create p notingEnv.services {} {} () = .ok b₀ ∧
      Brain.Request.performAll [.ask (.think 0)] b₀ = .ok b ∧ b.reload q none = .ok (none, b') ∧
      b'.mind.globalValue? "y" = some (.int 5) ∧ b.mind.Misplaced "x" 1 ∧ b.mind.Strays Noted 1 ∧
      b.TakesOver q b' := by
  have hran : (compile notingEnv notingBrain).toOption.any (fun r =>
      (compile notingEnv notedBrain).toOption.any fun r' =>
        (Brain.create r.1 notingEnv.services {} {} ()).toOption.any fun b₀ =>
          (Brain.Request.performAll [.ask (.think 0)] b₀).toOption.any fun b =>
            (b.reloaded? r'.1 none).any fun b' =>
              decide (b.isStopped = false) && (decide b.program.Small &&
                (decide (b.mind.filled = [0, 1]) && (decide (b.mind.program.vars = ["y", "x"]) &&
                  (decide (b.mind.globalValue? "y" = some (.int 5)) &&
                    (decide (b.mind.global? "y" = some 0) && (decide (b.mind.global? "x" = none) &&
                      (b'.mind.globalValue? "y").isSome))))))) = true := by
    decide +kernel
  obtain ⟨⟨p, diags⟩, hp, hran⟩ := exists_of_any_toOption hran
  obtain ⟨⟨q, diags'⟩, hq, hran⟩ := exists_of_any_toOption hran
  obtain ⟨b₀, hb₀, hran⟩ := exists_of_any_toOption hran
  obtain ⟨b, hb, hran⟩ := exists_of_any_toOption hran
  obtain ⟨b', hb', hran⟩ := Brain.exists_reload_of_any hran
  simp only [Bool.and_eq_true, decide_eq_true_eq] at hran
  obtain ⟨hgoing, hsmall, hfilled, hvars, hvalue, hy, hx, hsome⟩ := hran
  have hset {id : Int} : (b.mind.globals.get? id).isSome ↔ id ∈ ([0, 1] : List Int) := by
    rw [← hfilled]
    exact b.mind.globals.isSome_get?_iff
  have hrs : ∀ r ∈ ([.ask (.think 0)] : List (Brain.Request Unit)), r.Works Noted := by
    simp [Brain.Request.Works, Brain.Command.Works]
  obtain ⟨hreload, hstrays⟩ := reload_carries hp works_notingEnv hb₀ hrs hb hgoing hq none
  obtain ⟨b₁, hb₁, htakes⟩ | ⟨func, id, -, -, hcrash⟩ := hreload
  · obtain rfl : b' = b₁ := (Prod.mk.inj (Except.ok.inj (hb'.symm.trans hb₁))).2
    have hx' : b.mind.Misplaced "x" 1 :=
      ⟨hset.mpr (by simp), by rw [hvars]; rfl, fun i hi => by rw [hx] at hi; cases hi⟩
    have hplaced : ∀ id, ¬ b.mind.Misplaced "y" id := by
      rintro id ⟨hid, hname, hother⟩
      rw [hset] at hid
      simp only [List.mem_cons, List.not_mem_nil, or_false] at hid
      rcases hid with rfl | rfl
      · exact hother 0 hy rfl
      · rw [hvars] at hname
        exact absurd hname (by decide)
    obtain ⟨v, hv⟩ := Option.isSome_iff_exists.mp hsome
    have hcarried := htakes.globals "y" v hv hplaced
    rw [hvalue, Option.getD_some] at hcarried
    exact ⟨p, q, diags, diags', b₀, b, b', hp, hq, hb₀, hb, hb', by rw [hv, hcarried], hx',
      hstrays hsmall "x" 1 hx', htakes⟩
  · rw [hb'] at hcrash
    cases hcrash

/-- The value that a tile has set for the local of another rule is that of a global after a reload,
though there was no global of its name. -/
theorem local_passes_for_global :
    ∃ p q diags diags' b₀ b b', compile notingEnv notingBrain = .ok (p, diags) ∧
      compile notingEnv notedBrain = .ok (q, diags') ∧
      Brain.create p notingEnv.services {} {} () = .ok b₀ ∧
      Brain.Request.performAll [.ask (.think 0)] b₀ = .ok b ∧ b.reload q none = .ok (none, b') ∧
      b.mind.globalValue? "x" = none ∧ b'.mind.globalValue? "x" = some (.int 7) := by
  have hran : (compile notingEnv notingBrain).toOption.any (fun r =>
      (compile notingEnv notedBrain).toOption.any fun r' =>
        (Brain.create r.1 notingEnv.services {} {} ()).toOption.any fun b₀ =>
          (Brain.Request.performAll [.ask (.think 0)] b₀).toOption.any fun b =>
            (b.reloaded? r'.1 none).any fun b' =>
              decide (b.mind.globalValue? "x" = none) &&
                decide (b'.mind.globalValue? "x" = some (.int 7))) = true := by
    decide +kernel
  obtain ⟨⟨p, diags⟩, hp, hran⟩ := exists_of_any_toOption hran
  obtain ⟨⟨q, diags'⟩, hq, hran⟩ := exists_of_any_toOption hran
  obtain ⟨b₀, hb₀, hran⟩ := exists_of_any_toOption hran
  obtain ⟨b, hb, hran⟩ := exists_of_any_toOption hran
  obtain ⟨b', hb', hran⟩ := Brain.exists_reload_of_any hran
  simp only [Bool.and_eq_true, decide_eq_true_eq] at hran
  exact ⟨p, q, diags, diags', b₀, b, b', hp, hq, hb₀, hb, hb', hran.1, hran.2⟩

end TileMind
