import TileMind.Proofs.Code.Layout
import TileMind.Proofs.Code.Stretch

/-!
# TileMind.Proofs.Code.CallSites

Calls of tiles are numbered through the whole program, in the order of the code, and the table of pages
lists those of each page. A node that becomes a placeholder takes no number, since nothing below it is
compiled.

* `Allots`: a piece of code, the numbers its calls have taken and what is noted of them.
* `Row.allots_code`, `resolveEach_sites`: the code of rows, and of all rules one after the other.
* `sited_of_compile`: what each rule of a compiled program has taken.
-/

namespace TileMind

/-! ## Calls of tiles -/

/-- Calls that find an argument map on the stack. -/
def Op.callsTile : Op → Bool
  | .hostCallArgs | .hostCallArgsAsync => true
  | _ => false

def Instr.callsTile (i : Instr) : Bool := (i.op?.map Op.callsTile).getD false

@[simp] theorem Instr.callsTile_of (op : Op) (a b c : Int) :
    (Instr.of op a b c).callsTile = op.callsTile := by
  simp [Instr.callsTile]

/-- The functions and call sites in the operands of the calls of tiles, in the order of the code. -/
def tileCalls (code : List Instr) : List (Int32 × Int32) :=
  (code.filter Instr.callsTile).map fun i => (i.a, i.c)

def CallSite.operands (s : CallSite) : Int32 × Int32 := (Int32.ofInt s.fn, Int32.ofInt s.site)

def Function.tileCalls (fn : Function) : List (Int32 × Int32) := TileMind.tileCalls fn.code.toList

def Program.tileCalls (p : Program) : List (Int32 × Int32) :=
  p.functions.toList.flatMap Function.tileCalls

def Program.tileCallsOf (p : Program) (func : Nat) : List (Int32 × Int32) :=
  (p.functions[func]?.map Function.tileCalls).getD []

/-- The calls in the rules of a page, from its root rules to the innermost children. -/
def Program.pageCalls (p : Program) (d : BrainDef) (k : Nat) : List (Int32 × Int32) :=
  (d.places.filter fun q => q.page = k).flatMap fun q => p.tileCallsOf q.number

@[simp] theorem tileCalls_nil : tileCalls [] = [] := rfl

@[simp] theorem tileCalls_append (front back : List Instr) :
    tileCalls (front ++ back) = tileCalls front ++ tileCalls back := by
  simp [tileCalls]

@[simp] theorem tileCalls_cons (op : Op) (a b c : Int) (rest : List Instr) :
    tileCalls (.of op a b c :: rest) =
      if op.callsTile then (Int32.ofInt a, Int32.ofInt c) :: tileCalls rest else tileCalls rest := by
  by_cases hop : op.callsTile <;> simp [tileCalls, hop]

@[simp] theorem tileCalls_conversionCode (path : List Conversion) :
    tileCalls (conversionCode path) = [] := by
  induction path with
  | nil => rfl
  | cons c path ih =>
    have hcons : conversionCode (c :: path) = .of .hostCall c.fn 1 0 :: conversionCode path := rfl
    simp [hcons, Op.callsTile, ih]

@[simp] theorem tileCalls_overloadCode (o : Overload) (arity : Nat) :
    tileCalls (overloadCode o arity) = [] := by
  unfold overloadCode
  split <;> simp [Op.callsTile]

theorem tileCalls_tileCallCode (t : Tile) (site : Nat) :
    tileCalls (tileCallCode t site) = [CallSite.operands ⟨t.fn, site⟩] := by
  unfold tileCallCode
  split <;> simp [Op.callsTile, CallSite.operands]

@[simp] theorem tileCalls_childrenCode (isolate : Bool) (children : List Nat) :
    tileCalls (childrenCode isolate children) = [] := by
  induction children with
  | nil => rfl
  | cons child children ih =>
    have hcons : childrenCode isolate (child :: children) =
        (if isolate then [Instr.of .try 4, .of .call child 0, .of .pop, .of .endTry]
          else [Instr.of .call child 0, .of .pop]) ++ childrenCode isolate children := rfl
    rw [hcons, tileCalls_append, ih]
    cases isolate <;> simp [Op.callsTile]

/-- The calls in a rule are those in its rows. -/
theorem tileCalls_ruleCode (cond action : List Instr) (isolate : Bool) (children : List Nat) :
    tileCalls (ruleCode cond action (childrenCode isolate children)) =
      tileCalls cond ++ tileCalls action := by
  simp [ruleCode, Op.callsTile]

/-! ## Pieces of code -/

/-- Code that is generated after `g` and leaves `g'`. Its calls have taken the numbers that follow those
taken before, and each is noted as a site. -/
structure Allots (added : List CallSite) (g : Generated) (code : List Instr) (g' : Generated) :
    Prop where
  sites : g'.sites = g.sites ++ added
  last : g'.lastSite = g.lastSite + added.length
  numbers : added.map CallSite.site = (List.range' (g.lastSite + 1) added.length).map Int.ofNat
  calls : tileCalls code = added.map CallSite.operands

section

variable {g g' g'' : Generated} {added added' : List CallSite} {front back code : List Instr}

theorem allots_nothing (hcode : tileCalls code = []) (hsites : g'.sites = g.sites)
    (hlast : g'.lastSite = g.lastSite) : Allots [] g code g' :=
  ⟨by rw [hsites, List.append_nil], hlast, rfl, hcode⟩

theorem allots_push (g : Generated) (s : Scalar) : Allots [] g (g.push s).1 (g.push s).2 := by
  refine allots_nothing ?_ rfl rfl
  simp [Generated.push, Generated.const, Op.callsTile]

theorem Allots.append (h : Allots added g front g') (h' : Allots added' g' back g'') :
    Allots (added ++ added') g (front ++ back) g'' := by
  refine ⟨?_, ?_, ?_, ?_⟩
  · rw [h'.sites, h.sites, List.append_assoc]
  · rw [h'.last, h.last, List.length_append, Nat.add_assoc]
  · have hnext : g'.lastSite + 1 = g.lastSite + 1 + added.length := by
      rw [h.last]
      omega
    rw [List.map_append, h.numbers, h'.numbers, hnext, ← List.map_append, List.range'_append_1,
      List.length_append]
  · rw [tileCalls_append, h.calls, h'.calls, List.map_append]

theorem Allots.followed (h : Allots added g front g') (hback : tileCalls back = []) :
    Allots added g (front ++ back) g' := by
  have hall := h.append (allots_nothing hback (g := g') rfl rfl)
  rwa [List.append_nil] at hall

theorem Allots.preceded (h : Allots added g back g') (hfront : tileCalls front = []) :
    Allots added g (front ++ back) g' :=
  (allots_nothing hfront (g := g) rfl rfl).append h

/-- A call of a tile takes the next number. -/
theorem allots_tileCallCode (g : Generated) (t : Tile) :
    Allots [⟨t.fn, (g.newSite t.fn).1⟩] g (tileCallCode t (g.newSite t.fn).1) (g.newSite t.fn).2 :=
  ⟨rfl, rfl, rfl, tileCalls_tileCallCode t _⟩

end

/-! ## Expressions -/

namespace Row

theorem allots_typedCode (scope : RuleScope) (m : Mark) (g : Generated)
    {body : TypeInfo → Generated → List Instr × Generated}
    (hbody : ∀ info, ∃ added, Allots added g (body info g).1 (body info g).2) :
    ∃ added, Allots added g (typedCode scope m g body).1 (typedCode scope m g body).2 := by
  unfold typedCode
  split
  · exact hbody _
  · -- The problem that is reported changes neither sites nor numbers.
    have hpush := allots_push { g with diags := g.diags ++ [Diagnostic.ofMark .missingTypeInfo .error
      scope.rule m ("no type information for node " ++ Decimal.digitString m.id)] } .nil
    exact ⟨[], hpush.sites, hpush.last, hpush.numbers, hpush.calls⟩

theorem allots_converted (info : TypeInfo) {g : Generated} {added : List CallSite}
    {r : List Instr × Generated} (h : Allots added g r.1 r.2) :
    Allots added g (converted info r).1 (converted info r).2 :=
  h.followed (tileCalls_conversionCode info.conversion)

theorem allots_push_converted (info : TypeInfo) (g : Generated) (s : Scalar) :
    ∃ added, Allots added g (converted info (g.push s)).1 (converted info (g.push s)).2 :=
  ⟨[], allots_converted info (allots_push g s)⟩

mutual

theorem allots_code (scope : RuleScope) : ∀ (e : Expr) (g : Generated),
    ∃ added, Allots added g (code scope e g).1 (code scope e g).2
  | .literal m value, g => by
    rw [code]
    exact allots_typedCode scope m g fun info => allots_push_converted info g value
  | .variable m name, g => by
    rw [code]
    refine allots_typedCode scope m g fun info => ⟨[], allots_converted info ?_⟩
    exact allots_nothing (by simp [Op.callsTile]) rfl rfl
  | .field m object name, g => by
    rw [code]
    refine allots_typedCode scope m g fun info => ?_
    obtain ⟨added, hobject⟩ := allots_code scope object g
    have hkey := hobject.append (allots_push (code scope object g).2 (.string name))
    exact ⟨_, allots_converted info (hkey.followed (by simp [Op.callsTile]))⟩
  | .assign m (.variable _ name) value, g => by
    rw [code]
    refine allots_typedCode scope m g fun info => ?_
    obtain ⟨added, hvalue⟩ := allots_code scope value g
    have hconverted := hvalue.followed (tileCalls_conversionCode info.conversion)
    have hstore : Allots [] (code scope value g).2
        [.of .dup, .of .storeVar ((code scope value g).2.resolveVar scope.chain name).1]
        ((code scope value g).2.resolveVar scope.chain name).2 :=
      allots_nothing (by simp [Op.callsTile]) rfl rfl
    exact ⟨_, hconverted.append hstore⟩
  | .assign m (.field _ object name) value, g => by
    rw [code]
    refine allots_typedCode scope m g fun info => ?_
    obtain ⟨added, hobject⟩ := allots_code scope object g
    have hkey := hobject.append (allots_push (code scope object g).2 (.string name))
    obtain ⟨added', hvalue⟩ :=
      allots_code scope value ((code scope object g).2.push (.string name)).2
    have hconverted := (hkey.append hvalue).followed (tileCalls_conversionCode info.conversion)
    exact ⟨_, hconverted.followed (by simp [Op.callsTile])⟩
  | .assign m (.literal _ _) _, g | .assign m (.unary _ _ _) _, g
  | .assign m (.binary _ _ _ _) _, g | .assign m (.assign _ _ _) _, g
  | .assign m (.parameter _ _ _) _, g | .assign m (.modifier _ _ _) _, g
  | .assign m (.call _ _ _) _, g | .assign m (.empty _) _, g
  | .assign m (.error _ _) _, g => by
    simp only [code]
    exact allots_typedCode scope m g fun _ => ⟨[], allots_push g .nil⟩
  | .binary m op left right, g => by
    rw [code]
    refine allots_typedCode scope m g fun info => ?_
    obtain ⟨added, hl⟩ := allots_code scope left g
    obtain ⟨added', hr⟩ := allots_code scope right (code scope left g).2
    split
    · have hjump : tileCalls [.of .dup, .of (if op = .and then .jumpIfFalse else .jumpIfTrue)
          ((code scope right (code scope left g).2).1.length + 2), .of .pop] = [] := by
        split <;> simp [Op.callsTile]
      exact ⟨_, allots_converted info ((hl.followed hjump).append hr)⟩
    · split
      · exact allots_push_converted info g .nil
      · exact ⟨_, allots_converted info ((hl.append hr).followed (tileCalls_overloadCode _ 2))⟩
  | .unary m _ operand, g => by
    rw [code]
    refine allots_typedCode scope m g fun info => ?_
    split
    · exact allots_push_converted info g .nil
    · obtain ⟨added, hx⟩ := allots_code scope operand g
      exact ⟨_, allots_converted info (hx.followed (tileCalls_overloadCode _ 1))⟩
  | .parameter m _ value, g => by
    rw [code]
    refine allots_typedCode scope m g fun info => ?_
    obtain ⟨added, hvalue⟩ := allots_code scope value g
    exact ⟨_, allots_converted info hvalue⟩
  | .modifier m _ count, g => by
    rw [code]
    exact allots_typedCode scope m g fun info => allots_push_converted info g _
  | .call m tile args, g => by
    rw [code]
    refine allots_typedCode scope m g fun info => ?_
    rcases g.pool.add (.scalar (.string TypeId.args)) with ⟨slot, pool⟩
    -- The calls in the arguments come first, so they have the smaller numbers.
    obtain ⟨added, hargs⟩ := allots_argsCode scope args { g with pool := pool }
    dsimp only
    generalize argsCode scope args { g with pool := pool } = r at hargs ⊢
    obtain ⟨bound, g'⟩ := r
    have hmap : tileCalls [.of .mapNew slot] = [] := by simp [Op.callsTile]
    have hcall := (hargs.preceded hmap).append (allots_tileCallCode g' tile)
    exact ⟨_, allots_converted info ⟨hcall.sites, hcall.last, hcall.numbers, hcall.calls⟩⟩
  | .empty m, g => by
    rw [code]
    exact allots_typedCode scope m g fun info => allots_push_converted info g .void
  | .error m _, g => by
    rw [code]
    exact allots_typedCode scope m g fun info => allots_push_converted info g .nil
termination_by structural e => e

theorem allots_argsCode (scope : RuleScope) : ∀ (args : Args) (g : Generated),
    ∃ added, Allots added g (argsCode scope args g).1 (argsCode scope args g).2
  | .nil, _ => ⟨[], allots_nothing rfl rfl rfl⟩
  | .cons slot value rest, g => by
    rw [argsCode]
    obtain ⟨added, hvalue⟩ := allots_code scope value (g.push (.int slot)).2
    obtain ⟨added', hrest⟩ := allots_argsCode scope rest (code scope value (g.push (.int slot)).2).2
    have hset : tileCalls [.of .mapSet] = [] := by simp [Op.callsTile]
    have hentry := ((allots_push g (.int slot)).append hvalue).followed hset
    exact ⟨_, hentry.append hrest⟩
termination_by structural args => args

end

end Row

/-! ## Rules -/

section

variable {σ : Type} (env : CompileEnv σ)

/-- The calls of a rule are those of its rows. -/
theorem allots_resolvedRule (job : RuleJob) (p : Progress) :
    ∃ added, Allots added p.generated (resolvedRule env job p).1.code.toList
      (resolvedRule env job p).2.generated := by
  have hread : (readRule env job p).2.2.2.generated =
      { p.generated with diags := (readRule env job p).2.2.2.generated.diags } := rfl
  unfold resolvedRule
  generalize readRule env job p = rows at hread ⊢
  obtain ⟨cond, action, types, q⟩ := rows
  dsimp only at hread ⊢
  have hcond : ∃ added, Allots added q.generated
      (if cond.isEmpty then q.generated.push (.bool true)
        else Row.code ⟨types, job.chain, job.path⟩ cond q.generated).1
      (if cond.isEmpty then q.generated.push (.bool true)
        else Row.code ⟨types, job.chain, job.path⟩ cond q.generated).2 := by
    split
    · exact ⟨[], allots_push q.generated (.bool true)⟩
    · exact Row.allots_code _ cond q.generated
  obtain ⟨added, hcond⟩ := hcond
  obtain ⟨added', haction⟩ := Row.allots_code ⟨types, job.chain, job.path⟩ action
    (if cond.isEmpty then q.generated.push (.bool true)
      else Row.code ⟨types, job.chain, job.path⟩ cond q.generated).2
  have hstart : Allots [] p.generated [] q.generated := by
    rw [hread]
    exact allots_nothing rfl rfl rfl
  have hrows := (hstart.append hcond).append haction
  refine ⟨_, hrows.sites, hrows.last, hrows.numbers, ?_⟩
  rw [← hrows.calls, tileCalls_ruleCode, List.nil_append, tileCalls_append]

/-- Rules that are compiled one after the other take their sites in turn. The sites of each are noted
for its page. -/
theorem resolveEach_sites (jobs : List RuleJob) (p : Progress) :
    ∃ taken : List (List CallSite),
      (resolveEach (resolvedRule env) jobs p).1.map Function.tileCalls =
        taken.map (List.map CallSite.operands) ∧
      (resolveEach (resolvedRule env) jobs p).2.1 =
        (List.zipWith (fun (job : RuleJob) new => new.map (job.page, ·)) jobs taken).flatten ∧
      taken.flatten.map CallSite.site =
        (List.range' (p.generated.lastSite + 1) taken.flatten.length).map Int.ofNat := by
  induction jobs generalizing p with
  | nil => exact ⟨[], rfl, rfl, rfl⟩
  | cons job jobs ih =>
    rw [resolveEach]
    dsimp only
    generalize hstart : ({ p with generated := { p.generated with sites := [] } } : Progress) = start
    have hempty : start.generated.sites = [] ∧ start.generated.lastSite = p.generated.lastSite := by
      rw [← hstart]
      exact ⟨rfl, rfl⟩
    obtain ⟨new, hsites, hlast, hnumbers, hcalls⟩ := allots_resolvedRule env job start
    obtain ⟨taken, hfns, hrest, hall⟩ := ih (resolvedRule env job start).2
    rw [hempty.1, List.nil_append] at hsites
    rw [hempty.2] at hlast hnumbers
    refine ⟨new :: taken, ?_, ?_, ?_⟩
    · rw [List.map_cons, hfns, List.map_cons, ← hcalls]
      rfl
    · rw [hsites, hrest, List.zipWith_cons_cons, List.flatten_cons]
    · have hnext : p.generated.lastSite + new.length + 1 = p.generated.lastSite + 1 + new.length := by
        omega
      rw [List.flatten_cons, List.map_append, hnumbers, hall, hlast, hnext, ← List.map_append,
        List.range'_append_1, List.length_append]

end

/-! ## Pages -/

/-- The rules of a brain, page after page. -/
theorem flatMap_page_pagePlaces (ds : List PageDef) (i n : Nat) :
    ((List.range' i ds.length).flatMap fun k => (pagePlaces ds i n).filter fun q => q.page = k) =
      pagePlaces ds i n := by
  induction ds generalizing i n with
  | nil => rfl
  | cons d ds ih =>
    rw [pagePlaces, List.length_cons, List.range'_succ, List.flatMap_cons, List.filter_append]
    have hown : (placesBelow i d.rules (Decimal.digitString i) 0 [] n).filter (fun q => q.page = i) =
        placesBelow i d.rules (Decimal.digitString i) 0 [] n := by
      rw [List.filter_eq_self]
      intro q hq
      simp [page_of_mem_placesBelow hq]
    have hlater : (pagePlaces ds (i + 1) (n + countRules d.rules)).filter (fun q => q.page = i) =
        [] := by
      rw [List.filter_eq_nil_iff]
      intro q hq
      have hne : q.page ≠ i := Nat.ne_of_gt (page_of_mem_pagePlaces hq)
      simpa using hne
    rw [hown, hlater, List.append_nil, List.append_cancel_left_eq]
    refine Eq.trans (List.flatMap_congr fun k hk => ?_) (ih (i + 1) (n + countRules d.rules))
    have hbehind : (placesBelow i d.rules (Decimal.digitString i) 0 [] n).filter
        (fun q => q.page = k) = [] := by
      rw [List.filter_eq_nil_iff]
      intro q hq
      have hge := (List.mem_range'_1.mp hk).1
      have hne : q.page ≠ k := by
        rw [page_of_mem_placesBelow hq]
        omega
      simpa using hne
    rw [List.filter_append, hbehind, List.nil_append]

theorem BrainDef.map_getD_number {α : Type} (d : BrainDef) {xs : List α} (other : α)
    (h : xs.length = d.places.length) : d.places.map (fun q => xs.getD q.number other) = xs := by
  refine List.ext_getElem? fun k => ?_
  rw [List.getElem?_map]
  cases hq : d.places[k]? with
  | none =>
    rw [List.getElem?_eq_none_iff] at hq
    rw [List.getElem?_eq_none (by omega), Option.map_none]
  | some q =>
    have hk : k < xs.length := by
      rw [h]
      exact (List.getElem?_eq_some_iff.mp hq).1
    simp [d.number_places hq, List.getD_eq_getElem?_getD, List.getElem?_eq_getElem hk]

/-- The sites that are noted for a page are those of its rules. -/
theorem sites_of_page (places : List Place) (taken : Place → List CallSite) (k : Nat) :
    ((places.flatMap fun q => (taken q).map (q.page, ·)).filter fun s => s.1 = k).map Prod.snd =
      (places.filter fun q => q.page = k).flatMap taken := by
  induction places with
  | nil => rfl
  | cons q places ih =>
    rw [List.flatMap_cons, List.filter_append, List.map_append, ih, List.filter_map]
    by_cases hk : q.page = k
    · rw [List.filter_cons_of_pos (by simpa using hk), List.flatMap_cons]
      simp [Function.comp_def, hk]
    · rw [List.filter_cons_of_neg (by simpa using hk)]
      simp [Function.comp_def, hk]

/-- The sites that each rule of a definition has taken in a program. -/
structure Program.Sited (p : Program) (d : BrainDef) (taken : Place → List CallSite) : Prop where
  calls : ∀ q ∈ d.places, p.tileCallsOf q.number = (taken q).map CallSite.operands
  all : p.tileCalls = d.places.flatMap fun q => p.tileCallsOf q.number
  numbers : (d.places.flatMap taken).map CallSite.site =
    (List.range' 1 (d.places.flatMap taken).length).map Int.ofNat
  pages : p.pages.map PageInfo.sites =
    (List.range d.pages.length).map fun k => (d.places.filter fun q => q.page = k).flatMap taken

section

variable {σ : Type} {env : CompileEnv σ} {d : BrainDef} {p : Program} {diags : Diagnostics}

theorem sited_of_compile (h : compile env d = .ok (p, diags)) :
    ∃ taken, p.Sited d taken := by
  obtain ⟨plan, entry, hof, rfl⟩ := assemble_of_compile h
  obtain ⟨taken, hfns, hsites, hnumbers⟩ := resolveEach_sites env plan.jobs
    { generated := { names := plan.names, diags := plan.diags } }
  change (assemble env d.pageInfos entry plan).1.functions.toList.map Function.tileCalls = _ at hfns
  have hsize : (assemble env d.pageInfos entry plan).1.functions.toList.length = d.places.length := by
    rw [Array.length_toList, size_functions_assemble, hof.planned.length_eq]
  have hlen : taken.length = d.places.length := by
    rw [← hsize, ← List.length_map Function.tileCalls, hfns, List.length_map]
  have htaken := d.map_getD_number [] hlen
  have hcallsOf : d.places.map
      (fun q => (assemble env d.pageInfos entry plan).1.tileCallsOf q.number) =
      (assemble env d.pageInfos entry plan).1.functions.toList.map Function.tileCalls := by
    rw [← d.map_getD_number [] ((List.length_map _).trans hsize)]
    refine List.map_congr_left fun q _ => ?_
    simp [Program.tileCallsOf, List.getD_eq_getElem?_getD]
  refine ⟨fun q => taken.getD q.number [], ?_, ?_, ?_, ?_⟩
  · refine List.map_inj_left.mp ?_
    rw [hcallsOf, hfns]
    conv_lhs => rw [← htaken, List.map_map]
    rfl
  · rw [List.flatMap_def, hcallsOf, Program.tileCalls, List.flatMap_def]
  · rw [List.flatMap_def, htaken]
    exact hnumbers
  · have hnoted : (resolveEach (resolvedRule env) plan.jobs
        { generated := { names := plan.names, diags := plan.diags } }).2.1 =
        d.places.flatMap fun q => (taken.getD q.number []).map (q.page, ·) := by
      rw [hsites, List.flatMap_def]
      congr 1
      calc List.zipWith (fun (job : RuleJob) new => new.map (job.page, ·)) plan.jobs taken
        _ = List.zipWith (fun page new => new.map (page, ·)) (plan.jobs.map RuleJob.page) taken := by
          rw [List.zipWith_map_left]
        _ = List.zipWith (fun page new => new.map (page, ·)) (d.places.map Place.page)
            (d.places.map fun q => taken.getD q.number []) := by
          rw [map_eq_of_forall₂ hof.planned fun _ _ hjob => hjob.page, htaken]
        _ = d.places.map fun q => (taken.getD q.number []).map (q.page, ·) := by
          rw [List.zipWith_map, List.zipWith_self]
    have hpages : d.pageInfos.length = d.pages.length := by
      rw [BrainDef.pageInfos, length_pageInfos]
    refine List.ext_getElem? fun k => ?_
    by_cases hk : k < d.pages.length
    · simp [assemble, hnoted, sites_of_page, hpages, hk]
    · simp [assemble, hpages, hk]

namespace Program.Sited

variable {taken : Place → List CallSite}

theorem tileCalls_eq (h : p.Sited d taken) :
    p.tileCalls = (d.places.flatMap taken).map CallSite.operands := by
  rw [h.all, List.map_flatMap]
  exact List.flatMap_congr h.calls

/-- The pages list the sites in the order of the rules. -/
theorem sites_eq (h : p.Sited d taken) :
    p.pages.flatMap PageInfo.sites = d.places.flatMap taken := by
  rw [List.flatMap_def, h.pages, ← List.flatMap_def, ← List.flatMap_assoc, List.range_eq_range',
    BrainDef.places, flatMap_page_pagePlaces]

theorem length_tileCalls (h : p.Sited d taken) :
    p.tileCalls.length = (d.places.flatMap taken).length := by
  rw [h.tileCalls_eq, List.length_map]

theorem sites_numbers (h : p.Sited d taken) :
    (p.pages.flatMap PageInfo.sites).map CallSite.site =
      (List.range' 1 p.tileCalls.length).map Int.ofNat := by
  rw [h.sites_eq, h.length_tileCalls]
  exact h.numbers

/-- The operands in the code are the numbers of the sites, cut to 32 bits. -/
theorem operands_eq (h : p.Sited d taken) :
    p.tileCalls.map Prod.snd =
      (List.range' 1 p.tileCalls.length).map fun (n : Nat) => Int32.ofInt n :=
  calc p.tileCalls.map Prod.snd
    _ = ((d.places.flatMap taken).map CallSite.site).map Int32.ofInt := by
      rw [h.tileCalls_eq, List.map_map, List.map_map]
      rfl
    _ = (List.range' 1 p.tileCalls.length).map fun (n : Nat) => Int32.ofInt n := by
      rw [h.numbers, ← h.length_tileCalls, List.map_map]
      rfl

theorem page_eq (h : p.Sited d taken) {k : Nat} {page : PageInfo} (hpage : p.pages[k]? = some page) :
    page.sites = (d.places.filter fun q => q.page = k).flatMap taken := by
  have hk : (p.pages.map PageInfo.sites)[k]? = some page.sites := by
    rw [List.getElem?_map, hpage, Option.map_some]
  rw [h.pages, List.getElem?_map, Option.map_eq_some_iff] at hk
  obtain ⟨n, hn, hsites⟩ := hk
  obtain ⟨_, rfl⟩ := List.getElem?_eq_some_iff.mp hn
  rw [List.getElem_range] at hsites
  exact hsites.symm

/-- A page lists the calls in the functions of its rules. -/
theorem page_operands (h : p.Sited d taken) {k : Nat} {page : PageInfo}
    (hpage : p.pages[k]? = some page) : page.sites.map CallSite.operands = p.pageCalls d k := by
  rw [h.page_eq hpage, List.map_flatMap]
  exact (List.flatMap_congr fun q hq => h.calls q (List.mem_of_mem_filter hq)).symm

theorem page_sublist {page : PageInfo} (hpage : page ∈ p.pages) :
    page.sites.Sublist (p.pages.flatMap PageInfo.sites) := by
  rw [List.flatMap_def]
  exact List.sublist_flatten_of_mem (List.mem_map_of_mem hpage)

theorem page_increasing (h : p.Sited d taken) {page : PageInfo} (hpage : page ∈ p.pages) :
    (page.sites.map CallSite.site).Pairwise (· < ·) := by
  refine List.Pairwise.sublist ((page_sublist hpage).map CallSite.site) ?_
  rw [h.sites_numbers, List.pairwise_map]
  exact List.Pairwise.imp (fun hlt => Int.ofNat_lt.mpr hlt) List.pairwise_lt_range'

/-- No number is cut as long as there are few enough calls. -/
theorem isOperand_site (h : p.Sited d taken) (hfew : p.tileCalls.length < 2 ^ 31) {page : PageInfo}
    (hpage : page ∈ p.pages) {c : CallSite} (hc : c ∈ page.sites) : IsOperand c.site := by
  have hsite : c.site ∈ (p.pages.flatMap PageInfo.sites).map CallSite.site :=
    List.mem_map_of_mem ((page_sublist hpage).subset hc)
  rw [h.sites_numbers] at hsite
  obtain ⟨n, hn, hnc⟩ := List.mem_map.mp hsite
  have hle := (List.mem_range'_1.mp hn).2
  rw [← hnc, Int.ofNat_eq_natCast]
  unfold IsOperand
  omega

end Program.Sited

/-- The site that a call names by its operands. -/
def CallSite.ofOperands (c : Int32 × Int32) : CallSite := ⟨c.1.toInt, c.2.toInt⟩

theorem CallSite.ofOperands_operands {c : CallSite} (hfn : IsOperand c.fn) (hsite : IsOperand c.site) :
    ofOperands c.operands = c := by
  rw [operands, ofOperands, toInt_ofInt_of_isOperand hfn, toInt_ofInt_of_isOperand hsite]

end

end TileMind
