import TileMind.Proofs.Brain.Pages
import TileMind.Proofs.Brain.Plays
import TileMind.Proofs.Code.Shape

/-!
# TileMind.Proofs.Brain.Landing

The page on which a brain goes on when another program takes over. The new program is asked for the id of the
old page as if somebody had requested it, and so answers with the first page that has it for an id or a name.

* `BrainDef.answering`: the pages that have a key for an id or a name.
* `page?_of_compile`, `entry_of_compile`: the page that a program looks up, and the one it starts on.
* `page_keys_of_compile`: both are the same page if and only if the key means no other.
* `Program.successor?`: the page that takes the place of another one.
* `Brain.tidy_reloaded`: a brain after a reload, before it thinks.
* `reload_landing`: where a brain is after a reload and after the tick that follows.
-/

namespace TileMind

/-! ## Pages and keys

Several pages may have a key for an id or a name. Whoever asks a running brain
for a page gets the first of them; the entry page of a definition is the last.
-/

instance (page : PageDef) (i : Nat) (key : String) : Decidable (page.Answers i key) :=
  decidable_of_iff
    (key = (if page.id = "" then Decimal.digitString i else page.id) ∨
      key = if page.name = "" then (if page.id = "" then Decimal.digitString i else page.id)
        else page.name) Iff.rfl

/-- The positions of the pages that have a key for an id or a name, in their order. -/
def BrainDef.answering (d : BrainDef) (key : String) : List Nat :=
  (d.pages.zipIdx.filter fun x => x.1.Answers x.2 key).map Prod.snd

structure PageInfo.Describes (info : PageInfo) (x : PageDef × Nat) : Prop where
  index : info.index = x.2
  answers : ∀ key, (info.id = key ∨ info.name = key) ↔ x.1.Answers x.2 key

theorem PageDef.describes_info (page : PageDef) (i : Nat) (roots : List Nat) :
    (page.info i roots).Describes (page, i) := by
  refine ⟨rfl, ?_⟩
  intro key
  constructor
  · rintro (hid | hname)
    · exact .inl hid.symm
    · exact .inr hname.symm
  · rintro (hid | hname)
    · exact .inl hid.symm
    · exact .inr hname.symm

theorem describes_pageInfos (pages : List PageDef) (i n : Nat) :
    List.Forall₂ PageInfo.Describes (pageInfos pages i n) (pages.zipIdx i) := by
  induction pages generalizing i n with
  | nil => exact .nil
  | cons page pages ih =>
    rw [pageInfos, List.zipIdx_cons]
    exact .cons (page.describes_info i _) (ih (i + 1) _)

theorem describes_sites {infos : List PageInfo} {xs : List (PageDef × Nat)}
    (h : List.Forall₂ PageInfo.Describes infos xs) (sites : PageInfo × Nat → List CallSite) (i : Nat) :
    List.Forall₂ PageInfo.Describes
      ((infos.zipIdx i).map fun x => { x.1 with sites := sites x }) xs := by
  induction h generalizing i with
  | nil => exact .nil
  | cons hx _ ih =>
    rw [List.zipIdx_cons, List.map_cons]
    exact .cons ⟨hx.index, hx.answers⟩ (ih (i + 1))

/-- The pages with a key, found in a table of pages. -/
theorem index_filter_of_describes {infos : List PageInfo} {d : BrainDef}
    (h : List.Forall₂ PageInfo.Describes infos d.pages.zipIdx) (key : String) :
    (infos.filter fun info => info.id = key || info.name = key).map PageInfo.index =
      (d.answering key).map Int.ofNat := by
  rw [BrainDef.answering, List.map_map]
  refine filter_map_of_forall₂ h ?_
  intro info x hx
  refine ⟨?_, hx.index⟩
  rw [Bool.eq_iff_iff]
  simpa using hx.answers key

theorem nodup_answering (d : BrainDef) (key : String) : (d.answering key).Nodup := by
  have hall : (d.pages.zipIdx.map Prod.snd).Nodup := by
    rw [List.zipIdx_map_snd]
    exact List.nodup_range'
  exact hall.sublist (List.filter_sublist.map _)

theorem eq_singleton_iff_of_nodup {α : Type} {xs : List α} (hnodup : xs.Nodup) {x : α}
    (hlast : xs.getLast? = some x) : xs.head? = some x ↔ xs = [x] := by
  constructor
  · intro hhead
    cases xs with
    | nil => cases hhead
    | cons y ys =>
      obtain rfl : y = x := by simpa using hhead
      cases ys with
      | nil => rfl
      | cons z zs =>
        have hmem : y ∈ z :: zs := by
          rw [List.getLast?_cons_cons] at hlast
          exact List.mem_of_getLast? hlast
        exact absurd hmem (List.nodup_cons.mp hnodup).1
  · rintro rfl
    rfl

/-! ## Compiled programs -/

section

variable {σ : Type} {env : CompileEnv σ} {d : BrainDef} {p : Program} {diags : Diagnostics}

theorem describes_of_compile (h : compile env d = .ok (p, diags)) :
    List.Forall₂ PageInfo.Describes p.pages d.pages.zipIdx := by
  obtain ⟨plan, entry, -, rfl⟩ := assemble_of_compile h
  exact describes_sites (describes_pageInfos d.pages 0 0) _ 0

theorem page?_of_compile (h : compile env d = .ok (p, diags)) (key : String) :
    p.page? key = (d.answering key).head?.map Int.ofNat := by
  rw [Program.page?, ← List.head?_filter, ← List.head?_map, ← List.head?_map,
    index_filter_of_describes (describes_of_compile h)]

theorem entry_of_compile (h : compile env d = .ok (p, diags)) (hentry : d.entry ≠ "") :
    ∃ n : Nat, (d.answering d.entry).getLast? = some n ∧ p.entry = n := by
  obtain ⟨plan, entry, -, hfound, rfl⟩ := planned_of_compile h
  have hlast : entryPage? d.pageInfos d.entry = (d.answering d.entry).getLast?.map Int.ofNat := by
    have hinfos : List.Forall₂ PageInfo.Describes d.pageInfos d.pages.zipIdx :=
      describes_pageInfos d.pages 0 0
    rw [entryPage?, ← List.head?_filter, List.filter_reverse, List.head?_reverse, ← List.getLast?_map,
      ← List.getLast?_map, index_filter_of_describes hinfos]
  rw [entryPage, if_neg hentry, hlast] at hfound
  cases hn : (d.answering d.entry).getLast? with
  | none =>
    rw [hn] at hfound
    cases hfound
  | some n =>
    rw [hn] at hfound
    cases hfound
    exact ⟨n, rfl, rfl⟩

/-! ## Brains -/

variable {W : Type}

theorem Mind.page?_of_compile (h : compile env d = .ok (p, diags)) {m : Mind W} (hm : m.program = p)
    {key : String} {n : Nat} (hn : (d.answering key).head? = some n) : m.page? key = some (n : Int) := by
  rw [Mind.page?, hm, TileMind.page?_of_compile h, hn]
  rfl

/-- Let a definition be compiled. For every key, a brain that is asked for the page, by its owner or by
the tile `switch_page`, goes to the first page that has it for an id or a name. For the key of the entry
page, a new brain starts on the last such page; that is the same one if and only if there is no other. -/
theorem page_keys_of_compile (h : compile env d = .ok (p, diags)) :
    (∀ key, p.page? key = (d.answering key).head?.map Int.ofNat) ∧
    (∀ key n, (d.answering key).head? = some n →
      (∀ b : Brain W, b.mind.program = p →
        b.requestPage key = .ok (b.setMind (b.mind.setPending n))) ∧
      ∀ call c args (s : Stage (Mind W)), s.host.program = p → s.heap.argAt args 0 = .string key →
        Builtins.switchPage.sync = some call →
          call c args s = (.ok .void, { s with host := s.host.setPending n })) ∧
    (d.entry ≠ "" → ∃ n : Nat, (d.answering d.entry).getLast? = some n ∧ p.entry = n ∧
      (p.page? d.entry = some p.entry ↔ d.answering d.entry = [n]) ∧
      ∀ svc limits heap (world : W) b, Brain.create p svc limits heap world = .ok b →
        b.mind.pending = some (n : Int)) := by
  refine ⟨page?_of_compile h, ?_, ?_⟩
  · intro key n hn
    constructor
    · intro b hb
      rw [Brain.requestPage_eq, Mind.page?_of_compile h hb hn]
    · intro call c args s hs hkey hcall
      have hask : Host.requestPage s.host key = (none, s.host.setPending n) := by
        change s.host.requestPage key = _
        rw [Mind.requestPage, Mind.page?_of_compile h hs hn]
      simp only [Builtins.switchPage, Option.some.injEq] at hcall
      subst hcall
      have htext : (Value.string key).string? = some key := rfl
      simp only [hkey, htext, hask]
  · intro hentry
    obtain ⟨n, hlast, hn⟩ := entry_of_compile h hentry
    refine ⟨n, hlast, hn, ?_, ?_⟩
    · rw [page?_of_compile h, hn, ← eq_singleton_iff_of_nodup (nodup_answering d d.entry) hlast,
        Option.map_eq_some_iff]
      simp
    · intro svc limits heap world b hb
      rw [Brain.create, compile_check h] at hb
      cases hb
      simp [Brain.mind, Scheduler.create, Mind.setPending, hn]

end

/-- A brain with a page that has the id of another one for a name. -/
def twinBrain : BrainDef :=
  { pages := [{ id := "x", name := "home" }, { id := "home" }], entry := "home" }

def homeBrain : BrainDef :=
  { pages := [{ id := "x", name := "away" }, { id := "home" }], entry := "home" }

/-- The key of the entry page means another page, too, in the first brain, and no other one in the second. -/
theorem page_keys_of_compile_twin :
    (∃ p diags, compile bareEnv twinBrain = .ok (p, diags) ∧ p.page? "home" = some 0 ∧
      twinBrain.entry ≠ "" ∧ ∃ n : Nat, (twinBrain.answering "home").getLast? = some n ∧ p.entry = n ∧
        (p.page? "home" = some p.entry ↔ twinBrain.answering "home" = [n])) ∧
    ∃ p diags, compile bareEnv homeBrain = .ok (p, diags) ∧ homeBrain.entry ≠ "" ∧
      homeBrain.answering "home" = [1] ∧ p.entry = 1 ∧ p.page? "home" = some p.entry := by
  have hcompiled : (compile bareEnv twinBrain).toOption.any (fun _ => true) = true ∧
      (compile bareEnv homeBrain).toOption.any (fun _ => true) = true := by decide +kernel
  constructor
  · obtain ⟨⟨p, diags⟩, hp, -⟩ := exists_of_any_toOption hcompiled.1
    obtain ⟨hpage, -, hentry⟩ := page_keys_of_compile (W := Unit) hp
    have hanswering : twinBrain.answering "home" = [0, 1] := by decide
    have hne : twinBrain.entry ≠ "" := by decide
    obtain ⟨n, hlast, hn, hsame, -⟩ := hentry hne
    refine ⟨p, diags, hp, ?_, hne, n, hlast, hn, hsame⟩
    rw [hpage, hanswering]
    rfl
  · obtain ⟨⟨p, diags⟩, hp, -⟩ := exists_of_any_toOption hcompiled.2
    obtain ⟨-, -, hentry⟩ := page_keys_of_compile (W := Unit) hp
    have hanswering : homeBrain.answering homeBrain.entry = [1] := by decide
    have hne : homeBrain.entry ≠ "" := by decide
    obtain ⟨n, hlast, hn, hsame, -⟩ := hentry hne
    obtain rfl : 1 = n := by simpa [hanswering] using hlast
    exact ⟨p, diags, hp, hne, hanswering, hn, hsame.mpr hanswering⟩

/-- The key of its entry page leads a running brain to the other page. -/
theorem entry_key_leads_elsewhere :
    ∃ p diags, compile bareEnv twinBrain = .ok (p, diags) ∧ p.entry = 1 ∧
      p.page? twinBrain.entry = some 0 := by
  have hcompiled : (compile bareEnv twinBrain).toOption.any (fun r =>
      decide (r.1.entry = 1) && decide (r.1.page? twinBrain.entry = some 0)) = true := by
    decide +kernel
  obtain ⟨⟨p, diags⟩, hp, hpages⟩ := exists_of_any_toOption hcompiled
  simp only [Bool.and_eq_true, decide_eq_true_eq] at hpages
  exact ⟨p, diags, hp, hpages.1, hpages.2⟩

/-! ## The page after a reload -/

/-- The first page that has a key for an id or a name. -/
def Program.answer? (p : Program) (key : String) : Option PageInfo :=
  p.pages.find? fun x => x.id = key || x.name = key

/-- The page of a program that takes the place of a page of another one: the first that has the id of that page
for an id or a name, or else the entry page. -/
def Program.successor? (p : Program) (page? : Option PageInfo) : Option PageInfo :=
  (page?.bind fun page => p.answer? page.id).or (Program.atInt? p.pages p.entry)

namespace Program

variable {p : Program} {key : String} {x : PageInfo}

theorem answer?_eq_some (h : p.answer? key = some x) : x ∈ p.pages ∧ (x.id = key ∨ x.name = key) := by
  refine ⟨List.mem_of_find?_eq_some h, ?_⟩
  simpa using List.find?_some h

theorem answer?_eq_none (h : p.answer? key = none) : ∀ x ∈ p.pages, x.id ≠ key ∧ x.name ≠ key := by
  intro x hx
  simpa using List.find?_eq_none.mp h x hx

/-- If no page has a key for a name only, then the key is answered by a page that has it for an id, or by none. -/
theorem answer?_of_names (hnames : ∀ x ∈ p.pages, x.name = key → x.id = key) (h : p.answer? key = some x) :
    x.id = key := by
  obtain ⟨hx, hkey⟩ := answer?_eq_some h
  exact hkey.elim id (hnames x hx)

theorem mem_of_successor? {page? : Option PageInfo} (h : p.successor? page? = some x) : x ∈ p.pages := by
  rcases Option.or_eq_some_iff.mp h with hanswer | ⟨-, hentry⟩
  · obtain ⟨page, -, hanswer⟩ := Option.bind_eq_some_iff.mp hanswer
    exact (answer?_eq_some hanswer).1
  · unfold Program.atInt? at hentry
    split at hentry
    · cases hentry
    · exact List.mem_of_getElem? hentry

/-- The id stays the same if the first page that has it for an id or a name has it for an id. -/
theorem successor?_keeps_iff (p : Program) (page : PageInfo) :
    (p.successor? (some page)).map PageInfo.id = some page.id ↔ ∃ x, p.answer? page.id = some x ∧ x.id = page.id := by
  constructor
  · intro hkept
    obtain ⟨y, hy, hid⟩ := Option.map_eq_some_iff.mp hkept
    cases hanswer : p.answer? page.id with
    | none => exact absurd hid (answer?_eq_none hanswer y (mem_of_successor? hy)).1
    | some x =>
      rw [successor?, Option.bind_some, hanswer, Option.some_or, Option.some.injEq] at hy
      exact ⟨x, rfl, hy ▸ hid⟩
  · rintro ⟨x, hanswer, hid⟩
    rw [successor?, Option.bind_some, hanswer, Option.some_or, Option.map_some, hid]

theorem Compiled.atInt?_index (hp : p.Compiled) (hx : x ∈ p.pages) : Program.atInt? p.pages x.index = some x := by
  obtain ⟨k, hk⟩ := List.mem_iff_getElem?.mp hx
  rw [(hp.paged (List.ne_nil_of_mem hx)).index hk, Program.atInt?, if_neg (by omega), Int.toNat_natCast, hk]

end Program

theorem PageDef.not_answers_empty (page : PageDef) (i : Nat) : ¬ page.Answers i "" := by
  have hdigits : Decimal.digitString i ≠ "" := by simp [Decimal.digitString]
  have hid : (if page.id = "" then Decimal.digitString i else page.id) ≠ "" := by
    split
    · exact hdigits
    · assumption
  rintro (hempty | hempty)
  · exact hid hempty.symm
  · split at hempty
    · exact hid hempty.symm
    · rename_i hname
      exact hname hempty.symm

namespace Program

theorem Compiled.answer?_empty {p : Program} (hp : p.Compiled) : p.answer? "" = none := by
  obtain ⟨σ, env, d, diags, hcompile⟩ := hp
  refine List.find?_eq_none.mpr fun x hx => ?_
  obtain ⟨k, hk⟩ := List.mem_iff_getElem?.mp hx
  obtain ⟨page, -, hpage⟩ := forall₂_getElem? (describes_of_compile hcompile) hk
  have hempty := mt (hpage.answers "").mp (page.1.not_answers_empty page.2)
  simpa using hempty

end Program

namespace Brain

variable {W : Type} {K : String → Prop} {q : Program}

/-- The page on which a brain lands is the one that takes the place of the page that it was on. -/
theorem atInt?_landing (b : Brain W) (hq : q.Compiled) :
    Program.atInt? q.pages (b.landing q) = q.successor? b.mind.activePage? := by
  unfold landing Program.successor?
  dsimp only
  cases hactive : b.mind.activePage? with
  | none => rfl
  | some page =>
    have hpage : q.page? page.id = (q.answer? page.id).map PageInfo.index := rfl
    rw [Option.map_some, Option.getD_some, Option.bind_some, hpage]
    cases hanswer : q.answer? page.id with
    | none =>
      split <;> rfl
    | some x =>
      rw [if_neg fun hempty => by rw [hempty, hq.answer?_empty] at hanswer; cases hanswer]
      rw [Option.map_some, Option.getD_some, Option.some_or,
        hq.atInt?_index (Program.answer?_eq_some hanswer).1]

theorem landing_of_gone (b : Brain W) {page : PageInfo} (hpage : b.mind.activePage? = some page)
    (hgone : q.answer? page.id = none) : b.landing q = q.entry := by
  have hkey : q.page? page.id = none := by rw [Program.page?, ← Program.answer?, hgone, Option.map_none]
  simp [landing, hpage, hkey]

theorem pending_reloaded (b : Brain W) (hq : q.Compiled) (hpages : q.pages ≠ [])
    (svc : Option (Services (Stage (Mind W)))) (values : List (String × Value)) :
    (b.reloaded q svc values).mind.pending = some (b.landing q) := by
  have hrange := b.landing_range hq hpages
  exact if_neg (by omega)

theorem carries_reloaded (b : Brain W) (q : Program) (svc : Option (Services (Stage (Mind W))))
    (values : List (String × Value)) : (b.reloaded q svc values).mind.Carries q := by
  obtain ⟨hsame, -, -⟩ := restore_eq (W := W)
    { program := q, rules := Mind.rulesOf q, clock := b.mind.clock, faults := b.mind.faults,
      world := b.mind.world } values
  exact ⟨congrArg Mind.program hsame, congrArg (fun m => Mind.shape (Mind.rules m)) hsame⟩

theorem activePage?_reloaded (b : Brain W) (hq : q.Compiled) (svc : Option (Services (Stage (Mind W))))
    (values : List (String × Value)) :
    (b.reloaded q svc values).mind.activePage? = q.successor? b.mind.activePage? := by
  rw [Mind.activePage?, (b.carries_reloaded q svc values).program]
  exact b.atInt?_landing hq

/-- After a reload nothing runs, and the page that is waited for is the active one. -/
theorem tidy_reloaded (b : Brain W) (hq : q.Compiled) (hpages : q.pages ≠ [])
    (svc : Option (Services (Stage (Mind W)))) (values : List (String × Value))
    (hsvc : (svc.getD b.services).Obliging K) : (b.reloaded q svc values).Tidy K q := by
  have hrange : 0 ≤ (b.reloaded q svc values).mind.active ∧ (b.reloaded q svc values).mind.active < q.pages.length :=
    b.landing_range hq hpages
  have hcarries := b.carries_reloaded q svc values
  obtain ⟨page, hpage⟩ := Mind.exists_activePage? hcarries.program hrange
  refine ⟨rfl, hsvc, fun e he => absurd he List.not_mem_nil, rfl, hcarries, fun index hindex => ?_, page, hpage,
    linked_nil _ _⟩
  rw [b.pending_reloaded hq hpages] at hindex
  exact Option.some.inj hindex ▸ hrange

/-- The brain waits for the page that it is on, so the tick that follows enters it, and stays on it. -/
theorem activePage?_tick {b : Brain W} (hq : q.Paged) (hb : b.Tidy K q) (hpending : b.mind.pending = some b.mind.active)
    (dt : Int) :
    (∃ b₁, b.opened dt = .ok b₁ ∧ b₁.mind.activePage? = b.mind.activePage?) ∧
      ∀ b₂, b.think dt = .ok b₂ → b₂.mind.activePage? = b.mind.activePage? := by
  have hturned : b.mind.turned.active = b.mind.active := by rw [Mind.turned, hpending, Option.getD_some]
  constructor
  · obtain ⟨b₁, keys, hopened, henters, -⟩ := hb.opened hq dt
    exact ⟨b₁, hopened, Mind.activePage?_congr henters.mind.program (henters.mind.active.trans hturned)⟩
  · intro b₂ hthink
    obtain ⟨-, ⟨keys, faults, hstays, -⟩, -⟩ := hb.think hq hthink
    exact Mind.activePage?_congr hstays.program (hstays.active.trans hturned)

end Brain

section

variable {σ : Type} {env : CompileEnv σ} {d : BrainDef} {q : Program} {diags : Diagnostics}

/-- Where a brain is after a reload, whatever it did before: on the first page that has the id of its old page for
an id or a name, or else on the entry page. So it keeps its page if that first one has it for an id; if no page has
the id of another one for a name, then it keeps it whenever the new program has it, and is on the entry page
otherwise. The tick that follows enters the page that it is on. -/
theorem reload_landing (hcompile : compile env d = .ok (q, diags)) {W : Type} {b b' : Brain W}
    {svc : Option (Services (Stage (Mind W)))} (hreload : b.reload q svc = .ok (none, b')) :
    b'.mind.activePage? = q.successor? b.mind.activePage? ∧
    (∀ page, b.mind.activePage? = some page →
      (b'.mind.activePage?.map PageInfo.id = some page.id ↔ ∃ x, q.answer? page.id = some x ∧ x.id = page.id) ∧
      ((∀ x ∈ q.pages, x.name = page.id → x.id = page.id) →
        ((∃ x ∈ q.pages, x.id = page.id) → b'.mind.activePage?.map PageInfo.id = some page.id) ∧
        ((∀ x ∈ q.pages, x.id ≠ page.id) → b'.mind.active = q.entry))) ∧
    (q.pages ≠ [] → b'.mind.pending = some b'.mind.active ∧
      ∀ K, (svc.getD b.services).Obliging K → ∀ dt,
        (∃ b₁, b'.opened dt = .ok b₁ ∧ b₁.mind.activePage? = b'.mind.activePage?) ∧
        ∀ b₂, b'.think dt = .ok b₂ → b₂.mind.activePage? = b'.mind.activePage?) := by
  have hq : q.Compiled := ⟨σ, env, d, diags, hcompile⟩
  obtain ⟨values, rfl⟩ : ∃ values, b' = b.reloaded q svc values := by
    rw [b.reload_eq hq.check svc] at hreload
    split at hreload
    · cases hreload
    · split at hreload
      · cases hreload
      · exact ⟨_, (Prod.mk.inj (Except.ok.inj hreload)).2.symm⟩
  have hlands := b.activePage?_reloaded hq svc values
  refine ⟨hlands, fun page hpage => ?_, fun hpages => ?_⟩
  · have hkept := q.successor?_keeps_iff page
    rw [← hpage, ← hlands] at hkept
    refine ⟨hkept, fun hnames => ⟨fun ⟨x, hx, hid⟩ => hkept.mpr ?_, fun hgone => ?_⟩⟩
    · cases hanswer : q.answer? page.id with
      | none => exact absurd hid (Program.answer?_eq_none hanswer x hx).1
      | some y => exact ⟨y, rfl, Program.answer?_of_names hnames hanswer⟩
    · cases hanswer : q.answer? page.id with
      | none => exact b.landing_of_gone hpage hanswer
      | some y =>
        exact absurd (Program.answer?_of_names hnames hanswer) (hgone y (Program.answer?_eq_some hanswer).1)
  · have hpending := b.pending_reloaded hq hpages svc values
    exact ⟨hpending, fun K hsvc dt =>
      Brain.activePage?_tick (hq.paged hpages) (b.tidy_reloaded hq hpages svc values hsvc) hpending dt⟩

end

def plainBrain : BrainDef := { pages := [{ id := "a" }, { id := "b" }] }

def swappedBrain : BrainDef := { pages := [{ id := "b" }, { id := "a" }] }

/-- In front of the page there is another one that has its id for a name. -/
def namesakeBrain : BrainDef := { pages := [{ id := "x", name := "b" }, { id := "b" }] }

def plainRequests : List (Brain.Request Unit) := [.ask (.requestPage "b"), .ask (.think 0)]

/-- The page is found where it is now, and the brain stays on it. -/
theorem reload_landing_swapped :
    ∃ p q diags diags' b₀ b b', compile bareEnv plainBrain = .ok (p, diags) ∧
      compile bareEnv swappedBrain = .ok (q, diags') ∧
      Brain.create p shadowingEnv.services {} {} () = .ok b₀ ∧
      Brain.Request.performAll plainRequests b₀ = .ok b ∧ b.mind.active = 1 ∧
      b.reload q (some shadowingEnv.services) = .ok (none, b') ∧ b'.mind.active = 0 ∧
      b'.mind.activePage?.map PageInfo.id = some "b" ∧
      ∀ b₂, b'.think 0 = .ok b₂ → b₂.mind.activePage?.map PageInfo.id = some "b" := by
  have hran : (compile bareEnv plainBrain).toOption.any (fun r =>
      (compile bareEnv swappedBrain).toOption.any fun r' =>
        (Brain.create r.1 shadowingEnv.services {} {} ()).toOption.any fun b₀ =>
          (Brain.Request.performAll plainRequests b₀).toOption.any fun b =>
            (b.reloaded? r'.1 (some shadowingEnv.services)).any fun b' =>
              decide (b.mind.active = 1) && (decide (b.mind.activePage?.map PageInfo.id = some "b") &&
                (decide (b'.mind.active = 0) && (r'.1.pages.any (fun x => decide (x.id = "b")) &&
                  r'.1.pages.all fun x => decide (x.name = "b" → x.id = "b"))))) = true := by
    decide +kernel
  obtain ⟨⟨p, diags⟩, hp, hran⟩ := exists_of_any_toOption hran
  obtain ⟨⟨q, diags'⟩, hq, hran⟩ := exists_of_any_toOption hran
  obtain ⟨b₀, hb₀, hran⟩ := exists_of_any_toOption hran
  obtain ⟨b, hb, hran⟩ := exists_of_any_toOption hran
  obtain ⟨b', hb', hran⟩ := Brain.exists_reload_of_any hran
  simp only [Bool.and_eq_true, decide_eq_true_eq, List.any_eq_true, List.all_eq_true] at hran
  obtain ⟨hbefore, hid, hafter, hhas, hnames⟩ := hran
  obtain ⟨page, hpage, hid⟩ := Option.map_eq_some_iff.mp hid
  obtain ⟨-, hkeeps, hthinks⟩ := reload_landing hq hb'
  have hkept := ((hkeeps page hpage).2 (hid ▸ hnames)).1 (hid ▸ hhas)
  rw [hid] at hkept
  have hpages : q.pages ≠ [] := List.ne_nil_of_mem hhas.choose_spec.1
  obtain ⟨-, hticks⟩ := hthinks hpages
  refine ⟨p, q, diags, diags', b₀, b, b', hp, hq, hb₀, hb, hbefore, hb', hafter, hkept, fun b₂ hb₂ => ?_⟩
  rw [(hticks _ obliging_shadowingEnv 0).2 b₂ hb₂, hkept]

/-- The brain is on the page `b`, which the new program has, and goes on with another one. -/
theorem namesake_takes_over :
    ∃ p q diags diags' b₀ b b' b₂, compile bareEnv plainBrain = .ok (p, diags) ∧
      compile bareEnv namesakeBrain = .ok (q, diags') ∧
      Brain.create p shadowingEnv.services {} {} () = .ok b₀ ∧
      Brain.Request.performAll plainRequests b₀ = .ok b ∧
      b.mind.activePage?.map PageInfo.id = some "b" ∧ (∃ x ∈ q.pages, x.id = "b") ∧
      b.reload q none = .ok (none, b') ∧ b'.mind.activePage?.map PageInfo.id = some "x" ∧
      b'.think 0 = .ok b₂ ∧ b₂.mind.activePage?.map PageInfo.id = some "x" := by
  have hran : (compile bareEnv plainBrain).toOption.any (fun r =>
      (compile bareEnv namesakeBrain).toOption.any fun r' =>
        (Brain.create r.1 shadowingEnv.services {} {} ()).toOption.any fun b₀ =>
          (Brain.Request.performAll plainRequests b₀).toOption.any fun b =>
            (b.reloaded? r'.1 none).any fun b' =>
              (b'.think 0).toOption.any fun b₂ =>
                decide (b.mind.activePage?.map PageInfo.id = some "b") &&
                  (r'.1.pages.any (fun x => decide (x.id = "b")) &&
                    (decide (b'.mind.activePage?.map PageInfo.id = some "x") &&
                      decide (b₂.mind.activePage?.map PageInfo.id = some "x")))) = true := by
    decide +kernel
  obtain ⟨⟨p, diags⟩, hp, hran⟩ := exists_of_any_toOption hran
  obtain ⟨⟨q, diags'⟩, hq, hran⟩ := exists_of_any_toOption hran
  obtain ⟨b₀, hb₀, hran⟩ := exists_of_any_toOption hran
  obtain ⟨b, hb, hran⟩ := exists_of_any_toOption hran
  obtain ⟨b', hb', hran⟩ := Brain.exists_reload_of_any hran
  obtain ⟨b₂, hb₂, hran⟩ := exists_of_any_toOption hran
  simp only [Bool.and_eq_true, decide_eq_true_eq, List.any_eq_true] at hran
  obtain ⟨hbefore, hhas, hafter, hthen⟩ := hran
  exact ⟨p, q, diags, diags', b₀, b, b', b₂, hp, hq, hb₀, hb, hbefore, hhas, hb', hafter, hb₂, hthen⟩

end TileMind
