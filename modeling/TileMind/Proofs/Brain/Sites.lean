import TileMind.Proofs.Brain.Requests
import TileMind.Proofs.Code.CallSites

/-!
# TileMind.Proofs.Brain.Sites

The call sites of a brain. Host functions keep what they know between two calls by the number of the
site, and are told when a page with a call of theirs is entered. No number is used twice, and a page lists
its own sites and no others, so that neither gets mixed up.

* `Brain.switchPage_of_page`: who is told that a page is entered.
* `call_sites_of_compile`: the numbers of a program and the sites of its pages.
-/

namespace TileMind

section

variable {W : Type}

namespace Brain

theorem program_cleared (b : Brain W) : b.cleared.mind.program = b.mind.program := by
  have hstopped := (b.setMind { b.mind with pending := none }).cancelAll_same.2.2.2
  have hcancelled (b : Brain W) : b.cancelTimers.mind.program = b.mind.program := by
    unfold cancelTimers mind
    rw [(Scheduler.deliver_same _).2.2]
    have hsame := foldl_host (fun s (h : Nat) => cancelled_host s h)
      (b.mind.timers.timers.map Timer.handle) (b.setMind { b.mind with timers := {} }).scheduler.stage
    exact (congrArg Mind.program hsame).trans rfl
  rw [cleared, hcancelled]
  exact (congrArg Mind.program hstopped).trans rfl

/-- Entering a page tells the functions that it lists, site by site. -/
theorem switchPage_of_page (b : Brain W) {k : Nat} {page : PageInfo}
    (hpage : b.mind.program.pages[k]? = some page) : b.switchPage k =
      .ok (page.sites.foldl enterSite (b.cleared.setMind { b.cleared.mind with active := k })) := by
  have hactive : { b.cleared.mind with active := (k : Int) }.activePage? = some page := by
    change Program.atInt? b.cleared.mind.program.pages k = some page
    rw [program_cleared, Program.atInt?, if_neg (by omega), Int.toNat_natCast, hpage]
  rw [switchPage_eq, hactive]

end Brain

variable {σ : Type} {env : CompileEnv σ} {d : BrainDef} {p : Program} {diags : Diagnostics}

/-- The calls of tiles in a compiled program have the sites `1` to `N`, in the order of the code, and the
pages list these sites in turn: each page lists, in increasing order, the calls in its own rules at
whatever depth, and it is their functions that are told when a brain enters the page. An operand keeps 32
bits of a number, so the last part is about programs with fewer than `2^31` calls. -/
theorem call_sites_of_compile (h : compile env d = .ok (p, diags)) :
    p.tileCalls.map Prod.snd =
      (List.range' 1 p.tileCalls.length).map (fun (n : Nat) => Int32.ofInt n) ∧
    (p.pages.flatMap PageInfo.sites).map CallSite.site =
      (List.range' 1 p.tileCalls.length).map Int.ofNat ∧
    (∀ (k : Nat) page, p.pages[k]? = some page →
      page.sites.map CallSite.operands = p.pageCalls d k ∧
      (page.sites.map CallSite.site).Pairwise (· < ·) ∧
      ∀ b : Brain W, b.mind.program = p → b.switchPage k =
        .ok (page.sites.foldl Brain.enterSite
          (b.cleared.setMind { b.cleared.mind with active := k }))) ∧
    (p.tileCalls.length < 2 ^ 31 →
      (p.tileCalls.map fun c => c.2.toInt) = (List.range' 1 p.tileCalls.length).map Int.ofNat ∧
      ∀ (k : Nat) page, p.pages[k]? = some page → (∀ c ∈ page.sites, IsOperand c.fn) →
        page.sites = (p.pageCalls d k).map CallSite.ofOperands) := by
  obtain ⟨taken, hsited⟩ := sited_of_compile h
  refine ⟨hsited.operands_eq, hsited.sites_numbers, ?_, ?_⟩
  · intro k page hpage
    refine ⟨hsited.page_operands hpage, hsited.page_increasing (List.mem_of_getElem? hpage), ?_⟩
    intro b hb
    exact b.switchPage_of_page (by rw [hb]; exact hpage)
  · intro hfew
    constructor
    · have hread := congrArg (List.map Int32.toInt) hsited.operands_eq
      simp only [List.map_map] at hread
      refine hread.trans (List.map_congr_left fun n hn => ?_)
      have hle := (List.mem_range'_1.mp hn).2
      exact toInt_ofInt_of_lt (by omega)
    · intro k page hpage hfn
      rw [← hsited.page_operands hpage, List.map_map]
      refine Eq.trans (List.map_id _).symm (List.map_congr_left fun c hc => ?_)
      exact (CallSite.ofOperands_operands (hfn c hc)
        (hsited.isOperand_site hfew (List.mem_of_getElem? hpage) hc)).symm

end

/-- A tile that says something and waits until it is said, and one that measures a distance. -/
def measuringCatalog : Catalog :=
  { tiles := [
      { id := "say", kind := .actuator, fn := 8, async := true
        spec := (CallSpec.flatten (some (.anon .string)) 0).1 },
      { id := "distance", kind := .sensor, fn := 9, output := .number }] }

/-- Distances are measured to be said. There is no difference of a distance and nil, so that the
`distance` in it is not measured. -/
def measuringBrain : BrainDef :=
  { pages := [
      { rules := [
          { whenRow := "distance > 1"
            doRow := "say distance"
            children := [{ doRow := "say (distance - nil)" }] }] },
      { rules := [{ doRow := "say distance" }] }] }

def measuringEnv : CompileEnv (Stage Bench) :=
  { services := Core.services, catalog := measuringCatalog }

theorem call_sites_of_compile_measuring :
    ∃ p diags, compile measuringEnv measuringBrain = .ok (p, diags) ∧
      p.tileCalls = [(9, 1), (9, 2), (8, 3), (8, 4), (9, 5), (8, 6)] ∧
      (p.pages.map fun page => page.sites.map CallSite.site) = [[1, 2, 3, 4], [5, 6]] ∧
      (p.pages.flatMap PageInfo.sites).map CallSite.site =
        (List.range' 1 p.tileCalls.length).map Int.ofNat := by
  have hcompiled : (compile measuringEnv measuringBrain).toOption.any (fun r =>
      decide (r.1.tileCalls = [(9, 1), (9, 2), (8, 3), (8, 4), (9, 5), (8, 6)]) &&
      decide ((r.1.pages.map fun page => page.sites.map CallSite.site) = [[1, 2, 3, 4], [5, 6]])) =
        true := by
    decide +kernel
  obtain ⟨⟨p, diags⟩, hp, hsites⟩ := exists_of_any_toOption hcompiled
  simp only [Bool.and_eq_true, decide_eq_true_eq] at hsites
  exact ⟨p, diags, hp, hsites.1, hsites.2, (call_sites_of_compile (W := Unit) hp).2.1⟩

end TileMind
