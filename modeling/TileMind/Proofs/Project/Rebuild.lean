import TileMind.Project.Basic
import TileMind.Proofs.Brain.Requests

/-!
# TileMind.Proofs.Project.Rebuild

What an attempt to rebuild leaves behind if it fails, whatever the files are like. The brain is the same
in any case. So is the project, as long as its manifest cannot be read; if it can and something else goes
wrong afterwards, the project goes on with the new manifest and the brain with the old program.

* `Disk.Ends`: the results that a plan can have.
* `Project.Attempt`: the ways in which an attempt can end.
* `failed_rebuild`: what is left behind.
-/

namespace TileMind

namespace Disk

variable {α β : Type}

/-- Some answers of a file system lead the plan to `a`. No answer depends on the others, so files may
even change meanwhile. -/
inductive Ends : Disk α → α → Prop where
  | done (a : α) : Ends (.done a) a
  | read {path : String} {next : Except FileError (List UInt8) → Disk α} {a : α}
      (answer : Except FileError (List UInt8)) (rest : Ends (next answer) a) : Ends (.read path next) a
  | probe {path : String} {next : Bool → Disk α} {a : α} (answer : Bool) (rest : Ends (next answer) a) :
      Ends (.probe path next) a
  | write {path : String} {bytes : List UInt8} {next : Option FileError → Disk α} {a : α}
      (answer : Option FileError) (rest : Ends (next answer) a) : Ends (.write path bytes next) a

/-- What a plan does on files in memory is one of its results. -/
theorem ends_run (d : Disk α) (fs : Files) : d.Ends (d.run fs).1 := by
  induction d generalizing fs with
  | done a => exact .done a
  | read path next ih => exact .read _ (ih _ fs)
  | probe path next ih => exact .probe _ (ih _ fs)
  | write path bytes next ih =>
    rw [Disk.run]
    split
    · exact .write _ (ih _ _)
    · exact .write _ (ih _ fs)

theorem ends_pure_iff {a b : α} : (pure a : Disk α).Ends b ↔ b = a := by
  constructor
  · rintro ⟨⟩
    rfl
  · rintro rfl
    exact .done b

theorem ends_readFile (path : String) (answer : Except FileError (List UInt8)) :
    (readFile path).Ends answer :=
  .read answer (.done answer)

theorem ends_bind_iff {d : Disk α} {f : α → Disk β} {b : β} :
    (d >>= f).Ends b ↔ ∃ a, d.Ends a ∧ (f a).Ends b := by
  change (d.bind f).Ends b ↔ _
  constructor
  · induction d with
    | done a => exact fun h => ⟨a, .done a, h⟩
    | read path next ih =>
      rintro (_ | ⟨answer, rest⟩)
      obtain ⟨a, ha, hb⟩ := ih answer rest
      exact ⟨a, .read answer ha, hb⟩
    | probe path next ih =>
      rintro (_ | _ | ⟨answer, rest⟩)
      obtain ⟨a, ha, hb⟩ := ih answer rest
      exact ⟨a, .probe answer ha, hb⟩
    | write path bytes next ih =>
      rintro (_ | _ | _ | ⟨answer, rest⟩)
      obtain ⟨a, ha, hb⟩ := ih answer rest
      exact ⟨a, .write answer ha, hb⟩
  · rintro ⟨a, ha, hb⟩
    induction ha with
    | done a => exact hb
    | read answer rest ih => exact .read answer (ih hb)
    | probe answer rest ih => exact .probe answer (ih hb)
    | write answer rest ih => exact .write answer (ih hb)

end Disk

namespace Project

variable {W : Type} {tools : Tools (Mind W)} {p : Project} {b : Brain W} {here : String} {r : Rebuilt W}

/-- Reading the manifest again changes nothing else, and nothing at all where there is none. -/
theorem ends_reload_iff {toml : List UInt8 → Option Manifest.Decoded}
    {result : Except ManifestError Project} :
    (p.reload toml here).Ends result ↔
      p.manifest = none ∧ result = .ok p ∨
      ∃ m read, p.manifest = some m ∧ (Manifest.load toml here m.dir).Ends read ∧
        result = read.map fun m => { p with manifest := some m } := by
  unfold Project.reload
  cases p.manifest with
  | none => simp [Disk.ends_pure_iff]
  | some m => simp [Disk.ends_bind_iff, Disk.ends_pure_iff]

/-- How an attempt to rebuild can end: the manifest cannot be read any more, the build fails or crashes,
or the brain refuses the program, takes it over, or crashes. -/
inductive Attempt (tools : Tools (Mind W)) (p : Project) (b : Brain W) (here : String) :
    Option (Rebuilt W) → Prop where
  | manifest {e : ManifestError} (reload : (p.reload tools.toml here).Ends (.error e)) :
      Attempt tools p b here (some { project := p, brain := b, error := some (.manifest e) })
  | build {q : Project} {ds : Diagnostics} {e : BuildError}
      (reload : (p.reload tools.toml here).Ends (.ok q)) (build : (q.build tools).Ends (ds, .error e))
      (failed : e.isCrash = false) :
      Attempt tools p b here
        (some { project := q, brain := b, diagnostics := ds, error := some (.build e) })
  | breakOff {q : Project} {ds : Diagnostics} {e : BuildError}
      (reload : (p.reload tools.toml here).Ends (.ok q)) (build : (q.build tools).Ends (ds, .error e))
      (crashed : e.isCrash = true) : Attempt tools p b here none
  | exchange {q : Project} {ds : Diagnostics} {built : Build (Mind W)} {e : Option BrainError}
      {b' : Brain W} (reload : (p.reload tools.toml here).Ends (.ok q))
      (build : (q.build tools).Ends (ds, .ok built))
      (exchanged : b.reload built.program (some built.services) = .ok (e, b')) :
      Attempt tools p b here
        (some { project := q, brain := b', diagnostics := ds, error := e.map .brain })
  | crash {q : Project} {ds : Diagnostics} {built : Build (Mind W)} {c : Crash}
      (reload : (p.reload tools.toml here).Ends (.ok q)) (build : (q.build tools).Ends (ds, .ok built))
      (crashed : b.reload built.program (some built.services) = .error c) : Attempt tools p b here none

theorem ends_rebuild_iff {r : Option (Rebuilt W)} :
    (p.rebuild tools b here).Ends r ↔ Attempt tools p b here r := by
  unfold rebuild
  rw [Disk.ends_bind_iff]
  constructor
  · rintro ⟨reloaded, hreload, h⟩
    cases reloaded with
    | error e =>
      obtain rfl := Disk.ends_pure_iff.mp h
      exact .manifest hreload
    | ok q =>
      obtain ⟨⟨ds, built⟩, hbuild, h⟩ := Disk.ends_bind_iff.mp h
      cases built with
      | error e =>
        cases hcrash : e.isCrash with
        | true =>
          obtain rfl := Disk.ends_pure_iff.mp (by simpa [hcrash] using h)
          exact .breakOff hreload hbuild hcrash
        | false =>
          obtain rfl := Disk.ends_pure_iff.mp (by simpa [hcrash] using h)
          exact .build hreload hbuild hcrash
      | ok built =>
        dsimp only at h
        split at h
        · rename_i c hcrashed
          obtain rfl := Disk.ends_pure_iff.mp h
          exact .crash hreload hbuild hcrashed
        · rename_i e b' hexchanged
          obtain rfl := Disk.ends_pure_iff.mp h
          exact .exchange hreload hbuild hexchanged
  · rintro (hreload | ⟨hreload, hbuild, hended⟩ | ⟨hreload, hbuild, hended⟩ |
      ⟨hreload, hbuild, hended⟩ | ⟨hreload, hbuild, hended⟩)
    · exact ⟨_, hreload, .done _⟩
    all_goals
      refine ⟨_, hreload, Disk.ends_bind_iff.mpr ⟨_, hbuild, ?_⟩⟩
      dsimp only
      rw [hended]
      exact .done _

/-- What is built fails, or the brain refuses it. -/
def FailsLate (q : Project) (tools : Tools (Mind W)) (b : Brain W) : Prop :=
  (∃ ds e, (q.build tools).Ends (ds, .error e) ∧ e.isCrash = false) ∨
    ∃ ds built e b', (q.build tools).Ends (ds, .ok built) ∧
      b.reload built.program (some built.services) = .ok (some e, b')

/-- If an attempt to rebuild fails, the brain is as before. So is the project if there was no manifest to
read or it could not be read; but if it was read, and only what came afterwards has failed, then the
project goes on with the new manifest. -/
theorem failed_rebuild (h : (p.rebuild tools b here).Ends (some r)) {e : RebuildError}
    (hfailed : r.error = some e) :
    r.brain = b ∧
      ((r.project = p ∧ (p.manifest = none ∧ p.FailsLate tools b ∨
          ∃ m e', p.manifest = some m ∧ (Manifest.load tools.toml here m.dir).Ends (.error e') ∧
            e = .manifest e')) ∨
        ∃ m m', p.manifest = some m ∧ (Manifest.load tools.toml here m.dir).Ends (.ok m') ∧
          r.project = { p with manifest := some m' } ∧ r.project.FailsLate tools b) := by
  have hlate {q : Project} (hreload : (p.reload tools.toml here).Ends (.ok q))
      (hfails : q.FailsLate tools b) :
      (q = p ∧ p.manifest = none ∧ p.FailsLate tools b) ∨
        ∃ m m', p.manifest = some m ∧ (Manifest.load tools.toml here m.dir).Ends (.ok m') ∧
          q = { p with manifest := some m' } ∧ q.FailsLate tools b := by
    rcases ends_reload_iff.mp hreload with ⟨hnone, heq⟩ | ⟨m, read, hm, hread, heq⟩
    · cases heq
      exact .inl ⟨rfl, hnone, hfails⟩
    · cases read with
      | error e => cases heq
      | ok m' =>
        cases heq
        exact .inr ⟨m, m', hm, hread, rfl, hfails⟩
  cases ends_rebuild_iff.mp h with
  | manifest hreload =>
    refine ⟨rfl, .inl ⟨rfl, .inr ?_⟩⟩
    cases hfailed
    rcases ends_reload_iff.mp hreload with ⟨-, heq⟩ | ⟨m, read, hm, hread, heq⟩
    · cases heq
    · cases read with
      | error e' =>
        cases heq
        exact ⟨m, _, hm, hread, rfl⟩
      | ok m' => cases heq
  | build hreload hbuild hended =>
    rcases hlate hreload (.inl ⟨_, _, hbuild, hended⟩) with ⟨rfl, hnone, hfails⟩ | hread
    · exact ⟨rfl, .inl ⟨rfl, .inl ⟨hnone, hfails⟩⟩⟩
    · exact ⟨rfl, .inr hread⟩
  | @exchange q ds built refusal b' hreload hbuild hexchanged =>
    obtain ⟨refused, rfl, -⟩ := Option.map_eq_some_iff.mp hfailed
    refine ⟨Brain.reload_refused hexchanged, ?_⟩
    rcases hlate hreload (.inr ⟨_, _, _, _, hbuild, hexchanged⟩) with ⟨rfl, hnone, hfails⟩ | hread
    · exact .inl ⟨rfl, .inl ⟨hnone, hfails⟩⟩
    · exact .inr hread

/-! ## Missing definitions -/

/-- A project without scripts is given its kit, unless the tiles that every brain has clash. -/
theorem ends_kit (tools : Tools (Mind W)) {q : Project} (hscripts : ∀ m ∈ q.manifest, m.tiles = []) :
    ∃ kit, (q.kit tools).Ends kit ∧ ∀ e, kit = .error e → e.isCrash = false := by
  unfold Project.kit
  split
  · rename_i e _
    exact ⟨_, .done _, fun _ he => by cases he; rfl⟩
  · rename_i services catalog _
    refine ⟨.ok ⟨services.freeze, catalog⟩, ?_, fun e he => by cases he⟩
    dsimp only
    split
    · exact .done _
    · rename_i m hm
      rw [hscripts m hm]
      exact .done _

/-- A project whose definition cannot be loaded is not built. -/
theorem fails_without_definition (tools : Tools (Mind W)) {q : Project} (hscripts : ∀ m ∈ q.manifest, m.tiles = [])
    (hprogram : q.programPath = "") {e : DefinitionFileError}
    (hdefinition : (q.definition tools.yaml).Ends (.error (.definition e))) :
    ∃ ds e, (q.build tools).Ends (ds, .error e) ∧ e.isCrash = false := by
  unfold build
  simp only [Disk.ends_bind_iff]
  obtain ⟨kit, hkit, hended⟩ := ends_kit tools hscripts
  cases kit with
  | error e => exact ⟨_, _, ⟨_, hkit, .done _⟩, hended e rfl⟩
  | ok k =>
    refine ⟨[], .definition e, ⟨_, hkit, ?_⟩, rfl⟩
    dsimp only
    rw [if_neg (by simp [hprogram])]
    exact Disk.ends_bind_iff.mpr ⟨_, hdefinition, .done _⟩

theorem ends_load_missing (yaml : List UInt8 → Except Yaml.ReadError BrainDef) (path : String) :
    (BrainDef.load yaml path).Ends (.error (.unreadable path .missing)) :=
  Disk.ends_bind_iff.mpr ⟨_, Disk.ends_readFile path (.error .missing), .done _⟩

def idleBrain : Brain Unit :=
  { scheduler := Scheduler.create {} Core.services {} {} { program := {}, world := () } }

def loneProject : Project := { definitionPath := "patrol.yaml" }

theorem failed_rebuild_loneProject :
    ∃ r e, (loneProject.rebuild .standard idleBrain "/").Ends (some r) ∧ r.error = some e ∧
      r.brain = idleBrain ∧ r.project = loneProject := by
  have hdefinition : (loneProject.definition BrainDef.ofYaml).Ends
      (.error (.definition (.unreadable "patrol.yaml" .missing))) :=
    Disk.ends_bind_iff.mpr ⟨_, ends_load_missing _ "patrol.yaml", .done _⟩
  obtain ⟨ds, e, hbuild, hended⟩ :=
    fails_without_definition (Tools.standard (H := Mind Unit)) (fun m hm => by cases hm) rfl hdefinition
  have hreload : (loneProject.reload Manifest.ofToml "/").Ends (.ok loneProject) := .done _
  have hends := ends_rebuild_iff.mpr (Attempt.build (b := idleBrain) hreload hbuild hended)
  obtain ⟨hbrain, ⟨hproject, -⟩ | ⟨m, -, hm, -⟩⟩ := failed_rebuild hends rfl
  · exact ⟨_, _, hends, rfl, hbrain, hproject⟩
  · cases hm

def cappedProject : Project :=
  { manifest := some { definition := "brain.yaml", limits := { frames := 5 }, dir := "/patrol" } }

/-- Its manifest has been emptied and its definition removed. The rebuild fails, but the project is left
without the ceiling. -/
theorem ceiling_dropped_by_failed_rebuild :
    ∃ r e, (cappedProject.rebuild .standard idleBrain "/").Ends (some r) ∧ r.error = some e ∧
      cappedProject.limits.frames = 5 ∧ r.project.limits.frames = 64 := by
  obtain ⟨m, hm, hlimits, htiles⟩ :
      ∃ m, (Manifest.load Manifest.ofToml "/" "/patrol").Ends (.ok m) ∧ m.limits = {} ∧ m.tiles = [] :=
    ⟨_, Disk.ends_bind_iff.mpr ⟨_, Disk.ends_readFile _ (.ok []), .done _⟩, rfl, rfl⟩
  have hreload : (cappedProject.reload Manifest.ofToml "/").Ends
      (.ok { cappedProject with manifest := some m }) :=
    Disk.ends_bind_iff.mpr ⟨_, hm, .done _⟩
  have hdefinition : (Project.definition { cappedProject with manifest := some m } BrainDef.ofYaml).Ends
      (.error (.definition (.unreadable m.definitionPath .missing))) := by
    refine Disk.ends_bind_iff.mpr ⟨.error (.unreadable m.definitionPath .missing), ?_, .done _⟩
    exact Disk.ends_bind_iff.mpr ⟨_, ends_load_missing _ m.definitionPath, .done _⟩
  have hscripts : ∀ m' ∈ (some m : Option Manifest), m'.tiles = [] := by
    rintro m' ⟨⟩
    exact htiles
  obtain ⟨ds, e, hbuild, hended⟩ := fails_without_definition (Tools.standard (H := Mind Unit))
    (q := { cappedProject with manifest := some m }) hscripts rfl hdefinition
  refine ⟨_, _, ends_rebuild_iff.mpr (Attempt.build (b := idleBrain) hreload hbuild hended), rfl, rfl, ?_⟩
  rw [limits]
  simp only [Option.map_some, Option.getD_some, hlimits]
  rfl

end Project

end TileMind
