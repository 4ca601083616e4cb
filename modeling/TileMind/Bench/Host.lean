import TileMind.Doc.Value
import TileMind.Machine.Scheduler
import TileMind.Value.Cells

/-!
# TileMind.Bench.Host

A bench on which programs are tried out. It keeps a journal of all that happens, and has one set of
variables for all functions. A page may be asked for by any key; a key that starts with an
exclamation mark is refused.
-/

namespace TileMind

/-- Hosts with a journal; the latest entry comes first. -/
class Journal (H : Type) where
  entries : H → List Doc
  setEntries : H → List Doc → H

namespace Journal

variable {H : Type} [Journal H]

def note (h : H) (d : Doc) : H := setEntries h (d :: entries h)

/-- The journal in the order of its writing, and the host with an empty one. -/
def take (h : H) : Doc × H := (.list (entries h).reverse, setEntries h [])

end Journal

def Stage.note {H : Type} [Journal H] (s : Stage H) (d : Doc) : Stage H :=
  { s with host := Journal.note s.host d }

structure Bench where
  vars : Cells Value := {}
  clock : Clock := {}
  sites : Cells SiteState := {}
  journal : List Doc := []
  ended : List Fiber := []

namespace Bench

instance : Journal Bench := ⟨Bench.journal, fun b entries => { b with journal := entries }⟩

def load (b : Bench) (var : Int) : Value := (b.vars.get? var).getD .nil

def requestPage (b : Bench) (key : String) : Option String × Bench :=
  (if key.startsWith "!" then some ("host: refused " ++ key) else none,
    Journal.note b (.record [("page", .text key)]))

/-- Keeps a fiber that has ended, and notes how it did. -/
def fiberEnded (b : Bench) (heap : Heap) (f : Fiber) : Bench :=
  let b := { b with ended := f :: b.ended }
  match f.state, f.fault with
  | .done, _ => Journal.note b (.record [("done", .nat f.id), ("result", heap.toDoc f.result)])
  | .fault, some ref =>
    Journal.note b (.record [("fault", .nat f.id), ("text", .text (heap.fault ref).text)])
  | _, _ => b

instance : Host Bench where
  load b _ var := b.load var
  store b _ var v := { b with vars := b.vars.set var v }
  clear b _ var := { b with vars := b.vars.erase var }
  clock := Bench.clock
  siteState b site := b.sites.get? site
  setSiteState b site state := match state with
    | some state => { b with sites := b.sites.set site state }
    | none => { b with sites := b.sites.erase site }
  requestPage := requestPage
  after := none
  ended := fiberEnded
  name := "bench"

end Bench

end TileMind
