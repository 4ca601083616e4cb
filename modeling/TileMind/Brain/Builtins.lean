import TileMind.Brain.Mind
import TileMind.Tile.Catalog

/-!
# TileMind.Brain.Builtins

Tiles that every brain has: `switch_page`, `tick`, `elapsed`, `timer` and `wait`.
-/

namespace TileMind
namespace Builtins

variable {H : Type} [Host H]

/-- Nanoseconds of a number of seconds, cut to 64 bits; less than none is none. -/
def nanoseconds (n : Float) : Int :=
  Decimal.toInt64 ((if n < 0.0 then 0.0 else n) * 1000000000.0)

/-- A duration given in seconds, or why there is none. -/
def duration (h : Heap) (v : Value) : Except (Option String) Int :=
  match v.number? with
  | some n => .ok (nanoseconds n)
  | none => .error ((h.render? v).map fun got => "expected a number of seconds, got " ++ got)

/-- Asks for a page by id, name or position. -/
def switchPage : HostFunction (Stage H) :=
  { name := "brain.switch_page"
    sync := some fun _ args s =>
      let target := s.heap.argAt args 0
      let key := match target.string?, target.number? with
        | some key, _ => some key
        | none, some n => some (Decimal.integer (Decimal.toInt64 n))
        | none, none => none
      match key with
      | none =>
        (.refuse ((s.heap.render? target).map fun got =>
          "switch_page: expected a page id or index, got " ++ got), s)
      | some key =>
        match Host.requestPage s.host key with
        | (none, host) => (.ok .void, { s with host := host })
        | (some refusal, host) => (.fail (.plain refusal), { s with host := host }) }

def tick : HostFunction (Stage H) :=
  { name := "brain.tick"
    sync := some fun _ _ s => (.ok (.int (Host.clock s.host).tick), s) }

def elapsed : HostFunction (Stage H) :=
  { name := "brain.elapsed"
    sync := some fun _ _ s => (.ok (.number (Host.clock s.host).seconds), s) }

/-- True once in every period, at each call site. The first period starts with the first call on a
page. -/
def timer : HostFunction (Stage H) :=
  { name := "brain.timer"
    sync := some fun c args s =>
      match duration s.heap (s.heap.argAt args 0) with
      | .error reason => (.refuse reason, s)
      | .ok period =>
        let now := (Host.clock s.host).elapsed
        let last := match Host.siteState s.host c.site with
          | some (.timer last) => last
          | _ => now
        let isDue := period ≤ Decimal.wrap64 (now - last)
        let state := SiteState.timer (if isDue then now else last)
        (.ok (.bool isDue), { s with host := Host.setSiteState s.host c.site (some state) })
    onPage := some fun c s => { s with host := Host.setSiteState s.host c.site none } }

def wait : HostFunction (Stage H) :=
  { name := "brain.wait"
    async := some fun _ args handle s =>
      match duration s.heap (s.heap.argAt args 0) with
      | .error reason => (.refuse reason, s)
      | .ok delay =>
        match Host.after (H := H) with
        | some after => (.ok, { s with host := after s.host delay handle })
        | none =>
          (.fail (.plain ("wait: host " ++ Host.name H ++ " has no clock queue")), s) }

def functions : List (HostFunction (Stage H)) := [switchPage, tick, elapsed, timer, wait]

/-- Why the tiles are not installed. -/
inductive InstallError where
  | function (e : FunctionError)
  | tile (e : CatalogError)
deriving DecidableEq, Repr

def InstallError.message : InstallError → String
  | .function e => "builtins: " ++ e.message
  | .tile e => "builtins: " ++ e.message

def register : List (HostFunction (Stage H)) → Services (Stage H) →
    Except InstallError (Services (Stage H))
  | [], svc => .ok svc
  | f :: rest, svc =>
    match svc.functions.register f with
    | .error e => .error (.function e)
    | .ok (_, functions) => register rest { svc with functions := functions }

def addTiles (svc : Services (Stage H)) (c : Catalog) : Except CatalogError Catalog := do
  let c ← c.addActuator svc "switch_page" "brain.switch_page" (some (.anon .unknown))
  let c ← c.addSensor svc "tick" "brain.tick" none .number
  let c ← c.addSensor svc "elapsed" "brain.elapsed" none .number
  let c ← c.addSensor svc "timer" "brain.timer" (some (.anon .number)) .boolean
  c.addActuator svc "wait" "brain.wait" (some (.anon .number))

/-- Registers the functions and adds the tiles. -/
def install (svc : Services (Stage H)) (c : Catalog) :
    Except InstallError (Services (Stage H) × Catalog) :=
  match register functions svc with
  | .error e => .error e
  | .ok svc =>
    match addTiles svc c with
    | .error e => .error (.tile e)
    | .ok c => .ok (svc, c)

end Builtins
end TileMind
