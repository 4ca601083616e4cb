import TileMind.Bench.Host

/-!
# TileMind.Bench.Behaviour

Host functions that do what a description says. Every call is noted in the journal.
-/

namespace TileMind

/-- What a host function does. The last group completes its handle later, at once, or not at all. -/
inductive Behaviour where
  | copy (v : Value)
  | shared (v : Value)
  | argument
  | arguments
  | trace
  | refuse (message : String)
  | fault (f : Fault)
  | sharedFault (ref : Nat)
  | wrappedFault (f : Fault)
  | faultValue (f : Fault)
  | breakDown (message : String)
  | lastFault
  | context
  | count
  | readVar
  | writeVar
  | clearVar
  | requestPage
  | later
  | refuseLater (message : String)
  | now
  | completeAndRefuse (message : String)
  | breakDownLater (message : String)
  | neither
  | both
deriving Repr

namespace Behaviour

variable {H : Type} [Host H]

/-- The variable that the first argument names. -/
def variableNamed (c : CallContext) (args : Value) (s : Stage H) : Except Failure Nat :=
  let name := (s.heap.argAt args 0).string?.getD ""
  match c.program.varIndex? name with
  | some i => .ok i
  | none => .error (.plain ("no variable " ++ Text.quote name))

/-- Who is calling, when, and from which rule. -/
def contextText (c : CallContext) (clock : Clock) : String :=
  " ".intercalate
    ["fiber=" ++ Decimal.digitString c.fiber, "func=" ++ Decimal.integer c.func,
      "site=" ++ Decimal.integer c.site, "tick=" ++ Decimal.digitString clock.tick,
      "now=" ++ Decimal.integer clock.elapsed, "delta=" ++ Decimal.integer clock.delta,
      "rule=" ++ (c.rule?.map RuleInfo.path).getD "-"]

/-- The values of an argument map. -/
def argumentTexts? (h : Heap) (args : Value) : Option (List String) :=
  match args with
  | .map _ ref => (h.map ref).entries.mapM fun e => h.render? e.2
  | _ => some []

/-- The behaviour of a function that answers at once. -/
def sync? (name : String) : Behaviour → Option (CallContext → Value → Stage H → Reply × Stage H)
  | .copy v => some fun _ _ s =>
    match Heap.deepCopy? v s.heap with
    | some (v, heap) => (.ok v, { s with heap := heap })
    | none => (.fatal overflow, s)
  | .shared v => some fun _ _ s => (.ok v, s)
  | .argument => some fun _ args s => (.ok (s.heap.argAt args 0), s)
  | .arguments => some fun _ args s => (.ok args, s)
  | .trace => some fun _ args s =>
    match argumentTexts? s.heap args with
    | some texts => (.ok (.string (name ++ "(" ++ ", ".intercalate texts ++ ")")), s)
    | none => (.fatal overflow, s)
  | .refuse message => some fun _ _ s => (.fail (.plain message), s)
  | .fault f => some fun _ _ s =>
    let (ref, s) := s.newFault f
    (.fail (.fault ref), s)
  | .sharedFault ref => some fun _ _ s => (.fail (.fault ref), s)
  | .wrappedFault f => some fun _ _ s =>
    let (ref, s) := s.newFault f
    (.fail (.wrapped ("wrapped: " ++ f.text) ref), s)
  | .faultValue f => some fun _ _ s =>
    let (ref, s) := s.newFault f
    (.ok (.error ref), s)
  | .breakDown message => some fun _ _ s => (.panic message, s)
  | .lastFault => some fun c _ s =>
    (.ok ((c.lastFault.map fun ref => .string (s.heap.fault ref).text).getD .nil), s)
  | .context => some fun c _ s => (.ok (.string (contextText c (Host.clock s.host))), s)
  | .count => some fun c _ s =>
    let before := match Host.siteState s.host c.site with
      | some (.value v) => v.number?.getD 0.0
      | _ => 0.0
    let v := Value.number (before + 1.0)
    (.ok v, { s with host := Host.setSiteState s.host c.site (some (.value v)) })
  | .readVar => some fun c args s =>
    match variableNamed c args s with
    | .error e => (.fail e, s)
    | .ok i => (.ok (Host.load s.host c.func i), s)
  | .writeVar => some fun c args s =>
    match variableNamed c args s with
    | .error e => (.fail e, s)
    | .ok i => (.ok .void, { s with host := Host.store s.host c.func i (s.heap.argAt args 1) })
  | .clearVar => some fun c args s =>
    match variableNamed c args s with
    | .error e => (.fail e, s)
    | .ok i => (.ok .void, { s with host := Host.clear s.host c.func i })
  | .requestPage => some fun _ args s =>
    match Host.requestPage s.host ((s.heap.argAt args 0).string?.getD "") with
    | (none, host) => (.ok .void, { s with host := host })
    | (some refusal, host) => (.fail (.plain refusal), { s with host := host })
  | .both => some fun _ _ s => (.ok .nil, s)
  | _ => none

/-- The behaviour of a function that answers later. -/
def async? : Behaviour → Option (CallContext → Value → Nat → Stage H → Start × Stage H)
  | .later | .both => some fun _ _ _ s => (.ok, s)
  | .refuseLater message => some fun _ _ _ s => (.fail (.plain message), s)
  | .now => some fun _ args handle s => (.ok, s.resolve handle (s.heap.argAt args 0))
  | .completeAndRefuse message => some fun _ args handle s =>
    (.fail (.plain message), s.resolve handle (s.heap.argAt args 0))
  | .breakDownLater message => some fun _ _ _ s => (.panic message, s)
  | _ => none

/-- Reads a behaviour; values and faults that are shared between calls are linked. -/
def ofDoc (d : Doc) (h : Heap) : Behaviour × Heap :=
  let message := d.textAt "message"
  let f : Fault :=
    { tag := .ofDoc (d.get "tag"), message := message, detail := d.textAt "detail" }
  match d.textAt "do" with
  | "const" => let (v, h) := h.linkField d "value"; (.copy v, h)
  | "shared" => let (v, h) := h.linkField d "value"; (.shared v, h)
  | "shared_fault" => let (ref, h) := h.newFault f; (.sharedFault ref, h)
  | "arg" => (.argument, h)
  | "args" => (.arguments, h)
  | "trace" => (.trace, h)
  | "error" => (.refuse message, h)
  | "fault" => (.fault f, h)
  | "wrapped_fault" => (.wrappedFault f, h)
  | "errval" => (.faultValue f, h)
  | "panic" => (.breakDown message, h)
  | "last_error" => (.lastFault, h)
  | "ctx" => (.context, h)
  | "count" => (.count, h)
  | "getvar" => (.readVar, h)
  | "setvar" => (.writeVar, h)
  | "clearvar" => (.clearVar, h)
  | "page" => (.requestPage, h)
  | "later" => (.later, h)
  | "refuse" => (.refuseLater message, h)
  | "now" => (.now, h)
  | "settle_then_error" => (.completeAndRefuse message, h)
  | "apanic" => (.breakDownLater message, h)
  | "both" => (.both, h)
  | _ => (.neither, h)

variable [Journal H]

def noteCall (name : String) (c : CallContext) (args : Value) (s : Stage H) : Stage H :=
  s.note (.record [("fn", .text name), ("fiber", .nat c.fiber), ("func", .int c.func),
    ("site", .int c.site), ("args", s.heap.toDoc args)])

/-- Notes that a page was entered, and forgets the state of the call site. -/
def enterPage (name : String) (c : CallContext) (s : Stage H) : Stage H :=
  let s := s.note (.record [("hook", .text name), ("fiber", .nat c.fiber), ("func", .int c.func),
    ("site", .int c.site), ("last_error", .text (if c.lastFault.isSome then "some" else "none"))])
  { s with host := Host.setSiteState s.host c.site none }

def functionOf (d : Doc) (h : Heap) : HostFunction (Stage H) × Heap :=
  let name := d.textAt "name"
  let (b, h) := ofDoc d h
  ({ name := name
     sync := (b.sync? name).map fun run c args s => run c args (noteCall name c args s)
     async := b.async?.map fun run c args handle s => run c args handle (noteCall name c args s)
     onPage := if d.boolAt "hook" then some (enterPage name) else none }, h)

end Behaviour

end TileMind
