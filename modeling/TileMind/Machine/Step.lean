import TileMind.Machine.Host

/-!
# TileMind.Machine.Step

One instruction of a fiber. Most of what goes wrong in a checked program is raised as a fault inside
the fiber. A program that was never checked can refer to what does not exist, and then the machine
crashes; so it does where a value that contains itself is shown or copied, and where host code breaks
down outside of a call.

* `step` executes the instruction at hand.
* `Machine.checkStack` guards the stack before it.
-/

namespace TileMind

/-- Why a machine cannot go on. -/
inductive Crash where
  | noFunction (func : Int)
  | noInstruction (site : Site)
  | noConstant (index : Int)
  | operandCount (count : Int)
  | emptyStack
  | noPage (index : Int)
  | noVariable (id : Int)
  | noFault (handle : Nat)
  | circular (v : Value)
  | hook (type : TypeId) (message : String)
  | fatal (name message : String)
  | endless
deriving DecidableEq, Repr

/-- Why a fiber stops running. -/
inductive RunStatus where
  | done | yielded | waiting | fault | budget
deriving DecidableEq, Repr, Inhabited

def RunStatus.name : RunStatus → String
  | .done => "done"
  | .yielded => "yielded"
  | .waiting => "waiting"
  | .fault => "fault"
  | .budget => "budget"

/-- What executes a program: its constants as values, the services it calls and the ceilings it keeps
to. -/
structure Machine (H : Type) where
  program : Program
  constants : Array Value := #[]
  services : Services (Stage H) := {}
  limits : Limits := .standard

namespace Machine

variable {H : Type}

/-- Links the constants of a program one after the other. -/
def linkConstants (p : Program) (h : Heap) : Array Value × Heap :=
  let (values, h) := Heap.linkItems p.constants.toList h
  (values.toArray, h)

/-- A machine for a program, and the heap with its constants. -/
def load (p : Program) (svc : Services (Stage H)) (limits : Limits) (h : Heap) : Machine H × Heap :=
  let (constants, h) := linkConstants p h
  ({ program := p, constants := constants, services := svc, limits := limits.filled }, h)

def constant? (m : Machine H) (i : Int32) : Option Value :=
  if i.toInt < 0 then none else m.constants[i.toInt.toNat]?

end Machine

inductive Outcome (H : Type) where
  | next (f : Fiber) (s : Stage H)
  | stop (status : RunStatus) (f : Fiber) (s : Stage H)
  | crash (c : Crash)

section

variable {H : Type}

def raise (f : Fiber) (s : Stage H) (fault : Nat) (site : Site) : Outcome H :=
  let s := { s with heap := s.heap.setFault fault ((s.heap.fault fault).raisedAt site f.trace) }
  if f.handlers.isEmpty then .stop .fault (f.unwind fault) s else .next (f.unwind fault) s

/-- Raises a fresh fault. -/
def raiseNew (f : Fiber) (s : Stage H) (fault : Fault) (site : Site) : Outcome H :=
  let (ref, s) := s.newFault fault
  raise f s ref site

/-- Goes on with the top of the stack. -/
def withTop (f : Fiber) (k : Value → Fiber → Outcome H) : Outcome H :=
  match f.stack with
  | [] => .crash .emptyStack
  | v :: rest => k v { f with stack := rest }

def scriptFault (message : String) : Fault := { tag := .script, message := message }

def hostFault (message : String) : Fault := { tag := .host, message := message }

/-- Goes on with what was found out, unless that broke the machine. -/
def withResult {α : Type} (r : Except Crash α) (k : α → Outcome H) : Outcome H :=
  match r with
  | .ok a => k a
  | .error c => .crash c

/-- A value as it is shown in the text of a fault. -/
def shown (h : Heap) (v : Value) : Except Crash String :=
  match h.render? v with
  | some text => .ok text
  | none => .error (.circular v)

/-- What happens to a host function that looks into a fault that is missing. -/
def missingFault : String := "runtime error: invalid memory address or nil pointer dereference"

namespace Machine

/-- What is wrong with the stack for an instruction: it is too low in the frame, or would grow past
its ceiling. -/
def checkStack (m : Machine H) (f : Fiber) (base : Nat) (i : Instr) : Option Fault :=
  let height : Int := f.stack.length
  let pops := i.pops
  if pops > height - base then
    some
      { tag := .stackUnderflow
        message := i.name ++ " needs " ++ Decimal.integer pops ++ " operands, frame has " ++
          Decimal.integer (height - base) }
  else if height - pops + i.pushes > m.limits.stack then
    some
      { tag := .stackOverflow
        message := "operand stack exceeds " ++ Decimal.integer m.limits.stack ++ " slots" }
  else none

/-- The fault of a function that broke down. -/
def brokenDown (name message : String) : Fault := hostFault (name ++ " panicked: " ++ message)

/-- Calls a host function that answers at once. A failure without a detail of its own names the
function. -/
def callSync (m : Machine H) (f : Fiber) (fn site func : Int) (args : Value) (s : Stage H) :
    Except Crash (Except Nat Value × Stage H) :=
  match m.services.functions.get? fn with
  | none =>
    let (ref, s) := s.newFault (hostFault ("unknown host function " ++ Decimal.integer fn))
    .ok (.error ref, s)
  | some h =>
    match h.sync with
    | none =>
      let (ref, s) := s.newFault
        (hostFault (h.name ++ " is async and cannot be called synchronously"))
      .ok (.error ref, s)
    | some call =>
      match call ⟨m.program, f.id, func, site, f.lastFault⟩ args s with
      | (.ok v, s) => .ok (.ok v, s)
      | (.fatal message, _) => .error (.fatal h.name message)
      | (.panic message, s) =>
        let (ref, s) := s.newFault (brokenDown h.name message)
        .ok (.error ref, s)
      | (.fail failure, s) =>
        match s.faultOf failure with
        | (none, s) =>
          let (ref, s) := s.newFault (brokenDown h.name missingFault)
          .ok (.error ref, s)
        | (some ref, s) =>
          let fault := s.heap.fault ref
          let fault :=
            if fault.tag = .host && fault.detail = "" then { fault with detail := h.name } else fault
          .ok (.error ref, { s with heap := s.heap.setFault ref fault })

def createHandle (f : Fiber) (s : Stage H) : Except Nat Nat × Fiber × Stage H :=
  match s.handles.create? f.id with
  | none =>
    let (ref, s) := s.newFault s.handles.tooMany
    (.error ref, f, s)
  | some (id, t) => (.ok id, { f with handles := f.handles ++ [id] }, { s with handles := t })

/-- Starts a host function that answers later. One that breaks down or refuses rejects its handle, if
that is still pending. -/
def startAsync (m : Machine H) (f : Fiber) (h : HostFunction (Stage H))
    (call : CallContext → Value → Nat → Stage H → Start × Stage H) (site func : Int) (args : Value)
    (s : Stage H) : Except Crash (Except Nat Nat × Fiber × Stage H) :=
  match createHandle f s with
  | (.error ref, f, s) => .ok (.error ref, f, s)
  | (.ok id, f, s) =>
    match call ⟨m.program, f.id, func, site, f.lastFault⟩ args id s with
    | (.ok, s) => .ok (.ok id, f, s)
    | (.fatal message, _) => .error (.fatal h.name message)
    | (.panic message, s) =>
      let (ref, s) := s.newFault (brokenDown h.name message)
      .ok (.ok id, f, s.reject id (some ref))
    | (.fail failure, s) =>
      let (fault, s) := s.faultOf failure
      .ok (.ok id, f, s.reject id fault)

/-- Calls a host function for a handle. One that answers at once completes it at once. -/
def callAsync (m : Machine H) (f : Fiber) (fn site func : Int) (args : Value) (s : Stage H) :
    Except Crash (Except Nat Nat × Fiber × Stage H) :=
  match (m.services.functions.get? fn).bind fun h => h.async.map fun call => (h, call) with
  | some (h, call) => m.startAsync f h call site func args s
  | none =>
    (m.callSync f fn site func args s).map fun
      | (.error ref, s) => (.error ref, f, s)
      | (.ok v, s) =>
        match createHandle f s with
        | (.error ref, f, s) => (.error ref, f, s)
        | (.ok id, f, s) => (.ok id, f, s.resolve id v)

def hooks (m : Machine H) (type : TypeId) : FieldHooks (Stage H) :=
  ((m.services.types.get? type).bind TypeDef.hooks).getD {}

/-- Reads a field: of a struct through its hooks, of a map by its key, of nothing as nil. -/
def getField (m : Machine H) (obj : Value) (field : String) (s : Stage H) :
    Except Crash (Except Fault Value × Stage H) :=
  match obj with
  | .struct type ref =>
    let hooked := match (m.hooks type).get with
      | some get => (get obj field s).mapError (Crash.hook type)
      | none => .ok (none, s)
    hooked.map fun (hooked, s) => (.ok ((hooked <|> (s.heap.struct ref).get? field).getD .nil), s)
  | .map _ ref => .ok (.ok (((s.heap.map ref).get? (.string field)).getD .nil), s)
  | v =>
    match v.kind with
    | .nil | .void | .unknown => .ok (.ok .nil, s)
    | _ =>
      (shown s.heap v).map fun text =>
        (.error (scriptFault ("cannot read field " ++ Text.quote field ++ " of " ++ text)), s)

/-- Writes a field of a struct or a map. -/
def setField (m : Machine H) (obj : Value) (field : String) (v : Value) (s : Stage H) :
    Except Crash (Except Fault Unit × Stage H) :=
  match obj with
  | .struct type ref =>
    let hooked := match (m.hooks type).set with
      | some set => (set obj field v s).mapError (Crash.hook type)
      | none => .ok (false, s)
    hooked.map fun (handled, s) =>
      if handled then (.ok (), s)
      else (.ok (), { s with heap := s.heap.setStruct ref ((s.heap.struct ref).insert field v) })
  | .map _ ref =>
    .ok (.ok (), { s with heap := s.heap.setMap ref ((s.heap.map ref).insert (.string field) v) })
  | o =>
    (shown s.heap o).map fun text =>
      (.error (scriptFault ("cannot set field " ++ Text.quote field ++ " on " ++ text)), s)

end Machine

/-- The fault of a field name that is no string. -/
def badFieldName (h : Heap) (name : Value) : Except Crash Fault :=
  (shown h name).map fun text => scriptFault ("field name must be a string, got " ++ text)

/-- The fault that a thrown value stands for. -/
def thrown (v : Value) (s : Stage H) : Except Crash (Nat × Stage H) :=
  match v, v.string? with
  | .error ref, _ => .ok (ref, s)
  | _, some text => .ok (s.newFault (scriptFault text))
  | v, none => (shown s.heap v).map fun text => s.newFault (scriptFault text)

/-- The fault of an entry that cannot be stored. -/
def badEntry (h : Heap) (key target : Value) : Except Crash Fault := do
  let key ← shown h key
  let target ← shown h target
  return scriptFault ("cannot set key " ++ key ++ " on " ++ target)

/-- Stores an entry in the map on top of the stack. -/
def execMapSet (fr : Frame) (site : Site) (key v : Value) (f : Fiber) (s : Stage H) : Outcome H :=
  if f.stack.length ≤ fr.base then
    raiseNew f s { tag := .stackUnderflow, message := "MAP_SET without a map" } site
  else
    let target := f.stack.headD .unknown
    let stored := match target, key with
      | .map _ ref, .scalar k =>
        ((s.heap.map ref).insert? k v).map fun entries => s.heap.setMap ref entries
      | _, _ => none
    match stored with
    | some heap => .next f { s with heap := heap }
    | none => withResult (badEntry s.heap key target) fun fault => raiseNew f s fault site

/-- Reads the handle on top of the stack, or parks the fiber on it. Any other value stays. -/
def execAwait (site : Site) (f : Fiber) (s : Stage H) : Outcome H :=
  withTop f fun v rest =>
    match v with
    | .handle id =>
      match s.handles.get? id with
      | none =>
        raiseNew rest s (scriptFault ("await on released handle " ++ Decimal.integer id)) site
      | some h =>
        if h.isDone then
          let s := { s with handles := s.handles.consume h.id f.id }
          match h.state, h.fault with
          | .resolved, _ => .next (rest.push h.result) s
          | _, some ref => raise rest s ref site
          | _, none => .crash (.noFault h.id)
        else
          .stop .waiting { f.jump site.pc with awaiting := h.id, state := .waiting }
            { s with handles := s.handles.update h.id fun h => h.addWaiter f.id }
    | _ => .next f s

/-- Calls a host function with its arguments and pushes its answer. -/
def execHostCall (m : Machine H) (i : Instr) (site : Site) (args : Value) (f : Fiber)
    (s : Stage H) : Outcome H :=
  withResult (m.callSync f i.a.toInt i.c.toInt site.func args s) fun
    | (.ok v, s) => .next (f.push v) s
    | (.error ref, s) => raise f s ref site

/-- Calls a host function with its arguments and pushes the handle of its answer. -/
def execHostCallAsync (m : Machine H) (i : Instr) (site : Site) (args : Value) (f : Fiber)
    (s : Stage H) : Outcome H :=
  withResult (m.callAsync f i.a.toInt i.c.toInt site.func args s) fun
    | (.ok id, f, s) => .next (f.push (.ofHandle id)) s
    | (.error ref, f, s) => raise f s ref site

/-- Takes operands off the stack into an argument map. -/
def withOperands (count : Int) (f : Fiber) (s : Stage H)
    (k : Value → Fiber → Stage H → Outcome H) : Outcome H :=
  if count < 0 then .crash (.operandCount count)
  else
    let (args, heap) := s.heap.positionalArgs (f.stack.take count.toNat).reverse
    k args (f.drop count.toNat) { s with heap := heap }

/-- Executes an instruction that finds its operands on the stack. `f` is past it already. -/
def exec [Host H] (m : Machine H) (op : Op) (i : Instr) (fr : Frame) (site : Site) (f : Fiber)
    (s : Stage H) : Outcome H :=
  match op with
  | .nop | .whenStart | .doStart => .next f s
  | .pushConst =>
    match m.constant? i.a with
    | none => .crash (.noConstant i.a.toInt)
    | some v =>
      if v.isPrimitive then .next (f.push v) s
      else
        match Heap.deepCopy? v s.heap with
        | some (v, heap) => .next (f.push v) { s with heap := heap }
        | none => .crash (.circular v)
  | .pop | .doEnd => withTop f fun _ f => .next f s
  | .dup => withTop f fun v f => .next ((f.push v).push v) s
  | .loadVar => .next (f.push (Host.load s.host fr.func i.a.toInt)) s
  | .storeVar => withTop f fun v f =>
    .next f { s with host := Host.store s.host fr.func i.a.toInt v }
  | .jump => .next (f.jump (site.pc + i.a.toInt)) s
  | .jumpIfFalse | .whenEnd => withTop f fun v f =>
    .next (if v.truthy then f else f.jump (site.pc + i.a.toInt)) s
  | .jumpIfTrue => withTop f fun v f =>
    .next (if v.truthy then f.jump (site.pc + i.a.toInt) else f) s
  | .call =>
    if m.limits.frames ≤ f.frames.length then
      raiseNew f s
        { tag := .stackOverflow
          message := "call depth exceeds " ++ Decimal.integer m.limits.frames ++ " frames" } site
    else
      let f := f.drop i.b.toInt.toNat
      .next { f with frames := { func := i.a.toInt, base := f.stack.length } :: f.frames } s
  | .ret => .next f.ret s
  | .yield => .stop .yielded f s
  | .hostCall => withOperands i.b.toInt f s (execHostCall m i site)
  | .hostCallArgs => withTop f fun args f => execHostCall m i site args f s
  | .hostCallAsync => withOperands i.b.toInt f s (execHostCallAsync m i site)
  | .hostCallArgsAsync => withTop f fun args f => execHostCallAsync m i site args f s
  | .await => execAwait site f s
  | .try =>
    .next { f with
      handlers := ⟨site.pc + i.a.toInt, f.stack.length, f.frames.length⟩ :: f.handlers } s
  | .endTry => .next { f with handlers := f.handlers.tail } s
  | .throw => withTop f fun v f => withResult (thrown v s) fun (ref, s) => raise f s ref site
  | .mapNew =>
    match m.constant? i.a with
    | none => .crash (.noConstant i.a.toInt)
    | some name =>
      let (v, s) := s.newMap (name.string?.getD "")
      .next (f.push v) s
  | .mapSet => withTop f fun v f => withTop f fun key f => execMapSet fr site key v f s
  | .getField => withTop f fun name f => withTop f fun obj f =>
    match name.string? with
    | none => withResult (badFieldName s.heap name) fun fault => raiseNew f s fault site
    | some field =>
      withResult (m.getField obj field s) fun
        | (.ok v, s) => .next (f.push v) s
        | (.error e, s) => raiseNew f s e site
  | .setField => withTop f fun v f => withTop f fun name f => withTop f fun obj f =>
    match name.string? with
    | none => withResult (badFieldName s.heap name) fun fault => raiseNew f s fault site
    | some field =>
      withResult (m.setField obj field v s) fun
        | (.ok _, s) => .next (f.push v) s
        | (.error e, s) => raiseNew f s e site

/-- Executes the instruction that the innermost call `fr` stands at. -/
def step [Host H] (m : Machine H) (fr : Frame) (i : Instr) (f : Fiber) (s : Stage H) : Outcome H :=
  let site : Site := ⟨fr.func, fr.pc⟩
  let f := f.jump (fr.pc + 1)
  match m.checkStack f fr.base i with
  | some fault => raiseNew f s fault site
  | none =>
    match i.op? with
    | some op => exec m op i fr site f s
    | none =>
      raiseNew f s
        (scriptFault ("unknown opcode 0x" ++ (Text.hexDigits 2 i.code.toNat).toUpper)) site

end

end TileMind
