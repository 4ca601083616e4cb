import TileMind.Brain.Report
import TileMind.Project.Basic

/-!
# TileMind.Project.CommandLine

The command line: compiles a project, lists it, writes it to a file, and runs it for a number of
ticks. What is written and printed is a result; files are used through `Disk`.
-/

namespace TileMind
namespace CommandLine

-- `^` is the power that comes with the numbers, also where that of a monoid could be taken.
attribute [local instance (high)] instPowNat

/-- The options, and what stands behind them. -/
structure Options where
  ticks : Int := -1
  disasm : Bool := false
  output : String := ""
  watch : Bool := false
  config : String := ""
  verbosity : Int := 0
  log : String := ""
  paths : List String := []
deriving DecidableEq, Repr, Inhabited

/-- Why arguments are not understood. -/
inductive UsageError where
  | badForm (arg : String)
  | unknown (name : String)
  | help
  | noValue (name : String)
  | badValue (value name : String)
  | badTruth (value name : String)
  | tooMany
deriving DecidableEq, Repr

/-- What is said of arguments before the usage is shown. -/
def UsageError.message : UsageError → String
  | .badForm arg => "bad flag syntax: " ++ arg ++ "\n"
  | .unknown name => "flag provided but not defined: -" ++ name ++ "\n"
  | .help | .tooMany => ""
  | .noValue name => "flag needs an argument: -" ++ name ++ "\n"
  | .badValue value name =>
    "invalid value " ++ Text.quote value ++ " for flag -" ++ name ++ ": parse error\n"
  | .badTruth value name =>
    "invalid boolean value " ++ Text.quote value ++ " for -" ++ name ++ ": parse error\n"

def usage : String :=
  "Usage: brain [options] [project-dir | brain.yaml | program.bbc]\n\n" ++
  "Compiles a tile brain and runs it for a number of ticks.\n\nOptions:\n" ++
  "  -config string\n    \tDirectory holding brain.toml (default: search upward)\n" ++
  "  -disasm\n    \tPrint the compiled program\n" ++
  "  -log string\n    \tLog to this file instead of stderr\n" ++
  "  -o string\n    \tWrite the compiled program to a .bbc file\n" ++
  "  -ticks int\n    \tTicks to run (default from brain.toml, 0 compiles only) (default -1)\n" ++
  "  -v int\n    \tLog verbosity: 0 warnings, 1 notices, 2 info, 3 debug\n" ++
  "  -watch\n    \tRun in real time and reload when project files change\n" ++
  "\nExamples:\n" ++
  "  brain -ticks 0 -disasm           # Compile ./brain.toml, print bytecode\n" ++
  "  brain -ticks 100 patrol.yaml     # Run a bare definition for 100 ticks\n" ++
  "  brain -o patrol.bbc ./patrol     # Compile a project to a program file\n" ++
  "  brain -watch ./patrol            # Run live, reloading on edits\n"

/-- An integer of 64 bits. -/
def int? (s : String) : Option Int :=
  let n := match s.toList with
    | '-' :: rest => (Text.markedDigits? rest).map fun n => -(n : Int)
    | '+' :: rest => (Text.markedDigits? rest).map Int.ofNat
    | rest => (Text.markedDigits? rest).map Int.ofNat
  n.filter fun n => -2 ^ (63 : Nat) ≤ n && n < 2 ^ (63 : Nat)

def truth? (s : String) : Option Bool :=
  if ["1", "t", "T", "TRUE", "true", "True"].contains s then some true
  else if ["0", "f", "F", "FALSE", "false", "False"].contains s then some false
  else none

/-- An option: a switch, or one that takes an integer or a text. -/
inductive Setter where
  | switch (set : Bool → Options → Options)
  | int (set : Int → Options → Options)
  | text (set : String → Options → Options)

def setter? (name : String) : Option Setter :=
  match name with
  | "ticks" => some (.int fun n o => { o with ticks := n })
  | "disasm" => some (.switch fun b o => { o with disasm := b })
  | "o" => some (.text fun s o => { o with output := s })
  | "watch" => some (.switch fun b o => { o with watch := b })
  | "config" => some (.text fun s o => { o with config := s })
  | "v" => some (.int fun n o => { o with verbosity := n })
  | "log" => some (.text fun s o => { o with log := s })
  | _ => none

/-- Splits an option at its first equals sign. -/
def splitValue (cs : List Char) : String × Option String :=
  let name := cs.takeWhile (· ≠ '=')
  match cs.drop name.length with
  | [] => (String.ofList name, none)
  | _ :: value => (String.ofList name, some (String.ofList value))

/-- Sets an option that takes a value. -/
def setValue (s : Setter) (name value : String) (o : Options) : Except UsageError Options :=
  match s with
  | .switch set => (truth? value).elim (.error (.badTruth value name)) fun b => .ok (set b o)
  | .int set => (int? value).elim (.error (.badValue value name)) fun n => .ok (set n o)
  | .text set => .ok (set value o)

/-- Reads options up to the first argument that is none, or to a double dash. -/
def parse (o : Options) : List String → Except UsageError Options
  | [] => .ok o
  | arg :: rest =>
    let body := match arg.toList with
      | '-' :: '-' :: cs => some (true, cs)
      | '-' :: c :: cs => some (false, c :: cs)
      | _ => none
    match body with
    | none => .ok { o with paths := arg :: rest }
    | some (true, []) => .ok { o with paths := rest }
    | some (_, cs) =>
      if cs.head? = some '-' || cs.head? = some '=' then .error (.badForm arg)
      else
        let (name, value) := splitValue cs
        match setter? name, value with
        | none, _ => .error (if name = "help" || name = "h" then .help else .unknown name)
        | some s, some value =>
          match setValue s name value o with
          | .error e => .error e
          | .ok o => parse o rest
        | some (.switch set), none => parse (set true o) rest
        | some s, none =>
          match rest with
          | [] => .error (.noValue name)
          | value :: rest =>
            match setValue s name value o with
            | .error e => .error e
            | .ok o => parse o rest

/-- Reads all arguments; at most one of them is a path. -/
def options (args : List String) : Except UsageError Options :=
  match parse {} args with
  | .error e => .error e
  | .ok o => if 1 < o.paths.length then .error .tooMany else .ok o

/-- What a run prints, and how it ends. A run that crashes is cut short. -/
structure Outcome where
  exit : Nat
  stdout : String := ""
  stderr : String := ""
  isCrash : Bool := false
deriving DecidableEq, Repr, Inhabited

def Outcome.fail (o : Outcome) (message : String) : Outcome :=
  { o with exit := 1, stderr := o.stderr ++ "Error: " ++ message ++ "\n" }

/-- Ends with a crash: the program refers to something that is not there, a script broke the reader,
or a value that contains itself is shown. -/
def Outcome.crash (o : Outcome) : Outcome :=
  { o with exit := 2, stderr := o.stderr ++ "the machine crashed\n", isCrash := true }

/-- Diagnostics as they are printed, each on a line. -/
def shown (ds : Diagnostics) : String :=
  let s := ds.render
  if s = "" then "" else s ++ "\n"

def runTicks (b : Build (Mind Unit)) (p : Project) (ticks : Int) (id : String) (o : Outcome) :
    Outcome :=
  match Brain.create b.program b.services p.limits {} () with
  | .error e => o.fail e.message
  | .ok brain =>
    match brain.thinkTimes p.tickInterval ticks.toNat with
    | (some (.refused e), _) => o.fail e.message
    | (some (.crashed _), _) => o.crash
    | (none, brain) =>
      match brain.report? id with
      | some text => { o with stdout := o.stdout ++ text }
      | none => o.crash

def writeProgram (codec : Cbor.Codec) (path : String) (b : Build (Mind Unit)) :
    Disk (Option String) := do
  match b.program.encode codec b.blanks with
  | .error _ => return some "vm: marshal program"
  | .ok bytes => return (← Disk.writeFile path bytes).map fun e => e.writeMessage path

/-- Writes and runs what a project was built to. -/
def carryOut (codec : Cbor.Codec) (o : Options) (p : Project) (b : Build (Mind Unit)) (id : String)
    (start : Outcome) : Disk Outcome := do
  let target := if o.output = "" && p.programPath = "" then p.outputPath else o.output
  let written ← if target = "" then pure none else writeProgram codec target b
  let ticks := if o.ticks < 0 then p.ticks else o.ticks
  match written with
  | some message => return start.fail message
  | none =>
    if o.watch then return start.fail "watch: this build does not watch files"
    else if ticks = 0 then return start
    else return runTicks b p ticks id start

/-- What is done with a project that is built: listing it comes first. -/
def finish (codec : Cbor.Codec) (o : Options) (p : Project) (b : Build (Mind Unit)) (id : String)
    (start : Outcome) : Disk Outcome :=
  let names (fn : Int) : Option String := (b.services.functions.get? fn).map HostFunction.name
  match if o.disasm then b.program.listing names else .ok "" with
  | .error _ => pure start.crash
  | .ok listing => carryOut codec o p b id { start with stdout := start.stdout ++ listing }

/-- Carries out a command line in the directory `here`, for a brain called `id`. -/
def run (tools : Tools (Mind Unit)) (args : List String) (here id : String) : Disk Outcome := do
  match options args with
  | .error e => return { exit := 2, stderr := e.message ++ usage }
  | .ok o =>
    match ← Project.openAt tools.toml here (o.paths.headD "") o.config with
    | .error e => return ({ exit := 0 } : Outcome).fail e.message
    | .ok p =>
      let (ds, built) ← p.build tools
      let start : Outcome := { exit := 0, stderr := shown ds }
      match built with
      | .error e => return if e.isCrash then start.crash else start.fail e.message
      | .ok b => finish tools.codec o p b id start

end CommandLine
end TileMind
