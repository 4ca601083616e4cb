import TileMind.Decimal.Layout

/-!
# TileMind.Value.Fault

Errors raised while a fiber runs. A fault has one of a closed set of tags, remembers the instruction
that raised it and the calls active there, and may name the host function it came from.
-/

namespace TileMind

/-- Categories of faults. Codes outside of the named ones occur only in data. -/
inductive FaultTag where
  | timeout | cancelled | host | script | stackOverflow | stackUnderflow | limitExceeded
  | other (code : Nat)
deriving DecidableEq, Repr, Inhabited

namespace FaultTag

def ofCode : Nat → FaultTag
  | 1 => .timeout
  | 2 => .cancelled
  | 3 => .host
  | 4 => .script
  | 5 => .stackOverflow
  | 6 => .stackUnderflow
  | 7 => .limitExceeded
  | n => .other n

def name : FaultTag → String
  | .timeout => "Timeout"
  | .cancelled => "Cancelled"
  | .host => "HostError"
  | .script => "ScriptError"
  | .stackOverflow => "StackOverflow"
  | .stackUnderflow => "StackUnderflow"
  | .limitExceeded => "LimitExceeded"
  | .other n => "ErrorTag(" ++ Decimal.digitString n ++ ")"

end FaultTag

/-- An instruction of a function. -/
structure Site where
  func : Int := 0
  pc : Int := 0
deriving DecidableEq, Repr, Inhabited

def Site.render (s : Site) : String := "fn" ++ Decimal.integer s.func ++ "@" ++ Decimal.integer s.pc

/-- A fault. `cause` is the text of the plain failure it was made from. -/
structure Fault where
  tag : FaultTag
  message : String
  detail : String := ""
  site : Site := {}
  trace : Option (List Site) := none
  cause : Option String := none
deriving DecidableEq, Repr, Inhabited

namespace Fault

/-- Tag and message, then the detail and the site where they are known. -/
def text (f : Fault) : String :=
  f.tag.name ++ ": " ++ f.message ++
    (if f.detail = "" then "" else " (" ++ f.detail ++ ")") ++
    (if f.site = {} then "" else " at " ++ f.site.render)

/-- Whether `target` stands for the category of `f`: a target without a message matches every fault
of its tag. -/
def hasTagOf (f target : Fault) : Bool := target.message = "" && target.tag = f.tag

/-- A fault made from the plain failure of a host function. -/
def ofPlain (text : String) : Fault := { tag := .host, message := text, cause := some text }

/-- The fault once it is raised at `site` below the calls in `trace`: what is known already stays. -/
def raisedAt (f : Fault) (site : Site) (trace : List Site) : Fault :=
  { f with
    site := if f.site = {} then site else f.site
    trace := match f.trace with
      | some known => some known
      | none => some trace }

end Fault

end TileMind
