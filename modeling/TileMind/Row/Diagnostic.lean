import TileMind.Row.Expr

/-!
# TileMind.Row.Diagnostic

Problems found while a brain is compiled. They never end a compilation: the part of a rule that has
one is compiled to a placeholder.
-/

namespace TileMind

inductive Severity where
  | error | warning
deriving DecidableEq, Repr, Inhabited

def Severity.name : Severity → String
  | .error => "error"
  | .warning => "warning"

inductive DiagnosticCode where
  | missingTile | parseError | missingTypeInfo | missingOperatorOverload | typeMismatch
  | unknownField | unknownVariable | unknownType
deriving DecidableEq, Repr, Inhabited

def DiagnosticCode.name : DiagnosticCode → String
  | .missingTile => "MissingTile"
  | .parseError => "ParseError"
  | .missingTypeInfo => "MissingTypeInfo"
  | .missingOperatorOverload => "MissingOperatorOverload"
  | .typeMismatch => "TypeMismatch"
  | .unknownField => "UnknownField"
  | .unknownVariable => "UnknownVariable"
  | .unknownType => "UnknownType"

/-- A problem of a rule: what, how bad, and at which node. A problem of no node has the number and
the line 0. -/
structure Diagnostic where
  code : DiagnosticCode
  severity : Severity
  message : String
  rule : String := ""
  node : Nat := 0
  pos : Row.Position := {}
deriving DecidableEq, Repr, Inhabited

namespace Diagnostic

def ofNode (code : DiagnosticCode) (severity : Severity) (rule : String) (e : Row.Expr)
    (message : String) : Diagnostic :=
  ⟨code, severity, message, rule, e.id, e.pos⟩

def ofMark (code : DiagnosticCode) (severity : Severity) (rule : String) (m : Row.Mark)
    (message : String) : Diagnostic :=
  ⟨code, severity, message, rule, m.id, m.pos⟩

def isError (d : Diagnostic) : Bool := d.severity = .error

def render (d : Diagnostic) : String :=
  (if d.rule = "" then "" else d.rule ++ " ") ++
    (if d.pos.line = 0 then "" else d.pos.render ++ " ") ++
    d.severity.name ++ " " ++ d.code.name ++ ": " ++ d.message

end Diagnostic

abbrev Diagnostics := List Diagnostic

namespace Diagnostics

def hasErrors (ds : Diagnostics) : Bool := ds.any Diagnostic.isError

def errors (ds : Diagnostics) : Diagnostics := ds.filter Diagnostic.isError

def withCode (ds : Diagnostics) (code : DiagnosticCode) : Diagnostics :=
  ds.filter fun d => d.code = code

/-- One line for each problem. -/
def render (ds : Diagnostics) : String := "\n".intercalate (ds.map Diagnostic.render)

end Diagnostics

end TileMind
