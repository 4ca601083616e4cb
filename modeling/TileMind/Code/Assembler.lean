import TileMind.Program.Instr

/-!
# TileMind.Code.Assembler

Code with labels. Instructions are added in order; a jump may name a label that is bound to a place
later. Finishing fills in the distances from jumps to their labels, and nothing can be added then.
-/

namespace TileMind

/-- An operand that waits for its label. -/
structure Fixup where
  index : Nat
  label : Nat
  operand : Operand
deriving DecidableEq, Repr, Inhabited

/-- Why something cannot be added or finished. -/
inductive AssemblerError where
  | finished
  | unknownLabel (label : Int)
  | boundTwice (label : Int)
  | neverBound (label index : Nat)
deriving DecidableEq, Repr

def AssemblerError.message : AssemblerError → String
  | .finished => "emitter: already finalized"
  | .unknownLabel label => "emitter: unknown label " ++ Decimal.integer label
  | .boundTwice label => "emitter: label " ++ Decimal.integer label ++ " bound twice"
  | .neverBound label index =>
    "emitter: label " ++ Decimal.digitString label ++ " never bound (instr " ++
      Decimal.digitString index ++ ")"

/-- Code under construction. `labels` holds the place of each label that is bound. -/
structure Assembler where
  code : Array Instr := #[]
  labels : Array (Option Nat) := #[]
  fixups : List Fixup := []
  isFinished : Bool := false
deriving DecidableEq, Repr, Inhabited

namespace Assembler

/-- A fresh label. -/
def newLabel (s : Assembler) : Nat × Assembler :=
  (s.labels.size, { s with labels := s.labels.push none })

/-- The place of a label; `none` for a label that does not exist. -/
def label? (s : Assembler) (label : Int) : Option (Option Nat) :=
  if label < 0 then none else s.labels[label.toNat]?

def bind (s : Assembler) (label : Int) : Except AssemblerError Assembler :=
  match s.label? label with
  | none => .error (.unknownLabel label)
  | some (some _) => .error (.boundTwice label)
  | some none => .ok { s with labels := s.labels.setIfInBounds label.toNat (some s.code.size) }

def emit (s : Assembler) (i : Instr) : Except AssemblerError (Nat × Assembler) :=
  if s.isFinished then .error .finished
  else .ok (s.code.size, { s with code := s.code.push i })

/-- Adds an instruction whose operand is the distance to a label. -/
def emitJump (s : Assembler) (code : UInt8) (label : Int) (operand : Operand) :
    Except AssemblerError (Nat × Assembler) :=
  if s.isFinished then .error .finished
  else
    match s.label? label with
    | none => .error (.unknownLabel label)
    | some _ =>
      .ok (s.code.size,
        { s with
          code := s.code.push { code := code }
          fixups := s.fixups ++ [⟨s.code.size, label.toNat, operand⟩] })

/-- Fills in one distance. -/
def patch (labels : Array (Option Nat)) (code : Array Instr) (f : Fixup) :
    Except AssemblerError (Array Instr) :=
  match labels.getD f.label none with
  | none => .error (.neverBound f.label f.index)
  | some place =>
    .ok (code.modify f.index fun i =>
      i.setOperand f.operand (Int32.ofInt ((place : Int) - (f.index : Int))))

/-- Fills in distances in turn, up to the first label without a place. -/
def patchAll (labels : Array (Option Nat)) : List Fixup → Array Instr →
    Array Instr × Option AssemblerError
  | [], code => (code, none)
  | f :: rest, code =>
    match patch labels code f with
    | .error e => (code, some e)
    | .ok code => patchAll labels rest code

/-- Fills in all distances. A failure can be repaired by binding the label that has no place. -/
def finish (s : Assembler) : Except AssemblerError (Array Instr) × Assembler :=
  if s.isFinished then (.error .finished, s)
  else
    match patchAll s.labels s.fixups s.code with
    | (code, some e) => (.error e, { s with code := code })
    | (code, none) => (.ok code, { s with code := code, isFinished := true })

end Assembler

end TileMind
