import TileMind.Program.Instr

/-!
# TileMind.Code.StackDepth

The highest operand stack that code can reach. Every path from the first instruction is followed,
and an instruction is looked at again whenever it is reached with a higher stack than before. A loop
that grows the stack is therefore followed until the height no longer fits 64 bits. `Survey.step` looks
at one instruction, and `maxStackDepth` repeats it until nothing is left to look at.
-/

namespace TileMind

-- `^` is the power that comes with the numbers, also where that of a monoid could be taken.
attribute [local instance (high)] instPowNat

/-- The height after an instruction that is reached with height `h`, in 64 bits; one that finds too
little on the stack leaves it empty. -/
def Instr.leaves (i : Instr) (h : Int) : Int :=
  if Decimal.wrap64 (h - i.pops) < 0 then 0 else Decimal.wrap64 (h + i.effect)

/-- The highest stack seen before each instruction, the instructions still to look at and the highest
stack so far. -/
structure Survey where
  heights : Array (Option Int)
  work : List Int
  highest : Int := 0
deriving DecidableEq, Repr, Inhabited

namespace Survey

def start (code : Array Instr) : Survey :=
  ⟨(Array.replicate code.size none).setIfInBounds 0 (some 0), if code.isEmpty then [] else [0], 0⟩

/-- Notes that `pc` is reached with a stack of height `h`. -/
def visit (s : Survey) (pc h : Int) : Survey :=
  if pc < 0 then s
  else
    match s.heights[pc.toNat]? with
    | none => s
    | some seen =>
      if (seen.map fun x => decide (h ≤ x)).getD (decide (h ≤ -1)) then s
      else { s with heights := s.heights.setIfInBounds pc.toNat (some h), work := pc :: s.work }

def step (code : Array Instr) (s : Survey) : Survey :=
  match s.work with
  | [] => s
  | pc :: work =>
    let i := code.getD pc.toNat default
    let before := (s.heights.getD pc.toNat none).getD (-1)
    let h := i.leaves before
    let s := { s with work := work, highest := max s.highest h }
    let target := pc + i.a.toInt
    match i.op? with
    | some .ret | some .throw => s
    | some .jump => s.visit target h
    | some .try => (s.visit target before).visit (pc + 1) h
    | some .jumpIfFalse | some .jumpIfTrue | some .whenEnd => (s.visit target h).visit (pc + 1) h
    | _ => s.visit (pc + 1) h

/-- Looks at instructions until none is left, at most `rounds` of them. -/
def run (code : Array Instr) : (rounds : Nat) → Survey → Survey
  | 0, s => s
  | rounds + 1, s => if s.work.isEmpty then s else run code rounds (step code s)

/-- The rounds that a survey of `size` instructions takes at most: each of them raises a height, and no height
is above `2 ^ 63`. -/
def patience (size : Nat) : Nat := 2 ^ (63 : Nat) * size

end Survey

/-- The highest operand stack that code can reach. -/
def maxStackDepth (code : Array Instr) : Int :=
  (Survey.run code (Survey.patience code.size) (Survey.start code)).highest

end TileMind
