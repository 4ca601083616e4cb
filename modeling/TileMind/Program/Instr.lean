import TileMind.Decimal.Layout
import TileMind.Text.Quoted

/-!
# TileMind.Program.Instr

Instructions: an opcode and three operands. The opcodes in use have a name, a number of meaningful
operands and an effect on the operand stack; every other byte is an instruction that does nothing
but fail.
-/

namespace TileMind

/-- The opcodes in use. -/
inductive Op where
  | nop | pushConst | pop | dup
  | loadVar | storeVar
  | jump | jumpIfFalse | jumpIfTrue | call | ret | yield
  | hostCall | hostCallAsync | hostCallArgs | hostCallArgsAsync | await
  | try | endTry | throw
  | whenStart | whenEnd | doStart | doEnd
  | mapNew | mapSet | getField | setField
deriving DecidableEq, Repr, Inhabited

namespace Op

def all : List Op :=
  [.nop, .pushConst, .pop, .dup, .loadVar, .storeVar, .jump, .jumpIfFalse, .jumpIfTrue, .call,
    .ret, .yield, .hostCall, .hostCallAsync, .hostCallArgs, .hostCallArgsAsync, .await, .try,
    .endTry, .throw, .whenStart, .whenEnd, .doStart, .doEnd, .mapNew, .mapSet, .getField,
    .setField]

def byte : Op → UInt8
  | .nop => 0x00
  | .pushConst => 0x01
  | .pop => 0x02
  | .dup => 0x03
  | .loadVar => 0x10
  | .storeVar => 0x11
  | .jump => 0x20
  | .jumpIfFalse => 0x21
  | .jumpIfTrue => 0x22
  | .call => 0x23
  | .ret => 0x24
  | .yield => 0x25
  | .hostCall => 0x30
  | .hostCallAsync => 0x31
  | .hostCallArgs => 0x32
  | .hostCallArgsAsync => 0x33
  | .await => 0x34
  | .try => 0x40
  | .endTry => 0x41
  | .throw => 0x42
  | .whenStart => 0x50
  | .whenEnd => 0x51
  | .doStart => 0x52
  | .doEnd => 0x53
  | .mapNew => 0x60
  | .mapSet => 0x61
  | .getField => 0x62
  | .setField => 0x63

/-- The opcode of a byte. -/
def ofByte? (b : UInt8) : Option Op := all.find? fun o => o.byte = b

def name : Op → String
  | .nop => "NOP"
  | .pushConst => "PUSH_CONST"
  | .pop => "POP"
  | .dup => "DUP"
  | .loadVar => "LOAD_VAR"
  | .storeVar => "STORE_VAR"
  | .jump => "JMP"
  | .jumpIfFalse => "JMP_IF_FALSE"
  | .jumpIfTrue => "JMP_IF_TRUE"
  | .call => "CALL"
  | .ret => "RET"
  | .yield => "YIELD"
  | .hostCall => "HOST_CALL"
  | .hostCallAsync => "HOST_CALL_ASYNC"
  | .hostCallArgs => "HOST_CALL_ARGS"
  | .hostCallArgsAsync => "HOST_CALL_ARGS_ASYNC"
  | .await => "AWAIT"
  | .try => "TRY"
  | .endTry => "END_TRY"
  | .throw => "THROW"
  | .whenStart => "WHEN_START"
  | .whenEnd => "WHEN_END"
  | .doStart => "DO_START"
  | .doEnd => "DO_END"
  | .mapNew => "MAP_NEW"
  | .mapSet => "MAP_SET"
  | .getField => "GET_FIELD"
  | .setField => "SET_FIELD"

def ofName? (name : String) : Option Op := all.find? fun o => o.name = name

/-- How many operands mean something. -/
def operands : Op → Nat
  | .pushConst | .loadVar | .storeVar | .jump | .jumpIfFalse | .jumpIfTrue | .try | .whenEnd
  | .mapNew => 1
  | .call => 2
  | .hostCall | .hostCallAsync | .hostCallArgs | .hostCallArgsAsync => 3
  | _ => 0

/-- Values taken from the stack; `none` if operand `b` tells. -/
def pops : Op → Option Nat
  | .call | .hostCall | .hostCallAsync => none
  | .pop | .dup | .storeVar | .jumpIfFalse | .jumpIfTrue | .hostCallArgs | .hostCallArgsAsync
  | .await | .throw | .whenEnd | .doEnd => some 1
  | .mapSet | .getField => some 2
  | .setField => some 3
  | _ => some 0

/-- Values put on the stack by the instruction itself. A called function pushes its result when it
returns. -/
def pushes : Op → Nat
  | .dup => 2
  | .pushConst | .loadVar | .hostCall | .hostCallAsync | .hostCallArgs | .hostCallArgsAsync
  | .await | .mapNew | .getField | .setField => 1
  | _ => 0

/-- Whether operand `a` is a distance to jump. -/
def isJump : Op → Bool
  | .jump | .jumpIfFalse | .jumpIfTrue | .try | .whenEnd => true
  | _ => false

end Op

/-- The operands of an instruction. -/
inductive Operand where
  | a | b | c
deriving DecidableEq, Repr, Inhabited

structure Instr where
  code : UInt8
  a : Int32 := 0
  b : Int32 := 0
  c : Int32 := 0
deriving DecidableEq, Repr

namespace Instr

instance : Inhabited Instr := ⟨⟨0, 0, 0, 0⟩⟩

/-- An instruction with operands cut to 32 bits. -/
def of (op : Op) (a b c : Int := 0) : Instr :=
  ⟨op.byte, Int32.ofInt a, Int32.ofInt b, Int32.ofInt c⟩

def op? (i : Instr) : Option Op := Op.ofByte? i.code

def name (i : Instr) : String :=
  match i.op? with
  | some op => op.name
  | none => "UNKNOWN_" ++ (Text.hexDigits 2 i.code.toNat).toUpper

def operands (i : Instr) : Nat := (i.op?.map Op.operands).getD 0
def pushes (i : Instr) : Nat := (i.op?.map Op.pushes).getD 0
def isJump (i : Instr) : Bool := (i.op?.map Op.isJump).getD false

/-- The number of values the instruction needs; it follows operand `b` where that one tells, be it
negative. -/
def pops (i : Instr) : Int :=
  match i.op? with
  | none => 0
  | some op =>
    match op.pops with
    | some n => n
    | none => i.b.toInt

/-- The change in stack height, as seen by the code that follows. -/
def effect (i : Instr) : Int :=
  (if i.op? = some .call then 1 else (i.pushes : Int)) - i.pops

def operand (i : Instr) : Operand → Int32
  | .a => i.a
  | .b => i.b
  | .c => i.c

def setOperand (i : Instr) (o : Operand) (v : Int32) : Instr :=
  match o with
  | .a => { i with a := v }
  | .b => { i with b := v }
  | .c => { i with c := v }

/-- The name and the meaningful operands. -/
def render (i : Instr) : String :=
  let shown := ([i.a, i.b, i.c].take i.operands).map fun n => " " ++ Decimal.integer n.toInt
  i.name ++ String.join shown

end Instr

end TileMind
