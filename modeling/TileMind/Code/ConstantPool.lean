import TileMind.Value.Datum

/-!
# TileMind.Code.ConstantPool

The constants of a program under construction. A primitive value that is there already keeps its
slot; containers always get one of their own. Values are recognised by a key: a letter for the kind
and the text of the payload.
-/

namespace TileMind

structure ConstantPool where
  values : Array Datum := #[]
  index : List (String × Nat) := []
deriving Repr, Inhabited

namespace ConstantPool

/-- The key of a scalar. -/
def key (s : Scalar) : String :=
  match s.kind with
  | .number => "n|" ++ Decimal.general s.num
  | .string => "s|" ++ s.text
  | .boolean => "b|" ++ (if s.num != 0.0 then "true" else "false")
  | .enum => "e|" ++ s.type ++ "|" ++ s.text
  | kind => kind.kind.name

def size (p : ConstantPool) : Nat := p.values.size

def push (p : ConstantPool) (d : Datum) : Nat × ConstantPool :=
  (p.values.size, { p with values := p.values.push d })

/-- The slot of a value, a new one if no equal primitive has one. -/
def add (p : ConstantPool) (d : Datum) : Nat × ConstantPool :=
  match d with
  | .scalar s =>
    if s.isPrimitive then
      match p.index.lookup (key s) with
      | some slot => (slot, p)
      | none =>
        (p.values.size, ⟨p.values.push d, p.index ++ [(key s, p.values.size)]⟩)
    else p.push d
  | _ => p.push d

end ConstantPool

end TileMind
