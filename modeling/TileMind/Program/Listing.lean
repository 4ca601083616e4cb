import TileMind.Program.Basic

/-!
# TileMind.Program.Listing

A readable listing of a program. Operands are annotated with what they refer to; `fns` gives the
names of host functions that are known. An operand may refer to what does not exist, and a negative
one stops the listing.
-/

namespace TileMind
namespace Program

/-- A listing reached a negative reference. -/
structure ListingError where
  index : Int
deriving DecidableEq, Repr

/-- The text, cut to `keep` bytes and dots if it has more than `limit` bytes. -/
def clipped (limit keep : Nat) (s : String) : String :=
  if limit < Text.byteLength s then Text.ofGlyphs (Text.clip keep s) ++ "..." else s

def spaces (n : Nat) : String := String.ofList (List.replicate n ' ')

def padLeft (n : Nat) (s : String) : String := spaces (n - s.length) ++ s

def padRight (n : Nat) (s : String) : String := s ++ spaces (n - s.length)

def hostName (fns : Int → Option String) (id : Int) : String :=
  (fns id).getD ("host#" ++ Decimal.integer id)

/-- The note of an operand that indexes a table. -/
def tableNote {α : Type} (xs : List α) (i : Int) (text : α → String) :
    Except ListingError String :=
  if (xs.length : Int) ≤ i then .ok ""
  else
    match atInt? xs i with
    | some x => .ok (text x)
    | none => .error ⟨i⟩

/-- What an instruction refers to; empty for nothing. -/
def annotation (p : Program) (fns : Int → Option String) (pc : Nat) (i : Instr) :
    Except ListingError String :=
  let a := i.a.toInt
  if i.isJump then .ok ("-> " ++ Decimal.integerPadded 4 (pc + a))
  else
    match i.op? with
    | some .pushConst | some .mapNew =>
      tableNote p.constants.toList a fun d => clipped 20 17 d.render
    | some .loadVar | some .storeVar => tableNote p.vars a fun name => "$" ++ name
    | some .call => tableNote p.functions.toList a Function.name
    | some .hostCall | some .hostCallAsync | some .hostCallArgs | some .hostCallArgsAsync =>
      .ok (hostName fns a ++ if i.c = 0 then "" else " site=" ++ Decimal.integer i.c.toInt)
    | _ => .ok ""

def instrLine (p : Program) (fns : Int → Option String) (pc : Nat) (i : Instr) :
    Except ListingError String := do
  let note ← annotation p fns pc i
  let pcText := Decimal.integerPadded 4 pc
  if note = "" then return pcText ++ "  " ++ i.render ++ "\n"
  else return pcText ++ "  " ++ padRight 28 i.render ++ " ; " ++ note ++ "\n"

/-- The listing of one function under a rule path. -/
def listFunction (p : Program) (fns : Int → Option String) (func : Int) (path : String) :
    Except ListingError String :=
  match p.function? func with
  | none => .error ⟨func⟩
  | some f => do
    let name := if path = "" then f.name else f.name ++ " [" ++ path ++ "]"
    let title := "; === fn" ++ Decimal.integer func ++ " " ++ name ++ " ===\n"
    let depth := if f.maxStack ≤ 0 then "" else "; max stack: " ++ Decimal.integer f.maxStack ++ "\n"
    let lines ← f.code.toList.zipIdx.mapM fun (i, pc) => instrLine p fns pc i
    return title ++ depth ++ String.join lines

/-- Numbers in brackets. -/
def listInts (ns : List Int) : String := "[" ++ " ".intercalate (ns.map Decimal.integer) ++ "]"

def listPage (fns : Int → Option String) (page : PageInfo) : String :=
  "; Page " ++ Decimal.integer page.index ++ " " ++ Text.quote page.name ++ " (id " ++ page.id ++
    ") roots=" ++ listInts page.roots ++ "\n" ++
    String.join (page.sites.map fun s =>
      ";   site " ++ Decimal.integer s.site ++ " -> " ++ hostName fns s.fn ++ "\n")

def listConstants (p : Program) : String :=
  "; Constants:\n" ++
    String.join (p.constants.toList.zipIdx.map fun (d, i) =>
      ";   [" ++ padLeft 3 (Decimal.digitString i) ++ "] " ++ clipped 40 37 d.render ++ "\n") ++
    "\n"

/-- The path that the rule index gives for a function. -/
def pathOf (p : Program) (func : Nat) : String :=
  ((p.ruleIndex.entries.reverse.find? fun e => e.2 = (func : Int)).map Prod.fst).getD ""

def listing (p : Program) (fns : Int → Option String) : Except ListingError String := do
  let start := "; Brain Bytecode v" ++ Decimal.integer p.version ++ "\n; Entry page: " ++
    Decimal.integer p.entry ++ "\n"
  let vars := if p.vars.isEmpty then ""
    else "; Variables (" ++ Decimal.digitString p.vars.length ++ "): " ++ ", ".intercalate p.vars ++
      "\n"
  let constants := if p.constants.isEmpty then "" else p.listConstants
  let pages := String.join (p.pages.map (listPage fns)) ++ if p.pages.isEmpty then "" else "\n"
  let functions ← (List.range p.functions.size).mapM fun (func : Nat) =>
    p.listFunction fns func (p.pathOf func)
  return start ++ vars ++ "\n" ++ constants ++ pages ++
    String.join (functions.map fun f => f ++ "\n")

end Program
end TileMind
