import TileMind.Cbor.Read
import TileMind.Decimal.Layout
import TileMind.Program.Basic

/-!
# TileMind.Program.Wire

Program files. A program is a map with numbers as keys, inside a map that starts with a magic word.
Reading takes keys in any order, ignores unknown ones and leaves out what is null; of a repeated key
the first counts, except in tables of names, where the last does. Tags say nothing, but those of
dates and big numbers have to fit what they hold.

* `Program.encode` and `Program.decode` write and read a program.
-/

namespace TileMind

-- `^` is the power that comes with the numbers, also where that of a monoid could be taken.
attribute [local instance (high)] instPowNat

namespace Wire

open Cbor

/-- A value that only exists while a brain runs is not written. -/
structure EncodeError where
  kind : Kind
deriving DecidableEq, Repr

def EncodeError.message (e : EncodeError) : String := "vm: cannot encode " ++ e.kind.name ++ " value"

/-- A value that is no value. -/
inductive ValueError where
  | runtime (kind : Kind)
  | unknownKind (code : Nat)
  | mapSizes (keys values : Nat)
  | badKey (shown : String)
deriving DecidableEq, Repr

def ValueError.message : ValueError → String
  | .runtime kind => "vm: cannot decode " ++ kind.name ++ " value"
  | .unknownKind code => "vm: unknown value kind " ++ Decimal.digitString code
  | .mapSizes keys values =>
    "vm: map with " ++ Decimal.digitString keys ++ " keys and " ++ Decimal.digitString values ++
      " values"
  | .badKey shown => "vm: invalid map key " ++ shown

/-- Why an item is not read: it has the wrong shape, or holds a bad value. -/
inductive ReadError where
  | shape
  | value (e : ValueError)
deriving DecidableEq, Repr

/-- An item, unless it is to be left out. -/
def omitIf (b : Bool) (i : Item) : Option Item := if b then none else some i

/-- A list; an empty one is null if it is `blank`. -/
def listOr {α : Type} (blank : Bool) (xs : List α) (f : α → Item) : Item :=
  if blank && xs.isEmpty then .null else .array (xs.map f)

mutual

def ofDatum : Datum → Except EncodeError Item
  | .scalar s => .ok (.ofNumbered
      [(1, some (.uint s.kind.kind.code)), (2, omitIf (s.num == 0.0) (.float s.num)),
        (3, omitIf (s.text = "") (.string s.text)), (4, omitIf (s.type = "") (.string s.type))])
  | .list type items => do
    let items ← ofItems items
    return .ofNumbered
      [(1, some (.uint Kind.list.code)), (4, omitIf (type = "") (.string type)),
        (5, omitIf items.isEmpty (.array items))]
  | .map type entries => do
    let (keys, items) ← ofEntries entries
    return .ofNumbered
      [(1, some (.uint Kind.map.code)), (4, omitIf (type = "") (.string type)),
        (5, omitIf items.isEmpty (.array items)), (6, omitIf keys.isEmpty (.array keys))]
  | .struct type fields => do
    let fields ← ofFields fields
    return .ofNumbered
      [(1, some (.uint Kind.struct.code)), (4, omitIf (type = "") (.string type)),
        (7, omitIf fields.isEmpty (.ofFields fields))]
  | .handle _ => .error ⟨.handle⟩
  | .error _ => .error ⟨.error⟩
termination_by structural d => d

def ofItems : List Datum → Except EncodeError (List Item)
  | [] => .ok []
  | d :: rest => do
    let i ← ofDatum d
    let is ← ofItems rest
    return i :: is
termination_by structural ds => ds

def ofEntries : List (Scalar × Datum) → Except EncodeError (List Item × List Item)
  | [] => .ok ([], [])
  | (k, d) :: rest => do
    let key := Item.ofNumbered
      [(1, some (.uint k.kind.kind.code)), (2, omitIf (k.num == 0.0) (.float k.num)),
        (3, omitIf (k.text = "") (.string k.text)), (4, omitIf (k.type = "") (.string k.type))]
    let i ← ofDatum d
    let (keys, items) ← ofEntries rest
    return (key :: keys, i :: items)
termination_by structural es => es

def ofFields : List (String × Datum) → Except EncodeError (List (String × Item))
  | [] => .ok []
  | (name, d) :: rest => do
    let i ← ofDatum d
    let is ← ofFields rest
    return (name, i) :: is
termination_by structural fs => fs

end

def ofInstr (i : Instr) : Item :=
  .ofNumbered
    [(1, some (.uint i.code.toNat)), (2, omitIf (i.a = 0) (.int i.a.toInt)),
      (3, omitIf (i.b = 0) (.int i.b.toInt)), (4, omitIf (i.c = 0) (.int i.c.toInt))]

/-- Which of its empty lists a program is written with as null. The others are written as lists
without items. Instructions, roots and call sites have a mark for each function or page. -/
structure Blanks where
  functions : Bool := false
  constants : Bool := false
  vars : Bool := true
  index : Bool := false
  pages : Bool := true
  rules : Bool := true
  code : List Bool := []
  roots : List Bool := []
  sites : List Bool := []
deriving DecidableEq, Repr, Inhabited

def ofFunction (blanks : Blanks) (f : Function) (n : Nat) : Item :=
  .ofNumbered
    [(1, some (.string f.name)),
      (2, some (listOr (blanks.code.getD n false) f.code.toList ofInstr)),
      (3, omitIf (f.params = 0) (.int f.params)), (4, omitIf (f.maxStack = 0) (.int f.maxStack))]

def ofPage (blanks : Blanks) (p : PageInfo) (n : Nat) : Item :=
  .ofNumbered
    [(1, some (.int p.index)), (2, some (.string p.id)), (3, some (.string p.name)),
      (4, some (listOr (blanks.roots.getD n true) p.roots .int)),
      (5, some (listOr (blanks.sites.getD n true) p.sites fun s =>
        .ofNumbered [(1, some (.int s.fn)), (2, some (.int s.site))]))]

def ofRule (r : RuleInfo) : Item :=
  .ofNumbered
    [(1, some (.string r.path)), (2, some (.int r.func)), (3, some (.int r.page)),
      (4, some (.int r.parent)), (5, omitIf r.locals.isEmpty (.array (r.locals.map .int)))]

/-- The word that starts every program file. -/
def magic : String := "brain-bbc"

def ofProgram (p : Program) (blanks : Blanks) : Except EncodeError Item := do
  let constants ← ofItems p.constants.toList
  let index := if blanks.index && p.ruleIndex.entries.isEmpty then .null
    else Item.ofFields (p.ruleIndex.entries.map fun e => (e.1, .int e.2))
  return .ofNumbered
    [(1, some (.int p.version)),
      (2, some (listOr blanks.functions p.functions.toList.zipIdx fun (f, n) => ofFunction blanks f n)),
      (3, some (listOr blanks.constants constants id)), (4, some (listOr blanks.vars p.vars .string)),
      (5, some (.int p.entry)), (6, some index),
      (7, some (listOr blanks.pages p.pages.zipIdx fun (q, n) => ofPage blanks q n)),
      (8, some (listOr blanks.rules p.rules ofRule))]

/-- The tag that marks data as being in this format. -/
def selfDescribed : Nat := 55799

/-- Whether a tag of dates or big numbers fits what it holds. -/
def tagFits (number : Nat) (i : Item) : Bool :=
  match number, i with
  | 0, .text _ => true
  | 0, _ => false
  | 1, .uint _ | 1, .nint _ | 1, .float _ => true
  | 1, _ => false
  | 2, .bytes _ | 3, .bytes _ => true
  | 2, _ | 3, _ => false
  | _, _ => true

/-- An item without the tags that mark the format. -/
def unmarked : Item → Item
  | .tag number i => if number = selfDescribed then unmarked i else .tag number i
  | i => i

/-- The item below all tags; big numbers are numbers. -/
def untagged : Item → Except ReadError Item
  | .tag number i =>
    if number = selfDescribed then untagged i
    else if !tagFits number i then .error .shape
    else
      match number, i with
      | 2, .bytes bs =>
        if natOfBytes bs < 2 ^ (64 : Nat) then .ok (.uint (natOfBytes bs)) else .error .shape
      | 3, .bytes bs =>
        if natOfBytes bs < 2 ^ (63 : Nat) then .ok (.nint (natOfBytes bs)) else .error .shape
      | _, _ => untagged i
  | i => .ok i

/-- Whether an item stands for nothing. -/
def isNull : Item → Bool
  | .simple n => n = 22 || n = 23
  | _ => false

/-- An integer within bounds; null leaves the one before. -/
def readInt (lo hi : Int) (before : Int) (i : Item) : Except ReadError Int := do
  let bounded (n : Int) : Except ReadError Int :=
    if lo ≤ n && n ≤ hi then .ok n else .error .shape
  match ← untagged i with
  | .uint n => bounded n
  | .nint n => bounded (-1 - n)
  | .simple n =>
    if n = 22 || n = 23 then .ok before
    else if n = 20 || n = 21 then .error .shape
    else bounded n
  | _ => .error .shape

def readInt64 (i : Item) : Except ReadError Int := readInt (-2 ^ (63 : Nat)) (2 ^ (63 : Nat) - 1) 0 i

def readByte (i : Item) : Except ReadError Nat := Int.toNat <$> readInt 0 255 0 i

def readInt32 (i : Item) : Except ReadError Int32 :=
  Int32.ofInt <$> readInt (-2 ^ (31 : Nat)) (2 ^ (31 : Nat) - 1) 0 i

/-- A number; integers count as numbers. -/
def readFloat (i : Item) : Except ReadError Float := do
  match ← untagged i with
  | .float x => .ok x
  | .uint n => .ok (Decimal.ofInt n)
  | .nint n => if n < 2 ^ (63 : Nat) then .ok (Decimal.ofInt (-1 - n)) else .error .shape
  | .simple n =>
    if n = 22 || n = 23 then .ok 0.0
    else if n = 20 || n = 21 then .error .shape
    else .ok (Decimal.ofInt n)
  | _ => .error .shape

/-- The text of chunks that are texts each. -/
def textOf (chunks : List (List UInt8)) : Except ReadError String :=
  match chunks.mapM Text.ofBytes? with
  | some texts => .ok (String.join texts)
  | none => .error .shape

/-- A text; null leaves the one before. -/
def readText (before : String) (i : Item) : Except ReadError String := do
  match ← untagged i with
  | .text chunks => textOf chunks
  | .simple n => if n = 22 || n = 23 then .ok before else .error .shape
  | _ => .error .shape

/-- A list of items; null is the empty one. -/
def readItems (i : Item) : Except ReadError (List Item) := do
  match ← untagged i with
  | .array items => .ok items
  | i => if isNull i then .ok [] else .error .shape

/-- The number of a key, if it is one that a field could have. -/
def keyNumber : Item → Except ReadError (Option Nat)
  | .uint n => .ok (if n < 2 ^ (63 : Nat) then some n else none)
  | .nint n => if n < 2 ^ (63 : Nat) then .ok none else .error .shape
  | .text chunks => do
    let name ← textOf chunks
    return (List.range 10).find? fun n => Decimal.digitString n = name
  | _ => .error .shape

/-- Reads the fields of a record in the order in which they are written. `set n` reads field `n`, if
there is such a field. -/
def readEntries {α : Type} (set : Nat → Option (Item → α → Except ReadError α)) :
    List (Item × Item) → (seen : List Nat) → α → Except ReadError α
  | [], _, a => .ok a
  | (k, v) :: rest, seen, a => do
    match ← keyNumber k with
    | none => readEntries set rest seen a
    | some n =>
      if seen.contains n then readEntries set rest seen a
      else
        match set n with
        | none => readEntries set rest seen a
        | some read =>
          let a ← read v a
          readEntries set rest (n :: seen) a

/-- Reads a record; null leaves it as it is. -/
def readRecord {α : Type} (set : Nat → Option (Item → α → Except ReadError α)) (a : α) (i : Item) :
    Except ReadError α := do
  match ← untagged i with
  | .map entries => readEntries set entries [] a
  | i => if isNull i then .ok a else .error .shape

/-- A field that replaces a part of the record. -/
def field {α β : Type} (read : Item → Except ReadError β) (put : β → α → α) :
    Option (Item → α → Except ReadError α) :=
  some fun i a => do
    let b ← read i
    return put b a

/-- What a value is written as. -/
structure Parts where
  kind : Nat := 0
  num : Float := 0.0
  text : String := ""
  type : TypeId := ""
  items : List Datum := []
  keys : List Datum := []
  fields : List (String × Datum) := []

/-- The kind of a code. -/
def scalarKind? : Nat → Option ScalarKind
  | 0 => some .unknown
  | 1 => some .void
  | 2 => some .nil
  | 3 => some .boolean
  | 4 => some .number
  | 5 => some .string
  | 6 => some .enum
  | _ => none

/-- Stores entries in turn; every key has to be one. -/
def readMap (type : TypeId) : List (Datum × Datum) → OrderedMap Datum → Except ReadError Datum
  | [], m => .ok (.map type m.entries)
  | (k, d) :: rest, m =>
    match k.scalar?.bind fun s => m.insert? s d with
    | some m => readMap type rest m
    | none => .error (.value (.badKey k.render))

/-- The value of its parts. -/
def Parts.datum (p : Parts) : Except ReadError Datum :=
  match scalarKind? p.kind with
  | some kind => .ok (.scalar ⟨kind, p.num, p.text, p.type⟩)
  | none =>
    if p.kind = Kind.list.code then .ok (.list p.type p.items)
    else if p.kind = Kind.map.code then
      if p.keys.length ≠ p.items.length then
        .error (.value (.mapSizes p.keys.length p.items.length))
      else readMap p.type (p.keys.zip p.items) {}
    else if p.kind = Kind.struct.code then .ok (.struct p.type (Fields.ofList p.fields).entries)
    else if p.kind = Kind.handle.code then .error (.value (.runtime .handle))
    else if p.kind = Kind.error.code then .error (.value (.runtime .error))
    else .error (.value (.unknownKind p.kind))

/-- Reads a table of values by name, in the order in which it is written. A null key stands for the
one before it. -/
def readNamed (read : Item → Except ReadError Datum) :
    List (Item × Item) → (before : String) → Except ReadError (List (String × Datum))
  | [], _ => .ok []
  | (k, v) :: rest, before => do
    let name ← readText before k
    let d ← read v
    let more ← readNamed read rest name
    return (name, d) :: more

/-- The fields of a value. -/
def partsField (read : Item → Except ReadError Datum) (n : Nat) :
    Option (Item → Parts → Except ReadError Parts) :=
  match n with
  | 1 => field readByte fun x p => { p with kind := x }
  | 2 => field readFloat fun x p => { p with num := x }
  | 3 => field (readText "") fun x p => { p with text := x }
  | 4 => field (readText "") fun x p => { p with type := x }
  | 5 => field (fun i => do (← readItems i).mapM read) fun x p => { p with items := x }
  | 6 => field (fun i => do (← readItems i).mapM read) fun x p => { p with keys := x }
  | 7 => some fun i p => do
    match ← untagged i with
    | .map entries =>
      let fields ← readNamed read entries ""
      return { p with fields := fields }
    | i => if isNull i then return p else throw .shape
  | _ => none

/-- Reads a value with `depth` levels of values below it. -/
def readDatumTo : (depth : Nat) → Item → Except ReadError Datum
  | 0, _ => .error .shape
  | depth + 1, i => do
    match unmarked i with
    | .tag number i => if !tagFits number i then throw .shape
    | _ => pure ()
    let p ← readRecord (partsField (readDatumTo depth)) {} i
    p.datum

/-- Reads a value. Its nesting is bounded by that of the bytes it was read from. -/
def readDatum (i : Item) : Except ReadError Datum := readDatumTo (maxNesting + 1) i

def readInstr (i : Item) : Except ReadError Instr :=
  readRecord
    (fun n => match n with
      | 1 => field readByte fun x (i : Instr) => { i with code := UInt8.ofNat x }
      | 2 => field readInt32 fun x i => { i with a := x }
      | 3 => field readInt32 fun x i => { i with b := x }
      | 4 => field readInt32 fun x i => { i with c := x }
      | _ => none)
    default i

def readList {α : Type} (read : Item → Except ReadError α) (i : Item) : Except ReadError (List α) := do
  (← readItems i).mapM read

def readFunction (i : Item) : Except ReadError Function :=
  readRecord
    (fun n => match n with
      | 1 => field (readText "") fun x (f : Function) => { f with name := x }
      | 2 => field (readList readInstr) fun x f => { f with code := x.toArray }
      | 3 => field readInt64 fun x f => { f with params := x }
      | 4 => field readInt64 fun x f => { f with maxStack := x }
      | _ => none)
    default i

def readSite (i : Item) : Except ReadError CallSite :=
  readRecord
    (fun n => match n with
      | 1 => field readInt64 fun x (s : CallSite) => { s with fn := x }
      | 2 => field readInt64 fun x s => { s with site := x }
      | _ => none)
    default i

def readPage (i : Item) : Except ReadError PageInfo :=
  readRecord
    (fun n => match n with
      | 1 => field readInt64 fun x (p : PageInfo) => { p with index := x }
      | 2 => field (readText "") fun x p => { p with id := x }
      | 3 => field (readText "") fun x p => { p with name := x }
      | 4 => field (readList readInt64) fun x p => { p with roots := x }
      | 5 => field (readList readSite) fun x p => { p with sites := x }
      | _ => none)
    default i

def readRule (i : Item) : Except ReadError RuleInfo :=
  readRecord
    (fun n => match n with
      | 1 => field (readText "") fun x (r : RuleInfo) => { r with path := x }
      | 2 => field readInt64 fun x r => { r with func := x }
      | 3 => field readInt64 fun x r => { r with page := x }
      | 4 => field readInt64 fun x r => { r with parent := x }
      | 5 => field (readList readInt64) fun x r => { r with locals := x }
      | _ => none)
    default i

/-- Reads a table of numbers by name. A null key or number stands for the one before it. -/
def readIndexEntries :
    List (Item × Item) → (name : String) → (number : Int) → Except ReadError (List (String × Int))
  | [], _, _ => .ok []
  | (k, v) :: rest, name, number => do
    let name ← readText name k
    let number ← readInt (-2 ^ (63 : Nat)) (2 ^ (63 : Nat) - 1) number v
    let more ← readIndexEntries rest name number
    return (name, number) :: more

def readIndex (i : Item) : Except ReadError (Fields Int) := do
  match ← untagged i with
  | .map entries => return .ofList (← readIndexEntries entries "" 0)
  | i => if isNull i then return {} else throw .shape

def readProgram (i : Item) : Except ReadError Program :=
  readRecord
    (fun n => match n with
      | 1 => field readInt64 fun x (p : Program) => { p with version := x }
      | 2 => field (readList readFunction) fun x p => { p with functions := x.toArray }
      | 3 => field (readList readDatum) fun x p => { p with constants := x.toArray }
      | 4 => field (readList (readText "")) fun x p => { p with vars := x }
      | 5 => field readInt64 fun x p => { p with entry := x }
      | 6 => field readIndex fun x p => { p with ruleIndex := x }
      | 7 => field (readList readPage) fun x p => { p with pages := x }
      | 8 => field (readList readRule) fun x p => { p with rules := x }
      | _ => none)
    default i

/-- The item of a field, below its tags. -/
def fieldItem? (n : Nat) (i : Item) : Option Item :=
  match untagged i with
  | .ok (.map entries) =>
    (entries.find? fun e => (keyNumber e.1).toOption = some (some n)).bind fun e =>
      (untagged e.2).toOption
  | _ => none

/-- Whether a field is missing or null. -/
def isBlank (n : Nat) (i : Item) : Bool := ((fieldItem? n i).map isNull).getD true

/-- The items of a field that is a list. -/
def fieldItems (n : Nat) (i : Item) : List Item :=
  match fieldItem? n i with
  | some (.array items) => items
  | _ => []

/-- Which lists of a program are missing or null. -/
def Blanks.ofItem (i : Item) : Blanks :=
  { functions := isBlank 2 i
    constants := isBlank 3 i
    vars := isBlank 4 i
    index := isBlank 6 i
    pages := isBlank 7 i
    rules := isBlank 8 i
    code := (fieldItems 2 i).map (isBlank 2)
    roots := (fieldItems 7 i).map (isBlank 4)
    sites := (fieldItems 7 i).map (isBlank 5) }

/-- A program file: its magic word and its program, with the lists that are not there. -/
structure File where
  magic : String := ""
  program : Option (Program × Blanks) := none

def readFile (i : Item) : Except ReadError File :=
  readRecord
    (fun n => match n with
      | 1 => field (readText "") fun x (f : File) => { f with magic := x }
      | 2 => some fun i f =>
        if isNull i then .ok f
        else do
          let p ← readProgram i
          return { f with program := some (p, .ofItem i) }
      | _ => none)
    {} i

end Wire

/-- Why bytes are no program. -/
inductive DecodeError where
  | malformed
  | value (e : Wire.ValueError)
  | notProgram
  | version (e : ProgramError)
deriving DecidableEq, Repr

/-- The text of an error; malformed bytes have none of their own. -/
def DecodeError.message? : DecodeError → Option String
  | .malformed => none
  | .value e => some ("vm: unmarshal program: " ++ e.message)
  | .notProgram => some "vm: not a brain program"
  | .version e => some ("vm: " ++ e.message)

namespace Program

def file (p : Program) (blanks : Wire.Blanks) : Except Wire.EncodeError Cbor.Item := do
  let i ← Wire.ofProgram p blanks
  return .ofNumbered [(1, some (.string Wire.magic)), (2, some i)]

def encode (p : Program) (codec : Cbor.Codec) (blanks : Wire.Blanks := {}) :
    Except Wire.EncodeError (List UInt8) :=
  (p.file blanks).map codec.write

/-- The program that some bytes are, and how they write empty lists. -/
def decodeFile (codec : Cbor.Codec) (bs : List UInt8) : Except DecodeError (Program × Wire.Blanks) :=
  match codec.read bs with
  | none => .error .malformed
  | some i =>
    match Wire.readFile i with
    | .error .shape => .error .malformed
    | .error (.value e) => .error (.value e)
    | .ok f =>
      match f.program with
      | none => .error .notProgram
      | some (p, blanks) =>
        if f.magic ≠ Wire.magic then .error .notProgram
        else
          match p.checkVersion with
          | .error e => .error (.version e)
          | .ok _ => .ok (p, blanks)

def decode (codec : Cbor.Codec) (bs : List UInt8) : Except DecodeError Program :=
  Prod.fst <$> decodeFile codec bs

end Program

namespace Datum

def encode (d : Datum) (codec : Cbor.Codec) : Except Wire.EncodeError (List UInt8) :=
  (Wire.ofDatum d).map codec.write

def decode (codec : Cbor.Codec) (bs : List UInt8) : Except Wire.ReadError Datum :=
  match codec.read bs with
  | none => .error .shape
  | some i => Wire.readDatum i

end Datum

end TileMind
