import TileMind.Program.Listing
import TileMind.Proofs.Program.Files

/-!
# TileMind.Proofs.Program.Listing

Listings of programs that nobody has checked. An operand that is looked up in a table may lie past the end of
it, and then it has no note; what nobody asks is whether it lies before the beginning.

* `Instr.miss?`, `Program.firstMiss?`: operands that no table is asked about.
* `Program.pieces`: a listing as it is put together from texts and the lines of instructions.
* `listing_of_any`: when there is a listing, and that its pieces have every instruction once and in order.
* `listing_of_negative`: a stored program without a listing.
-/

namespace TileMind

open Cbor Wire

/-- The listing looks operand `a` up in a table. -/
def Op.looksUp : Op → Bool
  | .pushConst | .mapNew | .loadVar | .storeVar | .call => true
  | _ => false

/-- What a listing comes to a halt at: an operand that lies before the beginning of its table. -/
def Instr.miss? (i : Instr) : Option Program.ListingError :=
  if (i.op?.map Op.looksUp).getD false && decide (i.a.toInt < 0) then some ⟨i.a.toInt⟩ else none

theorem Instr.miss?_eq_none {i : Instr} :
    i.miss? = none ↔ ∀ op, i.op? = some op → op.looksUp = true → 0 ≤ i.a.toInt := by
  unfold Instr.miss?
  cases i.op? with
  | none => simp
  | some op => cases hlooks : op.looksUp <;> simp [hlooks]

namespace Program

/-- The first operand of a program that lies before its table, function by function. -/
def firstMiss? (p : Program) : Option ListingError :=
  p.functions.toList.findSome? fun f => f.code.toList.findSome? Instr.miss?

def instructions (p : Program) : List (Nat × Nat × Instr) :=
  p.functions.toList.zipIdx.flatMap fun (f, func) =>
    f.code.toList.zipIdx.map fun (i, pc) => (func, pc, i)

/-- A part of a listing: the line of an instruction with a note that may be empty, or any other text. -/
inductive Piece where
  | text (s : String)
  | line (func pc : Nat) (i : Instr) (note : String)

namespace Piece

def render : Piece → String
  | .text s => s
  | .line _ pc i note =>
    if note = "" then Decimal.integerPadded 4 pc ++ "  " ++ i.render ++ "\n"
    else Decimal.integerPadded 4 pc ++ "  " ++ padRight 28 i.render ++ " ; " ++ note ++ "\n"

def instruction? : Piece → Option (Nat × Nat × Instr)
  | .text _ => none
  | .line func pc i _ => some (func, pc, i)

end Piece

section

variable {α β ε : Type} {f : α → Except ε β} {bad : α → Option ε} {g : α → β} {xs : List α}

/-- A traversal stops at the first element that is bad. -/
theorem mapM_of_findSome? (h : ∀ x ∈ xs, f x = (bad x).elim (.ok (g x)) .error) :
    xs.mapM f = (xs.findSome? bad).elim (.ok (xs.map g)) .error := by
  induction xs with
  | nil => rfl
  | cons x xs ih =>
    have hx := h x List.mem_cons_self
    have hxs := ih fun y hy => h y (List.mem_cons_of_mem _ hy)
    rw [List.mapM_cons, hx, hxs, List.findSome?_cons]
    cases bad x with
    | some e => rfl
    | none => cases xs.findSome? bad <;> rfl

end

variable (p : Program) (fns : Int → Option String)

/-- The note of an instruction, if there is a way to tell it. -/
def noteOf (pc : Nat) (i : Instr) : String :=
  match annotation p fns pc i with
  | .ok note => note
  | .error _ => ""

theorem tableNote_eq {α : Type} (xs : List α) (a : Int) (text : α → String) :
    ∃ note, tableNote xs a text = if a < 0 then .error ⟨a⟩ else .ok note := by
  unfold tableNote atInt?
  by_cases hneg : a < 0
  · have hlt : ¬(xs.length : Int) ≤ a := by omega
    exact ⟨"", by simp [hneg, hlt]⟩
  · by_cases hle : (xs.length : Int) ≤ a
    · exact ⟨"", by simp [hneg, hle]⟩
    · have hlt : a.toNat < xs.length := by omega
      exact ⟨text xs[a.toNat], by simp [hneg, hle, List.getElem?_eq_getElem hlt]⟩

/-- A note cannot be told of an operand before its table, and of no other. -/
theorem annotation_eq (pc : Nat) (i : Instr) :
    annotation p fns pc i = i.miss?.elim (.ok (p.noteOf fns pc i)) .error := by
  suffices ∃ note, annotation p fns pc i = i.miss?.elim (.ok note) .error by
    obtain ⟨note, hnote⟩ := this
    rw [noteOf, hnote]
    cases i.miss? <;> rfl
  have hlook {op : Op} {α : Type} (hop : i.op? = some op) (hlooks : op.looksUp = true) (xs : List α)
      (text : α → String) :
      ∃ note, tableNote xs i.a.toInt text = i.miss?.elim (.ok note) .error := by
    obtain ⟨note, hnote⟩ := tableNote_eq xs i.a.toInt text
    refine ⟨note, hnote.trans ?_⟩
    by_cases hneg : i.a.toInt < 0 <;> simp [Instr.miss?, hop, hlooks, hneg]
  have hnone {op : Op} (hop : i.op? = some op) (hlooks : op.looksUp = false) (note : String) :
      ∃ note', (.ok note : Except ListingError String) = i.miss?.elim (.ok note') .error :=
    ⟨note, by simp [Instr.miss?, hop, hlooks]⟩
  unfold annotation
  cases hop : i.op? with
  | none => exact ⟨"", by simp [Instr.isJump, Instr.miss?, hop]⟩
  | some op =>
    cases op
    case pushConst | mapNew | loadVar | storeVar | call =>
      simp only [Instr.isJump, hop, Option.map_some, Option.getD_some, Op.isJump, Bool.false_eq_true, if_false]
      exact hlook hop rfl _ _
    all_goals
      simp only [Instr.isJump, hop, Option.map_some, Option.getD_some, Op.isJump, Bool.false_eq_true, if_false,
        if_true]
      exact hnone hop rfl _

theorem instrLine_eq (func pc : Nat) (i : Instr) : instrLine p fns pc i =
    i.miss?.elim (.ok (Piece.line func pc i (p.noteOf fns pc i)).render) .error := by
  rw [instrLine, annotation_eq]
  cases i.miss? with
  | some e => rfl
  | none =>
    rw [Option.elim_none, Option.elim_none, Piece.render]
    exact (apply_ite Except.ok _ _ _).symm

/-! ## Pieces -/

/-- What stands above the instructions of a function. -/
def title (func : Nat) (f : Function) : String :=
  let path := p.pathOf func
  let name := if path = "" then f.name else f.name ++ " [" ++ path ++ "]"
  "; === fn" ++ Decimal.integer func ++ " " ++ name ++ " ===\n" ++
    if f.maxStack ≤ 0 then "" else "; max stack: " ++ Decimal.integer f.maxStack ++ "\n"

/-- What stands above the functions. -/
def preamble : String :=
  let start := "; Brain Bytecode v" ++ Decimal.integer p.version ++ "\n; Entry page: " ++
    Decimal.integer p.entry ++ "\n"
  let vars := if p.vars.isEmpty then ""
    else "; Variables (" ++ Decimal.digitString p.vars.length ++ "): " ++ ", ".intercalate p.vars ++
      "\n"
  let constants := if p.constants.isEmpty then "" else p.listConstants
  let pages := String.join (p.pages.map (listPage fns)) ++ if p.pages.isEmpty then "" else "\n"
  start ++ vars ++ "\n" ++ constants ++ pages

def linesOf (func : Nat) (f : Function) : List Piece :=
  f.code.toList.zipIdx.map fun (i, pc) => .line func pc i (p.noteOf fns pc i)

def pieces : List Piece :=
  .text (p.preamble fns) :: p.functions.toList.zipIdx.flatMap fun (f, func) =>
    .text (p.title func f) :: p.linesOf fns func f ++ [.text "\n"]

theorem findSome?_zipIdx {α β : Type} (f : α → Option β) (xs : List α) :
    (xs.zipIdx.findSome? fun x => f x.1) = xs.findSome? f := by
  have hfst : xs.zipIdx.map Prod.fst = xs := List.zipIdx_map_fst 0 xs
  exact (List.findSome?_map (f := Prod.fst) (p := f) (l := xs.zipIdx)).symm.trans (by rw [hfst])

theorem listFunction_eq {func : Nat} {f : Function} (h : p.functions[func]? = some f) :
    p.listFunction fns func (p.pathOf func) = (f.code.toList.findSome? Instr.miss?).elim
      (.ok (p.title func f ++ String.join ((p.linesOf fns func f).map Piece.render))) .error := by
  have hfunction : p.function? func = some f := by
    rw [function?, if_neg (by omega)]
    exact h
  have hlines : (f.code.toList.zipIdx.mapM fun x : Instr × Nat => instrLine p fns x.2 x.1) =
      (f.code.toList.findSome? Instr.miss?).elim
        (.ok ((p.linesOf fns func f).map Piece.render)) .error := by
    have hall := mapM_of_findSome? fun (x : Instr × Nat) (_ : x ∈ f.code.toList.zipIdx) =>
      instrLine_eq p fns func x.2 x.1
    rw [hall, findSome?_zipIdx Instr.miss?, linesOf, List.map_map]
    rfl
  rw [listFunction, hfunction]
  show (do
    let lines ← f.code.toList.zipIdx.mapM fun x : Instr × Nat => instrLine p fns x.2 x.1
    pure _) = _
  rw [hlines]
  cases f.code.toList.findSome? Instr.miss? <;> rfl

/-- A listing is put together from its pieces, unless an operand is missed. -/
theorem listing_eq : p.listing fns =
    p.firstMiss?.elim (.ok (String.join ((p.pieces fns).map Piece.render))) .error := by
  have hfunctions : ((List.range p.functions.size).mapM fun func : Nat =>
      p.listFunction fns func (p.pathOf func)) =
      p.firstMiss?.elim (.ok (p.functions.toList.zipIdx.map fun x =>
        p.title x.2 x.1 ++ String.join ((p.linesOf fns x.2 x.1).map Piece.render))) .error := by
    have hrange : List.range p.functions.size = p.functions.toList.zipIdx.map Prod.snd := by
      rw [List.zipIdx_map_snd, List.range_eq_range', Array.length_toList]
    have hall := mapM_of_findSome? fun (x : Function × Nat) (hx : x ∈ p.functions.toList.zipIdx) =>
      listFunction_eq p fns (by simpa using List.mem_zipIdx_iff_getElem?.mp hx)
    rw [hrange, List.mapM_map, Function.comp_def, hall, findSome?_zipIdx fun f : Function => f.code.toList.findSome? Instr.miss?]
    rfl
  have hlisting : p.listing fns = ((List.range p.functions.size).mapM fun func : Nat =>
      p.listFunction fns func (p.pathOf func)) >>= fun functions =>
        .ok (p.preamble fns ++ String.join (functions.map (· ++ "\n"))) := by
    delta listing preamble
    rfl
  rw [hlisting, hfunctions]
  cases p.firstMiss? with
  | some e => rfl
  | none =>
    refine congrArg Except.ok ?_
    rw [pieces, List.map_cons, String.join_cons, Piece.render, List.map_map]
    refine congrArg _ ?_
    induction p.functions.toList.zipIdx with
    | nil => rfl
    | cons x xs ih =>
      rw [List.map_cons, String.join_cons, ih, List.flatMap_cons, List.map_append, String.join_append]
      simp [Piece.render, String.join_cons, String.join_append, String.append_assoc]

theorem instructions_pieces : (p.pieces fns).filterMap Piece.instruction? = p.instructions := by
  rw [pieces, List.filterMap_cons_none rfl, List.filterMap_flatMap, instructions]
  refine congrArg (List.flatMap · _) (funext fun (f, func) => ?_)
  dsimp only
  rw [List.cons_append, List.filterMap_cons_none rfl, List.filterMap_append, linesOf, List.filterMap_map]
  simp [Piece.instruction?, Function.comp_def]

/-- There is a first operand that is missed if any is. -/
theorem firstMiss?_eq_none : p.firstMiss? = none ↔
    ∀ f ∈ p.functions, ∀ i ∈ f.code, ∀ op, i.op? = some op → op.looksUp = true → 0 ≤ i.a.toInt := by
  simp only [firstMiss?, List.findSome?_eq_none_iff, Array.mem_toList_iff, Instr.miss?_eq_none]

/-- A program has a listing exactly if no operand that is looked up is negative, and then the listing is made of
its pieces: among them is one line for each instruction of each function, in order. -/
theorem listing_of_any :
    (∀ e, p.listing fns = .error e ↔ p.firstMiss? = some e) ∧
      (∀ text, p.listing fns = .ok text ↔
        p.firstMiss? = none ∧ text = String.join ((p.pieces fns).map Piece.render)) ∧
      (p.pieces fns).filterMap Piece.instruction? = p.instructions ∧
      (p.firstMiss? = none ↔ ∀ f ∈ p.functions, ∀ i ∈ f.code, ∀ op,
        i.op? = some op → op.looksUp = true → 0 ≤ i.a.toInt) := by
  refine ⟨fun e => ?_, fun text => ?_, p.instructions_pieces fns, p.firstMiss?_eq_none⟩
  · rw [listing_eq]
    cases p.firstMiss? <;> simp
  · rw [listing_eq]
    cases p.firstMiss? <;> simp [eq_comm]

/-- A program that pushes the constant before its first one. -/
def unlisted : Program :=
  { version := currentVersion, functions := #[{ name := "f", code := #[.of .pushConst (-1)] }] }

/-- It can be stored and loaded, and then it has no listing. -/
theorem listing_of_negative :
    ∃ bytes p e, decode Cbor.canonical bytes = .ok p ∧ p.listing (fun _ => none) = .error e := by
  have hformed : unlisted.WellFormed := ⟨by decide, by decide, by decide, by decide, by decide, by decide, by decide⟩
  obtain ⟨i, hi⟩ : ∃ i, unlisted.file {} = .ok i := ⟨_, rfl⟩
  have hfits : i.fits 0 := by
    cases hi
    simp [unlisted, Item.ofNumbered, Item.fits, itemsFit, entriesFit, Item.fits_string, Item.fits_ofFields, listOr,
      ofFunction, ofInstr, Item.int, omitIf, Instr.of, magic, currentVersion]
    decide
  have hmiss : unlisted.canonical.firstMiss? = some ⟨-1⟩ := rfl
  refine ⟨_, _, ⟨-1⟩, decode_write hformed canonical_faithful rfl hi hfits, ?_⟩
  rw [listing_eq, hmiss]
  rfl

end Program
end TileMind
