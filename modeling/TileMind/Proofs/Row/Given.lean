import Mathlib.Data.List.Sort
import TileMind.Proofs.Row.Printing
import TileMind.Proofs.Row.Progress

/-!
# TileMind.Proofs.Row.Given

A call that is given words of modifiers, words of parameters with plain values, and plain values alone. Which slots
they are bound to does not depend on where they stand in the row or on how nodes are numbered.

* `Given`: what is given to a call, and the tokens of it.
* `give`: how one more of them is bound.
* `readArgs_given`: the arguments of a call are read by giving one after the other.
* `readRow_given`: nothing is wrong with a row that calls a tile if and only if everything is bound.
-/

namespace TileMind
namespace Row

/-! ## Bound slots without marks -/

/-- The bound slots with all numbers and places of nodes dropped. -/
def Bound.unmarked (b : Bound) : Bound := b.map fun x => (x.1, x.2.unmarked)

section

variable {b : Bound} {spec : FlatSpec}

@[simp] theorem isFilled_unmarked (k : Nat) : b.unmarked.isFilled k = b.isFilled k := by
  simp [Bound.unmarked, Bound.isFilled, Function.comp_def]

@[simp] theorem available_unmarked (s : Slot) : b.unmarked.available spec s = b.available spec s := by
  simp [Bound.available, Bound.groupFilled, Bound.slots]

@[simp] theorem find?_unmarked (kind : ArgKind) (tile : String) :
    b.unmarked.find? spec kind tile = b.find? spec kind tile := by
  simp [Bound.find?]

@[simp] theorem anonymous?_unmarked : b.unmarked.anonymous? spec = b.anonymous? spec := by
  simp [Bound.anonymous?]

theorem unmarked_bind (slot : Nat) (e : Expr) :
    (b.bind slot e).unmarked = b.unmarked.bind slot e.unmarked := by
  simp [Bound.unmarked, Bound.bind]

theorem unmarked_recount (slot : Nat) : (b.recount slot).unmarked = b.unmarked.recount slot := by
  unfold Bound.unmarked Bound.recount
  rw [List.map_map, List.map_map]
  refine List.map_congr_left fun x _ => ?_
  obtain ⟨k, e⟩ := x
  simp only [Function.comp_apply]
  split
  · cases e <;> simp [Expr.unmarked]
  · rfl

theorem unmarked_ofList (bound : List (Nat × Expr)) :
    (Args.ofList bound).unmarked = .ofList (bound.map fun x => (x.1, x.2.unmarked)) := by
  induction bound with
  | nil => rfl
  | cons x bound ih =>
    obtain ⟨slot, value⟩ := x
    rw [Args.ofList, Args.unmarked, ih]
    rfl

theorem unmarked_args (b : Bound) : b.args.unmarked = b.unmarked.args := by
  rw [Bound.args, Bound.args, unmarked_ofList, Bound.unmarked, List.map_mergeSort]
  exact fun _ _ _ _ => rfl

end

/-! ## What is given -/

def wordToken (word : String) : Token := { kind := .word, literal := word }

/-- A token that is a value by itself: a literal or a variable. -/
def Token.IsPlain (t : Token) : Prop :=
  t.kind ∈ [TokenKind.number, .string, .truth, .falsity, .nil, .variable]

instance (t : Token) : Decidable t.IsPlain := inferInstanceAs (Decidable (_ ∈ _))

/-- The value that a token is by itself. A number may have too many digits for one. -/
def Token.plain? (t : Token) : Option Expr :=
  match t.kind with
  | .number => ((Decimal.read? t.literal).filter Float.isFinite).map fun x => .literal default (.number x)
  | .string => some (.literal default (.string t.literal))
  | .truth => some (.literal default (.bool true))
  | .falsity => some (.literal default (.bool false))
  | .nil => some (.literal default .nil)
  | .variable => some (.variable default t.literal)
  | _ => none

/-- What is given to a call: the word of a modifier, the word of a parameter and its value, or a value alone. -/
inductive Given where
  | modifier (tile : Tile)
  | parameter (tile : Tile) (value : Token)
  | plain (value : Token)
deriving DecidableEq

namespace Given

def tokens : Given → List Token
  | .modifier tile => [wordToken tile.id]
  | .parameter tile value => [wordToken tile.id, value]
  | .plain value => [value]

/-- The words are tiles of the catalog, and the values are literals or variables. -/
def Valid (c : Catalog) : Given → Prop
  | .modifier tile => c.get? tile.id = some tile ∧ tile.kind = .modifier
  | .parameter tile value => (c.get? tile.id = some tile ∧ tile.kind = .parameter) ∧ value.IsPlain
  | .plain value => value.IsPlain

end Given

/-- Binds one more of what is given, if there is a slot for it. -/
def give (spec : FlatSpec) (b : Bound) : Given → Option Bound
  | .modifier tile =>
    (b.find? spec .modifier tile.id).map fun slot =>
      if b.isFilled slot then b.recount slot else b.bind slot (.modifier default tile 1)
  | .parameter tile value =>
    (b.find? spec .parameter tile.id).bind fun slot =>
      value.plain?.map fun e => b.bind slot (.parameter default tile e)
  | .plain value => (b.anonymous? spec).bind fun slot => value.plain?.map fun e => b.bind slot e

def giveAll (spec : FlatSpec) (b : Bound) (gs : List Given) : Option Bound := gs.foldlM (give spec) b

theorem giveAll_cons (spec : FlatSpec) (b : Bound) (g : Given) (gs : List Given) :
    giveAll spec b (g :: gs) = (give spec b g).bind fun b' => giveAll spec b' gs := by
  rw [giveAll, List.foldlM_cons]
  rfl

/-! ## Reading -/

theorem Token.kind_of_isPlain {t : Token} (h : t.IsPlain) :
    t.kind.pull = 0 ∧ t.kind ≠ .bang ∧ t.kind ≠ .minus ∧ ∀ c, argStart c t = .value := by
  unfold IsPlain at h
  simp only [List.mem_cons, List.not_mem_nil, or_false] at h
  rcases h with h | h | h | h | h | h <;> rw [h] <;> simp [TokenKind.pull, binaryOp?, argStart, h]

section

variable {c : Catalog} {rule : String} {t : Token} {more : List Token} {r : Reader}

theorem stem_plain (c : Catalog) (rule : String) {e : Expr} (h : t.plain? = some e) : Stem c rule e [t] := by
  unfold Token.plain? at h
  split at h
  case h_1 hkind =>
    obtain ⟨x, hx, rfl⟩ := Option.map_eq_some_iff.mp h
    refine stem_literal (fun depth r more hrest => ?_) (by simp [hkind]) (by simp [hkind])
    rw [readPrimary]
    simp only [Reader.current_of_rest hrest, hkind, hx]
  case h_6 hkind =>
    cases h
    refine stem_token (by simp [hkind]) (by simp [hkind]) fun depth r more hrest => ?_
    rw [readPrimary]
    simp only [Reader.current_of_rest hrest, hkind]
    exact ⟨_, _, rfl, rfl, Reader.rest_advance hrest, rfl, rfl⟩
  case h_7 => cases h
  all_goals
    rename_i hkind
    cases h
    refine stem_literal (fun depth r more hrest => ?_) (by simp [hkind]) (by simp [hkind])
    rw [readPrimary]
    simp only [Reader.current_of_rest hrest, hkind]

theorem readUnary_plain (c : Catalog) (rule : String) {e : Expr} (h : t.plain? = some e) (hrest : r.rest = t :: more)
    (hpull : (more.headD r.last).kind.pull = 0) (depth : Nat) :
    ∃ e' r', readUnary c rule (depth + 2) r = (e', r') ∧ e'.unmarked = e ∧ r.Past r' more := by
  have hself : e.unmarked = e := by
    unfold Token.plain? at h
    split at h
    case h_1 =>
      obtain ⟨x, -, rfl⟩ := Option.map_eq_some_iff.mp h
      rfl
    all_goals
      cases h
      try rfl
  obtain ⟨e', r', hread, htree, hpast⟩ := (stem_plain c rule h).operand (depth + 2) r more hrest
    (by rw [List.length_singleton]; omega) (by rw [hpull]; exact Nat.zero_le _)
  exact ⟨e', r', hread, htree.trans hself, hpast⟩

theorem diags_of_plain? (c : Catalog) (rule : String) (hplain : t.IsPlain) (h : t.plain? = none)
    (hrest : r.rest = t :: more) (depth : Nat) :
    r.diags.length < (readUnary c rule (depth + 2) r).2.diags.length := by
  have hnumber : t.kind = .number ∧ (Decimal.read? t.literal).filter Float.isFinite = none := by
    unfold Token.IsPlain at hplain
    simp only [List.mem_cons, List.not_mem_nil, or_false] at hplain
    rcases hplain with hkind | hkind | hkind | hkind | hkind | hkind <;> simp_all [Token.plain?]
  have hread : readPrimary c rule (depth + 1) r =
      r.advance.fail rule t.pos ("invalid number " ++ Text.quote t.literal) := by
    rw [readPrimary]
    simp only [Reader.current_of_rest hrest, hnumber.1, hnumber.2]
  rw [readUnary]
  simp only [Reader.current_of_rest hrest, hnumber.1, hread]
  refine Nat.lt_of_lt_of_le ?_ (List.IsPrefix.length_le
    ((Reader.Onward.refl (r.advance.fail rule t.pos _).2).fields _ _).diags)
  simp [Reader.fail, Reader.report, Reader.mark, Reader.advance]

/-- What comes of reading arguments: all of them are read and nothing is reported, or else something is reported or
the next token is left over. -/
def Reader.Comes (r : Reader) (out : Bound × Reader) : Option Bound → Prop
  | some b => out.1.unmarked = b ∧ r.Past out.2 []
  | none => r.diags.length < out.2.diags.length ∨ ∃ t more, out.2.rest = t :: more ∧ t.kind.pull = 0

theorem Reader.Past.comes {r' : Reader} (h : r.Past r' more) {out : Bound × Reader} :
    ∀ {b : Option Bound}, r'.Comes out b → r.Comes out b
  | some _, ⟨hb, hpast⟩ => ⟨hb, hpast.rest, hpast.last.trans h.last, hpast.diags.trans h.diags⟩
  | none, .inl hdiags => .inl (h.diags ▸ hdiags)
  | none, .inr hrest => .inr hrest

end

section

variable {c : Catalog} {rule : String} {tile : Tile}

theorem argStart_modifier {t : Token} {arg : Tile} (ht : t.unplaced = wordToken arg.id)
    (hget : c.get? arg.id = some arg) (hkind : arg.kind = .modifier) : argStart c t = .modifier arg := by
  have hword : t.kind = .word := Token.kind_of_unplaced ht
  have hid : t.literal = arg.id := Token.literal_of_unplaced ht
  simp [argStart, hword, hid, hget, hkind]

theorem argStart_parameter {t : Token} {arg : Tile} (ht : t.unplaced = wordToken arg.id)
    (hget : c.get? arg.id = some arg) (hkind : arg.kind = .parameter) : argStart c t = .parameter arg := by
  have hword : t.kind = .word := Token.kind_of_unplaced ht
  have hid : t.literal = arg.id := Token.literal_of_unplaced ht
  simp [argStart, hword, hid, hget, hkind]

/-- The first token of what is left over binds no operator to what was read. -/
theorem pull_of_tokens {gs : List Given} (hvalid : ∀ g ∈ gs, g.Valid c) {last : Token} (hlast : last.kind = .eof)
    {ts : List Token} (hts : ts.map Token.unplaced = gs.flatMap Given.tokens) :
    (ts.headD last).kind.pull = 0 := by
  cases gs with
  | nil =>
    rw [List.map_eq_nil_iff.mp hts, List.headD_nil, hlast]
    rfl
  | cons g gs =>
    have hg := hvalid g List.mem_cons_self
    cases g with
    | plain value =>
      obtain ⟨t, more, rfl, ht, -⟩ := List.map_eq_cons_iff.mp hts
      rw [List.headD_cons, Token.kind_of_unplaced ht]
      exact (Token.kind_of_isPlain hg).1
    | _ =>
      obtain ⟨t, more, rfl, ht, -⟩ := List.map_eq_cons_iff.mp hts
      rw [List.headD_cons, Token.kind_of_unplaced ht]
      rfl

/-- One turn of reading arguments: reading goes on behind `more` with what is bound then, or all is over. -/
def Reader.Turn (c : Catalog) (rule : String) (tile : Tile) (depth : Nat) (b : Bound) (r : Reader)
    (more : List Token) : Option Bound → Prop
  | some b' => ∃ b'' r', readArgs c rule (depth + 1) tile b r = readArgs c rule depth tile b'' r' ∧
      b''.unmarked = b' ∧ r.Past r' more
  | none => r.Comes (readArgs c rule (depth + 1) tile b r) none

section

variable {b : Bound} {r : Reader} {arg : Tile} {t v : Token} {more : List Token}

theorem turn_modifier (rule : String) (tile : Tile) (depth : Nat) (b : Bound) (hg : (Given.modifier arg).Valid c)
    (ht : r.rest = t :: more) (htoken : t.unplaced = wordToken arg.id) :
    r.Turn c rule tile depth b more (give tile.spec b.unmarked (.modifier arg)) := by
  have hstart : argStart c r.current = .modifier arg := by
    rw [Reader.current_of_rest ht, argStart_modifier htoken hg.1 hg.2]
  have hnext : r.advance.rest = more := Reader.rest_advance ht
  rw [give, find?_unmarked]
  cases hslot : b.find? tile.spec .modifier arg.id with
  | none =>
    refine .inr ⟨t, more, ?_, by rw [Token.kind_of_unplaced htoken]; rfl⟩
    rw [readArgs]
    simp only [hstart, hslot, ht]
  | some slot =>
    rw [Option.map_some, isFilled_unmarked]
    cases hfilled : b.isFilled slot with
    | true =>
      rw [if_pos rfl]
      refine ⟨b.recount slot, r.advance, ?_, unmarked_recount slot, hnext, rfl, rfl⟩
      rw [readArgs]
      simp only [hstart, hslot, hfilled, if_true]
    | false =>
      rw [if_neg (by decide)]
      refine ⟨b.bind slot (.modifier (r.advance.mark r.current.pos).1 arg 1),
        (r.advance.mark r.current.pos).2, ?_, unmarked_bind slot _, hnext, rfl, rfl⟩
      rw [readArgs]
      simp only [hstart, hslot, hfilled, Bool.false_eq_true, if_false]

theorem turn_parameter (rule : String) (tile : Tile) (depth : Nat) (b : Bound)
    (hg : (Given.parameter arg v.unplaced).Valid c) (ht : r.rest = t :: v :: more)
    (htoken : t.unplaced = wordToken arg.id) (hpull : (more.headD r.last).kind.pull = 0) :
    r.Turn c rule tile (depth + 2) b more (give tile.spec b.unmarked (.parameter arg v.unplaced)) := by
  have hstart : argStart c r.current = .parameter arg := by
    rw [Reader.current_of_rest ht, argStart_parameter htoken hg.1.1 hg.1.2]
  rw [give, find?_unmarked]
  cases hslot : b.find? tile.spec .parameter arg.id with
  | none =>
    refine .inr ⟨t, v :: more, ?_, by rw [Token.kind_of_unplaced htoken]; rfl⟩
    rw [readArgs]
    simp only [hstart, hslot, ht]
  | some slot =>
    have hread : readArgs c rule (depth + 3) tile b r = readArgs c rule (depth + 2) tile
        (b.bind slot (.parameter (r.advance.mark r.current.pos).1 arg
          (readUnary c rule (depth + 2) (r.advance.mark r.current.pos).2).1))
        (readUnary c rule (depth + 2) (r.advance.mark r.current.pos).2).2 := by
      rw [readArgs]
      simp only [hstart, hslot]
    have hnext : (r.advance.mark r.current.pos).2.rest = v :: more := Reader.rest_advance ht
    rw [show v.unplaced.plain? = v.plain? from rfl, Option.bind_some]
    cases hplain : v.plain? with
    | none =>
      have hlt := diags_of_plain? c rule (t := v) hg.2 hplain hnext depth
      refine .inl ?_
      rw [hread]
      exact Nat.lt_of_lt_of_le hlt ((readings c rule (depth + 2)).args _ _ _).onward.diags.length_le
    | some e =>
      obtain ⟨e', r', hvalue, rfl, hpast⟩ := readUnary_plain c rule hplain hnext hpull depth
      rw [hvalue] at hread
      exact ⟨_, _, hread, unmarked_bind slot _, hpast.rest, hpast.last, hpast.diags⟩

theorem turn_plain (rule : String) (tile : Tile) (depth : Nat) (b : Bound) (hg : v.IsPlain)
    (ht : r.rest = v :: more) (hpull : (more.headD r.last).kind.pull = 0) :
    r.Turn c rule tile (depth + 2) b more (give tile.spec b.unmarked (.plain v.unplaced)) := by
  have hstart : argStart c r.current = .value := by
    rw [Reader.current_of_rest ht, (Token.kind_of_isPlain hg).2.2.2 c]
  rw [give, anonymous?_unmarked]
  cases hslot : b.anonymous? tile.spec with
  | none =>
    refine .inr ⟨v, more, ?_, (Token.kind_of_isPlain hg).1⟩
    rw [readArgs]
    simp only [hstart, hslot, ht]
  | some slot =>
    have hread : readArgs c rule (depth + 3) tile b r = readArgs c rule (depth + 2) tile
        (b.bind slot (readUnary c rule (depth + 2) r).1) (readUnary c rule (depth + 2) r).2 := by
      rw [readArgs]
      simp only [hstart, hslot]
    rw [show v.unplaced.plain? = v.plain? from rfl, Option.bind_some]
    cases hplain : v.plain? with
    | none =>
      have hlt := diags_of_plain? c rule hg hplain ht depth
      refine .inl ?_
      rw [hread]
      exact Nat.lt_of_lt_of_le hlt ((readings c rule (depth + 2)).args _ _ _).onward.diags.length_le
    | some e =>
      obtain ⟨e', r', hvalue, rfl, hpast⟩ := readUnary_plain c rule hplain ht hpull depth
      rw [hvalue] at hread
      exact ⟨_, _, hread, unmarked_bind slot _, hpast⟩

/-- In every turn one more of what is given is bound. -/
theorem exists_turn (rule : String) (tile : Tile) (depth : Nat) (b : Bound) {g : Given} {gs : List Given}
    (hvalid : ∀ g' ∈ g :: gs, g'.Valid c) (hlast : r.last.kind = .eof)
    (hrest : r.rest.map Token.unplaced = (g :: gs).flatMap Given.tokens) :
    ∃ more, more.map Token.unplaced = gs.flatMap Given.tokens ∧
      r.Turn c rule tile (depth + 2) b more (give tile.spec b.unmarked g) := by
  obtain ⟨hg, hgs⟩ := List.forall_mem_cons.mp hvalid
  cases g with
  | modifier arg =>
    obtain ⟨t, more, ht, htoken, hmore⟩ := List.map_eq_cons_iff.mp hrest
    exact ⟨more, hmore, turn_modifier rule tile (depth + 2) b hg ht htoken⟩
  | parameter arg value =>
    obtain ⟨t, _, ht, htoken, hrest'⟩ := List.map_eq_cons_iff.mp hrest
    obtain ⟨v, more, rfl, rfl, hmore⟩ := List.map_eq_cons_iff.mp hrest'
    exact ⟨more, hmore, turn_parameter rule tile depth b hg ht htoken (pull_of_tokens hgs hlast hmore)⟩
  | plain value =>
    obtain ⟨v, more, ht, rfl, hmore⟩ := List.map_eq_cons_iff.mp hrest
    exact ⟨more, hmore, turn_plain rule tile depth b hg ht (pull_of_tokens hgs hlast hmore)⟩

end

theorem readArgs_given (rule : String) (tile : Tile) (depth : Nat) {gs : List Given}
    (hvalid : ∀ g ∈ gs, g.Valid c) {b : Bound} {r : Reader} (hlast : r.last.kind = .eof)
    (hrest : r.rest.map Token.unplaced = gs.flatMap Given.tokens) (hdepth : gs.length + 3 ≤ depth) :
    r.Comes (readArgs c rule depth tile b r) (giveAll tile.spec b.unmarked gs) := by
  induction gs generalizing b r depth with
  | nil =>
    obtain ⟨depth, rfl⟩ : ∃ d, depth = d + 1 := ⟨depth - 1, by omega⟩
    have hnil := List.map_eq_nil_iff.mp hrest
    have hend : argStart c r.current = .none := argStart_of_eof (by rw [Reader.current, hnil]; exact hlast)
    rw [readArgs]
    simp only [hend]
    exact ⟨rfl, hnil, rfl, rfl⟩
  | cons g gs ih =>
    obtain ⟨depth, rfl⟩ : ∃ d, depth = d + 3 := ⟨depth - 3, by omega⟩
    simp only [List.length_cons] at hdepth
    obtain ⟨more, hmore, hturn⟩ := exists_turn rule tile depth b hvalid hlast hrest
    rw [giveAll_cons]
    cases hgive : give tile.spec b.unmarked g with
    | none =>
      rw [hgive] at hturn
      exact hturn
    | some b' =>
      rw [hgive] at hturn
      obtain ⟨b'', r', hread, rfl, hpast⟩ := hturn
      rw [hread]
      exact hpast.comes (ih (depth + 2) (fun g' hg' => hvalid g' (List.mem_cons_of_mem g hg'))
        (hpast.last ▸ hlast) (hpast.rest ▸ hmore) (by omega))

end

/-! ## Rows -/

/-- A row is the word of a tile and what is given to it. -/
def Spells (row : Text.Source) (tile : Tile) (gs : List Given) : Prop :=
  (tokens row).map Token.unplaced = wordToken tile.id :: gs.flatMap Given.tokens ++ [{ kind := .eof }]

section

variable {c : Catalog} {row : Text.Source} {tile : Tile} {gs : List Given}

theorem Spells.rest (h : Spells row tile gs) (lastId : Nat) (diags : Diagnostics) :
    ∃ t more, (Reader.start row lastId diags).rest = t :: more ∧
      t.unplaced = wordToken tile.id ∧ more.map Token.unplaced = gs.flatMap Given.tokens := by
  unfold Spells at h
  rw [(start_of_tokens row lastId diags).1, List.map_append] at h
  obtain ⟨t, more, hrest, ht, hmore⟩ := List.map_eq_cons_iff.mp (List.append_inj_left' h rfl)
  exact ⟨t, more, hrest, ht, hmore⟩

theorem length_le_tokens (gs : List Given) : gs.length ≤ (gs.flatMap Given.tokens).length := by
  induction gs with
  | nil => simp
  | cons g gs ih =>
    cases g <;> simp only [List.flatMap_cons, Given.tokens, List.length_append, List.length_cons] <;> omega

section

variable {rule : String} {t : Token} {more : List Token} {r out : Reader} {bound : Bound} {depth : Nat}
  (htile : c.get? tile.id = some tile) (hcall : tile.kind = .sensor ∨ tile.kind = .actuator)
  (hrest : r.rest = t :: more) (ht : t.unplaced = wordToken tile.id)
  (hargs : readArgs c rule depth tile [] (r.advance.mark t.pos).2 = (bound, out))
include htile hcall hrest ht hargs

theorem readUnary_call : readUnary c rule (depth + 2) r =
    readFields out.rest.length (.call (r.advance.mark t.pos).1 tile bound.args) out := by
  have hword : t.kind = .word := Token.kind_of_unplaced ht
  have hid : t.literal = tile.id := Token.literal_of_unplaced ht
  have hprimary : readPrimary c rule (depth + 1) r = (.call (r.advance.mark t.pos).1 tile bound.args, out) := by
    rw [readPrimary]
    simp only [Reader.current_of_rest hrest, hword, hid, htile]
    rcases hcall with hkind | hkind <;> simp only [hkind, hargs]
  rw [readUnary]
  simp only [Reader.current_of_rest hrest, hword, hprimary]

/-- If no operator follows, the call is all that is read. -/
theorem readExpr_call (hpull : out.current.kind.pull = 0) :
    readExpr c rule (depth + 3) assignPower r = (.call (r.advance.mark t.pos).1 tile bound.args, out) := by
  rw [readExpr, readUnary_call htile hcall hrest ht hargs, readFields_of_pull (by rw [hpull]; exact Nat.zero_le _)]
  exact readOperators_of_pull (by rw [hpull]; decide)

theorem onward_readExpr_call : out.Onward (readExpr c rule (depth + 3) assignPower r).2 := by
  rw [readExpr, readUnary_call htile hcall hrest ht hargs]
  exact ((Reader.Onward.refl out).fields _ _).trans ((readings c rule _).operators _ _ _).onward

end

/-- A tile is called with what is given to it. Something is wrong with the row if there is no slot for some of it. -/
theorem readRow_given (htile : c.get? tile.id = some tile) (hcall : tile.kind = .sensor ∨ tile.kind = .actuator)
    (hvalid : ∀ g ∈ gs, g.Valid c) (hrow : Spells row tile gs) (rule : String) (lastId : Nat)
    (diags : Diagnostics) :
    match giveAll tile.spec [] gs with
    | some b => (readRow c rule row lastId diags).2.diags = diags ∧
        ∃ m args, (readRow c rule row lastId diags).1 = .call m tile args ∧ args.unmarked = b.args
    | none => diags.length < (readRow c rule row lastId diags).2.diags.length := by
  have hlast := (start_of_tokens row lastId diags).2
  obtain ⟨t, more, hrest, ht, hmore⟩ := hrow.rest lastId diags
  unfold readRow Reader.readAll
  have hdiags : (Reader.start row lastId diags).diags = diags := rfl
  generalize Reader.start row lastId diags = r at hlast hrest hdiags ⊢
  have hlength := length_le_tokens gs
  rw [← hmore, List.length_map] at hlength
  obtain ⟨depth, hdepth⟩ : ∃ d, 8 * r.rest.length + 8 = d + 3 := ⟨8 * r.rest.length + 5, by omega⟩
  rw [if_neg (by simp [hrest]), hdepth]
  have hmany : gs.length + 3 ≤ depth := by
    rw [hrest, List.length_cons] at hdepth
    omega
  have hnext : (r.advance.mark t.pos).2.rest = more := Reader.rest_advance hrest
  have hcomes := readArgs_given rule tile depth hvalid (b := []) (r := (r.advance.mark t.pos).2) hlast
    (hnext ▸ hmore) hmany
  rw [show Bound.unmarked [] = [] from rfl] at hcomes
  have honward := ((readings c rule depth).args tile [] (r.advance.mark t.pos).2).onward
  obtain ⟨⟨bound, out⟩, hargs⟩ : ∃ x, readArgs c rule depth tile [] (r.advance.mark t.pos).2 = x := ⟨_, rfl⟩
  rw [hargs] at hcomes honward
  cases hgiven : giveAll tile.spec [] gs with
  | some b =>
    rw [hgiven] at hcomes
    obtain ⟨hbound, hpast⟩ : bound.unmarked = b ∧ (r.advance.mark t.pos).2.Past out [] := hcomes
    have hend : out.current.kind.pull = 0 := by
      rw [Reader.current, hpast.rest, List.headD_nil, hpast.last]
      exact congrArg TokenKind.pull hlast
    simp only [readExpr_call htile hcall hrest ht hargs hend, hpast.rest, List.map_nil, List.append_nil]
    exact ⟨hpast.diags.trans hdiags, _, _, rfl, by rw [unmarked_args, hbound]⟩
  | none =>
    rw [hgiven] at hcomes
    simp only [List.length_append, List.length_map]
    rw [← hdiags]
    obtain hreported | ⟨t', more', hleft, hpull⟩ := hcomes
    · have hle := (onward_readExpr_call htile hcall hrest ht hargs).diags.length_le
      have hlt : r.diags.length < out.diags.length := hreported
      omega
    · have hle : r.diags.length ≤ out.diags.length := honward.diags.length_le
      rw [readExpr_call htile hcall hrest ht hargs (by rw [Reader.current_of_rest hleft, hpull]), hleft,
        List.length_cons]
      simp only
      omega

end

end Row
end TileMind
