import TileMind.Proofs.Row.Lexing

/-!
# TileMind.Proofs.Row.Tokens

Where tokens stand, and which strings they carry. A place is counted up glyph by glyph: after a newline the next
glyph is the first one of another line. At the end of a row the count stays on the last line, and there only the end
of the row is read.

Every text can be written as a string, with a backslash in front of quotes and backslashes; newlines and tabs may
stand as they are or be written as letters behind a backslash. Only a NUL cannot be written, since a row ends there.

* `Position.behind`: the place behind the glyphs at the front of a row.
* `Position.after_behind`: counting up one glyph leads from such a place to the next.
* `token_positions`: tokens stand at these places.
* `stringBody_quotes`: a string is read up to its closing quote, whichever way it is written.
* `says_quotes`: a row that is one literal.
* `quoted_literals`: two ways of writing a text.
-/

namespace TileMind
namespace Row

open Text

/-! ## Places -/

def isNewline (g : Glyph) : Bool := g.shown = '\n'

/-- The glyphs after the last newline. -/
def lastLine (front : List Glyph) : List Glyph := front.rtakeWhile fun g => !isNewline g

/-- The place behind the glyphs at the front of a row. -/
def Position.behind (front : List Glyph) : Position :=
  ⟨(bytesOfGlyphs front).length, 1 + front.countP isNewline, 1 + (lastLine front).length⟩

theorem lastLine_concat (front : List Glyph) (g : Glyph) :
    lastLine (front ++ [g]) = if isNewline g then [] else lastLine front ++ [g] := by
  unfold lastLine
  split
  · rename_i hg
    exact List.rtakeWhile_concat_neg _ _ _ (by simp [hg])
  · rename_i hg
    exact List.rtakeWhile_concat_pos _ _ _ (by simp [hg])

/-- Another glyph leads to the next place, if the row goes on behind it. -/
theorem Position.after_behind (front : List Glyph) (g : Glyph) {rest : List Glyph} (hrest : rest ≠ []) :
    (Position.behind front).after g rest = .behind (front ++ [g]) := by
  have hsize : (bytesOfGlyphs (front ++ [g])).length = (bytesOfGlyphs front).length + g.size := by
    simp [length_bytesOfGlyphs]
  unfold Position.after
  by_cases hg : g.shown = '\n'
  · have hnewline : isNewline g = true := by simpa [isNewline] using hg
    simp [Position.behind, hsize, lastLine_concat, hg, hnewline, hrest, Nat.add_assoc]
  · have hnewline : isNewline g = false := by simpa [isNewline] using hg
    simp [Position.behind, hsize, lastLine_concat, hg, hnewline, Nat.add_assoc]

/-- Whatever is read from a place on stands at such a place itself. Nothing is said about the place where the
glyphs end: only the end of the row is read there. -/
theorem behind_of_mem_tokensFrom {t : Token} (hkind : t.kind ≠ .eof) (gs : List Glyph) (skip : Nat)
    {front : List Glyph} {pos : Position} (hpos : gs ≠ [] → pos = .behind front)
    (ht : t ∈ tokensFrom skip gs pos) :
    ∃ before after, front ++ gs = before ++ after ∧ after ≠ [] ∧ t.pos = .behind before := by
  induction gs generalizing skip front pos with
  | nil =>
    rw [tokensFrom, List.mem_singleton] at ht
    exact absurd (congrArg Token.kind ht) hkind
  | cons g rest ih =>
    have hplace : pos = .behind front := hpos (List.cons_ne_nil g rest)
    -- The rest of the row is read from the place behind `g` on.
    have hrest (skip : Nat) (h : t ∈ tokensFrom skip rest (pos.after g rest)) :
        ∃ before after, front ++ g :: rest = before ++ after ∧ after ≠ [] ∧ t.pos = .behind before := by
      have hnext (hne : rest ≠ []) : pos.after g rest = .behind (front ++ [g]) := by
        rw [hplace, Position.after_behind front g hne]
      obtain ⟨before, after, hsplit, hback⟩ := ih skip hnext h
      exact ⟨before, after, by simpa using hsplit, hback⟩
    cases skip with
    | succ skip => exact hrest skip ht
    | zero =>
      rw [tokensFrom] at ht
      split at ht
      · exact hrest 0 ht
      · dsimp only at ht
        have hhere : ∃ before after, front ++ g :: rest = before ++ after ∧ after ≠ [] ∧ pos = .behind before :=
          ⟨front, g :: rest, rfl, List.cons_ne_nil g rest, hplace⟩
        split at ht
        · rw [List.mem_singleton.mp ht]
          exact hhere
        · rcases List.mem_cons.mp ht with rfl | hlater
          · exact hhere
          · exact hrest _ hlater

/-- Every token of a row other than its end, those that complain of something included, stands behind some glyphs
and in front of others. Its offset is the number of bytes before it, its line one more than the number of newlines
among the glyphs before it, and its column one more than the number of glyphs after the last of these. -/
theorem token_positions (bs : List UInt8) {t : Token} (ht : t ∈ tokens (decode bs)) (hkind : t.kind ≠ .eof) :
    ∃ before after, decode bs = before ++ after ∧ after ≠ [] ∧
      bytesOfGlyphs before = bs.take t.pos.offset ∧ t.pos.offset = (bytesOfGlyphs before).length ∧
      t.pos.line = 1 + before.countP isNewline ∧ t.pos.column = 1 + (lastLine before).length := by
  have hstart : (⟨0, 1, 1⟩ : Position) = .behind [] := rfl
  obtain ⟨before, after, hsplit, hafter, hpos⟩ :=
    behind_of_mem_tokensFrom hkind (decode bs) 0 (fun _ => hstart) ht
  rw [List.nil_append] at hsplit
  have hbytes : bytesOfGlyphs before ++ bytesOfGlyphs after = bs := by
    rw [← bytesOfGlyphs_append, ← hsplit, bytesOfGlyphs_decode]
  refine ⟨before, after, hsplit, hafter, ?_, ?_, ?_, ?_⟩
  all_goals rw [hpos]
  · conv_rhs => rw [← hbytes]
    exact (List.take_left' rfl).symm
  all_goals rfl

/-- A string over two lines, with a byte on the second one that is part of no character, and an error behind it. -/
def brokenRow : List UInt8 := [0x22, 0x61, 0x0A, 0xFF, 0xC3, 0xA9, 0x22, 0x20, 0x7C]

theorem token_positions_broken :
    (⟨.error, "unexpected '|'", ⟨8, 2, 5⟩⟩ : Token) ∈ tokens (decode brokenRow) ∧
      ∃ before after, decode brokenRow = before ++ after ∧ after ≠ [] ∧
        bytesOfGlyphs before = brokenRow.take 8 ∧ 8 = (bytesOfGlyphs before).length ∧
        2 = 1 + before.countP isNewline ∧ 5 = 1 + (lastLine before).length := by
  have hmem : (⟨.error, "unexpected '|'", ⟨8, 2, 5⟩⟩ : Token) ∈ tokens (decode brokenRow) := by decide
  exact ⟨hmem, token_positions brokenRow hmem (by decide)⟩

/-! ## Writing -/

/-- A character between quotes. Quotes and backslashes are preceded by a backslash. -/
def protect (c : Char) : List Char := if c = '"' ∨ c = '\\' then ['\\', c] else [c]

/-- A character between quotes, newlines and tabs being written as letters. -/
def spellOut (c : Char) : List Char :=
  if c = '\n' then ['\\', 'n'] else if c = '\t' then ['\\', 't'] else protect c

def literal (write : Char → List Char) (s : String) : String :=
  String.ofList ('"' :: s.toList.flatMap write ++ ['"'])

theorem quotes_protect {c : Char} (hc : isEnd c = false) {body text : List Char} (h : Quotes body text) :
    Quotes (c :: body) (protect c ++ text) := by
  unfold protect
  split
  · rename_i hspecial
    have hself : unescape c = c := by rcases hspecial with rfl | rfl <;> decide
    simpa [hself] using Quotes.escaped hc h
  · rename_i hspecial
    exact .plain (not_or.mp hspecial) hc h

theorem quotes_spellOut {c : Char} (hc : isEnd c = false) {body text : List Char} (h : Quotes body text) :
    Quotes (c :: body) (spellOut c ++ text) := by
  unfold spellOut
  split
  · rename_i hnewline
    rw [hnewline]
    exact Quotes.escaped (e := 'n') rfl h
  · split
    · rename_i htab
      rw [htab]
      exact Quotes.escaped (e := 't') rfl h
    · exact quotes_protect hc h

/-- Character by character a text is written. -/
theorem quotes_flatMap {write : Char → List Char} {cs : List Char}
    (hwrite : ∀ c ∈ cs, ∀ body text, Quotes body text → Quotes (c :: body) (write c ++ text)) :
    Quotes cs (cs.flatMap write) := by
  induction cs with
  | nil => exact .nil
  | cons c cs ih =>
    obtain ⟨hc, hcs⟩ := List.forall_mem_cons.mp hwrite
    rw [List.flatMap_cons]
    exact hc _ _ (ih hcs)

/-! ## Reading -/

theorem stringBody_quotes {body text : List Char} (h : Quotes body text) (rest : List Char) :
    stringBody (text ++ '"' :: rest) = (some body, text.length + 1) := by
  induction h with
  | nil =>
    rw [List.nil_append, stringBody.eq_def]
    rfl
  | plain hc hend _ ih =>
    rw [List.cons_append, stringBody.eq_def]
    simp [hc.1, hc.2, hend, ih]
  | escaped hend _ ih =>
    rw [List.cons_append, List.cons_append, stringBody.eq_def]
    simp [show isEnd '\\' = false from rfl, hend, ih]

theorem lexeme_quotes {body text : List Char} (h : Quotes body text) :
    lexeme ('"' :: text ++ ['"']) = ⟨.string, String.ofList body, text.length + 2⟩ := by
  rw [List.cons_append, lexeme]
  simp [show isEnd '"' = false from rfl, stringBody_quotes h]

/-- A row that is read as one string, and then ends with its last byte. -/
def Says (row text : String) : Prop :=
  ∃ last : Position, last.offset = (bytes row).length ∧
    tokens (decode (bytes row)) = [⟨.string, text, ⟨0, 1, 1⟩⟩, ⟨.eof, "", last⟩]

/-- Between quotes a text stands for what it is read as. Escapes may be mixed with characters that need none. -/
theorem says_quotes {body text : List Char} (h : Quotes body text) :
    Says (String.ofList ('"' :: text ++ ['"'])) (String.ofList body) := by
  let row := String.ofList ('"' :: text ++ ['"'])
  let inner : List Glyph := (text ++ ['"']).map .char
  have hglyphs : decode (bytes row) = .char '"' :: inner := by simp [row, inner, decode_bytes]
  have hshown : Glyph.shown (.char '"') :: inner.map Glyph.shown = '"' :: text ++ ['"'] := by
    simp [inner, Glyph.shown, Function.comp_def]
  have hlength : text.length + 2 - 1 = inner.length := by simp [inner]
  obtain ⟨last, hoffset, hskip⟩ := tokensFrom_skip inner [] (Position.after ⟨0, 1, 1⟩ (.char '"') inner)
  refine ⟨last, ?_, ?_⟩
  · rw [hoffset, Position.offset_after, ← bytesOfGlyphs_decode (bytes row), length_bytesOfGlyphs, hglyphs]
    simp [sizes]
  · rw [List.append_nil] at hskip
    rw [hglyphs, tokens, tokensFrom, if_neg (by decide), hshown, lexeme_quotes h]
    simp [hlength, hskip, tokensFrom]

/-- Every text without a NUL is said by a row: between quotes, with a backslash in front of its quotes and
backslashes. Writing its newlines and tabs as letters gives another row that says it. -/
theorem quoted_literals (s : String) (hs : ∀ c ∈ s.toList, c ≠ Char.ofNat 0) :
    Says (literal protect s) s ∧ Says (literal spellOut s) s := by
  have hends : ∀ c ∈ s.toList, isEnd c = false := by
    intro c hc
    have hne : c.toNat ≠ 0 := fun h => hs c hc (by rw [← Char.ofNat_toNat c, h])
    simpa [isEnd] using hne
  have hprotect : Quotes s.toList (s.toList.flatMap protect) :=
    quotes_flatMap fun c hc _ _ => quotes_protect (hends c hc)
  have hspell : Quotes s.toList (s.toList.flatMap spellOut) :=
    quotes_flatMap fun c hc _ _ => quotes_spellOut (hends c hc)
  have hboth := And.intro (says_quotes hprotect) (says_quotes hspell)
  rwa [String.ofList_toList] at hboth

theorem quoted_literals_mixed :
    literal spellOut "\"\\\né" = "\"\\\"\\\\\\né\"" ∧
      Says (literal protect "\"\\\né") "\"\\\né" ∧ Says (literal spellOut "\"\\\né") "\"\\\né" :=
  ⟨by decide +kernel, quoted_literals _ (by simp)⟩

end Row
end TileMind
