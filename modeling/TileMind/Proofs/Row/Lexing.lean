import Mathlib
import TileMind.Proofs.Text.Decoding
import TileMind.Row.Token

/-!
# TileMind.Proofs.Row.Lexing

Cutting a row into tokens leaves nothing out, whatever bytes it is made of. Every token is spelled by the glyphs that
it takes, nothing but blanks stands between two tokens, and the last one stands where the row ends: after its last
byte, or at a NUL character before that.

* `Quotes`, `Spelling`: how tokens are written.
* `lexeme_reads`: a lexeme is spelled by the characters it takes.
* `Span`, `Laid`, `Cut`: tokens with the glyphs they stand for, one after the other up to the end of a row.
* `tokensFrom_cut`: reading cuts what is left of a row in this way.
* `tokens_account`: what becomes of the bytes of a row.
-/

namespace TileMind
namespace Row

open Text

/-! ## How tokens are written -/

/-- How the text of a string is written between its quotes. -/
inductive Quotes : (body text : List Char) → Prop where
  | nil : Quotes [] []
  | plain {c : Char} {body text : List Char} (hc : c ≠ '"' ∧ c ≠ '\\') (hend : isEnd c = false) :
      Quotes body text → Quotes (c :: body) (c :: text)
  | escaped {e : Char} {body text : List Char} (hend : isEnd e = false) :
      Quotes body text → Quotes (unescape e :: body) ('\\' :: e :: text)

/-- Whether a token has one spelling only. -/
def TokenKind.isSign : TokenKind → Bool
  | .eof | .error | .number | .string | .word | .variable | .truth | .falsity | .nil => false
  | _ => true

/-- How a token is written. An error stands for the character it complains of, or for a string without its end. -/
inductive Spelling : TokenKind → (literal : String) → (text : List Char) → Prop where
  | sign {kind : TokenKind} (h : kind.isSign = true) : Spelling kind kind.name kind.name.toList
  | whole {digits : List Char} (hne : digits ≠ []) (h : ∀ c ∈ digits, isDigit c = true) :
      Spelling .number (String.ofList digits) digits
  | fraction {digits decimals : List Char} (h : ∀ c ∈ digits, isDigit c = true) (hne : decimals ≠ [])
      (h' : ∀ c ∈ decimals, isDigit c = true) :
      Spelling .number (String.ofList (digits ++ '.' :: decimals)) (digits ++ '.' :: decimals)
  | quoted {body text : List Char} (h : Quotes body text) :
      Spelling .string (String.ofList body) ('"' :: text ++ ['"'])
  | named {name : List Char} (hne : name ≠ []) (h : ∀ c ∈ name, isWordChar c = true) :
      Spelling .variable (String.ofList name) ('$' :: name)
  | word {c : Char} {cs : List Char} (hc : isWordStart c = true) (h : ∀ c ∈ cs, isWordChar c = true) :
      Spelling (wordKind (String.ofList (c :: cs))) (String.ofList (c :: cs)) (c :: cs)
  | unterminated {body text escape : List Char} (h : Quotes body text) (hescape : escape = [] ∨ escape = ['\\']) :
      Spelling .error "unterminated string" ('"' :: text ++ escape)
  | single {c : Char} (h : c = '|' ∨ c = '&') : Spelling .error ("unexpected '" ++ c.toString ++ "'") [c]
  | dollar : Spelling .error "expected variable name after '$'" ['$']
  | unknown {c : Char} (hend : isEnd c = false) : Spelling .error ("unexpected character " ++ c.toString) [c]

theorem isEnd_of_test {p : Char → Bool} (hp : p (Char.ofNat 0) = false) {c : Char} (h : p c = true) :
    isEnd c = false := by
  rw [isEnd, decide_eq_false_iff_not]
  intro hc
  rw [← Char.ofNat_toNat c, hc, hp] at h
  cases h

theorem isEnd_of_digit {c : Char} (h : isDigit c = true) : isEnd c = false := isEnd_of_test (by decide) h

theorem isEnd_of_wordChar {c : Char} (h : isWordChar c = true) : isEnd c = false := isEnd_of_test (by decide) h

theorem isEnd_of_blank {c : Char} (h : isBlank c = true) : isEnd c = false := isEnd_of_test (by decide) h

namespace Spelling

variable {kind : TokenKind} {literal : String} {text : List Char}

theorem kind_ne (h : Spelling kind literal text) : kind ≠ .eof := by
  cases h with
  | sign h => rintro rfl; cases h
  | word hc h => unfold wordKind; split_ifs <;> simp
  | _ => simp

theorem ne_nil (h : Spelling kind literal text) : text ≠ [] := by
  cases h with
  | sign h => cases kind <;> decide
  | whole hne h => exact hne
  | _ => simp

theorem isEnd_of_quotes {body text : List Char} (h : Quotes body text) : ∀ c ∈ text, isEnd c = false := by
  induction h with
  | nil => simp
  | plain hc hend _ ih => simpa [hend] using ih
  | escaped hend _ ih => simpa [hend, show isEnd '\\' = false from rfl] using ih

theorem isEnd_of_mem (h : Spelling kind literal text) : ∀ c ∈ text, isEnd c = false := by
  cases h with
  | sign h => cases kind <;> simp [TokenKind.name, isEnd]
  | whole hne h => exact fun c hc => isEnd_of_digit (h c hc)
  | fraction h hne h' =>
    intro c hc
    rcases List.mem_append.mp hc with hc | hc
    · exact isEnd_of_digit (h c hc)
    · rcases List.mem_cons.mp hc with rfl | hc
      · rfl
      · exact isEnd_of_digit (h' c hc)
  | quoted h =>
    intro c hc
    simp only [List.cons_append, List.mem_cons, List.mem_append, List.not_mem_nil, or_false] at hc
    rcases hc with rfl | hc | rfl
    · rfl
    · exact isEnd_of_quotes h c hc
    · rfl
  | named hne h =>
    intro c hc
    rcases List.mem_cons.mp hc with rfl | hc
    · rfl
    · exact isEnd_of_wordChar (h c hc)
  | word hc h =>
    rintro c hmem
    rcases List.mem_cons.mp hmem with rfl | hmem
    · exact isEnd_of_wordChar (by simp [isWordChar, hc])
    · exact isEnd_of_wordChar (h c hmem)
  | unterminated h hescape =>
    intro c hc
    simp only [List.cons_append, List.mem_cons, List.mem_append] at hc
    rcases hc with rfl | hc | hc
    · rfl
    · exact isEnd_of_quotes h c hc
    · rcases hescape with rfl | rfl
      · cases hc
      · rw [List.mem_singleton.mp hc]
        rfl
  | single h => rcases h with rfl | rfl <;> simp [isEnd]
  | dollar => simp [isEnd]
  | unknown hend => simpa using hend

end Spelling

/-! ## One lexeme -/

/-- What was read is a string up to its closing quote, or all there is of one. -/
def StringRead (cs : List Char) : Option (List Char) × Nat → Prop
  | (some body, n) => ∃ text more, cs = text ++ '"' :: more ∧ n = text.length + 1 ∧ Quotes body text
  | (none, n) => ∃ body text escape more, cs = text ++ escape ++ more ∧ n = text.length + escape.length ∧
      Quotes body text ∧ (escape = [] ∨ escape = ['\\'])

theorem StringRead.after {cs : List Char} {body : Option (List Char)} {n : Nat} (h : StringRead cs (body, n))
    {c : Char} (front : List Char) (hfront : ∀ body text, Quotes body text → Quotes (c :: body) (front ++ text)) :
    StringRead (front ++ cs) (body.map (c :: ·), n + front.length) := by
  cases body with
  | some body =>
    obtain ⟨text, more, rfl, rfl, hquotes⟩ := h
    exact ⟨front ++ text, more, by simp, by simp; omega, hfront _ _ hquotes⟩
  | none =>
    obtain ⟨body, text, escape, more, rfl, rfl, hquotes, hescape⟩ := h
    exact ⟨c :: body, front ++ text, escape, more, by simp, by simp; omega, hfront _ _ hquotes, hescape⟩

theorem stringBody_reads (cs : List Char) : StringRead cs (stringBody cs) := by
  fun_induction stringBody cs with
  | case1 => exact ⟨[], [], [], [], rfl, rfl, .nil, .inl rfl⟩
  | case2 rest => exact ⟨[], rest, rfl, rfl, .nil⟩
  | case3 c rest hc hend => exact ⟨[], [], [], c :: rest, rfl, rfl, .nil, .inl rfl⟩
  | case4 hquote hend => exact ⟨[], [], ['\\'], [], rfl, rfl, .nil, .inr rfl⟩
  | case5 e rest hend' hquote hend => exact ⟨[], [], ['\\'], e :: rest, rfl, rfl, .nil, .inr rfl⟩
  | case6 e rest hend' body n hbody hquote hend ih =>
    rw [hbody] at ih
    exact ih.after ['\\', e] fun _ _ => .escaped (Bool.eq_false_iff.mpr hend')
  | case7 c rest hc hend hslash body n hbody ih =>
    rw [hbody] at ih
    exact ih.after [c] fun _ _ => .plain ⟨hc, hslash⟩ (Bool.eq_false_iff.mpr hend)

/-- After its point a number is made of digits. -/
theorem numberLength_true (cs : List Char) : numberLength true cs = (cs.takeWhile isDigit).length := by
  induction cs with
  | nil => rfl
  | cons c cs ih => by_cases hc : isDigit c = true <;> simp [numberLength, hc, ih]

/-- A number is made of digits, and of a point and more digits if both are there. -/
theorem numberLength_false (cs : List Char) : ∃ digits more, cs = digits ++ more ∧ (∀ c ∈ digits, isDigit c = true) ∧
    (numberLength false cs = digits.length ∨
      ∃ decimals more', more = '.' :: decimals ++ more' ∧ decimals ≠ [] ∧ (∀ c ∈ decimals, isDigit c = true) ∧
        numberLength false cs = (digits ++ '.' :: decimals).length) := by
  induction cs with
  | nil => exact ⟨[], [], rfl, by simp, .inl rfl⟩
  | cons c cs ih =>
    by_cases hc : isDigit c = true
    · obtain ⟨digits, more, rfl, hdigits, hlength⟩ := ih
      refine ⟨c :: digits, more, rfl, by simpa [hc] using hdigits, ?_⟩
      rcases hlength with hlength | ⟨decimals, more', rfl, hne, hdecimals, hlength⟩
      · exact .inl (by simp [numberLength, hc, hlength])
      · refine .inr ⟨decimals, more', rfl, hne, hdecimals, ?_⟩
        rw [numberLength, if_pos hc, hlength]
        rfl
    · refine ⟨[], c :: cs, rfl, by simp, ?_⟩
      by_cases hpoint : (c = '.' && (cs.head?.map isDigit).getD false) = true
      · simp only [Bool.and_eq_true, decide_eq_true_eq] at hpoint
        obtain ⟨rfl, hnext⟩ := hpoint
        refine .inr ⟨cs.takeWhile isDigit, cs.dropWhile isDigit, ?_, ?_, fun c => List.mem_takeWhile_imp, ?_⟩
        · rw [List.cons_append, List.takeWhile_append_dropWhile]
        · cases cs with
          | nil => cases hnext
          | cons d cs => simp [List.takeWhile_cons_of_pos (show isDigit d = true from hnext)]
        · simp [numberLength, hc, hnext, numberLength_true]
      · refine .inl ?_
        rw [numberLength, if_neg hc, Bool.not_false, Bool.and_true, if_neg hpoint]
        rfl

/-- A lexeme is spelled by the characters at the front of a list. -/
def Lexeme.Reads (l : Lexeme) (cs : List Char) : Prop :=
  ∃ text more, cs = text ++ more ∧ l.length = text.length ∧ Spelling l.kind l.literal text

theorem symbol_reads {kind : TokenKind} (h : kind.isSign = true) {cs : List Char}
    (hcs : kind.name.toList <+: cs) : (symbol kind).Reads cs := by
  obtain ⟨more, rfl⟩ := hcs
  exact ⟨_, more, rfl, by rw [String.length_toList]; rfl, .sign h⟩

theorem pairOr_reads {c second : Char} {pair single : TokenKind} (hpair : pair.isSign = true)
    (hsingle : single.isSign = true) (hname : pair.name.toList = [c, second]) (hname' : single.name.toList = [c])
    (rest : List Char) : (pairOr second pair single rest).Reads (c :: rest) := by
  unfold pairOr
  split
  · rename_i hhead
    obtain ⟨more, rfl⟩ := List.head?_eq_some_iff.mp hhead
    exact symbol_reads hpair (by rw [hname]; exact ⟨more, rfl⟩)
  · exact symbol_reads hsingle (by rw [hname']; exact ⟨rest, rfl⟩)

theorem doubled_reads {c : Char} {kind : TokenKind} (hkind : kind.isSign = true) (hname : kind.name.toList = [c, c])
    (hc : c = '|' ∨ c = '&') (rest : List Char) : (doubled c kind rest).Reads (c :: rest) := by
  unfold doubled
  split
  · rename_i hhead
    obtain ⟨more, rfl⟩ := List.head?_eq_some_iff.mp hhead
    exact symbol_reads hkind (by rw [hname]; exact ⟨more, rfl⟩)
  · exact ⟨[c], rest, rfl, rfl, .single hc⟩

theorem number_reads {c : Char} {rest : List Char}
    (hc : isDigit c = true ∨ c = '.' ∧ (rest.head?.map isDigit).getD false = true) :
    Lexeme.Reads ⟨.number, String.ofList ((c :: rest).take (numberLength false (c :: rest))),
      numberLength false (c :: rest)⟩ (c :: rest) := by
  obtain ⟨digits, more, hcs, hdigits, hlength | ⟨decimals, more', rfl, hne, hdecimals, hlength⟩⟩ :=
    numberLength_false (c :: rest)
  · refine ⟨digits, more, hcs, hlength, ?_⟩
    dsimp only
    rw [hlength, hcs, List.take_left]
    refine .whole ?_ hdigits
    rintro rfl
    have hdot : ¬ isDigit '.' = true := by decide
    rcases hc with hc | ⟨rfl, hnext⟩
    · simp [numberLength, hc] at hlength
    · simp [numberLength, hdot, hnext] at hlength
  · have hcs : c :: rest = (digits ++ '.' :: decimals) ++ more' := by simpa using hcs
    refine ⟨digits ++ '.' :: decimals, more', hcs, hlength, ?_⟩
    dsimp only
    rw [hlength, hcs, List.take_left]
    exact .fraction hdigits hne hdecimals

theorem word_reads {c : Char} {rest : List Char} (hc : isWordStart c = true) :
    Lexeme.Reads ⟨wordKind (String.ofList ((c :: rest).takeWhile isWordChar)),
      String.ofList ((c :: rest).takeWhile isWordChar), ((c :: rest).takeWhile isWordChar).length⟩ (c :: rest) := by
  rw [List.takeWhile_cons_of_pos (by simp [isWordChar, hc])]
  refine ⟨c :: rest.takeWhile isWordChar, rest.dropWhile isWordChar, ?_, rfl,
    .word hc fun c => List.mem_takeWhile_imp⟩
  rw [List.cons_append, List.takeWhile_append_dropWhile]

/-- A lexeme is the end, or it is spelled by the characters it takes. -/
theorem lexeme_reads (cs : List Char) :
    (lexeme cs).kind = .eof ∧ (∀ c ∈ cs.head?, isEnd c = true) ∨ (lexeme cs).Reads cs := by
  have hone {c : Char} {kind : TokenKind} (hkind : kind.isSign = true) (hname : kind.name.toList = [c])
      (rest : List Char) : (symbol kind).Reads (c :: rest) :=
    symbol_reads hkind (by rw [hname]; exact ⟨rest, rfl⟩)
  fun_cases lexeme cs with
  | case1 => exact .inl ⟨rfl, by simp⟩
  | case2 c rest hend => exact .inl ⟨rfl, by simpa using hend⟩
  | case3 | case4 => exact .inr (hone rfl (by decide) _)
  | case5 c rest digitNext _ _ _ hdot =>
    simp only [Bool.and_eq_true, decide_eq_true_eq] at hdot
    rw [hdot.1]
    exact .inr (hone rfl (by decide) rest)
  | case6 | case7 | case8 | case9 => exact .inr (pairOr_reads rfl rfl (by decide) (by decide) _)
  | case10 => exact .inr (doubled_reads rfl (by decide) (.inl rfl) _)
  | case11 => exact .inr (doubled_reads rfl (by decide) (.inr rfl) _)
  | case12 | case13 | case14 | case15 | case16 => exact .inr (hone rfl (by decide) _)
  | case17 rest digitNext body n hbody =>
    obtain ⟨text, more, rfl, rfl, hquotes⟩ := hbody ▸ stringBody_reads rest
    exact .inr ⟨'"' :: text ++ ['"'], more, by simp, by simp, .quoted hquotes⟩
  | case18 rest digitNext n hbody =>
    obtain ⟨body, text, escape, more, rfl, rfl, hquotes, hescape⟩ := hbody ▸ stringBody_reads rest
    exact .inr ⟨'"' :: text ++ escape, more, by simp, by simp, .unterminated hquotes hescape⟩
  | case19 rest => exact .inr ⟨['$'], rest, rfl, rfl, .dollar⟩
  | case20 rest digitNext name hname =>
    refine .inr ⟨'$' :: name, rest.dropWhile isWordChar, ?_, by simp, .named ?_ fun c => List.mem_takeWhile_imp⟩
    · rw [List.cons_append, List.takeWhile_append_dropWhile]
    · rwa [List.isEmpty_iff] at hname
  | case21 c rest digitNext =>
    have hnumber : (isDigit c || c = '.') = true := ‹_›
    have hdot : ¬ (c = '.' && !digitNext) = true := ‹_›
    refine .inr (number_reads ?_)
    simp only [Bool.or_eq_true, decide_eq_true_eq] at hnumber
    refine hnumber.imp_right fun hc => ⟨hc, ?_⟩
    simpa [hc] using hdot
  | case22 => exact .inr (word_reads ‹_›)
  | case23 c rest digitNext hend => exact .inr ⟨[c], rest, rfl, rfl, .unknown (Bool.eq_false_iff.mpr hend)⟩

/-! ## A whole row -/

def sizes (gs : List Glyph) : Nat := (gs.map Glyph.size).sum

@[simp] theorem sizes_append (gs gs' : List Glyph) : sizes (gs ++ gs') = sizes gs + sizes gs' := by
  simp [sizes]

/-- A token, the glyphs it stands for, and the blanks in front of it. -/
structure Span where
  blanks : List Glyph
  text : List Glyph
  token : Token

namespace Span

def glyphs (s : Span) : List Glyph := s.blanks ++ s.text

/-- A token has no other than its own glyphs, and nothing but blanks stands in front of it. -/
structure Proper (s : Span) : Prop where
  blank : ∀ g ∈ s.blanks, isBlank g.shown = true
  spells : Spelling s.token.kind s.token.literal (s.text.map Glyph.shown)

end Span

/-- Spans that stand one after the other from a byte on. -/
inductive Laid : Nat → List Span → Prop where
  | nil (n : Nat) : Laid n []
  | cons {n : Nat} {s : Span} {spans : List Span} (hproper : s.Proper)
      (hoffset : s.token.pos.offset = n + sizes s.blanks) :
      Laid (n + sizes s.glyphs) spans → Laid n (s :: spans)

/-- What reading from a place on gives: spans, blanks after the last of them, and the end of the row after these. -/
structure Cut (pos : Position) (gs : List Glyph) where
  spans : List Span
  trail : List Glyph
  rest : List Glyph
  last : Token
  glyphs : gs = spans.flatMap Span.glyphs ++ trail ++ rest
  tokens : tokensFrom 0 gs pos = spans.map Span.token ++ [last]
  laid : Laid pos.offset spans
  blank : ∀ g ∈ trail, isBlank g.shown = true
  ended : ∀ g ∈ rest.head?, isEnd g.shown = true
  kind : last.kind = .eof
  offset : last.pos.offset = pos.offset + sizes (spans.flatMap Span.glyphs ++ trail)

theorem Position.offset_after (p : Position) (g : Glyph) (rest : List Glyph) :
    (p.after g rest).offset = p.offset + g.size := by
  unfold after
  split <;> rfl

theorem tokensFrom_skip (text rest : List Glyph) (pos : Position) : ∃ pos' : Position,
    pos'.offset = pos.offset + sizes text ∧ tokensFrom text.length (text ++ rest) pos = tokensFrom 0 rest pos' := by
  induction text generalizing pos with
  | nil => exact ⟨pos, rfl, rfl⟩
  | cons g text ih =>
    obtain ⟨pos', hoffset, heq⟩ := ih (pos.after g (text ++ rest))
    refine ⟨pos', ?_, heq⟩
    rw [hoffset, Position.offset_after]
    simp [sizes, Nat.add_assoc]

namespace Cut

variable {pos : Position} {g : Glyph} {gs : List Glyph}

/-- A blank belongs to what comes after it. -/
theorem behindBlank (c : Cut (pos.after g gs) gs) (hblank : isBlank g.shown = true) :
    Nonempty (Cut pos (g :: gs)) := by
  obtain ⟨spans, trail, rest, last, hglyphs, htokens, hlaid, htrail, hended, hkind, hoffset⟩ := c
  have htokens' : tokensFrom 0 (g :: gs) pos = spans.map Span.token ++ [last] := by
    rw [tokensFrom, if_pos hblank, htokens]
  rw [Position.offset_after] at hlaid hoffset
  cases hlaid with
  | nil =>
    refine ⟨[], g :: trail, rest, last, ?_, htokens', .nil _, ?_, hended, hkind, ?_⟩
    · simp [hglyphs]
    · simpa [hblank] using htrail
    · simp [hoffset, sizes, Nat.add_assoc]
  | @cons _ s spans hproper hs hlaid =>
    refine ⟨{ s with blanks := g :: s.blanks } :: spans, trail, rest, last,
      ?_, htokens', ?_, htrail, hended, hkind, ?_⟩
    · simp [hglyphs, Span.glyphs]
    · refine .cons ⟨by simpa [hblank] using hproper.blank, hproper.spells⟩ ?_ ?_
      · simp [hs, sizes, Nat.add_assoc]
      · simpa [Span.glyphs, sizes, Nat.add_assoc] using hlaid
    · simp [hoffset, sizes, Span.glyphs, Nat.add_assoc]

/-- A token stands in front of what comes after its glyphs. -/
theorem behindToken {rest : List Glyph} {pos' : Position} (c : Cut pos' rest) (text : List Glyph) (token : Token)
    (hoffset : pos'.offset = pos.offset + sizes text) (hpos : token.pos = pos)
    (hspells : Spelling token.kind token.literal (text.map Glyph.shown))
    (htokens : tokensFrom 0 (text ++ rest) pos = token :: tokensFrom 0 rest pos') :
    Nonempty (Cut pos (text ++ rest)) := by
  obtain ⟨spans, trail, more, last, hglyphs, htokens', hlaid, htrail, hended, hkind, hlast⟩ := c
  refine ⟨⟨[], text, token⟩ :: spans, trail, more, last, ?_, ?_, ?_, htrail, hended, hkind, ?_⟩
  · simp [hglyphs, Span.glyphs]
  · rw [htokens, htokens']
    rfl
  · refine .cons ⟨by simp, hspells⟩ (by simp [hpos, sizes]) ?_
    simpa [Span.glyphs, hoffset] using hlaid
  · simp [hlast, hoffset, Span.glyphs, Nat.add_assoc]

end Cut

/-- Reading from any place on cuts what is left into spans, up to its end. -/
theorem tokensFrom_cut (gs : List Glyph) (pos : Position) : Nonempty (Cut pos gs) := by
  induction hn : gs.length using Nat.strong_induction_on generalizing gs pos with
  | h n ih =>
    cases gs with
    | nil => exact ⟨[], [], [], _, rfl, rfl, .nil _, by simp, by simp, rfl, rfl⟩
    | cons g gs =>
      by_cases hblank : isBlank g.shown = true
      · obtain ⟨c⟩ := ih gs.length (by simp [← hn]) gs (pos.after g gs) rfl
        exact c.behindBlank hblank
      obtain ⟨heof, hend⟩ | ⟨text, more, hchars, hlength, hspells⟩ := lexeme_reads (g.shown :: gs.map Glyph.shown)
      · refine ⟨[], [], g :: gs, ⟨_, (lexeme (g.shown :: gs.map Glyph.shown)).literal, pos⟩, rfl, ?_, .nil _,
          by simp, by simpa using hend, heof, rfl⟩
        rw [tokensFrom, if_neg hblank, if_pos heof]
        rfl
      · -- The characters of the token are those of the first glyphs.
        obtain ⟨front, rest, hglyphs, rfl, rfl⟩ := List.map_eq_append_iff.mp
          (show (g :: gs).map Glyph.shown = text ++ more from hchars)
        cases front with
        | nil => exact absurd rfl hspells.ne_nil
        | cons g' front =>
          rw [List.cons_append, List.cons.injEq] at hglyphs
          obtain ⟨rfl, rfl⟩ := hglyphs
          obtain ⟨pos', hoffset, hskip⟩ := tokensFrom_skip front rest (pos.after g (front ++ rest))
          obtain ⟨c⟩ := ih rest.length (by simp [← hn]) rest pos' rfl
          refine c.behindToken (g :: front) ⟨_, _, pos⟩ ?_ rfl hspells ?_
          · rw [hoffset, Position.offset_after]
            simp [sizes, Nat.add_assoc]
          · rw [List.cons_append, tokensFrom, if_neg hblank, ← hskip]
            dsimp only
            rw [if_neg hspells.kind_ne, hlength]
            simp

/-! ## What becomes of the bytes -/

theorem sizes_pos {gs : List Glyph} (h : gs ≠ []) : 0 < sizes gs := by
  cases gs with
  | nil => exact absurd rfl h
  | cons g gs =>
    have hg : 0 < g.size := by
      cases g with
      | char c => exact c.utf8Size_pos
      | stray b => exact Nat.one_pos
    simp only [sizes, List.map_cons, List.sum_cons]
    omega

theorem Span.Proper.text_pos {s : Span} (h : s.Proper) : 0 < sizes s.text :=
  sizes_pos fun htext => h.spells.ne_nil (by rw [htext]; rfl)

/-- No glyph of a span is the end of the row. -/
theorem Span.Proper.isEnd_of_mem {s : Span} (h : s.Proper) {g : Glyph} (hg : g ∈ s.glyphs) :
    isEnd g.shown = false := by
  rcases List.mem_append.mp hg with hg | hg
  · exact isEnd_of_blank (h.blank g hg)
  · exact h.spells.isEnd_of_mem _ (List.mem_map_of_mem hg)

namespace Laid

variable {n : Nat} {spans : List Span}

theorem proper (h : Laid n spans) : ∀ s ∈ spans, s.Proper := by
  induction h with
  | nil => simp
  | cons hproper _ _ ih => simpa [hproper] using ih

/-- A token stands where the bytes before it end. -/
theorem offset_eq {before after : List Span} {s : Span} (h : Laid n (before ++ s :: after)) :
    s.token.pos.offset = n + sizes (before.flatMap Span.glyphs ++ s.blanks) := by
  induction before generalizing n with
  | nil =>
    cases h with
    | cons _ hoffset _ => exact hoffset
  | cons b before ih =>
    cases h with
    | cons _ _ hrest =>
      rw [ih hrest]
      simp [Nat.add_assoc]

theorem offset_lt (h : Laid n spans) :
    ∀ s ∈ spans, n ≤ s.token.pos.offset ∧ s.token.pos.offset < n + sizes (spans.flatMap Span.glyphs) := by
  intro s hs
  obtain ⟨before, after, rfl⟩ := List.append_of_mem hs
  have htext := (h.proper s hs).text_pos
  rw [h.offset_eq]
  simp only [List.flatMap_append, List.flatMap_cons, sizes_append, Span.glyphs]
  omega

theorem pairwise (h : Laid n spans) : (spans.map Span.token).Pairwise fun t t' => t.pos.offset < t'.pos.offset := by
  induction h with
  | nil => exact .nil
  | @cons n s spans hproper hoffset hrest ih =>
    refine .cons ?_ ih
    simp only [List.mem_map, forall_exists_index, and_imp, forall_apply_eq_imp_iff₂]
    intro s' hs'
    have hlow := (hrest.offset_lt s' hs').1
    have htext := hproper.text_pos
    simp only [Span.glyphs, sizes_append] at hlow
    omega

end Laid

/-- The glyphs that are cut into spans are those before the first NUL. -/
theorem Cut.takeWhile {pos : Position} {gs : List Glyph} (c : Cut pos gs) :
    gs.takeWhile (fun g => g.shown.toNat ≠ 0) = c.spans.flatMap Span.glyphs ++ c.trail := by
  have hread : ∀ g ∈ c.spans.flatMap Span.glyphs ++ c.trail, decide (g.shown.toNat ≠ 0) = true := by
    intro g hg
    have hend : isEnd g.shown = false := by
      rcases List.mem_append.mp hg with hg | hg
      · obtain ⟨s, hs, hg⟩ := List.mem_flatMap.mp hg
        exact (c.laid.proper s hs).isEnd_of_mem hg
      · exact isEnd_of_blank (c.blank g hg)
    simpa [isEnd] using hend
  conv_lhs => rw [c.glyphs]
  rw [List.takeWhile_append_of_pos hread]
  cases hrest : c.rest with
  | nil => simp
  | cons g rest =>
    have hend := c.ended g (by simp [hrest])
    rw [List.takeWhile_cons_of_neg (by simpa [isEnd] using hend), List.append_nil]

/-- The whole row is accounted for, up to a NUL character. Its tokens come in the order of their offsets, each spelled
by its own glyphs; only blanks stand between them and after the last of them, and together they are the bytes before
the first NUL. There the row ends, which is its last byte unless a NUL is among its bytes. -/
theorem tokens_account (bs : List UInt8) :
    ∃ (spans : List Span) (trail : List Glyph) (last : Token),
      tokens (decode bs) = spans.map Span.token ++ [last] ∧ last.kind = .eof ∧
      (∀ s ∈ spans, s.Proper ∧ s.token.kind ≠ .eof) ∧ (∀ g ∈ trail, isBlank g.shown = true) ∧
      bytesOfGlyphs (spans.flatMap Span.glyphs ++ trail) = bs.takeWhile (· ≠ 0) ∧
      (∀ before s after, spans = before ++ s :: after →
        s.token.pos.offset = (bytesOfGlyphs (before.flatMap Span.glyphs ++ s.blanks)).length) ∧
      (tokens (decode bs)).Pairwise (fun t t' => t.pos.offset < t'.pos.offset) ∧
      last.pos.offset = (bs.takeWhile (· ≠ 0)).length ∧ (last.pos.offset = bs.length ↔ 0 ∉ bs) := by
  obtain ⟨c⟩ := tokensFrom_cut (decode bs) ⟨0, 1, 1⟩
  have hbytes : bytesOfGlyphs (c.spans.flatMap Span.glyphs ++ c.trail) = bs.takeWhile (· ≠ 0) := by
    rw [← c.takeWhile, takeWhile_decode]
  have hlast : c.last.pos.offset = (bs.takeWhile (· ≠ 0)).length := by
    rw [c.offset, ← hbytes, length_bytesOfGlyphs]
    exact Nat.zero_add _
  refine ⟨c.spans, c.trail, c.last, c.tokens, c.kind, fun s hs => ?_, c.blank, hbytes, ?_, ?_, hlast, ?_⟩
  · exact ⟨c.laid.proper s hs, (c.laid.proper s hs).spells.kind_ne⟩
  · intro before s after hspans
    have hlaid := c.laid
    rw [hspans] at hlaid
    rw [hlaid.offset_eq, length_bytesOfGlyphs]
    exact Nat.zero_add _
  · rw [tokens, c.tokens, List.pairwise_append]
    refine ⟨c.laid.pairwise, List.pairwise_singleton _ _, ?_⟩
    simp only [List.mem_map, List.mem_singleton, forall_exists_index, and_imp, forall_apply_eq_imp_iff₂]
    rintro s hs _ rfl
    have hhigh := (c.laid.offset_lt s hs).2
    rw [c.offset, sizes_append]
    omega
  · rw [hlast]
    constructor
    · intro hlength hzero
      have hall := List.takeWhile_eq_self_iff.mp
        ((List.takeWhile_prefix (p := (· ≠ 0)) (l := bs)).eq_of_length hlength)
      exact absurd (hall 0 hzero) (by decide)
    · intro hzero
      rw [List.takeWhile_eq_self_iff.mpr]
      intro b hb
      rw [decide_eq_true_eq]
      rintro rfl
      exact hzero hb

/-- What comes after a NUL is lost. -/
theorem tokens_of_nul :
    tokens (decode [0x61, 0x00, 0x62]) = [⟨.word, "a", ⟨0, 1, 1⟩⟩, ⟨.eof, "", ⟨1, 1, 2⟩⟩] ∧
      ¬ ∀ bs : List UInt8, (tokens (decode bs)).getLast?.map (·.pos.offset) = some bs.length := by
  have hrow : tokens (decode [0x61, 0x00, 0x62]) = [⟨.word, "a", ⟨0, 1, 1⟩⟩, ⟨.eof, "", ⟨1, 1, 2⟩⟩] := by decide
  refine ⟨hrow, fun h => ?_⟩
  have hlast := h [0x61, 0x00, 0x62]
  rw [hrow] at hlast
  exact absurd hlast (by decide)

end Row
end TileMind
