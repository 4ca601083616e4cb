import TileMind.Text.Digits

/-!
# TileMind.Text.Escaped

Reading quoted text. A backslash in it announces one character that is written in another way: by a
letter that stands for it, or by its code in a fixed number of hexadecimal digits. It may also
announce a byte; bytes that together make a character are read as that character.
-/

namespace TileMind
namespace Text

/-- The character with a code in hexadecimal digits. -/
def charOfHex? (cs : List Char) : Option Char := do
  let code ← cs.foldlM (fun n c => (hexDigit? c).map (16 * n + ·)) 0
  if h : code.isValidChar then some (Char.ofNatAux code h) else none

/-- What may follow a backslash: a letter that stands for a character, one before the digits of a
code, or a number of characters that together say a byte. -/
structure EscapeRules where
  letter : Char → Option Char
  digits : Char → Option Nat
  byte : List Char → Option (UInt8 × Nat) := fun _ => none

/-- Reads what follows a backslash, up to the rest after it. -/
def EscapeRules.readOne (r : EscapeRules) (cs : List Char) : Option (Glyph × List Char) :=
  match cs with
  | [] => none
  | e :: rest =>
    match r.letter e, r.digits e, r.byte cs with
    | some c, _, _ => some (.char c, rest)
    | none, some n, _ =>
      if rest.length < n then none
      else (charOfHex? (rest.take n)).map fun c => (.char c, rest.drop n)
    | none, none, some (b, n) => some (.stray b, rest.drop (n - 1))
    | none, none, none => none

theorem EscapeRules.length_lt_of_readOne {r : EscapeRules} {cs rest : List Char} {g : Glyph}
    (h : r.readOne cs = some (g, rest)) : rest.length < cs.length := by
  unfold readOne at h
  split at h
  · simp at h
  · split at h
    · simp only [Option.some.injEq, Prod.mk.injEq] at h
      rw [← h.2, List.length_cons]
      omega
    · split at h
      · simp at h
      · simp only [Option.map_eq_some_iff, Prod.mk.injEq] at h
        obtain ⟨c, _, _, rfl⟩ := h
        rw [List.length_drop, List.length_cons]
        omega
    · simp only [Option.some.injEq, Prod.mk.injEq] at h
      rw [← h.2, List.length_drop, List.length_cons]
      omega
    · simp at h

/-- Reads up to the closing mark; gives the text before and the rest after it. A line break in
between is refused. -/
def EscapeRules.read (r : EscapeRules) (close : Char) (cs : List Char) :
    Option (List Glyph × List Char) :=
  match cs with
  | [] => none
  | c :: cs =>
    if c = '\n' then none
    else if c = close then some ([], cs)
    else if c = '\\' then
      match h : r.readOne cs with
      | none => none
      | some (g, rest) =>
        have := length_lt_of_readOne h
        (r.read close rest).map fun (gs, rest) => (g :: gs, rest)
    else (r.read close cs).map fun (gs, rest) => (.char c :: gs, rest)
termination_by cs.length
decreasing_by all_goals (simp; try omega)

/-- The bytes of a sequence of glyphs. -/
def bytesOfGlyphs (gs : List Glyph) : List UInt8 :=
  gs.flatMap fun g =>
    match g with
    | .char c => bytes (String.singleton c)
    | .stray b => [b]

/-- The text of glyphs whose stray bytes may belong together. -/
def joinGlyphs (gs : List Glyph) : String := ofBytes (bytesOfGlyphs gs)

end Text
end TileMind
