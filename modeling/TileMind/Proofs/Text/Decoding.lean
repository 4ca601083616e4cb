import Mathlib
import TileMind.Proofs.Text.Utf8
import TileMind.Text.Escaped

/-!
# TileMind.Proofs.Text.Decoding

Reading bytes as glyphs loses nothing, whether they are well-formed or not: the bytes of the glyphs are the bytes
that were read. A byte of zero is a glyph of its own, and no other glyph has one in it. The order of strings is that
of their bytes: a character with a greater code has greater bytes, and the bytes of none are the front of those of
another.

* `Text.lead_bytes`: a glyph stands at the front of the bytes it was read from.
* `Text.bytesOfGlyphs_decode`: the bytes of all glyphs.
* `Text.takeWhile_decode`: the glyphs before the first NUL are those of the bytes before the first zero.
* `Text.bytes_lt_iff`: strings come in the order of their bytes.
-/

namespace TileMind
namespace Text

def Glyph.bytes : Glyph → List UInt8
  | .char c => String.utf8EncodeChar c
  | .stray b => [b]

theorem bytesOfGlyphs_eq (gs : List Glyph) : bytesOfGlyphs gs = gs.flatMap Glyph.bytes := by
  unfold bytesOfGlyphs
  refine List.flatMap_congr fun g _ => ?_
  cases g with
  | char c => simp [bytes_eq, Glyph.bytes]
  | stray b => rfl

theorem bytesOfGlyphs_cons (g : Glyph) (gs : List Glyph) :
    bytesOfGlyphs (g :: gs) = g.bytes ++ bytesOfGlyphs gs := by
  simp [bytesOfGlyphs_eq]

theorem bytesOfGlyphs_append (gs gs' : List Glyph) :
    bytesOfGlyphs (gs ++ gs') = bytesOfGlyphs gs ++ bytesOfGlyphs gs' := by
  simp [bytesOfGlyphs_eq]

@[simp] theorem Glyph.length_bytes (g : Glyph) : g.bytes.length = g.size := by
  cases g with
  | char c => exact String.length_utf8EncodeChar c
  | stray b => rfl

/-! ## One glyph -/

theorem encode_one {v : Nat} (h : v ≤ 127) : String.utf8EncodeChar (Char.ofNat v) = [UInt8.ofNat v] := by
  have hval : (Char.ofNat v).val.toNat = v := by
    rw [← Char.toNat, Char.toNat_ofNat, if_pos (.inl (by omega))]
  rw [String.utf8EncodeChar.eq_1, hval, if_pos h]

theorem encode_two {v : Nat} (hlow : 127 < v) (hhigh : v ≤ 2047) : String.utf8EncodeChar (Char.ofNat v) =
    [UInt8.ofNat (v / 64 % 32 + 192), UInt8.ofNat (v % 64 + 128)] := by
  have hval : (Char.ofNat v).val.toNat = v := by
    rw [← Char.toNat, Char.toNat_ofNat, if_pos (.inl (by omega))]
  rw [String.utf8EncodeChar.eq_1, hval, if_neg (by omega), if_pos hhigh]

theorem encode_three {v : Nat} (hlow : 2047 < v) (hhigh : v ≤ 65535) (hvalid : v.isValidChar) :
    String.utf8EncodeChar (Char.ofNat v) =
      [UInt8.ofNat (v / 4096 % 16 + 224), UInt8.ofNat (v / 64 % 64 + 128), UInt8.ofNat (v % 64 + 128)] := by
  have hval : (Char.ofNat v).val.toNat = v := by
    rw [← Char.toNat, Char.toNat_ofNat, if_pos hvalid]
  rw [String.utf8EncodeChar.eq_1, hval, if_neg (by omega), if_neg (by omega), if_pos hhigh]

theorem encode_four {v : Nat} (hlow : 65535 < v) (hvalid : v.isValidChar) :
    String.utf8EncodeChar (Char.ofNat v) =
      [UInt8.ofNat (v / 262144 % 8 + 240), UInt8.ofNat (v / 4096 % 64 + 128),
        UInt8.ofNat (v / 64 % 64 + 128), UInt8.ofNat (v % 64 + 128)] := by
  have hval : (Char.ofNat v).val.toNat = v := by
    rw [← Char.toNat, Char.toNat_ofNat, if_pos hvalid]
  rw [String.utf8EncodeChar.eq_1, hval, if_neg (by omega), if_neg (by omega), if_neg (by omega)]

theorem ofNat_eq {n : Nat} {b : UInt8} (h : n = b.toNat) : UInt8.ofNat n = b := by
  rw [h, UInt8.ofNat_toNat]

theorem continues_iff {b lo hi : UInt8} : continues b lo hi = true ↔ lo.toNat ≤ b.toNat ∧ b.toNat ≤ hi.toNat := by
  simp [continues, UInt8.le_iff_toNat_le]

theorem encode_lead_two {b b₁ : UInt8} (hb : 0xC2 ≤ b.toNat ∧ b.toNat ≤ 0xDF) (h₁ : continues b₁ = true) :
    String.utf8EncodeChar (Char.ofNat (b.toNat % 32 * 64 + payload b₁)) = [b, b₁] := by
  have h₁ := continues_iff.mp h₁
  simp only [UInt8.reduceToNat] at h₁
  rw [payload, encode_two (by omega) (by omega), ofNat_eq (b := b) (by omega), ofNat_eq (b := b₁) (by omega)]

/-- The bounds on the second byte leave out what is too long and what is a surrogate. -/
theorem encode_lead_three {b b₁ b₂ : UInt8} (hb : 0xE0 ≤ b.toNat ∧ b.toNat ≤ 0xEF)
    (h₁ : continues b₁ (if b.toNat = 0xE0 then 0xA0 else 0x80) (if b.toNat = 0xED then 0x9F else 0xBF) = true)
    (h₂ : continues b₂ = true) :
    String.utf8EncodeChar (Char.ofNat (b.toNat % 16 * 4096 + payload b₁ * 64 + payload b₂)) = [b, b₁, b₂] := by
  have h₁ := continues_iff.mp h₁
  have h₂ := continues_iff.mp h₂
  simp only [UInt8.reduceToNat] at h₂
  have hsecond : 0x80 ≤ b₁.toNat ∧ b₁.toNat ≤ 0xBF ∧ (b.toNat = 0xE0 → 0xA0 ≤ b₁.toNat) ∧
      (b.toNat = 0xED → b₁.toNat ≤ 0x9F) := by
    split at h₁ <;> split at h₁ <;> simp only [UInt8.reduceToNat] at h₁ <;> omega
  have hvalid : Nat.isValidChar (b.toNat % 16 * 4096 + b₁.toNat % 64 * 64 + b₂.toNat % 64) := by
    unfold Nat.isValidChar
    omega
  rw [payload, payload, encode_three (by omega) (by omega) hvalid, ofNat_eq (b := b) (by omega),
    ofNat_eq (b := b₁) (by omega), ofNat_eq (b := b₂) (by omega)]

/-- The bounds on the second byte leave out what is too long and what is past the last character. -/
theorem encode_lead_four {b b₁ b₂ b₃ : UInt8} (hb : 0xF0 ≤ b.toNat ∧ b.toNat ≤ 0xF4)
    (h₁ : continues b₁ (if b.toNat = 0xF0 then 0x90 else 0x80) (if b.toNat = 0xF4 then 0x8F else 0xBF) = true)
    (h₂ : continues b₂ = true) (h₃ : continues b₃ = true) :
    String.utf8EncodeChar
        (Char.ofNat (b.toNat % 8 * 262144 + payload b₁ * 4096 + payload b₂ * 64 + payload b₃)) =
      [b, b₁, b₂, b₃] := by
  have h₁ := continues_iff.mp h₁
  have h₂ := continues_iff.mp h₂
  have h₃ := continues_iff.mp h₃
  simp only [UInt8.reduceToNat] at h₂ h₃
  have hsecond : 0x80 ≤ b₁.toNat ∧ b₁.toNat ≤ 0xBF ∧ (b.toNat = 0xF0 → 0x90 ≤ b₁.toNat) ∧
      (b.toNat = 0xF4 → b₁.toNat ≤ 0x8F) := by
    split at h₁ <;> split at h₁ <;> simp only [UInt8.reduceToNat] at h₁ <;> omega
  have hvalid : Nat.isValidChar
      (b.toNat % 8 * 262144 + b₁.toNat % 64 * 4096 + b₂.toNat % 64 * 64 + b₃.toNat % 64) := by
    unfold Nat.isValidChar
    omega
  rw [payload, payload, payload, encode_four (by omega) hvalid, ofNat_eq (b := b) (by omega),
    ofNat_eq (b := b₁) (by omega), ofNat_eq (b := b₂) (by omega), ofNat_eq (b := b₃) (by omega)]

/-- The ways in which a glyph starts. -/
theorem lead_cases (b : UInt8) (rest : List UInt8) :
    (∃ c more, lead b rest = .char c ∧ b :: rest = String.utf8EncodeChar c ++ more) ∨
      (lead b rest = .stray b ∧ 0x80 ≤ b.toNat) := by
  by_cases hone : b.toNat < 0x80
  · refine .inl ⟨Char.ofNat b.toNat, rest, by simp [lead, hone], ?_⟩
    rw [encode_one (by omega), ofNat_eq rfl]
    rfl
  have hstray : 0x80 ≤ b.toNat := by omega
  unfold lead
  simp only [if_neg hone]
  split
  · rename_i hrange
    simp only [Bool.and_eq_true, decide_eq_true_eq] at hrange
    split
    · rename_i b₁ more
      by_cases hcont : continues b₁ = true
      · exact .inl ⟨_, more, if_pos hcont, by rw [encode_lead_two hrange hcont]; rfl⟩
      · exact .inr ⟨if_neg hcont, hstray⟩
    · exact .inr ⟨rfl, hstray⟩
  split
  · rename_i hrange
    simp only [Bool.and_eq_true, decide_eq_true_eq] at hrange
    split
    · rename_i b₁ b₂ more
      by_cases hcont : (continues b₁ (if b.toNat = 0xE0 then 0xA0 else 0x80)
          (if b.toNat = 0xED then 0x9F else 0xBF) && continues b₂) = true
      · have hboth := Bool.and_eq_true_iff.mp hcont
        exact .inl ⟨_, more, if_pos hcont, by rw [encode_lead_three hrange hboth.1 hboth.2]; rfl⟩
      · exact .inr ⟨if_neg hcont, hstray⟩
    · exact .inr ⟨rfl, hstray⟩
  split
  · rename_i hrange
    simp only [Bool.and_eq_true, decide_eq_true_eq] at hrange
    split
    · rename_i b₁ b₂ b₃ more
      by_cases hcont : (continues b₁ (if b.toNat = 0xF0 then 0x90 else 0x80)
          (if b.toNat = 0xF4 then 0x8F else 0xBF) && continues b₂ && continues b₃) = true
      · have hall := hcont
        simp only [Bool.and_eq_true] at hall
        exact .inl ⟨_, more, if_pos hcont, by rw [encode_lead_four hrange hall.1.1 hall.1.2 hall.2]; rfl⟩
      · exact .inr ⟨if_neg hcont, hstray⟩
    · exact .inr ⟨rfl, hstray⟩
  · exact .inr ⟨rfl, hstray⟩

/-- A glyph stands at the front of the bytes it was read from. -/
theorem lead_bytes (b : UInt8) (rest : List UInt8) : (lead b rest).bytes <+: b :: rest := by
  obtain ⟨c, more, hc, hbytes⟩ | ⟨hstray, -⟩ := lead_cases b rest
  · rw [hc, hbytes]
    exact List.prefix_append _ _
  · rw [hstray]
    exact ⟨rest, rfl⟩

/-! ## All glyphs -/

/-- Nothing is lost: the bytes of the glyphs are those that were read. -/
theorem bytesOfGlyphs_decode (bs : List UInt8) : bytesOfGlyphs (decode bs) = bs := by
  unfold decode
  induction hn : bs.length using Nat.strong_induction_on generalizing bs with
  | h n ih =>
    cases bs with
    | nil => rfl
    | cons b rest =>
      obtain ⟨more, hmore⟩ := lead_bytes b rest
      rw [decodeFrom, bytesOfGlyphs_cons]
      generalize lead b rest = g at hmore
      have hsize := g.length_bytes
      cases hbytes : g.bytes with
      | nil =>
        rw [hbytes] at hsize
        cases g with
        | char c => exact absurd hsize c.utf8Size_pos.ne
        | stray b => cases hsize
      | cons first tail =>
        rw [hbytes] at hmore hsize
        obtain ⟨rfl, hrest⟩ := List.cons.inj hmore
        change tail ++ more = rest at hrest
        subst hrest
        have hshorter : more.length < n := by
          rw [← hn, List.length_cons, List.length_append]
          omega
        rw [show g.size - 1 = tail.length by simp [← hsize], decodeFrom_skip, ih _ hshorter more rfl]
        rfl

theorem length_bytesOfGlyphs (gs : List Glyph) : (bytesOfGlyphs gs).length = (gs.map Glyph.size).sum := by
  simp [bytesOfGlyphs_eq, List.length_flatMap]

/-! ## NUL -/

/-- A stray byte is no ASCII. -/
def Glyph.Decoded : Glyph → Prop
  | .char _ => True
  | .stray b => 0x80 ≤ b.toNat

theorem lead_decoded (b : UInt8) (rest : List UInt8) : (lead b rest).Decoded := by
  obtain ⟨c, more, hc, -⟩ | ⟨hstray, hhigh⟩ := lead_cases b rest
  · rw [hc]
    trivial
  · rw [hstray]
    exact hhigh

theorem decoded_of_mem_decode {bs : List UInt8} {g : Glyph} (h : g ∈ decode bs) : g.Decoded := by
  unfold decode at h
  generalize 0 = skip at h
  induction bs generalizing skip with
  | nil => cases skip <;> cases h
  | cons b rest ih =>
    cases skip with
    | succ skip => exact ih skip h
    | zero =>
      rw [decodeFrom] at h
      rcases List.mem_cons.mp h with rfl | h
      · exact lead_decoded b rest
      · exact ih _ h

/-- A glyph other than NUL has no byte of zero. -/
theorem Glyph.Decoded.zero_notMem {g : Glyph} (h : g.Decoded) (hshown : g.shown.toNat ≠ 0) : 0 ∉ g.bytes := by
  cases g with
  | stray b =>
    rw [Glyph.bytes, List.mem_singleton]
    rintro rfl
    exact absurd (show 0x80 ≤ (0 : UInt8).toNat from h) (by decide)
  | char c =>
    have hpos : c.val.toNat ≠ 0 := hshown
    have hne {n : Nat} (hn : 0 < n) (hn' : n < 256) : (0 : UInt8) ≠ UInt8.ofNat n := fun heq => by
      have := congrArg UInt8.toNat heq
      rw [toNat_ofNat_of_lt hn'] at this
      exact hn.ne this
    rw [Glyph.bytes]
    fun_cases String.utf8EncodeChar c with
    | case1 v hv => simpa using hne (by omega) (by omega)
    | case2 v hv hv' =>
      simp only [List.mem_cons, List.not_mem_nil, or_false, not_or]
      exact ⟨hne (by omega) (by omega), hne (by omega) (by omega)⟩
    | case3 v hv hv' hv'' =>
      simp only [List.mem_cons, List.not_mem_nil, or_false, not_or]
      exact ⟨hne (by omega) (by omega), hne (by omega) (by omega), hne (by omega) (by omega)⟩
    | case4 v hv hv' hv'' =>
      simp only [List.mem_cons, List.not_mem_nil, or_false, not_or]
      exact ⟨hne (by omega) (by omega), hne (by omega) (by omega), hne (by omega) (by omega),
        hne (by omega) (by omega)⟩

theorem Glyph.bytes_of_nul {g : Glyph} (h : g.shown.toNat = 0) : g.bytes = [0] := by
  cases g with
  | char c =>
    have hc : c = Char.ofNat 0 := by
      rw [← Char.ofNat_toNat c]
      exact congrArg Char.ofNat h
    rw [hc]
    rfl
  | stray b => exact absurd (show replacement.toNat = 0 from h) (by decide)

/-- What stands before the first NUL are the bytes before the first zero. -/
theorem takeWhile_decode (bs : List UInt8) :
    bytesOfGlyphs ((decode bs).takeWhile fun g => g.shown.toNat ≠ 0) = bs.takeWhile (· ≠ 0) := by
  have hall (gs : List Glyph) (hgs : ∀ g ∈ gs, g.Decoded) :
      bytesOfGlyphs (gs.takeWhile fun g => g.shown.toNat ≠ 0) = (bytesOfGlyphs gs).takeWhile (· ≠ 0) := by
    induction gs with
    | nil => rfl
    | cons g gs ih =>
      by_cases hg : g.shown.toNat = 0
      · simp [hg, bytesOfGlyphs_cons, g.bytes_of_nul hg]
        rfl
      · have hfree := (hgs g List.mem_cons_self).zero_notMem hg
        rw [List.takeWhile_cons_of_pos (by simpa using hg), bytesOfGlyphs_cons, bytesOfGlyphs_cons,
          List.takeWhile_append_of_pos fun b hb => by
            rw [decide_eq_true_eq]
            rintro rfl
            exact hfree hb,
          ih fun x hx => hgs x (List.mem_cons_of_mem _ hx)]
  rw [hall _ fun g hg => decoded_of_mem_decode hg, bytesOfGlyphs_decode]

/-! ## Order -/

theorem ofNat_lt_ofNat {m n : Nat} (hm : m < 256) (hn : n < 256) : UInt8.ofNat m < UInt8.ofNat n ↔ m < n := by
  rw [UInt8.lt_iff_toNat_lt, toNat_ofNat_of_lt hm, toNat_ofNat_of_lt hn]

theorem ofNat_eq_ofNat {m n : Nat} (hm : m < 256) (hn : n < 256) : UInt8.ofNat m = UInt8.ofNat n ↔ m = n := by
  rw [← UInt8.toNat_inj, toNat_ofNat_of_lt hm, toNat_ofNat_of_lt hn]

/-- Numbers come in the order of their digits to base 64. -/
theorem digits_lt {v w : Nat} (h : v < w) (hw : w < 2 ^ 21) :
    v / 262144 % 8 < w / 262144 % 8 ∨ v / 262144 % 8 = w / 262144 % 8 ∧
      (v / 4096 % 64 < w / 4096 % 64 ∨ v / 4096 % 64 = w / 4096 % 64 ∧
        (v / 64 % 64 < w / 64 % 64 ∨ v / 64 % 64 = w / 64 % 64 ∧ v % 64 < w % 64)) := by
  have hstep {m n : Nat} (hmn : m < n) : m / 64 < n / 64 ∨ m / 64 = n / 64 ∧ m % 64 < n % 64 := by omega
  have htop (n : Nat) (hn : n < 2 ^ 21) : n / 262144 % 8 = n / 262144 := Nat.mod_eq_of_lt (by omega)
  have hsquare (n : Nat) : n / 64 / 64 = n / 4096 := Nat.div_div_eq_div_mul n 64 64
  have hcube (n : Nat) : n / 4096 / 64 = n / 262144 := Nat.div_div_eq_div_mul n 4096 64
  rw [htop v (h.trans hw), htop w hw]
  -- A digit decides only if the numbers agree in front of it.
  rcases hstep h with h | ⟨heq, hlt⟩
  · have hnext := hstep h
    rw [hsquare, hsquare] at hnext
    rcases hnext with h | ⟨heq, hlt⟩
    · have hfirst := hstep h
      rw [hcube, hcube] at hfirst
      exact hfirst.imp_right fun ⟨heq, hlt⟩ => ⟨heq, .inl hlt⟩
    · exact .inr ⟨by rw [← hcube, heq, hcube], .inr ⟨by rw [heq], .inl hlt⟩⟩
  · have hagree : v / 4096 = w / 4096 := by rw [← hsquare, heq, hsquare]
    exact .inr ⟨by rw [← hcube, hagree, hcube], .inr ⟨by rw [hagree], .inr ⟨by rw [heq], hlt⟩⟩⟩

theorem toNat_lt_max (c : Char) : c.val.toNat < 0x110000 := by
  have hvalid : c.val.toNat < 0xD800 ∨ (0xDFFF < c.val.toNat ∧ c.val.toNat < 0x110000) := c.valid
  omega

/-- Among characters of four bytes each digit to base 64 has a byte. -/
theorem encode_append_lt_four {c d : Char} (h : c < d) (hc : 65535 < c.val.toNat) (xs ys : List UInt8) :
    String.utf8EncodeChar c ++ xs < String.utf8EncodeChar d ++ ys := by
  have hval : c.val.toNat < d.val.toNat := h
  have hdigits := digits_lt hval (by have := toNat_lt_max d; omega)
  rw [String.utf8EncodeChar.eq_1, String.utf8EncodeChar.eq_1, if_neg (by omega), if_neg (by omega),
    if_neg (by omega), if_neg (by omega), if_neg (by omega), if_neg (by omega)]
  simp (disch := omega) only [List.cons_append, List.nil_append, List.cons_lt_cons_iff, ofNat_lt_ofNat,
    ofNat_eq_ofNat, Nat.add_lt_add_iff_right, Nat.add_right_cancel_iff]
  rcases hdigits with hlt | ⟨heq, hlt | ⟨heq', hlt | ⟨heq'', hlt⟩⟩⟩
  · exact .inl hlt
  · exact .inr ⟨heq, .inl hlt⟩
  · exact .inr ⟨heq, .inr ⟨heq', .inl hlt⟩⟩
  · exact .inr ⟨heq, .inr ⟨heq', .inr ⟨heq'', .inl hlt⟩⟩⟩

/-- Characters come in the order of their bytes, whatever follows them. -/
theorem encode_append_lt {c d : Char} (h : c < d) (xs ys : List UInt8) :
    String.utf8EncodeChar c ++ xs < String.utf8EncodeChar d ++ ys := by
  by_cases hlong : 65535 < c.val.toNat
  · exact encode_append_lt_four h hlong xs ys
  have hval : c.val.toNat < d.val.toNat := h
  have hmax := toNat_lt_max d
  fun_cases String.utf8EncodeChar c <;> fun_cases String.utf8EncodeChar d
  all_goals
    simp +zetaDelta (disch := omega) only [List.cons_append, List.nil_append, List.cons_lt_cons_iff, ofNat_lt_ofNat,
      ofNat_eq_ofNat]
    omega

theorem bytes_lt_of_lt {cs ds : List Char} (h : cs < ds) :
    cs.flatMap String.utf8EncodeChar < ds.flatMap String.utf8EncodeChar := by
  induction h with
  | nil =>
    rename_i d ds
    rw [List.flatMap_nil, List.flatMap_cons]
    have hpos := d.utf8Size_pos
    rw [← String.length_utf8EncodeChar] at hpos
    obtain ⟨b, bs, hbs⟩ := List.exists_cons_of_length_pos hpos
    rw [hbs]
    exact .nil
  | @cons c cs ds _ ih =>
    simp only [List.flatMap_cons]
    generalize String.utf8EncodeChar c = front
    induction front with
    | nil => exact ih
    | cons b front ih' => exact .cons ih'
  | rel h =>
    simp only [List.flatMap_cons]
    exact encode_append_lt h _ _

/-- Strings come in the order of their bytes. -/
theorem bytes_lt_iff (a b : String) : bytes a < bytes b ↔ a < b := by
  rw [bytes_eq, bytes_eq, String.lt_iff_toList_lt]
  refine ⟨fun h => ?_, bytes_lt_of_lt⟩
  rcases lt_trichotomy a.toList b.toList with hlt | heq | hgt
  · exact hlt
  · rw [heq] at h
    exact absurd h (List.lt_irrefl _)
  · exact absurd h (List.lt_asymm (bytes_lt_of_lt hgt))

end Text
end TileMind
