import TileMind.Text.Glyph

/-!
# TileMind.Proofs.Text.Utf8

The bytes of a text are read back as that text.

* `Text.decode_bytes`: as glyphs, with no stray byte among them.
* `Text.ofBytes?_bytes`: as the text itself.
-/

namespace TileMind
namespace Text

theorem toList_loop (bs : ByteArray) (i : Nat) (done : List UInt8) :
    ByteArray.toList.loop bs i done = done.reverse ++ bs.data.toList.drop i := by
  fun_induction ByteArray.toList.loop bs i done with
  | case1 i done h ih =>
    have hi : i < bs.data.toList.length := by simpa using h
    rw [ih, List.drop_eq_getElem_cons hi]
    simp [ByteArray.get!, h]
  | case2 i done h =>
    have hi : bs.data.toList.length ≤ i := by simpa using Nat.le_of_not_lt h
    simp [List.drop_eq_nil_of_le hi]

theorem bytes_eq (s : String) : bytes s = s.toList.flatMap String.utf8EncodeChar := by
  rw [bytes, String.toUTF8_eq_toByteArray, ← String.utf8Encode_toList, List.utf8Encode,
    ByteArray.toList, toList_loop]
  simp

theorem length_bytes (s : String) : (bytes s).length = s.utf8ByteSize := by
  rw [bytes_eq, ← String.size_toByteArray, ← String.utf8Encode_toList, List.utf8Encode]
  simp

theorem toNat_ofNat_of_lt {n : Nat} (h : n < 256) : (UInt8.ofNat n).toNat = n := by
  simp [Nat.mod_eq_of_lt h]

theorem payload_ofNat {n : Nat} (h : n < 256) : payload (UInt8.ofNat n) = n % 64 := by
  rw [payload, toNat_ofNat_of_lt h]

theorem continues_ofNat {n : Nat} {lo hi : UInt8} (h : n < 256) :
    continues (UInt8.ofNat n) lo hi = true ↔ lo.toNat ≤ n ∧ n ≤ hi.toNat := by
  simp [continues, UInt8.le_iff_toNat_le, Nat.mod_eq_of_lt h]

theorem lead_one {v : Nat} (h : v ≤ 127) (rest : List UInt8) :
    lead (UInt8.ofNat v) rest = .char (Char.ofNat v) := by
  simp only [lead, toNat_ofNat_of_lt (show v < 256 by omega)]
  rw [if_pos (by omega)]

theorem lead_two {v : Nat} (hlow : 127 < v) (hhigh : v ≤ 2047) (rest : List UInt8) :
    lead (UInt8.ofNat (v / 64 % 32 + 192)) (UInt8.ofNat (v % 64 + 128) :: rest) =
      .char (Char.ofNat v) := by
  have hcont : continues (UInt8.ofNat (v % 64 + 128)) = true :=
    (continues_ofNat (by omega)).mpr ⟨by simp, by simp; omega⟩
  simp only [lead, toNat_ofNat_of_lt (show v / 64 % 32 + 192 < 256 by omega), hcont, if_true,
    payload_ofNat (show v % 64 + 128 < 256 by omega)]
  rw [if_neg (by omega), if_pos (by simp; omega)]
  congr 2
  omega

theorem lead_three {v : Nat} (hlow : 2047 < v) (hhigh : v ≤ 65535)
    (hvalid : v < 0xD800 ∨ 0xDFFF < v) (rest : List UInt8) :
    lead (UInt8.ofNat (v / 4096 % 16 + 224))
        (UInt8.ofNat (v / 64 % 64 + 128) :: UInt8.ofNat (v % 64 + 128) :: rest) =
      .char (Char.ofNat v) := by
  have hsecond : continues (UInt8.ofNat (v / 64 % 64 + 128))
      (if v / 4096 % 16 + 224 = 0xE0 then 0xA0 else 0x80)
      (if v / 4096 % 16 + 224 = 0xED then 0x9F else 0xBF) = true := by
    rw [continues_ofNat (by omega)]
    constructor <;> split <;> simp <;> omega
  have hthird : continues (UInt8.ofNat (v % 64 + 128)) = true :=
    (continues_ofNat (by omega)).mpr ⟨by simp, by simp; omega⟩
  simp only [lead, toNat_ofNat_of_lt (show v / 4096 % 16 + 224 < 256 by omega), hsecond, hthird,
    payload_ofNat (show v / 64 % 64 + 128 < 256 by omega),
    payload_ofNat (show v % 64 + 128 < 256 by omega), Bool.and_self, if_true]
  rw [if_neg (by omega), if_neg (by simp), if_pos (by simp; omega)]
  congr 2
  omega

theorem lead_four {v : Nat} (hlow : 65535 < v) (hhigh : v < 0x110000) (rest : List UInt8) :
    lead (UInt8.ofNat (v / 262144 % 8 + 240))
        (UInt8.ofNat (v / 4096 % 64 + 128) :: UInt8.ofNat (v / 64 % 64 + 128) ::
          UInt8.ofNat (v % 64 + 128) :: rest) =
      .char (Char.ofNat v) := by
  have hsecond : continues (UInt8.ofNat (v / 4096 % 64 + 128))
      (if v / 262144 % 8 + 240 = 0xF0 then 0x90 else 0x80)
      (if v / 262144 % 8 + 240 = 0xF4 then 0x8F else 0xBF) = true := by
    rw [continues_ofNat (by omega)]
    constructor <;> split <;> simp <;> omega
  have hthird : continues (UInt8.ofNat (v / 64 % 64 + 128)) = true :=
    (continues_ofNat (by omega)).mpr ⟨by simp, by simp; omega⟩
  have hfourth : continues (UInt8.ofNat (v % 64 + 128)) = true :=
    (continues_ofNat (by omega)).mpr ⟨by simp, by simp; omega⟩
  simp only [lead, toNat_ofNat_of_lt (show v / 262144 % 8 + 240 < 256 by omega), hsecond, hthird,
    hfourth, payload_ofNat (show v / 4096 % 64 + 128 < 256 by omega),
    payload_ofNat (show v / 64 % 64 + 128 < 256 by omega),
    payload_ofNat (show v % 64 + 128 < 256 by omega), Bool.and_self, if_true]
  rw [if_neg (by omega), if_neg (by simp), if_neg (by simp), if_pos (by simp; omega)]
  congr 2
  omega

/-- The bytes of a character are read as that character, whatever follows. -/
theorem lead_utf8EncodeChar (c : Char) (rest : List UInt8) :
    ∃ b bs, String.utf8EncodeChar c = b :: bs ∧ lead b (bs ++ rest) = .char c := by
  have hof : Char.ofNat c.val.toNat = c := Char.ofNat_toNat c
  have hvalid : c.val.toNat < 0xD800 ∨ (0xDFFF < c.val.toNat ∧ c.val.toNat < 0x110000) := c.valid
  fun_cases String.utf8EncodeChar c with
  | case1 v h => exact ⟨_, _, rfl, by rw [lead_one h, hof]⟩
  | case2 v h h' => exact ⟨_, _, rfl, (lead_two (by omega) h' rest).trans (by rw [hof])⟩
  | case3 v h h' h'' =>
    exact ⟨_, _, rfl, (lead_three (by omega) h'' (by omega) rest).trans (by rw [hof])⟩
  | case4 v h h' h'' =>
    exact ⟨_, _, rfl, (lead_four (by omega) (by omega) rest).trans (by rw [hof])⟩

theorem decodeFrom_skip (bs rest : List UInt8) :
    decodeFrom bs.length (bs ++ rest) = decodeFrom 0 rest := by
  induction bs with
  | nil => rfl
  | cons b bs ih =>
    rw [List.length_cons, List.cons_append, decodeFrom, ih]

theorem decodeFrom_char (c : Char) (rest : List UInt8) :
    decodeFrom 0 (String.utf8EncodeChar c ++ rest) = .char c :: decodeFrom 0 rest := by
  obtain ⟨b, bs, hbytes, hlead⟩ := lead_utf8EncodeChar c rest
  have hsize : c.utf8Size - 1 = bs.length := by
    rw [← String.length_utf8EncodeChar, hbytes]
    rfl
  rw [hbytes, List.cons_append, decodeFrom, hlead]
  simp only [Glyph.size, hsize, decodeFrom_skip]

theorem decode_bytes (s : String) : decode (bytes s) = s.toList.map .char := by
  rw [bytes_eq, decode]
  induction s.toList with
  | nil => rfl
  | cons c cs ih =>
    rw [List.flatMap_cons, decodeFrom_char, ih, List.map_cons]

theorem ofBytes?_bytes (s : String) : ofBytes? (bytes s) = some s := by
  simp [ofBytes?, decode_bytes, ofGlyphs, Function.comp_def, Glyph.shown]

end Text
end TileMind
