import Mathlib.Data.List.Infix

/-!
# The UTF-8 bytes of a text

What a program that works on the bytes of a string needs to say something about
its characters: which bytes a character outside ASCII may have, that a character
is read off the head of the bytes in one way only, and where a suffix of the bytes
may begin.
-/

namespace utf8

/-- The UTF-8 bytes of a list of characters. -/
def encode (chars : List Char) : List UInt8 :=
  chars.flatMap String.utf8EncodeChar

@[simp] theorem encode_nil : encode [] = [] := rfl

@[simp] theorem encode_cons (c : Char) (chars : List Char) :
    encode (c :: chars) = String.utf8EncodeChar c ++ encode chars := by
  simp [encode]

/-- The bytes of a string are those of its characters. -/
theorem toUTF8_eq_encode (s : String) : s.toUTF8.data.toList = encode s.toList := by
  rw [String.toUTF8_eq_toByteArray, ← String.utf8Encode_toList]
  simp [List.utf8Encode, encode]

theorem encode_ascii {c : Char} (hascii : c.toNat < 128) :
    String.utf8EncodeChar c = [UInt8.ofNat c.toNat] := by
  unfold String.utf8EncodeChar
  have hle : c.val.toNat ≤ 127 := by
    change c.toNat ≤ 127
    omega
  simp only [hle, ↓reduceIte]
  rfl

/-- No byte of a character outside ASCII is an ASCII byte. -/
theorem le_of_mem_encode {c : Char} {b : UInt8} (hwide : 128 ≤ c.toNat)
    (hb : b ∈ String.utf8EncodeChar c) : 128 ≤ b.toNat := by
  have hlt : ¬ c.val.toNat ≤ 127 := by
    change ¬ c.toNat ≤ 127
    omega
  unfold String.utf8EncodeChar at hb
  simp only [hlt, ↓reduceIte] at hb
  split at hb
  · simp only [List.mem_cons, List.not_mem_nil, or_false] at hb
    obtain rfl | rfl := hb <;> simp only [UInt8.toNat_ofNat'] <;> omega
  · split at hb
    · simp only [List.mem_cons, List.not_mem_nil, or_false] at hb
      obtain rfl | rfl | rfl := hb <;> simp only [UInt8.toNat_ofNat'] <;> omega
    · simp only [List.mem_cons, List.not_mem_nil, or_false] at hb
      obtain rfl | rfl | rfl | rfl := hb <;> simp only [UInt8.toNat_ofNat'] <;> omega

/-- Bytes tell how the character at their head is read. -/
theorem encode_append_inj {c d : Char} {s t : List UInt8}
    (h : String.utf8EncodeChar c ++ s = String.utf8EncodeChar d ++ t) : c = d ∧ s = t := by
  have hc := ByteArray.utf8DecodeChar?_utf8EncodeChar_append (c := c) (b := s.toByteArray)
  have hd := ByteArray.utf8DecodeChar?_utf8EncodeChar_append (c := d) (b := t.toByteArray)
  rw [← List.toByteArray_append] at hc hd
  rw [h, hd] at hc
  obtain rfl := Option.some.inj hc
  exact ⟨rfl, List.append_cancel_left h⟩

/-- What is left of the bytes of `c` once one or more of them, but not all, are
read. -/
def Broken (c : Char) (rest : List UInt8) : Prop :=
  rest ≠ [] ∧ ∃ read, read ≠ [] ∧ String.utf8EncodeChar c = read ++ rest

/-- A character in pieces is outside ASCII. -/
theorem Broken.wide {c : Char} {rest : List UInt8} (h : Broken c rest) : 128 ≤ c.toNat := by
  obtain ⟨hrest, read, hread, heq⟩ := h
  by_contra hascii
  rw [encode_ascii (by omega)] at heq
  cases read with
  | nil => exact hread rfl
  | cons b read =>
    have hempty := (List.cons.inj heq).2
    exact hrest (List.append_eq_nil_iff.1 hempty.symm).2

theorem Broken.le_of_mem {c : Char} {rest : List UInt8} {b : UInt8} (h : Broken c rest)
    (hb : b ∈ rest) : 128 ≤ b.toNat := by
  have hwide := h.wide
  obtain ⟨-, read, -, heq⟩ := h
  exact le_of_mem_encode hwide (by simp [heq, hb])

/-- A shorter piece of a broken character. -/
theorem Broken.suffix {c : Char} {more rest : List UInt8} (h : Broken c (more ++ rest))
    (hrest : rest ≠ []) : Broken c rest := by
  obtain ⟨-, read, hread, heq⟩ := h
  exact ⟨hrest, read ++ more, by simp [hread], by simp [heq]⟩

/-- No character begins with a byte from inside another one. -/
theorem Broken.ne_encode_append {c d : Char} {rest s t : List UInt8} (h : Broken c rest) :
    rest ++ s ≠ String.utf8EncodeChar d ++ t := by
  obtain ⟨hrest, read, hread, heq⟩ := h
  intro heads
  obtain ⟨b, rest, rfl⟩ := List.exists_cons_of_ne_nil hrest
  obtain ⟨b', bytes, hd⟩ := List.exists_cons_of_ne_nil (String.utf8EncodeChar_ne_nil (c := d))
  rw [hd, List.cons_append, List.cons_append] at heads
  obtain rfl := (List.cons.inj heads).1
  have hlength : read.length < (String.utf8EncodeChar c).length := by
    rw [heq, List.length_append, List.length_cons]
    omega
  have hinside : (String.utf8EncodeChar c)[read.length] = b := by
    simp [heq]
  have hstart : b.IsUTF8FirstByte := by
    have hzero : 0 < (String.utf8EncodeChar d).length := by simp [hd]
    have hfirst : (String.utf8EncodeChar d)[0] = b := by simp [hd]
    rw [← hfirst]
    exact UInt8.isUTF8FirstByte_getElem_utf8EncodeChar.2 rfl
  rw [← hinside] at hstart
  have hzero := UInt8.isUTF8FirstByte_getElem_utf8EncodeChar.1 hstart
  exact hread (List.length_eq_zero_iff.1 hzero)

/-- An ASCII byte at the head of the bytes is a character of its own. -/
theorem encode_eq_ascii_cons {chars : List Char} {b : UInt8} {bytes : List UInt8}
    (h : encode chars = b :: bytes) (hascii : b.toNat < 128) :
    ∃ c rest, chars = c :: rest ∧ b = UInt8.ofNat c.toNat ∧ c.toNat < 128 ∧ bytes = encode rest := by
  cases chars with
  | nil => cases h
  | cons c rest =>
    rw [encode_cons] at h
    by_cases hwide : c.toNat < 128
    · rw [encode_ascii hwide, List.singleton_append] at h
      obtain ⟨rfl, rfl⟩ := List.cons.inj h
      exact ⟨c, rest, rfl, rfl, hwide, rfl⟩
    · obtain ⟨b', tail, hc⟩ := List.exists_cons_of_ne_nil (String.utf8EncodeChar_ne_nil (c := c))
      have hle : 128 ≤ b'.toNat := le_of_mem_encode (Nat.le_of_not_lt hwide) (by simp [hc])
      rw [hc, List.cons_append] at h
      obtain rfl := (List.cons.inj h).1
      omega

/-- The bytes of a character are none of the ASCII bytes of other characters. -/
theorem ne_of_mem_encode {c : Char} {b sign : UInt8} (hb : b ∈ String.utf8EncodeChar c)
    (hsign : sign.toNat < 128) (hne : c.toNat ≠ sign.toNat) : b ≠ sign := by
  rintro rfl
  by_cases hascii : c.toNat < 128
  · rw [encode_ascii hascii, List.mem_singleton] at hb
    apply hne
    rw [hb, UInt8.toNat_ofNat']
    omega
  · have hle := le_of_mem_encode (Nat.le_of_not_lt hascii) hb
    omega

theorem char_ne {c d : Char} (h : c ≠ d) : c.toNat ≠ d.toNat :=
  fun heq => h (Char.toNat_inj.1 heq)

/-- Bytes that begin with an ASCII sign are a text that does. -/
theorem encode_eq_sign_cons {d : Char} {chars : List Char} {bytes : List UInt8}
    (hd : d.toNat < 128) (h : encode chars = UInt8.ofNat d.toNat :: bytes) :
    ∃ rest, chars = d :: rest := by
  have hsign : (UInt8.ofNat d.toNat).toNat = d.toNat := by
    rw [UInt8.toNat_ofNat']
    omega
  obtain ⟨c, rest, rfl, heq, hc, -⟩ := encode_eq_ascii_cons h (by omega)
  have hnat := congrArg UInt8.toNat heq
  rw [hsign, UInt8.toNat_ofNat'] at hnat
  obtain rfl : c = d := Char.toNat_inj.1 (by omega)
  exact ⟨rest, rfl⟩

/-- A suffix of a character's bytes in front of others: the whole character, or a
part of it. -/
theorem suffix_encode_iff {c : Char} {left : List UInt8} (hleft : left ≠ []) :
    left <:+ String.utf8EncodeChar c ↔ left = String.utf8EncodeChar c ∨ Broken c left := by
  constructor
  · rintro ⟨read, heq⟩
    by_cases hread : read = []
    · subst hread
      exact .inl (by simpa using heq)
    · exact .inr ⟨hleft, read, hread, heq.symm⟩
  · rintro (rfl | ⟨-, read, -, heq⟩)
    · exact List.suffix_rfl
    · exact ⟨read, heq.symm⟩

end utf8
