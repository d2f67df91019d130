import Clyde.Foundation.ByteCodec

/-!
# Characters of byte strings

A byte string need not be valid UTF-8. `decodeRune` reads the character at its front, `runes` the
whole string, with the replacement character for each byte at which no character starts, and
`encodeRunes` writes characters. `runes_encodeRunes_append` reads written characters back, and
`Valid` holds exactly for the strings that were written (`valid_iff`).
-/

set_option autoImplicit false

namespace Clyde.Foundation.Utf8

open ByteCodec List

/-- The character that stands for a byte at which none starts. -/
def runeError : Char := '�'

/-- The character at the front of a byte string, if the bytes there encode one. -/
def decodeRune (text : Bytes) : Option Char := text.toByteArray.utf8DecodeChar? 0

variable (rune : Char)

@[simp] theorem decodeRune_encode_append (rest : Bytes) :
    decodeRune (String.utf8EncodeChar rune ++ rest) = some rune := by
  rw [decodeRune, toByteArray_append]
  exact ByteArray.utf8DecodeChar?_utf8EncodeChar_append

variable {text : Bytes} {rune : Char}

theorem decodeRune_eq_some (hrune : decodeRune text = some rune) :
    ∃ rest, text = String.utf8EncodeChar rune ++ rest := by
  obtain ⟨rest, hrest⟩ := ByteArray.exists_of_utf8DecodeChar?_eq_some hrune
  refine ⟨rest.data.toList, ?_⟩
  have hlists := congrArg (fun bytes : ByteArray ↦ bytes.data.toList) hrest
  simpa using hlists

@[simp] theorem decodeRune_nil : decodeRune [] = none := by
  rcases hrune : decodeRune [] with - | _
  · rfl
  · obtain ⟨_, hrest⟩ := decodeRune_eq_some hrune
    exact absurd (append_eq_nil_iff.mp hrest.symm).1 String.utf8EncodeChar_ne_nil

theorem length_drop_of_decodeRune
    (hrune : decodeRune text = some rune) : (text.drop rune.utf8Size).length < text.length := by
  obtain ⟨_, rfl⟩ := decodeRune_eq_some hrune
  have hpos := rune.utf8Size_pos
  simp only [length_drop, length_append, String.length_utf8EncodeChar]
  omega

def runes (text : Bytes) : List Char :=
  match _hrune : decodeRune text with
  | some rune => rune :: runes (text.drop rune.utf8Size)
  | none =>
    match text with
    | [] => []
    | _ :: rest => runeError :: runes rest
termination_by text.length
decreasing_by
  · exact length_drop_of_decodeRune _hrune
  · simp

def encodeRunes (characters : List Char) : Bytes := characters.flatMap String.utf8EncodeChar

@[simp] theorem encodeRunes_nil : encodeRunes [] = [] := rfl

@[simp] theorem encodeRunes_cons (rest : List Char) :
    encodeRunes (rune :: rest) = String.utf8EncodeChar rune ++ encodeRunes rest := rfl

@[simp] theorem runes_nil : runes [] = [] := by
  rw [runes]
  split
  · next found hfound => simp at hfound
  · rfl

theorem runes_of_some (hrune : decodeRune text = some rune) :
    runes text = rune :: runes (text.drop rune.utf8Size) := by
  rw [runes]
  split
  · next found hfound =>
    rw [hrune] at hfound
    cases hfound
    rfl
  · next hnone =>
    rw [hrune] at hnone
    cases hnone

theorem runes_of_none {byte : UInt8} {rest : Bytes} (hnone : decodeRune (byte :: rest) = none) :
    runes (byte :: rest) = runeError :: runes rest := by
  rw [runes]
  split
  · next found hfound =>
    simp [hnone] at hfound
  · rfl

@[simp] theorem runes_encode_append (rest : Bytes) :
    runes (String.utf8EncodeChar rune ++ rest) = rune :: runes rest := by
  rw [runes_of_some (decodeRune_encode_append rune rest),
    drop_left' (String.length_utf8EncodeChar rune)]

theorem runes_encodeRunes_append (characters : List Char) (rest : Bytes) :
    runes (encodeRunes characters ++ rest) = characters ++ runes rest := by
  induction characters with
  | nil => rfl
  | cons _ _ ih => rw [encodeRunes_cons, append_assoc, runes_encode_append, ih, cons_append]

@[simp] theorem runes_encodeRunes (characters : List Char) :
    runes (encodeRunes characters) = characters := by
  simpa using runes_encodeRunes_append characters []

/-- The bytes are the encoding of their characters. -/
def Valid (text : Bytes) : Prop := encodeRunes (runes text) = text

theorem valid_iff : Valid text ↔ ∃ characters, text = encodeRunes characters := by
  constructor
  · exact fun hvalid ↦ ⟨runes text, hvalid.symm⟩
  · rintro ⟨_, rfl⟩
    rw [Valid, runes_encodeRunes]

theorem encode_of_mem_of_lt {byte : UInt8} (hmem : byte ∈ String.utf8EncodeChar rune)
    (hlt : byte < 0x80) :
    rune = Char.ofNat byte.toNat := by
  have hlt : byte.toNat < 128 := hlt
  rw [String.utf8EncodeChar.eq_1] at hmem
  split_ifs at hmem with hone htwo hthree
  · obtain rfl := mem_singleton.mp hmem
    rw [UInt8.toNat_ofNat', Nat.mod_eq_of_lt (by omega)]
    exact (Char.ofNat_toNat rune).symm
  all_goals
    simp only [mem_cons, not_mem_nil, or_false] at hmem
    rcases hmem with rfl | hmem
    · simp only [UInt8.toNat_ofNat'] at hlt
      omega
  · obtain rfl := hmem
    simp only [UInt8.toNat_ofNat'] at hlt
    omega
  · rcases hmem with rfl | rfl <;> simp [UInt8.toNat_ofNat'] at hlt <;> omega
  · rcases hmem with rfl | rfl | rfl <;> simp [UInt8.toNat_ofNat'] at hlt <;> omega

end Clyde.Foundation.Utf8
