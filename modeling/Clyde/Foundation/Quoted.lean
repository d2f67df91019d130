import Clyde.Foundation.Text
import Clyde.Foundation.Utf8

/-!
# Quoted literals

The literals that Go's `strconv` package reads: characters between double quotes with escapes, one
character between single quotes, and raw text between back quotes. `consumeQuoted` reads the literal
at the front of a text and gives its value and the text after it.
-/

set_option autoImplicit false

namespace Clyde.Foundation.Quoted

open ByteCodec Utf8 List

/-- The value of a hexadecimal digit. -/
def unhex (byte : UInt8) : Option ℕ :=
  if 0x30 ≤ byte ∧ byte ≤ 0x39 then some (byte.toNat - 0x30)
  else if 0x61 ≤ byte ∧ byte ≤ 0x66 then some (byte.toNat - 0x61 + 10)
  else if 0x41 ≤ byte ∧ byte ≤ 0x46 then some (byte.toNat - 0x41 + 10)
  else none

/-- The value of an octal digit. -/
def unoctal (byte : UInt8) : Option ℕ :=
  if 0x30 ≤ byte ∧ byte ≤ 0x37 then some (byte.toNat - 0x30) else none

def readDigits (base : ℕ) (digit : UInt8 → Option ℕ) (count : ℕ) (text : Bytes) : Option ℕ :=
  if text.length < count then none
  else ((text.take count).mapM digit).map fun digits ↦
    digits.foldl (fun number value ↦ base * number + value) 0

/-- Bell, backspace, form feed, newline, carriage return, tabs and the backslash. -/
def letterEscapes : List (UInt8 × UInt8) :=
  [(0x61, 0x07), (0x62, 0x08), (0x66, 0x0C), (0x6E, 0x0A), (0x72, 0x0D), (0x74, 0x09),
    (0x76, 0x0B), (0x5C, 0x5C)]

def escapedRune (number : ℕ) : Option Bytes :=
  if number.isValidChar then some (String.utf8EncodeChar (Char.ofNat number)) else none

/-- What an escape stands for and the text after it, from the text after the backslash. -/
def unescape (mark quote : UInt8) (rest : Bytes) : Option (Bytes × Bytes) :=
  match letterEscapes.lookup mark with
  | some byte => some ([byte], rest)
  | none =>
    if mark = 0x78 then
      (readDigits 16 unhex 2 rest).map fun number ↦ ([UInt8.ofNat number], rest.drop 2)
    else if mark = 0x75 then
      ((readDigits 16 unhex 4 rest).bind escapedRune).map fun bytes ↦ (bytes, rest.drop 4)
    else if mark = 0x55 then
      ((readDigits 16 unhex 8 rest).bind escapedRune).map fun bytes ↦ (bytes, rest.drop 8)
    else if (unoctal mark).isSome then
      match readDigits 8 unoctal 3 (mark :: rest) with
      | none => none
      | some number => if 255 < number then none else some ([UInt8.ofNat number], rest.drop 2)
    else if mark = 0x27 ∨ mark = 0x22 then
      if mark = quote then some ([mark], rest) else none
    else none

def unquoteChar (quote first : UInt8) (rest : Bytes) : Option (Bytes × Bytes) :=
  if first = quote then none
  else if 0x80 ≤ first then
    match decodeRune (first :: rest) with
    | some rune => some (String.utf8EncodeChar rune, (first :: rest).drop rune.utf8Size)
    | none => some (String.utf8EncodeChar runeError, rest)
  else if first ≠ 0x5C then some ([first], rest)
  else
    match rest with
    | [] => none
    | mark :: rest => unescape mark quote rest

variable {rest chunk remaining : Bytes}

theorem length_unescape_le {mark quote : UInt8}
    (hchunk : unescape mark quote rest = some (chunk, remaining)) :
    remaining.length ≤ rest.length := by
  unfold unescape at hchunk
  split at hchunk
  · cases hchunk
    exact Nat.le_refl _
  split_ifs at hchunk
  · obtain ⟨_, -, hsame⟩ := Option.map_eq_some_iff.mp hchunk
    cases hsame
    exact (drop_sublist _ _).length_le
  · obtain ⟨_, -, hsame⟩ := Option.map_eq_some_iff.mp hchunk
    cases hsame
    exact (drop_sublist _ _).length_le
  · obtain ⟨_, -, hsame⟩ := Option.map_eq_some_iff.mp hchunk
    cases hsame
    exact (drop_sublist _ _).length_le
  · split at hchunk
    · cases hchunk
    · split_ifs at hchunk
      cases hchunk
      exact (drop_sublist _ _).length_le
  · cases hchunk
    exact Nat.le_refl _

theorem length_unquoteChar_le {quote first : UInt8}
    (hchunk : unquoteChar quote first rest = some (chunk, remaining)) :
    remaining.length ≤ rest.length := by
  unfold unquoteChar at hchunk
  split_ifs at hchunk
  · split at hchunk
    · next hrune =>
      cases hchunk
      exact Nat.le_of_lt_succ (length_drop_of_decodeRune hrune)
    · cases hchunk
      exact Nat.le_refl _
  · cases hchunk
    exact Nat.le_refl _
  · split at hchunk
    · cases hchunk
    · exact (length_unescape_le hchunk).trans (Nat.le_succ _)

/-- The value of a literal up to its closing quote, and the text after that. -/
def unquoteRest (quote : UInt8) (text : Bytes) : Option (Bytes × Bytes) :=
  match text with
  | [] => none
  | first :: rest =>
    if first = quote then some ([], rest)
    else if first = 0x0A then none
    else
      match _hchunk : unquoteChar quote first rest with
      | none => none
      | some (chunk, remaining) =>
        (unquoteRest quote remaining).map fun value ↦ (chunk ++ value.1, value.2)
termination_by text.length
decreasing_by
  exact Nat.lt_succ_of_le (length_unquoteChar_le _hchunk)

/-- The value of a literal between single quotes, which has at most one character. -/
def unquoteRune (text : Bytes) : Option (Bytes × Bytes) :=
  match text with
  | [] => none
  | first :: rest =>
    if first = 0x27 then some ([], rest)
    else if first = 0x0A then none
    else
      match unquoteChar 0x27 first rest with
      | some (chunk, last :: remaining) =>
        if last = 0x27 then some (chunk, remaining) else none
      | _ => none

/-- The value of a raw literal, which leaves carriage returns out. -/
def unquoteRaw (text : Bytes) : Option (Bytes × Bytes) :=
  (Text.indexOf [0x60] text).map fun size ↦
    ((text.take size).filter (· ≠ 0x0D), text.drop (size + 1))

/-- The value of the literal at the front of a text, and the text after it. -/
def consumeQuoted : Bytes → Option (Bytes × Bytes)
  | [] => none
  | first :: rest =>
    if first = 0x60 then unquoteRaw rest
    else if first = 0x22 then unquoteRest 0x22 rest
    else if first = 0x27 then unquoteRune rest
    else none

variable {value : Bytes}

theorem length_unquoteRest_le (quote : UInt8) (text : Bytes)
    (hvalue : unquoteRest quote text = some (value, rest)) : rest.length ≤ text.length := by
  fun_induction unquoteRest quote text generalizing value with
  | case1 => cases hvalue
  | case2 => cases hvalue; exact Nat.le_succ _
  | case3 => cases hvalue
  | case4 => cases hvalue
  | case5 _ _ _ _ _ _ hchunk ih =>
    obtain ⟨⟨_, _⟩, htail, hsame⟩ := Option.map_eq_some_iff.mp hvalue
    cases hsame
    have hread := length_unquoteChar_le hchunk
    have hlater := ih htail
    exact hlater.trans (hread.trans (Nat.le_succ _))

variable {text : Bytes}

theorem length_unquoteRune_le
    (hvalue : unquoteRune text = some (value, rest)) : rest.length ≤ text.length := by
  unfold unquoteRune at hvalue
  split at hvalue
  · cases hvalue
  split_ifs at hvalue
  · cases hvalue
    exact Nat.le_succ _
  split at hvalue
  · next hchunk =>
    split_ifs at hvalue
    cases hvalue
    have := length_unquoteChar_le hchunk
    simp only [length_cons] at this ⊢
    omega
  · cases hvalue

theorem length_consumeQuoted_le
    (hvalue : consumeQuoted text = some (value, rest)) : rest.length ≤ text.length := by
  unfold consumeQuoted at hvalue
  split at hvalue
  · cases hvalue
  split_ifs at hvalue
  · obtain ⟨_, -, hsame⟩ := Option.map_eq_some_iff.mp hvalue
    cases hsame
    exact ((drop_sublist _ _).length_le).trans (Nat.le_succ _)
  · exact (length_unquoteRest_le _ _ hvalue).trans (Nat.le_succ _)
  · exact (length_unquoteRune_le hvalue).trans (Nat.le_succ _)

def isPlain (byte : UInt8) : Bool := 0x20 ≤ byte && byte < 0x7F && byte ≠ 0x22 && byte ≠ 0x5C

/-- The literal of a plain text. -/
def quote (text : Bytes) : Bytes := 0x22 :: (text ++ [0x22])

theorem unquoteRest_plain (hplain : text.all isPlain = true) (rest : Bytes) :
    unquoteRest 0x22 (text ++ 0x22 :: rest) = some (text, rest) := by
  induction text with
  | nil => rw [nil_append, unquoteRest, if_pos rfl]
  | cons first text ih =>
    rw [all_cons, Bool.and_eq_true] at hplain
    have hfirst := hplain.1
    simp only [isPlain, Bool.and_eq_true, decide_eq_true_eq, UInt8.le_iff_toNat_le,
      UInt8.lt_iff_toNat_lt] at hfirst
    obtain ⟨⟨⟨hlow, hhigh⟩, hquote⟩, hbackslash⟩ := hfirst
    have hnewline : first ≠ 0x0A := by
      rintro rfl
      simp at hlow
    have hascii : ¬(0x80 : UInt8) ≤ first := by
      change ¬128 ≤ first.toNat
      change first.toNat < 127 at hhigh
      omega
    have hchar : unquoteChar 0x22 first (text ++ 0x22 :: rest) =
        some ([first], text ++ 0x22 :: rest) := by
      unfold unquoteChar
      rw [if_neg hquote, if_neg hascii, if_pos hbackslash]
    rw [cons_append, unquoteRest, if_neg hquote, if_neg hnewline]
    split
    · next hnone => rw [hchar] at hnone; cases hnone
    · next chunk remaining hsome =>
      rw [hchar] at hsome
      cases hsome
      rw [ih hplain.2]
      rfl

theorem consumeQuoted_quote_append (hplain : text.all isPlain = true)
    (rest : Bytes) : consumeQuoted (quote text ++ rest) = some (text, rest) := by
  rw [quote, cons_append, append_assoc, consumeQuoted]
  exact unquoteRest_plain hplain rest

theorem isPlain_itoa (number : ℕ) : (Text.itoa number).all isPlain = true := by
  rw [all_eq_true]
  intro byte hbyte
  have hdigit := Text.isDigit_of_mem_itoa hbyte
  simp only [Text.isDigit, Bool.and_eq_true, decide_eq_true_eq, UInt8.le_iff_toNat_le] at hdigit
  change 48 ≤ byte.toNat ∧ byte.toNat ≤ 57 at hdigit
  simp only [isPlain, Bool.and_eq_true, decide_eq_true_eq, UInt8.le_iff_toNat_le,
    UInt8.lt_iff_toNat_lt, ne_eq, ← UInt8.toNat_inj]
  change ((32 ≤ byte.toNat ∧ byte.toNat < 127) ∧ ¬byte.toNat = 34) ∧ ¬byte.toNat = 92
  omega

end Clyde.Foundation.Quoted
