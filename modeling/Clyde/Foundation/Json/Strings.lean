import Clyde.Foundation.Json.Syntax

/-!
# The strings of JSON texts

`unescape` reads the characters of the text between two quotes, and `Body.decode` the bytes of the
string; `encodeText` writes such a text for any bytes, and `Body.encode` carries the proof that it
is one. A byte at which no character starts is written as the escaped replacement character.
-/

set_option autoImplicit false

namespace Clyde.Foundation.Json

open ByteCodec Text Utf8 Quoted Option

/-- The number and the rest after a backslash, `u` and four hexadecimal digits. -/
def readUnicode (text : Bytes) : Option (ℕ × Bytes) :=
  if text.take 2 = [0x5C, 0x75] then
    (readDigits 16 unhex 4 (text.drop 2)).map fun number ↦ (number, text.drop 6)
  else none

def isHighSurrogate (number : ℕ) : Bool := 0xD800 ≤ number && number < 0xDC00

def isLowSurrogate (number : ℕ) : Bool := 0xDC00 ≤ number && number < 0xE000

def escapedLetter (letter : UInt8) : Char :=
  Char.ofNat (([(0x62, 0x08), (0x66, 0x0C), (0x6E, 0x0A), (0x72, 0x0D), (0x74, 0x09)].lookup
    letter).getD letter : UInt8).toNat

/-- The first character and the rest. Half a surrogate pair is the replacement character, and so is
a byte at which no character starts. -/
def unescapeOne (text : Bytes) : Option (Char × Bytes) :=
  match text with
  | [] => none
  | byte :: rest =>
    if byte = 0x5C then
      match readUnicode text with
      | some (number, left) =>
        if isHighSurrogate number then
          match readUnicode left with
          | some (low, left') =>
            if isLowSurrogate low then
              some (Char.ofNat (0x10000 + (number - 0xD800) * 0x400 + (low - 0xDC00)), left')
            else some (runeError, left)
          | none => some (runeError, left)
        else if isLowSurrogate number then some (runeError, left)
        else some (Char.ofNat number, left)
      | none =>
        match rest with
        | [] => some (runeError, [])
        | letter :: left => some (escapedLetter letter, left)
    else
      match decodeRune text with
      | some rune => some (rune, text.drop rune.utf8Size)
      | none => some (runeError, rest)

theorem length_readUnicode_lt {text left : Bytes} {number : ℕ}
    (hread : readUnicode text = some (number, left)) : left.length < text.length := by
  unfold readUnicode at hread
  split_ifs at hread with htake
  obtain ⟨_, _, heq⟩ := map_eq_some_iff.mp hread
  obtain ⟨-, rfl⟩ := Prod.mk.inj heq
  have hlength := congrArg List.length htake
  simp only [List.length_take, List.length_cons, List.length_nil, List.length_drop] at hlength ⊢
  omega

theorem length_unescapeOne_lt {text rest : Bytes} {rune : Char}
    (hone : unescapeOne text = some (rune, rest)) : rest.length < text.length := by
  unfold unescapeOne at hone
  split at hone
  · cases hone
  · split_ifs at hone with hslash
    · split at hone
      · next number left hread =>
        have hleft := length_readUnicode_lt hread
        split_ifs at hone
        · split at hone
          · next low left' hlow =>
            have hlow := length_readUnicode_lt hlow
            split_ifs at hone <;> obtain ⟨-, rfl⟩ := Prod.mk.inj (some.inj hone) <;> omega
          · obtain ⟨-, rfl⟩ := Prod.mk.inj (some.inj hone)
            exact hleft
        all_goals
          obtain ⟨-, rfl⟩ := Prod.mk.inj (some.inj hone)
          exact hleft
      · split at hone <;> obtain ⟨-, rfl⟩ := Prod.mk.inj (some.inj hone) <;>
          simp only [List.length_cons, List.length_nil] <;> omega
    split at hone
    · next found hfound =>
      obtain ⟨-, rfl⟩ := Prod.mk.inj (some.inj hone)
      exact length_drop_of_decodeRune hfound
    · obtain ⟨-, rfl⟩ := Prod.mk.inj (some.inj hone)
      simp

def unescape (text : Bytes) : List Char :=
  match _hone : unescapeOne text with
  | none => []
  | some (rune, rest) => rune :: unescape rest
termination_by text.length
decreasing_by exact length_unescapeOne_lt _hone

def Body.decode (body : Body) : Bytes := encodeRunes (unescape body.1)

def letterOf (rune : Char) : Option UInt8 :=
  [('"', 0x22), ('\\', 0x5C), ('\x08', 0x62), ('\x0C', 0x66), ('\n', 0x6E), ('\r', 0x72),
    ('\t', 0x74)].lookup rune

def hexDigit (number : ℕ) : UInt8 :=
  if number < 10 then UInt8.ofNat (0x30 + number) else UInt8.ofNat (0x61 + number - 10)

def writeUnicode (number : ℕ) : Bytes :=
  [0x5C, 0x75, hexDigit (number / 0x1000), hexDigit (number / 0x100 % 16),
    hexDigit (number / 16 % 16), hexDigit (number % 16)]

/-- Control characters, the two line separators and, for HTML, angle brackets and the ampersand. -/
def isNumbered (html : Bool) (rune : Char) : Bool :=
  rune.toNat < 0x20 || rune.toNat = 0x2028 || rune.toNat = 0x2029 ||
    (html && (rune = '<' || rune = '>' || rune = '&'))

/-- One character between quotes. -/
def encodeRune (html : Bool) (rune : Char) : Bytes :=
  match letterOf rune with
  | some letter => [0x5C, letter]
  | none =>
    if isNumbered html rune then writeUnicode rune.toNat else String.utf8EncodeChar rune

def encodeText (html : Bool) (text : Bytes) : Bytes :=
  match _hrune : decodeRune text with
  | some rune => encodeRune html rune ++ encodeText html (text.drop rune.utf8Size)
  | none =>
    match text with
    | [] => []
    | _ :: rest => writeUnicode 0xFFFD ++ encodeText html rest
termination_by text.length
decreasing_by
  · exact length_drop_of_decodeRune _hrune
  · simp

@[simp] theorem encodeText_nil (html : Bool) : encodeText html [] = [] := by
  rw [encodeText]
  split
  · next found hfound =>
    rw [decodeRune_nil] at hfound
    cases hfound
  · rfl

theorem encodeText_of_some (html : Bool) {text : Bytes} {rune : Char}
    (hrune : decodeRune text = some rune) :
    encodeText html text =
      encodeRune html rune ++ encodeText html (text.drop rune.utf8Size) := by
  rw [encodeText]
  split
  · next found hfound =>
    rw [hrune] at hfound
    obtain rfl := Option.some.inj hfound
    rfl
  · next hnone =>
    rw [hrune] at hnone
    cases hnone

theorem encodeText_of_none (html : Bool) {byte : UInt8} {rest : Bytes}
    (hnone : decodeRune (byte :: rest) = none) :
    encodeText html (byte :: rest) = writeUnicode 0xFFFD ++ encodeText html rest := by
  rw [encodeText]
  split
  · next found hfound =>
    rw [hnone] at hfound
    cases hfound
  · rfl

theorem isNumbered_code {html : Bool} {rune : Char} (hnumbered : isNumbered html rune = true) :
    rune.toNat < 0x10000 := by
  have hcases : rune.toNat < 0x20 ∨ rune.toNat = 0x2028 ∨ rune.toNat = 0x2029 ∨
      rune = '<' ∨ rune = '>' ∨ rune = '&' := by
    simp only [isNumbered, Bool.or_eq_true, decide_eq_true_eq, Bool.and_eq_true] at hnumbered
    tauto
  rcases hcases with hlt | heq | heq | rfl | rfl | rfl
  · omega
  · omega
  · omega
  all_goals decide

theorem scan_append {σ : Type} {step : σ → UInt8 → Option σ} {first second third : σ}
    {text more : Bytes} (htext : scan step first text = some second)
    (hmore : scan step second more = some third) : scan step first (text ++ more) = some third := by
  induction text generalizing first with
  | nil =>
    obtain rfl := Option.some.inj htext
    exact hmore
  | cons byte text ih =>
    obtain ⟨next, hnext, htext⟩ := Option.bind_eq_some_iff.mp htext
    rw [List.cons_append, scan_cons, hnext]
    exact ih htext

theorem isHex_hexDigit : ∀ {number : ℕ}, number < 16 → isHex (hexDigit number) = true := by
  decide

theorem scan_writeUnicode {number : ℕ} (hlt : number < 0x10000) :
    scan bodyStep .plain (writeUnicode number) = some .plain := by
  have hfirst := isHex_hexDigit (by omega : number / 0x1000 < 16)
  have hsecond := isHex_hexDigit (by omega : number / 0x100 % 16 < 16)
  have hthird := isHex_hexDigit (by omega : number / 16 % 16 < 16)
  have hfourth := isHex_hexDigit (by omega : number % 16 < 16)
  have hslash : bodyStep .plain 0x5C = some .escape := rfl
  have hmark : bodyStep .escape 0x75 = some (.hex 3) := by decide
  have hhex {more : ℕ} {byte : UInt8} (hbyte : isHex byte = true) :
      bodyStep (.hex (more + 1)) byte = some (.hex more) := by simp [bodyStep, hbyte]
  have hlast {byte : UInt8} (hbyte : isHex byte = true) :
      bodyStep (.hex 0) byte = some .plain := by simp [bodyStep, hbyte]
  simp only [writeUnicode, scan_cons, hslash, hmark, hhex hfirst, hhex hsecond, hhex hthird,
    hlast hfourth, Option.bind_some, scan_nil]

theorem scan_plain {text : Bytes}
    (hplain : ∀ byte ∈ text, byte ≠ 0x22 ∧ byte ≠ 0x5C ∧ 0x20 ≤ byte) :
    scan bodyStep .plain text = some .plain := by
  induction text with
  | nil => rfl
  | cons byte text ih =>
    obtain ⟨hquote, hslash, hcontrol⟩ := hplain byte List.mem_cons_self
    have hstep : bodyStep .plain byte = some .plain := by
      simp [bodyStep, hquote, hslash, UInt8.not_lt.mpr hcontrol]
    rw [scan_cons, hstep]
    exact ih fun other hother ↦ hplain other (List.mem_cons_of_mem _ hother)

/-- An encoded rune is a plain part of a string's body. -/
theorem scan_encodeRune (html : Bool) (rune : Char) :
    scan bodyStep .plain (encodeRune html rune) = some .plain := by
  unfold encodeRune
  split
  · next letter hletter =>
    have hpairs : letter ∈ bytesOf "bfnrt\\/\"" := by
      obtain ⟨front, back, heq, -⟩ := List.lookup_eq_some_iff.mp hletter
      have hmem : (rune, letter) ∈ front ++ (rune, letter) :: back :=
        List.mem_append_right _ List.mem_cons_self
      rw [← heq] at hmem
      simp only [List.mem_cons, Prod.mk.injEq, List.not_mem_nil, or_false] at hmem
      rcases hmem with ⟨rfl, rfl⟩ | ⟨rfl, rfl⟩ | ⟨rfl, rfl⟩ | ⟨rfl, rfl⟩ | ⟨rfl, rfl⟩ |
        ⟨rfl, rfl⟩ | ⟨rfl, rfl⟩ <;> decide
    have hslash : bodyStep .plain 0x5C = some .escape := rfl
    have hstep : bodyStep .escape letter = some .plain := by simp only [bodyStep, if_pos hpairs]
    simp only [scan_cons, hslash, hstep, Option.bind_some, scan_nil]
  · next hletter =>
    split_ifs with hnumbered
    · exact scan_writeUnicode (isNumbered_code hnumbered)
    refine scan_plain fun byte hbyte ↦ ?_
    have hchar (mark : UInt8) (hlt : mark < 0x80) (heq : byte = mark) :
        rune = Char.ofNat mark.toNat := by
      subst heq
      exact encode_of_mem_of_lt hbyte hlt
    refine ⟨fun heq ↦ ?_, fun heq ↦ ?_, ?_⟩
    · rw [hchar 0x22 (by decide) heq] at hletter
      cases hletter
    · rw [hchar 0x5C (by decide) heq] at hletter
      cases hletter
    by_contra hcontrol
    have hcontrol : byte < 0x20 := UInt8.not_le.mp hcontrol
    obtain rfl := encode_of_mem_of_lt hbyte (UInt8.lt_trans hcontrol (by decide))
    have hnat : byte.toNat < 0x20 := hcontrol
    have hvalid : byte.toNat.isValidChar := .inl (by omega)
    have hcode : (Char.ofNat byte.toNat).toNat = byte.toNat := by
      rw [Char.ofNat, dif_pos hvalid]
      rfl
    exact hnumbered (by simp [isNumbered, hcode, hnat])

theorem scan_encodeText (html : Bool) (text : Bytes) :
    scan bodyStep .plain (encodeText html text) = some .plain := by
  induction text using runes.induct with
  | case1 _ rune hrune ih =>
    rw [encodeText_of_some html hrune]
    exact scan_append (scan_encodeRune html rune) ih
  | case2 =>
    rw [encodeText_nil]
    rfl
  | case3 _ _ hnone ih =>
    rw [encodeText_of_none html hnone]
    exact scan_append (scan_writeUnicode (by decide)) ih

def Body.encode (html : Bool) (text : Bytes) : Body :=
  ⟨encodeText html text, scan_encodeText html text⟩

end Clyde.Foundation.Json
