import Clyde.Foundation.ByteCodec
import Mathlib.Data.List.Infix

/-!
# Text as bytes

Strings are byte strings, as in Go. `indexOf` is the first occurrence of one string in another. A
string that has no proper border (`Borderless`) cannot occur across the end of a text and the start
of its own occurrence (`indexOf_append_of_borderless`). `itoa` and `atoi` write and read decimal
numbers.
-/

set_option autoImplicit false

namespace Clyde.Foundation.Text

open ByteCodec List

def whiteSpace : List Bytes :=
  [[0x09], [0x0A], [0x0B], [0x0C], [0x0D], [0x20], [0xC2, 0x85], [0xC2, 0xA0], [0xE1, 0x9A, 0x80],
    [0xE2, 0x80, 0x80], [0xE2, 0x80, 0x81], [0xE2, 0x80, 0x82], [0xE2, 0x80, 0x83],
    [0xE2, 0x80, 0x84], [0xE2, 0x80, 0x85], [0xE2, 0x80, 0x86], [0xE2, 0x80, 0x87],
    [0xE2, 0x80, 0x88], [0xE2, 0x80, 0x89], [0xE2, 0x80, 0x8A], [0xE2, 0x80, 0xA8],
    [0xE2, 0x80, 0xA9], [0xE2, 0x80, 0xAF], [0xE2, 0x81, 0x9F], [0xE3, 0x80, 0x80]]

/-- Removes up to `count` white space characters from the front. -/
def trimSpaceLeft : ℕ → Bytes → Bytes
  | 0, text => text
  | count + 1, text =>
    match whiteSpace.find? fun space ↦ space.isPrefixOf text with
    | some space => trimSpaceLeft count (text.drop space.length)
    | none => text

/-- Removes up to `count` white space characters from the end. -/
def trimSpaceRight : ℕ → Bytes → Bytes
  | 0, text => text
  | count + 1, text =>
    match whiteSpace.find? fun space ↦ space.isSuffixOf text with
    | some space => trimSpaceRight count (text.take (text.length - space.length))
    | none => text

def trimSpace (text : Bytes) : Bytes := trimSpaceRight text.length (trimSpaceLeft text.length text)

def isBlank (text : Bytes) : Bool := trimSpaceLeft text.length text = []

def bytesOf (literal : String) : Bytes := literal.toUTF8.data.toList

def itoa (number : ℕ) : Bytes := (Nat.toDigits 10 number).map fun digit ↦ UInt8.ofNat digit.toNat

/-- The decimal digits of an integer, after a sign if it is negative. -/
def itoaInt (number : ℤ) : Bytes :=
  if number < 0 then 0x2D :: itoa number.natAbs else itoa number.natAbs

def isDigit (byte : UInt8) : Bool := 0x30 ≤ byte && byte ≤ 0x39

/-- The number that decimal digits write. -/
def atoi (text : Bytes) : Option ℕ :=
  if text = [] ∨ ¬text.all isDigit then none
  else some (text.foldl (fun number digit ↦ 10 * number + (digit.toNat - 0x30)) 0)

theorem isDigit_ofNat {digit : Char} (hdigit : digit.isDigit = true) :
    isDigit (UInt8.ofNat digit.toNat) = true ∧ (UInt8.ofNat digit.toNat).toNat = digit.toNat := by
  simp only [Char.isDigit, Bool.and_eq_true, decide_eq_true_eq, ge_iff_le] at hdigit
  have hlow : 48 ≤ digit.toNat := hdigit.1
  have hhigh : digit.toNat ≤ 57 := hdigit.2
  have hnat : (UInt8.ofNat digit.toNat).toNat = digit.toNat := by
    rw [UInt8.toNat_ofNat']
    omega
  refine ⟨?_, hnat⟩
  simp only [isDigit, Bool.and_eq_true, decide_eq_true_eq, UInt8.le_iff_toNat_le, hnat]
  exact ⟨hlow, hhigh⟩

theorem itoa_ne_nil (number : ℕ) : itoa number ≠ [] := by simp [itoa]

theorem isDigit_of_mem_itoa {number : ℕ} {byte : UInt8} (hbyte : byte ∈ itoa number) :
    isDigit byte = true := by
  obtain ⟨_, hdigit, rfl⟩ := mem_map.mp hbyte
  exact (isDigit_ofNat (Nat.isDigit_of_mem_toDigits (by decide) (by decide) hdigit)).1

@[simp] theorem atoi_itoa (number : ℕ) : atoi (itoa number) = some number := by
  have hdigits : (itoa number).all isDigit = true :=
    all_eq_true.mpr fun _ hbyte ↦ isDigit_of_mem_itoa hbyte
  rw [atoi, if_neg (by simp [itoa_ne_nil, hdigits]), itoa, foldl_map]
  have hvalue : ∀ (digits : List Char), (∀ digit ∈ digits, digit.isDigit = true) → ∀ start,
      digits.foldl (fun number digit ↦ 10 * number + ((UInt8.ofNat digit.toNat).toNat - 0x30))
        start = Nat.ofDigitChars 10 digits start := by
    intro digits hall
    induction digits with
    | nil => exact fun _ ↦ Nat.ofDigitChars_nil.symm
    | cons digit _ ih =>
      intro _
      rw [foldl_cons, Nat.ofDigitChars_cons, ih fun other hother ↦
        hall other (mem_cons_of_mem _ hother),
        (isDigit_ofNat (hall digit mem_cons_self)).2]
      rfl
  rw [hvalue _ fun digit hdigit ↦ Nat.isDigit_of_mem_toDigits (by decide) (by decide) hdigit]
  simp

theorem append_cons_inj_of_not_mem {α : Type} {separator : α} {first second rest other : List α}
    (hfirst : separator ∉ first) (hsecond : separator ∉ second)
    (hsame : first ++ separator :: rest = second ++ separator :: other) :
    first = second ∧ rest = other := by
  induction first generalizing second with
  | nil =>
    cases second with
    | nil => exact ⟨rfl, (List.cons.inj hsame).2⟩
    | cons head second => exact absurd ((List.cons.inj hsame).1 ▸ mem_cons_self) hsecond
  | cons _ _ ih =>
    cases second with
    | nil => exact absurd ((List.cons.inj hsame).1 ▸ mem_cons_self) hfirst
    | cons =>
      obtain ⟨hhead, htail⟩ := List.cons.inj hsame
      obtain ⟨hrest, hother⟩ := ih (fun hmem ↦ hfirst (mem_cons_of_mem _ hmem))
        (fun hmem ↦ hsecond (mem_cons_of_mem _ hmem)) htail
      exact ⟨by rw [hhead, hrest], hother⟩

variable {α : Type} [DecidableEq α]

def indexOf (needle : List α) : List α → Option ℕ
  | [] => if needle = [] then some 0 else none
  | first :: rest =>
    if needle <+: first :: rest then some 0 else (indexOf needle rest).map (· + 1)

variable {needle text : List α}

theorem indexOf_eq_none_iff : indexOf needle text = none ↔ ¬needle <:+: text := by
  induction text with
  | nil => by_cases hneedle : needle = [] <;> simp [indexOf, hneedle]
  | cons first rest ih =>
    rw [indexOf, infix_cons_iff]
    by_cases hstarts : needle <+: first :: rest <;> simp [hstarts, ih]

/-- The position that is found is the first at which the needle stands. -/
theorem indexOf_eq_some {position : ℕ} (hindex : indexOf needle text = some position) :
    needle <+: text.drop position ∧ position ≤ text.length ∧
      ∀ earlier < position, ¬needle <+: text.drop earlier := by
  induction text generalizing position with
  | nil =>
    rw [indexOf] at hindex
    split_ifs at hindex with hneedle
    cases hindex
    exact ⟨by simp [hneedle], Nat.le_refl _, by simp⟩
  | cons _ _ ih =>
    rw [indexOf] at hindex
    split_ifs at hindex with hstarts
    · cases hindex
      exact ⟨hstarts, Nat.zero_le _, by simp⟩
    obtain ⟨_, hprevious, rfl⟩ := Option.map_eq_some_iff.mp hindex
    obtain ⟨hfound, hlength, hfirst⟩ := ih hprevious
    refine ⟨hfound, Nat.succ_le_succ hlength, ?_⟩
    intro earlier hearlier
    cases earlier with
    | zero => exact hstarts
    | succ earlier => exact hfirst earlier (Nat.lt_of_succ_lt_succ hearlier)

theorem indexOf_of_first {position : ℕ} (hfound : needle <+: text.drop position)
    (hlength : position ≤ text.length)
    (hfirst : ∀ earlier < position, ¬needle <+: text.drop earlier) :
    indexOf needle text = some position := by
  induction text generalizing position with
  | nil =>
    obtain rfl : position = 0 := Nat.le_zero.mp hlength
    rw [indexOf, if_pos (prefix_nil.mp hfound)]
  | cons first rest ih =>
    rw [indexOf]
    cases position with
    | zero => exact if_pos hfound
    | succ position =>
      have hstarts : ¬needle <+: first :: rest := hfirst 0 (Nat.succ_pos position)
      rw [if_neg hstarts, ih hfound (Nat.le_of_succ_le_succ hlength) fun earlier hearlier ↦
        hfirst _ (Nat.succ_lt_succ hearlier)]
      rfl

/-- No proper part at the front of the string is also at its end. -/
def Borderless (needle : List α) : Prop :=
  ∀ size < needle.length, 0 < size → needle.take size ≠ needle.drop (needle.length - size)

instance (needle : List α) : Decidable (Borderless needle) :=
  inferInstanceAs (Decidable (∀ size < needle.length, 0 < size →
    needle.take size ≠ needle.drop (needle.length - size)))

/-- In front of an occurrence of a string without borders, only the text before it counts. -/
theorem indexOf_append_of_borderless (hborderless : Borderless needle)
    {before : List α} (hbefore : ¬needle <:+: before) (rest : List α) :
    indexOf needle (before ++ needle ++ rest) = some before.length := by
  refine indexOf_of_first ?_ ?_ ?_
  · rw [append_assoc, drop_left]
    exact prefix_append needle rest
  · simp only [length_append]
    omega
  intro earlier hearlier hoccurs
  rw [append_assoc, drop_append_of_le_length (Nat.le_of_lt hearlier)] at hoccurs
  have hlength : (before.drop earlier).length = before.length - earlier := length_drop
  rcases Nat.lt_or_ge (before.length - earlier) needle.length with hshort | _
  · -- the occurrence runs over the end of `before`: what is left of it is a border
    obtain ⟨tail, htail⟩ := hoccurs
    have hborder : needle.drop (before.length - earlier) ++ tail = needle ++ rest := by
      have := congrArg (List.drop (before.length - earlier)) htail
      rwa [drop_append_of_le_length (Nat.le_of_lt hshort), drop_left' hlength] at this
    have hsize : (needle.drop (before.length - earlier)).length =
        needle.length - (before.length - earlier) := length_drop
    refine hborderless (needle.length - (before.length - earlier)) (by omega) (by omega) ?_
    have htake := congrArg (List.take (needle.length - (before.length - earlier))) hborder
    rw [take_left' hsize, take_append_of_le_length (by omega)] at htake
    rw [← htake]
    congr 1
    omega
  · have hinside : needle <+: before.drop earlier :=
      prefix_of_prefix_length_le hoccurs (prefix_append _ _) (by omega)
    exact hbefore (hinside.isInfix.trans (drop_suffix earlier before).isInfix)

end Clyde.Foundation.Text
