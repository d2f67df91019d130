import Mathlib.Data.Nat.Digits.Defs

/-!
# Fixed-width words and base-128 integers

Byte strings are lists of bytes. `littleEndian width value` writes the low `width` bytes of a
natural number, lowest first, and `littleEndianValue` reads them back.

`appendUvarint` and `uvarint` are the base-128 encoding of a 64-bit word: seven bits a byte, lowest
group first, with the high bit set on every byte but the last. The reader refuses an eleventh byte
and a tenth byte above one, so it accepts only words below `2 ^ 64`. `appendVarint` and `varint` are
the signed form, which folds the sign into the lowest bit.
-/

set_option autoImplicit false

namespace Clyde.Foundation.ByteCodec

abbrev Bytes := List UInt8

instance lawfulBEq_bytes : LawfulBEq Bytes := inferInstance

/-- The low `width` bytes of a value, lowest first. -/
def littleEndian : ℕ → ℕ → Bytes
  | 0, _ => []
  | width + 1, value => UInt8.ofNat value :: littleEndian width (value / 256)

def littleEndianValue (bytes : Bytes) : ℕ := Nat.ofDigits 256 (bytes.map UInt8.toNat)

@[simp] theorem length_littleEndian (width value : ℕ) :
    (littleEndian width value).length = width := by
  induction width generalizing value with
  | zero => rfl
  | succ _ ih => simp [littleEndian, ih]

@[simp] theorem littleEndianValue_nil : littleEndianValue [] = 0 := rfl

@[simp] theorem littleEndianValue_cons (byte : UInt8) (rest : Bytes) :
    littleEndianValue (byte :: rest) = byte.toNat + 256 * littleEndianValue rest := by
  simp [littleEndianValue, Nat.ofDigits_cons]

theorem littleEndianValue_littleEndian (width value : ℕ) :
    littleEndianValue (littleEndian width value) = value % 256 ^ width := by
  induction width generalizing value with
  | zero => simp [littleEndian, Nat.mod_one]
  | succ width ih =>
    rw [littleEndian, littleEndianValue_cons, ih, UInt8.toNat_ofNat',
      pow_succ' 256 width, Nat.mod_mul]

theorem littleEndianValue_littleEndian_of_lt {width value : ℕ} (hvalue : value < 256 ^ width) :
    littleEndianValue (littleEndian width value) = value := by
  rw [littleEndianValue_littleEndian, Nat.mod_eq_of_lt hvalue]

theorem littleEndianValue_eq_zero {bytes : Bytes} (hzero : ∀ byte ∈ bytes, byte = 0) :
    littleEndianValue bytes = 0 := by
  induction bytes with
  | nil => rfl
  | cons byte _ ih =>
    rw [littleEndianValue_cons, hzero byte (by simp), ih fun other hother ↦
      hzero other (by simp [hother])]
    rfl

theorem littleEndianValue_lt (bytes : Bytes) : littleEndianValue bytes < 256 ^ bytes.length := by
  induction bytes with
  | nil => simp
  | cons byte =>
    rw [littleEndianValue_cons, List.length_cons]
    have hbyte := byte.toNat_lt
    omega

/-- The base-128 bytes of a value, with room for `fuel` continuation bytes before the last one. -/
def uvarintBytes : ℕ → ℕ → Bytes
  | 0, value => [UInt8.ofNat value]
  | fuel + 1, value =>
    if value < 128 then [UInt8.ofNat value]
    else UInt8.ofNat (value % 128 + 128) :: uvarintBytes fuel (value / 128)

/-- The base-128 encoding of a 64-bit word, at most ten bytes long. -/
def appendUvarint (value : ℕ) : Bytes := uvarintBytes 9 value

/-- The word and the number of its bytes, or `none` when the bytes end inside the word or overflow
it. -/
def uvarintLoop : ℕ → ℕ → Bytes → Option (ℕ × ℕ)
  | _, _, [] => none
  | index, value, byte :: rest =>
    if index = 10 then none
    else if byte.toNat < 128 then
      if index = 9 ∧ 1 < byte.toNat then none
      else some (value + byte.toNat * 2 ^ (7 * index), index + 1)
    else uvarintLoop (index + 1) (value + byte.toNat % 128 * 2 ^ (7 * index)) rest

def uvarint (bytes : Bytes) : Option (ℕ × ℕ) := uvarintLoop 0 0 bytes

/-- The signed encoding: a nonnegative integer is doubled, a negative one doubled and complemented.
-/
def appendVarint (value : ℤ) : Bytes :=
  appendUvarint (if 0 ≤ value then (2 * value).toNat else (-2 * value - 1).toNat)

def varint (bytes : Bytes) : Option (ℤ × ℕ) :=
  (uvarint bytes).map fun (word, read) ↦
    (if word % 2 = 0 then (word / 2 : ℕ) else -((word / 2 : ℕ) : ℤ) - 1, read)

theorem uvarintBytes_ne_nil (fuel value : ℕ) : uvarintBytes fuel value ≠ [] := by
  cases fuel with
  | zero => simp [uvarintBytes]
  | succ =>
    rw [uvarintBytes]
    split_ifs <;> simp

theorem appendVarint_ne_nil (value : ℤ) : appendVarint value ≠ [] := uvarintBytes_ne_nil _ _

/-- The two loops stop at the same byte, because `index + fuel = 9` keeps their byte counts in step.
-/
theorem uvarintLoop_uvarintBytes (fuel : ℕ) :
    ∀ (index accumulated value : ℕ) (rest : Bytes), index + fuel = 9 →
      value < 2 ^ (64 - 7 * index) →
        uvarintLoop index accumulated (uvarintBytes fuel value ++ rest) =
          some (accumulated + value * 2 ^ (7 * index),
            index + (uvarintBytes fuel value).length) := by
  induction fuel with
  | zero =>
    intro index accumulated value rest hindex hvalue
    obtain rfl : index = 9 := by omega
    have hbyte : (UInt8.ofNat value).toNat = value := by
      rw [UInt8.toNat_ofNat']
      omega
    simp only [uvarintBytes, List.singleton_append, uvarintLoop, hbyte]
    rw [if_neg (by omega), if_pos (by omega), if_neg (by omega)]
    rfl
  | succ fuel ih =>
    intro index accumulated value rest _ hvalue
    rw [uvarintBytes]
    split_ifs with hshort
    · have hbyte : (UInt8.ofNat value).toNat = value := by
        rw [UInt8.toNat_ofNat']
        omega
      simp only [List.singleton_append, uvarintLoop, hbyte]
      rw [if_neg (by omega), if_pos hshort, if_neg (by omega)]
      rfl
    have hbyte : (UInt8.ofNat (value % 128 + 128)).toNat = value % 128 + 128 := by
      rw [UInt8.toNat_ofNat']
      omega
    have hsplit : 2 ^ (64 - 7 * index) = 128 * 2 ^ (64 - 7 * (index + 1)) := by
      rw [show 64 - 7 * index = 7 + (64 - 7 * (index + 1)) by omega, pow_add]
      norm_num
    have hnext : value / 128 < 2 ^ (64 - 7 * (index + 1)) := by
      rw [hsplit] at hvalue
      exact Nat.div_lt_of_lt_mul hvalue
    simp only [List.cons_append, uvarintLoop, hbyte]
    rw [if_neg (by omega), ih (index + 1) _ _ rest (by omega) hnext]
    have hgroup : (value % 128 + 128) % 128 = value % 128 := by omega
    have hpow : (2 : ℕ) ^ (7 * (index + 1)) = 128 * 2 ^ (7 * index) := by
      rw [show 7 * (index + 1) = 7 + 7 * index by ring, pow_add]
      norm_num
    have hvalueSplit := Nat.div_add_mod value 128
    rw [hgroup, hpow, List.length_cons]
    refine congrArg some (Prod.ext ?_ ?_)
    · calc accumulated + value % 128 * 2 ^ (7 * index) + value / 128 * (128 * 2 ^ (7 * index))
          = accumulated + (128 * (value / 128) + value % 128) * 2 ^ (7 * index) := by ring
        _ = accumulated + value * 2 ^ (7 * index) := by rw [hvalueSplit]
    · omega

/-- A written word reads back in front of any further bytes. Assumes: the word is below `2 ^ 64`. -/
theorem uvarint_appendUvarint {value : ℕ} (hvalue : value < 2 ^ 64) (rest : Bytes) :
    uvarint (appendUvarint value ++ rest) = some (value, (appendUvarint value).length) := by
  have hloop := uvarintLoop_uvarintBytes 9 0 0 value rest rfl (by simpa using hvalue)
  simpa [uvarint, appendUvarint] using hloop

theorem varint_appendVarint {value : ℤ} (hlow : -2 ^ 63 ≤ value) (hhigh : value < 2 ^ 63)
    (rest : Bytes) :
    varint (appendVarint value ++ rest) = some (value, (appendVarint value).length) := by
  unfold varint appendVarint
  split_ifs with hsign
  · rw [uvarint_appendUvarint (by omega)]
    simp only [Option.map_some, Option.some.injEq, Prod.mk.injEq, and_true]
    omega
  rw [uvarint_appendUvarint (by omega)]
  simp only [Option.map_some, Option.some.injEq, Prod.mk.injEq, and_true]
  omega

theorem uvarintLoop_le_length (bytes : Bytes) :
    ∀ {index accumulated value read : ℕ}, uvarintLoop index accumulated bytes = some (value, read) →
      index < read ∧ read ≤ index + bytes.length := by
  induction bytes with
  | nil => intro index accumulated value read hread; simp [uvarintLoop] at hread
  | cons _ _ ih =>
    intro _ _ _ _ hread
    rw [uvarintLoop] at hread
    split_ifs at hread with hlong hlast hover
    · simp only [Option.some.injEq, Prod.mk.injEq] at hread
      rw [List.length_cons]
      omega
    · have hrest := ih hread
      rw [List.length_cons]
      omega

theorem varint_le_length {bytes : Bytes} {value : ℤ} {read : ℕ}
    (hread : varint bytes = some (value, read)) : 0 < read ∧ read ≤ bytes.length := by
  obtain ⟨⟨_, _⟩, hword, hpair⟩ := Option.map_eq_some_iff.mp hread
  have hbound := uvarintLoop_le_length bytes hword
  simp only [Prod.mk.injEq] at hpair
  omega

end Clyde.Foundation.ByteCodec
