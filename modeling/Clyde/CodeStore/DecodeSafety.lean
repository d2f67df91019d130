import Clyde.CodeStore.Record

/-!
# Decoding arbitrary bytes

`codestore/record.go`: `decodeRecord` and `decodeBlob` on bytes that no writer made. A data file has
no checksum, so a damaged blob reaches the decoder as it is.

`stringValue` bounds a string's length by the bytes in front of it, before the length's own bytes
are consumed. A length that exceeds what is left by no more than those bytes passes, and the slice
panics. `StringFits` excludes this.
-/

set_option autoImplicit false

namespace Clyde.CodeStore

open Foundation ByteCodec Decoder

/-- A length that passes the bound of `stringValue` is no larger than what is left after it. -/
def Decoder.StringFits (reader : Decoder) : Prop :=
  reader.failed = false → ∀ length read, ByteCodec.varint reader.data = some (length, read) →
    0 ≤ length → length ≤ reader.data.length → read + length ≤ reader.data.length

/-- Reading a string panics exactly when its length passes the bound and exceeds what is left. -/
theorem Decoder.stringValue_eq_panic_iff (reader : Decoder) :
    reader.stringValue = .panic ↔ ¬reader.StringFits := by
  obtain ⟨data, failed⟩ := reader
  cases failed with
  | true => simp [Decoder.stringValue, Decoder.count, Decoder.varint, Decoder.StringFits]
  | false =>
    cases hvarint : ByteCodec.varint data with
    | none => simp [Decoder.stringValue, Decoder.count, Decoder.varint, Decoder.StringFits, hvarint]
    | some found =>
      obtain ⟨length, read⟩ := found
      have hread := varint_le_length hvarint
      have hcount : (Decoder.mk data false).count data.length =
          if length < 0 ∨ (data.length : ℤ) < length then (0, ⟨data.drop read, true⟩)
          else (length.toNat, ⟨data.drop read, false⟩) := by
        simp [Decoder.count, Decoder.varint, hvarint]
      rw [Decoder.stringValue]
      simp only [hcount]
      by_cases hbad : length < 0 ∨ (data.length : ℤ) < length
      · simp only [if_pos hbad, if_true, reduceCtorEq, false_iff, not_not]
        intro _ other count hother _ hhigh
        simp only at hother hhigh
        rw [hvarint, Option.some.injEq, Prod.mk.injEq] at hother
        omega
      simp only [if_neg hbad, Bool.false_eq_true, if_false, List.length_drop]
      have hfits : (Decoder.mk data false).StringFits ↔ (read : ℤ) + length ≤ data.length := by
        constructor
        · intro hfits
          exact hfits rfl length read hvarint (by omega) (not_lt.mp fun hlong ↦ hbad (.inr hlong))
        intro hle _ _ _ hother _ _
        rw [hvarint] at hother
        obtain ⟨rfl, rfl⟩ := hother
        exact hle
      rw [hfits]
      split_ifs with hlong
      · simp only [true_iff]
        omega
      · simp only [false_iff, not_not]
        omega

theorem Decoded.bind_eq_panic {α β : Type} {result : Decoded α} {next : α → Decoded β} :
    (result >>= next) = .panic ↔ result = .panic ∨ ∃ value, result = .ok value ∧
      next value = .panic := by
  cases result <;> simp

theorem Decoder.finish_ne_panic {α : Type} (reader : Decoder) (value : α) :
    reader.finish value ≠ .panic := by
  unfold Decoder.finish
  split_ifs <;> simp

theorem Decoder.count_le_of_ok {reader rest : Decoder} {limit : ℤ} {value : ℕ}
    (hcount : reader.count limit = (value, rest)) (hok : rest.failed = false) :
    (value : ℤ) ≤ limit := by
  unfold Decoder.count at hcount
  simp only at hcount
  split_ifs at hcount with hbad
  · rw [← (Prod.mk.inj hcount).2] at hok
    simp at hok
  · rw [← (Prod.mk.inj hcount).1]
    omega

def ReadCellsFit (columns : List ScalarColumn) : ℕ → Decoder → Prop
  | 0, _ => True
  | count + 1, reader => ∀ column rest declared,
    reader.count ((columns.length : ℤ) - 1) = (column, rest) → rest.failed = false →
    columns[column]? = some declared →
      (declared.type = .string → rest.byteValue.1 = cellValue → rest.byteValue.2.StringFits) ∧
      ∀ value next, decodeCell declared.type rest.byteValue.1 rest.byteValue.2 = .ok (value, next) →
        ReadCellsFit columns count next

variable {reader : Decoder}

theorem decodeCell_eq_panic_iff {type : ScalarType} {flag : UInt8} :
    decodeCell type flag reader = .panic ↔ type = .string ∧ flag = cellValue ∧
      ¬reader.StringFits := by
  unfold decodeCell
  split_ifs with hflag
  · cases type with
    | string => simp [decodeCellValue, Decoded.bind_eq_panic, stringValue_eq_panic_iff, hflag]
    | bool | int64 | other => simp [decodeCellValue]
  · simp [hflag]

variable {columns : List ScalarColumn}

/-- The cells are read without a panic exactly if their strings fit. A column position that was read
is that of a declared column. -/
theorem decodeCells_eq_panic_iff {count : ℕ} :
    decodeCells columns count reader = .panic ↔ ¬ReadCellsFit columns count reader := by
  induction count generalizing reader with
  | zero => simp [decodeCells, ReadCellsFit]
  | succ count ih =>
    rw [decodeCells, ReadCellsFit]
    cases hcount : reader.count ((columns.length : ℤ) - 1) with
    | mk column rest =>
    cases hfailed : rest.failed with
    | true =>
      simp only [hfailed, if_true, reduceCtorEq, false_iff, not_not]
      rintro other next declared hsame hok _
      rw [(Prod.mk.inj hsame).2, hok] at hfailed
      simp at hfailed
    | false =>
      have hle := count_le_of_ok hcount hfailed
      obtain ⟨declared, hdeclared⟩ : ∃ declared, columns[column]? = some declared :=
        ⟨_, List.getElem?_eq_getElem (by omega)⟩
      simp only [hfailed, hdeclared, Bool.false_eq_true, if_false, Decoded.bind_eq_panic,
        decodeCell_eq_panic_iff, Prod.exists, ih]
      constructor
      · rintro (⟨htype, hflag, hlong⟩ | ⟨value, next, hcell, hrest | ⟨_, last, _, hpure⟩⟩) hfits
        · exact hlong ((hfits column rest declared rfl hfailed hdeclared).1 htype hflag)
        · exact hrest ((hfits column rest declared rfl hfailed hdeclared).2 value next hcell)
        · cases hpure
      intro hnot
      by_contra hsafe
      rw [not_or] at hsafe
      refine hnot fun other last found hsame _ hfound ↦ ?_
      cases hsame
      rw [hdeclared, Option.some.injEq] at hfound
      subst hfound
      refine ⟨fun htype hflag ↦ ?_, fun value next hcell ↦ ?_⟩
      · by_contra hlong
        exact hsafe.1 ⟨htype, hflag, hlong⟩
      · by_contra hrest
        exact hsafe.2 ⟨value, next, hcell, .inl hrest⟩

/-- The strings of a record fit: the id, and in an upsert record the path and the cells. -/
def RecordFits (payload : Bytes) (columns : List ScalarColumn) : Prop :=
  (Decoder.mk payload false).byteValue.2.StringFits ∧
    ∀ id reader, (Decoder.mk payload false).byteValue.2.stringValue = .ok (id, reader) →
      (Decoder.mk payload false).byteValue.1 = RecordKind.upsert.toByte →
      codeWords * 8 ≤ reader.data.length →
      ({ reader with data := reader.data.drop (codeWords * 8) } : Decoder).StringFits ∧
        ∀ path middle cellCount rest,
          ({ reader with data := reader.data.drop (codeWords * 8) } : Decoder).stringValue =
            .ok (path, middle) →
          middle.afterFields.count columns.length = (cellCount, rest) → rest.failed = false →
          ReadCellsFit columns cellCount rest

def BlobFits (blob : Bytes) : Prop :=
  (Decoder.mk blob false).StringFits ∧
    ∀ content reader, (Decoder.mk blob false).stringValue = .ok (content, reader) →
      reader.StringFits

/-- Decoding an upsert panics exactly when its path or one of its cells does not fit. -/
theorem decodeUpsert_eq_panic_iff {id : Bytes} {code : Code} :
    decodeUpsert columns id code reader = .panic ↔
      ¬(reader.StringFits ∧ ∀ path middle cellCount rest, reader.stringValue = .ok (path, middle) →
        middle.afterFields.count columns.length = (cellCount, rest) → rest.failed = false →
        ReadCellsFit columns cellCount rest) := by
  have hcells (middle : Decoder) :
      (∃ cellCount rest, middle.afterFields.count columns.length = (cellCount, rest) ∧
        rest.failed = false ∧ ¬ReadCellsFit columns cellCount rest) ↔
      (middle.afterFields.count columns.length).2.failed = false ∧
        decodeCells columns (middle.afterFields.count columns.length).1
          (middle.afterFields.count columns.length).2 = .panic := by
    rw [decodeCells_eq_panic_iff]
    constructor
    · rintro ⟨cellCount, rest, hcount, hok, hnot⟩
      rw [hcount]
      exact ⟨hok, hnot⟩
    · rintro ⟨hok, hnot⟩
      exact ⟨_, _, rfl, hok, hnot⟩
  rw [decodeUpsert, Decoded.bind_eq_panic, stringValue_eq_panic_iff]
  simp only [not_and_or, not_forall, Prod.exists, exists_prop]
  refine or_congr_right (exists_congr fun path ↦ exists_congr fun middle ↦ ?_)
  rw [exists_congr fun cellCount ↦ exists_and_left, exists_and_left, hcells middle]
  refine and_congr_right fun _ ↦ ?_
  simp only [Decoder.afterFields]
  generalize Decoder.count _ (columns.length : ℤ) = counted
  obtain ⟨_, rest⟩ := counted
  cases hfailed : rest.failed with
  | true => simp
  | false =>
    simp only [Bool.false_eq_true, if_false, Decoded.bind_eq_panic, Prod.exists, true_and]
    refine ⟨fun hpanic ↦ hpanic.resolve_right ?_, .inl⟩
    rintro ⟨_, last, _, hfinish⟩
    exact last.finish_ne_panic _ hfinish

/-- A record's decoding panics exactly when one of its strings does not fit. -/
theorem decodeRecord_eq_panic_iff (payload : Bytes) (columns : List ScalarColumn) :
    decodeRecord payload columns = .panic ↔ ¬RecordFits payload columns := by
  rw [decodeRecord, RecordFits]
  generalize (Decoder.mk payload false).byteValue = first
  obtain ⟨kind, _⟩ := first
  rw [Decoded.bind_eq_panic, stringValue_eq_panic_iff, not_and_or]
  refine or_congr_right ?_
  simp only [not_forall, Prod.exists, exists_prop]
  refine exists_congr fun id ↦ exists_congr fun reader ↦ and_congr_right fun _ ↦ ?_
  by_cases hdelete : kind = RecordKind.delete.toByte
  · rw [if_pos hdelete]
    refine iff_of_false (reader.finish_ne_panic _) ?_
    rintro ⟨hupsert, _⟩
    rw [hdelete] at hupsert
    exact absurd hupsert (by decide)
  split_ifs with hbad
  · refine iff_of_false (by simp) ?_
    rintro ⟨hupsert, _⟩
    rcases hbad with hother | _
    · exact hother hupsert
    · omega
  · rw [not_or, not_not, not_lt] at hbad
    simp only [hbad.1, hbad.2, true_and]
    rw [decodeUpsert_eq_panic_iff]

theorem decodeBlob_eq_panic_iff (blob : Bytes) : decodeBlob blob = .panic ↔ ¬BlobFits blob := by
  rw [decodeBlob, BlobFits, Decoded.bind_eq_panic, stringValue_eq_panic_iff, not_and_or]
  refine or_congr_right ?_
  simp only [not_forall, Prod.exists, exists_prop, Decoded.bind_eq_panic]
  refine exists_congr fun content ↦ exists_congr fun reader ↦ and_congr_right fun _ ↦ ?_
  rw [stringValue_eq_panic_iff]
  refine ⟨fun hpanic ↦ hpanic.resolve_right ?_, .inl⟩
  rintro ⟨_, last, _, hfinish⟩
  exact last.finish_ne_panic _ hfinish

/-- Every payload and every blob decodes to a value or to the malformed-record error, without a
panic, exactly if each string length that passes its bound is no larger than what is left after it.
-/
theorem decode_safe_iff (payload blob : Bytes) (columns : List ScalarColumn) :
    (decodeRecord payload columns ≠ .panic ∧ decodeBlob blob ≠ .panic) ↔
      RecordFits payload columns ∧ BlobFits blob := by
  rw [ne_eq, ne_eq, decodeRecord_eq_panic_iff, decodeBlob_eq_panic_iff, not_not, not_not]

/-- A blob of one byte that announces one byte, and a delete record with that id. -/
theorem length_panics :
    decodeBlob [0x02] = .panic ∧
      decodeRecord [RecordKind.delete.toByte, 0x02] sampleColumns = .panic := by
  decide

end Clyde.CodeStore
