import Clyde.Foundation.ByteCodec
import Mathlib.Data.Fintype.Basic
import Mathlib.Tactic.FinCases

/-!
# Row records and data blobs

`codestore/record.go`. An upsert record holds a row and points to its content and metadata in the
data file; a delete record holds a row id. `encodeRecord` writes a record under the declared
columns, and `decodeRecord` reads it under the columns at the time of reading, which may be more.

After a failed read every later read of the decoder returns a zero value, and the failure is
reported at the next check. A slice past the bytes that remain panics in the source, and is
`Decoded.panic`.

Scope. Offsets and lengths into the data file are natural numbers, as both sides only produce these.
A column's nullability and maximum length are read by no function of the store.
-/

set_option autoImplicit false

namespace Clyde.CodeStore

open Foundation.ByteCodec List

/-! ### Scalar columns and values -/

/-- The type of a scalar column: the three that the store supports, or any `other`. -/
inductive ScalarType
  | string
  | bool
  | int64
  | other (name : Bytes)
  deriving DecidableEq

/-- One scalar value: its column type, whether it is null, and one payload field for each supported
type. -/
structure ScalarValue where
  type : ScalarType
  null : Bool
  string : Bytes
  bool : Bool
  int64 : Int64
  deriving DecidableEq

structure ScalarColumn where
  name : Bytes
  type : ScalarType
  deriving DecidableEq

def nullScalar (type : ScalarType) : ScalarValue :=
  { type := type, null := true, string := [], bool := false, int64 := 0 }

/-- The payload fields of the other types are empty, a column of an unsupported type holds only null
values, and the length of a string fits an `int`. -/
def ScalarValue.Matches (value : ScalarValue) (type : ScalarType) : Prop :=
  value = nullScalar type ∨
    match type with
    | .string => ∃ text : Bytes, text.length < 2 ^ 63 ∧ value = ⟨.string, false, text, false, 0⟩
    | .bool => ∃ flag, value = ⟨.bool, false, [], flag, 0⟩
    | .int64 => ∃ number, value = ⟨.int64, false, [], false, number⟩
    | .other _ => False

/-- Only the payload field of the type is set. -/
def ScalarValue.PayloadFits (value : ScalarValue) (type : ScalarType) : Prop :=
  match type with
  | .string => value.bool = false ∧ value.int64 = 0
  | .bool => value.string = [] ∧ value.int64 = 0
  | .int64 => value.string = [] ∧ value.bool = false
  | .other _ => True

/-- The value has the type, and only the type's payload field is set; a null value has no payload.
-/
def ScalarValue.Fits (value : ScalarValue) (type : ScalarType) : Prop :=
  value = nullScalar type ∨ value.null = false ∧ value.type = type ∧ value.PayloadFits type

/-! ### Records -/

/-- The number of 64-bit words of a code: 256 sign bits. -/
abbrev codeWords : ℕ := 4

/-- The sign bits of a vector. -/
abbrev Code := Fin codeWords → UInt64

inductive RecordKind
  | upsert
  | delete
  deriving DecidableEq

def RecordKind.toByte : RecordKind → UInt8
  | .upsert => 1
  | .delete => 2

structure StoredCell where
  column : ℕ
  value : ScalarValue
  deriving DecidableEq

structure RowRecord where
  kind : RecordKind
  id : Bytes
  code : Code
  relativePath : Bytes
  splitPart : Int32
  splitRecorded : Bool
  dataOffset : ℕ
  dataLength : ℕ
  cells : List StoredCell
  deriving DecidableEq

def emptyRecord (kind : RecordKind) (id : Bytes) : RowRecord :=
  { kind := kind, id := id, code := fun _ ↦ 0, relativePath := [], splitPart := 0,
    splitRecorded := false, dataOffset := 0, dataLength := 0, cells := [] }

def appendString (value : Bytes) : Bytes := appendVarint value.length ++ value

def boolByte (flag : Bool) : UInt8 :=
  if flag then 1 else 0

def cellNull : UInt8 := 0

def cellValue : UInt8 := 1

/-- The bytes of one cell under the declared columns, or `none` when the column's type is not
supported. -/
def encodeCell (columns : List ScalarColumn) (cell : StoredCell) : Option Bytes :=
  if cell.value.null then some (appendVarint cell.column ++ [cellNull])
  else
    match (columns[cell.column]?).map ScalarColumn.type with
    | some .string =>
      some (appendVarint cell.column ++ [cellValue] ++ appendString cell.value.string)
    | some .bool => some (appendVarint cell.column ++ [cellValue, boolByte cell.value.bool])
    | some .int64 =>
      some (appendVarint cell.column ++ [cellValue] ++ appendVarint cell.value.int64.toInt)
    | _ => none

def encodeCells (columns : List ScalarColumn) : List StoredCell → Option Bytes
  | [] => some []
  | cell :: rest => do
    let head ← encodeCell columns cell
    let tail ← encodeCells columns rest
    return head ++ tail

def encodeCode (code : Code) : Bytes :=
  (List.ofFn code).flatMap fun word ↦ littleEndian 8 word.toNat

/-- The payload of one record, or `none` when a cell's column type is not supported. -/
def encodeRecord (record : RowRecord) (columns : List ScalarColumn) : Option Bytes :=
  match record.kind with
  | .delete => some (record.kind.toByte :: appendString record.id)
  | .upsert => (encodeCells columns record.cells).map fun cells ↦
      record.kind.toByte :: appendString record.id ++ encodeCode record.code ++
        appendString record.relativePath ++ appendVarint record.splitPart.toInt ++
        [boolByte record.splitRecorded] ++ appendVarint record.dataOffset ++
        appendVarint record.dataLength ++ appendVarint record.cells.length ++ cells

/-! ### The sticky reader -/

/-- The reader: the bytes that remain and whether an earlier read failed. -/
structure Decoder where
  data : Bytes
  failed : Bool

/-- The result of decoding: a value, the malformed-record error, or a run-time panic. -/
inductive Decoded (α : Type)
  | ok (value : α)
  | malformed
  | panic
  deriving DecidableEq

/-- Decoding goes on from a value and stops at an error or a panic. -/
instance : Monad Decoded where
  pure := .ok
  bind
    | .ok value, next => next value
    | .malformed, _ => .malformed
    | .panic, _ => .panic

variable {α β : Type}

@[simp] theorem Decoded.ok_bind (value : α) (next : α → Decoded β) :
    (Decoded.ok value >>= next) = next value :=
  rfl

@[simp] theorem Decoded.pure_eq (value : α) : (pure value : Decoded α) = .ok value := rfl

@[simp] theorem Decoded.malformed_bind (next : α → Decoded β) :
    (Decoded.malformed >>= next) = .malformed :=
  rfl

@[simp] theorem Decoded.panic_bind (next : α → Decoded β) : (Decoded.panic >>= next) = .panic := rfl

theorem Decoded.bind_eq_ok {result : Decoded α} {next : α → Decoded β} {value : β} :
    (result >>= next) = .ok value ↔ ∃ middle, result = .ok middle ∧ next middle = .ok value := by
  cases result <;> simp

section

variable (reader : Decoder)

def Decoder.byteValue : UInt8 × Decoder :=
  match reader.failed, reader.data with
  | false, value :: rest => (value, { reader with data := rest })
  | _, _ => (0, { reader with failed := true })

def Decoder.varint : ℤ × Decoder :=
  if reader.failed then (0, reader)
  else
    match Foundation.ByteCodec.varint reader.data with
    | some (value, read) => (value, { reader with data := reader.data.drop read })
    | none => (0, { reader with failed := true })

def Decoder.count (limit : ℤ) : ℕ × Decoder :=
  let (value, reader) := reader.varint
  if value < 0 ∨ limit < value then (0, { reader with failed := true })
  else (value.toNat, reader)

def Decoder.int32Value : Int32 × Decoder :=
  let (value, reader) := reader.varint
  if value < -2 ^ 31 ∨ 2 ^ 31 - 1 < value then (0, { reader with failed := true })
  else (Int32.ofInt value, reader)

def maxInt64 : ℤ := 2 ^ 63 - 1

/-- The limit is taken before the prefix is consumed, so a length that passes it can exceed the
bytes that remain; the slice then panics. -/
def Decoder.stringValue : Decoded (Bytes × Decoder) :=
  let (length, reader) := reader.count reader.data.length
  if reader.failed then .ok ([], reader)
  else if reader.data.length < length then .panic
  else .ok (reader.data.take length, { reader with data := reader.data.drop length })

def Decoder.finish {α : Type} (value : α) : Decoded α :=
  if reader.failed then .malformed else .ok value

end

def decodeCode (data : Bytes) : Code :=
  fun word ↦ UInt64.ofNat (littleEndianValue ((data.drop (word * 8)).take 8))

def decodeCellValue (type : ScalarType) (reader : Decoder) : Decoded (ScalarValue × Decoder) :=
  match type with
  | .string => do
    let (text, reader) ← reader.stringValue
    return (⟨type, false, text, false, 0⟩, reader)
  | .bool =>
    let (flag, reader) := reader.byteValue
    .ok (⟨type, false, [], flag = 1, 0⟩, reader)
  | .int64 =>
    let (number, reader) := reader.varint
    .ok (⟨type, false, [], false, Int64.ofInt number⟩, reader)
  | .other _ => .malformed

def decodeCell (type : ScalarType) (flag : UInt8) (reader : Decoder) :
    Decoded (ScalarValue × Decoder) :=
  if flag = cellValue then decodeCellValue type reader else .ok (nullScalar type, reader)

/-- Reads `count` cells. A column position is checked before the column's type is looked up. -/
def decodeCells (columns : List ScalarColumn) :
    ℕ → Decoder → Decoded (List StoredCell × Decoder)
  | 0, reader => .ok ([], reader)
  | count + 1, reader =>
    let (column, reader) := reader.count ((columns.length : ℤ) - 1)
    if reader.failed then .malformed
    else
      match columns[column]? with
      | none => .panic
      | some declared => do
        let (flag, reader) := reader.byteValue
        let (value, reader) ← decodeCell declared.type flag reader
        let (rest, reader) ← decodeCells columns count reader
        return (⟨column, value⟩ :: rest, reader)

def decodeUpsert (columns : List ScalarColumn) (id : Bytes) (code : Code) (reader : Decoder) :
    Decoded RowRecord := do
  let (relativePath, reader) ← reader.stringValue
  let (splitPart, reader) := reader.int32Value
  let (splitRecorded, reader) := reader.byteValue
  let (dataOffset, reader) := reader.count maxInt64
  let (dataLength, reader) := reader.count maxInt64
  let (cellCount, reader) := reader.count columns.length
  if reader.failed then .malformed
  else
    let (cells, reader) ← decodeCells columns cellCount reader
    reader.finish
      { kind := .upsert, id := id, code := code, relativePath := relativePath,
        splitPart := splitPart, splitRecorded := splitRecorded = 1, dataOffset := dataOffset,
        dataLength := dataLength, cells := cells }

def decodeRecord (payload : Bytes) (columns : List ScalarColumn) : Decoded RowRecord := do
  let (kind, reader) := (Decoder.mk payload false).byteValue
  let (id, reader) ← reader.stringValue
  if kind = RecordKind.delete.toByte then reader.finish (emptyRecord .delete id)
  else if kind ≠ RecordKind.upsert.toByte ∨ reader.data.length < codeWords * 8 then .malformed
  else
    decodeUpsert columns id (decodeCode reader.data)
      { reader with data := reader.data.drop (codeWords * 8) }

def encodeBlob (content metadata : Bytes) : Bytes := appendString content ++ appendString metadata

def decodeBlob (blob : Bytes) : Decoded (Bytes × Bytes) := do
  let (content, reader) ← (Decoder.mk blob false).stringValue
  let (metadata, reader) ← reader.stringValue
  reader.finish (content, metadata)

/-- A delete record holds only its id. The cells of an upsert are on declared columns and match
their types. Lengths and offsets fit an `int64`. -/
structure RowRecord.Valid (record : RowRecord) (columns : List ScalarColumn) : Prop where
  id_length : record.id.length < 2 ^ 63
  path_length : record.relativePath.length < 2 ^ 63
  offset_lt : record.dataOffset < 2 ^ 63
  length_lt : record.dataLength < 2 ^ 63
  delete_eq : record.kind = .delete → record = emptyRecord .delete record.id
  cells_match : ∀ cell ∈ record.cells, ∃ column,
    columns[cell.column]? = some column ∧ cell.value.Matches column.type

/-- A record the store writes: its cells are on distinct columns. -/
structure RowRecord.WellFormed (record : RowRecord) (columns : List ScalarColumn) : Prop
    extends RowRecord.Valid record columns where
  cells_nodup : (record.cells.map StoredCell.column).Nodup

theorem wellFormed_delete {id : Bytes} (hid : id.length < 2 ^ 63) (columns : List ScalarColumn) :
    (emptyRecord .delete id).WellFormed columns where
  id_length := hid
  path_length := by simp [emptyRecord]
  offset_lt := by simp [emptyRecord]
  length_lt := by simp [emptyRecord]
  delete_eq := fun _ ↦ rfl
  cells_match := by simp [emptyRecord]
  cells_nodup := by simp [emptyRecord]

/-! ### Reading back what was written -/

@[simp] theorem Decoder.byteValue_cons (value : UInt8) (rest : Bytes) :
    (Decoder.mk (value :: rest) false).byteValue = (value, ⟨rest, false⟩) :=
  rfl

open Decoder

theorem Decoder.varint_append {value : ℤ} (hlow : -2 ^ 63 ≤ value) (hhigh : value < 2 ^ 63)
    (rest : Bytes) :
    (Decoder.mk (appendVarint value ++ rest) false).varint = (value, ⟨rest, false⟩) := by
  simp [varint, varint_appendVarint hlow hhigh rest]

theorem Decoder.count_append {value : ℕ} (hvalue : value < 2 ^ 63) {limit : ℤ}
    (hlimit : (value : ℤ) ≤ limit) (rest : Bytes) :
    (Decoder.mk (appendVarint value ++ rest) false).count limit = (value, ⟨rest, false⟩) := by
  rw [count, varint_append (by omega) (by omega)]
  simp only [Int.toNat_natCast]
  rw [if_neg (by omega)]

theorem Decoder.int32Value_append (value : Int32) (rest : Bytes) :
    (Decoder.mk (appendVarint value.toInt ++ rest) false).int32Value = (value, ⟨rest, false⟩) := by
  have hlow := value.le_toInt
  have hhigh := value.toInt_lt
  rw [int32Value, varint_append (by omega) (by omega)]
  simp only [Int32.ofInt_toInt]
  rw [if_neg (by omega)]

theorem Decoder.stringValue_append {text : Bytes} (htext : text.length < 2 ^ 63) (rest : Bytes) :
    (Decoder.mk (appendString text ++ rest) false).stringValue = .ok (text, ⟨rest, false⟩) := by
  have hlimit : (text.length : ℤ) ≤ (appendString text ++ rest).length := by
    simp only [appendString, length_append]
    omega
  have hcount := count_append htext hlimit (text ++ rest)
  rw [appendString, append_assoc] at hcount
  rw [appendString, append_assoc, stringValue]
  rw [hcount]
  simp

theorem length_encodeCode (code : Code) : (encodeCode code).length = codeWords * 8 := by
  simp [encodeCode, ofFn_succ, codeWords]

theorem decodeCode_encodeCode (code : Code) (rest : Bytes) :
    decodeCode (encodeCode code ++ rest) = code := by
  have hword (word : UInt64) :
      UInt64.ofNat (littleEndianValue (littleEndian 8 word.toNat)) = word := by
    rw [littleEndianValue_littleEndian_of_lt (by simpa using word.toNat_lt), UInt64.ofNat_toNat]
  have hbytes : encodeCode code = littleEndian 8 (code 0).toNat ++ (littleEndian 8 (code 1).toNat ++
      (littleEndian 8 (code 2).toNat ++ littleEndian 8 (code 3).toNat)) := by
    simp [encodeCode, ofFn_succ]
  funext word
  rw [decodeCode, hbytes]
  have hdrop {skipped value : ℕ} (hskipped : 8 ≤ skipped) :
      (littleEndian 8 value).drop skipped = [] :=
    drop_of_length_le (by simpa using hskipped)
  fin_cases word <;> simp [drop_append, hword, hdrop] <;> rfl

variable {columns : List ScalarColumn} {value : ScalarValue} {column : ScalarColumn}

/-- A cell is decoded back from its flag and payload, whatever follows it. -/
theorem decodeCell_encodeCell {position : ℕ}
    (hcolumn : columns[position]? = some column) (hvalue : value.Matches column.type) :
    ∃ flag payload, encodeCell columns ⟨position, value⟩ =
        some (appendVarint position ++ flag :: payload) ∧ ∀ rest,
      decodeCell column.type flag ⟨payload ++ rest, false⟩ = .ok (value, ⟨rest, false⟩) := by
  obtain ⟨name, type⟩ := column
  rcases hvalue with rfl | hvalue
  · exact ⟨cellNull, [], by simp [encodeCell, nullScalar], fun rest ↦ by
      simp [decodeCell, cellNull, cellValue]⟩
  cases type with
  | string =>
    obtain ⟨text, htext, rfl⟩ := hvalue
    refine ⟨cellValue, appendString text, by simp [encodeCell, hcolumn], fun rest ↦ ?_⟩
    simp [decodeCell, decodeCellValue, stringValue_append htext]
  | bool =>
    obtain ⟨flag, rfl⟩ := hvalue
    refine ⟨cellValue, [boolByte flag], by simp [encodeCell, hcolumn], fun rest ↦ ?_⟩
    cases flag <;> simp [decodeCell, decodeCellValue, boolByte]
  | int64 =>
    obtain ⟨number, rfl⟩ := hvalue
    refine ⟨cellValue, appendVarint number.toInt, by simp [encodeCell, hcolumn], fun rest ↦ ?_⟩
    have hlow := number.le_toInt
    have hhigh := number.toInt_lt
    simp [decodeCell, decodeCellValue,
      varint_append (show -2 ^ 63 ≤ number.toInt by omega) (by omega)]
  | other => exact hvalue.elim

open Decoded

/-- Cells are decoded back under the columns they were written with and any that were added since.
-/
theorem decodeCells_encodeCells {extra : List ScalarColumn}
    (hcolumns : (columns ++ extra).length < 2 ^ 63) (cells : List StoredCell)
    (hcells : ∀ cell ∈ cells, ∃ column,
      columns[cell.column]? = some column ∧ cell.value.Matches column.type) :
    ∃ bytes, encodeCells columns cells = some bytes ∧ ∀ rest,
      decodeCells (columns ++ extra) cells.length ⟨bytes ++ rest, false⟩ =
        .ok (cells, ⟨rest, false⟩) := by
  induction cells with
  | nil => exact ⟨[], rfl, fun _ ↦ rfl⟩
  | cons cell _ ih =>
    obtain ⟨tail, htail, hread⟩ := ih fun other hother ↦ hcells other (by simp [hother])
    obtain ⟨column, hcolumn, hmatches⟩ := hcells cell (by simp)
    obtain ⟨flag, payload, hencode, hdecode⟩ := decodeCell_encodeCell hcolumn hmatches
    have hposition : cell.column < columns.length := (List.getElem?_eq_some_iff.mp hcolumn).1
    have hdeclared : (columns ++ extra)[cell.column]? = some column := by
      rw [getElem?_append_left hposition, hcolumn]
    have hlength : (columns ++ extra).length = columns.length + extra.length := length_append
    have hcolumnLt : cell.column < 2 ^ 63 := by omega
    have hlimit : (cell.column : ℤ) ≤ (columns ++ extra).length - 1 := by omega
    refine ⟨appendVarint cell.column ++ flag :: payload ++ tail, ?_, fun rest ↦ ?_⟩
    · simp only [encodeCells, hencode, htail]
      rfl
    rw [length_cons, decodeCells, append_assoc, append_assoc, count_append hcolumnLt hlimit]
    simp [hdeclared, byteValue_cons, hdecode, ok_bind, hread]

variable {record : RowRecord}

theorem RowRecord.WellFormed.cells_length_le
    (hrecord : record.WellFormed columns) : record.cells.length ≤ columns.length := by
  have hsubset : record.cells.map StoredCell.column ⊆ List.range columns.length := by
    intro _ hposition
    obtain ⟨cell, hcell, rfl⟩ := mem_map.mp hposition
    obtain ⟨_, hcolumn, _⟩ := hrecord.cells_match cell hcell
    exact List.mem_range.mpr (List.getElem?_eq_some_iff.mp hcolumn).1
  have hlength := (hrecord.cells_nodup.subperm hsubset).length_le
  simpa using hlength

/-- A well-formed record encodes, and reads back under any columns appended later. -/
theorem decodeRecord_encodeRecord (hrecord : record.WellFormed columns) (extra : List ScalarColumn)
    (hcolumns : (columns ++ extra).length < 2 ^ 63) :
    ∃ payload, encodeRecord record columns = some payload ∧
      decodeRecord payload (columns ++ extra) = .ok record := by
  have hcellCount := hrecord.cells_length_le
  obtain ⟨kind, id, code, relativePath, _, splitRecorded, dataOffset, dataLength, cells⟩ := record
  have hid : id.length < 2 ^ 63 := hrecord.id_length
  cases kind with
  | delete =>
    have hempty := hrecord.delete_eq rfl
    refine ⟨RecordKind.delete.toByte :: appendString id, rfl, ?_⟩
    have hstring := stringValue_append hid []
    rw [append_nil] at hstring
    simp only [decodeRecord, byteValue_cons, hstring, ok_bind, if_true]
    simpa [finish] using hempty.symm
  | upsert =>
    obtain ⟨_, hbytes, hread⟩ := decodeCells_encodeCells hcolumns cells hrecord.cells_match
    refine ⟨_, congrArg (Option.map _) hbytes, ?_⟩
    have hlength := length_encodeCode code
    have hpath : relativePath.length < 2 ^ 63 := hrecord.path_length
    have hoffset : dataOffset < 2 ^ 63 := hrecord.offset_lt
    have hlengthLt : dataLength < 2 ^ 63 := hrecord.length_lt
    have hcountLt : cells.length < 2 ^ 63 := by
      rw [length_append] at hcolumns
      exact lt_of_le_of_lt hcellCount (by omega)
    have hcountLe : (cells.length : ℤ) ≤ (columns ++ extra).length := by
      rw [length_append]
      simp only at hcellCount
      omega
    have hoffsetLe : (dataOffset : ℤ) ≤ maxInt64 := by
      rw [maxInt64]
      omega
    have hlengthLe : (dataLength : ℤ) ≤ maxInt64 := by
      rw [maxInt64]
      omega
    have hcells := hread []
    rw [append_nil] at hcells
    simp only [decodeRecord, cons_append, nil_append, append_assoc,
      byteValue_cons, stringValue_append hid, ok_bind]
    rw [if_neg (by decide), if_neg (by simp [hlength]), decodeCode_encodeCode,
      drop_append_of_le_length (by rw [hlength]), drop_of_length_le (by rw [hlength]),
      nil_append]
    simp only [decodeUpsert, stringValue_append hpath, int32Value_append, byteValue_cons, ok_bind,
      count_append hoffset hoffsetLe, count_append hlengthLt hlengthLe,
      count_append hcountLt hcountLe, hcells, finish]
    cases splitRecorded <;> simp [boolByte]

theorem decodeBlob_encodeBlob {content metadata : Bytes} (hcontent : content.length < 2 ^ 63)
    (hmetadata : metadata.length < 2 ^ 63) :
    decodeBlob (encodeBlob content metadata) = .ok (content, metadata) := by
  have hlast := stringValue_append hmetadata []
  rw [append_nil] at hlast
  simp [decodeBlob, encodeBlob, stringValue_append hcontent, hlast, finish]

/-- Records and blobs read back as they were written, records also under columns appended later.
Assumes: the record is well formed under the declared columns, and lengths fit an `int`. -/
theorem decode_encode_round_trip {record : RowRecord} {columns : List ScalarColumn}
    (hrecord : record.WellFormed columns) (extra : List ScalarColumn)
    (hcolumns : (columns ++ extra).length < 2 ^ 63) {content metadata : Bytes}
    (hcontent : content.length < 2 ^ 63) (hmetadata : metadata.length < 2 ^ 63) :
    (∃ payload, encodeRecord record columns = some payload ∧
        decodeRecord payload (columns ++ extra) = .ok record) ∧
      decodeBlob (encodeBlob content metadata) = .ok (content, metadata) :=
  ⟨decodeRecord_encodeRecord hrecord extra hcolumns, decodeBlob_encodeBlob hcontent hmetadata⟩

def sampleColumns : List ScalarColumn := [⟨[0x61], .string⟩, ⟨[0x62], .bool⟩, ⟨[0x63], .int64⟩]

/-- A row with a value in the first column, a null in the second and a value in the third. -/
def sampleRecord : RowRecord :=
  { kind := .upsert, id := [0x72], code := fun word ↦ UInt64.ofNat (word + 1)
    relativePath := [0x2f, 0x70], splitPart := -3, splitRecorded := true, dataOffset := 5
    dataLength := 300
    cells := [⟨0, ⟨.string, false, [0x78, 0x79], false, 0⟩⟩, ⟨1, nullScalar .bool⟩,
      ⟨2, ⟨.int64, false, [], false, -7⟩⟩] }

theorem wellFormed_sampleRecord : sampleRecord.WellFormed sampleColumns where
  id_length := by decide
  path_length := by decide
  offset_lt := by decide
  length_lt := by decide
  delete_eq := by decide
  cells_match cell hcell := by
    simp only [sampleRecord, mem_cons, not_mem_nil, or_false] at hcell
    rcases hcell with rfl | rfl | rfl
    · exact ⟨_, rfl, .inr ⟨_, by decide, rfl⟩⟩
    · exact ⟨_, rfl, .inl rfl⟩
    · exact ⟨_, rfl, .inr ⟨_, rfl⟩⟩
  cells_nodup := by decide

theorem decode_encode_round_trip_sample :
    (∃ payload, encodeRecord sampleRecord sampleColumns = some payload ∧
        decodeRecord payload (sampleColumns ++ [⟨[0x64], .bool⟩]) = .ok sampleRecord) ∧
      decodeBlob (encodeBlob [0x68, 0x69] []) = .ok ([0x68, 0x69], []) :=
  decode_encode_round_trip wellFormed_sampleRecord _ (by decide) (by decide) (by decide)

/-! ### What a decoded record is -/

variable {reader next : Decoder}

theorem Decoder.count_mono {limit larger : ℤ} {value : ℕ}
    (hcount : reader.count limit = (value, next)) (hok : next.failed = false)
    (hlimit : limit ≤ larger) : reader.count larger = (value, next) := by
  unfold count at hcount ⊢
  simp only at hcount ⊢
  split_ifs at hcount with hbad
  · simp only [Prod.mk.injEq] at hcount
    rw [← hcount.2] at hok
    simp at hok
  · rw [if_neg (by omega), hcount]

section

variable (reader : Decoder)

theorem Decoder.count_le {limit : ℤ} (hlimit : 0 ≤ limit) :
    ((reader.count limit).1 : ℤ) ≤ limit := by
  unfold count
  simp only
  split_ifs with hbad
  · exact hlimit
  · omega

theorem Decoder.length_byteValue : reader.byteValue.2.data.length ≤ reader.data.length := by
  obtain ⟨data, failed⟩ := reader
  cases failed <;> cases data <;> simp [byteValue]

theorem Decoder.length_varint : reader.varint.2.data.length ≤ reader.data.length := by
  unfold varint
  split_ifs
  · exact le_rfl
  · split
    · simp
    · exact le_rfl

theorem Decoder.length_count (limit : ℤ) :
    (reader.count limit).2.data.length ≤ reader.data.length := by
  have hvarint := reader.length_varint
  unfold count
  simp only at hvarint ⊢
  split_ifs <;> exact hvarint

theorem Decoder.length_int32Value : reader.int32Value.2.data.length ≤ reader.data.length := by
  have hvarint := reader.length_varint
  unfold int32Value
  simp only at hvarint ⊢
  split_ifs <;> exact hvarint

end

theorem Decoder.length_stringValue {text : Bytes} (hread : reader.stringValue = .ok (text, next)) :
    text.length ≤ reader.data.length ∧ next.data.length ≤ reader.data.length := by
  have hcount := reader.length_count reader.data.length
  unfold stringValue at hread
  simp only at hcount hread
  split_ifs at hread with hfailed hlong
  · obtain ⟨rfl, rfl⟩ := hread
    exact ⟨Nat.zero_le _, hcount⟩
  obtain ⟨rfl, rfl⟩ := hread
  simp only [length_take, length_drop]
  omega

/-- A decoded value matches the type it was decoded under. -/
theorem matches_of_decodeCell {type : ScalarType} {flag : UInt8}
    (hbytes : reader.data.length < 2 ^ 63)
    (hcell : decodeCell type flag reader = .ok (value, next)) :
    value.Matches type ∧ next.data.length ≤ reader.data.length := by
  unfold decodeCell at hcell
  split_ifs at hcell
  · cases type with
    | string =>
      obtain ⟨⟨text, _⟩, htext, hvalue⟩ := bind_eq_ok.mp hcell
      obtain ⟨_, hrest⟩ := length_stringValue htext
      obtain ⟨rfl, rfl⟩ := hvalue
      exact ⟨.inr ⟨text, by omega, rfl⟩, hrest⟩
    | bool =>
      obtain ⟨rfl, rfl⟩ := hcell
      exact ⟨.inr ⟨_, rfl⟩, reader.length_byteValue⟩
    | int64 =>
      obtain ⟨rfl, rfl⟩ := hcell
      exact ⟨.inr ⟨_, rfl⟩, reader.length_varint⟩
    | other => simp [decodeCellValue] at hcell
  · obtain ⟨rfl, rfl⟩ := hcell
    exact ⟨.inl rfl, le_rfl⟩

variable {cells : List StoredCell} {count : ℕ}

/-- What has to succeed for one more cell to be decoded. -/
theorem decodeCells_succ_eq_ok :
    decodeCells columns (count + 1) reader = .ok (cells, next) ↔
      ∃ column rest declared value middle tail,
        reader.count ((columns.length : ℤ) - 1) = (column, rest) ∧ rest.failed = false ∧
        columns[column]? = some declared ∧
        decodeCell declared.type rest.byteValue.1 rest.byteValue.2 = .ok (value, middle) ∧
        decodeCells columns count middle = .ok (tail, next) ∧ cells = ⟨column, value⟩ :: tail := by
  rw [decodeCells]
  obtain ⟨column, rest⟩ := reader.count ((columns.length : ℤ) - 1)
  cases hfailed : rest.failed with
  | true => simp [hfailed]
  | false =>
    cases hcolumn : columns[column]? with
    | none => simp [hfailed, hcolumn]
    | some declared =>
      simp only [hfailed, hcolumn, Bool.false_eq_true, if_false, bind_eq_ok,
        pure_eq, ok.injEq, Prod.mk.injEq, Prod.exists]
      constructor
      · rintro ⟨value, middle, hcell, tail, _, htail, rfl, rfl⟩
        exact ⟨column, rest, declared, value, middle, tail, ⟨rfl, rfl⟩, hfailed,
          hcolumn, hcell, htail, rfl⟩
      rintro ⟨_, _, _, value, middle, tail, ⟨rfl, rfl⟩, _, hdeclared, hcell, htail, rfl⟩
      rw [hcolumn, Option.some.injEq] at hdeclared
      subst hdeclared
      exact ⟨value, middle, hcell, tail, next, htail, rfl, rfl⟩

/-- Columns that are added at the end do not change how cells are decoded. -/
theorem decodeCells_append (extra : List ScalarColumn)
    (hdecode : decodeCells columns count reader = .ok (cells, next)) :
    decodeCells (columns ++ extra) count reader = .ok (cells, next) := by
  induction count generalizing reader cells with
  | zero => exact hdecode
  | succ _ ih =>
    obtain ⟨column, rest, declared, value, middle, tail, hcount, hfailed,
        hcolumn, hcell, htail, rfl⟩ :=
      decodeCells_succ_eq_ok.mp hdecode
    have hlimit : (columns.length : ℤ) - 1 ≤ (columns ++ extra).length - 1 := by
      rw [length_append]
      omega
    refine decodeCells_succ_eq_ok.mpr ⟨column, rest, declared, value, middle, tail,
      count_mono hcount hfailed hlimit, hfailed, ?_, hcell, ih htail, rfl⟩
    rw [List.getElem?_append_left (List.getElem?_eq_some_iff.mp hcolumn).1, hcolumn]

def Decoder.afterFields (reader : Decoder) : Decoder :=
  (((reader.int32Value.2.byteValue.2).count maxInt64).2.count maxInt64).2

/-- What has to succeed for an upsert record to be decoded, and the record that results. -/
theorem decodeUpsert_eq_ok {id : Bytes} {code : Code} :
    decodeUpsert columns id code reader = .ok record ↔
      ∃ relativePath middle cellCount rest cells last,
        reader.stringValue = .ok (relativePath, middle) ∧
        middle.afterFields.count columns.length = (cellCount, rest) ∧ rest.failed = false ∧
        decodeCells columns cellCount rest = .ok (cells, last) ∧ last.failed = false ∧
        record =
          { kind := .upsert, id := id, code := code, relativePath := relativePath
            splitPart := middle.int32Value.1
            splitRecorded := middle.int32Value.2.byteValue.1 = 1
            dataOffset := (middle.int32Value.2.byteValue.2.count maxInt64).1
            dataLength := ((middle.int32Value.2.byteValue.2.count maxInt64).2.count maxInt64).1
            cells := cells } := by
  simp only [decodeUpsert, bind_eq_ok, Prod.exists, afterFields]
  refine exists_congr fun relativePath ↦ exists_congr fun middle ↦ ?_
  generalize count _ (columns.length : ℤ) = counted
  obtain ⟨cellCount, rest⟩ := counted
  cases hfailed : rest.failed with
  | true =>
    simp only [if_true, reduceCtorEq, and_false, false_iff]
    rintro ⟨_, _, _, _, _, hsame, hok, _⟩
    simp only [Prod.mk.injEq] at hsame
    rw [hsame.2, hok] at hfailed
    simp at hfailed
  | false =>
    simp only [Bool.false_eq_true, if_false, bind_eq_ok, Prod.exists]
    constructor
    · rintro ⟨hpath, cells, last, hcells, hfinish⟩
      cases hlast : last.failed with
      | true => simp [finish, hlast] at hfinish
      | false =>
        simp only [finish, hlast, Bool.false_eq_true, if_false, ok.injEq] at hfinish
        exact ⟨cellCount, rest, cells, last, hpath, rfl, hfailed, hcells, hlast, hfinish.symm⟩
    rintro ⟨_, _, cells, last, hpath, hsame, _, hcells, hlast, rfl⟩
    obtain ⟨rfl, rfl⟩ := hsame
    exact ⟨hpath, cells, last, hcells, by simp [finish, hlast]⟩

/-- Columns that are added at the end do not change how a record is decoded. -/
theorem decodeRecord_append {payload : Bytes} (hdecode : decodeRecord payload columns = .ok record)
    (extra : List ScalarColumn) :
    decodeRecord payload (columns ++ extra) = .ok record := by
  obtain ⟨⟨id, reader⟩, hid, hdecode⟩ := bind_eq_ok.mp hdecode
  refine bind_eq_ok.mpr ⟨⟨id, reader⟩, hid, ?_⟩
  simp only at hdecode ⊢
  split_ifs at hdecode ⊢
  · exact hdecode
  obtain ⟨relativePath, middle, cellCount, rest, cells, last, hpath, hcount, hok, hcells, hlast,
    hrecord⟩ := decodeUpsert_eq_ok.mp hdecode
  have hlimit : (columns.length : ℤ) ≤ (columns ++ extra).length := by
    rw [length_append]
    omega
  exact decodeUpsert_eq_ok.mpr ⟨relativePath, middle, cellCount, rest, cells, last, hpath,
    count_mono hcount hok hlimit, hok, decodeCells_append extra hcells, hlast, hrecord⟩

theorem cells_match_of_decodeCells (hbytes : reader.data.length < 2 ^ 63)
    (hdecode : decodeCells columns count reader = .ok (cells, next)) :
    ∀ cell ∈ cells, ∃ column, columns[cell.column]? = some column ∧
      cell.value.Matches column.type := by
  induction count generalizing reader cells with
  | zero =>
    simp only [decodeCells, ok.injEq, Prod.mk.injEq] at hdecode
    simp [← hdecode.1]
  | succ _ ih =>
    obtain ⟨_, rest, declared, _, _, _, hcount, _, hcolumn, hcell, htail, rfl⟩ :=
      decodeCells_succ_eq_ok.mp hdecode
    have hrest := reader.length_count ((columns.length : ℤ) - 1)
    simp only [hcount] at hrest
    have hflag := rest.length_byteValue
    obtain ⟨hmatches, _⟩ := matches_of_decodeCell (by omega) hcell
    intro cell hmember
    rcases mem_cons.mp hmember with rfl | hmember
    · exact ⟨declared, hcolumn, hmatches⟩
    · exact ih (by omega) htail cell hmember

/-- A decoded record is one that the format can hold. -/
theorem valid_of_decodeRecord {payload : Bytes} (hbytes : payload.length < 2 ^ 63)
    (hdecode : decodeRecord payload columns = .ok record) :
    record.Valid columns := by
  have hmax : maxInt64 = 2 ^ 63 - 1 := rfl
  have hkind := (mk payload false).length_byteValue
  rw [decodeRecord] at hdecode
  generalize (mk payload false).byteValue = first at hdecode hkind
  obtain ⟨⟨id, _⟩, hid, hdecode⟩ := bind_eq_ok.mp hdecode
  obtain ⟨_, _⟩ := length_stringValue hid
  simp only at hdecode hkind
  have hidLt : id.length < 2 ^ 63 := by omega
  split_ifs at hdecode
  · have hrecord : record = emptyRecord .delete id := by
      unfold finish at hdecode
      split_ifs at hdecode
      simpa using hdecode.symm
    subst hrecord
    exact ⟨hidLt, by simp [emptyRecord], by simp [emptyRecord], by simp [emptyRecord],
      fun _ ↦ rfl, by simp [emptyRecord]⟩
  obtain ⟨relativePath, middle, _, rest, _, _, hpath, hcount, _, hcells, _,
    rfl⟩ := decodeUpsert_eq_ok.mp hdecode
  obtain ⟨hpathLength, hmiddle⟩ := length_stringValue hpath
  simp only [length_drop] at hpathLength hmiddle
  have hrest : rest.data.length ≤ middle.data.length := by
    have hint32 := middle.length_int32Value
    have hflag := middle.int32Value.2.length_byteValue
    have hoffset := middle.int32Value.2.byteValue.2.length_count maxInt64
    have hlength := (middle.int32Value.2.byteValue.2.count maxInt64).2.length_count maxInt64
    have hcells := middle.afterFields.length_count columns.length
    simp only [hcount] at hcells
    simp only [afterFields] at hcells
    omega
  have hoffset := (middle.int32Value.2.byteValue.2).count_le (show 0 ≤ maxInt64 by omega)
  have hlength :=
    (middle.int32Value.2.byteValue.2.count maxInt64).2.count_le (show 0 ≤ maxInt64 by omega)
  refine ⟨hidLt, ?_, ?_, ?_, by simp, cells_match_of_decodeCells (by omega) hcells⟩
  · show relativePath.length < 2 ^ 63
    omega
  · show (middle.int32Value.2.byteValue.2.count maxInt64).1 < 2 ^ 63
    omega
  · show ((middle.int32Value.2.byteValue.2.count maxInt64).2.count maxInt64).1 < 2 ^ 63
    omega

/-! ### What can be encoded -/

/-- A value that fits its column and could be encoded matches the column's type. -/
theorem matches_of_encodeCell {cell : StoredCell} {bytes : Bytes}
    (hencode : encodeCell columns cell = some bytes)
    (hlength : bytes.length < 2 ^ 63) (hcolumn : columns[cell.column]? = some column)
    (hfits : cell.value.Fits column.type) : cell.value.Matches column.type := by
  rcases hfits with hnull | ⟨hnull, htype, hpayload⟩
  · exact .inl hnull
  refine .inr ?_
  obtain ⟨_, type, _, text, flag, number⟩ := cell
  subst hnull htype
  simp only [encodeCell, hcolumn, Bool.false_eq_true, if_false, Option.map_some] at hencode
  cases hkind : column.type with
  | string =>
    simp only [hkind, Option.some.injEq] at hencode hpayload
    obtain ⟨rfl, rfl⟩ := hpayload
    refine ⟨text, ?_, rfl⟩
    rw [← hencode] at hlength
    simp only [length_append, appendString] at hlength
    omega
  | bool =>
    rw [hkind] at hpayload
    obtain ⟨rfl, rfl⟩ := hpayload
    exact ⟨flag, rfl⟩
  | int64 =>
    rw [hkind] at hpayload
    obtain ⟨rfl, rfl⟩ := hpayload
    exact ⟨number, rfl⟩
  | other => simp [hkind] at hencode

theorem encodeCell_of_mem {bytes : Bytes} (hencode : encodeCells columns cells = some bytes) :
    ∀ cell ∈ cells, ∃ part, encodeCell columns cell = some part ∧ part.length ≤ bytes.length := by
  induction cells generalizing bytes with
  | nil => simp
  | cons _ _ ih =>
    simp only [encodeCells, Option.pure_def, Option.bind_eq_bind, Option.bind_eq_some_iff,
      Option.some.injEq] at hencode
    obtain ⟨head, hhead, _, hrest, rfl⟩ := hencode
    intro cell hcell
    rcases mem_cons.mp hcell with rfl | hcell
    · exact ⟨head, hhead, by simp⟩
    · obtain ⟨part, hpart, _⟩ := ih hrest cell hcell
      exact ⟨part, hpart, by simp; omega⟩

/-- A record of fitting values on distinct columns that could be encoded is well formed. -/
theorem wellFormed_of_encodeRecord {payload : Bytes}
    (hencode : encodeRecord record columns = some payload) (hlength : payload.length < 2 ^ 63)
    (hdelete : record.kind = .delete → record = emptyRecord .delete record.id)
    (hfits : ∀ cell ∈ record.cells, ∃ column, columns[cell.column]? = some column ∧
      cell.value.Fits column.type) (hnodup : (record.cells.map StoredCell.column).Nodup)
    (hoffset : record.dataOffset < 2 ^ 63) (hdata : record.dataLength < 2 ^ 63) :
    record.WellFormed columns := by
  unfold encodeRecord at hencode
  cases hkind : record.kind with
  | delete =>
    simp only [hkind, Option.some.injEq] at hencode
    rw [hdelete hkind]
    refine wellFormed_delete ?_ columns
    rw [← hencode] at hlength
    simp only [appendString, length_cons, length_append] at hlength
    omega
  | upsert =>
    simp only [hkind, Option.map_eq_some_iff] at hencode
    obtain ⟨_, hcells, rfl⟩ := hencode
    simp only [length_append, length_cons, appendString] at hlength
    refine ⟨⟨by omega, by omega, hoffset, hdata, hdelete, fun cell hcell ↦ ?_⟩, hnodup⟩
    obtain ⟨column, hcolumn, hvalue⟩ := hfits cell hcell
    obtain ⟨_, hpart, _⟩ := encodeCell_of_mem hcells cell hcell
    exact ⟨column, hcolumn, matches_of_encodeCell hpart (by omega) hcolumn hvalue⟩

theorem ScalarValue.Matches.fits {type : ScalarType} (hmatches : value.Matches type) :
    value.Fits type := by
  rcases hmatches with hnull | hvalue
  · exact .inl hnull
  cases type with
  | string =>
    obtain ⟨_, _, rfl⟩ := hvalue
    exact .inr ⟨rfl, rfl, rfl, rfl⟩
  | bool =>
    obtain ⟨_, rfl⟩ := hvalue
    exact .inr ⟨rfl, rfl, rfl, rfl⟩
  | int64 =>
    obtain ⟨_, rfl⟩ := hvalue
    exact .inr ⟨rfl, rfl, rfl, rfl⟩
  | other => exact absurd hvalue id

end Clyde.CodeStore
