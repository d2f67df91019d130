import Clyde.Foundation.Json.Decode

/-!
# Finding values in the text of a JSON document

The adapter edits a JSON document without reading it into a tree: `jsonObjectFieldValueRange` finds
the range of a field's value in the text of an object, `jsonArrayValueRanges` the ranges of the
elements of an array, and `replaceByteRange` writes another text in a range.

A position in a text is modelled as the text from there on, as the scanners only look ahead; a range
is a pair of offsets as in the source.
-/

set_option autoImplicit false

namespace Clyde.Codex

open Foundation ByteCodec Text Json

def skipJSONSpace (text : Bytes) : Bytes := text.dropWhile isSpace

/-- What follows the closing quote of a string, inside of which the text begins. -/
def closeString : (escaped : Bool) → Bytes → Option Bytes
  | _, [] => none
  | true, _ :: rest => closeString false rest
  | false, byte :: rest =>
    if byte = 0x5C then closeString true rest
    else if byte = 0x22 then some rest
    else closeString false rest

def scanJSONStringEnd : Bytes → Option Bytes
  | 0x22 :: rest => closeString false rest
  | _ => none

/-- What follows the bracket that closes an array or an object. `quoted` says that a byte is
escaped. -/
def closeContainer (opening closing : UInt8) :
    (depth : ℕ) → (quoted : Option Bool) → Bytes → Option Bytes
  | _, _, [] => none
  | depth, some true, _ :: rest => closeContainer opening closing depth (some false) rest
  | depth, some false, byte :: rest =>
    if byte = 0x5C then closeContainer opening closing depth (some true) rest
    else if byte = 0x22 then closeContainer opening closing depth none rest
    else closeContainer opening closing depth (some false) rest
  | depth, none, byte :: rest =>
    if byte = 0x22 then closeContainer opening closing depth (some false) rest
    else if byte = opening then closeContainer opening closing (depth + 1) none rest
    else if byte ≠ closing then closeContainer opening closing depth none rest
    else if depth = 1 then some rest
    else closeContainer opening closing (depth - 1) none rest

def scanJSONContainerEnd (text : Bytes) : Option Bytes :=
  match text.head? with
  | none => none
  | some opening => closeContainer opening (if opening = 0x5B then 0x5D else 0x7D) 0 none text

def scanJSONPrimitiveEnd (text : Bytes) : Option Bytes :=
  let rest := text.dropWhile fun byte ↦ !isDelimiter byte
  if rest.length < text.length then some rest else none

def scanJSONValueEnd (text : Bytes) : Option Bytes :=
  match text.head? with
  | none => none
  | some byte =>
    if byte = 0x22 then scanJSONStringEnd text
    else if byte = 0x7B ∨ byte = 0x5B then scanJSONContainerEnd text
    else scanJSONPrimitiveEnd text

/-- A part of a text. -/
structure Interval where
  start : ℕ
  stop : ℕ
  deriving Repr, DecidableEq

def Interval.between (raw first rest : Bytes) : Interval :=
  ⟨raw.length - first.length, raw.length - rest.length⟩

def Interval.shift (offset : ℕ) (range : Interval) : Interval :=
  ⟨offset + range.start, offset + range.stop⟩

def Interval.text (range : Interval) (raw : Bytes) : Bytes := (raw.take range.stop).drop range.start

/-- Searched from the member at which the text begins; the length of the text bounds the number of
members. -/
def fieldRangeFrom (raw field : Bytes) :
    (members : ℕ) → (found : Option Interval) → Bytes → Option Interval
  | 0, _, _ => none
  | members + 1, found, text =>
    let member := skipJSONSpace text
    if member.head?.all fun byte ↦ byte = 0x7D then found
    else
      match scanJSONStringEnd member with
      | none => none
      | some afterKey =>
        match Store.string.unmarshal [] (member.take (member.length - afterKey.length)) with
        | none => none
        | some key =>
          match skipJSONSpace afterKey with
          | 0x3A :: afterColon =>
            let value := skipJSONSpace afterColon
            match scanJSONValueEnd value with
            | none => none
            | some afterValue =>
              if key = field ∧ found.isSome then none
              else
                let found :=
                if key = field then some (Interval.between raw value afterValue) else found
                match skipJSONSpace afterValue with
                | 0x2C :: rest => fieldRangeFrom raw field members found rest
                | 0x7D :: _ => found
                | _ => none
          | _ => none

/-- The range of the value of a field that an object has exactly once. -/
def jsonObjectFieldValueRange (raw : Bytes) (field : String) : Option Interval :=
  if valid raw then
    match skipJSONSpace raw with
    | 0x7B :: rest => fieldRangeFrom raw (bytesOf field) raw.length none rest
    | _ => none
  else none

def elementRangesFrom (raw : Bytes) : (elements : ℕ) → Bytes → Option (List Interval)
  | 0, _ => none
  | elements + 1, text =>
    let value := skipJSONSpace text
    match value with
    | [] => none
    | 0x5D :: _ => some []
    | _ =>
      match scanJSONValueEnd value with
      | none => none
      | some afterValue =>
        match skipJSONSpace afterValue with
        | 0x2C :: rest =>
          (elementRangesFrom raw elements rest).map (Interval.between raw value afterValue :: ·)
        | 0x5D :: _ => some [Interval.between raw value afterValue]
        | _ => none

def jsonArrayValueRanges (raw : Bytes) : Option (List Interval) :=
  if valid raw then
    match skipJSONSpace raw with
    | 0x5B :: rest => elementRangesFrom raw raw.length rest
    | _ => none
  else none

def replaceByteRange (raw : Bytes) (range : Interval) (replacement : Bytes) : Bytes :=
  raw.take range.start ++ replacement ++ raw.drop range.stop

def marshalRawCompactionString (value : Bytes) : Bytes :=
  (Value.string (Body.encode false value)).render

def marshalRawArray (items : List Bytes) : Option Bytes :=
  if items.all valid then some (0x5B :: (List.intercalate [0x2C] items ++ [0x5D])) else none

end Clyde.Codex
