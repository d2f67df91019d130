import Clyde.Foundation.Json.Strings

/-!
# Reading JSON values into records

A `Store σ` takes a value and a variable's contents and gives the new contents, or nothing if the
value has another type. `null` changes nothing. The members of an object are stored one after the
other, each in the field its key names (`Store.record`): the field that is spelled the same, and
otherwise one that is spelled the same up to the case of letters. Keys that name no field are
skipped, and of several members with one key the last one counts.
-/

set_option autoImplicit false

namespace Clyde.Foundation.Json

open ByteCodec Text Utf8

/-- Besides the capital letters, the Kelvin sign and the long s are the same as a letter of ASCII.
-/
def foldRune (rune : Char) : Char :=
  if rune = '\u212A' then 'k' else if rune = '\u017F' then 's' else rune.toLower

def equalFold (first second : Bytes) : Bool :=
  (runes first).map foldRune = (runes second).map foldRune

abbrev Store (σ : Type) : Type := Value → σ → Option σ

namespace Store

variable {σ τ : Type}

def string : Store Bytes
  | .string body, _ => some body.decode
  | .literal .null, current => some current
  | _, _ => none

/-- The whole number a text stands for, if it is written without a fraction and an exponent. -/
def wholeNumber : Bytes → Option ℤ
  | 0x2D :: digits => (atoi digits).map fun number ↦ -(number : ℤ)
  | digits => (atoi digits).map fun number ↦ (number : ℤ)

/-- A variable for a 64-bit number. -/
def int : Store ℤ
  | .number number, _ =>
    (wholeNumber number.1).bind fun whole ↦
      if -2 ^ 63 ≤ whole ∧ whole < 2 ^ 63 then some whole else none
  | .literal .null, current => some current
  | _, _ => none

def raw : Store Bytes := fun value _ ↦ some value.render

def field (get : σ → τ) (set : τ → σ → σ) (store : Store τ) : Store σ :=
  fun value current ↦ (store value (get current)).map fun stored ↦ set stored current

def named (fields : List (Bytes × Store σ)) (key : Bytes) : Option (Store σ) :=
  ((fields.find? fun field ↦ field.1 = key).or
    (fields.find? fun field ↦ equalFold field.1 key)).map Prod.snd

def record (fields : List (Bytes × Store σ)) : Store σ :=
  fun value current ↦
    match value.members with
    | some members =>
      members.foldlM (fun stored member ↦
        match named fields member.1.decode with
        | some store => store member.2 stored
        | none => some stored) current
    | none =>
      match value with
      | .literal .null => some current
      | _ => none

/-- A variable for a list: every element is stored in the variable at its place, or in a new one. -/
def list (zero : τ) (store : Store τ) : Store (List τ) :=
  fun value current ↦
    match value.elements with
    | some values => values.zipIdx.mapM fun (value, index) ↦ store value (current[index]?.getD zero)
    | none =>
      match value with
      | .literal .null => some []
      | _ => none

def optional (zero : τ) (store : Store τ) : Store (Option τ) :=
  fun value current ↦
    match value with
    | .literal .null => some none
    | _ => (store value (current.getD zero)).map some

/-- A variable for the members of an object, by their keys; a later member replaces an earlier one.
-/
def map : Store (List (Bytes × Value)) :=
  fun value current ↦
    match value.members with
    | some members =>
      some (members.foldl (fun stored member ↦
        stored.filter (fun entry ↦ entry.1 ≠ member.1.decode) ++ [(member.1.decode, member.2)])
        current)
    | none =>
      match value with
      | .literal .null => some []
      | _ => none

/-- Reads a text into a variable. -/
def unmarshal (store : Store σ) (zero : σ) (text : Bytes) : Option σ :=
  (parse text).bind fun value ↦ store value zero

end Store

end Clyde.Foundation.Json
