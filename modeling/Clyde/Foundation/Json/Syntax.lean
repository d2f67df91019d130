import Clyde.Foundation.Quoted

/-!
# The syntax of JSON texts

A `Value` is the syntax tree of a JSON text, with the white space between the tokens and the text of
every number and string as it stands. `render` writes a tree, and `parse` reads a text. The tokens
are the accepted texts of small scanners (`scan`), read as far as the scanner goes (`munch`), and
carry the proof of it, so every tree is the tree of some text. What was read is what is written
there (`render_of_parse`).

Scope. Texts are bytes; inside a string only the quote, the backslash and the control characters
matter. A text whose arrays and objects are nested deeper than `maxNestingDepth` is refused.
-/

set_option autoImplicit false

namespace Clyde.Foundation.Json

open ByteCodec Text Option

/-! ### Scanners -/

section

variable {σ : Type} (step : σ → UInt8 → Option σ)

def scan (state : σ) (text : Bytes) : Option σ := text.foldlM step state

/-- The longest text that is accepted, the state after it, and the rest. -/
def munch : σ → Bytes → Bytes × σ × Bytes
  | state, [] => ([], state, [])
  | state, byte :: rest =>
    match step state byte with
    | none => ([], state, byte :: rest)
    | some next => (byte :: (munch next rest).1, (munch next rest).2)

variable {step} (state : σ)

@[simp] theorem scan_nil : scan step state [] = some state := rfl

theorem scan_cons (byte : UInt8) (rest : Bytes) :
    scan step state (byte :: rest) = (step state byte).bind fun next ↦ scan step next rest := by
  rfl

theorem scan_munch (text : Bytes) :
    scan step state (munch step state text).1 = some (munch step state text).2.1 := by
  induction text generalizing state with
  | nil => rfl
  | cons byte _ ih =>
    unfold munch
    cases hnext : step state byte with
    | none => rfl
    | some next => simpa [scan_cons, hnext] using ih next

theorem munch_eq_append (state : σ) (text : Bytes) :
    (munch step state text).1 ++ (munch step state text).2.2 = text := by
  induction text generalizing state with
  | nil => rfl
  | cons byte _ ih =>
    unfold munch
    cases hnext : step state byte with
    | none => rfl
    | some next => simpa using ih next

end

/-! ### White space -/

def isSpace (byte : UInt8) : Bool := byte = 0x20 || byte = 0x09 || byte = 0x0A || byte = 0x0D

def spaceStep (_ : Unit) (byte : UInt8) : Option Unit :=
  if isSpace byte then some () else none

def Space : Type :=
  { text : Bytes // scan spaceStep () text = some () }
  deriving DecidableEq

def Space.none : Space := ⟨[], rfl⟩

def parseSpace (text : Bytes) : Space × Bytes :=
  (⟨(munch spaceStep () text).1, scan_munch () text⟩, (munch spaceStep () text).2.2)

theorem append_parseSpace (text : Bytes) : (parseSpace text).1.1 ++ (parseSpace text).2 = text :=
  munch_eq_append () text

/-! ### Literals and numbers -/

inductive Literal where
  | null
  | true
  | false
  deriving DecidableEq

def Literal.text : Literal → Bytes
  | .null => bytesOf "null"
  | .true => bytesOf "true"
  | .false => bytesOf "false"

def parseLiteral (text : Bytes) : Option (Literal × Bytes) :=
  ([.null, .true, .false].find? fun literal : Literal ↦ literal.text.isPrefixOf text).map
    fun literal ↦ (literal, text.drop literal.text.length)

variable {text rest : Bytes}

theorem append_of_parseLiteral {literal : Literal}
    (hparse : parseLiteral text = some (literal, rest)) : literal.text ++ rest = text := by
  obtain ⟨found, hfound, heq⟩ := map_eq_some_iff.mp hparse
  obtain ⟨rfl, rfl⟩ := Prod.mk.inj heq
  have hstarts : found.text <+: text := by simpa using List.find?_some hfound
  exact List.prefix_iff_eq_append.mp hstarts

/-- How much of a number has been read. -/
inductive NumberState where
  | start
  | minus
  | zero
  | integer
  | point
  | fraction
  | exponent
  | exponentSign
  | exponentDigits
  deriving DecidableEq

def NumberState.accepting : NumberState → Bool
  | .zero | .integer | .fraction | .exponentDigits => true
  | .start | .minus | .point | .exponent | .exponentSign => false

def numberStep (state : NumberState) (byte : UInt8) : Option NumberState :=
  let first : Option NumberState :=
    if byte = 0x30 then some .zero else if isDigit byte then some .integer else none
  let continued : Option NumberState :=
    if byte = 0x2E then some .point
    else if byte = 0x65 || byte = 0x45 then some .exponent
    else none
  match state with
  | .start => if byte = 0x2D then some .minus else first
  | .minus => first
  | .zero => continued
  | .integer => if isDigit byte then some .integer else continued
  | .point => if isDigit byte then some .fraction else none
  | .fraction =>
    if isDigit byte then some .fraction
    else if byte = 0x65 || byte = 0x45 then some .exponent
    else none
  | .exponent =>
    if byte = 0x2B || byte = 0x2D then some .exponentSign
    else if isDigit byte then some .exponentDigits
    else none
  | .exponentSign => if isDigit byte then some .exponentDigits else none
  | .exponentDigits => if isDigit byte then some .exponentDigits else none

def Number : Type :=
  { text : Bytes // (scan numberStep .start text).any NumberState.accepting = true }
  deriving DecidableEq

def parseNumber (text : Bytes) : Option (Number × Bytes) :=
  if haccepting : (munch numberStep .start text).2.1.accepting = true then
    some (⟨(munch numberStep .start text).1, by rw [scan_munch]; simpa using haccepting⟩,
      (munch numberStep .start text).2.2)
  else none

def isDelimiter (byte : UInt8) : Bool := isSpace byte || byte = 0x2C || byte = 0x5D || byte = 0x7D

theorem append_of_parseNumber {number : Number}
    (hparse : parseNumber text = some (number, rest)) : number.1 ++ rest = text := by
  unfold parseNumber at hparse
  split at hparse
  · cases hparse
    exact munch_eq_append _ text
  · cases hparse

/-! ### Strings -/

/-- At a character of a string, after a backslash, or before some hexadecimal digits. -/
inductive BodyState where
  | plain
  | escape
  | hex (more : ℕ)
  deriving DecidableEq

def isHex (byte : UInt8) : Bool := (Quoted.unhex byte).isSome

def bodyStep (state : BodyState) (byte : UInt8) : Option BodyState :=
  match state with
  | .plain =>
    if byte = 0x22 || byte < 0x20 then none
    else if byte = 0x5C then some .escape
    else some .plain
  | .escape =>
    if byte ∈ bytesOf "bfnrt\\/\"" then some .plain
    else if byte = 0x75 then some (.hex 3)
    else none
  | .hex more =>
    if isHex byte then
      match more with
      | 0 => some .plain
      | more + 1 => some (.hex more)
    else none

/-- The text of a string between its quotes. -/
def Body : Type :=
  { text : Bytes // scan bodyStep .plain text = some .plain }
  deriving DecidableEq

def parseBody (text : Bytes) : Option (Body × Bytes) :=
  if hplain : (munch bodyStep .plain text).2.1 = .plain then
    match (munch bodyStep .plain text).2.2 with
    | [] => none
    | byte :: rest =>
      if byte = 0x22 then
        some (⟨(munch bodyStep .plain text).1, by rw [scan_munch, hplain]⟩, rest)
      else none
  else none

theorem append_of_parseBody {body : Body}
    (hparse : parseBody text = some (body, rest)) : body.1 ++ 0x22 :: rest = text := by
  unfold parseBody at hparse
  have hsplit := @munch_eq_append _ bodyStep .plain text
  split at hparse
  · split at hparse
    · cases hparse
    · next byte after hafter =>
      split_ifs at hparse with hbyte
      cases hparse
      rwa [hafter, hbyte] at hsplit
  · cases hparse

/-! ### Trees -/

mutual

inductive Value where
  | literal (literal : Literal)
  | number (number : Number)
  | string (body : Body)
  | emptyArray (space : Space)
  | array (elements : Elements)
  | emptyObject (space : Space)
  | object (members : Members)

inductive Elements where
  | last (before : Space) (value : Value) (after : Space)
  | more (before : Space) (value : Value) (after : Space) (rest : Elements)

inductive Members where
  | last (before : Space) (key : Body) (after : Space) (start : Space)
      (value : Value) (stop : Space)
  | more (before : Space) (key : Body) (after : Space) (start : Space)
      (value : Value) (stop : Space)
      (rest : Members)

end

deriving instance DecidableEq for Value, Elements, Members

mutual

def Value.render : Value → Bytes
  | .literal literal => literal.text
  | .number number => number.1
  | .string body => 0x22 :: (body.1 ++ [0x22])
  | .emptyArray space => 0x5B :: (space.1 ++ [0x5D])
  | .array elements => 0x5B :: elements.render
  | .emptyObject space => 0x7B :: (space.1 ++ [0x7D])
  | .object members => 0x7B :: members.render

def Elements.render : Elements → Bytes
  | .last before value after => before.1 ++ (value.render ++ (after.1 ++ [0x5D]))
  | .more before value after rest => before.1 ++ (value.render ++ (after.1 ++ 0x2C :: rest.render))

def Members.render : Members → Bytes
  | .last before key after start value stop =>
    before.1 ++ 0x22 :: (key.1 ++ 0x22 :: (after.1 ++ 0x3A :: (start.1 ++ (value.render ++
      (stop.1 ++ [0x7D])))))
  | .more before key after start value stop rest =>
    before.1 ++ 0x22 :: (key.1 ++ 0x22 :: (after.1 ++ 0x3A :: (start.1 ++ (value.render ++
      (stop.1 ++ 0x2C :: rest.render)))))

end

mutual

/-- How deeply the arrays and objects of a value are nested. -/
def Value.depth : Value → ℕ
  | .literal _ | .number _ | .string _ => 0
  | .emptyArray _ | .emptyObject _ => 1
  | .array elements => elements.depth + 1
  | .object members => members.depth + 1

def Elements.depth : Elements → ℕ
  | .last _ value _ => value.depth
  | .more _ value _ rest => max value.depth rest.depth

def Members.depth : Members → ℕ
  | .last _ _ _ _ value _ => value.depth
  | .more _ _ _ _ value _ rest => max value.depth rest.depth

end

/-! ### Reading -/

mutual

/-- Reads a value; `fuel` bounds the number of calls. -/
def parseValue : ℕ → Bytes → Option (Value × Bytes)
  | 0, _ => none
  | _ + 1, [] => none
  | fuel + 1, byte :: rest =>
    if byte = 0x22 then (parseBody rest).map fun (body, left) ↦ (.string body, left)
    else if byte = 0x5B then
      if (parseSpace rest).2.head? = some 0x5D then
        some (.emptyArray (parseSpace rest).1, (parseSpace rest).2.tail)
      else (parseElements fuel rest).map fun (elements, left) ↦ (.array elements, left)
    else if byte = 0x7B then
      if (parseSpace rest).2.head? = some 0x7D then
        some (.emptyObject (parseSpace rest).1, (parseSpace rest).2.tail)
      else (parseMembers fuel rest).map fun (members, left) ↦ (.object members, left)
    else
      match parseLiteral (byte :: rest) with
      | some (literal, left) => some (.literal literal, left)
      | none => (parseNumber (byte :: rest)).map fun (number, left) ↦ (.number number, left)

def parseElements : ℕ → Bytes → Option (Elements × Bytes)
  | 0, _ => none
  | fuel + 1, text =>
    match parseValue fuel (parseSpace text).2 with
    | none => none
    | some (value, left) =>
      match (parseSpace left).2 with
      | [] => none
      | byte :: left' =>
        if byte = 0x5D then
          some (.last (parseSpace text).1 value (parseSpace left).1, left')
        else if byte = 0x2C then
          (parseElements fuel left').map fun (rest, left'') ↦
            (.more (parseSpace text).1 value (parseSpace left).1 rest, left'')
        else none

def parseMembers : ℕ → Bytes → Option (Members × Bytes)
  | 0, _ => none
  | fuel + 1, text =>
    match (parseSpace text).2 with
    | [] => none
    | quote :: text' =>
      if quote = 0x22 then
        match parseBody text' with
        | none => none
        | some (key, afterKey) =>
          match (parseSpace afterKey).2 with
          | [] => none
          | colon :: afterColon =>
            if colon = 0x3A then
              match parseValue fuel (parseSpace afterColon).2 with
              | none => none
              | some (value, left) =>
                match (parseSpace left).2 with
                | [] => none
                | byte :: left' =>
                  if byte = 0x7D then
                    some (.last (parseSpace text).1 key (parseSpace afterKey).1
                      (parseSpace afterColon).1 value (parseSpace left).1, left')
                  else if byte = 0x2C then
                    (parseMembers fuel left').map fun (rest, left'') ↦
                      (.more (parseSpace text).1 key (parseSpace afterKey).1
                        (parseSpace afterColon).1 value (parseSpace left).1 rest, left'')
                  else none
            else none
      else none

end

/-! ### What was read -/

theorem append_cons_parseSpace {byte : UInt8}
    (hspace : (parseSpace text).2 = byte :: rest) :
    (parseSpace text).1.1 ++ byte :: rest = text := by
  rw [← hspace, append_parseSpace]

/-- What is parsed renders back to the text that was consumed. The induction is on the fuel. -/
theorem render_of_parse (fuel : ℕ) :
    (∀ {text rest : Bytes} {value : Value}, parseValue fuel text = some (value, rest) →
        value.render ++ rest = text) ∧
      (∀ {text rest : Bytes} {elements : Elements},
        parseElements fuel text = some (elements, rest) → elements.render ++ rest = text) ∧
      (∀ {text rest : Bytes} {members : Members},
        parseMembers fuel text = some (members, rest) → members.render ++ rest = text) := by
  induction fuel with
  | zero =>
    refine ⟨?_, ?_, ?_⟩ <;> intro text rest tree hparse <;>
      simp [parseValue, parseElements, parseMembers] at hparse
  | succ _ ih =>
    obtain ⟨ihvalue, ihelements, ihmembers⟩ := ih
    refine ⟨?_, ?_, ?_⟩
    · intro text rest value hparse
      cases text with
      | nil => simp [parseValue] at hparse
      | cons byte text =>
        rw [parseValue] at hparse
        split_ifs at hparse with hquote hbracket hclose hbrace hclose
        · obtain ⟨⟨_, left⟩, hbody, heq⟩ := map_eq_some_iff.mp hparse
          cases heq
          simp [Value.render, hquote, append_of_parseBody hbody]
        · cases hparse
          obtain ⟨left, hleft⟩ := List.head?_eq_some_iff.mp hclose
          simp [Value.render, hbracket, hleft, append_cons_parseSpace hleft]
        · obtain ⟨⟨elements, left⟩, helements, heq⟩ := map_eq_some_iff.mp hparse
          cases heq
          simp [Value.render, hbracket, ihelements helements]
        · cases hparse
          obtain ⟨left, hleft⟩ := List.head?_eq_some_iff.mp hclose
          simp [Value.render, hbrace, hleft, append_cons_parseSpace hleft]
        · obtain ⟨⟨members, left⟩, hmembers, heq⟩ := map_eq_some_iff.mp hparse
          cases heq
          simp [Value.render, hbrace, ihmembers hmembers]
        split at hparse
        · next literal left hliteral =>
          cases hparse
          exact append_of_parseLiteral hliteral
        · obtain ⟨⟨_, left⟩, hnumber, heq⟩ := map_eq_some_iff.mp hparse
          cases heq
          exact append_of_parseNumber hnumber
    · intro text rest _ hparse
      rw [parseElements] at hparse
      split at hparse
      · cases hparse
      · next value left hvalue =>
        have hvalue := ihvalue hvalue
        split at hparse
        · cases hparse
        · next byte left' hleft =>
          split_ifs at hparse with hclose hcomma
          · cases hparse
            simp [Elements.render, ← hclose, append_cons_parseSpace hleft,
              hvalue, append_parseSpace]
          obtain ⟨⟨others, left''⟩, hothers, heq⟩ := map_eq_some_iff.mp hparse
          cases heq
          simp [Elements.render, ← hcomma, ihelements hothers, append_cons_parseSpace hleft,
            hvalue, append_parseSpace]
    intro _ _ _ hparse
    rw [parseMembers] at hparse
    split at hparse
    · cases hparse
    · next quote text' htext =>
      split_ifs at hparse with hquote
      split at hparse
      · cases hparse
      · next key afterKey hkey =>
        have hkey := append_of_parseBody hkey
        split at hparse
        · cases hparse
        · next colon afterColon hafter =>
          split_ifs at hparse with hcolon
          split at hparse
          · cases hparse
          · next value left hvalue =>
            have hvalue := ihvalue hvalue
            split at hparse
            · cases hparse
            · next byte left' hleft =>
              subst hquote hcolon
              split_ifs at hparse with hclose hcomma
              · cases hparse
                simp [Members.render, ← hclose, append_cons_parseSpace hleft, hvalue,
                  append_parseSpace, append_cons_parseSpace hafter, hkey,
                  append_cons_parseSpace htext]
              obtain ⟨⟨_, _⟩, hothers, heq⟩ := map_eq_some_iff.mp hparse
              cases heq
              simp [Members.render, ← hcomma, ihmembers hothers,
                append_cons_parseSpace hleft, hvalue, append_parseSpace,
                append_cons_parseSpace hafter, hkey, append_cons_parseSpace htext]

/-! ### Whole texts -/

def maxNestingDepth : ℕ := 10000

def parse (text : Bytes) : Option Value :=
  match parseValue (parseSpace text).2.length (parseSpace text).2 with
  | none => none
  | some (value, rest) =>
    if (parseSpace rest).2 = [] ∧ value.depth ≤ maxNestingDepth then some value else none

/-- A parsed text is the value's own rendering between spaces. -/
theorem exists_render_of_parse {value : Value} (hparse : parse text = some value) :
    ∃ before after : Space, text = before.1 ++ (value.render ++ after.1) := by
  unfold parse at hparse
  cases hvalue : parseValue (parseSpace text).2.length (parseSpace text).2 with
  | none => simp [hvalue] at hparse
  | some found =>
    obtain ⟨_, rest⟩ := found
    simp only [hvalue] at hparse
    split_ifs at hparse with hend
    cases hparse
    refine ⟨(parseSpace text).1, (parseSpace rest).1, ?_⟩
    have hrest := append_parseSpace rest
    rw [hend.1, List.append_nil] at hrest
    rw [hrest, (render_of_parse _).1 hvalue, append_parseSpace]

def valid (text : Bytes) : Bool := (parse text).isSome

/-! ### Elements and members -/

def Elements.toList : Elements → List Value
  | .last _ value _ => [value]
  | .more _ value _ rest => value :: rest.toList

def Members.toList : Members → List (Body × Value)
  | .last _ key _ _ value _ => [(key, value)]
  | .more _ key _ _ value _ rest => (key, value) :: rest.toList

def Value.elements : Value → Option (List Value)
  | .emptyArray _ => some []
  | .array elements => some elements.toList
  | _ => none

/-- The members of an object, with their keys as they are written. -/
def Value.members : Value → Option (List (Body × Value))
  | .emptyObject _ => some []
  | .object members => some members.toList
  | _ => none

/-! ### Values without white space -/

variable (rewrite : Body → Body)

mutual

/-- The value without white space between its tokens, and with its strings rewritten. -/
def Value.compact : Value → Value
  | .literal literal => .literal literal
  | .number number => .number number
  | .string body => .string (rewrite body)
  | .emptyArray _ => .emptyArray .none
  | .array elements => .array elements.compact
  | .emptyObject _ => .emptyObject .none
  | .object members => .object members.compact

def Elements.compact : Elements → Elements
  | .last _ value _ => .last .none value.compact .none
  | .more _ value _ rest => .more .none value.compact .none rest.compact

def Members.compact : Members → Members
  | .last _ key _ _ value _ => .last .none (rewrite key) .none .none value.compact .none
  | .more _ key _ _ value _ rest =>
    .more .none (rewrite key) .none .none value.compact .none rest.compact

end

def compactText (text : Bytes) : Option Bytes :=
  (parse text).map fun value ↦ (value.compact id).render

end Clyde.Foundation.Json
