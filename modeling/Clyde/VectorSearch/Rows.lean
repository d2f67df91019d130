import Mathlib.Data.List.Nodup
import Clyde.Foundation.Text
import Clyde.Foundation.Utf8

/-!
# The rows of a conversation

`internal/conversation/vectorsearch/rows.go` and the splitting of `embed.go`. `documentChunks` gives
the chunks of a message document: its text, its tool calls and its thinking, each cut into parts of
at most `conversationChunkMaxBytes` bytes. A chunk over the byte budget of the embedding model is
cut again by `splitChunkAtBudget`, into pieces that keep the path and carry their offset plus one.

A chunk is determined by its path (`generatedChunks_path_injective`), and the input of its hash
determines the path (`hashInput_inj`).

Scope. A chunk has only the fields that the comparison with stored rows reads. Decomposing a shell
command is an arbitrary function. A chunk is shorter than 2 GiB.
-/

set_option autoImplicit false

namespace Clyde.VectorSearch

open Foundation ByteCodec Text List

def conversationChunkMaxBytes : ℕ := 60000

/-! ### Cutting a text -/

def runeStart (byte : UInt8) : Bool := byte &&& 0xC0 != 0x80

/-- The last position up to a bound at which a character starts. -/
def splitEnd (text : Bytes) : ℕ → ℕ
  | 0 => 0
  | position + 1 =>
    if runeStart (text.getD (position + 1) 0) then position + 1 else splitEnd text position

def runeSize (text : Bytes) : ℕ :=
  match Utf8.decodeRune text with
  | some rune => rune.utf8Size
  | none => 1

def pieceSize (text : Bytes) (maxBytes : ℕ) : ℕ :=
  if splitEnd text maxBytes = 0 then runeSize text else splitEnd text maxBytes

/-- The loop of `splitTextByBytes`, for at most `count` pieces. -/
def splitPieces (maxBytes : ℕ) : ℕ → Bytes → List Bytes
  | 0, _ => []
  | count + 1, text =>
    if text = [] then []
    else if text.length ≤ maxBytes then [text]
    else
      text.take (pieceSize text maxBytes) ::
        splitPieces maxBytes count (text.drop (pieceSize text maxBytes))

def splitTextByBytes (text : Bytes) (maxBytes : ℕ) : List Bytes :=
  if maxBytes = 0 ∨ text.length ≤ maxBytes then [text] else splitPieces maxBytes text.length text

variable (text : Bytes)

theorem splitEnd_le (position : ℕ) : splitEnd text position ≤ position := by
  induction position with
  | zero => exact le_rfl
  | succ position ih =>
    rw [splitEnd]
    split_ifs
    · exact le_rfl
    · exact ih.trans (Nat.le_succ position)

theorem runeSize_pos : 0 < runeSize text := by
  unfold runeSize
  split
  · exact Char.utf8Size_pos _
  · exact Nat.one_pos

theorem pieceSize_pos (maxBytes : ℕ) : 0 < pieceSize text maxBytes := by
  unfold pieceSize
  split_ifs with hend
  · exact runeSize_pos text
  · exact Nat.pos_of_ne_zero hend

variable {text : Bytes}

theorem runeSize_lt (hrunes : 1 < (Utf8.runes text).length) : runeSize text < text.length := by
  unfold runeSize
  split
  · next rune hrune =>
    rw [Utf8.runes_of_some hrune] at hrunes
    by_contra hlong
    rw [drop_eq_nil_of_le (not_lt.mp hlong), Utf8.runes_nil] at hrunes
    exact absurd hrunes (lt_irrefl 1)
  · next hnone =>
    cases text with
    | nil => simp at hrunes
    | cons _ rest =>
      rw [Utf8.runes_of_none hnone] at hrunes
      cases rest with
      | nil => simp at hrunes
      | cons => simp

variable {maxBytes : ℕ}

theorem pieceSize_lt (hlong : maxBytes < text.length)
    (hrunes : 1 < (Utf8.runes text).length) : pieceSize text maxBytes < text.length := by
  unfold pieceSize
  split_ifs
  · exact runeSize_lt hrunes
  · exact (splitEnd_le text maxBytes).trans_lt hlong

theorem flatten_splitPieces {count : ℕ} (hcount : text.length ≤ count) :
    (splitPieces maxBytes count text).flatten = text := by
  induction count generalizing text with
  | zero =>
    rw [length_eq_zero_iff.mp (Nat.le_zero.mp hcount)]
    rfl
  | succ _ ih =>
    rw [splitPieces]
    split_ifs with hnil hshort
    · rw [hnil, flatten_nil]
    · rw [flatten_singleton]
    · have hpos := pieceSize_pos text maxBytes
      rw [flatten_cons, ih (by rw [length_drop]; omega), take_append_drop]

theorem flatten_splitTextByBytes (maxBytes : ℕ) :
    (splitTextByBytes text maxBytes).flatten = text := by
  unfold splitTextByBytes
  split_ifs
  · exact flatten_singleton
  · exact flatten_splitPieces le_rfl

/-- Splitting a long text of two runes or more gives shorter pieces. -/
theorem length_lt_of_mem_splitTextByBytes {piece : Bytes} (hmax : 0 < maxBytes)
    (hlong : maxBytes < text.length) (hrunes : 1 < (Utf8.runes text).length)
    (hpiece : piece ∈ splitTextByBytes text maxBytes) : piece.length < text.length := by
  rw [splitTextByBytes, if_neg (by omega)] at hpiece
  obtain ⟨count, hcount⟩ : ∃ count, text.length = count + 1 := ⟨text.length - 1, by omega⟩
  have hnil : text ≠ [] := fun hempty ↦ by simp [hempty] at hlong
  have hsize := pieceSize_lt hlong hrunes
  have hpos := pieceSize_pos text maxBytes
  rw [hcount, splitPieces, if_neg hnil, if_neg (not_le.mpr hlong), mem_cons] at hpiece
  rcases hpiece with rfl | hpiece
  · rw [length_take]
    omega
  have hflat : (splitPieces maxBytes count (text.drop (pieceSize text maxBytes))).flatten =
      text.drop (pieceSize text maxBytes) := flatten_splitPieces (by rw [length_drop]; omega)
  have hle : piece.length ≤ (text.drop (pieceSize text maxBytes)).length := by
    rw [← hflat]
    exact (sublist_flatten_of_mem hpiece).length_le
  rw [length_drop] at hle
  omega

/-! ### Paths and chunks -/

/-- What a family of rows holds of a message. -/
inductive Field
  | text
  | tool (index : ℕ)
  | thinking
  deriving DecidableEq

/-- `chunkFamilyKey`: a path without the suffix of its part. -/
structure FamilyKey where
  messageIndex : ℕ
  field : Field
  deriving DecidableEq

/-- `RelativePath`. The part is there if the field has several. -/
structure ChunkPath where
  family : FamilyKey
  part : Option ℕ
  deriving DecidableEq

def Field.directory (conversationID : Bytes) : Field → Bytes
  | .text => bytesOf "conv/" ++ conversationID ++ bytesOf "/"
  | .tool _ => bytesOf "convtool/" ++ conversationID ++ bytesOf "/"
  | .thinking => bytesOf "convthink/" ++ conversationID ++ bytesOf "/"

def ChunkPath.numbers (path : ChunkPath) : List ℕ :=
  path.family.messageIndex ::
    ((match path.family.field with
      | .tool index => [index]
      | _ => []) ++ path.part.toList)

def renderNumbers : List ℕ → Bytes
  | [] => []
  | [number] => itoa number
  | number :: numbers => itoa number ++ bytesOf "/" ++ renderNumbers numbers

/-- `conversationRelativePath`, `conversationToolCallPath` and `conversationThinkingPath`. -/
def ChunkPath.render (conversationID : Bytes) (path : ChunkPath) : Bytes :=
  path.family.field.directory conversationID ++ renderNumbers path.numbers

@[ext] structure StoredChunk where
  path : ChunkPath
  content : Bytes
  splitPart : ℕ
  deriving DecidableEq

structure SemToolCall where
  name : Bytes
  display : Bytes
  langHint : Bytes

structure SemDoc where
  messageIndex : ℕ
  text : Bytes
  tools : List SemToolCall
  thinking : Bytes

/-! ### Tool calls -/

structure ShellTarget where
  resolvable : Bool
  path : Bytes
  raw : Bytes

structure Decomposition where
  commands : List Bytes
  readTargets : List ShellTarget
  writeTargets : List ShellTarget

/-- `shelldecomp.Parse`, without the decompositions that are opaque. -/
abbrev ShellParser := Bytes → Option Decomposition

def appendToken (tokens : List Bytes) (value : Bytes) : List Bytes :=
  if trimSpace value = [] ∨ trimSpace value ∈ tokens then tokens else tokens ++ [trimSpace value]

def appendShellTarget (tokens : List Bytes) (target : ShellTarget) : List Bytes :=
  if target.resolvable then
    if trimSpace target.raw ≠ [] ∧ trimSpace target.raw ≠ trimSpace target.path then
      appendToken (appendToken tokens target.path) target.raw
    else appendToken tokens target.path
  else appendToken tokens target.raw

def appendShellTokens (parse : ShellParser) (tokens : List Bytes) (command : Bytes) : List Bytes :=
  match parse command with
  | none => appendToken tokens command
  | some decomposition =>
    let found := (decomposition.readTargets ++ decomposition.writeTargets).foldl appendShellTarget
      (decomposition.commands.foldl appendToken tokens)
    if found.length = tokens.length then appendToken found command else found

def toolContent (parse : ShellParser) (tool : SemToolCall) : Bytes :=
  let display := trimSpace tool.display
  let named := appendToken [] tool.name
  let tokens := if display ≠ [] ∧ tool.langHint = bytesOf "bash" then
    appendShellTokens parse named display else named
  List.intercalate (bytesOf "\n") (appendToken tokens tool.display)

/-- The characters of a text that are valid, for at most `count` bytes. -/
def validRunes : ℕ → Bytes → Bytes
  | 0, _ => []
  | count + 1, text =>
    match Utf8.decodeRune text with
    | some rune => String.utf8EncodeChar rune ++ validRunes count (text.drop rune.utf8Size)
    | none => validRunes count (text.drop 1)

/-- `strings.ToValidUTF8` with nothing in place of invalid bytes. -/
def toValidUTF8 (text : Bytes) : Bytes := validRunes text.length text

/-! ### The chunks of documents -/

/-- The parts of a field: none if it has no storable text. -/
def storableParts (content : Bytes) (budget : ℕ) : List Bytes :=
  if isBlank content then [] else splitTextByBytes content budget

/-- The parts of a field whose parts after the first begin with a line of their own. -/
def continuedParts (content : Bytes) (budget : ℕ) (continuation : Bytes) : List Bytes :=
  let lowered :=
    if continuation ≠ [] ∧ continuation.length + 1 < budget then budget - (continuation.length + 1)
    else budget
  (storableParts content lowered).mapIdx fun index piece ↦
    if 0 < index ∧ continuation ≠ [] then continuation ++ bytesOf "\n" ++ piece else piece

def SemToolCall.cleaned (tool : SemToolCall) : SemToolCall :=
  ⟨toValidUTF8 tool.name, toValidUTF8 tool.display, toValidUTF8 tool.langHint⟩

def SemDoc.parts (parse : ShellParser) (doc : SemDoc) (budget : ℕ) : Field → List Bytes
  | .text => storableParts doc.text budget
  | .thinking => storableParts (toValidUTF8 doc.thinking) budget
  | .tool index =>
    match doc.tools[index]? with
    | none => []
    | some tool =>
      continuedParts (toolContent parse tool.cleaned) budget (trimSpace tool.cleaned.name)

def SemDoc.fields (doc : SemDoc) : List Field :=
  .text :: ((List.range doc.tools.length).map Field.tool ++ [.thinking])

/-- `appendStorableField`: a chunk for each part. -/
def partChunks (family : FamilyKey) (parts : List Bytes) : List StoredChunk :=
  parts.mapIdx fun index piece ↦ ⟨⟨family, if 1 < parts.length then some index else none⟩, piece, 0⟩

def documentChunks (parse : ShellParser) (doc : SemDoc) (budget : ℕ) : List StoredChunk :=
  doc.fields.flatMap fun field ↦ partChunks ⟨doc.messageIndex, field⟩ (doc.parts parse budget field)

/-- The documents of a conversation: a message index is a position in the transcript. -/
structure Documents where
  docs : List SemDoc
  distinct : (docs.map SemDoc.messageIndex).Nodup

def generatedChunks (parse : ShellParser) (documents : Documents) : List StoredChunk :=
  documents.docs.flatMap (documentChunks parse · conversationChunkMaxBytes)

variable {chunk : StoredChunk} {parts : List Bytes} {family : FamilyKey}

theorem mem_partChunks :
    chunk ∈ partChunks family parts ↔ ∃ index piece, parts[index]? = some piece ∧
      chunk = ⟨⟨family, if 1 < parts.length then some index else none⟩, piece, 0⟩ := by
  rw [partChunks, mem_mapIdx]
  constructor
  · rintro ⟨index, hindex, rfl⟩
    exact ⟨index, parts[index], getElem?_eq_getElem hindex, rfl⟩
  · rintro ⟨index, _, hpiece, rfl⟩
    obtain ⟨hindex, rfl⟩ := List.getElem?_eq_some_iff.mp hpiece
    exact ⟨index, hindex, rfl⟩

variable {first second : StoredChunk}

theorem partChunks_path_injective
    (hfirst : first ∈ partChunks family parts) (hsecond : second ∈ partChunks family parts)
    (hpath : first.path = second.path) : first = second := by
  obtain ⟨index, _, hpiece, rfl⟩ := mem_partChunks.mp hfirst
  obtain ⟨other, _, hother, rfl⟩ := mem_partChunks.mp hsecond
  have hindex : index = other := by
    by_cases hseveral : 1 < parts.length
    · simpa [hseveral] using hpath
    · obtain ⟨hindex, _⟩ := List.getElem?_eq_some_iff.mp hpiece
      obtain ⟨hother, _⟩ := List.getElem?_eq_some_iff.mp hother
      omega
  subst hindex
  rw [hpiece] at hother
  rw [Option.some.inj hother]

variable {documents : Documents} {parse : ShellParser}

theorem mem_generatedChunks :
    chunk ∈ generatedChunks parse documents ↔ ∃ doc ∈ documents.docs, ∃ field ∈ doc.fields,
      chunk ∈ partChunks ⟨doc.messageIndex, field⟩
        (doc.parts parse conversationChunkMaxBytes field) := by
  simp [generatedChunks, documentChunks]

theorem generatedChunks_path_injective (hfirst : first ∈ generatedChunks parse documents)
    (hsecond : second ∈ generatedChunks parse documents) (hpath : first.path = second.path) :
    first = second := by
  obtain ⟨doc, hdoc, field, _, hmem⟩ := mem_generatedChunks.mp hfirst
  obtain ⟨other, hother, otherField, _, hotherMem⟩ := mem_generatedChunks.mp hsecond
  have hfamily : (⟨doc.messageIndex, field⟩ : FamilyKey) = ⟨other.messageIndex, otherField⟩ := by
    obtain ⟨_, _, _, rfl⟩ := mem_partChunks.mp hmem
    obtain ⟨_, _, _, rfl⟩ := mem_partChunks.mp hotherMem
    exact congrArg ChunkPath.family hpath
  obtain ⟨hindex, rfl⟩ := FamilyKey.mk.inj hfamily
  obtain rfl := inj_on_of_nodup_map documents.distinct hdoc hother hindex
  exact partChunks_path_injective hmem hotherMem hpath

theorem splitPart_of_mem_generatedChunks
    (hchunk : chunk ∈ generatedChunks parse documents) : chunk.splitPart = 0 := by
  obtain ⟨_, _, _, _, hmem⟩ := mem_generatedChunks.mp hchunk
  obtain ⟨_, _, _, rfl⟩ := mem_partChunks.mp hmem
  rfl

/-! ### Pieces of a chunk -/

/-- The pieces of a text after an offset, with the split position of each. -/
def childrenFrom (path : ChunkPath) : ℕ → List Bytes → List StoredChunk
  | _, [] => []
  | offset, piece :: pieces =>
    ⟨path, piece, offset + 1⟩ :: childrenFrom path (offset + piece.length) pieces

def splitChunkAtBudget (chunk : StoredChunk) (budget : ℕ) : List StoredChunk :=
  childrenFrom chunk.path (chunk.splitPart - 1) (splitTextByBytes chunk.content budget)

def splitChunkInHalf (chunk : StoredChunk) : List StoredChunk :=
  splitChunkAtBudget chunk (max (chunk.content.length / 2) 1)

/-- The chunk is one input of the embedder. A budget of zero is none. -/
def WithinBudget (byteBudget : ℕ) (chunk : StoredChunk) : Prop :=
  byteBudget = 0 ∨ chunk.content.length ≤ byteBudget

instance (byteBudget : ℕ) (chunk : StoredChunk) : Decidable (WithinBudget byteBudget chunk) :=
  inferInstanceAs (Decidable (_ ∨ _))

def expandChunk (byteBudget : ℕ) (chunk : StoredChunk) : List StoredChunk :=
  if WithinBudget byteBudget chunk then [chunk] else splitChunkAtBudget chunk byteBudget

def expandOverBudget (chunks : List StoredChunk) (byteBudget : ℕ) : List StoredChunk :=
  chunks.flatMap (expandChunk byteBudget)

theorem mem_childrenFrom {path : ChunkPath} {offset : ℕ} {pieces : List Bytes} {child : StoredChunk}
    (hchild : child ∈ childrenFrom path offset pieces) :
    child.path = path ∧ child.content ∈ pieces ∧ offset < child.splitPart := by
  induction pieces generalizing offset with
  | nil => exact absurd hchild not_mem_nil
  | cons _ _ ih =>
    rcases mem_cons.mp hchild with rfl | hchild
    · exact ⟨rfl, mem_cons_self, Nat.lt_succ_self offset⟩
    · obtain ⟨hpath, hcontent, _⟩ := ih hchild
      exact ⟨hpath, mem_cons_of_mem _ hcontent, by omega⟩

theorem mem_expandChunk {byteBudget : ℕ} {input : StoredChunk}
    (hinput : input ∈ expandChunk byteBudget chunk) :
    input.path = chunk.path ∧ (input = chunk ∧ WithinBudget byteBudget chunk ∨
      0 < input.splitPart ∧ ¬WithinBudget byteBudget chunk) := by
  unfold expandChunk at hinput
  split_ifs at hinput with hwithin
  · obtain rfl := mem_singleton.mp hinput
    exact ⟨rfl, .inl ⟨rfl, hwithin⟩⟩
  · obtain ⟨hpath, _, hpart⟩ := mem_childrenFrom hinput
    exact ⟨hpath, .inr ⟨Nat.zero_lt_of_lt hpart, hwithin⟩⟩

/-! ### Row keys -/

/-- What the hash of a row covers after its path. -/
def StoredChunk.label (chunk : StoredChunk) : Bytes :=
  if 0 < chunk.splitPart then itoa chunk.splitPart ++ bytesOf ":" ++
    chunk.content else chunk.content

def StoredChunk.hashInput (conversationID : Bytes) (chunk : StoredChunk) : Bytes :=
  chunk.path.render conversationID ++ bytesOf ":0:0:" ++ chunk.label

theorem not_mem_itoa {byte : UInt8} (hbyte : isDigit byte = false) (number : ℕ) :
    byte ∉ itoa number := by
  intro hmem
  rw [isDigit_of_mem_itoa hmem] at hbyte
  simp at hbyte

theorem itoa_injective : Function.Injective itoa := by
  intro _ _ hsame
  have hread := congrArg atoi hsame
  rw [atoi_itoa, atoi_itoa] at hread
  exact Option.some.inj hread

theorem not_mem_renderNumbers (numbers : List ℕ) : (0x3A : UInt8) ∉ renderNumbers numbers := by
  induction numbers using renderNumbers.induct with
  | case1 => exact not_mem_nil
  | case2 number => exact not_mem_itoa (by decide) number
  | case3 number _ hnumbers ih =>
    rw [renderNumbers]
    · simp only [mem_append, not_or]
      exact ⟨⟨not_mem_itoa (by decide) number, by decide⟩, ih⟩
    · exact hnumbers

theorem renderNumbers_cons (number other : ℕ) (numbers : List ℕ) :
    renderNumbers (number :: other :: numbers) = itoa number ++ 0x2F :: renderNumbers
      (other :: numbers) := by
  rw [renderNumbers, append_assoc]
  · rfl
  · simp

theorem renderNumbers_injective {first second : List ℕ} (hfirst : first ≠ [])
    (hsecond : second ≠ []) (hsame : renderNumbers first = renderNumbers second) :
    first = second := by
  have hdigits : ∀ number, (0x2F : UInt8) ∉ itoa number := not_mem_itoa (by decide)
  induction first generalizing second with
  | nil => exact absurd rfl hfirst
  | cons number numbers ih =>
    obtain ⟨other, others, rfl⟩ := exists_cons_of_ne_nil hsecond
    cases numbers with
    | nil =>
      cases others with
      | nil => rw [itoa_injective hsame]
      | cons next others =>
        rw [renderNumbers_cons, renderNumbers] at hsame
        exact absurd (hsame ▸ mem_append_right _ mem_cons_self) (hdigits number)
    | cons =>
      cases others with
      | nil =>
        rw [renderNumbers_cons, renderNumbers] at hsame
        exact absurd (hsame ▸ mem_append_right _ mem_cons_self) (hdigits other)
      | cons =>
        rw [renderNumbers_cons, renderNumbers_cons] at hsame
        obtain ⟨hnumber, hrest⟩ := append_cons_inj_of_not_mem (hdigits number) (hdigits other) hsame
        rw [itoa_injective hnumber, ih (cons_ne_nil _ _) (cons_ne_nil _ _) hrest]

theorem numbers_injective {first second : ChunkPath}
    (hfield : first.family.field = .text ∧ second.family.field = .text ∨
      first.family.field = .thinking ∧ second.family.field = .thinking ∨
      (∃ index, first.family.field = .tool index) ∧ ∃ index, second.family.field = .tool index)
    (hnumbers : first.numbers = second.numbers) : first = second := by
  obtain ⟨⟨_, _⟩, _⟩ := first
  obtain ⟨⟨_, _⟩, _⟩ := second
  have hpart : ∀ {left right : Option ℕ}, left.toList = right.toList → left = right := by
    intro left right _
    cases left <;> cases right <;> simp_all
  rcases hfield with ⟨rfl, rfl⟩ | ⟨rfl, rfl⟩ | ⟨⟨_, rfl⟩, _, rfl⟩
  · simp only [ChunkPath.numbers, nil_append, List.cons.injEq] at hnumbers
    rw [hnumbers.1, hpart hnumbers.2]
  · simp only [ChunkPath.numbers, nil_append, List.cons.injEq] at hnumbers
    rw [hnumbers.1, hpart hnumbers.2]
  · simp only [ChunkPath.numbers, cons_append, nil_append, List.cons.injEq] at hnumbers
    rw [hnumbers.1, hnumbers.2.1, hpart hnumbers.2.2]

/-- A row's hash input determines its path and its label. -/
theorem hashInput_inj {conversationID : Bytes}
    (hsame : first.hashInput conversationID = second.hashInput conversationID) :
    first.path = second.path ∧ first.label = second.label := by
  have hcolon : bytesOf ":0:0:" = 0x3A :: bytesOf "0:0:" := rfl
  -- After the directory, the numbers end at the first colon.
  have htail : ∀ directory : Bytes,
      directory ++ renderNumbers first.path.numbers ++ bytesOf ":0:0:" ++ first.label =
        directory ++ renderNumbers second.path.numbers ++ bytesOf ":0:0:" ++ second.label →
      first.path.numbers = second.path.numbers ∧ first.label = second.label := by
    intro directory heq
    simp only [append_assoc, hcolon, cons_append] at heq
    obtain ⟨hnumbers, hrest⟩ := append_cons_inj_of_not_mem (not_mem_renderNumbers _)
      (not_mem_renderNumbers _) (append_cancel_left heq)
    refine ⟨renderNumbers_injective (cons_ne_nil _ _) (cons_ne_nil _ _) hnumbers, ?_⟩
    exact append_cancel_left hrest
  have hbytes := congrArg (fun bytes : Bytes ↦ (bytes[4]?, bytes[5]?)) hsame
  unfold StoredChunk.hashInput ChunkPath.render at hsame hbytes
  cases hfirst : first.path.family.field <;> cases hsecond : second.path.family.field <;>
    rw [hfirst, hsecond] at hsame hbytes <;>
    simp [Field.directory] at hbytes
  case text.text =>
    obtain ⟨hnumbers, hlabel⟩ := htail _ hsame
    exact ⟨numbers_injective (.inl ⟨hfirst, hsecond⟩) hnumbers, hlabel⟩
  case thinking.thinking =>
    obtain ⟨hnumbers, hlabel⟩ := htail _ hsame
    exact ⟨numbers_injective (.inr (.inl ⟨hfirst, hsecond⟩)) hnumbers, hlabel⟩
  case tool.tool =>
    obtain ⟨hnumbers, hlabel⟩ := htail _ hsame
    exact ⟨numbers_injective (.inr (.inr ⟨⟨_, hfirst⟩, _, hsecond⟩)) hnumbers, hlabel⟩
  -- The directories of different fields differ in their fifth or sixth byte.
  all_goals
    simp only [show bytesOf "conv/" = [0x63, 0x6F, 0x6E, 0x76, 0x2F] from rfl,
      show bytesOf "convtool/" = [0x63, 0x6F, 0x6E, 0x76, 0x74, 0x6F, 0x6F, 0x6C, 0x2F] from rfl,
      show bytesOf "convthink/" = [0x63, 0x6F, 0x6E, 0x76, 0x74, 0x68, 0x69,
        0x6E, 0x6B, 0x2F] from rfl] at hbytes
    simp at hbytes

theorem label_inj_of_pos (hfirst : 0 < first.splitPart)
    (hsecond : 0 < second.splitPart) (hlabel : first.label = second.label) :
    first.splitPart = second.splitPart ∧ first.content = second.content := by
  have hcolon : bytesOf ":" = [0x3A] := rfl
  simp only [StoredChunk.label, if_pos hfirst, if_pos hsecond, hcolon, append_assoc,
    singleton_append] at hlabel
  have hdigits : ∀ number, (0x3A : UInt8) ∉ itoa number := not_mem_itoa (by decide)
  obtain ⟨hnumber, hcontent⟩ := append_cons_inj_of_not_mem (hdigits _) (hdigits _) hlabel
  exact ⟨itoa_injective hnumber, hcontent⟩

end Clyde.VectorSearch
