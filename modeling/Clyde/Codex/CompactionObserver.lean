import Clyde.Foundation.Json.Decode

/-!
# Observing a compaction response

`internal/adapter/codex/raw_compaction_v2_observer.go`. The observer watches a stream of frames in
pieces and arms a recovery with the encrypted content of the one compaction item, before the client
sees the end. The same check exists for a whole body, `rawResponsesCompactionV2SSEEncryptedContent`.

The observer looks for the end of a frame from three bytes before the place where it stopped, and
misses none (`terminator_resume`). `observe_eq_whole` is the comparison for every body and every
division.

Scope. The registry is asked whether it accepts an arm. The response is an event stream without an
encoding.
-/

set_option autoImplicit false

namespace Clyde.Codex

open Foundation ByteCodec Text Json List Option

/-! ### Line endings and frames -/

def lineEndingSize (text : Bytes) : ℕ :=
  if text.head? = some 0x0A then 1
  else if text.head? = some 0x0D then if text.tail.head? = some 0x0A then 2 else 1
  else 0

/-- While more may follow, a carriage return at the end does not count yet. -/
def scannableLineEndingSize (atEOF : Bool) (text : Bytes) : ℕ :=
  if atEOF = false ∧ text = [0x0D] then 0 else lineEndingSize text

theorem lineEndingSize_le (text : Bytes) : lineEndingSize text ≤ text.length := by
  unfold lineEndingSize
  rcases text with - | ⟨_, - | ⟨_, _⟩⟩
  · simp
  · simp
    split_ifs <;> simp
  · simp only [length_cons]
    split_ifs <;> omega

/-- Where the first empty line begins and how long its two line endings are. -/
def terminator (atEOF : Bool) (text : Bytes) : Option (ℕ × ℕ) :=
  if _hempty : text = [] then none
  else if _hfirst : scannableLineEndingSize atEOF text = 0 then
    (terminator atEOF text.tail).map fun (index, size) ↦ (index + 1, size)
  else if 0 < scannableLineEndingSize atEOF (text.drop (scannableLineEndingSize atEOF text)) then
    some (0, scannableLineEndingSize atEOF text +
      scannableLineEndingSize atEOF (text.drop (scannableLineEndingSize atEOF text)))
  else
    (terminator atEOF (text.drop (scannableLineEndingSize atEOF text))).map fun (index, size) ↦
      (index + scannableLineEndingSize atEOF text, size)
termination_by text.length
decreasing_by
  · cases text with
    | nil => exact absurd rfl _hempty
    | cons byte rest => simp
  · have hpos := List.length_pos_iff.mpr _hempty
    simp only [List.length_drop]
    omega

/-- The first frame and what follows it, or the offset to search from next time. -/
def rawResponsesCompactionV2SSEFrameFrom (body : Bytes) (scanOffset : ℕ) (atEOF : Bool) :
    Option (Bytes × Bytes) × ℕ :=
  let start := if body.length < scanOffset then 0 else scanOffset
  match terminator atEOF (body.drop start) with
  | some (index, size) => (some (body.take (start + index), body.drop (start + index + size)), 0)
  | none => (none, body.length - 3)

def rawResponsesCompactionV2SSEFrame (body : Bytes) : Option (Bytes × Bytes) :=
  (rawResponsesCompactionV2SSEFrameFrom body 0 true).1

/-- The lines of a frame; `line` is the beginning of the current one. -/
def linesFrom (line : Bytes) : Bytes → List Bytes
  | [] => if line = [] then [] else [line]
  | byte :: rest =>
    if byte = 0x0A then line :: linesFrom [] rest
    else if byte = 0x0D then
      match rest with
      | [] => [line]
      | next :: rest =>
        if next = 0x0A then line :: linesFrom [] rest else line :: linesFrom [] (next :: rest)
    else linesFrom (line ++ [byte]) rest

def rawResponsesCompactionV2SSELines (frame : Bytes) : List Bytes := linesFrom [] frame

/-- The data lines of a frame, after the name of the field. -/
def rawResponsesCompactionV2SSEFrameData (frame : Bytes) : List Bytes :=
  (rawResponsesCompactionV2SSELines frame).filterMap fun line ↦
    if bytesOf "data:" <+: line then some (line.drop 5) else none

/-! ### The data of a frame -/

structure Payload where
  type : Bytes
  itemType : Bytes
  encryptedContent : Bytes

def Payload.zero : Payload := ⟨[], [], []⟩

def Payload.store : Store Payload :=
  .record [
    (bytesOf "type", .field Payload.type
      (fun text payload ↦ { payload with type := text }) .string),
    (bytesOf "item", .record [
      (bytesOf "type",
        .field Payload.itemType (fun text payload ↦ { payload with itemType := text }) .string),
      (bytesOf "encrypted_content",
        .field Payload.encryptedContent
          (fun text payload ↦ { payload with encryptedContent := text }) .string)])]

/-- What the frames have said so far. -/
structure Progress where
  encrypted : Bytes
  completed : Bool
  deriving DecidableEq

def Progress.start : Progress := ⟨[], false⟩

/-- The progress after a frame with some data, unless the data is invalid. -/
def rawResponsesCompactionV2SSEDataIsValid (data : List Bytes) (progress : Progress) :
    Option Progress :=
  if data = [] then some progress
  else
    match Payload.store.unmarshal .zero (List.intercalate [0x0A] data) with
    | none => none
    | some value =>
      if progress.completed then none
      else if value.type = bytesOf "response.output_item.done" then
        if value.itemType ≠ bytesOf "compaction" then some progress
        else if progress.encrypted ≠ [] ∨ isBlank value.encryptedContent then none
        else some { progress with encrypted := value.encryptedContent }
      else if value.type = bytesOf "response.completed" then
        if progress.encrypted = [] then none else some { progress with completed := true }
      else some progress

def onlyLineEndings (text : Bytes) : Bool := text.all fun byte ↦ byte = 0x0D || byte = 0x0A

/-! ### Searching in pieces -/

variable {index size : ℕ}

section

variable {atEOF : Bool} {text : Bytes}

@[simp] theorem terminator_nil : terminator atEOF [] = none := by
  rw [terminator]
  rfl

theorem terminator_of_zero {byte : UInt8} {rest : Bytes}
    (hfirst : scannableLineEndingSize atEOF (byte :: rest) = 0) :
    terminator atEOF (byte :: rest) = (terminator atEOF rest).map fun (index, size) ↦
      (index + 1, size) := by
  rw [terminator, dif_neg (cons_ne_nil _ _), dif_pos hfirst, tail_cons]

theorem terminator_of_two (hfirst : scannableLineEndingSize atEOF text ≠ 0)
    (hsecond : 0 < scannableLineEndingSize atEOF (text.drop (scannableLineEndingSize atEOF text))) :
    terminator atEOF text = some (0, scannableLineEndingSize atEOF text +
      scannableLineEndingSize atEOF (text.drop (scannableLineEndingSize atEOF text))) := by
  have hempty : text ≠ [] := by
    rintro rfl
    exact hfirst (by simp [scannableLineEndingSize, lineEndingSize])
  rw [terminator, dif_neg hempty, dif_neg hfirst, if_pos hsecond]

theorem terminator_of_one (hfirst : scannableLineEndingSize atEOF text ≠ 0)
    (hsecond : scannableLineEndingSize atEOF (text.drop (scannableLineEndingSize atEOF text)) = 0) :
    terminator atEOF text = (terminator atEOF (text.drop (scannableLineEndingSize atEOF text))).map
        fun (index, size) ↦ (index + scannableLineEndingSize atEOF text, size) := by
  have hempty : text ≠ [] := by
    rintro rfl
    exact hfirst (by simp [scannableLineEndingSize, lineEndingSize])
  rw [terminator, dif_neg hempty, dif_neg hfirst, if_neg (by omega)]

theorem scannableLineEndingSize_le (atEOF : Bool) (text : Bytes) :
    scannableLineEndingSize atEOF text ≤ text.length := by
  unfold scannableLineEndingSize
  split_ifs
  · exact Nat.zero_le _
  · exact lineEndingSize_le text

theorem scannableLineEndingSize_le_two (atEOF : Bool) (text : Bytes) :
    scannableLineEndingSize atEOF text ≤ 2 := by
  unfold scannableLineEndingSize lineEndingSize
  split_ifs <;> omega

/-- Two bytes are enough to tell a line ending; later bytes do not change it. -/
theorem scannableLineEndingSize_append (more : Bytes)
    (hknown : 0 < scannableLineEndingSize false text ∨ 2 ≤ text.length) :
    scannableLineEndingSize atEOF (text ++ more) = scannableLineEndingSize false text := by
  rcases text with - | ⟨first, - | ⟨_, _⟩⟩
  · simp [scannableLineEndingSize, lineEndingSize] at hknown
  · have hfeed : first = 0x0A := by
      by_contra hfeed
      rcases hknown with hknown | hknown
      · by_cases hreturn : first = 0x0D <;>
          simp [scannableLineEndingSize, lineEndingSize, hfeed, hreturn] at hknown
      · simp at hknown
    subst hfeed
    simp [scannableLineEndingSize, lineEndingSize]
  · simp [scannableLineEndingSize, lineEndingSize]

/-- A frame terminator is not empty and lies inside the text. -/
theorem terminator_bounds (hfound : terminator atEOF text = some (index, size)) :
    0 < size ∧ index + size ≤ text.length := by
  induction hlength : text.length using Nat.strong_induction_on generalizing text index size with
  | _ length ih =>
    subst hlength
    cases text with
    | nil => simp at hfound
    | cons byte rest =>
      by_cases hfirst : scannableLineEndingSize atEOF (byte :: rest) = 0
      · rw [terminator_of_zero hfirst] at hfound
        obtain ⟨⟨found, size⟩, hinner, heq⟩ := map_eq_some_iff.mp hfound
        cases heq
        obtain ⟨hpos, hle⟩ := ih _ (by simp) hinner rfl
        exact ⟨hpos, by simp; omega⟩
      have hle := scannableLineEndingSize_le atEOF (byte :: rest)
      have hle' := scannableLineEndingSize_le atEOF
        ((byte :: rest).drop (scannableLineEndingSize atEOF (byte :: rest)))
      rw [length_drop] at hle'
      by_cases hsecond : 0 < scannableLineEndingSize atEOF
          ((byte :: rest).drop (scannableLineEndingSize atEOF (byte :: rest)))
      · rw [terminator_of_two hfirst hsecond] at hfound
        cases hfound
        omega
      rw [terminator_of_one hfirst (by omega)] at hfound
      obtain ⟨⟨_, _⟩, hinner, heq⟩ := map_eq_some_iff.mp hfound
      cases heq
      have hshort : ((byte :: rest).drop (scannableLineEndingSize atEOF (byte :: rest))).length <
          (byte :: rest).length := by
        rw [length_drop]
        omega
      obtain ⟨hpos, hbound⟩ := ih _ hshort hinner rfl
      rw [length_drop] at hbound
      exact ⟨hpos, by omega⟩

theorem two_le_of_terminator (hfound : terminator false text = some (index, size)) :
    2 ≤ text.length := by
  rcases text with - | ⟨first, - | ⟨_, _⟩⟩
  · simp at hfound
  · by_cases hfirst : scannableLineEndingSize false [first] = 0
    · rw [terminator_of_zero hfirst, terminator_nil] at hfound
      cases hfound
    have hone : scannableLineEndingSize false [first] = 1 := by
      have hle := scannableLineEndingSize_le false [first]
      rw [length_singleton] at hle
      omega
    rw [terminator_of_one hfirst (by rw [hone]; rfl), hone] at hfound
    simp at hfound
  · simp

/-- A terminator that was found stays the first one when more bytes arrive. -/
theorem terminator_append (hfound : terminator false text = some (index, size))
    (more : Bytes) : terminator atEOF (text ++ more) = some (index, size) := by
  induction hlength : text.length using Nat.strong_induction_on generalizing text index size with
  | _ length ih =>
    subst hlength
    have htwo := two_le_of_terminator hfound
    have hsame := @scannableLineEndingSize_append atEOF text more (.inr htwo)
    cases text with
    | nil => simp at hfound
    | cons byte rest =>
      by_cases hfirst : scannableLineEndingSize false (byte :: rest) = 0
      · rw [terminator_of_zero hfirst] at hfound
        obtain ⟨⟨found, size⟩, hinner, heq⟩ := map_eq_some_iff.mp hfound
        rw [cons_append, terminator_of_zero (by rw [← cons_append, hsame, hfirst]),
          ih _ (by simp) hinner rfl]
        exact congrArg some heq
      have hle := scannableLineEndingSize_le false (byte :: rest)
      have hdrop : (byte :: rest ++ more).drop
        (scannableLineEndingSize atEOF (byte :: rest ++ more)) =
          (byte :: rest).drop (scannableLineEndingSize false (byte :: rest)) ++ more := by
        rw [hsame, drop_append_of_le_length hle]
      by_cases hsecond : 0 < scannableLineEndingSize false
          ((byte :: rest).drop (scannableLineEndingSize false (byte :: rest)))
      · have hkept := @scannableLineEndingSize_append atEOF _ more (.inl hsecond)
        rw [terminator_of_two hfirst hsecond] at hfound
        rw [terminator_of_two (by rw [hsame]; exact hfirst) (by rw [hdrop, hkept]; exact hsecond),
          hdrop, hkept, hsame, hfound]
      rw [terminator_of_one hfirst (by omega)] at hfound
      obtain ⟨⟨_, _⟩, hinner, heq⟩ := map_eq_some_iff.mp hfound
      have hkept :=
        @scannableLineEndingSize_append atEOF _ more (.inr (two_le_of_terminator hinner))
      have hshort : ((byte :: rest).drop
          (scannableLineEndingSize false (byte :: rest))).length < (byte :: rest).length := by
        rw [length_drop]
        omega
      rw [terminator_of_one (by rw [hsame]; exact hfirst) (by rw [hdrop, hkept]; omega), hdrop,
        hsame, ih _ hshort hinner rfl]
      exact congrArg some heq

/-- Without a terminator so far, the search may resume three bytes before the end. -/
theorem terminator_resume (hnone : terminator false text = none) (more : Bytes) :
    terminator atEOF (text ++ more) =
      (terminator atEOF ((text ++ more).drop (text.length - 3))).map fun (index, size) ↦
        (index + (text.length - 3), size) := by
  induction hlength : text.length using Nat.strong_induction_on generalizing text with
  | _ length ih =>
    subst hlength
    rcases Nat.lt_or_ge text.length 4 with _ | hlong
    · rw [show text.length - 3 = 0 by omega]
      simp
    have hsame := @scannableLineEndingSize_append atEOF text more (.inr (by omega))
    by_cases hfirst : scannableLineEndingSize false text = 0
    · obtain ⟨_, rest, rfl⟩ := exists_cons_of_length_pos (by omega : 0 < text.length)
      rw [terminator_of_zero hfirst, map_eq_none_iff] at hnone
      rw [length_cons] at hlong
      rw [List.cons_append, terminator_of_zero (by rw [← List.cons_append, hsame, hfirst]),
        ih _ (by simp) hnone rfl, List.length_cons, show rest.length + 1 - 3 = rest.length - 3 +
          1 by omega, Option.map_map]
      rfl
    have hle := scannableLineEndingSize_le_two false text
    have hdrop : (text ++ more).drop (scannableLineEndingSize atEOF (text ++ more)) =
        text.drop (scannableLineEndingSize false text) ++ more := by
      rw [hsame, drop_append_of_le_length (by omega)]
    have hsecond : scannableLineEndingSize false
        (text.drop (scannableLineEndingSize false text)) = 0 := by
      by_contra hsecond
      rw [terminator_of_two hfirst (by omega)] at hnone
      cases hnone
    have hkept := @scannableLineEndingSize_append atEOF
      (text.drop (scannableLineEndingSize false text)) more (.inr (by rw [length_drop]; omega))
    rw [terminator_of_one hfirst hsecond, map_eq_none_iff] at hnone
    rw [terminator_of_one (by rw [hsame]; exact hfirst) (by rw [hdrop, hkept, hsecond]), hdrop,
      hsame]
    rw [hsecond] at hkept
    generalize hsize : scannableLineEndingSize false text = size at *
    rcases Nat.lt_or_ge (text.length - size) 3 with _ | _
    · -- the resumed offset lies inside a two-byte line ending
      obtain rfl : size = 2 := by omega
      obtain ⟨first, feed, third, fourth, rfl⟩ : ∃ first feed third fourth,
          text = [first, feed, third, fourth] := length_eq_four.mp (by omega)
      have hfeed : feed = 0x0A := by
        by_contra hfeed
        have hfewer : scannableLineEndingSize false [first, feed, third, fourth] ≤ 1 := by
          simp only [scannableLineEndingSize, lineEndingSize, head?_cons, tail_cons,
            Option.some.injEq, hfeed, if_false]
          split_ifs <;> decide
        omega
      subst hfeed
      have hone : scannableLineEndingSize atEOF (0x0A :: third :: fourth :: more) = 1 := by
        simp [scannableLineEndingSize, lineEndingSize]
      have hinside := @terminator_of_one atEOF (0x0A :: third :: fourth :: more)
        (by rw [hone]; decide) (by rw [hone]; exact hkept)
      simp only [cons_append, nil_append, length_cons, length_nil,
        drop_succ_cons, drop_zero] at hinside hkept ⊢
      rw [hinside, hone, Option.map_map]
      rfl
    rw [ih _ (by rw [List.length_drop]; omega) hnone rfl, Option.map_map, List.length_drop,
      ← drop_append_of_le_length (by omega), drop_drop,
      show size + (text.length - size - 3) = text.length - 3 by omega]
    congr 1
    funext ⟨index, found⟩
    simp only [Function.comp_apply, Prod.mk.injEq, and_true]
    omega

end

/-! ### Dividing a body into frames -/

def splitFrames (atEOF : Bool) (body : Bytes) : List Bytes × Bytes :=
  match _hfound : terminator atEOF body with
  | none => ([], body)
  | some (index, size) =>
    (body.take index :: (splitFrames atEOF (body.drop (index + size))).1,
      (splitFrames atEOF (body.drop (index + size))).2)
termination_by body.length
decreasing_by all_goals
    have hbounds := terminator_bounds _hfound
    rw [List.length_drop]
    omega

section

variable {atEOF : Bool} {body : Bytes}

theorem splitFrames_of_none (hnone : terminator atEOF body = none) :
    splitFrames atEOF body = ([], body) := by
  rw [splitFrames]
  split
  · rfl
  · next hfound =>
    simp [hnone] at hfound

theorem splitFrames_of_some (hfound : terminator atEOF body = some (index, size)) :
    splitFrames atEOF body = (body.take index :: (splitFrames atEOF (body.drop (index + size))).1,
        (splitFrames atEOF (body.drop (index + size))).2) := by
  rw [splitFrames]
  split
  · next hnone =>
    simp [hfound] at hnone
  · next index' size' hother =>
    rw [hfound] at hother
    cases hother
    rfl

theorem length_drop_lt_of_terminator (hfound : terminator atEOF body = some (index, size)) :
    (body.drop (index + size)).length < body.length := by
  have hbounds := terminator_bounds hfound
  rw [length_drop]
  omega

theorem terminator_splitFrames (atEOF : Bool) (body : Bytes) :
    terminator atEOF (splitFrames atEOF body).2 = none := by
  induction hlength : body.length using Nat.strong_induction_on generalizing body with
  | _ _ ih =>
    subst hlength
    cases hfound : terminator atEOF body with
    | none => rwa [splitFrames_of_none hfound]
    | some =>
      rw [splitFrames_of_some hfound]
      exact ih _ (length_drop_lt_of_terminator hfound) _ rfl

theorem length_splitFrames_le (atEOF : Bool) (body : Bytes) :
    (splitFrames atEOF body).2.length ≤ body.length := by
  induction hlength : body.length using Nat.strong_induction_on generalizing body with
  | _ _ ih =>
    subst hlength
    cases hfound : terminator atEOF body with
    | none => rw [splitFrames_of_none hfound]
    | some =>
      rw [splitFrames_of_some hfound]
      have hshort := length_drop_lt_of_terminator hfound
      exact (ih _ hshort _ rfl).trans hshort.le

/-- Splitting a body in two parts gives the frames of the whole, if the unfinished frame is carried
over. -/
theorem splitFrames_append (body more : Bytes) :
    splitFrames atEOF (body ++ more) =
      ((splitFrames false body).1 ++ (splitFrames atEOF ((splitFrames false body).2 ++ more)).1,
        (splitFrames atEOF ((splitFrames false body).2 ++ more)).2) := by
  induction hlength : body.length using Nat.strong_induction_on generalizing body with
  | _ _ ih =>
    subst hlength
    cases hfound : terminator false body with
    | none =>
      rw [splitFrames_of_none hfound]
      rfl
    | some =>
      have hbounds := terminator_bounds hfound
      rw [splitFrames_of_some hfound, splitFrames_of_some (terminator_append hfound more),
        take_append_of_le_length (by omega), drop_append_of_le_length (by omega),
        ih _ (length_drop_lt_of_terminator hfound) _ rfl]
      rfl

end

/-! ### The whole body -/

/-- The progress after some frames, unless one of them is invalid or follows the end. -/
def readFrames (frames : List Bytes) (progress : Progress) : Option Progress :=
  frames.foldlM (fun progress frame ↦
    if progress.completed then none
    else
      rawResponsesCompactionV2SSEDataIsValid (rawResponsesCompactionV2SSEFrameData frame) progress)
    progress

variable {body frame remainder : Bytes}

theorem frame_length_lt (hframe : rawResponsesCompactionV2SSEFrame body = some (frame, remainder)) :
    remainder.length < body.length := by
  unfold rawResponsesCompactionV2SSEFrame rawResponsesCompactionV2SSEFrameFrom at hframe
  simp only [Nat.not_lt_zero, if_false, drop_zero, Nat.zero_add] at hframe
  split at hframe
  · next index size hfound =>
    cases hframe
    exact length_drop_lt_of_terminator hfound
  · cases hframe

def encryptedContentFrom (remaining : Bytes) (progress : Progress) : Bytes × Bool :=
  if remaining = [] then
    (progress.encrypted, progress.encrypted ≠ [] && progress.completed)
  else
    match _hframe : rawResponsesCompactionV2SSEFrame remaining with
    | none =>
      if onlyLineEndings remaining then
        (progress.encrypted, progress.encrypted ≠ [] && progress.completed)
      else ([], false)
    | some (frame, next) =>
      if progress.completed then ([], false)
      else
        match rawResponsesCompactionV2SSEDataIsValid
            (rawResponsesCompactionV2SSEFrameData frame) progress with
        | none => ([], false)
        | some progress => encryptedContentFrom next progress
termination_by remaining.length
decreasing_by exact frame_length_lt _hframe

def rawResponsesCompactionV2SSEEncryptedContent (body : Bytes) : Bytes × Bool :=
  encryptedContentFrom body .start

theorem frame_eq (body : Bytes) :
    rawResponsesCompactionV2SSEFrame body = (terminator true body).map fun (index, size) ↦
        (body.take index, body.drop (index + size)) := by
  unfold rawResponsesCompactionV2SSEFrame rawResponsesCompactionV2SSEFrameFrom
  simp only [Nat.not_lt_zero, if_false, drop_zero, Nat.zero_add]
  cases terminator true body <;> rfl

theorem readFrames_cons (frame : Bytes) (frames : List Bytes) (progress : Progress) :
    readFrames (frame :: frames) progress =
      if progress.completed then none
      else (rawResponsesCompactionV2SSEDataIsValid (rawResponsesCompactionV2SSEFrameData frame)
        progress).bind (readFrames frames) := by
  rw [readFrames, foldlM_cons]
  split_ifs <;> rfl

theorem readFrames_append (first second : List Bytes) (progress : Progress) :
    readFrames (first ++ second) progress = (readFrames first progress).bind
      (readFrames second) := by
  rw [readFrames, foldlM_append]
  rfl

def verdict (tail : Bytes) : Option Progress → Bytes × Bool
  | none => ([], false)
  | some progress =>
    if onlyLineEndings tail then
      (progress.encrypted, progress.encrypted ≠ [] && progress.completed)
    else ([], false)

/-- The one-shot reader splits the body into frames, reads them in order and gives a verdict at the
end. -/
theorem encryptedContentFrom_eq (remaining : Bytes) (progress : Progress) :
    encryptedContentFrom remaining progress = verdict (splitFrames true remaining).2
        (readFrames (splitFrames true remaining).1 progress) := by
  induction hlength :
    remaining.length using Nat.strong_induction_on generalizing remaining progress with
  | _ _ ih =>
    subst hlength
    rw [encryptedContentFrom]
    by_cases hempty : remaining = []
    · subst hempty
      rw [splitFrames_of_none terminator_nil]
      rfl
    rw [if_neg hempty]
    have hframe := frame_eq remaining
    split
    · next hnone =>
      rw [hnone] at hframe
      rw [splitFrames_of_none (map_eq_none_iff.mp hframe.symm)]
      rfl
    · next frame rest hsome =>
      rw [hsome] at hframe
      obtain ⟨⟨_, _⟩, hfound, heq⟩ := map_eq_some_iff.mp hframe.symm
      cases heq
      rw [splitFrames_of_some hfound, readFrames_cons]
      split_ifs
      · rfl
      split
      · next hinvalid =>
        rw [hinvalid]
        rfl
      · next after hvalid =>
        rw [hvalid, ih _ (length_drop_lt_of_terminator hfound) _ _ rfl]
        rfl

theorem whole_eq (body : Bytes) :
    rawResponsesCompactionV2SSEEncryptedContent body =
      verdict (splitFrames true body).2 (readFrames (splitFrames true body).1 .start) :=
  encryptedContentFrom_eq body .start

/-! ### The observer -/

def maxRawResponsesCompactionV2ObserveBytes : ℕ := 8 * 1024 * 1024

/-- The observed body. `captured` is the number of bytes in the capped copy of the stream. -/
structure ObservedBody where
  contentType : Bytes
  contentEncoding : Bytes
  captured : ℕ
  truncated : Bool
  sseEncrypted : Bytes
  armed : Bool
  sseBuffer : Bytes
  sseScanOffset : ℕ
  sseCompleted : Bool
  sseInvalid : Bool
  deriving DecidableEq

def ObservedBody.new (contentType contentEncoding : Bytes) : ObservedBody :=
  ⟨contentType, contentEncoding, 0, false, [], false, [], 0, false, false⟩

def toLowerByte (byte : UInt8) : UInt8 :=
  if 0x41 ≤ byte ∧ byte ≤ 0x5A then byte + 0x20 else byte

def isPlainEventStream (contentType contentEncoding : Bytes) : Bool :=
  (indexOf (bytesOf "text/event-stream") (contentType.map toLowerByte)).isSome &&
    isBlank contentEncoding

namespace ObservedBody

/-- Copies a piece, up to the cap. -/
def capture (size : ℕ) (body : ObservedBody) : ObservedBody :=
  let remaining := maxRawResponsesCompactionV2ObserveBytes - body.captured
  if remaining = 0 then { body with truncated := true }
  else if remaining < size then
    { body with captured := body.captured + remaining, truncated := true }
  else { body with captured := body.captured + size }

def invalidateSSE (body : ObservedBody) : ObservedBody :=
  { body with armed := false, sseInvalid := true, sseBuffer := [], sseScanOffset := 0 }

section

-- whether the registry accepts an arm with some encrypted content
variable (accepts : Bytes → Bool)

def armEncrypted (encrypted : Bytes) (body : ObservedBody) : ObservedBody :=
  if body.armed then body
  else if accepts encrypted then { body with sseEncrypted := encrypted, armed := true }
  else { body with sseEncrypted := encrypted }

theorem frameFrom_length_lt {offset next : ℕ} {atEOF : Bool}
    (hframe : rawResponsesCompactionV2SSEFrameFrom body offset atEOF =
      (some (frame, remainder), next)) : remainder.length < body.length := by
  unfold rawResponsesCompactionV2SSEFrameFrom at hframe
  dsimp only at hframe
  split at hframe
  · next index size hfound =>
    obtain ⟨hframe, -⟩ := Prod.mk.inj hframe
    obtain ⟨-, rfl⟩ := Prod.mk.inj (some.inj hframe)
    have hbounds := terminator_bounds hfound
    simp only [length_drop] at hbounds ⊢
    omega
  · cases (Prod.mk.inj hframe).1

def consumeSSEFrames (atEOF : Bool) (body : ObservedBody) : ObservedBody :=
  match _hframe : rawResponsesCompactionV2SSEFrameFrom body.sseBuffer body.sseScanOffset atEOF with
  | (none, nextScanOffset) =>
    let scanned := { body with sseScanOffset := nextScanOffset }
    if scanned.sseCompleted && onlyLineEndings scanned.sseBuffer then
      scanned.armEncrypted accepts scanned.sseEncrypted
    else scanned
  | (some (frame, remainder), _) =>
    let taken := { body with sseBuffer := remainder, sseScanOffset := 0 }
    if taken.sseCompleted then taken.invalidateSSE
    else
      match rawResponsesCompactionV2SSEDataIsValid (rawResponsesCompactionV2SSEFrameData frame)
          ⟨taken.sseEncrypted, taken.sseCompleted⟩ with
      | none => taken.invalidateSSE
      | some progress =>
        consumeSSEFrames atEOF
          { taken with sseEncrypted := progress.encrypted, sseCompleted := progress.completed }
termination_by body.sseBuffer.length
decreasing_by exact frameFrom_length_lt _hframe

def armBeforeTerminalFrame (chunk : Bytes) (body : ObservedBody) : ObservedBody :=
  if isPlainEventStream body.contentType body.contentEncoding = false ∨ body.sseInvalid then body
  else if body.truncated then body.invalidateSSE
  else if maxRawResponsesCompactionV2ObserveBytes < body.sseBuffer.length + chunk.length then
    body.invalidateSSE
  else { body with sseBuffer := body.sseBuffer ++ chunk }.consumeSSEFrames accepts false

def validateSSETailAtEOF (body : ObservedBody) : ObservedBody :=
  if body.truncated then body.invalidateSSE
  else if body.sseInvalid then body
  else
    let consumed := body.consumeSSEFrames accepts true
    if onlyLineEndings consumed.sseBuffer then consumed else consumed.invalidateSSE

end

end ObservedBody

inductive ReadOutcome where
  | more
  | eof
  | failed
  deriving DecidableEq

def ObservedBody.read (accepts : Bytes → Bool) (chunk : Bytes) (outcome : ReadOutcome)
    (body : ObservedBody) : ObservedBody :=
  let observed :=
    if chunk = [] then body
    else (body.capture chunk.length).armBeforeTerminalFrame accepts chunk
  match outcome with
  | .more => observed
  | .eof => observed.validateSSETailAtEOF accepts
  | .failed => observed.invalidateSSE

def observe (accepts : Bytes → Bool) (contentType contentEncoding : Bytes) (chunks : List Bytes)
    (last : Bytes) : ObservedBody :=
  (chunks.foldl (fun (body : ObservedBody) chunk ↦ body.read accepts chunk .more)
    (.new contentType contentEncoding)).read accepts last .eof

/-- The encrypted content with which a recovery is armed. -/
def ObservedBody.armedWith (body : ObservedBody) : Option Bytes :=
  if body.armed then some body.sseEncrypted else none

/-! ### The observer sees what the whole body says -/

open ObservedBody

section

variable {accepts : Bytes → Bool}

theorem frameFrom_zero (body : Bytes) (atEOF : Bool) :
    rawResponsesCompactionV2SSEFrameFrom body 0 atEOF =
      match terminator atEOF body with
      | some (index, size) => (some (body.take index, body.drop (index + size)), 0)
      | none => (none, body.length - 3) := by
  unfold rawResponsesCompactionV2SSEFrameFrom
  simp

theorem frameFrom_resume {tail : Bytes} (hnone : terminator false tail = none) (chunk : Bytes)
    (atEOF : Bool) :
    rawResponsesCompactionV2SSEFrameFrom (tail ++ chunk) (tail.length - 3) atEOF =
      rawResponsesCompactionV2SSEFrameFrom (tail ++ chunk) 0 atEOF := by
  rw [frameFrom_zero, @terminator_resume atEOF _ hnone chunk]
  unfold rawResponsesCompactionV2SSEFrameFrom
  rw [if_neg (by rw [length_append]; omega)]
  dsimp only
  cases terminator atEOF ((tail ++ chunk).drop (tail.length - 3)) with
  | none => rfl
  | some found =>
    obtain ⟨index, _⟩ := found
    simp only [map_some, Nat.add_comm _ index]

def ObservedBody.taken (accepts : Bytes → Bool) (tail : Bytes) (progress : Progress)
    (body : ObservedBody) : ObservedBody :=
  let scanned :=
    { body with
      sseBuffer := tail
      sseScanOffset := tail.length - 3
      sseEncrypted := progress.encrypted
      sseCompleted := progress.completed }
  if progress.completed && onlyLineEndings tail then
    scanned.armEncrypted accepts progress.encrypted
  else scanned

/-- Consuming the buffer reads its complete frames and keeps the rest, or marks the body invalid. -/
theorem consumeSSEFrames_spec (atEOF : Bool) (body : ObservedBody)
    (hresume : rawResponsesCompactionV2SSEFrameFrom body.sseBuffer body.sseScanOffset atEOF =
      rawResponsesCompactionV2SSEFrameFrom body.sseBuffer 0 atEOF) :
    match readFrames (splitFrames atEOF body.sseBuffer).1 ⟨body.sseEncrypted,
      body.sseCompleted⟩ with
    | none =>
      (body.consumeSSEFrames accepts atEOF).sseInvalid = true ∧
        (body.consumeSSEFrames accepts atEOF).armed = false
    | some progress =>
      body.consumeSSEFrames accepts atEOF =
        body.taken accepts (splitFrames atEOF body.sseBuffer).2 progress := by
  induction hlength : body.sseBuffer.length using Nat.strong_induction_on generalizing body with
  | _ _ ih =>
    subst hlength
    rw [consumeSSEFrames, hresume, frameFrom_zero]
    cases hfound : terminator atEOF body.sseBuffer with
    | none =>
      rw [splitFrames_of_none hfound]
      rfl
    | some found =>
      obtain ⟨index, size⟩ := found
      rw [splitFrames_of_some hfound, readFrames_cons]
      dsimp only
      cases hcompleted : body.sseCompleted with
      | true => exact ⟨rfl, rfl⟩
      | false =>
        cases hvalid : rawResponsesCompactionV2SSEDataIsValid
            (rawResponsesCompactionV2SSEFrameData (body.sseBuffer.take index))
            ⟨body.sseEncrypted, false⟩ with
        | none => exact ⟨rfl, rfl⟩
        | some progress =>
          have hnext := ih _ (length_drop_lt_of_terminator hfound) { body with
              sseBuffer := body.sseBuffer.drop (index + size)
              sseScanOffset := 0
              sseEncrypted := progress.encrypted
              sseCompleted := progress.completed } rfl rfl
          exact hnext

theorem taken_eq (tail : Bytes) (progress : Progress) (body : ObservedBody) :
    body.taken accepts tail progress = { body with
        sseBuffer := tail
        sseScanOffset := tail.length - 3
        sseEncrypted := progress.encrypted
        sseCompleted := progress.completed
        armed := body.armed ||
          (progress.completed && onlyLineEndings tail && accepts progress.encrypted) } := by
  unfold taken armEncrypted
  cases harmed : body.armed <;> cases progress.completed && onlyLineEndings tail <;>
    cases accepts progress.encrypted <;> simp

variable {progress final : Progress} {frames : List Bytes}

theorem eq_of_readFrames_completed
    (hcompleted : progress.completed = true) (hread : readFrames frames progress = some final) :
    final = progress := by
  cases frames with
  | nil => exact (some.inj hread).symm
  | cons =>
    rw [readFrames_cons, if_pos hcompleted] at hread
    cases hread

/-- A valid frame changes nothing, replaces the item, or completes a response that has one. -/
theorem dataIsValid_cases {data : List Bytes} {next : Progress}
    (hvalid : rawResponsesCompactionV2SSEDataIsValid data progress = some next) :
    next = progress ∨ next.completed = false ∨
      next = { progress with completed := true } ∧ progress.encrypted ≠ [] := by
  unfold rawResponsesCompactionV2SSEDataIsValid at hvalid
  split at hvalid
  · exact .inl (some.inj hvalid).symm
  split at hvalid
  · cases hvalid
  split at hvalid
  · cases hvalid
  next hopen =>
    split at hvalid
    · split at hvalid
      · exact .inl (some.inj hvalid).symm
      split at hvalid
      · cases hvalid
      · cases hvalid
        exact .inr (.inl (by simpa using hopen))
    split at hvalid
    · split at hvalid
      · cases hvalid
      · next hencrypted => exact .inr (.inr ⟨(some.inj hvalid).symm, hencrypted⟩)
    · exact .inl (some.inj hvalid).symm

/-- A completed response has an encrypted item, by induction on its frames. -/
theorem encrypted_ne_nil_of_readFrames
    (hstart : progress.completed = true → progress.encrypted ≠ [])
    (hread : readFrames frames progress = some final) :
    final.completed = true → final.encrypted ≠ [] := by
  induction frames generalizing progress with
  | nil =>
    cases hread
    exact hstart
  | cons _ _ ih =>
    rw [readFrames_cons] at hread
    split_ifs at hread
    obtain ⟨_, hnext, hrest⟩ := bind_eq_some_iff.mp hread
    refine ih ?_ hrest
    rcases dataIsValid_cases hnext with rfl | hopen | ⟨rfl, hencrypted⟩
    · exact hstart
    · intro hcompleted
      simp [hopen] at hcompleted
    · exact fun _ ↦ hencrypted

def Watches (contentType contentEncoding seen : Bytes) (body : ObservedBody) : Prop :=
  match readFrames (splitFrames false seen).1 .start with
  | none => body.sseInvalid = true ∧ body.armed = false
  | some progress =>
    ∃ armed, body = ⟨contentType, contentEncoding, seen.length, false, progress.encrypted, armed,
        (splitFrames false seen).2, (splitFrames false seen).2.length - 3,
        progress.completed, false⟩ ∧
      (armed = true → progress.completed = true)

variable {contentType contentEncoding seen : Bytes} {body : ObservedBody}

theorem watches_new :
    Watches contentType contentEncoding [] (.new contentType contentEncoding) := by
  unfold Watches
  rw [splitFrames_of_none terminator_nil]
  exact ⟨false, rfl, by simp⟩

/-- An invalid body stays invalid and never arms, whatever is read next. -/
theorem read_of_invalid (hinvalid : body.sseInvalid = true) (harmed : body.armed = false)
    (chunk : Bytes) (outcome : ReadOutcome) :
    (body.read accepts chunk outcome).sseInvalid = true ∧
      (body.read accepts chunk outcome).armed = false := by
  have hcapture (size : ℕ) : (body.capture size).sseInvalid = true ∧
      (body.capture size).armed = false := by
    unfold capture
    dsimp only
    split_ifs <;> exact ⟨hinvalid, harmed⟩
  have hobserved : (if chunk = [] then body
      else (body.capture chunk.length).armBeforeTerminalFrame accepts chunk).sseInvalid = true ∧
      (if chunk = [] then body
        else (body.capture chunk.length).armBeforeTerminalFrame accepts chunk).armed = false := by
    split_ifs
    · exact ⟨hinvalid, harmed⟩
    · rw [armBeforeTerminalFrame, if_pos (.inr (hcapture _).1)]
      exact hcapture _
  unfold ObservedBody.read
  generalize (if chunk = [] then body
    else (body.capture _).armBeforeTerminalFrame accepts chunk) = observed at hobserved
  cases outcome with
  | more => exact hobserved
  | eof =>
    simp only [validateSSETailAtEOF]
    split_ifs
    · exact ⟨rfl, rfl⟩
    · exact hobserved
    · exact absurd hobserved.1 ‹_›
    · exact absurd hobserved.1 ‹_›
  | failed => exact ⟨rfl, rfl⟩

theorem capture_of_le (hsize : 0 < size)
    (hcap : body.captured + size ≤ maxRawResponsesCompactionV2ObserveBytes) :
    body.capture size = { body with captured := body.captured + size } := by
  unfold capture
  rw [if_neg (by omega), if_neg (by omega)]

/-- One read below the cap keeps the observer in step with the bytes seen so far. -/
theorem watches_read (hstream : isPlainEventStream contentType contentEncoding = true)
    (hwatches : Watches contentType contentEncoding seen body) {chunk : Bytes}
    (hcap : seen.length + chunk.length ≤ maxRawResponsesCompactionV2ObserveBytes) :
    Watches contentType contentEncoding (seen ++ chunk) (body.read accepts chunk .more) := by
  unfold Watches at hwatches ⊢
  rw [@splitFrames_append false, readFrames_append]
  cases hread : readFrames (splitFrames false seen).1 .start with
  | none =>
    rw [hread] at hwatches
    exact read_of_invalid hwatches.1 hwatches.2 chunk .more
  | some progress =>
    rw [hread] at hwatches
    obtain ⟨armed, rfl, harmed⟩ := hwatches
    have hnone := terminator_splitFrames false seen
    have htail := length_splitFrames_le false seen
    generalize (splitFrames false seen).2 = tail at hnone htail
    rw [bind_some]
    by_cases hempty : chunk = []
    · subst hempty
      rw [append_nil, append_nil, splitFrames_of_none hnone]
      exact ⟨armed, rfl, harmed⟩
    have hpos := length_pos_iff.mpr hempty
    simp only [ObservedBody.read, if_neg hempty]
    rw [capture_of_le hpos hcap, ObservedBody.armBeforeTerminalFrame, if_neg (by simp [hstream]),
      if_neg (by simp), if_neg (by dsimp only; omega)]
    have hspec := @consumeSSEFrames_spec accepts false
      ⟨contentType, contentEncoding, seen.length + chunk.length, false, progress.encrypted, armed,
        tail ++ chunk, tail.length - 3, progress.completed, false⟩
      (frameFrom_resume hnone chunk false)
    cases hnext : readFrames (splitFrames false (tail ++ chunk)).1 progress with
    | none => rwa [hnext] at hspec
    | some =>
      rw [hnext] at hspec
      rw [hspec, taken_eq]
      refine ⟨_, by rw [length_append], ?_⟩
      intro hnow
      rcases Bool.or_eq_true_iff.mp hnow with hbefore | hnow
      · rw [eq_of_readFrames_completed (harmed hbefore) hnext]
        exact harmed hbefore
      · simp only [Bool.and_eq_true] at hnow
        exact hnow.1.1

theorem watches_foldl (hstream : isPlainEventStream contentType contentEncoding = true)
    (chunks : List Bytes) (hwatches : Watches contentType contentEncoding seen body)
    (hcap : seen.length + chunks.flatten.length ≤ maxRawResponsesCompactionV2ObserveBytes) :
    Watches contentType contentEncoding (seen ++ chunks.flatten)
      (chunks.foldl (fun (body : ObservedBody) chunk ↦ body.read accepts chunk .more) body) := by
  induction chunks generalizing seen body with
  | nil => simpa using hwatches
  | cons _ _ ih =>
    rw [flatten_cons, length_append] at hcap
    rw [flatten_cons, ← append_assoc]
    exact ih (watches_read hstream hwatches (by omega)) (by rw [length_append]; omega)

/-- At the end of the stream the observer arms exactly what the one-shot reader finds in the whole
body. -/
theorem armedWith_read_eof (haccepts : ∀ encrypted, accepts encrypted = true)
    (hstream : isPlainEventStream contentType contentEncoding = true)
    (hwatches : Watches contentType contentEncoding seen body) {last : Bytes}
    (hcap : seen.length + last.length ≤ maxRawResponsesCompactionV2ObserveBytes) :
    (body.read accepts last .eof).armedWith =
      if (rawResponsesCompactionV2SSEEncryptedContent (seen ++ last)).2 then
        some (rawResponsesCompactionV2SSEEncryptedContent (seen ++ last)).1
      else none := by
  have hlast := @watches_read accepts _ _ _ _ hstream hwatches last hcap
  have hsplit : body.read accepts last .eof =
      (body.read accepts last .more).validateSSETailAtEOF accepts := rfl
  have hwhole := @splitFrames_append true (seen ++ last) []
  rw [hsplit, whole_eq]
  rw [append_nil, append_nil] at hwhole
  rw [hwhole, readFrames_append]
  generalize body.read accepts last .more = watched at hlast
  unfold Watches at hlast
  cases hread : readFrames (splitFrames false (seen ++ last)).1 .start with
  | none =>
    rw [hread] at hlast
    have hkept := @read_of_invalid accepts _ hlast.1 hlast.2 [] .eof
    have hsame : watched.read accepts [] .eof = watched.validateSSETailAtEOF accepts := rfl
    rw [hsame] at hkept
    simp [armedWith, hkept.2, verdict]
  | some progress =>
    rw [hread] at hlast
    obtain ⟨armed, rfl, harmed⟩ := hlast
    have hnone := terminator_splitFrames false (seen ++ last)
    generalize (splitFrames false _).2 = tail at hnone
    have hencrypted := encrypted_ne_nil_of_readFrames (by simp [Progress.start]) hread
    have hresume := frameFrom_resume hnone [] true
    rw [append_nil] at hresume
    have hspec := @consumeSSEFrames_spec accepts true
      ⟨contentType, contentEncoding, (seen ++ last).length, false, progress.encrypted, armed,
        tail, tail.length - 3, progress.completed, false⟩ hresume
    rw [bind_some]
    simp only [validateSSETailAtEOF, Bool.false_eq_true, if_false]
    cases hnext : readFrames (splitFrames true tail).1 progress with
    | none =>
      rw [hnext] at hspec
      have hunarmed := hspec.2
      simp only [verdict, Bool.false_eq_true, if_false]
      split_ifs
      · simp only [armedWith, hunarmed, Bool.false_eq_true, if_false]
      · rfl
    | some final =>
      rw [hnext] at hspec
      rw [hspec, taken_eq]
      have hfinal := encrypted_ne_nil_of_readFrames hencrypted hnext
      dsimp [verdict]
      by_cases hends : onlyLineEndings (splitFrames true tail).2 = true
      · have hbefore : armed = true → final.completed = true := fun hbefore ↦ by
          rw [eq_of_readFrames_completed (harmed hbefore) hnext]
          exact harmed hbefore
        simp only [armedWith, haccepts, hends, Bool.and_true, if_true]
        cases hcompleted : final.completed with
        | true => simp [hfinal hcompleted]
        | false =>
          have hunarmed : armed = false := by
            by_contra hnot
            rw [hbefore (by simpa using hnot)] at hcompleted
            cases hcompleted
          simp [hunarmed]
      · simp only [hends, Bool.false_eq_true, if_false]
        rfl

end

/-- The observer ends up armed with the encrypted content that the whole body has, and unarmed if it
has none. Assumes: the response is an event stream without a content encoding, its body is not
longer than the cap, and the registry accepts arms. -/
theorem observe_eq_whole {accepts : Bytes → Bool} (haccepts : ∀ encrypted, accepts encrypted = true)
    {contentType contentEncoding : Bytes}
    (hstream : isPlainEventStream contentType contentEncoding = true) (chunks : List Bytes)
    (last : Bytes)
    (hcap : (chunks.flatten ++ last).length ≤ maxRawResponsesCompactionV2ObserveBytes) :
    (observe accepts contentType contentEncoding chunks last).armedWith =
      if (rawResponsesCompactionV2SSEEncryptedContent (chunks.flatten ++ last)).2 then
        some (rawResponsesCompactionV2SSEEncryptedContent (chunks.flatten ++ last)).1
      else none := by
  rw [length_append] at hcap
  have hwatches := @watches_foldl accepts contentType contentEncoding [] _ hstream chunks
    watches_new (by rw [length_nil]; omega)
  exact armedWith_read_eof haccepts hstream hwatches (by simpa using hcap)

/-- A stream with carriage returns, divided inside its line endings. -/
theorem observe_sample :
    (observe (fun _ ↦ true) (bytesOf "text/event-stream; charset=utf-8") []
      [bytesOf "data: \x7b\"type\":\"response.output_item.done\",\"item\":" ++
          bytesOf "\x7b\"type\":\"compaction\",\"encrypted_content\":\"e\"\x7d\x7d\r",
        bytesOf "\n\r", bytesOf "\ndata: \x7b\"type\":\"response.completed\"\x7d\r\n"]
      (bytesOf "\r\n")).armedWith = some (bytesOf "e") := by
  rw [observe_eq_whole (fun _ ↦ rfl) (by decide +kernel) _ _ (by decide +kernel)]
  decide +kernel

end Clyde.Codex
