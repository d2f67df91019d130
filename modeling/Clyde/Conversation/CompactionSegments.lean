import Clyde.Foundation.Text

/-!
# Compaction segments

`internal/conversation/export.go`: an export takes the messages of some segments, and of these the
last ones. The cut is found by a walk back over the segments and their
messages (`cutoffMessage_spec`, `cutoffSegment_spec`); `applyLastNToSegmentSelection_suffix` says
what it leaves.

Scope. Whether a message renders is a parameter. A `LastN` below zero is zero.
-/

set_option autoImplicit false

namespace Clyde.Conversation

open List

inductive MessageVisibility where
  | visible
  | transcriptOnly
  | metaOnly
  deriving DecidableEq

/-- `transcript.Message`: its visibility, whether it has compaction data, and what is rendered. -/
structure Message (Content : Type) where
  visibility : MessageVisibility
  compaction : Bool
  content : Content
  deriving DecidableEq

structure CompactionSegment where
  startMessageIndex : ℕ
  endMessageIndex : ℕ
  deriving DecidableEq

variable {Content : Type}

def CompactionSegment.messages (segment : CompactionSegment) (messages : List (Message Content)) :
    List (Message Content) :=
  (messages.take segment.endMessageIndex).drop segment.startMessageIndex

theorem CompactionSegment.messages_suffix (segment : CompactionSegment) {start : ℕ}
    (hstart : segment.startMessageIndex ≤ start) (messages : List (Message Content)) :
    { segment with startMessageIndex := start }.messages messages <:+
      segment.messages messages := by
  obtain ⟨more, rfl⟩ := Nat.exists_eq_add_of_le hstart
  simp only [CompactionSegment.messages, ← drop_drop]
  exact drop_suffix more _

def selectedCompactionSegmentMessages (messages : List (Message Content))
    (selection : List CompactionSegment) : List (Message Content) :=
  selection.flatMap (·.messages messages)

def messageCountsForLastN (messageRendersForExport : Message Content → Bool)
    (message : Message Content) : Bool :=
  if message.compaction then false
  else if message.visibility = .metaOnly then false
  else messageRendersForExport message

section

variable (counts : Message Content → Bool) (messages : List (Message Content))

/-- The message at which `remaining` are counted, from below `stop` down, or how many are left to
count. -/
def cutoffMessage (start : ℕ) : ℕ → ℕ → Option ℕ × ℕ
  | 0, remaining => (none, remaining)
  | messageIndex + 1, remaining =>
    if messageIndex < start then (none, remaining)
    else if messages[messageIndex]?.any counts = false then
      cutoffMessage start messageIndex remaining
    else if remaining - 1 = 0 then (some messageIndex, 0)
    else cutoffMessage start messageIndex (remaining - 1)

/-- The walk over the segments with their positions in the selection, from the last one. -/
def cutoffSegment : List (CompactionSegment × ℕ) → ℕ → Option (ℕ × ℕ)
  | [], _ => none
  | (segment, i) :: segments, remaining =>
    match cutoffMessage counts messages segment.startMessageIndex
        (min segment.endMessageIndex messages.length) remaining with
    | (some messageIndex, _) => some (i, messageIndex)
    | (none, remaining) => cutoffSegment segments remaining

def applyLastNToSegmentSelection (selection : List CompactionSegment) (lastN : ℕ) :
    List CompactionSegment :=
  if lastN = 0 then selection
  else
    match cutoffSegment counts messages selection.zipIdx.reverse lastN with
    | none => selection
    | some (cutoffSelectionIndex, cutoffMessageIndex) =>
      match selection.drop cutoffSelectionIndex with
      | [] => []
      | segment :: segments => { segment with startMessageIndex := cutoffMessageIndex } :: segments

variable {counts messages}

/-- A list that begins with a message that counts, and in which `count` messages count. -/
def CountsFrom (counts : Message Content → Bool) (count : ℕ) (suffix : List (Message Content)) :
    Prop :=
  suffix.head?.any counts = true ∧ suffix.countP counts = count

theorem CountsFrom.append {count : ℕ} {suffix : List (Message Content)}
    (hsuffix : CountsFrom counts count suffix) (more : List (Message Content)) :
    CountsFrom counts (count + more.countP counts) (suffix ++ more) := by
  cases suffix with
  | nil => exact absurd hsuffix.1 (by simp)
  | cons => exact ⟨hsuffix.1, by rw [countP_append, hsuffix.2]⟩

/-- The backward loop stops at the message from which as many count as were wanted, or tells how
many are missing. -/
theorem cutoffMessage_spec (start stop remaining : ℕ) (hstop : stop ≤ messages.length)
    (hremaining : remaining ≠ 0) :
    (∃ left, cutoffMessage counts messages start stop remaining = (none, left) ∧ left ≠ 0 ∧
      left + ((messages.take stop).drop start).countP counts = remaining) ∨
    ∃ messageIndex, cutoffMessage counts messages start stop remaining = (some messageIndex, 0) ∧
      start ≤ messageIndex ∧ messageIndex < stop ∧
      CountsFrom counts remaining ((messages.take stop).drop messageIndex) := by
  induction stop generalizing remaining with
  | zero => exact .inl ⟨remaining, rfl, hremaining, by simp⟩
  | succ stop ih =>
    rw [cutoffMessage]
    by_cases hend : stop < start
    · rw [if_pos hend, drop_eq_nil_of_le (by simp; omega)]
      exact .inl ⟨remaining, rfl, hremaining, rfl⟩
    have hlast : ∀ position, position ≤ stop → (messages.take (stop + 1)).drop position =
        (messages.take stop).drop position ++ [messages[stop]] := by
      intro _ _
      rw [take_succ_eq_append_getElem hstop, drop_append_of_le_length (by simp; omega)]
    rw [if_neg hend, getElem?_eq_getElem hstop, Option.any_some,
      hlast start (by omega), countP_append]
    by_cases hdone : counts messages[stop] = true ∧ remaining - 1 = 0
    · rw [if_neg (by simp [hdone.1]), if_pos hdone.2]
      refine .inr ⟨stop, rfl, by omega, by omega, ?_⟩
      rw [hlast stop le_rfl, drop_eq_nil_of_le (by simp)]
      exact ⟨hdone.1, by simp [hdone.1]; omega⟩
    -- the walk goes on with what the message at `stop` leaves to be counted
    obtain ⟨fewer, hfewer, hsum, hwalk⟩ : ∃ fewer, fewer ≠ 0 ∧
        fewer + [messages[stop]].countP counts = remaining ∧
        (if counts messages[stop] = false then cutoffMessage counts messages start stop remaining
          else if remaining - 1 = 0 then (some stop, 0)
          else cutoffMessage counts messages start stop (remaining - 1)) =
          cutoffMessage counts messages start stop fewer := by
      by_cases hcount : counts messages[stop] = true
      · have hmore : remaining - 1 ≠ 0 := fun hone ↦ hdone ⟨hcount, hone⟩
        exact ⟨remaining - 1, hmore, by simp [hcount]; omega, by simp [hcount, hmore]⟩
      · exact ⟨remaining, hremaining, by simp [hcount], by simp [hcount]⟩
    rw [hwalk]
    obtain ⟨left, hcut, hleft, _⟩ | ⟨messageIndex, hcut, hle, hlt, hfrom⟩ :=
      ih fewer (by omega) hfewer
    · exact .inl ⟨left, hcut, hleft, by omega⟩
    · refine .inr ⟨messageIndex, hcut, hle, by omega, ?_⟩
      rw [hlast messageIndex hlt.le, ← hsum]
      exact hfrom.append _

/-- The walk stops where `remaining` messages of the selection count, or has counted the whole
selection. -/
theorem cutoffSegment_spec (selection : List CompactionSegment) (remaining : ℕ)
    (hremaining : remaining ≠ 0) :
    (cutoffSegment counts messages selection.zipIdx.reverse remaining = none ∧
      (selectedCompactionSegmentMessages messages selection).countP counts < remaining) ∨
    ∃ before segment after messageIndex, selection = before ++ segment :: after ∧
      cutoffSegment counts messages selection.zipIdx.reverse remaining =
        some (before.length, messageIndex) ∧ segment.startMessageIndex ≤ messageIndex ∧
      CountsFrom counts remaining (selectedCompactionSegmentMessages messages
        ({ segment with startMessageIndex := messageIndex } :: after)) := by
  induction selection using List.reverseRecOn generalizing remaining with
  | nil => exact .inl ⟨rfl, Nat.pos_of_ne_zero hremaining⟩
  | append_singleton selection segment ih =>
    have htake : messages.take (min segment.endMessageIndex messages.length) =
        messages.take segment.endMessageIndex := take_eq_take_min.symm
    rw [zipIdx_append, reverse_append]
    simp only [zipIdx_singleton, reverse_singleton, singleton_append, cutoffSegment, Nat.zero_add]
    obtain ⟨left, hcut, hleft, hcount⟩ | ⟨messageIndex, hcut, hle, -, hfrom⟩ :=
      @cutoffMessage_spec _ counts messages _
        _ remaining (min_le_right _ _) hremaining
    · rw [htake] at hcount
      rw [hcut]
      obtain ⟨hnone, hlt⟩ | ⟨before, cut, after, messageIndex, hsplit, hsome, hle, hfrom⟩ :=
        ih left hleft
      · refine .inl ⟨hnone, ?_⟩
        simp only [selectedCompactionSegmentMessages, flatMap_append, flatMap_singleton,
          countP_append] at hlt ⊢
        rw [CompactionSegment.messages]
        omega
      refine .inr ⟨before, cut, after ++ [segment], messageIndex,
        by rw [hsplit]; simp, hsome, hle, ?_⟩
      rw [selectedCompactionSegmentMessages, ← cons_append, flatMap_append,
        flatMap_singleton, ← hcount]
      exact hfrom.append _
    rw [hcut]
    refine .inr ⟨selection, segment, [], messageIndex, rfl, rfl, hle, ?_⟩
    rw [htake] at hfrom
    simpa [selectedCompactionSegmentMessages, CompactionSegment.messages] using hfrom

end

/-- The messages of a selection after the cut are its last messages: `lastN` of them count, or all
that do, and the first of them counts if any message was dropped. -/
theorem applyLastNToSegmentSelection_suffix (messageRendersForExport : Message Content → Bool)
    (messages : List (Message Content)) (selection : List CompactionSegment) (n : ℕ) :
    let counts := messageCountsForLastN messageRendersForExport
    let before := selectedCompactionSegmentMessages messages selection
    let after := selectedCompactionSegmentMessages messages
      (applyLastNToSegmentSelection counts messages selection (n + 1))
    after <:+ before ∧ after.countP counts = min (n + 1) (before.countP counts) ∧
      (after ≠ before → after.head?.any counts = true) := by
  intro counts before after
  obtain ⟨hnone, hlt⟩ | ⟨pre, segment, post, messageIndex, hsplit, hsome, hle, hfrom⟩ :=
    @cutoffSegment_spec _ counts messages selection (n + 1) (by omega)
  · have hall : after = before := by simp [after, before, applyLastNToSegmentSelection, hnone]
    rw [hall]
    exact ⟨suffix_rfl, (min_eq_right hlt.le).symm, fun hne ↦ absurd rfl hne⟩
  have hcut : after = selectedCompactionSegmentMessages messages
      ({ segment with startMessageIndex := messageIndex } :: post) := by
    simp only [after, applyLastNToSegmentSelection, hsome, Nat.add_one_ne_zero, if_false]
    rw [hsplit, drop_left]
  have hsuffix : after <:+ before := by
    obtain ⟨dropped, hdropped⟩ := segment.messages_suffix hle messages
    refine ⟨pre.flatMap (·.messages messages) ++ dropped, ?_⟩
    simp [before, hcut, hsplit, selectedCompactionSegmentMessages, ← hdropped]
  rw [← hcut] at hfrom
  have hcount : n + 1 ≤ before.countP counts := hfrom.2 ▸ hsuffix.sublist.countP_le
  exact ⟨hsuffix, by rw [hfrom.2, min_eq_left hcount], fun _ ↦ hfrom.1⟩

end Clyde.Conversation
