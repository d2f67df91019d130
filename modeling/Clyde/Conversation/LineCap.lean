import Clyde.Foundation.LineFile
import Clyde.Foundation.ByteCodec
import Mathlib.Data.List.DropRight

/-!
# The last lines of an export

`capToLastLines` of `internal/conversation/export.go`: an export with a line limit keeps its last
lines. The cut is found by a walk back from newline to newline (`cutBack_join`), and a cut at
position zero is taken for a text without a cut.

Scope. A limit below zero is zero.
-/

set_option autoImplicit false

namespace Clyde.Conversation

open Foundation.ByteCodec List

def lastNewline (text : Bytes) : Option ℕ :=
  (text.reverse.findIdx? (· = 0x0A)).map (text.length - 1 - ·)

/-- The loop that looks for the newline before the last `count` lines: where it cuts the text. -/
def cutBack : ℕ → Bytes → ℕ
  | 0, front => front.length
  | count + 1, front =>
    match lastNewline front with
    | none => 0
    | some position => cutBack count (front.take position)

def trimNewlines (text : Bytes) : Bytes := text.rdropWhile (· = 0x0A)

/-- The text that is kept, its number of lines, and whether lines were dropped. -/
def capToLastLines (text : Bytes) (maxLines : ℕ) : Bytes × ℕ × Bool :=
  let trimmed := trimNewlines text
  if trimmed = [] then (text, 0, false)
  else
    let total := trimmed.count 0x0A + 1
    if maxLines = 0 ∨ total ≤ maxLines then (text, total, false)
    else
      let cut := cutBack maxLines trimmed
      let start := if 0 < cut then cut + 1 else cut
      (trimmed.drop start ++ [0x0A], maxLines, true)

def linesOf (text : Bytes) : List Bytes :=
  if trimNewlines text = [] then [] else (trimNewlines text).splitOn 0x0A

def joinLines (lines : List Bytes) : Bytes := [0x0A].intercalate lines

/-- What a limit is for. -/
def lastLines (maxLines : ℕ) (text : Bytes) : Bytes × ℕ × Bool :=
  let lines := linesOf text
  if lines.length ≤ maxLines then (text, lines.length, false)
  else (joinLines (lines.drop (lines.length - maxLines)) ++ [0x0A], maxLines, true)

theorem joinLines_cons (line : Bytes) {lines : List Bytes} (hlines : lines ≠ []) :
    joinLines (line :: lines) = line ++ 0x0A :: joinLines lines := by
  obtain ⟨_, _, rfl⟩ := exists_cons_of_ne_nil hlines
  rfl

theorem joinLines_append {front back : List Bytes} (hfront : front ≠ []) (hback : back ≠ []) :
    joinLines (front ++ back) = joinLines front ++ 0x0A :: joinLines back := by
  induction front with
  | nil => exact absurd rfl hfront
  | cons line front ih =>
    cases front with
    | nil => simpa [joinLines] using joinLines_cons line hback
    | cons =>
      rw [cons_append, joinLines_cons line (by simp), ih (by simp), joinLines_cons line (by simp),
        append_assoc, cons_append]

theorem count_joinLines {lines : List Bytes} (hne : lines ≠ [])
    (hlines : ∀ line ∈ lines, 0x0A ∉ line) :
    (joinLines lines).count 0x0A + 1 = lines.length := by
  induction lines with
  | nil => exact absurd rfl hne
  | cons line lines ih =>
    obtain ⟨hline, hrest⟩ := forall_mem_cons.mp hlines
    by_cases hlast : lines = []
    · simp [hlast, joinLines, count_eq_zero.mpr hline]
    · rw [joinLines_cons line hlast, count_append, count_eq_zero.mpr hline, count_cons_self,
        Nat.zero_add, ih hlast hrest, length_cons]

theorem lastNewline_append {line : Bytes} (hline : 0x0A ∉ line) (front : Bytes) :
    lastNewline (front ++ 0x0A :: line) = some front.length := by
  have hnone : line.reverse.findIdx? (· = 0x0A) = none := by
    simpa using fun byte hbyte ↦ ne_of_mem_of_not_mem hbyte hline
  simp [lastNewline, findIdx?_append, hnone, findIdx?_cons]

theorem cutBack_join {front back : List Bytes} (hfront : front ≠ [])
    (hback : ∀ line ∈ back, 0x0A ∉ line) :
    cutBack back.length (joinLines (front ++ back)) = (joinLines front).length := by
  induction back using List.reverseRecOn with
  | nil => simp [cutBack]
  | append_singleton back line ih =>
    obtain ⟨hrest, hline⟩ := forall_mem_append.mp hback
    have hjoin : joinLines (front ++ (back ++ [line])) =
        joinLines (front ++ back) ++ 0x0A :: line := by
      rw [← append_assoc, joinLines_append (by simp [hfront]) (by simp)]
      simp [joinLines]
    rw [length_append, length_singleton, cutBack, hjoin, lastNewline_append (hline line (by simp))]
    simpa using ih hrest

/-- A text with too many lines splits into a front that is dropped and the last lines that are kept.
-/
theorem linesOf_cut {text : Bytes} {maxLines : ℕ} (hmore : ¬(linesOf text).length ≤ maxLines + 1) :
    ∃ front back, front ≠ [] ∧ back ≠ [] ∧ back.length = maxLines + 1 ∧
      linesOf text = front ++ back ∧
      trimNewlines text = joinLines (front ++ back) ∧ (∀ line ∈ front ++ back, 0x0A ∉ line) ∧
      lastLines (maxLines + 1) text = (joinLines back ++ [0x0A], maxLines + 1, true) := by
  by_cases hnil : trimNewlines text = []
  · simp [linesOf, hnil] at hmore
  have hlines : linesOf text = (trimNewlines text).splitOn 0x0A := if_neg hnil
  have hlength : ((linesOf text).drop ((linesOf text).length - (maxLines + 1))).length = maxLines +
      1 := by
    rw [length_drop]
    omega
  refine ⟨_, _, ?_, ne_nil_of_length_eq_add_one hlength, hlength, (take_append_drop _ _).symm, ?_,
    ?_, by rw [lastLines, if_neg hmore]⟩
  · rw [ne_eq, ← length_eq_zero_iff, length_take]
    omega
  · rw [take_append_drop, hlines, joinLines, intercalate_splitOn]
  · rw [take_append_drop, hlines]
    exact fun line ↦ Foundation.LineFile.notMem_of_mem_splitOn

/-- The reported number of lines is that of the text that is returned. -/
theorem length_linesOf_lastLines (maxLines : ℕ) (text : Bytes) :
    (linesOf (lastLines (maxLines + 1) text).1).length = (lastLines (maxLines + 1) text).2.1 := by
  by_cases hmore : (linesOf text).length ≤ maxLines + 1
  · simp [lastLines, if_pos hmore]
  · obtain ⟨_, back, hfront, hback, hlength, -, hjoin, hnewline, hspec⟩ := linesOf_cut hmore
    -- the last byte of the text is the last byte of the lines that are kept
    obtain ⟨hkept, hlast⟩ : joinLines back ≠ [] ∧
        trimNewlines (joinLines back) = joinLines back := by
      have hsame : trimNewlines (trimNewlines text) = trimNewlines text := rdropWhile_idempotent ..
      rw [hjoin, joinLines_append hfront hback, trimNewlines, rdropWhile_eq_self_iff] at hsame
      rw [trimNewlines]
      cases hkept : joinLines back with
      | nil => simp [hkept] at hsame
      | cons => simpa [hkept] using hsame
    have htrim : trimNewlines (joinLines back ++ [0x0A]) = joinLines back := by
      rwa [trimNewlines, rdropWhile_concat_pos _ _ _ (by simp)]
    rw [hspec, linesOf, htrim, if_neg hkept, joinLines,
      splitOn_intercalate _ (fun line hline ↦ hnewline line (mem_append_right _ hline)) hback,
      hlength]

/-- A text is cut to its last lines, unless it begins with a newline and has one line too many. -/
theorem capToLastLines_eq_iff (text : Bytes) (maxLines : ℕ) :
    capToLastLines text (maxLines + 1) = lastLines (maxLines + 1) text ∧
        (linesOf (capToLastLines text (maxLines + 1)).1).length =
          (capToLastLines text (maxLines + 1)).2.1 ↔
      ¬(text.head? = some 0x0A ∧ (linesOf text).length = maxLines + 2) := by
  have hcount : (linesOf text).length =
      if trimNewlines text = [] then 0 else (trimNewlines text).count 0x0A + 1 := by
    unfold linesOf
    split
    · rfl
    · have hlines := @count_joinLines ((trimNewlines text).splitOn 0x0A) (splitOn_ne_nil _ _)
        fun line ↦ Foundation.LineFile.notMem_of_mem_splitOn
      rw [← hlines, joinLines, intercalate_splitOn]
  by_cases hmore : (linesOf text).length ≤ maxLines + 1
  · have hsame : capToLastLines text (maxLines + 1) = lastLines (maxLines + 1) text := by
      rw [lastLines, capToLastLines]
      split_ifs at hcount ⊢ <;> simp_all
    rw [hsame, length_linesOf_lastLines]
    simp only [true_and, true_iff, not_and]
    omega
  obtain ⟨front, back, hfront, hback, hlength, hlines, hjoin, hnewline, hspec⟩ := linesOf_cut hmore
  have hcut := cutBack_join hfront fun line hline ↦ hnewline line (mem_append_right front hline)
  rw [hlength, ← hjoin] at hcut
  rw [joinLines_append hfront hback] at hjoin
  have hnil : trimNewlines text ≠ [] := by simp [hjoin]
  have hhead : text.head? = (trimNewlines text).head? := by
    obtain ⟨_, htext⟩ : trimNewlines text <+: text := rdropWhile_prefix ..
    rw [← head?_append_of_ne_nil _ hnil, htext]
  have hcap : capToLastLines text (maxLines + 1) = ((trimNewlines text).drop
      (if 0 < (joinLines front).length then (joinLines front).length + 1
        else (joinLines front).length) ++
        [0x0A], maxLines + 1, true) := by
    rw [if_neg hnil] at hcount
    simp only [capToLastLines, if_neg hnil, hcut]
    rw [if_neg (by omega)]
  have hone := count_joinLines hfront fun line hline ↦ hnewline line (mem_append_left back hline)
  rw [hlines, length_append, hhead]
  by_cases hempty : joinLines front = []
  · -- the newline before the lines that are kept is the first byte
    refine iff_of_false (fun hgood ↦ ?_) (not_not.mpr ⟨by simp [hjoin, hempty], by simp_all; omega⟩)
    have hlengths := congrArg (fun kept ↦ kept.1.length) (hcap.symm.trans (hgood.1.trans hspec))
    simp [hjoin, hempty] at hlengths
  · have hsame : capToLastLines text (maxLines + 1) = lastLines (maxLines + 1) text := by
      rw [hcap, hspec, if_pos (length_pos_iff.mpr hempty), hjoin]
      simp
    refine iff_of_true ⟨hsame, hsame ▸ length_linesOf_lastLines maxLines text⟩ ?_
    rintro ⟨hfirst, _⟩
    obtain ⟨line, rfl⟩ := length_eq_one_iff.mp (by omega : front.length = 1)
    have hline : joinLines [line] = line := by simp [joinLines]
    rw [hjoin, head?_append_of_ne_nil _ hempty, hline] at hfirst
    exact hnewline line (by simp) (mem_of_mem_head? hfirst)

/-- A line too many, and the first line is blank. -/
theorem capToLastLines_leading_newline :
    capToLastLines [0x0A, 0x61] 1 = ([0x0A, 0x61, 0x0A], 1, true) ∧
      lastLines 1 [0x0A, 0x61] = ([0x61, 0x0A], 1, true) ∧
      (linesOf [0x0A, 0x61, 0x0A]).length = 2 := by
  decide

end Clyde.Conversation
