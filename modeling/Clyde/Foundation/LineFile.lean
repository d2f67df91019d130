import Mathlib.Data.List.Infix

/-!
# Files of lines

A file that is only ever extended holds lines, each ended by a separator, and perhaps the beginning
of one more. `text` writes lines, `Tidy` says that a file holds whole lines below a limit, and
`Begun` that it holds the beginning of such a file. `Has` says that a line is in the file with its
separator.

A reader of a file that still grows takes the lines that are there with their separators
(`wholeLines`) and leaves the beginning of the next one (`unfinished`).

Scope. Symbols and the separator are arbitrary.
-/

set_option autoImplicit false

namespace Clyde.Foundation.LineFile

open List

variable {α : Type} {separator : α} {limit : ℕ}

section

variable (separator : α)

def text (lines : List (List α)) : List α := lines.flatMap fun line ↦ line ++ [separator]

@[simp] theorem text_nil : text separator [] = [] := rfl

theorem text_cons (line : List α) (lines : List (List α)) :
    text separator (line :: lines) = line ++ separator :: text separator lines := by
  simp [text]

theorem text_append (front back : List (List α)) :
    text separator (front ++ back) = text separator front ++ text separator back := by
  simp [text]

/-- A line has no separator and stays below the limit. -/
def IsLine (limit : ℕ) (line : List α) : Prop := separator ∉ line ∧ line.length < limit

def Tidy (limit : ℕ) (file : List α) : Prop :=
  ∃ lines : List (List α), file = text separator lines ∧ ∀ line ∈ lines, IsLine separator limit line

/-- The file is the beginning of one that holds whole lines. -/
def Begun (limit : ℕ) (file : List α) : Prop := ∃ rest : List α, Tidy separator limit (file ++ rest)

def Has (line file : List α) : Prop :=
  ∃ lines rest, file = text separator lines ++ rest ∧ line ∈ lines ∧
    ∀ other ∈ lines, separator ∉ other

end

theorem Tidy.nil : Tidy separator limit [] := ⟨[], rfl, by simp⟩

theorem Tidy.begun {file : List α} (htidy : Tidy separator limit file) :
    Begun separator limit file :=
  ⟨[], by rwa [append_nil]⟩

variable {lines : List (List α)}

theorem tidy_text (hlines : ∀ line ∈ lines, IsLine separator limit line) :
    Tidy separator limit (text separator lines) :=
  ⟨lines, rfl, hlines⟩

theorem Tidy.append {front back : List α} (hfront : Tidy separator limit front)
    (hback : Tidy separator limit back) : Tidy separator limit (front ++ back) := by
  obtain ⟨first, rfl, hfirst⟩ := hfront
  obtain ⟨second, rfl, hsecond⟩ := hback
  refine ⟨first ++ second, (text_append ..).symm, fun line hline ↦ ?_⟩
  rcases mem_append.mp hline with hline | hline
  · exact hfirst line hline
  · exact hsecond line hline

variable {line file : List α}

theorem Has.append (hline : Has separator line file) (more : List α) :
    Has separator line (file ++ more) := by
  obtain ⟨lines, rest, rfl, hmem, hlines⟩ := hline
  exact ⟨lines, rest ++ more, append_assoc .., hmem, hlines⟩

theorem Has.of_isPrefix {longer : List α} (hline : Has separator line file)
    (hlonger : file <+: longer) : Has separator line longer := by
  obtain ⟨more, rfl⟩ := hlonger
  exact hline.append more

variable {line : List α}

theorem has_text (hmem : line ∈ lines)
    (hlines : ∀ other ∈ lines, separator ∉ other) : Has separator line (text separator lines) :=
  ⟨lines, [], (append_nil _).symm, hmem, hlines⟩

theorem Tidy.has_append_text (hfile : Tidy separator limit file) (hmem : line ∈ lines)
    (hlines : ∀ other ∈ lines, separator ∉ other) :
    Has separator line (file ++ text separator lines) := by
  obtain ⟨before, rfl, hbefore⟩ := hfile
  rw [← text_append]
  refine has_text (mem_append_right before hmem) fun other hother ↦ ?_
  rcases mem_append.mp hother with hother | hother
  · exact (hbefore other hother).1
  · exact hlines other hother

section

variable [DecidableEq α]

/-- The lines that end in a separator, each with it, and what follows the last of them. -/
def splitLines (separator : α) : List α → List (List α) × List α
  | [] => ([], [])
  | symbol :: rest =>
    if symbol = separator then ([symbol] :: (splitLines separator rest).1,
      (splitLines separator rest).2)
    else
      match (splitLines separator rest).1 with
      | [] => ([], symbol :: (splitLines separator rest).2)
      | line :: lines => ((symbol :: line) :: lines, (splitLines separator rest).2)

def wholeLines (separator : α) (file : List α) : List (List α) := (splitLines separator file).1

def unfinished (separator : α) (file : List α) : List α := (splitLines separator file).2

@[simp] theorem wholeLines_nil : wholeLines separator [] = [] := rfl

@[simp] theorem unfinished_nil : unfinished separator [] = [] := rfl

variable (file : List α)

theorem flatten_wholeLines_append :
    (wholeLines separator file).flatten ++ unfinished separator file = file := by
  induction file with
  | nil => rfl
  | cons _ rest ih =>
    unfold wholeLines unfinished at ih ⊢
    rw [splitLines]
    split_ifs with hsymbol
    · simpa using ih
    · cases hlines : (splitLines separator rest).1 with
      | nil | cons => simpa [hlines] using ih

theorem length_flatten_wholeLines_le :
    (wholeLines separator file).flatten.length ≤ file.length := by
  have hfile : (wholeLines separator file).flatten ++ unfinished separator file = file :=
    flatten_wholeLines_append file
  have hlength := congrArg List.length hfile
  rw [length_append] at hlength
  omega

theorem drop_wholeLines :
    file.drop (wholeLines separator file).flatten.length = unfinished separator file := by
  have hfile : (wholeLines separator file).flatten ++ unfinished separator file = file :=
    flatten_wholeLines_append file
  calc file.drop (wholeLines separator file).flatten.length
      = ((wholeLines separator file).flatten ++ unfinished separator file).drop
          (wholeLines separator file).flatten.length := by rw [hfile]
    _ = unfinished separator file := drop_left

/-- Splitting two parts gives the lines of the whole, if the unfinished line is carried over. -/
theorem splitLines_append (front back : List α) :
    splitLines separator (front ++ back) =
      (wholeLines separator front ++ wholeLines separator (unfinished separator front ++ back),
        unfinished separator (unfinished separator front ++ back)) := by
  induction front with
  | nil => rfl
  | cons _ rest ih =>
    unfold wholeLines unfinished at ih ⊢
    rw [cons_append, splitLines, splitLines, ih]
    split_ifs with hsymbol
    · rfl
    · cases hlines : (splitLines separator rest).1 with
      | nil => simp [splitLines, if_neg hsymbol]
      | cons => rfl

/-- The lines of a longer file: those from before, and those that have been finished since. -/
theorem wholeLines_append (front back : List α) :
    wholeLines separator (front ++ back) =
      wholeLines separator front ++ wholeLines separator (unfinished separator front ++ back) :=
  congrArg Prod.fst (splitLines_append front back)

theorem splitLines_of_not_mem (hline : separator ∉ line) :
    splitLines separator line = ([], line) := by
  induction line with
  | nil => rfl
  | cons _ _ ih =>
    obtain ⟨hsymbol, hline⟩ := not_or.mp (fun hmem ↦ hline (mem_cons.mpr hmem))
    rw [splitLines, if_neg (Ne.symm hsymbol), ih hline]

theorem splitLines_line (hline : separator ∉ line) (after : List α) :
    splitLines separator (line ++ separator :: after) =
      ((line ++ [separator]) :: wholeLines separator after, unfinished separator after) := by
  induction line with
  | nil => rw [nil_append, splitLines, if_pos rfl]; rfl
  | cons _ _ ih =>
    obtain ⟨hsymbol, hline⟩ := not_or.mp (fun hmem ↦ hline (mem_cons.mpr hmem))
    rw [cons_append, splitLines, if_neg (Ne.symm hsymbol), ih hline]
    rfl

end

variable [BEq α] [LawfulBEq α]

theorem splitOn_text_append (hlines : ∀ line ∈ lines, separator ∉ line) (rest : List α) :
    (text separator lines ++ rest).splitOn separator = lines ++ rest.splitOn separator := by
  induction lines with
  | nil => rfl
  | cons line _ ih =>
    rw [text_cons, append_assoc, cons_append,
      splitOn_append_cons_self_of_not_mem (hlines line mem_cons_self),
      ih fun other hother ↦ hlines other (mem_cons_of_mem line hother), cons_append]

theorem Has.mem_splitOn (hline : Has separator line file) : line ∈ file.splitOn separator := by
  obtain ⟨_, _, rfl, hmem, hlines⟩ := hline
  rw [splitOn_text_append hlines]
  exact mem_append_left _ hmem

theorem notMem_of_mem_splitOn {piece : List α} (hpiece : piece ∈ file.splitOn separator) :
    separator ∉ piece := by
  induction hlength : file.length using Nat.strong_induction_on generalizing file with
  | _ length ih =>
    subst hlength
    by_cases hmem : separator ∈ file
    · obtain ⟨_, back, rfl, hfront⟩ := eq_append_cons_of_mem hmem
      rw [splitOn_append_cons_self_of_not_mem hfront] at hpiece
      rcases mem_cons.mp hpiece with rfl | hpiece
      · exact hfront
      · exact ih back.length (by simp; omega) hpiece rfl
    · rw [splitOn_eq_singleton hmem, mem_singleton] at hpiece
      rwa [hpiece]

/-- Assumes: the beginning of a file of lines. It splits into lines, of which the last may be
incomplete. -/
theorem Begun.isLine {piece : List α} (hlimit : 0 < limit) (hfile : Begun separator limit file)
    (hpiece : piece ∈ file.splitOn separator) : IsLine separator limit piece := by
  obtain ⟨rest, lines, hlines, hshort⟩ := hfile
  -- The lines that the file has in full go first; what is left is the beginning of the next one.
  induction lines generalizing file with
  | nil =>
    obtain ⟨rfl, -⟩ := append_eq_nil_iff.mp hlines
    rw [splitOn_nil, mem_singleton] at hpiece
    rw [hpiece]
    exact ⟨not_mem_nil, hlimit⟩
  | cons line lines ih =>
    have hline := hshort line mem_cons_self
    rw [text_cons] at hlines
    by_cases hmem : separator ∈ file
    · obtain ⟨front, back, rfl, hfront⟩ := eq_append_cons_of_mem hmem
      rw [append_assoc, cons_append] at hlines
      obtain ⟨rfl, htail⟩ : front = line ∧ back ++ rest = text separator lines := by
        have hsplit := congrArg (List.splitOn separator) hlines
        rw [splitOn_append_cons_self_of_not_mem hfront,
          splitOn_append_cons_self_of_not_mem hline.1, List.cons.injEq] at hsplit
        obtain ⟨rfl, -⟩ := hsplit
        exact ⟨rfl, (List.cons.inj (append_cancel_left hlines)).2⟩
      rw [splitOn_append_cons_self_of_not_mem hfront] at hpiece
      rcases mem_cons.mp hpiece with rfl | hpiece
      · exact hline
      · exact ih hpiece htail fun other hother ↦ hshort other (mem_cons_of_mem _ hother)
    rw [splitOn_eq_singleton hmem, mem_singleton] at hpiece
    subst hpiece
    refine ⟨hmem, lt_of_le_of_lt ?_ hline.2⟩
    -- Without a separator the file cannot reach past the first line.
    by_contra hlong
    have htake := congrArg (fun symbols ↦ symbols[line.length]?) hlines
    simp only [getElem?_append_left (by omega : line.length < piece.length),
      getElem?_append_right (le_refl line.length), Nat.sub_self, getElem?_cons_zero]
      at htake
    exact hmem (mem_of_getElem? htake)

end Clyde.Foundation.LineFile
