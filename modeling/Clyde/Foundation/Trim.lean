import Clyde.Foundation.Text
import Mathlib.Data.List.DropRight

/-!
# Trimming a text

`trimSpace` leaves a text in which there is nothing more to trim (`trimSpace_trimSpace`). Nothing is
left exactly of a `Blank` text, which is made of white space characters (`trimSpace_eq_nil_iff`).
-/

set_option autoImplicit false

namespace Clyde.Foundation.Text

open ByteCodec List

def Blank (text : Bytes) : Prop :=
  ∃ spaces : List Bytes, (∀ space ∈ spaces, space ∈ whiteSpace) ∧ text = spaces.flatten

theorem Blank.nil : Blank [] := ⟨[], by simp, rfl⟩

theorem Blank.append {front back : Bytes} (hfront : Blank front) (hback : Blank back) :
    Blank (front ++ back) := by
  obtain ⟨first, hfirst, rfl⟩ := hfront
  obtain ⟨second, hsecond, rfl⟩ := hback
  refine ⟨first ++ second, fun space hspace ↦ ?_, flatten_append.symm⟩
  exact (mem_append.mp hspace).elim (hfirst space) (hsecond space)

theorem blank_flatMap {α : Type} {items : List α} {text : α → Bytes}
    (hitems : ∀ item ∈ items, Blank (text item)) : Blank (items.flatMap text) := by
  induction items with
  | nil => exact Blank.nil
  | cons item _ ih =>
    exact (hitems item mem_cons_self).append
      (ih fun other hother ↦ hitems other (mem_cons_of_mem item hother))

variable {space : Bytes}

theorem blank_of_mem_whiteSpace (hspace : space ∈ whiteSpace) : Blank space :=
  ⟨[space], by simpa using hspace, by simp⟩

theorem Blank.of_append_newline {front back : Bytes} (hblank : Blank (front ++ 0x0A :: back)) :
    Blank front ∧ Blank back := by
  have halone : ∀ space ∈ whiteSpace, 0x0A ∈ space → space = [0x0A] := by decide
  obtain ⟨spaces, hspaces, htext⟩ := hblank
  induction spaces generalizing front with
  | nil => simp at htext
  | cons space spaces ih =>
    have hspace := hspaces space mem_cons_self
    have hrest := fun other hother ↦ hspaces other (mem_cons_of_mem space hother)
    rcases append_eq_append_iff.mp htext with ⟨between, rfl, hbetween⟩ | ⟨between, rfl, hbetween⟩
    · cases between with
      | nil =>
        rw [append_nil] at hspace
        obtain ⟨-, hback⟩ := @ih [] hrest (by simpa using hbetween)
        exact ⟨blank_of_mem_whiteSpace hspace, hback⟩
      | cons _ between =>
        cases hbetween
        have hsame := halone _ hspace (by simp)
        obtain ⟨rfl, hnil⟩ : front = [] ∧ between = [] := by
          cases front with
          | nil => simpa using hsame
          | cons => simp at hsame
        refine ⟨Blank.nil, spaces, hrest, ?_⟩
        rw [hnil]
        rfl
    · obtain ⟨hfront, hback⟩ := ih hrest hbetween.symm
      exact ⟨(blank_of_mem_whiteSpace hspace).append hfront, hback⟩

variable (count : ℕ) (text : Bytes)

theorem exists_append_trimSpaceLeft :
    ∃ front, Blank front ∧ text = front ++ trimSpaceLeft count text := by
  induction count generalizing text with
  | zero => exact ⟨[], Blank.nil, rfl⟩
  | succ _ ih =>
    rw [trimSpaceLeft]
    cases hfind : whiteSpace.find? fun space ↦ space.isPrefixOf text with
    | none => exact ⟨[], Blank.nil, rfl⟩
    | some space =>
      have hstarts : space <+: text := by simpa using find?_some hfind
      obtain ⟨front, hfront, hrest⟩ := ih _
      refine ⟨space ++ front, (blank_of_mem_whiteSpace (mem_of_find?_eq_some hfind)).append hfront,
        ?_⟩
      rw [append_assoc, ← hrest, prefix_iff_eq_append.mp hstarts]

theorem exists_append_trimSpaceRight :
    ∃ back, Blank back ∧ text = trimSpaceRight count text ++ back := by
  induction count generalizing text with
  | zero => exact ⟨[], Blank.nil, (append_nil text).symm⟩
  | succ _ ih =>
    rw [trimSpaceRight]
    cases hfind : whiteSpace.find? fun space ↦ space.isSuffixOf text with
    | none => exact ⟨[], Blank.nil, (append_nil text).symm⟩
    | some space =>
      have hends : space <:+ text := by simpa using find?_some hfind
      obtain ⟨back, hback, hrest⟩ := ih _
      refine ⟨back ++ space, hback.append (blank_of_mem_whiteSpace (mem_of_find?_eq_some hfind)),
        ?_⟩
      rw [← append_assoc, ← hrest, suffix_iff_eq_append.mp hends]

theorem trimSpaceLeft_isSuffix : trimSpaceLeft count text <:+ text := by
  obtain ⟨front, -, htext⟩ := exists_append_trimSpaceLeft count text
  exact ⟨front, htext.symm⟩

theorem trimSpaceRight_isPrefix : trimSpaceRight count text <+: text := by
  obtain ⟨back, -, htext⟩ := exists_append_trimSpaceRight count text
  exact ⟨back, htext.symm⟩

theorem length_pos_of_mem_whiteSpace (hspace : space ∈ whiteSpace) : 0 < space.length := by
  revert space
  decide

variable {text : Bytes} {count : ℕ}

theorem not_isPrefix_trimSpaceLeft (hcount : text.length ≤ count)
    (hspace : space ∈ whiteSpace) : ¬ space <+: trimSpaceLeft count text := by
  induction count generalizing text with
  | zero =>
    rw [trimSpaceLeft, length_eq_zero_iff.mp (Nat.le_zero.mp hcount), prefix_nil]
    rintro rfl
    exact absurd (length_pos_of_mem_whiteSpace hspace) (Nat.lt_irrefl 0)
  | succ _ ih =>
    rw [trimSpaceLeft]
    split
    case h_1 front hfront =>
      have hlength := length_pos_of_mem_whiteSpace (mem_of_find?_eq_some hfront)
      exact ih (by rw [length_drop]; omega)
    case h_2 hnone =>
      intro hfront
      exact find?_eq_none.mp hnone space hspace <| isPrefixOf_iff_prefix.mpr hfront

theorem not_isSuffix_trimSpaceRight (hcount : text.length ≤ count)
    (hspace : space ∈ whiteSpace) : ¬ space <:+ trimSpaceRight count text := by
  induction count generalizing text with
  | zero =>
    rw [trimSpaceRight, length_eq_zero_iff.mp (Nat.le_zero.mp hcount), suffix_nil]
    rintro rfl
    exact absurd (length_pos_of_mem_whiteSpace hspace) (Nat.lt_irrefl 0)
  | succ _ ih =>
    rw [trimSpaceRight]
    split
    case h_1 back hback =>
      have hlength := length_pos_of_mem_whiteSpace (mem_of_find?_eq_some hback)
      exact ih (by rw [length_take]; omega)
    case h_2 hnone =>
      intro hsuffix
      exact find?_eq_none.mp hnone space hspace (isSuffixOf_iff_suffix.mpr hsuffix)

theorem trimSpaceLeft_eq_self (htext : ∀ space ∈ whiteSpace, ¬ space <+: text) :
    trimSpaceLeft count text = text := by
  cases count with
  | zero => rfl
  | succ =>
    have hnone : whiteSpace.find? (fun space ↦ space.isPrefixOf text) = none :=
      find?_eq_none.mpr fun space hspace hfound ↦
        htext space hspace <| isPrefixOf_iff_prefix.mp hfound
    rw [trimSpaceLeft, hnone]

theorem trimSpaceRight_eq_self (htext : ∀ space ∈ whiteSpace, ¬ space <:+ text) :
    trimSpaceRight count text = text := by
  cases count with
  | zero => rfl
  | succ =>
    have hnone : whiteSpace.find? (fun space ↦ space.isSuffixOf text) = none :=
      find?_eq_none.mpr fun space hspace hfound ↦
        htext space hspace (isSuffixOf_iff_suffix.mp hfound)
    rw [trimSpaceRight, hnone]

@[simp] theorem trimSpace_trimSpace : trimSpace (trimSpace text) = trimSpace text := by
  have hleft : ∀ space ∈ whiteSpace, ¬ space <+: trimSpace text := fun space hspace hfront ↦
    not_isPrefix_trimSpaceLeft (Nat.le_refl _) hspace (hfront.trans (trimSpaceRight_isPrefix _ _))
  have hright : ∀ space ∈ whiteSpace, ¬ space <:+ trimSpace text := fun space hspace ↦
    not_isSuffix_trimSpaceRight (trimSpaceLeft_isSuffix _ _).length_le hspace
  conv_lhs => rw [trimSpace, trimSpaceLeft_eq_self hleft, trimSpaceRight_eq_self hright]

/-- The rest of a blank text that starts with none of the characters is empty, since no character is
the beginning of another. -/
theorem eq_nil_of_flatten_append {trimmed spaces : List Bytes} {rest : Bytes}
    (htrimmed : ∀ space ∈ trimmed, space ∈ whiteSpace)
    (hspaces : ∀ space ∈ spaces, space ∈ whiteSpace)
    (hrest : ∀ space ∈ whiteSpace, ¬ space <+: rest)
    (hsame : spaces.flatten = trimmed.flatten ++ rest) :
    rest = [] := by
  have halone : ∀ first ∈ whiteSpace, ∀ second ∈ whiteSpace, first <+: second → first = second := by
    decide
  induction trimmed generalizing spaces with
  | nil =>
    cases spaces with
    | nil => simpa using hsame.symm
    | cons space spaces =>
      rw [flatten_nil, nil_append] at hsame
      exact absurd (hsame ▸ prefix_append space _) (hrest space (hspaces space mem_cons_self))
  | cons first _ ih =>
    have hfirst := htrimmed first mem_cons_self
    cases spaces with
    | nil =>
      have hpos := length_pos_of_mem_whiteSpace hfirst
      have hlength := congrArg List.length hsame
      simp only [flatten_nil, flatten_cons, length_nil, length_append] at hlength
      omega
    | cons space spaces =>
      have hspace := hspaces space mem_cons_self
      simp only [flatten_cons, append_assoc] at hsame
      have hone : first <+: space ++ spaces.flatten := hsame ▸ prefix_append _ _
      obtain rfl : first = space := by
        rcases prefix_or_prefix_of_prefix hone (prefix_append space _) with hstarts | hstarts
        · exact halone _ hfirst _ hspace hstarts
        · exact (halone _ hspace _ hfirst hstarts).symm
      exact ih (fun other hother ↦ htrimmed other (mem_cons_of_mem _ hother))
        (fun other hother ↦ hspaces other (mem_cons_of_mem _ hother)) (append_cancel_left hsame)

/-- Trimming leaves nothing of blank texts alone. -/
theorem trimSpace_eq_nil_iff : trimSpace text = [] ↔ Blank text := by
  obtain ⟨_, hfront, hleft⟩ := exists_append_trimSpaceLeft text.length text
  constructor
  · intro hnil
    obtain ⟨_, hback, hright⟩ := exists_append_trimSpaceRight text.length _
    rw [trimSpace] at hnil
    rw [hnil] at hright
    rw [hleft, hright]
    exact hfront.append hback
  rintro ⟨_, hspaces, hblank⟩
  obtain ⟨_, htrimmed, rfl⟩ := hfront
  have hrest := eq_nil_of_flatten_append htrimmed hspaces
    (fun _ hspace ↦ not_isPrefix_trimSpaceLeft (Nat.le_refl text.length) hspace)
      (hblank.symm.trans hleft)
  rw [trimSpace, hrest]
  exact prefix_nil.mp (trimSpaceRight_isPrefix _ _)

end Clyde.Foundation.Text
