import Mathlib.Data.List.Nodup
import Mathlib.Data.List.Infix
import Mathlib.Data.List.Perm.Subperm

/-!
# Interning values under small numbers

A table that gives each distinct value a number and reads the value back from it. Number zero is
reserved: a placeholder stands there, and no value is ever interned under it. The table holds at
most `capacity` entries, and a value that is not in a full table is refused.

The structure carries its own correctness. `ids_iff` says that the map from values to numbers is the
inverse of the list from number one on, so every number names one value and every interned value has
one number.
-/

set_option autoImplicit false

namespace Clyde.Foundation

open List

/-- A table of distinct values by number, with number zero reserved. -/
structure Interner (α : Type) (capacity : ℕ) where
  values : List α
  ids : α → Option ℕ
  ids_iff : ∀ value id, ids value = some id ↔ 0 < id ∧ values[id]? = some value
  values_ne_nil : values ≠ []
  length_le : values.length ≤ capacity

namespace Interner

variable {α : Type} {capacity : ℕ}

def empty (placeholder : α) (hcapacity : 0 < capacity) : Interner α capacity where
  values := [placeholder]
  ids := fun _ ↦ none
  ids_iff value id := by
    cases id <;> simp
  values_ne_nil := by simp
  length_le := hcapacity

def Contains (table : Interner α capacity) (value : α) : Prop := ∃ id, table.ids value = some id

variable {table : Interner α capacity} {value : α}

theorem contains_iff : table.Contains value ↔ ∃ id, 0 < id ∧ table.values[id]? = some value := by
  simp [Contains, table.ids_iff]

@[simp] theorem not_contains_empty (placeholder : α) (hcapacity : 0 < capacity) (value : α) :
    ¬(empty placeholder hcapacity).Contains value := by
  simp [Contains, empty]

theorem contains_iff_mem_tail : table.Contains value ↔ value ∈ table.values.tail := by
  rw [contains_iff, mem_iff_getElem?]
  constructor
  · rintro ⟨id, hpos, hvalue⟩
    exact ⟨id - 1, by rw [getElem?_tail, Nat.sub_add_cancel hpos, hvalue]⟩
  · rintro ⟨position, hvalue⟩
    exact ⟨position + 1, Nat.succ_pos position, by rw [← getElem?_tail, hvalue]⟩

theorem nodup_tail (table : Interner α capacity) : table.values.tail.Nodup := by
  rw [nodup_iff_getElem?_ne_getElem?]
  intro first second _ hsecond hequal
  simp only [length_tail] at hsecond
  have hbound : first + 1 < table.values.length := by omega
  rw [getElem?_tail, getElem?_tail] at hequal
  have hfirst := getElem?_eq_getElem hbound
  have hids := (table.ids_iff _ _).mpr ⟨Nat.succ_pos first, hfirst⟩
  have hids' := (table.ids_iff _ _).mpr ⟨Nat.succ_pos second, hequal ▸ hfirst⟩
  rw [hids] at hids'
  simp only [Option.some.injEq] at hids'
  omega

section

variable [DecidableEq α]

/-- The number of a value, with the table grown by the value when it is new. A value that is not in
a full table is refused. -/
def intern (table : Interner α capacity) (value : α) : Option (ℕ × Interner α capacity) :=
  match hids : table.ids value with
  | some id => some (id, table)
  | none =>
    if hroom : table.values.length < capacity then
      some (table.values.length,
        { values := table.values ++ [value]
          ids := Function.update table.ids value (some table.values.length)
          ids_iff := fun other id ↦ by
            have hpos := List.length_pos_of_ne_nil table.values_ne_nil
            by_cases hother : other = value
            · subst hother
              have hfresh := fun id ↦ mt (table.ids_iff other id).mpr (by rw [hids]; simp)
              rw [Function.update_self, Option.some.injEq]
              constructor
              · rintro rfl
                exact ⟨hpos, List.getElem?_concat_length⟩
              rintro ⟨hid, hget⟩
              by_contra hne
              refine hfresh id ⟨hid, ?_⟩
              have hlt : id < (table.values ++ [other]).length :=
                (List.getElem?_eq_some_iff.mp hget).1
              rw [List.length_append, List.length_singleton] at hlt
              rwa [List.getElem?_append_left (by omega)] at hget
            rw [Function.update_of_ne hother, table.ids_iff]
            refine and_congr_right fun hid ↦ ?_
            by_cases hlt : id < table.values.length
            · rw [List.getElem?_append_left hlt]
            rw [List.getElem?_eq_none (by omega), List.getElem?_append_right (by omega)]
            cases hrest : id - table.values.length with
            | zero => simpa using fun heq ↦ hother heq.symm
            | succ rest => simp
          values_ne_nil := by simp
          length_le := by
            rw [List.length_append, List.length_singleton]
            exact hroom })
    else none

/-- What a successful `intern` returns: a number of the value in a table that extends the old one by
at most that value. -/
theorem intern_eq_some {grown : Interner α capacity} {id : ℕ}
    (hintern : table.intern value = some (id, grown)) :
    0 < id ∧ grown.values[id]? = some value ∧ table.values <+: grown.values ∧
      ∀ other, grown.Contains other ↔ table.Contains other ∨ other = value := by
  unfold intern at hintern
  split at hintern
  next hids =>
    obtain ⟨rfl, rfl⟩ := hintern
    obtain ⟨hpos, hvalue⟩ := (table.ids_iff _ _).mp hids
    refine ⟨hpos, hvalue, prefix_rfl, fun other ↦ ⟨.inl, ?_⟩⟩
    rintro (hother | rfl)
    · exact hother
    · exact ⟨_, hids⟩
  next hids =>
    split_ifs at hintern
    obtain ⟨rfl, rfl⟩ := hintern
    refine ⟨length_pos_of_ne_nil table.values_ne_nil, getElem?_concat_length,
      prefix_append _ _, fun other ↦ ?_⟩
    rw [contains_iff_mem_tail, contains_iff_mem_tail,
      tail_append_of_ne_nil table.values_ne_nil, mem_append, mem_singleton]

/-- Interning fails exactly for a new value in a full table. -/
theorem intern_eq_none :
    table.intern value = none ↔ ¬table.Contains value ∧ table.values.length = capacity := by
  unfold intern
  split
  next id hids =>
    simp only [reduceCtorEq, false_iff, not_and]
    exact fun hfresh ↦ absurd ⟨id, hids⟩ hfresh
  next hids =>
    have hfresh : ¬table.Contains value := by simp [Contains, hids]
    have hle := table.length_le
    split_ifs with hroom
    · simp only [false_iff, not_and]
      omega
    · exact iff_of_true rfl ⟨hfresh, by omega⟩

end

theorem intern_ne_none_of_subset [DecidableEq α] {first second : Interner α capacity}
    (hsubset : ∀ other, first.Contains other → second.Contains other)
    (hvalue : second.Contains value) : first.intern value ≠ none := by
  rw [Ne, intern_eq_none]
  rintro ⟨hfresh, _⟩
  -- The larger table would hold one value more than its capacity.
  have htail : value :: first.values.tail ⊆ second.values.tail := by
    intro other hother
    rcases mem_cons.mp hother with rfl | hother
    · exact contains_iff_mem_tail.mp hvalue
    · exact contains_iff_mem_tail.mp (hsubset other (contains_iff_mem_tail.mpr hother))
  have hnodup : (value :: first.values.tail).Nodup :=
    nodup_cons.mpr ⟨fun hmem ↦ hfresh (contains_iff_mem_tail.mpr hmem), first.nodup_tail⟩
  have hlength := (hnodup.subperm htail).length_le
  have hle := second.length_le
  simp only [length_cons, length_tail] at hlength
  omega

end Interner

end Clyde.Foundation
