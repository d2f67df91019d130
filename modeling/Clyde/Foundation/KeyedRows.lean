import Mathlib.Data.List.Nodup
import Mathlib.Data.List.Perm.Basic

/-!
# Rows found by key

A list of rows with distinct keys, an index from keys to positions, and the three changes a table
makes: append a row under a new key, replace the row of a key in place, and remove a row by moving
the last row into its position. `Indexes` says that an index is exact; it holds after each change.
Read as a finite map from keys to rows, the list is `lookup`. `Changes` says that a change of the
list is a change of the map at one key, and `updates` are such changes one after the other.
-/

set_option autoImplicit false

namespace Clyde.Foundation.KeyedRows

open List

/-! ### Removal by moving the last row -/

section

variable {α β γ : Type}

/-- Removes a position by moving the last element into it. -/
def swapRemove (rows : List α) (position : ℕ) : List α :=
  match rows.getLast? with
  | none => []
  | some last => (rows.set position last).dropLast

variable (rows : List α)

theorem swapRemove_concat (last : α) (position : ℕ) :
    swapRemove (rows ++ [last]) position = rows.set position last := by
  rw [swapRemove, getLast?_concat]
  by_cases hposition : position < rows.length
  · simp only [set_append_left _ _ hposition, dropLast_concat]
  rw [set_eq_of_length_le (by omega)]
  rcases Nat.lt_or_ge rows.length position with _ | _
  · simp only [set_eq_of_length_le (show (rows ++ [last]).length ≤ position by simp; omega),
      dropLast_concat]
  · obtain rfl : position = rows.length := by omega
    simp

theorem swapRemove_eq_take {rows : List α} {last : α} (hlast : rows[rows.length - 1]? = some last)
    (position : ℕ) :
    swapRemove rows position = (rows.set position last).take (rows.length - 1) := by
  rw [← getLast?_eq_getElem?] at hlast
  simp only [swapRemove, hlast]
  rw [dropLast_eq_take, length_set]

theorem swapRemove_last : swapRemove rows (rows.length - 1) = rows.take (rows.length - 1) := by
  rcases eq_nil_or_concat' rows with rfl | ⟨_, _, rfl⟩
  · rfl
  · rw [swapRemove_concat, length_append, length_singleton, Nat.add_sub_cancel,
      set_eq_of_length_le (Nat.le_refl _), take_left]

theorem length_swapRemove (position : ℕ) : (swapRemove rows position).length = rows.length - 1 := by
  rcases eq_nil_or_concat' rows with rfl | ⟨_, _, rfl⟩
  · rfl
  · simp [swapRemove_concat]

theorem map_swapRemove (convert : α → β) (rows : List α) (position : ℕ) :
    (swapRemove rows position).map convert = swapRemove (rows.map convert) position := by
  rcases eq_nil_or_concat' rows with rfl | ⟨_, _, rfl⟩
  · rfl
  · rw [map_append, map_singleton, swapRemove_concat, swapRemove_concat, map_set]

variable (combine : α → β → γ)

theorem zipWith_set (first : List α) (second : List β) (position : ℕ) (left : α) (right : β) :
    List.zipWith combine (first.set position left) (second.set position right) =
      (List.zipWith combine first second).set position (combine left right) := by
  induction first generalizing second position with
  | nil => rfl
  | cons _ _ ih =>
    cases second with
    | nil => simp
    | cons =>
      cases position with
      | zero => rfl
      | succ => simp [ih]

theorem zipWith_swapRemove {first : List α} {second : List β}
    (hlength : first.length = second.length) (position : ℕ) :
    List.zipWith combine (swapRemove first position) (swapRemove second position) =
      swapRemove (List.zipWith combine first second) position := by
  rcases eq_nil_or_concat' first with rfl | ⟨rest, _, rfl⟩
  · rfl
  rcases eq_nil_or_concat' second with rfl | ⟨rest', _, rfl⟩
  · simp at hlength
  · have hrest : rest.length = rest'.length := by simpa using hlength
    rw [zipWith_append hrest, zipWith_cons_cons, zipWith_nil_left,
      swapRemove_concat, swapRemove_concat, swapRemove_concat, zipWith_set]

theorem swapRemove_perm_eraseIdx {rows : List α} {position : ℕ}
    (hposition : position < rows.length) :
    (swapRemove rows position).Perm (rows.eraseIdx position) := by
  rcases eq_nil_or_concat' rows with rfl | ⟨rest, last, rfl⟩
  · simp at hposition
  rw [swapRemove_concat]
  rw [length_append, length_singleton] at hposition
  by_cases hlt : position < rest.length
  · rw [eraseIdx_append_of_lt_length hlt]
    exact (set_perm_cons_eraseIdx hlt last).trans (perm_append_singleton last _).symm
  · obtain rfl : position = rest.length := by omega
    rw [set_eq_of_length_le (Nat.le_refl _), eraseIdx_append_of_length_le (Nat.le_refl _)]
    simp

end

/-! ### The index -/

section

variable {κ : Type}

/-- The index is exact: it maps a key to a position exactly when the key stands there. -/
def Indexes (index : κ → Option ℕ) (keys : List κ) : Prop :=
  ∀ key position, index key = some position ↔ keys[position]? = some key

theorem indexes_nil : Indexes (fun _ : κ ↦ none) [] := by
  intro _ _
  simp

variable {index : κ → Option ℕ} {keys : List κ}

theorem Indexes.nodup (hindex : Indexes index keys) :
    keys.Nodup := by
  rw [nodup_iff_getElem?_ne_getElem?]
  intro _ _ hlt hsecond hequal
  have hfirst := getElem?_eq_getElem (Nat.lt_trans hlt hsecond)
  have hposition := (hindex _ _).mpr hfirst
  rw [(hindex _ _).mpr (hequal ▸ hfirst), Option.some.injEq] at hposition
  omega

variable {key : κ}

theorem Indexes.lt_length (hindex : Indexes index keys) {position : ℕ}
    (hposition : index key = some position) : position < keys.length :=
  (List.getElem?_eq_some_iff.mp ((hindex key position).mp hposition)).1

theorem Indexes.eq_none_iff (hindex : Indexes index keys) : index key = none ↔ key ∉ keys := by
  rw [Option.eq_none_iff_forall_ne_some, mem_iff_getElem?]
  simp [hindex key]

variable [DecidableEq κ]

def position (keys : List κ) (key : κ) : Option ℕ := keys.findIdx? fun other ↦ other = key

theorem position_eq_some {target : ℕ}
    (htarget : position keys key = some target) : keys[target]? = some key := by
  obtain ⟨hlt, hkey, _⟩ := findIdx?_eq_some_iff_getElem.mp htarget
  rw [getElem?_eq_getElem hlt]
  simpa using hkey

theorem position_eq_none_iff : position keys key = none ↔ key ∉ keys := by
  simp only [position, findIdx?_eq_none_iff, decide_eq_false_iff_not]
  exact ⟨fun hother hmem ↦ hother key hmem rfl, fun hmem other hother hsame ↦ hmem (hsame ▸ hother)⟩

/-- The index of a key is its position in the list. -/
theorem Indexes.eq_position (hindex : Indexes index keys) (key : κ) :
    index key = position keys key := by
  cases hkey : index key with
  | none =>
    rw [eq_comm, position, findIdx?_eq_none_iff]
    intro _ hother
    rw [decide_eq_false_iff_not]
    rintro rfl
    exact hindex.eq_none_iff.mp hkey hother
  | some target =>
    obtain ⟨hlt, hkeyAt⟩ := List.getElem?_eq_some_iff.mp ((hindex key target).mp hkey)
    rw [eq_comm, position, findIdx?_eq_some_iff_getElem]
    refine ⟨hlt, by simpa using hkeyAt, fun earlier hearlier ↦ ?_⟩
    rw [decide_eq_true_eq]
    intro hequal
    have hposition := (hindex key earlier).mpr
      (by rw [getElem?_eq_getElem (Nat.lt_trans hearlier hlt), hequal])
    rw [hkey, Option.some.injEq] at hposition
    omega

/-- The index with a new key belongs to the list with the key behind it. -/
theorem Indexes.append (hindex : Indexes index keys) (hfresh : index key = none) :
    Indexes (Function.update index key (some keys.length)) (keys ++ [key]) := by
  intro other position
  have hmem := hindex.eq_none_iff.mp hfresh
  by_cases hother : other = key
  · subst hother
    rw [Function.update_self, Option.some.injEq]
    constructor
    · rintro rfl
      exact getElem?_concat_length
    intro hget
    by_contra hne
    have hlt := (List.getElem?_eq_some_iff.mp hget).1
    rw [length_append, length_singleton] at hlt
    rw [getElem?_append_left (by omega)] at hget
    exact hmem (mem_of_getElem? hget)
  rw [Function.update_of_ne hother, hindex other position]
  by_cases hlt : position < keys.length
  · rw [getElem?_append_left hlt]
  rw [getElem?_eq_none (by omega), getElem?_append_right (by omega)]
  cases hrest : position - keys.length with
  | zero => simpa using fun heq ↦ hother heq.symm
  | succ => simp

/-- The index after a removal: the last key moves to the freed position, and the removed key is
forgotten. -/
def removeFromIndex (index : κ → Option ℕ) (key last : κ) (position : ℕ) : κ → Option ℕ :=
  Function.update (Function.update index last (some position)) key none

/-- The index without a key belongs to the list with the last key in its place. -/
theorem Indexes.swapRemove (hindex : Indexes index keys) {last : κ} {position : ℕ}
    (hposition : index key = some position) (hlast : keys[keys.length - 1]? = some last) :
    Indexes (removeFromIndex index key last position) (swapRemove keys position) := by
  have hnodup := hindex.nodup
  have hlt := hindex.lt_length hposition
  have hkey := (hindex key position).mp hposition
  rcases eq_nil_or_concat' keys with rfl | ⟨rest, last', rfl⟩
  · simp at hlt
  have hsame : last' = last := by simpa using hlast
  subst hsame
  rw [swapRemove_concat]
  rw [length_append, length_singleton] at hlt
  intro other target
  have hrestNodup : rest.Nodup := (nodup_append.mp hnodup).1
  have hfresh : last' ∉ rest := fun hmem ↦ by
    have hdisjoint := (nodup_append.mp hnodup).2.2
    exact hdisjoint last' hmem last' (by simp) rfl
  rw [removeFromIndex, getElem?_set]
  by_cases hother : other = key
  · -- The removed key stands nowhere: its only position now holds another key, or is gone.
    subst hother
    rw [Function.update_self]
    refine iff_of_false (by simp) fun hget ↦ ?_
    split_ifs at hget with htarget hinside
    · rw [Option.some.injEq] at hget
      subst hget
      rw [getElem?_append_left (by omega)] at hkey
      exact hfresh (mem_of_getElem? hkey)
    have htargetLt := (List.getElem?_eq_some_iff.mp hget).1
    have hold := (hindex other target).mpr (by rw [getElem?_append_left htargetLt, hget])
    rw [hposition, Option.some.injEq] at hold
    exact htarget hold
  rw [Function.update_of_ne hother]
  by_cases hlastKey : other = last'
  · subst hlastKey
    have hinside : position < rest.length := by
      by_contra hge
      obtain rfl : position = rest.length := by omega
      rw [getElem?_concat_length, Option.some.injEq] at hkey
      exact hother hkey
    rw [Function.update_self, Option.some.injEq]
    split_ifs with htarget
    · simp [htarget]
    · refine iff_of_false htarget fun hget ↦ hfresh (mem_of_getElem? hget)
  rw [Function.update_of_ne hlastKey, hindex other target]
  split_ifs with htarget hinside
  · subst htarget
    rw [hkey]
    simp only [Option.some.injEq]
    exact iff_of_false (fun heq ↦ hother heq.symm) (fun heq ↦ hlastKey heq.symm)
  · subst htarget
    rw [hkey]
    simp only [Option.some.injEq, iff_false]
    exact fun heq ↦ hother heq.symm
  by_cases htargetLt : target < rest.length
  · rw [getElem?_append_left htargetLt]
  rw [getElem?_eq_none (show rest.length ≤ target by omega), getElem?_append_right (by omega)]
  cases hrest : target - rest.length with
  | zero => simpa using fun heq ↦ hlastKey heq.symm
  | succ => simp

end

/-! ### The rows as a finite map -/

variable {κ α : Type} [DecidableEq κ] (key : α → κ)

def lookup (rows : List α) (wanted : κ) : Option α := rows.find? fun row ↦ key row = wanted

variable {key} {wanted : κ}

theorem lookup_eq_some_iff {rows : List α} (hnodup : (rows.map key).Nodup) {row : α} :
    lookup key rows wanted = some row ↔ row ∈ rows ∧ key row = wanted := by
  constructor
  · intro hfind
    exact ⟨mem_of_find?_eq_some hfind, by simpa using find?_some hfind⟩
  rintro ⟨hmem, rfl⟩
  cases hfind : lookup key rows (key row) with
  | none =>
    have hmissing := find?_eq_none.mp hfind row hmem
    simp at hmissing
  | some found =>
    have hkey : key found = key row := by simpa using find?_some hfind
    rw [inj_on_of_nodup_map hnodup (mem_of_find?_eq_some hfind) hmem hkey]

theorem lookup_eq_none_iff {rows : List α} :
    lookup key rows wanted = none ↔ wanted ∉ rows.map key := by
  simp [lookup, find?_eq_none]

/-! ### Changes of the map -/

/-- A map after changes at keys, one after the other. -/
def updates (found : κ → Option α) (changes : List (κ × Option α)) : κ → Option α :=
  changes.foldl (fun found change ↦ Function.update found change.1 change.2) found

theorem updates_cons (found : κ → Option α) (change : κ × Option α)
    (changes : List (κ × Option α)) :
    updates found (change :: changes) = updates (Function.update found change.1 change.2) changes :=
  rfl

theorem map_comp_updates {β : Type} (convert : α → β) (found : κ → Option α)
    (changes : List (κ × Option α)) :
    Option.map convert ∘ updates found changes =
      updates (Option.map convert ∘ found)
        (changes.map fun change ↦ (change.1, change.2.map convert)) := by
  induction changes generalizing found with
  | nil => rfl
  | cons _ _ ih => rw [updates_cons, ih, Function.comp_update, map_cons, updates_cons]

theorem updates_none (found : κ → Option α) (keys : List κ) :
    updates found (keys.map fun key ↦ (key, none)) = fun key ↦ if key ∈ keys then
      none else found key := by
  induction keys generalizing found with
  | nil => simp [updates]
  | cons first rest ih =>
    rw [map_cons, updates_cons, ih]
    funext key
    by_cases hrest : key ∈ rest
    · simp [hrest]
    · by_cases hfirst : key = first <;> simp [hrest, hfirst]

/-- The keys of `next` are distinct, and it is `rows` with a change at one key. -/
def Changes (key : α → κ) (rows next : List α) (changed : κ) (value : Option α) : Prop :=
  (next.map key).Nodup ∧ lookup key next = Function.update (lookup key rows) changed value

variable {rows : List α} (hrows : (rows.map key).Nodup) {changed : κ}
include hrows

/-- A list with one row changed looks up all other keys as before. -/
theorem changes_of_mem {next : List α} (hnext : (next.map key).Nodup) {value : Option α}
    (hvalue : ∀ row ∈ value, key row = changed)
    (hmem : ∀ row, row ∈ next ↔ row ∈ rows ∧ key row ≠ changed ∨ value = some row) :
    Changes key rows next changed value := by
  refine ⟨hnext, funext fun wanted ↦ Option.ext fun row ↦ ?_⟩
  rw [lookup_eq_some_iff hnext, hmem]
  by_cases hwanted : wanted = changed
  · subst hwanted
    rw [Function.update_self]
    exact ⟨fun ⟨hfrom, hkey⟩ ↦ hfrom.resolve_left fun hold ↦ hold.2 hkey,
      fun hnew ↦ ⟨.inr hnew, hvalue row hnew⟩⟩
  rw [Function.update_of_ne hwanted, lookup_eq_some_iff hrows]
  constructor
  · rintro ⟨⟨hold, _⟩ | hnew, rfl⟩
    · exact ⟨hold, rfl⟩
    · exact absurd (hvalue row hnew) hwanted
  · rintro ⟨hold, rfl⟩
    exact ⟨.inl ⟨hold, hwanted⟩, rfl⟩

theorem changes_append {row : α} (hnew : position (rows.map key) (key row) = none) :
    Changes key rows (rows ++ [row]) (key row) (some row) := by
  have hfresh := position_eq_none_iff.mp hnew
  refine changes_of_mem hrows ?_ (by simp) fun other ↦ ?_
  · rw [map_append, map_singleton, nodup_append]
    refine ⟨hrows, nodup_singleton _, fun _ hold _ hlast ↦ ?_⟩
    rw [mem_singleton.mp hlast]
    exact fun hsame ↦ hfresh (hsame ▸ hold)
  · rw [mem_append, mem_singleton, Option.some.injEq, @eq_comm _ row]
    exact or_congr_left ⟨fun hold ↦ ⟨hold, fun hsame ↦ hfresh (hsame ▸ mem_map_of_mem hold)⟩,
      And.left⟩

variable {target : ℕ}

theorem mem_eraseIdx_of_position (htarget : position (rows.map key) changed = some target)
    {row : α} :
    row ∈ rows.eraseIdx target ↔ row ∈ rows ∧ key row ≠ changed := by
  have hat := position_eq_some htarget
  rw [mem_eraseIdx_iff_getElem?, mem_iff_getElem?, ← exists_and_right]
  refine exists_congr fun index ↦ ?_
  rw [and_comm]
  refine and_congr_right fun hrow ↦ not_congr ⟨?_, fun hkey ↦ ?_⟩
  · rintro rfl
    rw [getElem?_map, hrow] at hat
    simpa using hat
  · have hindex : (rows.map key)[index]? = some changed := by
      rw [getElem?_map, hrow, Option.map_some, hkey]
    exact (getElem?_inj (List.getElem?_eq_some_iff.mp hindex).1 hrows).mp (hindex.trans hat.symm)

theorem changes_set {row : α} (htarget : position (rows.map key) (key row) = some target) :
    Changes key rows (rows.set target row) (key row) (some row) := by
  obtain ⟨hlt, hat⟩ := List.getElem?_eq_some_iff.mp (position_eq_some htarget)
  have hmap : (rows.set target row).map key = rows.map key := by
    rw [map_set, ← hat, set_getElem_self]
  refine changes_of_mem hrows (hmap ▸ hrows) (by simp) fun other ↦ ?_
  rw [(set_perm_cons_eraseIdx (by simpa using hlt) row).mem_iff, mem_cons,
    mem_eraseIdx_of_position hrows htarget, or_comm, Option.some.injEq, @eq_comm _ row]

theorem changes_swapRemove (htarget : position (rows.map key) changed = some target) :
    Changes key rows (swapRemove rows target) changed none := by
  have hlt : target < rows.length := by
    simpa using (List.getElem?_eq_some_iff.mp (position_eq_some htarget)).1
  have hperm := swapRemove_perm_eraseIdx hlt
  refine changes_of_mem hrows ?_ (by simp) fun row ↦ ?_
  · exact (hperm.map key).nodup_iff.mpr (hrows.sublist ((eraseIdx_sublist rows target).map key))
  · rw [hperm.mem_iff, mem_eraseIdx_of_position hrows htarget]
    simp

end Clyde.Foundation.KeyedRows
