import Mathlib.Data.List.AList
import Mathlib.Data.List.Perm.Basic

/-!
# Tables that are updated one key at a time

A stream of items updates a table, each item at most the entry of its own key. After a stream the
entry of a key is what the items of that key alone make of it (`lookup_foldl_absorb`).

Scope. Keys, items and entries are arbitrary types.
-/

set_option autoImplicit false

namespace Clyde.Foundation.KeyedFold

open List Option

variable {κ α β γ : Type} [DecidableEq κ]

abbrev Table (κ β : Type) := AList fun _ : κ ↦ β

def absorb (key : α → Option κ) (update : α → Option β → β) (table : Table κ β) (item : α) :
    Table κ β :=
  match key item with
  | none => table
  | some wanted => table.insert wanted (update item (table.lookup wanted))

def ofKey (key : α → Option κ) (wanted : κ) (items : List α) : List α :=
  items.filter fun item ↦ key item = some wanted

variable {table : Table κ β} {wanted : κ}

section

variable {key : α → Option κ} {update : α → Option β → β} {item : α}

theorem lookup_absorb_self (hkey : key item = some wanted) :
    (absorb key update table item).lookup wanted = some (update item (table.lookup wanted)) := by
  rw [absorb, hkey]
  exact AList.lookup_insert table

theorem lookup_absorb_ne (hkey : key item ≠ some wanted) :
    (absorb key update table item).lookup wanted = table.lookup wanted := by
  unfold absorb
  cases hother : key item with
  | none => rfl
  | some =>
    refine AList.lookup_insert_ne fun hsame ↦ ?_
    rw [hother, hsame] at hkey
    exact hkey rfl

theorem lookup_foldl_absorb (items : List α) (table : Table κ β) (wanted : κ) :
    (items.foldl (absorb key update) table).lookup wanted =
      (ofKey key wanted items).foldl (fun entry item ↦ some (update item entry))
        (table.lookup wanted) := by
  induction items generalizing table with
  | nil => rfl
  | cons item _ ih =>
    rw [foldl_cons, ih]
    by_cases hkey : key item = some wanted
    · rw [lookup_absorb_self hkey, ofKey, ofKey,
        filter_cons_of_pos (by simpa using hkey), foldl_cons]
    · rw [lookup_absorb_ne hkey, ofKey, ofKey, filter_cons_of_neg (by simpa using hkey)]

end

theorem ofKey_append (key : α → Option κ) (wanted : κ) (front back : List α) :
    ofKey key wanted (front ++ back) = ofKey key wanted front ++ ofKey key wanted back :=
  filter_append ..

variable (table : Table κ β)

theorem filterMap_entries_of_key (wanted : κ) (value : β → Option γ) :
    (table.entries.filterMap fun cell ↦ if cell.1 = wanted then value cell.2 else none) =
      ((table.lookup wanted).bind value).toList := by
  obtain ⟨entries, hnodup⟩ := table
  change _ = ((entries.dlookup wanted).bind value).toList
  induction entries with
  | nil => rfl
  | cons cell _ ih =>
    obtain ⟨key, entry⟩ := cell
    have hrest := ih (nodupKeys_cons.mp hnodup).2
    by_cases hkey : key = wanted
    · subst hkey
      rw [dlookup_cons_eq, bind_some, filterMap_cons, if_pos rfl, hrest,
        dlookup_eq_none.mpr (nodupKeys_cons.mp hnodup).1]
      cases value entry <;> rfl
    · rw [dlookup_cons_ne _ _ (Ne.symm hkey), filterMap_cons, if_neg hkey, hrest]

/-- The entries that pass a test. -/
def restrict (keep : β → Bool) (table : Table κ β) : Table κ β where
  entries := table.entries.filter fun cell ↦ keep cell.2
  nodupKeys := table.nodupKeys.sublist List.filter_sublist

theorem lookup_restrict (keep : β → Bool) (table : Table κ β) (wanted : κ) :
    (restrict keep table).lookup wanted = (table.lookup wanted).filter keep := by
  refine Option.ext fun entry ↦ ?_
  rw [← mem_def, AList.mem_lookup_iff, filter_eq_some_iff, ← mem_def, AList.mem_lookup_iff]
  exact mem_filter

variable (value : β → Option γ)

variable {δ : Type} {second : Table κ δ} {first : Table κ β}

end Clyde.Foundation.KeyedFold
