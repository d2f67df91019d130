import Clyde.Foundation.KeyedRows
import Mathlib.Order.Basic

/-!
# A directory of files with identities

Names point to files, and a file has an identity and contents. Two names never point to one file,
and a file that is created gets an identity that no name has had. Removing a name leaves the file,
so a handle that was opened before still reads it. The changes are `create`, `write`, `retain` and
`rename`, each with a lemma for `lookup` and one for `contents`; `lookup_injective` keeps changes of
one file apart from another.
-/

set_option autoImplicit false

namespace Clyde.Foundation

/-- Names with the identities of their files, and the contents of files by identity. -/
structure FileSystem (ν α : Type) where
  entries : List (ν × ℕ)
  next : ℕ
  contents : ℕ → List α
  names_nodup : (entries.map Prod.fst).Nodup
  files_nodup : (entries.map Prod.snd).Nodup
  files_lt : ∀ entry ∈ entries, entry.2 < next

namespace FileSystem

variable {ν α : Type}

def empty : FileSystem ν α where
  entries := []
  next := 0
  contents := fun _ ↦ []
  names_nodup := by simp
  files_nodup := by simp
  files_lt := by simp

def write (files : FileSystem ν α) (file : ℕ) (bytes : List α) : FileSystem ν α :=
  { files with contents := Function.update files.contents file bytes }

def retain (files : FileSystem ν α) (kept : ν → Bool) : FileSystem ν α where
  entries := files.entries.filter fun entry ↦ kept entry.1
  next := files.next
  contents := files.contents
  names_nodup := files.names_nodup.sublist (List.filter_sublist.map Prod.fst)
  files_nodup := files.files_nodup.sublist (List.filter_sublist.map Prod.snd)
  files_lt entry hentry := files.files_lt entry (List.mem_of_mem_filter hentry)

variable [DecidableEq ν]

def lookup (files : FileSystem ν α) (name : ν) : Option ℕ :=
  (KeyedRows.lookup Prod.fst files.entries name).map Prod.snd

variable {files : FileSystem ν α} {file : ℕ} {name : ν}

theorem lookup_eq_some_iff : files.lookup name = some file ↔ (name, file) ∈ files.entries := by
  rw [lookup, Option.map_eq_some_iff]
  constructor
  · rintro ⟨_, hentry, rfl⟩
    obtain ⟨hmem, rfl⟩ := (KeyedRows.lookup_eq_some_iff files.names_nodup).mp hentry
    exact hmem
  · intro hmem
    exact ⟨_, (KeyedRows.lookup_eq_some_iff files.names_nodup).mpr ⟨hmem, rfl⟩, rfl⟩

theorem lookup_eq_none_iff : files.lookup name = none ↔ name ∉ files.entries.map Prod.fst := by
  rw [lookup, Option.map_eq_none_iff, KeyedRows.lookup_eq_none_iff]

theorem lookup_injective {first second : ν} (hfirst : files.lookup first = some file)
    (hsecond : files.lookup second = some file) :
    first = second := by
  have hsame := List.inj_on_of_nodup_map files.files_nodup (lookup_eq_some_iff.mp hfirst)
    (lookup_eq_some_iff.mp hsecond) rfl
  exact congrArg Prod.fst hsame

theorem lookup_lt (hlookup : files.lookup name = some file) : file < files.next :=
  files.files_lt _ (lookup_eq_some_iff.mp hlookup)

/-- The file of a name, made empty under a new identity when the name has none. -/
def create (files : FileSystem ν α) (name : ν) : FileSystem ν α :=
  if hnew : files.lookup name = none then
    { entries := (name, files.next) :: files.entries
      next := files.next + 1
      contents := Function.update files.contents files.next []
      names_nodup := by
        rw [List.map_cons, List.nodup_cons]
        exact ⟨lookup_eq_none_iff.mp hnew, files.names_nodup⟩
      files_nodup := by
        rw [List.map_cons, List.nodup_cons]
        refine ⟨fun hmem ↦ ?_, files.files_nodup⟩
        obtain ⟨entry, hentry, hfile⟩ := List.mem_map.mp hmem
        exact absurd (files.files_lt entry hentry) (by rw [hfile]; exact Nat.lt_irrefl _)
      files_lt := by
        intro entry hentry
        rcases List.mem_cons.mp hentry with rfl | hentry
        · exact Nat.lt_succ_self _
        · exact Nat.lt_succ_of_lt (files.files_lt entry hentry) }
  else files

def fileOf (files : FileSystem ν α) (name : ν) : ℕ := (files.lookup name).getD files.next

/-- Gives the file of `source` the name `target`, whose own file loses it. -/
def rename (files : FileSystem ν α) (source target : ν) : FileSystem ν α :=
  match hsource : files.lookup source with
  | none => files
  | some file =>
    { entries := (target, file) ::
        files.entries.filter fun entry ↦ entry.1 ≠ source ∧ entry.1 ≠ target
      next := files.next
      contents := files.contents
      names_nodup := by
        rw [List.map_cons, List.nodup_cons]
        refine ⟨fun hmem ↦ ?_, files.names_nodup.sublist (List.filter_sublist.map Prod.fst)⟩
        obtain ⟨entry, hentry, hname⟩ := List.mem_map.mp hmem
        exact (of_decide_eq_true (List.mem_filter.mp hentry).2).2 hname
      files_nodup := by
        rw [List.map_cons, List.nodup_cons]
        refine ⟨fun hmem ↦ ?_, files.files_nodup.sublist (List.filter_sublist.map Prod.snd)⟩
        obtain ⟨⟨name, other⟩, hentry, rfl⟩ := List.mem_map.mp hmem
        obtain ⟨hentry, hkept⟩ := List.mem_filter.mp hentry
        exact (of_decide_eq_true hkept).1 (lookup_injective (lookup_eq_some_iff.mpr hentry) hsource)
      files_lt := by
        intro entry hentry
        rcases List.mem_cons.mp hentry with rfl | hentry
        · exact lookup_lt hsource
        · exact files.files_lt entry (List.mem_of_mem_filter hentry) }

@[simp] theorem lookup_write (files : FileSystem ν α) (file : ℕ) (bytes : List α) (name : ν) :
    (files.write file bytes).lookup name = files.lookup name :=
  rfl

theorem lookup_retain (files : FileSystem ν α) (kept : ν → Bool) (name : ν) :
    (files.retain kept).lookup name = if kept name then files.lookup name else none := by
  refine Option.ext fun file ↦ ?_
  rw [lookup_eq_some_iff]
  split_ifs with hkept
  · simp [lookup_eq_some_iff, retain, hkept]
  · simp [retain, hkept]

theorem lookup_create_ne {other : ν} (hother : other ≠ name) :
    (files.create name).lookup other = files.lookup other := by
  unfold create
  split_ifs with hnew
  · rw [lookup, KeyedRows.lookup, List.find?_cons_of_neg (by simpa using hother.symm), lookup,
      KeyedRows.lookup]
  · rfl

theorem lookup_create_self (files : FileSystem ν α) (name : ν) :
    (files.create name).lookup name = some (files.fileOf name) := by
  unfold create fileOf
  split_ifs with hnew
  · rw [hnew]
    simp [lookup, KeyedRows.lookup]
  · obtain ⟨_, hfile⟩ := Option.ne_none_iff_exists'.mp hnew
    simp [hfile]

theorem create_of_lookup (hlookup : files.lookup name = some file) : files.create name = files := by
  rw [create, dif_neg (by simp [hlookup])]

theorem lookup_rename {source : ν} (hsource : files.lookup source = some file) (target name : ν) :
    (files.rename source target).lookup name =
      if name = target then some file else if name = source then none else files.lookup name := by
  refine Option.ext fun other ↦ ?_
  rw [lookup_eq_some_iff]
  unfold rename
  split
  next hnone => rw [hnone] at hsource; cases hsource
  next found hfound =>
    obtain rfl : found = file := Option.some.inj (hfound.symm.trans hsource)
    split_ifs with htarget hname
    · simp [htarget, eq_comm]
    · subst hname
      simp [htarget]
    · simp [htarget, hname, lookup_eq_some_iff]

omit [DecidableEq ν] in
theorem write_contents (files : FileSystem ν α) (file : ℕ) :
    files.write file (files.contents file) = files := by
  rw [write, Function.update_eq_self]

omit [DecidableEq ν] in
@[simp] theorem contents_write_self (files : FileSystem ν α) (file : ℕ) (bytes : List α) :
    (files.write file bytes).contents file = bytes :=
  Function.update_self ..

omit [DecidableEq ν] in
theorem contents_write_ne {other : ℕ} (hother : other ≠ file)
    (bytes : List α) : (files.write file bytes).contents other = files.contents other :=
  Function.update_of_ne hother ..

@[simp] theorem contents_rename (files : FileSystem ν α) (source target : ν) :
    (files.rename source target).contents = files.contents := by
  unfold rename
  split <;> rfl

theorem contents_create_of_lt (hfile : file < files.next) (name : ν) :
    (files.create name).contents file = files.contents file := by
  unfold create
  split_ifs with hnew
  · exact Function.update_of_ne (Nat.ne_of_lt hfile) ..
  · rfl

theorem contents_create {other : ν} (hlookup : files.lookup other = some file) (name : ν) :
    (files.create name).contents file = files.contents file :=
  contents_create_of_lt (lookup_lt hlookup) name

theorem contents_create_new (hnew : files.lookup name = none) :
    (files.create name).contents files.next = [] := by
  rw [create, dif_pos hnew]
  exact Function.update_self ..

theorem next_le_create (files : FileSystem ν α) (name : ν) :
    files.next ≤ (files.create name).next := by
  unfold create
  split_ifs with hnew
  · exact Nat.le_succ _
  · exact Nat.le_refl _

@[simp] theorem next_rename (files : FileSystem ν α) (source target : ν) :
    (files.rename source target).next = files.next := by
  unfold rename
  split <;> rfl

end FileSystem

end Clyde.Foundation
