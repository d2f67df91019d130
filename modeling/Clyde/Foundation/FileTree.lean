import Mathlib.Data.List.Basic

/-!
# A directory tree with symbolic links

The entries of a file system at their real paths, and the resolution of a path through symbolic
links as the kernel and `filepath.EvalSymlinks` do it: name by name, with a bound on the number of
links that are followed.

Scope. A tree has finitely many entries, and permissions are left out.
-/

set_option autoImplicit false

namespace Clyde.Foundation.FileTree

/-- A part of a path text between slashes. A slash at the end is a `current` segment. -/
inductive Segment (Name : Type)
  | current
  | up
  | name (name : Name)

inductive Entry (Name : Type)
  | file
  | directory
  | link (absolute : Bool) (target : List (Segment Name))

/-- Entries at their real paths. The parent of an entry is a directory. -/
structure Layout (Name : Type) [DecidableEq Name] where
  nodes : List (List Name × Entry Name)
  root : nodes.lookup [] = some .directory
  parents : ∀ node ∈ nodes, node.1 ≠ [] → nodes.lookup node.1.dropLast = some .directory

/-- The end of a walk: a real path with the number of links that could still be followed, a name
that is not there, or another error. -/
inductive Walk (Name : Type)
  | found (path : List Name) (links : ℕ)
  | missing
  | failed

variable {Name : Type} [DecidableEq Name]

def Layout.entry (tree : Layout Name) (path : List Name) : Option (Entry Name) :=
  tree.nodes.lookup path

def walkWith (tree : Layout Name) (links : ℕ)
    (follow : List Name → List (Segment Name) → Walk Name) :
    List Name → List (Segment Name) → Walk Name
  | path, [] => .found path links
  | path, .current :: rest => walkWith tree links follow path rest
  | path, .up :: rest => walkWith tree links follow path.dropLast rest
  | path, .name name :: rest =>
    match tree.entry (path ++ [name]) with
    | none => .missing
    | some .file => if rest.isEmpty then .found (path ++ [name]) links else .failed
    | some .directory => walkWith tree links follow (path ++ [name]) rest
    | some (.link absolute target) => follow (if absolute then [] else path) (target ++ rest)

def walk (tree : Layout Name) : (links : ℕ) → List Name → List (Segment Name) → Walk Name
  | 0 => walkWith tree 0 fun _ _ ↦ .failed
  | links + 1 => walkWith tree (links + 1) (walk tree links)

def Layout.isDirectory (tree : Layout Name) (path : List Name) : Bool :=
  match tree.entry path with
  | some .directory => true
  | _ => false

def Walk.continue (tree : Layout Name) (rest : List (Segment Name)) : Walk Name → Walk Name
  | .found path links =>
    if rest.isEmpty then .found path links
    else if tree.isDirectory path then walk tree links path rest
    else .failed
  | .missing => .missing
  | .failed => .failed

theorem mem_of_lookup {α β : Type} [BEq α] [LawfulBEq α] {pairs : List (α × β)} {key : α}
    {value : β} (hlookup : pairs.lookup key = some value) : (key, value) ∈ pairs := by
  obtain ⟨front, _, rfl, -⟩ := List.lookup_eq_some_iff.mp hlookup
  exact List.mem_append_right front List.mem_cons_self

variable {path : List Name} (tree : Layout Name)

theorem Layout.isDirectory_iff :
    tree.isDirectory path = true ↔ tree.entry path = some .directory := by
  unfold Layout.isDirectory
  split
  · next hentry => simp [hentry]
  · next hentry => simpa using hentry

theorem Layout.entry_dropLast {entry : Entry Name}
    (hentry : tree.entry path = some entry) (hpath : path ≠ []) :
    tree.entry path.dropLast = some .directory :=
  tree.parents _ (mem_of_lookup hentry) hpath

theorem Layout.directory_dropLast
    (hpath : tree.entry path = some .directory) : tree.entry path.dropLast = some .directory := by
  by_cases hroot : path = []
  · rw [hroot]
    exact tree.root
  · exact tree.entry_dropLast hpath hroot

/-- Walking two parts of a path is walking the second from where the first ends. -/
theorem walkWith_append {tree : Layout Name} {links : ℕ}
    {follow : List Name → List (Segment Name) → Walk Name} {rest : List (Segment Name)}
    (hwalk : walk tree links = walkWith tree links follow)
    (hfollow : ∀ path first, tree.entry path = some .directory →
      follow path (first ++ rest) = (follow path first).continue tree rest)
    (hpath : tree.entry path = some .directory) (first : List (Segment Name)) :
    walkWith tree links follow path (first ++ rest) =
      (walkWith tree links follow path first).continue tree rest := by
  induction first generalizing path with
  | nil =>
    cases rest with
    | nil => rfl
    | cons segment rest =>
      rw [List.nil_append, walkWith.eq_1, Walk.continue, if_neg (by simp),
        if_pos (tree.isDirectory_iff.mpr hpath), hwalk]
  | cons segment first ih =>
    cases segment with
    | current => exact ih hpath
    | up => exact ih (tree.directory_dropLast hpath)
    | name name =>
      rw [List.cons_append, walkWith, walkWith]
      cases hentry : tree.entry (path ++ [name]) with
      | none => rfl
      | some entry =>
        cases entry with
        | file =>
          cases first with
          | cons segment => rfl
          | nil =>
            cases rest with
            | nil => rfl
            | cons segment rest =>
              have hplain : ¬tree.isDirectory (path ++ [name]) = true := by
                rw [tree.isDirectory_iff, hentry]
                simp
              change Walk.failed = (Walk.found (path ++ [name]) links).continue
                tree (segment :: rest)
              rw [Walk.continue, if_neg (by simp), if_neg hplain]
        | directory => exact ih hentry
        | link absolute =>
          dsimp only
          rw [← List.append_assoc, hfollow]
          cases absolute with
          | true => exact tree.root
          | false => exact hpath

theorem walk_append (links : ℕ) (hpath : tree.entry path = some .directory)
    (first rest : List (Segment Name)) :
    walk tree links path (first ++ rest) = (walk tree links path first).continue tree rest := by
  induction links generalizing path first with
  | zero => exact walkWith_append rfl (fun _ _ _ ↦ rfl) hpath first
  | succ _ ih => exact walkWith_append rfl (fun _ first hpath ↦ ih hpath first) hpath first

variable {segments : List (Segment Name)} {real : List Name}

theorem walkWith_add {tree : Layout Name} {links more : ℕ}
    {follow other : List Name → List (Segment Name) → Walk Name}
    (hother : ∀ path segments real left, follow path segments = .found real left →
      other path segments = .found real (left + more))
    {left : ℕ}
    (hfound : walkWith tree links follow path segments = .found real left) :
    walkWith tree (links + more) other path segments = .found real (left + more) := by
  induction segments generalizing path with
  | nil =>
    obtain ⟨rfl, rfl⟩ := Walk.found.inj hfound
    rfl
  | cons segment segments ih =>
    cases segment with
    | current | up => exact ih hfound
    | name name =>
      rw [walkWith] at hfound ⊢
      cases hentry : tree.entry (path ++ [name]) with
      | none => simp [hentry] at hfound
      | some entry =>
        rw [hentry] at hfound
        cases entry with
        | file =>
          cases segments with
          | nil =>
            obtain ⟨rfl, rfl⟩ := Walk.found.inj hfound
            rfl
          | cons => simp at hfound
        | directory => exact ih hfound
        | link => exact hother _ _ _ _ hfound

/-- A path that is found stays found when more links may be followed. -/
theorem walk_add (links more : ℕ) {left : ℕ}
    (hfound : walk tree links path segments = .found real left) :
    walk tree (links + more) path segments = .found real (left + more) := by
  induction links generalizing path segments real left with
  | zero =>
    have hfail : ∀ (other : List Name → List (Segment Name) → Walk Name) path segments real left,
        (fun _ _ ↦ Walk.failed : List Name → List (Segment Name) → Walk Name) path segments =
          .found real left → other path segments = .found real (left + more) :=
      fun _ _ _ _ _ hsame ↦ by simp at hsame
    cases more with
    | zero => exact hfound
    | succ => exact walkWith_add (hfail _) hfound
  | succ _ ih =>
    rw [Nat.add_right_comm]
    rw [walk] at hfound ⊢
    rw [Nat.add_right_comm]
    exact walkWith_add (fun _ _ _ _ hsame ↦ ih hsame) hfound

end Clyde.Foundation.FileTree
