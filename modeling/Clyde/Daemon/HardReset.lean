import Mathlib.Data.List.Induction
import Clyde.Foundation.FileTree

/-!
# Protected data in a hard reset

`internal/daemon/hard_reset.go`: before a target is removed, `validateResetTarget` checks that it
lies below its root, that no symbolic link stands between the two, and that it is not protected.
`os.Remove` and `os.RemoveAll` then follow the links of the directory that holds the target and no
other.

The check compares the target with every protected path, but not the other way round: a protected
path below a target that is removed with its whole tree is not found.

Scope. A path is the list of its names from the root, or `none` when it is not absolute. No
protected directory starts with a tilde. Without a home directory every target is refused.
-/

set_option autoImplicit false

namespace Clyde.Daemon.HardReset

open Foundation.FileTree List Option

/-! ### The code -/

/-- What a path text starts at: the root, the working directory, or the home directory. -/
inductive Origin
  | root
  | working
  | home

structure PathText (Name : Type) where
  origin : Origin
  segments : List (Segment Name)

structure Process (Name : Type) where
  working : List Name
  home : List Name

/-- The settings and environment values that name protected files. An empty one is `none`. -/
structure ResetConfig (Name : Type) where
  globalConfigPath : PathText Name
  caCertPath : Option (PathText Name)
  caKeyPath : Option (PathText Name)
  anthropicAPIKeyFile : Option (PathText Name)
  openAIAPIKeyFile : Option (PathText Name)
  codexAuthFile : Option (PathText Name)
  cliLogPath : Option (PathText Name)
  daemonLogPath : Option (PathText Name)
  cliProcessPath : Option (PathText Name)
  daemonProcessPath : Option (PathText Name)
  logPath : Option (PathText Name)
  codexLogPath : Option (PathText Name)
  anthropicLogPath : Option (PathText Name)
  instructionsFiles : List (Option (PathText Name))
  sinkOverrides : List (Option (PathText Name))

/-- The directories of other programs, of which some can fail to be found, and of Clyde itself. -/
structure ResetRoots (Name : Type) where
  codex : Option (PathText Name × PathText Name)
  cursor : Option (List (PathText Name))
  zed : Option (List (PathText Name))
  home : Option (PathText Name × PathText Name)
  cliConcernRoot : PathText Name
  daemonConcernRoot : PathText Name
  exports : PathText Name

structure ResetTarget (Name : Type) where
  path : Option (List Name)
  root : Option (List Name)
  removeTree : Bool
  allowProtected : Bool

inductive ResetError (Name : Type)
  | outside
  | inspect (path : List Name)
  | refused (path : List Name)
  | resolve
  | protectedConfiguration
  | protectedRoots
  | protectedDirectory (root : PathText Name)

section

variable {Name : Type} [DecidableEq Name]

/-- The names that segments lead to without links, as `filepath.Clean` takes them. -/
def cleanFrom (base : List Name) (segments : List (Segment Name)) : List Name :=
  segments.foldl (fun names segment ↦
    match segment with
    | .current => names
    | .up => names.dropLast
    | .name name => names ++ [name]) base

/-- `filepath.Abs` after `homedir.Expand`. -/
def Process.absolute (process : Process Name) (path : PathText Name) : List Name :=
  cleanFrom (match path.origin with
    | .root => []
    | .working => process.working
    | .home => process.home) path.segments

/-- `filepath.Join` of the directory of a path and another path. -/
def PathText.beside (path other : PathText Name) : PathText Name :=
  { path with segments := path.segments ++ [.up] ++ other.segments }

/-- The path of an instructions file: a relative one is beside the configuration. -/
def instructionsPath (globalConfigPath : PathText Name) (path : PathText Name) : PathText Name :=
  match path.origin with
  | .working => globalConfigPath.beside path
  | _ => path

def resetProtectedFiles (cfg : ResetConfig Name) : List (Option (PathText Name)) :=
  [some cfg.globalConfigPath, cfg.caCertPath, cfg.caKeyPath, cfg.anthropicAPIKeyFile,
    cfg.openAIAPIKeyFile, cfg.codexAuthFile, cfg.cliLogPath, cfg.daemonLogPath, cfg.cliProcessPath,
    cfg.daemonProcessPath, cfg.logPath, cfg.codexLogPath, cfg.anthropicLogPath] ++
    cfg.instructionsFiles.map (Option.map (instructionsPath cfg.globalConfigPath)) ++
      cfg.sinkOverrides

def resetProtectedDirectories (roots : ResetRoots Name) : Option (List (PathText Name)) := do
  let codex ← roots.codex
  let cursor ← roots.cursor
  let zed ← roots.zed
  let home ← roots.home
  return [codex.1, codex.2, home.1, home.2, roots.cliConcernRoot, roots.daemonConcernRoot,
    roots.exports] ++ cursor ++ zed

/-- `withinResetRoot` of absolute paths. -/
def below (path root : List Name) : Bool := root.isPrefixOf path && root.length < path.length

/-- The number of links that `filepath.EvalSymlinks` follows in one path. -/
def evalLinks : ℕ := 255

/-- A tree with the number of links that the kernel follows in one path, which differs between
systems. -/
structure FileSystem (Name : Type) [DecidableEq Name] extends Layout Name where
  kernelLinks : ℕ
  kernelLinks_le : kernelLinks ≤ evalLinks

instance : CoeOut (FileSystem Name) (Layout Name) := ⟨FileSystem.toLayout⟩

def plain (names : List Name) : List (Segment Name) := names.map .name

inductive Stat (Name : Type)
  | absent
  | failed
  | found (entry : Entry Name)

section

variable (tree : FileSystem Name) (process : Process Name) (cfg : ResetConfig Name)
  (roots : ResetRoots Name) (target : ResetTarget Name)

/-- Where the kernel finds the last name of a path. The links before it are followed. -/
def lastLocation (before : List Name) (last : Name) : Walk Name :=
  match walk tree tree.kernelLinks [] (plain before) with
  | .found parent links =>
    if tree.isDirectory parent then .found (parent ++ [last]) links else .failed
  | other => other

def lstat (before : List Name) (last : Name) : Stat Name :=
  match lastLocation tree before last with
  | .missing => .absent
  | .failed => .failed
  | .found path _ =>
    match tree.entry path with
    | none => .absent
    | some entry => .found entry

/-- Whether an entry on the way to a target, or the target itself, is refused. -/
def refuses (removeTree isTarget : Bool) : Entry Name → Bool
  | .link _ _ => true
  | .directory => isTarget && !removeTree
  | .file => false

/-- The loop over a target and the directories up to its root. The names after the root are
reversed. -/
def inspectTarget (root : List Name) (removeTree : Bool) :
    (isTarget : Bool) → List Name → Except (ResetError Name) Unit
  | _, [] => .ok ()
  | isTarget, last :: before =>
    match lstat tree (root ++ before.reverse) last with
    | .absent => inspectTarget root removeTree false before
    | .failed => .error (.inspect (root ++ (last :: before).reverse))
    | .found entry =>
      if refuses removeTree isTarget entry then .error (.refused (root ++ (last :: before).reverse))
      else inspectTarget root removeTree false before

/-- `resolvedResetPath` on reversed names: names that are not there are kept. -/
def resolvedReversed : List Name → Option (List Name)
  | [] => some []
  | last :: before =>
    match walk tree evalLinks [] (plain (last :: before).reverse) with
    | .found real _ => some real
    | .failed => none
    | .missing => (resolvedReversed before).map (· ++ [last])

def resolvedResetPath (path : List Name) : Option (List Name) :=
  resolvedReversed tree path.reverse

def checkFiles (target : List Name) : List (Option (PathText Name)) → Except (ResetError Name) Unit
  | [] => .ok ()
  | none :: rest => checkFiles target rest
  | some path :: rest =>
    match resolvedResetPath tree (process.absolute path) with
    | none => .error .resolve
    | some real =>
      if real = target then .error .protectedConfiguration else checkFiles target rest

def checkDirectories (target : List Name) : List (PathText Name) → Except (ResetError Name) Unit
  | [] => .ok ()
  | root :: rest =>
    match resolvedResetPath tree (process.absolute root) with
    | none => .error .resolve
    | some real =>
      if below target real || target = real then .error (.protectedDirectory root)
      else checkDirectories target rest

def validateResetTarget : Except (ResetError Name) Unit :=
  match target.path, target.root with
  | some path, some root =>
    if ¬below path root then .error .outside
    else
      match inspectTarget tree root target.removeTree true (path.drop root.length).reverse with
      | .error failure => .error failure
      | .ok _ =>
        match resolvedResetPath tree path with
        | none => .error .resolve
        | some resolved =>
          if target.allowProtected then .ok ()
          else
            match checkFiles tree process resolved (resetProtectedFiles cfg) with
            | .error failure => .error failure
            | .ok _ =>
              match resetProtectedDirectories roots with
              | none => .error .protectedRoots
              | some directories => checkDirectories tree process resolved directories
  | _, _ => .error .outside

/-- Where `os.Remove` and `os.RemoveAll` remove. -/
def removeLocation (path : List Name) : Option (List Name) :=
  match path.reverse with
  | [] => none
  | last :: before =>
    match lastLocation tree before.reverse last with
    | .found location _ => some location
    | _ => none

/-- An entry that is removed with a target: the target, or everything in its tree. -/
def Removed (path : List Name) : Prop :=
  (tree.entry path).isSome ∧ ∃ names location, target.path = some names ∧
    removeLocation tree names = some location ∧
    (path = location ∨ target.removeTree = true ∧ below path location = true)

/-! ### What a removal keeps -/

/-- What a configured path names: the file itself, and the entry at the path, which may be a link
to it. -/
def ProtectedFile (file : List Name) : Prop :=
  ∃ path, some path ∈ resetProtectedFiles cfg ∧
    (resolvedResetPath tree (process.absolute path) = some file ∨
      removeLocation tree (process.absolute path) = some file)

def ProtectedDirectory (real : List Name) : Prop :=
  ∃ directories root, resetProtectedDirectories roots = some directories ∧ root ∈ directories ∧
    resolvedResetPath tree (process.absolute root) = some real

/-- No protected file is removed, nothing inside a protected directory and nothing outside the
target's root. -/
structure ResetSafe : Prop where
  files : ∀ path, Removed tree target path → ¬ProtectedFile tree process cfg path
  directories : ∀ path, Removed tree target path → ∀ real,
    ProtectedDirectory tree process roots real → below path real = false
  root : ∀ path, Removed tree target path → ∃ root real left, target.root = some root ∧
    walk tree evalLinks [] (plain root) = .found real left ∧ below path real = true

/-- A target that is removed with its tree has no protected file below it, and no protected
directory with entries. -/
def NothingProtectedBelow : Prop :=
  target.removeTree = true → ∀ names location, target.path = some names →
    removeLocation tree names = some location →
    (∀ real, ProtectedFile tree process cfg real → below real location = true →
      tree.entry real = none) ∧
    ∀ real, ProtectedDirectory tree process roots real → below real location = true →
      ∀ inside, below inside real = true → tree.entry inside = none

end

/-! ### Paths -/

variable {root path : List Name}

theorem below_iff : below path root = true ↔ ∃ rest, rest ≠ [] ∧ path = root ++ rest := by
  rw [below, Bool.and_eq_true, isPrefixOf_iff_prefix, decide_eq_true_eq]
  constructor
  · rintro ⟨⟨rest, rfl⟩, hlength⟩
    refine ⟨rest, ?_, rfl⟩
    rintro rfl
    simp at hlength
  · rintro ⟨rest, hrest, rfl⟩
    have hpos := length_pos_of_ne_nil hrest
    exact ⟨prefix_append root rest, by rw [length_append]; omega⟩

theorem below_trans {middle : List Name} (hpath : below path middle = true)
    (hmiddle : below middle root = true) : below path root = true := by
  obtain ⟨rest, hrest, rfl⟩ := below_iff.mp hpath
  obtain ⟨more, _, rfl⟩ := below_iff.mp hmiddle
  exact below_iff.mpr ⟨more ++ rest, append_ne_nil_of_right_ne_nil _ hrest, append_assoc _ _ _⟩

theorem below_cases {first second : List Name} (hfirst : below path first = true)
    (hsecond : below path second = true) :
    first = second ∨ below first second = true ∨ below second first = true := by
  obtain ⟨_, _, rfl⟩ := below_iff.mp hfirst
  obtain ⟨_, _, hsame⟩ := below_iff.mp hsecond
  rcases append_eq_append_iff.mp hsame with ⟨between, hbetween, _⟩ | ⟨between, hbetween, _⟩
  · by_cases hnil : between = []
    · exact .inl (by rw [hbetween, hnil, append_nil])
    · exact .inr (.inr (below_iff.mpr ⟨between, hnil, hbetween⟩))
  · by_cases hnil : between = []
    · exact .inl (by rw [hbetween, hnil, append_nil])
    · exact .inr (.inl (below_iff.mpr ⟨between, hnil, hbetween⟩))

variable {tree : FileSystem Name} {left : ℕ} {real : List Name}

theorem eval_of_kernel {segments : List (Segment Name)}
    (hfound : walk tree tree.kernelLinks [] segments = .found real left) :
    walk tree evalLinks [] segments = .found real (left + (evalLinks - tree.kernelLinks)) := by
  have hwalk := walk_add tree.toLayout tree.kernelLinks (evalLinks - tree.kernelLinks) hfound
  rwa [Nat.add_sub_cancel' tree.kernelLinks_le] at hwalk

theorem walk_plain_append (tree : FileSystem Name) (links : ℕ) (first rest : List Name) :
    walk tree links [] (plain (first ++ rest)) =
      (walk tree links [] (plain first)).continue tree (plain rest) := by
  rw [plain, map_append]
  exact walk_append tree.toLayout links tree.root _ _

theorem continue_eq_found {walked : Walk Name} {last : Name}
    (hfound : walked.continue tree (plain [last]) = .found real left) :
    ∃ parent links, walked = .found parent links ∧ tree.isDirectory parent = true ∧
      walk tree links parent (plain [last]) = .found real left := by
  cases walked with
  | missing | failed => simp [Walk.continue] at hfound
  | found parent links =>
    rw [Walk.continue, if_neg (by simp [plain])] at hfound
    split_ifs at hfound with hdirectory
    exact ⟨parent, links, rfl, hdirectory, hfound⟩

theorem walk_plain_singleton (tree : FileSystem Name) (links : ℕ) (parent : List Name) (last : Name)
    (hlink : ∀ absolute target, tree.entry (parent ++ [last]) ≠ some (.link absolute target)) :
    tree.entry (parent ++ [last]) = none ∧ walk tree links parent (plain [last]) = .missing ∨
      walk tree links parent (plain [last]) = .found (parent ++ [last]) links := by
  have hwalk (follow : List Name → List (Segment Name) → Walk Name) :
      tree.entry (parent ++ [last]) = none ∧
      walkWith tree links follow parent (plain [last]) = .missing ∨
        walkWith tree links follow parent (plain [last]) = .found (parent ++ [last]) links := by
    rw [plain, map_singleton, walkWith]
    cases hentry : tree.entry (parent ++ [last]) with
    | none => exact .inl ⟨rfl, rfl⟩
    | some entry =>
      cases entry with
      | file | directory => exact .inr rfl
      | link absolute target => exact absurd hentry (hlink absolute target)
  cases links with
  | zero | succ => exact hwalk _

section

variable {before : List Name} {last : Name} {location : List Name} {left : ℕ}
  (hfound : lastLocation tree before last = .found location left)
include hfound

theorem lastLocation_eq_found :
    ∃ parent, walk tree tree.kernelLinks [] (plain before) = .found parent left ∧
      tree.isDirectory parent = true ∧ location = parent ++ [last] := by
  unfold lastLocation at hfound
  cases hwalk : walk tree tree.kernelLinks [] (plain before) with
  | missing | failed => simp [hwalk] at hfound
  | found parent =>
    simp only [hwalk] at hfound
    split_ifs at hfound with hdirectory
    obtain ⟨rfl, rfl⟩ := Walk.found.inj hfound
    exact ⟨parent, rfl, hdirectory, rfl⟩

/-- The kernel finds the entry at which a path ends. -/
theorem lstat_of_lastLocation {entry : Entry Name} (hentry : tree.entry location = some entry) :
    lstat tree before last = .found entry := by
  simp [lstat, hfound, hentry]

end

/-- What is removed is found by resolving all names but the last, which is not followed. -/
theorem removeLocation_eq_some {names location : List Name}
    (hlocation : removeLocation tree names = some location) :
    ∃ before last left, names = before ++ [last] ∧
      lastLocation tree before last = .found location left := by
  unfold removeLocation at hlocation
  cases hnames : names.reverse with
  | nil => simp [hnames] at hlocation
  | cons last before =>
    simp only [hnames] at hlocation
    cases hfound : lastLocation tree before.reverse last with
    | missing | failed => simp [hfound] at hlocation
    | found _ left =>
      simp only [hfound, Option.some.injEq] at hlocation
      exact ⟨before.reverse, last, left,
        by rw [← reverse_reverse names, hnames, reverse_cons], hlocation ▸ hfound⟩

/-! ### The path that is removed -/

theorem resolvedReversed_of_found {before parent : List Name} {left : ℕ}
    (hfound : walk tree evalLinks [] (plain before.reverse) = .found parent left) :
    resolvedReversed tree before = some parent := by
  cases before with
  | nil =>
    obtain ⟨rfl, _⟩ := Walk.found.inj hfound
    rfl
  | cons => rw [resolvedReversed, hfound]

/-- A path whose entry is no link resolves to the place of that entry. -/
theorem resolvedResetPath_of_removeLocation {names location : List Name}
    (hlocation : removeLocation tree names = some location)
    (hlink : ∀ absolute target, tree.entry location ≠ some (.link absolute target)) :
    resolvedResetPath tree names = some location := by
  obtain ⟨before, last, left, rfl, hfound⟩ := removeLocation_eq_some hlocation
  obtain ⟨parent, hparent, hdirectory, rfl⟩ := lastLocation_eq_found hfound
  have heval := eval_of_kernel hparent
  have hwalk : walk tree evalLinks [] (plain (before ++ [last])) =
      walk tree (left + (evalLinks - tree.kernelLinks)) parent (plain [last]) := by
    rw [walk_plain_append, heval, Walk.continue, if_neg (by simp [plain]), if_pos hdirectory]
  rw [resolvedResetPath, reverse_append, reverse_singleton, singleton_append,
    resolvedReversed, reverse_cons, reverse_reverse, hwalk]
  rcases walk_plain_singleton tree _ parent last hlink with ⟨_, hmissing⟩ | harrives
  · rw [hmissing]
    rw [@resolvedReversed_of_found _ _ tree _ parent _ (by rwa [reverse_reverse])]
    rfl
  · rw [harrives]

def NoLinks (tree : FileSystem Name) (root names : List Name) : Prop :=
  ∀ before last after, names = before ++ last :: after → ∀ absolute target,
    lstat tree (root ++ before) last ≠ .found (.link absolute target)

/-- A target that passes the inspection has no link on the way from its root. -/
theorem noLinks_of_inspectTarget {removeTree isTarget : Bool} {reversed : List Name}
    (hok : inspectTarget tree root removeTree isTarget reversed = .ok ()) :
    NoLinks tree root reversed.reverse := by
  induction reversed generalizing isTarget with
  | nil =>
    intro before last after hnames
    simp at hnames
  | cons last before ih =>
    have hrest : (∃ isTarget, inspectTarget tree root removeTree isTarget before = .ok ()) ∧
        ∀ absolute target, lstat tree (root ++ before.reverse) last ≠
          .found (.link absolute target) := by
      rw [inspectTarget] at hok
      cases hstat : lstat tree (root ++ before.reverse) last with
      | absent =>
        rw [hstat] at hok
        exact ⟨⟨false, hok⟩, by simp⟩
      | failed => simp [hstat] at hok
      | found =>
        simp only [hstat] at hok
        split_ifs at hok with hrefused
        refine ⟨⟨false, hok⟩, fun absolute target hlink ↦ ?_⟩
        rw [Stat.found.inj hlink] at hrefused
        exact hrefused rfl
    obtain ⟨⟨_, hbefore⟩, hlast⟩ := hrest
    intro front name after hnames absolute target
    rw [reverse_cons] at hnames
    cases after using List.reverseRecOn with
    | nil =>
      obtain ⟨rfl, hname⟩ := append_inj' hnames rfl
      rw [← List.cons.inj hname |>.1]
      exact hlast absolute target
    | append_singleton after =>
      rw [← cons_append, ← append_assoc] at hnames
      exact ih hbefore front name after (append_inj' hnames rfl).1 absolute target

/-- Without links below the root, a path resolves to the same names below the resolved root. -/
theorem walk_of_noLinks {links : ℕ}
    (hroot : walk tree tree.kernelLinks [] (plain root) = .found real links) (names : List Name)
    (hlinks : NoLinks tree root names) {parent : List Name}
    (hparent : walk tree tree.kernelLinks [] (plain (root ++ names)) = .found parent left) :
    parent = real ++ names := by
  induction names using List.reverseRecOn generalizing parent left with
  | nil =>
    rw [append_nil, hroot] at hparent
    rw [append_nil, (Walk.found.inj hparent).1]
  | append_singleton names last ih =>
    rw [← append_assoc, walk_plain_append] at hparent
    obtain ⟨middle, middleLinks, hmiddle, hdirectory, hlast⟩ := continue_eq_found hparent
    have hsame := ih (fun before name after hnames ↦
      hlinks before name _ (by rw [hnames, append_assoc, cons_append])) hmiddle
    have hlocation : lastLocation tree (root ++ names) last =
        .found (middle ++ [last]) middleLinks := by
      simp [lastLocation, hmiddle, hdirectory]
    have hlink : ∀ absolute target, tree.entry (middle ++ [last]) ≠ some (.link absolute target) :=
      fun absolute target hentry ↦
        hlinks names last [] rfl absolute target (lstat_of_lastLocation hlocation hentry)
    rcases walk_plain_singleton tree middleLinks middle last hlink with ⟨_, hmissing⟩ | harrives
    · simp [hmissing] at hlast
    · rw [harrives] at hlast
      rw [← (Walk.found.inj hlast).1, hsame, append_assoc]

/-! ### Accepted targets -/

section

variable {tree : FileSystem Name} {process : Process Name} {cfg : ResetConfig Name}
  {roots : ResetRoots Name} {target : List Name}

/-- A target that passes the check of the files resolves to none of them. -/
theorem checkFiles_eq_ok {paths : List (Option (PathText Name))}
    (hok : checkFiles tree process target paths = .ok ()) :
    ∀ path, some path ∈ paths → ∀ real, resolvedResetPath tree (process.absolute path) = some real →
      real ≠ target := by
  induction paths with
  | nil => simp
  | cons first _ ih =>
    intro path hpath real hreal
    cases first with
    | none =>
      rcases mem_cons.mp hpath with hfirst | hpath
      · simp at hfirst
      · exact ih hok path hpath real hreal
    | some other =>
      rw [checkFiles] at hok
      cases hother : resolvedResetPath tree (process.absolute other) with
      | none => simp [hother] at hok
      | some =>
        simp only [hother] at hok
        split_ifs at hok with hsame
        rcases mem_cons.mp hpath with hfirst | hpath
        · rw [some.inj hfirst, hother, Option.some.injEq] at hreal
          exact hreal ▸ hsame
        · exact ih hok path hpath real hreal

/-- A target that passes the check of the directories is neither one of them nor below one. -/
theorem checkDirectories_eq_ok {roots : List (PathText Name)}
    (hok : checkDirectories tree process target roots = .ok ()) :
    ∀ root ∈ roots, ∀ real, resolvedResetPath tree (process.absolute root) = some real →
      below target real = false ∧ target ≠ real := by
  induction roots with
  | nil => simp
  | cons first _ ih =>
    intro root hroot real hreal
    rw [checkDirectories] at hok
    cases hfirst : resolvedResetPath tree (process.absolute first) with
    | none => simp [hfirst] at hok
    | some =>
      simp only [hfirst] at hok
      split_ifs at hok with hsame
      rcases mem_cons.mp hroot with rfl | hroot
      · rw [hfirst, Option.some.injEq] at hreal
        rw [hreal] at hsame
        simpa using hsame
      · exact ih hok root hroot real hreal

/-- What an accepted target that may not overlap protected data has passed. -/
structure Accepted (tree : FileSystem Name) (process : Process Name) (cfg : ResetConfig Name)
    (roots : ResetRoots Name) (root names : List Name) : Prop where
  names_ne_nil : names ≠ []
  links : NoLinks tree root names
  resolved : ∃ resolved, resolvedResetPath tree (root ++ names) = some resolved ∧
    (∀ path, some path ∈ resetProtectedFiles cfg →
      ∀ real, resolvedResetPath tree (process.absolute path) = some real → real ≠ resolved) ∧
    ∀ real, ProtectedDirectory tree process roots real →
    below resolved real = false ∧ resolved ≠ real

/-- What validation has established of a target it accepts. -/
theorem accepted_of_validateResetTarget {target : ResetTarget Name}
    (haccepted : validateResetTarget tree process cfg roots target = .ok ())
    (hprotected : target.allowProtected = false) :
    ∃ root names, target.root = some root ∧ target.path = some (root ++ names) ∧
      Accepted tree process cfg roots root names := by
  unfold validateResetTarget at haccepted
  cases hpath : target.path with
  | none => simp [hpath] at haccepted
  | some path =>
    cases hroot : target.root with
    | none => simp [hpath, hroot] at haccepted
    | some root =>
      simp only [hpath, hroot] at haccepted
      by_cases hbelow : below path root = true
      · rw [if_neg (not_not.mpr hbelow)] at haccepted
        obtain ⟨names, hnames, rfl⟩ := below_iff.mp hbelow
        rw [drop_left] at haccepted
        cases hinspect : inspectTarget tree root target.removeTree true names.reverse with
        | error failure => simp [hinspect] at haccepted
        | ok =>
          have hlinks := noLinks_of_inspectTarget hinspect
          rw [reverse_reverse] at hlinks
          cases hresolved : resolvedResetPath tree (root ++ names) with
          | none => simp [hinspect, hresolved] at haccepted
          | some resolved =>
            simp only [hinspect, hresolved, hprotected, Bool.false_eq_true, if_false] at haccepted
            cases hfiles : checkFiles tree process resolved (resetProtectedFiles cfg) with
            | error => simp [hfiles] at haccepted
            | ok =>
              cases hdirectories : resetProtectedDirectories roots with
              | none => simp [hfiles, hdirectories] at haccepted
              | some =>
                simp only [hfiles, hdirectories] at haccepted
                refine ⟨root, names, rfl, rfl, hnames, hlinks, resolved, hresolved,
                  checkFiles_eq_ok hfiles, ?_⟩
                rintro real ⟨_, directory, hothers, hdirectory, hreal⟩
                rw [hdirectories, Option.some.injEq] at hothers
                exact checkDirectories_eq_ok haccepted directory (hothers ▸ hdirectory) real hreal
      · rw [if_pos hbelow] at haccepted
        simp at haccepted

variable {root names location : List Name} (haccepted : Accepted tree process cfg roots root names)
  (hlocation : removeLocation tree (root ++ names) = some location)

include haccepted hlocation

theorem Accepted.lastLocation :
    ∃ middle last left, names = middle ++ [last] ∧
      HardReset.lastLocation tree (root ++ middle) last = .found location left ∧
      ∀ absolute target, tree.entry location ≠ some (.link absolute target) := by
  obtain ⟨middle, last, rfl⟩ : ∃ middle last, names = middle ++ [last] :=
    ⟨_, _, (dropLast_append_getLast haccepted.names_ne_nil).symm⟩
  obtain ⟨before, last', left, hnames, hfound⟩ := removeLocation_eq_some hlocation
  rw [← append_assoc] at hnames
  obtain ⟨rfl, hlast⟩ := append_inj' hnames rfl
  obtain rfl := singleton_inj.mp hlast
  refine ⟨middle, last, left, rfl, hfound, fun absolute target hentry ↦ ?_⟩
  exact haccepted.links middle last [] rfl absolute target (lstat_of_lastLocation hfound hentry)

/-- An accepted target is no link, so a configured path that has the target as its entry resolves
to it and would have been found. -/
theorem Accepted.resolved_eq :
    (∀ file, ProtectedFile tree process cfg file → file ≠ location) ∧
      ∀ real, ProtectedDirectory tree process roots real →
      below location real = false ∧ location ≠ real := by
  obtain ⟨_, _, _, -, -, hlink⟩ := haccepted.lastLocation hlocation
  obtain ⟨resolved, hresolved, hfiles, hdirectories⟩ := haccepted.resolved
  rw [resolvedResetPath_of_removeLocation hlocation hlink, Option.some.injEq] at hresolved
  subst hresolved
  refine ⟨?_, hdirectories⟩
  rintro file ⟨path, hpath, hreal | hentry⟩ rfl
  · exact hfiles path hpath file hreal rfl
  · exact hfiles path hpath file (resolvedResetPath_of_removeLocation hentry hlink) rfl

/-- The location that is removed lies below the resolved root. -/
theorem Accepted.below_root :
    ∃ real left, walk tree evalLinks [] (plain root) = .found real left ∧
      below location real = true := by
  obtain ⟨middle, last, _, rfl, hfound, -⟩ := haccepted.lastLocation hlocation
  obtain ⟨_, hparent, -, rfl⟩ := lastLocation_eq_found hfound
  have hlinks : NoLinks tree root middle := fun before name after hnames ↦
    haccepted.links before name _ (by rw [hnames, append_assoc, cons_append])
  have hcut := hparent
  rw [walk_plain_append] at hcut
  cases hroot : walk tree tree.kernelLinks [] (plain root) with
  | missing | failed => simp [hroot, Walk.continue] at hcut
  | found real links =>
    refine ⟨real, _, eval_of_kernel hroot, below_iff.mpr ⟨middle ++ [last], by simp, ?_⟩⟩
    rw [walk_of_noLinks hroot middle hlinks hparent, append_assoc]

end

/-! ### The removal of an accepted target -/

/-- An accepted target is removed safely exactly if nothing protected stands below it in the tree
that goes with it. Assumes: the target is accepted and is not marked as allowed to overlap protected
data. -/
theorem reset_safe_iff (tree : FileSystem Name) (process : Process Name) (cfg : ResetConfig Name)
    (roots : ResetRoots Name) (target : ResetTarget Name)
    (haccepted : validateResetTarget tree process cfg roots target = .ok ())
    (hprotected : target.allowProtected = false) :
    ResetSafe tree process cfg roots target ↔
      NothingProtectedBelow tree process cfg roots target := by
  obtain ⟨root, names, hroot, hpath, haccepted⟩ :=
    accepted_of_validateResetTarget haccepted hprotected
  constructor
  · intro hsafe htree paths location hpaths hlocation
    constructor
    · intro real hfile hbelow
      by_contra hentry
      refine hsafe.files real ⟨isSome_iff_ne_none.mpr hentry, paths, location, hpaths, hlocation,
        .inr ⟨htree, hbelow⟩⟩ hfile
    intro real hdirectory hbelow inside hinside
    by_contra hentry
    have hkept := hsafe.directories inside ⟨isSome_iff_ne_none.mpr hentry, paths, location, hpaths,
      hlocation, .inr ⟨htree, below_trans hinside hbelow⟩⟩ real hdirectory
    rw [hinside] at hkept
    exact Bool.noConfusion hkept
  intro hnothing
  refine ⟨?_, ?_, ?_⟩
  · rintro path ⟨hentry, paths, location, hpaths, hlocation, hremoved⟩ hfile
    obtain rfl : root ++ names = paths := some.inj (hpath ▸ hpaths)
    rcases hremoved with rfl | ⟨htree, hbelow⟩
    · exact (haccepted.resolved_eq hlocation).1 path hfile rfl
    · rw [(hnothing htree _ location hpath hlocation).1 path hfile hbelow] at hentry
      exact Bool.noConfusion hentry
  · rintro path ⟨hentry, paths, location, hpaths, hlocation, hremoved⟩ real hdirectory
    obtain rfl : root ++ names = paths := some.inj (hpath ▸ hpaths)
    obtain ⟨hapart, hdifferent⟩ := (haccepted.resolved_eq hlocation).2 real hdirectory
    rcases hremoved with rfl | ⟨htree, hbelow⟩
    · exact hapart
    · -- The directory and the target are both above the entry, so one of them is above the other.
      by_contra hinside
      rw [Bool.not_eq_false] at hinside
      rcases below_cases hbelow hinside with hsame | habove | hunder
      · exact hdifferent hsame
      · rw [hapart] at habove
        exact Bool.noConfusion habove
      · rw [(hnothing htree _ location hpath hlocation).2 real hdirectory hunder
          path hinside] at hentry
        exact Bool.noConfusion hentry
  rintro _ ⟨-, paths, _, hpaths, hlocation, hremoved⟩
  obtain rfl : root ++ names = paths := some.inj (hpath ▸ hpaths)
  obtain ⟨real, left, hreal, hbelow⟩ := haccepted.below_root hlocation
  refine ⟨root, real, left, hroot, hreal, ?_⟩
  rcases hremoved with rfl | ⟨-, hinside⟩
  · exact hbelow
  · exact below_trans hinside hbelow

end

/-! ### A model's instructions in the hook directory -/

inductive SampleName
  | home
  | config
  | state
  | hooks
  | instructions
  | other
  deriving DecidableEq

open SampleName

def sampleTree : FileSystem SampleName where
  nodes := [([], .directory), ([home], .directory), ([config], .file), ([state], .directory),
    ([state, hooks], .directory), ([state, hooks, instructions], .file), ([state, other], .file)]
  root := rfl
  parents := by
    intro node hnode
    simp only [List.mem_cons, List.not_mem_nil, or_false] at hnode
    rcases hnode with rfl | rfl | rfl | rfl | rfl | rfl | rfl <;> exact fun _ ↦ rfl
  kernelLinks := 40
  kernelLinks_le := by decide

def samplePath (names : List SampleName) : PathText SampleName := ⟨.root, plain names⟩

def sampleProcess : Process SampleName := ⟨[home], [home]⟩

/-- One model has its instructions at the path. -/
def sampleConfig (instructions : List SampleName) : ResetConfig SampleName where
  globalConfigPath := samplePath [config]
  caCertPath := none
  caKeyPath := none
  anthropicAPIKeyFile := none
  openAIAPIKeyFile := none
  codexAuthFile := none
  cliLogPath := none
  daemonLogPath := none
  cliProcessPath := none
  daemonProcessPath := none
  logPath := none
  codexLogPath := none
  anthropicLogPath := none
  instructionsFiles := [some (samplePath instructions)]
  sinkOverrides := []

def sampleRoots : ResetRoots SampleName where
  codex := some (samplePath [home, other], samplePath [home, other])
  cursor := some []
  zed := some []
  home := some (samplePath [home, other], samplePath [home, other])
  cliConcernRoot := samplePath [home, other]
  daemonConcernRoot := samplePath [home, other]
  exports := samplePath [home, other]

def sampleHooks : ResetTarget SampleName := ⟨some [state, hooks], some [state], true, false⟩

/-- With the instructions elsewhere, the hook directory and the file in it are removed, and nothing
that is protected. -/
theorem reset_safe_sample :
    Removed sampleTree sampleHooks [state, hooks, instructions] ∧
      ResetSafe sampleTree sampleProcess (sampleConfig [state, other]) sampleRoots sampleHooks := by
  refine ⟨⟨rfl, _, _, rfl, rfl, .inr ⟨rfl, rfl⟩⟩, (reset_safe_iff _ _ _ _ _ rfl rfl).mpr ?_⟩
  rintro - _ location ⟨⟩ hlocation
  obtain rfl : [state, hooks] = location := some.inj hlocation
  constructor
  · rintro file ⟨path, hpath, hfile⟩ hbelow
    have hpath : path = samplePath [config] ∨ path = samplePath [state, other] := by
      simpa [resetProtectedFiles, sampleConfig, instructionsPath, samplePath] using hpath
    rcases hpath with rfl | rfl
    · obtain rfl : [config] = file := hfile.elim some.inj some.inj
      cases hbelow
    · obtain rfl : [state, other] = file := hfile.elim some.inj some.inj
      cases hbelow
  · rintro real ⟨_, root, ⟨⟩, hroot, hreal⟩ hbelow
    obtain rfl : root = samplePath [home, other] := by simpa [sampleRoots] using hroot
    obtain rfl : [home, other] = real := some.inj hreal
    cases hbelow

/-- The hook directory is accepted, and the instructions in it are removed. -/
theorem instructions_removed :
    validateResetTarget sampleTree sampleProcess (sampleConfig [state, hooks, instructions])
        sampleRoots sampleHooks = .ok () ∧
      sampleHooks.allowProtected = false ∧
      ¬ResetSafe sampleTree sampleProcess (sampleConfig [state, hooks, instructions]) sampleRoots
        sampleHooks := by
  refine ⟨rfl, rfl, fun hsafe ↦ ?_⟩
  refine hsafe.files [state, hooks, instructions]
    ⟨rfl, [state, hooks], [state, hooks], rfl, rfl, .inr ⟨rfl, rfl⟩⟩ ?_
  exact ⟨samplePath [state, hooks, instructions], by simp [resetProtectedFiles, sampleConfig,
    instructionsPath, samplePath], .inl rfl⟩

end Clyde.Daemon.HardReset
