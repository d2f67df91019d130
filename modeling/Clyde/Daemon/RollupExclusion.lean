import Clyde.Daemon.RollupStore

/-!
# What orderly runs of the rollup store keep

When no generation marker is written beside a pass and no append fails half way, the lock orders all
that is written to the store. `Sound` is the invariant: the holder of the lock relies on the `Shape`
of the files at its stage, and a reader's file is the beginning of a file of lines.
`preserved_of_orderly` is the result for whole runs.

Without these conditions a record is lost: `generation_renamed_away` is a run of two processes in
which one prunes while the other appends its marker.

Scope. As in `RollupStore`; every line is below the limit of the reader.
-/

set_option autoImplicit false

namespace Clyde.Daemon

open Foundation ByteCodec LineFile List Option Function FileSystem

section

variable {Process Record : Type} [DecidableEq Process] (format : LineFormat Record)

/-! ### Files under a step -/

/-- The store, if there is one, holds whole lines. -/
def Settled (files : FileSystem RollupName UInt8) : Prop :=
  ∀ file, files.lookup .store = some file →
    Tidy 0x0A maxMetricsRollupLineBytes (files.contents file)

/-- A step does nothing to a file other than the temporary one, or writes after what it holds. -/
structure Grows (before after : FileSystem RollupName UInt8) : Prop where
  next_le : before.next ≤ after.next
  contents : ∀ file < before.next, before.lookup .temporary ≠ some file →
    after.contents file = before.contents file ∨ before.contents file <+: after.contents file ∧
        Begun 0x0A maxMetricsRollupLineBytes (after.contents file)
  temporary : ∀ file < before.next, before.lookup .temporary ≠ some file →
    after.lookup .temporary ≠ some file

variable {file : ℕ}

namespace Grows

variable {files : FileSystem RollupName UInt8}

theorem refl : Grows files files := ⟨Nat.le_refl _, fun _ _ _ ↦ .inl rfl, fun _ _ hother ↦ hother⟩

theorem create : Grows files (files.create .store) where
  next_le := files.next_le_create _
  contents _ hfile _ := .inl (contents_create_of_lt hfile _)
  temporary file _ hother := by rwa [lookup_create_ne (by decide)]

theorem write_store {bytes : Bytes}
    (hbegun : Begun 0x0A maxMetricsRollupLineBytes (files.contents file ++ bytes)) :
    Grows files (files.write file (files.contents file ++ bytes)) where
  next_le := Nat.le_refl _
  contents other _ _ := by
    by_cases hother : other = file
    · subst hother
      rw [contents_write_self]
      exact .inr ⟨prefix_append .., hbegun⟩
    · exact .inl (contents_write_ne hother _)
  temporary _ _ hother := hother

theorem write_temporary (hfile : files.lookup .temporary = some file) (bytes : Bytes) :
    Grows files (files.write file bytes) where
  next_le := Nat.le_refl _
  contents other _ hother := by
    refine .inl (contents_write_ne ?_ _)
    rintro rfl
    exact hother hfile
  temporary _ _ hother := hother

theorem ne_fileOf (hlt : file < files.next)
    (hother : files.lookup .temporary ≠ some file) : file ≠ files.fileOf .temporary := by
  rintro rfl
  unfold FileSystem.fileOf at hother hlt
  cases hlookup : files.lookup .temporary with
  | none => simp [hlookup] at hlt
  | some => simp [hlookup] at hother

theorem openTemporary : Grows files (openTemporary files) where
  next_le := files.next_le_create _
  contents other hlt hother := by
    exact .inl ((contents_write_ne (ne_fileOf hlt hother) _).trans (contents_create_of_lt hlt _))
  temporary other hlt hother := by
    rw [Daemon.openTemporary, lookup_write, lookup_create_self]
    exact fun hsame ↦ ne_fileOf hlt hother (some.inj hsame).symm

theorem retain : Grows files (files.retain fun name ↦ name ≠ RollupName.temporary) where
  next_le := Nat.le_refl _
  contents _ _ _ := .inl rfl
  temporary _ _ _ := by simp [lookup_retain]

/-- Moving the temporary file over the store keeps every file's contents. -/
theorem rename : Grows files (files.rename .temporary .store) where
  next_le := by rw [next_rename]
  contents _ _ _ := .inl (by rw [contents_rename])
  temporary file _ hother := by
    cases hlookup : files.lookup .temporary with
    | none =>
      have hsame : files.rename .temporary .store = files := by
        unfold FileSystem.rename
        split
        next => rfl
        next _ hfound => rw [hlookup] at hfound; cases hfound
      rwa [hsame]
    | some =>
      rw [lookup_rename hlookup]
      simp

theorem has {after : FileSystem RollupName UInt8} (hgrows : Grows files after) {line : Bytes}
    (hlt : file < files.next) (hother : files.lookup .temporary ≠ some file)
    (hline : Has 0x0A line (files.contents file)) : Has 0x0A line (after.contents file) := by
  rcases hgrows.contents file hlt hother with hsame | ⟨hlonger, -⟩
  · rwa [hsame]
  · exact hline.of_isPrefix hlonger

end Grows

/-! ### What orderly steps preserve -/

/-- What the holder of the lock relies on at each stage. -/
def Shape (files : FileSystem RollupName UInt8) : Stage Record → Prop
  | .appending file records chunks =>
    files.lookup .store = some file ∧ ∃ lines : List Bytes,
      files.contents file ++ chunks.flatten = text 0x0A lines ∧
      (∀ line ∈ lines, IsLine 0x0A maxMetricsRollupLineBytes line) ∧
      ∀ record ∈ records, format.encode record ∈ lines
  | .pruning file _ =>
    Settled files ∧ files.lookup .store = some file ∧
      ∃ temporary, files.lookup .temporary = some temporary ∧ files.contents temporary = []
  | .scanned cutoff _ =>
    Settled files ∧ ∃ file temporary lines, files.lookup .store = some file ∧
      files.lookup .temporary = some temporary ∧
      scanLines (files.contents file) = some lines ∧
      files.contents temporary = text 0x0A (keptLines format cutoff lines)
  | .idle | .generation .. | .locked | .appended | .finished | .reading _ => Settled files

/-- The states of orderly runs. -/
structure Sound (system : System Process Record) : Prop where
  exclusive : Exclusive system
  owner : ∀ process, (system.stage process).holdsLock = true → system.holder = some process
  free : system.holder = none → Settled system.files
  held : ∀ process, system.holder = some process → Shape format system.files (system.stage process)
  generations : ∀ process file record, system.stage process = .generation file record →
    system.files.lookup .store = some file
  readers : ∀ process file, system.stage process = .reading (some file) →
    Begun 0x0A maxMetricsRollupLineBytes (system.files.contents file) ∧
      file < system.files.next ∧ system.files.lookup .temporary ≠ some file

variable {format} {before : System Process Record} {process : Process} {stage : Stage Record}

section

variable {files : FileSystem RollupName UInt8}

/-- The invariant after a step of one process, from what the step does to the files, the lock and
its stage. -/
theorem Sound.frame (hsound : Sound format before)
    {holder : Option Process}
    (hexclusive : Exclusive ⟨files, holder, update before.stage process stage⟩)
    (hgrows : Grows before.files files)
    (hothers : ∀ other, other ≠ process → (holder = some other ↔ before.holder = some other))
    (hforeign : ∀ other, other ≠ process → holder = some other → files = before.files)
    (howner : stage.holdsLock = true → holder = some process)
    (hfree : holder = none → Settled files)
    (hheld : holder = some process → Shape format files stage)
    (hstore : before.holder ≠ none ∨
      ∀ file, before.files.lookup .store = some file → files.lookup .store = some file)
    (hgeneration : ∀ file record, stage = .generation file record → files.lookup .store = some file)
    (hreader : ∀ file, stage = .reading (some file) →
      Begun 0x0A maxMetricsRollupLineBytes (files.contents file) ∧
        file < files.next ∧ files.lookup .temporary ≠ some file) :
    Sound format ⟨files, holder, update before.stage process stage⟩ where
  exclusive := hexclusive
  owner :=
    (forall_update_iff before.stage fun other stage ↦ stage.holdsLock = true →
      holder = some other).mpr
    ⟨howner, fun other hother hholds ↦ (hothers other hother).mpr (hsound.owner other hholds)⟩
  free := hfree
  held := by
    refine (forall_update_iff _ fun other stage ↦
      holder = some other → Shape format files stage).mpr ⟨hheld, fun other hother hholder ↦ ?_⟩
    rw [hforeign other hother hholder]
    exact hsound.held other ((hothers other hother).mp hholder)
  generations := by
    refine (forall_update_iff before.stage fun _ stage ↦ ∀ file record,
      stage = .generation file record →
      files.lookup .store = some file).mpr ⟨hgeneration, fun other _ file record hstage ↦ ?_⟩
    rcases hstore with hheldBefore | hstore
    · exact absurd (hsound.exclusive other file record hstage) hheldBefore
    · exact hstore file (hsound.generations other file record hstage)
  readers other file hstage := by
    dsimp only at hstage ⊢
    rw [update_apply] at hstage
    split_ifs at hstage
    · exact hreader file hstage
    obtain ⟨_, hlt, htemporary⟩ := hsound.readers other file hstage
    refine ⟨?_, lt_of_lt_of_le hlt hgrows.next_le, hgrows.temporary file hlt htemporary⟩
    rcases hgrows.contents file hlt htemporary with hsame | ⟨-, hmore⟩
    · rwa [hsame]
    · exact hmore

theorem Settled.mono {files after : FileSystem RollupName UInt8} (hsettled : Settled files)
    (hlookup : after.lookup .store = files.lookup .store)
    (hcontents : ∀ file, files.lookup .store = some file →
      after.contents file = files.contents file) : Settled after := by
  intro file hfile
  rw [hlookup] at hfile
  rw [hcontents file hfile]
  exact hsettled file hfile

theorem lookup_create_store {name : RollupName}
    (hfile : files.lookup name = some file) : (files.create .store).lookup name = some file := by
  by_cases hname : name = .store
  · subst hname
    rw [create_of_lookup hfile, hfile]
  · rw [lookup_create_ne hname, hfile]

theorem Settled.create (hsettled : Settled files) :
    Tidy 0x0A maxMetricsRollupLineBytes ((files.create .store).contents (files.fileOf .store)) := by
  unfold FileSystem.fileOf
  cases hlookup : files.lookup .store with
  | none =>
    rw [getD_none, contents_create_new hlookup]
    exact Tidy.nil
  | some file =>
    rw [create_of_lookup hlookup]
    exact hsettled file hlookup

theorem Settled.create_settled (hsettled : Settled files) : Settled (files.create .store) := by
  intro _ hfile
  rw [lookup_create_self] at hfile
  rw [← some.inj hfile]
  exact hsettled.create

end

theorem tidy_appendText
    (hshort : ∀ record, (format.encode record).length <
    maxMetricsRollupLineBytes) (records : List Record) :
    Tidy 0x0A maxMetricsRollupLineBytes (appendText format records) := by
  refine tidy_text fun line hline ↦ ?_
  obtain ⟨record, -, rfl⟩ := mem_map.mp hline
  exact ⟨format.newline_notMem record, hshort record⟩

/-! ### Scanning -/

theorem isLine_dropCR {piece : Bytes} (hpiece : IsLine 0x0A maxMetricsRollupLineBytes piece) :
    IsLine 0x0A maxMetricsRollupLineBytes (dropCR piece) := by
  unfold dropCR
  split
  · refine ⟨fun hmem ↦ hpiece.1 (mem_of_mem_dropLast hmem), ?_⟩
    rw [length_dropLast]
    exact lt_of_le_of_lt (Nat.sub_le ..) hpiece.2
  · exact hpiece

variable {lines : List Bytes} {file : Bytes}

theorem scanLines_eq_some : scanLines file = some lines ↔
    (∀ piece ∈ file.splitOn 0x0A, piece.length < maxMetricsRollupLineBytes) ∧
      ((file.splitOn 0x0A).map dropCR).filter (· ≠ []) = lines := by
  simp [scanLines, List.all_eq_true]

theorem scanLines_of_begun (hbegun : Begun 0x0A maxMetricsRollupLineBytes file) :
    scanLines file = some (((file.splitOn 0x0A).map dropCR).filter (· ≠ [])) :=
  scanLines_eq_some.mpr ⟨fun _ hpiece ↦ (hbegun.isLine (by decide) hpiece).2, rfl⟩

theorem isLine_of_mem_scanLines {file line : Bytes}
    (hlines : scanLines file = some lines) (hline : line ∈ lines) :
    IsLine 0x0A maxMetricsRollupLineBytes line := by
  obtain ⟨hall, rfl⟩ := scanLines_eq_some.mp hlines
  obtain ⟨piece, hpiece, rfl⟩ := mem_map.mp (mem_of_mem_filter hline)
  exact isLine_dropCR ⟨notMem_of_mem_splitOn hpiece, hall piece hpiece⟩

variable {record : Record}

theorem encode_mem_scanLines (hlines : scanLines file = some lines)
    (hline : Has 0x0A (format.encode record) file) :
    format.encode record ∈ lines := by
  obtain ⟨-, rfl⟩ := scanLines_eq_some.mp hlines
  refine mem_filter.mpr ⟨mem_map.mpr ⟨_, hline.mem_splitOn, ?_⟩, ?_⟩
  · rw [dropCR, if_neg (format.getLast?_ne record)]
  · exact decide_eq_true (format.encode_ne_nil record)

theorem mem_readRollupRecords (hbegun : Begun 0x0A maxMetricsRollupLineBytes file)
    (hline : Has 0x0A (format.encode record) file) :
    ∃ loaded, readRollupRecords format file = some loaded ∧ record ∈ loaded := by
  have hlines := scanLines_of_begun hbegun
  refine ⟨_, by rw [readRollupRecords, hlines, map_some], mem_filterMap.mpr ?_⟩
  exact ⟨_, encode_mem_scanLines hlines hline, format.decode_encode record⟩

variable {cutoff : ℤ}

theorem isLine_of_mem_keptLines {file line : Bytes}
    (hlines : scanLines file = some lines) (hline : line ∈ keptLines format cutoff lines) :
    IsLine 0x0A maxMetricsRollupLineBytes line :=
  isLine_of_mem_scanLines hlines (mem_of_mem_filter hline)

/-! ### One step -/

/-- A step that changes only the stage of its process keeps the invariant. -/
theorem Sound.move (hsound : Sound format before)
    (hexclusive : Exclusive (before.move process stage))
    (howner : stage.holdsLock = true → before.holder = some process)
    (hheld : before.holder = some process → Shape format before.files stage)
    (hgeneration : ∀ file record, stage ≠ .generation file record)
    (hreader : ∀ file, stage = .reading (some file) → before.files.lookup .store = some file) :
    Sound format (before.move process stage) := by
  refine hsound.frame hexclusive Grows.refl (fun _ _ ↦ Iff.rfl) (fun _ _ _ ↦ rfl) howner
    hsound.free hheld (.inr fun _ hfile ↦ hfile)
    (fun file record hstage ↦ absurd hstage (hgeneration file record)) fun file hstage ↦ ?_
  have hstore := hreader file hstage
  refine ⟨?_, lookup_lt hstore, fun htemporary ↦ ?_⟩
  · cases hholder : before.holder with
    | none => exact (hsound.free hholder file hstore).begun
    | some owner =>
      have hshape := hsound.held owner hholder
      cases hstage : before.stage owner with
      | appending open_ _ chunks =>
        rw [hstage] at hshape
        obtain ⟨hopen, lines, hlines, hshort, -⟩ := hshape
        obtain rfl : open_ = file := some.inj (hopen.symm.trans hstore)
        exact ⟨chunks.flatten, lines, hlines, hshort⟩
      | pruning | scanned => rw [hstage] at hshape; exact (hshape.1 file hstore).begun
      | _ => rw [hstage] at hshape; exact (hshape file hstore).begun
  · exact absurd (lookup_injective hstore htemporary) (by decide)

/-- Releasing the lock keeps the invariant if the store is settled. -/
theorem Sound.leave (hsound : Sound format before) (hexclusive : Exclusive (before.leave process))
    (hsettled : before.holder = some process → Settled before.files) :
    Sound format (before.leave process) := by
  refine hsound.frame hexclusive Grows.refl (fun other hother ↦ ?_) (fun _ _ _ ↦ rfl)
    (fun hholds ↦ by cases hholds) (fun hnone ↦ ?_) (fun hholder ↦ ?_) (.inr fun _ hfile ↦ hfile)
    (by simp) (by simp)
  · split_ifs with hholder
    · rw [hholder]
      simp [Ne.symm hother]
    · rfl
  · split_ifs at hnone with hholder
    · exact hsettled hholder
    · exact hsound.free hnone
  · split_ifs at hholder with hsame
    exact absurd hholder hsame

/-- A step of the lock's holder keeps the invariant if the files have the shape of its next stage.
-/
theorem Sound.holder_step (hsound : Sound format before) {files : FileSystem RollupName UInt8}
    (hholder : before.holder = some process)
    (hexclusive : Exclusive ⟨files, before.holder, update before.stage process stage⟩)
    (hgrows : Grows before.files files) (hshape : Shape format files stage)
    (hgeneration : ∀ file record, stage ≠ .generation file record)
    (hreader : ∀ file, stage ≠ .reading file) :
    Sound format ⟨files, before.holder, update before.stage process stage⟩ := by
  refine hsound.frame hexclusive hgrows (fun _ _ ↦ Iff.rfl) (fun other hother hsame ↦ ?_)
    (fun _ ↦ hholder) (fun hnone ↦ ?_) (fun _ ↦ hshape) (.inl ?_)
    (fun file record hstage ↦ absurd hstage (hgeneration file record))
    (fun file hstage ↦ absurd hstage (hreader _))
  · exact absurd (some.inj (hsame.symm.trans hholder)) hother
  · simp [hholder] at hnone
  · rw [hholder]
    exact some_ne_none _

variable {system : System Process Record}

omit [DecidableEq Process] in
theorem Sound.at_stage (hsound : Sound format system)
    (hstage : system.stage process = stage) (hholds : stage.holdsLock = true) :
    system.holder = some process ∧ Shape format system.files stage := by
  have hholder := hsound.owner process (by rw [hstage]; exact hholds)
  have hshape := hsound.held process hholder
  rw [hstage] at hshape
  exact ⟨hholder, hshape⟩

/-- Between two chunks of an append alone the store may end inside a line. -/
theorem Shape.settled {files : FileSystem RollupName UInt8} (hshape : Shape format files stage)
    (hstage : ∀ file records chunk chunks, stage ≠ .appending file records (chunk :: chunks)) :
    Settled files := by
  cases stage with
  | appending file records chunks =>
    cases chunks with
    | nil =>
      obtain ⟨hstore, lines, hlines, hshort, -⟩ := hshape
      rw [flatten_nil, append_nil] at hlines
      intro other hother
      obtain rfl : file = other := some.inj (hstore.symm.trans hother)
      exact ⟨lines, hlines, hshort⟩
    | cons chunk chunks => exact absurd rfl (hstage file records chunk chunks)
  | pruning | scanned => exact hshape.1
  | _ => exact hshape

variable {after : System Process Record} {event : Event Process Record}

section

variable (hshort : ∀ record, (format.encode record).length < maxMetricsRollupLineBytes)
  (hsound : Sound format before) (hstep : OrderlyStep format before event after)
include hshort hsound hstep

/-- A step keeps the store's file, or it is the rename at the end of a prune. -/
theorem OrderlyStep.files :
    Grows before.files after.files ∧
      ((∀ file, before.files.lookup .store = some file → after.files.lookup .store = some file) ∨
        ∃ process cutoff, before.stage process = .scanned cutoff true ∧
          after.files = before.files.rename .temporary .store ∧
          event = .replaced cutoff before.storeLines after.storeLines) := by
  obtain ⟨hstep, -, hwhole⟩ := hstep
  cases hstep with
  | generationOpen | appendOpen =>
    exact ⟨Grows.create, .inl fun _ hfile ↦ lookup_create_store hfile⟩
  | @generationWrite process file record hstage =>
    have htidy := hsound.free (hsound.exclusive process file record hstage) file
      (hsound.generations process file record hstage)
    have hbegun := (htidy.append (tidy_appendText hshort [record])).begun
    exact ⟨Grows.write_store hbegun, .inl fun _ hfile ↦ hfile⟩
  | @appendWrite process file _ _ chunks hstage =>
    obtain ⟨-, -, lines, hlines, hlinesShort, -⟩ := hsound.at_stage hstage rfl
    rw [flatten_cons, ← append_assoc] at hlines
    exact ⟨Grows.write_store ⟨chunks.flatten, lines, hlines, hlinesShort⟩, .inl fun _ hfile ↦ hfile⟩
  | pruneOpen =>
    refine ⟨Grows.openTemporary, .inl fun file hfile ↦ ?_⟩
    exact (lookup_create_ne (by decide)).trans hfile
  | pruneScan _ htemporary => exact ⟨Grows.write_temporary htemporary _, .inl fun _ hfile ↦ hfile⟩
  | pruneUnreadable | pruneDiscard =>
    exact ⟨Grows.retain, .inl fun _ hfile ↦ by simpa [System.move, lookup_retain] using hfile⟩
  | @pruneRename _ process cutoff hstage hafter =>
    subst hafter
    exact ⟨Grows.rename, .inr ⟨process, cutoff, hstage, rfl, rfl⟩⟩
  | generationTorn | appendTorn => exact absurd rfl hwhole
  | _ => exact ⟨Grows.refl, .inl fun _ hfile ↦ hfile⟩

/-- One orderly step keeps the invariant, by cases on the step. -/
theorem Sound.step : Sound format after := by
  have hgrows := (OrderlyStep.files hshort hsound hstep).1
  obtain ⟨hstep, hexclusive, hwhole⟩ := hstep
  cases hstep with
  | @generationOpen process record hstage _ =>
    have hnone : before.holder = none := hexclusive process _ record (update_self ..)
    have hsettled := hsound.free hnone
    refine hsound.frame hexclusive hgrows (fun _ _ ↦ Iff.rfl) (fun other _ hother ↦ ?_)
      (fun hholds ↦ by cases hholds) (fun _ ↦ hsettled.create_settled)
        (fun _ ↦ hsettled.create_settled)
      (.inr fun _ hfile ↦ lookup_create_store hfile) (fun file record hgeneration ↦ ?_)
      (by simp)
    · exact absurd (hnone.symm.trans hother) (some_ne_none other).symm
    · cases hgeneration
      exact lookup_create_self ..
  | @generationWrite process file record hstage =>
    have hnone : before.holder = none := hsound.exclusive process file record hstage
    have hstore := hsound.generations process file record hstage
    have htidy := (hsound.free hnone file hstore).append (tidy_appendText hshort [record])
    have hsettled : Settled
        (before.files.write file (before.files.contents file ++ appendText format [record])) := by
      intro other hother
      obtain rfl : other = file := some.inj (hother.symm.trans hstore)
      rwa [contents_write_self]
    refine hsound.frame hexclusive hgrows (fun _ _ ↦ Iff.rfl)
      (fun other _ hother ↦ ?_) (fun hholds ↦ by cases hholds) (fun _ ↦ hsettled)
      (fun _ ↦ hsettled) (.inr fun _ hfile ↦ hfile) (by simp)
      (by simp)
    exact absurd (hnone.symm.trans hother) (some_ne_none other).symm
  | @lock process hstage hfree =>
    have hsettled := hsound.free hfree
    refine hsound.frame hexclusive Grows.refl (fun other hother ↦ ?_) (fun _ _ _ ↦ rfl)
      (fun _ ↦ rfl) (fun _ ↦ hsettled) (fun _ ↦ hsettled) (.inr fun _ hfile ↦ hfile)
      (by simp) (by simp)
    rw [hfree]
    simp [Ne.symm hother]
  | appendNothing hstage | pruneNothing hstage =>
    obtain ⟨hholder, hshape⟩ := hsound.at_stage hstage rfl
    exact hsound.move hexclusive (fun _ ↦ hholder) (fun _ ↦ hshape) (by simp) (by simp)
  | @appendOpen process records chunks hstage _ hchunks =>
    obtain ⟨hholder, hsettled⟩ := hsound.at_stage hstage rfl
    refine hsound.holder_step hholder hexclusive hgrows ?_ (by simp) (by simp)
    obtain ⟨lines, hlines, hlinesShort⟩ := Settled.create hsettled
    refine ⟨lookup_create_self .., lines ++ records.map format.encode, ?_, ?_, ?_⟩
    · rw [hlines, hchunks.1, text_append]
      rfl
    · intro line hline
      rcases mem_append.mp hline with hline | hline
      · exact hlinesShort line hline
      · obtain ⟨record, -, rfl⟩ := mem_map.mp hline
        exact ⟨format.newline_notMem record, hshort record⟩
    · exact fun record hrecord ↦ mem_append_right _ (mem_map_of_mem hrecord)
  | @appendWrite process file records _ _ hstage =>
    obtain ⟨hholder, hstore, lines, hlines, hlinesShort, hrecords⟩ := hsound.at_stage hstage rfl
    rw [flatten_cons, ← append_assoc] at hlines
    refine hsound.holder_step hholder hexclusive hgrows ?_ (by simp) (by simp)
    refine ⟨hstore, lines, ?_, hlinesShort, hrecords⟩
    rwa [System.append_contents_self]
  | @appendReturn process file _ hstage =>
    obtain ⟨hholder, hshape⟩ := hsound.at_stage hstage rfl
    exact hsound.move hexclusive (fun _ ↦ hholder)
      (fun _ ↦ hshape.settled (by simp)) (by simp) (by simp)
  | @pruneOpen process file cutoff hstage hstore =>
    obtain ⟨hholder, hsettled⟩ := hsound.at_stage hstage rfl
    refine hsound.holder_step hholder hexclusive hgrows ?_ (by simp) (by simp)
    have hlookup : (openTemporary before.files).lookup .store = before.files.lookup .store :=
      lookup_create_ne (by decide)
    have htemporary : (openTemporary before.files).lookup .temporary =
        some (before.files.fileOf .temporary) := lookup_create_self ..
    refine ⟨Settled.mono hsettled hlookup fun other hother ↦ ?_, hlookup.trans hstore, _,
      htemporary, contents_write_self ..⟩
    refine (contents_write_ne ?_ _).trans (contents_create hother _)
    rintro rfl
    rw [← hlookup] at hother
    exact absurd (lookup_injective hother htemporary) (by decide)
  | @pruneScan process file temporary cutoff lines hstage htemporary hlines =>
    obtain ⟨hholder, hsettled, hstore, empty, hempty, hnothing⟩ := hsound.at_stage hstage rfl
    obtain rfl : empty = temporary := some.inj (hempty.symm.trans htemporary)
    refine hsound.holder_step hholder hexclusive hgrows ?_ (by simp) (by simp)
    have hother : ∀ other, before.files.lookup .store = some other → other ≠ empty := by
      rintro other hother rfl
      exact absurd (lookup_injective hother htemporary) (by decide)
    refine ⟨Settled.mono hsettled rfl fun other hfile ↦ contents_write_ne (hother other hfile) _,
      file, empty, lines, hstore, htemporary, ?_, ?_⟩
    · rw [show (before.append empty _).files.contents file = before.files.contents file from
        contents_write_ne (hother file hstore) _, hlines]
    · rw [System.append_contents_self, hnothing, nil_append]
  | pruneUnreadable hstage | pruneDiscard hstage =>
    obtain ⟨hholder, hsettled, -⟩ := hsound.at_stage hstage rfl
    exact hsound.holder_step hholder hexclusive hgrows
      (Settled.mono hsettled (by simp [lookup_retain]) fun _ _ ↦ rfl) (by simp) (by simp)
  | @pruneRename _ process _ hstage hafter =>
    subst hafter
    obtain ⟨hholder, _, file, _, _, _, htemporary, hlines, hkept⟩ := hsound.at_stage hstage rfl
    refine hsound.holder_step hholder hexclusive hgrows ?_ (by simp) (by simp)
    intro _ hother
    rw [lookup_rename htemporary] at hother
    rw [contents_rename, ← some.inj hother, hkept]
    exact tidy_text fun line hline ↦ isLine_of_mem_keptLines hlines hline
  | @unlock process hstage => exact hsound.leave hexclusive fun _ ↦ (hsound.at_stage hstage rfl).2
  | @abandon process hstage =>
    exact hsound.leave hexclusive fun hholder ↦ (hsound.held process hholder).settled hstage
  | generationTorn | appendTorn => exact absurd rfl hwhole
  | @loadOpen process hstage =>
    refine hsound.move hexclusive (fun hholds ↦ by cases hholds) (fun hholder ↦ ?_) (by simp)
      (fun file hreading ↦ Stage.reading.inj hreading)
    have hshape := hsound.held process hholder
    rwa [hstage] at hshape
  | @loadRead process _ hstage =>
    refine hsound.move hexclusive (fun hholds ↦ by cases hholds)
      (fun hholder ↦ ?_) (by simp) (by simp)
    have hshape := hsound.held process hholder
    rwa [hstage] at hshape

end

omit [DecidableEq Process] in
theorem Initial.sound (hinitial : Initial system) : Sound format system where
  exclusive process file record hstage := by simp [hinitial.stage process] at hstage
  owner process hholds := by simp [hinitial.stage process, Stage.holdsLock] at hholds
  free _ := hinitial.store
  held process hholder := by simp [hinitial.holder] at hholder
  generations process file record hstage := by simp [hinitial.stage process] at hstage
  readers process file hstage := by simp [hinitial.stage process] at hstage

/-! ### One record -/

def Keeps (format : LineFormat Record) (record : Record) (system : System Process Record) : Prop :=
  ∃ file, system.files.lookup .store = some file ∧
    Has 0x0A (format.encode record) (system.files.contents file)

def Promised (format : LineFormat Record) (record : Record) (reader : Process)
    (system : System Process Record) : Prop :=
  ∀ file, system.stage reader = .reading file →
    ∃ found, file = some found ∧ Has 0x0A (format.encode record) (system.files.contents found)

omit [DecidableEq Process] in
/-- A record that a prune does not drop is in the temporary file once the scan has ended. -/
theorem Sound.encode_mem_keptLines (hsound : Sound format system)
    (hstage : system.stage process = .scanned cutoff true)
    (hkept : rollupLineBefore format (format.encode record) cutoff = false) :
    ∃ file temporary lines, system.files.lookup .store = some file ∧
      system.files.lookup .temporary = some temporary ∧
      scanLines (system.files.contents file) = some lines ∧
      (format.encode record ∈ lines →
        Has 0x0A (format.encode record) (system.files.contents temporary)) := by
  obtain ⟨-, -, file, temporary, lines, hstore, htemporary, hlines, hcontents⟩ :=
    hsound.at_stage hstage rfl
  refine ⟨file, temporary, lines, hstore, htemporary, hlines, fun hmem ↦ ?_⟩
  rw [hcontents]
  refine has_text (mem_filter.mpr ⟨hmem, by rw [hkept]; rfl⟩) fun line hline ↦ ?_
  exact (isLine_of_mem_keptLines hlines hline).1

/-- One orderly step keeps a record that no prune drops. -/
theorem Keeps.step (hshort : ∀ record, (format.encode record).length < maxMetricsRollupLineBytes)
    (hsound : Sound format before) (hstep : OrderlyStep format before event after)
    (hcutoff : ∀ cutoff old new, event = .replaced cutoff old new →
      rollupLineBefore format (format.encode record) cutoff = false)
    (hkeeps : Keeps format record before) : Keeps format record after := by
  obtain ⟨file, hstore, hline⟩ := hkeeps
  obtain ⟨hgrows, hkept | ⟨_, cutoff, hstage, hfiles, hevent⟩⟩ :=
    OrderlyStep.files hshort hsound hstep
  · refine ⟨file, hkept file hstore, hgrows.has (lookup_lt hstore) ?_ hline⟩
    intro htemporary
    exact absurd (lookup_injective hstore htemporary) (by decide)
  obtain ⟨other, temporary, _, hother, htemporary, hlines, hmem⟩ :=
    hsound.encode_mem_keptLines hstage (hcutoff cutoff _ _ hevent)
  obtain rfl : file = other := some.inj (hstore.symm.trans hother)
  refine ⟨temporary, ?_, ?_⟩
  · rw [hfiles, lookup_rename htemporary, if_pos rfl]
  · rw [hfiles, contents_rename]
    exact hmem (encode_mem_scanLines hlines hline)

/-- A reader opens the store that is there, and keeps its file. -/
theorem Step.reading (hstep : Step format before event after) {reader : Process} {file : Option ℕ}
    (hreading : after.stage reader = .reading file) :
    before.stage reader = .reading file ∨ file = before.files.lookup .store ∧
      after.files = before.files := by
  -- Every step but the opening of a load moves its process to a stage that does not read.
  have hmoved : ∀ (process : Process) (stage : Stage Record), (∀ other, stage ≠ .reading other) →
      update before.stage process stage reader = .reading file →
      before.stage reader = .reading file := by
    intro process _ hstage hupdate
    rw [update_apply] at hupdate
    split_ifs at hupdate
    · exact absurd hupdate (hstage file)
    · exact hupdate
  cases hstep with
  | @loadOpen process _ =>
    by_cases hsame : reader = process
    · subst hsame
      rw [System.move_stage_self] at hreading
      exact .inr ⟨(Stage.reading.inj hreading).symm, rfl⟩
    · rw [System.move_stage_ne _ hsame] at hreading
      exact .inl hreading
  | pruneRename _ hafter =>
    subst hafter
    exact .inl (hmoved _ _ (by simp) hreading)
  | _ => exact .inl (hmoved _ _ (by simp) hreading)

/-- One step keeps what a reader was promised about a record. -/
theorem Promised.step (hshort : ∀ record, (format.encode record).length < maxMetricsRollupLineBytes)
    {reader : Process} (hsound : Sound format before)
    (hstep : OrderlyStep format before event after) (hkeeps : Keeps format record before)
    (hpromised : Promised format record reader before) : Promised format record reader after := by
  intro file hreading
  rcases hstep.1.reading hreading with hbefore | ⟨rfl, hfiles⟩
  · obtain ⟨found, rfl, hline⟩ := hpromised file hbefore
    obtain ⟨-, hlt, htemporary⟩ := hsound.readers reader found hbefore
    exact ⟨found, rfl, (OrderlyStep.files hshort hsound hstep).1.has hlt htemporary hline⟩
  · obtain ⟨found, hstore, _⟩ := hkeeps
    exact ⟨found, hstore, by rwa [hfiles]⟩

/-- When an append has returned, its records are in the store. -/
theorem keeps_of_returned {records : List Record}
    (hsound : Sound format before) (hstep : Step format before (.returned records) after)
    (hrecord : record ∈ records) : Keeps format record after := by
  cases hstep with
  | @generationWrite process file marker hstage =>
    have hstore := hsound.generations process file marker hstage
    refine ⟨file, hstore, ?_⟩
    rw [System.move, System.append_contents_self]
    refine (hsound.free (hsound.exclusive process file marker hstage) file hstore).has_append_text
      (mem_map_of_mem hrecord) fun line hline ↦ ?_
    obtain ⟨other, -, rfl⟩ := mem_map.mp hline
    exact format.newline_notMem other
  | @appendReturn process file _ hstage =>
    obtain ⟨-, hstore, _, hlines, hlinesShort, hrecords⟩ := hsound.at_stage hstage rfl
    rw [flatten_nil, append_nil] at hlines
    refine ⟨file, hstore, ?_⟩
    rw [show (before.move process Stage.appended).files = before.files from rfl, hlines]
    exact has_text (hrecords record hrecord) fun line hline ↦ (hlinesShort line hline).1

/-! ### Whole runs -/

variable {events : List (Event Process Record)}

section

variable (hshort : ∀ record, (format.encode record).length < maxMetricsRollupLineBytes)
include hshort

/-- Every orderly run keeps the invariant. -/
theorem sound_of_run {start finish : System Process Record} (hinitial : Initial start)
    (hrun : Run (OrderlyStep format) start events finish) :
    Sound format finish :=
  hrun.invariant (Sound format) (fun hsound hstep ↦ hsound.step hshort hstep) hinitial.sound

/-- A record that the prunes of a run keep is still in the store, and in the file of every reader
that had it. -/
theorem keeps_of_run {first last : System Process Record}
    (hcutoffs : ∀ cutoff before after, .replaced cutoff before after ∈ events →
      rollupLineBefore format (format.encode record) cutoff = false)
    (hrun : Run (OrderlyStep format) first events last) (hsound : Sound format first)
    (hkeeps : Keeps format record first) :
    (Sound format last ∧ Keeps format record last) ∧
      ∀ reader, Promised format record reader first → Promised format record reader last := by
  refine hrun.invariant_of_mem (fun system ↦ (Sound format system ∧ Keeps format record system) ∧
      ∀ reader, Promised format record reader first → Promised format record reader system)
    (fun {before event after} hmem hgood hstep ↦ ?_) ⟨⟨hsound, hkeeps⟩, fun _ ↦ id⟩
  obtain ⟨⟨hsound, hkeeps⟩, hpromised⟩ := hgood
  refine ⟨⟨hsound.step hshort hstep, hkeeps.step hshort hsound hstep ?_⟩,
    fun reader hfirst ↦ (hpromised reader hfirst).step hshort hsound hstep hkeeps⟩
  rintro cutoff old new rfl
  exact hcutoffs cutoff old new hmem

end

theorem mem_of_loaded {reader : Process} {result : Option (List Record)}
    (hsound : Sound format before) (hpromised : Promised format record reader before)
    (hstep : Step format before (.loaded reader result) after) :
    ∃ loaded, result = some loaded ∧ record ∈ loaded := by
  cases hstep with
  | @loadRead _ file hstage =>
    obtain ⟨found, rfl, hline⟩ := hpromised file hstage
    exact mem_readRollupRecords (hsound.readers reader found hstage).1 hline

/-- A prune keeps every line that is not before its cutoff. -/
theorem replaced_kept (hshort : ∀ record, (format.encode record).length < maxMetricsRollupLineBytes)
    {old new : List Bytes} (hsound : Sound format before)
    (hstep : OrderlyStep format before (.replaced cutoff old new) after)
    (hold : format.encode record ∈ old)
    (hkept : rollupLineBefore format (format.encode record) cutoff = false) :
    format.encode record ∈ new := by
  have hafterSound := hsound.step hshort hstep
  obtain ⟨hstep, -, -⟩ := hstep
  cases hstep with
  | @pruneRename _ process _ hstage hafter =>
    obtain ⟨hholder, -⟩ := hsound.at_stage hstage rfl
    obtain ⟨_, temporary, _, hstore, htemporary, hlines, hmem⟩ :=
      hsound.encode_mem_keptLines hstage hkept
    rw [System.storeLines, hstore, bind_some, hlines] at hold
    have hnew : after.files.lookup .store = some temporary := by
      rw [hafter]
      exact (lookup_rename htemporary ..).trans (if_pos rfl)
    have hcontents : after.files.contents temporary = before.files.contents temporary := by
      rw [hafter]
      exact congrFun (contents_rename ..) temporary
    have hsettled : Settled after.files := by
      refine (hafterSound.held process (by rw [hafter]; exact hholder)).settled ?_
      rw [hafter]
      simp
    have hscan := scanLines_of_begun (hsettled temporary hnew).begun
    rw [System.storeLines, hnew, bind_some, hscan]
    refine encode_mem_scanLines hscan ?_
    rw [hcontents]
    exact hmem hold

/-- Assumes: lines below the limit of the reader, and a run in which no generation marker is written
beside a pass and no append fails half way. No record is lost. -/
theorem preserved_of_orderly
    (hshort : ∀ record, (format.encode record).length < maxMetricsRollupLineBytes)
    {start finish : System Process Record} {events : List (Event Process Record)}
    (hinitial : Initial start) (hrun : Run (OrderlyStep format) start events finish) :
    Preserved format events where
  loaded front records between reader during result back hevents record hrecord hcutoffs := by
    subst hevents
    obtain ⟨_, _, hfront, hreturned, hrest⟩ := hrun.split_at
    obtain ⟨_, fourth, hbetween, hopened, hrest⟩ := hrest.split_at
    obtain ⟨_, _, hduring, hloaded, -⟩ := hrest.split_at
    have hsecond := (sound_of_run hshort hinitial hfront).step hshort hreturned
    have hkeeps := keeps_of_returned (sound_of_run hshort hinitial hfront) hreturned.1 hrecord
    obtain ⟨⟨hthird, hkeeps⟩, -⟩ := keeps_of_run hshort (fun cutoff old new hmem ↦
      hcutoffs cutoff old new (by simp [hmem])) hbetween hsecond hkeeps
    -- The reader has just opened the store, in which the record is.
    have hopenedKeeps := hkeeps.step hshort hthird hopened (by simp)
    have hpromised : Promised format record reader fourth := by
      cases hopened.1 with
      | loadOpen =>
        intro _ hreading
        rw [System.move_stage_self] at hreading
        obtain ⟨found, hstore, hline⟩ := hkeeps
        exact ⟨found, (Stage.reading.inj hreading).symm.trans hstore, hline⟩
    obtain ⟨⟨hfifth, -⟩, hkept⟩ := keeps_of_run hshort (fun cutoff old new hmem ↦
      hcutoffs cutoff old new (by simp [hmem])) hduring (hthird.step hshort hopened) hopenedKeeps
    exact mem_of_loaded hfifth (hkept reader hpromised) hloaded.1
  replaced cutoff old new hmem record hold hkept := by
    obtain ⟨_, _, rfl⟩ := append_of_mem hmem
    obtain ⟨_, _, hfront, hstep, -⟩ := hrun.split_at
    exact replaced_kept hshort (sound_of_run hshort hinitial hfront) hstep hold hkept

end

/-! ### Two processes during a reload -/

/-- Two records: one marker, and one that is older than it. -/
def markerFormat : LineFormat Bool where
  encode marker := if marker then [0x6D] else [0x6F]
  decode line := if line = [0x6D] then some true else if line = [0x6F] then some false else none
  stamp marker := some (if marker then 10 else 0)
  decode_encode := by decide
  newline_notMem := by decide
  encode_ne_nil := by decide
  getLast?_ne := by decide

/-- A store with the older record, and two processes that have not started. -/
def reloading : System Bool Bool where
  files := (FileSystem.empty.create .store).write 0 [0x6F, 0x0A]
  holder := none
  stage := fun _ ↦ .idle

theorem initial_reloading : Initial reloading where
  holder := rfl
  stage _ := rfl
  store file hfile := by
    obtain rfl : 0 = file := some.inj hfile
    exact ⟨[[0x6F]], rfl, by simp [IsLine, maxMetricsRollupLineBytes]⟩

/-- One process prunes, and between its scan and its rename the other appends its marker. -/
def lostMarker : List (Event Bool Bool) :=
  [.silent, .silent, .silent, .silent, .silent, .returned [true],
    .replaced 5 [[0x6F], [0x6D]] [], .silent, .opened true, .loaded true (some [])]

/-- The marker is written to the file that the rename takes from the store. -/
theorem generation_renamed_away :
    Initial reloading ∧ (∃ finish, Run (Step markerFormat) reloading lostMarker finish) ∧
      ¬ Preserved markerFormat lostMarker := by
  refine ⟨initial_reloading, ?_, fun hpreserved ↦ ?_⟩
  · exact ⟨_, .cons (@Step.lock _ _ _ _ _ false rfl rfl) <|
      .cons (@Step.appendNothing _ _ _ _ _ false rfl) <|
      .cons (@Step.pruneOpen _ _ _ _ _ false 0 5 rfl rfl) <|
      .cons (@Step.pruneScan _ _ _ _ _ false 0 1 5 [[0x6F]] rfl rfl rfl) <|
      .cons (@Step.generationOpen _ _ _ _ _ true true rfl (by decide)) <|
      .cons (@Step.generationWrite _ _ _ _ _ true 0 true rfl) <|
      .cons (@Step.pruneRename _ _ _ _ _ _ false 5 rfl rfl) <|
      .cons (@Step.unlock _ _ _ _ _ false rfl) <|
      .cons (@Step.loadOpen _ _ _ _ _ true rfl) <|
      .cons (@Step.loadRead _ _ _ _ _ true (some 1) rfl) .nil⟩
  have hcutoffs : ∀ cutoff before after, .replaced cutoff before after ∈ lostMarker →
      rollupLineBefore markerFormat (markerFormat.encode true) cutoff = false := by
    intro cutoff before after hmem
    obtain ⟨rfl, -, -⟩ : cutoff = 5 ∧ before = [[0x6F], [0x6D]] ∧ after = [] := by
      simpa [lostMarker] using hmem
    decide
  obtain ⟨loaded, hloaded, hmem⟩ :=
    hpreserved.loaded [.silent, .silent, .silent, .silent, .silent] [true]
    [.replaced 5 [[0x6F], [0x6D]] [], .silent] true [] (some []) [] rfl true (by simp)
    hcutoffs
  rw [← some.inj hloaded] at hmem
  cases hmem

def keptMarker : List (Event Bool Bool) :=
  [.silent, .silent, .silent, .silent, .replaced 5 [[0x6F]] [], .silent, .silent, .returned [true],
    .opened true, .loaded true (some [true])]

theorem orderly_keptMarker : ∃ finish, Run (OrderlyStep markerFormat) reloading keptMarker finish :=
  ⟨_, .cons ⟨@Step.lock _ _ _ _ _ false rfl rfl, by rintro (_ | _) _ _ ⟨⟩, nofun⟩ <|
    .cons ⟨@Step.appendNothing _ _ _ _ _ false rfl, by rintro (_ | _) _ _ ⟨⟩, nofun⟩ <|
    .cons ⟨@Step.pruneOpen _ _ _ _ _ false 0 5 rfl rfl, by rintro (_ | _) _ _ ⟨⟩, nofun⟩ <|
    .cons ⟨@Step.pruneScan _ _ _ _ _ false 0 1 5 [[0x6F]] rfl rfl rfl,
      by rintro (_ | _) _ _ ⟨⟩, nofun⟩ <|
    .cons ⟨@Step.pruneRename _ _ _ _ _ _ false 5 rfl rfl, by rintro (_ | _) _ _ ⟨⟩, nofun⟩ <|
    .cons ⟨@Step.unlock _ _ _ _ _ false rfl, fun _ _ _ _ ↦ rfl, nofun⟩ <|
    .cons ⟨@Step.generationOpen _ _ _ _ _ true true rfl (by decide), fun _ _ _ _ ↦ rfl, nofun⟩ <|
    .cons ⟨@Step.generationWrite _ _ _ _ _ true 1 true rfl, fun _ _ _ _ ↦ rfl, nofun⟩ <|
    .cons ⟨@Step.loadOpen _ _ _ _ _ true rfl, fun _ _ _ _ ↦ rfl, nofun⟩ <|
    .cons ⟨@Step.loadRead _ _ _ _ _ true (some 1) rfl, fun _ _ _ _ ↦ rfl, nofun⟩ .nil⟩

theorem preserved_keptMarker : Preserved markerFormat keptMarker := by
  have hshort : ∀ record, (markerFormat.encode record).length < maxMetricsRollupLineBytes := by
    decide
  obtain ⟨_, hrun⟩ := orderly_keptMarker
  exact preserved_of_orderly hshort initial_reloading hrun

end Clyde.Daemon
