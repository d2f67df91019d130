import Clyde.Foundation.Text
import Mathlib.Data.List.Nodup
import Mathlib.Data.List.Perm.Subperm

/-!
# Wire ids of tool calls

`internal/adapter/codex/tool_id_projection.go`: a backend takes tool ids of at most 64 bytes, so
that every id of a request history gets a wire id. The ids that fit are reserved first, for
themselves. A longer one gets a part of its digest, and an id whose wire id is taken gets the first
free alternate.

`projectAll_reserved` is the result, and `Sound` its invariant.

Scope. The digest in hexadecimal is a parameter. A Go slice out of range is `none`, and so is a
search that goes on for more rounds than there are wire ids.
-/

set_option autoImplicit false

namespace Clyde.Codex

open Foundation ByteCodec Text List

def codexToolCallIDMaxLength : ℕ := 64

/-- `toolIDProjection`. A map is the list of its assignments, the last one first. -/
structure ToolIDProjection where
  sourceToWire : List (Bytes × Bytes)
  wireToSource : List (Bytes × Bytes)

namespace ToolIDProjection

section

variable (projection : ToolIDProjection)

def enter (sourceID wireID : Bytes) : ToolIDProjection where
  sourceToWire := (sourceID, wireID) :: projection.sourceToWire
  wireToSource := (wireID, sourceID) :: projection.wireToSource

def reserveOne (sourceID : Bytes) : ToolIDProjection :=
  if sourceID = [] ∨ codexToolCallIDMaxLength < sourceID.length then projection
  else if (projection.sourceToWire.lookup sourceID).isSome then projection
  else projection.enter sourceID sourceID

def reserveCompliant (sourceIDs : List Bytes) : ToolIDProjection :=
  sourceIDs.foldl reserveOne projection

def alternate (candidate : Bytes) (suffix : ℕ) : Option Bytes :=
  let suffixText := bytesOf "_" ++ itoa suffix
  if codexToolCallIDMaxLength < suffixText.length ∨
      candidate.length < codexToolCallIDMaxLength - suffixText.length then none
  else some (candidate.take (codexToolCallIDMaxLength - suffixText.length) ++ suffixText)

def searchFree (occupied : List (Bytes × Bytes)) (candidate : Bytes) :
    (rounds suffix : ℕ) → Option Bytes
  | 0, _ => none
  | rounds + 1, suffix =>
    match alternate candidate suffix with
    | none => none
    | some wireID =>
      if (occupied.lookup wireID).isSome then searchFree occupied candidate rounds (suffix + 1)
      else some wireID

def reserve (candidate sourceID : Bytes) : Option Bytes :=
  match projection.wireToSource.lookup candidate with
  | none => some candidate
  | some recordedSource =>
    if recordedSource = sourceID then some candidate
    else searchFree projection.wireToSource candidate (projection.wireToSource.length + 1) 1

end

variable (digest : Bytes → Bytes)

/-- The candidate of `project`: the id, or the start of its digest. -/
def candidateOf (sourceID : Bytes) : Bytes :=
  if codexToolCallIDMaxLength < sourceID.length then
    bytesOf "call_" ++ (digest sourceID).take (codexToolCallIDMaxLength - (bytesOf "call_").length)
  else sourceID

def project (projection : ToolIDProjection) (sourceID : Bytes) :
    Option (ToolIDProjection × Bytes) :=
  if sourceID = [] then some (projection, [])
  else
    match projection.sourceToWire.lookup sourceID with
    | some wireID => some (projection, wireID)
    | none =>
      (projection.reserve (candidateOf digest sourceID) sourceID).map fun wireID ↦
        (projection.enter sourceID wireID, wireID)

def projectAll : ToolIDProjection → List Bytes → Option (List Bytes)
  | _, [] => some []
  | projection, sourceID :: sourceIDs =>
    match projection.project digest sourceID with
    | none => none
    | some (next, wireID) => (projectAll next sourceIDs).map (wireID :: ·)

theorem length_suffixText {suffix : ℕ} (hsuffix : suffix < 10 ^ 63) :
    (bytesOf "_" ++ itoa suffix).length ≤ codexToolCallIDMaxLength := by
  have hdigits := Nat.toDigits_length 10 suffix 63 (by decide) hsuffix
  simp only [length_append, itoa, length_map]
  exact Nat.add_le_add_left hdigits 1

variable {candidate : Bytes}

theorem alternate_of_full (hfull : candidate.length = codexToolCallIDMaxLength) {suffix : ℕ}
    (hsuffix : suffix < 10 ^ 63) :
    ∃ wireID kept, alternate candidate suffix = some wireID ∧
      wireID = kept ++ 0x5F :: itoa suffix ∧ wireID.length = codexToolCallIDMaxLength := by
  have hlength := length_suffixText hsuffix
  refine ⟨_, _, if_neg ?_, rfl, ?_⟩
  · omega
  · rw [length_append, length_take]
    omega

theorem suffix_inj {first second : ℕ} {kept other : Bytes}
    (hsame : kept ++ 0x5F :: itoa first = other ++ 0x5F :: itoa second) : first = second := by
  have hdigits : ∀ number, (0x5F : UInt8) ∉ (itoa number).reverse := by
    intro _ hmem
    exact absurd (isDigit_of_mem_itoa (mem_reverse.mp hmem)) (by decide)
  have hreversed := congrArg List.reverse hsame
  simp only [reverse_append, reverse_cons, append_assoc, singleton_append] at hreversed
  have hitoa :=
    reverse_injective (append_cons_inj_of_not_mem (hdigits first) (hdigits second) hreversed).1
  simpa using congrArg atoi hitoa

variable {entries : List (Bytes × Bytes)}

theorem lookup_eq_none_iff {key : Bytes} :
    entries.lookup key = none ↔ key ∉ entries.map Prod.fst := by
  simp only [List.lookup_eq_none_iff, bne_iff_ne, List.mem_map, not_exists, not_and]
  exact forall₂_congr fun _ _ ↦ ne_comm

theorem mem_of_lookup_eq {key value : Bytes}
    (hlookup : entries.lookup key = some value) : (key, value) ∈ entries := by
  obtain ⟨_, _, rfl, -⟩ := lookup_eq_some_iff.mp hlookup
  exact mem_append_right _ mem_cons_self

/-- The search finds a free wire id, or each of its rounds met another occupied one. -/
theorem searchFree_or_occupied (hfull : candidate.length = codexToolCallIDMaxLength)
    (occupied : List (Bytes × Bytes)) (rounds suffix : ℕ) (hsuffix : suffix + rounds ≤ 10 ^ 63) :
    (∃ wireID, searchFree occupied candidate rounds suffix = some wireID ∧
      wireID ∉ occupied.map Prod.fst ∧ wireID.length = codexToolCallIDMaxLength) ∨
    ∃ met : List Bytes, met.length = rounds ∧ met.Nodup ∧ met ⊆ occupied.map Prod.fst ∧
      ∀ wireID ∈ met, ∃ kept number, suffix ≤ number ∧ wireID = kept ++ 0x5F :: itoa number := by
  induction rounds generalizing suffix with
  | zero => exact .inr ⟨[], rfl, nodup_nil, nil_subset _, by simp⟩
  | succ _ ih =>
    obtain ⟨wireID, kept, halternate, hform, hlength⟩ :=
      alternate_of_full hfull (show suffix < 10 ^ 63 by omega)
    simp only [searchFree, halternate]
    cases hlookup : occupied.lookup wireID with
    | none => exact .inl ⟨wireID, rfl, lookup_eq_none_iff.mp hlookup, hlength⟩
    | some =>
      refine (ih _ (by omega)).imp_right ?_
      rintro ⟨met, hrounds, hnodup, hsub, hnumbers⟩
      refine ⟨wireID :: met, by rw [length_cons, hrounds], nodup_cons.mpr ⟨?_, hnodup⟩,
        cons_subset.mpr ⟨mem_map_of_mem (mem_of_lookup_eq hlookup), hsub⟩,
        forall_mem_cons.mpr ⟨⟨kept, suffix, le_rfl, hform⟩, ?_⟩⟩
      · intro hmem
        obtain ⟨other, number, hnumber, hsame⟩ := hnumbers wireID hmem
        have := suffix_inj (hform.symm.trans hsame)
        omega
      · intro other hother
        obtain ⟨cut, number, _, hsame⟩ := hnumbers other hother
        exact ⟨cut, number, by omega, hsame⟩

/-- A wire id is not empty, fits, and has full length if it is not its source. -/
def Fits (sourceID wireID : Bytes) : Prop :=
  wireID ≠ [] ∧ wireID.length ≤ codexToolCallIDMaxLength ∧
    (wireID = sourceID ∨ wireID.length = codexToolCallIDMaxLength)

theorem fits_of_full {sourceID wireID : Bytes} (hfull : wireID.length = codexToolCallIDMaxLength) :
    Fits sourceID wireID :=
  ⟨ne_nil_of_length_pos (by rw [hfull]; decide), hfull.le, .inr hfull⟩

/-- The maps are inverse, and no id has two others. -/
structure Sound (projection : ToolIDProjection) : Prop where
  inverse : projection.wireToSource = projection.sourceToWire.map Prod.swap
  sources : (projection.sourceToWire.map Prod.fst).Nodup
  wires : (projection.wireToSource.map Prod.fst).Nodup
  fits : ∀ pair ∈ projection.sourceToWire, Fits pair.1 pair.2

/-- A projection with the pairs of another one and at most `more` others. -/
structure Extends (before : ToolIDProjection) (more : ℕ) (after : ToolIDProjection) : Prop where
  sound : after.Sound
  length_le : after.wireToSource.length ≤ before.wireToSource.length + more
  pairs : before.sourceToWire ⊆ after.sourceToWire

variable {projection middle last : ToolIDProjection} {sourceID wireID : Bytes} {more others : ℕ}

theorem Sound.extends (hsound : projection.Sound) (more : ℕ) : projection.Extends more projection :=
  ⟨hsound, Nat.le_add_right _ _, Subset.refl _⟩

theorem Extends.trans (hfirst : projection.Extends more middle)
    (hrest : middle.Extends others last) :
    projection.Extends (others + more) last where
  sound := hrest.sound
  length_le := by
    have := hfirst.length_le
    have := hrest.length_le
    omega
  pairs := Subset.trans hfirst.pairs hrest.pairs

theorem Sound.enter (hsound : projection.Sound)
    (hsource : projection.sourceToWire.lookup sourceID = none)
    (hwire : wireID ∉ projection.wireToSource.map Prod.fst) (hfits : Fits sourceID wireID) :
    projection.Extends 1 (projection.enter sourceID wireID) where
  sound :=
    { inverse := congrArg ((wireID, sourceID) :: ·) hsound.inverse
      sources := nodup_cons.mpr ⟨lookup_eq_none_iff.mp hsource, hsound.sources⟩
      wires := nodup_cons.mpr ⟨hwire, hsound.wires⟩
      fits := forall_mem_cons.mpr ⟨hfits, hsound.fits⟩ }
  length_le := le_rfl
  pairs := subset_cons_self _ _

/-- Every wire id is its own source. -/
def Plain (projection : ToolIDProjection) : Prop :=
  ∀ pair ∈ projection.sourceToWire, pair.2 = pair.1

/-- Reserving a short id under its own name extends the projection and keeps it plain. -/
theorem Sound.reserveOne (hsound : projection.Sound) (hplain : projection.Plain)
    (sourceID : Bytes) :
    projection.Extends 1 (projection.reserveOne sourceID) ∧ (projection.reserveOne sourceID).Plain ∧
      (sourceID ≠ [] → sourceID.length ≤ codexToolCallIDMaxLength →
        (sourceID, sourceID) ∈ (projection.reserveOne sourceID).sourceToWire) := by
  unfold ToolIDProjection.reserveOne
  split_ifs with hunfit hknown
  · exact ⟨hsound.extends 1, hplain, fun hne hshort ↦ absurd hunfit (by simp [hne, hshort])⟩
  · obtain ⟨wireID, hlookup⟩ := Option.isSome_iff_exists.mp hknown
    have hmem := mem_of_lookup_eq hlookup
    obtain rfl : wireID = sourceID := hplain _ hmem
    exact ⟨hsound.extends 1, hplain, fun _ _ ↦ hmem⟩
  rw [not_or, not_lt] at hunfit
  rw [Option.not_isSome_iff_eq_none] at hknown
  have hwire : sourceID ∉ projection.wireToSource.map Prod.fst := by
    rw [hsound.inverse, map_map]
    refine fun hmem ↦ lookup_eq_none_iff.mp hknown ?_
    rwa [map_congr_left fun pair hpair ↦ (hplain pair hpair).symm]
  exact ⟨hsound.enter hknown hwire ⟨hunfit.1, hunfit.2, .inl rfl⟩,
    forall_mem_cons.mpr ⟨rfl, hplain⟩, fun _ _ ↦ mem_cons_self⟩

theorem Sound.reserveCompliant (hsound : projection.Sound) (hplain : projection.Plain)
    (reserved : List Bytes) :
    projection.Extends reserved.length (projection.reserveCompliant reserved) ∧
      ∀ sourceID ∈ reserved, sourceID ≠ [] → sourceID.length ≤ codexToolCallIDMaxLength →
        (sourceID, sourceID) ∈ (projection.reserveCompliant reserved).sourceToWire := by
  induction reserved generalizing projection with
  | nil => exact ⟨hsound.extends 0, by simp⟩
  | cons first _ ih =>
    obtain ⟨hextends, hplain, hfirst⟩ := hsound.reserveOne hplain first
    obtain ⟨hrest, hreserved⟩ := ih hextends.sound hplain
    exact ⟨hextends.trans hrest, forall_mem_cons.mpr
      ⟨fun hnonempty hshort ↦ hrest.pairs (hfirst hnonempty hshort), hreserved⟩⟩

variable {digest}

/-- A reservation finds a wire id that is not taken. -/
theorem Sound.reserve (hsound : projection.Sound)
    (hcount : projection.wireToSource.length + 2 ≤ 10 ^ 63)
    (hsource : projection.sourceToWire.lookup sourceID = none) (hfits : Fits sourceID candidate) :
    ∃ wireID, projection.reserve candidate sourceID = some wireID ∧
      wireID ∉ projection.wireToSource.map Prod.fst ∧ Fits sourceID wireID := by
  unfold ToolIDProjection.reserve
  cases hwire : projection.wireToSource.lookup candidate with
  | none => exact ⟨candidate, rfl, lookup_eq_none_iff.mp hwire, hfits⟩
  | some recordedSource =>
    have hpair : (recordedSource, candidate) ∈ projection.sourceToWire := by
      have hmem := mem_of_lookup_eq hwire
      rw [hsound.inverse] at hmem
      simpa using hmem
    have hother : recordedSource ≠ sourceID := by
      rintro rfl
      exact lookup_eq_none_iff.mp hsource (mem_map_of_mem hpair)
    have hfull : candidate.length = codexToolCallIDMaxLength := by
      rcases hfits.2.2 with rfl | hfull
      · exact (hsound.fits _ hpair).2.2.resolve_left hother.symm
      · exact hfull
    simp only [if_neg hother]
    obtain ⟨wireID, hfound, hfree, hlength⟩ | ⟨_, _, hnodup, hsub, -⟩ :=
      searchFree_or_occupied hfull _ (projection.wireToSource.length + 1) 1 (by omega)
    · exact ⟨wireID, hfound, hfree, fits_of_full hlength⟩
    · have := (hnodup.subperm hsub).length_le
      rw [length_map] at this
      omega

/-- Projecting an id extends the projection by at most one entry. -/
theorem Sound.project (hsound : projection.Sound)
    (hdigest : ∀ sourceID, (digest sourceID).length = codexToolCallIDMaxLength)
    (hcount : projection.wireToSource.length + 2 ≤ 10 ^ 63) (sourceID : Bytes) :
    ∃ next wireID, projection.project digest sourceID = some (next, wireID) ∧
      projection.Extends 1 next ∧ (sourceID = [] ∧ wireID = [] ∨
        sourceID ≠ [] ∧ (sourceID, wireID) ∈ next.sourceToWire) := by
  unfold ToolIDProjection.project
  by_cases hnonempty : sourceID = []
  · rw [if_pos hnonempty]
    exact ⟨projection, [], rfl, hsound.extends 1, .inl ⟨hnonempty, rfl⟩⟩
  rw [if_neg hnonempty]
  cases hsource : projection.sourceToWire.lookup sourceID with
  | some wireID =>
    exact ⟨projection, wireID, rfl, hsound.extends 1, .inr ⟨hnonempty, mem_of_lookup_eq hsource⟩⟩
  | none =>
    have hfits : Fits sourceID (candidateOf digest sourceID) := by
      unfold candidateOf
      split_ifs with hlong
      · refine fits_of_full ?_
        rw [length_append, length_take, hdigest]
        decide
      · exact ⟨hnonempty, not_lt.mp hlong, .inl rfl⟩
    obtain ⟨wireID, hreserve, hwire, hfits⟩ := hsound.reserve hcount hsource hfits
    simp only [hreserve]
    exact ⟨_, wireID, rfl, hsound.enter hsource hwire hfits, .inr ⟨hnonempty, mem_cons_self⟩⟩

/-- Projecting ids one after the other never fails, by induction on the ids. -/
theorem Sound.projectAll (hsound : projection.Sound)
    (hdigest : ∀ sourceID, (digest sourceID).length = codexToolCallIDMaxLength)
    (sourceIDs : List Bytes)
    (hcount : projection.wireToSource.length + sourceIDs.length + 1 ≤ 10 ^ 63) :
    ∃ last wireIDs, projection.projectAll digest sourceIDs = some wireIDs ∧
      projection.Extends sourceIDs.length last ∧ wireIDs.length = sourceIDs.length ∧
      ∀ pair ∈ sourceIDs.zip wireIDs, pair.1 = [] ∧ pair.2 = [] ∨ pair.1 ≠ [] ∧
      pair ∈ last.sourceToWire := by
  induction sourceIDs generalizing projection with
  | nil => exact ⟨projection, [], rfl, hsound.extends 0, rfl, by simp⟩
  | cons sourceID _ ih =>
    rw [length_cons] at hcount
    obtain ⟨_, wireID, hproject, hextends, hentered⟩ := hsound.project hdigest (by omega) sourceID
    have hnext := hextends.length_le
    obtain ⟨last, wireIDs, hall, hrest, hlength, hpairs⟩ := ih hextends.sound (by omega)
    refine ⟨last, wireID :: wireIDs, ?_, hextends.trans hrest, congrArg (· + 1) hlength, ?_⟩
    · rw [ToolIDProjection.projectAll, hproject]
      exact congrArg (Option.map (wireID :: ·)) hall
    · rw [zip_cons_cons, forall_mem_cons]
      exact ⟨hentered.imp_right fun h ↦ ⟨h.1, hrest.pairs h.2⟩, hpairs⟩

/-- For every list of ids reserved first, every call after it returns: the empty id for the empty id
only, at most 64 bytes, a reserved id for itself, and the same wire id for the same id only.
Assumes: there are fewer ids than a machine integer counts. -/
theorem projectAll_reserved (hdigest : ∀ sourceID, (digest sourceID).length = 64)
    (reserved sourceIDs : List Bytes) (hcount : reserved.length + sourceIDs.length < 2 ^ 63) :
    ∃ wireIDs, projectAll digest (reserveCompliant ⟨[], []⟩ reserved) sourceIDs = some wireIDs ∧
      wireIDs.length = sourceIDs.length ∧
      (∀ pair ∈ sourceIDs.zip wireIDs, (pair.2 = [] ↔ pair.1 = []) ∧ pair.2.length ≤ 64 ∧
        (pair.1 ∈ reserved → pair.1 ≠ [] → pair.1.length ≤ 64 → pair.2 = pair.1)) ∧
      ∀ first ∈ sourceIDs.zip wireIDs, ∀ second ∈ sourceIDs.zip wireIDs,
        first.2 = second.2 ↔ first.1 = second.1 := by
  have hempty : (⟨[], []⟩ : ToolIDProjection).Sound := ⟨rfl, nodup_nil, nodup_nil, by simp⟩
  obtain ⟨hreserve, hself⟩ := hempty.reserveCompliant (by simp [Plain]) reserved
  have hlength := hreserve.length_le
  rw [length_nil] at hlength
  obtain ⟨_, wireIDs, hall, hlast, hwires, hpairs⟩ :=
    hreserve.sound.projectAll hdigest sourceIDs (by omega)
  obtain ⟨hinverse, hsources, hwiresNodup, hfits⟩ := hlast.sound
  rw [hinverse, map_map] at hwiresNodup
  refine ⟨wireIDs, hall, hwires, fun pair hpair ↦ ?_, fun first hfirst second hsecond ↦ ?_⟩
  · obtain ⟨hid, hwire⟩ | ⟨hid, hmem⟩ := hpairs pair hpair
    · simp [hid, hwire]
    · refine ⟨by simp [hid, (hfits pair hmem).1], (hfits pair
        hmem).2.1, fun hin hnonempty hshort ↦ ?_⟩
      have hsame := hlast.pairs (hself pair.1 hin hnonempty hshort)
      exact congrArg Prod.snd (inj_on_of_nodup_map hsources hmem hsame rfl)
  obtain ⟨hone, hone'⟩ | ⟨hone, hmem⟩ := hpairs first hfirst <;>
    obtain ⟨htwo, htwo'⟩ | ⟨htwo, hmem'⟩ := hpairs second hsecond
  · simp [*]
  · simp [hone, hone', Ne.symm htwo, Ne.symm (hfits second hmem').1]
  · simp [htwo, htwo', hone, (hfits first hmem).1]
  · constructor
    · exact fun hsame ↦ congrArg Prod.fst (inj_on_of_nodup_map hwiresNodup hmem hmem' hsame)
    · exact fun hsame ↦ congrArg Prod.snd (inj_on_of_nodup_map hsources hmem hmem' hsame)

/-- A reserved id, a long one and an empty one. -/
theorem projectAll_reserved_sample :
    (∀ _ : Bytes, (List.replicate 64 (0x61 : UInt8)).length = 64) ∧ 1 + 3 < 2 ^ 63 ∧
      ∃ wireIDs, projectAll (fun _ ↦ List.replicate 64 0x61) (reserveCompliant ⟨[], []⟩ [[0x61]])
        [[0x61], List.replicate 65 0x62, []] = some wireIDs ∧ wireIDs.length = 3 := by
  have hlength : ∀ _ : Bytes, (List.replicate 64 (0x61 : UInt8)).length = 64 := fun _ ↦ rfl
  obtain ⟨wireIDs, hall, hcount, -⟩ := projectAll_reserved hlength [[0x61]]
    [[0x61], List.replicate 65 0x62, []] (by decide)
  exact ⟨hlength, by decide, wireIDs, hall, hcount⟩

end ToolIDProjection

end Clyde.Codex
