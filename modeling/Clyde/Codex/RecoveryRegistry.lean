import Clyde.Foundation.Text
import Mathlib.Data.List.AList
import Mathlib.Data.UInt

/-!
# The registry of pending recoveries

`internal/adapter/codex/raw_compaction_v2_state.go`: the process keeps at most 32 transcripts, each
under the digest of the encrypted content that replaced it. A response observer arms an entry, a
later request leases it, and the lease ends in a release, a completion or a removal. Entries go
after two hours, and the oldest entry without a lease makes room for a new one.

Every method runs under one mutex, so an interleaving is a list of calls, each with its time
(`Registry.run`). `effect_perform` says all that one call can do to the entry of one key, and
`registry_fenced` collects what the registry promises.

Scope. The digest is a parameter. A call that may evict comes with the order in which it meets the
map.
-/

set_option autoImplicit false

namespace Clyde.Codex

open Foundation ByteCodec Text List AList

/-- The largest number of entries. -/
def maxRawResponsesCompactionV2Pending : ℕ := 32

/-- How long an entry lives, in nanoseconds. -/
def rawResponsesCompactionV2TTL : ℤ := 2 * 60 * 60 * 1000000000

/-- A pending recovery. Times are in nanoseconds. -/
structure RecoveryEntry where
  transcript : Bytes
  created : ℤ
  leased : Bool
  generation : UInt64
  deriving DecidableEq

abbrev RecoveryEntries := AList fun _ : Bytes ↦ RecoveryEntry

/-- An order in which a loop over a map meets the entries. -/
structure Iteration where
  order : List (Sigma fun _ : Bytes ↦ RecoveryEntry) → List (Sigma fun _ : Bytes ↦ RecoveryEntry)
  perm : ∀ entries, (order entries).Perm entries

structure Registry where
  entries : RecoveryEntries
  nextGeneration : UInt64
  length_le : entries.entries.length ≤ maxRawResponsesCompactionV2Pending

def newRawResponsesCompactionV2Registry : Registry where
  entries := ∅
  nextGeneration := 0
  length_le := Nat.zero_le _

/-! ### Expiry and eviction -/

/-- The entry has reached its lifetime. -/
def RecoveryEntry.expired (now : ℤ) (entry : RecoveryEntry) : Bool :=
  rawResponsesCompactionV2TTL ≤ now - entry.created

def expire (now : ℤ) (entries : RecoveryEntries) : RecoveryEntries where
  entries := entries.entries.filter fun cell ↦ !cell.2.expired now
  nodupKeys := entries.nodupKeys.sublist List.filter_sublist

/-- The key and time of the oldest entry so far, with an empty key before the first. -/
def oldestStep (oldest : Bytes × ℤ) (cell : Sigma fun _ : Bytes ↦ RecoveryEntry) : Bytes × ℤ :=
  if cell.2.leased then oldest
  else if oldest.1 = [] ∨ cell.2.created < oldest.2 then (cell.1, cell.2.created)
  else oldest

def evictOldest (iteration : Iteration) (entries : RecoveryEntries) : Option RecoveryEntries :=
  let oldest := (iteration.order entries.entries).foldl oldestStep ([], 0)
  if oldest.1 = [] then none else some (entries.erase oldest.1)

theorem lookup_expire (now : ℤ) (entries : RecoveryEntries) (key : Bytes) :
    (expire now entries).lookup key = (entries.lookup key).filter fun entry ↦
      !entry.expired now := by
  apply Option.ext
  intro _
  rw [Option.filter_eq_some_iff]
  rw [← Option.mem_def, ← Option.mem_def, mem_lookup_iff, mem_lookup_iff, expire, mem_filter]

theorem length_expire_le (now : ℤ) (entries : RecoveryEntries) :
    (expire now entries).entries.length ≤ entries.entries.length :=
  length_filter_le _ _

/-- The search for the oldest entry stays at its start or picks an entry that is not leased. -/
theorem foldl_oldestStep (cells : List (Sigma fun _ : Bytes ↦ RecoveryEntry)) (start : Bytes × ℤ) :
    (cells.foldl oldestStep start).1 = start.1 ∨
      ∃ cell ∈ cells, cell.2.leased = false ∧ (cells.foldl oldestStep start).1 = cell.1 := by
  induction cells generalizing start with
  | nil => exact .inl rfl
  | cons cell _ ih =>
    rcases ih _ with hstart | ⟨found, hfound, hleased, hkey⟩
    · rw [foldl_cons, hstart]
      unfold oldestStep
      split_ifs with hcell hfirst
      · exact .inl rfl
      · exact .inr ⟨cell, mem_cons_self, by simpa using hcell, rfl⟩
      · exact .inl rfl
    · exact .inr ⟨found, mem_cons_of_mem _ hfound, hleased, hkey⟩

variable {iteration : Iteration}

/-- Eviction removes one entry, and never a leased one. -/
theorem evictOldest_eq_some {entries next : RecoveryEntries}
    (hevict : evictOldest iteration entries = some next) :
    ∃ key entry, entries.lookup key = some entry ∧ entry.leased = false ∧
      next = entries.erase key := by
  unfold evictOldest at hevict
  dsimp only at hevict
  split_ifs at hevict with hnone
  rcases foldl_oldestStep _ ([], 0) with hstart | ⟨cell, hcell, hleased, hkey⟩
  · exact absurd hstart hnone
  refine ⟨cell.1, cell.2, ?_, hleased, ?_⟩
  · rw [← Option.mem_def, mem_lookup_iff]
    exact (iteration.perm _).mem_iff.mp hcell
  · rw [← hkey]
    exact (Option.some.inj hevict).symm

variable {entries : RecoveryEntries}

theorem length_erase_lt {key : Bytes} (hkey : key ∈ entries) :
    (entries.erase key).entries.length + 1 = entries.entries.length := by
  obtain ⟨_, _, _, -, hentries, hrest⟩ := exists_of_kerase hkey
  change (List.kerase key entries.entries).length + 1 = entries.entries.length
  rw [hrest, hentries]
  simp only [length_append, length_cons]
  omega

theorem length_insert_of_mem {key : Bytes} (entry : RecoveryEntry) (hkey : key ∈ entries) :
    (entries.insert key entry).entries.length = entries.entries.length := by
  exact length_erase_lt hkey

/-- Where a new entry can go: the entries, without the oldest if there is no room. -/
def Registry.makeRoom (iteration : Iteration) (registry : Registry) :
    Option {room : RecoveryEntries // room.entries.length < maxRawResponsesCompactionV2Pending} :=
  if hroom : registry.entries.entries.length < maxRawResponsesCompactionV2Pending then
    some ⟨registry.entries, hroom⟩
  else
    match hevict : evictOldest iteration registry.entries with
    | none => none
    | some room => some ⟨room, by
        obtain ⟨key, entry, hentry, -, rfl⟩ := evictOldest_eq_some hevict
        have hkey : key ∈ registry.entries := AList.lookup_isSome.mp (by rw [hentry]; rfl)
        have := length_erase_lt hkey
        have := registry.length_le
        omega⟩

variable {registry : Registry}

open Registry

/-- Making room leaves the entries alone or evicts one that is not leased. -/
theorem makeRoom_eq_some
    {room : {room : RecoveryEntries // room.entries.length < maxRawResponsesCompactionV2Pending}}
    (hroom : registry.makeRoom iteration = some room) :
    room.val = registry.entries ∨
      ∃ key entry, registry.entries.lookup key = some entry ∧ entry.leased = false ∧
        room.val = registry.entries.erase key := by
  unfold makeRoom at hroom
  split_ifs at hroom with hlength
  · rw [← Option.some.inj hroom]
    exact .inl rfl
  split at hroom
  · simp at hroom
  · next next hevict =>
    rw [← Option.some.inj hroom]
    exact .inr (evictOldest_eq_some hevict)

/-! ### The methods -/

section

variable (digest : Bytes → Bytes)

/-- The key of an encrypted content: the session, a colon and the digest in hexadecimal. -/
def rawResponsesCompactionV2Key (sessionID encryptedContent : Bytes) : Bytes :=
  sessionID ++ 0x3A :: digest encryptedContent

def Registry.expireAt (now : ℤ) (registry : Registry) : Registry where
  entries := expire now registry.entries
  nextGeneration := registry.nextGeneration
  length_le := (length_expire_le now registry.entries).trans registry.length_le

def Registry.store (registry : Registry) (key : Bytes) (entry : RecoveryEntry)
    (room : {room : RecoveryEntries //
      room.entries.length < maxRawResponsesCompactionV2Pending}) : Registry where
  entries := room.val.insert key entry
  nextGeneration := registry.nextGeneration + 1
  length_le := by
    rw [AList.entries_insert, List.length_cons]
    have := (List.kerase_sublist key room.val.entries).length_le
    have := room.property
    omega

def Registry.update (registry : Registry) (key : Bytes) (entry : RecoveryEntry)
    (generation : UInt64) (hkey : key ∈ registry.entries) : Registry where
  entries := registry.entries.insert key entry
  nextGeneration := generation
  length_le := (length_insert_of_mem entry hkey).trans_le registry.length_le

def Registry.delete (registry : Registry) (key : Bytes) : Registry where
  entries := registry.entries.erase key
  nextGeneration := registry.nextGeneration
  length_le := (List.kerase_sublist key _).length_le.trans registry.length_le

attribute [simps entries] Registry.store Registry.update Registry.delete

/-- Stores a transcript and returns its generation. -/
def Registry.armWithGeneration (now : ℤ) (iteration : Iteration)
    (sessionID encryptedContent transcript : Bytes) (registry : Registry) :
    Registry × Option UInt64 :=
  if isBlank sessionID ∨ isBlank encryptedContent ∨ isBlank transcript then (registry, none)
  else
    let swept := registry.expireAt now
    let key := rawResponsesCompactionV2Key digest sessionID encryptedContent
    if key ∈ swept.entries then (swept, none)
    else
      match swept.makeRoom iteration with
      | none => (swept, none)
      | some room =>
        let generation := swept.nextGeneration + 1
        (swept.store key ⟨transcript, now, false, generation⟩ room, some generation)

/-- Removes the entry of a generation, if its lease is as wanted. -/
def Registry.removeOwned (leased : Bool) (now : ℤ) (sessionID encryptedContent : Bytes)
    (generation : UInt64) (registry : Registry) : Registry :=
  if isBlank sessionID ∨ isBlank encryptedContent then registry
  else
    let swept := registry.expireAt now
    let key := rawResponsesCompactionV2Key digest sessionID encryptedContent
    match swept.entries.lookup key with
    | none => swept
    | some entry =>
      if entry.leased ≠ leased ∨ entry.generation ≠ generation then swept else swept.delete key

/-- Removes a leased entry after its client write fails. -/
def Registry.disarm : ℤ → Bytes → Bytes → UInt64 → Registry → Registry :=
  Registry.removeOwned digest true

/-- Removes an entry without a lease that the observer owns. -/
def Registry.discard : ℤ → Bytes → Bytes → UInt64 → Registry → Registry :=
  Registry.removeOwned digest false

/-- The transcript of an entry without a lease. -/
def Registry.matchRecovery (now : ℤ) (sessionID encryptedContent : Bytes) (registry : Registry) :
    Registry × Option Bytes :=
  let swept := registry.expireAt now
  match swept.entries.lookup (rawResponsesCompactionV2Key digest sessionID encryptedContent) with
  | none => (swept, none)
  | some entry => if entry.leased then (swept, none) else (swept, some entry.transcript)

/-- Leases an entry under a new generation. -/
def Registry.reserve (now : ℤ) (sessionID encryptedContent : Bytes) (registry : Registry) :
    Registry × Option (Bytes × UInt64) :=
  let swept := registry.expireAt now
  let key := rawResponsesCompactionV2Key digest sessionID encryptedContent
  match hentry : swept.entries.lookup key with
  | none => (swept, none)
  | some entry =>
    if entry.leased then (swept, none)
    else
      let generation := swept.nextGeneration + 1
      (swept.update key { entry with leased := true, generation := generation } generation
        (AList.lookup_isSome.mp (by rw [hentry]; rfl)), some (entry.transcript, generation))

variable (sessionID encryptedContent : Bytes)

/-- Ends a lease and keeps its entry. -/
def Registry.release (generation : UInt64) (registry : Registry) : Registry :=
  let key := rawResponsesCompactionV2Key digest sessionID encryptedContent
  match hentry : registry.entries.lookup key with
  | none => registry
  | some entry =>
    if entry.generation ≠ generation then registry
    else
      registry.update key { entry with leased := false } registry.nextGeneration
        (AList.lookup_isSome.mp (by rw [hentry]; rfl))

/-- Ends a lease and removes its entry. -/
def Registry.complete (generation : UInt64) (registry : Registry) : Registry × Bool :=
  let key := rawResponsesCompactionV2Key digest sessionID encryptedContent
  match registry.entries.lookup key with
  | none => (registry, false)
  | some entry =>
    if ¬entry.leased ∨ entry.generation ≠ generation then (registry, false)
    else (registry.delete key, true)

end

/-! ### Runs -/

inductive Call where
  | arm (iteration : Iteration) (sessionID encryptedContent transcript : Bytes)
  | disarm (sessionID encryptedContent : Bytes) (generation : UInt64)
  | discard (sessionID encryptedContent : Bytes) (generation : UInt64)
  | matchRecovery (sessionID encryptedContent : Bytes)
  | reserve (sessionID encryptedContent : Bytes)
  | release (sessionID encryptedContent : Bytes) (generation : UInt64)
  | complete (sessionID encryptedContent : Bytes) (generation : UInt64)

/-- What a call returns. -/
inductive Reply where
  | done
  | armed (generation : Option UInt64)
  | matched (transcript : Option Bytes)
  | reserved (lease : Option (Bytes × UInt64))
  | completed (settled : Bool)
  deriving DecidableEq

structure TimedCall where
  now : ℤ
  call : Call

section

variable (digest : Bytes → Bytes)

def Call.key : Call → Bytes
  | .arm _ sessionID encryptedContent _ | .disarm sessionID encryptedContent _
  | .discard sessionID encryptedContent _ | .matchRecovery sessionID encryptedContent
  | .reserve sessionID encryptedContent | .release sessionID encryptedContent _
  | .complete sessionID encryptedContent _ =>
    rawResponsesCompactionV2Key digest sessionID encryptedContent

def Registry.perform (registry : Registry) (timed : TimedCall) : Registry × Reply :=
  match timed.call with
  | .arm iteration sessionID encryptedContent transcript =>
    Prod.map id .armed
      (registry.armWithGeneration digest timed.now iteration sessionID encryptedContent transcript)
  | .disarm sessionID encryptedContent generation =>
    (registry.disarm digest timed.now sessionID encryptedContent generation, .done)
  | .discard sessionID encryptedContent generation =>
    (registry.discard digest timed.now sessionID encryptedContent generation, .done)
  | .matchRecovery sessionID encryptedContent =>
    Prod.map id .matched (registry.matchRecovery digest timed.now sessionID encryptedContent)
  | .reserve sessionID encryptedContent =>
    Prod.map id .reserved (registry.reserve digest timed.now sessionID encryptedContent)
  | .release sessionID encryptedContent generation =>
    (registry.release digest sessionID encryptedContent generation, .done)
  | .complete sessionID encryptedContent generation =>
    Prod.map id .completed (registry.complete digest sessionID encryptedContent generation)

def Registry.run (registry : Registry) (calls : List TimedCall) : Registry :=
  calls.foldl (fun state timed ↦ (state.perform digest timed).1) registry

def Registry.replies : Registry → List TimedCall → List Reply
  | _, [] => []
  | registry, timed :: rest =>
    (registry.perform digest timed).2 :: Registry.replies (registry.perform digest timed).1 rest

/-! ### What one call does to one entry -/

/-- What a call does to the entry of one key, once what has expired is gone. -/
inductive Effect (key : Bytes) (timed : TimedCall) (before : Option RecoveryEntry) :
    Option RecoveryEntry → Reply → Prop
  | kept (reply : Reply) (hreserved : ∀ lease, timed.call.key digest = key →
      reply ≠ .reserved (some lease)) (hcompleted : timed.call.key digest = key →
      reply ≠ .completed true) : Effect key timed before before reply
  | armed (iteration : Iteration) (sessionID encryptedContent transcript : Bytes)
      (generation : UInt64) (hbefore : before = none)
      (hcall : timed.call = .arm iteration sessionID encryptedContent transcript)
      (hkey : timed.call.key digest = key) :
      Effect key timed before (some ⟨transcript, timed.now, false, generation⟩)
        (.armed (some generation))
  | evicted (entry : RecoveryEntry) (iteration : Iteration)
      (sessionID encryptedContent transcript : Bytes) (generation : UInt64)
      (hbefore : before = some entry) (hleased : entry.leased = false)
      (hcall : timed.call = .arm iteration sessionID encryptedContent transcript) :
      Effect key timed before none (.armed (some generation))
  | disarmed (entry : RecoveryEntry) (sessionID encryptedContent : Bytes)
      (hbefore : before = some entry) (hleased : entry.leased = true)
      (hcall : timed.call = .disarm sessionID encryptedContent entry.generation)
      (hkey : timed.call.key digest = key) : Effect key timed before none .done
  | discarded (entry : RecoveryEntry) (sessionID encryptedContent : Bytes)
      (hbefore : before = some entry) (hleased : entry.leased = false)
      (hcall : timed.call = .discard sessionID encryptedContent entry.generation)
      (hkey : timed.call.key digest = key) : Effect key timed before none .done
  | reserved (entry : RecoveryEntry) (sessionID encryptedContent : Bytes) (generation : UInt64)
      (hbefore : before = some entry) (hleased : entry.leased = false)
      (hcall : timed.call = .reserve sessionID encryptedContent)
      (hkey : timed.call.key digest = key) :
      Effect key timed before (some { entry with leased := true, generation := generation })
        (.reserved (some (entry.transcript, generation)))
  | released (entry : RecoveryEntry) (sessionID encryptedContent : Bytes)
    (hbefore : before = some entry)
      (hcall : timed.call = .release sessionID encryptedContent entry.generation)
      (hkey : timed.call.key digest = key) :
      Effect key timed before (some { entry with leased := false }) .done
  | completed (entry : RecoveryEntry) (sessionID encryptedContent : Bytes)
      (hbefore : before = some entry) (hleased : entry.leased = true)
      (hcall : timed.call = .complete sessionID encryptedContent entry.generation)
      (hkey : timed.call.key digest = key) : Effect key timed before none (.completed true)

def RecoveryEntry.alive (now : ℤ) (entry : Option RecoveryEntry) : Option RecoveryEntry :=
  entry.filter fun entry ↦ !entry.expired now

@[simp] theorem lookup_expireAt (now : ℤ) (registry : Registry) (key : Bytes) :
    (registry.expireAt now).entries.lookup key = RecoveryEntry.alive now
      (registry.entries.lookup key) :=
  lookup_expire now registry.entries key

/-- What a call that returns `result` does to the entry of a key. Some calls first remove what has
expired. -/
def Affects (registry : Registry) (key : Bytes) (timed : TimedCall) (result : Registry × Reply) :
    Prop :=
  ∃ before, (before = registry.entries.lookup key ∨
      before = RecoveryEntry.alive timed.now (registry.entries.lookup key)) ∧
    Effect digest key timed before (result.1.entries.lookup key) result.2

section

variable {digest} {key : Bytes} {timed : TimedCall} {swept : Registry} {result : Registry × Reply}
  (hswept : swept = registry ∨ swept = registry.expireAt timed.now)
include hswept

theorem affects_of_effect (heffect : Effect digest key timed (swept.entries.lookup key)
    (result.1.entries.lookup key) result.2) : Affects digest registry key timed result := by
  rcases hswept with rfl | rfl
  · exact ⟨_, .inl rfl, heffect⟩
  · exact ⟨_, .inr rfl, lookup_expireAt timed.now registry key ▸ heffect⟩

theorem affects_kept {reply : Reply}
    (hreply : reply ≠ .completed true ∧ ∀ lease, reply ≠ .reserved (some lease)) :
    Affects digest registry key timed (swept, reply) :=
  affects_of_effect hswept (.kept _ (fun lease _ ↦ hreply.2 lease) fun _ ↦ hreply.1)

theorem affects_own
    (hother : ∀ other, other ≠ timed.call.key digest →
      result.1.entries.lookup other = swept.entries.lookup other)
    (hown : Effect digest (timed.call.key digest) timed
      (swept.entries.lookup (timed.call.key digest))
      (result.1.entries.lookup (timed.call.key digest)) result.2) :
    Affects digest registry key timed result := by
  refine affects_of_effect hswept ?_
  by_cases hkey : key = timed.call.key digest
  · rwa [hkey]
  · rw [hother key hkey]
    exact .kept _ (fun _ hsame ↦ absurd hsame.symm hkey) fun hsame ↦ absurd hsame.symm hkey

end

section

variable (key : Bytes) (now : ℤ) (sessionID encryptedContent : Bytes) (generation : UInt64)
  (registry : Registry)

/-- Arming adds an entry where there is none, and may evict one that is not leased. -/
theorem affects_arm (iteration : Iteration) (transcript : Bytes) :
    Affects digest registry key ⟨now, .arm iteration sessionID encryptedContent transcript⟩
      (registry.perform digest ⟨now, .arm iteration sessionID encryptedContent transcript⟩) := by
  dsimp [perform, armWithGeneration]
  split_ifs with hblank hexists
  · exact affects_kept (.inl rfl) (by simp)
  · exact affects_kept (.inr rfl) (by simp)
  split
  · exact affects_kept (.inr rfl) (by simp)
  · next room hroom =>
    refine affects_of_effect (.inr rfl) ?_
    dsimp
    rw [store_entries]
    by_cases hkey : key = rawResponsesCompactionV2Key digest sessionID encryptedContent
    · rw [hkey, lookup_insert]
      exact .armed iteration sessionID encryptedContent transcript _
        (lookup_eq_none.mpr hexists) rfl rfl
    rw [lookup_insert_ne hkey]
    rcases makeRoom_eq_some hroom with hsame | ⟨evicted, entry, hentry, hleased, herase⟩
    · rw [hsame]
      exact .kept _ (by simp) (by simp)
    rw [herase]
    by_cases hevicted : key = evicted
    · rw [hevicted, lookup_erase]
      exact .evicted entry iteration sessionID encryptedContent transcript _ hentry hleased rfl
    · rw [lookup_erase_ne hevicted]
      exact .kept _ (by simp) (by simp)

/-- A disarm removes a leased entry of its generation, and a discard one that is not leased. -/
theorem affects_removeOwned (leased : Bool) (registry : Registry) {call : Call}
    (hcall : call = bif leased then .disarm sessionID encryptedContent generation
      else .discard sessionID encryptedContent generation) :
    Affects digest registry key ⟨now, call⟩
      (registry.removeOwned digest leased now sessionID encryptedContent generation, .done) := by
  have hown : call.key digest = rawResponsesCompactionV2Key digest sessionID encryptedContent := by
    cases leased <;> rw [hcall] <;> rfl
  unfold removeOwned
  dsimp only
  split_ifs with hblank
  · exact affects_kept (.inl rfl) (by simp)
  split
  · exact affects_kept (.inr rfl) (by simp)
  · next entry hentry =>
    split_ifs with hother
    · exact affects_kept (.inr rfl) (by simp)
    rw [← hown] at hentry ⊢
    refine affects_own (.inr rfl) (fun other hne ↦ lookup_erase_ne hne) ?_
    simp only [not_or, not_not] at hother
    obtain ⟨hleased, rfl⟩ := hother
    rw [delete_entries, lookup_erase]
    cases leased with
    | true => exact .disarmed entry sessionID encryptedContent hentry hleased hcall rfl
    | false => exact .discarded entry sessionID encryptedContent hentry hleased hcall rfl

theorem affects_matchRecovery :
    Affects digest registry key ⟨now, .matchRecovery sessionID encryptedContent⟩
      (registry.perform digest ⟨now, .matchRecovery sessionID encryptedContent⟩) := by
  dsimp [perform, matchRecovery]
  split
  · exact affects_kept (.inr rfl) (by simp)
  · split_ifs <;> exact affects_kept (.inr rfl) (by simp)

theorem affects_reserve :
    Affects digest registry key ⟨now, .reserve sessionID encryptedContent⟩
      (registry.perform digest ⟨now, .reserve sessionID encryptedContent⟩) := by
  dsimp [perform, reserve]
  split
  · exact affects_kept (.inr rfl) (by simp)
  · next entry hentry =>
    split_ifs with hleased
    · exact affects_kept (.inr rfl) (by simp)
    refine affects_own (.inr rfl) (fun other hne ↦ lookup_insert_ne hne) ?_
    dsimp [Call.key]
    rw [update_entries, lookup_insert]
    exact .reserved entry sessionID encryptedContent _ hentry (by simpa using hleased) rfl rfl

theorem affects_release :
    Affects digest registry key ⟨now, .release sessionID encryptedContent generation⟩
      (registry.perform digest ⟨now, .release sessionID encryptedContent generation⟩) := by
  dsimp only [perform, release]
  split
  · exact affects_kept (.inl rfl) (by simp)
  · next entry hentry =>
    split_ifs with hother
    · exact affects_kept (.inl rfl) (by simp)
    refine affects_own (.inl rfl) (fun other hne ↦ lookup_insert_ne hne) ?_
    dsimp only [Call.key]
    rw [update_entries, lookup_insert]
    exact .released entry sessionID encryptedContent hentry (by rw [not_not.mp hother]) rfl

/-- Completing removes the leased entry of its key and generation, and no other. -/
theorem affects_complete :
    Affects digest registry key ⟨now, .complete sessionID encryptedContent generation⟩
      (registry.perform digest ⟨now, .complete sessionID encryptedContent generation⟩) := by
  dsimp [perform, complete]
  split
  · exact affects_kept (.inl rfl) (by simp)
  · next entry hentry =>
    split_ifs with hother
    · exact affects_kept (.inl rfl) (by simp)
    push Not at hother
    refine affects_own (.inl rfl) (fun other hne ↦ lookup_erase_ne hne) ?_
    dsimp [Call.key]
    rw [delete_entries, lookup_erase]
    exact .completed entry sessionID encryptedContent hentry (by simpa using hother.1)
      (by rw [hother.2]) rfl

end

theorem effect_perform (registry : Registry) (key : Bytes) (timed : TimedCall) :
    Affects digest registry key timed (registry.perform digest timed) := by
  obtain ⟨_, call⟩ := timed
  cases call with
  | arm => exact affects_arm ..
  | disarm => exact affects_removeOwned _ _ _ _ _ _ true registry rfl
  | discard => exact affects_removeOwned _ _ _ _ _ _ false registry rfl
  | matchRecovery => exact affects_matchRecovery ..
  | reserve => exact affects_reserve ..
  | release => exact affects_release ..
  | complete => exact affects_complete ..

variable {entry : RecoveryEntry} {now : ℤ}

theorem alive_of_not_expired (hexpired : entry.expired now = false) :
    RecoveryEntry.alive now (some entry) = some entry := by
  simp [RecoveryEntry.alive, Option.filter, hexpired]

/-! ### Leases over a run -/

/-- A release, a completion or a disarm of its key and generation, or its entry has expired. -/
def TimedCall.EndsLease (key : Bytes) (lease : RecoveryEntry) (timed : TimedCall) : Prop :=
  lease.expired timed.now = true ∨ (timed.call.key digest = key ∧ ∃ sessionID encryptedContent,
      timed.call = .release sessionID encryptedContent lease.generation ∨
        timed.call = .complete sessionID encryptedContent lease.generation ∨
        timed.call = .disarm sessionID encryptedContent lease.generation)

variable {timed : TimedCall} {calls : List TimedCall}

section

variable {key : Bytes} {lease : RecoveryEntry} (hlookup : registry.entries.lookup key = some lease)
  (hleased : lease.leased = true)
include hlookup hleased

/-- A call that does not end a lease keeps its entry and does not hand it out again. -/
theorem leased_perform (hkeeps : ¬timed.EndsLease digest key lease) :
    (registry.perform digest timed).1.entries.lookup key = some lease ∧
      ∀ again, timed.call.key digest = key →
        (registry.perform digest timed).2 ≠ .reserved (some again) := by
  simp only [TimedCall.EndsLease, not_or, Bool.not_eq_true] at hkeeps
  obtain ⟨hexpired, hends⟩ := hkeeps
  obtain ⟨_, hbefore, heffect⟩ := effect_perform digest registry key timed
  rw [hlookup, alive_of_not_expired hexpired, or_self] at hbefore
  subst hbefore
  generalize hafter : (registry.perform digest timed).1.entries.lookup key = after at heffect
  generalize hreply : (registry.perform digest timed).2 = reply at heffect
  cases heffect with
  | kept _ hreserved => exact ⟨rfl, fun again hkey ↦ hreserved again hkey⟩
  | armed _ _ _ _ _ hnone => cases hnone
  | evicted _ _ _ _ _ _ hentry hfree
  | discarded _ _ _ hentry hfree
  | reserved _ _ _ _ hentry hfree =>
    cases hentry
    exact absurd hleased (by simp [hfree])
  | disarmed _ sessionID encryptedContent hentry _ hcall hkey
  | released _ sessionID encryptedContent hentry hcall hkey
  | completed _ sessionID encryptedContent hentry _ hcall hkey =>
    cases hentry
    exact absurd ⟨hkey, sessionID, encryptedContent, by simp [hcall]⟩ hends

/-- A lease survives every run of calls of which none ends it. -/
theorem leased_run (hkeeps : ∀ timed ∈ calls, ¬timed.EndsLease digest key lease) :
    (registry.run digest calls).entries.lookup key = some lease := by
  induction calls generalizing registry with
  | nil => exact hlookup
  | cons timed _ ih =>
    have hstep := leased_perform digest hlookup hleased (hkeeps timed mem_cons_self)
    exact ih hstep.1 fun later hlater ↦ hkeeps later (mem_cons_of_mem _ hlater)

end

theorem leased_of_reserved {lease : Bytes × UInt64}
    (hreply : (registry.perform digest timed).2 = .reserved (some lease)) :
    ∃ entry, (registry.perform digest timed).1.entries.lookup (timed.call.key digest) = some entry ∧
      entry.leased = true ∧ entry.generation = lease.2 := by
  obtain ⟨_, -, heffect⟩ := effect_perform digest registry _ timed
  generalize hafter : (registry.perform digest timed).1.entries.lookup _ = after at heffect
  rw [hreply] at heffect
  cases heffect with
  | kept _ hreserved => exact absurd rfl (hreserved lease rfl)
  | reserved => exact ⟨_, rfl, rfl, rfl⟩

/-! ### Completions over a run -/

/-- An entry that appears during a run was armed by one of its calls. -/
theorem absent_run {key : Bytes} (hlookup : registry.entries.lookup key = none)
    (calls : List TimedCall) :
    (registry.run digest calls).entries.lookup key = none ∨
      ∃ before timed after generation, calls = before ++ timed :: after ∧
      timed.call.key digest = key ∧
        ((registry.run digest before).perform digest timed).2 = .armed (some generation) := by
  induction calls generalizing registry with
  | nil => exact .inl hlookup
  | cons timed rest ih =>
    obtain ⟨before, hbefore, heffect⟩ := effect_perform digest registry key timed
    have hnone : before = none := by
      rcases hbefore with rfl | rfl <;> rw [hlookup]
      rfl
    subst hnone
    by_cases hafter : (registry.perform digest timed).1.entries.lookup key = none
    · rcases ih hafter with hrest | ⟨first, armed, last, generation, rfl, hkey, hreply⟩
      · exact .inl hrest
      · exact .inr ⟨timed :: first, armed, last, generation, rfl, hkey, hreply⟩
    refine .inr ⟨[], timed, rest, ?_⟩
    generalize hentry : (registry.perform digest timed).1.entries.lookup key =
      entry at heffect hafter
    generalize hreply : (registry.perform digest timed).2 = reply at heffect
    cases heffect with
    | kept => exact absurd rfl hafter
    | armed _ _ _ _ generation _ _ hkey => exact ⟨generation, rfl, hkey, hreply⟩
    | evicted _ _ _ _ _ _ hsome | disarmed _ _ _ hsome | discarded _ _ _ hsome
    | reserved _ _ _ _ hsome | released _ _ _ hsome | completed _ _ _ hsome => cases hsome

theorem removed_of_completed (hreply : (registry.perform digest timed).2 = .completed true) :
    registry.entries.lookup (timed.call.key digest) ≠ none ∧
      (registry.perform digest timed).1.entries.lookup (timed.call.key digest) = none := by
  obtain ⟨_, hbefore, heffect⟩ := effect_perform digest registry _ timed
  generalize (registry.perform digest timed).1.entries.lookup _ = after at heffect
  rw [hreply] at heffect
  cases heffect with
  | kept _ _ hcompleted => exact absurd rfl (hcompleted rfl)
  | completed _ _ _ hentry =>
    refine ⟨fun hnone ↦ ?_, rfl⟩
    rw [hnone, hentry] at hbefore
    rcases hbefore with hbefore | hbefore <;> cases hbefore

/-! ### Generations -/

def Reply.generation : Reply → Option UInt64
  | .armed generation => generation
  | .reserved lease => lease.map Prod.snd
  | _ => none

def Registry.generations (registry : Registry) (calls : List TimedCall) : List UInt64 :=
  (registry.replies digest calls).filterMap Reply.generation

theorem nextGeneration_removeOwned (leased : Bool) (now : ℤ) (sessionID encryptedContent : Bytes)
    (generation : UInt64) (registry : Registry) :
    (registry.removeOwned digest leased now sessionID encryptedContent generation).nextGeneration =
      registry.nextGeneration := by
  simp only [removeOwned]
  split_ifs
  · rfl
  · split
    · rfl
    · split_ifs <;> rfl

/-- A call hands out the next generation and counts it, or hands out none. -/
theorem generation_perform (registry : Registry) (timed : TimedCall) :
    ((registry.perform digest timed).2.generation = none ∧
        (registry.perform digest timed).1.nextGeneration = registry.nextGeneration) ∨
      ((registry.perform digest timed).2.generation = some (registry.nextGeneration + 1) ∧
        (registry.perform digest timed).1.nextGeneration = registry.nextGeneration + 1) := by
  obtain ⟨_, call⟩ := timed
  cases call with
  | disarm | discard => exact .inl ⟨rfl, nextGeneration_removeOwned ..⟩
  | arm | matchRecovery | reserve | release | complete =>
    -- every branch returns the counter as it was, or hands out the next generation
    simp only [perform, armWithGeneration, matchRecovery, reserve, release, complete]
    repeat' split
    all_goals first
      | exact .inl ⟨rfl, rfl⟩
      | exact .inr ⟨rfl, rfl⟩

/-- The generations of a run are consecutive. -/
theorem getElem?_generations {index : ℕ} {generation : UInt64}
    (hindex : (registry.generations digest calls)[index]? = some generation) :
    generation = registry.nextGeneration + UInt64.ofNat (index + 1) := by
  induction calls generalizing registry index with
  | nil => simp [generations, replies] at hindex
  | cons timed _ ih =>
    rw [generations, replies, filterMap_cons] at hindex
    rcases generation_perform digest registry timed with ⟨hnone, hnext⟩ | ⟨hsome, hnext⟩
    · rw [hnone] at hindex
      rw [ih hindex, hnext]
    rw [hsome] at hindex
    cases index with
    | zero => simpa using hindex.symm
    | succ index =>
      have hrest := @ih (registry.perform digest timed).1 index hindex
      rw [hrest, hnext, UInt64.ofNat_add (index + 1) 1, UInt64.add_assoc, UInt64.add_comm 1 _]
      rfl

/-! ### What the registry promises -/

def Call.generation : Call → Option UInt64
  | .disarm _ _ generation | .discard _ _ generation
  | .release _ _ generation | .complete _ _ generation => some generation
  | _ => none

/-- A removal with another generation than the entry's removes nothing but what has expired. -/
theorem removeOwned_stale {leased : Bool} {sessionID encryptedContent : Bytes} {generation : UInt64}
    (hstale : ∀ entry, registry.entries.lookup
        (rawResponsesCompactionV2Key digest sessionID encryptedContent) = some entry →
      entry.generation ≠ generation) :
    registry.removeOwned digest leased now sessionID encryptedContent generation = registry ∨
      registry.removeOwned digest leased now sessionID encryptedContent generation =
        registry.expireAt now := by
  simp only [removeOwned]
  split_ifs
  · exact .inl rfl
  right
  split
  · rfl
  · next entry hentry =>
    rw [lookup_expireAt, RecoveryEntry.alive, Option.filter_eq_some_iff] at hentry
    rw [if_pos (.inr (hstale entry hentry.1))]

/-- A call that carries a stale generation changes nothing but what has expired. -/
theorem perform_stale {generation : UInt64} (hcarries : timed.call.generation = some generation)
    (hstale : ∀ entry, registry.entries.lookup (timed.call.key digest) = some entry →
      entry.generation ≠ generation) :
    (registry.perform digest timed).1 = registry ∨
      (registry.perform digest timed).1 = registry.expireAt timed.now := by
  obtain ⟨_, call⟩ := timed
  cases call with
  | arm | matchRecovery | reserve => cases hcarries
  | disarm | discard =>
    cases hcarries
    exact removeOwned_stale digest hstale
  | release | complete =>
    cases hcarries
    simp only [perform, release, complete]
    split
    · exact .inl rfl
    · next entry hentry =>
      rw [if_pos (by simp [hstale entry hentry])]
      exact .inl rfl

/-- Arming any key keeps an entry that is leased and has not expired. -/
theorem arm_keeps_leased {key : Bytes}
    (hlookup : registry.entries.lookup key = some entry) (hleased : entry.leased = true)
    {sessionID encryptedContent transcript : Bytes}
    (hcall : timed.call = .arm iteration sessionID encryptedContent transcript)
    (hexpired : entry.expired timed.now = false) :
    (registry.perform digest timed).1.entries.lookup key = some entry := by
  refine (leased_perform digest hlookup hleased ?_).1
  simp [TimedCall.EndsLease, hexpired, hcall]

/-- In every run from the empty registry there are at most 32 entries; generations handed out fewer
than `2 ^ 64` apart differ; between two reserves of a key the first lease ends under its generation,
or its entry expires; between two completions of a key an arm of it succeeds; a call with another
generation than the entry's removes at most what has expired; and only an arm evicts, and no lease
that has not expired. -/
theorem registry_fenced (calls : List TimedCall) :
    let registry := newRawResponsesCompactionV2Registry.run digest calls
    registry.entries.entries.length ≤ 32 ∧
    (∀ first second generation, first < second → second - first < 2 ^ 64 →
      (newRawResponsesCompactionV2Registry.generations digest calls)[first]? = some generation →
      (newRawResponsesCompactionV2Registry.generations digest calls)[second]? ≠ some generation) ∧
    (∀ first between second lease again, first.call.key digest = second.call.key digest →
      (registry.perform digest first).2 = .reserved (some lease) →
      (((registry.perform digest first).1.run digest between).perform digest second).2 =
        .reserved (some again) →
      ∃ entry, (registry.perform digest first).1.entries.lookup (first.call.key digest) =
          some entry ∧ entry.generation = lease.2 ∧
        ∃ timed ∈ between ++ [second], timed.EndsLease digest (first.call.key digest) entry) ∧
    (∀ first between second, first.call.key digest = second.call.key digest →
      (registry.perform digest first).2 = .completed true →
      (((registry.perform digest first).1.run digest between).perform digest second).2 =
        .completed true → ∃ before timed after generation, between = before ++ timed :: after ∧
        timed.call.key digest = first.call.key digest ∧
        (((registry.perform digest first).1.run digest before).perform digest timed).2 =
          .armed (some generation)) ∧
    (∀ timed generation, timed.call.generation = some generation →
      (∀ entry, registry.entries.lookup (timed.call.key digest) = some entry →
        entry.generation ≠ generation) →
      (registry.perform digest timed).1 = registry ∨
        (registry.perform digest timed).1 = registry.expireAt timed.now) ∧
    (∀ now iteration sessionID encryptedContent transcript key entry,
      registry.entries.lookup key = some entry → entry.leased = true →
      entry.expired now = false →
      (registry.perform digest
        ⟨now, .arm iteration sessionID encryptedContent transcript⟩).1.entries.lookup key =
        some entry) := by
  intro registry
  refine ⟨registry.length_le, ?_, ?_, ?_, ?_, ?_⟩
  · intro first second generation _ _ hfirst hsecond
    have hequal :=
      (getElem?_generations digest hfirst).symm.trans (getElem?_generations digest hsecond)
    have hnat := congrArg UInt64.toNat (add_left_cancel hequal)
    simp only [UInt64.toNat_ofNat'] at hnat
    omega
  · intro first between second _ again hkey hfirst hsecond
    obtain ⟨entry, hentry, hleased, hgeneration⟩ := leased_of_reserved digest hfirst
    refine ⟨entry, hentry, hgeneration, ?_⟩
    by_contra hnone
    push Not at hnone
    have hheld :=
      leased_run digest hentry hleased (fun timed htimed ↦ hnone timed (mem_append_left _ htimed))
    exact (leased_perform digest hheld hleased (hnone second (by simp))).2 again hkey.symm hsecond
  · intro _ between _ hkey hfirst hsecond
    have hgone := (removed_of_completed digest hfirst).2
    have hfound := (removed_of_completed digest hsecond).1
    rw [← hkey] at hfound
    exact (absent_run digest hgone between).resolve_left hfound
  · intro _ _ hcarries hstale
    exact perform_stale digest hcarries hstale
  · intro _ _ _ _ _ _ _ hlookup hleased hexpired
    exact arm_keeps_leased digest hlookup hleased rfl hexpired

end

def sampleIteration : Iteration where
  order := fun entries ↦ entries
  perm := fun _ ↦ .refl _

/-- A disarm ends a lease with no release, completion or expiry in between, and a disarm with
another generation still removes an entry that has expired. -/
theorem disarm_ends_lease :
    newRawResponsesCompactionV2Registry.replies id
        [⟨0, .arm sampleIteration [1] [2] [3]⟩, ⟨0, .reserve [1] [2]⟩, ⟨0, .disarm [1] [2] 2⟩,
          ⟨0, .arm sampleIteration [1] [2] [3]⟩, ⟨0, .reserve [1] [2]⟩] =
      [.armed (some 1), .reserved (some ([3], 2)), .done, .armed (some 3),
        .reserved (some ([3], 4))] ∧
    let registry := newRawResponsesCompactionV2Registry.run id
      [⟨0, .arm sampleIteration [1] [2] [3]⟩, ⟨1, .arm sampleIteration [1] [4] [5]⟩]
    let expired := rawResponsesCompactionV2Key id [1] [2]
    let stale : TimedCall := ⟨rawResponsesCompactionV2TTL, .disarm [1] [4] 7⟩
    registry.entries.lookup (stale.call.key id) = some ⟨[5], 1, false, 2⟩ ∧
      registry.entries.lookup expired = some ⟨[3], 0, false, 1⟩ ∧
      (registry.perform id stale).1.entries.lookup expired = none := by
  decide

end Clyde.Codex
