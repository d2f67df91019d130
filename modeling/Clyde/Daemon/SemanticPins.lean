import Mathlib.Data.List.Dedup
import Mathlib.Data.List.TakeWhile
import Clyde.Daemon.SemanticSync

/-!
# A pinned fingerprint is the one in the checkpoint

The worker pins a conversation to the fingerprint of its last delivery, and the engine is to have
that fingerprint in its checkpoint. `pins_agree_with_checkpoint` proves it for every run whose
passes are `Kept`. `pin_without_checkpoint` has a run for either condition.

The invariant is `Agrees`.
-/

set_option autoImplicit false

namespace Clyde.Daemon.SemanticSync

open List Option Function Engine

variable {Doc Hash : Type}

/-! ### The manifest -/

variable {pin : PinnedFingerprintRecord}

section

variable {worker : Worker Hash} {id fingerprint : String}

theorem advertised_pins_of_ne {other : String} (hother : other ≠ id) :
    (advertised worker id fingerprint).1.pinnedFingerprints other =
      worker.pinnedFingerprints other := by
  unfold advertised
  split
  · split_ifs
    · rfl
    · exact update_of_ne hother _ _
  · rfl

@[simp] theorem advertised_deliveredContent :
    (advertised worker id fingerprint).1.deliveredContent = worker.deliveredContent := by
  unfold advertised
  split
  · split_ifs <;> rfl
  · rfl

theorem advertised_of_pin
    (hpin : (advertised worker id fingerprint).1.pinnedFingerprints id = some pin) :
    worker.pinnedFingerprints id = some pin ∧ pin.observed = fingerprint ∧
      (advertised worker id fingerprint).2 = pin.advertise := by
  unfold advertised at hpin ⊢
  split at hpin
  · next prior hprior =>
    by_cases hobserved : prior.observed = fingerprint
    · simp only [hprior, hobserved, if_true] at hpin ⊢
      cases hpin
      exact ⟨rfl, hobserved, rfl⟩
    · simp [hobserved] at hpin
  · next hprior => simp [hprior] at hpin

theorem advertised_of_no_pin
    (hpin : (advertised worker id fingerprint).1.pinnedFingerprints id = none) :
    (advertised worker id fingerprint).2 = fingerprint := by
  unfold advertised at hpin ⊢
  split
  · next prior hprior =>
    by_cases hobserved : prior.observed = fingerprint
    · simp [hprior, hobserved] at hpin
    · simp [hobserved]
  · rfl

/-- A pin whose observed fingerprint is still the record's stays. -/
theorem advertised_keeps
    (hpin : worker.pinnedFingerprints id = some pin) (hobserved : pin.observed = fingerprint) :
    (advertised worker id fingerprint).1.pinnedFingerprints id = some pin := by
  simp [advertised, hpin, hobserved]

@[simp] theorem suppressedEmpty_pins :
    (suppressedEmpty worker id fingerprint).1.pinnedFingerprints = worker.pinnedFingerprints := by
  unfold suppressedEmpty
  split
  · split_ifs <;> rfl
  · rfl

@[simp] theorem suppressedEmpty_deliveredContent :
    (suppressedEmpty worker id fingerprint).1.deliveredContent = worker.deliveredContent := by
  unfold suppressedEmpty
  split
  · split_ifs <;> rfl
  · rfl

@[simp] theorem suppressedFailed_pins :
    (suppressedFailed worker id fingerprint).1.pinnedFingerprints = worker.pinnedFingerprints := by
  unfold suppressedFailed
  split
  · split_ifs <;> rfl
  · rfl

@[simp] theorem suppressedFailed_deliveredContent :
    (suppressedFailed worker id fingerprint).1.deliveredContent = worker.deliveredContent := by
  unfold suppressedFailed
  split
  · split_ifs <;> rfl
  · rfl

/-- Nothing, or the worker looks at the record's pin and may list it under the stated fingerprint.
-/
theorem manifestStep_cases (build : ManifestBuild Hash) (record : StampedRecord) :
    manifestStep build record = build ∨ record.id ∉ build.seen ∧
      (manifestStep build record).seen = record.id :: build.seen ∧
      (manifestStep build record).worker.deliveredContent = build.worker.deliveredContent ∧
      (manifestStep build record).worker.pinnedFingerprints =
        (advertised build.worker record.id record.fingerprint).1.pinnedFingerprints ∧
      ((manifestStep build record).manifest = build.manifest ∧
          (manifestStep build record).records = build.records ∨
        (manifestStep build record).manifest = build.manifest ++
            [⟨record.id, (advertised build.worker record.id record.fingerprint).2⟩] ∧
          (manifestStep build record).records = build.records ++ [record]) := by
  unfold manifestStep
  by_cases hskipped : record.id = "" ∨ record.id ∈ build.seen
  · exact .inl (if_pos hskipped)
  refine .inr ⟨fun hseen ↦ hskipped (.inr hseen), ?_⟩
  dsimp only
  split_ifs <;> simp

/-- A manifest under construction, from the worker at its beginning. -/
structure Stated (worker : Worker Hash) (scanned : List StampedRecord)
    (build : ManifestBuild Hash) :
    Prop where
  content : build.worker.deliveredContent = worker.deliveredContent
  unseen : ∀ id, id ∉ build.seen → build.worker.pinnedFingerprints id = worker.pinnedFingerprints id
  pins : ∀ id pin, build.worker.pinnedFingerprints id = some pin →
    worker.pinnedFingerprints id = some pin
  kept : ∀ id pin, worker.pinnedFingerprints id = some pin →
    (∀ record ∈ scanned, record.id = id → pin.observed = record.fingerprint) →
    build.worker.pinnedFingerprints id = some pin
  observed : ∀ id pin, build.worker.pinnedFingerprints id = some pin → id ∈ build.seen →
    ∃ record ∈ scanned, record.id = id ∧ record.fingerprint = pin.observed
  listed : ∀ record ∈ build.records, record ∈ scanned ∧ record.id ∈ build.seen
  entries : ∀ entry ∈ build.manifest, ∃ record ∈ build.records, record.id = entry.conversationId ∧
      entry.value = ((build.worker.pinnedFingerprints record.id).map
        PinnedFingerprintRecord.advertise).getD record.fingerprint
  distinct : (build.records.map StampedRecord.id).Nodup

theorem Stated.begin (worker : Worker Hash) (scanned : List StampedRecord) :
    Stated worker scanned ⟨worker, [], [], []⟩ where
  content := rfl
  unseen _ _ := rfl
  pins _ _ hpin := hpin
  kept _ _ hpin _ := hpin
  observed _ _ _ hseen := absurd hseen not_mem_nil
  listed _ hrecord := absurd hrecord not_mem_nil
  entries _ hentry := absurd hentry not_mem_nil
  distinct := nodup_nil

/-- One scanned record keeps the manifest in step with the worker. -/
theorem Stated.step {worker : Worker Hash} {scanned : List StampedRecord}
    {build : ManifestBuild Hash} (hstated : Stated worker scanned build) {record : StampedRecord}
    (hrecord : record ∈ scanned) :
    Stated worker scanned (manifestStep build record) := by
  obtain hsame | ⟨hnew, hseen, hcontent, hpins, hlists⟩ := manifestStep_cases build record
  · rwa [hsame]
  set after := manifestStep build record
  have hold : ∀ other ∈ build.records, other.id ≠ record.id := by
    rintro other hother hid
    exact hnew (hid ▸ (hstated.listed other hother).2)
  have hpinsOld : ∀ id, id ≠ record.id →
      after.worker.pinnedFingerprints id = build.worker.pinnedFingerprints id := by
    intro id hid
    rw [hpins, advertised_pins_of_ne hid]
  -- The value that is stated for the record, in terms of the pin that is left.
  have hvalue : (advertised build.worker record.id record.fingerprint).2 =
      ((after.worker.pinnedFingerprints record.id).map
        PinnedFingerprintRecord.advertise).getD record.fingerprint := by
    rw [hpins]
    cases hleft :
      (advertised build.worker record.id record.fingerprint).1.pinnedFingerprints record.id with
    | none => exact advertised_of_no_pin hleft
    | some pin => exact (advertised_of_pin hleft).2.2
  have hlistedOld : ∀ other ∈ build.records, other ∈ scanned ∧ other.id ∈ after.seen := by
    intro other hother
    rw [hseen]
    exact (hstated.listed other hother).imp_right (mem_cons_of_mem _)
  have hentriesOld : ∀ entry ∈ build.manifest, ∃ other ∈ build.records,
    other.id = entry.conversationId ∧ entry.value = ((after.worker.pinnedFingerprints other.id).map
          PinnedFingerprintRecord.advertise).getD other.fingerprint := by
    intro entry hentry
    obtain ⟨other, hother, hid, hentryValue⟩ := hstated.entries entry hentry
    exact ⟨other, hother, hid, by rw [hpinsOld other.id (hold other hother), hentryValue]⟩
  constructor
  · exact hcontent.trans hstated.content
  · intro id hid
    rw [hseen, mem_cons, not_or] at hid
    rw [hpinsOld id hid.1, hstated.unseen id hid.2]
  · intro id pin hpin
    by_cases hid : id = record.id
    · subst hid
      rw [hpins] at hpin
      rw [← hstated.unseen record.id hnew]
      exact (advertised_of_pin hpin).1
    · rw [hpinsOld id hid] at hpin
      exact hstated.pins id pin hpin
  · intro id pin hpin hobserved
    by_cases hid : id = record.id
    · subst hid
      rw [hpins]
      refine advertised_keeps ?_ (hobserved record hrecord rfl)
      rw [hstated.unseen record.id hnew, hpin]
    · rw [hpinsOld id hid]
      exact hstated.kept id pin hpin hobserved
  · intro id pin hpin hid
    by_cases hsame : id = record.id
    · subst hsame
      rw [hpins] at hpin
      exact ⟨record, hrecord, rfl, (advertised_of_pin hpin).2.1.symm⟩
    · rw [hpinsOld id hsame] at hpin
      rw [hseen] at hid
      exact hstated.observed id pin hpin ((mem_cons.mp hid).resolve_left hsame)
  · obtain ⟨-, hrecords⟩ | ⟨-, hrecords⟩ := hlists <;> rw [hrecords]
    · exact hlistedOld
    · refine forall_mem_append.mpr ⟨hlistedOld, forall_mem_singleton.mpr ⟨hrecord, ?_⟩⟩
      rw [hseen]
      exact mem_cons_self
  · obtain ⟨hmanifest, hrecords⟩ | ⟨hmanifest, hrecords⟩ := hlists <;> rw [hmanifest, hrecords]
    · exact hentriesOld
    refine forall_mem_append.mpr ⟨fun entry hentry ↦ ?_, forall_mem_singleton.mpr
      ⟨record, mem_append_right _ (mem_singleton_self _), rfl, hvalue⟩⟩
    obtain ⟨other, hother, hfacts⟩ := hentriesOld entry hentry
    exact ⟨other, mem_append_left _ hother, hfacts⟩
  obtain ⟨-, hrecords⟩ | ⟨-, hrecords⟩ := hlists <;> rw [hrecords]
  · exact hstated.distinct
  rw [map_append, nodup_append]
  refine ⟨hstated.distinct, nodup_singleton _, ?_⟩
  rintro _ hid _ hother rfl
  obtain ⟨old, hold', rfl⟩ := mem_map.mp hid
  exact hold old hold' (mem_singleton.mp hother)

theorem stated_foldl (worker : Worker Hash) (scanned : List StampedRecord) :
    Stated worker scanned (scanned.foldl manifestStep ⟨worker, [], [], []⟩) :=
  List.foldlRecOn scanned manifestStep (Stated.begin worker scanned)
    fun _ hstated _ hrecord ↦ hstated.step hrecord

end

variable {memo : DeliveredContentRecord Hash}

section

variable {worker : Worker Hash} {scanned : List StampedRecord} {engine : Engine Doc}
  {id : String} {pin : PinnedFingerprintRecord}

theorem pruned_eq_some {Value : Type} {seen : List String} {entries : String → Option Value}
    {value : Value} :
    pruned seen entries id = some value ↔ id ∈ seen ∧ entries id = some value := by
  simp [pruned]

theorem buildManifest_content
    (hmemo : (buildManifest worker scanned).worker.deliveredContent id = some memo) :
    worker.deliveredContent id = some memo := by
  rw [← (stated_foldl worker scanned).content]
  exact (pruned_eq_some.mp hmemo).2

section

variable (hpin : (buildManifest worker scanned).worker.pinnedFingerprints id = some pin)
include hpin

theorem buildManifest_pin : worker.pinnedFingerprints id = some pin :=
  (stated_foldl worker scanned).pins id pin (pruned_eq_some.mp hpin).2

theorem buildManifest_observed :
    ∃ record ∈ scanned, record.id = id ∧ record.fingerprint = pin.observed :=
  (stated_foldl worker scanned).observed id pin (pruned_eq_some.mp hpin).2
    (pruned_eq_some.mp hpin).1

end

/-- An entry states what its conversation's pin advertises, and without a pin its fingerprint. -/
theorem buildManifest_entry {entry : Fingerprint}
    (hentry : entry ∈ (buildManifest worker scanned).manifest) :
    ∃ record ∈ scanned, record.id = entry.conversationId ∧
      (buildManifest worker scanned).records.find? (fun other ↦ other.id = entry.conversationId) =
        some record ∧
      manifestValue (buildManifest worker scanned).manifest entry.conversationId =
        some entry.value ∧
      entry.value = (((buildManifest worker scanned).worker.pinnedFingerprints record.id).map
        PinnedFingerprintRecord.advertise).getD record.fingerprint := by
  have hstated := stated_foldl worker scanned
  obtain ⟨record, hrecord, hid, hvalue⟩ := hstated.entries entry hentry
  have hunique : ∀ other ∈ (buildManifest worker scanned).records,
      other.id = entry.conversationId → other = record := by
    intro other hother hotherId
    exact inj_on_of_nodup_map hstated.distinct hother hrecord (hotherId.trans hid.symm)
  have hpin : (buildManifest worker scanned).worker.pinnedFingerprints record.id =
      (scanned.foldl manifestStep ⟨worker, [], [], []⟩).worker.pinnedFingerprints record.id :=
    if_pos (hstated.listed record hrecord).2
  refine ⟨record, (hstated.listed record hrecord).1, hid, ?_, ?_, by rw [hpin]; exact hvalue⟩
  · cases hfound : (buildManifest worker scanned).records.find?
        (fun other ↦ other.id = entry.conversationId) with
    | none => exact absurd hid (by simpa using find?_eq_none.mp hfound record hrecord)
    | some other =>
      rw [hunique other (mem_of_find?_eq_some hfound) (by simpa using find?_some hfound)]
  unfold manifestValue
  cases hfound : (buildManifest worker scanned).manifest.reverse.find?
      (fun other ↦ other.conversationId = entry.conversationId) with
  | none => simpa using find?_eq_none.mp hfound entry (mem_reverse.mpr hentry)
  | some other =>
    have hother : other ∈ (buildManifest worker scanned).manifest :=
      mem_reverse.mp (mem_of_find?_eq_some hfound)
    have hotherId : other.conversationId = entry.conversationId := by simpa using find?_some hfound
    obtain ⟨found, hfoundRecord, hfoundId, hfoundValue⟩ := hstated.entries other hother
    rw [hunique found hfoundRecord (hfoundId.trans hotherId)] at hfoundValue
    exact congrArg some (hfoundValue.trans hvalue.symm)

theorem mem_needed {manifest : List Fingerprint} (hneeded : id ∈ engine.needed manifest) :
    ∃ entry ∈ manifest, entry.conversationId = id ∧ engine.checkpoint id ≠ some entry.value := by
  rw [needed, List.mem_insertionSort, List.mem_dedup, List.mem_map] at hneeded
  obtain ⟨entry, hentry, rfl⟩ := hneeded
  rw [mem_filter] at hentry
  exact ⟨entry, hentry.1, rfl, by simpa using (of_decide_eq_true hentry.2).2⟩

theorem not_needed_of_pinned
    (hpin : (buildManifest worker scanned).worker.pinnedFingerprints id = some pin)
    (hcheckpoint : engine.checkpoint id = some pin.advertise) :
    id ∉ engine.needed (buildManifest worker scanned).manifest := by
  intro hneeded
  obtain ⟨_, hentry, rfl, hdiffers⟩ := mem_needed hneeded
  obtain ⟨_, _, hid, _, _, hvalue⟩ := buildManifest_entry hentry
  rw [hid, hpin] at hvalue
  exact hdiffers (by rw [hcheckpoint, hvalue]; rfl)

theorem not_needed_of_observed (hpin : worker.pinnedFingerprints id = some pin)
    (hobserved : ∀ record ∈ scanned, record.id = id → pin.observed = record.fingerprint)
    (hcheckpoint : engine.checkpoint id = some pin.advertise) :
    id ∉ engine.needed (buildManifest worker scanned).manifest := by
  intro hneeded
  have hneeded' := hneeded
  obtain ⟨entry, hentry, hentryId, _⟩ := mem_needed hneeded'
  have hstated := stated_foldl worker scanned
  obtain ⟨record, hrecord, hid, _⟩ := hstated.entries entry hentry
  refine not_needed_of_pinned (pruned_eq_some.mpr ⟨?_, hstated.kept id pin hpin hobserved⟩)
    hcheckpoint hneeded
  rw [← hentryId, ← hid]
  exact (hstated.listed record hrecord).2

end

/-! ### The documents of a pass -/

variable {docs : List Doc} {record : StampedRecord}

section

variable [DecidableEq Hash] {projectionHash : List Doc → Hash}

structure Loaded (pass : Pass Doc) (records : List StampedRecord) (needed : List String)
    (record : StampedRecord) (docs : List Doc) : Prop where
  needed : record.id ∈ needed
  found : records.find? (fun other ↦ other.id = record.id) = some record
  loaded : pass.load record.id = some docs

/-- The documents collected so far, from the worker after the manifest was built. -/
structure Collected (projectionHash : List Doc → Hash) (pass : Pass Doc)
    (records : List StampedRecord) (needed : List String) (worker : Worker Hash)
    (collection : Collection Doc Hash) : Prop where
  content : collection.worker.deliveredContent = worker.deliveredContent
  pins : ∀ id pin, collection.worker.pinnedFingerprints id = some pin →
    worker.pinnedFingerprints id = some pin ∨
      ∃ record docs memo, Loaded pass records needed record docs ∧ record.id = id ∧
        touchedSince projectionHash worker record docs = some memo ∧
        pin = ⟨record.fingerprint, memo.fingerprint⟩
  sent : ∀ delivery ∈ collection.sent, ∃ record docs, Loaded pass records needed record docs ∧
    touchedSince projectionHash worker record docs = none ∧
    delivery = ⟨record.id, record.fingerprint, projectionHash docs, docs⟩

section

variable {pass : Pass Doc} {records : List StampedRecord} {needed : List String}
  {worker : Worker Hash} {collection : Collection Doc Hash}
  (hcollected : Collected projectionHash pass records needed worker collection)
include hcollected

/-- A loaded conversation is sent, pinned because its content was delivered, or noted as empty. -/
theorem Collected.load (hloaded : Loaded pass records needed record docs) (batchBytes : ℕ) :
    Collected projectionHash pass records needed worker
      (collectLoaded projectionHash batchBytes collection record docs) := by
  have htouched : touchedSince projectionHash collection.worker record docs =
      touchedSince projectionHash worker record docs := by
    simp [touchedSince, hcollected.content]
  unfold collectLoaded
  dsimp only
  split_ifs
  · exact ⟨hcollected.content, hcollected.pins, hcollected.sent⟩
  rw [htouched]
  split
  · next memo hmemo =>
    refine ⟨hcollected.content, ?_, hcollected.sent⟩
    intro id pin hpin
    dsimp only at hpin
    rw [update_apply] at hpin
    split_ifs at hpin with hid
    · subst hid
      exact .inr ⟨record, docs, memo, hloaded, rfl, hmemo, (some.inj hpin).symm⟩
    · exact hcollected.pins id pin hpin
  · next hmemo =>
    refine ⟨hcollected.content, hcollected.pins, ?_⟩
    intro delivery hdelivery
    rcases mem_append.mp hdelivery with hdelivery | hdelivery
    · exact hcollected.sent delivery hdelivery
    · exact ⟨record, docs, hloaded, hmemo, mem_singleton.mp hdelivery⟩

/-- One needed conversation keeps what was collected in step with the worker. -/
theorem Collected.step {id : String} (hid : id ∈ needed) :
    Collected projectionHash pass records needed worker
      (collectStep projectionHash pass records collection id) := by
  unfold collectStep
  split_ifs
  · exact hcollected
  split
  · exact hcollected
  · next record hfound =>
    have hrecord : record.id = id := by simpa using find?_some hfound
    subst hrecord
    split_ifs
    · exact hcollected
    · exact ⟨hcollected.content, hcollected.pins, hcollected.sent⟩
    · split
      · exact ⟨hcollected.content, hcollected.pins, hcollected.sent⟩
      · next docs hdocs => exact hcollected.load ⟨hid, hfound, hdocs⟩ pass.batchBytes

end

theorem mem_rotateAfter {ids : List String} {cursor id : String}
    (hid : id ∈ rotateAfter ids cursor) :
    id ∈ ids := by
  unfold rotateAfter at hid
  dsimp only at hid
  split_ifs at hid
  · exact hid
  · rcases mem_append.mp hid with hid | hid
    · exact mem_of_mem_drop hid
    · exact mem_of_mem_take hid

variable (projectionHash) in
theorem collected_collectNeededDocuments (worker : Worker Hash) (needed : List String)
    (records : List StampedRecord) (pass : Pass Doc) :
    Collected projectionHash pass records needed worker
      (collectNeededDocuments projectionHash worker needed records pass) := by
  refine List.foldlRecOn _ _ ?_ ?_
  · exact ⟨rfl, fun _ _ hpin ↦ .inl hpin, fun _ hsent ↦ absurd hsent not_mem_nil⟩
  · intro _ hcollected _ hid
    exact hcollected.step (mem_rotateAfter (mem_of_mem_take hid))

end

/-! ### The upsert -/

section

variable {manifest : List Fingerprint} {written : String → Bool} {engine : Engine Doc}
  {delivery : DeliveredConversation Doc Hash} {id : String}

theorem upsertOne_checkpoint_of_ne (hid : id ≠ delivery.id) :
    (engine.upsertOne manifest written delivery).checkpoint id = engine.checkpoint id := by
  unfold upsertOne record
  dsimp only
  split
  · split_ifs
    · exact update_of_ne hid _ _
    · rfl
  · rfl

theorem upsertOne_checkpoint {value : String}
    (hvalue : manifestValue manifest delivery.id = some value)
    (hwritten : written delivery.id = true) :
    (engine.upsertOne manifest written delivery).checkpoint delivery.id = some value := by
  simp [upsertOne, record, hvalue, hwritten]

theorem upsertOne_stored :
    (engine.upsertOne manifest written delivery).stored =
      update engine.stored delivery.id (engine.stored delivery.id ++ [delivery.docs]) := by
  unfold upsertOne record
  dsimp only
  split
  · split_ifs <;> rfl
  · rfl

theorem mem_upsertOne_stored (hdocs : docs ∈ engine.stored id) :
    docs ∈ (engine.upsertOne manifest written delivery).stored id := by
  rw [upsertOne_stored, update_apply]
  split_ifs with hid
  · subst hid
    exact mem_append_left _ hdocs
  · exact hdocs

variable (manifest written) (deliveries : List (DeliveredConversation Doc Hash))

theorem upsertAll_checkpoint_of_not_mem
    (engine : Engine Doc) (hid : ∀ delivery ∈ deliveries, id ≠ delivery.id) :
    (deliveries.foldl (Engine.upsertOne manifest written) engine).checkpoint id =
      engine.checkpoint id := by
  refine List.foldlRecOn (motive := fun after ↦ after.checkpoint id = engine.checkpoint id)
    deliveries (upsertOne manifest written) rfl ?_
  intro _ hbetween delivery hdelivery
  rw [upsertOne_checkpoint_of_ne (hid delivery hdelivery), hbetween]

theorem upsertAll_stored (engine : Engine Doc) (hdocs : docs ∈ engine.stored id) :
    docs ∈ (deliveries.foldl (Engine.upsertOne manifest written) engine).stored id :=
  List.foldlRecOn (motive := fun after ↦ docs ∈ after.stored id) deliveries
    (upsertOne manifest written) hdocs fun _ hbetween _ _ ↦ mem_upsertOne_stored hbetween

/-- A delivered conversation has its checkpoint and its documents in the engine. -/
theorem upsertAll_of_mem {value : String} (hwritten : written delivery.id = true)
    (hvalue : manifestValue manifest delivery.id = some value)
    (deliveries : List (DeliveredConversation Doc Hash)) (engine : Engine Doc)
    (hdelivery : delivery ∈ deliveries) :
    (deliveries.foldl (Engine.upsertOne manifest written) engine).checkpoint delivery.id =
      some value ∧
      delivery.docs ∈ (deliveries.foldl
        (Engine.upsertOne manifest written) engine).stored delivery.id := by
  obtain ⟨before, after, rfl⟩ := append_of_mem hdelivery
  rw [foldl_append, foldl_cons]
  set between := before.foldl (upsertOne manifest written) engine
  refine ⟨?_, ?_⟩
  · refine List.foldlRecOn (motive := fun last ↦ last.checkpoint delivery.id = some value) after
      (upsertOne manifest written) (upsertOne_checkpoint hvalue hwritten) ?_
    intro _ hlast other _
    by_cases hother : delivery.id = other.id
    · rw [hother] at hvalue hwritten ⊢
      exact upsertOne_checkpoint hvalue hwritten
    · rw [upsertOne_checkpoint_of_ne hother, hlast]
  · refine upsertAll_stored manifest written after _ ?_
    rw [upsertOne_stored, update_self]
    exact mem_append_right _ (mem_singleton_self _)

end

section

variable {pass : Pass Doc} {sent : List (DeliveredConversation Doc Hash)}

variable {delivery : DeliveredConversation Doc Hash}

theorem mem_upsertOrder : delivery ∈ upsertOrder sent ↔ delivery ∈ sent := mem_insertionSort _

theorem upsertCompletes_of_accepted (haccepted : upsertAccepted pass sent = true) :
    upsertCompletes pass sent = upsertOrder sent := by
  simp only [upsertAccepted, Bool.and_eq_true, Bool.not_eq_true', List.all_eq_true] at haccepted
  rw [upsertCompletes, haccepted.1, if_neg Bool.false_ne_true, List.takeWhile_eq_self_iff]
  exact fun delivery hdelivery ↦ haccepted.2 delivery (mem_upsertOrder.mp hdelivery)

theorem mem_of_mem_upsertCompletes (hdelivery : delivery ∈ upsertCompletes pass sent) :
    delivery ∈ sent := by
  unfold upsertCompletes at hdelivery
  split_ifs at hdelivery
  · simp at hdelivery
  · exact mem_upsertOrder.mp ((takeWhile_sublist _).subset hdelivery)

/-- In a failed call what was completed comes before a conversation whose rows were not written. -/
theorem upsertCompletes_before (hfailed : upsertAccepted pass sent = false)
    (hdelivery : delivery ∈ upsertCompletes pass sent) :
    ∃ failing ∈ sent, pass.rowsWritten failing.id = false ∧ delivery.id < failing.id := by
  unfold upsertCompletes at hdelivery
  split_ifs at hdelivery with hrefused
  · simp at hdelivery
  obtain ⟨failing, hfailing, hrows⟩ : ∃ failing ∈ sent, pass.rowsWritten failing.id = false := by
    simpa [upsertAccepted, hrefused] using hfailed
  refine ⟨failing, hfailing, hrows, ?_⟩
  have hwritten : ∀ other ∈ (upsertOrder sent).takeWhile
    (fun delivery ↦ pass.rowsWritten delivery.id),
      pass.rowsWritten other.id = true := fun other hother ↦ by
    simpa using mem_takeWhile_imp hother
  have hsorted : (upsertOrder sent).Pairwise (fun left right ↦ left.id ≤ right.id) :=
    pairwise_insertionSort _ _
  have hsplit := takeWhile_append_dropWhile
    (p := fun delivery ↦ pass.rowsWritten delivery.id) (l := upsertOrder sent)
  rw [← hsplit, pairwise_append] at hsorted
  have hlater : failing ∈ (upsertOrder sent).dropWhile
      (fun delivery ↦ pass.rowsWritten delivery.id) := by
    have hmem := mem_upsertOrder.mpr hfailing
    rw [← hsplit] at hmem
    rcases mem_append.mp hmem with hmem | hmem
    · exact absurd (hwritten failing hmem) (by simp [hrows])
    · exact hmem
  refine lt_of_le_of_ne (hsorted.2.2 delivery hdelivery failing hlater) ?_
  intro hsame
  exact absurd (hwritten delivery hdelivery) (by simp [hsame, hrows])

end

/-! ### The worker's memory -/

section

variable (deliveries : List (DeliveredConversation Doc Hash)) (worker : Worker Hash)

theorem recordAll_pins :
    (deliveries.foldl recordDelivered worker).pinnedFingerprints = worker.pinnedFingerprints := by
  refine List.foldlRecOn
    (motive := fun after : Worker Hash ↦ after.pinnedFingerprints = worker.pinnedFingerprints)
    deliveries recordDelivered rfl ?_
  intro _ hbetween _ _
  unfold recordDelivered
  split_ifs
  · exact hbetween
  · exact hbetween

theorem sendDocuments_pins (state : SyncState Doc Hash) (manifest : List Fingerprint)
    (pass : Pass Doc) :
    (sendDocuments state manifest pass deliveries).worker.pinnedFingerprints =
      state.worker.pinnedFingerprints := by
  unfold sendDocuments
  dsimp only
  split_ifs
  · exact recordAll_pins deliveries _
  · rfl

/-- The memo of a conversation is that of its delivery, or the one from before. -/
theorem recordAll_content {id : String}
    (hnonempty : ∀ delivery ∈ deliveries, delivery.fingerprint ≠ "")
    (hmemo : (deliveries.foldl recordDelivered worker).deliveredContent id = some memo) :
    (∃ delivery ∈ deliveries, delivery.id = id ∧
      memo = ⟨delivery.fingerprint, delivery.projectionHash⟩) ∨
      (∀ delivery ∈ deliveries, delivery.id ≠ id) ∧ worker.deliveredContent id = some memo := by
  induction deliveries generalizing worker with
  | nil => exact .inr ⟨fun _ hdelivery ↦ absurd hdelivery not_mem_nil, hmemo⟩
  | cons delivery _ ih =>
    have hrest := ih _ (fun other hother ↦ hnonempty other (mem_cons_of_mem _ hother)) hmemo
    rcases hrest with ⟨other, hother, hfacts⟩ | ⟨hnone, hold⟩
    · exact .inl ⟨other, mem_cons_of_mem _ hother, hfacts⟩
    rw [recordDelivered, if_neg (hnonempty delivery mem_cons_self)] at hold
    dsimp only at hold
    rw [update_apply] at hold
    split_ifs at hold with hid
    · subst hid
      exact .inl ⟨delivery, mem_cons_self, rfl, (some.inj hold).symm⟩
    · exact .inr ⟨forall_mem_cons.mpr ⟨Ne.symm hid, hnone⟩, hold⟩

end

/-! ### Runs -/

section

variable {projectionHash : List Doc → Hash}

/-- Every checkpoint file of what is sent can be written, and if the rows of a conversation cannot
be, the worker remembers no delivery of one that is sent before it. -/
structure Pass.Kept (worker : Worker Hash) (pass : Pass Doc)
    (sent : List (DeliveredConversation Doc Hash)) :
    Prop where
  recorded : ∀ delivery ∈ sent, pass.checkpointWritten delivery.id = true
  forgotten : ∀ failing ∈ sent, pass.rowsWritten failing.id = false →
    ∀ delivery ∈ sent, delivery.id < failing.id → worker.deliveredContent delivery.id = none

def SyncEvent.Kept [DecidableEq Hash] (projectionHash : List Doc → Hash)
    (state : SyncState Doc Hash) :
    SyncEvent Doc → Prop
  | .pass current =>
    let build := buildManifest state.worker current.scanned
    current.Kept state.worker (collectNeededDocuments projectionHash build.worker
      (state.engine.needed build.manifest) build.records current).sent
  | .restart _ => True

def KeptAlong [DecidableEq Hash] (projectionHash : List Doc → Hash) (state : SyncState Doc Hash) :
    List (SyncEvent Doc) → Prop
  | [] => True
  | event :: events =>
    event.Kept projectionHash state ∧
      KeptAlong projectionHash (state.step projectionHash event) events

structure Agrees (projectionHash : List Doc → Hash) (worker : Worker Hash) (engine : Engine Doc) :
    Prop where
  content : ∀ id memo, worker.deliveredContent id = some memo →
    engine.checkpoint id = some memo.fingerprint ∧
      ∃ docs ∈ engine.stored id, projectionHash docs = memo.projectionHash
  pins : ∀ id pin, worker.pinnedFingerprints id = some pin →
    engine.checkpoint id = some pin.advertise

theorem agrees_newWorker (engine : Engine Doc) :
    Agrees projectionHash (newWorker : Worker Hash) engine where
  content _ _ hmemo := nomatch hmemo
  pins _ _ hpin := nomatch hpin

variable {worker : Worker Hash} {engine : Engine Doc}

theorem Agrees.manifest (hagrees : Agrees projectionHash worker engine)
    (scanned : List StampedRecord) :
    Agrees projectionHash (buildManifest worker scanned).worker engine where
  content id memo hmemo := hagrees.content id memo (buildManifest_content hmemo)
  pins id pin hpin := hagrees.pins id pin (buildManifest_pin hpin)

variable [DecidableEq Hash]

theorem touchedSince_eq_some
    (htouched : touchedSince projectionHash worker record docs = some memo) :
    worker.deliveredContent record.id = some memo ∧ memo.projectionHash = projectionHash docs := by
  rw [touchedSince, filter_eq_some_iff, decide_eq_true_eq] at htouched
  exact ⟨htouched.1, htouched.2.1⟩

variable {collection : Collection Doc Hash}

theorem Agrees.collect {pass : Pass Doc} {records : List StampedRecord} {needed : List String}
    (hagrees : Agrees projectionHash worker engine)
    (hcollected : Collected projectionHash pass records needed worker collection) :
    Agrees projectionHash collection.worker engine where
  content id memo hmemo := hagrees.content id memo (hcollected.content ▸ hmemo)
  pins id pin hpin := by
    rcases hcollected.pins id pin hpin with hold | ⟨record, _, memo, _, rfl, htouched, rfl⟩
    · exact hagrees.pins id pin hold
    · exact (hagrees.content record.id memo (touchedSince_eq_some htouched).1).1

section

variable {pass : Pass Doc} (hagrees : Agrees projectionHash worker engine)
  (hcollected : Collected projectionHash pass (buildManifest worker pass.scanned).records
    (engine.needed (buildManifest worker pass.scanned).manifest)
    (buildManifest worker pass.scanned).worker collection)
include hagrees hcollected

/-- What a pass sends: a conversation without a pin, under the fingerprint that the manifest states.
-/
theorem sent_facts {delivery : DeliveredConversation Doc Hash}
    (hdelivery : delivery ∈ collection.sent) :
    delivery.fingerprint ≠ "" ∧
      manifestValue (buildManifest worker pass.scanned).manifest delivery.id =
        some delivery.fingerprint ∧ delivery.projectionHash = projectionHash delivery.docs ∧
      collection.worker.pinnedFingerprints delivery.id = none := by
  obtain ⟨record, docs, hloaded, htouched, rfl⟩ := hcollected.sent delivery hdelivery
  obtain ⟨_, hentry, hid, _⟩ := mem_needed hloaded.needed
  obtain ⟨_, _, _, hfound, hstated, hvalue⟩ := buildManifest_entry hentry
  rw [hid, hloaded.found] at hfound
  cases hfound
  have hnone : (buildManifest worker pass.scanned).worker.pinnedFingerprints record.id = none := by
    by_contra hsome
    obtain ⟨pin, hpin⟩ := ne_none_iff_exists'.mp hsome
    exact not_needed_of_pinned hpin ((hagrees.manifest _).pins _ _ hpin) hloaded.needed
  rw [hnone] at hvalue
  refine ⟨record.fingerprint_ne, ?_, rfl, ?_⟩
  · rw [← hid, hstated, hvalue]
    rfl
  by_contra hsome
  obtain ⟨_, hpin⟩ := ne_none_iff_exists'.mp hsome
  rcases hcollected.pins _ _ hpin with hold | ⟨other, otherDocs, _, hother, hotherId, hmemo, _⟩
  · simp [hnone] at hold
  · -- The conversation would have been both sent and pinned, with the same record and documents.
    have hsame : other = record := by
      have := hother.found
      rw [hotherId, hloaded.found] at this
      exact (some.inj this).symm
    subst hsame
    have hdocs : otherDocs = docs := some.inj (hother.loaded.symm.trans hloaded.loaded)
    rw [hdocs, htouched] at hmemo
    cases hmemo

/-- Sending what was collected keeps pins, memos and checkpoints in agreement. -/
theorem Agrees.send (hkept : pass.Kept worker collection.sent) {state : SyncState Doc Hash}
    (hstate : state = sendDocuments ⟨collection.worker, engine⟩
      (buildManifest worker pass.scanned).manifest pass collection.sent) :
    Agrees projectionHash state.worker state.engine := by
  subst hstate
  have hbefore := (hagrees.manifest _).collect hcollected
  have hfacts := fun delivery (hdelivery : delivery ∈ collection.sent) ↦
    sent_facts hagrees hcollected hdelivery
  -- A pinned conversation is not sent, and keeps its checkpoint.
  have hpins : ∀ id pin, collection.worker.pinnedFingerprints id = some pin →
      (engine.upsert (buildManifest worker pass.scanned).manifest pass collection.sent).checkpoint
        id = some pin.advertise := by
    intro id pin hpin
    rw [upsert, upsertAll_checkpoint_of_not_mem, hbefore.pins id pin hpin]
    rintro delivery hdelivery rfl
    have hnone := (hfacts delivery (mem_of_mem_upsertCompletes hdelivery)).2.2.2
    simp [hpin] at hnone
  -- So does a conversation that is remembered and not completed.
  have hothers : ∀ id memo, collection.worker.deliveredContent id = some memo →
      (∀ delivery ∈ upsertCompletes pass collection.sent, id ≠ delivery.id) →
      (engine.upsert (buildManifest worker pass.scanned).manifest pass collection.sent).checkpoint
        id = some memo.fingerprint ∧
        ∃ docs ∈ (engine.upsert (buildManifest worker pass.scanned).manifest pass
          collection.sent).stored id, projectionHash docs = memo.projectionHash := by
    intro id memo hmemo hid
    obtain ⟨hcheckpoint, docs, hdocs, hhash⟩ := hbefore.content id memo hmemo
    rw [upsert, upsertAll_checkpoint_of_not_mem _ _ _ _ hid]
    exact ⟨hcheckpoint, docs, upsertAll_stored _ _ _ _ hdocs, hhash⟩
  refine ⟨fun id memo hmemo ↦ ?_, fun id pin hpin ↦ ?_⟩
  · by_cases haccepted : upsertAccepted pass collection.sent = true
    · rw [sendDocuments, if_pos haccepted] at hmemo
      rcases recordAll_content _ _
        (fun delivery hdelivery ↦ (hfacts delivery hdelivery).1) hmemo with
        ⟨delivery, hdelivery, rfl, rfl⟩ | ⟨hnot, hold⟩
      · obtain ⟨_, hvalue, hhash, _⟩ := hfacts delivery hdelivery
        have hmem : delivery ∈ upsertCompletes pass collection.sent := by
          rw [upsertCompletes_of_accepted haccepted]
          exact mem_upsertOrder.mpr hdelivery
        obtain ⟨hcheckpoint, hstored⟩ :=
          upsertAll_of_mem _ _ (hkept.recorded delivery hdelivery) hvalue _
          engine hmem
        exact ⟨hcheckpoint, delivery.docs, hstored, hhash.symm⟩
      · exact hothers id memo hold fun delivery hdelivery ↦
          (hnot delivery (mem_of_mem_upsertCompletes hdelivery)).symm
    rw [sendDocuments, if_neg haccepted] at hmemo
    refine hothers id memo hmemo ?_
    rintro delivery hdelivery rfl
    obtain ⟨failing, hfailing, hrows, hbeforeFailing⟩ :=
      upsertCompletes_before (Bool.eq_false_of_not_eq_true haccepted) hdelivery
    have hnone :=
      hkept.forgotten failing hfailing hrows delivery (mem_of_mem_upsertCompletes hdelivery)
      hbeforeFailing
    rw [hcollected.content] at hmemo
    rw [buildManifest_content hmemo] at hnone
    cases hnone
  · rw [sendDocuments_pins] at hpin
    exact hpins id pin hpin

end

variable {state : SyncState Doc Hash}

theorem Agrees.pass {pass : Pass Doc} (hagrees : Agrees projectionHash state.worker state.engine)
    (hkept : (SyncEvent.pass pass).Kept projectionHash state) :
    Agrees projectionHash (runPass projectionHash state pass).worker
      (runPass projectionHash state pass).engine := by
  unfold runPass
  dsimp only
  split_ifs
  · exact hagrees.manifest _
  · exact (hagrees.manifest _).collect (collected_collectNeededDocuments ..)
  · exact hagrees.send (collected_collectNeededDocuments ..) hkept rfl

/-- One event keeps pins, memos and checkpoints in agreement. -/
theorem Agrees.step {event : SyncEvent Doc}
    (hagrees : Agrees projectionHash state.worker state.engine)
    (hkept : event.Kept projectionHash state) :
    Agrees projectionHash (state.step projectionHash event).worker
      (state.step projectionHash event).engine := by
  cases event with
  | pass pass => exact hagrees.pass hkept
  | restart => exact agrees_newWorker _

/-- Every run keeps pins, memos and checkpoints in agreement. -/
theorem Agrees.run {events : List (SyncEvent Doc)}
    (hagrees : Agrees projectionHash state.worker state.engine)
    (hkept : KeptAlong projectionHash state events) :
    Agrees projectionHash (state.run projectionHash events).worker
      (state.run projectionHash events).engine := by
  induction events generalizing state with
  | nil => exact hagrees
  | cons _ _ ih => exact ih (hagrees.step hkept.1) hkept.2

/-- A pin that a pass sets is for documents that the engine has stored. -/
theorem stored_of_new_pin {pass : Pass Doc} (hinjective : Function.Injective projectionHash)
    (hagrees : Agrees projectionHash state.worker state.engine) {id : String}
    (hpin : (runPass projectionHash state pass).worker.pinnedFingerprints id = some pin)
    (hnew : state.worker.pinnedFingerprints id ≠ some pin) :
    ∃ docs, pass.load id = some docs ∧ docs ∈ state.engine.stored id := by
  -- The pins after the pass are those after its documents have been collected, or after its
  -- manifest.
  have hpinned : (buildManifest state.worker pass.scanned).worker.pinnedFingerprints id = some pin ∨
      (collectNeededDocuments projectionHash (buildManifest state.worker pass.scanned).worker
        (state.engine.needed (buildManifest state.worker pass.scanned).manifest)
        (buildManifest state.worker pass.scanned).records pass).worker.pinnedFingerprints id =
          some pin := by
    unfold runPass at hpin
    dsimp only at hpin
    split_ifs at hpin
    · exact .inl hpin
    · exact .inr hpin
    · rw [sendDocuments_pins] at hpin
      exact .inr hpin
  rcases hpinned with hold | hpinned
  · exact absurd (buildManifest_pin hold) hnew
  rcases (collected_collectNeededDocuments ..).pins id pin hpinned with
    hold | ⟨record, docs, memo, hloaded, rfl, htouched, _⟩
  · exact absurd (buildManifest_pin hold) hnew
  obtain ⟨hmemo, hhash⟩ := touchedSince_eq_some htouched
  obtain ⟨_, _, _, hsame⟩ := hagrees.content record.id memo (buildManifest_content hmemo)
  refine ⟨docs, hloaded.loaded, ?_⟩
  rwa [← hinjective (hsame.trans hhash)]

/-- In every run whose passes are kept, a pin states the fingerprint in the checkpoint; a
conversation that reads as its pin has observed is not needed by the next pass; a pin that the next
manifest uses has observed the artifact as it is then; and when a pass pins a conversation, its
documents were delivered before. -/
theorem pins_agree_with_checkpoint (hinjective : Function.Injective projectionHash)
    (files : String → Option String) (events : List (SyncEvent Doc))
    (hkept : KeptAlong projectionHash (SyncState.initial files) events) :
    (∀ id pin,
        ((SyncState.initial files).run projectionHash events).worker.pinnedFingerprints id =
          some pin →
        ((SyncState.initial files).run projectionHash events).engine.checkpoint id =
          some pin.advertise) ∧
      (∀ id pin scanned,
        ((SyncState.initial files).run projectionHash events).worker.pinnedFingerprints id =
          some pin →
        (∀ record ∈ scanned, record.id = id → pin.observed = record.fingerprint) →
        id ∉ ((SyncState.initial files).run projectionHash events).engine.needed
          (buildManifest ((SyncState.initial files).run projectionHash events).worker
            scanned).manifest) ∧
      (∀ id pin scanned, (buildManifest ((SyncState.initial files).run projectionHash events).worker
          scanned).worker.pinnedFingerprints id = some pin →
        ∃ record ∈ scanned, record.id = id ∧ record.fingerprint = pin.observed) ∧
      ∀ id pin pass, (runPass projectionHash ((SyncState.initial files).run projectionHash events)
          pass).worker.pinnedFingerprints id = some pin →
        ((SyncState.initial files).run projectionHash events).worker.pinnedFingerprints id ≠
          some pin →
        ∃ docs, pass.load id = some docs ∧
          docs ∈ ((SyncState.initial files).run projectionHash events).engine.stored id := by
  have hagrees : Agrees projectionHash ((SyncState.initial files).run projectionHash events).worker
      ((SyncState.initial files).run projectionHash events).engine :=
    Agrees.run (agrees_newWorker _) hkept
  refine ⟨hagrees.pins, ?_, fun _ _ _ hpin ↦ buildManifest_observed hpin, ?_⟩
  · intro id pin _ hpin hobserved
    exact not_needed_of_observed hpin hobserved (hagrees.pins id pin hpin)
  · intro _ _ _ hpin hnew
    exact stored_of_new_pin hinjective hagrees hpin hnew

end

/-! ### Runs of one and two conversations -/

/-- A pass over conversations that do not grow, in which everything can be read and written. -/
def plainPass (scanned : List StampedRecord) (load : String → Option (List ℕ)) : Pass ℕ where
  scanned := scanned
  syncFails := false
  batchBytes := 100
  load := load
  visits := 10
  cancelled := false
  upsertRefused := false
  rowsWritten := fun _ ↦ true
  checkpointWritten := fun _ ↦ true

/-- A delivery, and then a pass that finds the artifact touched. -/
def touchedRun : List (SyncEvent ℕ) :=
  [.pass (plainPass [⟨"a", "1", by decide, false, 1⟩] fun _ ↦ some [7]),
    .pass (plainPass [⟨"a", "2", by decide, false, 1⟩] fun _ ↦ some [7])]

theorem pin_after_touched_artifact :
    ((SyncState.initial fun _ ↦ none).run id touchedRun).worker.pinnedFingerprints "a" =
        some ⟨"2", "1"⟩ ∧
      ((SyncState.initial fun _ ↦ none).run id touchedRun).engine.checkpoint "a" = some "1" := by
  have hpin : ((SyncState.initial fun _ ↦ none).run id touchedRun).worker.pinnedFingerprints "a" =
      some ⟨"2", "1"⟩ := by decide +kernel
  refine ⟨hpin, (pins_agree_with_checkpoint injective_id _ _ ?_).1 "a" ⟨"2", "1"⟩ hpin⟩
  exact ⟨⟨fun _ _ ↦ rfl, fun _ _ hrows ↦ nomatch hrows⟩,
    ⟨fun _ _ ↦ rfl, fun _ _ hrows ↦ nomatch hrows⟩, trivial⟩

/-- The checkpoint file of the first delivery of `touchedRun` is not written. -/
def unrecordedRun : SyncState ℕ (List ℕ) :=
  (SyncState.initial fun _ ↦ none).run id
    [.pass { plainPass [⟨"a", "1", by decide, false, 1⟩] fun _ ↦ some [7] with
        checkpointWritten := fun _ ↦ false },
      .pass (plainPass [⟨"a", "2", by decide, false, 1⟩] fun _ ↦ some [7])]

/-- The second upsert fails at `b` after it has recorded `a`, and then `a` has its first content
again. -/
def interruptedRun : SyncState ℕ (List ℕ) :=
  (SyncState.initial fun _ ↦ none).run id
    [.pass (plainPass [⟨"a", "1", by decide, false, 1⟩] fun _ ↦ some [7]),
      .pass { plainPass [⟨"a", "2", by decide, false, 1⟩, ⟨"b", "1", by decide, false, 1⟩]
          fun _ ↦ some [8] with rowsWritten := fun conversation ↦ conversation ≠ "b" },
      .pass (plainPass [⟨"a", "3", by decide, false, 1⟩] fun _ ↦ some [7])]

/-- After either run `a` is pinned to a fingerprint that is not the one in the checkpoint, and is
needed with every manifest until its artifact changes. -/
theorem pin_without_checkpoint :
    (unrecordedRun.worker.pinnedFingerprints "a" = some ⟨"2", "1"⟩ ∧
        unrecordedRun.engine.checkpoint "a" = none ∧
        unrecordedRun.engine.needed (buildManifest unrecordedRun.worker
          [⟨"a", "2", by decide, false, 1⟩]).manifest = ["a"]) ∧
      interruptedRun.worker.pinnedFingerprints "a" = some ⟨"3", "1"⟩ ∧
        interruptedRun.engine.checkpoint "a" = some "2" ∧
        interruptedRun.engine.needed (buildManifest interruptedRun.worker
          [⟨"a", "3", by decide, false, 1⟩]).manifest = ["a"] := by
  decide +kernel

end Clyde.Daemon.SemanticSync
