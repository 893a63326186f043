import Firebase.Firestore.Local.LocalStore

/-!
# What the local store writes

Every operation of the local store is one or more transactions, and every transaction is a sequence
of a few kinds of writes (`Write`).  `LocalStore.step_transactions` says this once for all
operations.
-/

namespace Firebase.Firestore.Local

open Lib Util Model Firestore.Core Remote OrdMap LevelDbTables

variable {mutations : List Mutation} {α : Type} {time : Timestamp}
  {targetId : Core.TargetId} {a : α} {readTime : SnapshotVersion} {document : MaybeDocument}
  {keys : List DocumentKey} {t : LevelDbTables}

namespace LevelDbPersistence

/-- The targets that may be written to, and the documents that may be added, removed, and collected.
-/
structure WriteScope where
  targets : Set Core.TargetId
  added : Set DocumentKey
  removed : Set DocumentKey
  collected : Set DocumentKey
  written : Set Mutation

def WriteScope.univ : WriteScope := ⟨Set.univ, Set.univ, Set.univ, Set.univ, Set.univ⟩

inductive Write (scope : WriteScope) : LevelDbPersistence → LevelDbPersistence → Prop where
  | startMutationQueue {p : LevelDbPersistence} (userId : Bytes) :
    Write scope p (p.startMutationQueue userId)
  | setLastStreamToken {p : LevelDbPersistence} (streamToken : Bytes) :
    Write scope p (p.setLastStreamToken streamToken)
  | addMutationBatch {p p' : LevelDbPersistence} {localWriteTime : Timestamp}
      {baseMutations mutations : List Mutation} {batch : MutationBatch}
      (hbases : ∀ mutation ∈ baseMutations, mutation.isPatch = true)
      (hmuts : ∀ mutation ∈ mutations, mutation ∈ scope.written)
      (h : p.addMutationBatch localWriteTime baseMutations mutations = .ok (p', batch)) :
    Write scope p p'
  | removeMutationBatch {p p' : LevelDbPersistence} {batchId : Int} {batch : MutationBatch}
      (hbatch : p.tables.lookupMutationBatch p.queue.userId batchId = some batch)
      (h : p.removeMutationBatch batch = .ok p') : Write scope p p'
  | addDocument {p p' : LevelDbPersistence} {document : MaybeDocument}
      {readTime : SnapshotVersion} (hkey : document.key ∈ scope.added)
      (h : p.addDocument document readTime = .ok p') : Write scope p p'
  | removeDocument {p : LevelDbPersistence} {key : DocumentKey} (hkey : key ∈ scope.removed) :
    Write scope p (p.removeDocument key)
  | removeOrphan {p : LevelDbPersistence} (references : ReferenceSet) (upperBound : Int)
      (count : Nat) {report : DocumentKey × Int} (hkey : report.1 ∈ scope.collected) :
    Write scope p (removeOrphan references upperBound (p, count) report).1
  | writeSentinel {p p' : LevelDbPersistence} {key : DocumentKey}
      (h : p.writeSentinel key = .ok p') : Write scope p p'
  | addMatch {p p' : LevelDbPersistence} {targetId : Core.TargetId} {key : DocumentKey}
      (hid : targetId ∈ scope.targets) (h : (putMatch targetId p key).addReference key = .ok p') :
    Write scope p p'
  | removeMatch {p p' : LevelDbPersistence} {targetId : Core.TargetId} {key : DocumentKey}
      (hid : targetId ∈ scope.targets) (h : (deleteMatch targetId p key).removeReference key =
        .ok p') :
    Write scope p p'
  | addTarget {p : LevelDbPersistence} (canonicalId : Target → Bytes) {targetData : TargetData}
      (hid : targetData.targetId ∈ scope.targets)
      (h : p.currentSequenceNumber = some targetData.sequenceNumber) :
    Write scope p (p.addTarget canonicalId targetData)
  | updateTarget {p : LevelDbPersistence} {targetData : TargetData}
      (hid : targetData.targetId ∈ scope.targets)
      (h : p.currentSequenceNumber = some targetData.sequenceNumber) :
    Write scope p (p.updateTarget targetData)
  | removeTarget {p : LevelDbPersistence} (canonicalId : Target → Bytes) {id : Core.TargetId}
      {targetData : TargetData} (hrow : p.tables.targets.get? id = some targetData) :
    Write scope p (p.removeTarget canonicalId targetData)
  | setLastRemoteSnapshotVersion {p : LevelDbPersistence} (version : SnapshotVersion) :
    Write scope p (p.setLastRemoteSnapshotVersion version)

/-- The writes of a transaction, one after the other. -/
abbrev Writes (scope : WriteScope) : LevelDbPersistence → LevelDbPersistence → Prop :=
  Relation.ReflTransGen (Write scope)

def Transaction (scope : WriteScope) (p p' : LevelDbPersistence) : Prop :=
  p.currentSequenceNumber = none ∧
    ∃ p₁, Writes scope p.started p₁ ∧ p' = p₁.onTransactionCommitted

variable {scope : WriteScope} {p p' : LevelDbPersistence}
  {block : LevelDbPersistence → Hard (LevelDbPersistence × α)}

theorem transaction_of_run (hblock : ∀ p₀ p₁ b, block p₀ = .ok (p₁, b) → Writes scope p₀ p₁)
    (h : p.run block = .ok (p', a)) : Transaction scope p p' := by
  obtain ⟨hnone, p₁, hok, rfl⟩ := run_ok h
  exact ⟨hnone, p₁, hblock _ p₁ a hok, rfl⟩

/-- A loop whose rounds write writes. -/
theorem writes_foldlM {f : LevelDbPersistence → α → Hard LevelDbPersistence}
    {as : List α} (hf : ∀ p a p', f p a = .ok p' → Writes scope p p') (h : as.foldlM f p = .ok p') :
    Writes scope p p' :=
  foldlM_invariant (Writes scope p) (fun p₁ a _ p₂ h₁ hround => h₁.trans (hf p₁ a p₂ hround)) .refl
    h

/-- The same for a loop with other data besides the persistence, which may keep an invariant. -/
theorem writes_foldlM_fst {α β : Type} (inv : β → Prop)
    {f : LevelDbPersistence × β → α → Hard (LevelDbPersistence × β)} {as : List α}
    (hf : ∀ s a s', inv s.2 → f s a = .ok s' → Writes scope s.1 s'.1 ∧ inv s'.2)
    {s s' : LevelDbPersistence × β} (hs : inv s.2) (h : as.foldlM f s = .ok s') :
    Writes scope s.1 s'.1 ∧ inv s'.2 :=
  foldlM_invariant (fun s₁ => Writes scope s.1 s₁.1 ∧ inv s₁.2)
    (fun s₁ a _ s₂ h₁ hround => (hf s₁ a s₂ h₁.2 hround).imp_left h₁.1.trans) ⟨.refl, hs⟩ h

theorem sequenceNumber_eq_ok {n : Int} :
    p.sequenceNumber = .ok n ↔ p.currentSequenceNumber = some n := by
  unfold sequenceNumber
  split
  · next heq => rw [heq, Except.ok.injEq, Option.some_inj]
  · next heq => simp [heq]

theorem writes_addMatchingKeys {keys : DocumentKeySet}
    (hid : targetId ∈ scope.targets) (h : p.addMatchingKeys keys targetId = .ok p') :
      Writes scope p p' :=
  writes_foldlM (fun _ _ _ hround => .single (.addMatch hid hround)) h

theorem writes_removeMatchingKeys {keys : DocumentKeySet}
    (hid : targetId ∈ scope.targets) (h : p.removeMatchingKeys keys targetId = .ok p') :
      Writes scope p p' :=
  writes_foldlM (fun _ _ _ hround => .single (.removeMatch hid hround)) h

theorem writes_removeReferences
    (h : keys.foldlM LevelDbPersistence.removeReference p = .ok p') : Writes scope p p' :=
  writes_foldlM (fun _ _ _ hround => .single (.writeSentinel hround)) h

theorem writes_removeTargets {canonicalId : Target → Bytes} {bound : Int}
    {liveTargets : OrdMap Core.TargetId TargetData} {count : Nat}
    (h : p.removeTargets canonicalId some bound liveTargets = .ok (p', count)) :
      Writes scope p p' :=
  removeTargets_invariant .refl (fun _ _ _ _ hs hrow hdecode => hs.tail
    (.removeTarget canonicalId (hrow.trans hdecode))) h

theorem writes_removeOrphanedDocuments {refs : ReferenceSet} {bound : Int} {count : Nat}
    (hcollected : ∀ key, key ∈ scope.collected)
    (h : p.removeOrphanedDocuments refs bound = .ok (p', count)) :
      Writes scope p p' := by
  obtain ⟨reports, -, h⟩ := bind_eq_ok.mp h
  have hfst := congrArg Prod.fst (Except.ok.inj h)
  rw [← show _ = p' from hfst]
  refine List.foldlRecOn (motive := fun s : LevelDbPersistence × Nat => Writes scope p s.1) _ _
    .refl
    fun s hs report _ => ?_
  exact hs.tail (.removeOrphan refs bound s.2 (hcollected _))

/-! ## What the larger writes change -/

/-- The rows of a batch go to the tables of the queue and to the index of collections. -/
theorem foldlM_addDocumentMutation_eq {batchId : Int}
    (h : mutations.foldlM (addDocumentMutation batchId) p = .ok p') :
    ∃ documentMutations collectionParents collectionParentsCache, p' = { p with
      tables := { p.tables with documentMutations, collectionParents }
      collectionParentsCache } := by
  refine foldlM_invariant (fun p₁ => ∃ documentMutations collectionParents collectionParentsCache,
    p₁ = { p with
      tables := { p.tables with documentMutations, collectionParents }
      collectionParentsCache }) ?_ ⟨_, _, _, rfl⟩ h
  rintro _ mutation - p₂ ⟨documentMutations, parents, cache, rfl⟩ hround
  obtain ⟨path, -, hindex⟩ := bind_eq_ok.mp hround
  obtain ⟨-, rows, rfl, -⟩ := addToCollectionParentIndex_ok hindex
  exact ⟨_, _, _, rfl⟩

variable {batch : MutationBatch}

theorem addMutationBatch_eq {baseMutations mutations : List Mutation}
    (h : p.addMutationBatch time baseMutations mutations = .ok (p', batch)) :
    ∃ mutationRows documentMutations collectionParents collectionParentsCache nextBatchId,
      p' = { p with
        queue := { p.queue with nextBatchId }
        tables := { p.tables with
          mutations := mutationRows, documentMutations, collectionParents }
        collectionParentsCache } := by
  unfold addMutationBatch at h
  split_ifs at h with hmuts
  obtain ⟨p₁, hloop, h⟩ := bind_eq_ok.mp h
  cases h
  obtain ⟨documentMutations, parents, cache, rfl⟩ := foldlM_addDocumentMutation_eq hloop
  exact ⟨_, _, _, _, _, rfl⟩

/-- Where a batch was removed, the documents that it writes are marked with the number of the
transaction. -/
theorem foldlM_removeDocumentMutation_eq {batchId : Int}
    (h : mutations.foldlM (removeDocumentMutation batchId) p = .ok p') :
    ∃ documentMutations documentTargets,
      p' = { p with tables := { p.tables with documentMutations, documentTargets } } ∧
      ∀ k, documentTargets.get? k = if ∃ mutation ∈ mutations, k = sentinel mutation.key then
        some p.currentSequenceNumber else p.tables.documentTargets.get? k := by
  induction mutations generalizing p with
  | nil =>
    cases h
    exact ⟨_, _, rfl, fun k => by simp⟩
  | cons mutation mutations ih =>
    obtain ⟨p₁, hfirst, hrest⟩ := foldlM_cons_eq_ok.mp h
    obtain ⟨n, hn, rfl⟩ := writeSentinel_ok hfirst
    obtain ⟨documentMutations, documentTargets, rfl, hrows⟩ := ih hrest
    refine ⟨_, _, rfl, fun k => ?_⟩
    have hcurrent : p.currentSequenceNumber = some n := hn
    simp only [hrows, get?_insert, hcurrent, List.mem_cons, exists_eq_or_imp]
    by_cases hlater : ∃ mutation ∈ mutations, k = sentinel mutation.key
    · rw [if_pos hlater, if_pos (.inr hlater)]
    · rw [if_neg hlater]
      by_cases hk : k = sentinel mutation.key
      · rw [if_pos hk, if_pos (.inl hk)]
      · rw [if_neg hk, if_neg (not_or.mpr ⟨hk, hlater⟩)]

theorem removeMutationBatch_eq (h : p.removeMutationBatch batch = .ok p') :
    ∃ mutations documentMutations documentTargets, p' = { p with
        tables := { p.tables with mutations, documentMutations, documentTargets } } ∧
      ∀ k, documentTargets.get? k = if ∃ mutation ∈ batch.mutations, k = sentinel mutation.key then
        some p.currentSequenceNumber else p.tables.documentTargets.get? k := by
  obtain ⟨_, -, hloop⟩ := bind_eq_ok.mp h
  obtain ⟨documentMutations, documentTargets, rfl, hrows⟩ := foldlM_removeDocumentMutation_eq hloop
  exact ⟨_, _, _, rfl, hrows⟩

/-- A batch is not empty, so its removal takes a number. -/
theorem removeMutationBatch_current
    (h : p.removeMutationBatch batch = .ok p') : p.currentSequenceNumber.isSome := by
  obtain ⟨_, -, hloop⟩ := bind_eq_ok.mp h
  obtain ⟨mutation, mutations, hmuts⟩ := List.exists_cons_of_ne_nil batch.nonempty
  rw [hmuts] at hloop
  obtain ⟨p₁, hfirst, -⟩ := bind_eq_ok.mp hloop
  obtain ⟨n, hn, -⟩ := writeSentinel_ok hfirst
  exact Option.isSome_iff_exists.mpr ⟨n, hn⟩

/-- Only rows of the target are deleted. -/
theorem removeAllKeysForTarget_eq (p : LevelDbPersistence) (targetId : Core.TargetId) :
    ∃ targetDocuments documentTargets, p.removeAllKeysForTarget targetId =
        { p with tables := { p.tables with targetDocuments, documentTargets } } ∧
      (∀ k value, documentTargets.get? k = some value →
        p.tables.documentTargets.get? k = some value) ∧
      ∀ k, (ofLex k).2 ≠ targetId → documentTargets.get? k = p.tables.documentTargets.get? k := by
  refine List.foldlRecOn (motive := fun p₁ : LevelDbPersistence => ∃ targetDocuments
    documentTargets,
    p₁ = { p with tables := { p.tables with targetDocuments, documentTargets } } ∧
      (∀ k value, documentTargets.get? k = some value →
        p.tables.documentTargets.get? k = some value) ∧
      ∀ k, (ofLex k).2 ≠ targetId → documentTargets.get? k = p.tables.documentTargets.get? k)
    _ _ ⟨_, _, rfl, fun _ _ h => h, fun _ _ => rfl⟩ ?_
  rintro _ ⟨targetDocuments, documentTargets, rfl, hold, hother⟩ key -
  refine ⟨_, _, rfl, fun k value hget => ?_, fun k hk => ?_⟩
  · exact hold k value (get?_erase_eq_some.mp hget).2
  · rw [get?_erase, if_neg ?_]
    · exact hother k hk
    · rintro rfl
      exact hk rfl

theorem removeTarget_eq (canonicalId : Target → Bytes) (p : LevelDbPersistence)
    (data : TargetData) :
    ∃ targetDocuments documentTargets queryTargets, p.removeTarget canonicalId data =
        ({ p with
          tables := { p.tables with
            targetDocuments, documentTargets, queryTargets
            targets := p.tables.targets.erase data.targetId }
          metadata := { p.metadata with
            targetCount := (p.metadata.targetCount - 1).bmod (2 ^ 32) } } :
          LevelDbPersistence).saveMetadata ∧
      (∀ k value, documentTargets.get? k = some value →
        p.tables.documentTargets.get? k = some value) ∧
      ∀ k, (ofLex k).2 ≠ data.targetId →
        documentTargets.get? k = p.tables.documentTargets.get? k := by
  obtain ⟨targetDocuments, documentTargets, heq, hold, hother⟩ :=
    removeAllKeysForTarget_eq p data.targetId
  refine ⟨targetDocuments, documentTargets, p.tables.queryTargets.erase
    (toLex (canonicalId data.target, data.targetId)), ?_, hold, hother⟩
  rw [removeTarget, heq]

/-- A document that is removed as an orphan loses its sentinel row with it. -/
theorem removeOrphan_eq (refs : ReferenceSet) (bound : Int)
    (state : LevelDbPersistence × Nat) (report : DocumentKey × Int) :
    (removeOrphan refs bound state report).1 = state.1 ∨
      (removeOrphan refs bound state report).1 =
        { state.1 with tables := { state.1.tables with
          remoteDocuments := state.1.tables.remoteDocuments.erase report.1
          documentTargets := state.1.tables.documentTargets.erase (sentinel report.1) } } := by
  unfold removeOrphan
  split_ifs
  · exact .inr rfl
  · exact .inl rfl
  · exact .inl rfl

/-- A document that is added is put with its read time, and its collection is in the cache of the
index and, if it was not there before, in the index. -/
theorem addDocument_ok (h : p.addDocument document readTime = .ok p') :
    document.key ≠ DocumentKey.empty ∧
      (p.putDocument document document.key.path.dropLast readTime).addToCollectionParentIndex
        document.key.path.dropLast = .ok p' := by
  obtain ⟨path, hpop, h⟩ := bind_eq_ok.mp h
  unfold ResourcePath.popLast at hpop
  split_ifs at hpop with hempty
  cases hpop
  exact ⟨fun hblank => hempty (by rw [hblank]; rfl), h⟩

structure SameBesidesDocuments (p p' : LevelDbPersistence) : Prop where
  queue : p'.queue = p.queue
  currentSequenceNumber : p'.currentSequenceNumber = p.currentSequenceNumber
  mutations : p'.tables.mutations = p.tables.mutations
  documentTargets : p'.tables.documentTargets = p.tables.documentTargets

theorem SameBesidesDocuments.refl (p : LevelDbPersistence) : SameBesidesDocuments p p :=
  ⟨rfl, rfl, rfl, rfl⟩

theorem SameBesidesDocuments.trans {p₁ p₂ p₃ : LevelDbPersistence} (h : SameBesidesDocuments p₁ p₂)
    (h' : SameBesidesDocuments p₂ p₃) : SameBesidesDocuments p₁ p₃ :=
  ⟨h'.queue.trans h.queue, h'.currentSequenceNumber.trans h.currentSequenceNumber,
    h'.mutations.trans h.mutations, h'.documentTargets.trans h.documentTargets⟩

theorem addDocument_same
    (h : p.addDocument document readTime = .ok p') : SameBesidesDocuments p p' ∧
      p'.tables.remoteDocuments = p.tables.remoteDocuments.insert document.key document := by
  obtain ⟨-, hindex⟩ := addDocument_ok h
  obtain ⟨-, rows, rfl, -⟩ := addToCollectionParentIndex_ok hindex
  exact ⟨⟨rfl, rfl, rfl, rfl⟩, rfl⟩

/-! ## Opening a database -/

def new : LevelDbPersistence :=
  { empty with tables := { LevelDbTables.empty with
    version := some kSchemaVersion, targetGlobal := some .default } }

theorem create_empty : create .empty = .ok new := by
  unfold create
  rfl

/-- A database of the current version is opened as it is. -/
theorem create_eq {metadata : TargetGlobal} (hversion : t.version = some kSchemaVersion)
    (hmetadata : t.targetGlobal = some metadata) : create t = .ok {
      tables := t
      users := t.collectUserSet
      metadata := metadata
      collectionParentsCache := .empty
      previousSequenceNumber := metadata.highestListenSequenceNumber
      currentSequenceNumber := none
      queue := ⟨[], 0, .default⟩ } := by
  have hmigrated : t.migrated kSchemaVersion = .ok t := by
    rw [migrated, readSchemaVersion, hversion]
    rfl
  rw [create, runMigrations_eq, hmigrated, ok_bind, hmetadata]
  rfl

end LevelDbPersistence

variable {userId : Bytes} {ids : Set Core.TargetId} {key : DocumentKey}

namespace LocalStore

open LevelDbPersistence

variable {s s' : LocalStore} {scope : WriteScope}
  {block : LevelDbPersistence → Hard (LevelDbPersistence × α)}

theorem run_ok (h : s.run block = .ok (s', a)) :
    ∃ p, s.persistence.run block = .ok (p, a) ∧ s' = { s with persistence := p } := by
  obtain ⟨⟨p, b⟩, hrun, h⟩ := bind_eq_ok.mp h
  cases h
  exact ⟨p, hrun, rfl⟩

theorem run_started (h : s.run block = .ok (s', a)) : s.persistence.currentSequenceNumber = none ∧
      ∃ p, block s.persistence.started = .ok (p, a) ∧
        s' = { s with persistence := p.onTransactionCommitted } := by
  obtain ⟨_, hrun, rfl⟩ := run_ok h
  obtain ⟨hnone, p, hblock, rfl⟩ := LevelDbPersistence.run_ok hrun
  exact ⟨hnone, p, hblock, rfl⟩

theorem transaction_of_run (hblock : ∀ p₀ p₁ b, block p₀ = .ok (p₁, b) → Writes scope p₀ p₁)
    (h : s.run block = .ok (s', a)) : Transaction scope s.persistence s'.persistence := by
  obtain ⟨p, hrun, rfl⟩ := run_ok h
  exact LevelDbPersistence.transaction_of_run hblock hrun

/-! ## Acknowledged batches -/

theorem getRemoteDocument_ok {doc : Option MaybeDocument}
    (h : t.getRemoteDocument key = .ok doc) : t.remoteDocuments.get? key = doc := by
  unfold getRemoteDocument at h
  split at h
  · next heq => rw [heq, ← Except.ok.inj h]
  · next document heq =>
    unfold decodeMaybeDocument at h
    cases hkey : decide (document.key = key) with
    | false =>
      rw [hkey] at h
      cases h
    | true =>
      rw [hkey] at h
      rw [heq, ← Except.ok.inj h]

variable {result : MutationBatchResult} {p p' : LevelDbPersistence}

/-- A round of `ApplyBatchResult` leaves everything as it is, or adds a document of the key at the
version of the acknowledgement, which is above the one in the cache. -/
theorem applyToKey_ok {docKey : DocumentKey} (h : applyToKey result p docKey = .ok p') :
    p' = p ∨ ∃ doc, p.addDocument doc result.commitVersion = .ok p' ∧ doc.key = docKey ∧
      ∀ old, p.tables.remoteDocuments.get? docKey = some old → old.version < doc.version := by
  obtain ⟨remoteDoc, hremote, h⟩ := bind_eq_ok.mp h
  split at h
  · cases h
  · next ackVersion hversion =>
    split_ifs at h with hnewer
    · obtain ⟨doc', happly, h⟩ := bind_eq_ok.mp h
      obtain ⟨doc, rfl, hkey, hdoc⟩ := MutationBatch.applyToRemoteDocument_ok happly hversion
      refine .inr ⟨doc, h, hkey, fun old hold => ?_⟩
      rw [getRemoteDocument_ok hremote] at hold
      rw [hold] at hnewer
      rw [hdoc]
      exact of_decide_eq_true hnewer
    · exact .inl (Except.ok.inj h).symm

theorem foldlM_applyToKey_writes (hadded : ∀ key, key ∈ scope.added)
    (h : keys.foldlM (applyToKey result) p = .ok p') :
    Writes scope p p' ∧ SameBesidesDocuments p p' := by
  refine foldlM_invariant (fun p₁ => Writes scope p p₁ ∧ SameBesidesDocuments p p₁) ?_
    ⟨.refl, .refl p⟩ h
  rintro p₁ key - p₂ ⟨hwrites, hsame⟩ hround
  rcases applyToKey_ok hround with rfl | ⟨doc, hadd, -, -⟩
  · exact ⟨hwrites, hsame⟩
  · exact ⟨hwrites.tail (.addDocument (hadded _) hadd), hsame.trans (addDocument_same hadd).1⟩

variable {answer : MaybeDocumentMap} {batchId : Int}

/-- The documents of the batch are updated one by one, and the batch is removed. -/
theorem acknowledgeBatch_ok (h : s.acknowledgeBatch result = .ok (s', answer)) :
    s.persistence.currentSequenceNumber = none ∧ ∃ p₁ p₂,
      result.batch.keys.sort.foldlM (applyToKey result)
        (s.persistence.started.setLastStreamToken result.streamToken) = .ok p₁ ∧
      p₁.removeMutationBatch result.batch = .ok p₂ ∧
      s' = { s with persistence := p₂.onTransactionCommitted } := by
  obtain ⟨hnone, p, hblock, rfl⟩ := run_started h
  obtain ⟨p₂, hresult, hblock⟩ := bind_eq_ok.mp hblock
  obtain ⟨_, -, hblock⟩ := bind_eq_ok.mp hblock
  obtain ⟨docs, -, hblock⟩ := bind_eq_ok.mp hblock
  obtain ⟨rfl, -⟩ := ok_inj hblock
  obtain ⟨p₁, hkeys, hremove⟩ := bind_eq_ok.mp hresult
  exact ⟨hnone, p₁, p₂, hkeys, hremove, rfl⟩

theorem acknowledgeBatch_transaction (hadded : ∀ key, key ∈ scope.added)
    (hbatch : s.tables.lookupMutationBatch s.persistence.queue.userId batchId = some result.batch)
    (h : s.acknowledgeBatch result = .ok (s', answer)) :
    Transaction scope s.persistence s'.persistence := by
  obtain ⟨hnone, p₁, p₂, hkeys, hremove, rfl⟩ := acknowledgeBatch_ok h
  refine ⟨hnone, p₂, ?_, rfl⟩
  obtain ⟨hwrites, hsame⟩ := foldlM_applyToKey_writes hadded hkeys
  have hfiled : p₁.tables.lookupMutationBatch p₁.queue.userId batchId = some result.batch := by
    rw [lookupMutationBatch, hsame.mutations, hsame.queue]
    exact hbatch
  exact .head (.setLastStreamToken result.streamToken)
    (hwrites.tail (.removeMutationBatch hfiled hremove))

/-- The batch of a result is filed for the user. -/
theorem batchResult_ok {commitVersion : SnapshotVersion}
    {mutationResults : List MutationResult} {streamToken : Bytes}
    (h : s.batchResult batchId commitVersion mutationResults streamToken = .ok result) :
    s.tables.lookupMutationBatch s.persistence.queue.userId batchId = some result.batch := by
  unfold batchResult at h
  split at h
  · cases h
  · next batch hbatch =>
    split_ifs at h
    rw [hbatch, ← Except.ok.inj h]

/-! ## Remote events -/

/-- Active targets have ids of the set. -/
def IdsIn (ids : Set Core.TargetId) (targetDataByTarget : OrdMap Core.TargetId TargetData) : Prop :=
  ∀ id targetData, targetDataByTarget.get? id = some targetData →
    id ∈ ids ∧ targetData.targetId ∈ ids

theorem IdsIn.insert {targetDataByTarget : OrdMap Core.TargetId TargetData}
    (h : IdsIn ids targetDataByTarget) {id : Core.TargetId} {data : TargetData}
    (hid : id ∈ ids) (htarget : data.targetId ∈ ids) :
    IdsIn ids (targetDataByTarget.insert id data) :=
  forall_insert h ⟨hid, htarget⟩

variable {version : SnapshotVersion}
  {state state' : LevelDbPersistence × OrdMap Core.TargetId TargetData}
  {entry : Core.TargetId × TargetChange}

/-- A round over the target changes: nothing for a target that is not active, and otherwise the
documents of the change, and possibly the row of the target. -/
theorem applyTargetChange_ok (h : applyTargetChange version state entry = .ok state') :
    (state.2.get? entry.1 = none ∧ state' = state) ∨
    ∃ oldTargetData p₁ p₂, state.2.get? entry.1 = some oldTargetData ∧
      state.1.removeMatchingKeys entry.2.removedDocuments entry.1 = .ok p₁ ∧
      p₁.addMatchingKeys entry.2.addedDocuments entry.1 = .ok p₂ ∧
      (state' = (p₂, state.2) ∨ ∃ data, data.targetId = oldTargetData.targetId ∧
        p₂.currentSequenceNumber = some data.sequenceNumber ∧
        state'.2 = state.2.insert entry.1 data ∧
        (state'.1 = p₂ ∨ state'.1 = p₂.updateTarget data)) := by
  unfold applyTargetChange at h
  split at h
  · next hinactive => exact .inl ⟨hinactive, (Except.ok.inj h).symm⟩
  · next oldTargetData hactive =>
    obtain ⟨p₁, hremove, h⟩ := bind_eq_ok.mp h
    obtain ⟨p₂, hadd, h⟩ := bind_eq_ok.mp h
    refine .inr ⟨oldTargetData, p₁, p₂, hactive, hremove, hadd, ?_⟩
    split_ifs at h with htoken
    · exact .inl (Except.ok.inj h).symm
    · obtain ⟨n, hn, h⟩ := bind_eq_ok.mp h
      obtain ⟨persist, -, h⟩ := bind_eq_ok.mp h
      refine .inr ⟨withSequenceNumber (oldTargetData.withResumeToken entry.2.resumeToken version) n,
        rfl, sequenceNumber_eq_ok.mp hn, ?_⟩
      split_ifs at h
      · cases h
        exact ⟨rfl, .inr rfl⟩
      · cases h
        exact ⟨rfl, .inl rfl⟩

theorem applyTargetChange_idsIn (hids : IdsIn ids state.2)
    (h : applyTargetChange version state entry = .ok state') : IdsIn ids state'.2 := by
  rcases applyTargetChange_ok h with ⟨-, rfl⟩ | ⟨old, p₁, p₂, hactive, -, -, hlast⟩
  · exact hids
  · obtain ⟨hid, hold⟩ := hids _ _ hactive
    rcases hlast with rfl | ⟨data, htarget, -, hinsert, -⟩
    · exact hids
    · rw [hinsert]
      exact hids.insert hid (htarget ▸ hold)

theorem applyTargetChange_writes (hids : IdsIn scope.targets state.2)
    (h : applyTargetChange version state entry = .ok state') : Writes scope state.1 state'.1 := by
  rcases applyTargetChange_ok h with ⟨-, rfl⟩ | ⟨old, p₁, p₂, hactive, hremove, hadd, hlast⟩
  · exact .refl
  · obtain ⟨hid, hold⟩ := hids _ _ hactive
    have hmatches : Writes scope state.1 p₂ :=
      (writes_removeMatchingKeys hid hremove).trans (writes_addMatchingKeys hid hadd)
    rcases hlast with rfl | ⟨data, htarget, hnumber, -, hrow⟩
    · exact hmatches
    · rw [← htarget] at hold
      rcases hrow with heq | heq
      · rw [heq]
        exact hmatches
      · rw [heq]
        exact hmatches.tail (.updateTarget hold hnumber)

variable {event : RemoteEvent} {state state' : LevelDbPersistence × OptionalMaybeDocumentMap}
  {existingDocs : OptionalMaybeDocumentMap}

/-- A round over the document updates: the document is removed, added or left alone, and marked if
its limbo is resolved. -/
theorem applyDocumentUpdate_ok {doc : MaybeDocument}
    (h : applyDocumentUpdate event existingDocs state (key, doc) = .ok state') :
    ∃ p₁, ((isRemoval doc = true ∧ p₁ = state.1.removeDocument key) ∨
        (isRemoval doc = false ∧ isNewer doc (existingDocs.get? key).join = true ∧
          state.1.addDocument doc event.snapshotVersion = .ok p₁) ∨
        (isRemoval doc = false ∧ isNewer doc (existingDocs.get? key).join = false ∧
          p₁ = state.1)) ∧
      ((key ∈ event.limboDocumentChanges ∧ p₁.updateLimboDocument key = .ok state'.1) ∨
        key ∉ event.limboDocumentChanges ∧ state'.1 = p₁) := by
  obtain ⟨⟨p₁, changedDocs⟩, hupdate, h⟩ := bind_eq_ok.mp h
  refine ⟨p₁, ?_, ?_⟩
  · unfold storeDocumentUpdate at hupdate
    dsimp only at hupdate
    split_ifs at hupdate with hremoval hnewer
    · exact .inl ⟨hremoval, (ok_inj hupdate).1.symm⟩
    · obtain ⟨_, -, hupdate⟩ := bind_eq_ok.mp hupdate
      obtain ⟨p₂, hadd, hupdate⟩ := bind_eq_ok.mp hupdate
      cases hupdate
      exact .inr (.inl ⟨by simpa using hremoval, hnewer, hadd⟩)
    · cases hupdate
      exact .inr (.inr ⟨by simpa using hremoval, by simpa using hnewer, rfl⟩)
  · split_ifs at h with hlimbo
    · obtain ⟨p₂, hmark, h⟩ := bind_eq_ok.mp h
      cases h
      exact .inl ⟨hlimbo, hmark⟩
    · cases h
      exact .inr ⟨hlimbo, rfl⟩

theorem applyDocumentUpdate_writes
    {update : DocumentKey × MaybeDocument} (hadded : ∀ key, key ∈ scope.added)
    (hremoved : ∀ key, key ∈ scope.removed)
    (h : applyDocumentUpdate event existingDocs state update = .ok state') :
    Writes scope state.1 state'.1 := by
  obtain ⟨key, doc⟩ := update
  obtain ⟨p₁, hupdate, hlast⟩ := applyDocumentUpdate_ok h
  have hfirst : Writes scope state.1 p₁ := by
    rcases hupdate with ⟨-, rfl⟩ | ⟨-, -, hadd⟩ | ⟨-, -, rfl⟩
    · exact .single (.removeDocument (hremoved key))
    · exact .single (.addDocument (hadded _) hadd)
    · exact .refl
  rcases hlast with ⟨-, hmark⟩ | ⟨-, heq⟩
  · exact hfirst.tail (.writeSentinel hmark)
  · rw [heq]
    exact hfirst

theorem saveSnapshotVersion_writes {last version : SnapshotVersion}
    (h : saveSnapshotVersion p last version = .ok p') : Writes scope p p' := by
  unfold saveSnapshotVersion at h
  split_ifs at h
  · obtain ⟨_, -, h⟩ := bind_eq_ok.mp h
    cases h
    exact .single (.setLastRemoteSnapshotVersion version)
  · cases h
    exact .refl

/-- The parts of the transaction of a remote event. -/
theorem applyRemoteEvent_ok (h : s.applyRemoteEvent event = .ok (s', answer)) :
    s.persistence.currentSequenceNumber = none ∧
    ∃ p₁ targetDataByTarget existingDocs p₂ changedDocs p₃,
      event.targetChanges.entries.foldlM (applyTargetChange event.snapshotVersion)
        (s.persistence.started, s.targetDataByTarget) = .ok (p₁, targetDataByTarget) ∧
      p₁.tables.getAllRemoteDocuments (event.documentUpdates.entries.map Prod.fst).toFinset =
        .ok existingDocs ∧
      event.documentUpdates.entries.foldlM (applyDocumentUpdate event existingDocs) (p₁, .empty) =
        .ok (p₂, changedDocs) ∧
      saveSnapshotVersion p₂ s.persistence.metadata.lastRemoteSnapshotVersion
        event.snapshotVersion = .ok p₃ ∧
      s' = { s with persistence := p₃.onTransactionCommitted, targetDataByTarget } := by
  obtain ⟨⟨s₁, targetDataByTarget, result⟩, hrun, h⟩ := bind_eq_ok.mp h
  cases h
  obtain ⟨hnone, p₃, hblock, rfl⟩ := run_started hrun
  obtain ⟨⟨p₁, targets⟩, htargets, hblock⟩ := bind_eq_ok.mp hblock
  obtain ⟨existingDocs, hexisting, hblock⟩ := bind_eq_ok.mp hblock
  obtain ⟨⟨p₂, changedDocs⟩, hdocs, hblock⟩ := bind_eq_ok.mp hblock
  obtain ⟨p₄, hsave, hblock⟩ := bind_eq_ok.mp hblock
  obtain ⟨view, -, hblock⟩ := bind_eq_ok.mp hblock
  obtain ⟨rfl, hrest⟩ := ok_inj hblock
  obtain ⟨rfl, rfl⟩ := Prod.mk.inj hrest
  exact ⟨hnone, p₁, targets, existingDocs, p₂, changedDocs, p₄, htargets, hexisting, hdocs,
    hsave, rfl⟩

theorem applyRemoteEvent_transaction
    (hids : IdsIn scope.targets s.targetDataByTarget) (hadded : ∀ key, key ∈ scope.added)
    (hremoved : ∀ key, key ∈ scope.removed) (h : s.applyRemoteEvent event = .ok (s', answer)) :
    Transaction scope s.persistence s'.persistence ∧ IdsIn scope.targets s'.targetDataByTarget := by
  obtain ⟨hnone, p₁, targets, existingDocs, p₂, changedDocs, p₃, htargets, -, hdocs, hsave,
    rfl⟩ := applyRemoteEvent_ok h
  obtain ⟨h₁, hids₁⟩ := writes_foldlM_fst (IdsIn scope.targets)
    (fun _ _ _ hids hround =>
      ⟨applyTargetChange_writes hids hround, applyTargetChange_idsIn hids hround⟩) hids htargets
  obtain ⟨h₂, -⟩ := writes_foldlM_fst (fun _ => True)
    (fun _ _ _ _ hround => ⟨applyDocumentUpdate_writes hadded hremoved hround, trivial⟩) trivial
      hdocs
  exact ⟨⟨hnone, p₃, (h₁.trans h₂).trans (saveSnapshotVersion_writes hsave), rfl⟩, hids₁⟩

/-! ## The other operations -/

theorem startMutationQueue_transaction (h : s.startMutationQueue userId = .ok s') :
    Transaction scope s.persistence s'.persistence := by
  obtain ⟨⟨s₁, _⟩, hrun, h⟩ := bind_eq_ok.mp h
  cases h
  refine transaction_of_run (fun p₀ p₁ _ hblock => ?_) hrun
  cases hblock
  exact .single (.startMutationQueue userId)

/-- A transaction that only reads. -/
theorem transaction_of_read (block : LevelDbPersistence → Hard α)
    (h : (s.run fun p => do return (p, ← block p)) = .ok (s', a)) :
    Transaction scope s.persistence s'.persistence := by
  refine transaction_of_run (fun p₀ p₁ _ hblock => ?_) h
  obtain ⟨_, -, hblock⟩ := bind_eq_ok.mp hblock
  cases hblock
  exact .refl

/-- The transactions of an operation, one after the other. -/
abbrev Transactions (scope : WriteScope) : LevelDbPersistence → LevelDbPersistence → Prop :=
  Relation.ReflTransGen (Transaction scope)

theorem handleUserChange_transactions (h : s.handleUserChange userId = .ok (s', answer)) :
    Transactions scope s.persistence s'.persistence := by
  obtain ⟨⟨s₁, oldBatches⟩, hold, h⟩ := bind_eq_ok.mp h
  obtain ⟨s₂, hstart, hnew⟩ := bind_eq_ok.mp h
  have hfirst : Transaction scope s.persistence s₁.persistence :=
    transaction_of_read (fun p => .ok (p.tables.allMutationBatches p.queue.userId)) hold
  exact ((Relation.ReflTransGen.single hfirst).tail (startMutationQueue_transaction hstart)).tail
    (transaction_of_read _ hnew)

/-- Base mutations are patches. -/
theorem baseMutations_isPatch {existingDocuments : MaybeDocumentMap}
    {mutations bases : List Mutation} (h : baseMutations existingDocuments mutations = .ok bases) :
    ∀ mutation ∈ bases, mutation.isPatch = true := by
  obtain ⟨found, hfound, h⟩ := bind_eq_ok.mp h
  cases h
  intro mutation hmem
  obtain ⟨base, hbase, rfl⟩ := List.mem_filterMap.mp hmem
  refine mapM_forall (P := fun base => ∀ mutation, base = some mutation → mutation.isPatch = true)
    (fun a b hab mutation hmutation => ?_) hfound _ hbase mutation rfl
  obtain ⟨value, -, hab⟩ := bind_eq_ok.mp hab
  cases hab
  obtain ⟨object, -, rfl⟩ := Option.map_eq_some_iff.mp hmutation
  rfl

theorem writeLocally_ok {answer : Int × MaybeDocumentMap}
    (h : s.writeLocally time mutations = .ok (s', answer)) :
    s.persistence.currentSequenceNumber = none ∧ ∃ bases p₁ batch,
      (∀ mutation ∈ bases, mutation.isPatch = true) ∧
      s.persistence.started.addMutationBatch time bases mutations = .ok (p₁, batch) ∧
      s' = { s with persistence := p₁.onTransactionCommitted } := by
  obtain ⟨hnone, p₁, hblock, rfl⟩ := run_started h
  obtain ⟨existingDocuments, -, hblock⟩ := bind_eq_ok.mp hblock
  obtain ⟨bases, hbases, hblock⟩ := bind_eq_ok.mp hblock
  obtain ⟨⟨p₂, batch⟩, hadd, hblock⟩ := bind_eq_ok.mp hblock
  obtain ⟨_, -, hblock⟩ := bind_eq_ok.mp hblock
  obtain ⟨rfl, -⟩ := ok_inj hblock
  exact ⟨hnone, bases, p₂, batch, baseMutations_isPatch hbases, hadd, rfl⟩

theorem writeLocally_transaction {answer : Int × MaybeDocumentMap}
    (hmuts : ∀ mutation ∈ mutations, mutation ∈ scope.written)
    (h : s.writeLocally time mutations = .ok (s', answer)) :
    Transaction scope s.persistence s'.persistence := by
  obtain ⟨hnone, bases, p₁, batch, hbases, hadd, rfl⟩ := writeLocally_ok h
  exact ⟨hnone, p₁, .single (.addMutationBatch hbases hmuts hadd), rfl⟩

theorem rejectBatch_transaction (h : s.rejectBatch batchId = .ok (s', answer)) :
    Transaction scope s.persistence s'.persistence := by
  refine transaction_of_run (fun p₀ p₁ _ hblock => ?_) h
  split at hblock
  · cases hblock
  · next toReject hbatch =>
    obtain ⟨p₂, hremove, hblock⟩ := bind_eq_ok.mp hblock
    obtain ⟨_, -, hblock⟩ := bind_eq_ok.mp hblock
    obtain ⟨_, -, hblock⟩ := bind_eq_ok.mp hblock
    cases hblock
    exact .single (.removeMutationBatch hbatch hremove)

theorem notifyViewChange_writes {viewChange : LocalViewChanges}
    {state state' : LevelDbPersistence × OrdMap Core.TargetId TargetData × ReferenceSet}
    (hids : IdsIn scope.targets state.2.1) (h : notifyViewChange state viewChange = .ok state') :
    Writes scope state.1 state'.1 ∧ IdsIn scope.targets state'.2.1 := by
  obtain ⟨p₁, hremove, h⟩ := bind_eq_ok.mp h
  have hwrites : Writes scope state.1 p₁ := writes_removeReferences hremove
  split_ifs at h
  · cases h
    exact ⟨hwrites, hids⟩
  · split at h
    · cases h
    · next data hactive =>
      cases h
      obtain ⟨hid, htarget⟩ := hids _ _ hactive
      exact ⟨hwrites, hids.insert hid htarget⟩

theorem notifyLocalViewChanges_transaction {viewChanges : List LocalViewChanges} {answer : Unit}
    (hids : IdsIn scope.targets s.targetDataByTarget)
    (h : s.notifyLocalViewChanges viewChanges = .ok (s', answer)) :
    Transaction scope s.persistence s'.persistence ∧ IdsIn scope.targets s'.targetDataByTarget := by
  obtain ⟨⟨s₁, targetDataByTarget, refs⟩, hrun, h⟩ := bind_eq_ok.mp h
  cases h
  obtain ⟨hnone, p₁, hblock, rfl⟩ := run_started hrun
  obtain ⟨⟨p₂, targets, rest⟩, hloop, hblock⟩ := bind_eq_ok.mp hblock
  obtain ⟨rfl, hrest⟩ := ok_inj hblock
  cases hrest
  obtain ⟨hwrites, hids'⟩ := writes_foldlM_fst
    (fun maps : OrdMap Core.TargetId TargetData × ReferenceSet => IdsIn scope.targets maps.1)
    (fun _ _ _ hids hround => notifyViewChange_writes hids hround) hids hloop
  exact ⟨⟨hnone, p₂, hwrites, rfl⟩, hids'⟩

section CanonicalId

variable {canonicalId : Target → Bytes}

theorem allocateTarget_transaction {target : Target} {answer : TargetData}
    (hnext : s.nextTargetId ∈ scope.targets)
    (h : s.allocateTarget canonicalId target = .ok (s', answer)) :
    Transaction scope s.persistence s'.persistence := by
  obtain ⟨⟨s₁, nextTargetId, data⟩, hrun, h⟩ := bind_eq_ok.mp h
  have hsame : s'.persistence = s₁.persistence := by
    dsimp only at h
    split_ifs at h
    · cases h
      rfl
    · cases h
      rfl
  rw [hsame]
  refine transaction_of_run (fun p₀ p₁ _ hblock => ?_) hrun
  obtain ⟨cached, -, hblock⟩ := bind_eq_ok.mp hblock
  cases cached with
  | some cached =>
    cases hblock
    exact .refl
  | none =>
    obtain ⟨n, hn, hblock⟩ := bind_eq_ok.mp hblock
    cases hblock
    exact .single (.addTarget canonicalId hnext (sequenceNumber_eq_ok.mp hn))

theorem releaseTarget_transaction {answer : Unit} (hids : IdsIn scope.targets s.targetDataByTarget)
    (h : s.releaseTarget targetId = .ok (s', answer)) :
    Transaction scope s.persistence s'.persistence := by
  unfold releaseTarget at h
  split at h
  · cases h
  · next data hactive =>
    obtain ⟨⟨s₁, _⟩, hrun, h⟩ := bind_eq_ok.mp h
    cases h
    change Transaction scope s.persistence s₁.persistence
    refine transaction_of_run (fun p₀ p₁ _ hblock => ?_) hrun
    obtain ⟨p₂, hremove, hblock⟩ := bind_eq_ok.mp hblock
    obtain ⟨n, hn, hblock⟩ := bind_eq_ok.mp hblock
    cases hblock
    exact (writes_removeReferences hremove).tail
      (.updateTarget (hids _ _ hactive).2 (sequenceNumber_eq_ok.mp hn))

theorem collectGarbage_transaction {bound : Int} {answer : Nat × Nat}
    (hcollected : ∀ key, key ∈ scope.collected)
    (h : s.collectGarbage canonicalId bound = .ok (s', answer)) :
    Transaction scope s.persistence s'.persistence := by
  refine transaction_of_run (fun p₀ p₁ _ hblock => ?_) h
  obtain ⟨⟨p₂, targets⟩, htargets, hblock⟩ := bind_eq_ok.mp hblock
  obtain ⟨⟨p₃, documents⟩, hremove, hblock⟩ := bind_eq_ok.mp hblock
  cases hblock
  exact (writes_removeTargets htargets).trans (writes_removeOrphanedDocuments hcollected hremove)

/-! ## Steps -/

/-- A store is started by a transaction on a new persistence. -/
theorem start_ok {tables : LevelDbTables} (h : start tables userId = .ok s) :
    ∃ p, LevelDbPersistence.create tables = .ok p ∧ Transaction scope p s.persistence := by
  obtain ⟨p, hcreate, h⟩ := bind_eq_ok.mp h
  obtain ⟨s₁, hstart, h⟩ := bind_eq_ok.mp h
  cases h
  exact ⟨p, hcreate, startMutationQueue_transaction hstart⟩

/-- The documents of the cache that a call may change and the mutations that it adds are in scope.
-/
def InScope (scope : WriteScope) : LocalStoreCall → Prop
  | .writeLocally _ mutations => ∀ mutation ∈ mutations, mutation ∈ scope.written
  | .acknowledgeBatch .. => ∀ key, key ∈ scope.added
  | .applyRemoteEvent _ => (∀ key, key ∈ scope.added) ∧ ∀ key, key ∈ scope.removed
  | .collectGarbage _ => ∀ key, key ∈ scope.collected
  | _ => True

/-- A call that is no restart is a sequence of transactions. -/
theorem step_transactions {call : LocalStoreCall} {answer : Unit} (hscope : InScope scope call)
    (hids : IdsIn scope.targets s.targetDataByTarget) (hnext : s.nextTargetId ∈ scope.targets)
    (h : s.step canonicalId call = .ok (s', answer)) :
    Transactions scope s.persistence s'.persistence ∨
      ∃ userId, call = .restart userId ∧ start s.tables userId = .ok s' := by
  cases call with
  | restart userId =>
    obtain ⟨s₁, hstart, h⟩ := bind_eq_ok.mp h
    cases h
    exact .inr ⟨userId, rfl, hstart⟩
  | handleUserChange userId =>
    obtain ⟨_, hop⟩ := ok_of_discard h
    exact .inl (handleUserChange_transactions hop)
  | writeLocally time mutations =>
    obtain ⟨_, hop⟩ := ok_of_discard h
    exact .inl (.single (writeLocally_transaction hscope hop))
  | acknowledgeBatch batchId commitVersion mutationResults streamToken =>
    obtain ⟨result, hresult, h⟩ := bind_eq_ok.mp h
    obtain ⟨_, hop⟩ := ok_of_discard h
    exact .inl (.single (acknowledgeBatch_transaction hscope (batchResult_ok hresult) hop))
  | rejectBatch batchId =>
    obtain ⟨_, hop⟩ := ok_of_discard h
    exact .inl (.single (rejectBatch_transaction hop))
  | setLastStreamToken streamToken =>
    refine .inl (.single (transaction_of_run (fun p₀ p₁ _ hblock => ?_) h))
    cases hblock
    exact .single (.setLastStreamToken streamToken)
  | applyRemoteEvent event =>
    obtain ⟨_, hop⟩ := ok_of_discard h
    exact .inl (.single (applyRemoteEvent_transaction hids hscope.1 hscope.2 hop).1)
  | notifyLocalViewChanges viewChanges =>
    exact .inl (.single (notifyLocalViewChanges_transaction hids h).1)
  | allocateTarget target =>
    obtain ⟨_, hop⟩ := ok_of_discard h
    exact .inl (.single (allocateTarget_transaction hnext hop))
  | releaseTarget targetId => exact .inl (.single (releaseTarget_transaction hids h))
  | collectGarbage bound =>
    obtain ⟨_, hop⟩ := ok_of_discard h
    exact .inl (.single (collectGarbage_transaction hscope hop))
  | read => exact .inl (.single (transaction_of_read (fun _ => .ok ()) h))

end CanonicalId

end LocalStore

end Firebase.Firestore.Local
