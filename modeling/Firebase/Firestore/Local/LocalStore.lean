import Firebase.Firestore.Model.BaseValues
import Firebase.Firestore.Model.MutationResult
import Firebase.Firestore.Local.LevelDbMigrations
import Firebase.Firestore.Local.TargetCache
import Firebase.Firestore.Remote.WatchChangeAggregator

/-!
# The local store

`LocalStore` (`local_store.cc`) over the LevelDB persistence with LRU collection: local
writes and their outcome, the events of the backend, and the targets that are listened to.
Every operation is a transaction of the persistence, some more than one.

The operations are calls of a machine (`LocalStoreCall`, `LocalStore.step`).  A call that
aborts has no state after it; since the process is gone and the transaction with it,
what follows is a `restart`, which makes a new store from the rows that were committed and
keeps nothing else.  All rows are taken to read back as they were saved.
-/

namespace Firebase.Firestore.Local

open Lib Util Model Firestore.Core Remote

abbrev MaybeDocumentMap := OrdMap DocumentKey MaybeDocument

abbrev OptionalMaybeDocumentMap := OrdMap DocumentKey (Option MaybeDocument)

def hasPendingWrites : MaybeDocument → Bool
  | .document doc => doc.hasLocalMutations || doc.hasCommittedMutations
  | .noDocument _ _ hasCommittedMutations => hasCommittedMutations
  | .unknownDocument _ _ => true

/-! ## The remote document cache -/

namespace LevelDbTables

/-- `LevelDbRemoteDocumentCache::DecodeMaybeDocument`, on a row that can be parsed. -/
def decodeMaybeDocument (document : MaybeDocument) (key : DocumentKey) : Hard MaybeDocument := do
  hardAssert (document.key = key) "Read document has key instead of expected key."
  return document

variable (t : LevelDbTables)

def getRemoteDocument (key : DocumentKey) : Hard (Option MaybeDocument) :=
  match t.remoteDocuments.get? key with
  | none => .ok none
  | some document => some <$> decodeMaybeDocument document key

def getAllRemoteDocuments (keys : DocumentKeySet) : Hard OptionalMaybeDocumentMap :=
  keys.sort.foldlM (fun map key => do return map.insert key (← t.getRemoteDocument key)) .empty

/-! ## Local views -/

def applyLocalMutationsToDocuments (docs : OptionalMaybeDocumentMap)
    (batches : List MutationBatch) : Hard OptionalMaybeDocumentMap :=
  docs.entries.foldlM (fun results entry => do
    let localView ← batches.foldlM (fun localView batch =>
      batch.applyToLocalDocument localView entry.1) entry.2
    return results.insert entry.1 localView) .empty

def getLocalViewOfDocuments (userId : Bytes)
    (baseDocs : OptionalMaybeDocumentMap) : Hard MaybeDocumentMap := do
  let allKeys : DocumentKeySet := (baseDocs.entries.map Prod.fst).toFinset
  let batches ← t.allMutationBatchesAffectingDocumentKeys userId allKeys
  let docs ← applyLocalMutationsToDocuments baseDocs batches
  return docs.entries.foldl (fun results entry =>
    results.insert entry.1 (entry.2.getD (.noDocument entry.1 .none false))) .empty

def getDocuments (userId : Bytes) (keys : DocumentKeySet) : Hard MaybeDocumentMap := do
  t.getLocalViewOfDocuments userId (← t.getAllRemoteDocuments keys)

/-- `CollectUserSet`: the users that have batches. -/
def collectUserSet : Finset Bytes :=
  (t.mutations.entries.map fun row => (ofLex row.1).1).toFinset

end LevelDbTables

namespace LevelDbPersistence

variable (p : LevelDbPersistence)

/-- The rows of `LevelDbRemoteDocumentCache::Add`: the document, and when it was read. -/
def putDocument (document : MaybeDocument) (collectionPath : ResourcePath)
    (readTime : SnapshotVersion) : LevelDbPersistence :=
  { p with tables := { p.tables with
    remoteDocuments := p.tables.remoteDocuments.insert document.key document
    remoteDocumentReadTimes := p.tables.remoteDocumentReadTimes.insert
      (toLex (collectionPath, toLex (readTime, document.key.path.getLastD []))) () } }

def addDocument (document : MaybeDocument) (readTime : SnapshotVersion) :
    Hard LevelDbPersistence := do
  let collectionPath ← document.key.path.popLast
  (p.putDocument document collectionPath readTime).addToCollectionParentIndex collectionPath

def removeDocument (key : DocumentKey) : LevelDbPersistence :=
  { p with tables := { p.tables with remoteDocuments := p.tables.remoteDocuments.erase key } }

/-- `LevelDbMutationQueue::SetLastStreamToken`, which is also what `AcknowledgeBatch` does. -/
def setLastStreamToken (streamToken : Bytes) : LevelDbPersistence :=
  let metadata := { p.queue.metadata with lastStreamToken := streamToken }
  { p with
    queue := { p.queue with metadata := metadata }
    tables := { p.tables with
      mutationQueues := p.tables.mutationQueues.insert p.queue.userId metadata } }

/-- `LevelDbPersistence::Create`: the migrations, and what the parts read when they are started.
There is no mutation queue yet. -/
def create (tables : LevelDbTables) : Hard LevelDbPersistence := do
  let tables ← tables.runMigrations LevelDbTables.kSchemaVersion
  match tables.targetGlobal with
  | none =>
    .error ⟨"Found no metadata, expected schema to be at version 0 which ensures metadata existence"⟩
  | some metadata => return {
      tables := tables
      users := tables.collectUserSet
      metadata := metadata
      collectionParentsCache := .empty
      previousSequenceNumber := metadata.highestListenSequenceNumber
      currentSequenceNumber := none
      queue := ⟨[], 0, .default⟩ }

end LevelDbPersistence

/-! ## The store -/

structure LocalViewChanges where
  targetId : Core.TargetId
  isFromCache : Bool
  addedKeys : DocumentKeySet
  removedKeys : DocumentKeySet

/-- `LocalStore`.  `target_id_by_target_` is keyed by targets, which are compared with
`operator==`. -/
structure LocalStore where
  persistence : LevelDbPersistence
  targetDataByTarget : OrdMap Core.TargetId TargetData
  targetIdByTarget : List (Target × Core.TargetId)
  nextTargetId : Core.TargetId
  localViewReferences : ReferenceSet

namespace LocalStore

abbrev tables (s : LocalStore) : LevelDbTables := s.persistence.tables

def run {α : Type} (s : LocalStore)
    (block : LevelDbPersistence → Hard (LevelDbPersistence × α)) : Hard (LocalStore × α) := do
  let (persistence, result) ← s.persistence.run block
  return ({ s with persistence }, result)

def startMutationQueue (s : LocalStore) (userId : Bytes) : Hard LocalStore := do
  let (s, _) ← s.run fun p => .ok (p.startMutationQueue userId, ())
  return s

/-- The constructor on a new persistence, and `LocalStore::Start`.  The generator gives even target
ids above the highest one. -/
def start (tables : LevelDbTables) (userId : Bytes) : Hard LocalStore := do
  let persistence ← LevelDbPersistence.create tables
  let s : LocalStore := ⟨persistence, .empty, [], 0 + 2, .empty⟩
  let s ← s.startMutationQueue userId
  return { s with nextTargetId := s.persistence.metadata.highestTargetId + 2 }

/-! ## Writes -/

variable (s : LocalStore)

def handleUserChange (userId : Bytes) : Hard (LocalStore × MaybeDocumentMap) := do
  let (s, oldBatches) ← s.run fun p => .ok (p, p.tables.allMutationBatches p.queue.userId)
  let s ← s.startMutationQueue userId
  s.run fun p => do
    let newBatches := p.tables.allMutationBatches p.queue.userId
    let changedKeys : DocumentKeySet := (oldBatches ++ newBatches).foldl (fun keys batch =>
      batch.mutations.foldl (fun keys mutation => insert mutation.key keys) keys) ∅
    return (p, ← p.tables.getDocuments p.queue.userId changedKeys)

def baseMutations (existingDocuments : MaybeDocumentMap) (mutations : List Mutation) :
    Hard (List Mutation) := do
  let found ← mutations.mapM fun mutation =>
    mutation.baseMutation (existingDocuments.get? mutation.key)
  return found.filterMap id

def writeLocally (localWriteTime : Timestamp) (mutations : List Mutation) :
    Hard (LocalStore × (Int × MaybeDocumentMap)) :=
  s.run fun p => do
    let keys : DocumentKeySet := mutations.foldl (fun keys mutation => insert mutation.key keys) ∅
    let existingDocuments ← p.tables.getDocuments p.queue.userId keys
    let baseMutations ← baseMutations existingDocuments mutations
    let (p, batch) ← p.addMutationBatch localWriteTime baseMutations mutations
    return (p, (batch.batchId, ← batch.applyToLocalDocumentSet existingDocuments))

def applyToKey (result : MutationBatchResult) (p : LevelDbPersistence) (docKey : DocumentKey) :
    Hard LevelDbPersistence := do
  let remoteDoc ← p.tables.getRemoteDocument docKey
  match result.docVersions.get? docKey with
  | none => .error ⟨"doc_versions should contain every doc in the write."⟩
  | some ackVersion =>
    if remoteDoc.all (·.version < ackVersion) then do
      match ← MutationBatch.applyToRemoteDocument remoteDoc docKey result with
      | none =>
        hardAssert remoteDoc.isNone "Mutation batch applied to document resulted in nullopt."
        return p
      | some doc => p.addDocument doc result.commitVersion
    else return p

def applyBatchResult (p : LevelDbPersistence) (result : MutationBatchResult) :
    Hard LevelDbPersistence := do
  let p ← result.batch.keys.sort.foldlM (applyToKey result) p
  p.removeMutationBatch result.batch

def acknowledgeBatch (result : MutationBatchResult) : Hard (LocalStore × MaybeDocumentMap) :=
  s.run fun p => do
    let p := p.setLastStreamToken result.streamToken
    let p ← applyBatchResult p result
    p.tables.performConsistencyCheck p.queue.userId
    return (p, ← p.tables.getDocuments p.queue.userId result.batch.keys)

def rejectBatch (batchId : Int) : Hard (LocalStore × MaybeDocumentMap) :=
  s.run fun p =>
    match p.tables.lookupMutationBatch p.queue.userId batchId with
    | none => .error ⟨"Attempt to reject nonexistent batch!"⟩
    | some toReject => do
      let p ← p.removeMutationBatch toReject
      p.tables.performConsistencyCheck p.queue.userId
      return (p, ← p.tables.getDocuments p.queue.userId toReject.keys)

def setLastStreamToken (s : LocalStore) (streamToken : Bytes) : Hard (LocalStore × Unit) :=
  s.run fun p => .ok (p.setLastStreamToken streamToken, ())

/-! ## Remote events -/

def kResumeTokenMaxAgeSeconds : Int := 5 * 60

def shouldPersistTargetData (newTargetData oldTargetData : TargetData) (change : TargetChange) :
    Hard Bool := do
  hardAssert (!newTargetData.resumeToken.isEmpty)
    "Attempted to persist target data with empty resume token"
  if oldTargetData.resumeToken.isEmpty then return true
  let timeDelta := newTargetData.snapshotVersion.timestamp.seconds.toInt -
    oldTargetData.snapshotVersion.timestamp.seconds.toInt
  if timeDelta ≥ kResumeTokenMaxAgeSeconds then return true
  let changes := change.addedDocuments.card + change.modifiedDocuments.card +
    change.removedDocuments.card
  return changes > 0

/-- A round of the loop of `LocalStore::ApplyRemoteEvent` over the target changes, with
`target_data_by_target_`. -/
def applyTargetChange (snapshotVersion : SnapshotVersion)
    (state : LevelDbPersistence × OrdMap Core.TargetId TargetData)
    (entry : Core.TargetId × TargetChange) :
    Hard (LevelDbPersistence × OrdMap Core.TargetId TargetData) :=
  match state.2.get? entry.1 with
  -- The remote keys of a query that is not active are not updated.
  | none => .ok state
  | some oldTargetData => do
    let p ← state.1.removeMatchingKeys entry.2.removedDocuments entry.1
    let p ← p.addMatchingKeys entry.2.addedDocuments entry.1
    if entry.2.resumeToken.isEmpty then return (p, state.2)
    let newTargetData := withSequenceNumber
      (oldTargetData.withResumeToken entry.2.resumeToken snapshotVersion) (← p.sequenceNumber)
    let targetDataByTarget := state.2.insert entry.1 newTargetData
    if ← shouldPersistTargetData newTargetData oldTargetData entry.2 then
      return (p.updateTarget newTargetData, targetDataByTarget)
    else return (p, targetDataByTarget)

def isNewer (doc : MaybeDocument) (existingDoc : Option MaybeDocument) : Bool :=
  existingDoc.all fun existingDoc => existingDoc.version < doc.version ||
    doc.version == existingDoc.version && hasPendingWrites existingDoc

/-- A `NoDocument` at version `None`, as in manufactured events: access to the document is lost. -/
def isRemoval : MaybeDocument → Bool
  | .noDocument _ version _ => version == .none
  | _ => false

/-- What a round of the loop of `LocalStore::ApplyRemoteEvent` over the document updates does to the
cache, with the documents that have changed. -/
def storeDocumentUpdate (event : RemoteEvent) (existingDocs : OptionalMaybeDocumentMap)
    (state : LevelDbPersistence × OptionalMaybeDocumentMap) (update : DocumentKey × MaybeDocument) :
    Hard (LevelDbPersistence × OptionalMaybeDocumentMap) :=
  let (key, doc) := update
  if isRemoval doc then
    .ok (state.1.removeDocument key, state.2.insert key (some doc))
  else if isNewer doc ((existingDocs.get? key).join) then do
    hardAssert (event.snapshotVersion ≠ .none)
      "Cannot add a document when the remote version is zero"
    let p ← state.1.addDocument doc event.snapshotVersion
    return (p, state.2.insert key (some doc))
  else .ok state

def applyDocumentUpdate (event : RemoteEvent) (existingDocs : OptionalMaybeDocumentMap)
    (state : LevelDbPersistence × OptionalMaybeDocumentMap) (update : DocumentKey × MaybeDocument) :
    Hard (LevelDbPersistence × OptionalMaybeDocumentMap) := do
  let (p, changedDocs) ← storeDocumentUpdate event existingDocs state update
  if update.1 ∈ event.limboDocumentChanges then
    return (← p.updateLimboDocument update.1, changedDocs)
  else return (p, changedDocs)

def saveSnapshotVersion (p : LevelDbPersistence)
    (lastRemoteVersion remoteVersion : SnapshotVersion) :
    Hard LevelDbPersistence :=
  if remoteVersion ≠ .none then do
    hardAssert (lastRemoteVersion ≤ remoteVersion) "Watch stream reverted to previous snapshot??"
    return p.setLastRemoteSnapshotVersion remoteVersion
  else .ok p

def applyRemoteEvent (event : RemoteEvent) : Hard (LocalStore × MaybeDocumentMap) := do
  let lastRemoteVersion := s.persistence.metadata.lastRemoteSnapshotVersion
  let (s, (targetDataByTarget, result)) ← s.run fun p => do
    let (p, targetDataByTarget) ← event.targetChanges.entries.foldlM
      (applyTargetChange event.snapshotVersion) (p, s.targetDataByTarget)
    let updatedKeys : DocumentKeySet := (event.documentUpdates.entries.map Prod.fst).toFinset
    let existingDocs ← p.tables.getAllRemoteDocuments updatedKeys
    let (p, changedDocs) ← event.documentUpdates.entries.foldlM
      (applyDocumentUpdate event existingDocs) (p, .empty)
    let p ← saveSnapshotVersion p lastRemoteVersion event.snapshotVersion
    return (p, (targetDataByTarget, ← p.tables.getLocalViewOfDocuments p.queue.userId changedDocs))
  return ({ s with targetDataByTarget }, result)

/-! ## Targets and views -/

def notifyViewChange (state : LevelDbPersistence × OrdMap Core.TargetId TargetData × ReferenceSet)
    (viewChange : LocalViewChanges) :
    Hard (LevelDbPersistence × OrdMap Core.TargetId TargetData × ReferenceSet) := do
  let (p, targetDataByTarget, references) := state
  let p ← viewChange.removedKeys.sort.foldlM LevelDbPersistence.removeReference p
  let references := viewChange.addedKeys.sort.foldl
    (fun references key => references.addReference key viewChange.targetId) references
  let references := viewChange.removedKeys.sort.foldl
    (fun references key => references.removeReference key viewChange.targetId) references
  if viewChange.isFromCache then return (p, targetDataByTarget, references)
  match targetDataByTarget.get? viewChange.targetId with
  | none => .error ⟨"Can't set limbo-free snapshot version for unknown target"⟩
  | some targetData =>
    -- `WithLastLimboFreeSnapshotVersion`.
    let updatedTargetData := { targetData with
      lastLimboFreeSnapshotVersion := targetData.snapshotVersion }
    return (p, targetDataByTarget.insert viewChange.targetId updatedTargetData, references)

def notifyLocalViewChanges (viewChanges : List LocalViewChanges) : Hard (LocalStore × Unit) := do
  let (s, (targetDataByTarget, localViewReferences)) ← s.run fun p => do
    let (p, targetDataByTarget, references) ← viewChanges.foldlM notifyViewChange
      (p, s.targetDataByTarget, s.localViewReferences)
    return (p, (targetDataByTarget, references))
  return ({ s with targetDataByTarget, localViewReferences }, ())

section CanonicalId

variable (canonicalId : Target → Bytes)

def allocateTarget (s : LocalStore) (target : Target) : Hard (LocalStore × TargetData) := do
  let (s, (nextTargetId, targetData)) ← s.run fun p => do
    match ← p.getTarget canonicalId some target with
    | some cached => return (p, (s.nextTargetId, cached))
    | none =>
      let cached := TargetData.create target s.nextTargetId (← p.sequenceNumber) .listen
      return (p.addTarget canonicalId cached, (s.nextTargetId + 2, cached))
  let s := { s with nextTargetId }
  if (s.targetDataByTarget.get? targetData.targetId).isNone then
    return ({ s with
      targetDataByTarget := s.targetDataByTarget.insert targetData.targetId targetData
      targetIdByTarget := (targetData.target, targetData.targetId) ::
        s.targetIdByTarget.filter (!·.1.equals targetData.target) }, targetData)
  else return (s, targetData)

/-- `LocalStore::ReleaseTarget`.  `LevelDbLruReferenceDelegate::RemoveTarget` keeps the target and
gives it the number of the transaction. -/
def releaseTarget (s : LocalStore) (targetId : Core.TargetId) : Hard (LocalStore × Unit) := do
  match s.targetDataByTarget.get? targetId with
  | none => .error ⟨"Tried to release a non-existent target"⟩
  | some targetData =>
    let (localViewReferences, removed) :=
      s.localViewReferences.removeReferences targetData.targetId
    let (s, _) ← s.run fun p => do
      let p ← removed.foldlM LevelDbPersistence.removeReference p
      return (p.updateTarget (withSequenceNumber targetData (← p.sequenceNumber)), ())
    return ({ s with
      targetDataByTarget := s.targetDataByTarget.erase targetId
      targetIdByTarget := s.targetIdByTarget.filter (!·.1.equals targetData.target)
      localViewReferences }, ())

/-- The part of `LruGarbageCollector::RunGarbageCollection` that removes, up to a sequence number,
with the number of targets and documents that are removed. -/
def collectGarbage (s : LocalStore) (upperBound : Int) : Hard (LocalStore × (Nat × Nat)) :=
  s.run fun p => do
    let (p, targets) ← p.removeTargets canonicalId some upperBound s.targetDataByTarget
    let (p, documents) ← p.removeOrphanedDocuments s.localViewReferences upperBound
    return (p, (targets, documents))

end CanonicalId

end LocalStore

/-! ## The machine -/

/-- What happens to a local store.  A batch is acknowledged as the callers have read it from the
queue.  `read` stands for the transactions that only read. -/
inductive LocalStoreCall where
  | handleUserChange (userId : Bytes)
  | writeLocally (localWriteTime : Timestamp) (mutations : List Mutation)
  | acknowledgeBatch (batchId : Int) (commitVersion : SnapshotVersion)
      (mutationResults : List MutationResult) (streamToken : Bytes)
  | rejectBatch (batchId : Int)
  | setLastStreamToken (streamToken : Bytes)
  | applyRemoteEvent (event : RemoteEvent)
  | notifyLocalViewChanges (viewChanges : List LocalViewChanges)
  | allocateTarget (target : Target)
  | releaseTarget (targetId : Core.TargetId)
  | collectGarbage (upperBound : Int)
  | read
  | restart (userId : Bytes)

namespace LocalStore

/-- `MutationBatchResult` of a batch of the current user. -/
def batchResult (s : LocalStore) (batchId : Int) (commitVersion : SnapshotVersion)
    (mutationResults : List MutationResult) (streamToken : Bytes) : Hard MutationBatchResult :=
  match s.tables.lookupMutationBatch s.persistence.queue.userId batchId with
  | none => .error ⟨"Mutation batch did not exist"⟩
  | some batch =>
    if lengths : batch.mutations.length = mutationResults.length then
      .ok ⟨batch, commitVersion, mutationResults, streamToken, lengths⟩
    else .error ⟨"Number of mutations sent must equal results received"⟩

def step (canonicalId : Target → Bytes) (s : LocalStore) (call : LocalStoreCall) :
    Hard (LocalStore × Unit) := do
  match call with
  | .handleUserChange userId => return ((← s.handleUserChange userId).1, ())
  | .writeLocally localWriteTime mutations =>
    return ((← s.writeLocally localWriteTime mutations).1, ())
  | .acknowledgeBatch batchId commitVersion mutationResults streamToken =>
    let result ← s.batchResult batchId commitVersion mutationResults streamToken
    return ((← s.acknowledgeBatch result).1, ())
  | .rejectBatch batchId => return ((← s.rejectBatch batchId).1, ())
  | .setLastStreamToken streamToken => s.setLastStreamToken streamToken
  | .applyRemoteEvent event => return ((← s.applyRemoteEvent event).1, ())
  | .notifyLocalViewChanges viewChanges => s.notifyLocalViewChanges viewChanges
  | .allocateTarget target => return ((← s.allocateTarget canonicalId target).1, ())
  | .releaseTarget targetId => s.releaseTarget targetId
  | .collectGarbage upperBound => return ((← s.collectGarbage canonicalId upperBound).1, ())
  | .read => s.run fun p => .ok (p, ())
  | .restart userId => return (← LocalStore.start s.tables userId, ())

end LocalStore

end Firebase.Firestore.Local
