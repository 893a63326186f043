import Firebase.Firestore.Core.Target
import Firebase.Firestore.Model.MutationBatch

/-!
# The rows of the local store

`LevelDbPersistence` (`leveldb_persistence.cc`) keeps all rows in one database, which its parts
write to.  `LevelDbTables` is the contents of the database, table by table, with each row under the
components of its key.  `LevelDbPersistence` adds what the parts keep in memory, which is lost when
the process ends.

A transaction of `LevelDbPersistence::Run` works on the tables and is committed as a
whole.  An assertion that fails ends the process, so that a transaction is either
committed or leaves neither rows nor memory behind.
-/

namespace Firebase.Firestore.Local

open Lib Util Model Firestore.Core

/-! ## Tables -/

structure MutationQueueRow where
  lastAcknowledgedBatchId : Int
  lastStreamToken : Bytes

def MutationQueueRow.default : MutationQueueRow := ⟨0, []⟩

structure TargetGlobal where
  highestTargetId : Core.TargetId
  highestListenSequenceNumber : Int
  lastRemoteSnapshotVersion : SnapshotVersion
  targetCount : Int

def TargetGlobal.default : TargetGlobal := ⟨0, 0, .none, 0⟩

def sentinel (key : DocumentKey) : DocumentKey ×ₗ Core.TargetId := toLex (key, 0)

/-- The rows of the database.  A value of `document_target` is a sequence number or empty. -/
structure LevelDbTables where
  version : Option Int
  mutations : OrdMap (Bytes ×ₗ Int) MutationBatch
  documentMutations : OrdMap (Bytes ×ₗ DocumentKey ×ₗ Int) Unit
  mutationQueues : OrdMap Bytes MutationQueueRow
  targetGlobal : Option TargetGlobal
  targets : OrdMap Core.TargetId TargetData
  queryTargets : OrdMap (Bytes ×ₗ Core.TargetId) Unit
  targetDocuments : OrdMap (Core.TargetId ×ₗ DocumentKey) Unit
  documentTargets : OrdMap (DocumentKey ×ₗ Core.TargetId) (Option Int)
  remoteDocuments : OrdMap DocumentKey MaybeDocument
  remoteDocumentReadTimes : OrdMap (ResourcePath ×ₗ SnapshotVersion ×ₗ Bytes) Unit
  collectionParents : OrdMap (Bytes ×ₗ ResourcePath) Unit

def LevelDbTables.empty : LevelDbTables where
  version := none
  mutations := .empty
  documentMutations := .empty
  mutationQueues := .empty
  targetGlobal := none
  targets := .empty
  queryTargets := .empty
  targetDocuments := .empty
  documentTargets := .empty
  remoteDocuments := .empty
  remoteDocumentReadTimes := .empty
  collectionParents := .empty

/-- `LevelDbMutationQueue` of the current user: what it keeps besides its rows. -/
structure UserQueue where
  userId : Bytes
  nextBatchId : Int
  metadata : MutationQueueRow

/-- `LevelDbPersistence`: the rows as the current transaction has them, the metadata of the target
cache, the entries that the index manager has written, the numbers of the listen sequence, and the
queue of the current user. -/
structure LevelDbPersistence where
  tables : LevelDbTables
  users : Finset Bytes
  metadata : TargetGlobal
  collectionParentsCache : OrdMap (Bytes ×ₗ ResourcePath) Unit
  previousSequenceNumber : Int
  currentSequenceNumber : Option Int
  queue : UserQueue

namespace LevelDbPersistence

def empty : LevelDbPersistence where
  tables := .empty
  users := ∅
  metadata := .default
  collectionParentsCache := .empty
  previousSequenceNumber := 0
  currentSequenceNumber := none
  queue := ⟨[], 0, .default⟩

/-! ## The index manager -/

def collectionEntry (collectionPath : ResourcePath) : Bytes ×ₗ ResourcePath :=
  toLex (collectionPath.getLastD [], collectionPath.dropLast)

def addToIndex (index : OrdMap (Bytes ×ₗ ResourcePath) Unit) (collectionPath : ResourcePath) :
    Hard (Bool × OrdMap (Bytes ×ₗ ResourcePath) Unit) := do
  hardAssert (collectionPath.length % 2 == 1) "Expected a collection path."
  let entry := collectionEntry collectionPath
  return ((index.get? entry).isNone, index.insert entry ())

def addToCollectionParentIndex (p : LevelDbPersistence) (collectionPath : ResourcePath) :
    Hard LevelDbPersistence := do
  let (inserted, cache) ← addToIndex p.collectionParentsCache collectionPath
  let p := { p with collectionParentsCache := cache }
  if inserted then
    return { p with tables := { p.tables with
      collectionParents := p.tables.collectionParents.insert (collectionEntry collectionPath) () } }
  else return p

variable {p p' : LevelDbPersistence}

/-- What is added besides the entry of the cache: a row, the first time. -/
theorem addToCollectionParentIndex_ok {collectionPath : ResourcePath}
    (h : p.addToCollectionParentIndex collectionPath = .ok p') :
    collectionPath.length % 2 = 1 ∧ ∃ rows, p' = { p with
      collectionParentsCache := p.collectionParentsCache.insert (collectionEntry collectionPath) ()
      tables := { p.tables with collectionParents := rows } } ∧
    rows = if (p.collectionParentsCache.get? (collectionEntry collectionPath)).isNone then
      p.tables.collectionParents.insert (collectionEntry collectionPath) ()
      else p.tables.collectionParents := by
  obtain ⟨⟨inserted, cache⟩, hadd, h⟩ := bind_eq_ok.mp h
  obtain ⟨_, hodd, hadd⟩ := bind_eq_ok.mp hadd
  cases hadd
  refine ⟨by simpa using hardAssert_eq_ok.mp hodd, ?_⟩
  dsimp only at h
  split_ifs at h with hnew
  · exact ⟨_, (Except.ok.inj h).symm, by rw [if_pos hnew]⟩
  · exact ⟨_, (Except.ok.inj h).symm, by rw [if_neg hnew]⟩

section

variable (p : LevelDbPersistence)

def getCollectionParents (collectionId : Bytes) : List ResourcePath :=
  (p.tables.collectionParents.scanUnder collectionId).map fun row => (ofLex row.1).2

/-! ## The reference delegate -/

def sequenceNumber (p : LevelDbPersistence) : Hard Int :=
  match p.currentSequenceNumber with
  | some sequenceNumber => .ok sequenceNumber
  | none => .error ⟨"Asking for a sequence number outside of a transaction"⟩

def onTransactionStarted : Hard LevelDbPersistence := do
  hardAssert p.currentSequenceNumber.isNone "Previous sequence number is still in effect"
  -- `ListenSequence::Next`.
  let next := p.previousSequenceNumber + 1
  return { p with previousSequenceNumber := next, currentSequenceNumber := some next }

def onTransactionCommitted : LevelDbPersistence :=
  { p with currentSequenceNumber := none }

def writeSentinel (key : DocumentKey) : Hard LevelDbPersistence := do
  let sequenceNumber ← p.sequenceNumber
  return { p with tables := { p.tables with
    documentTargets := p.tables.documentTargets.insert (sentinel key) (some sequenceNumber) } }

end

theorem writeSentinel_ok {key : DocumentKey} (h : p.writeSentinel key = .ok p') :
    ∃ n, p.currentSequenceNumber = some n ∧ p' = { p with tables := { p.tables with
      documentTargets := p.tables.documentTargets.insert (sentinel key) (some n) } } := by
  obtain ⟨n, hn, h⟩ := bind_eq_ok.mp h
  refine ⟨n, ?_, (Except.ok.inj h).symm⟩
  unfold sequenceNumber at hn
  split at hn
  · next heq => rw [heq, Except.ok.inj hn]
  · cases hn

section

variable (p : LevelDbPersistence) (key : DocumentKey)

def addReference : Hard LevelDbPersistence :=
  p.writeSentinel key

def removeReference : Hard LevelDbPersistence :=
  p.writeSentinel key

def removeMutationReference : Hard LevelDbPersistence :=
  p.writeSentinel key

def updateLimboDocument : Hard LevelDbPersistence :=
  p.writeSentinel key

end

/-! ## Transactions -/

def run {α : Type} (p : LevelDbPersistence)
    (block : LevelDbPersistence → Hard (LevelDbPersistence × α)) :
    Hard (LevelDbPersistence × α) := do
  let p ← p.onTransactionStarted
  let (p, result) ← block p
  return (p.onTransactionCommitted, result)

/-- The persistence in a transaction that has not written anything yet. -/
def started (p : LevelDbPersistence) : LevelDbPersistence :=
  { p with
    previousSequenceNumber := p.previousSequenceNumber + 1
    currentSequenceNumber := some (p.previousSequenceNumber + 1) }

variable {α : Type} {block : LevelDbPersistence → Hard (LevelDbPersistence × α)} {a : α}

/-- The rows of a transaction are those of its block, which starts from the rows before. -/
theorem run_ok (h : p.run block = .ok (p', a)) : p.currentSequenceNumber = none ∧
    ∃ p₁, block p.started = .ok (p₁, a) ∧ p' = p₁.onTransactionCommitted := by
  obtain ⟨p₀, hstarted, h⟩ := bind_eq_ok.mp h
  obtain ⟨_, hnone, hstarted⟩ := bind_eq_ok.mp hstarted
  cases hstarted
  obtain ⟨⟨p₁, a'⟩, hblock, h⟩ := bind_eq_ok.mp h
  cases h
  exact ⟨by simpa using hardAssert_eq_ok.mp hnone, p₁, hblock, rfl⟩

/-- A transaction on a persistence that is not in one. -/
theorem run_eq (hidle : p.currentSequenceNumber = none) (hblock : block p.started = .ok (p', a)) :
    p.run block = .ok (p'.onTransactionCommitted, a) := by
  rw [run, onTransactionStarted, hidle]
  change (block p.started >>= _) = _
  rw [hblock]
  rfl

end LevelDbPersistence

end Firebase.Firestore.Local
