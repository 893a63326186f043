import Firebase.Firestore.Local.LevelDbKeyRoundTrip
import Firebase.Firestore.Local.LevelDbTransactionOverlay
import Firebase.Firestore.Local.ReferenceSet

/-!
# Removing orphaned documents

The LRU garbage collector of the LevelDB persistence
(`leveldb_lru_reference_delegate.cc`, `leveldb_target_cache.cc`).

Every document that something has referred to has a *sentinel* row in the table `document_target`,
with the sequence number of the last use, and one more row for each target that it belongs to.

The loop runs on an iterator of the current transaction while the callback deletes
rows of that transaction; the number of iterations is bounded by a parameter, and a
scan that is cut short by it fails.  It is taken to make fewer than `2 ^ 31` changes: its
iterator compares the numbers of the changes themselves.
-/

namespace Firebase.Firestore.Local

open Lib Util Model LevelDbTransaction

/-! ## The scan -/

/-- The sentinel row that may have to be reported. -/
structure PendingReport where
  nextToReport : ListenSequenceNumber
  keyToReport : DocumentKey

section Enumerate

variable {α : Type}

/-- `OrphanedDocumentCallback`: what it does to the transaction and to the caller's data. -/
abbrev OrphanedDocumentCallback (α : Type) :=
  LevelDbTransaction × α → DocumentKey → ListenSequenceNumber → LevelDbTransaction × α

def PendingReport.report (pending : PendingReport) (callback : OrphanedDocumentCallback α)
    (state : LevelDbTransaction × α) : LevelDbTransaction × α :=
  if pending.nextToReport ≠ 0 then callback state pending.keyToReport pending.nextToReport
  else state

def enumerateRows (callback : OrphanedDocumentCallback α) :
    Nat → Iterator → LevelDbTransaction × α → PendingReport →
      Hard ((LevelDbTransaction × α) × PendingReport)
  | 0, _, _, _ => .error ⟨"the scan was cut short"⟩
  | bound + 1, it, state, pending =>
    if it.isValid && LevelDbDocumentTargetKey.keyPrefix.isPrefixOf it.current.1 then do
      let (decoded, key) ← LevelDbDocumentTargetKey.decode (← it.key)
      hardAssert decoded "Failed to decode DocumentTarget key"
      if key.targetId = kInvalidTargetId then
        -- This is a new document, so the last one is not a member of any target.
        let state := pending.report callback state
        let nextToReport ← LevelDbDocumentTargetKey.decodeSentinelValue (← it.value)
        enumerateRows callback bound (← it.next state.1 Iterator.Behind.unbounded) state
          ⟨nextToReport, key.documentKey⟩
      else
        -- The document has a target, so it is not to be reported.
        enumerateRows callback bound (← it.next state.1 Iterator.Behind.unbounded) state
          { pending with nextToReport := 0 }
    else .ok (state, pending)

def enumerateOrphanedDocuments (callback : OrphanedDocumentCallback α) (bound : Nat)
    (state : LevelDbTransaction × α) : Hard (LevelDbTransaction × α) := do
  let it := (Iterator.new state.1).seek state.1 LevelDbDocumentTargetKey.keyPrefix
  let (state, pending) ← enumerateRows callback bound it state ⟨0, DocumentKey.empty⟩
  return pending.report callback state

end Enumerate

/-! ## The delegate -/

/-- The probe of `MutationQueuesContainKey` for each user, with one iterator. -/
def anyUserMutates (txn : LevelDbTransaction) (path : ResourcePath) : List Bytes → Iterator → Bool
  | [], _ => false
  | user :: users, it =>
    let mutationKey := LevelDbDocumentMutationKey.keyPrefixForPath user path
    let it := it.seek txn mutationKey
    if it.isValid && mutationKey.isPrefixOf it.current.1 then true
    else anyUserMutates txn path users it

def mutationQueuesContainKey (txn : LevelDbTransaction) (users : List Bytes)
    (key : DocumentKey) : Bool :=
  anyUserMutates txn key.path users (Iterator.new txn)

def isPinned (txn : LevelDbTransaction) (users : List Bytes) (additionalReferences : ReferenceSet)
    (key : DocumentKey) : Bool :=
  additionalReferences.containsKey key || mutationQueuesContainKey txn users key

/-- The callback of `RemoveOrphanedDocuments`, with the number of documents removed. -/
def removeOrphan (users : List Bytes) (additionalReferences : ReferenceSet)
    (upperBound : ListenSequenceNumber) : OrphanedDocumentCallback Nat :=
  fun (txn, count) key sequenceNumber =>
    if sequenceNumber ≤ upperBound then
      if !isPinned txn users additionalReferences key then
        -- `LevelDbRemoteDocumentCache::Remove`, then `RemoveSentinel`.
        ((txn.delete (LevelDbRemoteDocumentKey.key key)).delete
          (LevelDbDocumentTargetKey.sentinelKey key), count + 1)
      else (txn, count)
    else (txn, count)

def removeOrphanedDocuments (users : List Bytes) (additionalReferences : ReferenceSet)
    (upperBound : ListenSequenceNumber) (bound : Nat) (txn : LevelDbTransaction) :
    Hard (LevelDbTransaction × Nat) :=
  enumerateOrphanedDocuments (removeOrphan users additionalReferences upperBound) bound (txn, 0)

end Firebase.Firestore.Local
