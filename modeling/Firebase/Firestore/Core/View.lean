import Firebase.Firestore.Core.QueryOrder
import Firebase.Firestore.Remote.WatchChangeAggregator

/-!
# Views

`core::View` (`view.cc`) keeps the documents of a query, as far as the client knows them,
and turns changes of documents into snapshots (`view_snapshot.cc`).

A query with a limit keeps only a window of its documents.  When a document leaves a full window,
the view asks for a second pass over all documents that match the query: a *refill*
(`updateDocuments`, which is what `SyncEngine` does for every view).

A limit is a signed number in the source; where it is compared with the size of a set it is
converted to 64 bits without a sign.
-/

namespace Firebase.Firestore.Core

open Lib Util Model Remote

/-! ## Limits -/

namespace Query

def kNoLimit : Int32 := .maxValue

def hasLimitToFirst (query : Query) : Bool := query.limitType = .first ∧ query.limit ≠ kNoLimit

def hasLimitToLast (query : Query) : Bool := query.limitType = .last ∧ query.limit ≠ kNoLimit

/-- `static_cast<size_t>(query.limit())`. -/
def limitSize (query : Query) : Nat := (query.limit.toInt % 2 ^ 64).toNat

end Query

/-! ## Snapshots -/

inductive SyncState where
  | none | local_ | synced
deriving DecidableEq

structure ViewSnapshot where
  query : Query
  documents : DocumentSet
  oldDocuments : DocumentSet
  documentChanges : List DocumentViewChange
  mutatedKeys : DocumentKeySet
  fromCache : Bool
  syncStateChanged : Bool
  excludesMetadataChanges : Bool

def ViewSnapshot.fromInitialDocuments (query : Query) (documents : DocumentSet)
    (mutatedKeys : DocumentKeySet) (fromCache excludesMetadataChanges : Bool) :
    Hard ViewSnapshot := do
  let viewChanges := documents.sortedSet.map fun doc => ⟨doc, .added⟩
  let oldDocuments := DocumentSet.empty (← query.comparator)
  return ⟨query, documents, oldDocuments, viewChanges, mutatedKeys, fromCache, true,
    excludesMetadataChanges⟩

inductive LimboDocumentChange where
  | added (key : DocumentKey)
  | removed (key : DocumentKey)
deriving DecidableEq

structure ViewDocumentChanges where
  documentSet : DocumentSet
  changeSet : DocumentViewChangeSet
  mutatedKeys : DocumentKeySet
  needsRefill : Bool

structure ViewChange where
  snapshot : Option ViewSnapshot
  limboChanges : List LimboDocumentChange

inductive OnlineState where
  | unknown | online | offline
deriving DecidableEq

structure View where
  query : Query
  documentSet : DocumentSet
  syncedDocuments : DocumentKeySet
  limboDocuments : DocumentKeySet := ∅
  mutatedKeys : DocumentKeySet := ∅
  syncState : SyncState := .none
  current : Bool := false

def View.make (query : Query) (remoteDocuments : DocumentKeySet) : Hard View := do
  return { query, documentSet := .empty (← query.comparator), syncedDocuments := remoteDocuments }

/-! ## Computing changes -/

namespace ViewDocumentChanges

def addChange (changes : ViewDocumentChanges) (document : Document) (type : ChangeType) :
    Hard ViewDocumentChanges := do
  return { changes with changeSet := ← changes.changeSet.addChange ⟨document, type⟩ }

def applyDocument (changes : ViewDocumentChanges) (key : DocumentKey) :
    Option Document → Hard ViewDocumentChanges
  | some newDoc => do
    let documentSet ← changes.documentSet.insert newDoc
    let mutatedKeys := if newDoc.hasLocalMutations then insert key changes.mutatedKeys
      else changes.mutatedKeys.erase key
    return { changes with documentSet, mutatedKeys }
  | none => do
    let documentSet ← changes.documentSet.erase key
    return { changes with documentSet, mutatedKeys := changes.mutatedKeys.erase key }

def dropOne (query : Query) (changes : ViewDocumentChanges) : Hard ViewDocumentChanges := do
  let found := if query.hasLimitToFirst then changes.documentSet.getLastDocument
    else changes.documentSet.getFirstDocument
  match found with
  | none => .error ⟨"Dereferencing an empty optional"⟩
  | some oldDoc => do
    let documentSet ← changes.documentSet.erase oldDoc.key
    let mutatedKeys := changes.mutatedKeys.erase oldDoc.key
    { changes with documentSet, mutatedKeys }.addChange oldDoc .removed

def dropOut (query : Query) : Nat → ViewDocumentChanges → Hard ViewDocumentChanges
  | 0, changes => .ok changes
  | n + 1, changes => do dropOut query n (← changes.dropOne query)

def meetLimit (query : Query) (changes : ViewDocumentChanges) : Hard ViewDocumentChanges :=
  if query.limitType ≠ .none then
    dropOut query (changes.documentSet.size - query.limitSize) changes
  else .ok changes

end ViewDocumentChanges

namespace View

def shouldWaitForSyncedDocument (newDoc oldDoc : Document) : Bool :=
  oldDoc.hasLocalMutations && newDoc.hasCommittedMutations && !newDoc.hasLocalMutations

variable (view : View)

def newDocument (key : DocumentKey) (maybeNewDoc : MaybeDocument) : Hard (Option Document) :=
  match maybeNewDoc.asDocument with
  | none => .ok none
  | some newDoc => do
    hardAssert (key == newDoc.key) "Mismatching key in document changes"
    if ← view.query.matchesDocument newDoc then return some newDoc else return none

/-- Whether the document comes after the one at the edge of the limit, in a direction. -/
def isOutside (newDoc : Document) (edge : Option Document) (outside : Ordering) : Hard Bool :=
  match edge with
  | none => .ok false
  | some edge => do return (← view.documentSet.comparator newDoc edge) == outside

def computeChange (oldDocumentSet : DocumentSet)
    (lastDocInLimit firstDocInLimit : Option Document) (changes : ViewDocumentChanges)
    (change : DocumentKey × MaybeDocument) : Hard ViewDocumentChanges := do
  let key := change.1
  let oldDoc := oldDocumentSet.getDocument key
  let newDoc ← view.newDocument key change.2
  match oldDoc, newDoc with
  | some oldDoc, some newDoc =>
    if oldDoc.data.equals newDoc.data then
      let oldDocHadPendingMutations := decide (key ∈ view.mutatedKeys)
      -- Committed mutations count only for documents that were mutated during the lifetime of the
      -- view.
      let newDocHasPendingMutations := newDoc.hasLocalMutations ||
        (decide (key ∈ view.mutatedKeys) && newDoc.hasCommittedMutations)
      if oldDocHadPendingMutations ≠ newDocHasPendingMutations then
        let changes ← changes.addChange newDoc .metadata
        changes.applyDocument key newDoc
      else return changes
    else if shouldWaitForSyncedDocument newDoc oldDoc then return changes
    else
      let changes ← changes.addChange newDoc .modified
      let outsideLimit ← view.isOutside newDoc lastDocInLimit .gt
      let outsideLimitToLast ← view.isOutside newDoc firstDocInLimit .lt
      let needsRefill := changes.needsRefill || outsideLimit || outsideLimitToLast
      { changes with needsRefill }.applyDocument key newDoc
  | none, some newDoc =>
    let changes ← changes.addChange newDoc .added
    changes.applyDocument key newDoc
  | some oldDoc, none =>
    let changes ← changes.addChange oldDoc .removed
    let needsRefill := changes.needsRefill || lastDocInLimit.isSome || firstDocInLimit.isSome
    { changes with needsRefill }.applyDocument key none
  | none, none => return changes

/-- What the loop of `ComputeDocumentChanges` starts with. -/
def startChanges : Option ViewDocumentChanges → ViewDocumentChanges
  | some previousChanges => { previousChanges with needsRefill := false }
  | none => ⟨view.documentSet, .empty, view.mutatedKeys, false⟩

def lastDocInLimit (query : Query) (oldDocumentSet : DocumentSet) : Option Document :=
  if query.hasLimitToFirst && oldDocumentSet.size == query.limitSize then
    oldDocumentSet.getLastDocument
  else none

def firstDocInLimit (query : Query) (oldDocumentSet : DocumentSet) : Option Document :=
  if query.hasLimitToLast && oldDocumentSet.size == query.limitSize then
    oldDocumentSet.getFirstDocument
  else none

def computeDocumentChanges (docChanges : OrdMap DocumentKey MaybeDocument)
    (previousChanges : Option ViewDocumentChanges) : Hard ViewDocumentChanges := do
  let start := view.startChanges previousChanges
  let oldDocumentSet := start.documentSet
  let changes ← docChanges.entries.foldlM
    (view.computeChange oldDocumentSet (lastDocInLimit view.query oldDocumentSet)
      (firstDocInLimit view.query oldDocumentSet)) start
  let changes ← changes.meetLimit view.query
  hardAssert (!changes.needsRefill || previousChanges.isNone)
    "View was refilled using docs that themselves needed refilling."
  return changes

/-- The changes of a view in `EmitNewSnapshotsAndNotifyLocalStore`, with what a query of the local
store gives if it has to be asked. -/
def updateDocuments (docChanges : OrdMap DocumentKey MaybeDocument)
    (queryResult : OrdMap DocumentKey MaybeDocument) : Hard ViewDocumentChanges := do
  let viewDocChanges ← view.computeDocumentChanges docChanges none
  if viewDocChanges.needsRefill then view.computeDocumentChanges queryResult viewDocChanges
  else return viewDocChanges

/-! ## Applying changes -/

def changeTypePosition : ChangeType → Nat
  | .removed => 0
  | .added => 1
  | .modified | .metadata => 2

/-- The order in which `ApplyChanges` sorts changes. -/
def changeLessThan (lhs rhs : DocumentViewChange) : Hard Bool :=
  let pos1 := changeTypePosition lhs.type
  let pos2 := changeTypePosition rhs.type
  if pos1 ≠ pos2 then .ok (pos1 < pos2)
  else do return (← view.documentSet.comparator lhs.document rhs.document) == .lt

def applyTargetChange : Option TargetChange → Hard View
  | none => .ok view
  | some targetChange => do
    let syncedDocuments := view.syncedDocuments ∪ targetChange.addedDocuments
    hardAssert (targetChange.modifiedDocuments ⊆ syncedDocuments)
      "Modified document not found in view."
    return {
      view with
      syncedDocuments := syncedDocuments \ targetChange.removedDocuments
      current := targetChange.current }

def shouldBeInLimbo (key : DocumentKey) : Bool :=
  if key ∈ view.syncedDocuments then false
  else
    match view.documentSet.getDocument key with
    | none => false
    | some doc => !doc.hasLocalMutations

def updateLimboDocuments : View × List LimboDocumentChange :=
  if !view.current then (view, [])
  else
    let limboDocuments :=
      ((view.documentSet.sortedSet.map (·.key)).filter view.shouldBeInLimbo).toFinset
    let removed := (view.limboDocuments \ limboDocuments).sort.map .removed
    let added := (limboDocuments \ view.limboDocuments).sort.map .added
    ({ view with limboDocuments }, removed ++ added)

def newSyncState : SyncState :=
  if view.limboDocuments = ∅ ∧ view.current then .synced else .local_

/-- The snapshot that `ApplyChanges` makes of sorted changes, unless nothing has changed. -/
def makeSnapshot (docChanges : ViewDocumentChanges) (oldDocuments : DocumentSet)
    (changes : List DocumentViewChange) : Option ViewSnapshot :=
  let syncStateChanged : Bool := view.newSyncState ≠ view.syncState
  if changes.isEmpty && !syncStateChanged then none
  else some {
    query := view.query
    documents := docChanges.documentSet
    oldDocuments
    documentChanges := changes
    mutatedKeys := docChanges.mutatedKeys
    fromCache := view.newSyncState = .local_
    syncStateChanged
    excludesMetadataChanges := false }

def applyChanges (docChanges : ViewDocumentChanges)
    (targetChange : Option TargetChange) : Hard (View × ViewChange) := do
  hardAssert (!docChanges.needsRefill) "Cannot apply changes that need a refill"
  let oldDocuments := view.documentSet
  let view := {
    view with
    documentSet := docChanges.documentSet
    mutatedKeys := docChanges.mutatedKeys }
  let changes ← sortM view.changeLessThan docChanges.changeSet.getChanges
  let view ← view.applyTargetChange targetChange
  let (view, limboChanges) := view.updateLimboDocuments
  let snapshot := view.makeSnapshot docChanges oldDocuments changes
  return ({ view with syncState := view.newSyncState }, ⟨snapshot, limboChanges⟩)

def applyOnlineStateChange (onlineState : OnlineState) : Hard (View × ViewChange) :=
  if view.current ∧ onlineState = .offline then
    let view := { view with current := false }
    view.applyChanges ⟨view.documentSet, .empty, view.mutatedKeys, false⟩ none
  else .ok (view, ⟨none, []⟩)

end View

end Firebase.Firestore.Core
