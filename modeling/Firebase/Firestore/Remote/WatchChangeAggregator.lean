import Firebase.Firestore.Core.DocumentViewChange
import Firebase.Firestore.Core.Target

/-!
# The watch change aggregator

`WatchChangeAggregator` (`remote_event.cc`) collects what the watch stream says about
targets and documents until the next global snapshot, and then makes a `RemoteEvent`
of it.

What the aggregator wants to know about the targets of the client, it asks its
`TargetMetadataProvider`: the keys that are in a target as of the last snapshot, and
whether the client still listens to it.  The hash maps of the source are ordered maps
here.
-/

namespace Firebase.Firestore.Remote

open Lib Util Model Firestore.Core

/-! ## What the stream says -/

/-- `util::Status` of an error. -/
structure Error where
  code : Int
  message : String
deriving DecidableEq

inductive WatchTargetChangeState where
  | noChange | added | removed | current | reset
deriving DecidableEq

structure DocumentWatchChange where
  updatedTargetIds : List TargetId
  removedTargetIds : List TargetId
  documentKey : DocumentKey
  newDocument : Option MaybeDocument

structure ExistenceFilterWatchChange where
  count : Int
  targetId : TargetId

/-- `WatchTargetChange`.  A cause is there if the status is not OK. -/
structure WatchTargetChange where
  state : WatchTargetChangeState
  targetIds : List TargetId
  resumeToken : Bytes
  cause : Option Error

inductive WatchChange where
  | document (change : DocumentWatchChange)
  | existenceFilter (change : ExistenceFilterWatchChange)
  | target (change : WatchTargetChange)

/-! ## The state of a target -/

structure TargetChange where
  resumeToken : Bytes
  current : Bool
  addedDocuments : DocumentKeySet
  modifiedDocuments : DocumentKeySet
  removedDocuments : DocumentKeySet

/-- The count of responses, which the source keeps in 32 bits, is an integer here. -/
structure TargetState where
  outstandingResponses : Int := 0
  documentChanges : OrdMap DocumentKey ChangeType := .empty
  resumeToken : Bytes := []
  current : Bool := false
  hasPendingChanges : Bool := true

namespace TargetState

variable (state : TargetState)

def isPending : Bool := state.outstandingResponses ≠ 0

def updateResumeToken (resumeToken : Bytes) : TargetState :=
  if resumeToken.isEmpty then state
  else { state with hasPendingChanges := true, resumeToken }

def collectChange (change : TargetChange) (entry : DocumentKey × ChangeType) : Hard TargetChange :=
  match entry.2 with
  | .added => .ok { change with addedDocuments := insert entry.1 change.addedDocuments }
  | .modified => .ok { change with modifiedDocuments := insert entry.1 change.modifiedDocuments }
  | .removed => .ok { change with removedDocuments := insert entry.1 change.removedDocuments }
  | .metadata => .error ⟨"Encountered invalid change type"⟩

def toTargetChange : Hard TargetChange :=
  state.documentChanges.entries.foldlM collectChange
    ⟨state.resumeToken, state.current, ∅, ∅, ∅⟩

def clearPendingChanges : TargetState :=
  { state with hasPendingChanges := false, documentChanges := .empty }

def recordPendingTargetRequest : TargetState :=
  { state with outstandingResponses := state.outstandingResponses + 1 }

def recordTargetResponse : TargetState :=
  { state with outstandingResponses := state.outstandingResponses - 1 }

def markCurrent : TargetState :=
  { state with hasPendingChanges := true, current := true }

def addDocumentChange (key : DocumentKey) (type : ChangeType) : TargetState :=
  { state with hasPendingChanges := true, documentChanges := state.documentChanges.insert key type }

def removeDocumentChange (key : DocumentKey) : TargetState :=
  { state with hasPendingChanges := true, documentChanges := state.documentChanges.erase key }

end TargetState

/-! ## The aggregator -/

structure TargetMetadataProvider where
  getRemoteKeysForTarget : TargetId → DocumentKeySet
  getTargetDataForTarget : TargetId → Option TargetData

structure RemoteEvent where
  snapshotVersion : SnapshotVersion
  targetChanges : OrdMap TargetId TargetChange
  targetMismatches : Finset TargetId
  documentUpdates : OrdMap DocumentKey MaybeDocument
  limboDocumentChanges : DocumentKeySet

structure WatchChangeAggregator where
  targetStates : OrdMap TargetId TargetState := .empty
  pendingDocumentUpdates : OrdMap DocumentKey MaybeDocument := .empty
  pendingDocumentTargetMappings : OrdMap DocumentKey (Finset TargetId) := .empty
  pendingTargetResets : Finset TargetId := ∅

namespace WatchChangeAggregator

variable (provider : TargetMetadataProvider)

section

variable (agg : WatchChangeAggregator)

section

variable (targetId : TargetId)

/-- The state that `EnsureTargetState` refers to: that of the target, or else a new one. -/
def targetState : TargetState :=
  (agg.targetStates.get? targetId).getD {}

/-- Changes the state that `EnsureTargetState` refers to. -/
def modifyTargetState (f : TargetState → TargetState) : WatchChangeAggregator :=
  { agg with targetStates := agg.targetStates.insert targetId (f (agg.targetState targetId)) }

def ensureTargetState : WatchChangeAggregator :=
  agg.modifyTargetState targetId id

def removeTarget : WatchChangeAggregator :=
  { agg with targetStates := agg.targetStates.erase targetId }

def recordPendingTargetRequest (agg : WatchChangeAggregator) (targetId : TargetId) :
    WatchChangeAggregator :=
  agg.modifyTargetState targetId TargetState.recordPendingTargetRequest

def targetDataForActiveTarget : Option TargetData :=
  match agg.targetStates.get? targetId with
  | some state => if state.isPending then none else provider.getTargetDataForTarget targetId
  | none => provider.getTargetDataForTarget targetId

def isActiveTarget : Bool :=
  (agg.targetDataForActiveTarget provider targetId).isSome

def targetContainsDocument (key : DocumentKey) : Bool :=
  key ∈ provider.getRemoteKeysForTarget targetId

def mapDocument (key : DocumentKey) (targetId : TargetId) : WatchChangeAggregator :=
  let targets := (agg.pendingDocumentTargetMappings.get? key).getD ∅
  { agg with pendingDocumentTargetMappings :=
      agg.pendingDocumentTargetMappings.insert key (insert targetId targets) }

def addDocumentToTarget (document : Document) : WatchChangeAggregator :=
  if agg.isActiveTarget provider targetId then
    let changeType := if targetContainsDocument provider targetId document.key then
      ChangeType.modified else ChangeType.added
    let agg := agg.modifyTargetState targetId (·.addDocumentChange document.key changeType)
    mapDocument { agg with pendingDocumentUpdates :=
      agg.pendingDocumentUpdates.insert document.key (.document document) } document.key targetId
  else agg

def removeDocumentFromTarget
    (key : DocumentKey) (updatedDocument : Option MaybeDocument) : WatchChangeAggregator :=
  if agg.isActiveTarget provider targetId then
    let agg := agg.modifyTargetState targetId fun state =>
      if targetContainsDocument provider targetId key then state.addDocumentChange key .removed
      -- The document may have entered and left the target since the last snapshot.
      else state.removeDocumentChange key
    let agg := agg.mapDocument key targetId
    match updatedDocument with
    | some document =>
      { agg with pendingDocumentUpdates := agg.pendingDocumentUpdates.insert key document }
    | none => agg
  else agg

end

/-- What `HandleDocumentChange` does for an updated target. -/
def updateTarget (change : DocumentWatchChange) (agg : WatchChangeAggregator)
    (targetId : TargetId) : WatchChangeAggregator :=
  match change.newDocument with
  | some (.document newDoc) => agg.addDocumentToTarget provider targetId newDoc
  | some (.noDocument _ _ _) =>
    agg.removeDocumentFromTarget provider targetId change.documentKey change.newDocument
  | some (.unknownDocument _ _) | none => agg

def handleDocumentChange (change : DocumentWatchChange) : WatchChangeAggregator :=
  let agg := change.updatedTargetIds.foldl (updateTarget provider change) agg
  change.removedTargetIds.foldl (fun agg targetId =>
    agg.removeDocumentFromTarget provider targetId change.documentKey change.newDocument) agg

def resetTarget (targetId : TargetId) : Hard WatchChangeAggregator := do
  hardAssert ((agg.targetStates.get? targetId).any (!·.isPending))
    "Should only reset active targets"
  let agg := agg.modifyTargetState targetId fun _ => {}
  -- The documents that are in the target are removed from it, unless they are sent again.
  return (provider.getRemoteKeysForTarget targetId).sort.foldl (fun agg key =>
    agg.removeDocumentFromTarget provider targetId key none) agg

section

variable (change : WatchTargetChange)

def getTargetIds : List TargetId :=
  if change.targetIds.isEmpty then
    (agg.targetStates.entries.map Prod.fst).filter (agg.isActiveTarget provider)
  else change.targetIds

/-- What `HandleTargetChange` does for a target. -/
def changeTarget (agg : WatchChangeAggregator) (targetId : TargetId) : Hard WatchChangeAggregator :=
  let agg := agg.ensureTargetState targetId
  match change.state with
  | .noChange =>
    if agg.isActiveTarget provider targetId then
      .ok (agg.modifyTargetState targetId (·.updateResumeToken change.resumeToken))
    else .ok agg
  | .added =>
    .ok (agg.modifyTargetState targetId fun state =>
      let state := state.recordTargetResponse
      -- A target that was removed and added back starts over.
      let state := if state.isPending then state else state.clearPendingChanges
      state.updateResumeToken change.resumeToken)
  | .removed => do
    let agg := agg.modifyTargetState targetId (·.recordTargetResponse)
    let agg := if (agg.targetState targetId).isPending then agg else agg.removeTarget targetId
    hardAssert change.cause.isNone "WatchChangeAggregator does not handle errored targets"
    return agg
  | .current =>
    if agg.isActiveTarget provider targetId then
      .ok (agg.modifyTargetState targetId fun state =>
        state.markCurrent.updateResumeToken change.resumeToken)
    else .ok agg
  | .reset =>
    if agg.isActiveTarget provider targetId then do
      let agg ← agg.resetTarget provider targetId
      return agg.modifyTargetState targetId (·.updateResumeToken change.resumeToken)
    else .ok agg

def handleTargetChange : Hard WatchChangeAggregator :=
  (agg.getTargetIds provider change).foldlM (changeTarget provider change) agg

end

def getCurrentDocumentCountForTarget (targetId : TargetId) : Hard Int := do
  let change ← (agg.targetState targetId).toTargetChange
  return (provider.getRemoteKeysForTarget targetId).card + change.addedDocuments.card -
    change.removedDocuments.card

def handleExistenceFilter (filter : ExistenceFilterWatchChange) : Hard WatchChangeAggregator :=
  match agg.targetDataForActiveTarget provider filter.targetId with
  | none => .ok agg
  | some targetData =>
    match targetData.target.documentKey with
    | some key =>
      if filter.count = 0 then
        -- The document does not exist, and that is what its deletion would say.
        .ok (agg.removeDocumentFromTarget provider filter.targetId key
          (some (.noDocument key .none false)))
      else do
        hardAssert (filter.count = 1) "Single document existence filter with count"
        return agg
    | none => do
      let agg := agg.ensureTargetState filter.targetId
      let currentSize ← agg.getCurrentDocumentCountForTarget provider filter.targetId
      if currentSize ≠ filter.count then do
        let agg ← agg.resetTarget provider filter.targetId
        return { agg with pendingTargetResets := insert filter.targetId agg.pendingTargetResets }
      else return agg

/-- What `OnWatchStreamChange` has the aggregator do about a message. -/
def handle : WatchChange → Hard WatchChangeAggregator
  | .document change => .ok (agg.handleDocumentChange provider change)
  | .existenceFilter filter => agg.handleExistenceFilter provider filter
  | .target change => agg.handleTargetChange provider change

end

/-! ## Remote events -/

/-- The delete that `CreateRemoteEvent` makes up for the target of a document that was not sent,
although the target is current. -/
def synthesizeDelete (snapshotVersion : SnapshotVersion) (agg : WatchChangeAggregator)
    (targetId : TargetId) (targetData : TargetData) : WatchChangeAggregator :=
  match targetData.target.documentKey with
  | some key =>
    if (agg.targetState targetId).current ∧ agg.pendingDocumentUpdates.get? key = none ∧
        !targetContainsDocument provider targetId key then
      agg.removeDocumentFromTarget provider targetId key
        (some (.noDocument key snapshotVersion false))
    else agg
  | none => agg

/-- What `CreateRemoteEvent` does for a target. -/
def raiseTarget (snapshotVersion : SnapshotVersion)
    (raised : WatchChangeAggregator × OrdMap TargetId TargetChange) (targetId : TargetId) :
    Hard (WatchChangeAggregator × OrdMap TargetId TargetChange) :=
  let (agg, targetChanges) := raised
  match agg.targetDataForActiveTarget provider targetId with
  | none => .ok raised
  | some targetData =>
    let agg := synthesizeDelete provider snapshotVersion agg targetId targetData
    if (agg.targetState targetId).hasPendingChanges then do
      let change ← (agg.targetState targetId).toTargetChange
      return (agg.modifyTargetState targetId (·.clearPendingChanges),
        targetChanges.insert targetId change)
    else .ok (agg, targetChanges)

def isOnlyLimboTarget (agg : WatchChangeAggregator) (targets : Finset TargetId) : Bool :=
  decide (∀ targetId ∈ targets,
    (agg.targetDataForActiveTarget provider targetId).all (·.purpose = .limboResolution))

def createRemoteEvent (agg : WatchChangeAggregator) (snapshotVersion : SnapshotVersion) :
    Hard (RemoteEvent × WatchChangeAggregator) := do
  let (agg, targetChanges) ← (agg.targetStates.entries.map Prod.fst).foldlM
    (raiseTarget provider snapshotVersion) (agg, .empty)
  let resolvedLimboDocuments := (agg.pendingDocumentTargetMappings.entries.filter fun entry =>
    agg.isOnlyLimboTarget provider entry.2).map Prod.fst
  return (⟨snapshotVersion, targetChanges, agg.pendingTargetResets, agg.pendingDocumentUpdates,
      resolvedLimboDocuments.toFinset⟩,
    { targetStates := agg.targetStates })

end WatchChangeAggregator

end Firebase.Firestore.Remote
