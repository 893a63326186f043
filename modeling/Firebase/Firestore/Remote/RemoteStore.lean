import Firebase.Firestore.Remote.RemoteEvents

/-!
# The remote store: listening

The side of `RemoteStore` (`remote_store.cc`) that listens to targets, while its watch
stream is open.  What the store writes to the stream is kept in `watchRequests`, from
the opening of the stream on.

The sync engine and the local store only come in by what the store asks them for: the
remote keys of targets and the version of the last snapshot, which are arguments here,
and by the remote events that the store hands them.  Starting and stopping the stream,
and the online state, are left out.
-/

namespace Firebase.Firestore.Remote

open Lib Util Model Firestore.Core OrdMap List

/-- What is written to the watch stream: `WatchQuery` and `UnwatchTargetId`. -/
inductive WatchRequest where
  | watch (targetData : TargetData)
  | unwatch (targetId : TargetId)

def WatchRequest.targetId : WatchRequest → TargetId
  | watch targetData => targetData.targetId
  | unwatch targetId => targetId

def WatchRequest.isWatch : WatchRequest → Bool
  | watch _ => true
  | unwatch _ => false

/-- `RemoteStore`, with an open watch stream. -/
structure RemoteStore where
  listenTargets : OrdMap TargetId TargetData := .empty
  watchChangeAggregator : WatchChangeAggregator := {}
  watchRequests : List WatchRequest := []

variable {change : WatchTargetChange}

namespace RemoteStore

section

variable (store : RemoteStore) (remoteKeys : TargetId → DocumentKeySet)

def metadata : TargetMetadataProvider :=
  ⟨remoteKeys, store.listenTargets.get?⟩

def sendRequest (request : WatchRequest) : RemoteStore :=
  { store with
    watchChangeAggregator :=
      store.watchChangeAggregator.recordPendingTargetRequest request.targetId
    watchRequests := store.watchRequests ++ [request] }

def sendWatchRequest (targetData : TargetData) : RemoteStore :=
  store.sendRequest (.watch targetData)

variable (targetId : TargetId)

def sendUnwatchRequest : RemoteStore :=
  store.sendRequest (.unwatch targetId)

def listen (targetData : TargetData) : RemoteStore :=
  if (store.listenTargets.get? targetData.targetId).isSome then store
  else
    { store with listenTargets := store.listenTargets.insert targetData.targetId targetData }
      |>.sendWatchRequest targetData

def stopListening : Hard RemoteStore := do
  hardAssert (store.listenTargets.get? targetId).isSome
    ("StopListening: target not currently watched: " ++ toString targetId)
  return { store with listenTargets := store.listenTargets.erase targetId }
    |>.sendUnwatchRequest targetId

/-- What `ProcessTargetError` does for a target.  The sync engine is told of the rejected listen. -/
def rejectTarget : RemoteStore :=
  if (store.listenTargets.get? targetId).isSome then
    { store with
      listenTargets := store.listenTargets.erase targetId
      watchChangeAggregator := store.watchChangeAggregator.removeTarget targetId }
  else store

def processTargetError (change : WatchTargetChange) : RemoteStore :=
  change.targetIds.foldl rejectTarget store

/-- Keeps the resume token that an event has for a target, if the target is still watched. -/
def updateResumeToken (snapshotVersion : SnapshotVersion) (store : RemoteStore)
    (entry : TargetId × TargetChange) : RemoteStore :=
  match store.listenTargets.get? entry.1 with
  | some targetData =>
    if entry.2.resumeToken.isEmpty then store
    else
      let targetData := targetData.withResumeToken entry.2.resumeToken snapshotVersion
      { store with listenTargets := store.listenTargets.insert entry.1 targetData }
  | none => store

def relisten : RemoteStore :=
  match store.listenTargets.get? targetId with
  | some targetData =>
    let freshData :=
      TargetData.create targetData.target targetId targetData.sequenceNumber targetData.purpose
    let store := { store with listenTargets := store.listenTargets.insert targetId freshData }
    let store := store.sendUnwatchRequest targetId
    -- The purpose is only for this request, it is not kept.
    store.sendWatchRequest (.create targetData.target targetId targetData.sequenceNumber
      .existenceFilterMismatch)
  | none => store

def relistenMismatches (event : RemoteEvent) : RemoteStore :=
  event.targetMismatches.sort.foldl relisten store

def raiseWatchSnapshot (snapshotVersion : SnapshotVersion) : Hard (RemoteStore × RemoteEvent) := do
  let (event, agg) ← store.watchChangeAggregator.createRemoteEvent (store.metadata remoteKeys)
    snapshotVersion
  let store := { store with watchChangeAggregator := agg }
  let store := event.targetChanges.entries.foldl (updateResumeToken snapshotVersion) store
  return (store.relistenMismatches event, event)

def targetError : WatchChange → Option WatchTargetChange
  | .target change => if change.state = .removed ∧ change.cause.isSome then some change else none
  | .document _ | .existenceFilter _ => none

def onWatchStreamChange (lastRemoteSnapshotVersion : SnapshotVersion) (message : WatchChange)
    (snapshotVersion : SnapshotVersion) : Hard (RemoteStore × Option RemoteEvent) :=
  match targetError message with
  -- An error does not wait for a consistent snapshot.
  | some change => .ok (store.processTargetError change, none)
  | none => do
    let agg ← store.watchChangeAggregator.handle (store.metadata remoteKeys) message
    let store := { store with watchChangeAggregator := agg }
    if snapshotVersion ≠ .none ∧ lastRemoteSnapshotVersion ≤ snapshotVersion then
      let (store, event) ← store.raiseWatchSnapshot remoteKeys snapshotVersion
      return (store, some event)
    else return (store, none)

end

/-! ## What a change of the watch stream does -/

variable {store store' : RemoteStore} {remoteKeys : TargetId → DocumentKeySet}
  {lastVersion snapshotVersion : SnapshotVersion} {message : WatchChange}

theorem targetError_eq_some : targetError message = some change ↔
      message = .target change ∧ change.state = .removed ∧ change.cause.isSome := by
  cases message with
  | document | existenceFilter => exact ⟨nofun, fun h => nomatch h.1⟩
  | target change' =>
    rw [targetError, Option.ite_none_right_eq_some, Option.some.injEq, WatchChange.target.injEq]
    constructor
    · rintro ⟨h, rfl⟩
      exact ⟨rfl, h⟩
    · rintro ⟨rfl, h⟩
      exact ⟨h, rfl⟩

/-- The store after a snapshot, before it listens afresh to the mismatched targets. -/
def withResumeTokens (store : RemoteStore) (snapshotVersion : SnapshotVersion)
    (event : RemoteEvent) (agg : WatchChangeAggregator) : RemoteStore :=
  event.targetChanges.entries.foldl (updateResumeToken snapshotVersion)
    { store with watchChangeAggregator := agg }

/-- What `OnWatchStreamChange` does, other than for an error. -/
inductive Heard (store : RemoteStore) (remoteKeys : TargetId → DocumentKeySet)
    (message : WatchChange) : RemoteStore → Option RemoteEvent → Prop
  | held {agg} (handled : store.watchChangeAggregator.handle (store.metadata remoteKeys) message =
        .ok agg) : Heard store remoteKeys message { store with watchChangeAggregator := agg } none
  | raised {agg agg' : WatchChangeAggregator} {event : RemoteEvent}
      {snapshotVersion : SnapshotVersion}
      (handled : store.watchChangeAggregator.handle (store.metadata remoteKeys) message = .ok agg)
      (created : agg.createRemoteEvent (store.metadata remoteKeys) snapshotVersion =
        .ok (event, agg')) :
      Heard store remoteKeys message
        ((store.withResumeTokens snapshotVersion event agg').relistenMismatches event) (some event)

variable {event : Option RemoteEvent}

theorem onWatchStreamChange_cases
    (hok : store.onWatchStreamChange remoteKeys lastVersion message snapshotVersion =
      .ok (store', event)) : (∃ change, targetError message = some change ∧ event = none ∧
      store' = store.processTargetError change) ∨
    targetError message = none ∧ Heard store remoteKeys message store' event := by
  unfold onWatchStreamChange at hok
  split at hok
  · next change herror =>
    cases hok
    exact .inl ⟨change, herror, rfl, rfl⟩
  · next herror =>
    refine .inr ⟨herror, ?_⟩
    obtain ⟨agg, hagg, hok⟩ := bind_eq_ok.mp hok
    split_ifs at hok
    · obtain ⟨⟨store₁, event₁⟩, hraise, hok⟩ := bind_eq_ok.mp hok
      cases hok
      obtain ⟨⟨event₂, agg'⟩, hcreate, hraise⟩ := bind_eq_ok.mp hraise
      cases hraise
      exact .raised hagg hcreate
    · cases hok
      exact .held hagg

/-! ## Writing requests -/

variable {store'' : RemoteStore} {requests requests' : List WatchRequest} {id : TargetId}

def targetState (store : RemoteStore) (targetId : TargetId) : TargetState :=
  store.watchChangeAggregator.targetState targetId

/-- The store has written requests, and counts a response for each.  It has changed its mind about
no other target. -/
structure Sends (store store' : RemoteStore) (requests : List WatchRequest) : Prop where
  written : store'.watchRequests = store.watchRequests ++ requests
  state (targetId : TargetId) : store'.targetState targetId =
    { store.targetState targetId with
      outstandingResponses := (store.targetState targetId).outstandingResponses +
        requests.countP (·.targetId = targetId) }
  listens {targetId : TargetId} (other : ∀ request ∈ requests, request.targetId ≠ targetId) :
    (store'.listenTargets.get? targetId).isSome = (store.listenTargets.get? targetId).isSome
  updates : store'.watchChangeAggregator.pendingDocumentUpdates =
    store.watchChangeAggregator.pendingDocumentUpdates

theorem Sends.refl (store : RemoteStore) : Sends store store [] :=
  ⟨(append_nil _).symm, fun id => by simp, fun _ => rfl, rfl⟩

theorem Sends.trans (h : Sends store store' requests) (h' : Sends store' store'' requests') :
    Sends store store'' (requests ++ requests') where
  written := by rw [h'.written, h.written, append_assoc]
  state id := by
    rw [h'.state, h.state, countP_append, Nat.cast_add, add_assoc]
  listens other := by
    rw [forall_mem_append] at other
    rw [h'.listens other.2, h.listens other.1]
  updates := h'.updates.trans h.updates

variable {listenTargets : OrdMap TargetId TargetData}

theorem sends_sendRequest (request : WatchRequest)
    (hlistens : ∀ id ≠ request.targetId, (listenTargets.get? id).isSome =
      (store.listenTargets.get? id).isSome) :
    Sends store ({ store with listenTargets }.sendRequest request) [request] where
  written := rfl
  state id := by
    unfold sendRequest targetState WatchChangeAggregator.recordPendingTargetRequest
    by_cases h : id = request.targetId
    · subst h
      simp [TargetState.recordPendingTargetRequest]
    · rw [WatchChangeAggregator.targetState_modifyTargetState_of_ne h]
      simp [Ne.symm h]
  listens other := hlistens _ (Ne.symm (other request mem_cons_self))
  updates := rfl

theorem isSome_get?_insert_of_isSome
    (h : (listenTargets.get? id).isSome) (data : TargetData) (other : TargetId) :
    ((listenTargets.insert id data).get? other).isSome =
      (listenTargets.get? other).isSome :=
  Bool.eq_iff_iff.mpr <| isSome_get?_insert.trans <|
    or_iff_right_of_imp fun hother => hother ▸ h

theorem sends_listen (store : RemoteStore) (data : TargetData) :
    (store.listen data = store ∧ (store.listenTargets.get? data.targetId).isSome) ∨
      Sends store (store.listen data) [.watch data] := by
  unfold listen
  split_ifs with h
  · exact .inl ⟨rfl, h⟩
  · refine .inr (sends_sendRequest (.watch data) fun id hne => ?_)
    rw [get?_insert, if_neg]
    exact hne

theorem sends_stopListening (hok : store.stopListening id = .ok store') :
    Sends store store' [.unwatch id] := by
  obtain ⟨u, -, h⟩ := bind_eq_ok.mp hok
  cases h
  refine sends_sendRequest (.unwatch id) fun other hne => ?_
  rw [get?_erase, if_neg]
  exact hne

theorem sends_relisten (store : RemoteStore) (id : TargetId) :
    ∃ requests, Sends store (store.relisten id) requests := by
  unfold relisten
  cases h : store.listenTargets.get? id with
  | none => exact ⟨[], .refl store⟩
  | some data =>
    refine ⟨_, (sends_sendRequest (.unwatch id) ?_).trans
      (sends_sendRequest (.watch _) fun _ _ => rfl)⟩
    intro other _
    exact isSome_get?_insert_of_isSome (Option.isSome_iff_exists.mpr ⟨_, h⟩) _ _

theorem sends_foldl_relisten (store : RemoteStore) (ids : List TargetId) :
    ∃ requests, Sends store (ids.foldl relisten store) requests := by
  induction ids generalizing store with
  | nil => exact ⟨[], .refl store⟩
  | cons id ids ih =>
    obtain ⟨requests, hfirst⟩ := sends_relisten store id
    obtain ⟨requests', hrest⟩ := ih (store.relisten id)
    exact ⟨_, hfirst.trans hrest⟩

/-! ## Hearing messages -/

theorem isSome_get?_updateResumeToken (snapshotVersion : SnapshotVersion) (store : RemoteStore)
    (entry : TargetId × TargetChange) (id : TargetId) :
    ((store.updateResumeToken snapshotVersion entry).listenTargets.get? id).isSome =
      (store.listenTargets.get? id).isSome := by
  unfold updateResumeToken
  cases h : store.listenTargets.get? entry.1 with
  | none => rfl
  | some data =>
    split_ifs
    · rfl
    · exact isSome_get?_insert_of_isSome (Option.isSome_iff_exists.mpr ⟨_, h⟩) _ _

/-- Resume tokens are of no consequence to the requests and to the aggregator. -/
theorem sends_withResumeTokens (store : RemoteStore) (snapshotVersion : SnapshotVersion)
    (event : RemoteEvent) (agg : WatchChangeAggregator) :
    Sends { store with watchChangeAggregator := agg }
      (store.withResumeTokens snapshotVersion event agg) [] := by
  refine List.foldlRecOn (motive := fun store' => Sends { store with watchChangeAggregator := agg }
    store' []) _ _ (.refl _) fun store' h entry _ => ?_
  have hstore : (store'.updateResumeToken snapshotVersion entry).watchRequests =
        store'.watchRequests ∧
      (store'.updateResumeToken snapshotVersion entry).watchChangeAggregator =
        store'.watchChangeAggregator := by
    unfold updateResumeToken
    split
    · split_ifs <;> exact ⟨rfl, rfl⟩
    · exact ⟨rfl, rfl⟩
  refine ⟨hstore.1.trans h.written, fun id => ?_, fun other => ?_, hstore.2 ▸ h.updates⟩
  · rw [targetState, hstore.2]
    exact h.state id
  · rw [isSome_get?_updateResumeToken, h.listens other]

/-- What a message does that is no error: the aggregator handles it, a snapshot may be raised, and
requests are written for what does not match. -/
inductive Hears (store : RemoteStore) (remoteKeys : TargetId → DocumentKeySet)
    (message : WatchChange) (store' : RemoteStore) (event : Option RemoteEvent) : Prop
  | intro (agg agg' : WatchChangeAggregator) (requests : List WatchRequest)
      (handled : store.watchChangeAggregator.handle (store.metadata remoteKeys) message = .ok agg)
      (raised : match event with
        | none => agg' = agg
        | some event => ∃ snapshotVersion,
          agg.createRemoteEvent (store.metadata remoteKeys) snapshotVersion = .ok (event, agg'))
      (sends : Sends { store with watchChangeAggregator := agg' } store' requests)

theorem Heard.hears (h : Heard store remoteKeys message store' event) :
    Hears store remoteKeys message store' event := by
  cases h with
  | held handled => exact .intro _ _ [] handled rfl (.refl _)
  | raised handled created =>
    obtain ⟨requests, hsends⟩ := sends_foldl_relisten _ _
    exact .intro _ _ _ handled ⟨_, created⟩ ((sends_withResumeTokens _ _ _ _).trans hsends)

/-- An error asks for nothing and leaves the pending updates. -/
theorem processTargetError_keeps (store : RemoteStore) (change : WatchTargetChange) :
    (store.processTargetError change).watchRequests = store.watchRequests ∧
      (store.processTargetError change).watchChangeAggregator.pendingDocumentUpdates =
        store.watchChangeAggregator.pendingDocumentUpdates := by
  refine List.foldlRecOn (motive := fun store' : RemoteStore =>
    store'.watchRequests = store.watchRequests ∧
      store'.watchChangeAggregator.pendingDocumentUpdates =
        store.watchChangeAggregator.pendingDocumentUpdates)
    _ _ ⟨rfl, rfl⟩ fun store' h id _ => ?_
  unfold rejectTarget
  split_ifs <;> exact h

/-- An error does not matter to the targets that it leaves. -/
theorem listens_processTargetError
    (h : ((store.processTargetError change).listenTargets.get? id).isSome) :
    (store.listenTargets.get? id).isSome ∧
      (store.processTargetError change).targetState id = store.targetState id := by
  unfold processTargetError at h ⊢
  generalize change.targetIds = ids at h ⊢
  induction ids generalizing store with
  | nil => exact ⟨h, rfl⟩
  | cons rejected rest ih =>
    obtain ⟨hlisten, hstate⟩ := ih h
    rw [foldl_cons, hstate]
    unfold rejectTarget at hlisten ⊢
    split_ifs at hlisten ⊢
    · obtain ⟨hne, hlisten⟩ := isSome_get?_erase.mp hlisten
      refine ⟨hlisten, ?_⟩
      rw [targetState, WatchChangeAggregator.targetState_removeTarget, if_neg hne]
      rfl
    · exact ⟨hlisten, rfl⟩

/-- Requests are never taken back. -/
theorem prefix_onWatchStreamChange
    (hok : store.onWatchStreamChange remoteKeys lastVersion message snapshotVersion =
      .ok (store', event)) : store.watchRequests <+: store'.watchRequests := by
  rcases onWatchStreamChange_cases hok with ⟨change, -, -, rfl⟩ | ⟨-, hheard⟩
  · rw [(processTargetError_keeps _ _).1]
  · obtain ⟨_, _, requests, -, -, hsends⟩ := hheard.hears
    exact ⟨requests, hsends.written.symm⟩

end RemoteStore

end Firebase.Firestore.Remote
