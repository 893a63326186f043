import Firebase.Firestore.Remote.OutstandingResponses

/-!
# Listens of one target, one after the other

The id of a target stays the same when the client stops to listen and listens again.  What keeps the
listens apart is the count of outstanding responses: as long as a request for the target is under
way, the messages about it are dropped, and the response to the last one clears the changes.

So the document changes that are raised for a target all come from its last listen
(`Own`).  The flag that the target is current is not cleared, so that this does not hold
of it.
-/

namespace Firebase.Firestore.Remote

open Lib Util Model Firestore.Core List WatchChangeAggregator

/-! ## Messages about a target -/

namespace WatchChange

def SaysCurrent (id : TargetId) : WatchChange → Prop
  | .target change => change.state = .current ∧ change.mentions id ≠ 0
  | .document _ | .existenceFilter _ => False

def SaysReset (id : TargetId) : WatchChange → Prop
  | .target change => change.state = .reset ∧ change.mentions id ≠ 0
  | .document _ | .existenceFilter _ => False

end WatchChange

namespace TargetState

variable {state : TargetState} {remoteKeys : DocumentKeySet} {target : Target} {id : TargetId}
  {message : WatchChange}

theorem current_updateResumeToken (state : TargetState) (token : Bytes) :
    (state.updateResumeToken token).current = state.current := by
  unfold updateResumeToken
  split_ifs <;> rfl

theorem documentChanges_updateResumeToken (state : TargetState) (token : Bytes) :
    (state.updateResumeToken token).documentChanges = state.documentChanges := by
  unfold updateResumeToken
  split_ifs <;> rfl

theorem current_removeDocument (remoteKeys : DocumentKeySet) (key : DocumentKey)
    (state : TargetState) : (state.removeDocument remoteKeys key).current = state.current := by
  unfold removeDocument
  split_ifs <;> rfl

theorem current_update (remoteKeys : DocumentKeySet) (change : DocumentWatchChange)
    (state : TargetState) : (state.update remoteKeys change).current = state.current := by
  unfold update
  split
  · rfl
  · exact current_removeDocument remoteKeys _ state
  · rfl
  · rfl

theorem current_afterReset (remoteKeys : DocumentKeySet) :
    (afterReset remoteKeys).current = false := by
  refine List.foldlRecOn (motive := fun state : TargetState => state.current = false) _ _ rfl
    fun state hstate key _ => ?_
  rw [current_removeDocument, hstate]

theorem current_hearFilter {filter : ExistenceFilterWatchChange}
    (h : (state.hearFilter remoteKeys target filter).current) : state.current := by
  unfold hearFilter at h
  cases hkey : target.documentKey with
  | some key =>
    rw [hkey] at h
    dsimp only at h
    split_ifs at h
    · rwa [current_removeDocument] at h
    · exact h
  | none =>
    rw [hkey] at h
    dsimp only at h
    split_ifs at h
    · exact h
    · rw [current_afterReset] at h
      cases h

/-- A target is current because it was and was not reset, or because the server says so. -/
theorem current_hear (h : (state.hear remoteKeys target id message).current) :
    message.SaysCurrent id ∨ state.current ∧ ¬message.SaysReset id := by
  cases message with
  | document change =>
    simp only [hear, hearDocument] at h
    rw [iterate_keeps current (current_removeDocument _ _),
      iterate_keeps current (current_update _ _)] at h
    exact .inr ⟨h, fun hreset => hreset⟩
  | existenceFilter filter =>
    simp only [hear] at h
    split_ifs at h
    · exact .inr ⟨current_hearFilter h, fun hreset => hreset⟩
    · exact .inr ⟨h, fun hreset => hreset⟩
  | target change =>
    simp only [hear] at h
    rcases hmentions : change.mentions id with - | n
    · rw [hmentions] at h
      exact .inr ⟨h, fun hreset => hreset.2 hmentions⟩
    · rw [hmentions, Function.iterate_succ_apply'] at h
      have hne : change.mentions id ≠ 0 := by rw [hmentions]; exact n.succ_ne_zero
      cases hstate : change.state with
      | current => exact .inl ⟨hstate, hne⟩
      | reset =>
        simp only [hearTargetChange, hstate, current_updateResumeToken, current_afterReset] at h
        cases h
      | noChange | added | removed =>
        refine .inr ⟨?_, fun hreset => by cases hstate.symm.trans hreset.1⟩
        have hsame : ∀ state : TargetState,
            (state.hearTargetChange remoteKeys change).current = state.current := by
          intro state
          simp only [hearTargetChange, hstate, current_updateResumeToken]
        rwa [hsame, iterate_keeps current hsame] at h

end TargetState

variable {provider : TargetMetadataProvider}

namespace WatchChangeAggregator

/-- A target that the aggregator has no state for does not hear of changes to all targets. -/
theorem targetState_handle_of_unknown
    {agg agg' : WatchChangeAggregator} {id : TargetId} {message : WatchChange}
    (hok : agg.handle provider message = .ok agg')
    (hunknown : agg.targetStates.get? id = none) (hnames : ¬message.NamesTargets) :
    agg'.targetState id = agg.targetState id := by
  cases message with
  | document | existenceFilter => exact absurd trivial hnames
  | target change =>
    refine targetState_foldlM_changeTarget_of_not_mem hok ?_
    rw [getTargetIds, if_pos (isEmpty_iff.mpr (not_not.mp hnames))]
    intro hmem
    have hknown := OrdMap.mem_keys.mp (mem_filter.mp hmem).1
    rw [hunknown] at hknown
    cases hknown

end WatchChangeAggregator

/-! ## What a message does to a target -/

def TargetState.hearReceived (id : TargetId) (state : TargetState) (r : Received) :
    TargetState :=
  match r.metadata.getTargetDataForTarget id with
  | some data =>
    state.hear (r.metadata.getRemoteKeysForTarget id) data.target id r.message
  | none => state

variable {requests : List WatchRequest} {store : RemoteStore}

namespace WatchSession

variable {s s' : WatchSession} {e : WatchEvent} {event : Option RemoteEvent} {id : TargetId}
  {response : Response} {responses : List Response} {remoteKeys : TargetId → DocumentKeySet}
  {agg : WatchChangeAggregator}

/-- The client listens to the target and expects no response for it. -/
def IsActive (s : WatchSession) (id : TargetId) : Prop :=
  (s.store.listenTargets.get? id).isSome ∧ s.outstandingResponses id = 0

theorem isActive_iff (remoteKeys : TargetId → DocumentKeySet) : s.IsActive id ↔
    s.store.watchChangeAggregator.isActiveTarget (s.store.metadata remoteKeys) id := by
  rw [isActiveTarget_iff, WatchChangeAggregator.Active, TargetState.isPending,
    decide_eq_false_iff_not, not_not, and_comm]
  rfl

/-- When the server sent the message, it had answered the last watch request for the target. -/
def OfLastListen (requests : List WatchRequest) (id : TargetId) (r : Received) : Prop :=
  ∀ request ∈ requests.drop r.served, request.isWatch → request.targetId ≠ id

/-- Requests for other targets do not matter. -/
theorem OfLastListen.append {requests new : List WatchRequest} {r : Received}
    (h : OfLastListen requests id r) (hnew : ∀ request ∈ new, request.targetId ≠ id) :
    OfLastListen (requests ++ new) id r := by
  intro request hmem hwatch
  rw [drop_append, mem_append] at hmem
  rcases hmem with hmem | hmem
  · exact h request hmem hwatch
  · exact hnew request (mem_of_mem_drop hmem)

/-- No request for an active target is under way. -/
theorem CountsUnanswered.not_mem_of_isActive (h : s.CountsUnanswered)
    (hactive : s.IsActive id) {request : WatchRequest}
    (hmem : request ∈ s.store.watchRequests.drop s.acked) : request.targetId ≠ id := by
  have hzero := h id
  rw [hactive.2, eq_comm, Nat.cast_eq_zero, countP_eq_zero] at hzero
  simpa using hzero request hmem

/-- The next message is no response about an active target, and it is sent on behalf of the last
listen. -/
theorem CountsUnanswered.next_of_isActive (h : s.CountsUnanswered) (horder : s.InOrder)
    (hactive : s.IsActive id) (hnext : s.responses = response :: responses)
    (metadata : TargetMetadataProvider) : response.message.Steady id ∧
      OfLastListen s.store.watchRequests id
        ⟨response.message, response.served, metadata⟩ := by
  obtain ⟨hserved, hrequest⟩ := horder.next_response hnext
  constructor
  · by_cases hresponse : response.message.isResponse
    · obtain ⟨request, hget, hanswers⟩ := hrequest hresponse
      have hne : request.targetId ≠ id := by
        refine h.not_mem_of_isActive hactive ?_
        obtain ⟨hlt, hget⟩ := List.getElem?_eq_some_iff.mp hget
        rw [drop_eq_getElem_cons hlt, hget]
        exact mem_cons_self
      cases hmessage : response.message with
      | document | existenceFilter => trivial
      | target change =>
        rintro hstate
        rw [hmessage, WatchChange.answeredTargets, if_pos (by simpa using hstate)] at hanswers
        rw [hanswers]
        exact ⟨cons_ne_nil _ _, fun hmem => hne (mem_singleton.mp hmem).symm⟩
    · exact response.message.steady_of_not_isResponse (Bool.eq_false_iff.mpr hresponse) _
  · intro request hmem _
    refine h.not_mem_of_isActive hactive ?_
    rw [show response.served = _ from hserved, ← drop_drop] at hmem
    exact mem_of_mem_drop hmem

/-- What a message does to a target, if it is handled by the aggregator. -/
inductive Handled (s : WatchSession) (r : Received) (agg : WatchChangeAggregator)
    (id : TargetId) : Prop
  /-- The target is active, and hears the message. -/
  | heard (active : s.IsActive id) (own : OfLastListen s.store.watchRequests id r)
      (listened : (r.metadata.getTargetDataForTarget id).isSome)
      (state : agg.targetState id = (s.store.targetState id).hearReceived id r)
  /-- The target is active, but the aggregator has no state for it. -/
  | missed (active : s.IsActive id) (state : agg.targetState id = {})
  /-- The message is the last response for the target. -/
  | started (unanswered : s.sentFor id = s.answeredFor id + 1)
      (cleared : (agg.targetState id).documentChanges = .empty)
      (current : (agg.targetState id).current → (s.store.targetState id).current ∧
        r.message.isAdded ∧ r.message.answeredTargets = [id])
  /-- The target is not active afterwards. -/
  | inactive (listened : (s.store.listenTargets.get? id).isSome →
      (agg.targetState id).outstandingResponses ≠ 0)

theorem handled_of_handle (hcounts : s.CountsUnanswered) (horder : s.InOrder)
    (hnext : s.responses = response :: responses)
    (hok : s.store.watchChangeAggregator.handle (s.store.metadata remoteKeys) response.message =
      .ok agg) (id : TargetId) :
    s.Handled ⟨response.message, response.served, s.store.metadata remoteKeys⟩ agg id := by
  rcases hlisten : s.store.listenTargets.get? id with - | data
  · exact .inactive fun hsome => by rw [hlisten] at hsome; cases hsome
  by_cases hactive : s.IsActive id
  · obtain ⟨hsteady, hown⟩ :=
      hcounts.next_of_isActive horder hactive hnext (s.store.metadata remoteKeys)
    by_cases hknown : (s.store.watchChangeAggregator.targetStates.get? id).isSome ∨
        response.message.NamesTargets
    · refine .heard hactive hown hactive.1 ?_
      rw [targetState_handle_of_active hok hsteady
        ((isActive_iff remoteKeys).mp hactive) hlisten hknown]
      simp only [TargetState.hearReceived, RemoteStore.metadata, hlisten]
      rfl
    · rw [not_or, Option.not_isSome_iff_eq_none] at hknown
      refine .missed hactive ?_
      rw [targetState_handle_of_unknown hok hknown.1 hknown.2,
        targetState, hknown.1]
      rfl
  have hpending : s.outstandingResponses id ≠ 0 := fun hzero =>
    hactive ⟨by rw [hlisten]; rfl, hzero⟩
  by_cases hafter : (agg.targetState id).outstandingResponses = 0
  case neg => exact .inactive fun _ => hafter
  -- The count has become zero, so that the message was a response for the target.
  have hresponse : response.message.isResponse := by
    by_contra hresponse
    refine hpending (Eq.trans ?_ hafter)
    exact (outstandingResponses_handle_of_steady hok
      (response.message.steady_of_not_isResponse (Bool.eq_false_iff.mpr hresponse) id)).symm
  obtain ⟨request, -, hanswers⟩ := (horder.next_response hnext).2 hresponse
  have hcount := outstandingResponses_handle hok
    (fun _ => by rw [hanswers]; rfl) id
  rw [hafter, hanswers, count_singleton] at hcount
  have hid : request.targetId = id := by
    by_contra hne
    rw [if_neg (by simpa using hne), Nat.cast_zero, sub_zero] at hcount
    exact hpending hcount.symm
  have hone : s.outstandingResponses id = 1 := by
    rw [hid, if_pos (beq_self_eq_true _)] at hcount
    exact (sub_eq_zero.mp hcount.symm)
  have hunanswered : s.sentFor id = s.answeredFor id + 1 := by
    rw [horder.sentFor_eq, Nat.add_left_cancel_iff, ← Nat.cast_inj (R := Int), ← hcounts, hone]
    rfl
  cases hmessage : response.message with
  | document | existenceFilter =>
    rw [hmessage] at hresponse
    cases hresponse
  | target change =>
    have hstate : change.state = .added ∨ change.state = .removed := by
      simpa [hmessage, WatchChange.isResponse] using hresponse
    have hids : change.targetIds = [id] := by
      rw [← hid, ← hanswers, hmessage, WatchChange.answeredTargets, if_pos (by simpa using hstate)]
    have hchange := changeTarget_of_handle (hmessage ▸ hok) hids
    have hidle : ((s.store.targetState id).recordTargetResponse).isPending = false := by
      rw [TargetState.isPending, decide_eq_false_iff_not, not_not]
      show s.outstandingResponses id - 1 = 0
      rw [hone, sub_self]
    have hafter := targetState_changeTarget hchange id
    rw [if_pos rfl, TargetState.afterChange, ← RemoteStore.targetState] at hafter
    rcases hstate with hadded | hremoved
    · rw [hadded] at hafter
      dsimp only at hafter
      rw [hidle] at hafter
      refine .started hunanswered ?_ fun hcurrent => ⟨?_, ?_, ?_⟩
      · rw [hafter, TargetState.documentChanges_updateResumeToken]
        rfl
      · rwa [hafter, TargetState.current_updateResumeToken] at hcurrent
      · simp [WatchChange.isAdded, hadded]
      · rw [← hmessage, hanswers, hid]
    · rw [hremoved] at hafter
      rw [hidle] at hafter
      refine .started hunanswered (by rw [hafter]; rfl) fun hcurrent => ?_
      rw [hafter] at hcurrent
      cases hcurrent

/-- Requests make their targets pending, and do not matter to the others. -/
theorem isActive_of_sends
    (hsends : s.store.Sends store requests) (hcount : 0 ≤ s.outstandingResponses id)
    (hactive : IsActive { s with store } id) :
    s.IsActive id ∧ store.targetState id = s.store.targetState id ∧
      ∀ request ∈ requests, request.targetId ≠ id := by
  obtain ⟨hlisten, hzero⟩ := hactive
  have hstate := hsends.state id
  have hafter : s.outstandingResponses id +
      (requests.countP (·.targetId = id) : Int) = 0 := by
    have hcounts := congrArg TargetState.outstandingResponses hstate
    exact hcounts.symm.trans hzero
  have hnone : requests.countP (·.targetId = id) = 0 := by omega
  have hother : ∀ request ∈ requests, request.targetId ≠ id := by
    simpa using hnone
  rw [hnone, Nat.cast_zero, add_zero] at hstate hafter
  exact ⟨⟨by rwa [← hsends.listens hother], hafter⟩, hstate, hother⟩

/-! ## Changes of the last listen -/

/-- The document changes of an active target are what the messages of its last listen make. -/
def Own (s : WatchSession) (id : TargetId) : Prop :=
  s.IsActive id → ∃ (base : TargetState) (log : List Received),
    base.documentChanges = .empty ∧ log.Sublist s.received ∧
    (∀ r ∈ log, OfLastListen s.store.watchRequests id r) ∧
    s.store.targetState id = log.foldl (TargetState.hearReceived id) base

theorem Own.of_empty (h : (s.store.targetState id).documentChanges = .empty) : s.Own id := by
  intro _
  exact ⟨_, [], h, nil_sublist _, nofun, rfl⟩

theorem Own.sends (h : s.Own id) (hcount : 0 ≤ s.outstandingResponses id)
    (hsends : s.store.Sends store requests) : Own { s with store } id := by
  intro hactive
  obtain ⟨hbefore, hstate, hother⟩ := isActive_of_sends hsends hcount hactive
  obtain ⟨base, log, hbase, hlog, hown, hfold⟩ := h hbefore
  refine ⟨base, log, hbase, hlog, fun r hmem => ?_, hstate.trans hfold⟩
  rw [hsends.written]
  exact (hown r hmem).append hother

/-- What the aggregator makes of a message about an active target is a change of its last listen. -/
theorem Own.handled (h : s.Own id) {r : Received} (hhandled : s.Handled r agg id) : Own { s with
      store := { s.store with watchChangeAggregator := agg }
      received := s.received ++ [r] } id := by
  intro hactive
  rcases hhandled with ⟨hbefore, hlast, -, hstate⟩ | ⟨-, hstate⟩ | ⟨-, hcleared, -⟩ | hinactive
  · obtain ⟨base, log, hbase, hlog, hown, hfold⟩ := h hbefore
    refine ⟨base, log ++ [r], hbase, hlog.append (List.Sublist.refl _), ?_, ?_⟩
    · rw [forall_mem_append, forall_mem_singleton]
      exact ⟨hown, hlast⟩
    · rw [foldl_append, ← hfold]
      exact hstate
  · exact Own.of_empty (by rw [RemoteStore.targetState, hstate]) hactive
  · exact Own.of_empty hcleared hactive
  · exact absurd hactive.2 (hinactive hactive.1)

theorem Own.raised (h : s.Own id) {version : SnapshotVersion} {event : RemoteEvent}
    (hok : s.store.watchChangeAggregator.createRemoteEvent provider version =
      .ok (event, agg)) :
    Own { s with store := { s.store with watchChangeAggregator := agg } } id := by
  obtain ⟨hcount, -, hsame | hempty⟩ :=
    targetState_createRemoteEvent hok id
  · intro hactive
    obtain ⟨base, log, hbase, hlog, hown, hfold⟩ := h ⟨hactive.1, hcount.symm.trans hactive.2⟩
    exact ⟨base, log, hbase, hlog, hown, hsame.trans hfold⟩
  · exact .of_empty hempty

def NoErrors (s : WatchSession) : Prop :=
  ∀ response ∈ s.responses, RemoteStore.targetError response.message = none

theorem NoErrors.step (h : s.NoErrors) (hnoReject : ∀ cause version,
    e ≠ .reject cause version) (hok : s.step e = .ok (s', event)) : s'.NoErrors := by
  have happend : ∀ {message : WatchChange} version served,
      RemoteStore.targetError message = none →
      ∀ response ∈ s.responses ++ [⟨message, version, served⟩],
        RemoteStore.targetError response.message = none := by
    intro message version served hmessage
    rw [forall_mem_append, forall_mem_singleton]
    exact ⟨h, hmessage⟩
  cases e with
  | listen data =>
    cases hok
    exact h
  | stopListening id =>
    obtain ⟨store, -, hok⟩ := bind_eq_ok.mp hok
    cases hok
    exact h
  | serve resumeToken version =>
    simp only [WatchSession.step] at hok
    split at hok
    · cases hok
      refine happend _ _ ?_
      cases ‹WatchRequest› <;> rfl
    · cases hok
      exact h
  | reject cause version => exact absurd rfl (hnoReject cause version)
  | send message version =>
    simp only [WatchSession.step] at hok
    split_ifs at hok with hresponse
    · cases hok
      exact h
    · cases hok
      refine happend _ _ ?_
      cases message with
      | document | existenceFilter => rfl
      | target change =>
        rw [RemoteStore.targetError, if_neg]
        rintro ⟨hremoved, -⟩
        exact hresponse (by simp [WatchChange.isResponse, hremoved])
  | receive remoteKeys lastVersion =>
    simp only [WatchSession.step] at hok
    split at hok
    · cases hok
      exact h
    · next response responses hnext =>
      obtain ⟨⟨store, event₁⟩, -, hok⟩ := bind_eq_ok.mp hok
      cases hok
      intro response' hmem
      exact h response' (hnext ▸ mem_cons_of_mem _ hmem)

theorem NoErrors.rejectsCleanly (h : s.NoErrors) (e : WatchEvent) : s.RejectsCleanly e := by
  cases e with
  | listen | stopListening | serve | reject | send => trivial
  | receive remoteKeys lastVersion =>
    intro response hhead change herror
    rw [h response (mem_of_mem_head? hhead)] at herror
    cases herror

/-- The session after a message that the aggregator has handled, before snapshots and requests. -/
def handling (s : WatchSession) (r : Received) (agg : WatchChangeAggregator) : WatchSession :=
  { s with
    store := { s.store with watchChangeAggregator := agg }
    received := s.received ++ [r] }

theorem CountsUnanswered.nonneg (h : s.CountsUnanswered) (id : TargetId) :
    0 ≤ s.outstandingResponses id := by
  rw [h id]
  exact Int.natCast_nonneg _

theorem Own.step (h : ∀ id, s.Own id) (hcounts : s.CountsUnanswered)
    (horder : s.InOrder) (hnoErrors : s.NoErrors) (hok : s.step e = .ok (s', event))
    (id : TargetId) : s'.Own id := by
  cases step_cases hok with
  | @listen data call =>
    rcases s.store.sends_listen data with ⟨heq, -⟩ | hsends
    · rw [heq]
      exact h id
    · exact (h id).sends (hcounts.nonneg id) hsends
  | stop call stopped =>
    exact (h id).sends (hcounts.nonneg id) (RemoteStore.sends_stopListening stopped)
  | served | sent | idle => exact h id
  | @received remoteKeys lastVersion response responses store event call next heard =>
    rcases RemoteStore.onWatchStreamChange_cases heard with ⟨change, herror, -⟩ | ⟨-, hheard⟩
    · rw [hnoErrors response (next ▸ mem_cons_self)] at herror
      cases herror
    · obtain ⟨agg, agg', requests, hhandled, hraised, hsends⟩ := hheard.hears
      have hown := (h id).handled
        (handled_of_handle hcounts horder next hhandled id)
      have hown' : Own { s.handling ⟨response.message, response.served,
          s.store.metadata remoteKeys⟩ agg' with responses } id := by
        cases event with
        | none =>
          rw [hraised]
          exact hown
        | some event =>
          obtain ⟨version, hcreated⟩ := hraised
          exact Own.raised hown hcreated
      refine hown'.sends ?_ hsends
      exact (hcounts.hears horder next (.intro agg agg' [] hhandled hraised (.refl _))).nonneg
        id

/-- What is raised for a target are document changes that the server has sent on behalf of its last
listen. -/
theorem targetChange_of_last_listen {events : List WatchEvent} {answers : List (Option RemoteEvent)}
    (hnoReject : ∀ cause version, .reject cause version ∉ events)
    (hrun : runAll step {} events = .ok (s, answers)) {lastVersion : SnapshotVersion}
    {event : RemoteEvent} (hstep : s.step (.receive remoteKeys lastVersion) = .ok (s', some event))
    {change : TargetChange} (hget : event.targetChanges.get? id = some change) :
    ∃ (base : TargetState) (log : List Received), base.documentChanges = .empty ∧
      log.Sublist s'.received ∧ (∀ r ∈ log, OfLastListen s.store.watchRequests id r) ∧
      let heard := log.foldl (TargetState.hearReceived id) base
      change.addedDocuments ⊆ heard.changedKeys .added ∧
      change.modifiedDocuments ⊆ heard.changedKeys .modified ∧
      change.removedDocuments ⊆ heard.changedKeys .removed := by
  obtain ⟨horder, hcounts, hnoErrors, hown⟩ : s.InOrder ∧ s.CountsUnanswered ∧ s.NoErrors ∧
      ∀ id, s.Own id := by
    refine runAll_invariant (fun s => s.InOrder ∧ s.CountsUnanswered ∧ s.NoErrors ∧
      ∀ id, s.Own id) (p := fun e => ∀ cause version,
        e ≠ .reject cause version) ?_ ?_ ?_ hrun
    · rintro s e s' event ⟨horder, hcounts, hnoErrors, hown⟩ hnoReject hok
      exact ⟨horder.step hok, (hcounts.step_iff horder e).mpr (hnoErrors.rejectsCleanly e) s' _ hok,
        hnoErrors.step hnoReject hok, Own.step hown hcounts horder hnoErrors hok⟩
    · exact ⟨inOrder_empty, fun _ => rfl, nofun, fun _ => .of_empty rfl⟩
    · rintro e hmem cause version rfl
      exact hnoReject cause version hmem
  generalize hevent : some event = event' at hstep
  cases step_cases hstep with
  | listen | stop | served | sent | idle => cases hevent
  | @received remoteKeys lastVersion response responses store event' call next heard =>
    subst hevent
    rcases RemoteStore.onWatchStreamChange_cases heard with ⟨_, -, hnone, -⟩ | ⟨-, hheard⟩
    · cases hnone
    obtain ⟨agg, agg', requests, hhandled, ⟨version, hcreated⟩, hsends⟩ := hheard.hears
    obtain ⟨hactive, -, hsubset⟩ :=
      targetChange_of_createRemoteEvent hcreated hget
    have hafter := (hown id).handled
      (handled_of_handle hcounts horder next hhandled id)
    obtain ⟨base, log, hbase, hlog, hlast, hfold⟩ := hafter ((isActive_iff remoteKeys).mpr hactive)
    refine ⟨base, log, hbase, hlog, hlast, ?_⟩
    rw [← hfold]
    exact hsubset

namespace Relisten

def roomA : DocumentKey := .inCollection [114] [97]
def roomB : DocumentKey := .inCollection [114] [98]
def rooms : TargetData := .create ⟨[[114]], none, [], [], 0, none, none⟩ 2 0 .listen

def enters (key : DocumentKey) : WatchEvent :=
  .send (.document ⟨[2], [], key, some (.document ⟨[], key, .none, .synced⟩)⟩) .none

def receiveNext : WatchEvent := .receive (fun _ => ∅) .none

def version : SnapshotVersion := ⟨⟨3, 0, by decide⟩⟩

/-- The server sends the first document on behalf of the first listen, and the second one on behalf
of the second. -/
def events : List WatchEvent :=
  [.listen rooms, .serve [] .none, receiveNext, .stopListening 2, .listen rooms, enters roomA,
    .serve [] .none, .serve [] .none, enters roomB,
    .send (.target ⟨.noChange, [], [1], none⟩) version,
    receiveNext, receiveNext, receiveNext, receiveNext]

end Relisten

open Relisten

theorem targetChange_of_last_listen_relisten : ∃ s answers s' event change,
    runAll step {} events = .ok (s, answers) ∧
    s.step receiveNext = .ok (s', some event) ∧
    event.targetChanges.get? 2 = some change ∧ change.addedDocuments = {roomB} ∧
    ∃ (base : TargetState) (log : List Received), base.documentChanges = .empty ∧
      log.Sublist s'.received ∧ (∀ r ∈ log, OfLastListen s.store.watchRequests 2 r) ∧
      let heard := log.foldl (TargetState.hearReceived 2) base
      change.addedDocuments ⊆ heard.changedKeys .added ∧
      change.modifiedDocuments ⊆ heard.changedKeys .modified ∧
      change.removedDocuments ⊆ heard.changedKeys .removed := by
  have hnoReject : ∀ cause version,
      WatchEvent.reject cause version ∉ events := by
    simp [events, enters, receiveNext]
  obtain ⟨s, answers, s', event, change, hrun, hstep, hget, hadded⟩ :
      ∃ s answers s' event change, runAll step {} events = .ok (s, answers) ∧
        s.step receiveNext = .ok (s', some event) ∧
        event.targetChanges.get? 2 = some change ∧ change.addedDocuments = {roomB} :=
    ⟨_, _, _, _, _, rfl, rfl, rfl, rfl⟩
  exact ⟨s, answers, s', event, change, hrun, hstep, hget, hadded,
    targetChange_of_last_listen hnoReject hrun hstep hget⟩

end WatchSession

end Firebase.Firestore.Remote
