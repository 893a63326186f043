import Firebase.Firestore.Remote.WatchSession

/-!
# Outstanding responses

The aggregator counts, for each target, the responses that it still expects.  As long
as the count is not zero, it drops what the server sends about the target.

The count is the number of requests without an answer, unless the server rejects a listen
(`ProcessTargetError`).
-/

namespace Firebase.Firestore.Remote

open Lib Util Model Firestore.Core List RemoteStore

/-! ## What a message does to the count -/

variable {change : WatchTargetChange} {id : TargetId}

namespace WatchChangeAggregator

variable {provider : TargetMetadataProvider} {agg agg' : WatchChangeAggregator}
  {message : WatchChange}

theorem outstandingResponses_updateResumeToken (state : TargetState) (token : Bytes) :
    (state.updateResumeToken token).outstandingResponses = state.outstandingResponses := by
  unfold TargetState.updateResumeToken
  split_ifs <;> rfl

theorem outstandingResponses_changeTarget (hok : changeTarget provider change agg id = .ok agg')
    (hstate : change.state = .added ∨ change.state = .removed) :
    (agg'.targetState id).outstandingResponses =
      (agg.targetState id).outstandingResponses - 1 := by
  rw [targetState_changeTarget hok, if_pos rfl, TargetState.afterChange]
  rcases hstate with hadded | hremoved
  · rw [hadded]
    dsimp only
    rw [outstandingResponses_updateResumeToken]
    split_ifs <;> rfl
  · rw [hremoved]
    dsimp only
    split_ifs with hpending
    · rfl
    · rw [TargetState.isPending, decide_eq_true_iff, not_not] at hpending
      exact hpending.symm

/-- Only responses change the count. -/
theorem outstandingResponses_handle_of_steady (hok : agg.handle provider message = .ok agg')
    (hsteady : message.Steady id) : (agg'.targetState id).outstandingResponses =
      (agg.targetState id).outstandingResponses := by
  by_cases hactive : agg.isActiveTarget provider id
  · have hbefore := (isActiveTarget_iff.mp hactive).1
    have hafter := (isPending_handle hok hsteady).trans hbefore
    simp only [TargetState.isPending, decide_eq_false_iff_not, not_not] at hbefore hafter
    rw [hbefore, hafter]
  · rw [targetState_handle_of_inactive hok hsteady hactive]

theorem outstandingResponses_handle (hok : agg.handle provider message = .ok agg')
    (hsingle : message.isResponse → message.answeredTargets.length = 1) (id : TargetId) :
    (agg'.targetState id).outstandingResponses =
      (agg.targetState id).outstandingResponses -
        message.answeredTargets.count id := by
  by_cases hresponse : message.isResponse
  · cases message with
    | document | existenceFilter => cases hresponse
    | target change =>
      have hstate : change.state = .added ∨ change.state = .removed := by
        simpa [WatchChange.isResponse] using hresponse
      have hanswered : (WatchChange.target change).answeredTargets = change.targetIds :=
        if_pos hresponse
      obtain ⟨other, hother⟩ := length_eq_one_iff.mp (hsingle hresponse)
      rw [hother]
      rw [hanswered] at hother
      have hchange := changeTarget_of_handle hok hother
      by_cases h : id = other
      · subst h
        rw [outstandingResponses_changeTarget hchange hstate, count_singleton_self]
        rfl
      · rw [targetState_changeTarget hchange, if_neg h]
        simp [Ne.symm h]
  · rw [Bool.not_eq_true] at hresponse
    rw [outstandingResponses_handle_of_steady hok (message.steady_of_not_isResponse hresponse _),
      message.answeredTargets_of_not_isResponse hresponse]
    simp

end WatchChangeAggregator

/-! ## The count over a session -/

namespace WatchSession

variable {s s' : WatchSession} {e : WatchEvent} {event : Option RemoteEvent}

def outstandingResponses (s : WatchSession) (id : TargetId) : Int :=
  (s.store.targetState id).outstandingResponses

/-- The counts are right, and a target that the client listens to is active when all its requests
are answered. -/
def CountsResponses (s : WatchSession) : Prop :=
  ∀ id, s.outstandingResponses id = s.sentFor id - s.answeredFor id ∧
    s.answeredFor id ≤ s.sentFor id ∧
    ((s.store.listenTargets.get? id).isSome → s.sentFor id = s.answeredFor id →
      ∀ remoteKeys, s.store.watchChangeAggregator.isActiveTarget (s.store.metadata remoteKeys)
        id)

/-- A listen is rejected only while the client listens to the target, and while it expects no other
response for it. -/
def RejectsCleanly (s : WatchSession) : WatchEvent → Prop
  | .receive _ _ => ∀ response ∈ s.responses.head?, ∀ change,
      targetError response.message = some change → ∀ id ∈ change.targetIds,
        (s.store.listenTargets.get? id).isSome ∧
          s.sentFor id = s.answeredFor id + 1
  | _ => True

/-- The count is the number of requests from the first without an answer on. -/
def CountsUnanswered (s : WatchSession) : Prop :=
  ∀ id, s.outstandingResponses id =
    (s.store.watchRequests.drop s.acked).countP (·.targetId = id)

theorem InOrder.countsResponses_iff (h : s.InOrder) : s.CountsResponses ↔ s.CountsUnanswered := by
  refine forall_congr' fun id => ?_
  have hsent := h.sentFor_eq id
  constructor
  · rintro ⟨hcount, -, -⟩
    rw [hcount, hsent]
    push_cast
    ring
  · intro hcount
    refine ⟨?_, ?_, fun hlisten hanswered remoteKeys => ?_⟩
    · rw [hcount, hsent]
      push_cast
      ring
    · rw [hsent]
      exact Nat.le_add_right _ _
    · have hzero : s.outstandingResponses id = 0 := by
        rw [hcount]
        have := hsent.symm.trans hanswered
        rw [Nat.add_eq_left] at this
        rw [this]
        rfl
      rw [WatchChangeAggregator.isActiveTarget_iff]
      refine ⟨?_, hlisten⟩
      rw [TargetState.isPending, decide_eq_false_iff_not, not_not]
      exact hzero

theorem InOrder.acked_le (h : s.InOrder) : s.acked ≤ s.store.watchRequests.length :=
  h.received_eq.2.trans h.served_le

/-- Requests that are written are counted. -/
theorem CountsUnanswered.sends (h : s.CountsUnanswered) (horder : s.InOrder)
    {store : RemoteStore} {requests : List WatchRequest} (hsends : s.store.Sends store requests) :
    CountsUnanswered { s with store } := by
  intro id
  show (store.targetState id).outstandingResponses =
    ((store.watchRequests.drop s.acked).countP _ : Nat)
  rw [hsends.state, hsends.written, drop_append_of_le_length horder.acked_le,
    countP_append]
  exact congrArg (· + _) (h id)

section Receive

variable {response : Response} {responses : List Response} {store : RemoteStore}
  {metadata : TargetMetadataProvider}

def receiving (s : WatchSession) (response : Response) (responses : List Response)
    (store : RemoteStore) (metadata : TargetMetadataProvider) : WatchSession :=
  { s with
    store, responses
    received := s.received ++ [⟨response.message, response.served, metadata⟩] }

@[simp] theorem store_receiving : (s.receiving response responses store metadata).store = store :=
  rfl

theorem acked_receiving : (s.receiving response responses store metadata).acked =
    s.acked + if response.message.isResponse then 1 else 0 := by
  rw [receiving, acked, countP_append, countP_singleton]
  rfl

/-- The next message answers the first request without an answer, if it is a response. -/
theorem InOrder.countP_unanswered (horder : s.InOrder)
    (hnext : s.responses = response :: responses) (id : TargetId) :
    (s.store.watchRequests.drop s.acked).countP (·.targetId = id) =
      response.message.answeredTargets.count id +
        (s.store.watchRequests.drop (s.acked + if response.message.isResponse then 1 else 0)).countP
          (·.targetId = id) := by
  by_cases hresponse : response.message.isResponse
  · obtain ⟨request, hrequest, hanswers⟩ := (horder.next_response hnext).2 hresponse
    obtain ⟨hlt, hget⟩ := List.getElem?_eq_some_iff.mp hrequest
    rw [if_pos hresponse, hanswers, drop_eq_getElem_cons hlt, hget, countP_cons,
      count_singleton, add_comm]
    simp only [decide_eq_true_eq, beq_iff_eq]
  · rw [if_neg hresponse, add_zero,
      response.message.answeredTargets_of_not_isResponse (Bool.eq_false_iff.mpr hresponse),
      count_nil, zero_add]

section

variable (h : s.CountsUnanswered) (horder : s.InOrder) (hnext : s.responses = response :: responses)

include h horder hnext

/-- Messages that are no errors are counted rightly. -/
theorem CountsUnanswered.hears {remoteKeys : TargetId → DocumentKeySet}
    (hhears : s.store.Hears remoteKeys response.message store event) :
    (s.receiving response responses store metadata).CountsUnanswered := by
  obtain ⟨agg, agg', requests, hhandled, hraised, hsends⟩ := hhears
  intro id
  have hsingle : response.message.isResponse → response.message.answeredTargets.length = 1 := by
    intro hresponse
    obtain ⟨request, -, hanswers⟩ := (horder.next_response hnext).2 hresponse
    rw [hanswers]
    rfl
  have hcount := WatchChangeAggregator.outstandingResponses_handle hhandled hsingle id
  have hagg' : (agg'.targetState id).outstandingResponses =
      (agg.targetState id).outstandingResponses := by
    cases event with
    | none => rw [hraised]
    | some event =>
      obtain ⟨snapshotVersion, hcreated⟩ := hraised
      exact (WatchChangeAggregator.targetState_createRemoteEvent hcreated id).1
  show (store.targetState id).outstandingResponses =
    ((store.watchRequests.drop (s.receiving response responses store metadata).acked).countP _ :
      Nat)
  have hle : s.acked + (if response.message.isResponse then 1 else 0) ≤
      s.store.watchRequests.length := by
    split_ifs with hresponse
    · obtain ⟨request, hrequest, -⟩ := (horder.next_response hnext).2 hresponse
      exact (List.getElem?_eq_some_iff.mp hrequest).1
    · exact horder.acked_le
  rw [hsends.state, hsends.written, acked_receiving, drop_append_of_le_length hle,
    countP_append, Nat.cast_add]
  refine congrArg (· + _) ?_
  have hbefore := h id
  rw [horder.countP_unanswered hnext] at hbefore
  refine hagg'.trans (hcount.trans ?_)
  rw [show (s.store.watchChangeAggregator.targetState id).outstandingResponses = _ from
    hbefore, Nat.cast_add, add_sub_cancel_left]

/-- A rejected listen is counted rightly in the one case. -/
theorem CountsUnanswered.error_iff (herror : targetError response.message = some change) :
    (s.receiving response responses (s.store.processTargetError change) metadata).CountsUnanswered ↔
      ∀ id ∈ change.targetIds, (s.store.listenTargets.get? id).isSome ∧
        s.sentFor id = s.answeredFor id + 1 := by
  obtain ⟨hmessage, hremoved, -⟩ := targetError_eq_some.mp herror
  have hresponse : response.message.isResponse := by
    rw [hmessage]
    simp [WatchChange.isResponse, hremoved]
  obtain ⟨request, -, hanswers⟩ := (horder.next_response hnext).2 hresponse
  have hids : change.targetIds = [request.targetId] := by
    rw [← hanswers, hmessage, WatchChange.answeredTargets, if_pos (by simp [hremoved])]
  generalize request.targetId = rejected at hids hanswers
  have hunanswered := horder.countP_unanswered hnext
  simp only [hanswers, count_singleton, beq_iff_eq] at hunanswered
  have hsent : s.sentFor rejected = s.answeredFor rejected + 1 ↔
      (s.store.watchRequests.drop s.acked).countP (·.targetId = rejected) = 1 := by
    rw [horder.sentFor_eq, Nat.add_left_cancel_iff]
  rw [hids, forall_mem_singleton, hsent]
  have hcounts : (s.receiving response responses (s.store.processTargetError change)
      metadata).CountsUnanswered ↔ ∀ id,
        ((s.store.rejectTarget rejected).targetState id).outstandingResponses =
          ((s.store.watchRequests.drop (s.acked + if response.message.isResponse then 1 else
            0)).countP
            (·.targetId = id) : Nat) := by
    have hstore : s.store.processTargetError change = s.store.rejectTarget rejected := by
      rw [processTargetError, hids]
      rfl
    have hrequests := (s.store.processTargetError_keeps change).1
    rw [hstore] at hrequests ⊢
    unfold CountsUnanswered
    simp only [acked_receiving, outstandingResponses, store_receiving, hrequests]
  rw [hcounts]
  unfold rejectTarget
  by_cases hlisten : (s.store.listenTargets.get? rejected).isSome
  · rw [if_pos hlisten]
    simp only [targetState, WatchChangeAggregator.targetState_removeTarget, hlisten,
      true_and]
    constructor
    · intro hcount
      have hzero := hcount rejected
      rw [if_pos rfl] at hzero
      rw [hunanswered, if_pos rfl, ← Nat.cast_inj (R := Int), Nat.cast_add, ← hzero]
      rfl
    · intro hone id
      by_cases hid : id = rejected
      · subst hid
        rw [hunanswered, if_pos rfl, Nat.add_eq_left] at hone
        rw [if_pos rfl, hone]
        rfl
      · rw [if_neg hid]
        refine (h id).trans ?_
        rw [hunanswered, if_neg (Ne.symm hid), zero_add]
  · rw [if_neg hlisten]
    refine iff_of_false (fun hcount => ?_) fun hand => hlisten hand.1
    have hbefore := h rejected
    rw [hunanswered, if_pos rfl] at hbefore
    have hafter := hbefore.symm.trans (hcount rejected)
    omega

end

end Receive

/-- The count stays right through a step, unless a listen is rejected at a wrong time. -/
theorem CountsUnanswered.step_iff (h : s.CountsUnanswered) (horder : s.InOrder) (e : WatchEvent) :
    (∀ s' event, s.step e = .ok (s', event) → s'.CountsUnanswered) ↔ s.RejectsCleanly e := by
  constructor
  · intro hstep
    cases e with
    | receive remoteKeys lastVersion =>
      intro response hhead change herror
      obtain ⟨responses, hnext⟩ := head?_eq_some_iff.mp hhead
      have hok : s.step (.receive remoteKeys lastVersion) = .ok (s.receiving response responses
          (s.store.processTargetError change) (s.store.metadata remoteKeys), none) := by
        simp only [step, hnext, onWatchStreamChange, herror]
        rfl
      exact (h.error_iff horder hnext herror).mp (hstep _ _ hok)
    | listen | stopListening | serve | reject | send => trivial
  · intro hclean s' event hok
    cases step_cases hok with
    | @listen data call =>
      rcases s.store.sends_listen data with ⟨heq, -⟩ | hsends
      · rw [heq]
        exact h
      · exact h.sends horder hsends
    | stop call stopped => exact h.sends horder (sends_stopListening stopped)
    | served | sent | idle => exact h
    | @received remoteKeys lastVersion response responses store event call next heard =>
      subst call
      rcases onWatchStreamChange_cases heard with
        ⟨change, herror, rfl, rfl⟩ | ⟨-, hheard⟩
      · refine (h.error_iff horder next herror).mpr ?_
        exact hclean response (by rw [next]; rfl) change herror
      · exact h.hears horder next hheard.hears

/-- The counts are right in every state of a session if and only if every listen that is rejected is
rejected while the client listens to the target and expects no other response for it. -/
theorem countsResponses_iff_rejectsCleanly (events : List WatchEvent) :
    Along step (fun s e => ∀ s' event, s.step e = .ok (s', event) → s'.CountsResponses) {} events ↔
      Along step RejectsCleanly {} events := by
  refine along_iff_along (fun s => s.InOrder ∧ s.CountsUnanswered) ?_ ?_
    ⟨inOrder_empty, fun _ => rfl⟩ events
  · rintro s e ⟨horder, hcounts⟩
    rw [← hcounts.step_iff horder]
    refine forall₃_congr fun s' event hok => ?_
    exact (horder.step hok).countsResponses_iff
  · rintro s e s' event ⟨horder, hcounts⟩ hclean hok
    exact ⟨horder.step hok, (hcounts.step_iff horder e).mpr hclean s' event hok⟩

namespace Rejected

def data : TargetData := .create ⟨[[114]], none, [], [], 0, none, none⟩ 2 0 .listen

def receive : WatchEvent := .receive (fun _ => ∅) .none

/-- The client listens and stops, and the server rejects the listen.  Then the client listens again.
-/
def events : List WatchEvent :=
  [.listen data, .stopListening 2, .reject ⟨7, "permission denied"⟩ .none, .serve [] .none,
    receive, receive, .listen data, .serve [] .none, receive]

end Rejected

/-- A listen is rejected after the client has stopped: the aggregator waits for a response that does
not come, and drops what the server sends for the next listen. -/
theorem outstandingResponses_rejected_after_stop :
    ∃ s answers, runAll step {} Rejected.events = .ok (s, answers) ∧
      s.sentFor 2 = 3 ∧ s.answeredFor 2 = 3 ∧ s.outstandingResponses 2 = 1 ∧
      (s.store.listenTargets.get? 2).isSome ∧
      s.store.watchChangeAggregator.isActiveTarget (s.store.metadata fun _ => ∅) 2 = false :=
  ⟨_, _, rfl, rfl, rfl, rfl, rfl, rfl⟩

end WatchSession

end Firebase.Firestore.Remote
