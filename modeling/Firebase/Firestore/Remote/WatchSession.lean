import Firebase.Firestore.Remote.RemoteStore
import Firebase.Lib.Simulation

/-!
# A session of the watch stream

The remote store and the server, from the opening of a watch stream on.  Requests and
responses travel in order.  The server answers the requests one after the other: a
watch request by a target change to `added`, or by an error, and an unwatch request by
one to `removed`.  In between it sends what it wants.  Neither side waits for the other.

Every message of the server carries how many requests it had answered when it sent the
message.  The client does not see this number: it is there to say on behalf of which
listen a message was sent.
-/

namespace Firebase.Firestore.Remote

open Lib Util Model Firestore.Core List

/-! ## Responses -/

namespace WatchChange

def isResponse : WatchChange → Bool
  | .target change => change.state = .added || change.state = .removed
  | .document _ | .existenceFilter _ => false

def answeredTargets : WatchChange → List TargetId
  | .target change =>
    if change.state = .added || change.state = .removed then change.targetIds else []
  | .document _ | .existenceFilter _ => []

def isAdded : WatchChange → Bool
  | .target change => change.state = .added
  | .document _ | .existenceFilter _ => false

variable {message : WatchChange}

section

variable (h : message.isResponse = false)

include h

theorem steady_of_not_isResponse (id : TargetId) : message.Steady id := by
  cases message with
  | document | existenceFilter => trivial
  | target change =>
    rintro hstate
    simp only [isResponse, Bool.or_eq_false_iff, decide_eq_false_iff_not] at h
    exact absurd hstate (not_or.mpr h)

theorem isAdded_eq_false : message.isAdded = false := by
  cases message with
  | document | existenceFilter => rfl
  | target change => exact (Bool.or_eq_false_iff.mp h).1

theorem answeredTargets_of_not_isResponse : message.answeredTargets = [] := by
  cases message with
  | document | existenceFilter => rfl
  | target change =>
    rw [answeredTargets, if_neg]
    rw [isResponse] at h
    rw [h]
    exact nofun

end

end WatchChange

def WatchRequest.response (resumeToken : Bytes) : WatchRequest → WatchChange
  | watch targetData => .target ⟨.added, [targetData.targetId], resumeToken, none⟩
  | unwatch targetId => .target ⟨.removed, [targetId], resumeToken, none⟩

def rejection (targetId : TargetId) (cause : Error) : WatchChange :=
  .target ⟨.removed, [targetId], [], some cause⟩

/-! ## Sessions -/

/-- `Serializer::DecodeVersionFromListenResponse`: a consistent snapshot of the whole stream is only
reached by a read time that applies to all targets. -/
def decodeVersion (message : WatchChange) (readTime : SnapshotVersion) : SnapshotVersion :=
  match message with
  | .target change => if change.targetIds.isEmpty then readTime else .none
  | .document _ | .existenceFilter _ => .none

/-- A message of the server, with the number of requests that had been answered by then. -/
structure Response where
  message : WatchChange
  readTime : SnapshotVersion
  served : Nat

def Response.snapshotVersion (response : Response) : SnapshotVersion :=
  decodeVersion response.message response.readTime

/-- A message that the client has received, with the metadata that it had about the targets. -/
structure Received where
  message : WatchChange
  served : Nat
  metadata : TargetMetadataProvider

structure WatchSession where
  store : RemoteStore := {}
  /-- The number of requests that the server has answered. -/
  served : Nat := 0
  /-- What the server has sent and the client has not received. -/
  responses : List Response := []
  received : List Received := []

inductive WatchEvent where
  | listen (targetData : TargetData)
  | stopListening (targetId : TargetId)
  /-- The server accepts the next request. -/
  | serve (resumeToken : Bytes) (readTime : SnapshotVersion)
  /-- The server rejects the next request, if it is a watch request. -/
  | reject (cause : Error) (readTime : SnapshotVersion)
  /-- The server sends a message that is no response. -/
  | send (message : WatchChange) (readTime : SnapshotVersion)
  /-- The client receives the next message, with these remote keys and last snapshot. -/
  | receive (remoteKeys : TargetId → DocumentKeySet) (lastVersion : SnapshotVersion)

variable {event : Option RemoteEvent}

namespace WatchSession

section

variable (s : WatchSession)

def answer (message : WatchChange) (readTime : SnapshotVersion) : WatchSession :=
  { s with
    served := s.served + 1
    responses := s.responses ++ [⟨message, readTime, s.served + 1⟩] }

/-- One event.  What is not possible in a state has no effect. -/
def step : WatchEvent → Hard (WatchSession × Option RemoteEvent)
  | .listen targetData => .ok ({ s with store := s.store.listen targetData }, none)
  | .stopListening targetId => do
    let store ← s.store.stopListening targetId
    return ({ s with store }, none)
  | .serve resumeToken readTime =>
    match s.store.watchRequests[s.served]? with
    | some request => .ok (s.answer (request.response resumeToken) readTime, none)
    | none => .ok (s, none)
  | .reject cause readTime =>
    match s.store.watchRequests[s.served]? with
    | some (.watch targetData) =>
      .ok (s.answer (rejection targetData.targetId cause) readTime, none)
    | some (.unwatch _) | none => .ok (s, none)
  | .send message readTime =>
    if message.isResponse then .ok (s, none)
    else .ok ({ s with responses := s.responses ++ [⟨message, readTime, s.served⟩] }, none)
  | .receive remoteKeys lastVersion =>
    match s.responses with
    | [] => .ok (s, none)
    | response :: responses => do
      let (store, event) ← s.store.onWatchStreamChange remoteKeys lastVersion response.message
        response.snapshotVersion
      let received := ⟨response.message, response.served, s.store.metadata remoteKeys⟩
      return ({ s with store, responses, received := s.received ++ [received] }, event)

def messages : List (WatchChange × Nat) :=
  s.received.map (fun r => (r.message, r.served)) ++ s.responses.map fun r => (r.message, r.served)

def acked : Nat := s.received.countP (·.message.isResponse)

def sentFor (targetId : TargetId) : Nat :=
  s.store.watchRequests.countP (·.targetId = targetId)

def answeredFor (targetId : TargetId) : Nat :=
  (s.received.flatMap (·.message.answeredTargets)).count targetId

end

/-! ## What a step does -/

/-- What the client does in a step: it writes requests, or it receives a message, or nothing. -/
inductive StepCases (s : WatchSession) (e : WatchEvent) : WatchSession → Option RemoteEvent → Prop
  | listen {targetData} (call : e = .listen targetData) :
      StepCases s e { s with store := s.store.listen targetData } none
  | stop {targetId} {store} (call : e = .stopListening targetId)
      (stopped : s.store.stopListening targetId = .ok store) : StepCases s e { s with store } none
  | served {request : WatchRequest} {message : WatchChange} {readTime}
      (next : s.store.watchRequests[s.served]? = some request)
      (response : message.isResponse) (answers : message.answeredTargets = [request.targetId])
      (accepts : message.isAdded → request.isWatch)
      (call : ∀ remoteKeys lastVersion, e ≠ .receive remoteKeys lastVersion) :
      StepCases s e (s.answer message readTime) none
  | sent {message : WatchChange} {readTime} (noResponse : message.isResponse = false)
      (call : ∀ remoteKeys lastVersion, e ≠ .receive remoteKeys lastVersion) :
      StepCases s e { s with responses := s.responses ++ [⟨message, readTime, s.served⟩] } none
  | idle : StepCases s e s none
  | received {remoteKeys} {lastVersion} {response : Response} {responses : List Response}
      {store : RemoteStore} {event : Option RemoteEvent}
      (call : e = .receive remoteKeys lastVersion) (next : s.responses = response :: responses)
      (heard : s.store.onWatchStreamChange remoteKeys lastVersion response.message
        response.snapshotVersion = .ok (store, event)) :
      StepCases s e { s with
        store, responses
        received := s.received ++ [⟨response.message, response.served,
          s.store.metadata remoteKeys⟩] } event

theorem step_cases {s s' : WatchSession} {e : WatchEvent}
    (hok : s.step e = .ok (s', event)) : StepCases s e s' event := by
  cases e with
  | listen data =>
    cases hok
    exact .listen rfl
  | stopListening id =>
    obtain ⟨store, hstore, hok⟩ := bind_eq_ok.mp hok
    cases hok
    exact .stop rfl hstore
  | serve resumeToken readTime =>
    simp only [step] at hok
    split at hok
    · next request hnext =>
      cases hok
      refine .served hnext ?_ ?_ ?_ nofun <;> cases request
      · rfl
      · rfl
      · rfl
      · rfl
      · exact fun _ => rfl
      · exact nofun
    · cases hok
      exact .idle
  | reject cause readTime =>
    simp only [step] at hok
    split at hok
    · next data hnext =>
      cases hok
      exact .served hnext rfl rfl nofun nofun
    · cases hok
      exact .idle
    · cases hok
      exact .idle
  | send message readTime =>
    simp only [step] at hok
    split_ifs at hok with hresponse
    · cases hok
      exact .idle
    · cases hok
      exact .sent (Bool.eq_false_iff.mpr hresponse) nofun
  | receive remoteKeys lastVersion =>
    simp only [step] at hok
    split at hok
    · cases hok
      exact .idle
    · next response responses hnext =>
      obtain ⟨⟨store, event₁⟩, hheard, hok⟩ := bind_eq_ok.mp hok
      cases hok
      exact .received rfl hnext hheard

/-! ## The order of the channels -/

/-- The messages of the server are in order: they answer the requests one after the other, and their
numbers count the responses. -/
structure InOrder (s : WatchSession) : Prop where
  served_le : s.served ≤ s.store.watchRequests.length
  answers : s.messages.flatMap (·.1.answeredTargets) =
    (s.store.watchRequests.take s.served).map WatchRequest.targetId
  single {m} (mem : m ∈ s.messages) (response : m.1.isResponse) :
    m.1.answeredTargets.length = 1
  numbered {i m} (get : s.messages[i]? = some m) :
    m.2 = (s.messages.take (i + 1)).countP (·.1.isResponse)
  added {m} (mem : m ∈ s.messages) (added : m.1.isAdded) :
    ∃ request, s.store.watchRequests[m.2 - 1]? = some request ∧ request.isWatch

theorem inOrder_empty : InOrder {} where
  served_le := le_rfl
  answers := rfl
  single hmem := nomatch hmem
  numbered hget := nomatch hget
  added hmem := nomatch hmem

theorem length_flatMap_answeredTargets {messages : List (WatchChange × Nat)}
    (hsingle : ∀ m ∈ messages, m.1.isResponse → m.1.answeredTargets.length = 1) :
    (messages.flatMap (·.1.answeredTargets)).length = messages.countP (·.1.isResponse) := by
  induction messages with
  | nil => rfl
  | cons m messages ih =>
    obtain ⟨hfirst, hrest⟩ := forall_mem_cons.mp hsingle
    rw [flatMap_cons, length_append, ih hrest]
    by_cases hresponse : m.1.isResponse
    · rw [hfirst hresponse, countP_cons, if_pos hresponse, add_comm]
    · rw [countP_cons, if_neg hresponse,
        WatchChange.answeredTargets_of_not_isResponse (Bool.eq_false_iff.mpr hresponse),
        length_nil, zero_add, add_zero]

namespace InOrder

variable {s s' : WatchSession}

section

variable (h : s.InOrder)

include h

theorem countP_messages : s.messages.countP (·.1.isResponse) = s.served := by
  rw [← length_flatMap_answeredTargets fun _ => h.single, h.answers, length_map,
    length_take_of_le h.served_le]

/-- More requests do not matter. -/
theorem of_prefix (hmessages : s'.messages = s.messages) (hserved : s'.served = s.served)
    (hrequests : s.store.watchRequests <+: s'.store.watchRequests) : s'.InOrder where
  served_le := by
    rw [hserved]
    exact h.served_le.trans hrequests.length_le
  answers := by
    obtain ⟨requests, hrequests⟩ := hrequests
    rw [hmessages, hserved, ← hrequests, take_append_of_le_length h.served_le, h.answers]
  single := by
    rw [hmessages]
    exact h.single
  numbered := by
    rw [hmessages]
    exact h.numbered
  added hmem hadded := by
    rw [hmessages] at hmem
    obtain ⟨request, hget, hwatch⟩ := h.added hmem hadded
    obtain ⟨requests, hrequests⟩ := hrequests
    refine ⟨request, ?_, hwatch⟩
    rw [← hrequests, getElem?_append_left (List.getElem?_eq_some_iff.mp hget).1, hget]

/-- The numbers of messages, with one more message. -/
theorem numbered_append {m : WatchChange × Nat}
    (hm : m.2 = s.served + if m.1.isResponse then 1 else 0) {i : Nat} {m' : WatchChange × Nat}
    (hget : (s.messages ++ [m])[i]? = some m') :
    m'.2 = ((s.messages ++ [m]).take (i + 1)).countP (·.1.isResponse) := by
  rcases lt_trichotomy i s.messages.length with hlt | heq | hgt
  · rw [getElem?_append_left hlt] at hget
    rw [take_append_of_le_length hlt, h.numbered hget]
  · subst heq
    rw [getElem?_concat_length, Option.some.injEq] at hget
    subst hget
    rw [hm, take_of_length_le (by simp), countP_append, h.countP_messages,
      countP_singleton]
  · rw [getElem?_eq_none (by simp; omega)] at hget
    cases hget

theorem step {e : WatchEvent} (hok : s.step e = .ok (s', event)) : s'.InOrder := by
  cases step_cases hok with
  | @listen data call =>
    refine h.of_prefix rfl rfl ?_
    rcases s.store.sends_listen data with ⟨heq, -⟩ | hsends
    · rw [heq]
    · exact ⟨_, hsends.written.symm⟩
  | stop call stopped =>
    exact h.of_prefix rfl rfl ⟨_, (RemoteStore.sends_stopListening stopped).written.symm⟩
  | @served request message readTime next response answers accepts call =>
    have hlt : s.served < s.store.watchRequests.length := (List.getElem?_eq_some_iff.mp next).1
    have hmessages : (s.answer message readTime).messages =
        s.messages ++ [(message, s.served + 1)] := by
      simp [messages, answer]
    refine ⟨hlt, ?_, ?_, ?_, ?_⟩
    · rw [hmessages, flatMap_append, h.answers]
      show _ = (s.store.watchRequests.take (s.served + 1)).map WatchRequest.targetId
      rw [take_add_one, next]
      simp [answers]
    · intro m hmem hresponse
      rw [hmessages, mem_append, mem_singleton] at hmem
      rcases hmem with hmem | rfl
      · exact h.single hmem hresponse
      · rw [answers]
        rfl
    · rw [hmessages]
      exact h.numbered_append (by rw [if_pos response])
    · intro m hmem hadded
      rw [hmessages, mem_append, mem_singleton] at hmem
      rcases hmem with hmem | rfl
      · exact h.added hmem hadded
      · exact ⟨request, next, accepts hadded⟩
  | @sent message readTime noResponse call =>
    have hmessages : messages { s with
        responses := s.responses ++ [⟨message, readTime, s.served⟩] } =
          s.messages ++ [(message, s.served)] := by
      simp [messages]
    refine ⟨h.served_le, ?_, ?_, ?_, ?_⟩
    · rw [hmessages, flatMap_append, h.answers]
      simp [WatchChange.answeredTargets_of_not_isResponse noResponse]
    · intro m hmem hresponse
      rw [hmessages, mem_append, mem_singleton] at hmem
      rcases hmem with hmem | rfl
      · exact h.single hmem hresponse
      · rw [noResponse] at hresponse
        cases hresponse
    · rw [hmessages]
      exact h.numbered_append (by rw [noResponse]; rfl)
    · intro m hmem hadded
      rw [hmessages, mem_append, mem_singleton] at hmem
      rcases hmem with hmem | rfl
      · exact h.added hmem hadded
      · rw [WatchChange.isAdded_eq_false noResponse] at hadded
        cases hadded
  | idle => exact h
  | received call next heard =>
    refine h.of_prefix ?_ rfl (RemoteStore.prefix_onWatchStreamChange heard)
    simp [messages, next]

/-! ### What has been received -/

theorem received_eq : s.received.flatMap (·.message.answeredTargets) =
      (s.store.watchRequests.take s.acked).map WatchRequest.targetId ∧ s.acked ≤ s.served := by
  set received := s.received.map (fun r => (r.message, r.served)) with hreceived
  set responses := s.responses.map (fun r => (r.message, r.served)) with hresponses
  have hmessages : s.messages = received ++ responses := rfl
  have hacked : received.countP (·.1.isResponse) = s.acked := by
    rw [countP_map]
    rfl
  have hlength : (received.flatMap (·.1.answeredTargets)).length = s.acked := by
    rw [length_flatMap_answeredTargets, hacked]
    intro m hmem
    exact h.single (hmessages ▸ mem_append_left _ hmem)
  have hle : s.acked ≤ s.served := by
    rw [← h.countP_messages, hmessages, countP_append, hacked]
    exact Nat.le_add_right _ _
  refine ⟨?_, hle⟩
  have hanswers := congrArg (List.take s.acked) h.answers
  rw [hmessages, flatMap_append, take_append_of_le_length hlength.ge,
    take_of_length_le hlength.le, ← map_take, take_take, min_eq_left hle] at hanswers
  rw [← hanswers, flatMap_map]

theorem answeredFor_eq (id : TargetId) :
    s.answeredFor id = (s.store.watchRequests.take s.acked).countP
      (·.targetId = id) := by
  rw [answeredFor, h.received_eq.1, List.count, countP_map]
  congr 1

theorem sentFor_eq (id : TargetId) : s.sentFor id = s.answeredFor id +
      (s.store.watchRequests.drop s.acked).countP (·.targetId = id) := by
  rw [h.answeredFor_eq, ← countP_append, take_append_drop]
  rfl

/-- The number of the next message to be received, and the request that it answers. -/
theorem next_response {response : Response} {responses : List Response}
    (hnext : s.responses = response :: responses) :
    response.served = s.acked + (if response.message.isResponse then 1 else 0) ∧
      (response.message.isResponse → ∃ request, s.store.watchRequests[s.acked]? = some request ∧
        response.message.answeredTargets = [request.targetId]) := by
  -- The session in which the message has been received is in order, too.
  let s₁ : WatchSession := { s with
    responses := responses
    received := s.received ++ [⟨response.message, response.served, s.store.metadata fun _ => ∅⟩] }
  have h₁ : s₁.InOrder := h.of_prefix (by simp [messages, s₁, hnext]) rfl (prefix_refl _)
  have hacked : s₁.acked = s.acked + if response.message.isResponse then 1 else 0 := by
    rw [acked, countP_append, countP_singleton]
    rfl
  constructor
  · have hget : s.messages[s.received.length]? = some (response.message, response.served) := by
      simp [messages, hnext]
    have hnumber := h.numbered hget
    have htake : s.messages.take (s.received.length + 1) =
        s₁.received.map fun r => (r.message, r.served) := by
      simp [messages, hnext, s₁, take_append]
    rw [htake, countP_map] at hnumber
    exact hnumber.trans hacked
  · intro hresponse
    rw [if_pos hresponse] at hacked
    have hlt : s.acked < s.store.watchRequests.length := by
      have hle := h₁.received_eq.2.trans h₁.served_le
      rw [hacked] at hle
      exact hle
    refine ⟨s.store.watchRequests[s.acked], getElem?_eq_getElem hlt, ?_⟩
    have hanswers := h₁.received_eq.1
    rw [hacked, flatMap_append, h.received_eq.1, take_add_one, map_append,
      getElem?_eq_getElem hlt] at hanswers
    simpa using append_cancel_left hanswers

/-- What was received had been sent before the first request without an answer was answered. -/
theorem served_le_acked {r : Received} (hmem : r ∈ s.received) : r.served ≤ s.acked := by
  obtain ⟨i, hi⟩ := getElem?_of_mem hmem
  have hlt : i < s.received.length := (List.getElem?_eq_some_iff.mp hi).1
  have hget : s.messages[i]? = some (r.message, r.served) := by
    rw [messages, getElem?_append_left (by simpa using hlt), getElem?_map, hi]
    rfl
  have hacked : s.acked = (s.received.map fun r => (r.message, r.served)).countP
      (·.1.isResponse) := by
    rw [countP_map]
    rfl
  rw [show r.served = _ from h.numbered hget, hacked, messages,
    take_append_of_le_length (by simpa using Nat.succ_le_of_lt hlt)]
  exact (take_sublist _ _).countP_le

end

end InOrder

end WatchSession

end Firebase.Firestore.Remote
