import Firebase.Firestore.Remote.KeyedEvents
import Firebase.Firestore.Remote.ListenEpochs

/-!
# Current targets

`ClearPendingChanges` does not clear the flag that a target is current.  When the client stops and
listens again before the first response arrives, the state of the target is kept, and the new listen
is current from its start.
-/

namespace Firebase.Firestore.Remote

open Lib Util Model Firestore.Core List WatchChangeAggregator RemoteStore

/-! ## Updates of documents -/

/-- The message says something about a document. -/
def WatchChange.Updates (provider : TargetMetadataProvider) (key : DocumentKey) : WatchChange → Prop
  | .document change => change.documentKey = key ∨
      ∃ newDoc, change.newDocument = some (.document newDoc) ∧ newDoc.key = key
  | .existenceFilter filter => filter.count = 0 ∧ ∃ data,
      provider.getTargetDataForTarget filter.targetId = some data ∧
        data.target.documentKey = some key
  | .target _ => False

namespace WatchChangeAggregator

variable {provider : TargetMetadataProvider} {agg agg' : WatchChangeAggregator}
  {keys : Set DocumentKey} {id : TargetId}

def UpdatesWithin (agg : WatchChangeAggregator) (keys : Set DocumentKey) : Prop :=
  ∀ key, (agg.pendingDocumentUpdates.get? key).isSome → key ∈ keys

namespace UpdatesWithin

theorem filedAs_iff : agg.UpdatesWithin keys ↔ agg.FiledAs fun key _ => key ∈ keys :=
  forall_congr' fun _ => by rw [Option.isSome_iff_exists, forall_exists_index]

theorem removeDocumentFromTarget (h : agg.UpdatesWithin keys) {key : DocumentKey}
    {updatedDocument : Option MaybeDocument} (hkey : updatedDocument ≠ none → key ∈ keys) :
    (agg.removeDocumentFromTarget provider id key updatedDocument).UpdatesWithin keys :=
  filedAs_iff.mpr <| (filedAs_iff.mp h).removeDocumentFromTarget fun _ hdoc =>
    hkey (ne_of_eq_of_ne hdoc (Option.some_ne_none _))

/-- Updates come from messages. -/
theorem handle {message : WatchChange} (h : agg.UpdatesWithin keys)
    (hkeys : ∀ key, message.Updates provider key → key ∈ keys)
    (hok : agg.handle provider message = .ok agg') : agg'.UpdatesWithin keys := by
  refine filedAs_iff.mpr <| (filedAs_iff.mp h).filings (filings_handle hok) fun key doc hfiles =>
    hkeys key ?_
  cases message with
  | document change =>
    obtain ⟨hdoc, hkey | ⟨newDoc, rfl, hkey⟩⟩ := hfiles
    · exact .inl hkey
    · exact .inr ⟨newDoc, hdoc, hkey⟩
  | existenceFilter filter => exact ⟨hfiles.1, hfiles.2.2⟩
  | target change => exact hfiles.elim

end UpdatesWithin

/-! ### Documents that are made up -/

section Synthesized

variable {version : SnapshotVersion} {changes changes' : OrdMap TargetId TargetChange}
  {key : DocumentKey}

/-- The target is active and current, and its one document is the given one. -/
def CurrentDocument (provider : TargetMetadataProvider) (agg : WatchChangeAggregator)
    (id : TargetId) (key : DocumentKey) : Prop :=
  ∃ data, agg.targetDataForActiveTarget provider id = some data ∧
    data.target.documentKey = some key ∧ (agg.targetState id).current

theorem Raising.documentUpdates (h : Raising provider version agg changes id agg' changes')
    (hsome : (agg'.pendingDocumentUpdates.get? key).isSome) :
    (agg.pendingDocumentUpdates.get? key).isSome ∨ CurrentDocument provider agg id key := by
  have hsynthesized : ∀ data, agg.targetDataForActiveTarget provider id =
      some data → ((synthesizeDelete provider version agg id
        data).pendingDocumentUpdates.get? key).isSome →
      (agg.pendingDocumentUpdates.get? key).isSome ∨
        CurrentDocument provider agg id key := by
    intro data hdata hsome
    rcases synthesizeDelete_cases provider agg id version data with
      heq | ⟨key', ⟨hkey, hcurrent, -, -⟩, heq⟩
    · rw [heq] at hsome
      exact .inl hsome
    · have hwithin : agg.UpdatesWithin
          {key | (agg.pendingDocumentUpdates.get? key).isSome ∨ key = key'} := fun _ => .inl
      have hafter : (agg.removeDocumentFromTarget provider id key'
          (some (.noDocument key' version false))).UpdatesWithin _ :=
        hwithin.removeDocumentFromTarget fun _ => .inr rfl
      rw [heq] at hsome
      refine (hafter key hsome).imp_right ?_
      rintro rfl
      exact ⟨data, hdata, hkey, hcurrent⟩
  cases h with
  | inactive => exact .inl hsome
  | quiet hdata synthesized => exact hsynthesized _ hdata (synthesized ▸ hsome)
  | raised hdata synthesized => exact hsynthesized _ hdata (synthesized ▸ hsome)

theorem CurrentDocument.congr (hstate : agg'.targetState id = agg.targetState id)
    (h : CurrentDocument provider agg' id key) :
      CurrentDocument provider agg id key := by
  obtain ⟨data, hdata, hkey, hcurrent⟩ := h
  refine ⟨data, ?_, hkey, hstate ▸ hcurrent⟩
  rw [← hdata, targetDataForActiveTarget_eq, targetDataForActiveTarget_eq, hstate]

theorem documentUpdates_raise {ids : List TargetId} (hnodup : ids.Nodup)
    (hok : ids.foldlM (raiseTarget provider version) (agg, changes) =
      .ok (agg', changes')) (hsome : (agg'.pendingDocumentUpdates.get? key).isSome) :
    (agg.pendingDocumentUpdates.get? key).isSome ∨
      ∃ id ∈ ids, CurrentDocument provider agg id key := by
  induction ids generalizing agg changes with
  | nil =>
    cases hok
    exact .inl hsome
  | cons first rest ih =>
    obtain ⟨hfirst_rest, hnodup⟩ := nodup_cons.mp hnodup
    rw [foldlM_cons] at hok
    obtain ⟨⟨agg₁, changes₁⟩, hfirst, hrest⟩ := bind_eq_ok.mp hok
    have hraising := raising_of_raiseTarget hfirst
    rcases ih hnodup hrest with hsome₁ | ⟨id, hmem, hcurrent⟩
    · refine (hraising.documentUpdates hsome₁).imp_right fun hcurrent => ?_
      exact ⟨first, mem_cons_self, hcurrent⟩
    · refine .inr ⟨id, mem_cons_of_mem _ hmem, hcurrent.congr ?_⟩
      exact (hraising.of_ne (ne_of_mem_of_not_mem hmem hfirst_rest)).1

/-- A document that an event updates has been updated by a message, or it is the missing document of
a current target. -/
theorem documentUpdates_createRemoteEvent {event : RemoteEvent}
    (hok : agg.createRemoteEvent provider version = .ok (event, agg'))
    (hsome : (event.documentUpdates.get? key).isSome) :
    (agg.pendingDocumentUpdates.get? key).isSome ∨
      ∃ id, CurrentDocument provider agg id key := by
  obtain ⟨agg₁, hraise, hupdates, -, -⟩ := createRemoteEvent_inv hok
  rw [hupdates] at hsome
  refine (documentUpdates_raise (OrdMap.nodup_keys _) hraise hsome).imp_right ?_
  rintro ⟨id, -, hcurrent⟩
  exact ⟨id, hcurrent⟩

end Synthesized

end WatchChangeAggregator

/-! ## Current since when -/

variable {change : WatchTargetChange}

namespace WatchSession

variable {s s' : WatchSession} {e : WatchEvent} {event : Option RemoteEvent} {id : TargetId}
  {response : Response} {responses : List Response} {remoteKeys : TargetId → DocumentKeySet}
  {agg : WatchChangeAggregator} {r : Received} {requests new : List WatchRequest}
  {received : List Received}

/-- The server has said that the target is current since it has answered the last watch request for
it, and has not reset the target since. -/
def CurrentSince (requests : List WatchRequest) (received : List Received)
    (id : TargetId) : Prop :=
  ∃ before r after, received = before ++ r :: after ∧ r.message.SaysCurrent id ∧
    OfLastListen requests id r ∧ ∀ r' ∈ after, ¬r'.message.SaysReset id

theorem CurrentSince.append (h : CurrentSince requests received id)
    (hnew : ∀ request ∈ new, request.targetId ≠ id) :
    CurrentSince (requests ++ new) received id := by
  obtain ⟨before, r, after, hreceived, hcurrent, hlast, hreset⟩ := h
  exact ⟨before, r, after, hreceived, hcurrent, hlast.append hnew, hreset⟩

theorem CurrentSince.receive (h : CurrentSince requests received id)
    (hr : ¬r.message.SaysReset id) : CurrentSince requests (received ++ [r]) id := by
  obtain ⟨before, r', after, hreceived, hcurrent, hlast, hreset⟩ := h
  refine ⟨before, r', after ++ [r], ?_, hcurrent, hlast, ?_⟩
  · rw [hreceived, append_assoc, cons_append]
  · rw [forall_mem_append, forall_mem_singleton]
    exact ⟨hreset, hr⟩

/-- Every active target that has the flag is current. -/
def CurrentJustified (s : WatchSession) : Prop :=
  ∀ id, s.IsActive id → (s.store.targetState id).current →
    CurrentSince s.store.watchRequests s.received id

/-- A target that an event calls current is current, and so is the target of a document that the
event makes up.  The other documents have been updated by messages since the last event: their
updates were pending, or the last message has them. -/
structure EventJustified (s s' : WatchSession) (event : RemoteEvent) : Prop where
  current {id : TargetId} {change : TargetChange}
    (raised : event.targetChanges.get? id = some change) (flag : change.current) :
    CurrentSince s.store.watchRequests s'.received id
  missing {key : DocumentKey} (updated : (event.documentUpdates.get? key).isSome) :
    ((∃ r ∈ s'.received, r.message.Updates r.metadata key) ∧
      ((s.store.watchChangeAggregator.pendingDocumentUpdates.get? key).isSome ∨
        ∃ r ∈ s'.received.getLast?, r.message.Updates r.metadata key)) ∨
    ∃ id data, s.store.listenTargets.get? id = some data ∧
      data.target.documentKey = some key ∧
      CurrentSince s.store.watchRequests s'.received id

/-- No listen starts in a state with the flag: when the last response for a target accepts a listen,
the state of the target does not have the flag. -/
def StartsOver (s : WatchSession) : WatchEvent → Prop
  | .receive _ _ => ∀ response ∈ s.responses.head?, response.message.isAdded →
      ∀ id ∈ response.message.answeredTargets, (s.store.listenTargets.get? id).isSome →
          s.sentFor id = s.answeredFor id + 1 →
            (s.store.targetState id).current = false
  | _ => True

/-- Documents have been updated by messages. -/
def UpdatesReceived (s : WatchSession) : Prop :=
  s.store.watchChangeAggregator.UpdatesWithin
    {key | ∃ r ∈ s.received, r.message.Updates r.metadata key}

namespace CurrentJustified

theorem sends (h : s.CurrentJustified) (hcounts : s.CountsUnanswered) {store : RemoteStore}
    (hsends : s.store.Sends store requests) : CurrentJustified { s with store } := by
  intro id hactive hcurrent
  obtain ⟨hbefore, hstate, hother⟩ := isActive_of_sends hsends (hcounts.nonneg id) hactive
  have hsince := (h id hbefore (hstate ▸ hcurrent)).append hother
  rwa [← hsends.written] at hsince

theorem handled (h : s.CurrentJustified) (hhandled : ∀ id, s.Handled r agg id)
    (hstart : ∀ id, (s.store.listenTargets.get? id).isSome →
      s.sentFor id = s.answeredFor id + 1 → r.message.isAdded →
      r.message.answeredTargets = [id] → (s.store.targetState id).current = false) :
    (s.handling r agg).CurrentJustified := by
  intro id hactive hcurrent
  rcases hhandled id with ⟨hbefore, hlast, hlistened, hstate⟩ | ⟨-, hstate⟩ |
    ⟨hunanswered, -, hflag⟩ | hinactive
  · obtain ⟨data, hdata⟩ := Option.isSome_iff_exists.mp hlistened
    rw [TargetState.hearReceived, hdata] at hstate
    have hhear : ((s.store.targetState id).hear (r.metadata.getRemoteKeysForTarget id)
        data.target id r.message).current := by
      dsimp only at hstate
      rw [← hstate]
      exact hcurrent
    rcases TargetState.current_hear hhear with hsays | ⟨hcurrent, hreset⟩
    · exact ⟨s.received, r, [], rfl, hsays, hlast, forall_mem_nil _⟩
    · exact (h id hbefore hcurrent).receive hreset
  · have hfalse : (agg.targetState id).current := hcurrent
    rw [hstate] at hfalse
    cases hfalse
  · obtain ⟨hcurrent, hadded, hanswers⟩ := hflag hcurrent
    rw [hstart id hactive.1 hunanswered hadded hanswers] at hcurrent
    cases hcurrent
  · exact absurd hactive.2 (hinactive hactive.1)

variable {version : SnapshotVersion}

theorem raised (h : s.CurrentJustified) {provider : TargetMetadataProvider} {event : RemoteEvent}
    (hok : s.store.watchChangeAggregator.createRemoteEvent provider version =
      .ok (event, agg)) :
    CurrentJustified { s with store := { s.store with watchChangeAggregator := agg } } := by
  intro id hactive hcurrent
  obtain ⟨hcount, hflag, -⟩ :=
    targetState_createRemoteEvent hok id
  exact h id ⟨hactive.1, hcount.symm.trans hactive.2⟩ (hflag.symm.trans hcurrent)

/-- The events of a session in which the flags are justified. -/
theorem eventJustified (h : (s.handling r agg).CurrentJustified)
    (hupdates : (s.handling r agg).UpdatesReceived) {agg' : WatchChangeAggregator}
    {event : RemoteEvent}
    (hhandled : s.store.watchChangeAggregator.handle r.metadata r.message = .ok agg)
    (hok : agg.createRemoteEvent (s.store.metadata remoteKeys) version = .ok (event, agg'))
    (hreceived : s'.received = s.received ++ [r]) : EventJustified s s' event where
  current hget hflag := by
    obtain ⟨hactive, hcurrent, -⟩ :=
      targetChange_of_createRemoteEvent hok hget
    rw [hreceived]
    exact h _ ((isActive_iff remoteKeys).mpr hactive) (hcurrent.symm.trans hflag)
  missing hsome := by
    rw [hreceived]
    rcases documentUpdates_createRemoteEvent hok hsome with
      hupdated | ⟨id, data, hdata, hkey, hcurrent⟩
    · refine .inl ⟨hupdates _ hupdated, ?_⟩
      have hwithin : agg.UpdatesWithin {key |
          (s.store.watchChangeAggregator.pendingDocumentUpdates.get? key).isSome ∨
            r.message.Updates r.metadata key} := .handle (fun _ => .inl) (fun _ => .inr) hhandled
      rw [getLast?_concat]
      exact (hwithin _ hupdated).imp (fun h => h) fun hkey => ⟨r, rfl, hkey⟩
    · have hactive : agg.isActiveTarget (s.store.metadata remoteKeys) id := by
        rw [isActiveTarget, hdata]
        rfl
      refine .inr ⟨id, data, ?_, hkey, ?_⟩
      · rw [← hdata, (isActiveTarget_iff.mp
          hactive).targetDataForActiveTarget]
        rfl
      · exact h _ ((isActive_iff remoteKeys).mpr hactive) hcurrent

theorem error (h : s.CurrentJustified) (hr : ∀ id, ¬r.message.SaysReset id) :
    CurrentJustified { s with
      store := s.store.processTargetError change
      received := s.received ++ [r] } := by
  intro id hactive hcurrent
  obtain ⟨hlisten, hstate⟩ := listens_processTargetError hactive.1
  have hsince := h id ⟨hlisten, (congrArg _ hstate).symm.trans hactive.2⟩ (hstate ▸ hcurrent)
  have hafter := hsince.receive (hr id)
  rwa [← (s.store.processTargetError_keeps change).1] at hafter

end CurrentJustified

/-! ## Updates over a session -/

namespace UpdatesReceived

theorem mono (h : s.UpdatesReceived) (hupdates :
    s'.store.watchChangeAggregator.pendingDocumentUpdates =
      s.store.watchChangeAggregator.pendingDocumentUpdates) (hreceived : s.received ⊆ s'.received) :
    s'.UpdatesReceived := by
  intro key hsome
  rw [hupdates] at hsome
  obtain ⟨r, hmem, hkey⟩ := h key hsome
  exact ⟨r, hreceived hmem, hkey⟩

theorem handled (h : s.UpdatesReceived)
    (hok : s.store.watchChangeAggregator.handle r.metadata r.message = .ok agg) :
    (s.handling r agg).UpdatesReceived := by
  refine WatchChangeAggregator.UpdatesWithin.handle ?_ (fun key hkey => ?_) hok
  · intro key hsome
    obtain ⟨r', hmem, hkey⟩ := h key hsome
    exact ⟨r', mem_append_left _ hmem, hkey⟩
  · exact ⟨r, mem_append_right _ mem_cons_self, hkey⟩

theorem step (h : s.UpdatesReceived) (hok : s.step e = .ok (s', event)) : s'.UpdatesReceived := by
  cases step_cases hok with
  | @listen data call =>
    rcases s.store.sends_listen data with ⟨heq, -⟩ | hsends
    · rw [heq]
      exact h
    · exact h.mono hsends.updates (List.Subset.refl _)
  | stop call stopped =>
    exact h.mono (sends_stopListening stopped).updates (List.Subset.refl _)
  | served | sent | idle => exact h
  | @received remoteKeys lastVersion response responses store event call next heard =>
    rcases onWatchStreamChange_cases heard with ⟨change, -, -, rfl⟩ | ⟨-, hheard⟩
    · exact h.mono (s.store.processTargetError_keeps change).2 (subset_append_left _ _)
    · obtain ⟨agg, agg', requests, hhandled, hraised, hsends⟩ := hheard.hears
      have hafter := h.handled (r := ⟨response.message, response.served,
        s.store.metadata remoteKeys⟩) hhandled
      cases event with
      | none =>
        rw [hraised] at hsends
        exact hafter.mono hsends.updates (List.Subset.refl _)
      | some event =>
        obtain ⟨version, hcreated⟩ := hraised
        obtain ⟨_, -, -, -, hagg'⟩ := createRemoteEvent_inv hcreated
        intro key hsome
        rw [hsends.updates, hagg'] at hsome
        cases hsome

end UpdatesReceived

/-! ## The flag over a session -/

theorem CurrentJustified.step (h : s.CurrentJustified) (hcounts : s.CountsUnanswered)
    (horder : s.InOrder) (hupdates : s.UpdatesReceived) (hstart : s.StartsOver e)
    (hok : s.step e = .ok (s', event)) :
    s'.CurrentJustified ∧ ∀ event' ∈ event, EventJustified s s' event' := by
  cases step_cases hok with
  | @listen data call =>
    refine ⟨?_, nofun⟩
    rcases s.store.sends_listen data with ⟨heq, -⟩ | hsends
    · rw [heq]
      exact h
    · exact h.sends hcounts hsends
  | stop call stopped => exact ⟨h.sends hcounts (sends_stopListening stopped), nofun⟩
  | served | sent | idle => exact ⟨h, nofun⟩
  | @received remoteKeys lastVersion response responses store event call next heard =>
    subst call
    rcases onWatchStreamChange_cases heard with
      ⟨change, herror, rfl, rfl⟩ | ⟨-, hheard⟩
    · refine ⟨h.error fun id => ?_, nofun⟩
      obtain ⟨hmessage, hremoved, -⟩ := targetError_eq_some.mp herror
      rw [hmessage]
      rintro ⟨hreset, -⟩
      cases hremoved.symm.trans hreset
    obtain ⟨agg, agg', requests, hhandled, hraised, hsends⟩ := hheard.hears
    have hjustified := h.handled (handled_of_handle hcounts horder next hhandled)
      fun id hlisten hunanswered hadded hanswers =>
        hstart response (by rw [next]; rfl) hadded id (hanswers ▸ mem_cons_self)
          hlisten hunanswered
    have hcounts' : (s.receiving response responses { s.store with watchChangeAggregator := agg' }
        (s.store.metadata remoteKeys)).CountsUnanswered :=
      hcounts.hears horder next (.intro agg agg' [] hhandled hraised (.refl _))
    cases event with
    | none =>
      subst hraised
      exact ⟨CurrentJustified.sends hjustified hcounts' hsends, nofun⟩
    | some event =>
      obtain ⟨version, hcreated⟩ := hraised
      constructor
      · exact CurrentJustified.sends (hjustified.raised hcreated) hcounts' hsends
      · rintro event' ⟨⟩
        exact hjustified.eventJustified (hupdates.handled hhandled) hhandled hcreated rfl

/-- A listen that is accepted is handled, and keeps the flag. -/
theorem handle_added (provider : TargetMetadataProvider)
    (hadded : change.state = .added) (hids : change.targetIds = [id])
    (agg : WatchChangeAggregator) : ∃ agg', agg.handle provider (.target change) = .ok agg' ∧
      (agg'.targetState id).current = (agg.targetState id).current := by
  obtain ⟨agg', hok⟩ : ∃ agg', agg.handle provider (.target change) = .ok agg' := by
    refine foldlM_ok (fun agg id _ => ?_) agg
    rw [changeTarget, hadded]
    exact ⟨_, rfl⟩
  refine ⟨agg', hok, ?_⟩
  have hchange := changeTarget_of_handle hok hids
  rw [targetState_changeTarget hchange, if_pos rfl, TargetState.afterChange,
    hadded]
  dsimp only
  rw [TargetState.current_updateResumeToken]
  split_ifs <;> rfl

/-- The flag is not justified after a listen has started in a state that has it. -/
theorem startsOver_of_currentJustified (hcounts : s.CountsUnanswered) (horder : s.InOrder)
    (h : ∀ s' event, s.step e = .ok (s', event) → s'.CurrentJustified) : s.StartsOver e := by
  cases e with
  | listen | stopListening | serve | reject | send => trivial
  | receive remoteKeys lastVersion =>
    intro response hhead hadded id hmem hlisten hunanswered
    obtain ⟨responses, hnext⟩ := head?_eq_some_iff.mp hhead
    obtain ⟨change, hmessage⟩ : ∃ change, response.message = .target change := by
      cases hmessage : response.message with
      | document | existenceFilter =>
        rw [hmessage] at hadded
        cases hadded
      | target change => exact ⟨change, rfl⟩
    have hstate : change.state = .added := by
      rw [hmessage] at hadded
      exact of_decide_eq_true hadded
    have hresponse : response.message.isResponse := by
      rw [hmessage]
      simp [WatchChange.isResponse, hstate]
    obtain ⟨hserved, hrequest⟩ := horder.next_response hnext
    rw [if_pos hresponse] at hserved
    obtain ⟨request, hget, hanswers⟩ := hrequest hresponse
    obtain rfl : id = request.targetId := by
      rw [hanswers] at hmem
      exact mem_singleton.mp hmem
    have hids : change.targetIds = [request.targetId] := by
      rw [← hanswers, hmessage, WatchChange.answeredTargets, if_pos (by simp [hstate])]
    obtain ⟨agg, hhandled, hcurrent⟩ := handle_added (s.store.metadata remoteKeys)
      hstate hids s.store.watchChangeAggregator
    rw [← hmessage] at hhandled
    have hok : s.step (.receive remoteKeys lastVersion) = .ok (s.receiving response responses
        { s.store with watchChangeAggregator := agg } (s.store.metadata remoteKeys), none) := by
      have hnone : targetError response.message = none := by
        refine Option.eq_none_iff_forall_ne_some.mpr fun change' herror => ?_
        obtain ⟨hmessage', hremoved, -⟩ := targetError_eq_some.mp herror
        obtain rfl : change = change' := WatchChange.target.inj (hmessage.symm.trans hmessage')
        cases hstate.symm.trans hremoved
      have hversion : response.snapshotVersion = .none := by
        rw [Response.snapshotVersion, hmessage, decodeVersion, hids]
        rfl
      simp only [WatchSession.step, hnext, onWatchStreamChange, hnone, hhandled,
        hversion, ok_bind]
      rfl
    by_contra hflag
    rw [Bool.not_eq_false] at hflag
    have hactive : (s.receiving response responses { s.store with watchChangeAggregator := agg }
        (s.store.metadata remoteKeys)).IsActive request.targetId := by
      refine ⟨hlisten, ?_⟩
      have hcount : (s.receiving response responses { s.store with watchChangeAggregator := agg }
          (s.store.metadata remoteKeys)).CountsUnanswered :=
        hcounts.hears horder hnext (show s.store.Hears remoteKeys response.message _ none from
          .intro agg agg [] hhandled rfl (.refl _))
      have hafter := horder.countP_unanswered hnext request.targetId
      rw [horder.sentFor_eq] at hunanswered
      rw [Nat.add_left_cancel hunanswered, hanswers, count_singleton_self] at hafter
      rw [hcount, acked_receiving]
      exact Int.natCast_eq_zero.mpr (Nat.add_eq_left.mp hafter.symm)
    -- Nothing that was received before can be of the new listen.
    obtain ⟨before, r, after, hreceived, hsays, hlast, -⟩ := h _ _ hok request.targetId
      hactive (hcurrent.trans hflag)
    have hr : r ∈ s.received := by
      have hmem : r ∈ s.received ++ [⟨response.message, response.served,
          s.store.metadata remoteKeys⟩] := by
        rw [show s.received ++ [_] = _ from hreceived]
        exact mem_append_right _ mem_cons_self
      rcases mem_append.mp hmem with hmem | hmem
      · exact hmem
      · rw [mem_singleton.mp hmem, hmessage] at hsays
        cases hstate.symm.trans hsays.1
    obtain ⟨request', hget', hwatch⟩ := horder.added (m := (response.message, response.served))
      (by simp [messages, hnext]) hadded
    obtain rfl : request' = request := by
      rw [show (response.message, response.served).2 - 1 = s.acked by simp [hserved], hget] at hget'
      exact (Option.some.inj hget').symm
    refine hlast request' ?_ hwatch rfl
    have hle := horder.served_le_acked hr
    rw [← Nat.add_sub_cancel' hle] at hget
    exact mem_of_getElem? ((getElem?_drop).trans hget)

/-- The flags are justified in every state and every event of a session, in which rejected listens
do no harm, if and only if no listen starts in a state that has the flag. -/
theorem current_iff_startsOver (events : List WatchEvent) :
    Along step (fun s e => s.RejectsCleanly e ∧ ∀ s' event, s.step e = .ok (s', event) →
        s'.CurrentJustified ∧ ∀ event' ∈ event, EventJustified s s' event') {} events ↔
      Along step (fun s e => s.RejectsCleanly e ∧ s.StartsOver e) {} events := by
  refine along_iff_along (fun s => s.InOrder ∧ s.CountsUnanswered ∧ s.UpdatesReceived ∧
    s.CurrentJustified) ?_ ?_ ⟨inOrder_empty, fun _ => rfl, nofun, nofun⟩ events
  · rintro s e ⟨horder, hcounts, hupdates, hcurrent⟩
    refine and_congr_right fun _ => ⟨fun hstep => ?_, fun hstart s' event hok => ?_⟩
    · exact startsOver_of_currentJustified hcounts horder fun s' event hok => (hstep s' event hok).1
    · exact hcurrent.step hcounts horder hupdates hstart hok
  · rintro s e s' event ⟨horder, hcounts, hupdates, hcurrent⟩ ⟨hclean, hstart⟩ hok
    exact ⟨horder.step hok, (hcounts.step_iff horder e).mpr hclean s' event hok,
      hupdates.step hok, (hcurrent.step hcounts horder hupdates hstart hok).1⟩

namespace QuickRelisten

def room : TargetData := .create ⟨[[114], [97]], none, [], [], 0, none, none⟩ 2 0 .listen

/-- A listen is current when it is stopped, and the server has accepted the second one. -/
def events : List WatchEvent :=
  [.listen room, .serve [] .none, Relisten.receiveNext,
    .send (.target ⟨.current, [2], [1], none⟩) .none, Relisten.receiveNext,
    .stopListening 2, .listen room, .serve [] .none, .serve [] .none,
    Relisten.receiveNext, Relisten.receiveNext,
    .send (.target ⟨.noChange, [], [2], none⟩) Relisten.version]

/-- The messages that are received, with the number of requests the server had answered. -/
def heard : List (WatchChange × Nat) :=
  [(.target ⟨.added, [2], [], none⟩, 1), (.target ⟨.current, [2], [1], none⟩, 1),
    (.target ⟨.removed, [2], [], none⟩, 2), (.target ⟨.added, [2], [], none⟩, 3),
    (.target ⟨.noChange, [], [2], none⟩, 3)]

end QuickRelisten

/-- What is heard of the target is from before its second listen. -/
theorem QuickRelisten.not_currentSince {received : List Received}
    (hreceived : received.map (fun r => (r.message, r.served)) = heard) :
    ¬CurrentSince [.watch room, .unwatch 2, .watch room] received 2 := by
  rintro ⟨before, r, after, rfl, hsays, hlast, -⟩
  have hmem : (r.message, r.served) ∈ heard := by
    rw [← hreceived]
    exact mem_map_of_mem (mem_append_right _ mem_cons_self)
  have hserved : r.served = 1 := by
    simp only [heard, mem_cons, Prod.mk.injEq, not_mem_nil, or_false] at hmem
    rcases hmem with ⟨hmessage, -⟩ | ⟨-, hserved⟩ | ⟨hmessage, -⟩ | ⟨hmessage, -⟩ | ⟨hmessage, -⟩
    case inr.inl => exact hserved
    all_goals
      rw [hmessage] at hsays
      cases hsays.1
  -- The second listen is the last of the requests that the server had not answered.
  refine hlast (.watch room) ?_ rfl rfl
  rw [hserved]
  exact mem_cons_of_mem _ mem_cons_self

/-- The second listen is reported as current, and its document as missing, although the server has
not said that the second listen is current. -/
theorem current_quick_relisten : ∃ s answers s' event change,
    runAll step {} QuickRelisten.events = .ok (s, answers) ∧
    s.step Relisten.receiveNext = .ok (s', some event) ∧
    event.targetChanges.get? 2 = some change ∧ change.current = true ∧
    event.documentUpdates.get? Relisten.roomA =
      some (.noDocument Relisten.roomA Relisten.version false) ∧
    ¬CurrentSince s.store.watchRequests s'.received 2 :=
  ⟨_, _, _, _, _, rfl, rfl, rfl, rfl, rfl, QuickRelisten.not_currentSince rfl⟩

end WatchSession

end Firebase.Firestore.Remote
