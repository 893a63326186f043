import Firebase.Firestore.Remote.RemoteEvents

/-!
# The keys of document updates

`LocalStore` takes for granted that each document of an event is filed under its own key.  Where the
messages of the stream have that form, so do the events.
-/

namespace Firebase.Firestore.Remote

open Lib Util Model Firestore.Core

/-- Every document of the event is filed under its key. -/
def RemoteEvent.Keyed (event : RemoteEvent) : Prop :=
  ∀ key doc, event.documentUpdates.get? key = some doc → doc.key = key

/-- The document of a message has the key that the message is about. -/
def WatchChange.Keyed : WatchChange → Prop
  | .document change => ∀ doc, change.newDocument = some doc → doc.key = change.documentKey
  | .existenceFilter _ | .target _ => True

variable {message : WatchChange} {key : DocumentKey}

namespace WatchChangeAggregator

variable {provider : TargetMetadataProvider} {agg agg' : WatchChangeAggregator}

def Keyed (agg : WatchChangeAggregator) : Prop :=
  ∀ key doc, agg.pendingDocumentUpdates.get? key = some doc → doc.key = key

namespace Keyed

theorem filedAs (h : agg.Keyed) : agg.FiledAs fun key doc => doc.key = key := h

/-- The messages of the stream keep the updates keyed. -/
theorem handle (h : agg.Keyed) (hmessage : message.Keyed)
    (hok : agg.handle provider message = .ok agg') : agg'.Keyed := by
  refine h.filedAs.filings (filings_handle hok) fun key doc hfiles => ?_
  cases message with
  | document change =>
    obtain ⟨hdoc, rfl | ⟨newDoc, rfl, rfl⟩⟩ := hfiles
    · exact hmessage doc hdoc
    · rfl
  | existenceFilter filter => exact hfiles.2.1
  | target change => exact hfiles.elim

/-- So do the documents that a snapshot makes up, and the event is keyed. -/
theorem createRemoteEvent {version : SnapshotVersion} {event : RemoteEvent} (h : agg.Keyed)
    (hok : agg.createRemoteEvent provider version = .ok (event, agg')) :
    event.Keyed ∧ agg'.Keyed := by
  obtain ⟨agg₁, hraise, hupdates, -, rfl⟩ := createRemoteEvent_inv hok
  refine ⟨?_, fun _ _ hget => nomatch hget⟩
  have hkeyed : agg₁.Keyed := by
    refine foldlM_invariant
      (fun raised : WatchChangeAggregator × OrdMap TargetId TargetChange => raised.1.Keyed)
      ?_ h hraise
    rintro ⟨agg₂, changes⟩ id - ⟨agg₃, changes'⟩ hbefore hround
    have hsynthesized : ∀ data,
        (synthesizeDelete provider version agg₂ id data).Keyed := by
      intro data
      rcases synthesizeDelete_cases provider agg₂ id version data with
        heq | ⟨key, -, heq⟩
      · rwa [heq]
      · rw [heq]
        refine hbefore.filedAs.removeDocumentFromTarget fun doc hdoc => ?_
        rw [← Option.some.inj hdoc]
        rfl
    cases raising_of_raiseTarget hround with
    | inactive => exact hbefore
    | quiet data synthesized =>
      rw [← synthesized]
      exact hsynthesized _
    | raised data synthesized =>
      obtain rfl := synthesized
      exact hsynthesized _
  rw [RemoteEvent.Keyed, hupdates]
  exact hkeyed

end Keyed

end WatchChangeAggregator

end Firebase.Firestore.Remote
