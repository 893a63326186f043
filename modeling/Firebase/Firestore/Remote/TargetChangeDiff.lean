import Firebase.Firestore.Remote.RemoteEvents

/-!
# Target changes as differences of key sets

Between two snapshots the changes of an active target are merged key by key.
`TargetState.Records` says what they amount to at any time: the difference between
the remote keys of the target and the keys that it has after the messages so far
(`keysAfter`).
-/

namespace Firebase.Firestore.Remote

open Lib Util Model Firestore.Core OrdMap TargetState Finset

/-! ## The keys in a target -/

/-- The keys in a target, after an update of a document that names the target. -/
def keysAfterUpdate (change : DocumentWatchChange) (keys : DocumentKeySet) : DocumentKeySet :=
  match change.newDocument with
  | some (.document newDoc) => insert newDoc.key keys
  | some (.noDocument _ _ _) => keys.erase change.documentKey
  | some (.unknownDocument _ _) | none => keys

/-- The keys in a target, after an existence filter for it.  The filter of a target with one
document says whether that exists, any other is met or empties the target. -/
def keysAfterFilter (target : Target) (filter : ExistenceFilterWatchChange)
    (keys : DocumentKeySet) : DocumentKeySet :=
  match target.documentKey with
  | some key => if filter.count = 0 then keys.erase key else keys
  | none => if keys.card = filter.count then keys else ∅

def keysAfter (target : Target) (id : TargetId) (keys : DocumentKeySet) :
    WatchChange → DocumentKeySet
  | .document change =>
    let keys := if id ∈ change.updatedTargetIds then keysAfterUpdate change keys else keys
    if id ∈ change.removedTargetIds then keys.erase change.documentKey else keys
  | .existenceFilter filter =>
    if filter.targetId = id then keysAfterFilter target filter keys else keys
  | .target change =>
    if change.state = .reset ∧ change.mentions id ≠ 0 then ∅ else keys

/-- A target change is the difference between two key sets. -/
structure TargetChange.IsDiff (change : TargetChange) (before after : DocumentKeySet) : Prop where
  added_disjoint : Disjoint change.addedDocuments before
  modified_subset : change.modifiedDocuments ⊆ before
  removed_subset : change.removedDocuments ⊆ before
  added_modified : Disjoint change.addedDocuments change.modifiedDocuments
  added_removed : Disjoint change.addedDocuments change.removedDocuments
  modified_removed : Disjoint change.modifiedDocuments change.removedDocuments
  result : before \ change.removedDocuments ∪ change.addedDocuments = after

namespace TargetState

variable {state : TargetState} {remoteKeys keys : DocumentKeySet} {key : DocumentKey}

/-! ## What the changes of a target record -/

/-- The document changes are the difference between the remote keys and the keys by now. -/
def Records (state : TargetState) (remoteKeys keys : DocumentKeySet) : Prop :=
  ∀ key, match state.documentChanges.get? key with
    | some .added => key ∉ remoteKeys ∧ key ∈ keys
    | some .modified => key ∈ remoteKeys ∧ key ∈ keys
    | some .removed => key ∈ remoteKeys ∧ key ∉ keys
    | some .metadata => False
    | none => key ∈ keys ↔ key ∈ remoteKeys

theorem records_of_empty (h : state.documentChanges = .empty) :
    state.Records remoteKeys remoteKeys := by
  intro key
  rw [h, get?_empty]

namespace Records

section

variable (h : state.Records remoteKeys keys)

include h

theorem congr {state' : TargetState}
    (heq : state'.documentChanges = state.documentChanges) : state'.Records remoteKeys keys := by
  unfold Records
  rw [heq]
  exact h

theorem addDocument (key : DocumentKey) :
    (state.addDocument remoteKeys key).Records remoteKeys (insert key keys) := by
  intro key'
  have hbefore := h key'
  simp only [TargetState.addDocument, addDocumentChange, get?_insert]
  by_cases hkey : key' = key
  · subst hkey
    rw [if_pos rfl]
    by_cases hremote : key' ∈ remoteKeys
    · rw [if_pos hremote]
      exact ⟨hremote, mem_insert_self _ _⟩
    · rw [if_neg hremote]
      exact ⟨hremote, mem_insert_self _ _⟩
  · rw [if_neg hkey]
    simpa only [mem_insert, hkey, false_or] using hbefore

theorem removeDocument (key : DocumentKey) :
    (state.removeDocument remoteKeys key).Records remoteKeys (keys.erase key) := by
  intro key'
  have hbefore := h key'
  unfold TargetState.removeDocument
  by_cases hkey : key' = key
  · subst hkey
    by_cases hremote : key' ∈ remoteKeys
    · rw [if_pos hremote, addDocumentChange, get?_insert, if_pos rfl]
      exact ⟨hremote, notMem_erase _ _⟩
    · rw [if_neg hremote, removeDocumentChange, get?_erase, if_pos rfl]
      exact iff_of_false (notMem_erase _ _) hremote
  · have hget : (if key ∈ remoteKeys then state.addDocumentChange key .removed
        else state.removeDocumentChange key).documentChanges.get? key' =
          state.documentChanges.get? key' := by
      split_ifs
      · rw [addDocumentChange, get?_insert, if_neg hkey]
      · rw [removeDocumentChange, get?_erase, if_neg hkey]
    rw [hget]
    simpa only [mem_erase, ne_eq, hkey, not_false_eq_true, true_and] using hbefore

theorem foldl_removeDocument (removed : List DocumentKey) :
    (removed.foldl (TargetState.removeDocument remoteKeys) state).Records remoteKeys
      (keys \ removed.toFinset) := by
  induction removed generalizing state keys with
  | nil => simpa using h
  | cons key removed ih =>
    have hkeys : keys \ (key :: removed).toFinset = keys.erase key \ removed.toFinset := by
      rw [List.toFinset_cons, sdiff_insert, erase_sdiff_comm]
    rw [hkeys]
    exact ih (h.removeDocument key)

end

/-- A reset empties the target. -/
theorem afterReset (remoteKeys : DocumentKeySet) :
    (TargetState.afterReset remoteKeys).Records remoteKeys ∅ := by
  have hempty : Records {} remoteKeys remoteKeys := records_of_empty rfl
  have hreset := hempty.foldl_removeDocument remoteKeys.sort
  rwa [sort_toFinset, sdiff_self] at hreset

/-- What can be done any number of times, without a difference to the keys. -/
theorem iterate {f : TargetState → TargetState} {g : DocumentKeySet → DocumentKeySet}
    (hf : ∀ {state keys}, Records state remoteKeys keys → Records (f state) remoteKeys (g keys))
    (hg : ∀ keys, g (g keys) = g keys) (h : state.Records remoteKeys keys) (n : Nat) :
    (f^[n] state).Records remoteKeys (if n = 0 then keys else g keys) := by
  induction n with
  | zero => exact h
  | succ n ih =>
    rw [Function.iterate_succ_apply']
    have hnext := hf ih
    split_ifs at hnext
    · exact hnext
    · rwa [hg] at hnext

theorem update (h : state.Records remoteKeys keys) (change : DocumentWatchChange) :
    (state.update remoteKeys change).Records remoteKeys (keysAfterUpdate change keys) := by
  unfold TargetState.update keysAfterUpdate
  cases change.newDocument with
  | none => exact h
  | some doc =>
    cases doc with
    | document newDoc => exact h.addDocument newDoc.key
    | noDocument key version hasCommittedMutations => exact h.removeDocument change.documentKey
    | unknownDocument key version => exact h

end Records

theorem keysAfterUpdate_idem (change : DocumentWatchChange) (keys : DocumentKeySet) :
    keysAfterUpdate change (keysAfterUpdate change keys) = keysAfterUpdate change keys := by
  unfold keysAfterUpdate
  cases change.newDocument with
  | none => rfl
  | some doc =>
    cases doc with
    | document newDoc => exact insert_idem _ _
    | noDocument key version hasCommittedMutations => exact erase_idem
    | unknownDocument key version => rfl

/-! ## The number of documents -/

namespace Records

variable (h : state.Records remoteKeys keys)
include h

theorem noMetadata : state.NoMetadata := by
  intro key hget
  have hkey := h key
  rw [hget] at hkey
  exact hkey

theorem mem_added : key ∈ state.changedKeys .added ↔ key ∉ remoteKeys ∧ key ∈ keys := by
  rw [mem_changedKeys]
  have hkey := h key
  rcases hget : state.documentChanges.get? key with - | (- | - | - | -) <;> rw [hget] at hkey <;>
    dsimp only at hkey <;> grind

theorem mem_removed : key ∈ state.changedKeys .removed ↔ key ∈ remoteKeys ∧ key ∉ keys := by
  rw [mem_changedKeys]
  have hkey := h key
  rcases hget : state.documentChanges.get? key with - | (- | - | - | -) <;> rw [hget] at hkey <;>
    dsimp only at hkey <;> grind

theorem mem_modified (hmem : key ∈ state.changedKeys .modified) :
    key ∈ remoteKeys ∧ key ∈ keys := by
  have hkey := h key
  rwa [mem_changedKeys.mp hmem] at hkey

theorem added_eq : state.changedKeys .added = keys \ remoteKeys := by
  ext key
  rw [h.mem_added, mem_sdiff, and_comm]

theorem removed_eq : state.changedKeys .removed = remoteKeys \ keys := by
  ext key
  rw [h.mem_removed, mem_sdiff]

/-- The count that an existence filter is compared with is the number of keys. -/
theorem documentCount_eq : state.documentCount remoteKeys = keys.card := by
  have hcard := card_sdiff_add_card keys remoteKeys
  have hcard' := card_sdiff_add_card remoteKeys keys
  rw [union_comm] at hcard'
  rw [documentCount, h.added_eq, h.removed_eq]
  omega

theorem isDiff (token : Bytes) (current : Bool) :
    TargetChange.IsDiff ⟨token, current, state.changedKeys .added, state.changedKeys .modified,
      state.changedKeys .removed⟩ remoteKeys keys where
  added_disjoint := h.added_eq ▸ sdiff_disjoint
  modified_subset _ hmem := (h.mem_modified hmem).1
  removed_subset := h.removed_eq ▸ sdiff_subset
  added_modified := disjoint_left.mpr fun _ hadded hmodified =>
    (h.mem_added.mp hadded).1 (h.mem_modified hmodified).1
  added_removed := disjoint_left.mpr fun _ hadded hremoved =>
    (h.mem_added.mp hadded).1 (h.mem_removed.mp hremoved).1
  modified_removed := disjoint_left.mpr fun _ hmodified hremoved =>
    (h.mem_removed.mp hremoved).2 (h.mem_modified hmodified).2
  result := by
    ext key
    simp only [mem_union, mem_sdiff, h.removed_eq, h.added_eq]
    tauto

theorem hearDocument (id : TargetId) (change : DocumentWatchChange) :
    (state.hearDocument remoteKeys id change).Records remoteKeys
      (let keys := if id ∈ change.updatedTargetIds then keysAfterUpdate change keys else keys
        if id ∈ change.removedTargetIds then keys.erase change.documentKey else keys) := by
  have hupdated := iterate (fun h => update h change) (keysAfterUpdate_idem change) h
    (change.updatedTargetIds.count id)
  have hremoved := iterate (f := (TargetState.removeDocument remoteKeys · change.documentKey))
    (fun h => removeDocument h change.documentKey) (fun _ => erase_idem) hupdated
    (change.removedTargetIds.count id)
  simp only [List.count_eq_zero, ite_not] at hremoved
  exact hremoved

theorem hearFilter (target : Target) (filter : ExistenceFilterWatchChange) :
    (state.hearFilter remoteKeys target filter).Records remoteKeys
      (keysAfterFilter target filter keys) := by
  unfold TargetState.hearFilter keysAfterFilter
  cases target.documentKey with
  | some key =>
    dsimp only
    split_ifs
    · exact h.removeDocument key
    · exact h
  | none =>
    dsimp only
    rw [h.documentCount_eq]
    split_ifs
    · exact h
    · exact afterReset remoteKeys

theorem hearTargetChange (change : WatchTargetChange) :
    (state.hearTargetChange remoteKeys change).Records remoteKeys
      (if change.state = .reset then ∅ else keys) := by
  have htoken : ∀ {state keys}, Records state remoteKeys keys →
      (state.updateResumeToken change.resumeToken).Records remoteKeys keys := by
    intro state keys h
    refine h.congr ?_
    unfold updateResumeToken
    split_ifs <;> rfl
  unfold TargetState.hearTargetChange
  cases change.state with
  | noChange => exact htoken h
  | current => exact htoken (h.congr rfl)
  | reset => exact htoken (afterReset remoteKeys)
  | added | removed => exact h

/-- Messages act on what is recorded as they act on the keys. -/
theorem hear (target : Target) (id : TargetId) (message : WatchChange) :
    (state.hear remoteKeys target id message).Records remoteKeys
      (keysAfter target id keys message) := by
  cases message with
  | document change => exact h.hearDocument id change
  | existenceFilter filter =>
    simp only [TargetState.hear, keysAfter]
    split_ifs
    · exact h.hearFilter target filter
    · exact h
  | target change =>
    have hchanged := iterate (fun h => hearTargetChange h change)
      (fun keys => by split_ifs <;> rfl) h (change.mentions id)
    simp only [TargetState.hear, keysAfter]
    by_cases hmentions : change.mentions id = 0
    · simpa only [hmentions, if_true, ne_eq, not_true_eq_false, and_false, if_false] using hchanged
    · simpa only [hmentions, if_false, ne_eq, not_false_eq_true, and_true] using hchanged

end Records

end TargetState

/-! ## What can go wrong -/

variable {message : WatchChange}

namespace WatchChangeAggregator

variable {provider : TargetMetadataProvider} {agg agg' : WatchChangeAggregator}
  {id : TargetId} {e : HardFail}

theorem collectChange_error {changes : List (DocumentKey × ChangeType)} {acc : TargetChange}
    (h : changes.foldlM collectChange acc = .error e) :
    e = ⟨"Encountered invalid change type"⟩ := by
  induction changes generalizing acc with
  | nil => cases h
  | cons entry changes ih =>
    rcases bind_eq_error.mp h with hentry | ⟨acc', -, hrest⟩
    · unfold collectChange at hentry
      split at hentry
      · cases hentry
      · cases hentry
      · cases hentry
      · exact (Except.error.inj hentry).symm
    · exact ih hrest

/-- Only active targets are reset. -/
theorem resetTarget_ok (hactive : agg.isActiveTarget provider id) :
    ∃ agg', (agg.ensureTargetState id).resetTarget provider id = .ok agg' := by
  refine ⟨_, resetTarget_eq ?_ ?_⟩
  · simp [ensureTargetState, modifyTargetState, get?_insert]
  · rw [targetState_ensureTargetState]
    exact (isActiveTarget_iff.mp hactive).1

theorem changeTarget_error {change : WatchTargetChange}
    (h : changeTarget provider change agg id = .error e) :
    e = ⟨"WatchChangeAggregator does not handle errored targets"⟩ := by
  unfold changeTarget at h
  dsimp only at h
  cases hstate : change.state with
  | noChange | current =>
    rw [hstate] at h
    split_ifs at h
  | added =>
    rw [hstate] at h
    cases h
  | removed =>
    rw [hstate] at h
    rcases bind_eq_error.mp h with hassert | ⟨u, -, h⟩
    · exact hardAssert_eq_error hassert
    · cases h
  | reset =>
    rw [hstate] at h
    dsimp only at h
    split_ifs at h with hactive
    rw [isActiveTarget_ensureTargetState] at hactive
    obtain ⟨agg₁, hreset⟩ := resetTarget_ok hactive
    rw [hreset] at h
    cases h

theorem handleExistenceFilter_error {filter : ExistenceFilterWatchChange}
    (h : agg.handleExistenceFilter provider filter = .error e) :
    e = ⟨"Single document existence filter with count"⟩ ∨
      e = ⟨"Encountered invalid change type"⟩ := by
  unfold handleExistenceFilter at h
  split at h
  · cases h
  next data hdata =>
    split at h
    · split_ifs at h
      rcases bind_eq_error.mp h with hassert | ⟨u, -, h⟩
      · exact .inl (hardAssert_eq_error hassert)
      · cases h
    · rcases bind_eq_error.mp h with hcount | ⟨count, -, h⟩
      · rcases bind_eq_error.mp hcount with hchange | ⟨change, -, h⟩
        · exact .inr (collectChange_error hchange)
        · cases h
      · have hactive : agg.isActiveTarget provider filter.targetId := by
          rw [isActiveTarget, hdata]
          rfl
        obtain ⟨agg₁, hreset⟩ := resetTarget_ok hactive
        rw [hreset] at h
        split_ifs at h
        · cases h
        · cases h

/-- The assertions that a message can make fail. -/
theorem handle_error (h : agg.handle provider message = .error e) :
    e = ⟨"WatchChangeAggregator does not handle errored targets"⟩ ∨
      e = ⟨"Single document existence filter with count"⟩ ∨
      e = ⟨"Encountered invalid change type"⟩ := by
  cases message with
  | document change => cases h
  | existenceFilter filter => exact .inr (handleExistenceFilter_error h)
  | target change =>
    left
    simp only [handle, handleTargetChange] at h
    generalize agg.getTargetIds provider change = ids at h
    induction ids generalizing agg with
    | nil => cases h
    | cons first rest ih =>
      rcases bind_eq_error.mp h with hfirst | ⟨agg₁, -, hrest⟩
      · exact changeTarget_error hfirst
      · exact ih hrest

theorem noMetadata_handle_all {messages : List WatchChange}
    (hok : messages.foldlM (handle provider) agg = .ok agg')
    (h : (agg.targetState id).NoMetadata) : (agg'.targetState id).NoMetadata := by
  induction messages generalizing agg with
  | nil =>
    cases hok
    exact h
  | cons message messages ih =>
    obtain ⟨agg₁, hfirst, hrest⟩ := foldlM_cons_eq_ok.mp hok
    exact ih hrest (noMetadata_moves (moves_handle hfirst) h)

/-! ## The changes between two snapshots -/

section Between

variable {data : TargetData} {keys : DocumentKeySet}

/-- The target is active, and its changes lead from its remote keys to `keys`. -/
structure Tracks (provider : TargetMetadataProvider) (agg : WatchChangeAggregator)
    (id : TargetId) (keys : DocumentKeySet) : Prop where
  active : agg.isActiveTarget provider id
  records : (agg.targetState id).Records (provider.getRemoteKeysForTarget id) keys
  sound : Sound agg id

section

variable (h : Tracks provider agg id keys)

include h

theorem Tracks.handle (hdata : provider.getTargetDataForTarget id = some data)
    (hok : agg.handle provider message = .ok agg') (hsteady : message.Steady id)
    (hknown : (agg.targetStates.get? id).isSome ∨ message.NamesTargets) :
    Tracks provider agg' id (keysAfter data.target id keys message) where
  active := (isActiveTarget_handle hok hsteady).trans h.active
  records := by
    rw [targetState_handle_of_active hok hsteady h.active hdata hknown]
    exact h.records.hear data.target id message
  sound := h.sound.moves (moves_handle hok)

theorem Tracks.handle_all {messages : List WatchChange}
    (hdata : provider.getTargetDataForTarget id = some data)
    (hok : messages.foldlM (WatchChangeAggregator.handle provider) agg = .ok agg')
    (hsteady : ∀ message ∈ messages, message.Steady id)
    (hknown : (agg.targetStates.get? id).isSome ∨
      ∀ message ∈ messages, message.NamesTargets) :
    Tracks provider agg' id (messages.foldl (keysAfter data.target id) keys) := by
  induction messages generalizing agg keys with
  | nil =>
    cases hok
    exact h
  | cons message messages ih =>
    obtain ⟨agg₁, hfirst, hrest⟩ := foldlM_cons_eq_ok.mp hok
    obtain ⟨hmessage, hsteady⟩ := List.forall_mem_cons.mp hsteady
    refine ih (h.handle hdata hfirst hmessage ?_) hrest hsteady ?_
    · exact hknown.imp_right fun hnames => hnames message List.mem_cons_self
    · refine hknown.imp (fun hsome => ?_) fun hnames => (List.forall_mem_cons.mp hnames).2
      exact isSome_get?_moves (moves_handle hfirst) hsome (not_not.mpr hmessage)

/-- The delete that is made up for a document is no change to the keys. -/
theorem Tracks.records_synthesizeDelete (snapshotVersion : SnapshotVersion) (data : TargetData) :
    ((synthesizeDelete provider snapshotVersion agg id data).targetState
      id).Records (provider.getRemoteKeysForTarget id) keys := by
  rcases synthesizeDelete_cases provider agg id snapshotVersion data with
    heq | ⟨key, ⟨-, -, hupdate, hremote⟩, heq⟩
  · rw [heq]
    exact h.records
  · have hkey : key ∉ keys := by
      intro hmem
      have hadded := mem_changedKeys.mp (h.records.mem_added.mpr ⟨hremote, hmem⟩)
      have hsome := h.sound.backed hadded
      rw [hupdate] at hsome
      cases hsome
    rw [heq, targetState_removeDocumentFromTarget, if_pos ⟨rfl, h.active⟩]
    have hremoved := h.records.removeDocument key
    rwa [erase_eq_of_notMem hkey] at hremoved

/-- The change that an event has for a target is the difference that was tracked, and without a
change there was no difference. -/
theorem Tracks.createRemoteEvent {snapshotVersion : SnapshotVersion} {event : RemoteEvent}
    (hok : agg.createRemoteEvent provider snapshotVersion = .ok (event, agg')) :
    match event.targetChanges.get? id with
    | some change => change.IsDiff (provider.getRemoteKeysForTarget id) keys
    | none => keys = provider.getRemoteKeysForTarget id := by
  -- Without pending changes there are no document changes.
  have hsame : ∀ {agg₁ : WatchChangeAggregator}, (∀ key,
      (agg₁.targetState id).documentChanges.get? key = none) →
      (agg₁.targetState id).Records (provider.getRemoteKeysForTarget id) keys →
      keys = provider.getRemoteKeysForTarget id := by
    intro agg₁ hnone hrecords
    ext key
    have hkey := hrecords key
    rwa [hnone key] at hkey
  rcases hstate : agg.targetStates.get? id with - | state
  · rw [(createRemoteEvent_of_unknown hok hstate).2]
    refine hsame (fun key => ?_) h.records
    rw [targetState, hstate]
    rfl
  · obtain ⟨agg₁, changes₁, agg₂, changes₂, hmoves, hstate₁, hchanges₁, hraising, -, hevent⟩ :=
      createRemoteEvent_of_known hok (Option.isSome_iff_exists.mpr ⟨_, hstate⟩)
    have htracks : Tracks provider agg₁ id keys := by
      refine ⟨?_, hstate₁ ▸ h.records, h.sound.moves hmoves⟩
      rw [isActiveTarget_iff]
      exact (Active.congr (congrArg _ hstate₁)).mpr (isActiveTarget_iff.mp h.active)
    have hrecords := htracks.records_synthesizeDelete snapshotVersion
    rw [hevent]
    cases hraising with
    | inactive hdata =>
      have hactive := htracks.active
      rw [isActiveTarget, hdata] at hactive
      cases hactive
    | @quiet data _ hdata synthesized hpending =>
      subst synthesized
      rw [hchanges₁]
      refine hsame (fun key => ?_) (hrecords data)
      have hsound := htracks.sound.moves
        (moves_synthesizeDelete provider agg₁ id snapshotVersion data ∅)
      by_contra hchanged
      rw [hsound.pending hchanged] at hpending
      cases hpending
    | @raised data _ change hdata synthesized hpending hcollected =>
      subst synthesized
      rw [get?_insert, if_pos rfl]
      rw [(hrecords data).noMetadata.toTargetChange_eq] at hcollected
      cases hcollected
      exact (hrecords data).isDiff _ _

end

end Between

/-- Over any messages between two snapshots, the changes of an active target are the difference
between its remote keys and the keys after the messages.  `ResetTarget` finds its target active,
and an existence filter is compared with the number of keys. -/
theorem targetChange_isDiff (provider : TargetMetadataProvider) (agg : WatchChangeAggregator)
    (id : TargetId) (data : TargetData)
    (hactive : agg.targetDataForActiveTarget provider id = some data)
    (hsnapshot : (agg.targetState id).documentChanges = .empty)
    (hmeta : ∀ other, (agg.targetState other).NoMetadata) (messages : List WatchChange)
    (hsteady : ∀ message ∈ messages, message.Steady id)
    (hknown : (agg.targetStates.get? id).isSome ∨
      ∀ message ∈ messages, message.NamesTargets) :
    (∀ e, messages.foldlM (handle provider) agg = .error e →
      e.message ≠ "Should only reset active targets") ∧
    ∀ agg', messages.foldlM (handle provider) agg = .ok agg' →
      let remoteKeys := provider.getRemoteKeysForTarget id
      let keys := messages.foldl (keysAfter data.target id) remoteKeys
      agg'.getCurrentDocumentCountForTarget provider id = .ok keys.card ∧
      ∀ snapshotVersion, ∃ event agg'',
        agg'.createRemoteEvent provider snapshotVersion = .ok (event, agg'') ∧
        match event.targetChanges.get? id with
        | some change => change.IsDiff remoteKeys keys
        | none => keys = remoteKeys := by
  constructor
  · intro e herror
    clear hactive hsnapshot hmeta hsteady hknown
    induction messages generalizing agg with
    | nil => cases herror
    | cons message messages ih =>
      rcases bind_eq_error.mp herror with hfirst | ⟨agg₁, -, hrest⟩
      · rcases handle_error hfirst with rfl | rfl | rfl <;> decide
      · exact ih agg₁ hrest
  · intro agg' hok remoteKeys keys
    have hisActive : agg.isActiveTarget provider id := by
      rw [isActiveTarget, hactive]
      rfl
    have hdata : provider.getTargetDataForTarget id = some data := by
      rw [← (isActiveTarget_iff.mp hisActive).targetDataForActiveTarget, hactive]
    have hstart : Tracks provider agg id remoteKeys :=
      ⟨hisActive, records_of_empty hsnapshot, .of_empty hsnapshot⟩
    have htracks := hstart.handle_all hdata hok hsteady hknown
    refine ⟨?_, fun snapshotVersion => ?_⟩
    · rw [getCurrentDocumentCountForTarget_eq htracks.records.noMetadata,
        htracks.records.documentCount_eq]
    · obtain ⟨event, agg'', hevent⟩ := createRemoteEvent_ok provider
        (fun other => noMetadata_handle_all hok (hmeta other)) snapshotVersion
      exact ⟨event, agg'', hevent, htracks.createRemoteEvent hevent⟩

namespace Rooms

def roomA : DocumentKey := .inCollection [114] [97]
def roomB : DocumentKey := .inCollection [114] [98]

def target : Target := ⟨[[114]], none, [], [], 0, none, none⟩

def metadata : TargetMetadataProvider where
  getRemoteKeysForTarget _ := {roomA}
  getTargetDataForTarget _ := some (.create target 2 0 .listen)

/-- The second document enters the target, and the count of the next filter is right. -/
def messages : List WatchChange :=
  [.document ⟨[2], [], roomB, some (.document ⟨[], roomB, .none, .synced⟩)⟩,
    .existenceFilter ⟨2, 2⟩]

end Rooms

theorem targetChange_isDiff_rooms :
    ∃ agg', Rooms.messages.foldlM (handle Rooms.metadata) {} = .ok agg' ∧
      agg'.getCurrentDocumentCountForTarget Rooms.metadata 2 = .ok 2 ∧
      ∃ event agg'', agg'.createRemoteEvent Rooms.metadata .none = .ok (event, agg'') ∧
        match event.targetChanges.get? 2 with
        | some change => change.IsDiff {Rooms.roomA} {Rooms.roomB, Rooms.roomA}
        | none => False := by
  have hmeta : ∀ other, (targetState {} other).NoMetadata := fun _ _ => nofun
  have h := (targetChange_isDiff Rooms.metadata {} 2 (.create Rooms.target 2 0 .listen) rfl rfl
    hmeta
    Rooms.messages (by simp [Rooms.messages, WatchChange.Steady])
    (.inr (by simp [Rooms.messages, WatchChange.NamesTargets]))).2 _ rfl
  obtain ⟨event, agg'', hevent, hchange⟩ := h.2 .none
  refine ⟨_, rfl, h.1, event, agg'', hevent, ?_⟩
  split
  · next change hget =>
    rw [hget] at hchange
    exact hchange
  · next hget =>
    rw [hget] at hchange
    exact absurd hchange (by decide)

end WatchChangeAggregator

end Firebase.Firestore.Remote
