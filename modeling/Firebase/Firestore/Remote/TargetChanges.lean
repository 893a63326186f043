import Firebase.Firestore.Remote.WatchChangeAggregator

/-!
# What the aggregator hears about one target

Messages of the watch stream name many targets, but what the aggregator does about one
target depends on the state of that target only.  `TargetState.hear` is the effect of a
message on the state of an active target; `targetState_handle_of_active` and
`targetState_handle_of_inactive` say that this is what the aggregator does.
-/

namespace Firebase.Firestore.Remote

open Lib Util Model Firestore.Core OrdMap List TargetState

/-! ## One target -/

/-- How often a target change is about a target.  Without ids, it is about all active targets. -/
def WatchTargetChange.mentions (change : WatchTargetChange) (id : TargetId) : Nat :=
  if change.targetIds.isEmpty then 1 else change.targetIds.count id

variable {type : ChangeType} {key : DocumentKey}

namespace TargetState

def keysWith (changes : List (DocumentKey × ChangeType)) (type : ChangeType) : DocumentKeySet :=
  ((changes.filter fun entry => entry.2 = type).map Prod.fst).toFinset

def changedKeys (state : TargetState) (type : ChangeType) : DocumentKeySet :=
  keysWith state.documentChanges.entries type

variable (remoteKeys : DocumentKeySet)

def addDocument (state : TargetState) (key : DocumentKey) : TargetState :=
  state.addDocumentChange key (if key ∈ remoteKeys then .modified else .added)

def removeDocument (state : TargetState) (key : DocumentKey) : TargetState :=
  if key ∈ remoteKeys then state.addDocumentChange key .removed
  else state.removeDocumentChange key

def afterReset : TargetState :=
  remoteKeys.sort.foldl (removeDocument remoteKeys) {}

def update (change : DocumentWatchChange) (state : TargetState) : TargetState :=
  match change.newDocument with
  | some (.document newDoc) => state.addDocument remoteKeys newDoc.key
  | some (.noDocument _ _ _) => state.removeDocument remoteKeys change.documentKey
  | some (.unknownDocument _ _) | none => state

def documentCount (state : TargetState) : Int :=
  remoteKeys.card + (state.changedKeys .added).card - (state.changedKeys .removed).card

def hearTargetChange (change : WatchTargetChange) (state : TargetState) : TargetState :=
  match change.state with
  | .noChange => state.updateResumeToken change.resumeToken
  | .current => state.markCurrent.updateResumeToken change.resumeToken
  | .reset => (afterReset remoteKeys).updateResumeToken change.resumeToken
  | .added | .removed => state

def afterChange (active : Bool) (change : WatchTargetChange) (state : TargetState) : TargetState :=
  match change.state with
  | .added =>
    (let state := state.recordTargetResponse
      if state.isPending then state else state.clearPendingChanges).updateResumeToken
        change.resumeToken
  | .removed =>
    if state.recordTargetResponse.isPending then state.recordTargetResponse else {}
  | .noChange | .current | .reset =>
    if active then state.hearTargetChange remoteKeys change else state

def hearFilter (target : Target)
    (filter : ExistenceFilterWatchChange) (state : TargetState) : TargetState :=
  match target.documentKey with
  | some key => if filter.count = 0 then state.removeDocument remoteKeys key else state
  | none =>
    if state.documentCount remoteKeys = filter.count then state else afterReset remoteKeys

def hearDocument (id : TargetId) (change : DocumentWatchChange)
    (state : TargetState) : TargetState :=
  (removeDocument remoteKeys · change.documentKey)^[change.removedTargetIds.count id]
    ((update remoteKeys change)^[change.updatedTargetIds.count id] state)

def hear (target : Target) (id : TargetId) (state : TargetState) : WatchChange → TargetState
  | .document change => state.hearDocument remoteKeys id change
  | .existenceFilter filter =>
    if filter.targetId = id then state.hearFilter remoteKeys target filter else state
  | .target change => (hearTargetChange remoteKeys change)^[change.mentions id] state

/-! ### Target changes -/

theorem mem_keysWith {changes : OrdMap DocumentKey ChangeType} :
    key ∈ keysWith changes.entries type ↔ changes.get? key = some type := by
  simp only [keysWith, mem_toFinset, mem_map, mem_filter, decide_eq_true_eq]
  constructor
  · rintro ⟨⟨_, _⟩, ⟨hentry, rfl⟩, rfl⟩
    exact mem_entries.mp hentry
  · exact fun hget => ⟨(key, type), ⟨mem_entries.mpr hget, rfl⟩, rfl⟩

variable {state : TargetState}

theorem mem_changedKeys :
    key ∈ state.changedKeys type ↔ state.documentChanges.get? key = some type :=
  mem_keysWith

variable {changes : List (DocumentKey × ChangeType)}

theorem foldlM_collectChange (h : ∀ entry ∈ changes, entry.2 ≠ .metadata) (acc : TargetChange) :
    changes.foldlM collectChange acc = .ok ⟨acc.resumeToken, acc.current,
      acc.addedDocuments ∪ keysWith changes .added,
      acc.modifiedDocuments ∪ keysWith changes .modified,
      acc.removedDocuments ∪ keysWith changes .removed⟩ := by
  induction changes generalizing acc with
  | nil => simp [keysWith, pure, Except.pure]
  | cons entry changes ih =>
    obtain ⟨key, type⟩ := entry
    have hrest := ih fun e he => h e (mem_cons_of_mem _ he)
    have hone : ∀ {type' : ChangeType}, keysWith ((key, type) :: changes) type' =
        if type = type' then insert key (keysWith changes type') else keysWith changes type' := by
      intro type'
      by_cases htype : type = type' <;> simp [keysWith, htype]
    cases type with
    | added => simp [collectChange, hrest, hone]
    | modified => simp [collectChange, hrest, hone]
    | removed => simp [collectChange, hrest, hone]
    | metadata => exact absurd rfl (h _ mem_cons_self)

/-- The aggregator only makes changes of the other types. -/
def NoMetadata (state : TargetState) : Prop :=
  ∀ key, state.documentChanges.get? key ≠ some .metadata

theorem NoMetadata.toTargetChange_eq (h : state.NoMetadata) :
    state.toTargetChange = .ok ⟨state.resumeToken, state.current, state.changedKeys .added,
      state.changedKeys .modified, state.changedKeys .removed⟩ := by
  rw [toTargetChange, foldlM_collectChange]
  · simp [changedKeys]
  · rintro ⟨key, type⟩ hentry rfl
    exact h key (mem_entries.mp hentry)

theorem noMetadata_of_collectChange
    {acc change : TargetChange} (h : changes.foldlM collectChange acc = .ok change) :
    ∀ entry ∈ changes, entry.2 ≠ .metadata := by
  induction changes generalizing acc with
  | nil => exact nofun
  | cons entry changes ih =>
    obtain ⟨acc₁, hentry, hrest⟩ := foldlM_cons_eq_ok.mp h
    refine forall_mem_cons.mpr ⟨fun htype => ?_, ih hrest⟩
    rw [collectChange, htype] at hentry
    cases hentry

theorem noMetadata_of_toTargetChange {change : TargetChange}
    (h : state.toTargetChange = .ok change) : state.NoMetadata :=
  fun _ hget => noMetadata_of_collectChange h _ (mem_entries.mpr hget) rfl

end TargetState

/-! ## The aggregator, target by target -/

variable {ids : List TargetId} {data : TargetData}

namespace WatchChangeAggregator

variable {provider : TargetMetadataProvider} {agg agg' : WatchChangeAggregator}
  {id other : TargetId}

theorem targetState_modifyTargetState_eq (f : TargetState → TargetState) :
    (agg.modifyTargetState id f).targetState other =
      if other = id then f (agg.targetState other) else agg.targetState other := by
  by_cases h : other = id <;>
    simp [targetState, modifyTargetState, get?_insert, h]

@[simp] theorem targetState_modifyTargetState (f : TargetState → TargetState) :
    (agg.modifyTargetState id f).targetState id = f (agg.targetState id) :=
  (targetState_modifyTargetState_eq f).trans (if_pos rfl)

theorem targetState_modifyTargetState_of_ne (h : other ≠ id) (f : TargetState → TargetState) :
    (agg.modifyTargetState id f).targetState other = agg.targetState other :=
  (targetState_modifyTargetState_eq f).trans (if_neg h)

theorem targetState_ensureTargetState :
    (agg.ensureTargetState id).targetState other = agg.targetState other :=
  (targetState_modifyTargetState_eq fun state => state).trans (ite_self _)

theorem targetState_removeTarget (agg : WatchChangeAggregator) (id other : TargetId) :
    (agg.removeTarget id).targetState other =
      if other = id then {} else agg.targetState other := by
  unfold targetState removeTarget
  rw [get?_erase]
  split_ifs <;> rfl

/-- Whether a target is active depends on its own state. -/
theorem targetDataForActiveTarget_eq (agg : WatchChangeAggregator) (id : TargetId) :
    agg.targetDataForActiveTarget provider id =
      if (agg.targetState id).isPending then none
      else provider.getTargetDataForTarget id := by
  unfold targetDataForActiveTarget targetState
  cases agg.targetStates.get? id <;> rfl

/-- The client listens to the target, and all requests for it have been answered. -/
def Active (provider : TargetMetadataProvider) (agg : WatchChangeAggregator)
    (id : TargetId) : Prop :=
  (agg.targetState id).isPending = false ∧
    (provider.getTargetDataForTarget id).isSome

theorem isActiveTarget_iff : agg.isActiveTarget provider id ↔ Active provider agg id := by
  rw [isActiveTarget, targetDataForActiveTarget_eq, Active]
  cases (agg.targetState id).isPending <;> simp

theorem Active.targetDataForActiveTarget (h : Active provider agg id) :
    agg.targetDataForActiveTarget provider id = provider.getTargetDataForTarget id := by
  rw [targetDataForActiveTarget_eq, h.1]
  rfl

section

variable (heq : (agg'.targetState id).isPending = (agg.targetState id).isPending)

include heq

theorem Active.congr : Active provider agg' id ↔ Active provider agg id := by
  rw [Active, Active, heq]

theorem isActiveTarget_congr :
    agg'.isActiveTarget provider id = agg.isActiveTarget provider id := by
  rw [Bool.eq_iff_iff, isActiveTarget_iff, isActiveTarget_iff]
  exact Active.congr heq

end

section Documents

theorem targetState_addDocumentToTarget (provider : TargetMetadataProvider)
    (agg : WatchChangeAggregator) (id other : TargetId) (document : Document) :
    (agg.addDocumentToTarget provider id document).targetState other =
      if other = id ∧ agg.isActiveTarget provider id then
        (agg.targetState other).addDocument (provider.getRemoteKeysForTarget other) document.key
      else agg.targetState other := by
  unfold addDocumentToTarget
  by_cases hactive : agg.isActiveTarget provider id
  · simp only [hactive, and_true]
    have hmodified type :
        (agg.modifyTargetState id (·.addDocumentChange document.key type)).targetState other =
          _ := targetState_modifyTargetState_eq _
    refine (hmodified _).trans (if_ctx_congr Iff.rfl ?_ fun _ => rfl)
    rintro rfl
    simp only [addDocument, targetContainsDocument, decide_eq_true_eq]
  · rw [if_neg hactive, if_neg fun hand => hactive hand.2]

theorem targetState_removeDocumentFromTarget (provider : TargetMetadataProvider)
    (agg : WatchChangeAggregator) (id other : TargetId) (key : DocumentKey)
    (updatedDocument : Option MaybeDocument) :
    (agg.removeDocumentFromTarget provider id key updatedDocument).targetState other =
      if other = id ∧ agg.isActiveTarget provider id then
        (agg.targetState other).removeDocument (provider.getRemoteKeysForTarget other) key
      else agg.targetState other := by
  have hmodified : (agg.modifyTargetState id fun state =>
      if targetContainsDocument provider id key then state.addDocumentChange key .removed
      else state.removeDocumentChange key).targetState other =
        if other = id then
          (agg.targetState other).removeDocument (provider.getRemoteKeysForTarget other) key
        else agg.targetState other := by
    refine (targetState_modifyTargetState_eq _).trans (if_ctx_congr Iff.rfl ?_ fun _ => rfl)
    rintro rfl
    simp only [removeDocument, targetContainsDocument, decide_eq_true_eq]
  unfold removeDocumentFromTarget
  by_cases hactive : agg.isActiveTarget provider id
  · simp only [hactive, and_true]
    cases updatedDocument <;> exact hmodified
  · rw [if_neg hactive, if_neg fun hand => hactive hand.2]

theorem targetState_updateTarget (change : DocumentWatchChange) :
    (updateTarget provider change agg id).targetState other =
      if other = id ∧ agg.isActiveTarget provider id then
        (agg.targetState other).update (provider.getRemoteKeysForTarget other) change
      else agg.targetState other := by
  unfold updateTarget update
  cases change.newDocument with
  | none => simp
  | some doc =>
    cases doc with
    | document newDoc => exact targetState_addDocumentToTarget ..
    | noDocument key version hasCommittedMutations =>
      exact targetState_removeDocumentFromTarget ..
    | unknownDocument key version => simp

variable {f : TargetState → TargetState}

/-- A loop over target ids that does `f` to each target it names, if that is active, has done `f`
to an active target as often as its id occurs. -/
theorem targetState_foldlM {step : WatchChangeAggregator → TargetId → Hard WatchChangeAggregator}
    (hf : ∀ state, state.isPending = false → (f state).isPending = false)
    (hstep : ∀ agg id agg', step agg id = .ok agg' → agg'.targetState other =
      if other = id ∧ agg.isActiveTarget provider id then f (agg.targetState other)
      else agg.targetState other)
    (hok : ids.foldlM step agg = .ok agg') : agg'.targetState other =
      if agg.isActiveTarget provider other then
        f^[ids.count other] (agg.targetState other)
      else agg.targetState other := by
  induction ids generalizing agg with
  | nil =>
    cases hok
    exact (ite_self _).symm
  | cons id ids ih =>
    obtain ⟨agg₁, hfirst, hok⟩ := foldlM_cons_eq_ok.mp hok
    have hstate := hstep agg id agg₁ hfirst
    rw [ih hok]
    by_cases hother : other = id ∧ agg.isActiveTarget provider id
    · obtain ⟨rfl, hactive⟩ := hother
      rw [if_pos ⟨rfl, hactive⟩] at hstate
      obtain ⟨hpending, hdata⟩ := isActiveTarget_iff.mp hactive
      have hactive₁ : Active provider agg₁ other := ⟨hstate ▸ hf _ hpending, hdata⟩
      rw [if_pos (isActiveTarget_iff.mpr hactive₁), if_pos hactive, hstate, count_cons_self,
        Function.iterate_succ_apply]
    · rw [if_neg hother] at hstate
      rw [isActiveTarget_congr (congrArg _ hstate), hstate]
      refine if_ctx_congr Iff.rfl (fun hactive => ?_) fun _ => rfl
      rw [count_cons_of_ne fun h => hother ⟨h.symm, h ▸ hactive⟩]

theorem targetState_foldl {step : WatchChangeAggregator → TargetId → WatchChangeAggregator}
    (hf : ∀ state, (f state).isPending = state.isPending)
    (hstep : ∀ agg id, (step agg id).targetState other =
      if other = id ∧ agg.isActiveTarget provider id then f (agg.targetState other)
      else agg.targetState other)
    (ids : List TargetId) : (ids.foldl step agg).targetState other =
      if agg.isActiveTarget provider other then
        f^[ids.count other] (agg.targetState other)
      else agg.targetState other :=
  targetState_foldlM (fun state => (hf state).trans)
    (fun agg id _ hok => Except.ok.inj hok ▸ hstep agg id) foldlM_pure

theorem iterate_keeps (get : TargetState → γ) (hf : ∀ state, get (f state) = get state) (n : Nat)
    (state : TargetState) : get (f^[n] state) = get state := by
  induction n generalizing state with
  | zero => rfl
  | succ n ih => rw [Function.iterate_succ_apply, ih, hf]

theorem isPending_removeDocument (remoteKeys : DocumentKeySet) (key : DocumentKey)
    (state : TargetState) : (state.removeDocument remoteKeys key).isPending = state.isPending := by
  unfold removeDocument
  split_ifs <;> rfl

theorem isPending_update (remoteKeys : DocumentKeySet) (change : DocumentWatchChange)
    (state : TargetState) : (state.update remoteKeys change).isPending = state.isPending := by
  unfold update
  split
  · rfl
  · exact isPending_removeDocument remoteKeys _ state
  · rfl
  · rfl

theorem targetState_handleDocumentChange (change : DocumentWatchChange) :
    (agg.handleDocumentChange provider change).targetState other =
      if agg.isActiveTarget provider other then
        (agg.targetState other).hearDocument (provider.getRemoteKeysForTarget other) other change
      else agg.targetState other := by
  have hupdated : (change.updatedTargetIds.foldl (updateTarget provider change) agg).targetState
      other = if agg.isActiveTarget provider other then
        (update (provider.getRemoteKeysForTarget other)
          change)^[change.updatedTargetIds.count other] (agg.targetState other)
      else agg.targetState other :=
    targetState_foldl (isPending_update _ change)
      (fun agg id => targetState_updateTarget change) change.updatedTargetIds
  have hactive : isActiveTarget provider
      (change.updatedTargetIds.foldl (updateTarget provider change) agg) other =
        agg.isActiveTarget provider other := by
    refine isActiveTarget_congr ?_
    rw [hupdated]
    split_ifs
    · exact iterate_keeps isPending (isPending_update _ change) _ _
    · rfl
  refine (targetState_foldl (isPending_removeDocument (provider.getRemoteKeysForTarget other)
    change.documentKey) (fun agg id => targetState_removeDocumentFromTarget provider
      agg id other change.documentKey change.newDocument) change.removedTargetIds).trans ?_
  rw [hactive, hupdated]
  by_cases hother : agg.isActiveTarget provider other
  · simp only [if_pos hother, hearDocument]
  · simp only [if_neg hother]

end Documents

section Resets

theorem targetState_foldl_removeDocument (hactive : agg.isActiveTarget provider id)
    (keys : List DocumentKey) :
    (keys.foldl (fun agg key => agg.removeDocumentFromTarget provider id key none)
      agg).targetState other =
      if other = id then
        keys.foldl (removeDocument (provider.getRemoteKeysForTarget other))
          (agg.targetState other)
      else agg.targetState other := by
  induction keys generalizing agg with
  | nil => exact (ite_self _).symm
  | cons key keys ih =>
    have hstep other :
        (agg.removeDocumentFromTarget provider id key none).targetState other = _ :=
      targetState_removeDocumentFromTarget provider agg id other key none
    simp only [hactive, and_true] at hstep
    rw [foldl_cons, ih, hstep]
    · split_ifs <;> rfl
    · rw [isActiveTarget_congr, hactive]
      rw [hstep, if_pos rfl, isPending_removeDocument]

theorem resetTarget_eq (hknown : (agg.targetStates.get? id).isSome)
    (hpending : (agg.targetState id).isPending = false) : agg.resetTarget provider id =
      .ok ((provider.getRemoteKeysForTarget id).sort.foldl (fun agg key =>
        agg.removeDocumentFromTarget provider id key none)
        (agg.modifyTargetState id fun _ => {})) := by
  obtain ⟨state, hstate⟩ := Option.isSome_iff_exists.mp hknown
  rw [targetState, hstate, Option.getD_some] at hpending
  unfold resetTarget
  rw [hstate, Option.any_some, hpending]
  rfl

variable (hok : agg.resetTarget provider id = .ok agg')
include hok

theorem resetTarget_inv : agg' = (provider.getRemoteKeysForTarget id).sort.foldl
    (fun agg key => agg.removeDocumentFromTarget provider id key none)
    (agg.modifyTargetState id fun _ => {}) := by
  obtain ⟨u, -, h⟩ := bind_eq_ok.mp hok
  exact (Except.ok.inj h).symm

theorem targetState_resetTarget (hdata : (provider.getTargetDataForTarget id).isSome) :
    agg'.targetState other = if other = id then
      afterReset (provider.getRemoteKeysForTarget id)
    else agg.targetState other := by
  rw [resetTarget_inv hok, targetState_foldl_removeDocument, targetState_modifyTargetState_eq]
  · split_ifs with h
    · rw [h]
      rfl
    · rfl
  · exact isActiveTarget_iff.mpr ⟨by rw [targetState_modifyTargetState]; rfl, hdata⟩

end Resets

section TargetChanges

variable {change : WatchTargetChange}

theorem isActiveTarget_ensureTargetState :
    (agg.ensureTargetState id).isActiveTarget provider other =
      agg.isActiveTarget provider other :=
  isActiveTarget_congr (congrArg _ targetState_ensureTargetState)

/-- What a target change does to the targets. -/
theorem targetState_changeTarget (hok : changeTarget provider change agg id = .ok agg')
    (other : TargetId) : agg'.targetState other =
      if other = id then (agg.targetState other).afterChange
        (provider.getRemoteKeysForTarget other) (agg.isActiveTarget provider other) change
      else agg.targetState other := by
  unfold changeTarget at hok
  dsimp only at hok
  rw [isActiveTarget_ensureTargetState] at hok
  unfold afterChange hearTargetChange
  cases hstate : change.state with
  | noChange | current =>
    rw [hstate] at hok
    dsimp only at hok
    split_ifs at hok with hactive <;> cases hok
    · rw [targetState_modifyTargetState_eq, targetState_ensureTargetState]
      refine if_ctx_congr Iff.rfl (fun h => ?_) fun _ => rfl
      rw [h, if_pos hactive]
    · rw [targetState_ensureTargetState, eq_comm, ite_eq_right_iff]
      rintro rfl
      exact if_neg hactive
  | added =>
    rw [hstate] at hok
    cases hok
    rw [targetState_modifyTargetState_eq, targetState_ensureTargetState]
  | removed =>
    rw [hstate] at hok
    obtain ⟨u, -, h⟩ := bind_eq_ok.mp hok
    cases h
    rw [apply_ite (targetState · other), targetState_removeTarget, targetState_modifyTargetState,
      targetState_modifyTargetState_eq, targetState_ensureTargetState,
        targetState_ensureTargetState]
    by_cases h : other = id
    · simp only [h, if_true]
    · simp only [h, if_false, ite_self]
  | reset =>
    rw [hstate] at hok
    dsimp only at hok ⊢
    split_ifs at hok with hactive
    · obtain ⟨agg₁, hreset, h⟩ := bind_eq_ok.mp hok
      cases h
      rw [targetState_modifyTargetState_eq,
        targetState_resetTarget hreset (isActiveTarget_iff.mp hactive).2,
        targetState_ensureTargetState]
      refine if_ctx_congr Iff.rfl (fun h => ?_) fun h => if_neg h
      rw [if_pos h, h, if_pos hactive]
    · cases hok
      rw [targetState_ensureTargetState, eq_comm, ite_eq_right_iff]
      rintro rfl
      exact if_neg hactive

theorem isPending_afterReset (remoteKeys : DocumentKeySet) :
    (afterReset remoteKeys).isPending = false := by
  refine List.foldlRecOn (motive := fun state : TargetState => state.isPending = false) _ _ rfl
    fun state hstate key _ => ?_
  rw [isPending_removeDocument, hstate]

theorem isPending_updateResumeToken (token : Bytes) (state : TargetState) :
    (state.updateResumeToken token).isPending = state.isPending := by
  unfold updateResumeToken
  split_ifs <;> rfl

theorem isPending_hearTargetChange (remoteKeys : DocumentKeySet) {state : TargetState}
    (h : state.isPending = false) :
    (state.hearTargetChange remoteKeys change).isPending = false := by
  unfold hearTargetChange
  cases change.state with
  | noChange => rw [isPending_updateResumeToken, h]
  | current => rw [isPending_updateResumeToken, ← h]; rfl
  | reset => rw [isPending_updateResumeToken, isPending_afterReset]
  | added | removed => exact h

theorem targetState_foldlM_changeTarget_of_not_mem
    (hok : ids.foldlM (changeTarget provider change) agg = .ok agg')
    (hmem : id ∉ ids) : agg'.targetState id = agg.targetState id := by
  refine foldlM_keeps (·.targetState id) (fun agg₁ first hfirst agg₂ hok => ?_) hok
  have hne : id ≠ first := fun h => hmem (h ▸ hfirst)
  rw [targetState_changeTarget hok, if_neg hne]

theorem targetState_foldlM_changeTarget
    (hok : ids.foldlM (changeTarget provider change) agg = .ok agg')
    (hadded : change.state ≠ .added) (hremoved : change.state ≠ .removed) : agg'.targetState id =
      if agg.isActiveTarget provider id then
        (hearTargetChange (provider.getRemoteKeysForTarget id)
          change)^[ids.count id] (agg.targetState id)
      else agg.targetState id := by
  refine targetState_foldlM (fun state => isPending_hearTargetChange _)
    (fun agg first agg' hok => ?_) hok
  rw [targetState_changeTarget hok, ite_and]
  refine if_ctx_congr Iff.rfl (fun h => ?_) fun _ => rfl
  rw [h, afterChange]
  split
  · exact absurd ‹_› hadded
  · exact absurd ‹_› hremoved
  · rfl
  · rfl
  · rfl

/-- A change without ids reaches every active target that the aggregator has a state for. -/
theorem count_getTargetIds (hactive : agg.isActiveTarget provider id)
    (hknown : (agg.targetStates.get? id).isSome ∨ change.targetIds ≠ []) :
    (agg.getTargetIds provider change).count id = change.mentions id := by
  unfold getTargetIds WatchTargetChange.mentions
  by_cases hempty : change.targetIds.isEmpty
  · rw [if_pos hempty, if_pos hempty]
    have hstate := hknown.resolve_right fun h => h (isEmpty_iff.mp hempty)
    refine count_eq_one_of_mem ((nodup_keys _).filter _) ?_
    exact mem_filter.mpr ⟨mem_keys.mpr hstate, hactive⟩
  · rw [if_neg hempty, if_neg hempty]

/-- A target change that names one target. -/
theorem changeTarget_of_handle (hok : agg.handle provider (.target change) = .ok agg')
    (hids : change.targetIds = [id]) : changeTarget provider change agg id = .ok agg' := by
  have hget : agg.getTargetIds provider change = [id] := by
    rw [getTargetIds, hids]
    rfl
  simp only [handle, handleTargetChange, hget] at hok
  obtain ⟨agg₁, hfirst, hrest⟩ := bind_eq_ok.mp hok
  rwa [Except.ok.inj hrest] at hfirst

end TargetChanges

section Messages

theorem getCurrentDocumentCountForTarget_eq (h : (agg.targetState id).NoMetadata) :
    agg.getCurrentDocumentCountForTarget provider id =
      .ok ((agg.targetState id).documentCount
        (provider.getRemoteKeysForTarget id)) := by
  rw [getCurrentDocumentCountForTarget, h.toTargetChange_eq]
  rfl

theorem getCurrentDocumentCountForTarget_inv {count : Int}
    (h : agg.getCurrentDocumentCountForTarget provider id = .ok count) :
    count = (agg.targetState id).documentCount
      (provider.getRemoteKeysForTarget id) := by
  obtain ⟨change, hchange, -⟩ := bind_eq_ok.mp h
  rw [getCurrentDocumentCountForTarget_eq (noMetadata_of_toTargetChange hchange)] at h
  exact (Except.ok.inj h).symm

variable {filter : ExistenceFilterWatchChange}

theorem targetState_handleExistenceFilter
    (hok : agg.handleExistenceFilter provider filter = .ok agg') : agg'.targetState other =
      match agg.targetDataForActiveTarget provider filter.targetId with
      | some data => if other = filter.targetId then (agg.targetState other).hearFilter
          (provider.getRemoteKeysForTarget other) data.target filter
        else agg.targetState other
      | none => agg.targetState other := by
  unfold handleExistenceFilter at hok
  cases hdata : agg.targetDataForActiveTarget provider filter.targetId with
  | none =>
    rw [hdata] at hok
    rw [Except.ok.inj hok]
  | some data =>
    have hactive : agg.isActiveTarget provider filter.targetId := by rw [isActiveTarget, hdata]; rfl
    rw [hdata] at hok
    dsimp only at hok ⊢
    unfold hearFilter
    cases hkey : data.target.documentKey with
    | some key =>
      rw [hkey] at hok
      dsimp only at hok ⊢
      split_ifs at hok with hcount
      · rw [← Except.ok.inj hok, targetState_removeDocumentFromTarget]
        simp only [hactive, hcount, and_true, if_true]
      · obtain ⟨u, -, hok⟩ := bind_eq_ok.mp hok
        rw [Except.ok.inj hok, if_neg hcount, ite_self]
    | none =>
      rw [hkey] at hok
      obtain ⟨currentSize, hsize, hok⟩ := bind_eq_ok.mp hok
      rw [getCurrentDocumentCountForTarget_inv hsize, targetState_ensureTargetState] at hok
      split_ifs at hok with hcount
      · obtain ⟨agg₁, hreset, hok⟩ := bind_eq_ok.mp hok
        rw [← Except.ok.inj hok]
        refine (targetState_resetTarget hreset (isActiveTarget_iff.mp hactive).2).trans ?_
        rw [targetState_ensureTargetState]
        refine if_ctx_congr Iff.rfl (fun h => ?_) fun _ => rfl
        rw [h, if_neg hcount]
      · rw [← Except.ok.inj hok, targetState_ensureTargetState, eq_comm, ite_eq_right_iff]
        rintro rfl
        exact if_pos (not_not.mp hcount)

end Messages

end WatchChangeAggregator

/-- The message is no response about a target. -/
def WatchChange.Steady (id : TargetId) : WatchChange → Prop
  | .target change => change.state = .added ∨ change.state = .removed →
      change.targetIds ≠ [] ∧ id ∉ change.targetIds
  | .document _ | .existenceFilter _ => True

/-- The message says which targets it is about. -/
def WatchChange.NamesTargets : WatchChange → Prop
  | .target change => change.targetIds ≠ []
  | .document _ | .existenceFilter _ => True

namespace WatchChangeAggregator

variable {provider : TargetMetadataProvider} {agg agg' : WatchChangeAggregator}
  {id other : TargetId} {message : WatchChange}

theorem targetState_handleTargetChange {change : WatchTargetChange}
    (hok : agg.handle provider (.target change) = .ok agg')
    (hsteady : (WatchChange.target change).Steady id) : agg'.targetState id =
      if agg.isActiveTarget provider id then
        (hearTargetChange (provider.getRemoteKeysForTarget id)
          change)^[(agg.getTargetIds provider change).count id] (agg.targetState id)
      else agg.targetState id := by
  by_cases hresponse : change.state = .added ∨ change.state = .removed
  · obtain ⟨hnames, hmem⟩ := hsteady hresponse
    have hids : id ∉ agg.getTargetIds provider change := by
      rwa [getTargetIds, if_neg (mt List.isEmpty_iff.mp hnames)]
    rw [count_eq_zero_of_not_mem hids, Function.iterate_zero_apply, ite_self]
    exact targetState_foldlM_changeTarget_of_not_mem hok hids
  · rw [not_or] at hresponse
    exact targetState_foldlM_changeTarget hok hresponse.1 hresponse.2

theorem targetState_handle_of_active
    (hok : agg.handle provider message = .ok agg') (hsteady : message.Steady id)
    (hactive : agg.isActiveTarget provider id)
    (hdata : provider.getTargetDataForTarget id = some data)
    (hknown : (agg.targetStates.get? id).isSome ∨ message.NamesTargets) :
    agg'.targetState id = (agg.targetState id).hear
      (provider.getRemoteKeysForTarget id) data.target id message := by
  cases message with
  | document change =>
    rw [← Except.ok.inj hok, targetState_handleDocumentChange, if_pos hactive]
    rfl
  | existenceFilter filter =>
    rw [targetState_handleExistenceFilter hok]
    simp only [hear, eq_comm]
    by_cases h : filter.targetId = id
    · rw [h, (isActiveTarget_iff.mp hactive).targetDataForActiveTarget, hdata]
    · simp only [Ne.symm h, if_false]
      split <;> rfl
  | target change =>
    rw [targetState_handleTargetChange hok hsteady, if_pos hactive,
      count_getTargetIds hactive hknown]
    rfl

section

variable (hok : agg.handle provider message = .ok agg')

include hok

/-- A message leaves the state of a target that is not active. -/
theorem targetState_handle_of_inactive
    (hsteady : message.Steady id) (hinactive : ¬agg.isActiveTarget provider id) :
    agg'.targetState id = agg.targetState id := by
  cases message with
  | document change =>
    rw [← Except.ok.inj hok, targetState_handleDocumentChange, if_neg hinactive]
  | existenceFilter filter =>
    rw [targetState_handleExistenceFilter hok]
    split
    · next hdata => exact if_neg fun h => hinactive (by rw [isActiveTarget, h, hdata]; rfl)
    · rfl
  | target change =>
    rw [targetState_handleTargetChange hok hsteady, if_neg hinactive]

/-- Only responses change whether a target is pending. -/
theorem isPending_handle (hsteady : message.Steady id) :
    (agg'.targetState id).isPending = (agg.targetState id).isPending := by
  by_cases hactive : agg.isActiveTarget provider id
  case neg => rw [targetState_handle_of_inactive hok hsteady hactive]
  have hpending := (isActiveTarget_iff.mp hactive).1
  cases message with
  | document change =>
    rw [← Except.ok.inj hok, targetState_handleDocumentChange, if_pos hactive,
      hearDocument, iterate_keeps isPending (isPending_removeDocument _ _),
      iterate_keeps isPending (isPending_update _ _)]
  | existenceFilter filter =>
    rw [targetState_handleExistenceFilter hok, hpending]
    split
    · split_ifs
      · unfold hearFilter
        split <;> split_ifs
        · rw [isPending_removeDocument, hpending]
        · exact hpending
        · exact hpending
        · exact isPending_afterReset _
      · exact hpending
    · exact hpending
  | target change =>
    rw [targetState_handleTargetChange hok hsteady, if_pos hactive, hpending]
    exact Function.Iterate.rec (fun state : TargetState => state.isPending = false) hpending
      (fun _ h => isPending_hearTargetChange _ h) _

theorem isActiveTarget_handle (hsteady : message.Steady id) :
    agg'.isActiveTarget provider id = agg.isActiveTarget provider id :=
  isActiveTarget_congr (isPending_handle hok hsteady)

end

end WatchChangeAggregator

end Firebase.Firestore.Remote
