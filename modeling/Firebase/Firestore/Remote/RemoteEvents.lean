import Firebase.Firestore.Remote.TargetChanges

/-!
# What the aggregator does, move by move

Whatever the aggregator does about a message or for a snapshot is a sequence of a few moves
(`Move`), so that an invariant of the moves is an invariant of the aggregator.
-/

namespace Firebase.Firestore.Remote

open Lib Util Model Firestore.Core OrdMap Option
open Relation (ReflTransGen)

/-- The message has the document filed under the key. -/
def WatchChange.Files (provider : TargetMetadataProvider) (key : DocumentKey)
    (doc : MaybeDocument) : WatchChange → Prop
  | .document change => change.newDocument = some doc ∧
      (change.documentKey = key ∨ ∃ newDoc, doc = .document newDoc ∧ newDoc.key = key)
  | .existenceFilter filter => filter.count = 0 ∧ doc.key = key ∧ ∃ data,
      provider.getTargetDataForTarget filter.targetId = some data ∧
        data.target.documentKey = some key
  | .target _ => False

namespace WatchChangeAggregator

/-! ## Moves -/

/-- A function on the states of targets that makes no document changes and hides none. -/
def Quiet (f : TargetState → TargetState) : Prop :=
  ∀ state, (f state).documentChanges = .empty ∨ (f state).documentChanges = state.documentChanges ∧
    (state.hasPendingChanges → (f state).hasPendingChanges)

/-- The moves that the aggregator makes, if it may forget the targets `gone`. -/
inductive Move (provider : TargetMetadataProvider) (gone : Set TargetId) :
    WatchChangeAggregator → WatchChangeAggregator → Prop
  | addDocument (agg id document) :
      Move provider gone agg (agg.addDocumentToTarget provider id document)
  | removeDocument (agg id key updatedDocument) :
      Move provider gone agg (agg.removeDocumentFromTarget provider id key updatedDocument)
  | modify (agg id) {f} (quiet : Quiet f) :
      Move provider gone agg (agg.modifyTargetState id f)
  | removeTarget (agg id) (mem : id ∈ gone) :
      Move provider gone agg (agg.removeTarget id)
  | mismatch (agg id) : Move provider gone agg
      { agg with pendingTargetResets := insert id agg.pendingTargetResets }

abbrev Moves (provider : TargetMetadataProvider) (gone : Set TargetId) :
    WatchChangeAggregator → WatchChangeAggregator → Prop :=
  ReflTransGen (Move provider gone)

/-- All pending updates are filed as `P` says. -/
def FiledAs (agg : WatchChangeAggregator) (P : DocumentKey → MaybeDocument → Prop) : Prop :=
  ∀ key doc, agg.pendingDocumentUpdates.get? key = some doc → P key doc

/-- A move that files documents only as `files` says. -/
def Filing (provider : TargetMetadataProvider) (gone : Set TargetId)
    (files : DocumentKey → MaybeDocument → Prop) (agg agg' : WatchChangeAggregator) : Prop :=
  Move provider gone agg agg' ∧
    agg'.FiledAs fun key doc => agg.pendingDocumentUpdates.get? key = some doc ∨ files key doc

abbrev Filings (provider : TargetMetadataProvider) (gone : Set TargetId)
    (files : DocumentKey → MaybeDocument → Prop) :
    WatchChangeAggregator → WatchChangeAggregator → Prop :=
  ReflTransGen (Filing provider gone files)

variable {provider : TargetMetadataProvider} {agg agg' : WatchChangeAggregator}
  {id other : TargetId} {key : DocumentKey} {gone : Set TargetId}
  {files P : DocumentKey → MaybeDocument → Prop}

section Filing

theorem FiledAs.addDocumentToTarget (h : agg.FiledAs P) {document : Document}
    (hkey : P document.key (.document document)) :
    (agg.addDocumentToTarget provider id document).FiledAs P := by
  unfold WatchChangeAggregator.addDocumentToTarget
  split
  · exact forall_insert h hkey
  · exact h

theorem FiledAs.removeDocumentFromTarget (h : agg.FiledAs P)
    {updatedDocument : Option MaybeDocument}
    (hkey : ∀ doc, updatedDocument = some doc → P key doc) :
    (agg.removeDocumentFromTarget provider id key updatedDocument).FiledAs P := by
  unfold WatchChangeAggregator.removeDocumentFromTarget
  split
  · cases updatedDocument with
    | none => exact h
    | some document => exact forall_insert h (hkey document rfl)
  · exact h

theorem filing_addDocument {document : Document} (hkey : files document.key (.document document)) :
    Filing provider gone files agg (agg.addDocumentToTarget provider id document) :=
  ⟨.addDocument .., FiledAs.addDocumentToTarget (fun _ _ => .inl) (.inr hkey)⟩

theorem filing_removeDocument {updatedDocument : Option MaybeDocument}
    (hkey : ∀ doc, updatedDocument = some doc → files key doc) : Filing provider gone files agg
      (agg.removeDocumentFromTarget provider id key updatedDocument) :=
  ⟨.removeDocument .., FiledAs.removeDocumentFromTarget (fun _ _ => .inl)
    fun doc hdoc => .inr (hkey doc hdoc)⟩

theorem filing_modify (id : TargetId) {f : TargetState → TargetState} (quiet : Quiet f) :
    Filing provider gone files agg (agg.modifyTargetState id f) :=
  ⟨.modify _ _ quiet, fun _ _ => .inl⟩

/-- Filed documents have what both the old and the new ones have. -/
theorem FiledAs.filings (h : agg.FiledAs P) (hfilings : Filings provider gone files agg agg')
    (hfiles : ∀ key doc, files key doc → P key doc) : agg'.FiledAs P := by
  induction hfilings with
  | refl => exact h
  | tail _ hfiling ih =>
    exact fun key doc hget => (hfiling.2 key doc hget).elim (ih key doc) (hfiles key doc)

end Filing

section Quiet

theorem quiet_id : Quiet fun state => state := fun _ => .inr ⟨rfl, fun h => h⟩

theorem quiet_updateResumeToken (token : Bytes) : Quiet (·.updateResumeToken token) := by
  intro state
  right
  unfold TargetState.updateResumeToken
  split_ifs
  · exact ⟨rfl, fun h => h⟩
  · exact ⟨rfl, fun _ => rfl⟩

theorem quiet_markCurrent : Quiet (·.markCurrent) := fun _ => .inr ⟨rfl, fun _ => rfl⟩

theorem quiet_recordTargetResponse : Quiet (·.recordTargetResponse) :=
  fun _ => .inr ⟨rfl, fun h => h⟩

theorem quiet_clearPendingChanges : Quiet (·.clearPendingChanges) := fun _ => .inl rfl

variable {f g : TargetState → TargetState}

theorem Quiet.comp (hf : Quiet f) (hg : Quiet g) : Quiet fun state => f (g state) := by
  intro state
  rcases hf (g state) with hempty | ⟨hsame, hpending⟩
  · exact .inl hempty
  rcases hg state with hempty' | ⟨hsame', hpending'⟩
  · exact .inl (hsame.trans hempty')
  · exact .inr ⟨hsame.trans hsame', hpending ∘ hpending'⟩

theorem Quiet.ite {p : TargetState → Prop} [DecidablePred p]
    (hf : Quiet f) (hg : Quiet g) : Quiet fun state => if p state then f state else g state := by
  intro state
  dsimp only
  split_ifs
  · exact hf state
  · exact hg state

end Quiet

section Handle

theorem filings_foldl {α : Type} {f : WatchChangeAggregator → α → WatchChangeAggregator}
    (hf : ∀ agg a, Filings provider gone files agg (f agg a)) (as : List α) :
    Filings provider gone files agg (as.foldl f agg) := by
  induction as generalizing agg with
  | nil => exact .refl
  | cons a as ih => exact (hf agg a).trans ih

theorem filings_handleDocumentChange (change : DocumentWatchChange) :
    Filings provider gone ((WatchChange.document change).Files provider) agg
      (agg.handleDocumentChange provider change) := by
  have hremoved : ∀ doc, change.newDocument = some doc →
      (WatchChange.document change).Files provider change.documentKey doc :=
    fun doc hdoc => ⟨hdoc, .inl rfl⟩
  refine ReflTransGen.trans (b := change.updatedTargetIds.foldl (updateTarget provider change)
    agg) ?_ (filings_foldl (fun _ _ => .single (filing_removeDocument hremoved)) _)
  refine filings_foldl (fun agg id => ?_) _
  unfold updateTarget
  split
  next newDoc hdoc => exact .single (filing_addDocument ⟨hdoc, .inr ⟨newDoc, rfl, rfl⟩⟩)
  · exact .single (filing_removeDocument hremoved)
  · exact .refl
  · exact .refl

theorem filings_resetTarget (hok : agg.resetTarget provider id = .ok agg') :
    Filings provider gone files agg agg' := by
  rw [resetTarget_inv hok]
  have hfresh : Quiet fun _ => {} := fun _ => .inl rfl
  refine .head (filing_modify id hfresh) ?_
  exact filings_foldl (fun agg key => .single (filing_removeDocument nofun)) _

theorem filings_changeTarget {change : WatchTargetChange}
    (hgone : change.state = .removed → id ∈ gone)
    (hok : changeTarget provider change agg id = .ok agg') :
    Filings provider gone files agg agg' := by
  unfold changeTarget at hok
  refine .head (filing_modify id quiet_id) ?_
  cases hstate : change.state with
  | noChange =>
    rw [hstate] at hok
    dsimp only at hok
    split_ifs at hok <;> cases hok
    · exact .single (filing_modify _ (quiet_updateResumeToken _))
    · exact .refl
  | added =>
    rw [hstate] at hok
    cases hok
    refine .single (filing_modify _ ((quiet_updateResumeToken _).comp ?_))
    exact (Quiet.ite (p := (·.isPending)) quiet_id quiet_clearPendingChanges).comp
      quiet_recordTargetResponse
  | removed =>
    rw [hstate] at hok
    obtain ⟨u, -, h⟩ := bind_eq_ok.mp hok
    cases h
    refine .head (filing_modify id quiet_recordTargetResponse) ?_
    split_ifs
    · exact .refl
    · exact .single ⟨.removeTarget _ _ (hgone hstate), fun _ _ => .inl⟩
  | current =>
    rw [hstate] at hok
    dsimp only at hok
    split_ifs at hok <;> cases hok
    · exact .single (filing_modify _ ((quiet_updateResumeToken _).comp quiet_markCurrent))
    · exact .refl
  | reset =>
    rw [hstate] at hok
    dsimp only at hok
    split_ifs at hok
    · obtain ⟨agg₁, hreset, h⟩ := bind_eq_ok.mp hok
      cases h
      exact (filings_resetTarget hreset).tail (filing_modify _ (quiet_updateResumeToken _))
    · cases hok
      exact .refl

theorem filings_handleExistenceFilter {filter : ExistenceFilterWatchChange}
    (hok : agg.handleExistenceFilter provider filter = .ok agg') :
    Filings provider gone ((WatchChange.existenceFilter filter).Files provider) agg agg' := by
  unfold handleExistenceFilter at hok
  split at hok
  · exact Except.ok.inj hok ▸ .refl
  next data hdata =>
    split at hok
    next key hkey =>
      split_ifs at hok with hcount
      · cases hok
        have hactive : agg.isActiveTarget provider filter.targetId := by
          rw [isActiveTarget, hdata]
          rfl
        rw [(isActiveTarget_iff.mp hactive).targetDataForActiveTarget] at hdata
        refine .single (filing_removeDocument ?_)
        rintro doc ⟨⟩
        exact ⟨hcount, rfl, _, hdata, hkey⟩
      · obtain ⟨u, -, hok⟩ := bind_eq_ok.mp hok
        exact Except.ok.inj hok ▸ .refl
    · refine .head (filing_modify filter.targetId quiet_id) ?_
      obtain ⟨currentSize, -, hok⟩ := bind_eq_ok.mp hok
      split_ifs at hok
      · obtain ⟨agg₁, hreset, hok⟩ := bind_eq_ok.mp hok
        cases hok
        exact (filings_resetTarget hreset).tail ⟨.mismatch _ _, fun _ _ => .inl⟩
      · exact Except.ok.inj hok ▸ .refl

/-- What the aggregator does about a message, it does by moves, and what it files comes from the
message. -/
theorem filings_handle {message : WatchChange} (hok : agg.handle provider message = .ok agg') :
    Filings provider {id | ¬message.Steady id} (message.Files provider) agg agg' := by
  cases message with
  | document change =>
    cases hok
    exact filings_handleDocumentChange change
  | existenceFilter filter => exact filings_handleExistenceFilter hok
  | target change =>
    refine foldlM_invariant (Filings _ _ _ agg) (fun _ id hmem _ hfilings h =>
      hfilings.trans (filings_changeTarget (fun hstate hsteady => ?_) h)) .refl hok
    obtain ⟨hnames, hnot_mem⟩ := hsteady (.inr hstate)
    rw [getTargetIds, if_neg (mt List.isEmpty_iff.mp hnames)] at hmem
    exact hnot_mem hmem

theorem moves_handle {message : WatchChange} (hok : agg.handle provider message = .ok agg') :
    Moves provider {id | ¬message.Steady id} agg agg' :=
  ReflTransGen.mono (fun _ _ => And.left) _ _ (filings_handle hok)

end Handle

/-! ## What moves keep -/

section Invariants

/-- What a move can do to the states of targets and to the updated documents. -/
theorem Move.rows (hmove : Move provider gone agg agg') : (agg'.targetStates = agg.targetStates ∨
      (∃ other state, agg'.targetStates = agg.targetStates.insert other state) ∨
      ∃ other ∈ gone, agg'.targetStates = agg.targetStates.erase other) ∧
    (agg'.pendingDocumentUpdates = agg.pendingDocumentUpdates ∨
      ∃ key doc, agg'.pendingDocumentUpdates = agg.pendingDocumentUpdates.insert key doc) := by
  cases hmove with
  | addDocument other document =>
    unfold addDocumentToTarget
    split
    · exact ⟨.inr (.inl ⟨_, _, rfl⟩), .inr ⟨_, _, rfl⟩⟩
    · exact ⟨.inl rfl, .inl rfl⟩
  | removeDocument other key updatedDocument =>
    unfold removeDocumentFromTarget
    split
    · cases updatedDocument with
      | none => exact ⟨.inr (.inl ⟨_, _, rfl⟩), .inl rfl⟩
      | some doc => exact ⟨.inr (.inl ⟨_, _, rfl⟩), .inr ⟨_, _, rfl⟩⟩
    · exact ⟨.inl rfl, .inl rfl⟩
  | modify => exact ⟨.inr (.inl ⟨_, _, rfl⟩), .inl rfl⟩
  | removeTarget other mem => exact ⟨.inr (.inr ⟨other, mem, rfl⟩), .inl rfl⟩
  | mismatch => exact ⟨.inl rfl, .inl rfl⟩

/-- The aggregator keeps the states of the targets that it may not forget. -/
theorem isSome_get?_moves (hmoves : Moves provider gone agg agg')
    (h : (agg.targetStates.get? id).isSome) (hgone : id ∉ gone) :
    (agg'.targetStates.get? id).isSome := by
  induction hmoves with
  | refl => exact h
  | tail _ hmove ih =>
    rcases hmove.rows.1 with heq | ⟨other, state, heq⟩ | ⟨other, hother, heq⟩
    · rwa [heq]
    · rw [heq]
      exact isSome_get?_insert.mpr (.inr ih)
    · rw [heq]
      exact isSome_get?_erase.mpr ⟨fun hsame => hgone (hsame ▸ hother), ih⟩

/-- The documents that have been updated stay so until the next snapshot. -/
theorem isSome_pendingDocumentUpdates_move (hmove : Move provider gone agg agg')
    (h : (agg.pendingDocumentUpdates.get? key).isSome) :
    (agg'.pendingDocumentUpdates.get? key).isSome := by
  rcases hmove.rows.2 with heq | ⟨key', doc, heq⟩
  · rwa [heq]
  · rw [heq]
    exact isSome_get?_insert.mpr (.inr h)

/-- What a move can do to the document changes of a target. -/
inductive ChangesStep (agg agg' : WatchChangeAggregator) (id : TargetId) : Prop
  | cleared (changes : (agg'.targetState id).documentChanges = .empty)
  | same (changes : (agg'.targetState id).documentChanges =
        (agg.targetState id).documentChanges)
      (pending : (agg.targetState id).hasPendingChanges →
        (agg'.targetState id).hasPendingChanges)
  | inserted (key : DocumentKey) (type : ChangeType)
      (changes : (agg'.targetState id).documentChanges =
        (agg.targetState id).documentChanges.insert key type)
      (pending : (agg'.targetState id).hasPendingChanges) (noMetadata : type ≠ .metadata)
      (backed : type = .added → (agg'.pendingDocumentUpdates.get? key).isSome)
  | erased (key : DocumentKey)
      (changes : (agg'.targetState id).documentChanges =
        (agg.targetState id).documentChanges.erase key)
      (pending : (agg'.targetState id).hasPendingChanges)

theorem ChangesStep.of_targetState_eq
    (h : agg'.targetState id = agg.targetState id) : ChangesStep agg agg' id := by
  refine .same ?_ ?_ <;> rw [h]
  exact fun h => h

theorem changesStep_move (hmove : Move provider gone agg agg') (id : TargetId) :
    ChangesStep agg agg' id := by
  cases hmove with
  | addDocument other document =>
    have hstate := targetState_addDocumentToTarget provider agg other id document
    split_ifs at hstate with hactive
    · refine .inserted document.key (if document.key ∈ provider.getRemoteKeysForTarget id
        then .modified else .added) ?_ ?_ ?_ fun _ => ?_
      · rw [hstate]
        rfl
      · rw [hstate]
        rfl
      · split_ifs <;> exact nofun
      · rw [addDocumentToTarget, if_pos hactive.2]
        exact isSome_get?_insert.mpr (.inl rfl)
    · exact .of_targetState_eq hstate
  | removeDocument other key updatedDocument =>
    have hstate := targetState_removeDocumentFromTarget provider agg other id key
      updatedDocument
    split_ifs at hstate with hactive
    · unfold TargetState.removeDocument at hstate
      split_ifs at hstate
      · exact .inserted key .removed (by rw [hstate]; rfl) (by rw [hstate]; rfl) nofun nofun
      · exact .erased key (by rw [hstate]; rfl) (by rw [hstate]; rfl)
    · exact .of_targetState_eq hstate
  | modify other quiet =>
    by_cases h : id = other
    · subst h
      rcases quiet (agg.targetState id) with hempty | ⟨hsame, hpending⟩
      · exact .cleared (by rw [targetState_modifyTargetState, hempty])
      · refine .same ?_ ?_ <;> rw [targetState_modifyTargetState]
        · exact hsame
        · exact hpending
    · exact .of_targetState_eq (targetState_modifyTargetState_of_ne h _)
  | removeTarget other =>
    have hstate := targetState_removeTarget agg other id
    split_ifs at hstate with h
    · exact .cleared (by rw [hstate])
    · exact .of_targetState_eq hstate
  | mismatch other => exact .of_targetState_eq rfl

theorem noMetadata_moves (hmoves : Moves provider gone agg agg')
    (h : (agg.targetState id).NoMetadata) : (agg'.targetState id).NoMetadata := by
  induction hmoves with
  | refl => exact h
  | tail _ hmove ih =>
    intro key
    rcases changesStep_move hmove id with hchanges | ⟨hchanges, -⟩ |
      ⟨key', type, hchanges, -, htype, -⟩ | ⟨key', hchanges, -⟩
    · rw [hchanges]
      exact nofun
    · rw [hchanges]
      exact ih key
    · rw [hchanges, get?_insert]
      split_ifs
      · exact fun hmeta => htype (some.inj hmeta)
      · exact ih key
    · rw [hchanges, get?_erase]
      split_ifs
      · exact nofun
      · exact ih key

/-- A target with document changes has pending changes, and every document that was added to it has
been updated. -/
structure Sound (agg : WatchChangeAggregator) (id : TargetId) : Prop where
  pending {key : DocumentKey} (changed : (agg.targetState id).documentChanges.get? key ≠
    none) :
    (agg.targetState id).hasPendingChanges
  backed {key : DocumentKey} (added : (agg.targetState id).documentChanges.get? key =
    some .added) :
    (agg.pendingDocumentUpdates.get? key).isSome

theorem Sound.of_empty (h : (agg.targetState id).documentChanges = .empty) : Sound agg id where
  pending hchanged := absurd (by rw [h, get?_empty]) hchanged
  backed hadded := by
    rw [h] at hadded
    cases hadded

theorem Sound.move (hmove : Move provider gone agg agg') (h : Sound agg id) : Sound agg' id := by
  have hgrows {key : DocumentKey} (hsome : (agg.pendingDocumentUpdates.get? key).isSome) :=
    isSome_pendingDocumentUpdates_move hmove hsome
  rcases changesStep_move hmove id with hchanges | ⟨hchanges, hpending⟩ |
    ⟨key, type, hchanges, hpending, -, hbacked⟩ | ⟨key, hchanges, hpending⟩
  · exact .of_empty hchanges
  · constructor <;> rw [hchanges]
    · exact fun hchanged => hpending (h.pending hchanged)
    · exact fun hadded => hgrows (h.backed hadded)
  · refine ⟨fun _ => hpending, fun {key'} hadded => ?_⟩
    rw [hchanges, get?_insert_eq_some] at hadded
    rcases hadded with ⟨rfl, heq⟩ | ⟨-, hadded⟩
    · exact hbacked heq
    · exact hgrows (h.backed hadded)
  · refine ⟨fun _ => hpending, fun {key'} hadded => ?_⟩
    rw [hchanges, get?_erase_eq_some] at hadded
    exact hgrows (h.backed hadded.2)

theorem Sound.moves (hmoves : Moves provider gone agg agg') (h : Sound agg id) : Sound agg' id := by
  induction hmoves with
  | refl => exact h
  | tail _ hmove ih => exact ih.move hmove

end Invariants

/-! ## Snapshots -/

section Raise

variable {version : SnapshotVersion} {changes changes' : OrdMap TargetId TargetChange}
  {data : TargetData} {ids : List TargetId}

/-- A delete is made up for the document of a target. -/
def Synthesizes (provider : TargetMetadataProvider) (agg : WatchChangeAggregator)
    (id : TargetId) (data : TargetData) (key : DocumentKey) : Prop :=
  data.target.documentKey = some key ∧ (agg.targetState id).current ∧
    agg.pendingDocumentUpdates.get? key = none ∧ key ∉ provider.getRemoteKeysForTarget id

section

variable (provider version agg id data)

theorem synthesizeDelete_cases : synthesizeDelete provider version agg id data = agg ∨
      ∃ key, Synthesizes provider agg id data key ∧
        synthesizeDelete provider version agg id data =
          agg.removeDocumentFromTarget provider id key
            (some (.noDocument key version false)) := by
  unfold synthesizeDelete
  cases hkey : data.target.documentKey with
  | none => exact .inl rfl
  | some key =>
    dsimp only
    split_ifs with h
    · refine .inr ⟨key, ⟨hkey, h.1, h.2.1, ?_⟩, rfl⟩
      simpa [targetContainsDocument] using h.2.2
    · exact .inl rfl

theorem moves_synthesizeDelete (gone : Set TargetId) : Moves provider gone agg
    (synthesizeDelete provider version agg id data) := by
  rcases synthesizeDelete_cases provider agg id version data with
    heq | ⟨key, -, heq⟩
  · rw [heq]
  · rw [heq]
    exact .single (.removeDocument _ _ _ _)

theorem targetState_synthesizeDelete :
    (synthesizeDelete provider version agg id data).targetState id =
        agg.targetState id ∨
      ∃ key, (synthesizeDelete provider version agg id data).targetState
        id = (agg.targetState id).removeDocumentChange key := by
  rcases synthesizeDelete_cases provider agg id version data with
    heq | ⟨key, ⟨-, -, -, hremote⟩, heq⟩
  · rw [heq]
    exact .inl rfl
  · rw [heq, targetState_removeDocumentFromTarget, TargetState.removeDocument]
    split_ifs
    · exact .inr ⟨key, rfl⟩
    · exact .inl rfl

end

theorem targetState_synthesizeDelete_of_ne (hne : other ≠ id) :
    (synthesizeDelete provider version agg id data).targetState other =
      agg.targetState other := by
  rcases synthesizeDelete_cases provider agg id version data with
    heq | ⟨key, -, heq⟩
  · rw [heq]
  · rw [heq, targetState_removeDocumentFromTarget, if_neg (not_and_of_not_left _ hne)]

/-- What `CreateRemoteEvent` does for a target. -/
inductive Raising (provider : TargetMetadataProvider) (version : SnapshotVersion)
    (agg : WatchChangeAggregator) (changes : OrdMap TargetId TargetChange) (id : TargetId) :
    WatchChangeAggregator → OrdMap TargetId TargetChange → Prop
  | inactive (data : agg.targetDataForActiveTarget provider id = none) :
      Raising provider version agg changes id agg changes
  | quiet {targetData : TargetData} {agg₁ : WatchChangeAggregator}
      (data : agg.targetDataForActiveTarget provider id = some targetData)
      (synthesized : synthesizeDelete provider version agg id targetData = agg₁)
      (pending : (agg₁.targetState id).hasPendingChanges = false) :
      Raising provider version agg changes id agg₁ changes
  | raised {targetData : TargetData} {agg₁ : WatchChangeAggregator} {change : TargetChange}
      (data : agg.targetDataForActiveTarget provider id = some targetData)
      (synthesized : synthesizeDelete provider version agg id targetData = agg₁)
      (pending : (agg₁.targetState id).hasPendingChanges = true)
      (collected : (agg₁.targetState id).toTargetChange = .ok change) :
      Raising provider version agg changes id
        (agg₁.modifyTargetState id (·.clearPendingChanges)) (changes.insert id change)

theorem raising_of_raiseTarget
    (hok : raiseTarget provider version (agg, changes) id = .ok (agg', changes')) :
    Raising provider version agg changes id agg' changes' := by
  unfold raiseTarget at hok
  dsimp only at hok
  split at hok
  · cases hok
    exact .inactive ‹_›
  · split_ifs at hok with hpending
    · obtain ⟨change, hchange, h⟩ := bind_eq_ok.mp hok
      cases h
      exact .raised ‹_› rfl hpending hchange
    · cases hok
      exact .quiet ‹_› rfl (Bool.eq_false_iff.mpr hpending)

theorem Raising.moves (gone : Set TargetId)
    (h : Raising provider version agg changes id agg' changes') : Moves provider gone agg agg' := by
  cases h with
  | inactive => exact .refl
  | quiet _ synthesized => exact synthesized ▸ moves_synthesizeDelete ..
  | raised _ synthesized =>
    exact (synthesized ▸ moves_synthesizeDelete ..).tail
      (.modify _ _ quiet_clearPendingChanges)

theorem Raising.of_ne (h : Raising provider version agg changes id agg' changes')
    (hne : other ≠ id) :
    agg'.targetState other = agg.targetState other ∧ changes'.get? other = changes.get? other := by
  cases h with
  | inactive => exact ⟨rfl, rfl⟩
  | quiet _ synthesized =>
    exact ⟨synthesized ▸ targetState_synthesizeDelete_of_ne hne, rfl⟩
  | raised _ synthesized =>
    refine ⟨?_, ?_⟩
    · rw [targetState_modifyTargetState_of_ne hne, ← synthesized,
        targetState_synthesizeDelete_of_ne hne]
    · rw [get?_insert, if_neg hne]

section

variable (hok : ids.foldlM (raiseTarget provider version) (agg, changes) =
  .ok (agg', changes'))

include hok

theorem raise_of_not_mem (hmem : id ∉ ids) : agg'.targetState id = agg.targetState id ∧
      changes'.get? id = changes.get? id := by
  induction ids generalizing agg changes with
  | nil =>
    cases hok
    exact ⟨rfl, rfl⟩
  | cons first rest ih =>
    obtain ⟨hne, hmem⟩ := not_or.mp (mt List.mem_cons.mpr hmem)
    obtain ⟨⟨agg₁, changes₁⟩, hfirst, hrest⟩ := bind_eq_ok.mp hok
    obtain ⟨hstate, hchange⟩ := (raising_of_raiseTarget hfirst).of_ne hne
    obtain ⟨hstate', hchange'⟩ := ih hrest hmem
    exact ⟨hstate'.trans hstate, hchange'.trans hchange⟩

/-- A target is raised from the state that it had before the loop. -/
theorem raise_of_mem (hnodup : ids.Nodup) (hmem : id ∈ ids) :
    ∃ agg₁ changes₁ agg₂ changes₂, Moves provider ∅ agg agg₁ ∧
      agg₁.targetState id = agg.targetState id ∧
      changes₁.get? id = changes.get? id ∧
      Raising provider version agg₁ changes₁ id agg₂ changes₂ ∧
      agg'.targetState id = agg₂.targetState id ∧
      changes'.get? id = changes₂.get? id := by
  induction ids generalizing agg changes with
  | nil => cases hmem
  | cons first rest ih =>
    obtain ⟨hfirst_rest, hnodup⟩ := List.nodup_cons.mp hnodup
    obtain ⟨⟨agg₁, changes₁⟩, hfirst, hrest⟩ := bind_eq_ok.mp hok
    have hraising := raising_of_raiseTarget hfirst
    by_cases h : id = first
    · subst h
      obtain ⟨hstate, hchange⟩ := raise_of_not_mem hrest hfirst_rest
      exact ⟨agg, changes, agg₁, changes₁, .refl, rfl, rfl, hraising, hstate, hchange⟩
    · obtain ⟨hstate, hchange⟩ := hraising.of_ne h
      obtain ⟨agg₂, changes₂, agg₃, changes₃, hmoves, hstate₂, hchange₂, hraising₂, hafter⟩ :=
        ih hrest hnodup ((List.mem_cons.mp hmem).resolve_left h)
      exact ⟨agg₂, changes₂, agg₃, changes₃, (hraising.moves ∅).trans hmoves,
        hstate₂.trans hstate, hchange₂.trans hchange, hraising₂, hafter⟩

end

theorem raise_ok (provider : TargetMetadataProvider) (version : SnapshotVersion)
    (h : ∀ id, (agg.targetState id).NoMetadata)
    (ids : List TargetId) (changes : OrdMap TargetId TargetChange) :
    ∃ raised, ids.foldlM (raiseTarget provider version) (agg, changes) =
      .ok raised := by
  induction ids generalizing agg changes with
  | nil => exact ⟨_, rfl⟩
  | cons first rest ih =>
    obtain ⟨⟨agg₁, changes₁⟩, hfirst⟩ :
        ∃ raised, raiseTarget provider version (agg, changes) first = .ok raised := by
      unfold raiseTarget
      dsimp only
      split
      · exact ⟨_, rfl⟩
      · split_ifs
        · rw [(noMetadata_moves (moves_synthesizeDelete _ _ _ _ _ ∅) (h first)).toTargetChange_eq]
          exact ⟨_, rfl⟩
        · exact ⟨_, rfl⟩
    rw [List.foldlM_cons, hfirst]
    exact ih (fun id =>
      noMetadata_moves ((raising_of_raiseTarget hfirst).moves ∅) (h id)) changes₁

end Raise

section CreateRemoteEvent

variable {version : SnapshotVersion} {event : RemoteEvent}

theorem createRemoteEvent_ok (provider : TargetMetadataProvider)
    (h : ∀ id, (agg.targetState id).NoMetadata) (version : SnapshotVersion) :
    ∃ event agg', agg.createRemoteEvent provider version = .ok (event, agg') := by
  obtain ⟨⟨agg₁, changes⟩, hraise⟩ := raise_ok provider version h
    (agg.targetStates.entries.map Prod.fst) .empty
  rw [createRemoteEvent, hraise]
  exact ⟨_, _, rfl⟩

variable (hok : agg.createRemoteEvent provider version = .ok (event, agg'))
include hok

theorem createRemoteEvent_inv :
    ∃ agg₁, (agg.targetStates.entries.map Prod.fst).foldlM (raiseTarget provider version)
        (agg, .empty) = .ok (agg₁, event.targetChanges) ∧
      event.documentUpdates = agg₁.pendingDocumentUpdates ∧
      event.targetMismatches = agg₁.pendingTargetResets ∧
      agg' = { targetStates := agg₁.targetStates } := by
  obtain ⟨⟨agg₁, changes⟩, hraise, h⟩ := bind_eq_ok.mp hok
  cases h
  exact ⟨agg₁, hraise, rfl, rfl, rfl⟩

/-- What an event says about a target, and the state in which it leaves the target. -/
theorem createRemoteEvent_of_known (hknown : (agg.targetStates.get? id).isSome) :
    ∃ agg₁ changes₁ agg₂ changes₂, Moves provider ∅ agg agg₁ ∧
      agg₁.targetState id = agg.targetState id ∧ changes₁.get? id = none ∧
      Raising provider version agg₁ changes₁ id agg₂ changes₂ ∧
      agg'.targetState id = agg₂.targetState id ∧
      event.targetChanges.get? id = changes₂.get? id := by
  obtain ⟨agg₁, hraise, -, -, rfl⟩ := createRemoteEvent_inv hok
  exact raise_of_mem hraise (nodup_keys _) (mem_keys.mpr hknown)

theorem createRemoteEvent_of_unknown (hunknown : agg.targetStates.get? id = none) :
    agg'.targetState id = agg.targetState id ∧
      event.targetChanges.get? id = none := by
  obtain ⟨agg₁, hraise, -, -, rfl⟩ := createRemoteEvent_inv hok
  refine raise_of_not_mem hraise (mt mem_keys.mp ?_)
  rw [hunknown]
  exact nofun

/-- A snapshot keeps the state of a target but for its document changes, and it clears these or
leaves the state as it is. -/
theorem targetState_createRemoteEvent (id : TargetId) : (agg'.targetState id).outstandingResponses =
        (agg.targetState id).outstandingResponses ∧
      (agg'.targetState id).current = (agg.targetState id).current ∧
      (agg'.targetState id = agg.targetState id ∨
        (agg'.targetState id).documentChanges = .empty) := by
  rcases hstate : agg.targetStates.get? id with - | state
  · rw [(createRemoteEvent_of_unknown hok hstate).1]
    exact ⟨rfl, rfl, .inl rfl⟩
  obtain ⟨agg₁, changes₁, agg₂, changes₂, -, hstate₁, -, hraising, hstate₂, -⟩ :=
    createRemoteEvent_of_known hok (isSome_iff_exists.mpr ⟨_, hstate⟩)
  rw [hstate₂, ← hstate₁]
  cases hraising with
  | inactive => exact ⟨rfl, rfl, .inl rfl⟩
  | @quiet data _ _ synthesized hpending =>
    subst synthesized
    rcases targetState_synthesizeDelete provider agg₁ id version data with
      heq | ⟨key, heq⟩
    · rw [heq]
      exact ⟨rfl, rfl, .inl rfl⟩
    · rw [heq] at hpending
      cases hpending
  | @raised data _ _ _ synthesized =>
    subst synthesized
    rw [targetState_modifyTargetState]
    rcases targetState_synthesizeDelete provider agg₁ id version data with
      heq | ⟨key, heq⟩
    · rw [heq]
      exact ⟨rfl, rfl, .inr rfl⟩
    · rw [heq]
      exact ⟨rfl, rfl, .inr rfl⟩

/-- A change is raised for an active target only, and it has no other documents than the target. -/
theorem targetChange_of_createRemoteEvent {change : TargetChange}
    (hget : event.targetChanges.get? id = some change) :
    agg.isActiveTarget provider id ∧ change.current = (agg.targetState id).current ∧
      change.addedDocuments ⊆ (agg.targetState id).changedKeys .added ∧
      change.modifiedDocuments ⊆ (agg.targetState id).changedKeys .modified ∧
      change.removedDocuments ⊆ (agg.targetState id).changedKeys .removed := by
  rcases hstate : agg.targetStates.get? id with - | state
  · rw [(createRemoteEvent_of_unknown hok hstate).2] at hget
    cases hget
  obtain ⟨agg₁, changes₁, agg₂, changes₂, -, hstate₁, hchanges₁, hraising, -, hevent⟩ :=
    createRemoteEvent_of_known hok (isSome_iff_exists.mpr ⟨_, hstate⟩)
  rw [hevent] at hget
  cases hraising with
  | inactive | quiet =>
    rw [hchanges₁] at hget
    cases hget
  | @raised data _ _ hdata synthesized _ hcollected =>
    subst synthesized
    rw [get?_insert, if_pos rfl, some.injEq] at hget
    subst hget
    have hnoMetadata := TargetState.noMetadata_of_toTargetChange hcollected
    rw [hnoMetadata.toTargetChange_eq] at hcollected
    cases hcollected
    constructor
    · rw [isActiveTarget_iff, ← Active.congr (congrArg _ hstate₁), ← isActiveTarget_iff,
        isActiveTarget, hdata]
      rfl
    · rw [← hstate₁]
      rcases targetState_synthesizeDelete provider agg₁ id version data with
        heq | ⟨key, heq⟩
      · rw [heq]
        exact ⟨rfl, subset_rfl, subset_rfl, subset_rfl⟩
      · have hsubset : ∀ type, ((agg₁.targetState id).removeDocumentChange key).changedKeys
            type ⊆ (agg₁.targetState id).changedKeys type := by
          intro type key' hmem
          rw [TargetState.mem_changedKeys] at hmem ⊢
          exact (get?_erase_eq_some.mp hmem).2
        rw [heq]
        exact ⟨rfl, hsubset _, hsubset _, hsubset _⟩

end CreateRemoteEvent

end WatchChangeAggregator

end Firebase.Firestore.Remote
