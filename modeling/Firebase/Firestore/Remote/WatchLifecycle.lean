import Firebase.Firestore.Remote.StreamedStore

/-!
# The lifecycle of the watch stream

Between events a watch stream that is idle has no targets, and the timer of the online state is
scheduled only while the stream is started.  Under this invariant no assertion about the lifecycle
of the watch stream fails.

The sync engine and the local store may answer whatever they like; a property `P` of them and of the
batches is kept if their answers keep it.
-/

namespace Firebase.Firestore.Remote

open Lib Util Model Firestore.Core OrdMap List Firestore.Remote.Stream

structure WatchSide.Inv (enabled : Bool) (w : WatchSide) : Prop where
  stream : w.stream.Sound
  tracker : w.tracker.Sound
  timer : w.tracker.onlineStateTimer → w.stream.isStarted = true
  idle : w.stream.idlenessTimer → w.listening.listenTargets.entries = []
  enabled : w.stream.isStarted = true → enabled = true

variable {σ : Type} {cb : RemoteStoreCallback σ}
  {P : σ → List MutationBatch → List MutationBatch → Prop}

/-- What is kept by the answers that have to do with targets. -/
structure WatchRule (cb : RemoteStoreCallback σ)
    (P : σ → List MutationBatch → List MutationBatch → Prop) : Prop where
  applyRemoteEvent {engine event answer answered pipeline} : P engine answered pipeline →
    cb.applyRemoteEvent engine event = .ok answer → P answer.1 answered pipeline
  handleRejectedListen {engine targetId cause answer answered pipeline} :
    P engine answered pipeline →
    cb.handleRejectedListen engine targetId cause = .ok answer → P answer.1 answered pipeline
  handleOnlineStateChange {engine state engine' answered pipeline} : P engine answered pipeline →
    cb.handleOnlineStateChange engine state = .ok engine' → P engine' answered pipeline

namespace StreamedStore

variable {store : StreamedStore σ}

/-- The writes are as they were, and the targets have come to a state with a property. -/
structure WatchTo (P : σ → List MutationBatch → List MutationBatch → Prop)
    (store : StreamedStore σ) (post : WatchSide → Prop) (store' : StreamedStore σ) : Prop where
  write : store'.write = store.write
  isNetworkEnabled : store'.isNetworkEnabled = store.isNetworkEnabled
  engine {answered pipeline : List MutationBatch} :
    P store.engine answered pipeline → P store'.engine answered pipeline
  watch : post store'.watch

abbrev Watched (P : σ → List MutationBatch → List MutationBatch → Prop) (store : StreamedStore σ) :=
  store.WatchTo P (·.Inv store.isNetworkEnabled)

variable {post post' : WatchSide → Prop}

theorem WatchTo.trans {mid store' : StreamedStore σ}
    (h : store.WatchTo P post mid) (h' : mid.WatchTo P post' store') :
    store.WatchTo P post' store' :=
  ⟨h'.write.trans h.write, h'.isNetworkEnabled.trans h.isNetworkEnabled,
    fun hengine => h'.engine (h.engine hengine), h'.watch⟩

theorem WatchTo.mono {store' : StreamedStore σ}
    (h : store.WatchTo P post store') (hpost : ∀ w, post w → post' w) :
    store.WatchTo P post' store' :=
  { h with watch := hpost _ h.watch }

theorem WatchTo.andThen {mid store' : StreamedStore σ} (h : store.WatchTo P post mid)
    (h' : mid.Watched P store') : store.Watched P store' :=
  h.trans { h' with watch := h.isNetworkEnabled ▸ h'.watch }

/-- A loop keeps the invariant if every round does. -/
theorem runs_foldlM_inv {ι : Type} {f : StreamedStore σ → ι → Streamed (StreamedStore σ)}
    (hf : ∀ mid i, mid.watch.Inv mid.isNetworkEnabled →
      Runs (mid.Watched P) (f mid i))
    (h : store.watch.Inv store.isNetworkEnabled) (is : List ι) :
    Runs (store.Watched P) (is.foldlM f store) := by
  refine meets_foldlM (store.Watched P) ?_ ⟨rfl, rfl, id, h⟩
  intro mid i _ hmid
  exact (hf mid i (hmid.isNetworkEnabled ▸ hmid.watch)).mono fun _ h' => hmid.andThen h'

/-! ## Targets -/

/-- The side of the targets, with the online state reset. -/
structure Reset (w w' : WatchSide) : Prop where
  listening : w'.listening = w.listening
  stream : w'.stream = w.stream
  tracker : w'.tracker.Sound
  timer : w'.tracker.onlineStateTimer = false

theorem Reset.inv {w w' : WatchSide} {enabled : Bool} (h : Reset w w') (hw : w.Inv enabled) :
    w'.Inv enabled where
  stream := h.stream ▸ hw.stream
  tracker := h.tracker
  timer htimer := by simp [h.timer] at htimer
  idle := by
    rw [h.stream, h.listening]
    exact hw.idle
  enabled := h.stream ▸ hw.enabled

theorem shouldStartWatchStream_iff : store.shouldStartWatchStream = true ↔
    store.isNetworkEnabled = true ∧ store.watch.stream.isStarted = false ∧
      store.watch.listening.listenTargets.entries ≠ [] := by
  simp only [shouldStartWatchStream, Bool.and_eq_true, Bool.not_eq_true', isEmpty_eq_false_iff,
    and_assoc]

/-- To write to the stream is to have something to do. -/
theorem runs_sendRequest (hstream : store.watch.stream.Sound)
    (htracker : store.watch.tracker.Sound) (hopen : store.watch.stream.state = .opened)
    (henabled : store.isNetworkEnabled = true) (request : WatchRequest) :
    Runs (store.WatchTo P fun w => w.Inv store.isNetworkEnabled ∧ w.stream.state = .opened ∧
      w.listening.listenTargets = store.watch.listening.listenTargets)
      (store.sendRequest request) := by
  refine (runs_write hstream hopen).bind ?_
  rintro stream ⟨hsound, rfl⟩
  have hstarted := isStarted_of_opened hopen
  exact ⟨rfl, rfl, id, ⟨hsound, htracker, fun _ => hstarted, nofun, fun _ => henabled⟩, hopen, rfl⟩

variable {listenTargets : OrdMap TargetId TargetData}

/-- Other targets are of no consequence to a stream that is not idle. -/
theorem watchInv_setListenTargets (h : store.watch.Inv store.isNetworkEnabled)
    (hidle : store.watch.stream.idlenessTimer = true → listenTargets.entries = []) :
    (store.setListenTargets listenTargets).watch.Inv store.isNetworkEnabled :=
  { h with idle := hidle }

theorem entries_erase_of_nil (h : listenTargets.entries = []) (targetId : TargetId) :
    (listenTargets.erase targetId).entries = [] := by
  refine eq_nil_iff_forall_not_mem.mpr ?_
  rintro ⟨other, targetData⟩ hmem
  rw [mem_entries, get?_erase_eq_some] at hmem
  have hold := mem_entries.mpr hmem.2
  rw [h] at hold
  cases hold

/-- A stream that is not started fits any targets, once no timer waits for it. -/
theorem watchInv_of_stopped {w : WatchSide} {enabled : Bool} (hstream : w.stream.Stopped)
    (htracker : w.tracker.Sound) (htimer : w.tracker.onlineStateTimer = false) : w.Inv enabled where
  stream := hstream.sound
  tracker := htracker
  timer h := by simp [htimer] at h
  idle h := by simp [hstream.idlenessTimer] at h
  enabled h := by simp [hstream.isStarted] at h

variable (rule : WatchRule cb P)

include rule

theorem runs_broadcast (store : StreamedStore σ) (state : Option OnlineState) :
    Runs (store.WatchTo P (· = store.watch)) (store.broadcast cb state) := by
  cases state with
  | none => exact ⟨rfl, rfl, id, rfl⟩
  | some state =>
    refine (runs_ofHard _).bind fun engine hengine => ⟨rfl, rfl, fun h => ?_, rfl⟩
    exact rule.handleOnlineStateChange h hengine

theorem runs_updateState (store : StreamedStore σ) (state : OnlineState) :
    Runs (store.WatchTo P (Reset store.watch)) (store.updateState cb state) := by
  refine (runs_broadcast rule _ _).mono fun store' h => { h with watch := ?_ }
  rw [h.watch]
  exact ⟨rfl, rfl, OnlineStateTracker.sound_updateState _,
    OnlineStateTracker.onlineStateTimer_updateState _⟩

theorem runs_startWatchStream (hstream : store.watch.stream.Sound)
    (htracker : store.watch.tracker.Sound) (htimer : store.watch.tracker.onlineStateTimer = false)
    (hstart : store.shouldStartWatchStream = true) :
    Runs (store.Watched P) (store.startWatchStream cb) := by
  obtain ⟨henabled, hstarted, -⟩ := shouldStartWatchStream_iff.mp hstart
  refine (runs_lifecycleAssert hstart).bind fun _ _ => ?_
  refine (runs_start (hstream.stopped hstarted)).bind ?_
  rintro stream ⟨hsound, hstarted', hopened⟩
  refine (OnlineStateTracker.runs_handleWatchStreamStart htracker htimer).bind ?_
  intro r hr
  refine (runs_broadcast rule _ _).mono fun store' h => { h with watch := ?_ }
  rw [h.watch]
  exact ⟨hsound, hr, fun _ => hstarted', fun hidle => absurd (hsound.idlenessTimer hidle) hopened,
    fun _ => henabled⟩

section

variable (h : store.watch.Inv store.isNetworkEnabled)

include h

theorem runs_listen (targetData : TargetData) :
    Runs (store.Watched P) (store.listen cb targetData) := by
  unfold listen
  dsimp only
  by_cases hknown : (store.watch.listening.listenTargets.get? targetData.targetId).isSome = true
  · rw [if_pos hknown]
    exact ⟨rfl, rfl, id, h⟩
  · rw [if_neg hknown]
    set new := store.setListenTargets _ with hnew
    split_ifs with hstart hopen
    · have htimer : store.watch.tracker.onlineStateTimer = false := by
        refine Bool.eq_false_iff.mpr fun htimer => ?_
        have hstopped := (shouldStartWatchStream_iff.mp hstart).2.1
        cases hstopped.symm.trans (h.timer htimer)
      refine (@runs_startWatchStream σ cb P new rule h.stream h.tracker htimer hstart).mono ?_
      exact fun store' h' => { h' with }
    · have hopened := isOpen_iff.mp hopen
      refine (@runs_sendRequest σ P new h.stream h.tracker hopened
        (h.enabled (isStarted_of_opened hopened)) _).mono ?_
      exact fun store' h' => { h' with watch := h'.watch.1 }
    · refine ⟨rfl, rfl, id, watchInv_setListenTargets h fun hidle => ?_⟩
      exact absurd (isOpen_iff.mpr (h.stream.idlenessTimer hidle)) hopen

theorem runs_stopWatching : Runs (store.Watched P) (store.stopWatching cb) := by
  unfold stopWatching
  split_ifs with hempty hopen
  · refine ⟨rfl, rfl, id, h.stream.markIdle, h.tracker, ?_, fun _ => isEmpty_iff.mp hempty, ?_⟩
    · exact fun htimer => (isStarted_markIdle).trans (h.timer htimer)
    · exact fun hstarted => h.enabled (isStarted_markIdle ▸ hstarted)
  · exact (runs_updateState rule store .unknown).mono fun store' h' =>
      { h' with watch := h'.watch.inv h }
  · exact ⟨rfl, rfl, id, h⟩
  · exact ⟨rfl, rfl, id, h⟩

theorem runs_stopListening (targetId : TargetId) :
    Runs (store.Watched P) (store.stopListening cb targetId) := by
  refine (runs_ofHard _).bind fun _ _ => ?_
  have herased := watchInv_setListenTargets h fun hidle =>
    entries_erase_of_nil (h.idle hidle) targetId
  set new := store.setListenTargets (store.watch.listening.listenTargets.erase targetId) with hnew
  have hsent : Runs (store.Watched P) (new.sendUnwatchRequest targetId) := by
    unfold sendUnwatchRequest
    split_ifs with hopen
    · have hopened := isOpen_iff.mp hopen
      refine (runs_sendRequest (P := P) herased.stream herased.tracker hopened
        (herased.enabled (isStarted_of_opened hopened)) _).mono ?_
      exact fun store' h' => { h' with watch := h'.watch.1 }
    · exact ⟨rfl, rfl, id, herased⟩
  refine hsent.bind fun mid hmid => ?_
  exact (runs_stopWatching rule (hmid.isNetworkEnabled ▸ hmid.watch)).mono fun _ h' =>
    hmid.andThen h'

theorem runs_listenCall (call : ListenCall) :
    Runs (store.Watched P) (store.listenCall cb call) := by
  cases call with
  | listen targetData => exact runs_listen rule h targetData
  | stopListening targetId => exact runs_stopListening rule h targetId

/-- Whatever the sync engine answers, and whatever it calls. -/
theorem runs_handled (answer : Hard (σ × List ListenCall)) :
    Runs (fun store' => ∃ engine calls, answer = .ok (engine, calls) ∧
      { store with engine }.Watched P store')
      (store.handled cb answer) := by
  refine (runs_ofHard answer).bind ?_
  rintro ⟨engine, calls⟩ hanswer
  exact (@runs_foldlM_inv σ P { store with engine } _ _
    (fun _ call h => runs_listenCall rule h call) h calls).mono
      fun store' h' => ⟨engine, calls, hanswer, h'⟩

theorem runs_rejectTarget (cause : Option Error) (targetId : TargetId) :
    Runs (store.Watched P) (store.rejectTarget cb cause targetId) := by
  unfold rejectTarget
  split_ifs with hknown
  · refine (runs_handled rule ?_ _).mono ?_
    swap
    · rintro store' ⟨engine, calls, hanswer, h'⟩
      refine { h' with engine := fun hengine => h'.engine ?_ }
      exact rule.handleRejectedListen hengine hanswer
    refine { h with idle := fun hidle => ?_ }
    rw [RemoteStore.rejectTarget, if_pos hknown]
    exact entries_erase_of_nil (h.idle hidle) targetId
  · exact ⟨rfl, rfl, id, h⟩

end

/-! ## The watch stream -/

omit rule in
theorem runs_onWatchStreamOpen (h : store.watch.Inv store.isNetworkEnabled)
    (hopen : store.watch.stream.state = .opened) :
    Runs (store.Watched P) store.onWatchStreamOpen := by
  have henabled := h.enabled (isStarted_of_opened hopen)
  refine (meets_foldlM (store.WatchTo P fun w => w.Inv store.isNetworkEnabled ∧
    w.stream.state = .opened) ?_ ⟨rfl, rfl, id, h, hopen⟩).mono
      fun store' h' => { h' with watch := h'.watch.1 }
  intro mid entry _ hmid
  refine (runs_sendRequest (P := P) hmid.watch.1.stream hmid.watch.1.tracker hmid.watch.2
    (hmid.isNetworkEnabled.trans henabled) _).mono fun store' h' => ?_
  exact hmid.trans { h' with watch := ⟨hmid.isNetworkEnabled ▸ h'.watch.1, h'.watch.2.1⟩ }

theorem runs_retryWatchStream (hstream : store.watch.stream.Stopped)
    (htracker : store.watch.tracker.Sound) :
    Runs (store.WatchTo P fun w => w.Inv store.isNetworkEnabled ∧
      (store.shouldStartWatchStream = false → w.stream.isStarted = false))
      (store.retryWatchStream cb) := by
  unfold retryWatchStream
  split_ifs with hstart
  · refine (OnlineStateTracker.runs_handleWatchStreamFailure htracker).bind ?_
    rintro r ⟨hsound, htimer⟩
    refine (runs_broadcast rule _ _).bind fun mid hmid => ?_
    have hwatch := hmid.watch
    have hmidStart : mid.shouldStartWatchStream = true := by
      rw [shouldStartWatchStream, hmid.isNetworkEnabled, hwatch]
      exact hstart
    refine (runs_startWatchStream rule (hwatch ▸ hstream.sound) (hwatch ▸ hsound) (hwatch ▸ htimer)
      hmidStart).mono fun store' h' => ?_
    exact { hmid.andThen h' with watch := ⟨(hmid.andThen h').watch,
      fun hnot => absurd hstart (Bool.eq_false_iff.mp hnot)⟩ }
  · refine (runs_updateState rule _ _).mono fun store' h' =>
      { h' with watch := ⟨?_, ?_⟩ }
    · have hstopped : store'.watch.stream.Stopped := h'.watch.stream ▸ hstream
      exact watchInv_of_stopped hstopped h'.watch.tracker h'.watch.timer
    · intro _
      rw [h'.watch.stream]
      exact hstream.isStarted

theorem runs_onWatchStreamClose (hstream : store.watch.stream.Stopped)
    (htracker : store.watch.tracker.Sound) {status : Option Status}
    (hneeded : status = none → store.shouldStartWatchStream = false) :
    Runs (store.WatchTo P fun w => w.Inv store.isNetworkEnabled ∧
      (status = none → w.stream.isStarted = false)) (store.onWatchStreamClose cb status) := by
  refine (runs_lifecycleAssert ?_).bind fun _ _ => ?_
  · cases status with
    | none =>
      rw [hneeded rfl]
      rfl
    | some status => rfl
  · refine (@runs_retryWatchStream σ cb P store.cleanUpWatchStreamState rule hstream
      htracker).mono ?_
    exact fun store' h' => { h' with
      watch := ⟨h'.watch.1, fun hnone => h'.watch.2 (hneeded hnone)⟩ }

theorem runs_closeWatchStream (hstream : store.watch.stream.Sound)
    (htracker : store.watch.tracker.Sound)
    (htimer : store.watch.tracker.onlineStateTimer → store.watch.stream.isStarted = true)
    {status : Option Status} (hstarted : status.isSome → store.watch.stream.isStarted = true)
    (hneeded : status = none → store.isNetworkEnabled = true →
      store.watch.listening.listenTargets.entries = []) :
    Runs (store.WatchTo P fun w => w.Inv store.isNetworkEnabled ∧
      (status = none → w.stream.isStarted = false)) (store.closeWatchStream cb status) := by
  refine (runs_close hstream hstarted).bind ?_
  rintro ⟨stream, notify⟩ ⟨hstopped, hnotify, hsame⟩
  cases notify with
  | true =>
    refine (@runs_onWatchStreamClose σ cb P { store with watch := { store.watch with stream } }
      rule hstopped htracker status fun hnone => Bool.eq_false_iff.mpr fun hstart => ?_).mono
        fun store' h' => { h' with }
    obtain ⟨henabled, -, htargets⟩ := shouldStartWatchStream_iff.mp hstart
    exact htargets (hneeded hnone henabled)
  | false =>
    refine ⟨rfl, rfl, id, watchInv_of_stopped hstopped htracker (Bool.eq_false_iff.mpr fun h => ?_),
      fun _ => hstopped.isStarted⟩
    cases hnotify.trans (htimer h)

omit rule in
/-- If nothing was requested afresh the targets are the ones there were. -/
theorem entries_eq_nil_of_sends {listening listening' : RemoteStore}
    (hsends : RemoteStore.Sends listening listening' [])
    (h : listening.listenTargets.entries = []) : listening'.listenTargets.entries = [] := by
  refine eq_nil_iff_forall_not_mem.mpr ?_
  rintro ⟨targetId, targetData⟩ hmem
  have hsome := congrArg Option.isSome (mem_entries.mp hmem)
  rw [hsends.listens (forall_mem_nil _)] at hsome
  obtain ⟨old, hold⟩ := Option.isSome_iff_exists.mp hsome
  have hentry := mem_entries.mpr hold
  rw [h] at hentry
  cases hentry

omit rule in
theorem runs_writes {stream : Stream} (h : stream.Sound) (hopen : stream.state = .opened)
    (requests : List WatchRequest) :
    Runs (fun stream' : Stream => stream'.Sound ∧ stream'.state = .opened ∧
      (stream'.idlenessTimer → requests = [] ∧ stream' = stream))
      (requests.foldlM (fun stream _ => stream.write) stream) := by
  cases requests with
  | nil => exact ⟨h, hopen, fun _ => ⟨rfl, rfl⟩⟩
  | cons request requests =>
    rw [foldlM_cons]
    refine (runs_write h hopen).bind ?_
    rintro first ⟨hfirst, rfl⟩
    refine (meets_foldlM (fun stream' : Stream => stream'.Sound ∧ stream'.state = .opened ∧
      stream'.idlenessTimer = false) ?_ ⟨hfirst, hopen, rfl⟩).mono fun stream' h' =>
        ⟨h'.1, h'.2.1, fun hidle => absurd h'.2.2 (Bool.eq_false_iff.not.mpr (not_not.mpr hidle))⟩
    rintro mid _ _ ⟨hmid, hmidOpen, -⟩
    refine (runs_write hmid hmidOpen).mono ?_
    rintro last ⟨hlast, rfl⟩
    exact ⟨hlast, hmidOpen, rfl⟩

theorem runs_onWatchStreamChange (h : store.watch.Inv store.isNetworkEnabled)
    (hopen : store.watch.stream.state = .opened) (message : WatchChange)
    (snapshotVersion : SnapshotVersion) :
    Runs (store.Watched P) (store.onWatchStreamChange cb message snapshotVersion) := by
  refine (runs_updateState rule store .online).bind fun mid hmid => ?_
  have hinv : mid.watch.Inv mid.isNetworkEnabled :=
    hmid.isNetworkEnabled ▸ hmid.watch.inv h
  have hmidOpen : mid.watch.stream.state = .opened := by rw [hmid.watch.stream, hopen]
  cases herror : RemoteStore.targetError message with
  | some change =>
    exact (runs_foldlM_inv (fun _ targetId h => runs_rejectTarget rule h _ targetId) hinv _).mono
      fun _ h' => hmid.andThen h'
  | none =>
    refine (runs_ofHard _).bind ?_
    rintro ⟨listening, event⟩ hheard
    obtain ⟨change, hchange, -⟩ | ⟨-, hheard⟩ := RemoteStore.onWatchStreamChange_cases hheard
    · cases herror.symm.trans hchange
    obtain ⟨agg, agg', requests, -, -, hsends⟩ := hheard.hears
    refine (runs_writes hinv.stream hmidOpen _).bind ?_
    rintro stream ⟨hstream, hstreamOpen, hidle⟩
    have hstarted := isStarted_of_opened hstreamOpen
    have hafter : ({ mid.watch with listening, stream } : WatchSide).Inv
        mid.isNetworkEnabled := by
      refine ⟨hstream, hinv.tracker, fun _ => hstarted, fun hset => ?_, fun _ =>
        hinv.enabled (isStarted_of_opened hmidOpen)⟩
      obtain ⟨hnone, rfl⟩ := hidle hset
      have hwritten : listening.watchRequests = mid.watch.listening.watchRequests ++ requests :=
        hsends.written
      rw [hwritten, drop_left] at hnone
      subst hnone
      exact entries_eq_nil_of_sends hsends (hinv.idle hset)
    cases event with
    | none => exact hmid.andThen ⟨rfl, rfl, id, hafter⟩
    | some event =>
      refine (runs_handled rule hafter _).mono ?_
      rintro store' ⟨engine, calls, hanswer, h'⟩
      refine hmid.andThen { h' with engine := fun hengine => h'.engine ?_ }
      exact rule.applyRemoteEvent hengine hanswer

end StreamedStore

end Firebase.Firestore.Remote
