import Firebase.Firestore.Remote.WatchLifecycle

/-!
# The lifecycle of the write stream

Between events a write stream that is idle has nothing to write and has completed its handshake, and
a stream that is started has writes to send until its handshake is complete.  Under this invariant
no assertion about the lifecycle of the write stream fails.
-/

namespace Firebase.Firestore.Remote

open Lib Util Model Firestore.Core List Firestore.Remote.Stream

/-- What holds of the writes and their stream, also while the stream is being closed. -/
structure WriteSide.Body (enabled : Bool) (w : WriteSide) : Prop where
  stream : w.stream.Sound
  idle : w.stream.idlenessTimer → w.pipeline = [] ∧ w.handshakeComplete = true
  pipeline : w.stream.isStarted = true → ¬(w.handshakeComplete = true ∧ w.stream.state = .opened) →
    w.pipeline ≠ []
  sent : w.stream.state = .opened → w.handshakeComplete = true →
    w.sentWrites = w.answered ++ w.pipeline
  unsent : w.stream.state = .opened → w.handshakeComplete = false →
    w.sentWrites = [] ∧ w.answered = []
  length : w.pipeline.length ≤ kMaxPendingWrites
  enabled : enabled = false → w.stream.isStarted = false ∧ w.pipeline = [] ∧ w.answered = []

def WriteSide.wrote (w : WriteSide) (batch : MutationBatch) : WriteSide :=
  { w with stream := w.stream.cancelIdleCheck, sentWrites := w.sentWrites ++ [batch] }

/-- A stream that is stopped asks little of the writes. -/
theorem WriteSide.Body.of_stopped {w : WriteSide} {enabled : Bool} (hstream : w.stream.Stopped)
    (hlength : w.pipeline.length ≤ kMaxPendingWrites)
    (henabled : enabled = false → w.pipeline = [] ∧ w.answered = []) : w.Body enabled where
  stream := hstream.sound
  idle hidle := nomatch hstream.idlenessTimer.symm.trans hidle
  pipeline hstarted := nomatch hstream.isStarted.symm.trans hstarted
  sent hopen := nomatch hstream.isStarted.symm.trans (isStarted_of_opened hopen)
  unsent hopen := nomatch hstream.isStarted.symm.trans (isStarted_of_opened hopen)
  length := hlength
  enabled hdisabled := ⟨hstream.isStarted, henabled hdisabled⟩

/-- The stream of writes that are otherwise in order was stopped. -/
theorem WriteSide.Body.stop {w : WriteSide} {enabled : Bool} (h : w.Body enabled) {stream : Stream}
    (hstream : stream.Stopped) : ({ w with stream } : WriteSide).Body enabled :=
  .of_stopped hstream h.length fun hdisabled => (h.enabled hdisabled).2

variable {σ : Type} {cb : RemoteStoreCallback σ}
  {P : σ → List MutationBatch → List MutationBatch → Prop}

structure PipelineRule (cb : RemoteStoreCallback σ)
    (P : σ → List MutationBatch → List MutationBatch → Prop) : Prop extends WatchRule cb P where
  /-- The stream is opened. -/
  reset {engine answered pipeline} : P engine answered pipeline → P engine [] pipeline
  /-- The network is disabled. -/
  clear {engine answered pipeline} : P engine answered pipeline → P engine [] []
  setLastStreamToken {engine token engine' answered pipeline} : P engine answered pipeline →
    cb.setLastStreamToken engine token = .ok engine' → P engine' answered pipeline
  nextMissing {engine engine' answered pipeline} : P engine answered pipeline →
    cb.getNextMutationBatch engine (StreamedStore.lastBatchId pipeline) = .ok (engine', none) →
    P engine' answered pipeline
  nextFound {engine engine' answered pipeline batch} : P engine answered pipeline →
    cb.getNextMutationBatch engine (StreamedStore.lastBatchId pipeline) =
      .ok (engine', some batch) →
    P engine' answered (pipeline ++ [batch])
  handleSuccessfulWrite {engine result answer answered pipeline} :
    P engine answered (result.batch :: pipeline) →
    cb.handleSuccessfulWrite engine result = .ok answer →
    P answer.1 (answered ++ [result.batch]) pipeline
  handleRejectedWrite {engine batch status answer answered pipeline} :
    P engine answered (batch :: pipeline) →
    cb.handleRejectedWrite engine batch.batchId status = .ok answer →
    P answer.1 answered pipeline

variable {batch : MutationBatch}

namespace StreamedStore

variable {store : StreamedStore σ}

structure Holds (P : σ → List MutationBatch → List MutationBatch → Prop)
    (store : StreamedStore σ) : Prop where
  watch : store.watch.Inv store.isNetworkEnabled
  write : store.write.Body store.isNetworkEnabled
  engine : P store.engine store.write.answered store.write.pipeline

structure Inv (P : σ → List MutationBatch → List MutationBatch → Prop)
    (store : StreamedStore σ) : Prop extends Holds P store where
  handshake : store.write.handshakeComplete = true → store.write.stream.state = .opened

theorem inv_initial {engine : σ} (h : P engine [] []) : ({ engine } : StreamedStore σ).Inv P where
  watch := ⟨sound_initial, OnlineStateTracker.sound_initial, nofun, nofun, nofun⟩
  write := ⟨sound_initial, nofun, nofun, nofun, nofun, Nat.zero_le _,
    fun _ => ⟨rfl, rfl, rfl⟩⟩
  engine := h
  handshake := nofun

/-- A stream that is started is so on an enabled network. -/
theorem Holds.isNetworkEnabled (h : store.Holds P)
    (hstarted : store.write.stream.isStarted = true) : store.isNetworkEnabled = true := by
  by_contra hdisabled
  have hstopped := (h.write.enabled (Bool.eq_false_iff.mpr hdisabled)).1
  cases hstopped.symm.trans hstarted

variable {store' : StreamedStore σ}

/-- The targets have changed. -/
theorem WatchTo.holds (h : store.Holds P) (h' : store.Watched P store') : store'.Holds P where
  watch := h'.isNetworkEnabled ▸ h'.watch
  write := by
    rw [h'.write, h'.isNetworkEnabled]
    exact h.write
  engine := by
    rw [h'.write]
    exact h'.engine h.engine

theorem WatchTo.inv (h : store.Inv P) (h' : store.Watched P store') : store'.Inv P where
  toHolds := WatchTo.holds h.toHolds h'
  handshake := by
    rw [h'.write]
    exact h.handshake

/-! ## Filling the pipeline -/

/-- The pipeline may have grown, but the stream is as open as it was, and so is its handshake. -/
structure Filled (store store' : StreamedStore σ) : Prop where
  isNetworkEnabled : store'.isNetworkEnabled = store.isNetworkEnabled
  handshakeComplete : store'.write.handshakeComplete = store.write.handshakeComplete
  opened : store'.write.stream.state = .opened ↔ store.write.stream.state = .opened

theorem Filled.refl : Filled store store := ⟨rfl, rfl, Iff.rfl⟩

theorem Filled.trans {store' store'' : StreamedStore σ} (h : store.Filled store')
    (h' : store'.Filled store'') : store.Filled store'' :=
  ⟨h'.isNetworkEnabled.trans h.isNetworkEnabled, h'.handshakeComplete.trans h.handshakeComplete,
    h'.opened.trans h.opened⟩

theorem Filled.inv (h : store.Filled store') (h' : store'.Holds P)
    (hhandshake : store.write.handshakeComplete = true → store.write.stream.state = .opened) :
    store'.Inv P where
  toHolds := h'
  handshake hcomplete := h.opened.mpr (hhandshake (h.handshakeComplete ▸ hcomplete))

/-- What holds after batches were added. -/
abbrev FilledTo (P : σ → List MutationBatch → List MutationBatch → Prop)
    (store store' : StreamedStore σ) : Prop := store'.Holds P ∧ store.Filled store'

theorem runs_writeMutations (hstream : store.write.stream.Sound)
    (hopen : store.write.stream.state = .opened) (hcomplete : store.write.handshakeComplete = true)
    (batch : MutationBatch) : Runs (fun store' => (store.write.wrote batch).stream.Sound ∧
      store' = { store with write := store.write.wrote batch }) (store.writeMutations batch) := by
  refine (runs_lifecycleAssert (isOpen_iff.mpr hopen)).bind fun _ _ => ?_
  refine (runs_lifecycleAssert hcomplete).bind fun _ _ => ?_
  refine (runs_write hstream hopen).bind ?_
  rintro stream ⟨hsound, rfl⟩
  exact ⟨hsound, rfl⟩

/-- The store with a batch more in the pipeline. -/
theorem runs_addToWritePipeline (h : store.Holds P) (hroom : store.canAddToWritePipeline = true)
    {engine : σ} (hengine : P engine store.write.answered (store.write.pipeline ++ [batch])) :
    Runs (fun store' : StreamedStore σ => store'.Holds P ∧ store.Filled store' ∧
      store'.write.pipeline = store.write.pipeline ++ [batch])
      ({ store with engine }.addToWritePipeline batch) := by
  refine (runs_lifecycleAssert hroom).bind fun _ _ => ?_
  obtain ⟨henabled, hlength⟩ := Bool.and_eq_true_iff.mp hroom
  set new : StreamedStore σ := { store with engine, write := { store.write with
    pipeline := store.write.pipeline ++ [batch] } } with hnew
  have hnonempty : store.write.pipeline ++ [batch] ≠ [] := append_ne_nil_of_right_ne_nil _
    (cons_ne_nil _ _)
  have hlength' : (store.write.pipeline ++ [batch]).length ≤ kMaxPendingWrites := by
    rw [length_append]
    exact of_decide_eq_true hlength
  have hdisabled {p : Prop} (hdisabled : store.isNetworkEnabled = false) : p :=
    nomatch hdisabled.symm.trans henabled
  show Runs _ (if new.write.stream.isOpen && new.write.handshakeComplete then
    new.writeMutations batch else .ok new)
  split_ifs with hlive
  · obtain ⟨hopen, hcomplete⟩ := Bool.and_eq_true_iff.mp hlive
    have hopened : store.write.stream.state = .opened := isOpen_iff.mp hopen
    refine (@runs_writeMutations σ new h.write.stream hopened hcomplete batch).mono ?_
    rintro store' ⟨hsound, rfl⟩
    refine ⟨⟨h.watch, ⟨hsound, nofun, fun _ _ => hnonempty, fun _ _ => ?_, fun _ hincomplete => ?_,
      hlength', hdisabled⟩, hengine⟩, ⟨rfl, rfl, Iff.rfl⟩, rfl⟩
    · show store.write.sentWrites ++ [batch] = store.write.answered ++
        (store.write.pipeline ++ [batch])
      rw [h.write.sent hopened hcomplete, append_assoc]
    · cases hincomplete.symm.trans hcomplete
  · have hdead : ¬(store.write.handshakeComplete = true ∧ store.write.stream.state = .opened) :=
      fun ⟨hcomplete, hopened⟩ =>
        hlive (Bool.and_eq_true_iff.mpr ⟨isOpen_iff.mpr hopened, hcomplete⟩)
    refine ⟨⟨h.watch, ⟨h.write.stream, fun hidle => ?_, fun _ _ => hnonempty, ?_, h.write.unsent,
      hlength', hdisabled⟩, hengine⟩, ⟨rfl, rfl, Iff.rfl⟩, rfl⟩
    · exact absurd ⟨(h.write.idle hidle).2, h.write.stream.idlenessTimer hidle⟩ hdead
    · exact fun hopened hcomplete => absurd ⟨hcomplete, hopened⟩ hdead

/-- The stream is marked idle when there is nothing left to send. -/
theorem Holds.markIdle (h : store.Holds P) (hnil : store.write.pipeline = []) :
    ({ store with write := { store.write with stream := store.write.stream.markIdle } } :
      StreamedStore σ).Holds P where
  watch := h.watch
  write := by
    refine ⟨h.write.stream.markIdle, fun hidle => ⟨hnil, ?_⟩, fun hstarted hdead => ?_, ?_, ?_,
      h.write.length, fun hdisabled => ?_⟩
    · have hopened : store.write.stream.state = .opened :=
        state_markIdle.symm.trans (h.write.stream.markIdle.idlenessTimer hidle)
      by_contra hincomplete
      exact h.write.pipeline (isStarted_of_opened hopened)
        (fun hlive => hincomplete hlive.1) hnil
    · refine h.write.pipeline (isStarted_markIdle ▸ hstarted) fun hlive => ?_
      exact hdead ⟨hlive.1, state_markIdle.trans hlive.2⟩
    · exact fun hopened => h.write.sent (state_markIdle.symm.trans hopened)
    · exact fun hopened => h.write.unsent (state_markIdle.symm.trans hopened)
    · obtain ⟨hstopped, hempty⟩ := h.write.enabled hdisabled
      exact ⟨isStarted_markIdle.trans hstopped, hempty⟩
  engine := h.engine

theorem lastBatchId_append (pipeline : List MutationBatch) (batch : MutationBatch) :
    lastBatchId (pipeline ++ [batch]) = batch.batchId := by
  simp [lastBatchId]

theorem shouldStartWriteStream_iff : store.shouldStartWriteStream = true ↔
    store.isNetworkEnabled = true ∧ store.write.stream.isStarted = false ∧
      store.write.pipeline ≠ [] := by
  simp only [shouldStartWriteStream, Bool.and_eq_true, Bool.not_eq_true', isEmpty_eq_false_iff,
    and_assoc]

theorem runs_startWriteStream (h : store.Holds P) (hstart : store.shouldStartWriteStream = true) :
    Runs (store.FilledTo P) store.startWriteStream := by
  obtain ⟨henabled, hstopped, hpipeline⟩ := shouldStartWriteStream_iff.mp hstart
  refine (runs_lifecycleAssert hstart).bind fun _ _ => ?_
  refine (runs_start (h.write.stream.stopped hstopped)).bind ?_
  rintro stream ⟨hsound, -, hopened⟩
  refine ⟨⟨h.watch, ⟨hsound, fun hidle => absurd (hsound.idlenessTimer hidle) hopened,
    fun _ _ => hpipeline, fun hopen => absurd hopen hopened, fun hopen => absurd hopen hopened,
    h.write.length, fun hdisabled => ?_⟩, h.engine⟩, rfl, rfl, iff_of_false hopened fun hopen => ?_⟩
  · cases hdisabled.symm.trans henabled
  · cases hstopped.symm.trans (isStarted_of_opened hopen)

/-- The stream is started for the writes that there are. -/
theorem runs_startForWrites (h : store.Holds P) : Runs (store.FilledTo P)
    (if store.shouldStartWriteStream then store.startWriteStream else .ok store) := by
  split_ifs with hstart
  · exact runs_startWriteStream h hstart
  · exact ⟨h, .refl⟩

variable (rule : PipelineRule cb P)

include rule

section

variable (h : store.Holds P)

include h

theorem runs_fillRounds (rounds : Nat)
    {lastBatchIdRetrieved : Int} (hlast : lastBatchIdRetrieved = lastBatchId store.write.pipeline) :
    Runs (store.FilledTo P) (fillRounds cb rounds lastBatchIdRetrieved store) := by
  induction rounds generalizing store lastBatchIdRetrieved with
  | zero => exact ⟨h, .refl⟩
  | succ rounds ih =>
    rw [fillRounds]
    split_ifs with hroom
    · refine (runs_ofHard _).bind ?_
      rintro ⟨engine, batch⟩ hnext
      rw [hlast] at hnext
      cases batch with
      | none =>
        have hsame : ({ store with engine }).Holds P :=
          ⟨h.watch, h.write, rule.nextMissing h.engine hnext⟩
        dsimp only
        split_ifs with hempty
        · refine ⟨hsame.markIdle (isEmpty_iff.mp hempty), rfl, rfl, ?_⟩
          exact iff_of_eq (congrArg (· = _) state_markIdle)
        · exact ⟨hsame, rfl, rfl, Iff.rfl⟩
      | some batch =>
        refine (runs_addToWritePipeline h hroom (rule.nextFound h.engine hnext)).bind ?_
        rintro mid ⟨hmid, hfilled, hpipeline⟩
        have hlast' : batch.batchId = lastBatchId mid.write.pipeline := by
          rw [hpipeline, lastBatchId_append]
        exact (ih hmid hlast').mono fun store' h' => ⟨h'.1, hfilled.trans h'.2⟩
    · exact ⟨h, .refl⟩

theorem runs_fillWritePipeline : Runs (store.FilledTo P) (store.fillWritePipeline cb) := by
  refine (runs_fillRounds rule h _ rfl).bind fun mid hmid => ?_
  exact (runs_startForWrites hmid.1).mono fun store' h' => ⟨h'.1, hmid.2.trans h'.2⟩

end

/-! ## Answers of the server -/

omit rule in
/-- The batches of the pipeline are written one after another. -/
theorem runs_writeAll (hstream : store.write.stream.Sound)
    (hopen : store.write.stream.state = .opened) (hcomplete : store.write.handshakeComplete = true)
    (batches : List MutationBatch) :
    Runs (fun store' => ∃ stream : Stream, stream.Sound ∧ stream.state = .opened ∧
      (stream.idlenessTimer → store.write.stream.idlenessTimer ∧ batches = []) ∧
      store' = { store with write := { store.write with
        stream, sentWrites := store.write.sentWrites ++ batches } })
      (batches.foldlM writeMutations store) := by
  induction batches generalizing store with
  | nil =>
    refine ⟨store.write.stream, hstream, hopen, fun hidle => ⟨hidle, rfl⟩, ?_⟩
    rw [append_nil]
  | cons batch batches ih =>
    refine (runs_writeMutations hstream hopen hcomplete batch).bind ?_
    rintro mid ⟨hsound, rfl⟩
    refine (@ih { store with write := store.write.wrote batch } hsound hopen hcomplete).mono ?_
    rintro store' ⟨stream, hsound', hopen', hidle, rfl⟩
    refine ⟨stream, hsound', hopen', fun hset => absurd (hidle hset).1 Bool.false_ne_true, ?_⟩
    simp only [WriteSide.wrote, append_assoc, singleton_append]

/-- The sync engine has handled the first batch of the pipeline. -/
theorem runs_handled_fill {answer : Hard (σ × List ListenCall)}
    (hwatch : store.watch.Inv store.isNetworkEnabled)
    (hwrite : store.write.Body store.isNetworkEnabled)
    (hanswer : ∀ engine calls, answer = .ok (engine, calls) →
      P engine store.write.answered store.write.pipeline) :
    Runs (store.FilledTo P) (do
        let store ← store.handled cb answer
        store.fillWritePipeline cb) := by
  refine (runs_handled rule.toWatchRule hwatch answer).bind ?_
  rintro mid ⟨engine, calls, hok, hmid⟩
  have hnew : ({ store with engine }).Holds P :=
    ⟨hwatch, hwrite, hanswer engine calls hok⟩
  refine (runs_fillWritePipeline rule (WatchTo.holds hnew hmid)).mono fun store' h' => ⟨h'.1, ?_⟩
  have hsame : store.Filled mid := by
    refine ⟨hmid.isNetworkEnabled, ?_, ?_⟩ <;> rw [hmid.write]
  exact hsame.trans h'.2

omit rule in
/-- The token is of no consequence. -/
theorem Inv.setLastStreamToken (h : store.Inv P) (token : Bytes) :
    (store.setLastStreamToken token).Inv P where
  watch := h.watch
  write := { h.write with }
  engine := h.engine
  handshake := h.handshake

section

variable (h : store.Inv P)

include h

theorem runs_fillWritePipeline_inv : Runs (Inv P) (store.fillWritePipeline cb) :=
  (runs_fillWritePipeline rule h.toHolds).mono fun _ h' => h'.2.inv h'.1 h.handshake

/-- A started stream comes to be open. -/
theorem runs_onWriteStreamOpen
    (hstate : store.write.stream.state = .starting) {stream : Stream} (hstream : stream.Sound)
    (hopen : stream.state = .opened) :
    Runs (Inv P) { store with write := { store.write with stream } }.onWriteStreamOpen := by
  have hstarted : store.write.stream.isStarted = true := isStarted_iff.mpr (.inl hstate)
  have hincomplete : store.write.handshakeComplete = false :=
    Bool.eq_false_iff.mpr fun hcomplete => nomatch hstate.symm.trans (h.handshake hcomplete)
  have hpipeline := h.write.pipeline hstarted fun hlive => nomatch hstate.symm.trans hlive.2
  refine (runs_lifecycleAssert (isOpen_iff.mpr hopen)).bind fun _ _ => ?_
  refine (runs_lifecycleAssert (by rw [hincomplete]; rfl)).bind fun _ _ => ?_
  refine (runs_write hstream hopen).bind ?_
  rintro written ⟨hsound, rfl⟩
  refine ⟨⟨h.watch, ⟨hsound, nofun, fun _ _ => hpipeline, fun _ hcomplete => ?_,
    fun _ _ => ⟨rfl, rfl⟩, h.write.length, fun hdisabled => ?_⟩, rule.reset h.engine⟩,
      fun _ => hopen⟩
  · cases hincomplete.symm.trans hcomplete
  · cases (h.write.enabled hdisabled).1.symm.trans hstarted

section

variable (hopen : store.write.stream.state = .opened)

include hopen

theorem runs_onWriteStreamHandshakeComplete (hincomplete : store.write.handshakeComplete = false) :
    Runs (Inv P) ({ store with write := { store.write with handshakeComplete := true }
      }.onWriteStreamHandshakeComplete cb) := by
  refine (runs_ofHard _).bind fun engine hengine => ?_
  obtain ⟨hsent, hanswered⟩ := h.write.unsent hopen hincomplete
  refine (@runs_writeAll σ { store with
    engine, write := { store.write with handshakeComplete := true } } h.write.stream hopen rfl
    store.write.pipeline).mono ?_
  rintro store' ⟨stream, hsound, hopen', hidle, rfl⟩
  refine ⟨⟨h.watch, ⟨hsound, fun hset => ⟨(hidle hset).2, rfl⟩, fun _ hdead =>
    absurd ⟨rfl, hopen'⟩ hdead, fun _ _ => ?_, nofun, h.write.length, fun hdisabled => ?_⟩,
    rule.setLastStreamToken h.engine hengine⟩, fun _ => hopen'⟩
  · rw [hsent, hanswered]
  · have henabled := h.isNetworkEnabled (isStarted_of_opened hopen)
    cases hdisabled.symm.trans henabled

theorem runs_onWriteStreamMutationResult (hcomplete : store.write.handshakeComplete = true)
    (commitVersion : SnapshotVersion) (mutationResults : List MutationResult) :
    Runs (Inv P) (store.onWriteStreamMutationResult cb commitVersion mutationResults) := by
  unfold onWriteStreamMutationResult
  cases hpipeline : store.write.pipeline with
  | nil => exact ⟨_, rfl⟩
  | cons batch pipeline =>
    dsimp only
    split_ifs with hlengths
    · set new : StreamedStore σ := { store with write := { store.write with
        pipeline, answered := store.write.answered ++ [batch] } } with hnew
      have hwrite : new.write.Body store.isNetworkEnabled := by
        refine ⟨h.write.stream, fun hidle => ?_, fun _ hdead => absurd ⟨hcomplete, hopen⟩ hdead,
          fun _ _ => ?_, fun _ hnot => ?_, ?_, fun hdisabled => ?_⟩
        · cases hpipeline.symm.trans (h.write.idle hidle).1
        · refine (h.write.sent hopen hcomplete).trans ?_
          rw [hpipeline]
          exact (append_assoc store.write.answered [batch] pipeline).symm
        · cases hnot.symm.trans hcomplete
        · have hlength := h.write.length
          rw [hpipeline] at hlength
          exact Nat.le_of_succ_le hlength
        · cases hpipeline.symm.trans (h.write.enabled hdisabled).2.1
      refine (@runs_handled_fill σ cb P new rule _ h.watch hwrite fun engine calls hok => ?_).mono
        fun store' h' => h'.2.inv h'.1 fun _ => hopen
      have hengine := h.engine
      rw [hpipeline] at hengine
      exact rule.handleSuccessfulWrite hengine hok
    · exact ⟨_, rfl⟩

theorem runs_respond (result : Except Status (SnapshotVersion × List MutationResult)) :
    Runs (fun r : StreamedStore σ × Option Status => r.1.Inv P ∧
      (r.2.isSome → r.1.write.stream.isStarted = true)) (store.respond cb result) := by
  unfold respond
  split_ifs with hcomplete
  · cases result with
    | error status => exact ⟨h, fun _ => isStarted_of_opened hopen⟩
    | ok result =>
      refine (runs_onWriteStreamMutationResult rule h hopen hcomplete _ _).bind ?_
      exact fun store' h' => ⟨h', nofun⟩
  · refine (runs_onWriteStreamHandshakeComplete rule h hopen
      (Bool.eq_false_iff.mpr hcomplete)).bind fun store' h' => ⟨h', nofun⟩

theorem runs_onWriteStreamResponse (response : WriteResponse) :
    Runs (fun r : StreamedStore σ × Option Status => r.1.Inv P ∧
      (r.2.isSome → r.1.write.stream.isStarted = true))
      (store.onWriteStreamResponse cb response) :=
  runs_respond rule (h.setLastStreamToken response.streamToken) hopen response.result

end

end

/-! ## Closing the stream -/

omit rule in
theorem opened_ne_of_stopped {stream : Stream} (h : stream.Stopped) : stream.state ≠ .opened :=
  fun hopen => Bool.false_ne_true (h.isStarted.symm.trans (isStarted_of_opened hopen))

omit rule in
/-- Once the owner has been notified the handshake is void. -/
theorem Holds.voidHandshake (h : store.Holds P) (hclosed : store.write.stream.state ≠ .opened) :
    ({ store with write := { store.write with handshakeComplete := false } } :
      StreamedStore σ).Inv P where
  watch := h.watch
  write := { h.write with
    idle := fun hidle => absurd (h.write.stream.idlenessTimer hidle) hclosed
    pipeline := fun hstarted _ => h.write.pipeline hstarted fun hlive => hclosed hlive.2
    sent := fun hopen => absurd hopen hclosed
    unsent := fun hopen => absurd hopen hclosed }
  engine := h.engine
  handshake := nofun

section

variable (h : store.Holds P)

include h

theorem runs_handleHandshakeError (status : Status) :
    Runs (store.FilledTo P) (store.handleHandshakeError cb status) := by
  unfold handleHandshakeError
  split_ifs
  · refine (runs_ofHard _).bind fun engine hengine => ?_
    exact ⟨⟨h.watch, { h.write with }, rule.setLastStreamToken h.engine hengine⟩, rfl, rfl, Iff.rfl⟩
  · exact ⟨h, .refl⟩

section

variable (hstopped : store.write.stream.Stopped) (status : Status)

include hstopped

/-- A batch that was rejected for good is taken from the pipeline. -/
theorem runs_handleWriteError
    {pipeline : List MutationBatch} (hpipeline : store.write.pipeline = batch :: pipeline) :
    Runs (store.FilledTo P) (store.handleWriteError cb status batch pipeline) := by
  unfold handleWriteError
  split_ifs
  · refine (runs_inhibitBackoff hstopped).bind fun stream hstream => ?_
    have hwrite : ({ store.write with pipeline, stream }).Body
        store.isNetworkEnabled := by
      have hlength := h.write.length
      rw [hpipeline] at hlength
      refine .of_stopped hstream (Nat.le_of_succ_le hlength) fun hdisabled => ?_
      cases hpipeline.symm.trans (h.write.enabled hdisabled).2.1
    refine (@runs_handled_fill σ cb P { store with write := { store.write with pipeline, stream } }
      rule _ h.watch hwrite fun engine calls hok => ?_).mono fun store' h' => ⟨h'.1, ?_⟩
    · have hengine := h.engine
      rw [hpipeline] at hengine
      exact rule.handleRejectedWrite hengine hok
    · have hsame : store.Filled { store with write := { store.write with pipeline, stream } } :=
        ⟨rfl, rfl, iff_of_false (opened_ne_of_stopped hstream) (opened_ne_of_stopped hstopped)⟩
      exact hsame.trans h'.2
  · exact ⟨h, .refl⟩

theorem runs_handleWriteStreamError :
    Runs (store.FilledTo P) (store.handleWriteStreamError cb (some status)) := by
  unfold handleWriteStreamError
  cases hpipeline : store.write.pipeline with
  | nil => exact ⟨h, .refl⟩
  | cons batch pipeline =>
    split_ifs
    · exact runs_handleWriteError rule h hstopped status hpipeline
    · exact runs_handleHandshakeError rule h status

theorem runs_notifyWriteStreamClose :
    Runs (Inv P) (store.notifyWriteStreamClose cb (some status)) := by
  have hclose : Runs (store.FilledTo P) (store.onWriteStreamClose cb (some status)) := by
    refine (runs_lifecycleAssert rfl).bind fun _ _ => ?_
    refine (runs_handleWriteStreamError rule h hstopped status).bind fun mid hmid => ?_
    exact (runs_startForWrites hmid.1).mono fun store' h' => ⟨h'.1, hmid.2.trans h'.2⟩
  refine hclose.bind fun mid hmid => hmid.1.voidHandshake fun hopen => ?_
  exact opened_ne_of_stopped hstopped (hmid.2.opened.mp hopen)

end

end

theorem runs_failWriteStream (h : store.Inv P)
    (hstarted : store.write.stream.isStarted = true) (status : Status) :
    Runs (Inv P) (store.closeWriteStream cb (some status)) := by
  refine (runs_close h.write.stream fun _ : (some status).isSome => hstarted).bind ?_
  rintro ⟨stream, notify⟩ ⟨hstopped, hnotify, -⟩
  obtain rfl : notify = true := hnotify.trans hstarted
  have hholds : ({ store with write := { store.write with stream } }).Holds P :=
    ⟨h.watch, h.write.stop hstopped, h.engine⟩
  exact runs_notifyWriteStreamClose rule hholds hstopped status

omit rule in
/-- A graceful stop only stops the stream. -/
theorem runs_stopWriteStream (hstream : store.write.stream.Sound)
    (hhandshake : store.write.handshakeComplete = true → store.write.stream.state = .opened)
    (hneeded : store.isNetworkEnabled = true → store.write.pipeline = []) :
    Runs (fun store' => ∃ stream : Stream, stream.Stopped ∧
      store' = { store with write := { store.write with stream, handshakeComplete := false } })
      (store.closeWriteStream cb none) := by
  refine (runs_close hstream (nofun : none.isSome = true → _)).bind ?_
  rintro ⟨stream, notify⟩ ⟨hstopped, hnotify, hsame⟩
  cases notify with
  | true =>
    set new : StreamedStore σ := { store with write := { store.write with stream } } with hnew
    have hunneeded : new.shouldStartWriteStream = false := by
      refine Bool.eq_false_iff.mpr fun hstart => ?_
      obtain ⟨henabled, -, hpipeline⟩ := shouldStartWriteStream_iff.mp hstart
      exact hpipeline (hneeded henabled)
    have hclose : Runs (· = new) (new.onWriteStreamClose cb none) := by
      refine (runs_lifecycleAssert (by rw [hunneeded]; rfl)).bind fun _ _ => ?_
      show Runs (· = new) (if new.shouldStartWriteStream then new.startWriteStream else .ok new)
      rw [hunneeded]
      exact rfl
    refine hclose.bind ?_
    rintro mid rfl
    exact ⟨stream, hstopped, rfl⟩
  | false =>
    obtain rfl : stream = store.write.stream := hsame rfl
    refine ⟨store.write.stream, hstopped, ?_⟩
    have hincomplete : store.write.handshakeComplete = false :=
      Bool.eq_false_iff.mpr fun hcomplete => opened_ne_of_stopped hstopped (hhandshake hcomplete)
    rw [← hincomplete]

omit rule in
theorem runs_stopWriteStream_inv (h : store.Inv P)
    (hneeded : store.isNetworkEnabled = true → store.write.pipeline = []) :
    Runs (Inv P) (store.closeWriteStream cb none) := by
  refine (runs_stopWriteStream h.write.stream h.handshake hneeded).mono ?_
  rintro store' ⟨stream, hstopped, rfl⟩
  have hholds : ({ store with write := { store.write with stream } }).Holds P :=
    ⟨h.watch, h.write.stop hstopped, h.engine⟩
  exact hholds.voidHandshake (opened_ne_of_stopped hstopped)

end StreamedStore

end Firebase.Firestore.Remote
