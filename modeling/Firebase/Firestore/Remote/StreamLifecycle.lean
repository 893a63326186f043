import Firebase.Firestore.Remote.WriteLifecycle

/-!
# The lifecycle of the streams

No assertion of the remote store, of its streams or of its online state that is about the
lifecycle of the streams fails, whatever the sync engine and the local store answer and in
whatever order the events come.
-/

namespace Firebase.Firestore.Remote

open Lib Util Model Firestore.Core Firestore.Remote.Stream

namespace StreamedStore

variable {σ : Type} {cb : RemoteStoreCallback σ}
  {P : σ → List MutationBatch → List MutationBatch → Prop} {store : StreamedStore σ}

/-! ## The network -/

structure Disabled (P : σ → List MutationBatch → List MutationBatch → Prop)
    (store : StreamedStore σ) : Prop extends Inv P store where
  watchStopped : store.watch.stream.Stopped
  writeStopped : store.write.stream.Stopped

theorem runs_startWatching (rule : WatchRule cb P) (h : store.watch.Inv store.isNetworkEnabled) :
    Runs (store.Watched P) (store.startWatching cb) := by
  unfold startWatching
  split_ifs with hstart
  · refine runs_startWatchStream rule h.stream h.tracker (Bool.eq_false_iff.mpr fun htimer => ?_)
      hstart
    have hstopped := (shouldStartWatchStream_iff.mp hstart).2.1
    cases hstopped.symm.trans (h.timer htimer)
  · exact (runs_updateState rule store .unknown).mono fun store' h' => h'.mono fun _ hreset =>
      hreset.inv h

theorem runs_updateState_disabled (rule : WatchRule cb P) (h : store.Disabled P)
    (state : OnlineState) : Runs (Disabled P) (store.updateState cb state) := by
  refine (runs_updateState rule store state).mono fun store' h' => ?_
  refine ⟨WatchTo.inv h.toInv (h'.mono fun _ hreset => hreset.inv h.watch), ?_, ?_⟩
  · exact h'.watch.stream ▸ h.watchStopped
  · exact h'.write ▸ h.writeStopped

section

variable (rule : PipelineRule cb P)

include rule

theorem runs_enableNetwork (h : store.Inv P) : Runs (Inv P) (store.enableNetwork cb) := by
  have henabled : ({ store with isNetworkEnabled := true }).Inv P :=
    ⟨⟨{ h.watch with enabled := fun _ => rfl }, { h.write with enabled := nofun }, h.engine⟩,
      h.handshake⟩
  have hnew := henabled.setLastStreamToken (cb.getLastStreamToken store.engine)
  refine (runs_startWatching rule.toWatchRule hnew.watch).bind fun mid hmid => ?_
  exact runs_fillWritePipeline_inv rule (WatchTo.inv hnew hmid)

section

variable (hwatch : store.watch.Inv store.isNetworkEnabled) (hstream : store.write.stream.Sound)
  (hhandshake : store.write.handshakeComplete = true → store.write.stream.state = .opened)
  (hengine : P store.engine [] [])

include hwatch hstream hhandshake hengine

/-- The network may be disabled after the sync engine has come to any state that fits an empty
pipeline. -/
theorem runs_disableNetworkInternal : Runs (Disabled P) (store.disableNetworkInternal cb) := by
  refine (@runs_closeWatchStream σ cb P { store with isNetworkEnabled := false } rule.toWatchRule
    hwatch.stream hwatch.tracker hwatch.timer none nofun fun _ henabled =>
      absurd henabled Bool.false_ne_true).bind fun mid hmid => ?_
  have hdisabled : mid.isNetworkEnabled = false := hmid.isNetworkEnabled
  have hwrite : mid.write = store.write := hmid.write
  refine (@runs_stopWriteStream σ cb mid (hwrite ▸ hstream) (hwrite ▸ hhandshake)
    fun henabled => nomatch hdisabled.symm.trans henabled).bind ?_
  rintro last ⟨stream, hstopped, rfl⟩
  have hmidWatch : mid.watch.Inv mid.isNetworkEnabled := hmid.isNetworkEnabled ▸ hmid.watch.1
  exact ⟨⟨⟨{ hmidWatch with }, .of_stopped hstopped (Nat.zero_le _) fun _ => ⟨rfl, rfl⟩,
    hmid.engine hengine⟩, nofun⟩, hmid.watch.1.stream.stopped (hmid.watch.2 rfl), hstopped⟩

theorem runs_restartNetwork : Runs (Inv P) (store.restartNetwork cb) := by
  refine (runs_disableNetworkInternal rule hwatch hstream hhandshake hengine).bind fun mid
    hmid => ?_
  refine (runs_updateState_disabled rule.toWatchRule hmid .unknown).bind fun last hlast => ?_
  refine (runs_inhibitBackoff hlast.writeStopped).bind fun writeStream hwriteStream => ?_
  refine (runs_inhibitBackoff hlast.watchStopped).bind fun watchStream hwatchStream => ?_
  refine runs_enableNetwork rule ⟨⟨?_, hlast.write.stop hwriteStream, hlast.engine⟩,
    fun hcomplete => ?_⟩
  · refine watchInv_of_stopped hwatchStream hlast.watch.tracker
      (Bool.eq_false_iff.mpr fun htimer => ?_)
    cases hlast.watchStopped.isStarted.symm.trans (hlast.watch.timer htimer)
  · exact absurd (hlast.handshake hcomplete) (opened_ne_of_stopped hlast.writeStopped)

end

/-- The sync engine may come to any state that fits an empty pipeline. -/
theorem runs_handleCredentialChange
    {Q : σ → List MutationBatch → List MutationBatch → Prop} (h : store.Inv Q) {engine : σ}
    (hengine : P engine [] []) :
      Runs (Inv P) ({ store with engine }.handleCredentialChange cb) := by
  unfold handleCredentialChange
  split_ifs with henabled
  · exact runs_restartNetwork rule h.watch h.write.stream h.handshake hengine
  · obtain ⟨-, hpipeline, hanswered⟩ := h.write.enabled (Bool.eq_false_iff.mpr henabled)
    refine ⟨⟨h.watch, h.write, ?_⟩, h.handshake⟩
    rw [hpipeline, hanswered]
    exact hengine

end

/-! ## Events of the streams -/

section

variable (rule : WatchRule cb P) (h : store.Inv P)

include rule h

theorem runs_closeWatchStream_inv {status : Option Status}
    (hstarted : status.isSome → store.watch.stream.isStarted = true)
    (hneeded : status = none → store.isNetworkEnabled = true →
      store.watch.listening.listenTargets.entries = []) :
    Runs (Inv P) (store.closeWatchStream cb status) := by
  refine (runs_closeWatchStream rule h.watch.stream h.watch.tracker h.watch.timer hstarted
    hneeded).mono fun store' h' => ?_
  exact WatchTo.inv h (h'.mono fun _ hw => hw.1)

theorem runs_watchCredentials (index : Nat)
    (token : Except Status Unit) : Runs (Inv P) (store.watchCredentials cb index token) := by
  have hdropped := h.watch.stream.dropRequest index
  unfold watchCredentials
  split_ifs with hcurrent
  · have hstate := h.watch.stream.requested (List.mem_of_getElem? hcurrent)
    have hstarted : store.watch.stream.isStarted = true := isStarted_iff.mpr (.inl hstate)
    have henabled := h.watch.enabled hstarted
    refine (runs_resumeStartWithCredentials hdropped hstate
      (h.watch.stream.notMem_dropRequest hcurrent) token).bind ?_
    rintro ⟨stream, resumed⟩ ⟨hstream, hresumed⟩
    cases resumed with
    | opened =>
      obtain ⟨hopen, hidle⟩ := hresumed
      have hwatch : ({ store.watch with stream }).Inv store.isNetworkEnabled :=
        ⟨hstream, h.watch.tracker, fun _ => isStarted_of_opened hopen,
          fun hset => (nomatch hidle.symm.trans hset), fun _ => henabled⟩
      refine (@runs_onWatchStreamOpen σ P { store with watch := { store.watch with stream } } hwatch
        hopen).mono fun store' h' => ?_
      exact WatchTo.inv h { h' with }
    | closed status notify =>
      obtain ⟨hstopped, rfl⟩ := hresumed
      refine (@runs_onWatchStreamClose σ cb P { store with watch := { store.watch with stream } }
        rule hstopped h.watch.tracker (some status) nofun).mono fun store' h' => ?_
      exact WatchTo.inv h { h' with watch := h'.watch.1 }
  · exact ⟨⟨{ h.watch with stream := hdropped }, h.write, h.engine⟩, h.handshake⟩

theorem runs_watchEvent (event : StreamEvent) : Runs (Inv P) (store.watchEvent cb event) := by
  cases event with
  | credentials index token => exact runs_watchCredentials rule h index token
  | finish status =>
    rw [watchEvent]
    split_ifs with hgrpc
    · exact runs_closeWatchStream_inv rule h
        (fun _ => isStarted_of_opened (h.watch.stream.hasGrpcStream hgrpc)) nofun
    · exact h
  | backoffElapsed =>
    rw [watchEvent]
    split_ifs with htimer
    · have henabled := h.watch.enabled
        (isStarted_iff.mpr (.inr (.inl (h.watch.stream.backoffTimer htimer))))
      refine (runs_backoffElapsed h.watch.stream htimer).bind ?_
      rintro stream ⟨hsound, hstarted, hopened⟩
      exact ⟨⟨⟨hsound, h.watch.tracker, fun _ => hstarted,
        fun hidle => absurd (hsound.idlenessTimer hidle) hopened, fun _ => henabled⟩, h.write,
        h.engine⟩, h.handshake⟩
    · exact h
  | idleTimeout =>
    rw [watchEvent]
    split_ifs with hidle
    · exact runs_closeWatchStream_inv rule h nofun fun _ _ => h.watch.idle hidle
    · exact h

theorem runs_watchRead (message : Except Status (WatchChange × SnapshotVersion)) :
    Runs (Inv P) (store.watchRead cb message) := by
  unfold watchRead
  split_ifs with hgrpc
  · have hopen := h.watch.stream.hasGrpcStream hgrpc
    have hstarted := isStarted_of_opened hopen
    refine (runs_lifecycleAssert hstarted).bind fun _ _ => ?_
    cases message with
    | error status => exact runs_closeWatchStream_inv rule h (fun _ => hstarted) nofun
    | ok message =>
      exact (runs_onWatchStreamChange rule h.watch hopen _ _).mono fun store' h' => WatchTo.inv h h'
  · exact h

theorem runs_onlineStateTimeout : Runs (Inv P) (store.onlineStateTimeout cb) := by
  unfold onlineStateTimeout
  split_ifs with htimer
  · refine (OnlineStateTracker.runs_onlineStateTimeout h.watch.tracker htimer).bind ?_
    rintro r ⟨hsound, hoff⟩
    refine (runs_broadcast rule _ _).mono fun store' h' => ?_
    refine WatchTo.inv h { h' with watch := ?_ }
    rw [h'.watch]
    exact { h.watch with tracker := hsound, timer := fun hon => nomatch hoff.symm.trans hon }
  · exact h

end

section

variable (rule : PipelineRule cb P) (h : store.Inv P)

include rule h

theorem runs_writeCredentials (index : Nat)
    (token : Except Status Unit) : Runs (Inv P) (store.writeCredentials cb index token) := by
  have hdropped := h.write.stream.dropRequest index
  unfold writeCredentials
  split_ifs with hcurrent
  · have hstate := h.write.stream.requested (List.mem_of_getElem? hcurrent)
    refine (runs_resumeStartWithCredentials hdropped hstate
      (h.write.stream.notMem_dropRequest hcurrent) token).bind ?_
    rintro ⟨stream, resumed⟩ ⟨hstream, hresumed⟩
    cases resumed with
    | opened => exact runs_onWriteStreamOpen rule h hstate hstream hresumed.1
    | closed status notify =>
      obtain ⟨hstopped, rfl⟩ := hresumed
      exact @runs_notifyWriteStreamClose σ cb P
        { store with write := { store.write with stream } } rule
        ⟨h.watch, h.write.stop hstopped, h.engine⟩ hstopped status
  · exact ⟨⟨h.watch, { h.write with stream := hdropped }, h.engine⟩, h.handshake⟩

theorem runs_writeEvent (event : StreamEvent) : Runs (Inv P) (store.writeEvent cb event) := by
  cases event with
  | credentials index token => exact runs_writeCredentials rule h index token
  | finish status =>
    rw [writeEvent]
    split_ifs with hgrpc
    · exact runs_failWriteStream rule h
        (isStarted_of_opened (h.write.stream.hasGrpcStream hgrpc)) status
    · exact h
  | backoffElapsed =>
    rw [writeEvent]
    split_ifs with htimer
    · have hstate := h.write.stream.backoffTimer htimer
      have hstarted : store.write.stream.isStarted = true :=
        isStarted_iff.mpr (.inr (.inl hstate))
      have hpipeline := h.write.pipeline hstarted fun hlive => nomatch hstate.symm.trans hlive.2
      refine (runs_backoffElapsed h.write.stream htimer).bind ?_
      rintro stream ⟨hsound, -, hopened⟩
      refine ⟨⟨h.watch, ⟨hsound, fun hidle => absurd (hsound.idlenessTimer hidle) hopened,
        fun _ _ => hpipeline, fun hopen => absurd hopen hopened, fun hopen => absurd hopen hopened,
        h.write.length, fun hdisabled => ?_⟩, h.engine⟩, fun hcomplete => ?_⟩
      · cases (h.write.enabled hdisabled).1.symm.trans hstarted
      · cases hstate.symm.trans (h.handshake hcomplete)
    · exact h
  | idleTimeout =>
    rw [writeEvent]
    split_ifs with hidle
    · exact runs_stopWriteStream_inv h fun _ => (h.write.idle hidle).1
    · exact h

theorem runs_writeRead
    (message : Except Status WriteResponse) : Runs (Inv P) (store.writeRead cb message) := by
  unfold writeRead
  split_ifs with hgrpc
  · have hopen := h.write.stream.hasGrpcStream hgrpc
    have hstarted := isStarted_of_opened hopen
    refine (runs_lifecycleAssert hstarted).bind fun _ _ => ?_
    cases message with
    | error status => exact runs_failWriteStream rule h hstarted status
    | ok response =>
      refine (runs_onWriteStreamResponse rule h hopen response).bind ?_
      rintro ⟨mid, readStatus⟩ ⟨hmid, hmidStarted⟩
      cases readStatus with
      | none => exact hmid
      | some status => exact runs_failWriteStream rule hmid (hmidStarted rfl) status
  · exact h

end

/-! ## Runs -/

/-- Every event that comes from outside of the client keeps the invariant. -/
theorem runs_handleNetwork (rule : PipelineRule cb P) (h : store.Inv P) (event : NetworkEvent) :
    Runs (Inv P) (store.handleNetwork cb event) := by
  have hempty : P store.engine [] [] := rule.clear h.engine
  have hdisable := runs_disableNetworkInternal rule h.watch h.write.stream h.handshake hempty
  cases event with
  | enableNetwork => exact runs_enableNetwork rule h
  | disableNetwork =>
    refine hdisable.bind fun mid hmid => ?_
    exact (runs_updateState_disabled rule.toWatchRule hmid .offline).mono fun _ h' => h'.toInv
  | shutdown =>
    refine hdisable.bind fun mid hmid => ?_
    exact (runs_updateState_disabled rule.toWatchRule hmid .unknown).mono fun _ h' => h'.toInv
  | connectivityChange => exact runs_handleCredentialChange rule h hempty
  | watchStream event => exact runs_watchEvent rule.toWatchRule h event
  | writeStream event => exact runs_writeEvent rule h event
  | watchRead message => exact runs_watchRead rule.toWatchRule h message
  | writeRead message => exact runs_writeRead rule h message
  | onlineStateTimeout => exact runs_onlineStateTimeout rule.toWatchRule h

/-- Nothing is asked of the sync engine and of the local store. -/
theorem pipelineRule_true (cb : RemoteStoreCallback σ) : PipelineRule cb fun _ _ _ => True := by
  constructor <;> (try constructor) <;> intros <;> trivial

/-- Every event keeps the invariant. -/
theorem runs_handle (h : store.Inv fun _ _ _ => True) (event : RemoteStoreEvent σ) :
    Runs (Inv fun _ _ _ => True) (store.handle cb event) := by
  have rule := pipelineRule_true cb
  cases event with
  | listenCall call =>
    exact (runs_listenCall rule.toWatchRule h.watch call).mono fun store' h' => WatchTo.inv h h'
  | fillWritePipeline engine =>
    exact runs_fillWritePipeline_inv rule ⟨⟨h.watch, h.write, trivial⟩, h.handshake⟩
  | handleCredentialChange engine => exact runs_handleCredentialChange rule h trivial
  | network event => exact runs_handleNetwork rule h event

theorem runs_runAll (h : store.Inv fun _ _ _ => True) (events : List (RemoteStoreEvent σ)) :
    Runs (fun r => r.1.Inv fun _ _ _ => True) (runAll (step cb) store events) := by
  refine meets_runAll (Inv fun _ _ _ => True) (fun store event hstore => ?_) h events
  exact (runs_handle hstore event).bind fun _ hnext => hnext

/-- Whatever the sync engine and the local store answer, and in whatever order the events come, no
assertion about the lifecycle of the streams fails. -/
theorem runAll_ne_lifecycle (cb : RemoteStoreCallback σ) (engine : σ)
    (events : List (RemoteStoreEvent σ)) (message : String) :
    runAll (step cb) { engine } events ≠ .error (.lifecycle message) := by
  intro hfailed
  have hruns := @runs_runAll σ cb { engine } (inv_initial trivial) events
  rw [hfailed] at hruns
  obtain ⟨fail, hfail⟩ := hruns
  cases hfail

end StreamedStore

end Firebase.Firestore.Remote
