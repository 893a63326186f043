import Firebase.Firestore.Local.MutationQueue
import Firebase.Firestore.Model.MutationResult
import Firebase.Firestore.Remote.OnlineStateTracker
import Firebase.Firestore.Remote.RemoteStore

/-!
# The remote store and its streams

`RemoteStore` (`remote_store.cc`) with its watch stream, its write stream and the online state.
`WatchStream` and `WriteStream` are taken together with the store that owns them.

The store talks to the sync engine and to the local store, which are of some type `σ`
here and answer through `RemoteStoreCallback`.  Where the sync engine calls back into the
store, to listen to a target or to stop, its answer has the list of these calls.

The store runs on the worker queue, one event after another.  An event that is not
possible in a state, such as the timeout of a timer that is not scheduled, leaves the
state as it is.
-/

namespace Firebase.Firestore.Remote

open Lib Util Model Firestore.Core
open Local (kBatchIdUnknown)

/-! ## What the store talks to -/

/-- A call of the sync engine to `RemoteStore::Listen` or `RemoteStore::StopListening`. -/
inductive ListenCall where
  | listen (targetData : TargetData)
  | stopListening (targetId : TargetId)

/-- The sync engine (`RemoteStoreCallback`) and the local store, as the remote store uses them. -/
structure RemoteStoreCallback (σ : Type) where
  getRemoteKeys : σ → TargetId → DocumentKeySet
  getLastRemoteSnapshotVersion : σ → SnapshotVersion
  getLastStreamToken : σ → Bytes
  setLastStreamToken : σ → Bytes → Hard σ
  getNextMutationBatch : σ → Int → Hard (σ × Option MutationBatch)
  applyRemoteEvent : σ → RemoteEvent → Hard (σ × List ListenCall)
  handleRejectedListen : σ → TargetId → Option Error → Hard (σ × List ListenCall)
  handleSuccessfulWrite : σ → MutationBatchResult → Hard (σ × List ListenCall)
  handleRejectedWrite : σ → Int → Status → Hard (σ × List ListenCall)
  handleOnlineStateChange : σ → OnlineState → Hard σ

def isPermanentError (status : Status) : Bool :=
  match status.code with
  | .cancelled | .unknown | .deadlineExceeded | .resourceExhausted | .internal | .unavailable
  | .unauthenticated => false
  | .invalidArgument | .notFound | .alreadyExists | .permissionDenied | .failedPrecondition
  | .aborted | .outOfRange | .unimplemented | .dataLoss => true

def isPermanentWriteError (status : Status) : Bool :=
  isPermanentError status && status.code ≠ .aborted

def kMaxPendingWrites : Nat := 10

/-! ## The store -/

/-- The part of `RemoteStore` for targets. -/
structure WatchSide where
  listening : RemoteStore := {}
  stream : Stream := {}
  tracker : OnlineStateTracker := {}

/-- The part of `RemoteStore` for writes.  `sentWrites` are the batches that were written to the
stream since it was opened, and `answered` those of them that the server has acknowledged. -/
structure WriteSide where
  stream : Stream := {}
  handshakeComplete : Bool := false
  lastStreamToken : Bytes := []
  pipeline : List MutationBatch := []
  sentWrites : List MutationBatch := []
  answered : List MutationBatch := []

/-- `RemoteStore`, and what it is connected to. -/
structure StreamedStore (σ : Type) where
  engine : σ
  isNetworkEnabled : Bool := false
  watch : WatchSide := {}
  write : WriteSide := {}

namespace StreamedStore

variable {σ : Type} (cb : RemoteStoreCallback σ)

/-! ## Targets -/

section

variable (store : StreamedStore σ)

def broadcast (state : Option OnlineState) : Streamed (StreamedStore σ) :=
  match state with
  | none => .ok store
  | some state => do
    let engine ← ofHard (cb.handleOnlineStateChange store.engine state)
    return { store with engine }

def updateState (store : StreamedStore σ) (state : OnlineState) : Streamed (StreamedStore σ) :=
  let r := store.watch.tracker.updateState state
  { store with watch := { store.watch with tracker := r.1 } }.broadcast cb r.2

def shouldStartWatchStream : Bool :=
  store.isNetworkEnabled && !store.watch.stream.isStarted &&
    !store.watch.listening.listenTargets.entries.isEmpty

def startWatchStream : Streamed (StreamedStore σ) := do
  lifecycleAssert store.shouldStartWatchStream
    "StartWatchStream called when ShouldStartWatchStream is false."
  let listening := { store.watch.listening with watchChangeAggregator := {}, watchRequests := [] }
  let stream ← store.watch.stream.start
  let r ← store.watch.tracker.handleWatchStreamStart
  { store with watch := ⟨listening, stream, r.1⟩ }.broadcast cb r.2

/-- `RemoteStore::SendWatchRequest` and `RemoteStore::SendUnwatchRequest`. -/
def sendRequest (store : StreamedStore σ) (request : WatchRequest) :
    Streamed (StreamedStore σ) := do
  let stream ← store.watch.stream.write
  return { store with watch := { store.watch with
    listening := store.watch.listening.sendRequest request
    stream } }

def setListenTargets (listenTargets : OrdMap TargetId TargetData) : StreamedStore σ :=
  { store with watch := { store.watch with
    listening := { store.watch.listening with listenTargets } } }

def listen (targetData : TargetData) : Streamed (StreamedStore σ) :=
  let listenTargets := store.watch.listening.listenTargets
  if (listenTargets.get? targetData.targetId).isSome then .ok store
  else
    let store := store.setListenTargets (listenTargets.insert targetData.targetId targetData)
    if store.shouldStartWatchStream then store.startWatchStream cb
    else if store.watch.stream.isOpen then store.sendRequest (.watch targetData)
    else .ok store

/-- The request that `RemoteStore::StopListening` sends.  The stream might not be started. -/
def sendUnwatchRequest (targetId : TargetId) : Streamed (StreamedStore σ) :=
  if store.watch.stream.isOpen then store.sendRequest (.unwatch targetId) else .ok store

/-- The end of `RemoteStore::StopListening`, for the last target. -/
def stopWatching : Streamed (StreamedStore σ) :=
  if store.watch.listening.listenTargets.entries.isEmpty then
    if store.watch.stream.isOpen then
      .ok { store with watch := { store.watch with stream := store.watch.stream.markIdle } }
    else if store.isNetworkEnabled then store.updateState cb .unknown
    else .ok store
  else .ok store

def stopListening (targetId : TargetId) : Streamed (StreamedStore σ) := do
  let listenTargets := store.watch.listening.listenTargets
  ofHard (hardAssert (listenTargets.get? targetId).isSome
    ("StopListening: target not currently watched: " ++ toString targetId))
  let store := store.setListenTargets (listenTargets.erase targetId)
  let store ← store.sendUnwatchRequest targetId
  store.stopWatching cb

def listenCall : ListenCall → Streamed (StreamedStore σ)
  | .listen targetData => store.listen cb targetData
  | .stopListening targetId => store.stopListening cb targetId

def handled (answer : Hard (σ × List ListenCall)) : Streamed (StreamedStore σ) := do
  let (engine, calls) ← ofHard answer
  calls.foldlM (listenCall cb) { store with engine }

/-! ## The watch stream -/

def cleanUpWatchStreamState : StreamedStore σ :=
  { store with watch := { store.watch with
    listening := { store.watch.listening with watchChangeAggregator := {} } } }

def onWatchStreamOpen : Streamed (StreamedStore σ) :=
  store.watch.listening.listenTargets.entries.foldlM
    (fun store entry => store.sendRequest (.watch entry.2)) store

/-- The end of `RemoteStore::OnWatchStreamClose`: the connection is retried if it is needed. -/
def retryWatchStream : Streamed (StreamedStore σ) :=
  if store.shouldStartWatchStream then do
    let r ← store.watch.tracker.handleWatchStreamFailure
    let store ← { store with watch := { store.watch with tracker := r.1 } }.broadcast cb r.2
    store.startWatchStream cb
  else store.updateState cb .unknown

/-- `RemoteStore::OnWatchStreamClose`.  The assertion is for a graceful stop. -/
def onWatchStreamClose (status : Option Status) : Streamed (StreamedStore σ) := do
  lifecycleAssert (status.isSome || !store.shouldStartWatchStream)
    "Watch stream was stopped gracefully while still needed."
  store.cleanUpWatchStreamState.retryWatchStream cb

def closeWatchStream (status : Option Status) : Streamed (StreamedStore σ) := do
  let (stream, notify) ← store.watch.stream.close status
  let store := { store with watch := { store.watch with stream } }
  if notify then store.onWatchStreamClose cb status else return store

def rejectTarget (cause : Option Error) (store : StreamedStore σ) (targetId : TargetId) :
    Streamed (StreamedStore σ) :=
  if (store.watch.listening.listenTargets.get? targetId).isSome then
    let store := { store with watch := { store.watch with
      listening := store.watch.listening.rejectTarget targetId } }
    store.handled cb (cb.handleRejectedListen store.engine targetId cause)
  else .ok store

/-- `RemoteStore::OnWatchStreamChange`.  Every request that the store makes afresh is written to the
stream. -/
def onWatchStreamChange (store : StreamedStore σ) (message : WatchChange)
    (snapshotVersion : SnapshotVersion) : Streamed (StreamedStore σ) := do
  let store ← store.updateState cb .online
  match RemoteStore.targetError message with
  | some change => change.targetIds.foldlM (rejectTarget cb change.cause) store
  | none =>
    let (listening, event) ← ofHard (store.watch.listening.onWatchStreamChange
      (cb.getRemoteKeys store.engine) (cb.getLastRemoteSnapshotVersion store.engine) message
      snapshotVersion)
    let requests := listening.watchRequests.drop store.watch.listening.watchRequests.length
    let stream ← requests.foldlM (fun stream _ => stream.write) store.watch.stream
    let store := { store with watch := { store.watch with listening, stream } }
    match event with
    | none => return store
    | some event => store.handled cb (cb.applyRemoteEvent store.engine event)

/-! ## Writes -/

def canAddToWritePipeline : Bool :=
  store.isNetworkEnabled && store.write.pipeline.length < kMaxPendingWrites

def writeMutations (batch : MutationBatch) : Streamed (StreamedStore σ) := do
  lifecycleAssert store.write.stream.isOpen "Writing mutations requires an opened stream"
  lifecycleAssert store.write.handshakeComplete
    "Handshake must be complete before writing mutations"
  let stream ← store.write.stream.write
  return { store with write := { store.write with
    stream
    sentWrites := store.write.sentWrites ++ [batch] } }

def addToWritePipeline (batch : MutationBatch) : Streamed (StreamedStore σ) := do
  lifecycleAssert store.canAddToWritePipeline "AddToWritePipeline called when pipeline is full"
  let store := { store with write := { store.write with
    pipeline := store.write.pipeline ++ [batch] } }
  if store.write.stream.isOpen && store.write.handshakeComplete then store.writeMutations batch
  else return store

end

/-- The loop of `RemoteStore::FillWritePipeline`, for as many rounds as the pipeline has room. -/
def fillRounds : Nat → Int → StreamedStore σ → Streamed (StreamedStore σ)
  | 0, _, store => .ok store
  | rounds + 1, lastBatchIdRetrieved, store =>
    if store.canAddToWritePipeline then do
      let (engine, batch) ← ofHard (cb.getNextMutationBatch store.engine lastBatchIdRetrieved)
      let store := { store with engine }
      match batch with
      | none =>
        if store.write.pipeline.isEmpty then
          return { store with write := { store.write with stream := store.write.stream.markIdle } }
        else return store
      | some batch =>
        let store ← store.addToWritePipeline batch
        fillRounds rounds batch.batchId store
    else .ok store

variable (store : StreamedStore σ)

def shouldStartWriteStream : Bool :=
  store.isNetworkEnabled && !store.write.stream.isStarted && !store.write.pipeline.isEmpty

def startWriteStream : Streamed (StreamedStore σ) := do
  lifecycleAssert store.shouldStartWriteStream
    "StartWriteStream called when ShouldStartWriteStream is false."
  let stream ← store.write.stream.start
  return { store with write := { store.write with stream } }

def lastBatchId (pipeline : List MutationBatch) : Int :=
  (pipeline.getLast?.map (·.batchId)).getD kBatchIdUnknown

def fillWritePipeline : Streamed (StreamedStore σ) := do
  let store ← fillRounds cb (kMaxPendingWrites - store.write.pipeline.length)
    (lastBatchId store.write.pipeline) store
  if store.shouldStartWriteStream then store.startWriteStream else return store

/-! ## The write stream -/

/-- `RemoteStore::OnWriteStreamOpen`, with `WriteStream::WriteHandshake`. -/
def onWriteStreamOpen : Streamed (StreamedStore σ) := do
  lifecycleAssert store.write.stream.isOpen "Writing handshake requires an opened stream"
  lifecycleAssert (!store.write.handshakeComplete) "Handshake already completed"
  let stream ← store.write.stream.write
  return { store with write := { store.write with stream, sentWrites := [], answered := [] } }

def onWriteStreamHandshakeComplete : Streamed (StreamedStore σ) := do
  let engine ← ofHard (cb.setLastStreamToken store.engine store.write.lastStreamToken)
  store.write.pipeline.foldlM writeMutations { store with engine }

def onWriteStreamMutationResult (commitVersion : SnapshotVersion)
    (mutationResults : List MutationResult) : Streamed (StreamedStore σ) :=
  match store.write.pipeline with
  | [] => ofHard (.error ⟨"Got result for empty write pipeline"⟩)
  | batch :: pipeline =>
    if lengths : batch.mutations.length = mutationResults.length then do
      let result := ⟨batch, commitVersion, mutationResults, store.write.lastStreamToken, lengths⟩
      let store := { store with write := { store.write with
        pipeline
        answered := store.write.answered ++ [batch] } }
      let store ← store.handled cb (cb.handleSuccessfulWrite store.engine result)
      store.fillWritePipeline cb
    else ofHard (.error ⟨"Number of mutations sent must equal results received"⟩)

def handleHandshakeError (status : Status) : Streamed (StreamedStore σ) :=
  if isPermanentError status then do
    let engine ← ofHard (cb.setLastStreamToken store.engine [])
    return { store with engine, write := { store.write with lastStreamToken := [] } }
  else .ok store

def handleWriteError (status : Status) (batch : MutationBatch)
    (pipeline : List MutationBatch) : Streamed (StreamedStore σ) :=
  if isPermanentWriteError status then do
    let stream ← store.write.stream.inhibitBackoff
    let store := { store with write := { store.write with pipeline, stream } }
    let store ← store.handled cb (cb.handleRejectedWrite store.engine batch.batchId status)
    store.fillWritePipeline cb
  else .ok store

section

variable (status : Option Status)

/-- The errors of `RemoteStore::OnWriteStreamClose`. -/
def handleWriteStreamError : Streamed (StreamedStore σ) :=
  match status, store.write.pipeline with
  | some status, batch :: pipeline =>
    if store.write.handshakeComplete then store.handleWriteError cb status batch pipeline
    else store.handleHandshakeError cb status
  | none, _ | _, [] => .ok store

/-- `RemoteStore::OnWriteStreamClose`.  The assertion is for a graceful stop. -/
def onWriteStreamClose : Streamed (StreamedStore σ) := do
  lifecycleAssert (status.isSome || !store.shouldStartWriteStream)
    "Write stream was stopped gracefully while still needed."
  let store ← store.handleWriteStreamError cb status
  if store.shouldStartWriteStream then store.startWriteStream else return store

/-- `WriteStream::NotifyStreamClose`. -/
def notifyWriteStreamClose : Streamed (StreamedStore σ) := do
  let store ← store.onWriteStreamClose cb status
  return { store with write := { store.write with handshakeComplete := false } }

def closeWriteStream : Streamed (StreamedStore σ) := do
  let (stream, notify) ← store.write.stream.close status
  let store := { store with write := { store.write with stream } }
  if notify then store.notifyWriteStreamClose cb status else return store

end

/-- A response on the write stream: its token, and what it says of a write if it can be decoded. -/
structure WriteResponse where
  streamToken : Bytes
  result : Except Status (SnapshotVersion × List MutationResult)

def setLastStreamToken (token : Bytes) : StreamedStore σ :=
  { store with write := { store.write with lastStreamToken := token } }

/-- The part of `WriteStream::NotifyStreamResponse` after the token, with the status it returns.
The first response is the one to the handshake. -/
def respond (result : Except Status (SnapshotVersion × List MutationResult)) :
    Streamed (StreamedStore σ × Option Status) :=
  if store.write.handshakeComplete then
    match result with
    | .error status => .ok (store, some status)
    | .ok (commitVersion, mutationResults) => do
      return (← store.onWriteStreamMutationResult cb commitVersion mutationResults, none)
  else do
    let store := { store with write := { store.write with handshakeComplete := true } }
    return (← store.onWriteStreamHandshakeComplete cb, none)

/-- `WriteStream::NotifyStreamResponse`, with the status it returns. -/
def onWriteStreamResponse (response : WriteResponse) : Streamed (StreamedStore σ × Option Status) :=
  (store.setLastStreamToken response.streamToken).respond cb response.result

/-! ## The network -/

/-- The part of `RemoteStore::EnableNetwork` for the watch stream. -/
def startWatching : Streamed (StreamedStore σ) :=
  if store.shouldStartWatchStream then store.startWatchStream cb
  else store.updateState cb .unknown

def enableNetwork : Streamed (StreamedStore σ) := do
  let store := { store with isNetworkEnabled := true }
  let store ← (store.setLastStreamToken (cb.getLastStreamToken store.engine)).startWatching cb
  store.fillWritePipeline cb

def disableNetworkInternal : Streamed (StreamedStore σ) := do
  let store ← { store with isNetworkEnabled := false }.closeWatchStream cb none
  let store ← store.closeWriteStream cb none
  return { store with write := { store.write with pipeline := [], answered := [] }
    }.cleanUpWatchStreamState

def disableNetwork : Streamed (StreamedStore σ) := do
  let store ← store.disableNetworkInternal cb
  store.updateState cb .offline

def shutdown : Streamed (StreamedStore σ) := do
  let store ← store.disableNetworkInternal cb
  store.updateState cb .unknown

def restartNetwork : Streamed (StreamedStore σ) := do
  let store ← store.disableNetworkInternal cb
  let store ← store.updateState cb .unknown
  let writeStream ← store.write.stream.inhibitBackoff
  let watchStream ← store.watch.stream.inhibitBackoff
  { store with
    write := { store.write with stream := writeStream }
    watch := { store.watch with stream := watchStream } }.enableNetwork cb

/-- `RemoteStore::HandleCredentialChange`, and the callback of the connectivity monitor for a
network that is available. -/
def handleCredentialChange : Streamed (StreamedStore σ) :=
  if store.isNetworkEnabled then store.restartNetwork cb else .ok store

/-! ## Events -/

/-- What happens to a stream: a callback of `GetToken` comes back, gRPC reports the end of the
stream with an error, or a timer runs.  That the server ends a stream with OK is left out. -/
inductive StreamEvent where
  | credentials (index : Nat) (token : Except Status Unit)
  | finish (status : Status)
  | backoffElapsed
  | idleTimeout

def watchCredentials (index : Nat) (token : Except Status Unit) : Streamed (StreamedStore σ) :=
  let stream := store.watch.stream.dropRequest index
  if store.watch.stream.credentialRequests[index]? = some store.watch.stream.closeCount then do
    let (stream, resumed) ← stream.resumeStartWithCredentials token
    let store := { store with watch := { store.watch with stream } }
    match resumed with
    | .opened => store.onWatchStreamOpen
    | .closed status notify =>
      if notify then store.onWatchStreamClose cb (some status) else return store
  else .ok { store with watch := { store.watch with stream } }

def writeCredentials (index : Nat) (token : Except Status Unit) : Streamed (StreamedStore σ) :=
  let stream := store.write.stream.dropRequest index
  if store.write.stream.credentialRequests[index]? = some store.write.stream.closeCount then do
    let (stream, resumed) ← stream.resumeStartWithCredentials token
    let store := { store with write := { store.write with stream } }
    match resumed with
    | .opened => store.onWriteStreamOpen
    | .closed status notify =>
      if notify then store.notifyWriteStreamClose cb (some status) else return store
  else .ok { store with write := { store.write with stream } }

def watchEvent : StreamEvent → Streamed (StreamedStore σ)
  | .credentials index token => store.watchCredentials cb index token
  | .finish status =>
    if store.watch.stream.hasGrpcStream then store.closeWatchStream cb (some status) else .ok store
  | .backoffElapsed =>
    if store.watch.stream.backoffTimer then do
      let stream ← store.watch.stream.backoffElapsed
      return { store with watch := { store.watch with stream } }
    else .ok store
  | .idleTimeout =>
    if store.watch.stream.idlenessTimer then store.closeWatchStream cb none else .ok store

def writeEvent : StreamEvent → Streamed (StreamedStore σ)
  | .credentials index token => store.writeCredentials cb index token
  | .finish status =>
    if store.write.stream.hasGrpcStream then store.closeWriteStream cb (some status) else .ok store
  | .backoffElapsed =>
    if store.write.stream.backoffTimer then do
      let stream ← store.write.stream.backoffElapsed
      return { store with write := { store.write with stream } }
    else .ok store
  | .idleTimeout =>
    if store.write.stream.idlenessTimer then store.closeWriteStream cb none else .ok store

/-- `Stream::OnStreamRead` of the watch stream, of a message that can be decoded or not. -/
def watchRead
    (message : Except Status (WatchChange × SnapshotVersion)) : Streamed (StreamedStore σ) :=
  if store.watch.stream.hasGrpcStream then do
    lifecycleAssert store.watch.stream.isStarted "OnStreamRead called for a stopped stream."
    match message with
    | .error status => store.closeWatchStream cb (some status)
    | .ok (change, snapshotVersion) => store.onWatchStreamChange cb change snapshotVersion
  else .ok store

/-- `Stream::OnStreamRead` of the write stream, of a response that can be parsed or not. -/
def writeRead (message : Except Status WriteResponse) : Streamed (StreamedStore σ) :=
  if store.write.stream.hasGrpcStream then do
    lifecycleAssert store.write.stream.isStarted "OnStreamRead called for a stopped stream."
    match message with
    | .error status => store.closeWriteStream cb (some status)
    | .ok response =>
      let (store, readStatus) ← store.onWriteStreamResponse cb response
      match readStatus with
      | some status => store.closeWriteStream cb (some status)
      | none => return store
  else .ok store

def onlineStateTimeout (store : StreamedStore σ) : Streamed (StreamedStore σ) :=
  if store.watch.tracker.onlineStateTimer then do
    let r ← store.watch.tracker.onlineStateTimeout
    { store with watch := { store.watch with tracker := r.1 } }.broadcast cb r.2
  else .ok store

end StreamedStore

/-- What happens to a remote store other than by calls of the sync engine. -/
inductive NetworkEvent where
  | enableNetwork
  | disableNetwork
  | shutdown
  | connectivityChange
  | watchStream (event : StreamedStore.StreamEvent)
  | writeStream (event : StreamedStore.StreamEvent)
  | watchRead (message : Except Status (WatchChange × SnapshotVersion))
  | writeRead (message : Except Status StreamedStore.WriteResponse)
  | onlineStateTimeout

/-- What happens to a remote store.  The sync engine and the local store come to the state `engine`
by a local write or with another user. -/
inductive RemoteStoreEvent (σ : Type) where
  | listenCall (call : ListenCall)
  | fillWritePipeline (engine : σ)
  | handleCredentialChange (engine : σ)
  | network (event : NetworkEvent)

namespace StreamedStore

variable {σ : Type} (cb : RemoteStoreCallback σ) (store : StreamedStore σ)

def handleNetwork : NetworkEvent → Streamed (StreamedStore σ)
  | .enableNetwork => store.enableNetwork cb
  | .disableNetwork => store.disableNetwork cb
  | .shutdown => store.shutdown cb
  | .connectivityChange => store.handleCredentialChange cb
  | .watchStream event => store.watchEvent cb event
  | .writeStream event => store.writeEvent cb event
  | .watchRead message => store.watchRead cb message
  | .writeRead message => store.writeRead cb message
  | .onlineStateTimeout => store.onlineStateTimeout cb

def handle : RemoteStoreEvent σ → Streamed (StreamedStore σ)
  | .listenCall call => store.listenCall cb call
  | .fillWritePipeline engine => { store with engine }.fillWritePipeline cb
  | .handleCredentialChange engine => { store with engine }.handleCredentialChange cb
  | .network event => store.handleNetwork cb event

def step (event : RemoteStoreEvent σ) : Streamed (StreamedStore σ × Unit) := do
  return (← store.handle cb event, ())

end StreamedStore

end Firebase.Firestore.Remote
