import Firebase.Database.Node

/-!
# Rerunning transactions

`rerunTransactionQueue:atPath:` of `FRepo` (`FRepo.m`).  Each transaction of the queue is run again
on the latest data, or it is aborted.

The sync tree is of some type `σ` and answers as it likes (`SyncTreeCalls`).  `E` are its events.
Completed transactions are pruned and those that are ready are sent after all events were raised.
-/

namespace Firebase.Database

inductive TransactionStatus where
  | initializing | run | sent | completed | sentNeedsAbort | needsAbort
deriving DecidableEq

def kFTransactionMaxRetries : Nat := 25

def kFTransactionTooManyRetries : String := "maxretry"

def kFErrorWriteCanceled : String := "write_canceled"

/-- `FTupleTransaction`.  The update function gives no node where it aborts. -/
structure TupleTransaction (σ L : Type) where
  path : Path
  update : Node L → Option (Node L)
  hasOnComplete : Bool
  status : TransactionStatus
  applyLocally : Bool
  retryCount : Nat
  unwatcher : σ → σ
  abortStatus : Option String
  abortReason : Option String
  currentWriteId : Int
  currentInputSnapshot : Node L
  currentOutputSnapshotRaw : Node L
  currentOutputSnapshotResolved : Node L

/-- What the repo asks of the sync tree and of the values of the server. -/
structure SyncTreeCalls (σ E L : Type) where
  ackUserWriteWithWriteId (writeId : Int) (revert persist : Bool) : σ → List E × σ
  applyUserOverwriteAtPath (path : Path) (newData : Node L) (writeId : Int) (isVisible : Bool) :
    σ → List E × σ
  calcCompleteEventCacheAtPath (path : Path) (excludeWriteIds : List Int) : σ → Option (Node L)
  resolveDeferredValueSnapshot (node existing : Node L) : σ → Node L

/-- The repo in the loop over the queue.  A callback has the error and the snapshot. -/
structure Rerun (σ L : Type) where
  serverSyncTree : σ
  nextWriteId : Int
  writeIdsToExclude : List Int
  callbacks : List ((Option String × Option String) × Node L) := []

namespace Rerun

variable {σ E L : Type} (calls : SyncTreeCalls σ E L)

section

variable (repo : Rerun σ L)

def latestStateAtPath (path : Path) : Node L :=
  (calls.calcCompleteEventCacheAtPath path repo.writeIdsToExclude repo.serverSyncTree).getD .empty

def revert (writeId : Int) : List E × Rerun σ L :=
  let (events, serverSyncTree) :=
    calls.ackUserWriteWithWriteId writeId true false repo.serverSyncTree
  (events, { repo with serverSyncTree })

variable (transaction : TupleTransaction σ L)

def abort : Rerun σ L × TupleTransaction σ L :=
  let callback :=
    ((transaction.abortStatus, transaction.abortReason), transaction.currentInputSnapshot)
  ({ repo with
      serverSyncTree := transaction.unwatcher repo.serverSyncTree
      callbacks := repo.callbacks ++ if transaction.hasOnComplete then [callback] else [] },
    { transaction with status := .completed })

/-- The update function has given a node, which replaces the write of the transaction. -/
def replaceWrite (newVal : Node L) : List E × Rerun σ L × TupleTransaction σ L :=
  let oldWriteId := transaction.currentWriteId
  let newValResolved := calls.resolveDeferredValueSnapshot newVal transaction.currentInputSnapshot
    repo.serverSyncTree
  let (overwriteEvents, serverSyncTree) := calls.applyUserOverwriteAtPath transaction.path
    newValResolved repo.nextWriteId transaction.applyLocally repo.serverSyncTree
  let (ackEvents, reverted) := revert calls { repo with
    serverSyncTree
    nextWriteId := repo.nextWriteId + 1
    writeIdsToExclude := repo.writeIdsToExclude.filter (· ≠ oldWriteId) } oldWriteId
  (overwriteEvents ++ ackEvents, reverted, { transaction with
      currentOutputSnapshotRaw := newVal
      currentOutputSnapshotResolved := newValResolved
      currentWriteId := repo.nextWriteId })

def rerunTransaction : List E × Rerun σ L × TupleTransaction σ L :=
  match transaction.status with
  | .needsAbort =>
    if transaction.abortStatus = some kFErrorWriteCanceled then ([], repo.abort transaction)
    else
      let (events, repo) := revert calls repo transaction.currentWriteId
      (events, repo.abort transaction)
  | .run =>
    if transaction.retryCount ≥ kFTransactionMaxRetries then
      let (events, repo) := revert calls repo transaction.currentWriteId
      (events, repo.abort
        { transaction with abortStatus := some kFTransactionTooManyRetries, abortReason := none })
    else
      let currentInputSnapshot := latestStateAtPath calls repo transaction.path
      let transaction := { transaction with currentInputSnapshot }
      match transaction.update currentInputSnapshot with
      | some newVal => replaceWrite calls repo transaction newVal
      | none =>
        let (events, repo) := revert calls repo transaction.currentWriteId
        (events, repo.abort { transaction with abortStatus := none, abortReason := none })
  | _ => ([], repo, transaction)

end

def returnedEvents : Rerun σ L → List (TupleTransaction σ L) → List (List E)
  | _, [] => []
  | repo, transaction :: queue =>
    let (events, repo, _) := rerunTransaction calls repo transaction
    events :: returnedEvents repo queue

/-- The loop over the queue: what is raised, and the transactions after it.  `events` is the
accumulator, and a message to `nil` does nothing. -/
def rerunTransactions : Rerun σ L → Option (List E) → List (TupleTransaction σ L) →
    List E × Rerun σ L × List (TupleTransaction σ L)
  | repo, _, [] => ([], repo, [])
  | repo, events, transaction :: queue =>
    let (returned, repo, transaction) := rerunTransaction calls repo transaction
    let raised := (events.map (· ++ returned)).getD []
    -- `events = nil`.
    let (more, repo, queue) := rerunTransactions repo none queue
    (raised ++ more, repo, transaction :: queue)

/-- `rerunTransactionQueue:atPath:`, up to the pruning of completed transactions. -/
def rerunTransactionQueue (serverSyncTree : σ) (nextWriteId : Int)
    (queue : List (TupleTransaction σ L)) : List E × Rerun σ L × List (TupleTransaction σ L) :=
  rerunTransactions calls
    { serverSyncTree, nextWriteId, writeIdsToExclude := queue.map (·.currentWriteId) } (some [])
    queue

/-! ## What is raised -/

/-- Without an accumulator nothing is raised. -/
theorem raised_none (repo : Rerun σ L) (queue : List (TupleTransaction σ L)) :
    (rerunTransactions calls repo none queue).1 = [] := by
  induction queue generalizing repo with
  | nil => rfl
  | cons transaction queue ih => exact ih _

theorem raised_cons (repo : Rerun σ L) (events : List E) (transaction : TupleTransaction σ L)
    (queue : List (TupleTransaction σ L)) :
    (rerunTransactions calls repo (some events) (transaction :: queue)).1 =
      events ++ (rerunTransaction calls repo transaction).1 := by
  show _ ++ (rerunTransactions calls _ none queue).1 = _
  rw [raised_none, List.append_nil]
  rfl

/-- Nothing but the events of the first transaction is raised: these are all events exactly if the
sync tree returns none for the others. -/
theorem raised_eq_flatten_iff (serverSyncTree : σ) (nextWriteId : Int)
    (queue : List (TupleTransaction σ L)) :
    (rerunTransactionQueue calls serverSyncTree nextWriteId queue).1 =
        (returnedEvents calls
          { serverSyncTree, nextWriteId, writeIdsToExclude := queue.map (·.currentWriteId) }
          queue).flatten ↔
      ∀ events ∈ (returnedEvents calls
          { serverSyncTree, nextWriteId, writeIdsToExclude := queue.map (·.currentWriteId) }
          queue).tail, events = [] := by
  cases queue with
  | nil => exact iff_of_true rfl nofun
  | cons transaction queue =>
    rw [rerunTransactionQueue, raised_cons, returnedEvents, ← List.flatten_eq_nil_iff]
    exact List.self_eq_append_right

def countingCalls : SyncTreeCalls Nat Nat Unit where
  ackUserWriteWithWriteId _ _ _ count := ([], count)
  applyUserOverwriteAtPath _ _ _ _ count := ([count], count + 1)
  calcCompleteEventCacheAtPath _ _ _ := none
  resolveDeferredValueSnapshot node _ _ := node

def rerunnable (currentWriteId : Int) : TupleTransaction Nat Unit where
  path := []
  update := some
  hasOnComplete := false
  status := .run
  applyLocally := true
  retryCount := 0
  unwatcher := id
  abortStatus := none
  abortReason := none
  currentWriteId
  currentInputSnapshot := .empty
  currentOutputSnapshotRaw := .empty
  currentOutputSnapshotResolved := .empty

/-- Of two transactions that are run again, only the first has its event raised. -/
theorem raised_ne_flatten :
    (rerunTransactionQueue countingCalls 0 2 [rerunnable 0, rerunnable 1]).1 = [0] ∧
      (returnedEvents countingCalls
        { serverSyncTree := 0, nextWriteId := 2, writeIdsToExclude := [0, 1] }
        [rerunnable 0, rerunnable 1]).flatten = [0, 1] := ⟨rfl, rfl⟩

end Rerun

end Firebase.Database
