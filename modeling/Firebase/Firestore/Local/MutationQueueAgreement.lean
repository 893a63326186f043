import Firebase.Lib.Simulation
import Firebase.Firestore.Local.MutationQueue

/-!
# The two mutation queues agree

`LevelDbMutationQueue` and `MemoryMutationQueue` as machines that answer the operations of the
`MutationQueue` interface.

`GetHighestUnacknowledgedBatchId` reads the database behind the current transaction.  What LevelDB
has written it has to parse again, and the ids that it gives out go on after those of all users;
`parses` and the id that the queue is started with are parameters for this.
-/

namespace Firebase.Firestore.Local

open Lib Util Model Firestore.Core

/-- The operations of `MutationQueue`, and the end of a transaction. -/
inductive QueueOperation where
  | addMutationBatch (localWriteTime : Timestamp) (baseMutations mutations : List Mutation)
  | acknowledgeBatch (batch : MutationBatch) (streamToken : Bytes)
  | removeMutationBatch (batch : MutationBatch)
  | lookupMutationBatch (batchId : Int)
  | nextMutationBatchAfterBatchId (batchId : Int)
  | allMutationBatches
  | allMutationBatchesAffectingDocumentKey (key : DocumentKey)
  | allMutationBatchesAffectingDocumentKeys (documentKeys : DocumentKeySet)
  | allMutationBatchesAffectingQuery (query : Query)
  | getHighestUnacknowledgedBatchId
  | isEmpty
  | getLastStreamToken
  | commit

inductive QueueAnswer where
  | done
  | batch (batch : MutationBatch)
  | found (batch : Option MutationBatch)
  | batches (batches : List MutationBatch)
  | batchId (batchId : Int)
  | isEmpty (isEmpty : Bool)
  | streamToken (streamToken : Bytes)

/-- What is seen of code that may abort: its messages are not. -/
def observe {σ α : Type} (answer : α → QueueAnswer) : Hard (α × σ) → Except Unit (σ × QueueAnswer)
  | .ok (a, s) => .ok (s, answer a)
  | .error _ => .error ()

def MemoryMutationQueue.step (q : MemoryMutationQueue) :
    QueueOperation → Except Unit (MemoryMutationQueue × QueueAnswer)
  | .addMutationBatch localWriteTime baseMutations mutations =>
    observe .batch (q.addMutationBatch localWriteTime baseMutations mutations)
  | .acknowledgeBatch batch streamToken =>
    observe (fun _ => .done) ((((), ·)) <$> q.acknowledgeBatch batch streamToken)
  | .removeMutationBatch batch =>
    observe (fun _ => .done) ((((), ·)) <$> q.removeMutationBatch batch)
  | .lookupMutationBatch batchId => observe .found ((·, q) <$> q.lookupMutationBatch batchId)
  | .nextMutationBatchAfterBatchId batchId =>
    .ok (q, .found (q.nextMutationBatchAfterBatchId batchId))
  | .allMutationBatches => .ok (q, .batches q.allMutationBatches)
  | .allMutationBatchesAffectingDocumentKey key =>
    observe .batches ((·, q) <$> q.allMutationBatchesAffectingDocumentKey key)
  | .allMutationBatchesAffectingDocumentKeys documentKeys =>
    observe .batches ((·, q) <$> q.allMutationBatchesAffectingDocumentKeys documentKeys)
  | .allMutationBatchesAffectingQuery query =>
    observe .batches ((·, q) <$> q.allMutationBatchesAffectingQuery query)
  | .getHighestUnacknowledgedBatchId => .ok (q, .batchId q.getHighestUnacknowledgedBatchId)
  | .isEmpty => .ok (q, .isEmpty q.isEmpty)
  | .getLastStreamToken => .ok (q, .streamToken q.lastStreamToken)
  -- `MemoryPersistence::Run` has nothing to write back.
  | .commit => .ok (q, .done)

section

variable (parses : MutationBatch → Bool) (q : LevelDbMutationQueue)

/-- An operation in LevelDB.  Every batch that is returned was parsed. -/
def LevelDbMutationQueue.step : QueueOperation → Except Unit (LevelDbMutationQueue × QueueAnswer)
  | .addMutationBatch localWriteTime baseMutations mutations =>
    observe .batch (q.addMutationBatch localWriteTime baseMutations mutations)
  | .acknowledgeBatch batch streamToken => .ok (q.acknowledgeBatch batch streamToken, .done)
  | .removeMutationBatch batch =>
    observe (fun _ => .done) ((((), ·)) <$> q.removeMutationBatch batch)
  | .lookupMutationBatch batchId => observe .found
      ((·, q) <$> (q.lookupMutationBatch batchId).mapM (parseMutationBatch parses))
  | .nextMutationBatchAfterBatchId batchId => observe .found
      ((·, q) <$> (q.nextMutationBatchAfterBatchId batchId).mapM (parseMutationBatch parses))
  | .allMutationBatches =>
    observe .batches ((·, q) <$> q.allMutationBatches.mapM (parseMutationBatch parses))
  | .allMutationBatchesAffectingDocumentKey key => observe .batches do
      let rows ← q.allMutationBatchesAffectingDocumentKey key
      return (← rows.mapM (parseMutationBatch parses), q)
  | .allMutationBatchesAffectingDocumentKeys documentKeys => observe .batches do
      let rows ← q.allMutationBatchesAffectingDocumentKeys documentKeys
      return (← rows.mapM (parseMutationBatch parses), q)
  | .allMutationBatchesAffectingQuery query => observe .batches do
      let rows ← q.allMutationBatchesAffectingQuery query
      return (← rows.mapM (parseMutationBatch parses), q)
  | .getHighestUnacknowledgedBatchId => .ok (q, .batchId q.getHighestUnacknowledgedBatchId)
  | .isEmpty => .ok (q, .isEmpty q.isEmpty)
  | .getLastStreamToken => .ok (q, .streamToken q.lastStreamToken)
  | .commit => .ok (q.commit, .done)

/-- How the operations are used: a batch that is added can be parsed and is not the last one that
has an id, the batch that is acknowledged or removed is the first of the queue, ids that are looked
up are numbers of 32 bits and those that a next one is asked for were given out, a query for batches
is not a document query, and the highest id is asked for in a transaction that has not changed the
queue. -/
def Proper : QueueOperation → Prop
  | .addMutationBatch localWriteTime baseMutations mutations => q.nextBatchId < 2 ^ 31 - 1 ∧
      ∀ hmuts, parses ⟨q.nextBatchId, localWriteTime, baseMutations, mutations, hmuts⟩
  | .lookupMutationBatch batchId => -2 ^ 31 ≤ batchId ∧ batchId < 2 ^ 31
  | .nextMutationBatchAfterBatchId batchId => -1 ≤ batchId ∧ batchId < 2 ^ 31 - 1
  | .acknowledgeBatch batch _ => q.allMutationBatches.head?.map (·.batchId) = some batch.batchId
  | .removeMutationBatch batch => q.allMutationBatches.head? = some batch
  | .allMutationBatchesAffectingQuery query => query.isDocumentQuery = false
  | .getHighestUnacknowledgedBatchId => q.committed = q.mutations
  | _ => True

/-- The two queues hold the same batches, and will go on with the same id. -/
def SameQueue (q' : MemoryMutationQueue) : Prop :=
  (∃ batches, q.Holds batches ∧ q'.Holds batches ∧ ∀ batch ∈ batches, parses batch) ∧
    q.nextBatchId = q'.nextBatchId ∧ q.lastStreamToken = q'.lastStreamToken

theorem sameQueue_start : SameQueue parses (.start 0) .start :=
  ⟨⟨[], ⟨rfl, by simp, by simp [Indexes, LevelDbMutationQueue.start]⟩,
    MemoryMutationQueue.holds_start, List.forall_mem_nil _⟩, rfl, rfl⟩

end

section Step

variable {parses : MutationBatch → Bool} {q : LevelDbMutationQueue} {q' : MemoryMutationQueue}

theorem mapM_parseMutationBatch {batches : List MutationBatch}
    (h : ∀ batch ∈ batches, parses batch) :
    batches.mapM (LevelDbMutationQueue.parseMutationBatch parses) = .ok batches := by
  refine mapM_of_map_eq (g := id) (k := id) rfl fun batch hbatch => ?_
  rw [id, LevelDbMutationQueue.parseMutationBatch, h batch hbatch]
  rfl

/-- A batch of the queue that was looked for is parsed. -/
theorem mapM_find? {batches : List MutationBatch} (h : ∀ batch ∈ batches, parses batch)
    (want : MutationBatch → Bool) :
    (batches.find? want).mapM (LevelDbMutationQueue.parseMutationBatch parses) =
      .ok (batches.find? want) := by
  cases hfind : batches.find? want with
  | none => rfl
  | some batch =>
    rw [Option.mapM_some, LevelDbMutationQueue.parseMutationBatch,
      h batch (List.mem_of_find?_eq_some hfind)]
    rfl

section

variable (h : SameQueue parses q q')

include h

/-- A read that both answer the same. -/
theorem SameQueue.read {answer answer' : QueueAnswer} (heq : answer = answer') :
    Related (SameQueue parses) (.ok (q, answer) : Except Unit _) (.ok (q', answer')) :=
  ⟨h, heq⟩

/-- The batches of the queue that are asked for are parsed. -/
theorem SameQueue.read_rows {batches : List MutationBatch} {rows : Hard (List MutationBatch)}
    (hparses : ∀ batch ∈ batches, parses batch) {want : MutationBatch → Bool}
    (hrows : rows = .ok (batches.filter want)) : Related (SameQueue parses) (observe .batches do
        let rows ← rows
        return (← rows.mapM (LevelDbMutationQueue.parseMutationBatch parses), q))
      (.ok (q', .batches (batches.filter want))) := by
  rw [hrows, ok_bind, mapM_parseMutationBatch fun batch hbatch =>
    hparses batch (List.mem_of_mem_filter hbatch)]
  exact h.read rfl

theorem SameQueue.step_add {time : Timestamp} {base mutations : List Mutation}
    (hproper : Proper parses q (.addMutationBatch time base mutations)) : Related (SameQueue parses)
      (q.step parses (.addMutationBatch time base mutations))
      (q'.step (.addMutationBatch time base mutations)) := by
  obtain ⟨⟨batches, hlevelDb, hmemory, hparses⟩, hid, htoken⟩ := h
  rw [LevelDbMutationQueue.step, MemoryMutationQueue.step]
  by_cases hmuts : mutations = []
  · subst hmuts
    exact rfl
  · cases hparents : collectionParents mutations with
    | ok parents =>
      let batch : MutationBatch :=
        ⟨q.nextBatchId, time, base, mutations, hmuts⟩
      have hpos := hmemory.positive
      have hnext : toBatchId (q.nextBatchId + 1) = q.nextBatchId + 1 :=
        toBatchId_eq (by omega) (Int.add_lt_of_lt_sub_right hproper.1)
      obtain ⟨r, hr, hrid, hrtoken, hrholds⟩ :=
        hlevelDb.add (show batch.batchId = _ from rfl) hnext hparents
      obtain ⟨r', hr', hrid', hrtoken', hrholds'⟩ :=
        hmemory.add (show batch.batchId = _ from hid) (hid ▸ hproper.1) hparents
      rw [hr, hr']
      refine ⟨⟨⟨_, hrholds, hrholds', ?_⟩, ?_, ?_⟩, rfl⟩
      · exact List.forall_mem_append.mpr
          ⟨hparses, List.forall_mem_singleton.mpr (hproper.2 hmuts)⟩
      · rw [hrid, hrid', hid]
      · rw [hrtoken, hrtoken', htoken]
    | error e =>
      -- A document without a path: both abort when they look for its collection.
      have hlevelDbAdd : q.addMutationBatch time base mutations = .error e := by
        rw [LevelDbMutationQueue.addMutationBatch, dif_pos hmuts, hparents]
        rfl
      obtain ⟨e', hmemoryAdd⟩ :
          ∃ e', q'.addMutationBatch time base mutations = .error e' := by
        rw [MemoryMutationQueue.addMutationBatch, dif_pos hmuts]
        cases hlast : hardAssert (q'.queue.getLast?.all (·.batchId < q'.nextBatchId))
          "Mutation batch_ids must be in monotonically increasing order" with
        | error e' => exact ⟨e', by simp only [hlast]; rfl⟩
        | ok _ => exact ⟨e, by simp only [hlast, hparents]; rfl⟩
      rw [hlevelDbAdd, hmemoryAdd]
      exact rfl

theorem SameQueue.step_acknowledge {batch : MutationBatch}
    {streamToken : Bytes} (hproper : Proper parses q (.acknowledgeBatch batch streamToken)) :
    Related (SameQueue parses) (q.step parses (.acknowledgeBatch batch streamToken))
      (q'.step (.acknowledgeBatch batch streamToken)) := by
  obtain ⟨⟨batches, hlevelDb, hmemory, hparses⟩, hid, htoken⟩ := h
  rw [Proper, hlevelDb.allMutationBatches_eq] at hproper
  obtain ⟨first, hfirst, hfirstId⟩ := Option.map_eq_some_iff.mp hproper
  obtain ⟨rest, rfl⟩ := List.head?_eq_some_iff.mp hfirst
  rw [MemoryMutationQueue.step, hmemory.acknowledge hfirstId.symm]
  exact ⟨⟨⟨_, hlevelDb.acknowledgeBatch batch streamToken, hmemory.withStreamToken streamToken,
    hparses⟩, hid, rfl⟩, rfl⟩

theorem SameQueue.step_remove {batch : MutationBatch}
    (hproper : Proper parses q (.removeMutationBatch batch)) :
    Related (SameQueue parses) (q.step parses (.removeMutationBatch batch))
      (q'.step (.removeMutationBatch batch)) := by
  obtain ⟨⟨batches, hlevelDb, hmemory, hparses⟩, hid, htoken⟩ := h
  rw [Proper, hlevelDb.allMutationBatches_eq] at hproper
  obtain ⟨rest, rfl⟩ := List.head?_eq_some_iff.mp hproper
  obtain ⟨r, hr, hrid, hrtoken, hrholds⟩ := hlevelDb.remove
  obtain ⟨r', hr', hrid', hrtoken', hrholds'⟩ := hmemory.remove
  rw [LevelDbMutationQueue.step, MemoryMutationQueue.step, hr, hr']
  refine ⟨⟨⟨rest, hrholds, hrholds', (List.forall_mem_cons.mp hparses).2⟩, ?_, ?_⟩, rfl⟩
  · rw [hrid, hrid', hid]
  · rw [hrtoken, hrtoken', htoken]

theorem SameQueue.step_query {query : Query}
    (hproper : Proper parses q (.allMutationBatchesAffectingQuery query)) :
    Related (SameQueue parses) (q.step parses (.allMutationBatchesAffectingQuery query))
      (q'.step (.allMutationBatchesAffectingQuery query)) := by
  obtain ⟨⟨batches, hlevelDb, hmemory, hparses⟩, -⟩ := id h
  rw [LevelDbMutationQueue.step, MemoryMutationQueue.step]
  cases hgroup : query.collectionGroup with
  | none =>
    rw [hmemory.allMutationBatchesAffectingQuery_eq hgroup]
    exact h.read_rows hparses (hlevelDb.allMutationBatchesAffectingQuery_eq hproper hgroup)
  | some collectionId =>
    -- Both refuse collection group queries.
    have hquery : query.isCollectionGroupQuery = true := by
      rw [Query.isCollectionGroupQuery, hgroup]
      rfl
    rw [LevelDbMutationQueue.allMutationBatchesAffectingQuery,
      MemoryMutationQueue.allMutationBatchesAffectingQuery, hquery, hproper]
    exact rfl

theorem SameQueue.step_highest (hproper : Proper parses q .getHighestUnacknowledgedBatchId) :
    Related (SameQueue parses) (q.step parses .getHighestUnacknowledgedBatchId)
      (q'.step .getHighestUnacknowledgedBatchId) := by
  obtain ⟨⟨batches, hlevelDb, hmemory, -⟩, -⟩ := id h
  refine h.read (congrArg QueueAnswer.batchId ?_)
  rw [hmemory.getHighestUnacknowledgedBatchId_eq,
    LevelDbMutationQueue.getHighestUnacknowledgedBatchId, hproper, hlevelDb.mutations,
    List.getLast?_map]
  cases batches.getLast? <;> rfl

/-- A proper operation gets the same answer from queues that hold the same, and they hold the same
after it. -/
theorem SameQueue.step {operation : QueueOperation} (hproper : Proper parses q operation) :
    Related (SameQueue parses) (q.step parses operation) (q'.step operation) := by
  obtain ⟨⟨batches, hlevelDb, hmemory, hparses⟩, hid, htoken⟩ := id h
  cases operation with
  | addMutationBatch time base mutations => exact h.step_add hproper
  | acknowledgeBatch batch streamToken => exact h.step_acknowledge hproper
  | removeMutationBatch batch => exact h.step_remove hproper
  | lookupMutationBatch batchId =>
    rw [LevelDbMutationQueue.step, hlevelDb.lookupMutationBatch_eq, mapM_find? hparses,
      MemoryMutationQueue.step, hmemory.lookupMutationBatch_eq hproper.1 hproper.2]
    exact h.read rfl
  | nextMutationBatchAfterBatchId batchId =>
    rw [LevelDbMutationQueue.step, hlevelDb.nextMutationBatchAfterBatchId_eq hproper.1 hproper.2,
      mapM_find? hparses, MemoryMutationQueue.step,
      hmemory.nextMutationBatchAfterBatchId_eq hproper.1 hproper.2]
    exact h.read rfl
  | allMutationBatches =>
    rw [LevelDbMutationQueue.step, hlevelDb.allMutationBatches_eq, mapM_parseMutationBatch hparses,
      MemoryMutationQueue.step, MemoryMutationQueue.allMutationBatches, hmemory.queue]
    exact h.read rfl
  | allMutationBatchesAffectingDocumentKey key =>
    rw [MemoryMutationQueue.step, hmemory.allMutationBatchesAffectingDocumentKey_eq]
    exact h.read_rows hparses (hlevelDb.allMutationBatchesAffectingDocumentKey_eq key)
  | allMutationBatchesAffectingDocumentKeys documentKeys =>
    rw [MemoryMutationQueue.step, hmemory.allMutationBatchesAffectingDocumentKeys_eq]
    exact h.read_rows hparses (hlevelDb.allMutationBatchesAffectingDocumentKeys_eq documentKeys)
  | allMutationBatchesAffectingQuery query => exact h.step_query hproper
  | getHighestUnacknowledgedBatchId => exact h.step_highest hproper
  | isEmpty =>
    refine h.read (congrArg QueueAnswer.isEmpty ?_)
    rw [hlevelDb.isEmpty_eq, MemoryMutationQueue.isEmpty, hmemory.queue]
  | getLastStreamToken => exact h.read (congrArg QueueAnswer.streamToken htoken)
  | commit => exact ⟨⟨⟨batches, hlevelDb.commit, hmemory, hparses⟩, hid, htoken⟩, rfl⟩

end

end Step

/-- Started empty, the two queues give the same answers to every sequence of operations that are
used properly; if one of them aborts, so does the other. -/
theorem mutationQueues_agree (parses : MutationBatch → Bool) (operations : List QueueOperation)
    (hproper : Along (LevelDbMutationQueue.step parses) (Proper parses) (.start 0) operations) :
    (runAll (LevelDbMutationQueue.step parses) (.start 0) operations).map Prod.snd =
      (runAll MemoryMutationQueue.step .start operations).map Prod.snd :=
  (runAll_related_along (fun _ _ _ h hcall => h.step hcall) (sameQueue_start parses)
    hproper).answers_eq

namespace FirstWrite

def key : DocumentKey := .inCollection [99] [100]

def batch : MutationBatch where
  batchId := 1
  localWriteTime := SnapshotVersion.none.timestamp
  baseMutations := []
  mutations := [.delete key .none]
  nonempty := by simp

def add : QueueOperation :=
  .addMutationBatch SnapshotVersion.none.timestamp [] [.delete key .none]

end FirstWrite

open FirstWrite

/-- Two writes in transactions of their own, read back, and the first one removed. -/
theorem mutationQueues_agree_first_write :
    (runAll (LevelDbMutationQueue.step fun _ => true) (.start 0) [add, .commit, add,
        .nextMutationBatchAfterBatchId 1, .allMutationBatchesAffectingQuery (.atPath [[99]]),
        .removeMutationBatch batch]).map Prod.snd =
      (runAll MemoryMutationQueue.step .start [add, .commit, add,
        .nextMutationBatchAfterBatchId 1, .allMutationBatchesAffectingQuery (.atPath [[99]]),
        .removeMutationBatch batch]).map Prod.snd := by
  apply mutationQueues_agree
  refine ⟨⟨by decide, fun _ => rfl⟩, fun q₁ _ h₁ => ⟨trivial, fun q₂ _ h₂ => ?_⟩⟩
  cases h₁
  cases h₂
  refine ⟨⟨by decide, fun _ => rfl⟩, fun q₃ _ h₃ => ⟨⟨by decide, by decide⟩, fun q₄ _ h₄ => ?_⟩⟩
  cases h₃
  cases h₄
  refine ⟨rfl, fun q₅ _ h₅ => ?_⟩
  cases h₅
  exact ⟨rfl, fun _ _ _ => trivial⟩

def Answers (parses : MutationBatch → Bool) (maxBatchId : Int) (operations : List QueueOperation)
    (levelDb memory : Except Unit (List QueueAnswer)) : Prop :=
  (runAll (LevelDbMutationQueue.step parses) (.start maxBatchId) operations).map Prod.snd =
      levelDb ∧
    (runAll MemoryMutationQueue.step .start operations).map Prod.snd = memory

/-- LevelDB always takes another batch. -/
theorem levelDb_adds (q : LevelDbMutationQueue) (n : Nat) : ∃ answers,
    (runAll (LevelDbMutationQueue.step fun _ => true) q (List.replicate n add)).map Prod.snd =
      .ok answers := by
  induction n generalizing q with
  | zero => exact ⟨[], rfl⟩
  | succ n ih =>
    obtain ⟨q₁, answer, hstep⟩ : ∃ q₁ answer,
        q.step (fun _ => true) add = .ok (q₁, answer) := ⟨_, _, rfl⟩
    obtain ⟨answers, h⟩ := ih q₁
    rw [List.replicate_succ, runAll, hstep]
    dsimp only
    cases hrun : runAll (LevelDbMutationQueue.step fun _ => true) q₁ (List.replicate n add) with
    | error e =>
      rw [hrun] at h
      cases h
    | ok r => exact ⟨answer :: r.2, rfl⟩

/-- In memory, each batch has the next id. -/
theorem memory_adds {n : Nat} (hn : n + 1 < 2 ^ 31) : ∃ q answers,
    runAll MemoryMutationQueue.step .start (List.replicate (n + 1) add) = .ok (q, answers) ∧
      q.nextBatchId = toBatchId (n + 2) ∧
      q.queue.getLast?.map (·.batchId) = some (n + 1 : Int) := by
  induction n with
  | zero => exact ⟨_, _, rfl, rfl, rfl⟩
  | succ n ih =>
    obtain ⟨q, answers, hrun, hnext, hlast⟩ := ih (by omega)
    rw [toBatchId_eq (by omega) (by omega)] at hnext
    have hassert : q.queue.getLast?.all (·.batchId < q.nextBatchId) = true := by
      obtain ⟨last, hlast, hid⟩ := Option.map_eq_some_iff.mp hlast
      rw [hlast, Option.all_some, decide_eq_true_eq]
      omega
    let batch : MutationBatch := { batch with batchId := q.nextBatchId }
    have hstep : q.step add = .ok (⟨q.queue ++ [batch], toBatchId (q.nextBatchId + 1),
        indexBatch q.batchesByDocumentKey batch, q.lastStreamToken⟩, .batch batch) := by
      rw [add, MemoryMutationQueue.step, MemoryMutationQueue.addMutationBatch,
        dif_pos (List.cons_ne_nil _ _)]
      simp only [hassert]
      rfl
    rw [List.replicate_succ']
    refine ⟨_, _, runAll_append_eq_ok.mpr ⟨q, answers, _, hrun,
      runAll_cons_eq_ok.mpr ⟨_, _, [], hstep, rfl, rfl⟩, rfl⟩, ?_, ?_⟩
    · exact congrArg toBatchId (by omega)
    · rw [List.getLast?_concat]
      exact congrArg some (show q.nextBatchId = _ by omega)

/-- The id after the last one is not above it. -/
theorem memory_adds_error {n : Nat} (hn : n + 2 = 2 ^ 31) :
    (runAll MemoryMutationQueue.step .start (List.replicate (n + 2) add)).map Prod.snd =
      .error () := by
  obtain ⟨q, answers, hrun, hnext, hlast⟩ := memory_adds (n := n) (by omega)
  have hassert : q.queue.getLast?.all (·.batchId < q.nextBatchId) = false := by
    obtain ⟨last, hlast, hid⟩ := Option.map_eq_some_iff.mp hlast
    have hwrap : toBatchId (n + 2 : Int) = -2 ^ 31 := by
      rw [show (n + 2 : Int) = 2 ^ 31 by exact_mod_cast hn]
      rfl
    rw [hlast, Option.all_some, hnext, hwrap, decide_eq_false_iff_not]
    omega
  have hstep : q.step add = .error () := by
    rw [add, MemoryMutationQueue.step, MemoryMutationQueue.addMutationBatch,
      dif_pos (List.cons_ne_nil _ _)]
    simp only [hassert]
    rfl
  cases hall : runAll MemoryMutationQueue.step .start (List.replicate (n + 2) add) with
  | error e => rfl
  | ok r =>
    rw [List.replicate_succ'] at hall
    obtain ⟨q₁, _, _, hrun₁, hlast₁, -⟩ := runAll_append_eq_ok.mp hall
    obtain ⟨rfl, -⟩ := Prod.mk.inj (Except.ok.inj (hrun.symm.trans hrun₁))
    obtain ⟨_, _, _, hstep₁, -⟩ := runAll_cons_eq_ok.mp hlast₁
    cases hstep.symm.trans hstep₁

/-- Uses that the queues answer differently: the highest id in the transaction of a write, an
acknowledgement without a batch in the queue, the batches of a document query, a batch that cannot
be parsed, a batch of another user, the batch after the last id and after one that is too low, and
more batches than there are ids. -/
theorem mutationQueues_differ : Answers (fun _ => true) 0 [add, .getHighestUnacknowledgedBatchId]
      (.ok [.batch batch, .batchId (-1)]) (.ok [.batch batch, .batchId 1]) ∧
    Answers (fun _ => true) 0 [.acknowledgeBatch batch []] (.ok [.done]) (.error ()) ∧
    Answers (fun _ => true) 0 [.allMutationBatchesAffectingQuery (.atPath key.path)]
      (.error ()) (.ok [.batches []]) ∧
    Answers (fun _ => false) 0 [add, .allMutationBatches]
      (.error ()) (.ok [.batch batch, .batches [batch]]) ∧
    Answers (fun _ => true) 1 [add]
      (.ok [.batch { batch with batchId := 2 }]) (.ok [.batch batch]) ∧
    Answers (fun _ => true) 0 [add, .nextMutationBatchAfterBatchId (2 ^ 31 - 1)]
      (.ok [.batch batch, .found (some batch)]) (.ok [.batch batch, .found none]) ∧
    Answers (fun _ => true) 0
      [add, .removeMutationBatch batch, add, .nextMutationBatchAfterBatchId (-2 ^ 31)]
      (.ok [.batch batch, .done, .batch { batch with batchId := 2 },
        .found (some { batch with batchId := 2 })])
      (.ok [.batch batch, .done, .batch { batch with batchId := 2 }, .found none]) ∧
    ∃ n answers, Answers (fun _ => true) 0 (List.replicate n add) (.ok answers) (.error ()) := by
  refine ⟨⟨rfl, rfl⟩, ⟨rfl, rfl⟩, ⟨rfl, rfl⟩, ⟨rfl, rfl⟩, ⟨rfl, rfl⟩, ⟨rfl, rfl⟩, ⟨rfl, rfl⟩, ?_⟩
  obtain ⟨n, hn⟩ : ∃ n, n + 2 = 2 ^ 31 := ⟨2 ^ 31 - 2, rfl⟩
  obtain ⟨answers, hanswers⟩ := levelDb_adds (.start 0) (n + 2)
  exact ⟨n + 2, answers, hanswers, memory_adds_error hn⟩

end Firebase.Firestore.Local
