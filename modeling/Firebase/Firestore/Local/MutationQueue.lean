import Firebase.Firestore.Core.Query
import Firebase.Firestore.Model.MutationBatch

/-!
# The mutation queue

The pending batches of a user, as `MemoryMutationQueue` (`memory_mutation_queue.cc`)
and `LevelDbMutationQueue` (`leveldb_mutation_queue.cc`) keep them: the batches by id,
and an index of the documents they touch.

Both stand for the list of the pending batches in the order of their ids (`Holds`), and their
operations are those of this list.  The LevelDB queue is modelled over its rows, by the components
of their keys.
-/

namespace Firebase.Firestore.Local

open Lib Util Model Firestore.Core OrdMap List
open Prod.Lex (monotone_fst toLex_le_toLex lt_iff)
open ResourcePath (isPrefixOf_iff)

/-! ## The index of the documents -/

/-- References from document keys to batch ids, by key and id. -/
abbrev DocumentMutations := OrdMap (DocumentKey ×ₗ Int) Unit

section

variable (index : DocumentMutations)

/-- The index has exactly the mutations of the batches. -/
def Indexes (batches : List MutationBatch) : Prop :=
  ∀ key id, index.get? (toLex (key, id)) = some () ↔
    ∃ batch ∈ batches, batch.batchId = id ∧ batch.touches key

def indexBatch (batch : MutationBatch) : DocumentMutations :=
  batch.mutations.foldl (fun index mutation =>
    index.insert (toLex (mutation.key, batch.batchId)) ()) index

def unindexBatch (batch : MutationBatch) : DocumentMutations :=
  batch.mutations.foldl (fun index mutation =>
    index.erase (toLex (mutation.key, batch.batchId))) index

end

def idSet (ids : List Int) : OrdMap Int Unit :=
  ids.foldl (fun set id => set.insert id ()) .empty

def kBatchIdUnknown : Int := -1

/-- A `BatchId` that was computed: an `int32_t`, which wraps around. -/
def toBatchId (n : Int) : Int := n.bmod (2 ^ 32)

theorem toBatchId_eq {n : Int} (hn : -2 ^ 31 ≤ n) (hn' : n < 2 ^ 31) : toBatchId n = n :=
  Int.bmod_eq_of_le (by omega) (by omega)

/-- The collections of the documents that are written, which `AddMutationBatch` tells the index
manager of. -/
def collectionParents (mutations : List Mutation) : Hard (List ResourcePath) :=
  mutations.mapM fun mutation => mutation.key.path.popLast

def touchesCollection (path : ResourcePath) (batch : MutationBatch) : Bool :=
  batch.mutations.any fun mutation => path.isImmediateParentOf mutation.key.path

def touchesAny (documentKeys : DocumentKeySet) (batch : MutationBatch) : Bool :=
  batch.mutations.any fun mutation => mutation.key ∈ documentKeys

/-! ## In memory -/

structure MemoryMutationQueue where
  queue : List MutationBatch
  nextBatchId : Int
  batchesByDocumentKey : DocumentMutations
  lastStreamToken : Bytes

namespace MemoryMutationQueue

def start : MemoryMutationQueue := ⟨[], 1, .empty, []⟩

def isEmpty (q : MemoryMutationQueue) : Bool := q.queue.isEmpty

variable (q : MemoryMutationQueue)

def acknowledgeBatch (batch : MutationBatch) (streamToken : Bytes) : Hard MemoryMutationQueue :=
  match q.queue with
  | [] => .error ⟨"Cannot acknowledge batch on an empty queue"⟩
  | check :: _ => do
    hardAssert (batch.batchId = check.batchId) "Queue ordering failure"
    return { q with lastStreamToken := streamToken }

def addMutationBatch (localWriteTime : Timestamp)
    (baseMutations mutations : List Mutation) : Hard (MutationBatch × MemoryMutationQueue) :=
  if hmuts : mutations ≠ [] then do
    let batch : MutationBatch :=
      ⟨q.nextBatchId, localWriteTime, baseMutations, mutations, hmuts⟩
    hardAssert (q.queue.getLast?.all (·.batchId < batch.batchId))
      "Mutation batch_ids must be in monotonically increasing order"
    let _ ← collectionParents mutations
    return (batch, { q with
      queue := q.queue ++ [batch]
      nextBatchId := toBatchId (q.nextBatchId + 1)
      batchesByDocumentKey := indexBatch q.batchesByDocumentKey batch })
  else .error ⟨"Mutation batches should not be empty"⟩

def removeMutationBatch (batch : MutationBatch) : Hard MemoryMutationQueue :=
  match q.queue with
  | [] => .error ⟨"Trying to remove batch from empty queue"⟩
  | head :: rest => do
    hardAssert (head.batchId = batch.batchId)
      "Can only remove the first entry of the mutation queue"
    return { q with
      queue := rest
      batchesByDocumentKey := unindexBatch q.batchesByDocumentKey batch }

def allMutationBatches : List MutationBatch := q.queue

def getHighestUnacknowledgedBatchId : Int :=
  if q.isEmpty then kBatchIdUnknown else toBatchId (q.nextBatchId - 1)

def indexOfBatchId (batchId : Int) : Int :=
  match q.queue with
  | [] => 0
  | firstBatch :: _ => toBatchId (batchId - firstBatch.batchId)

def lookupMutationBatch (batchId : Int) : Hard (Option MutationBatch) :=
  let index := q.indexOfBatchId batchId
  if index < 0 then .ok none
  else
    match q.queue[index.toNat]? with
    | none => .ok none
    | some batch => do
      hardAssert (batch.batchId = batchId) "If found, batch must match"
      return some batch

def nextMutationBatchAfterBatchId (batchId : Int) : Option MutationBatch :=
  q.queue[(q.indexOfBatchId (toBatchId (batchId + 1))).toNat]?

def allMutationBatchesWithIds (batchIds : OrdMap Int Unit) : Hard (List MutationBatch) :=
  batchIds.entries.filterMapM fun entry => q.lookupMutationBatch entry.1

def references (start : DocumentKey ×ₗ Int)
    (within : DocumentKey → Bool) : List (DocumentKey ×ₗ Int) :=
  ((q.batchesByDocumentKey.entries.filter fun entry => start ≤ entry.1).takeWhile
    fun entry => within (ofLex entry.1).1).map Prod.fst

/-- `MemoryMutationQueue::ContainsKey`: the first reference from the key and the id zero on. -/
def containsKey (key : DocumentKey) : Bool :=
  match q.batchesByDocumentKey.first (toLex (key, 0) ≤ ·) with
  | some entry => (ofLex entry.1).1 = key
  | none => false

def allMutationBatchesAffectingDocumentKey (key : DocumentKey) : Hard (List MutationBatch) :=
  (q.references (toLex (key, 0)) (· = key)).mapM fun reference => do
    match ← q.lookupMutationBatch (ofLex reference).2 with
    | some batch => return batch
    | none => .error ⟨"Batches in the index must exist in the main table"⟩

def allMutationBatchesAffectingDocumentKeys
    (documentKeys : DocumentKeySet) : Hard (List MutationBatch) :=
  let references := documentKeys.sort.flatMap fun key => q.references (toLex (key, 0)) (· = key)
  q.allMutationBatchesWithIds (idSet (references.map fun reference => (ofLex reference).2))

/-- The key that the scan for a query starts from: no segment is before the empty one. -/
def startKey (path : ResourcePath) : DocumentKey :=
  if h : path.length % 2 = 0 then ⟨path, h⟩
  else ⟨path ++ [[]], by rw [length_append, length_singleton]; omega⟩

def allMutationBatchesAffectingQuery (query : Query) : Hard (List MutationBatch) := do
  hardAssert (!query.isCollectionGroupQuery)
    "CollectionGroup queries should be handled in LocalDocumentsView"
  let rows := (q.references (toLex (startKey query.path, 0))
    fun key => query.path.isPrefixOf key.path).filter fun reference =>
      (ofLex reference).1.path.length = query.path.length + 1
  q.allMutationBatchesWithIds (idSet (rows.map fun reference => (ofLex reference).2))

end MemoryMutationQueue

/-! ## In LevelDB -/

/-- `LevelDbMutationQueue`: the rows of its user as the current transaction has them, and those of
`mutation` as of the last commit.  The next id is kept over all users.  A row of `mutation` is here
the batch that it is the encoding of; whether that can be parsed is up to `parseMutationBatch`. -/
structure LevelDbMutationQueue where
  mutations : OrdMap Int MutationBatch
  nextBatchId : Int
  documentMutations : DocumentMutations
  lastStreamToken : Bytes
  committed : OrdMap Int MutationBatch

namespace LevelDbMutationQueue

/-- A queue without rows after `Start`, with the highest id of a batch of another user. -/
def start (maxBatchId : Int) : LevelDbMutationQueue :=
  ⟨.empty, toBatchId (maxBatchId + 1), .empty, [], .empty⟩

/-- `ParseMutationBatch`: what can be parsed is what was written. -/
def parseMutationBatch (parses : MutationBatch → Bool) (row : MutationBatch) :
    Hard MutationBatch := do
  hardAssert (parses row) "MutationBatch proto failed to parse"
  return row

variable (q : LevelDbMutationQueue)

def commit : LevelDbMutationQueue := { q with committed := q.mutations }

def isEmpty (q : LevelDbMutationQueue) : Bool := q.mutations.entries.isEmpty

/-- `LevelDbMutationQueue::AcknowledgeBatch`, which does not look at the batch. -/
def acknowledgeBatch (_batch : MutationBatch) (streamToken : Bytes) : LevelDbMutationQueue :=
  { q with lastStreamToken := streamToken }

def addMutationBatch (localWriteTime : Timestamp)
    (baseMutations mutations : List Mutation) : Hard (MutationBatch × LevelDbMutationQueue) :=
  if hmuts : mutations ≠ [] then do
    let batch : MutationBatch :=
      ⟨q.nextBatchId, localWriteTime, baseMutations, mutations, hmuts⟩
    let _ ← collectionParents mutations
    return (batch, { q with
      mutations := q.mutations.insert batch.batchId batch
      nextBatchId := toBatchId (q.nextBatchId + 1)
      documentMutations := indexBatch q.documentMutations batch })
  else .error ⟨"Cannot create an empty mutation batch"⟩

def removeMutationBatch (batch : MutationBatch) : Hard LevelDbMutationQueue := do
  hardAssert (q.mutations.get? batch.batchId).isSome "Mutation batch did not exist"
  return { q with
    mutations := q.mutations.erase batch.batchId
    documentMutations := unindexBatch q.documentMutations batch }

def allMutationBatches : List MutationBatch :=
  q.mutations.entries.map Prod.snd

def lookupMutationBatch (batchId : Int) : Option MutationBatch :=
  q.mutations.get? batchId

/-- `LevelDbMutationQueue::GetHighestUnacknowledgedBatchId`, which reads the database and not the
current transaction. -/
def getHighestUnacknowledgedBatchId : Int :=
  match q.committed.entries.getLast? with
  | some row => row.1
  | none => kBatchIdUnknown

def nextMutationBatchAfterBatchId (batchId : Int) : Option MutationBatch :=
  (q.mutations.first (toBatchId (batchId + 1) ≤ ·)).map Prod.snd

def allMutationBatchesWithIds (batchIds : OrdMap Int Unit) : Hard (List MutationBatch) :=
  batchIds.entries.mapM fun entry =>
    match q.mutations.get? entry.1 with
    | some batch => .ok batch
    | none => .error ⟨"Dangling document-mutation reference found: Missing batch"⟩

def rows (path : ResourcePath) (within : DocumentKey → Bool) : List (DocumentKey ×ₗ Int) :=
  ((q.documentMutations.entries.filter fun entry => path ≤ (ofLex entry.1).1.path).takeWhile
    fun entry => within (ofLex entry.1).1).map Prod.fst

def allMutationBatchesAffectingDocumentKeys
    (documentKeys : DocumentKeySet) : Hard (List MutationBatch) :=
  let rows := documentKeys.sort.flatMap fun documentKey =>
    q.rows documentKey.path fun key => documentKey.path.isPrefixOf key.path && key = documentKey
  q.allMutationBatchesWithIds (idSet (rows.map fun row => (ofLex row).2))

def allMutationBatchesAffectingDocumentKey (key : DocumentKey) : Hard (List MutationBatch) :=
  q.allMutationBatchesAffectingDocumentKeys {key}

def allMutationBatchesAffectingQuery (query : Query) : Hard (List MutationBatch) := do
  hardAssert (!query.isDocumentQuery) "Document queries shouldn't go down this path"
  hardAssert (!query.isCollectionGroupQuery)
    "CollectionGroup queries should be handled in LocalDocumentsView"
  let rows := (q.rows query.path fun key => query.path.isPrefixOf key.path).filter fun row =>
    (ofLex row).1.path.length = query.path.length + 1
  q.allMutationBatchesWithIds (idSet (rows.map fun row => (ofLex row).2))

end LevelDbMutationQueue

/-! ## The pending batches

What both queues stand for is the list of the pending batches in the order of their ids. -/

/-- The batches are in the order of their ids. -/
def Ascending (batches : List MutationBatch) : Prop :=
  batches.Pairwise fun a b => a.batchId < b.batchId

variable {batch : MutationBatch} {key : DocumentKey}

theorem touches_iff : batch.touches key ↔ ∃ mutation ∈ batch.mutations, mutation.key = key := by
  simp [MutationBatch.touches]

variable {path : ResourcePath}

/-- A batch has a mutation of a document that is asked for. -/
theorem any_key_iff (want : DocumentKey → Bool) :
    (batch.mutations.any fun mutation => want mutation.key) ↔
      ∃ key, want key ∧ batch.touches key := by
  simp only [any_eq_true, touches_iff]
  constructor
  · rintro ⟨mutation, hmem, hwant⟩
    exact ⟨mutation.key, hwant, mutation, hmem, rfl⟩
  · rintro ⟨_, hwant, mutation, hmem, rfl⟩
    exact ⟨mutation, hmem, hwant⟩

theorem touchesCollection_iff : touchesCollection path batch ↔
    ∃ key, path.isImmediateParentOf key.path ∧ batch.touches key :=
  any_key_iff fun key => path.isImmediateParentOf key.path

theorem touchesAny_iff {documentKeys : DocumentKeySet} :
    touchesAny documentKeys batch ↔ ∃ key ∈ documentKeys, batch.touches key :=
  (any_key_iff fun key => key ∈ documentKeys).trans (by simp only [decide_eq_true_eq])

variable {ids : List Int} {id : Int}

theorem mem_idSet : (idSet ids).get? id = some () ↔ id ∈ ids := by
  rw [idSet, get?_foldl_insert fun id => id]
  simp

variable {batches : List MutationBatch}

/-- The ids of the batches that are asked for, in order, are those of a set with these members. -/
theorem ids_eq (hasc : Ascending batches)
    (want : MutationBatch → Bool) (hids : ids.Pairwise (· < ·))
    (hmem : ∀ id, id ∈ ids ↔ ∃ batch ∈ batches, batch.batchId = id ∧ want batch) :
    ids = (batches.filter want).map (·.batchId) := by
  refine hids.eq_of_mem_iff ?_ fun id => ?_
  · exact pairwise_map.mpr (hasc.filter want)
  · rw [hmem, mem_map]
    constructor
    · rintro ⟨batch, hbatch, rfl, hwant⟩
      exact ⟨batch, mem_filter.mpr ⟨hbatch, hwant⟩, rfl⟩
    · rintro ⟨batch, hbatch, rfl⟩
      exact ⟨batch, mem_of_mem_filter hbatch, rfl, (mem_filter.mp hbatch).2⟩

theorem idSet_eq (hasc : Ascending batches) (want : MutationBatch → Bool)
    (hmem : ∀ id, id ∈ ids ↔ ∃ batch ∈ batches, batch.batchId = id ∧ want batch) :
    (idSet ids).entries.map Prod.fst = (batches.filter want).map (·.batchId) := by
  refine ids_eq hasc want (pairwise_map.mpr (idSet ids).sorted) fun id => ?_
  rw [← hmem, mem_map]
  constructor
  · rintro ⟨⟨_, _⟩, hentry, rfl⟩
    exact mem_idSet.mp (mem_entries.mp hentry)
  · intro hid
    exact ⟨(id, ()), mem_entries.mpr (mem_idSet.mpr hid), rfl⟩

variable {index : DocumentMutations}

/-- The references of the index whose keys are asked for, by their ids. -/
theorem mem_ids_iff (hindex : Indexes index batches) (want : DocumentKey → Bool) :
    id ∈ ((index.entries.filter fun entry => want (ofLex entry.1).1).map
        Prod.fst).map (fun reference => (ofLex reference).2) ↔
      ∃ batch ∈ batches, batch.batchId = id ∧ ∃ key, want key ∧ batch.touches key := by
  simp only [mem_map, mem_filter]
  constructor
  · rintro ⟨reference, ⟨⟨_, _⟩, ⟨hentry, hwant⟩, rfl⟩, rfl⟩
    obtain ⟨batch, hbatch, hid, htouches⟩ := (hindex _ _).mp (mem_entries.mp hentry)
    exact ⟨batch, hbatch, hid, _, hwant, htouches⟩
  · rintro ⟨batch, hbatch, rfl, key, hwant, htouches⟩
    have hget := (hindex key batch.batchId).mpr ⟨batch, hbatch, rfl, htouches⟩
    exact ⟨_, ⟨⟨_, ()⟩, ⟨mem_entries.mpr hget, hwant⟩, rfl⟩, rfl⟩

/-- The references of a set of keys, by their ids. -/
theorem mem_flatMap_ids_iff (hindex : Indexes index batches) (documentKeys : DocumentKeySet) :
    id ∈ (documentKeys.sort.flatMap fun key =>
        (index.entries.filter fun entry => (ofLex entry.1).1 = key).map Prod.fst).map
          (fun reference => (ofLex reference).2) ↔
      ∃ batch ∈ batches, batch.batchId = id ∧ touchesAny documentKeys batch := by
  simp only [touchesAny_iff, map_flatMap, mem_flatMap, Finset.mem_sort]
  constructor
  · rintro ⟨key, hkey, hmem⟩
    obtain ⟨batch, hbatch, hid, _, hwant, htouches⟩ := (mem_ids_iff hindex (· = key)).mp hmem
    cases of_decide_eq_true hwant
    exact ⟨batch, hbatch, hid, key, hkey, htouches⟩
  · rintro ⟨batch, hbatch, hid, key, hkey, htouches⟩
    refine ⟨key, hkey, (mem_ids_iff hindex (· = key)).mpr ?_⟩
    exact ⟨batch, hbatch, hid, key, decide_eq_true rfl, htouches⟩

/-- Below the path of a collection, the documents of the collection are one segment down. -/
theorem filter_immediate {entries : List ((DocumentKey ×ₗ Int) × Unit)} :
    ((entries.filter fun entry => path.isPrefixOf (ofLex entry.1).1.path).map Prod.fst).filter
        (fun reference => (ofLex reference).1.path.length = path.length + 1) =
      (entries.filter fun entry => path.isImmediateParentOf (ofLex entry.1).1.path).map
        Prod.fst := by
  rw [filter_map, filter_filter]
  refine congrArg _ (filter_congr fun entry _ => ?_)
  rw [Bool.eq_iff_iff, ResourcePath.isImmediateParentOf_iff_isPrefixOf, and_comm]
  simp

/-! ## The index follows the queue -/

/-- The references of a batch. -/
theorem mem_references : toLex (key, id) ∈ batch.mutations.map (fun mutation =>
    toLex (mutation.key, batch.batchId)) ↔ batch.batchId = id ∧ batch.touches key := by
  simp only [mem_map, touches_iff, toLex_inj, Prod.mk.injEq]
  exact ⟨fun ⟨mutation, hmem, hkey, hid⟩ => ⟨hid, mutation, hmem, hkey⟩,
    fun ⟨hid, mutation, hmem, hkey⟩ => ⟨mutation, hmem, hkey, hid⟩⟩

theorem get?_indexBatch : (indexBatch index batch).get? (toLex (key, id)) = some () ↔
      (batch.batchId = id ∧ batch.touches key) ∨ index.get? (toLex (key, id)) = some () := by
  rw [indexBatch, get?_foldl_insert, ← mem_references]
  split_ifs with h <;> simp [h]

theorem get?_unindexBatch : (unindexBatch index batch).get? (toLex (key, id)) = some () ↔
      ¬ (batch.batchId = id ∧ batch.touches key) ∧ index.get? (toLex (key, id)) = some () := by
  rw [unindexBatch, get?_foldl_erase, ← mem_references]
  split_ifs with h <;> simp [h]

theorem Indexes.add (h : Indexes index batches) (batch : MutationBatch) :
    Indexes (indexBatch index batch) (batches ++ [batch]) := by
  intro key id
  rw [get?_indexBatch, h key id]
  simp only [mem_append, mem_singleton, or_and_right, exists_or, exists_eq_left]
  exact or_comm

/-- Removing the first batch leaves the references of the others. -/
theorem Indexes.remove (h : Indexes index (batch :: batches))
    (hasc : Ascending (batch :: batches)) : Indexes (unindexBatch index batch) batches := by
  intro key id
  rw [get?_unindexBatch, h key id]
  simp only [mem_cons, exists_eq_or_imp]
  constructor
  · rintro ⟨hnot, hhead | hrest⟩
    · exact absurd hhead hnot
    · exact hrest
  · rintro ⟨batch', hmem, rfl, htouches⟩
    have hlt := (pairwise_cons.mp hasc).1 batch' hmem
    exact ⟨fun h => hlt.ne h.1, .inr ⟨batch', hmem, rfl, htouches⟩⟩

/-! ## Queues in memory -/

/-- Looking up, by their ids, things that were selected gives the selection. -/
theorem mapM_of_map_eq {α β γ : Type} {f : β → Hard γ} {g : α → β} {k : γ → β} {as : List α}
    {cs : List γ} (heq : as.map g = cs.map k) (h : ∀ c ∈ cs, f (k c) = .ok c) :
    as.mapM (fun a => f (g a)) = .ok cs := by
  induction cs generalizing as with
  | nil =>
    rw [map_eq_nil_iff.mp heq]
    rfl
  | cons c cs ih =>
    obtain ⟨a, as, rfl, hhead, htail⟩ := map_eq_cons_iff.mp heq
    rw [mapM_cons, hhead, h c mem_cons_self,
      ih htail fun c' hc' => h c' (mem_cons_of_mem c hc')]
    rfl

theorem filterMapM_of_map_eq {α β γ : Type} {f : β → Hard (Option γ)} {g : α → β} {k : γ → β}
    {as : List α} {cs : List γ} (heq : as.map g = cs.map k)
    (h : ∀ c ∈ cs, f (k c) = .ok (some c)) : as.filterMapM (fun a => f (g a)) = .ok cs := by
  induction cs generalizing as with
  | nil =>
    rw [map_eq_nil_iff.mp heq]
    rfl
  | cons c cs ih =>
    obtain ⟨a, as, rfl, hhead, htail⟩ := map_eq_cons_iff.mp heq
    rw [filterMapM_cons, hhead, h c mem_cons_self,
      ih htail fun c' hc' => h c' (mem_cons_of_mem c hc')]
    rfl

variable {query : Query} {parents : List ResourcePath} {mutations : List Mutation}

namespace MemoryMutationQueue

/-- The queue holds the batches: their ids are the last ones that were given out. -/
structure Holds (q : MemoryMutationQueue) (batches : List MutationBatch) : Prop where
  queue : q.queue = batches
  ids : ∀ (i : Nat) (batch : MutationBatch), batches[i]? = some batch →
    batch.batchId = q.nextBatchId - batches.length + i
  positive : batches.length < q.nextBatchId
  room : q.nextBatchId < 2 ^ 31
  index : Indexes q.batchesByDocumentKey batches

theorem holds_start : start.Holds [] :=
  ⟨rfl, by simp, by simp [start], by simp [start], fun key id => by simp [start]⟩

variable {q : MemoryMutationQueue} {batches : List MutationBatch}

theorem Holds.ascending (h : q.Holds batches) : Ascending batches := by
  rw [Ascending, pairwise_iff_getElem]
  intro i j hi hj hij
  have hids := h.ids i _ (getElem?_eq_getElem hi)
  have hids' := h.ids j _ (getElem?_eq_getElem hj)
  omega

variable {batch : MutationBatch}

section

variable (h : q.Holds batches)

include h

theorem Holds.id_pos (hmem : batch ∈ batches) : 0 < batch.batchId := by
  obtain ⟨i, hi⟩ := getElem?_of_mem hmem
  have hids := h.ids i batch hi
  have hpos := h.positive
  omega

/-- The position of an id, from the first id on. -/
theorem Holds.indexOfBatchId_eq (hne : batches ≠ []) (id : Int) :
    q.indexOfBatchId id = toBatchId (id - (q.nextBatchId - batches.length)) := by
  cases batches with
  | nil => exact absurd rfl hne
  | cons head rest =>
    have hids := h.ids 0 head rfl
    rw [indexOfBatchId, h.queue]
    simp only [hids, Nat.cast_zero, add_zero]

theorem Holds.lookupMutationBatch_of_mem
    (hmem : batch ∈ batches) : q.lookupMutationBatch batch.batchId = .ok (some batch) := by
  obtain ⟨i, hi⟩ := getElem?_of_mem hmem
  have hindex : q.indexOfBatchId batch.batchId = i := by
    have hlength := (List.getElem?_eq_some_iff.mp hi).1
    have hpos := h.positive
    have hroom := h.room
    rw [h.indexOfBatchId_eq (ne_nil_of_mem hmem), h.ids i batch hi, toBatchId_eq] <;> omega
  rw [lookupMutationBatch, hindex]
  simp [h.queue, hi]

theorem Holds.lookupMutationBatch_eq {id : Int} (hid : -2 ^ 31 ≤ id) (hid' : id < 2 ^ 31) :
    q.lookupMutationBatch id = .ok (batches.find? (·.batchId = id)) := by
  cases hfind : batches.find? (·.batchId = id) with
  | some batch =>
    obtain rfl : batch.batchId = id := by simpa using find?_some hfind
    exact h.lookupMutationBatch_of_mem (mem_of_find?_eq_some hfind)
  | none =>
    -- An id in range is the id of the batch at its position.
    unfold lookupMutationBatch
    dsimp only
    split_ifs with hneg
    · rfl
    · cases hget : q.queue[(q.indexOfBatchId id).toNat]? with
      | none => rfl
      | some batch =>
        rw [h.queue] at hget
        have hids := h.ids _ batch hget
        have hmem := mem_of_getElem? hget
        have hlength := (List.getElem?_eq_some_iff.mp hget).1
        have hpos := h.positive
        have hroom := h.room
        rw [h.indexOfBatchId_eq (ne_nil_of_mem hmem), toBatchId, Int.bmod_def] at hids hneg hlength
        refine absurd ?_ (find?_eq_none.mp hfind batch hmem)
        simp only [decide_eq_true_eq]
        split_ifs at hids hneg hlength <;> omega

theorem Holds.getHighestUnacknowledgedBatchId_eq : q.getHighestUnacknowledgedBatchId =
      (batches.getLast?.map (·.batchId)).getD kBatchIdUnknown := by
  rw [getHighestUnacknowledgedBatchId, isEmpty, h.queue]
  cases hlast : batches.getLast? with
  | none => simp [getLast?_eq_none_iff.mp hlast]
  | some batch =>
    have hne : batches ≠ [] := fun hnil => by simp [hnil] at hlast
    rw [getLast?_eq_getElem?] at hlast
    have hids := h.ids _ batch hlast
    have hpos := length_pos_iff.mpr hne
    simp only [isEmpty_eq_false_iff.mpr hne, Option.map_some, Option.getD_some]
    simp only [Bool.false_eq_true, if_false]
    have hlength := h.positive
    have hroom := h.room
    rw [toBatchId_eq] <;> omega

theorem Holds.nextMutationBatchAfterBatchId_eq {id : Int} (hid : -1 ≤ id) (hid' : id < 2 ^ 31 - 1) :
    q.nextMutationBatchAfterBatchId id = batches.find? (id < ·.batchId) := by
  rw [nextMutationBatchAfterBatchId, h.queue, toBatchId_eq (by omega) (by omega)]
  by_cases hne : batches = []
  · simp [hne]
  · have hpos := h.positive
    have hroom := h.room
    rw [h.indexOfBatchId_eq hne, toBatchId_eq (by omega) (by omega)]
    by_cases hlt : (id + 1 - (q.nextBatchId - batches.length)).toNat < batches.length
    · rw [getElem?_eq_getElem hlt, eq_comm, find?_eq_some_iff_getElem]
      have hids := h.ids _ _ (getElem?_eq_getElem hlt)
      refine ⟨by simp only [decide_eq_true_eq]; omega, _, hlt, rfl, fun j hj => ?_⟩
      have hids' := h.ids j _ (getElem?_eq_getElem (hj.trans hlt))
      simp only [Bool.not_eq_true', decide_eq_false_iff_not]
      omega
    · rw [getElem?_eq_none (not_lt.mp hlt), eq_comm, find?_eq_none]
      intro batch hmem
      obtain ⟨i, hi⟩ := getElem?_of_mem hmem
      have hids := h.ids i batch hi
      have hlength := (List.getElem?_eq_some_iff.mp hi).1
      simp only [decide_eq_true_eq]
      omega

theorem Holds.add (hid : batch.batchId = q.nextBatchId) (hroom : q.nextBatchId < 2 ^ 31 - 1)
    (hparents : collectionParents batch.mutations = .ok parents) :
    ∃ q', q.addMutationBatch batch.localWriteTime batch.baseMutations batch.mutations =
        .ok (batch, q') ∧ q'.nextBatchId = q.nextBatchId + 1 ∧
      q'.lastStreamToken = q.lastStreamToken ∧ q'.Holds (batches ++ [batch]) := by
  obtain ⟨_, time, base, mutations, hmuts⟩ := batch
  cases hid
  have hpos := h.positive
  have hnext : toBatchId (q.nextBatchId + 1) = q.nextBatchId + 1 :=
    toBatchId_eq (by omega) (by omega)
  have hlast : q.queue.getLast?.all (·.batchId < q.nextBatchId) = true := by
    rw [h.queue, Option.all_eq_true]
    intro batch hbatch
    rw [getLast?_eq_getElem?] at hbatch
    have hids := h.ids _ batch hbatch
    have hlength := (List.getElem?_eq_some_iff.mp hbatch).1
    simp only [decide_eq_true_eq]
    omega
  let batch : MutationBatch :=
    ⟨q.nextBatchId, time, base, mutations, hmuts⟩
  refine ⟨⟨q.queue ++ [batch], q.nextBatchId + 1, indexBatch q.batchesByDocumentKey batch,
    q.lastStreamToken⟩, ?_, rfl, rfl, congrArg (· ++ [batch]) h.queue, fun i batch' hi => ?_, ?_,
    Int.add_lt_of_lt_sub_right hroom, h.index.add batch⟩
  · rw [addMutationBatch, dif_pos hmuts, hnext]
    simp only [hlast, hparents]
    rfl
  · rw [length_append, length_singleton]
    rcases Nat.lt_or_ge i batches.length with hlt | hge
    · rw [getElem?_append_left hlt] at hi
      have hids := h.ids i batch' hi
      push_cast
      omega
    · have hlength := (List.getElem?_eq_some_iff.mp hi).1
      rw [length_append, length_singleton] at hlength
      obtain rfl : i = batches.length := by omega
      obtain rfl : batch = batch' := by simpa using hi
      push_cast
      change q.nextBatchId = _
      omega
  · rw [length_append, length_singleton]
    push_cast
    omega

end

theorem Holds.remove (h : q.Holds (batch :: batches)) :
    ∃ q', q.removeMutationBatch batch = .ok q' ∧ q'.nextBatchId = q.nextBatchId ∧
      q'.lastStreamToken = q.lastStreamToken ∧ q'.Holds batches := by
  refine ⟨⟨batches, q.nextBatchId, unindexBatch q.batchesByDocumentKey batch, q.lastStreamToken⟩,
    ?_, rfl, rfl, rfl, fun i batch' hi => ?_, ?_, h.room, h.index.remove h.ascending⟩
  · rw [removeMutationBatch, h.queue]
    simp
  · have hids := h.ids (i + 1) batch' hi
    rw [length_cons] at hids
    dsimp only
    omega
  · have hpos := h.positive
    rw [length_cons] at hpos
    dsimp only
    omega

theorem Holds.acknowledge {first : MutationBatch} (h : q.Holds (first :: batches))
    (hid : batch.batchId = first.batchId) (streamToken : Bytes) :
    q.acknowledgeBatch batch streamToken = .ok { q with lastStreamToken := streamToken } := by
  rw [acknowledgeBatch, h.queue]
  simp [hid]

section

variable (h : q.Holds batches)

include h

theorem Holds.withStreamToken (streamToken : Bytes) :
    ({ q with lastStreamToken := streamToken } : MemoryMutationQueue).Holds batches :=
  { h with }

/-- A scan over keys that are next to each other, from the first of them on. -/
theorem Holds.references_eq (start : DocumentKey)
    (within : DocumentKey → Bool) (hwithin : ∀ a b, start ≤ a → a ≤ b → within b → within a)
    (hstart : ∀ a, within a → start ≤ a) : q.references (toLex (start, 0)) within =
      (q.batchesByDocumentKey.entries.filter fun entry => within (ofLex entry.1).1).map
        Prod.fst := by
  have hscan := takeWhile_filter_eq
    (fun a b (hs : toLex (start, 0) ≤ a) hab hb =>
      hwithin (ofLex a).1 (ofLex b).1 (monotone_fst _ _ hs)
        (monotone_fst _ _ hab) hb) q.batchesByDocumentKey.sorted
  refine congrArg (List.map Prod.fst) ?_
  simp only [Bool.decide_eq_true] at hscan
  rw [hscan]
  refine filter_congr fun entry hentry => ?_
  obtain ⟨⟨key, id⟩, ⟨⟩⟩ := entry
  obtain ⟨batch, hbatch, rfl, -⟩ := (h.index key id).mp (mem_entries.mp hentry)
  have hpos := h.id_pos hbatch
  have hle (hw : within key) : toLex (start, 0) ≤ toLex (key, batch.batchId) := by
    rcases (hstart key hw).lt_or_eq with hlt | rfl
    · exact toLex_le_toLex.mpr (.inl hlt)
    · exact toLex_le_toLex.mpr (.inr ⟨rfl, hpos.le⟩)
  change decide (toLex (start, 0) ≤ toLex (key, batch.batchId) ∧ within key) = within key
  cases hw : within key with
  | false => simp
  | true => simpa using hle hw

theorem Holds.references_of_key (key : DocumentKey) : q.references (toLex (key, 0)) (· = key) =
      (q.batchesByDocumentKey.entries.filter fun entry => (ofLex entry.1).1 = key).map
        Prod.fst := by
  refine h.references_eq key (· = key) ?_ ?_
  · simp only [decide_eq_true_eq]
    rintro a b hle hab rfl
    exact le_antisymm hab hle
  · simp only [decide_eq_true_eq]
    rintro a rfl
    exact le_rfl

theorem Holds.containsKey_iff : q.containsKey key ↔ ∃ batch ∈ batches, batch.touches key := by
  unfold containsKey
  constructor
  · intro hfound
    split at hfound
    · next entry hfirst =>
      obtain rfl : (ofLex entry.1).1 = key := of_decide_eq_true hfound
      obtain ⟨batch, hmem, -, htouches⟩ :=
        (h.index _ (ofLex entry.1).2).mp (first_eq_some_iff.mp hfirst).1
      exact ⟨batch, hmem, htouches⟩
    · cases hfound
  · rintro ⟨batch, hmem, htouches⟩
    have hget := (h.index key batch.batchId).mpr ⟨batch, hmem, rfl, htouches⟩
    have hle : toLex (key, 0) ≤ toLex (key, batch.batchId) :=
      toLex_le_toLex.mpr (.inr ⟨rfl, (h.id_pos hmem).le⟩)
    split
    · next entry hfirst =>
      obtain ⟨-, hstart, hbelow⟩ := first_eq_some_iff.mp hfirst
      have hentry : entry.1 ≤ toLex (key, batch.batchId) := by
        by_contra hlt
        cases (hbelow _ (not_le.mp hlt) hle).symm.trans hget
      exact decide_eq_true (le_antisymm (monotone_fst _ _ hentry)
        (monotone_fst _ _ hstart))
    · next hfirst => cases (first_eq_none_iff.mp hfirst _ hle).symm.trans hget

theorem Holds.allMutationBatchesWithIds_eq (want : MutationBatch → Bool) {ids : List Int}
    (hmem : ∀ id, id ∈ ids ↔ ∃ batch ∈ batches, batch.batchId = id ∧ want batch) :
    q.allMutationBatchesWithIds (idSet ids) = .ok (batches.filter want) :=
  filterMapM_of_map_eq (idSet_eq h.ascending want hmem) fun _ hbatch =>
    h.lookupMutationBatch_of_mem (mem_of_mem_filter hbatch)

theorem Holds.allMutationBatchesAffectingDocumentKey_eq (key : DocumentKey) :
    q.allMutationBatchesAffectingDocumentKey key = .ok (batches.filter (·.touches key)) := by
  have hrows := h.references_of_key key
  have hids : (q.references (toLex (key, 0)) (· = key)).map (fun reference => (ofLex reference).2) =
      (batches.filter (·.touches key)).map (·.batchId) := by
    refine ids_eq h.ascending _ ?_ fun id => ?_
    · rw [hrows, pairwise_map, pairwise_map]
      refine (q.batchesByDocumentKey.sorted.filter _).imp_of_mem fun {a b} ha hb hab => ?_
      have hkey : (ofLex a.1).1 = (ofLex b.1).1 := by
        simp only [mem_filter, decide_eq_true_eq] at ha hb
        exact ha.2.trans hb.2.symm
      exact ((lt_iff.mp hab).resolve_left hkey.not_lt).2
    · rw [hrows, mem_ids_iff h.index (· = key)]
      simp
  refine mapM_of_map_eq (f := fun id => do
    match ← q.lookupMutationBatch id with
    | some batch => return batch
    | none =>
      .error ⟨"Batches in the index must exist in the main table"⟩) hids fun batch hmem => ?_
  rw [h.lookupMutationBatch_of_mem (mem_of_mem_filter hmem)]
  rfl

theorem Holds.allMutationBatchesAffectingDocumentKeys_eq (documentKeys : DocumentKeySet) :
    q.allMutationBatchesAffectingDocumentKeys documentKeys =
      .ok (batches.filter (touchesAny documentKeys)) := by
  refine h.allMutationBatchesWithIds_eq _ fun id => ?_
  simp only [h.references_of_key]
  exact mem_flatMap_ids_iff h.index documentKeys

end

/-- The scan of a collection starts at or before its documents. -/
theorem startKey_le {key : DocumentKey} (hkey : path.isPrefixOf key.path) :
    startKey path ≤ key := by
  unfold startKey
  split_ifs with hpath
  · exact le_of_isPrefixOf (isPrefixOf_iff.mp hkey)
  · exact DocumentKey.append_empty_le (by omega) (isPrefixOf_iff.mp hkey)

theorem le_startKey (path : ResourcePath) : path ≤ (startKey path).path := by
  unfold startKey
  split_ifs
  · exact le_rfl
  · exact le_of_isPrefixOf (prefix_append _ _)

theorem Holds.allMutationBatchesAffectingQuery_eq (h : q.Holds batches)
    (hquery : query.collectionGroup = none) : q.allMutationBatchesAffectingQuery query =
      .ok (batches.filter (touchesCollection query.path)) := by
  have hrows := h.references_eq (startKey query.path) (fun key => query.path.isPrefixOf key.path)
    (fun a b hs hab hb => isPrefixOf_iff.mpr (isPrefixOf_of_le_of_le
      (isPrefixOf_iff.mp hb) ((le_startKey query.path).trans hs) hab))
    fun a ha => startKey_le ha
  rw [allMutationBatchesAffectingQuery, Query.isCollectionGroupQuery, hquery]
  rw [hrows, filter_immediate]
  refine h.allMutationBatchesWithIds_eq _ fun id => ?_
  rw [mem_ids_iff h.index fun key => query.path.isImmediateParentOf key.path]
  simp only [touchesCollection_iff]

end MemoryMutationQueue

/-! ## Queues in LevelDB -/

variable {batch : MutationBatch}

namespace LevelDbMutationQueue

/-- The queue holds the batches: they are its rows, and their ids have been given out. -/
structure Holds (q : LevelDbMutationQueue) (batches : List MutationBatch) : Prop where
  mutations : q.mutations.entries = batches.map fun batch => (batch.batchId, batch)
  ids : ∀ batch ∈ batches, batch.batchId < q.nextBatchId
  index : Indexes q.documentMutations batches

variable {q : LevelDbMutationQueue} {batches : List MutationBatch}

section

variable (h : q.Holds batches)

include h

theorem Holds.ascending : Ascending batches := by
  have hsorted := q.mutations.sorted
  rwa [h.mutations, pairwise_map] at hsorted

theorem Holds.get?_eq (hmem : batch ∈ batches) : q.mutations.get? batch.batchId = some batch := by
  rw [← mem_entries, h.mutations]
  exact mem_map_of_mem hmem

theorem Holds.nextMutationBatchAfterBatchId_eq {id : Int} (hid : -1 ≤ id) (hid' : id < 2 ^ 31 - 1) :
    q.nextMutationBatchAfterBatchId id = batches.find? (id < ·.batchId) := by
  rw [nextMutationBatchAfterBatchId, toBatchId_eq (by omega) (by omega), OrdMap.first, h.mutations,
    find?_map, Option.map_map]
  exact Option.map_id'

theorem Holds.add (hid : batch.batchId = q.nextBatchId) (hnext : toBatchId (q.nextBatchId + 1) =
      q.nextBatchId + 1) (hparents : collectionParents batch.mutations = .ok parents) :
    ∃ q', q.addMutationBatch batch.localWriteTime batch.baseMutations batch.mutations =
        .ok (batch, q') ∧ q'.nextBatchId = q.nextBatchId + 1 ∧
      q'.lastStreamToken = q.lastStreamToken ∧ q'.Holds (batches ++ [batch]) := by
  obtain ⟨_, time, base, mutations, hmuts⟩ := batch
  cases hid
  let batch : MutationBatch :=
    ⟨q.nextBatchId, time, base, mutations, hmuts⟩
  refine ⟨⟨q.mutations.insert batch.batchId batch, q.nextBatchId + 1,
    indexBatch q.documentMutations batch, q.lastStreamToken, q.committed⟩, ?_, rfl, rfl, ?_, ?_,
    h.index.add batch⟩
  · rw [addMutationBatch, dif_pos hmuts, hparents, hnext]
    rfl
  · rw [entries_insert, h.mutations, map_append]
    refine insertEntry_of_forall_lt ?_ batch
    rintro _ hentry
    obtain ⟨batch', hmem, rfl⟩ := mem_map.mp hentry
    exact h.ids batch' hmem
  · intro batch' hmem
    rcases mem_append.mp hmem with hmem | hmem
    · exact (h.ids batch' hmem).trans (lt_add_one _)
    · rw [mem_singleton.mp hmem]
      exact lt_add_one _

end

theorem Holds.remove (h : q.Holds (batch :: batches)) :
    ∃ q', q.removeMutationBatch batch = .ok q' ∧ q'.nextBatchId = q.nextBatchId ∧
      q'.lastStreamToken = q.lastStreamToken ∧ q'.Holds batches := by
  refine ⟨⟨q.mutations.erase batch.batchId, q.nextBatchId, unindexBatch q.documentMutations batch,
    q.lastStreamToken, q.committed⟩, ?_, rfl, rfl, ?_,
    fun batch' hmem => h.ids batch' (mem_cons_of_mem batch hmem),
    h.index.remove h.ascending⟩
  · rw [removeMutationBatch, h.get?_eq mem_cons_self]
    rfl
  · rw [entries_erase, h.mutations, map_cons, filter_cons_of_neg (by simp),
      filter_eq_self]
    rintro _ hentry
    obtain ⟨batch', hmem, rfl⟩ := mem_map.mp hentry
    simpa using ((pairwise_cons.mp h.ascending).1 batch' hmem).ne'

section

variable (h : q.Holds batches)

include h

theorem Holds.acknowledgeBatch (batch : MutationBatch) (streamToken : Bytes) :
    (q.acknowledgeBatch batch streamToken).Holds batches :=
  { h with }

theorem Holds.commit : q.commit.Holds batches :=
  { h with }

theorem Holds.lookupMutationBatch_eq (id : Int) :
    q.lookupMutationBatch id = batches.find? (·.batchId = id) := by
  rw [lookupMutationBatch, OrdMap.get?, h.mutations, find?_map, Option.map_map]
  exact Option.map_id'

theorem Holds.allMutationBatches_eq : q.allMutationBatches = batches := by
  rw [allMutationBatches, h.mutations, map_map]
  exact map_id' batches

theorem Holds.isEmpty_eq : q.isEmpty = batches.isEmpty := by
  rw [isEmpty, h.mutations, isEmpty_map]

theorem Holds.allMutationBatchesWithIds_eq (want : MutationBatch → Bool) {ids : List Int}
    (hmem : ∀ id, id ∈ ids ↔ ∃ batch ∈ batches, batch.batchId = id ∧ want batch) :
    q.allMutationBatchesWithIds (idSet ids) = .ok (batches.filter want) := by
  refine mapM_of_map_eq (f := fun id =>
    match q.mutations.get? id with
    | some batch => .ok batch
    | none => .error ⟨"Dangling document-mutation reference found: Missing batch"⟩)
    (idSet_eq h.ascending want hmem) fun batch hbatch => ?_
  rw [h.get?_eq (mem_of_mem_filter hbatch)]

end

/-- A scan over keys that are next to each other, from the first of them on. -/
theorem rows_eq (q : LevelDbMutationQueue) (path : ResourcePath) (within : DocumentKey → Bool)
    (hwithin : ∀ a b : DocumentKey, path ≤ a.path → a ≤ b → within b → within a)
    (hstart : ∀ a, within a → path ≤ a.path) : q.rows path within =
      (q.documentMutations.entries.filter fun entry => within (ofLex entry.1).1).map Prod.fst := by
  have hscan := q.documentMutations.scan_eq_filter
    (fun a b hs hab hb =>
      hwithin (ofLex a).1 (ofLex b).1 hs (monotone_fst _ _ hab) hb)
    fun a ha => hstart (ofLex a).1 ha
  simp only [OrdMap.scan, Bool.decide_eq_true] at hscan
  rw [rows, hscan]

theorem rows_of_key (q : LevelDbMutationQueue) (key : DocumentKey) :
    q.rows key.path (fun key' => key.path.isPrefixOf key'.path && key' = key) =
      (q.documentMutations.entries.filter fun entry => (ofLex entry.1).1 = key).map Prod.fst := by
  have hwant : ∀ key' : DocumentKey,
      (key.path.isPrefixOf key'.path && decide (key' = key)) = decide (key' = key) := by
    intro key'
    rw [Bool.and_eq_right_iff_imp, decide_eq_true_eq]
    rintro rfl
    exact isPrefixOf_iff.mpr prefix_rfl
  simp only [hwant]
  refine q.rows_eq key.path (· = key) (fun a b hs hab hb => ?_) fun a ha => ?_
  · rw [decide_eq_true_eq] at hb ⊢
    exact le_antisymm (hb ▸ hab) hs
  · rw [of_decide_eq_true ha]

theorem Holds.allMutationBatchesAffectingDocumentKeys_eq (h : q.Holds batches)
    (documentKeys : DocumentKeySet) : q.allMutationBatchesAffectingDocumentKeys documentKeys =
      .ok (batches.filter (touchesAny documentKeys)) := by
  refine h.allMutationBatchesWithIds_eq _ fun id => ?_
  simp only [rows_of_key]
  exact mem_flatMap_ids_iff h.index documentKeys

theorem Holds.allMutationBatchesAffectingDocumentKey_eq (h : q.Holds batches) (key : DocumentKey) :
    q.allMutationBatchesAffectingDocumentKey key = .ok (batches.filter (·.touches key)) := by
  rw [allMutationBatchesAffectingDocumentKey, h.allMutationBatchesAffectingDocumentKeys_eq]
  refine congrArg _ (filter_congr fun batch _ => ?_)
  rw [Bool.eq_iff_iff, touchesAny_iff]
  simp

theorem Holds.allMutationBatchesAffectingQuery_eq (h : q.Holds batches)
    (hdocument : query.isDocumentQuery = false) (hquery : query.collectionGroup = none) :
    q.allMutationBatchesAffectingQuery query =
      .ok (batches.filter (touchesCollection query.path)) := by
  rw [allMutationBatchesAffectingQuery, hdocument, Query.isCollectionGroupQuery, hquery]
  refine h.allMutationBatchesWithIds_eq _ fun id => ?_
  rw [q.rows_eq query.path _ ?_ ?_, filter_immediate,
    mem_ids_iff h.index fun key => query.path.isImmediateParentOf key.path]
  · simp only [touchesCollection_iff]
  · intro a b hs hab hb
    exact isPrefixOf_iff.mpr
      (isPrefixOf_of_le_of_le (isPrefixOf_iff.mp hb) hs hab)
  · intro a ha
    exact le_of_isPrefixOf (isPrefixOf_iff.mp ha)

end LevelDbMutationQueue

/-! ## Either queue -/

inductive MutationQueue where
  | memory (q : MemoryMutationQueue)
  | levelDb (q : LevelDbMutationQueue)

namespace MutationQueue

def allMutationBatchesAffectingDocumentKey : MutationQueue → DocumentKey → Hard (List MutationBatch)
  | memory q, key => q.allMutationBatchesAffectingDocumentKey key
  | levelDb q, key => q.allMutationBatchesAffectingDocumentKey key

def allMutationBatchesAffectingQuery : MutationQueue → Query → Hard (List MutationBatch)
  | memory q, query => q.allMutationBatchesAffectingQuery query
  | levelDb q, query => q.allMutationBatchesAffectingQuery query

def Holds : MutationQueue → List MutationBatch → Prop
  | memory q, batches => q.Holds batches
  | levelDb q, batches => q.Holds batches

variable {q : MutationQueue} {batches : List MutationBatch}

theorem Holds.allMutationBatchesAffectingDocumentKey_eq (h : q.Holds batches) (key : DocumentKey) :
    q.allMutationBatchesAffectingDocumentKey key = .ok (batches.filter (·.touches key)) := by
  match q, h with
  | memory q, h => exact MemoryMutationQueue.Holds.allMutationBatchesAffectingDocumentKey_eq h key
  | levelDb q, h => exact LevelDbMutationQueue.Holds.allMutationBatchesAffectingDocumentKey_eq h key

theorem Holds.allMutationBatchesAffectingQuery_eq (h : q.Holds batches)
    (hquery : query.IsCollectionQuery) : q.allMutationBatchesAffectingQuery query =
      .ok (batches.filter (touchesCollection query.path)) := by
  match q, h with
  | memory q, h =>
    exact MemoryMutationQueue.Holds.allMutationBatchesAffectingQuery_eq h hquery.collectionGroup
  | levelDb q, h =>
    have hdocument : query.isDocumentQuery = false := by simp [Query.isDocumentQuery, hquery.path]
    exact LevelDbMutationQueue.Holds.allMutationBatchesAffectingQuery_eq h hdocument
      hquery.collectionGroup

end MutationQueue

end Firebase.Firestore.Local
