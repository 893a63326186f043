import Firebase.Lib.Simulation
import Firebase.Firestore.Local.LevelDbPersistence
import Firebase.Firestore.Local.MutationQueue

/-!
# The mutation queues of all users

`LevelDbMutationQueue` (`leveldb_mutation_queue.cc`) over a database that it shares with the queues
of other users.  Every row starts with the id of its user, and the scans end where the id changes.

The rows of one user, taken by themselves, are a queue of their own (`LevelDbTables.queueOf`),
on which the scans over all rows come out the same.

Batch ids are unbounded in what the local store does with the queues.  The runs here
(`LevelDbPersistence.queueStep`) give them their 32 bits, and parse the rows that are read.
-/

namespace Firebase.Firestore.Local

open Lib Util Model Firestore.Core OrdMap List

/-! ## Reading -/

namespace LevelDbTables

variable (t : LevelDbTables) (userId : Bytes)

def mutationRows : List ((Bytes ×ₗ Int) × MutationBatch) :=
  t.mutations.scanUnder userId

/-- The highest batch id: the scan looks at the last row of each user. -/
def highestBatchId (maxBatchId : Int) : List (Bytes ×ₗ Int) → Int
  | [] => maxBatchId
  | [row] => max maxBatchId (ofLex row).2
  | row :: next :: rows =>
    if (ofLex next).1 = (ofLex row).1 then highestBatchId maxBatchId (next :: rows)
    else highestBatchId (max maxBatchId (ofLex row).2) (next :: rows)

def loadNextBatchIdFromDb : Int :=
  highestBatchId 0 (t.mutations.entries.map Prod.fst) + 1

def isQueueEmpty : Bool := (t.mutationRows userId).isEmpty

def allMutationBatches : List MutationBatch :=
  (t.mutationRows userId).map Prod.snd

def lookupMutationBatch (batchId : Int) : Option MutationBatch :=
  t.mutations.get? (toLex (userId, batchId))

def allMutationBatchesWithIds (batchIds : OrdMap Int Unit) : Hard (List MutationBatch) :=
  batchIds.entries.mapM fun entry =>
    match t.mutations.get? (toLex (userId, entry.1)) with
    | some batch => .ok batch
    | none => .error ⟨"Dangling document-mutation reference found: Missing batch"⟩

/-- The rows of a user in `document_mutation` from a path on, as long as they are in range. -/
def documentMutationRows (path : ResourcePath)
    (within : DocumentKey → Bool) : List (DocumentKey ×ₗ Int) :=
  (t.documentMutations.scan
    (fun k => toLex (userId, path) ≤ toLex ((ofLex k).1, (ofLex (ofLex k).2).1.path))
    fun k => (ofLex k).1 = userId ∧ within (ofLex (ofLex k).2).1).map fun row => (ofLex row.1).2

def allMutationBatchesAffectingDocumentKeys
    (documentKeys : DocumentKeySet) : Hard (List MutationBatch) :=
  let rows := documentKeys.sort.flatMap fun documentKey =>
    t.documentMutationRows userId documentKey.path fun key =>
      documentKey.path.isPrefixOf key.path && key = documentKey
  t.allMutationBatchesWithIds userId (idSet (rows.map fun row => (ofLex row).2))

def allMutationBatchesAffectingQuery (query : Query) : Hard (List MutationBatch) := do
  hardAssert (!query.isDocumentQuery) "Document queries shouldn't go down this path"
  hardAssert (!query.isCollectionGroupQuery)
    "CollectionGroup queries should be handled in LocalDocumentsView"
  let rows := (t.documentMutationRows userId query.path fun key =>
    query.path.isPrefixOf key.path).filter fun row =>
      (ofLex row).1.path.length = query.path.length + 1
  t.allMutationBatchesWithIds userId (idSet (rows.map fun row => (ofLex row).2))

def performConsistencyCheck : Hard Unit :=
  if !t.isQueueEmpty userId then .ok ()
  else
    let danglingMutationReferences := t.documentMutations.scanUnder userId
    hardAssert danglingMutationReferences.isEmpty
      "Document leak -- detected dangling mutation references when queue is empty."

end LevelDbTables

/-! ## Writing -/

namespace LevelDbPersistence

variable (p : LevelDbPersistence)

/-- `LevelDbPersistence::GetMutationQueueForUser`, and `LevelDbMutationQueue::Start`. -/
def startMutationQueue (userId : Bytes) : LevelDbPersistence :=
  { p with
    users := insert userId p.users
    queue := {
      userId := userId
      nextBatchId := p.tables.loadNextBatchIdFromDb
      metadata := (p.tables.mutationQueues.get? userId).getD .default } }

/-- The row of a mutation in the index of the documents, and the parent of its collection. -/
def addDocumentMutation (batchId : Int) (p : LevelDbPersistence) (mutation : Mutation) :
    Hard LevelDbPersistence := do
  let p := { p with tables := { p.tables with
    documentMutations := p.tables.documentMutations.insert
      (toLex (p.queue.userId, toLex (mutation.key, batchId))) () } }
  p.addToCollectionParentIndex (← mutation.key.path.popLast)

def addMutationBatch (localWriteTime : Timestamp)
    (baseMutations mutations : List Mutation) : Hard (LevelDbPersistence × MutationBatch) :=
  if hmuts : mutations ≠ [] then do
    let batch : MutationBatch :=
      ⟨p.queue.nextBatchId, localWriteTime, baseMutations, mutations, hmuts⟩
    let p := { p with
      queue := { p.queue with nextBatchId := p.queue.nextBatchId + 1 }
      tables := { p.tables with
        mutations := p.tables.mutations.insert (toLex (p.queue.userId, batch.batchId)) batch } }
    let p ← batch.mutations.foldlM (addDocumentMutation batch.batchId) p
    return (p, batch)
  else .error ⟨"Cannot create an empty mutation batch"⟩

/-- The row of a mutation in the index of the documents is deleted, and the document marked. -/
def removeDocumentMutation (batchId : Int) (p : LevelDbPersistence) (mutation : Mutation) :
    Hard LevelDbPersistence :=
  { p with tables := { p.tables with
    documentMutations := p.tables.documentMutations.erase
      (toLex (p.queue.userId, toLex (mutation.key, batchId))) } }.removeMutationReference
    mutation.key

def removeMutationBatch (batch : MutationBatch) : Hard LevelDbPersistence := do
  hardAssert (p.tables.mutations.get? (toLex (p.queue.userId, batch.batchId))).isSome
    "Mutation batch did not exist"
  let p := { p with tables := { p.tables with
    mutations := p.tables.mutations.erase (toLex (p.queue.userId, batch.batchId)) } }
  batch.mutations.foldlM (removeDocumentMutation batch.batchId) p

end LevelDbPersistence

/-! ## The queue of one user -/

variable {batch : MutationBatch}

namespace LevelDbTables

section

variable (t : LevelDbTables) (user : Bytes)

/-- The queue of a user by itself, as it is after `Start`. -/
def queueOf : LevelDbMutationQueue where
  mutations := t.mutations.under user
  nextBatchId := t.loadNextBatchIdFromDb
  documentMutations := t.documentMutations.under user
  lastStreamToken := ((t.mutationQueues.get? user).getD .default).lastStreamToken
  committed := t.mutations.under user

theorem allMutationBatchesWithIds_eq (batchIds : OrdMap Int Unit) :
    t.allMutationBatchesWithIds user batchIds =
      (t.queueOf user).allMutationBatchesWithIds batchIds := by
  refine congrArg batchIds.entries.mapM (funext fun entry => ?_)
  have hget := get?_under t.mutations user entry.1
  rw [queueOf]
  exact hget ▸ rfl

/-- A scan for keys that are next to each other finds them among the rows of the user. -/
theorem documentMutationRows_eq (path : ResourcePath) (within : DocumentKey → Bool)
    (hwithin : ∀ a b : DocumentKey, path ≤ a.path → a ≤ b → within b → within a)
    (hstart : ∀ a, within a → path ≤ a.path) :
    t.documentMutationRows user path within = (t.queueOf user).rows path within := by
  rw [(t.queueOf user).rows_eq path within hwithin hstart, documentMutationRows,
    scan_eq_filter]
  · have hentries := entries_under t.documentMutations user
    rw [queueOf, hentries, filter_map, map_map, filter_filter]
    refine congrArg (List.map _) (filter_congr fun e _ => ?_)
    rw [Bool.decide_and, Bool.decide_eq_true, Bool.and_comm]
    rfl
  · rintro a b ha hab ⟨hb, hwb⟩
    have hle : (ofLex a).1 ≤ user := (Prod.Lex.monotone_fst _ _ hab).trans hb.le
    -- The row is not behind the rows of the user, so it is one of them.
    have huser : user = (ofLex a).1 ∧ path ≤ (ofLex (ofLex a).2).1.path :=
      (Prod.Lex.toLex_le_toLex.mp ha).resolve_left hle.not_gt
    have hkeys : (ofLex a).2 ≤ (ofLex b).2 :=
      ((Prod.Lex.le_iff.mp hab).resolve_left (huser.1.symm.trans hb.symm).not_lt).2
    exact ⟨huser.1.symm, hwithin _ _ huser.2 (Prod.Lex.monotone_fst _ _ hkeys) hwb⟩
  · rintro a ⟨ha, hwa⟩
    exact Prod.Lex.toLex_le_toLex.mpr (.inr ⟨ha.symm, hstart _ hwa⟩)

theorem allMutationBatchesAffectingDocumentKeys_eq (documentKeys : DocumentKeySet) :
    t.allMutationBatchesAffectingDocumentKeys user documentKeys =
      (t.queueOf user).allMutationBatchesAffectingDocumentKeys documentKeys := by
  have hrows : ∀ documentKey : DocumentKey, t.documentMutationRows user documentKey.path
          (fun key => documentKey.path.isPrefixOf key.path && key = documentKey) =
        (t.queueOf user).rows documentKey.path
          (fun key => documentKey.path.isPrefixOf key.path && key = documentKey) := by
    intro documentKey
    apply t.documentMutationRows_eq
    · intro a b hstart hab hb
      simp only [Bool.and_eq_true, decide_eq_true_eq] at hb ⊢
      obtain ⟨hpre, rfl⟩ := hb
      obtain rfl : a = b := le_antisymm hab hstart
      exact ⟨hpre, rfl⟩
    · intro a ha
      simp only [Bool.and_eq_true, decide_eq_true_eq] at ha
      rw [ha.2]
  rw [allMutationBatchesAffectingDocumentKeys,
    LevelDbMutationQueue.allMutationBatchesAffectingDocumentKeys, allMutationBatchesWithIds_eq]
  simp only [hrows]

theorem allMutationBatchesAffectingQuery_eq (query : Query) :
    t.allMutationBatchesAffectingQuery user query =
      (t.queueOf user).allMutationBatchesAffectingQuery query := by
  have hrows := t.documentMutationRows_eq user query.path
    (fun key => query.path.isPrefixOf key.path)
    (fun a b hs hab hb => ResourcePath.isPrefixOf_iff.mpr
      (isPrefixOf_of_le_of_le (ResourcePath.isPrefixOf_iff.mp hb) hs hab))
    (fun a ha => le_of_isPrefixOf (ResourcePath.isPrefixOf_iff.mp ha))
  rw [allMutationBatchesAffectingQuery, LevelDbMutationQueue.allMutationBatchesAffectingQuery,
    hrows]
  simp only [allMutationBatchesWithIds_eq]

end

/-! ## The index follows the batches -/

/-- Every batch is filed under its own id, and the rows of the index are those of the documents that
the batches write. -/
structure Indexed (t : LevelDbTables) : Prop where
  keyed : ∀ userId id batch, t.mutations.get? (toLex (userId, id)) = some batch →
    batch.batchId = id
  index : ∀ userId key id, t.documentMutations.get? (toLex (userId, toLex (key, id))) = some () ↔
    ∃ batch, t.mutations.get? (toLex (userId, id)) = some batch ∧ batch.touches key

theorem highestBatchId_lt {bound maxBatchId : Int} {rows : List (Bytes ×ₗ Int)}
    (hmax : maxBatchId < bound) (hrows : ∀ row ∈ rows, (ofLex row).2 < bound) :
    highestBatchId maxBatchId rows < bound := by
  fun_induction highestBatchId maxBatchId rows with
  | case1 => exact hmax
  | case2 maxBatchId row => exact max_lt hmax (hrows row mem_cons_self)
  | case3 maxBatchId row next rows hsame ih => exact ih hmax (forall_mem_cons.mp hrows).2
  | case4 maxBatchId row next rows hother ih =>
    obtain ⟨hrow, hrows⟩ := forall_mem_cons.mp hrows
    exact ih (max_lt hmax hrow) hrows

/-- The ids of a user ascend, so the last row of each user is enough. -/
theorem le_highestBatchId (maxBatchId : Int) {rows : List (Bytes ×ₗ Int)}
    (hrows : rows.Pairwise (· < ·)) : maxBatchId ≤ highestBatchId maxBatchId rows ∧
      ∀ row ∈ rows, (ofLex row).2 ≤ highestBatchId maxBatchId rows := by
  fun_induction highestBatchId maxBatchId rows with
  | case1 => exact ⟨le_rfl, nofun⟩
  | case2 maxBatchId row => simp
  | case3 maxBatchId row next rows hsame ih =>
    obtain ⟨hhead, htail⟩ := pairwise_cons.mp hrows
    obtain ⟨hmax, hbound⟩ := ih htail
    have hlt : (ofLex row).2 < (ofLex next).2 :=
      ((Prod.Lex.lt_iff.mp (hhead next mem_cons_self)).resolve_left hsame.symm.not_lt).2
    refine ⟨hmax, forall_mem_cons.mpr ⟨?_, hbound⟩⟩
    exact hlt.le.trans (hbound next mem_cons_self)
  | case4 maxBatchId row next rows hother ih =>
    obtain ⟨hmax, hbound⟩ := ih (pairwise_cons.mp hrows).2
    exact ⟨(le_max_left _ _).trans hmax,
      forall_mem_cons.mpr ⟨(le_max_right _ _).trans hmax, hbound⟩⟩

theorem lt_loadNextBatchIdFromDb {t : LevelDbTables} {user : Bytes} {id : Int}
    (h : t.mutations.get? (toLex (user, id)) = some batch) : id < t.loadNextBatchIdFromDb := by
  have hbound := (le_highestBatchId 0 (pairwise_map.mpr t.mutations.sorted)).2
  exact Int.lt_add_one_of_le
    (hbound _ (mem_map.mpr ⟨_, mem_entries.mpr h, rfl⟩))

variable {t : LevelDbTables}

theorem mem_allMutationBatches {user : Bytes} :
    batch ∈ t.allMutationBatches user ↔ ∃ id, t.mutations.get? (toLex (user, id)) =
      some batch := by
  rw [allMutationBatches, mem_map]
  constructor
  · rintro ⟨⟨k, batch⟩, hrow, rfl⟩
    obtain ⟨hget, rfl⟩ := mem_scanUnder.mp hrow
    exact ⟨(ofLex k).2, hget⟩
  · rintro ⟨id, hget⟩
    exact ⟨(_, batch), mem_scanUnder.mpr ⟨hget, rfl⟩, rfl⟩

/-- The rows of every user are the queue of its batches. -/
theorem Indexed.holds (h : t.Indexed) (user : Bytes) :
    (t.queueOf user).Holds (t.allMutationBatches user) where
  mutations := by
    have hentries := entries_under_eq t.mutations user
    rw [queueOf, hentries, allMutationBatches, map_map]
    refine map_congr_left fun e hrow => ?_
    obtain ⟨hget, rfl⟩ := mem_scanUnder.mp hrow
    exact congrArg (·, e.2) (h.keyed _ _ _ hget).symm
  ids batch hmem := by
    obtain ⟨id, hget⟩ := mem_allMutationBatches.mp hmem
    rw [h.keyed user id batch hget]
    exact lt_loadNextBatchIdFromDb hget
  index key id := by
    have hget := get?_under t.documentMutations user (toLex (key, id))
    rw [queueOf, hget, h.index]
    constructor
    · rintro ⟨batch, hbatch, htouches⟩
      exact ⟨batch, mem_allMutationBatches.mpr ⟨id, hbatch⟩, h.keyed _ _ _ hbatch, htouches⟩
    · rintro ⟨batch, hmem, rfl, htouches⟩
      obtain ⟨id, hbatch⟩ := mem_allMutationBatches.mp hmem
      exact ⟨batch, h.keyed _ _ _ hbatch ▸ hbatch, htouches⟩

theorem Indexed.performConsistencyCheck_eq (h : t.Indexed) (user : Bytes) :
    t.performConsistencyCheck user = .ok () := by
  rw [performConsistencyCheck]
  split_ifs with hempty
  · rfl
  · rw [hardAssert_eq_ok, List.isEmpty_iff, eq_nil_iff_forall_not_mem]
    rintro ⟨k, ⟨⟩⟩ hmem
    obtain ⟨hget, rfl⟩ := mem_scanUnder.mp hmem
    -- A reference has its batch, so the queue is not empty.
    obtain ⟨batch, hbatch, -⟩ := (h.index (ofLex k).1 (ofLex (ofLex k).2).1 _).mp hget
    have hnil : t.mutationRows (ofLex k).1 = [] := by simpa [isQueueEmpty] using hempty
    have hbatches := mem_allMutationBatches.mpr ⟨_, hbatch⟩
    rw [allMutationBatches, hnil] at hbatches
    cases hbatches

end LevelDbTables

namespace LevelDbPersistence

variable {p p' : LevelDbPersistence} {batchId : Int}

/-- What becomes of the row of a mutation in the index. -/
def PutsRow (batchId : Int) (put : Prop) (p : LevelDbPersistence) (mutation : Mutation)
    (p' : LevelDbPersistence) : Prop :=
  p'.queue = p.queue ∧ p'.tables.mutations = p.tables.mutations ∧ ∀ userId key id,
    p'.tables.documentMutations.get? (toLex (userId, toLex (key, id))) = some () ↔
      if (userId = p.queue.userId ∧ id = batchId) ∧ mutation.key = key then put
      else p.tables.documentMutations.get? (toLex (userId, toLex (key, id))) = some ()

theorem row_eq_iff {user userId' : Bytes} {key key' : DocumentKey} {id id' : Int} :
    toLex (user, toLex (key, id)) = toLex (userId', toLex (key', id')) ↔
      (user = userId' ∧ id = id') ∧ key' = key := by
  simp only [toLex_inj, Prod.mk.injEq, eq_comm (a := key), and_assoc, and_comm (a := id = id')]

variable {mutation : Mutation}

theorem addDocumentMutation_ok (h : addDocumentMutation batchId p mutation = .ok p') :
    PutsRow batchId True p mutation p' := by
  obtain ⟨parent, -, h⟩ := bind_eq_ok.mp h
  obtain ⟨-, rows, rfl, -⟩ := addToCollectionParentIndex_ok h
  refine ⟨rfl, rfl, fun user key id => ?_⟩
  simp only [get?_insert, row_eq_iff]
  split_ifs <;> simp

theorem removeDocumentMutation_ok (h : removeDocumentMutation batchId p mutation = .ok p') :
    PutsRow batchId False p mutation p' := by
  obtain ⟨n, -, rfl⟩ := writeSentinel_ok h
  refine ⟨rfl, rfl, fun user key id => ?_⟩
  simp only [get?_erase, row_eq_iff]
  split_ifs <;> simp

/-- The rows of the index after those of a batch were put there or deleted. -/
theorem foldlM_putsRow {f : LevelDbPersistence → Mutation → Hard LevelDbPersistence} {put : Prop}
    (hf : ∀ {p mutation p'}, f p mutation = .ok p' → PutsRow batchId put p mutation p')
    {mutations : List Mutation} (h : mutations.foldlM f p = .ok p') :
    p'.queue = p.queue ∧ p'.tables.mutations = p.tables.mutations ∧ ∀ user key id,
      p'.tables.documentMutations.get? (toLex (user, toLex (key, id))) = some () ↔
        if (user = p.queue.userId ∧ id = batchId) ∧ ∃ mutation ∈ mutations, mutation.key = key
        then put else p.tables.documentMutations.get? (toLex (user, toLex (key, id))) =
          some () := by
  induction mutations generalizing p with
  | nil =>
    cases h
    simp
  | cons mutation mutations ih =>
    obtain ⟨p₁, hfirst, hrest⟩ := foldlM_cons_eq_ok.mp h
    obtain ⟨hqueue, hmuts, hindex⟩ := hf hfirst
    obtain ⟨hqueue', hmuts', hindex'⟩ := ih hrest
    refine ⟨hqueue'.trans hqueue, hmuts'.trans hmuts, fun user key id => ?_⟩
    rw [hindex', hindex, hqueue]
    simp only [mem_cons, exists_eq_or_imp, and_or_left]
    by_cases hkey : (user = p.queue.userId ∧ id = batchId) ∧ mutation.key = key
    · simp [hkey]
    · simp only [hkey, false_or, if_false]

/-- The rows are indexed, and the ids of the current user have been given out. -/
structure QueueInv (p : LevelDbPersistence) : Prop where
  indexed : p.tables.Indexed
  given : ∀ id batch, p.tables.mutations.get? (toLex (p.queue.userId, id)) = some batch →
    id < p.queue.nextBatchId

theorem QueueInv.startMutationQueue (h : p.QueueInv) (user : Bytes) :
    (p.startMutationQueue user).QueueInv :=
  ⟨h.indexed, fun _ _ hget => LevelDbTables.lt_loadNextBatchIdFromDb hget⟩

/-- A batch has the next id, and one row. -/
theorem addMutationBatch_ok {time : Timestamp} {base mutations : List Mutation}
    (hok : p.addMutationBatch time base mutations = .ok (p', batch)) :
    batch.batchId = p.queue.nextBatchId ∧
      p'.queue = { p.queue with nextBatchId := p.queue.nextBatchId + 1 } ∧
      p'.tables.mutations =
        p.tables.mutations.insert (toLex (p.queue.userId, p.queue.nextBatchId)) batch ∧
      ∀ user key id,
        p'.tables.documentMutations.get? (toLex (user, toLex (key, id))) = some () ↔
          if (user = p.queue.userId ∧ id = p.queue.nextBatchId) ∧ batch.touches key then True
          else p.tables.documentMutations.get? (toLex (user, toLex (key, id))) = some () := by
  unfold LevelDbPersistence.addMutationBatch at hok
  split_ifs at hok with hmuts
  · obtain ⟨p₁, hloop, hok⟩ := bind_eq_ok.mp hok
    obtain ⟨rfl, rfl⟩ := ok_inj hok
    obtain ⟨hqueue, htable, hindex⟩ := foldlM_putsRow addDocumentMutation_ok hloop
    refine ⟨rfl, hqueue, htable, ?_⟩
    simpa only [touches_iff] using hindex

theorem QueueInv.addMutationBatch (h : p.QueueInv) {time : Timestamp}
    {base mutations : List Mutation}
    (hok : p.addMutationBatch time base mutations = .ok (p', batch)) : p'.QueueInv := by
  obtain ⟨hid, hqueue, htable, hindex⟩ := addMutationBatch_ok hok
  -- The id of the batch is new, so that its row replaces none.
  have hnew : p.tables.mutations.get? (toLex (p.queue.userId, p.queue.nextBatchId)) = none := by
    rw [Option.eq_none_iff_forall_ne_some]
    intro batch' hget
    exact lt_irrefl _ (h.given _ batch' hget)
  refine ⟨⟨fun user id batch' hget => ?_, fun user key id => ?_⟩, fun id batch' hget => ?_⟩
  · rw [htable, get?_insert] at hget
    split_ifs at hget with hrow
    · obtain ⟨rfl, rfl⟩ := Prod.mk.inj (toLex_inj.mp hrow)
      rw [← Option.some.inj hget, hid]
    · exact h.indexed.keyed user id batch' hget
  · rw [hindex, h.indexed.index, htable, get?_insert]
    by_cases hrow : user = p.queue.userId ∧ id = p.queue.nextBatchId
    · obtain ⟨rfl, rfl⟩ := hrow
      simp [hnew]
    · rw [if_neg fun hkey => hrow hkey.1, if_neg (by simpa using hrow)]
  · rw [htable, hqueue, get?_insert] at hget
    rw [hqueue]
    split_ifs at hget with hrow
    · obtain ⟨-, rfl⟩ := Prod.mk.inj (toLex_inj.mp hrow)
      exact lt_add_one _
    · exact (h.given id batch' hget).trans (lt_add_one _)

theorem removeMutationBatch_ok (hok : p.removeMutationBatch batch = .ok p') :
    p'.queue = p.queue ∧ p'.tables.mutations =
        p.tables.mutations.erase (toLex (p.queue.userId, batch.batchId)) ∧
      ∀ user key id,
        p'.tables.documentMutations.get? (toLex (user, toLex (key, id))) = some () ↔
          if (user = p.queue.userId ∧ id = batch.batchId) ∧ batch.touches key then False
          else p.tables.documentMutations.get? (toLex (user, toLex (key, id))) = some () := by
  obtain ⟨_, -, hloop⟩ := bind_eq_ok.mp hok
  simp only [touches_iff]
  exact foldlM_putsRow removeDocumentMutation_ok hloop

/-- A batch that is removed is the one that is filed under its id. -/
theorem QueueInv.removeMutationBatch (h : p.QueueInv)
    (hbatch : p.tables.lookupMutationBatch p.queue.userId batch.batchId = some batch)
    (hok : p.removeMutationBatch batch = .ok p') : p'.QueueInv := by
  unfold LevelDbTables.lookupMutationBatch at hbatch
  obtain ⟨hqueue, htable, hindex⟩ := removeMutationBatch_ok hok
  refine ⟨⟨fun user id batch' hget => ?_, fun user key id => ?_⟩, fun id batch' hget => ?_⟩
  · rw [htable, get?_erase_eq_some] at hget
    exact h.indexed.keyed user id batch' hget.2
  · rw [hindex, h.indexed.index, htable, get?_erase]
    by_cases hrow : user = p.queue.userId ∧ id = batch.batchId
    · obtain ⟨rfl, rfl⟩ := hrow
      simp [hbatch]
    · rw [if_neg fun hkey => hrow hkey.1, if_neg (by simpa using hrow)]
  · rw [htable, hqueue, get?_erase_eq_some] at hget
    rw [hqueue]
    exact h.given id batch' hget.2

/-! ## Runs -/

/-- A call on the queues.  The batch that is removed was read from the queue before. -/
inductive QueueCall where
  | start (userId : Bytes)
  | add (localWriteTime : Timestamp) (baseMutations mutations : List Mutation)
  | remove (batchId : Int)

section

variable (parses : MutationBatch → Bool)

/-- What a call does.  The batch that is removed was parsed. -/
def queueCall (p : LevelDbPersistence) : QueueCall → Hard LevelDbPersistence
  | .start userId => .ok (p.startMutationQueue userId)
  | .add localWriteTime baseMutations mutations => do
    let (p, _) ← p.addMutationBatch localWriteTime baseMutations mutations
    return p
  | .remove batchId =>
    match p.tables.lookupMutationBatch p.queue.userId batchId with
    | some row => do p.removeMutationBatch (← LevelDbMutationQueue.parseMutationBatch parses row)
    | none => .error ⟨"Attempt to reject nonexistent batch!"⟩

/-- The transaction of a call.  `next_batch_id_` is an `int32_t`. -/
def queueStep (p : LevelDbPersistence) (call : QueueCall) : Hard (LevelDbPersistence × Unit) :=
  p.run fun p => do
    let p ← p.queueCall parses call
    return ({ p with queue := { p.queue with nextBatchId := toBatchId p.queue.nextBatchId } }, ())

/-- What a scan returns: the rows that it found, parsed. -/
def parsed (rows : Hard (List MutationBatch)) : Hard (List MutationBatch) := do
  (← rows).mapM (LevelDbMutationQueue.parseMutationBatch parses)

end

/-- The batch that is added does not have the last id. -/
def HasNextId (p : LevelDbPersistence) : QueueCall → Prop
  | .add .. => p.queue.nextBatchId < 2 ^ 31 - 1
  | _ => True

instance (p : LevelDbPersistence) (call : QueueCall) : Decidable (p.HasNextId call) :=
  match call with
  | .add .. => inferInstanceAs (Decidable (_ < _))
  | .start _ | .remove _ => .isTrue trivial

/-- The next id is a number of 32 bits, and so is the one after each id that was given out. -/
structure QueueRoom (p : LevelDbPersistence) : Prop where
  queue : p.QueueInv
  next : -2 ^ 31 ≤ p.queue.nextBatchId ∧ p.queue.nextBatchId < 2 ^ 31
  rows : ∀ userId id batch, p.tables.mutations.get? (toLex (userId, id)) = some batch →
    id < 2 ^ 31 - 1

theorem QueueRoom.startMutationQueue (h : p.QueueRoom) (user : Bytes) :
    (p.startMutationQueue user).QueueRoom := by
  have hrows : ∀ row ∈ p.tables.mutations.entries.map Prod.fst, (ofLex row).2 < 2 ^ 31 - 1 := by
    intro row hrow
    obtain ⟨⟨k, batch⟩, hentry, rfl⟩ := mem_map.mp hrow
    exact h.rows (ofLex k).1 (ofLex k).2 batch (mem_entries.mp hentry)
  have hhighest := LevelDbTables.highestBatchId_lt (by omega : (0 : Int) < 2 ^ 31 - 1) hrows
  have hzero := (LevelDbTables.le_highestBatchId 0
    (pairwise_map.mpr p.tables.mutations.sorted)).1
  refine ⟨h.queue.startMutationQueue user, ?_, h.rows⟩
  show -2 ^ 31 ≤ p.tables.loadNextBatchIdFromDb ∧ p.tables.loadNextBatchIdFromDb < 2 ^ 31
  rw [LevelDbTables.loadNextBatchIdFromDb]
  omega

theorem QueueRoom.addMutationBatch (h : p.QueueRoom) (hnext : p.queue.nextBatchId < 2 ^ 31 - 1)
    {time : Timestamp} {base mutations : List Mutation}
    (hok : p.addMutationBatch time base mutations = .ok (p', batch)) : p'.QueueRoom := by
  obtain ⟨-, hqueue, htable, -⟩ := addMutationBatch_ok hok
  have hlow := h.next.1
  refine ⟨h.queue.addMutationBatch hok, ?_, fun user id batch' hget => ?_⟩
  · rw [hqueue]
    dsimp only
    omega
  · rw [htable, get?_insert] at hget
    split_ifs at hget with hrow
    · obtain ⟨-, rfl⟩ := Prod.mk.inj (toLex_inj.mp hrow)
      exact hnext
    · exact h.rows user id batch' hget

theorem QueueRoom.queueStep (h : p.QueueRoom) {parses : MutationBatch → Bool} {call : QueueCall}
    (hnext : p.HasNextId call) {answer : Unit}
    (hok : p.queueStep parses call = .ok (p', answer)) : p'.QueueRoom := by
  obtain ⟨-, p₁, hblock, rfl⟩ := run_ok hok
  obtain ⟨p₂, hcall, hblock⟩ := bind_eq_ok.mp hblock
  obtain ⟨rfl, -⟩ := ok_inj hblock
  suffices hroom : p₂.QueueRoom by
    have hsame := toBatchId_eq hroom.next.1 hroom.next.2
    refine ⟨⟨hroom.queue.indexed, fun id batch hget => ?_⟩, hsame.symm ▸ hroom.next, hroom.rows⟩
    exact (hroom.queue.given id batch hget).trans_eq hsame.symm
  have h₀ : p.started.QueueRoom := ⟨{ h.queue with }, h.next, h.rows⟩
  have hnext₀ : p.started.HasNextId call := by cases call <;> exact hnext
  match call, hcall with
  | .start user, hcall =>
    cases hcall
    exact h₀.startMutationQueue user
  | .add time base mutations, hcall =>
    obtain ⟨⟨p₃, batch⟩, hadd, hcall⟩ := bind_eq_ok.mp hcall
    cases hcall
    exact h₀.addMutationBatch hnext₀ hadd
  | .remove batchId, hcall =>
    rw [queueCall] at hcall
    split at hcall
    · next row hlookup =>
      obtain ⟨batch, hparse, hremove⟩ := bind_eq_ok.mp hcall
      obtain ⟨_, -, hparse⟩ := bind_eq_ok.mp hparse
      cases hparse
      obtain ⟨hqueue, htable, -⟩ := removeMutationBatch_ok hremove
      refine ⟨h₀.queue.removeMutationBatch ?_ hremove, hqueue ▸ h₀.next,
        fun user id batch' hget => h₀.rows user id batch' ?_⟩
      · rwa [h₀.queue.indexed.keyed _ _ _ hlookup]
      · rw [htable] at hget
        exact (get?_erase_eq_some.mp hget).2
    · cases hcall

/-- After any calls for any users, the rows of `document_mutation` are exactly those of the
documents that the batches in `mutation` write.  Each scan of the index finds the batches it is
asked for, and returns what they are parsed to; and the consistency check passes. -/
theorem documentMutations_exact (parses : MutationBatch → Bool)
    (hmuts : p.tables.mutations = .empty)
    (hdocumentMutations : p.tables.documentMutations = .empty)
    (hnext : -2 ^ 31 ≤ p.queue.nextBatchId ∧ p.queue.nextBatchId < 2 ^ 31)
    {calls : List QueueCall} (hids : Along (queueStep parses) HasNextId p calls)
    {s : LevelDbPersistence} {answers : List Unit}
    (hrun : runAll (queueStep parses) p calls = .ok (s, answers)) (user : Bytes) :
    (∀ key id, s.tables.documentMutations.get? (toLex (user, toLex (key, id))) = some () ↔
      ∃ batch, s.tables.lookupMutationBatch user id = some batch ∧ batch.touches key) ∧
    s.tables.performConsistencyCheck user = .ok () ∧
    (∀ documentKeys, parsed parses
        (s.tables.allMutationBatchesAffectingDocumentKeys user documentKeys) =
      ((s.tables.allMutationBatches user).filter (touchesAny documentKeys)).mapM
        (LevelDbMutationQueue.parseMutationBatch parses)) ∧
    ∀ query : Query, query.isDocumentQuery = false → query.collectionGroup = none →
      parsed parses (s.tables.allMutationBatchesAffectingQuery user query) =
        ((s.tables.allMutationBatches user).filter (touchesCollection query.path)).mapM
          (LevelDbMutationQueue.parseMutationBatch parses) := by
  have hstart : p.QueueRoom := by
    refine ⟨⟨⟨fun user id batch => ?_, fun user key id => ?_⟩, fun id batch => ?_⟩, hnext,
      fun user id batch => ?_⟩
    · simp [hmuts]
    · simp [hmuts, hdocumentMutations]
    · simp [hmuts]
    · simp [hmuts]
  have hinv : s.QueueRoom := runAll_invariant_along QueueRoom
    (fun _ _ _ _ hs hcall hok => hs.queueStep hcall hok) hstart hids hrun
  have hindexed := hinv.queue.indexed
  have hholds := hindexed.holds user
  refine ⟨hindexed.index user, hindexed.performConsistencyCheck_eq user,
    fun documentKeys => ?_, fun query hdocument hgroup => ?_⟩
  · rw [LevelDbTables.allMutationBatchesAffectingDocumentKeys_eq,
      hholds.allMutationBatchesAffectingDocumentKeys_eq]
    rfl
  · rw [LevelDbTables.allMutationBatchesAffectingQuery_eq,
      hholds.allMutationBatchesAffectingQuery_eq hdocument hgroup]
    rfl

namespace TwoUsers

def room : DocumentKey := .inCollection (ascii "rooms") (ascii "a")

def mutations : List Mutation := [.delete room .none, .delete room .none]

def start : LevelDbPersistence := { empty with queue := ⟨[], 1, .default⟩ }

def calls : List QueueCall :=
  [.start (ascii "alice"), .add SnapshotVersion.none.timestamp [] mutations,
    .start (ascii "bob"), .add SnapshotVersion.none.timestamp [] mutations, .remove 2]

def hall : DocumentKey := .inCollection (ascii "halls") (ascii "b")

def lastId : LevelDbPersistence :=
  { start with queue := { start.queue with userId := ascii "alice", nextBatchId := 2 ^ 31 - 1 } }

/-- The id after the last one is the lowest, also after the queue was started again. -/
def wrappedCalls : List QueueCall :=
  [.add SnapshotVersion.none.timestamp [] mutations,
    .add SnapshotVersion.none.timestamp [] [.delete hall .none], .start (ascii "alice"),
    .add SnapshotVersion.none.timestamp [] mutations]

end TwoUsers

open TwoUsers in
theorem documentMutations_exact_twoUsers : ∃ s answers,
    runAll (queueStep fun _ => true) start calls = .ok (s, answers) ∧
      s.tables.performConsistencyCheck (ascii "bob") = .ok () := by
  obtain ⟨⟨s, answers⟩, hrun⟩ : ∃ r, runAll (queueStep fun _ => true) start calls = .ok r :=
    ⟨_, rfl⟩
  refine ⟨s, answers, hrun, (documentMutations_exact _ rfl rfl (by decide) ?_ hrun
    (ascii "bob")).2.1⟩
  refine ⟨trivial, fun p₁ _ h₁ => ?_⟩
  cases h₁
  refine ⟨by decide, fun p₂ _ h₂ => ⟨trivial, fun p₃ _ h₃ => ?_⟩⟩
  cases h₂
  cases h₃
  exact ⟨by decide, fun p₄ _ _ => ⟨trivial, fun _ _ _ => trivial⟩⟩

open TwoUsers in
/-- A batch with an id that was given out already takes the row of the first one, whose reference
stays; and a row that cannot be parsed ends the scan that finds it. -/
theorem not_documentMutations_exact :
    (∃ s answers, runAll (queueStep fun _ => true) lastId wrappedCalls = .ok (s, answers) ∧
      s.tables.documentMutations.get? (toLex (ascii "alice", toLex (hall, -2 ^ 31))) = some () ∧
      (s.tables.lookupMutationBatch (ascii "alice") (-2 ^ 31)).map (·.touches hall) =
        some false) ∧
    ∃ s answers e, runAll (queueStep fun _ => false) start calls.dropLast = .ok (s, answers) ∧
      parsed (fun _ => false) (s.tables.allMutationBatchesAffectingQuery (ascii "bob")
        (.atPath [ascii "rooms"])) = .error e :=
  ⟨⟨_, _, rfl, by decide +kernel, by decide +kernel⟩, _, _, _, rfl, rfl⟩

end LevelDbPersistence

end Firebase.Firestore.Local
