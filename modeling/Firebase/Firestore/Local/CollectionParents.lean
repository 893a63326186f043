import Firebase.Firestore.Local.CollectionGroupQueries
import Firebase.Firestore.Local.ListenSequences

/-!
# The parents of collections

The index manager (`leveldb_index_manager.cc`) keeps a row for each collection that a document was
ever written to, by the remote document cache or by a mutation queue.  It writes a row only if it
has not done so since the process was started, by a cache that it keeps in memory.
-/

namespace Firebase.Firestore.Local

open Lib Util Model Firestore.Core Remote OrdMap List
open Option (some_ne_none isSome_iff_exists not_mem_none)
open LocalDocumentsView (Direct inBatches oneByOne getDocument_eq)

namespace LevelDbTables

/-- **The index is complete** for the documents of the cache and for the pending mutations of all
users. -/
def ParentsIndexed (t : LevelDbTables) : Prop :=
  (∀ key, (t.remoteDocuments.get? key).isSome → t.HasParent key) ∧
    ∀ userId, ∀ batch ∈ t.allMutationBatches userId, ∀ mutation ∈ batch.mutations,
      t.HasParent mutation.key

end LevelDbTables

variable {batch : MutationBatch} {time : Timestamp} {mutation : Mutation}

namespace LevelDbPersistence

variable {scope : WriteScope} {p p' : LevelDbPersistence}

/-! ## The index -/

variable {collectionPath : ResourcePath}

/-- After the path of a collection is added, the index has its row and all rows it had before. -/
theorem addToCollectionParentIndex_rows
    (hcache : ∀ entry, (p.collectionParentsCache.get? entry).isSome →
      (p.tables.collectionParents.get? entry).isSome)
    (h : p.addToCollectionParentIndex collectionPath = .ok p') (entry : Bytes ×ₗ ResourcePath) :
    (p'.tables.collectionParents.get? entry).isSome ↔
      entry = collectionEntry collectionPath ∨ (p.tables.collectionParents.get? entry).isSome := by
  obtain ⟨-, rows, rfl, rfl⟩ := addToCollectionParentIndex_ok h
  split_ifs with hnew
  · rw [get?_insert]
    split_ifs with heq
    · exact iff_of_true rfl (.inl heq)
    · exact (or_iff_right heq).symm
  · -- The entry is in the cache, so its row is there already.
    refine (or_iff_right_of_imp ?_).symm
    rintro rfl
    refine hcache _ ?_
    rwa [Option.isNone_iff_eq_none, ← ne_eq, Option.ne_none_iff_isSome] at hnew

/-- What holds of the index by itself: it has all that its cache has, and its rows are parents of
collections. -/
structure IndexRows (p : LevelDbPersistence) : Prop where
  cache : ∀ entry, (p.collectionParentsCache.get? entry).isSome →
    (p.tables.collectionParents.get? entry).isSome
  parents : ∀ entry, (p.tables.collectionParents.get? entry).isSome →
    (ofLex entry).2.length % 2 = 0

theorem IndexRows.addToCollectionParentIndex (h : p.IndexRows)
    (hadd : p.addToCollectionParentIndex collectionPath = .ok p') : p'.IndexRows := by
  have hrows := addToCollectionParentIndex_rows h.cache hadd
  obtain ⟨hodd, rows, rfl, -⟩ := addToCollectionParentIndex_ok hadd
  refine ⟨fun entry hsome => ?_, fun entry hsome => ?_⟩
  · rw [hrows]
    exact (isSome_get?_insert.mp hsome).imp_right (h.cache entry)
  · rcases (hrows entry).mp hsome with rfl | hsome
    · change collectionPath.dropLast.length % 2 = 0
      rw [length_dropLast]
      omega
    · exact h.parents entry hsome

/-- The documents and the mutations have rows in the index. -/
structure IndexInv (p : LevelDbPersistence) : Prop extends IndexRows p where
  documents : ∀ key, (p.tables.remoteDocuments.get? key).isSome → p.tables.HasParent key
  mutations : ∀ userId key id,
    (p.tables.documentMutations.get? (toLex (userId, toLex (key, id)))).isSome →
      p.tables.HasParent key

/-- What has no collection in the index yet is of the collection that is added. -/
theorem indexInv_of_addToCollectionParentIndex
    (hadd : p.addToCollectionParentIndex collectionPath = .ok p') (h : p.IndexRows)
    (hdocs : ∀ key, (p.tables.remoteDocuments.get? key).isSome →
      key.path.dropLast = collectionPath ∨ p.tables.HasParent key)
    (hmuts : ∀ user key id,
      (p.tables.documentMutations.get? (toLex (user, toLex (key, id)))).isSome →
        key.path.dropLast = collectionPath ∨ p.tables.HasParent key) : p'.IndexInv := by
  have hrows := addToCollectionParentIndex_rows h.cache hadd
  have hparent {key : DocumentKey}
      (hkey : key.path.dropLast = collectionPath ∨ p.tables.HasParent key) :
      p'.tables.HasParent key := (hrows _).mpr (hkey.imp_left (congrArg collectionEntry))
  refine { h.addToCollectionParentIndex hadd with documents := ?_, mutations := ?_ }
  all_goals obtain ⟨-, rows, rfl, -⟩ := addToCollectionParentIndex_ok hadd
  · exact fun key hstored => hparent (hdocs key hstored)
  · exact fun user key id hrow => hparent (hmuts user key id hrow)

/-- A document is put in the cache before its collection is added. -/
theorem IndexInv.addDocument (h : p.IndexInv) {document : MaybeDocument}
    {readTime : SnapshotVersion} (hadd : p.addDocument document readTime = .ok p') :
    p'.IndexInv := by
  obtain ⟨-, hindex⟩ := addDocument_ok hadd
  refine indexInv_of_addToCollectionParentIndex hindex ⟨h.cache, h.parents⟩ (fun key hstored => ?_)
    fun user key id hrow => .inr (h.mutations user key id hrow)
  exact (isSome_get?_insert.mp hstored).imp (fun heq => by rw [heq]) (h.documents key)

/-- So is the row of a mutation. -/
theorem IndexInv.addDocumentMutation (h : p.IndexInv) {batchId : Int}
    (hadd : addDocumentMutation batchId p mutation = .ok p') : p'.IndexInv := by
  obtain ⟨collectionPath, hpop, hindex⟩ := bind_eq_ok.mp hadd
  unfold ResourcePath.popLast at hpop
  split_ifs at hpop
  cases hpop
  refine indexInv_of_addToCollectionParentIndex hindex ⟨h.cache, h.parents⟩
    (fun key hstored => .inr (h.documents key hstored)) fun user key id hrow => ?_
  exact (isSome_get?_insert.mp hrow).imp (fun heq => by rw [(row_eq_iff.mp heq).2])
    (h.mutations user key id)

theorem IndexInv.addMutationBatch (h : p.IndexInv) {baseMutations mutations : List Mutation}
    (hadd : p.addMutationBatch time baseMutations mutations = .ok (p', batch)) : p'.IndexInv := by
  unfold LevelDbPersistence.addMutationBatch at hadd
  split_ifs at hadd
  obtain ⟨p₁, hloop, hadd⟩ := bind_eq_ok.mp hadd
  cases hadd
  refine foldlM_invariant IndexInv (fun _ _ _ _ hinv hround => hinv.addDocumentMutation hround)
    ?_ hloop
  exact ⟨⟨h.cache, h.parents⟩, h.documents, h.mutations⟩

/-- Rows that are deleted leave the index as it is. -/
theorem IndexInv.of_fewer (h : p.IndexInv)
    (hcache : p'.collectionParentsCache = p.collectionParentsCache)
    (hparents : p'.tables.collectionParents = p.tables.collectionParents)
    (hdocs : ∀ key, (p'.tables.remoteDocuments.get? key).isSome →
      (p.tables.remoteDocuments.get? key).isSome)
    (hmuts : ∀ k, (p'.tables.documentMutations.get? k).isSome →
      (p.tables.documentMutations.get? k).isSome) : p'.IndexInv := by
  have hparent : ∀ key, p.tables.HasParent key → p'.tables.HasParent key := by
    intro key hkey
    rwa [LevelDbTables.HasParent, hparents]
  refine ⟨⟨?_, ?_⟩, fun key hstored => hparent key (h.documents key (hdocs key hstored)),
    fun user key id hrow => hparent key (h.mutations user key id (hmuts _ hrow))⟩
  · rw [hcache, hparents]
    exact h.cache
  · rw [hparents]
    exact h.parents

theorem removeMutationBatch_documentMutations
    (h : p.removeMutationBatch batch = .ok p') (k : Bytes ×ₗ DocumentKey ×ₗ Int)
    (hrow : (p'.tables.documentMutations.get? k).isSome) :
    (p.tables.documentMutations.get? k).isSome := by
  obtain ⟨_, -, hloop⟩ := bind_eq_ok.mp h
  obtain ⟨-, -, hindex⟩ := foldlM_putsRow removeDocumentMutation_ok hloop
  obtain ⟨⟨⟩, hrow⟩ := isSome_iff_exists.mp hrow
  have hbefore := (hindex (ofLex k).1 (ofLex (ofLex k).2).1 (ofLex (ofLex k).2).2).mp hrow
  split_ifs at hbefore
  exact isSome_iff_exists.mpr ⟨(), hbefore⟩

/-! ## Rows that can be read -/

/-- Documents are filed under their own keys, and the mutations of batches can be applied. -/
structure ReadableRows (p : LevelDbPersistence) : Prop where
  keyed : ∀ key doc, p.tables.remoteDocuments.get? key = some doc → doc.key = key
  applicable : ∀ k batch, p.tables.mutations.get? k = some batch → batch.Applicable

theorem applicable_of_isPatch (h : mutation.isPatch = true) : mutation.Applicable := by
  cases mutation with
  | patch => trivial
  | _ => exact absurd h Bool.false_ne_true

/-- No write loses the collection of a document or of a mutation, and the rows can still be read. -/
theorem Write.rows (h : Write scope p p')
    (hwritten : ∀ mutation ∈ scope.written, mutation.Applicable) (hindex : p.IndexInv)
    (hrows : p.ReadableRows) (hqueue : p.QueueInv) :
    p'.IndexInv ∧ p'.ReadableRows ∧ p'.QueueInv := by
  have hdocs : ∀ {key : DocumentKey} {doc : MaybeDocument} {k : DocumentKey},
      (p.tables.remoteDocuments.erase k).get? key = some doc → doc.key = key :=
    fun hget => hrows.keyed _ _ (get?_erase_eq_some.mp hget).2
  cases h with
  | startMutationQueue user =>
    exact ⟨{ hindex with }, { hrows with }, hqueue.startMutationQueue user⟩
  | setLastStreamToken | setLastRemoteSnapshotVersion | addTarget =>
    exact ⟨{ hindex with }, { hrows with }, ⟨{ hqueue.indexed with }, hqueue.given⟩⟩
  | addMutationBatch hbases hmuts h =>
    refine ⟨hindex.addMutationBatch h, ?_, hqueue.addMutationBatch h⟩
    unfold LevelDbPersistence.addMutationBatch at h
    split_ifs at h
    obtain ⟨p₁, hloop, h⟩ := bind_eq_ok.mp h
    cases h
    obtain ⟨_, _, _, rfl⟩ := foldlM_addDocumentMutation_eq hloop
    exact ⟨hrows.keyed, forall_insert hrows.applicable
      ⟨fun mutation hmem => applicable_of_isPatch (hbases mutation hmem),
        fun mutation hmem => hwritten mutation (hmuts mutation hmem)⟩⟩
  | removeMutationBatch hbatch h =>
    have hfewer := removeMutationBatch_documentMutations h
    have hqueue' := hqueue.removeMutationBatch (by rwa [hqueue.indexed.keyed _ _ _ hbatch]) h
    obtain ⟨_, -, hloop⟩ := bind_eq_ok.mp h
    obtain ⟨_, _, rfl, -⟩ := foldlM_removeDocumentMutation_eq hloop
    exact ⟨hindex.of_fewer rfl rfl (fun _ => id) hfewer,
      ⟨hrows.keyed, fun k batch hget => hrows.applicable k batch (get?_erase_eq_some.mp hget).2⟩,
      hqueue'⟩
  | addDocument hkey h =>
    refine ⟨hindex.addDocument h, ?_⟩
    obtain ⟨-, hparents⟩ := addDocument_ok h
    obtain ⟨-, _, rfl, -⟩ := addToCollectionParentIndex_ok hparents
    exact ⟨⟨forall_insert hrows.keyed rfl, hrows.applicable⟩,
      ⟨{ hqueue.indexed with }, hqueue.given⟩⟩
  | removeDocument =>
    exact ⟨hindex.of_fewer rfl rfl (fun _ hrow => (isSome_get?_erase.mp hrow).2) fun _ => id,
      ⟨fun _ _ => hdocs, hrows.applicable⟩, ⟨{ hqueue.indexed with }, hqueue.given⟩⟩
  | removeOrphan refs upperBound count hkey =>
    next report =>
    rcases removeOrphan_eq refs upperBound (p, count) report with heq | heq
    · rw [heq]
      exact ⟨hindex, hrows, hqueue⟩
    · rw [heq]
      exact ⟨hindex.of_fewer rfl rfl (fun _ hrow => (isSome_get?_erase.mp hrow).2) fun _ => id,
        ⟨fun _ _ => hdocs, hrows.applicable⟩, ⟨{ hqueue.indexed with }, hqueue.given⟩⟩
  | writeSentinel h | addMatch hid h | removeMatch hid h =>
    obtain ⟨_, -, rfl⟩ := writeSentinel_ok h
    exact ⟨{ hindex with }, { hrows with }, ⟨{ hqueue.indexed with }, hqueue.given⟩⟩
  | updateTarget hid h =>
    next targetData =>
    obtain ⟨_, heq, -⟩ := p.updateTarget_tables targetData
    rw [heq]
    exact ⟨{ hindex with }, { hrows with }, ⟨{ hqueue.indexed with }, hqueue.given⟩⟩
  | removeTarget canonicalId hrow =>
    next _ targetData =>
    obtain ⟨_, _, _, heq, -, -⟩ := removeTarget_eq canonicalId p targetData
    rw [heq]
    exact ⟨{ hindex with }, { hrows with }, ⟨{ hqueue.indexed with }, hqueue.given⟩⟩

/-! ## Transactions -/

structure Consistent (p : LevelDbPersistence) : Prop where
  version : p.tables.version = some LevelDbTables.kSchemaVersion
  saved : p.tables.targetGlobal = some p.metadata
  index : p.IndexInv
  rows : p.ReadableRows
  queue : p.QueueInv

theorem Consistent.writes (h : p.Consistent)
    (hwritten : ∀ mutation ∈ scope.written, mutation.Applicable) (hwrites : Writes scope p p') :
    p'.Consistent := by
  have hnumbers := hwrites.writesNumbers
  have hrest : p'.IndexInv ∧ p'.ReadableRows ∧ p'.QueueInv := by
    induction hwrites with
    | refl => exact ⟨h.index, h.rows, h.queue⟩
    | tail hbefore hwrite ih =>
      obtain ⟨hindex, hrows, hqueue⟩ := ih (Writes.writesNumbers hbefore)
      exact hwrite.rows hwritten hindex hrows hqueue
  exact ⟨hnumbers.version.trans h.version, hnumbers.saved h.saved, hrest.1, hrest.2.1, hrest.2.2⟩

/-- The number of a transaction is nothing that the rows depend on. -/
theorem Consistent.withNumbers (h : p.Consistent) (previous : Int) (current : Option Int) :
    ({ p with previousSequenceNumber := previous, currentSequenceNumber := current }).Consistent :=
  ⟨h.version, h.saved, { h.index with }, { h.rows with }, ⟨{ h.queue.indexed with }, h.queue.given⟩⟩

theorem Consistent.transaction (h : p.Consistent)
    (hwritten : ∀ mutation ∈ scope.written, mutation.Applicable)
    (htx : Transaction scope p p') : p'.Consistent := by
  obtain ⟨-, p₁, hwrites, rfl⟩ := htx
  have hstarted : p.started.Consistent := h.withNumbers _ _
  exact (hstarted.writes hwritten hwrites).withNumbers _ _

theorem Consistent.transactions (h : p.Consistent)
    (hwritten : ∀ mutation ∈ scope.written, mutation.Applicable)
    (htxs : LocalStore.Transactions scope p p') : p'.Consistent := by
  induction htxs with
  | refl => exact h
  | tail _ htx ih => exact ih.transaction hwritten htx

theorem consistent_new : new.Consistent where
  version := rfl
  saved := rfl
  index := ⟨⟨fun _ h => absurd h Bool.false_ne_true, fun _ h => absurd h Bool.false_ne_true⟩,
    fun _ h => absurd h Bool.false_ne_true, fun _ _ _ h => absurd h Bool.false_ne_true⟩
  rows := ⟨fun _ _ h => absurd h (some_ne_none _).symm,
    fun _ _ h => absurd h (some_ne_none _).symm⟩
  queue := by
    refine ⟨⟨fun _ _ _ h => absurd h (some_ne_none _).symm, fun user key id => ?_⟩,
      fun _ _ h => absurd h (some_ne_none _).symm⟩
    refine iff_of_false (some_ne_none _).symm ?_
    rintro ⟨batch, h, -⟩
    exact absurd h (some_ne_none _).symm

end LevelDbPersistence

/-! ## Calls -/

/-- What the writers of mutations promise. -/
def LocalStoreCall.Applicable : LocalStoreCall → Prop
  | .writeLocally _ mutations => ∀ mutation ∈ mutations, mutation.Applicable
  | _ => True

variable {parent : ResourcePath} {key : DocumentKey}

namespace LocalStore

open LevelDbPersistence

variable {canonicalId : Target → Bytes} {s s' : LocalStore} {p : LevelDbPersistence} {user : Bytes}

/-- The cache of the index manager is empty after a start, and the rows are what they were. -/
theorem start_consistent {tables : LevelDbTables} (hcreate : create tables = .ok p)
    (hversion : p.tables.version = some LevelDbTables.kSchemaVersion)
    (hsaved : p.tables.targetGlobal = some p.metadata) (hindex : p.IndexInv)
    (hrows : p.ReadableRows)
    (hindexed : p.tables.Indexed) (h : start tables user = .ok s) : s.persistence.Consistent := by
  obtain ⟨p', hcreate', h⟩ := bind_eq_ok.mp h
  obtain rfl := Except.ok.inj (hcreate.symm.trans hcreate')
  obtain ⟨s₁, hstart, h⟩ := bind_eq_ok.mp h
  obtain ⟨⟨s₂, _⟩, hrun, hstart⟩ := bind_eq_ok.mp hstart
  obtain ⟨-, p₂, hblock, rfl⟩ := run_started hrun
  cases hblock
  cases hstart
  cases h
  exact ⟨hversion, hsaved, { hindex with }, { hrows with },
    ⟨hindexed, fun _ _ hget => LevelDbTables.lt_loadNextBatchIdFromDb hget⟩⟩

theorem restart_consistent (hs : s.persistence.Consistent)
    (h : start s.tables user = .ok s') : s'.persistence.Consistent :=
  start_consistent (create_eq hs.version hs.saved) hs.version hs.saved
    ⟨⟨fun _ h => absurd h Bool.false_ne_true, hs.index.parents⟩, hs.index.documents,
      hs.index.mutations⟩ ⟨hs.rows.keyed, hs.rows.applicable⟩ hs.queue.indexed h

theorem start_empty_consistent (h : start .empty user = .ok s) : s.persistence.Consistent :=
  start_consistent create_empty consistent_new.version consistent_new.saved consistent_new.index
    consistent_new.rows consistent_new.queue.indexed h

theorem step_consistent {call : LocalStoreCall} {answer : Unit} (hs : s.persistence.Consistent)
    (hcall : call.Applicable) (h : s.step canonicalId call = .ok (s', answer)) :
    s'.persistence.Consistent := by
  have hscope : InScope ⟨Set.univ, Set.univ, Set.univ, Set.univ,
      {mutation | mutation.Applicable}⟩ call := by
    cases call with
    | writeLocally => exact hcall
    | applyRemoteEvent => exact ⟨fun _ => trivial, fun _ => trivial⟩
    | acknowledgeBatch | collectGarbage => exact fun _ => trivial
    | _ => trivial
  rcases step_transactions hscope (fun _ _ _ => ⟨trivial, trivial⟩) trivial h with
    htxs | ⟨user, rfl, hstart⟩
  · exact hs.transactions (fun _ => id) htxs
  · exact restart_consistent hs hstart

/-! ## Queries -/

/-- `LocalDocumentsView` of the store, for the current user. -/
def localDocuments (s : LocalStore)
    (hkeyed : ∀ key doc, s.tables.remoteDocuments.get? key = some doc → doc.key = key) :
    LocalDocumentsView where
  remoteDocumentCache := .levelDb
    ⟨s.tables.remoteDocuments, s.tables.remoteDocumentReadTimes, hkeyed⟩
  mutationQueue := .levelDb (s.tables.queueOf s.persistence.queue.userId)

variable {collectionId : Bytes}

theorem mem_getCollectionParents : parent ∈ p.getCollectionParents collectionId ↔
      (p.tables.collectionParents.get? (toLex (collectionId, parent))).isSome := by
  rw [getCollectionParents, mem_map, isSome_iff_exists]
  constructor
  · rintro ⟨⟨k, v⟩, hrow, rfl⟩
    obtain ⟨hget, rfl⟩ := mem_scanUnder.mp hrow
    exact ⟨v, hget⟩
  · rintro ⟨v, hget⟩
    exact ⟨(_, v), mem_scanUnder.mpr ⟨hget, rfl⟩, rfl⟩

/-- The row of a document leads to its collection. -/
theorem inCollections_of_hasParent
    (hid : key.hasCollectionId collectionId) (h : p.tables.HasParent key) :
    LocalDocumentsView.InCollections (p.getCollectionParents collectionId) collectionId key := by
  obtain ⟨parent, name, hpath⟩ := DocumentKey.hasCollectionId_iff.mp hid
  have hdrop : key.path.dropLast = parent ++ [collectionId] := by
    rw [hpath, append_cons, dropLast_concat]
  have hentry : collectionEntry (parent ++ [collectionId]) = toLex (collectionId, parent) := by
    rw [collectionEntry, dropLast_concat, getLastD_concat]
  refine ⟨parent, mem_getCollectionParents.mpr ?_, ?_⟩
  · rwa [LevelDbTables.HasParent, hdrop, hentry] at h
  · exact ResourcePath.isImmediateParentOf_iff.mpr ⟨name, by rw [hpath, append_cons]⟩

section

variable (hs : s.persistence.Consistent)

include hs

/-- The rows of the index are complete. -/
theorem parentsIndexed : s.tables.ParentsIndexed := by
  refine ⟨hs.index.documents, fun user batch hbatch mutation hmem => ?_⟩
  obtain ⟨id, hget⟩ := LevelDbTables.mem_allMutationBatches.mp hbatch
  have hrow := (hs.queue.indexed.index user mutation.key id).mpr
    ⟨batch, hget, touches_iff.mpr ⟨mutation, hmem, rfl⟩⟩
  exact hs.index.mutations user mutation.key id (isSome_iff_exists.mpr ⟨(), hrow⟩)

def pending (s : LocalStore) : List MutationBatch :=
  s.tables.allMutationBatches s.persistence.queue.userId

/-- The queue of the current user holds its batches, which can be applied. -/
theorem holds_pending : (s.localDocuments hs.rows.keyed).mutationQueue.Holds s.pending ∧
      ∀ batch ∈ s.pending, batch.Applicable := by
  refine ⟨hs.queue.indexed.holds _, fun batch hbatch => ?_⟩
  obtain ⟨id, hget⟩ := LevelDbTables.mem_allMutationBatches.mp hbatch
  exact hs.rows.applicable _ batch hget

theorem even_of_mem_getCollectionParents
    (h : parent ∈ s.persistence.getCollectionParents collectionId) : parent.length % 2 = 0 :=
  hs.index.parents _ (mem_getCollectionParents.mp h)

theorem returnsLocalDocuments {query : Query} (hpath : query.path = [])
    (hgroup : query.collectionGroup = some collectionId) (hvalid : query.Valid)
    (hdirect : ∀ key : DocumentKey, key.hasCollectionId collectionId →
      ∀ batch ∈ s.pending, Direct batch key) :
    (s.localDocuments hs.rows.keyed).ReturnsLocalDocuments s.persistence.getCollectionParents query
      collectionId := by
  obtain ⟨hholds, happ⟩ := holds_pending hs
  obtain ⟨hdocs, hmuts⟩ := parentsIndexed hs
  refine LocalDocumentsView.returnsLocalDocuments_of_direct rfl hholds happ hpath hgroup
    hvalid (fun parent => even_of_mem_getCollectionParents hs) (fun key hid hkey => ?_) hdirect
  refine inCollections_of_hasParent hid ?_
  rcases hkey with hstored | ⟨batch, hbatch, htouches⟩
  · exact hdocs key hstored
  · obtain ⟨mutation, hmem, rfl⟩ := touches_iff.mp htouches
    exact hmuts _ batch hbatch mutation hmem

end

/-- In each state that is reached from an empty database, the index has the collection of every
document of the cache and of every pending mutation.  A collection group query therefore comes to
all documents of the collection id, and returns those that can be read and match if no pending batch
has base mutations or late transforms of them. -/
theorem collectionParents_complete {user : Bytes} {calls : List LocalStoreCall}
    {answers : List Unit} (hstart : start .empty user = .ok s)
    (hcalls : ∀ call ∈ calls, call.Applicable)
    (hrun : runAll (step canonicalId) s calls = .ok (s', answers)) : s'.tables.ParentsIndexed ∧
    ∃ hkeyed : ∀ key doc, s'.tables.remoteDocuments.get? key = some doc → doc.key = key,
      ∀ query collectionId, query.path = [] → query.collectionGroup = some collectionId →
        query.Valid →
        (∀ key : DocumentKey, key.hasCollectionId collectionId →
          ∀ batch ∈ s'.pending, Direct batch key) →
        (s'.localDocuments hkeyed).ReturnsLocalDocuments s'.persistence.getCollectionParents query
          collectionId := by
  have hs' : s'.persistence.Consistent := runAll_invariant (p := LocalStoreCall.Applicable)
    (fun s : LocalStore => s.persistence.Consistent)
    (fun _ _ _ _ hs hcall hok => step_consistent hs hcall hok) (start_empty_consistent hstart)
    hcalls hrun
  exact ⟨parentsIndexed hs', hs'.rows.keyed, fun _ _ => returnsLocalDocuments hs'⟩

/-! ## An increment that the backend overtakes -/

namespace Overtaken

open LevelDbPersistence.TwoUsers (room)

def field : Bytes := ascii "n"

def first : SnapshotVersion := ⟨⟨1, 0, by decide⟩⟩

def second : SnapshotVersion := ⟨⟨2, 0, by decide⟩⟩

variable (version : SnapshotVersion)

def document (n : Int64) : Document :=
  ⟨[(field, .integer n)], room, version, .synced⟩

def event (n : Int64) : RemoteEvent where
  snapshotVersion := version
  targetChanges := .empty
  targetMismatches := ∅
  documentUpdates := OrdMap.empty.insert room (.document (document version n))
  limboDocumentChanges := ∅

def increment : Mutation := .transform room [⟨[field], LocalDocumentsView.Counter.addOne⟩]

def calls : List LocalStoreCall :=
  [.applyRemoteEvent (event first 1), .writeLocally SnapshotVersion.none.timestamp [increment],
    .applyRemoteEvent (event second 5)]

def query : Query :=
  ⟨[], some (ascii "rooms"), [.field [field] .lessThan (.integer 3)], [], .maxValue, .none, none,
    none⟩

def localDocument (n : Int64) : Document :=
  ⟨[(field, .integer n)], room, version, .localMutations⟩

def Shows (n : Int64) : Option Document → Bool
  | some ⟨[(name, .integer m)], key, version, state⟩ =>
    name = field ∧ m = n ∧ key = room ∧ version = second ∧ state = .localMutations
  | _ => false

theorem eq_of_shows {n : Int64} {doc : Option Document} (h : Shows n doc) :
    doc = some (localDocument second n) := by
  unfold Shows at h
  split at h
  · obtain ⟨rfl, rfl, rfl, rfl, rfl⟩ := of_decide_eq_true h
    rfl
  · cases h

/-- Batch by batch the room is shown with the base of the increment, and mutation by mutation
with what the backend has sent. -/
theorem run_calls : ∃ s, start .empty [] = .ok s ∧ ∃ s' answers,
    runAll (step fun _ => []) s calls = .ok (s', answers) ∧
      (s'.tables.remoteDocuments.get? room).isSome ∧
      Shows 2 (inBatches s'.pending room (existing (s'.tables.remoteDocuments.get? room))) ∧
      Shows 6 (oneByOne s'.pending room (existing (s'.tables.remoteDocuments.get? room))) := by
  decide +kernel

theorem applicable_calls : ∀ call ∈ calls, call.Applicable := by
  rw [calls, forall_mem_cons, forall_mem_cons, forall_mem_singleton]
  refine ⟨trivial, fun mutation hmem => ?_, trivial⟩
  rw [mem_singleton.mp hmem]
  intro fieldTransform hfield
  rw [mem_singleton.mp hfield]
  exact cons_ne_nil _ _

theorem valid_query : query.Valid :=
  ⟨_, rfl, fun _ h => (not_mem_none _ h).elim, fun _ h => (not_mem_none _ h).elim⟩

theorem matches_two : query.matchesDocument (localDocument second 2) = .ok true := by
  decide +kernel

theorem matches_six : query.matchesDocument (localDocument second 6) = .ok false := by
  decide +kernel

end Overtaken

open Overtaken LevelDbPersistence.TwoUsers in
/-- The room has the number 2 when it is read, but the query finds the number 6. -/
theorem not_returnsLocalDocuments_overtaken : ∃ s s' answers results,
    ∃ hkeyed : ∀ key doc, s'.tables.remoteDocuments.get? key = some doc → doc.key = key,
      start .empty [] = .ok s ∧ runAll (step fun _ => []) s calls = .ok (s', answers) ∧
      (s'.localDocuments hkeyed).getDocument room =
        .ok (some (.document (localDocument second 2))) ∧
      query.matchesDocument (localDocument second 2) = .ok true ∧
      (s'.localDocuments hkeyed).getDocumentsMatchingCollectionGroupQuery
        s'.persistence.getCollectionParents query .none = .ok results ∧
      results.get? room = none := by
  obtain ⟨s, hstart, s', answers, hrun, hcached, hread, hqueried⟩ := run_calls
  have hs' := runAll_invariant (p := LocalStoreCall.Applicable)
    (fun s : LocalStore => s.persistence.Consistent)
    (fun _ _ _ _ hs hcall hok => step_consistent hs hcall hok) (start_empty_consistent hstart)
    applicable_calls hrun
  obtain ⟨hholds, happ⟩ := holds_pending hs'
  obtain ⟨document, hdocument, hexisting, -⟩ := getDocument_eq hholds happ room
  obtain ⟨results, hresults, hget⟩ :=
    LocalDocumentsView.getDocumentsMatchingCollectionGroupQuery_eq rfl hholds happ
      (show query.path = [] from rfl) rfl valid_query fun parent => even_of_mem_getCollectionParents
        hs'
  refine ⟨s, s', answers, results, hs'.rows.keyed, hstart, hrun, ?_, matches_two, hresults, ?_⟩
  · rw [hdocument]
    exact congrArg _ (existing_eq_some_iff.mp (hexisting.trans (eq_of_shows hread)))
  · rw [(hget room).1 (inCollections_of_hasParent rfl ((parentsIndexed hs').1 room hcached))]
    refine (congrArg (LocalDocumentsView.shows query) (eq_of_shows hqueried)).trans ?_
    rw [LocalDocumentsView.shows, Option.filter_some, matches_six]
    rfl

open Overtaken LevelDbPersistence.TwoUsers in
/-- The room that the backend has sent, and that the user has overwritten. -/
theorem collectionParents_complete_overwritten : ∃ s s' answers, ∃ hkeyed,
    start .empty [] = .ok s ∧
    runAll (step fun _ => []) s [.applyRemoteEvent (event first 5),
      .writeLocally SnapshotVersion.none.timestamp [.set room [(field, .integer 2)] .none]] =
        .ok (s', answers) ∧
    s'.pending ≠ [] ∧ s'.tables.ParentsIndexed ∧
    (s'.localDocuments hkeyed).ReturnsLocalDocuments s'.persistence.getCollectionParents query
      (ascii "rooms") := by
  obtain ⟨s, hstart, s', answers, hrun, hpending, hplain⟩ : ∃ s, start .empty [] = .ok s ∧
      ∃ s' answers, runAll (step fun _ => []) s [.applyRemoteEvent (event first 5),
        .writeLocally SnapshotVersion.none.timestamp [.set room [(field, .integer 2)] .none]] =
          .ok (s', answers) ∧
        s'.pending.isEmpty = false ∧
        ∀ batch ∈ s'.pending, batch.baseMutations.isEmpty ∧ batch.mutations.tail.isEmpty := by
    decide +kernel
  have hcalls : ∀ call ∈ [LocalStoreCall.applyRemoteEvent (event first 5),
      .writeLocally SnapshotVersion.none.timestamp [.set room [(field, .integer 2)] .none]],
      call.Applicable := by
    rw [forall_mem_cons, forall_mem_singleton]
    refine ⟨trivial, fun mutation hmem => ?_⟩
    rw [mem_singleton.mp hmem]
    trivial
  obtain ⟨hindexed, hkeyed, hreturns⟩ := collectionParents_complete hstart hcalls hrun
  refine ⟨s, s', answers, hkeyed, hstart, hrun, ?_, hindexed,
    hreturns query _ rfl rfl valid_query fun key _ batch hbatch => ?_⟩
  · exact isEmpty_eq_false_iff.mp hpending
  · obtain ⟨hbase, htail⟩ := hplain batch hbatch
    refine ⟨by rw [isEmpty_iff.mp hbase]; rfl, fun mutation hmem => ?_⟩
    have hsublist := (filter_sublist (l := batch.mutations)).tail.subset hmem
    rw [isEmpty_iff.mp htail] at hsublist
    cases hsublist

end LocalStore

end Firebase.Firestore.Local
