import Firebase.Firestore.Local.LocalDocumentsView

/-!
# Collection group queries

`LocalDocumentsView::GetDocumentsMatchingCollectionGroupQuery` (`local_documents_view.cc`) asks the
index manager for the parents of the collection id, and queries the collection of each.
-/

namespace Firebase.Firestore.Local

open Lib Util Model Firestore.Core List Option

variable {getCollectionParents : Bytes → List ResourcePath} {parent : ResourcePath}

namespace LocalDocumentsView

def addCollectionResults (view : LocalDocumentsView) (query : Query) (collectionId : Bytes)
    (sinceReadTime : SnapshotVersion) (results : DocumentMap) (parent : ResourcePath) :
    Hard DocumentMap := do
  let collectionQuery := query.asCollectionQueryAtPath (parent ++ [collectionId])
  let collectionResults ← view.getDocumentsMatchingCollectionQuery collectionQuery sinceReadTime
  return collectionResults.onto results

/-- `LocalDocumentsView::GetDocumentsMatchingCollectionGroupQuery`, with
`IndexManager::GetCollectionParents`. -/
def getDocumentsMatchingCollectionGroupQuery (view : LocalDocumentsView)
    (getCollectionParents : Bytes → List ResourcePath) (query : Query)
    (sinceReadTime : SnapshotVersion) : Hard DocumentMap := do
  hardAssert query.path.isEmpty "Currently we only support collection group queries at the root."
  match query.collectionGroup with
  -- The caller makes sure that there is one.
  | none => .error ⟨"dereferenced a null collection group"⟩
  | some collectionId =>
    (getCollectionParents collectionId).foldlM
      (view.addCollectionResults query collectionId sinceReadTime) .empty

/-! ## What is shown -/

variable {view : LocalDocumentsView} {batches : List MutationBatch} {query : Query}
  {cache : LevelDbRemoteDocumentCache} {collectionId : Bytes}

def InCollections (parents : List ResourcePath) (collectionId : Bytes) (key : DocumentKey) : Prop :=
  ∃ parent ∈ parents, ResourcePath.isImmediateParentOf (parent ++ [collectionId]) key.path

variable {doc : Option Document}

/-- Mutations keep the key of a document. -/
theorem localView_key {mutation : Mutation} (happ : mutation.Applicable)
    (hkey : ∀ d ∈ doc, d.key = mutation.key) (baseDoc : Option Document) (time : Timestamp) :
    ∀ d ∈ mutation.localView doc baseDoc time, d.key = mutation.key := by
  have hmaybe : ∀ d ∈ doc.map MaybeDocument.document, d.key = mutation.key := by
    intro d hd
    obtain ⟨existingDoc, hexisting, rfl⟩ := map_eq_some_iff.mp hd
    exact hkey existingDoc hexisting
  obtain ⟨r, -, hview, hrkey⟩ := Mutation.applyToLocalView_eq happ hmaybe
    (baseDoc.map .document) time
  rw [existing_map_document, existing_map_document] at hview
  intro d hd
  rw [← hview] at hd
  exact hrkey _ (existing_eq_some_iff.mp hd)

variable {key : DocumentKey}

theorem oneByOne_key (happ : ∀ batch ∈ batches, batch.Applicable)
    (hkey : ∀ d ∈ doc, d.key = key) : ∀ d ∈ oneByOne batches key doc, d.key = key := by
  refine List.foldlRecOn (motive := fun doc : Option Document => ∀ d ∈ doc, d.key = key) _ _ hkey
    fun doc hdoc batch hbatch => ?_
  refine List.foldlRecOn (motive := fun doc : Option Document => ∀ d ∈ doc, d.key = key) _ _ hdoc
    fun doc hdoc mutation hmem => ?_
  obtain ⟨hmutation, hof⟩ := mem_filter.mp hmem
  obtain rfl := of_decide_eq_true hof
  exact localView_key ((happ batch hbatch).2 mutation hmutation) hdoc _ _

/-- What a collection group query shows of a document, if it comes to its collection. -/
def showsInGroup (cache : LevelDbRemoteDocumentCache) (batches : List MutationBatch) (query : Query)
    (key : DocumentKey) : Option Document :=
  shows query (oneByOne batches key (existing (cache.get key)))

theorem shows_asCollectionQueryAtPath (hpath : query.path = [])
    (hgroup : query.collectionGroup = some collectionId) (hparent : parent.length % 2 = 0)
    (hchild : ResourcePath.isImmediateParentOf (parent ++ [collectionId]) key.path)
    (hkey : ∀ d ∈ doc, d.key = key) :
    shows (query.asCollectionQueryAtPath (parent ++ [collectionId])) doc = shows query doc := by
  cases doc with
  | none => rfl
  | some d =>
    rw [shows, shows, filter_some, filter_some,
      Query.matchesDocument_asCollectionQueryAtPath hpath hgroup hparent
        (by rwa [hkey d rfl])]

section

variable (hcache : view.remoteDocumentCache = .levelDb cache)

include hcache

section

variable (hholds : view.mutationQueue.Holds batches)

include hholds

section

variable (happ : ∀ batch ∈ batches, batch.Applicable)

include happ

section

variable (hpath : query.path = []) (hgroup : query.collectionGroup = some collectionId)
  (hvalid : query.Valid)

include hpath hgroup hvalid

/-- A round shows the documents of one collection, over those of the rounds before. -/
theorem addCollectionResults_eq (hparent : parent.length % 2 = 0) (results : DocumentMap) :
    ∃ results', view.addCollectionResults query collectionId .none results parent = .ok results' ∧
      ∀ key, results'.get? key =
        if ResourcePath.isImmediateParentOf (parent ++ [collectionId]) key.path then
          (showsInGroup cache batches query key).or (results.get? key)
        else results.get? key := by
  have hquery : (query.asCollectionQueryAtPath (parent ++ [collectionId])).IsCollectionQuery := by
    refine ⟨rfl, ?_⟩
    change (parent ++ [collectionId]).length % 2 = 1
    rw [length_append, length_singleton]
    omega
  have hvalid' := hvalid.asCollectionQueryAtPath (parent ++ [collectionId])
  obtain ⟨found, hfound, hkeyed, hseen⟩ :=
    getMatching_seen view.remoteDocumentCache batches hquery hvalid'
  obtain ⟨collectionResults, hresults, hget⟩ := getDocumentsMatchingCollectionQuery_of_found hholds
    happ hquery hvalid' hfound hkeyed
  refine ⟨collectionResults.onto results, by rw [addCollectionResults, hresults]; rfl,
    fun key => ?_⟩
  have hof := hget key
  rw [OrdMap.get?_onto]
  by_cases hchild : ResourcePath.isImmediateParentOf (parent ++ [collectionId]) key.path
  · have hbase : ∀ d ∈ existing (cache.get key), d.key = key :=
      fun d hd => existing_key (.levelDb cache) hd
    have hshows := shows_asCollectionQueryAtPath hpath hgroup hparent hchild
      (oneByOne_key happ hbase)
    have hvalue := hof.trans (if_pos hchild)
    rw [hseen key hchild, hcache] at hvalue
    rw [if_pos hchild, hvalue.trans hshows]
    rfl
  · rw [if_neg hchild, hof.trans (if_neg hchild), none_or]

theorem foldlM_addCollectionResults
    {parents : List ResourcePath} (hparents : ∀ parent ∈ parents, parent.length % 2 = 0)
    (results : DocumentMap) :
    ∃ results', parents.foldlM (view.addCollectionResults query collectionId .none) results =
        .ok results' ∧
      ∀ key, (InCollections parents collectionId key → results'.get? key =
          (showsInGroup cache batches query key).or (results.get? key)) ∧
        (¬ InCollections parents collectionId key → results'.get? key = results.get? key) := by
  induction parents generalizing results with
  | nil =>
    refine ⟨results, rfl, fun key => ⟨?_, fun _ => rfl⟩⟩
    rintro ⟨parent, hmem, -⟩
    cases hmem
  | cons parent parents ih =>
    obtain ⟨hparent, hparents⟩ := forall_mem_cons.mp hparents
    obtain ⟨results₁, hresults₁, hget₁⟩ := addCollectionResults_eq hcache hholds happ hpath
      hgroup hvalid hparent results
    obtain ⟨results₂, hresults₂, hget₂⟩ := ih hparents results₁
    refine ⟨results₂, by rw [foldlM_cons, hresults₁, ok_bind, hresults₂], fun key => ?_⟩
    have hcons : InCollections (parent :: parents) collectionId key ↔
        ResourcePath.isImmediateParentOf (parent ++ [collectionId]) key.path ∨
          InCollections parents collectionId key := exists_mem_cons_iff ..
    have hfirst := hget₁ key
    by_cases hrest : InCollections parents collectionId key
    · refine ⟨fun _ => ?_, absurd (hcons.mpr (.inr hrest))⟩
      rw [(hget₂ key).1 hrest, hfirst]
      split_ifs
      · rw [← Option.or_assoc, Option.or_self]
      · rfl
    · rw [(hget₂ key).2 hrest, hfirst]
      refine ⟨fun h => if_pos ((hcons.mp h).resolve_right hrest), fun h => if_neg fun hchild => ?_⟩
      exact h (hcons.mpr (.inl hchild))

/-- A collection group query shows the documents of the collections that the index has. -/
theorem getDocumentsMatchingCollectionGroupQuery_eq
    (hparents : ∀ parent ∈ getCollectionParents collectionId, parent.length % 2 = 0) :
    ∃ results, view.getDocumentsMatchingCollectionGroupQuery getCollectionParents query .none =
        .ok results ∧
      ∀ key, (InCollections (getCollectionParents collectionId) collectionId key →
          results.get? key = showsInGroup cache batches query key) ∧
        (¬ InCollections (getCollectionParents collectionId) collectionId key →
          results.get? key = none) := by
  obtain ⟨results, hresults, hget⟩ := foldlM_addCollectionResults hcache hholds happ hpath
    hgroup hvalid hparents .empty
  refine ⟨results, ?_, fun key => ⟨fun h => ?_, (hget key).2⟩⟩
  · rw [getDocumentsMatchingCollectionGroupQuery, hpath, isEmpty_nil, hardAssert_true, hgroup]
    exact hresults
  · rw [(hget key).1 h, OrdMap.get?_empty, or_none]

end

end

end

end

/-! ## When nothing is missing -/

/-- The query returns every document that can be read, has the collection id and matches. -/
def ReturnsLocalDocuments (view : LocalDocumentsView)
    (getCollectionParents : Bytes → List ResourcePath) (query : Query) (collectionId : Bytes) :
    Prop :=
  ∃ results, view.getDocumentsMatchingCollectionGroupQuery getCollectionParents query .none =
      .ok results ∧
    ∀ key doc, view.getDocument key = .ok (some (.document doc)) →
      key.hasCollectionId collectionId → query.matchesDocument doc = .ok true →
      results.get? key = some doc

theorem shows_eq_some {d : Document} :
    shows query doc = some d ↔ doc = some d ∧ query.matchesDocument d = .ok true := by
  rw [shows, filter_eq_some_iff, decide_eq_true_eq]

/-- A document that can be read is in the cache or written by a pending mutation. -/
theorem cached_or_touched {doc : Document}
    (h : inBatches batches key (existing (cache.get key)) = some doc) :
    (cache.get key).isSome ∨ ∃ batch ∈ batches, batch.touches key := by
  by_contra hneither
  obtain ⟨huncached, huntouched⟩ := not_or.mp hneither
  rw [not_isSome_iff_eq_none] at huncached
  rw [inBatches_of_untouched fun batch hbatch htouches => huntouched ⟨batch, hbatch, htouches⟩,
    huncached] at h
  cases h

/-- Where the index is complete and every batch does the same to a key as its mutations one by one,
a collection group query returns the documents that can be read. -/
theorem returnsLocalDocuments_of_direct (hcache : view.remoteDocumentCache = .levelDb cache)
    (hholds : view.mutationQueue.Holds batches)
    (happ : ∀ batch ∈ batches, batch.Applicable) (hpath : query.path = [])
    (hgroup : query.collectionGroup = some collectionId) (hvalid : query.Valid)
    (hparents : ∀ parent ∈ getCollectionParents collectionId, parent.length % 2 = 0)
    (hindexed : ∀ key : DocumentKey, key.hasCollectionId collectionId →
      ((cache.get key).isSome ∨ ∃ batch ∈ batches, batch.touches key) →
      InCollections (getCollectionParents collectionId) collectionId key)
    (hdirect : ∀ key : DocumentKey, key.hasCollectionId collectionId →
      ∀ batch ∈ batches, Direct batch key) :
    view.ReturnsLocalDocuments getCollectionParents query collectionId := by
  obtain ⟨results, hresults, hget⟩ := getDocumentsMatchingCollectionGroupQuery_eq hcache hholds
    happ hpath hgroup hvalid hparents
  refine ⟨results, hresults, fun key doc hdoc hid hmatches => ?_⟩
  obtain ⟨document, hdocument, hview, -⟩ := getDocument_eq hholds happ key
  obtain rfl := Except.ok.inj (hdocument.symm.trans hdoc)
  rw [hcache] at hview
  have hlocal : inBatches batches key (existing (cache.get key)) = some doc := hview.symm
  rw [(hget key).1 (hindexed key hid (cached_or_touched hlocal))]
  refine shows_eq_some.mpr ⟨?_, hmatches⟩
  rw [← inBatches_eq_oneByOne (hdirect key hid), hlocal]

end LocalDocumentsView

end Firebase.Firestore.Local
