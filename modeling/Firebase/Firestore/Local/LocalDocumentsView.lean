import Firebase.Firestore.Local.MutationQueue
import Firebase.Firestore.Local.RemoteDocumentCache

/-!
# The local view of documents

`LocalDocumentsView` (`local_documents_view.cc`) shows the documents of the remote document cache
with the pending mutations applied.  A document that is read by its key goes through its batches as
a whole (`inBatches`).  A query of a collection applies the pending mutations one by one
(`oneByOne`) and has no use for base mutations.
-/

namespace Firebase.Firestore.Local

open Lib Util Model Firestore.Core OrdMap List MutationBatch
open ResourcePath (isImmediateParentOf)

structure LocalDocumentsView where
  remoteDocumentCache : RemoteDocumentCache
  mutationQueue : MutationQueue

variable {docs : DocumentMap}

namespace LocalDocumentsView

section

variable (view : LocalDocumentsView)

def getDocument (key : DocumentKey) : Hard (Option MaybeDocument) := do
  let batches ← view.mutationQueue.allMutationBatchesAffectingDocumentKey key
  batches.foldlM (fun document batch => batch.applyToLocalDocument document key)
    (view.remoteDocumentCache.get key)

/-- The keys that `AddMissingBaseDocuments` looks for. -/
def missingDocKeys (matchingBatches : List MutationBatch) (existingDocs : DocumentMap) :
    DocumentKeySet :=
  (matchingBatches.flatMap (·.mutations)).foldl (fun keys mutation =>
    if mutation.isPatch && (existingDocs.get? mutation.key).isNone then insert mutation.key keys
    else keys) ∅

def addMissingBaseDocuments (matchingBatches : List MutationBatch)
    (existingDocs : DocumentMap) : DocumentMap :=
  (view.remoteDocumentCache.getAll (missingDocKeys matchingBatches existingDocs)).foldl
    (fun docs entry =>
      match existing entry.2 with
      | some doc => docs.insert entry.1 doc
      | none => docs) existingDocs

variable (query : Query)

def applyMutation (localWriteTime : Timestamp) (results : DocumentMap)
    (mutation : Mutation) : Hard DocumentMap :=
  if isImmediateParentOf query.path mutation.key.path then do
    let baseDoc := (results.get? mutation.key).map .document
    let mutatedDoc ← mutation.applyToLocalView baseDoc baseDoc localWriteTime
    match existing mutatedDoc with
    | some doc => return results.insert mutation.key doc
    | none => return results.erase mutation.key
  else .ok results

def applyMutations (batches : List MutationBatch) (results : DocumentMap) : Hard DocumentMap :=
  batches.foldlM (fun results batch =>
    batch.mutations.foldlM (applyMutation query batch.localWriteTime) results) results

def filterMatching (unfiltered : DocumentMap) : Hard DocumentMap :=
  unfiltered.entries.foldlM (fun results entry => do
    let isMatch ← query.matchesDocument entry.2
    return if isMatch then results else results.erase entry.1) unfiltered

def getDocumentsMatchingCollectionQuery (sinceReadTime : SnapshotVersion) : Hard DocumentMap := do
  let found ← view.remoteDocumentCache.getMatching query sinceReadTime
  let matchingBatches ← view.mutationQueue.allMutationBatchesAffectingQuery query
  let results ← applyMutations query matchingBatches
    (view.addMissingBaseDocuments matchingBatches found)
  filterMatching query results

end

/-! ## What the two ways compute -/

def shows (query : Query) (doc : Option Document) : Option Document :=
  doc.filter fun doc => query.matchesDocument doc = .ok true

section

variable (batches : List MutationBatch) (key : DocumentKey)

def inBatches (doc : Option Document) : Option Document :=
  (batches.filter (·.touches key)).foldl (fun doc batch => batch.localView key doc) doc

def mutationView (doc : Option Document) (batch : MutationBatch) : Option Document :=
  (ofKey key batch.mutations).foldl
    (fun doc mutation => mutation.localView doc doc batch.localWriteTime) doc

def oneByOne (doc : Option Document) : Option Document :=
  batches.foldl (mutationView key) doc

def patched : Bool :=
  (batches.flatMap (·.mutations)).any fun mutation => mutation.isPatch && mutation.key = key

end

/-- The document that a query applies the pending mutations of a key to.  The cache in memory
leaves out what does not match, and only patches bring it back. -/
def seen (cache : RemoteDocumentCache) (query : Query) (batches : List MutationBatch)
    (key : DocumentKey) : Option Document :=
  match cache with
  | .levelDb cache => existing (cache.get key)
  | .memory cache =>
    if patched batches key then existing (cache.get key)
    else (cache.docs.get? key).bind (MemoryRemoteDocumentCache.matching query)

/-- The documents of a map are filed under their own keys. -/
def Keyed (docs : DocumentMap) : Prop := ∀ key doc, docs.get? key = some doc → doc.key = key

variable {doc : Document}

theorem Keyed.insert (h : Keyed docs) {key : DocumentKey}
    (hkey : doc.key = key) : Keyed (docs.insert key doc) := forall_insert h hkey

theorem Keyed.erase (h : Keyed docs) (key : DocumentKey) : Keyed (docs.erase key) :=
  fun key' doc' hget => h key' doc' (get?_erase_eq_some.mp hget).2

variable {view : LocalDocumentsView} {batches : List MutationBatch} {query : Query}

theorem existing_key (cache : RemoteDocumentCache) {key : DocumentKey}
    (h : existing (cache.get key) = some doc) : doc.key = key :=
  RemoteDocumentCache.key_of_get (existing_eq_some_iff.mp h)

/-! ## Reading a document -/

theorem foldlM_applyToLocalDocument (happ : ∀ batch ∈ batches, batch.Applicable)
    {key : DocumentKey} {doc : Option MaybeDocument} (hkey : ∀ d ∈ doc, d.key = key) :
    ∃ r, batches.foldlM (fun document batch => batch.applyToLocalDocument document key) doc =
      .ok r ∧
      existing r = batches.foldl (fun doc batch => batch.localView key doc) (existing doc) ∧
      ∀ d ∈ r, d.key = key := by
  induction batches generalizing doc with
  | nil => exact ⟨doc, rfl, rfl, hkey⟩
  | cons batch batches ih =>
    obtain ⟨r, hr, hview, hrkey⟩ :=
      applyToLocalDocument_eq (happ batch mem_cons_self) hkey
    rw [foldlM_cons, hr, foldl_cons, ← hview]
    exact ih (fun b hb => happ b (mem_cons_of_mem batch hb)) hrkey

theorem getDocument_eq (hholds : view.mutationQueue.Holds batches)
    (happ : ∀ batch ∈ batches, batch.Applicable) (key : DocumentKey) :
    ∃ r, view.getDocument key = .ok r ∧
      existing r = inBatches batches key (existing (view.remoteDocumentCache.get key)) ∧
      ∀ d ∈ r, d.key = key := by
  rw [getDocument, hholds.allMutationBatchesAffectingDocumentKey_eq]
  exact foldlM_applyToLocalDocument
    (fun batch hmem => happ batch (mem_of_mem_filter hmem))
    fun d hd => RemoteDocumentCache.key_of_get hd

/-! ## Querying a collection -/

variable {found : DocumentMap}

theorem mem_missingDocKeys {key : DocumentKey} :
    key ∈ missingDocKeys batches found ↔ patched batches key ∧ found.get? key = none := by
  rw [missingDocKeys, patched]
  generalize batches.flatMap (·.mutations) = mutations
  have hfold : ∀ keys : DocumentKeySet, key ∈ mutations.foldl (fun keys mutation =>
        if mutation.isPatch && (found.get? mutation.key).isNone then insert mutation.key keys
        else keys) keys ↔
      (mutations.any (fun mutation => mutation.isPatch && mutation.key = key) ∧
        found.get? key = none) ∨ key ∈ keys := by
    induction mutations with
    | nil => simp
    | cons mutation mutations ih =>
      intro keys
      rw [foldl_cons, ih, any_cons]
      by_cases hkey : mutation.key = key
      · subst hkey
        cases mutation.isPatch <;> cases found.get? mutation.key <;> simp
      · have hother : key ∈ (if (mutation.isPatch && (found.get? mutation.key).isNone) = true then
            insert mutation.key keys else keys) ↔ key ∈ keys := by
          split_ifs
          · rw [Finset.mem_insert, or_iff_right (Ne.symm hkey)]
          · rfl
        rw [hother]
        simp [hkey]
  rw [hfold]
  simp

theorem get?_addMissingBaseDocuments (view : LocalDocumentsView) (batches : List MutationBatch)
    (found : DocumentMap) (key : DocumentKey) :
    (view.addMissingBaseDocuments batches found).get? key =
      (found.get? key).or
        (if patched batches key then existing (view.remoteDocumentCache.get key) else none) := by
  have hfold : ∀ (keys : List DocumentKey) (docs : DocumentMap),
      ((keys.map fun key => (key, view.remoteDocumentCache.get key)).foldl (fun docs entry =>
        match existing entry.2 with
        | some doc => docs.insert entry.1 doc
        | none => docs) docs).get? key =
      if key ∈ keys then (existing (view.remoteDocumentCache.get key)).or (docs.get? key)
      else docs.get? key := by
    intro keys
    induction keys with
    | nil => simp
    | cons key' keys ih =>
      intro docs
      rw [map_cons, foldl_cons, ih]
      by_cases hkey : key = key'
      · subst hkey
        cases existing (view.remoteDocumentCache.get key) <;> simp [get?_insert]
      · have hother : (match existing (view.remoteDocumentCache.get key') with
            | some doc => docs.insert key' doc
            | none => docs).get? key = docs.get? key := by
          split
          · rw [get?_insert, if_neg hkey]
          · rfl
        simp only [hother, mem_cons, hkey, false_or]
  rw [addMissingBaseDocuments, RemoteDocumentCache.getAll, hfold]
  simp only [Finset.mem_sort, mem_missingDocKeys]
  cases hget : found.get? key with
  | some doc => simp
  | none => simp only [and_true, Option.or_none, Option.none_or]

theorem Keyed.addMissingBaseDocuments (h : Keyed found)
    (view : LocalDocumentsView) (batches : List MutationBatch) :
    Keyed (view.addMissingBaseDocuments batches found) := by
  intro key doc hget
  rw [get?_addMissingBaseDocuments] at hget
  rcases Option.or_eq_some_iff.mp hget with hfound | ⟨-, hmissing⟩
  · exact h key doc hfound
  · split_ifs at hmissing
    exact existing_key _ hmissing

variable {results : DocumentMap}

/-- One mutation changes the document of its key, if that is in the collection. -/
theorem Keyed.applyMutation (h : Keyed results) {mutation : Mutation}
    (happ : mutation.Applicable) (query : Query) (time : Timestamp) :
    ∃ results', applyMutation query time results mutation = .ok results' ∧
      Keyed results' ∧ ∀ key, results'.get? key =
        if mutation.key = key ∧ isImmediateParentOf query.path key.path then
          mutation.localView (results.get? key) (results.get? key) time
        else results.get? key := by
  unfold LocalDocumentsView.applyMutation
  split_ifs with hchild
  · have hkey : ∀ d ∈ (results.get? mutation.key).map MaybeDocument.document,
        d.key = mutation.key := by
      intro d hd
      obtain ⟨doc, hdoc, rfl⟩ := Option.map_eq_some_iff.mp hd
      exact h mutation.key doc hdoc
    obtain ⟨r, hr, hview, hrkey⟩ := Mutation.applyToLocalView_eq happ hkey
      ((results.get? mutation.key).map .document) time
    rw [existing_map_document] at hview
    simp only [hr, ok_bind]
    have hget : ∀ key, (if mutation.key = key ∧ isImmediateParentOf query.path key.path then
        mutation.localView (results.get? key) (results.get? key) time else results.get? key) =
          if key = mutation.key then existing r else results.get? key := by
      intro key
      by_cases heq : mutation.key = key
      · subst heq
        rw [if_pos rfl, if_pos ⟨rfl, hchild⟩, ← hview]
      · rw [if_neg (Ne.symm heq), if_neg fun hand => heq hand.1]
    cases hexisting : existing r with
    | some doc =>
      have hdocKey : doc.key = mutation.key := hrkey _ (existing_eq_some_iff.mp hexisting)
      refine ⟨_, rfl, h.insert hdocKey, fun key => ?_⟩
      rw [get?_insert, hget, hexisting]
      congr
    | none =>
      refine ⟨_, rfl, h.erase mutation.key, fun key => ?_⟩
      rw [get?_erase, hget, hexisting]
      congr
  · refine ⟨results, rfl, h, fun key => ?_⟩
    rw [if_neg]
    rintro ⟨rfl, hkey⟩
    exact hchild hkey

theorem Keyed.applyBatch (h : Keyed results) {mutations : List Mutation}
    (happ : ∀ mutation ∈ mutations, mutation.Applicable) (query : Query) (time : Timestamp) :
    ∃ results', mutations.foldlM (LocalDocumentsView.applyMutation query time) results =
        .ok results' ∧
      Keyed results' ∧ ∀ key, results'.get? key =
        if isImmediateParentOf query.path key.path then
          (ofKey key mutations).foldl
            (fun doc mutation => mutation.localView doc doc time) (results.get? key)
        else results.get? key := by
  induction mutations generalizing results with
  | nil => exact ⟨results, rfl, h, fun key => (ite_self _).symm⟩
  | cons mutation mutations ih =>
    obtain ⟨results₁, hresults₁, hkeyed₁, hget₁⟩ :=
      h.applyMutation (happ mutation mem_cons_self) query time
    obtain ⟨results₂, hresults₂, hkeyed₂, hget₂⟩ :=
      ih hkeyed₁ fun m hm => happ m (mem_cons_of_mem mutation hm)
    refine ⟨results₂, ?_, hkeyed₂, fun key => ?_⟩
    · rw [foldlM_cons, hresults₁, ok_bind, hresults₂]
    · rw [hget₂, hget₁]
      by_cases hchild : isImmediateParentOf query.path key.path
      · by_cases hkey : mutation.key = key
        · simp [hchild, hkey, ofKey]
        · simp [hkey, ofKey]
      · simp [hchild]

theorem Keyed.applyMutations (h : Keyed results)
    (happ : ∀ batch ∈ batches, batch.Applicable) (query : Query) :
    ∃ results', applyMutations query batches results = .ok results' ∧
      Keyed results' ∧ ∀ key, results'.get? key =
        if isImmediateParentOf query.path key.path then
          oneByOne batches key (results.get? key)
        else results.get? key := by
  induction batches generalizing results with
  | nil => exact ⟨results, rfl, h, fun key => (ite_self _).symm⟩
  | cons batch batches ih =>
    obtain ⟨results₁, hresults₁, hkeyed₁, hget₁⟩ :=
      h.applyBatch (happ batch mem_cons_self).2 query batch.localWriteTime
    obtain ⟨results₂, hresults₂, hkeyed₂, hget₂⟩ :=
      ih hkeyed₁ fun b hb => happ b (mem_cons_of_mem batch hb)
    refine ⟨results₂, ?_, hkeyed₂, fun key => ?_⟩
    · rw [LocalDocumentsView.applyMutations, foldlM_cons, hresults₁, ok_bind]
      exact hresults₂
    · rw [hget₂, hget₁]
      split_ifs <;> rfl

theorem filterMatching_eq (hvalid : query.Valid) (unfiltered : DocumentMap) :
    ∃ results, filterMatching query unfiltered = .ok results ∧
      ∀ key, results.get? key = shows query (unfiltered.get? key) := by
  -- A document is kept when every entry of its key matches.
  have hfold : ∀ (entries : List (DocumentKey × Document)) (docs : DocumentMap),
      ∃ results, entries.foldlM (fun results entry => do
          let isMatch ← query.matchesDocument entry.2
          return if isMatch then results else results.erase entry.1) docs = .ok results ∧
        ∀ key doc, results.get? key = some doc ↔ docs.get? key = some doc ∧
          ∀ d, (key, d) ∈ entries → query.matchesDocument d = .ok true := by
    intro entries
    induction entries with
    | nil => exact fun docs => ⟨docs, rfl, fun key doc => by simp⟩
    | cons entry entries ih =>
      intro docs
      obtain ⟨isMatch, hmatch⟩ := hvalid.matchesDocument_ok entry.2
      obtain ⟨results, hresults, hget⟩ := ih (if isMatch then docs else docs.erase entry.1)
      refine ⟨results, ?_, fun key doc => ?_⟩
      · rw [foldlM_cons, hmatch]
        exact hresults
      · obtain ⟨key', doc'⟩ := entry
        rw [hget]
        by_cases hkey : key = key'
        · subst hkey
          cases isMatch with
          | true => simp [hmatch]
          | false => simp [hmatch, get?_erase]
        · cases isMatch with
          | true => simp [hkey]
          | false => simp [hkey, get?_erase]
  obtain ⟨results, hresults, hget⟩ := hfold unfiltered.entries unfiltered
  refine ⟨results, hresults, fun key => Option.ext fun doc => ?_⟩
  rw [hget, shows, Option.filter_eq_some_iff, decide_eq_true_eq]
  simp only [mem_entries]
  refine and_congr_right fun hdoc => ⟨fun h => h doc hdoc, fun h d hd => ?_⟩
  rwa [Option.some.inj (hd.symm.trans hdoc)]

theorem shows_eq_none (hquery : query.IsCollectionQuery) {key : DocumentKey}
    (hchild : ¬ isImmediateParentOf query.path key.path) {doc : Option Document}
    (hkey : ∀ d ∈ doc, d.key = key) : shows query doc = none := by
  rw [shows, Option.filter_eq_none_iff]
  intro d hd
  simp only [decide_eq_true_eq]
  intro hmatches
  exact hchild (hkey d hd ▸ hquery.isImmediateParentOf hmatches)

/-- Batches without a mutation of the key do nothing to it. -/
theorem oneByOne_filter (want : MutationBatch → Bool) {key : DocumentKey}
    (hwant : ∀ batch ∈ batches, batch.touches key → want batch) (doc : Option Document) :
    oneByOne (batches.filter want) key doc = oneByOne batches key doc := by
  induction batches generalizing doc with
  | nil => rfl
  | cons batch batches ih =>
    have hrest := ih (fun b hb => hwant b (mem_cons_of_mem batch hb))
    by_cases hbatch : want batch
    · rw [filter_cons_of_pos hbatch]
      exact hrest _
    · have huntouched : ofKey key batch.mutations = [] := by
        have hnot := fun h => hbatch (hwant batch mem_cons_self h)
        simpa [touches, ofKey] using hnot
      rw [filter_cons_of_neg hbatch, hrest]
      change _ = oneByOne batches key (mutationView key doc batch)
      rw [mutationView, huntouched]
      rfl

theorem patched_filter {want : MutationBatch → Bool} {key : DocumentKey}
    (hwant : ∀ batch ∈ batches, batch.touches key → want batch) :
    patched (batches.filter want) key = patched batches key := by
  rw [Bool.eq_iff_iff]
  simp only [patched, any_eq_true, mem_flatMap, mem_filter, Bool.and_eq_true,
    decide_eq_true_eq]
  constructor
  · rintro ⟨mutation, ⟨batch, ⟨hbatch, -⟩, hmem⟩, hpatch⟩
    exact ⟨mutation, ⟨batch, hbatch, hmem⟩, hpatch⟩
  · rintro ⟨mutation, ⟨batch, hbatch, hmem⟩, hpatch⟩
    exact ⟨mutation, ⟨batch, ⟨hbatch, hwant batch hbatch (touches_iff.mpr
      ⟨mutation, hmem, hpatch.2⟩)⟩, hmem⟩, hpatch⟩

theorem touchesCollection_of_touches (batches : List MutationBatch) {key : DocumentKey}
    (hchild : isImmediateParentOf query.path key.path) :
    ∀ batch ∈ batches, batch.touches key → touchesCollection query.path batch :=
  fun _ _ htouches => touchesCollection_iff.mpr ⟨key, hchild, htouches⟩

/-- A query shows the documents of its collection that it found in the cache or that are patched,
with the pending mutations applied one by one. -/
theorem getDocumentsMatchingCollectionQuery_of_found (hholds : view.mutationQueue.Holds batches)
    (happ : ∀ batch ∈ batches, batch.Applicable) (hquery : query.IsCollectionQuery)
    (hvalid : query.Valid) {sinceReadTime : SnapshotVersion}
    (hfound : view.remoteDocumentCache.getMatching query sinceReadTime = .ok found)
    (hkeyed : Keyed found) :
    ∃ results, view.getDocumentsMatchingCollectionQuery query sinceReadTime = .ok results ∧
      ∀ key, results.get? key =
        if isImmediateParentOf query.path key.path then
          shows query (oneByOne batches key ((found.get? key).or
            (if patched batches key then existing (view.remoteDocumentCache.get key) else none)))
        else none := by
  have hmatching : ∀ batch ∈ batches.filter (touchesCollection query.path), batch.Applicable :=
    fun batch hmem => happ batch (mem_of_mem_filter hmem)
  obtain ⟨results₁, hresults₁, hkeyed₁, hget₁⟩ :=
    (hkeyed.addMissingBaseDocuments view
      (batches.filter (touchesCollection query.path))).applyMutations
      hmatching query
  obtain ⟨results₂, hresults₂, hget₂⟩ := filterMatching_eq hvalid results₁
  refine ⟨results₂, ?_, fun key => ?_⟩
  · rw [getDocumentsMatchingCollectionQuery, hfound, ok_bind,
      hholds.allMutationBatchesAffectingQuery_eq hquery, ok_bind, hresults₁, ok_bind, hresults₂]
  · rw [hget₂]
    by_cases hchild : isImmediateParentOf query.path key.path
    · have hwant := touchesCollection_of_touches batches hchild
      rw [if_pos hchild, hget₁, if_pos hchild, oneByOne_filter _ hwant,
        get?_addMissingBaseDocuments, patched_filter hwant]
    · rw [if_neg hchild]
      exact shows_eq_none hquery hchild (hkeyed₁ key)

/-! ## When querying and reading agree -/

theorem keyed_of_matching {cache : MemoryRemoteDocumentCache} {key : DocumentKey}
    (h : (cache.docs.get? key).bind (MemoryRemoteDocumentCache.matching query) = some doc) :
    existing (cache.get key) = some doc := by
  obtain ⟨entry, hentry, hmatching⟩ := Option.bind_eq_some_iff.mp h
  rw [MemoryRemoteDocumentCache.get, hentry]
  exact (Option.filter_eq_some_iff.mp hmatching).1

/-- What a query without a read time finds, and what it then sees of its collection. -/
theorem getMatching_seen (cache : RemoteDocumentCache) (batches : List MutationBatch)
    (hquery : query.IsCollectionQuery) (hvalid : query.Valid) :
    ∃ found, cache.getMatching query .none = .ok found ∧ Keyed found ∧
      ∀ key, isImmediateParentOf query.path key.path →
        (found.get? key).or (if patched batches key then existing (cache.get key) else none) =
          seen cache query batches key := by
  cases cache with
  | memory cache =>
    obtain ⟨found, hfound, hget⟩ := cache.getMatching_eq hquery hvalid
    refine ⟨found, hfound, fun key doc hdoc => ?_, fun key _ => ?_⟩
    · rw [hget] at hdoc
      exact existing_key (.memory cache) (keyed_of_matching hdoc)
    · rw [hget, seen]
      cases hmatching : (cache.docs.get? key).bind (MemoryRemoteDocumentCache.matching query) with
      | none => exact Option.none_or
      | some doc => simp [keyed_of_matching hmatching]
  | levelDb cache =>
    obtain ⟨found, hfound, hget⟩ := cache.getMatching_eq hquery
    refine ⟨found, hfound, fun key doc hdoc => ?_, fun key hchild => ?_⟩
    · rw [hget] at hdoc
      split_ifs at hdoc
      exact existing_key (.levelDb cache) hdoc
    · rw [hget]
      split_ifs
      · exact Option.or_self
      · exact Option.or_none

/-- Querying the collection shows exactly the documents that reading them one by one shows, with the
same contents. -/
def Agrees (view : LocalDocumentsView) (query : Query) : Prop :=
  ∃ results, view.getDocumentsMatchingCollectionQuery query .none = .ok results ∧
    ∀ key, ∃ document, view.getDocument key = .ok document ∧ results.get? key =
      if isImmediateParentOf query.path key.path then shows query (existing document)
      else none

/-- A batch does the same to a key either way: it has no base mutations of the key, and a transform
only as the first mutation of the key. -/
def Direct (batch : MutationBatch) (key : DocumentKey) : Prop :=
  ofKey key batch.baseMutations = [] ∧
    ∀ mutation ∈ (ofKey key batch.mutations).tail, mutation.isTransform = false

theorem Direct.localView_eq {batch : MutationBatch} {key : DocumentKey} (h : Direct batch key)
    (doc : Option Document) : batch.localView key doc = mutationView key doc batch := by
  obtain ⟨hbase, htail⟩ := h
  rw [localView, baseView, hbase, mutationView]
  cases hmuts : ofKey key batch.mutations with
  | nil => rfl
  | cons mutation mutations =>
    rw [hmuts] at htail
    simp only [foldl_cons]
    refine foldl_ext _ _ _ fun doc' mutation' hmem => ?_
    exact Mutation.localView_congr_base (htail mutation' hmem) _ _ _ _

theorem inBatches_eq_oneByOne {key : DocumentKey} (h : ∀ batch ∈ batches, Direct batch key)
    (doc : Option Document) : inBatches batches key doc = oneByOne batches key doc := by
  rw [← oneByOne_filter (·.touches key) fun _ _ => id]
  refine foldl_ext _ _ _ fun doc' batch hmem => ?_
  exact (h batch (mem_of_mem_filter hmem)).localView_eq doc'

theorem inBatches_of_untouched {key : DocumentKey} (h : ∀ batch ∈ batches, ¬ batch.touches key)
    (doc : Option Document) : inBatches batches key doc = doc := by
  rw [inBatches, filter_eq_nil_iff.mpr h]
  rfl

namespace Counter

def key : DocumentKey := .inCollection [99] [100]

def cached : Document := ⟨[([110], .integer 5)], key, .none, .synced⟩

def addOne : TransformOperation := .increment (.integer 1) rfl

/-- The write of `n += 1`, with the value it started from as its base mutation. -/
def increment : MutationBatch where
  batchId := 1
  localWriteTime := SnapshotVersion.none.timestamp
  baseMutations := [.patch key [([110], .integer 1)] ⟨[[[110]]], by simp⟩ (.exists_ true)]
  mutations := [.transform key [⟨[[110]], addOne⟩]]
  nonempty := by simp

def overwrite : MutationBatch where
  batchId := 1
  localWriteTime := SnapshotVersion.none.timestamp
  baseMutations := []
  mutations := [.set key [([110], .integer 7)] .none]
  nonempty := by simp

def localDocuments (batch : MutationBatch) : LocalDocumentsView where
  remoteDocumentCache := .levelDb
    ⟨OrdMap.empty.insert key (.document cached), .empty, by
      intro key' doc hget
      rw [get?_insert] at hget
      split_ifs at hget with heq
      · rw [← Option.some.inj hget, heq]
        rfl
      · cases hget⟩
  mutationQueue := .levelDb
    ⟨OrdMap.empty.insert batch.batchId batch, batch.batchId + 1, indexBatch .empty batch, [],
      .empty⟩

def collection : Query := .atPath [[99]]

theorem valid : collection.Valid :=
  ⟨_, rfl, by simp [collection, Query.atPath], by simp [collection, Query.atPath]⟩

theorem holds (batch : MutationBatch) : (localDocuments batch).mutationQueue.Holds [batch] := by
  refine LevelDbMutationQueue.Holds.mk rfl (by simp) fun key' id => ?_
  rw [get?_indexBatch]
  simp

end Counter

open Counter

end LocalDocumentsView

end Firebase.Firestore.Local
