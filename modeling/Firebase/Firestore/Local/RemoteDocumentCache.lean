import Firebase.Firestore.Core.Query

/-!
# The remote document cache

The documents that the backend has sent, as `MemoryRemoteDocumentCache`
(`memory_remote_document_cache.cc`) and `LevelDbRemoteDocumentCache`
(`leveldb_remote_document_cache.cc`) keep them.

The two differ in what `GetMatching` returns.  In memory it is the documents that
match the query; in LevelDB it is all documents of the collection, and the caller is
left to match them.  As with the queue, LevelDB is modelled over its rows.
-/

namespace Firebase.Firestore.Local

open Lib Util Model Firestore.Core OrdMap List ResourcePath

abbrev DocumentMap := OrdMap DocumentKey Document

def collect {V W : Type} (entries : List (DocumentKey × V)) (find : V → Hard (Option W)) :
    Hard (OrdMap DocumentKey W) :=
  entries.foldlM (fun results entry => do
    match ← find entry.2 with
    | some found => return results.insert entry.1 found
    | none => return results) .empty

theorem collect_eq {V W : Type} {entries : List (DocumentKey × V)}
    (hsorted : entries.Pairwise fun a b => a.1 < b.1) {find : V → Hard (Option W)}
    {found : DocumentKey → V → Option W}
    (hfind : ∀ entry ∈ entries, find entry.2 = .ok (found entry.1 entry.2)) :
    ∃ results, collect entries find = .ok results ∧ ∀ key, results.get? key =
      (entries.find? (·.1 = key)).bind fun entry => found entry.1 entry.2 := by
  have hfold : ∀ acc : OrdMap DocumentKey W, ∃ results, entries.foldlM (fun results entry => do
        match ← find entry.2 with
        | some found => return results.insert entry.1 found
        | none => return results) acc = .ok results ∧
      ∀ key, results.get? key =
        ((entries.find? (·.1 = key)).bind fun entry => found entry.1 entry.2).or
          (acc.get? key) := by
    induction entries with
    | nil => exact fun acc => ⟨acc, rfl, fun key => rfl⟩
    | cons entry entries ih =>
      intro acc
      obtain ⟨hhead, htail⟩ := pairwise_cons.mp hsorted
      have hrest := ih htail (fun e he => hfind e (mem_cons_of_mem _ he))
      -- The rest of the entries has other keys.
      have hother : entries.find? (·.1 = entry.1) = none :=
        find?_eq_none.mpr fun e he => by simpa using (hhead e he).ne'
      rw [foldlM_cons, hfind entry mem_cons_self]
      cases hentry : found entry.1 entry.2 with
      | none =>
        obtain ⟨results, hresults, hget⟩ := hrest acc
        refine ⟨results, hresults, fun key => ?_⟩
        rw [hget]
        by_cases hkey : entry.1 = key
        · subst hkey
          simp [hother, hentry]
        · rw [find?_cons_of_neg (by simpa using hkey)]
      | some found =>
        obtain ⟨results, hresults, hget⟩ := hrest (acc.insert entry.1 found)
        refine ⟨results, hresults, fun key => ?_⟩
        rw [hget, get?_insert]
        by_cases hkey : entry.1 = key
        · subst hkey
          simp [hother, hentry]
        · rw [find?_cons_of_neg (by simpa using hkey), if_neg (Ne.symm hkey)]
  obtain ⟨results, hresults, hget⟩ := hfold .empty
  refine ⟨results, hresults, fun key => ?_⟩
  rw [hget, get?_empty, Option.or_none]

/-- A scan over a part of a map finds what is in the map, if there is nothing to find in the
rest. -/
theorem collect_part {V W : Type} {m : OrdMap DocumentKey V} {scanned : List (DocumentKey × V)}
    (hsub : scanned.Sublist m.entries) (find : V → Hard (Option W))
    (found : DocumentKey → V → Option W)
    (hfind : ∀ entry ∈ scanned, find entry.2 = .ok (found entry.1 entry.2))
    (hrest : ∀ entry ∈ m.entries, entry ∉ scanned → found entry.1 entry.2 = none) :
    ∃ results, collect scanned find = .ok results ∧
      ∀ key, results.get? key = (m.get? key).bind (found key) := by
  obtain ⟨results, hresults, hget⟩ := collect_eq (m.sorted.sublist hsub) hfind
  refine ⟨results, hresults, fun key => ?_⟩
  rw [hget]
  cases hscanned : scanned.find? (·.1 = key) with
  | some entry =>
    have hmem := hsub.mem (mem_of_find?_eq_some hscanned)
    obtain rfl : entry.1 = key := by simpa using find?_some hscanned
    rw [mem_entries.mp hmem]
    rfl
  | none =>
    cases hkey : m.get? key with
    | none => rfl
    | some value =>
      refine (hrest (key, value) (mem_entries.mpr hkey) fun hmem => ?_).symm
      simpa using find?_eq_none.mp hscanned _ hmem

/-! ## In memory -/

/-- `MemoryRemoteDocumentCache`: documents with the time they were read at. -/
structure MemoryRemoteDocumentCache where
  docs : OrdMap DocumentKey (MaybeDocument × SnapshotVersion)
  /-- `Add` files a document under its own key. -/
  keyed : ∀ key entry, docs.get? key = some entry → entry.1.key = key

variable {key : DocumentKey}

namespace MemoryRemoteDocumentCache

def get (cache : MemoryRemoteDocumentCache) (key : DocumentKey) : Option MaybeDocument :=
  (cache.docs.get? key).map Prod.fst

def findMatching (query : Query) (sinceReadTime : SnapshotVersion)
    (entry : MaybeDocument × SnapshotVersion) : Hard (Option Document) :=
  match entry.1.asDocument with
  | none => .ok none
  | some doc =>
    if entry.2 ≤ sinceReadTime then .ok none
    else do
      let isMatch ← query.matchesDocument doc
      return if isMatch then some doc else none

def getMatching (cache : MemoryRemoteDocumentCache) (query : Query)
    (sinceReadTime : SnapshotVersion) : Hard DocumentMap := do
  hardAssert (!query.isCollectionGroupQuery)
    "CollectionGroup queries should be handled in LocalDocumentsView"
  if hkey : (query.path ++ [[]]).length % 2 = 0 then
    let scanned := (cache.docs.entries.filter fun entry =>
        (⟨query.path ++ [[]], hkey⟩ : DocumentKey) ≤ entry.1).takeWhile
      fun entry => query.path.isPrefixOf entry.1.path
    collect scanned (findMatching query sinceReadTime)
  else .error ⟨"invalid document key path"⟩

def matching (query : Query) (entry : MaybeDocument × SnapshotVersion) : Option Document :=
  entry.1.asDocument.filter fun doc => .none < entry.2 ∧ query.matchesDocument doc = .ok true

variable {query : Query}

theorem findMatching_eq (hvalid : query.Valid) (entry : MaybeDocument × SnapshotVersion) :
    findMatching query .none entry = .ok (matching query entry) := by
  unfold findMatching matching
  cases hdoc : entry.1.asDocument with
  | none => rfl
  | some doc =>
    obtain ⟨isMatch, hmatch⟩ := hvalid.matchesDocument_ok doc
    by_cases htime : entry.2 ≤ .none
    · simp [not_lt.mpr htime]
    · simp only [htime, hmatch, Option.filter_some, not_le.mp htime]
      cases isMatch <;> rfl

theorem matching_eq_none {cache : MemoryRemoteDocumentCache} (hquery : query.IsCollectionQuery)
    (hkey : ¬ isImmediateParentOf query.path key.path)
    {entry : MaybeDocument × SnapshotVersion} (hentry : cache.docs.get? key = some entry) :
    matching query entry = none := by
  rw [matching, Option.filter_eq_none_iff]
  intro doc hdoc
  simp only [decide_eq_true_eq, not_and]
  intro _ hmatches
  have hdocKey : doc.key = key := by
    obtain ⟨maybeDoc, readTime⟩ := entry
    rw [← cache.keyed key _ hentry]
    cases maybeDoc with
    | document d => exact congrArg Document.key (Option.some.inj hdoc).symm
    | noDocument key version hasCommittedMutations => cases hdoc
    | unknownDocument key version => cases hdoc
  exact hkey (hdocKey ▸ hquery.isImmediateParentOf hmatches)

theorem getMatching_eq (cache : MemoryRemoteDocumentCache)
    (hquery : query.IsCollectionQuery) (hvalid : query.Valid) :
    ∃ results, cache.getMatching query .none = .ok results ∧
      ∀ key, results.get? key = (cache.docs.get? key).bind (matching query) := by
  have hdocument : (query.path ++ [[]]).length % 2 = 0 := by
    have hpath := hquery.path
    simp only [length_append, length_singleton]
    omega
  have hscan := scan_filter_eq ((⟨query.path ++ [[]], hdocument⟩) ≤ ·)
    (fun key => query.path.isPrefixOf key.path)
    (fun key => query.path.isImmediateParentOf key.path)
    (fun a ha => DocumentKey.append_empty_le hquery.path
      (isPrefixOf_of_isImmediateParentOf ha))
    (fun a b hs hab hb => isPrefixOf_iff.mpr (isPrefixOf_of_le_of_le
      (isPrefixOf_of_isImmediateParentOf hb)
      ((le_of_isPrefixOf (prefix_append _ _)).trans hs) hab)) cache.docs.sorted
  simp only [Bool.decide_eq_true] at hscan
  rw [getMatching, Query.isCollectionGroupQuery, hquery.collectionGroup]
  simp only [dif_pos hdocument]
  refine collect_part ((takeWhile_sublist _).trans filter_sublist)
    (findMatching query .none) (fun _ => matching query)
    (fun entry _ => findMatching_eq hvalid entry.2) fun entry hentry hscanned => ?_
  -- What the scan leaves out is not in the collection.
  refine matching_eq_none hquery (fun hkey => hscanned ?_) (mem_entries.mp hentry)
  exact mem_of_mem_filter (hscan ▸ mem_filter.mpr ⟨hentry, hkey⟩)

end MemoryRemoteDocumentCache

/-! ## In LevelDB -/

/-- `LevelDbRemoteDocumentCache`: the rows of the documents, and the index of the times they were
read at. -/
structure LevelDbRemoteDocumentCache where
  remoteDocuments : OrdMap DocumentKey MaybeDocument
  readTimes : OrdMap (ResourcePath ×ₗ SnapshotVersion ×ₗ Bytes) Unit
  /-- `DecodeMaybeDocument` asserts that a row has the document of its key. -/
  keyed : ∀ key doc, remoteDocuments.get? key = some doc → doc.key = key

namespace LevelDbRemoteDocumentCache

def get (cache : LevelDbRemoteDocumentCache) (key : DocumentKey) : Option MaybeDocument :=
  cache.remoteDocuments.get? key

variable (cache : LevelDbRemoteDocumentCache)

def keysReadSince (path : ResourcePath) (sinceReadTime : SnapshotVersion) : List ResourcePath :=
  let scanned := (cache.readTimes.entries.filter fun entry =>
      toLex (path, toLex (sinceReadTime, [])) ≤ entry.1).takeWhile
    fun entry => (ofLex entry.1).1 = path
  (scanned.filter fun entry => sinceReadTime < (ofLex (ofLex entry.1).2).1).map
    fun entry => path ++ [(ofLex (ofLex entry.1).2).2]

def getAllExisting (paths : List ResourcePath) : Hard DocumentMap :=
  paths.foldlM (fun results path =>
    if hpath : path.length % 2 = 0 then
      match existing (cache.get ⟨path, hpath⟩) with
      | some doc => .ok (results.insert ⟨path, hpath⟩ doc)
      | none => .ok results
    else .error ⟨"invalid document key path"⟩) .empty

def getMatching (query : Query) (sinceReadTime : SnapshotVersion) : Hard DocumentMap := do
  hardAssert (!query.isCollectionGroupQuery)
    "CollectionGroup queries should be handled in LocalDocumentsView"
  if sinceReadTime ≠ .none then
    cache.getAllExisting (cache.keysReadSince query.path sinceReadTime)
  else
    -- Rows of subcollections are skipped before it is checked whether the scan is out of range.
    let scanned := (cache.remoteDocuments.entries.filter fun entry =>
        query.path ≤ entry.1.path).takeWhile
      fun entry => entry.1.path.length ≠ query.path.length + 1 ∨ query.path.isPrefixOf entry.1.path
    collect (scanned.filter fun entry => entry.1.path.length = query.path.length + 1)
      fun doc => .ok doc.asDocument

theorem getMatching_eq {query : Query} (hquery : query.IsCollectionQuery) :
    ∃ results, cache.getMatching query .none = .ok results ∧
      ∀ key, results.get? key =
        if isImmediateParentOf query.path key.path then existing (cache.get key)
        else none := by
  have hscan := scan_filter_eq (fun key : DocumentKey => query.path ≤ key.path)
    (fun key => key.path.length ≠ query.path.length + 1 ∨ query.path.isPrefixOf key.path)
    (fun key => query.path.isImmediateParentOf key.path)
    (fun a ha => le_of_isPrefixOf (isPrefixOf_of_isImmediateParentOf ha))
    (fun a b hs hab hb => .inr (isPrefixOf_iff.mpr (isPrefixOf_of_le_of_le
      (isPrefixOf_of_isImmediateParentOf hb) hs hab))) cache.remoteDocuments.sorted
  -- Rows of the right length that the scan does not stop at are in the collection.
  have hrows : ((cache.remoteDocuments.entries.filter fun entry =>
        query.path ≤ entry.1.path).takeWhile fun entry =>
          entry.1.path.length ≠ query.path.length + 1 ∨
            query.path.isPrefixOf entry.1.path).filter
          (fun entry => entry.1.path.length = query.path.length + 1) =
      cache.remoteDocuments.entries.filter fun entry =>
        query.path.isImmediateParentOf entry.1.path := by
    simp only [Bool.decide_eq_true] at hscan
    rw [← hscan]
    refine filter_congr fun entry hentry => ?_
    have hwithin := mem_takeWhile_imp hentry
    simp only [decide_eq_true_eq] at hwithin
    rw [Bool.eq_iff_iff, decide_eq_true_eq, isImmediateParentOf_iff_isPrefixOf]
    exact ⟨fun hlength => ⟨hwithin.resolve_left (not_not.mpr hlength), hlength⟩, And.right⟩
  rw [getMatching, Query.isCollectionGroupQuery, hquery.collectionGroup]
  simp only [ne_eq]
  rw [hrows]
  obtain ⟨results, hresults, hget⟩ := collect_part (m := cache.remoteDocuments)
    filter_sublist (fun doc => .ok doc.asDocument) (fun key doc =>
      if isImmediateParentOf query.path key.path then doc.asDocument else none)
    (fun entry hentry => by rw [if_pos (mem_filter.mp hentry).2])
    (fun entry hentry hrow =>
      if_neg fun hkey => hrow (mem_filter.mpr ⟨hentry, hkey⟩))
  refine ⟨results, hresults, fun key => ?_⟩
  rw [hget, get]
  split_ifs
  · rfl
  · exact Option.bind_fun_none _

end LevelDbRemoteDocumentCache

/-! ## Either cache -/

inductive RemoteDocumentCache where
  | memory (cache : MemoryRemoteDocumentCache)
  | levelDb (cache : LevelDbRemoteDocumentCache)

namespace RemoteDocumentCache

def get : RemoteDocumentCache → DocumentKey → Option MaybeDocument
  | memory cache, key => cache.get key
  | levelDb cache, key => cache.get key

def getAll (cache : RemoteDocumentCache) (keys : DocumentKeySet) :
    List (DocumentKey × Option MaybeDocument) :=
  keys.sort.map fun key => (key, cache.get key)

def getMatching : RemoteDocumentCache → Query → SnapshotVersion → Hard DocumentMap
  | memory cache, query, sinceReadTime => cache.getMatching query sinceReadTime
  | levelDb cache, query, sinceReadTime => cache.getMatching query sinceReadTime

theorem key_of_get {cache : RemoteDocumentCache} {doc : MaybeDocument}
    (h : cache.get key = some doc) : doc.key = key := by
  match cache, h with
  | memory cache, h =>
    obtain ⟨entry, hentry, rfl⟩ := Option.map_eq_some_iff.mp h
    exact cache.keyed key entry hentry
  | levelDb cache, h => exact cache.keyed key doc h

end RemoteDocumentCache

end Firebase.Firestore.Local
