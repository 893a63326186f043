import Firebase.Lib.Simulation
import Firebase.Lib.Window
import Firebase.Firestore.Core.ViewSnapshots

/-!
# Views show the local documents

The abstract meaning of a view is `LocalDocuments.results`, all local documents that match the
query, in order, and `Query.window`, what a limit leaves of them; a view *shows* the local documents
when its documents are these, up to versions and states (`View.Shows`).

A set counts its documents in 31 bits, and a view compares this size with the limit.  All
of it is for fewer documents than that (`Fits`).
-/

namespace Firebase.Firestore.Core

open Lib Util Model Remote OrdMap List Option

/-! ## Local documents -/

structure LocalDocuments where
  documents : OrdMap DocumentKey MaybeDocument
  key_eq {key : DocumentKey} {doc : MaybeDocument} : documents.get? key = some doc → doc.key = key

namespace LocalDocuments

def update (localDocs changes : LocalDocuments) : LocalDocuments where
  documents := changes.documents.onto localDocs.documents
  key_eq := by
    intro key doc hget
    rw [get?_onto, or_eq_some_iff] at hget
    rcases hget with hget | ⟨-, hget⟩
    · exact changes.key_eq hget
    · exact localDocs.key_eq hget

section

variable (localDocs : LocalDocuments)

def matching (query : Query) (key : DocumentKey) : Option Document :=
  (existing (localDocs.documents.get? key)).filter fun doc =>
    query.matchesDocument doc = .ok true

/-- The documents that match the query, as a query of the local store gives them. -/
def matchingDocuments (query : Query) : OrdMap DocumentKey MaybeDocument :=
  localDocs.documents.filterKeys fun key => (localDocs.matching query key).isSome

def results (query : Query) (ordering : List OrderBy) : List Document :=
  sortBy (order ordering)
    (localDocs.documents.entries.filterMap fun entry => localDocs.matching query entry.1)

end

section

variable {localDocs changes : LocalDocuments} {query : Query} {key : DocumentKey}
  {doc : Document}

theorem matching_eq_some : localDocs.matching query key = some doc ↔
    localDocs.documents.get? key = some (.document doc) ∧
      query.matchesDocument doc = .ok true := by
  rw [matching, filter_eq_some_iff, decide_eq_true_iff]
  refine and_congr_left fun _ => ?_
  cases localDocs.documents.get? key with
  | none => simp
  | some maybeDoc => cases maybeDoc <;> simp [MaybeDocument.asDocument]

theorem key_eq_of_matching (h : localDocs.matching query key = some doc) : doc.key = key :=
  localDocs.key_eq (matching_eq_some.mp h).1

theorem matching_update_of_none (h : changes.documents.get? key = none) :
    (localDocs.update changes).matching query key = localDocs.matching query key := by
  rw [matching, update, get?_onto, h]
  rfl

theorem matching_update_of_some {maybeDoc : MaybeDocument}
    (h : changes.documents.get? key = some maybeDoc) :
    (localDocs.update changes).matching query key =
      maybeDoc.asDocument.filter fun doc => query.matchesDocument doc = .ok true := by
  rw [matching, update, get?_onto, h]
  rfl

theorem get?_matchingDocuments : (localDocs.matchingDocuments query).get? key =
    (localDocs.matching query key).map .document := by
  rw [matchingDocuments, get?_filterKeys]
  cases hmatch : localDocs.matching query key with
  | none => rfl
  | some doc => exact (matching_eq_some.mp hmatch).1

theorem ascending_results (localDocs : LocalDocuments) (query : Query)
    (ordering : List OrderBy) : Ascending (order ordering) (localDocs.results query ordering) :=
  ascending_sortBy _

variable {ordering : List OrderBy}

theorem mem_results (hordering : query.orderBys = .ok ordering) :
    doc ∈ localDocs.results query ordering ↔
      localDocs.matching query doc.key = some doc := by
  have hne : (localDocs.documents.entries.filterMap fun entry =>
      localDocs.matching query entry.1).Pairwise fun a b => order ordering a b ≠ .eq := by
    rw [pairwise_filterMap]
    refine localDocs.documents.sorted.imp ?_
    intro entry entry' hlt doc hdoc doc' hdoc' heq
    have hkey := (Query.orders_comparator hordering).key_eq heq
    rw [key_eq_of_matching hdoc, key_eq_of_matching hdoc'] at hkey
    exact hlt.ne hkey
  rw [results, mem_sortBy hne, mem_filterMap]
  constructor
  · rintro ⟨⟨key, maybeDoc⟩, -, hmatch⟩
    rwa [key_eq_of_matching hmatch]
  · intro hmatch
    exact ⟨_, mem_entries.mpr (matching_eq_some.mp hmatch).1, hmatch⟩

end

end LocalDocuments

open LocalDocuments

/-! ## What a view is for -/

def Query.window (query : Query) (docs : List Document) : List Document :=
  if query.hasLimitToFirst then docs.take query.limitSize
  else if query.hasLimitToLast then docs.rtake query.limitSize
  else docs

def Fits (docs : List Document) : Prop := docs.length < 2 ^ 31

variable {query : Query} {docs : List Document}

theorem Query.trim_subset (query : Query) (docs : List Document) : query.trim docs ⊆ docs := by
  unfold Query.trim
  split_ifs
  · exact take_subset _ _
  · exact drop_subset _ _
  · exact List.Subset.refl _

/-- Dropping documents does to related documents the same. -/
theorem Query.forall₂_trim (query : Query) {docs docs' : List Document}
    (h : List.Forall₂ SameData docs docs') :
    List.Forall₂ SameData (query.trim docs) (query.trim docs') := by
  rw [trim, trim, h.length_eq]
  split_ifs
  · exact forall₂_take _ h
  · exact forall₂_drop _ h
  · exact h

/-- The documents of the view are the local documents that match its query, up to versions and
states, and as far as its limit goes. -/
def View.Shows (view : View) (ordering : List OrderBy) (localDocs : LocalDocuments) : Prop :=
  List.Forall₂ SameData view.documentSet.sortedSet
    (view.query.window (localDocs.results view.query ordering))

/-! ## A pass over all documents that match -/

namespace View

variable {view : View} {ordering : List OrderBy} {localDocs : LocalDocuments}
  {key : DocumentKey} {maybeDoc : MaybeDocument}

/-- Whether a document matches a valid query is known without aborting. -/
theorem newDocument_eq (hvalid : view.query.Valid) (hkey : maybeDoc.key = key) :
    view.newDocument key maybeDoc =
      .ok (maybeDoc.asDocument.filter fun doc => view.query.matchesDocument doc = .ok true) := by
  unfold newDocument
  cases maybeDoc with
  | document doc =>
    obtain rfl := hkey
    obtain ⟨matched, hmatched⟩ := hvalid.matchesDocument_ok doc
    rw [MaybeDocument.asDocument_document]
    dsimp only
    rw [MaybeDocument.key_document, beq_self_eq_true, hardAssert_true, hmatched]
    rw [filter_some, hmatched]
    cases matched <;> rfl
  | noDocument | unknownDocument => rfl

theorem newDocument_update (hvalid : view.query.Valid) {changes : LocalDocuments}
    (hget : changes.documents.get? key = some maybeDoc) : view.newDocument key maybeDoc =
      .ok ((localDocs.update changes).matching view.query key) := by
  rw [matching_update_of_some hget, newDocument_eq hvalid (changes.key_eq hget)]

/-- Sets with the same documents as the local ones show all of them. -/
theorem forall₂_results {query : Query} (hordering : query.orderBys = .ok ordering)
    {set : DocumentSet} (hset : set.Sorted (order ordering) (HasFields ordering))
    (h : ∀ key, Option.Rel SameData (set.getDocument key) (localDocs.matching query key)) :
    List.Forall₂ SameData set.sortedSet (localDocs.results query ordering) := by
  refine hset.ascending.forall₂ (localDocs.ascending_results _ _) order_congr ?_ ?_
  · intro doc hdoc
    have hrel := h doc.key
    rw [DocumentSet.getDocument, hset.mem_iff.mp hdoc] at hrel
    generalize hmatch : localDocs.matching query doc.key = x at hrel
    cases hrel with
    | some hsame =>
      refine ⟨_, (mem_results hordering).mpr ?_, hsame⟩
      rwa [key_eq_of_matching hmatch]
  · intro doc hdoc
    have hrel := h doc.key
    rw [(mem_results hordering).mp hdoc] at hrel
    generalize hget : set.getDocument doc.key = x at hrel
    cases hrel with
    | some hsame => exact ⟨_, hset.mem_of_get? hget, hsame⟩

theorem newDocument_matching (hvalid : view.query.Valid)
    (hget : (localDocs.matchingDocuments view.query).get? key = some maybeDoc) :
    ∃ doc, localDocs.matching view.query key = some doc ∧
      view.newDocument key maybeDoc = .ok (some doc) := by
  rw [get?_matchingDocuments] at hget
  obtain ⟨doc, hmatch, rfl⟩ := map_eq_some_iff.mp hget
  have hkey : (MaybeDocument.document doc).key = key :=
    key_eq_of_matching hmatch
  refine ⟨doc, hmatch, ?_⟩
  rw [newDocument_eq hvalid hkey, MaybeDocument.asDocument_document, filter_some,
    if_pos (decide_eq_true (matching_eq_some.mp hmatch).2)]

/-- The document is the local one up to version and state, or waits for the local one to come from
the server. -/
def UpToDate (query : Query) (localDocs : LocalDocuments) (doc : Document) : Prop :=
  ∃ doc', localDocs.matching query doc.key = some doc' ∧
    (SameData doc doc' ∨ shouldWaitForSyncedDocument doc' doc)

variable {docChanges : OrdMap DocumentKey MaybeDocument} {start looped : ViewDocumentChanges}

/-- The loop leaves documents that are up to date. -/
theorem Looped.upToDate (hlooped : view.Looped ordering docChanges start looped)
    (hstart : start.documentSet.Sorted (order ordering) (HasFields ordering))
    (hnew : ∀ {key maybeDoc}, docChanges.get? key = some maybeDoc →
      view.newDocument key maybeDoc = .ok (localDocs.matching view.query key))
    (hold : ∀ doc ∈ start.documentSet.sortedSet, docChanges.get? doc.key = none →
      UpToDate view.query localDocs doc) :
    ∀ doc ∈ view.query.trim looped.documentSet.sortedSet,
      UpToDate view.query localDocs doc := by
  intro doc hdoc
  have hget : looped.documentSet.getDocument doc.key = some doc :=
    hlooped.sorted.mem_iff.mp (view.query.trim_subset _ hdoc)
  cases hchange : docChanges.get? doc.key with
  | none =>
    rw [hlooped.getDocument_eq hchange] at hget
    exact hold doc (hstart.mem_of_get? hget) hchange
  | some maybeDoc =>
    rcases hlooped.follows hchange (hnew hchange) with hrel | ⟨old, new, hold, hnew, hwait, hresult⟩
    · rw [hget] at hrel
      generalize hmatch : localDocs.matching view.query doc.key = newDoc at hrel
      cases hrel with
      | some hsame => exact ⟨_, hmatch, .inl hsame⟩
    · rw [hget, hold] at hresult
      cases hresult
      exact ⟨new, hnew, .inr hwait⟩

/-- A pass over all documents that match asks for nothing. -/
theorem computeDocumentChanges_upToDate (hview : view.WellFormed ordering)
    (hvalid : view.query.Valid) {previousChanges : Option ViewDocumentChanges}
    (hprevious : ∀ changes ∈ previousChanges, changes.Tracks ordering view)
    (hknown : ∀ doc ∈ (view.startChanges previousChanges).documentSet.sortedSet,
      UpToDate view.query localDocs doc) :
    ∃ looped changes, view.Looped ordering (localDocs.matchingDocuments view.query)
        (view.startChanges previousChanges) looped ∧
      view.computeDocumentChanges (localDocs.matchingDocuments view.query)
        previousChanges = .ok changes ∧ changes.Tracks ordering view ∧
      changes.needsRefill = false ∧
      changes.documentSet.sortedSet = view.query.trim looped.documentSet.sortedSet := by
  have hstart := startChanges_tracks hview hprevious
  have hnew : ∀ entry ∈ (localDocs.matchingDocuments view.query).entries,
      ∃ newDoc, view.newDocument entry.1 entry.2 = .ok newDoc := by
    rintro ⟨key, maybeDoc⟩ hmem
    obtain ⟨doc, -, hnewDoc⟩ := newDocument_matching hvalid (mem_entries.mp hmem)
    exact ⟨some doc, hnewDoc⟩
  obtain ⟨looped, final, hlooped, hfinal, hrefill, htrim, heq⟩ :=
    computeDocumentChanges_ok hview hprevious hnew
  have hneeds : looped.needsRefill = false := by
    rw [Bool.eq_false_iff, ne_eq, hlooped.needsRefill_iff]
    rintro ⟨key, maybeDoc, newDoc, hget, hnewDoc, hasks⟩
    obtain ⟨doc, hmatch, hnewDoc'⟩ := newDocument_matching hvalid hget
    obtain rfl := Except.ok.inj (hnewDoc'.symm.trans hnewDoc)
    cases hold : (view.startChanges previousChanges).documentSet.getDocument key with
    | none =>
      rw [hold] at hasks
      cases hasks
    | some old =>
      obtain ⟨doc', hmatch', hcase⟩ := hknown old (hstart.sorted.mem_of_get? hold)
      rw [hstart.sorted.key_eq hold] at hmatch'
      obtain rfl := some.inj (hmatch.symm.trans hmatch')
      rw [hold, asksForRefill] at hasks
      rcases hcase with hsame | hwait
      · rw [hsame.2] at hasks
        cases hasks
      · rw [hwait, Bool.not_true, Bool.and_false] at hasks
        cases hasks
  rw [hneeds] at hrefill
  rw [hrefill] at heq
  exact ⟨looped, final, hlooped, heq, hfinal, hrefill, htrim⟩

/-- The changes when the view goes through all documents that match its query: the documents that
it has are among them, and there is nothing to ask for. -/
theorem computeDocumentChanges_matching (localDocs : LocalDocuments)
    (hview : view.WellFormed ordering) (hvalid : view.query.Valid)
    {previousChanges : Option ViewDocumentChanges}
    (hprevious : ∀ changes ∈ previousChanges, changes.Tracks ordering view)
    (hknown : ∀ doc ∈ (view.startChanges previousChanges).documentSet.sortedSet,
      ∃ doc' ∈ localDocs.results view.query ordering, SameData doc doc') :
    ∃ changes, view.computeDocumentChanges (localDocs.matchingDocuments view.query)
        previousChanges = .ok changes ∧
      changes.Tracks ordering view ∧ changes.needsRefill = false ∧
      List.Forall₂ SameData changes.documentSet.sortedSet
        (view.query.trim (localDocs.results view.query ordering)) := by
  have hstart := startChanges_tracks hview hprevious
  -- A document that the set has is up to date.
  have hsame : ∀ doc ∈ (view.startChanges previousChanges).documentSet.sortedSet,
      ∃ doc', localDocs.matching view.query doc.key = some doc' ∧ SameData doc doc' := by
    intro doc hdoc
    obtain ⟨doc', hmem, hdoc'⟩ := hknown doc hdoc
    refine ⟨doc', ?_, hdoc'⟩
    rw [hdoc'.1, (mem_results hview.orderBys_eq).mp hmem]
  obtain ⟨looped, final, hlooped, heq, hfinal, hrefill, htrim⟩ :=
    computeDocumentChanges_upToDate hview hvalid hprevious fun doc hdoc => by
      obtain ⟨doc', hmatch, hdoc'⟩ := hsame doc hdoc
      exact ⟨doc', hmatch, .inl hdoc'⟩
  have hrel : ∀ key, Option.Rel SameData (looped.documentSet.getDocument key)
      (localDocs.matching view.query key) := by
    intro key
    cases hget : (localDocs.matchingDocuments view.query).get? key with
    | none =>
      rw [hlooped.getDocument_eq hget]
      rw [get?_matchingDocuments, map_eq_none_iff] at hget
      cases hold : (view.startChanges previousChanges).documentSet.getDocument key with
      | none =>
        rw [hget]
        exact .none
      | some doc =>
        obtain ⟨doc', hmatch, -⟩ := hsame doc (hstart.sorted.mem_of_get? hold)
        rw [hstart.sorted.key_eq hold, hget] at hmatch
        cases hmatch
    | some maybeDoc =>
      obtain ⟨doc, hmatch, hnewDoc⟩ := newDocument_matching hvalid hget
      rw [hmatch]
      rcases hlooped.follows hget hnewDoc with hrel | ⟨old, new, hold, hnew, -, hresult⟩
      · exact hrel
      · obtain ⟨doc', hmatch', hdoc'⟩ := hsame old (hstart.sorted.mem_of_get? hold)
        rw [hstart.sorted.key_eq hold, hmatch] at hmatch'
        cases hmatch'
        rw [hresult, hold]
        exact .some hdoc'
  refine ⟨final, heq, hfinal, hrefill, ?_⟩
  rw [htrim]
  exact view.query.forall₂_trim (forall₂_results hview.orderBys_eq hlooped.sorted hrel)

/-! ## A pass over changes -/

/-- No update of a document waits for the server. -/
def NothingSuppressed (view : View) (changes : LocalDocuments) : Prop :=
  ∀ {key : DocumentKey} {oldDoc newDoc : Document},
    changes.documents.get? key = some (.document newDoc) →
    view.query.matchesDocument newDoc = .ok true →
    view.documentSet.getDocument key = some oldDoc → ¬ oldDoc.data.equals newDoc.data →
    ¬ shouldWaitForSyncedDocument newDoc oldDoc

variable {changes : LocalDocuments}

theorem NothingSuppressed.of_matching (h : view.NothingSuppressed changes)
    {oldDoc newDoc : Document} (hget : changes.documents.get? key = some maybeDoc)
    (hnew : (localDocs.update changes).matching view.query key = some newDoc)
    (hold : view.documentSet.getDocument key = some oldDoc)
    (hdata : ¬ oldDoc.data.equals newDoc.data) : ¬ shouldWaitForSyncedDocument newDoc oldDoc := by
  obtain ⟨hlocal, hmatches⟩ := matching_eq_some.mp hnew
  rw [LocalDocuments.update, get?_onto, hget] at hlocal
  exact h (hget.trans hlocal) hmatches hold hdata

section

variable (localDocs : LocalDocuments) (hview : view.WellFormed ordering)
  (hvalid : view.query.Valid) (hfree : view.NothingSuppressed changes)
  (hlooped : view.Looped ordering changes.documents (view.startChanges none) looped)

include hview hvalid hfree hlooped

/-- After the loop the documents are known that have changed. -/
theorem Looped.known :
    Changes Document.key SameData (fun key => (changes.documents.get? key).isSome)
      view.documentSet.sortedSet (localDocs.results view.query ordering)
      looped.documentSet.sortedSet
      ((localDocs.update changes).results view.query ordering) := by
  have hmem {l : LocalDocuments} {doc : Document} :
      doc ∈ l.results view.query ordering ↔ l.matching view.query doc.key = some doc :=
    mem_results hview.orderBys_eq
  have hrel : ∀ {key maybeDoc}, changes.documents.get? key = some maybeDoc →
      Option.Rel SameData (looped.documentSet.getDocument key)
        ((localDocs.update changes).matching view.query key) := by
    intro key maybeDoc hget
    rcases hlooped.follows hget (newDocument_update hvalid hget) with
      hrel | ⟨old, new, hold, hnew, hwait, hresult⟩
    · exact hrel
    · rw [hresult, hold, hnew]
      refine .some ⟨?_, ?_⟩
      · rw [hview.sorted.key_eq hold, key_eq_of_matching hnew]
      · by_contra hdata
        exact hfree.of_matching hget hnew hold hdata hwait
  constructor
  · intro doc hunchanged
    rw [not_isSome_iff_eq_none] at hunchanged
    rw [hlooped.sorted.mem_iff, hview.sorted.mem_iff]
    exact iff_of_eq (congrArg (· = some doc) (hlooped.getDocument_eq hunchanged))
  · intro doc hunchanged
    rw [not_isSome_iff_eq_none] at hunchanged
    rw [hmem, hmem, matching_update_of_none hunchanged]
  · intro doc hdoc hchanged
    obtain ⟨maybeDoc, hget⟩ := isSome_iff_exists.mp hchanged
    have h := hrel hget
    rw [DocumentSet.getDocument, hlooped.sorted.mem_iff.mp hdoc] at h
    generalize hmatch : (localDocs.update changes).matching view.query doc.key = x at h
    cases h with
    | some hsame =>
      refine ⟨_, hmem.mpr ?_, hsame⟩
      rwa [key_eq_of_matching hmatch]
  · intro doc hdoc hchanged
    obtain ⟨maybeDoc, hget⟩ := isSome_iff_exists.mp hchanged
    have h := hrel hget
    rw [hmem.mp hdoc] at h
    generalize hold : looped.documentSet.getDocument doc.key = x at h
    cases h with
    | some hsame => exact ⟨_, hlooped.sorted.mem_of_get? hold, hsame⟩

/-- When no refill is asked for, the documents of a full limit have not been lost or moved beyond
its edge. -/
theorem Looped.kept (hneeds : looped.needsRefill = false) {last first : Option Document}
    (hlast : lastDocInLimit view.query view.documentSet = last)
    (hfirst : firstDocInLimit view.query view.documentSet = first)
    (hfull : last.isSome || first.isSome) {doc : Document} (hdoc : doc ∈ view.documentSet.sortedSet)
    (hchanged : (changes.documents.get? doc.key).isSome) :
    ∃ doc' ∈ (localDocs.update changes).results view.query ordering, doc'.key = doc.key ∧
      (SameData doc doc' ∨ (∀ edge ∈ last, order ordering doc' edge ≠ .gt) ∧
        ∀ edge ∈ first, order ordering doc' edge ≠ .lt) := by
  obtain ⟨maybeDoc, hget⟩ := isSome_iff_exists.mp hchanged
  have hold : view.documentSet.getDocument doc.key = some doc := hview.sorted.mem_iff.mp hdoc
  have hasks : ¬ asksForRefill ordering last first (some doc)
      ((localDocs.update changes).matching view.query doc.key) := by
    intro hasks
    rw [← hold, ← hlast, ← hfirst] at hasks
    exact Bool.eq_false_iff.mp hneeds (hlooped.needsRefill_iff.mpr
      ⟨doc.key, maybeDoc, _, hget, newDocument_update hvalid hget, hasks⟩)
  cases hmatch : (localDocs.update changes).matching view.query doc.key with
  | none =>
    rw [hmatch] at hasks
    exact absurd hfull hasks
  | some doc' =>
    have hkey := key_eq_of_matching hmatch
    refine ⟨doc', (mem_results hview.orderBys_eq).mpr (hkey ▸ hmatch), hkey, ?_⟩
    rw [or_iff_not_imp_left]
    intro hsame
    have hdata : ¬ doc.data.equals doc'.data := fun hdata => hsame ⟨hkey.symm, hdata⟩
    have hwait := hfree.of_matching hget hmatch hold hdata
    rw [hmatch, asksForRefill, Bool.eq_false_iff.mpr hdata, Bool.eq_false_iff.mpr hwait] at hasks
    simp only [Bool.not_false, Bool.true_and, Bool.or_eq_true, not_or] at hasks
    refine ⟨fun edge hedge hgt => hasks.1 ?_, fun edge hedge hlt => hasks.2 ?_⟩
    · rw [mem_def.mp hedge, any_some, hgt, beq_self_eq_true]
    · rw [mem_def.mp hedge, any_some, hlt, beq_self_eq_true]

end

section

theorem nodup_keys {set : DocumentSet} (hset : set.Sorted (order ordering) (HasFields ordering)) :
    (set.sortedSet.map Document.key).Nodup := by
  refine List.Nodup.map_on (fun doc hdoc doc' hdoc' hkey => ?_)
    (hset.ascending.imp Ascending.ne_of_lt)
  have hget := hset.mem_iff.mp hdoc
  rw [hkey, hset.mem_iff.mp hdoc'] at hget
  exact (some.inj hget).symm

variable (hview : view.WellFormed ordering)

include hview

section

variable (hvalid : view.query.Valid)

include hvalid

section

variable (hshows : view.Shows ordering localDocs) (hfree : view.NothingSuppressed changes)
  (hlooped : view.Looped ordering changes.documents (view.startChanges none) looped)

include hshows hfree hlooped

end

/-- The changes of a view are those of a first pass, or those of a refill. -/
theorem updateDocuments_cases (changes : LocalDocuments)
    (queryResult : OrdMap DocumentKey MaybeDocument) :
    ∃ looped final, view.Looped ordering changes.documents (view.startChanges none) looped ∧
      final.Tracks ordering view ∧ final.needsRefill = looped.needsRefill ∧
      final.documentSet.sortedSet = view.query.trim looped.documentSet.sortedSet ∧
      view.updateDocuments changes.documents queryResult = if looped.needsRefill then
        view.computeDocumentChanges queryResult (some final) else .ok final := by
  have hnew : ∀ entry ∈ changes.documents.entries,
      ∃ newDoc, view.newDocument entry.1 entry.2 = .ok newDoc := fun entry hmem =>
    ⟨_, newDocument_eq hvalid (changes.key_eq (mem_entries.mp hmem))⟩
  obtain ⟨looped, final, hlooped, hfinal, hrefill, htrim, heq⟩ :=
    computeDocumentChanges_ok hview (show ∀ changes ∈ none, _ by simp) hnew
  refine ⟨looped, final, hlooped, hfinal, hrefill, htrim, ?_⟩
  rw [isNone_none, Bool.or_true, hardAssert_true, ok_bind] at heq
  rw [updateDocuments, heq, pure_bind, hrefill]
  rfl

/-- The changes of a view whose documents are up to date. -/
theorem updateDocuments_upToDate
    (hknown : ∀ doc ∈ view.documentSet.sortedSet, UpToDate view.query localDocs doc)
    (changes : LocalDocuments) : ∃ docChanges, view.updateDocuments changes.documents
        ((localDocs.update changes).matchingDocuments view.query) = .ok docChanges ∧
      docChanges.Tracks ordering view ∧ docChanges.needsRefill = false ∧
      ∀ doc ∈ docChanges.documentSet.sortedSet,
        UpToDate view.query (localDocs.update changes) doc := by
  obtain ⟨looped, final, hlooped, hfinal, hrefill, htrim, heq⟩ := updateDocuments_cases hview hvalid
    changes ((localDocs.update changes).matchingDocuments view.query)
  have hupToDate := hlooped.upToDate hview.sorted (newDocument_update hvalid)
    fun doc hdoc hchange => by
      rw [UpToDate, matching_update_of_none hchange]
      exact hknown doc hdoc
  rw [← htrim] at hupToDate
  rw [heq]
  split_ifs with hneeds
  · obtain ⟨looped, final', hlooped, heq, hfinal', hrefill, htrim⟩ :=
      computeDocumentChanges_upToDate hview hvalid
        (fun _ hprevious => some.inj hprevious ▸ hfinal) hupToDate
    refine ⟨final', heq, hfinal', hrefill, ?_⟩
    rw [htrim]
    refine hlooped.upToDate hfinal.sorted (fun {key maybeDoc} hget => ?_)
      fun doc hdoc _ => hupToDate doc hdoc
    obtain ⟨doc, hmatch, hnewDoc⟩ := newDocument_matching hvalid hget
    rw [hnewDoc, hmatch]
  · exact ⟨final, rfl, hfinal, hrefill.trans (Bool.eq_false_iff.mpr hneeds), hupToDate⟩

end

end

end View

end Firebase.Firestore.Core
