import Firebase.Firestore.Core.ViewWindow

/-!
# Views over whole runs

A view from the moment on that it is made: `SyncEngine` fills it with the documents that match its
query, and then hands it every change of local documents, with a change of its target if there is
one.
-/

namespace Firebase.Firestore.Core

open Lib Util Model Remote OrdMap List

variable {docs : List Document}

namespace LocalDocuments

def ofDocuments (docs : List Document) : LocalDocuments where
  documents := docs.foldr (fun doc m => m.insert doc.key (.document doc)) .empty
  key_eq := by
    induction docs with
    | nil => exact nofun
    | cons doc docs ih =>
      intro key doc' hget
      rw [foldr_cons, get?_insert] at hget
      split_ifs at hget with hkey
      · rw [← Option.some.inj hget, hkey]
        rfl
      · exact ih hget

end LocalDocuments

structure ViewSession where
  view : View
  localDocuments : LocalDocuments

/-- Changes of local documents, and of the target of the view. -/
structure LocalChange where
  documents : LocalDocuments
  targetChange : Option TargetChange

def createSynthesizedTargetChange (current : Bool) : TargetChange := ⟨[], current, ∅, ∅, ∅⟩

namespace ViewSession

/-- `SyncEngine::InitializeViewAndComputeSnapshot`, with the sync state of a view on the same
target. -/
def start (query : Query) (remoteKeys : DocumentKeySet) (localDocuments : LocalDocuments)
    (mirrorSynced : Option Bool) : Hard (ViewSession × ViewChange) := do
  let view ← View.make query remoteKeys
  let viewDocChanges ← view.computeDocumentChanges (localDocuments.matchingDocuments query) none
  let (view, viewChange) ← view.applyChanges viewDocChanges
    (mirrorSynced.map createSynthesizedTargetChange)
  return (⟨view, localDocuments⟩, viewChange)

/-- What `EmitNewSnapshotsAndNotifyLocalStore` does with the view. -/
def receive (s : ViewSession) (change : LocalChange) : Hard (ViewSession × ViewChange) := do
  let localDocuments := s.localDocuments.update change.documents
  let viewDocChanges ← s.view.updateDocuments change.documents.documents
    (localDocuments.matchingDocuments s.view.query)
  let (view, viewChange) ← s.view.applyChanges viewDocChanges change.targetChange
  return (⟨view, localDocuments⟩, viewChange)

def Shows (ordering : List OrderBy) (s : ViewSession) : Prop :=
  s.view.Shows ordering s.localDocuments

def NothingSuppressed (s : ViewSession) (change : LocalChange) : Prop :=
  s.view.NothingSuppressed change.documents

variable {ordering : List OrderBy} {s : ViewSession} {change : LocalChange}

/-- The view after it was made. -/
theorem start_ok {query : Query} (hvalid : query.Valid) (hordering : query.orderBys = .ok ordering)
    (remoteKeys : DocumentKeySet) (localDocuments : LocalDocuments) (mirrorSynced : Option Bool) :
    ∃ s viewChange, start query remoteKeys localDocuments mirrorSynced = .ok (s, viewChange) ∧
      s.view.WellFormed ordering ∧ s.view.query = query ∧ s.localDocuments = localDocuments ∧
      List.Forall₂ SameData s.view.documentSet.sortedSet
        (s.view.query.trim (localDocuments.results s.view.query ordering)) := by
  have hmake : View.make query remoteKeys = .ok
      { query, documentSet := .empty (compareBy ordering), syncedDocuments := remoteKeys } := by
    rw [View.make, Query.comparator_eq hordering]
    rfl
  have hview := View.make_wellFormed hordering hmake
  obtain ⟨changes, hok, hdiff, hneeds, htrim⟩ := View.computeDocumentChanges_matching
    localDocuments hview hvalid (show ∀ changes ∈ none, _ by simp) fun doc hmem => by cases hmem
  have haccepts : View.Accepts
      { query, documentSet := .empty (compareBy ordering), syncedDocuments := remoteKeys }
      (mirrorSynced.map createSynthesizedTargetChange) := by
    intro change hchange
    obtain ⟨current, -, rfl⟩ := Option.map_eq_some_iff.mp hchange
    exact Finset.empty_subset _
  obtain ⟨view, viewChange, happly⟩ := View.applyChanges_ok hview hdiff.toIsDiff hneeds haccepts
  obtain ⟨hview', hquery, hset, -⟩ := View.applyChanges_exactDiff hview hdiff.toIsDiff happly
  refine ⟨⟨view, localDocuments⟩, viewChange, ?_, hview', hquery, rfl, ?_⟩
  · rw [start, hmake, ok_bind]
    rw [hok, ok_bind, happly]
    rfl
  · rw [hset, hquery]
    exact htrim

/-- In every run the changes of the view are computed without aborting: no two changes of a document
meet that cannot be merged, and no refill asks for another. -/
theorem updateDocuments_ok_along {query : Query} (hvalid : query.Valid)
    (hordering : query.orderBys = .ok ordering) (remoteKeys : DocumentKeySet)
    (localDocuments : LocalDocuments) (mirrorSynced : Option Bool) (changes : List LocalChange) :
    ∃ s viewChange, start query remoteKeys localDocuments mirrorSynced = .ok (s, viewChange) ∧
      Along receive (fun s change => ∃ docChanges, s.view.updateDocuments change.documents.documents
        ((s.localDocuments.update change.documents).matchingDocuments s.view.query) =
          .ok docChanges) s changes := by
  obtain ⟨s, viewChange, hstart, hview, rfl, rfl, htrim⟩ :=
    start_ok hvalid hordering remoteKeys localDocuments mirrorSynced
  have hknown : ∀ doc ∈ s.view.documentSet.sortedSet,
      View.UpToDate s.view.query s.localDocuments doc := by
    intro doc hdoc
    obtain ⟨doc', hdoc', hsame⟩ := exists_of_forall₂_left htrim hdoc
    have hmem := (LocalDocuments.mem_results hordering).mp (s.view.query.trim_subset _ hdoc')
    exact ⟨doc', hsame.1 ▸ hmem, .inl hsame⟩
  refine ⟨s, viewChange, hstart, along_of_invariant (fun s => s.view.WellFormed ordering ∧
    s.view.query.Valid ∧ ∀ doc ∈ s.view.documentSet.sortedSet,
      View.UpToDate s.view.query s.localDocuments doc) ?_ ?_ ⟨hview, hvalid, hknown⟩ changes⟩
  · rintro s change ⟨hview, hvalid, hknown⟩
    obtain ⟨docChanges, hok, -⟩ :=
      View.updateDocuments_upToDate hview hvalid hknown change.documents
    exact ⟨docChanges, hok⟩
  · rintro s change s' viewChange ⟨hview, hvalid, hknown⟩ hreceive
    obtain ⟨docChanges, hok, htracks, -, hknown'⟩ :=
      View.updateDocuments_upToDate hview hvalid hknown change.documents
    obtain ⟨docChanges', hok', hreceive⟩ := bind_eq_ok.mp hreceive
    obtain rfl := Except.ok.inj (hok.symm.trans hok')
    obtain ⟨⟨view', viewChange⟩, happly, hs'⟩ := bind_eq_ok.mp hreceive
    cases hs'
    obtain ⟨hview', hquery, hset, -⟩ :=
      View.applyChanges_exactDiff hview htracks.toIsDiff happly
    rw [hquery, hset]
    exact ⟨hview', hvalid, hknown'⟩

namespace Deleted

def before : LocalDocuments := .ofDocuments [View.Limited.doc 97, View.Limited.doc 98]

def deletion : LocalChange where
  documents := {
    documents := OrdMap.empty.insert (View.Limited.doc 97).key
      (.noDocument (View.Limited.doc 97).key .none false)
    key_eq := by
      intro key doc hget
      rw [get?_insert] at hget
      split_ifs at hget with hkey
      · rw [← Option.some.inj hget, hkey]
        rfl
      · cases hget }
  targetChange := none

theorem valid : View.Limited.query.Valid :=
  ⟨_, rfl, by simp [View.Limited.query, Query.atPath], by simp [View.Limited.query, Query.atPath]⟩

end Deleted

theorem updateDocuments_ok_along_deleted : ∃ s viewChange,
    start View.Limited.query ∅ Deleted.before none = .ok (s, viewChange) ∧
      Along receive (fun s change => ∃ docChanges, s.view.updateDocuments change.documents.documents
        ((s.localDocuments.update change.documents).matchingDocuments s.view.query) =
          .ok docChanges) s [Deleted.deletion] :=
  updateDocuments_ok_along Deleted.valid rfl ∅ Deleted.before none [Deleted.deletion]

/-! ## More documents than a set can count -/

namespace Many

def doc (i : Nat) : Document where
  data := []
  key := ⟨[[99], (List.range 8).map fun k => UInt8.ofNat (97 + i / 16 ^ k % 16)], by simp⟩
  version := .none
  documentState := .synced

theorem eq_of_digits {i j n : Nat} (hi : i < 16 ^ n) (hj : j < 16 ^ n)
    (h : ∀ k < n, i / 16 ^ k % 16 = j / 16 ^ k % 16) : i = j := by
  induction n generalizing i j with
  | zero => rw [Nat.lt_one_iff.mp hi, Nat.lt_one_iff.mp hj]
  | succ n ih =>
    rw [pow_succ'] at hi hj
    have hdiv : i / 16 = j / 16 := by
      refine ih (Nat.div_lt_of_lt_mul hi) (Nat.div_lt_of_lt_mul hj) fun k hk => ?_
      rw [Nat.div_div_eq_div_mul, Nat.div_div_eq_div_mul, ← pow_succ']
      exact h (k + 1) (Nat.succ_lt_succ hk)
    have hmod : i % 16 = j % 16 := by simpa using h 0 n.succ_pos
    rw [← Nat.div_add_mod i 16, hdiv, hmod, Nat.div_add_mod]

theorem key_doc_injective {i j : Nat} (hi : i < 16 ^ 8) (hj : j < 16 ^ 8)
    (h : (doc i).key = (doc j).key) : i = j := by
  refine eq_of_digits hi hj fun k hk => ?_
  have hpath : (doc i).key.path = (doc j).key.path := congrArg _ h
  have hname := (List.cons.inj (List.cons.inj hpath).2).1
  have hbyte := map_inj_left.mp hname k (mem_range.mpr hk)
  have hnat := congrArg UInt8.toNat hbyte
  rw [UInt8.toNat_ofNat', UInt8.toNat_ofNat'] at hnat
  omega

theorem nodup_keys : (((List.range (2 ^ 31)).map doc).map (·.key)).Nodup := by
  rw [map_map]
  refine List.Nodup.map_on (fun i hi j hj hij => key_doc_injective ?_ ?_ hij) nodup_range
  · exact (mem_range.mp hi).trans (by norm_num)
  · exact (mem_range.mp hj).trans (by norm_num)

/-- As many documents as make the size of a set wrap around. -/
def localDocuments : LocalDocuments := .ofDocuments ((List.range (2 ^ 31)).map doc)

end Many

end ViewSession

end Firebase.Firestore.Core
