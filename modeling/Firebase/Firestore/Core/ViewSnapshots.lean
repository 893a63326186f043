import Firebase.Firestore.Core.ViewChanges

/-!
# Snapshots are exact diffs

A snapshot of a view tells its listeners the documents that the query has now, the ones it had
before, and a list of changes.  The list is the exact diff between the two sets
(`ViewSnapshot.ExactDiff`).
-/

namespace Firebase.Firestore.Core

open Lib Util Model Remote OrdMap List

/-! ## Making changes -/

def DocumentViewChange.result (change : DocumentViewChange) : Option Document :=
  if change.type = .removed then none else some change.document

def DocumentViewChange.applyTo (set : DocumentSet) (change : DocumentViewChange) :
    Hard DocumentSet :=
  if change.type = .removed then set.erase change.document.key else set.insert change.document

def replay (changes : List DocumentViewChange) (set : DocumentSet) : Hard DocumentSet :=
  changes.foldlM DocumentViewChange.applyTo set

section Replay

variable {ordering : List OrderBy} {set : DocumentSet}

theorem DocumentViewChange.applyTo_ok (hset : set.Sorted (order ordering) (HasFields ordering))
    {change : DocumentViewChange} (hfields : HasFields ordering change.document) :
    ∃ set', change.applyTo set = .ok set' ∧
      set'.Sorted (order ordering) (HasFields ordering) ∧ set'.comparator = set.comparator ∧
      ∀ key, set'.getDocument key =
        if key = change.document.key then change.result else set.getDocument key := by
  unfold applyTo result
  split_ifs with htype
  · obtain ⟨set', hok, hcmp, hindex, hset'⟩ := hset.erase_ok change.document.key
    refine ⟨set', hok, hset', hcmp, fun key => ?_⟩
    rw [DocumentSet.getDocument, hindex, get?_erase]
    split_ifs <;> rfl
  · obtain ⟨set', hok, hcmp, hindex, hset'⟩ := hset.insert_ok hfields
    refine ⟨set', hok, hset', hcmp, fun key => ?_⟩
    rw [DocumentSet.getDocument, hindex, get?_insert]
    split_ifs <;> rfl

/-- Changes of different documents do not disturb each other. -/
theorem replay_ok (hset : set.Sorted (order ordering) (HasFields ordering))
    {changes : List DocumentViewChange}
    (hfields : ∀ change ∈ changes, HasFields ordering change.document)
    (hnodup : (changes.map (·.document.key)).Nodup) : ∃ set', replay changes set = .ok set' ∧
      set'.Sorted (order ordering) (HasFields ordering) ∧ set'.comparator = set.comparator ∧
      (∀ key ∉ changes.map (·.document.key), set'.getDocument key = set.getDocument key) ∧
      ∀ change ∈ changes, set'.getDocument change.document.key = change.result := by
  unfold replay
  induction changes generalizing set with
  | nil => exact ⟨set, rfl, hset, rfl, fun _ _ => rfl, forall_mem_nil _⟩
  | cons change changes ih =>
    obtain ⟨hchange, hfields⟩ := forall_mem_cons.mp hfields
    obtain ⟨hnotMem, hnodup⟩ := nodup_cons.mp hnodup
    obtain ⟨set₁, hok₁, hset₁, hcmp₁, hget₁⟩ := change.applyTo_ok hset hchange
    obtain ⟨set', hok, hset', hcmp, hother, hresult⟩ := ih hset₁ hfields hnodup
    refine ⟨set', ?_, hset', hcmp.trans hcmp₁, fun key hmem => ?_,
      forall_mem_cons.mpr ⟨?_, hresult⟩⟩
    · rw [foldlM_cons, hok₁, ok_bind, hok]
    · obtain ⟨hne, hmem⟩ := not_or.mp (mem_cons.not.mp hmem)
      rw [hother key hmem, hget₁, if_neg hne]
    · rw [hother _ hnotMem, hget₁, if_pos rfl]

end Replay

/-! ## Sorting changes -/

def changeOrder (ordering : List OrderBy) : DocumentViewChange → DocumentViewChange → Ordering :=
  compareLex (compareOn fun change => View.changeTypePosition change.type)
    fun lhs rhs => order ordering lhs.document rhs.document

instance (ordering : List OrderBy) : Std.TransCmp (changeOrder ordering) := by
  have hdocument : Std.TransCmp fun lhs rhs : DocumentViewChange =>
      order ordering lhs.document rhs.document :=
    { eq_swap := Std.OrientedCmp.eq_swap
      isLE_trans := Std.TransCmp.isLE_trans }
  unfold changeOrder
  infer_instance

theorem View.changeLessThan_eq {view : View} {ordering : List OrderBy}
    (hcmp : view.documentSet.comparator = compareBy ordering) {lhs rhs : DocumentViewChange}
    (hlhs : HasFields ordering lhs.document) (hrhs : HasFields ordering rhs.document) :
    view.changeLessThan lhs rhs = .ok (changeOrder ordering lhs rhs == .lt) := by
  unfold changeLessThan changeOrder compareLex compareOn
  dsimp only
  split_ifs with hpos
  · rcases lt_or_gt_of_ne hpos with hlt | hgt
    · rw [compare_lt_iff_lt.mpr hlt, decide_eq_true hlt]
      rfl
    · rw [compare_gt_iff_gt.mpr hgt, decide_eq_false hgt.not_gt]
      rfl
  · rw [not_not.mp hpos, compare_eq_iff_eq.mpr rfl, hcmp, compareBy_eq hlhs hrhs]
    rfl

/-! ## Exact diffs -/

/-- The changes of a snapshot are the exact diff between its old documents and its documents. -/
structure ViewSnapshot.ExactDiff (snapshot : ViewSnapshot) : Prop where
  nodup : (snapshot.documentChanges.map (·.document.key)).Nodup
  added_iff (key : DocumentKey) :
    (∃ change ∈ snapshot.documentChanges, change.document.key = key ∧ change.type = .added) ↔
      ¬ snapshot.oldDocuments.containsKey key ∧ snapshot.documents.containsKey key
  removed_iff (key : DocumentKey) :
    (∃ change ∈ snapshot.documentChanges, change.document.key = key ∧ change.type = .removed) ↔
      snapshot.oldDocuments.containsKey key ∧ ¬ snapshot.documents.containsKey key
  inBoth {change : DocumentViewChange} : change ∈ snapshot.documentChanges →
    change.type ≠ .added → change.type ≠ .removed →
      snapshot.oldDocuments.containsKey change.document.key ∧
        snapshot.documents.containsKey change.document.key
  modified {key : DocumentKey} {oldDoc newDoc : Document} :
    snapshot.oldDocuments.getDocument key = some oldDoc →
    snapshot.documents.getDocument key = some newDoc → ¬ oldDoc.data.equals newDoc.data →
      ∃ change ∈ snapshot.documentChanges, change.document.key = key ∧ change.type = .modified
  grouped : snapshot.documentChanges.Pairwise fun a b =>
    View.changeTypePosition a.type ≤ View.changeTypePosition b.type
  replay_eq : replay snapshot.documentChanges snapshot.oldDocuments = .ok snapshot.documents

namespace ChangeOf

variable {old new : Option Document} {change : Option DocumentViewChange}

theorem added_iff (h : ChangeOf old new change) :
    (∃ doc, change = some ⟨doc, .added⟩) ↔ ¬ old.isSome ∧ new.isSome := by
  cases h <;> simp

theorem removed_iff (h : ChangeOf old new change) :
    (∃ doc, change = some ⟨doc, .removed⟩) ↔ old.isSome ∧ ¬ new.isSome := by
  cases h with
  | unchanged => exact ⟨by simp, fun h => absurd h.1 h.2⟩
  | added | removed | modified | metadata => simp

theorem eq_of_none (h : ChangeOf old new none) : old = new := by
  cases h
  rfl

theorem isSome_and_isSome {document : Document} {type : ChangeType}
    (h : ChangeOf old new (some ⟨document, type⟩)) (hadded : type ≠ .added)
    (hremoved : type ≠ .removed) : old.isSome ∧ new.isSome := by
  cases h with
  | added => exact absurd rfl hadded
  | removed => exact absurd rfl hremoved
  | modified | metadata => exact ⟨rfl, rfl⟩

theorem eq_modified {oldDoc newDoc : Document} (h : ChangeOf (some oldDoc) (some newDoc) change)
    (hdata : ¬ oldDoc.data.equals newDoc.data) : change = some ⟨newDoc, .modified⟩ := by
  cases h with
  | unchanged => exact absurd (FieldValue.equalMaps_refl _) hdata
  | modified => rfl
  | metadata hsame => exact absurd hsame.2 hdata

theorem result_eq {change : DocumentViewChange} (h : ChangeOf old new (some change)) :
    change.result = new := by
  cases h <;> rfl

end ChangeOf

namespace ViewDocumentChanges.IsDiff

variable {ordering : List OrderBy} {old : DocumentSet} {changes : ViewDocumentChanges}

section

variable (h : changes.IsDiff ordering old)

include h

theorem mem_getChanges {change : DocumentViewChange} : change ∈ changes.changeSet.getChanges ↔
      changes.changeSet.changeMap.get? change.document.key = some change := by
  rw [DocumentViewChangeSet.getChanges, mem_map]
  constructor
  · rintro ⟨⟨key, change⟩, hmem, rfl⟩
    have hget := mem_entries.mp hmem
    rwa [h.key_eq hget]
  · exact fun hget => ⟨_, mem_entries.mpr hget, rfl⟩

theorem nodup_getChanges : (changes.changeSet.getChanges.map (·.document.key)).Nodup := by
  have hkeys : changes.changeSet.getChanges.map (·.document.key) =
      changes.changeSet.changeMap.entries.map Prod.fst := by
    rw [DocumentViewChangeSet.getChanges, map_map]
    exact map_congr_left fun entry hmem => h.key_eq (mem_entries.mp hmem)
  rw [hkeys]
  exact nodup_keys _

/-- Sorting the changes does not abort. -/
theorem sortM_ok
    (hkey : ∀ {lhs rhs : Document}, order ordering lhs rhs = .eq → lhs.key = rhs.key) (view : View)
    (hcmp : view.documentSet.comparator = compareBy ordering) :
    ∃ sorted, sortM view.changeLessThan changes.changeSet.getChanges = .ok sorted ∧
      sorted.Perm changes.changeSet.getChanges ∧ Ascending (changeOrder ordering) sorted := by
  refine Util.sortM_ok (fun lhs hlhs rhs hrhs => View.changeLessThan_eq hcmp
    (h.hasFields (h.mem_getChanges.mp hlhs)) (h.hasFields (h.mem_getChanges.mp hrhs))) ?_
  refine (pairwise_map.mp h.nodup_getChanges).imp fun hne heq => hne (hkey ?_)
  exact (Ordering.then_eq_eq.mp heq).2

/-- A snapshot with the sorted changes is an exact diff. -/
theorem exactDiff
    (hold : old.Sorted (order ordering) (HasFields ordering)) {snapshot : ViewSnapshot}
    (holdDocuments : snapshot.oldDocuments = old)
    (hdocs : snapshot.documents = changes.documentSet)
    (hperm : snapshot.documentChanges.Perm changes.changeSet.getChanges)
    (hasc : Ascending (changeOrder ordering) snapshot.documentChanges) : snapshot.ExactDiff := by
  have hmem : ∀ {change}, change ∈ snapshot.documentChanges ↔
      changes.changeSet.changeMap.get? change.document.key = some change := by
    intro change
    rw [hperm.mem_iff, h.mem_getChanges]
  have hnodup : (snapshot.documentChanges.map (·.document.key)).Nodup :=
    (hperm.map _).nodup_iff.mpr h.nodup_getChanges
  -- The changes at a key, with the documents before and after.
  have hat : ∀ key type,
      (∃ change ∈ snapshot.documentChanges, change.document.key = key ∧ change.type = type) ↔
        ∃ doc, changes.changeSet.changeMap.get? key = some ⟨doc, type⟩ := by
    intro key type
    constructor
    · rintro ⟨⟨doc, type⟩, hchange, rfl, rfl⟩
      exact ⟨doc, hmem.mp hchange⟩
    · rintro ⟨doc, hget⟩
      refine ⟨⟨doc, type⟩, hmem.mpr ?_, h.key_eq hget, rfl⟩
      rw [h.key_eq hget]
      exact hget
  refine ⟨hnodup, fun key => ?_, fun key => ?_, fun {change} hchange hadded hremoved => ?_,
    fun {key oldDoc newDoc} holdDoc hnewDoc hdata => ?_, ?_, ?_⟩
  · rw [hat, holdDocuments, hdocs]
    exact (h.changeOf key).added_iff
  · rw [hat, holdDocuments, hdocs]
    exact (h.changeOf key).removed_iff
  · rw [holdDocuments, hdocs]
    have hchangeOf := h.changeOf change.document.key
    rw [hmem.mp hchange] at hchangeOf
    exact hchangeOf.isSome_and_isSome hadded hremoved
  · rw [holdDocuments] at holdDoc
    rw [hdocs] at hnewDoc
    have hchangeOf := h.changeOf key
    rw [holdDoc, hnewDoc] at hchangeOf
    exact (hat key .modified).mpr ⟨newDoc, hchangeOf.eq_modified hdata⟩
  · refine hasc.imp fun hlt => ?_
    rcases Ordering.then_eq_lt.mp hlt with hlt | ⟨heq, -⟩
    · exact (compare_lt_iff_lt.mp hlt).le
    · exact (compare_eq_iff_eq.mp heq).le
  · have hfields : ∀ change ∈ snapshot.documentChanges, HasFields ordering change.document :=
      fun change hchange => h.hasFields (hmem.mp hchange)
    obtain ⟨set, hok, hset, hcmp, hother, hresult⟩ := replay_ok hold hfields hnodup
    rw [holdDocuments, hok, hdocs]
    refine congrArg Except.ok (hset.ext h.sorted (hcmp.trans h.comparator_eq.symm)
      (ext_get? fun key => ?_))
    have hchangeOf := h.changeOf key
    cases hget : changes.changeSet.changeMap.get? key with
    | none =>
      rw [hget] at hchangeOf
      have hnotMem : key ∉ snapshot.documentChanges.map (·.document.key) := by
        rw [mem_map]
        rintro ⟨change, hchange, rfl⟩
        cases hget.symm.trans (hmem.mp hchange)
      exact (hother key hnotMem).trans hchangeOf.eq_of_none
    | some change =>
      rw [hget] at hchangeOf
      obtain rfl := h.key_eq hget
      exact (hresult change (hmem.mpr hget)).trans hchangeOf.result_eq

end

end ViewDocumentChanges.IsDiff

/-! ## The snapshots of a view -/

variable {change : ViewChange}

namespace View

variable {view view' : View} {ordering : List OrderBy}

theorem make_wellFormed {query : Query} (hordering : query.orderBys = .ok ordering)
    {remoteDocuments : DocumentKeySet} (h : View.make query remoteDocuments = .ok view) :
    view.WellFormed ordering := by
  rw [View.make, Query.comparator_eq hordering] at h
  cases h
  exact ⟨hordering, rfl, .empty (Query.orders_comparator hordering)⟩

variable {targetChange : Option TargetChange}

theorem applyTargetChange_eq (h : view.applyTargetChange targetChange = .ok view') :
    view'.query = view.query ∧ view'.documentSet = view.documentSet ∧
      view'.mutatedKeys = view.mutatedKeys ∧ view'.limboDocuments = view.limboDocuments := by
  unfold applyTargetChange at h
  split at h
  · cases h
    exact ⟨rfl, rfl, rfl, rfl⟩
  · obtain ⟨_, -, h⟩ := bind_eq_ok.mp h
    cases h
    exact ⟨rfl, rfl, rfl, rfl⟩

theorem updateLimboDocuments_eq (view : View) : view.updateLimboDocuments.1.query = view.query ∧
      view.updateLimboDocuments.1.documentSet = view.documentSet ∧
      view.updateLimboDocuments.1.mutatedKeys = view.mutatedKeys ∧
      view.updateLimboDocuments.1.current = view.current := by
  unfold updateLimboDocuments
  split_ifs <;> exact ⟨rfl, rfl, rfl, rfl⟩

/-- What a snapshot tells of changes, with the changes in order. -/
structure Tells (view : View) (changes : ViewDocumentChanges) (sorted : List DocumentViewChange)
    (snapshot : ViewSnapshot) : Prop where
  query_eq : snapshot.query = view.query
  oldDocuments_eq : snapshot.oldDocuments = view.documentSet
  documents_eq : snapshot.documents = changes.documentSet
  documentChanges_eq : snapshot.documentChanges = sorted
  changed : sorted ≠ [] ∨ snapshot.syncStateChanged

variable {changes : ViewDocumentChanges}

section

variable (hview : view.WellFormed ordering) (hdiff : changes.IsDiff ordering view.documentSet)

include hview hdiff

/-- Applying changes makes them the documents of the view, and tells them unless there are none. -/
theorem applyChanges_spec (h : view.applyChanges changes targetChange = .ok (view', change)) :
    view'.WellFormed ordering ∧ view'.query = view.query ∧
      view'.documentSet = changes.documentSet ∧
      ∃ sorted, sorted.Perm changes.changeSet.getChanges ∧
        Ascending (changeOrder ordering) sorted ∧ (change.snapshot = none → sorted = []) ∧
        ∀ snapshot ∈ change.snapshot, view.Tells changes sorted snapshot := by
  have hcmp : changes.documentSet.comparator = compareBy ordering :=
    hdiff.comparator_eq.trans hview.comparator_eq
  obtain ⟨_, -, h⟩ := bind_eq_ok.mp h
  obtain ⟨sorted, hsorted, h⟩ := bind_eq_ok.mp h
  obtain ⟨view₁, htarget, h⟩ := bind_eq_ok.mp h
  obtain ⟨hview', rfl⟩ := ok_inj h
  obtain ⟨hquery₁, hset₁, -⟩ := applyTargetChange_eq htarget
  obtain ⟨hquery₂, hset₂, -⟩ := view₁.updateLimboDocuments_eq
  have hset : view'.documentSet = changes.documentSet := by
    rw [← hview']
    exact hset₂.trans hset₁
  have hquery : view'.query = view.query := by
    rw [← hview']
    exact hquery₂.trans hquery₁
  obtain ⟨sorted', hsorted', hperm, hasc⟩ := hdiff.sortM_ok
    (Query.orders_comparator hview.orderBys_eq).key_eq
    { view with documentSet := changes.documentSet, mutatedKeys := changes.mutatedKeys }
    hcmp
  obtain rfl := Except.ok.inj (hsorted'.symm.trans hsorted)
  refine ⟨⟨hquery ▸ hview.orderBys_eq, hset ▸ hcmp, hset ▸ hdiff.sorted⟩, hquery, hset,
    sorted', hperm, hasc, fun hnone => ?_, fun snapshot hsnapshot => ?_⟩
  · dsimp only [makeSnapshot] at hnone
    split_ifs at hnone with hempty
    exact isEmpty_iff.mp (Bool.and_eq_true_iff.mp hempty).1
  · dsimp only [makeSnapshot] at hsnapshot
    split_ifs at hsnapshot with hempty
    · cases hsnapshot
    · cases hsnapshot
      refine ⟨hquery₂.trans hquery₁, rfl, rfl, rfl, ?_⟩
      rw [Bool.and_eq_true_iff, not_and_or, List.isEmpty_iff, Bool.not_eq_true',
        Bool.not_eq_false] at hempty
      exact hempty

/-- Applying changes tells them exactly. -/
theorem applyChanges_exactDiff (h : view.applyChanges changes targetChange = .ok (view', change)) :
    view'.WellFormed ordering ∧ view'.query = view.query ∧
      view'.documentSet = changes.documentSet ∧
      ∀ snapshot ∈ change.snapshot, snapshot.oldDocuments = view.documentSet ∧
        snapshot.documents = view'.documentSet ∧ snapshot.ExactDiff := by
  obtain ⟨hview', hquery, hset, sorted, hperm, hasc, -, htells⟩ := applyChanges_spec hview hdiff h
  refine ⟨hview', hquery, hset, fun snapshot hsnapshot => ?_⟩
  obtain ⟨-, hold, hdocs, hchanges, -⟩ := htells snapshot hsnapshot
  exact ⟨hold, hdocs.trans hset.symm,
    hdiff.exactDiff hview.sorted hold hdocs (hchanges ▸ hperm) (hchanges ▸ hasc)⟩

/-- The documents that a target change calls modified are known to be synced. -/
def Accepts (view : View) (targetChange : Option TargetChange) : Prop :=
  ∀ change ∈ targetChange, change.modifiedDocuments ⊆ view.syncedDocuments ∪ change.addedDocuments

/-- Applying changes aborts only for a target change that is not accepted. -/
theorem applyChanges_ok (hneeds : changes.needsRefill = false)
    (haccepts : view.Accepts targetChange) :
    ∃ view' change, view.applyChanges changes targetChange = .ok (view', change) := by
  obtain ⟨sorted, hsorted, -, -⟩ := hdiff.sortM_ok
    (Query.orders_comparator hview.orderBys_eq).key_eq
    { view with documentSet := changes.documentSet, mutatedKeys := changes.mutatedKeys }
    (hdiff.comparator_eq.trans hview.comparator_eq)
  have htarget : ∀ documentSet mutatedKeys, ∃ view',
      applyTargetChange { view with documentSet, mutatedKeys } targetChange = .ok view' := by
    intro documentSet mutatedKeys
    cases targetChange with
    | none => exact ⟨_, rfl⟩
    | some change =>
      rw [applyTargetChange, decide_eq_true (haccepts change rfl), hardAssert_true]
      exact ⟨_, rfl⟩
  obtain ⟨view', hview'⟩ := htarget changes.documentSet changes.mutatedKeys
  unfold applyChanges
  rw [hneeds, Bool.not_false, hardAssert_true]
  dsimp only
  rw [hsorted, hview']
  exact ⟨_, _, rfl⟩

end

section

variable (hview : view.WellFormed ordering)

include hview

theorem computeDocumentChanges_tracks
    {docChanges : OrdMap DocumentKey MaybeDocument} {previousChanges : Option ViewDocumentChanges}
    (hprevious : ∀ changes ∈ previousChanges, changes.Tracks ordering view)
    (h : view.computeDocumentChanges docChanges previousChanges = .ok changes) :
    changes.Tracks ordering view := by
  have hnew : ∀ entry ∈ docChanges.entries,
      ∃ newDoc, view.newDocument entry.1 entry.2 = .ok newDoc := by
    obtain ⟨looped, hloop, -⟩ := bind_eq_ok.mp h
    exact newDocument_ok_of_foldlM hloop
  obtain ⟨looped, final, -, hfinal, -, -, heq⟩ := computeDocumentChanges_ok hview hprevious hnew
  rw [heq] at h
  obtain ⟨_, -, h⟩ := bind_eq_ok.mp h
  cases h
  exact hfinal

/-- The changes of a view, with a refill if it is needed, are a diff. -/
theorem updateDocuments_tracks {docChanges queryResult : OrdMap DocumentKey MaybeDocument}
    (h : view.updateDocuments docChanges queryResult = .ok changes) :
    changes.Tracks ordering view := by
  obtain ⟨viewDocChanges, hfirst, h⟩ := bind_eq_ok.mp h
  have hdiff := computeDocumentChanges_tracks hview (by simp) hfirst
  split_ifs at h
  · refine computeDocumentChanges_tracks hview ?_ h
    rintro previous hprevious
    cases hprevious
    exact hdiff
  · cases h
    exact hdiff

/-- The changes of every snapshot are the exact diff between the documents that the view had and
the documents that it has. -/
theorem snapshot_exactDiff
    {docChanges queryResult : OrdMap DocumentKey MaybeDocument} {changes : ViewDocumentChanges}
    (hchanges : view.updateDocuments docChanges queryResult = .ok changes)
    {targetChange : Option TargetChange} {snapshot : ViewSnapshot}
    {limboChanges : List LimboDocumentChange}
    (happly : view.applyChanges changes targetChange = .ok (view', ⟨some snapshot, limboChanges⟩)) :
    snapshot.oldDocuments = view.documentSet ∧ snapshot.documents = view'.documentSet ∧
      snapshot.ExactDiff := by
  obtain ⟨-, -, -, hsnapshot⟩ :=
    applyChanges_exactDiff hview (updateDocuments_tracks hview hchanges).toIsDiff happly
  exact hsnapshot snapshot rfl

end

namespace Limited

def query : Query := { Query.atPath [[99]] with limit := 1, limitType := .first }

def doc (name : UInt8) : Document := ⟨[], ⟨[[99], [name]], by simp⟩, .none, .synced⟩

def docChanges : OrdMap DocumentKey MaybeDocument :=
  (OrdMap.empty.insert (doc 97).key (.document (doc 97))).insert (doc 98).key (.document (doc 98))

def emptyView : View where
  query
  documentSet := .empty (compareBy [⟨.keyFieldPath, .ascending⟩])
  syncedDocuments := ∅

theorem wellFormed : emptyView.WellFormed [⟨.keyFieldPath, .ascending⟩] :=
  make_wellFormed (show query.orderBys = _ from rfl) rfl

end Limited

theorem snapshot_exactDiff_limited : ∃ changes view' snapshot limboChanges,
      Limited.emptyView.updateDocuments Limited.docChanges Limited.docChanges = .ok changes ∧
      Limited.emptyView.applyChanges changes none = .ok (view', ⟨some snapshot, limboChanges⟩) ∧
      snapshot.documentChanges = [⟨Limited.doc 97, .added⟩] ∧ snapshot.ExactDiff := by
  have hrun : ∃ changes view' snapshot limboChanges,
      Limited.emptyView.updateDocuments Limited.docChanges Limited.docChanges = .ok changes ∧
      Limited.emptyView.applyChanges changes none = .ok (view', ⟨some snapshot, limboChanges⟩) ∧
      snapshot.documentChanges = [⟨Limited.doc 97, .added⟩] := ⟨_, _, _, _, rfl, rfl, rfl⟩
  obtain ⟨changes, view', snapshot, limboChanges, hchanges, happly, hadded⟩ := hrun
  obtain ⟨-, -, hexact⟩ := snapshot_exactDiff Limited.wellFormed hchanges happly
  exact ⟨changes, view', snapshot, limboChanges, hchanges, happly, hadded, hexact⟩

end View

end Firebase.Firestore.Core
