import Firebase.Firestore.Core.View

/-!
# The changes of a view

What `View::ComputeDocumentChanges` computes.  Between the documents of the view and the new set of
documents, the change set is kept as a diff (`IsDiff`): for each key it has the one change from the
old document to the new one.
-/

namespace Firebase.Firestore.Core

open Lib Util Model Remote OrdMap List

/-! ## Changes and their composition -/

/-- The change of a key from an old document to a new one. -/
inductive ChangeOf : Option Document → Option Document → Option DocumentViewChange → Prop
  | unchanged (doc : Option Document) : ChangeOf doc doc none
  | added (doc : Document) : ChangeOf none (some doc) (some ⟨doc, .added⟩)
  | removed (oldDoc doc : Document) : ChangeOf (some oldDoc) none (some ⟨doc, .removed⟩)
  | modified (oldDoc doc : Document) : ChangeOf (some oldDoc) (some doc) (some ⟨doc, .modified⟩)
  | metadata {oldDoc doc : Document} (h : SameData oldDoc doc) :
      ChangeOf (some oldDoc) (some doc) (some ⟨doc, .metadata⟩)

/-- Adding a change composes it with the one that is there. -/
theorem DocumentViewChangeSet.addChange_ok {set : DocumentViewChangeSet}
    {change : DocumentViewChange} {old cur new : Option Document}
    (h : ChangeOf old cur (set.changeMap.get? change.document.key))
    (hchange : ChangeOf cur new (some change)) :
    ∃ set' merged, set.addChange change = .ok set' ∧ ChangeOf old new merged ∧
      (∀ key, set'.changeMap.get? key =
        if key = change.document.key then merged else set.changeMap.get? key) ∧
      ∀ c ∈ merged, c.document = change.document ∨
        ∃ prior, set.changeMap.get? change.document.key = some prior ∧
          c.document = prior.document := by
  have hinsert : ∀ merged : DocumentViewChange, ∀ key,
      (set.changeMap.insert change.document.key merged).get? key =
        if key = change.document.key then some merged else set.changeMap.get? key := by
    intro merged key
    rw [get?_insert]
    split_ifs <;> rfl
  have herase : ∀ key, (set.changeMap.erase change.document.key).get? key =
      if key = change.document.key then none else set.changeMap.get? key := by
    intro key
    rw [get?_erase]
    split_ifs <;> rfl
  unfold addChange
  dsimp only
  generalize set.changeMap.get? change.document.key = prior at h ⊢
  cases h with
  | unchanged doc =>
    exact ⟨_, some change, rfl, hchange, hinsert _, fun c hc => .inl (by cases hc; rfl)⟩
  | added doc =>
    cases hchange with
    | removed oldDoc doc => exact ⟨_, none, rfl, .unchanged none, herase, nofun⟩
    | modified oldDoc doc | metadata hsame =>
      exact ⟨_, some _, rfl, .added _, hinsert _, fun c hc => .inl (by cases hc; rfl)⟩
  | removed oldDoc doc =>
    cases hchange with
    | added doc =>
      exact ⟨_, some _, rfl, .modified _ _, hinsert _, fun c hc => .inl (by cases hc; rfl)⟩
  | modified oldDoc doc =>
    cases hchange with
    | removed oldDoc' doc' =>
      exact ⟨_, some _, rfl, .removed _ _, hinsert _, fun c hc => .inr ⟨_, rfl, by cases hc; rfl⟩⟩
    | modified oldDoc doc | metadata hsame =>
      exact ⟨_, some _, rfl, .modified _ _, hinsert _, fun c hc => .inl (by cases hc; rfl)⟩
  | metadata hsame =>
    cases hchange with
    | removed oldDoc' doc' =>
      exact ⟨_, some _, rfl, .removed _ _, hinsert _, fun c hc => .inl (by cases hc; rfl)⟩
    | modified oldDoc' doc' =>
      exact ⟨_, some _, rfl, .modified _ _, hinsert _, fun c hc => .inl (by cases hc; rfl)⟩
    | metadata hsame' =>
      exact ⟨_, some _, rfl, .metadata (hsame.trans hsame'), hinsert _,
        fun c hc => .inl (by cases hc; rfl)⟩

/-! ## Diffs -/

/-- The documents of the view are those of a set in the order of its query. -/
structure View.WellFormed (view : View) (ordering : List OrderBy) : Prop where
  orderBys_eq : view.query.orderBys = .ok ordering
  comparator_eq : view.documentSet.comparator = compareBy ordering
  sorted : view.documentSet.Sorted (order ordering) (HasFields ordering)

variable {set : DocumentSet} {key : DocumentKey} {document : Document} {type : ChangeType}

namespace ViewDocumentChanges

/-- The change set has the changes from the old documents to the new ones. -/
structure IsDiff (ordering : List OrderBy) (old : DocumentSet) (changes : ViewDocumentChanges) :
    Prop where
  sorted : changes.documentSet.Sorted (order ordering) (HasFields ordering)
  comparator_eq : changes.documentSet.comparator = old.comparator
  changeOf (key : DocumentKey) : ChangeOf (old.getDocument key)
    (changes.documentSet.getDocument key) (changes.changeSet.changeMap.get? key)
  key_eq {key : DocumentKey} {change : DocumentViewChange} :
    changes.changeSet.changeMap.get? key = some change → change.document.key = key
  hasFields {key : DocumentKey} {change : DocumentViewChange} :
    changes.changeSet.changeMap.get? key = some change → HasFields ordering change.document

/-- The keys are those of the documents with local mutations. -/
def MarksMutated (set : DocumentSet) (mutatedKeys : DocumentKeySet) : Prop :=
  ∀ key, key ∈ mutatedKeys ↔ ∃ doc, set.getDocument key = some doc ∧ doc.hasLocalMutations

/-- Changes of a view, which keep the marks of its documents. -/
structure Tracks (ordering : List OrderBy) (view : View) (changes : ViewDocumentChanges) : Prop
    extends IsDiff ordering view.documentSet changes where
  marksMutated : MarksMutated view.documentSet view.mutatedKeys →
    MarksMutated changes.documentSet changes.mutatedKeys

section

variable {ordering : List OrderBy} {old : View} {changes : ViewDocumentChanges}

theorem Tracks.refl (hsorted : old.documentSet.Sorted (order ordering) (HasFields ordering))
    (needsRefill : Bool) :
    Tracks ordering old ⟨old.documentSet, .empty, old.mutatedKeys, needsRefill⟩ :=
  ⟨⟨hsorted, rfl, fun _ => .unchanged _, nofun, nofun⟩, id⟩

variable {newDoc : Option Document}

/-- Changing one document and adding the change keeps the diff. -/
theorem Tracks.addChange (h : changes.Tracks ordering old)
    (hchange : ChangeOf (changes.documentSet.getDocument document.key) newDoc
      (some ⟨document, type⟩)) (hfields : HasFields ordering document) :
    ∃ changeSet, (∀ set mutatedKeys needsRefill,
        ViewDocumentChanges.addChange ⟨set, changes.changeSet, mutatedKeys, needsRefill⟩
          document type = .ok ⟨set, changeSet, mutatedKeys, needsRefill⟩) ∧
      ∀ set mutatedKeys needsRefill, set.Sorted (order ordering) (HasFields ordering) →
        set.comparator = changes.documentSet.comparator →
        (∀ key, set.getDocument key =
          if key = document.key then newDoc else changes.documentSet.getDocument key) →
        (MarksMutated changes.documentSet changes.mutatedKeys → MarksMutated set mutatedKeys) →
        Tracks ordering old ⟨set, changeSet, mutatedKeys, needsRefill⟩ := by
  obtain ⟨changeSet, merged, hok, hmerged, hget, hdocument⟩ :=
    DocumentViewChangeSet.addChange_ok (h.changeOf document.key) hchange
  refine ⟨changeSet, fun set mutatedKeys needsRefill => ?_,
    fun set mutatedKeys needsRefill hsorted hcmp hset hmarks =>
      ⟨⟨hsorted, hcmp.trans h.comparator_eq, fun key => ?_, fun {key change} hchange => ?_,
        fun {key change} hchange => ?_⟩, hmarks ∘ h.marksMutated⟩⟩
  · rw [ViewDocumentChanges.addChange, hok]
    rfl
  · rw [hget, hset]
    split_ifs with hkey
    · rw [hkey]
      exact hmerged
    · exact h.changeOf key
  · rw [hget] at hchange
    split_ifs at hchange with hkey
    · rcases hdocument change hchange with heq | ⟨prior, hprior, heq⟩
      · rw [heq, hkey]
      · rw [heq, hkey, h.key_eq hprior]
    · exact h.key_eq hchange
  · rw [hget] at hchange
    split_ifs at hchange with hkey
    · rcases hdocument change hchange with heq | ⟨prior, hprior, heq⟩
      · rw [heq]
        exact hfields
      · rw [heq]
        exact h.hasFields hprior
    · exact h.hasFields hchange

section

variable {set' : DocumentSet} {mutatedKeys : DocumentKeySet} (h : MarksMutated set mutatedKeys)

include h

theorem MarksMutated.erase (hindex : set'.index = set.index.erase key) :
    MarksMutated set' (mutatedKeys.erase key) := by
  intro key'
  rw [DocumentSet.getDocument, hindex, get?_erase, Finset.mem_erase, h]
  split_ifs with hkey
  · exact ⟨fun hmem => absurd hkey hmem.1, nofun⟩
  · exact and_iff_right hkey

theorem MarksMutated.insert (hindex : set'.index = set.index.insert document.key document) :
    MarksMutated set' (if document.hasLocalMutations then Insert.insert document.key mutatedKeys
      else mutatedKeys.erase document.key) := by
  intro key'
  rw [DocumentSet.getDocument, hindex, get?_insert]
  by_cases hkey : key' = document.key
  · split_ifs with hlocal <;> simp [hkey, hlocal]
  · split_ifs <;> simp [hkey, h key', DocumentSet.getDocument]

end

/-- Putting a document in the set, or taking one out, does not abort. -/
theorem applyDocument_ok (hsorted : set.Sorted (order ordering) (HasFields ordering))
    (hkey : ∀ doc ∈ newDoc, doc.key = key)
    (hfields : ∀ doc ∈ newDoc, HasFields ordering doc) (mutatedKeys : DocumentKeySet) :
    ∃ set' mutatedKeys', (∀ changeSet needsRefill,
        applyDocument ⟨set, changeSet, mutatedKeys, needsRefill⟩ key newDoc =
          .ok ⟨set', changeSet, mutatedKeys', needsRefill⟩) ∧
      set'.Sorted (order ordering) (HasFields ordering) ∧ set'.comparator = set.comparator ∧
      (∀ key', set'.getDocument key' = if key' = key then newDoc else set.getDocument key') ∧
      (MarksMutated set mutatedKeys → MarksMutated set' mutatedKeys') := by
  cases newDoc with
  | none =>
    obtain ⟨set', hok, hcmp, hindex, hset⟩ := hsorted.erase_ok key
    refine ⟨set', mutatedKeys.erase key, fun changeSet needsRefill => ?_, hset, hcmp,
      fun key' => ?_, fun hmarks => hmarks.erase hindex⟩
    · rw [applyDocument, hok]
      rfl
    · rw [DocumentSet.getDocument, hindex, get?_erase]
      split_ifs <;> rfl
  | some doc =>
    obtain rfl := hkey doc rfl
    obtain ⟨set', hok, hcmp, hindex, hset⟩ := hsorted.insert_ok (hfields doc rfl)
    refine ⟨set', if doc.hasLocalMutations then insert doc.key mutatedKeys
      else mutatedKeys.erase doc.key, fun changeSet needsRefill => ?_, hset, hcmp,
      fun key' => ?_, fun hmarks => hmarks.insert hindex⟩
    · rw [applyDocument, hok]
      rfl
    · rw [DocumentSet.getDocument, hindex, get?_insert]
      split_ifs <;> rfl

/-- A change is recorded and made, whatever is known of a refill then. -/
theorem Tracks.change_ok (h : changes.Tracks ordering old)
    (hchange : ChangeOf (changes.documentSet.getDocument document.key) newDoc
      (some ⟨document, type⟩))
    (hfields : HasFields ordering document) (hnewDoc : ∀ doc ∈ newDoc, doc = document) :
    ∃ changeSet set mutatedKeys, changes.addChange document type = .ok { changes with changeSet } ∧
      (∀ needsRefill, applyDocument { changes with changeSet, needsRefill } document.key newDoc =
        .ok ⟨set, changeSet, mutatedKeys, needsRefill⟩) ∧
      (∀ needsRefill, Tracks ordering old ⟨set, changeSet, mutatedKeys, needsRefill⟩) ∧
      (∀ key ≠ document.key, set.getDocument key = changes.documentSet.getDocument key) ∧
      set.getDocument document.key = newDoc := by
  obtain ⟨changeSet, hadd, hdiff⟩ := h.addChange hchange hfields
  have hkey : ∀ doc ∈ newDoc, doc.key = document.key := fun doc hdoc => by rw [hnewDoc doc hdoc]
  have hnewFields : ∀ doc ∈ newDoc, HasFields ordering doc := fun doc hdoc => by
    rw [hnewDoc doc hdoc]
    exact hfields
  obtain ⟨set, mutatedKeys, hok, hsorted, hcmp, hset, hmarks⟩ :=
    applyDocument_ok h.sorted hkey hnewFields changes.mutatedKeys
  exact ⟨changeSet, set, mutatedKeys, hadd _ _ _, hok changeSet,
    fun needsRefill => hdiff set mutatedKeys needsRefill hsorted hcmp hset hmarks,
    fun key hne => (hset key).trans (if_neg hne), (hset _).trans (if_pos rfl)⟩

end

end ViewDocumentChanges

/-! ## One turn of the loop -/

variable {maybeNewDoc : MaybeDocument} {newDoc : Document}

namespace View

variable {view : View} {ordering : List OrderBy}

theorem newDocument_key (h : view.newDocument key maybeNewDoc = .ok (some newDoc)) :
    maybeNewDoc.asDocument = some newDoc ∧ newDoc.key = key ∧
      view.query.matchesDocument newDoc = .ok true := by
  unfold newDocument at h
  split at h
  · cases h
  · rename_i doc hdoc
    obtain ⟨_, hkey, h⟩ := bind_eq_ok.mp h
    obtain ⟨matched, hmatched, h⟩ := bind_eq_ok.mp h
    split_ifs at h with hcase
    · cases h
      exact ⟨hdoc, (beq_iff_eq.mp (hardAssert_eq_ok.mp hkey)).symm, hcase ▸ hmatched⟩
    · cases h

/-- The documents at the edge of the limit ask whether a document is outside without aborting. -/
theorem isOutside_eq (hview : view.WellFormed ordering) {edge : Option Document}
    (hnewDoc : HasFields ordering newDoc) (hedge : ∀ doc ∈ edge, HasFields ordering doc)
    (outside : Ordering) : view.isOutside newDoc edge outside =
      .ok (edge.any fun doc => order ordering newDoc doc == outside) := by
  cases edge with
  | none => rfl
  | some doc =>
    rw [isOutside, hview.comparator_eq, compareBy_eq hnewDoc (hedge doc rfl)]
    rfl

/-- The document in the set is the new one up to version and state, or it waits for the new one to
come from the server. -/
def Follows (oldDoc newDoc result : Option Document) : Prop :=
  Option.Rel SameData result newDoc ∨
    ∃ old new, oldDoc = some old ∧ newDoc = some new ∧ shouldWaitForSyncedDocument new old ∧
      result = oldDoc

/-- The change may let a document into the limit that the view does not know. -/
def asksForRefill (ordering : List OrderBy) (lastDocInLimit firstDocInLimit : Option Document) :
    Option Document → Option Document → Bool
  | some oldDoc, some newDoc =>
    !(oldDoc.data.equals newDoc.data) && !(shouldWaitForSyncedDocument newDoc oldDoc) &&
      ((lastDocInLimit.any fun doc => order ordering newDoc doc == .gt) ||
        firstDocInLimit.any fun doc => order ordering newDoc doc == .lt)
  | some _, none => lastDocInLimit.isSome || firstDocInLimit.isSome
  | none, _ => false

theorem rel_sameData_refl (doc : Option Document) : Option.Rel SameData doc doc := by
  cases doc with
  | none => exact .none
  | some doc => exact .some (.refl doc)

variable {lastDocInLimit firstDocInLimit : Option Document} {old : View}
  {oldDocumentSet : DocumentSet} {changes : ViewDocumentChanges}

/-- One turn of the loop. -/
theorem computeChange_ok (hview : view.WellFormed ordering)
    (hlast : ∀ doc ∈ lastDocInLimit, HasFields ordering doc)
    (hfirst : ∀ doc ∈ firstDocInLimit, HasFields ordering doc) (hdiff : changes.Tracks ordering old)
    (hold : changes.documentSet.getDocument key = oldDocumentSet.getDocument key)
    {newDoc : Option Document} (hnewDoc : view.newDocument key maybeNewDoc = .ok newDoc) :
    ∃ changes', view.computeChange oldDocumentSet lastDocInLimit firstDocInLimit changes
        (key, maybeNewDoc) = .ok changes' ∧
      changes'.Tracks ordering old ∧
      (∀ key' ≠ key, changes'.documentSet.getDocument key' = changes.documentSet.getDocument key') ∧
      Follows (oldDocumentSet.getDocument key) newDoc (changes'.documentSet.getDocument key) ∧
      changes'.needsRefill = (changes.needsRefill || asksForRefill ordering lastDocInLimit
        firstDocInLimit (oldDocumentSet.getDocument key) newDoc) := by
  unfold computeChange
  dsimp only
  rw [hnewDoc, ok_bind, ← hold]
  have hsame : ∀ {result : Option Document}, result = newDoc → ∀ oldDoc,
      Follows oldDoc newDoc result := by
    rintro result rfl oldDoc
    exact .inl (rel_sameData_refl result)
  cases hcur : changes.documentSet.getDocument key with
  | none =>
    cases newDoc with
    | none => exact ⟨changes, rfl, hdiff, fun _ _ => rfl, hsame hcur _, (Bool.or_false _).symm⟩
    | some newDoc =>
      obtain ⟨-, rfl, hmatches⟩ := newDocument_key hnewDoc
      have hfields := Query.hasFields_of_matches hview.orderBys_eq hmatches
      obtain ⟨changeSet, set, mutatedKeys, hadd, happly, hdiff', hother, hset⟩ :=
        hdiff.change_ok (hcur ▸ ChangeOf.added newDoc) hfields fun doc hdoc => by cases hdoc; rfl
      dsimp only
      rw [hadd, ok_bind]
      exact ⟨_, happly _, hdiff' _, hother, hsame hset _, (Bool.or_false _).symm⟩
  | some oldDoc =>
    obtain rfl := hdiff.sorted.key_eq hcur
    cases newDoc with
    | none =>
      have hnone : ∀ doc ∈ (none : Option Document), doc = oldDoc := by simp
      obtain ⟨changeSet, set, mutatedKeys, hadd, happly, hdiff', hother, hset⟩ :=
        hdiff.change_ok (hcur ▸ ChangeOf.removed oldDoc oldDoc)
          (hdiff.sorted.sortable_of_get? hcur) hnone
      dsimp only
      rw [hadd, ok_bind]
      exact ⟨_, happly _, hdiff' _, hother, hsame hset _, Bool.or_assoc _ _ _⟩
    | some newDoc =>
      obtain ⟨-, hkey, hmatches⟩ := newDocument_key hnewDoc
      have hfields := Query.hasFields_of_matches hview.orderBys_eq hmatches
      dsimp only [asksForRefill]
      by_cases hdata : oldDoc.data.equals newDoc.data
      · have hdocs : SameData oldDoc newDoc := ⟨hkey.symm, hdata⟩
        rw [if_pos hdata, hdata, Bool.not_true, Bool.false_and, Bool.false_and]
        split_ifs with hpending
        · obtain ⟨changeSet, set, mutatedKeys, hadd, happly, hdiff', hother, hset⟩ :=
            hdiff.change_ok (hkey ▸ hcur ▸ ChangeOf.metadata hdocs) hfields
              fun doc hdoc => by cases hdoc; rfl
          rw [hadd, ok_bind, ← hkey]
          exact ⟨_, happly _, hdiff' _, hother, hsame hset _, (Bool.or_false _).symm⟩
        · refine ⟨changes, rfl, hdiff, fun _ _ => rfl, .inl ?_, (Bool.or_false _).symm⟩
          rw [hcur]
          exact .some hdocs
      · rw [if_neg hdata]
        by_cases hwait : shouldWaitForSyncedDocument newDoc oldDoc
        · rw [if_pos hwait, hwait, Bool.not_true, Bool.and_false, Bool.false_and]
          exact ⟨changes, rfl, hdiff, fun _ _ => rfl,
            .inr ⟨oldDoc, newDoc, rfl, rfl, hwait, hcur⟩, (Bool.or_false _).symm⟩
        · obtain ⟨changeSet, set, mutatedKeys, hadd, happly, hdiff', hother, hset⟩ :=
            hdiff.change_ok (hkey ▸ hcur ▸ ChangeOf.modified oldDoc newDoc) hfields
              fun doc hdoc => by cases hdoc; rfl
          rw [if_neg hwait, hadd, ok_bind, isOutside_eq hview hfields hlast, ok_bind,
            isOutside_eq hview hfields hfirst, ok_bind, ← hkey,
            Bool.eq_false_iff.mpr hdata, Bool.eq_false_iff.mpr hwait]
          exact ⟨_, happly _, hdiff' _, hother, hsame hset _, Bool.or_assoc _ _ _⟩

variable {entries : List (DocumentKey × MaybeDocument)}

/-- The loop over the changed documents. -/
theorem foldlM_computeChange (hview : view.WellFormed ordering)
    (hlast : ∀ doc ∈ lastDocInLimit, HasFields ordering doc)
    (hfirst : ∀ doc ∈ firstDocInLimit, HasFields ordering doc)
    (hnodup : (entries.map Prod.fst).Nodup)
    (hnew : ∀ entry ∈ entries, ∃ newDoc, view.newDocument entry.1 entry.2 = .ok newDoc)
    (hdiff : changes.Tracks ordering old) (hold : ∀ key ∈ entries.map Prod.fst,
      changes.documentSet.getDocument key = oldDocumentSet.getDocument key) :
    ∃ final, entries.foldlM
        (view.computeChange oldDocumentSet lastDocInLimit firstDocInLimit) changes = .ok final ∧
      final.Tracks ordering old ∧
      (∀ key ∉ entries.map Prod.fst,
        final.documentSet.getDocument key = changes.documentSet.getDocument key) ∧
      (∀ entry ∈ entries, ∀ newDoc, view.newDocument entry.1 entry.2 = .ok newDoc →
        Follows (oldDocumentSet.getDocument entry.1) newDoc
          (final.documentSet.getDocument entry.1)) ∧
      (final.needsRefill ↔ changes.needsRefill ∨ ∃ entry ∈ entries, ∃ newDoc,
        view.newDocument entry.1 entry.2 = .ok newDoc ∧ asksForRefill ordering lastDocInLimit
          firstDocInLimit (oldDocumentSet.getDocument entry.1) newDoc) := by
  induction entries generalizing changes with
  | nil =>
    exact ⟨changes, rfl, hdiff, fun _ _ => rfl, forall_mem_nil _, by simp⟩
  | cons entry entries ih =>
    obtain ⟨key, maybeNewDoc⟩ := entry
    obtain ⟨⟨newDoc, hnewDoc⟩, hnew⟩ := forall_mem_cons.mp hnew
    obtain ⟨hnotMem, hnodup⟩ := nodup_cons.mp hnodup
    obtain ⟨hkey, hold⟩ := forall_mem_cons.mp hold
    obtain ⟨changes₁, hok₁, hdiff₁, hother₁, hfollows₁, hrefill₁⟩ :=
      computeChange_ok hview hlast hfirst hdiff hkey hnewDoc
    -- The keys that are still to come are the old ones.
    have hold₁ : ∀ key' ∈ entries.map Prod.fst,
        changes₁.documentSet.getDocument key' = oldDocumentSet.getDocument key' := by
      intro key' hmem
      rw [hother₁ key' fun heq => hnotMem (heq ▸ hmem)]
      exact hold key' hmem
    obtain ⟨final, hok, hfinal, hother, hfollows, hrefill⟩ := ih hnodup hnew hdiff₁ hold₁
    refine ⟨final, ?_, hfinal, fun key' hmem => ?_, ?_, ?_⟩
    · rw [foldlM_cons, hok₁, ok_bind, hok]
    · obtain ⟨hne, hmem⟩ := not_or.mp (mem_cons.not.mp hmem)
      rw [hother key' hmem, hother₁ key' hne]
    · refine forall_mem_cons.mpr ⟨fun newDoc' hnewDoc' => ?_, hfollows⟩
      obtain rfl := Except.ok.inj (hnewDoc.symm.trans hnewDoc')
      rw [hother key hnotMem]
      exact hfollows₁
    · have hhead : (∃ newDoc, view.newDocument key maybeNewDoc = .ok newDoc ∧
          asksForRefill ordering lastDocInLimit firstDocInLimit
            (oldDocumentSet.getDocument key) newDoc) ↔
          asksForRefill ordering lastDocInLimit firstDocInLimit
            (oldDocumentSet.getDocument key) newDoc := by
        rw [hnewDoc]
        exact ⟨fun ⟨_, heq, h⟩ => Except.ok.inj heq ▸ h, fun h => ⟨newDoc, rfl, h⟩⟩
      rw [hrefill, hrefill₁, Bool.or_eq_true, or_assoc, ← hhead]
      simp only [mem_cons, exists_eq_or_imp]

/-- The loop has looked at every change. -/
theorem newDocument_ok_of_foldlM {oldDocumentSet : DocumentSet}
    {changes final : ViewDocumentChanges}
    (h : entries.foldlM (view.computeChange oldDocumentSet lastDocInLimit firstDocInLimit) changes =
      .ok final) : ∀ entry ∈ entries, ∃ newDoc, view.newDocument entry.1 entry.2 = .ok newDoc := by
  induction entries generalizing changes with
  | nil => exact forall_mem_nil _
  | cons entry entries ih =>
    obtain ⟨changes₁, hstep, h⟩ := foldlM_cons_eq_ok.mp h
    obtain ⟨newDoc, hnewDoc, -⟩ := bind_eq_ok.mp hstep
    exact forall_mem_cons.mpr ⟨⟨newDoc, hnewDoc⟩, ih h⟩

end View

/-! ## Dropping documents -/

def Query.trim (query : Query) (docs : List Document) : List Document :=
  if query.limitType ≠ .none then
    if query.hasLimitToFirst then
      docs.take (docs.length - (docs.length % 2 ^ 31 - query.limitSize))
    else docs.drop (docs.length % 2 ^ 31 - query.limitSize)
  else docs

namespace ViewDocumentChanges

variable {ordering : List OrderBy} {old : View} {changes : ViewDocumentChanges}

section

variable (query : Query) (hdiff : changes.Tracks ordering old)

include hdiff

theorem dropOne_ok (hne : changes.documentSet.sortedSet ≠ []) :
    ∃ changes', changes.dropOne query = .ok changes' ∧ changes'.Tracks ordering old ∧
      changes'.needsRefill = changes.needsRefill ∧
      changes'.documentSet.sortedSet =
        if query.hasLimitToFirst then changes.documentSet.sortedSet.dropLast
        else changes.documentSet.sortedSet.tail := by
  -- One document at an end of the list is erased.
  have hdrop : ∀ {oldDoc : Document} {l₁ l₂ : List Document},
      changes.documentSet.sortedSet = l₁ ++ oldDoc :: l₂ →
      ∃ changes', (do
          let documentSet ← changes.documentSet.erase oldDoc.key
          let mutatedKeys := changes.mutatedKeys.erase oldDoc.key
          { changes with documentSet, mutatedKeys }.addChange oldDoc .removed) = .ok changes' ∧
        changes'.Tracks ordering old ∧ changes'.needsRefill = changes.needsRefill ∧
        changes'.documentSet.sortedSet = l₁ ++ l₂ := by
    intro oldDoc l₁ l₂ hsplit
    have hmem : oldDoc ∈ changes.documentSet.sortedSet := by
      rw [hsplit]
      exact mem_append_right _ mem_cons_self
    have hget := hdiff.sorted.mem_iff.mp hmem
    obtain ⟨set, hok, hcmp, hindex, hset⟩ := hdiff.sorted.erase_ok oldDoc.key
    have hchange : ChangeOf (changes.documentSet.getDocument oldDoc.key) none
        (some ⟨oldDoc, .removed⟩) := by
      rw [DocumentSet.getDocument, hget]
      exact .removed oldDoc oldDoc
    obtain ⟨changeSet, hadd, hdiff'⟩ := hdiff.addChange hchange (hdiff.sorted.sortable hmem)
    rw [hok, ok_bind]
    refine ⟨_, hadd _ _ _, hdiff' _ _ _ hset hcmp (fun key => ?_)
      fun hmarks => hmarks.erase hindex, rfl, ?_⟩
    · rw [DocumentSet.getDocument, hindex, get?_erase]
      split_ifs <;> rfl
    · exact hdiff.sorted.erase_sortedSet hset hindex hsplit
  unfold dropOne
  split_ifs with hlimit
  · rw [DocumentSet.getLastDocument, getLast?_eq_getLast_of_ne_nil hne]
    have hsplit := (dropLast_append_getLast hne).symm
    rw [← append_nil (List.dropLast _)]
    exact hdrop hsplit
  · obtain ⟨oldDoc, rest, hsplit⟩ := exists_cons_of_ne_nil hne
    rw [DocumentSet.getFirstDocument, hsplit]
    exact hdrop (hsplit.trans (nil_append _).symm)

/-- Dropping documents leaves those at the other end. -/
theorem dropOut_ok {n : Nat} (hn : n ≤ changes.documentSet.sortedSet.length) :
    ∃ final, dropOut query n changes = .ok final ∧ final.Tracks ordering old ∧
      final.needsRefill = changes.needsRefill ∧
      final.documentSet.sortedSet =
        if query.hasLimitToFirst then
          changes.documentSet.sortedSet.take (changes.documentSet.sortedSet.length - n)
        else changes.documentSet.sortedSet.drop n := by
  induction n generalizing changes with
  | zero =>
    refine ⟨changes, rfl, hdiff, rfl, ?_⟩
    rw [Nat.sub_zero, take_length, drop_zero, ite_self]
  | succ n ih =>
    have hne : changes.documentSet.sortedSet ≠ [] :=
      ne_nil_of_length_pos (Nat.lt_of_lt_of_le n.succ_pos hn)
    obtain ⟨changes₁, hok₁, hdiff₁, hrefill₁, hset₁⟩ := dropOne_ok query hdiff hne
    have hlength : changes₁.documentSet.sortedSet.length =
        changes.documentSet.sortedSet.length - 1 := by
      rw [hset₁]
      split_ifs
      · exact length_dropLast
      · exact length_tail
    obtain ⟨final, hok, hfinal, hrefill, hset⟩ := ih hdiff₁ (by omega)
    refine ⟨final, ?_, hfinal, hrefill.trans hrefill₁, ?_⟩
    · rw [dropOut, hok₁, ok_bind, hok]
    · rw [hset, hlength, hset₁]
      split_ifs
      · rw [dropLast_eq_take, take_take]
        congr 1
        omega
      · rw [drop_tail]

theorem meetLimit_ok : ∃ final, changes.meetLimit query = .ok final ∧ final.Tracks ordering old ∧
      final.needsRefill = changes.needsRefill ∧
      final.documentSet.sortedSet = query.trim changes.documentSet.sortedSet := by
  unfold meetLimit Query.trim
  by_cases htype : query.limitType ≠ .none
  · rw [if_pos htype, if_pos htype, hdiff.sorted.size_eq]
    exact dropOut_ok query hdiff ((Nat.sub_le _ query.limitSize).trans (Nat.mod_le _ _))
  · rw [if_neg htype, if_neg htype]
    exact ⟨changes, rfl, hdiff, rfl, rfl⟩

end

end ViewDocumentChanges

/-! ## A whole pass -/

namespace View

/-- What the loop makes of a set of documents. -/
structure Looped (view : View) (ordering : List OrderBy)
    (docChanges : OrdMap DocumentKey MaybeDocument) (start looped : ViewDocumentChanges) :
    Prop where
  sorted : looped.documentSet.Sorted (order ordering) (HasFields ordering)
  getDocument_eq {key : DocumentKey} : docChanges.get? key = none →
    looped.documentSet.getDocument key = start.documentSet.getDocument key
  follows {key : DocumentKey} {maybeNewDoc : MaybeDocument} {newDoc : Option Document} :
    docChanges.get? key = some maybeNewDoc → view.newDocument key maybeNewDoc = .ok newDoc →
    Follows (start.documentSet.getDocument key) newDoc (looped.documentSet.getDocument key)
  needsRefill_iff : looped.needsRefill ↔ ∃ key maybeNewDoc newDoc,
    docChanges.get? key = some maybeNewDoc ∧ view.newDocument key maybeNewDoc = .ok newDoc ∧
    asksForRefill ordering (lastDocInLimit view.query start.documentSet)
      (firstDocInLimit view.query start.documentSet) (start.documentSet.getDocument key) newDoc

variable {view : View} {ordering : List OrderBy}

theorem startChanges_tracks (hview : view.WellFormed ordering)
    {previousChanges : Option ViewDocumentChanges}
    (hprevious : ∀ changes ∈ previousChanges, changes.Tracks ordering view) :
    (view.startChanges previousChanges).Tracks ordering view := by
  cases previousChanges with
  | none => exact .refl hview.sorted _
  | some changes =>
    obtain ⟨⟨hsorted, hcmp, hchangeOf, hkey, hfields⟩, hmarks⟩ := hprevious changes rfl
    exact ⟨⟨hsorted, hcmp, hchangeOf, hkey, hfields⟩, hmarks⟩

theorem hasFields_of_lastDocInLimit {query : Query}
    (h : set.Sorted (order ordering) (HasFields ordering)) {doc : Document}
    (hdoc : doc ∈ lastDocInLimit query set) : HasFields ordering doc := by
  unfold lastDocInLimit at hdoc
  split_ifs at hdoc
  · exact h.sortable (mem_of_getLast? hdoc)
  · cases hdoc

theorem hasFields_of_firstDocInLimit {query : Query}
    (h : set.Sorted (order ordering) (HasFields ordering)) {doc : Document}
    (hdoc : doc ∈ firstDocInLimit query set) : HasFields ordering doc := by
  unfold firstDocInLimit at hdoc
  split_ifs at hdoc
  · exact h.sortable (mem_of_head? hdoc)
  · cases hdoc

/-- A pass over changed documents aborts only when a refill asks for a refill. -/
theorem computeDocumentChanges_ok (hview : view.WellFormed ordering)
    {previousChanges : Option ViewDocumentChanges}
    (hprevious : ∀ changes ∈ previousChanges, changes.Tracks ordering view)
    {docChanges : OrdMap DocumentKey MaybeDocument}
    (hnew : ∀ entry ∈ docChanges.entries, ∃ newDoc, view.newDocument entry.1 entry.2 = .ok newDoc) :
    ∃ looped final, view.Looped ordering docChanges (view.startChanges previousChanges) looped ∧
      final.Tracks ordering view ∧ final.needsRefill = looped.needsRefill ∧
      final.documentSet.sortedSet = view.query.trim looped.documentSet.sortedSet ∧
      view.computeDocumentChanges docChanges previousChanges = (do
        hardAssert (!final.needsRefill || previousChanges.isNone)
          "View was refilled using docs that themselves needed refilling."
        return final) := by
  have hstart := startChanges_tracks hview hprevious
  obtain ⟨looped, hok, hlooped, hother, hfollows, hrefill⟩ := foldlM_computeChange hview
    (fun _ => hasFields_of_lastDocInLimit hstart.sorted)
    (fun _ => hasFields_of_firstDocInLimit hstart.sorted) docChanges.nodup_keys hnew hstart
    fun _ _ => rfl
  obtain ⟨final, hlimit, hfinal, hneeds, htrim⟩ :=
    ViewDocumentChanges.meetLimit_ok view.query hlooped
  have hstartRefill : (view.startChanges previousChanges).needsRefill = false := by
    cases previousChanges <;> rfl
  refine ⟨looped, final, ⟨hlooped.sorted, fun {key} hkey => hother key ?_,
    fun {key maybeNewDoc newDoc} hkey => hfollows _ (mem_entries.mpr hkey) newDoc, ?_⟩,
    hfinal, hneeds, htrim, ?_⟩
  · rw [OrdMap.mem_keys, hkey]
    exact nofun
  · rw [hrefill, hstartRefill, or_iff_right Bool.false_ne_true]
    constructor
    · rintro ⟨⟨key, maybeNewDoc⟩, hmem, newDoc, hnewDoc, hasks⟩
      exact ⟨key, maybeNewDoc, newDoc, mem_entries.mp hmem, hnewDoc, hasks⟩
    · rintro ⟨key, maybeNewDoc, newDoc, hget, hnewDoc, hasks⟩
      exact ⟨(key, maybeNewDoc), mem_entries.mpr hget, newDoc, hnewDoc, hasks⟩
  · rw [computeDocumentChanges, hok, ok_bind, hlimit, ok_bind]

end View

end Firebase.Firestore.Core
