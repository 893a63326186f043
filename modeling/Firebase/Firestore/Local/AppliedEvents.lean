import Firebase.Firestore.Local.LocalStoreWrites
import Firebase.Firestore.Remote.KeyedEvents

/-!
# What a remote event changes

What `LocalStore::ApplyRemoteEvent` (`local_store.cc`) leaves in the remote document cache, and
which documents it marks, for each key by itself: the loops do not interfere, since every document
of an event is filed under its own key (`RemoteEvent.Keyed`).
-/

namespace Firebase.Firestore.Local

open Lib Util Model Firestore.Core Remote OrdMap List

/-! ## Target changes -/

variable {keys : DocumentKeySet} {p p' : LevelDbPersistence} {key : DocumentKey}

namespace LocalStore

open LevelDbPersistence

/-- A change of an active target mentions the document as added or removed. -/
def ChangedIn (active : OrdMap Core.TargetId TargetData)
    (entries : List (Core.TargetId × TargetChange)) (key : DocumentKey) : Prop :=
  ∃ entry ∈ entries, (active.get? entry.1).isSome ∧
    (key ∈ entry.2.removedDocuments ∨ key ∈ entry.2.addedDocuments)

/-- The rows that target changes leave alone, and the documents that they mark. -/
structure AppliesChanges (p p' : LevelDbPersistence) (marked : DocumentKey → Prop) : Prop where
  queue : p'.queue = p.queue
  currentSequenceNumber : p'.currentSequenceNumber = p.currentSequenceNumber
  remoteDocuments : p'.tables.remoteDocuments = p.tables.remoteDocuments
  marks : ∀ key, marked key →
    p'.tables.documentTargets.get? (sentinel key) = some p.currentSequenceNumber
  others : ∀ key, ¬ marked key →
    p'.tables.documentTargets.get? (sentinel key) = p.tables.documentTargets.get? (sentinel key)

variable {p : LevelDbPersistence} {marked : DocumentKey → Prop}

theorem AppliesChanges.refl (h : ∀ key, ¬ marked key) : AppliesChanges p p marked :=
  ⟨rfl, rfl, rfl, fun key hkey => absurd hkey (h key), fun _ _ => rfl⟩

theorem AppliesChanges.trans {p₁ p₂ p₃ : LevelDbPersistence} {first second all : DocumentKey → Prop}
    (h : AppliesChanges p₁ p₂ first) (h' : AppliesChanges p₂ p₃ second)
    (hall : ∀ key, all key ↔ first key ∨ second key) : AppliesChanges p₁ p₃ all where
  queue := h'.queue.trans h.queue
  currentSequenceNumber := h'.currentSequenceNumber.trans h.currentSequenceNumber
  remoteDocuments := h'.remoteDocuments.trans h.remoteDocuments
  marks key hkey := by
    by_cases hsecond : second key
    · rw [h'.marks key hsecond, h.currentSequenceNumber]
    · rw [h'.others key hsecond, h.marks key (((hall key).mp hkey).resolve_right hsecond)]
  others key hkey := by
    obtain ⟨hfirst, hsecond⟩ := not_or.mp (mt (hall key).mpr hkey)
    rw [h'.others key hsecond, h.others key hfirst]

section

variable {targetId : Core.TargetId}

/-- Rows of a target and its documents are put or deleted, each followed by the mark of the
document. -/
theorem AppliesChanges.of_foldlM
    (edit : Core.TargetId → LevelDbPersistence → DocumentKey → LevelDbPersistence)
    (hedit : ∀ p key, ∃ targetDocuments documentTargets,
      edit targetId p key = { p with tables := { p.tables with targetDocuments, documentTargets }
        } ∧
      ∀ k, (ofLex k).2 ≠ targetId → documentTargets.get? k = p.tables.documentTargets.get? k)
    {keys : List DocumentKey}
    (h : keys.foldlM (fun p key => (edit targetId p key).writeSentinel key) p = .ok p') :
    p'.tables.remoteDocuments = p.tables.remoteDocuments ∧
      (targetId ≠ 0 → AppliesChanges p p' (· ∈ keys)) := by
  induction keys generalizing p with
  | nil =>
    cases h
    exact ⟨rfl, fun _ => .refl nofun⟩
  | cons first keys ih =>
    obtain ⟨p₁, hfirst, hrest⟩ := foldlM_cons_eq_ok.mp h
    obtain ⟨targetDocuments, edited, heq, hother⟩ := hedit p first
    rw [heq] at hfirst
    obtain ⟨n, hn, hp₁⟩ := writeSentinel_ok hfirst
    obtain ⟨hdocs, hall⟩ := ih hrest
    refine ⟨hdocs.trans (by rw [hp₁]), fun hid => ?_⟩
    have hone : AppliesChanges p p₁ (· = first) := by
      rw [hp₁]
      refine ⟨rfl, rfl, rfl, ?_, fun key hkey => ?_⟩
      · rintro _ rfl
        exact (get?_insert _ _ _ _).trans ((if_pos rfl).trans (congrArg some hn.symm))
      · refine (get?_insert _ _ _ _).trans ((if_neg fun heq => ?_).trans (hother _ hid.symm))
        exact hkey (Prod.mk.inj (toLex_inj.mp heq)).1
    exact hone.trans (hall hid) fun key => mem_cons

theorem AppliesChanges.addMatchingKeys (h : p.addMatchingKeys keys targetId = .ok p') :
    p'.tables.remoteDocuments = p.tables.remoteDocuments ∧
      (targetId ≠ 0 → AppliesChanges p p' (· ∈ keys)) := by
  have hfold := of_foldlM putMatch (fun p key => ⟨_, _, rfl, fun k hk => ?_⟩) h
  · simpa only [Finset.mem_sort] using hfold
  · rw [get?_insert, if_neg]
    rintro rfl
    exact hk rfl

theorem AppliesChanges.removeMatchingKeys (h : p.removeMatchingKeys keys targetId = .ok p') :
    p'.tables.remoteDocuments = p.tables.remoteDocuments ∧
      (targetId ≠ 0 → AppliesChanges p p' (· ∈ keys)) := by
  have hfold := of_foldlM deleteMatch (fun p key => ⟨_, _, rfl, fun k hk => ?_⟩) h
  · simpa only [Finset.mem_sort] using hfold
  · rw [get?_erase, if_neg]
    rintro rfl
    exact hk rfl

end

theorem AppliesChanges.updateTarget (h : AppliesChanges p p' marked) (targetData : TargetData) :
    AppliesChanges p (p'.updateTarget targetData) marked := by
  unfold LevelDbPersistence.updateTarget
  dsimp only
  split_ifs <;> exact { h with }

variable {version : SnapshotVersion}
  {state state' : LevelDbPersistence × OrdMap Core.TargetId TargetData}

/-- A round over the target changes. -/
theorem applyTargetChange_applies
    {entry : Core.TargetId × TargetChange} (hids : IdsIn {id | 0 < id} state.2)
    (h : applyTargetChange version state entry = .ok state') :
    AppliesChanges state.1 state'.1 (ChangedIn state.2 [entry]) ∧
      ∀ id, (state'.2.get? id).isSome = (state.2.get? id).isSome := by
  rcases applyTargetChange_ok h with ⟨hinactive, rfl⟩ | ⟨old, p₁, p₂, hactive, hremove, hadd, hlast⟩
  · refine ⟨.refl ?_, fun _ => rfl⟩
    rintro key ⟨entry', hmem, hsome, -⟩
    rw [mem_singleton.mp hmem, hinactive] at hsome
    cases hsome
  · have hid : entry.1 ≠ 0 := (hids _ _ hactive).1.ne'
    have hsome : (state.2.get? entry.1).isSome := by
      rw [hactive]
      rfl
    have hboth : AppliesChanges state.1 p₂ (ChangedIn state.2 [entry]) := by
      refine ((AppliesChanges.removeMatchingKeys hremove).2 hid).trans
        ((AppliesChanges.addMatchingKeys hadd).2 hid) fun key => ?_
      simp [ChangedIn, hsome]
    rcases hlast with rfl | ⟨targetData, -, -, hinsert, hrow⟩
    · exact ⟨hboth, fun _ => rfl⟩
    · refine ⟨?_, fun id => ?_⟩
      · rcases hrow with heq | heq
        · rwa [heq]
        · rw [heq]
          exact hboth.updateTarget targetData
      · rw [hinsert, Bool.eq_iff_iff, isSome_get?_insert]
        exact or_iff_right_of_imp fun heq => heq ▸ hsome

variable {entries : List (Core.TargetId × TargetChange)}

/-- All rounds over the target changes. -/
theorem foldlM_applyTargetChange (hids : IdsIn {id | 0 < id} state.2)
    (h : entries.foldlM (applyTargetChange version) state = .ok state') :
    AppliesChanges state.1 state'.1 (ChangedIn state.2 entries) := by
  induction entries generalizing state with
  | nil =>
    cases h
    exact .refl fun key ⟨_, hmem, _⟩ => nomatch hmem
  | cons entry entries ih =>
    obtain ⟨state₁, hfirst, hrest⟩ := foldlM_cons_eq_ok.mp h
    obtain ⟨hchange, hactive⟩ := applyTargetChange_applies hids hfirst
    refine hchange.trans (ih (applyTargetChange_idsIn hids hfirst) hrest) fun key => ?_
    simp [ChangedIn, hactive]

/-! ## Document updates -/

def updatedDocument (doc : MaybeDocument) (old : Option MaybeDocument) : Option MaybeDocument :=
  if isRemoval doc then none else if isNewer doc old then some doc else old

variable {t : LevelDbTables}

/-- `GetAll` finds what is there. -/
theorem foldlM_getRemoteDocument {keys : List DocumentKey} {map map' : OptionalMaybeDocumentMap}
    (h : keys.foldlM (fun map key => do return map.insert key (← t.getRemoteDocument key)) map =
      .ok map') (key : DocumentKey) : map'.get? key =
      if key ∈ keys then some (t.remoteDocuments.get? key) else map.get? key := by
  induction keys generalizing map with
  | nil =>
    cases h
    rfl
  | cons first keys ih =>
    obtain ⟨map₁, hfirst, hrest⟩ := foldlM_cons_eq_ok.mp h
    obtain ⟨doc, hdoc, hfirst⟩ := bind_eq_ok.mp hfirst
    cases hfirst
    rw [ih hrest, get?_insert, ← getRemoteDocument_ok hdoc]
    by_cases hkey : key = first
    · simp [hkey]
    · simp [hkey]

theorem getAllRemoteDocuments_ok
    {docs : OptionalMaybeDocumentMap} (h : t.getAllRemoteDocuments keys = .ok docs)
    (hkey : key ∈ keys) : docs.get? key = some (t.remoteDocuments.get? key) := by
  rw [foldlM_getRemoteDocument h, if_pos ((Finset.mem_sort _).mpr hkey)]

/-- What the updates of documents do to the rows of each key. -/
structure AppliesUpdates (event : RemoteEvent) (updates : List (DocumentKey × MaybeDocument))
    (p p' : LevelDbPersistence) : Prop where
  currentSequenceNumber : p'.currentSequenceNumber = p.currentSequenceNumber
  updated : ∀ key doc, (key, doc) ∈ updates → p'.tables.remoteDocuments.get? key =
    updatedDocument doc (p.tables.remoteDocuments.get? key)
  kept : ∀ key, key ∉ updates.map Prod.fst →
    p'.tables.remoteDocuments.get? key = p.tables.remoteDocuments.get? key
  marks : ∀ key, key ∈ updates.map Prod.fst → key ∈ event.limboDocumentChanges →
    p'.tables.documentTargets.get? (sentinel key) = some p.currentSequenceNumber
  others : ∀ key, ¬ (key ∈ updates.map Prod.fst ∧ key ∈ event.limboDocumentChanges) →
    p'.tables.documentTargets.get? (sentinel key) = p.tables.documentTargets.get? (sentinel key)

variable {event : RemoteEvent} {existingDocs : OptionalMaybeDocumentMap}

/-- A round over the document updates. -/
theorem applyDocumentUpdate_applies {state state' : LevelDbPersistence × OptionalMaybeDocumentMap}
    {doc : MaybeDocument} (hkey : doc.key = key)
    (hexisting : (existingDocs.get? key).join = state.1.tables.remoteDocuments.get? key)
    (h : applyDocumentUpdate event existingDocs state (key, doc) = .ok state') :
    AppliesUpdates event [(key, doc)] state.1 state'.1 := by
  obtain ⟨p₁, hupdate, hlast⟩ := applyDocumentUpdate_ok h
  -- Whatever happens to the document, its row is the only one that changes.
  have hrows : p₁.currentSequenceNumber = state.1.currentSequenceNumber ∧
      p₁.tables.documentTargets = state.1.tables.documentTargets ∧
      p₁.tables.remoteDocuments.get? key =
        updatedDocument doc (state.1.tables.remoteDocuments.get? key) ∧
      ∀ key', key' ≠ key →
        p₁.tables.remoteDocuments.get? key' = state.1.tables.remoteDocuments.get? key' := by
    rw [hexisting] at hupdate
    unfold updatedDocument
    rcases hupdate with ⟨hremoval, rfl⟩ | ⟨hremoval, hnewer, hadd⟩ | ⟨hremoval, hnewer, rfl⟩
    · have herase := state.1.tables.remoteDocuments.get?_erase key
      rw [if_pos hremoval]
      exact ⟨rfl, rfl, (herase key).trans (if_pos rfl),
        fun key' hne => (herase key').trans (if_neg hne)⟩
    · obtain ⟨hsame, hdocs⟩ := addDocument_same hadd
      rw [hdocs, hkey, hremoval, hnewer]
      refine ⟨hsame.currentSequenceNumber, hsame.documentTargets, ?_, fun key' hne => ?_⟩
      · rw [get?_insert, if_pos rfl]
        rfl
      · rw [get?_insert, if_neg hne]
    · rw [hremoval, hnewer]
      exact ⟨rfl, rfl, rfl, fun _ _ => rfl⟩
  obtain ⟨hcurrent, htargets, hhere, hothers⟩ := hrows
  have hsentinel : ∀ key', sentinel key' = sentinel key ↔ key' = key :=
    fun key' => ⟨fun heq => (Prod.mk.inj (toLex_inj.mp heq)).1, congrArg sentinel⟩
  rcases hlast with ⟨hlimbo, hmark⟩ | ⟨hlimbo, heq⟩
  · obtain ⟨n, hn, heq⟩ := writeSentinel_ok hmark
    rw [heq]
    exact {
      currentSequenceNumber := hcurrent
      updated := fun key' doc' hmem => by
        obtain ⟨rfl, rfl⟩ := Prod.mk.inj (mem_singleton.mp hmem)
        exact hhere
      kept := fun key' hmem => hothers key' (by simpa using hmem)
      marks := fun key' hmem _ => by
        obtain rfl : key' = key := by simpa using hmem
        rw [get?_insert, if_pos rfl, ← hcurrent, hn]
      others := fun key' hmem => by
        have hne : key' ≠ key := by
          rintro rfl
          exact hmem ⟨by simp, hlimbo⟩
        rw [get?_insert, if_neg (mt (hsentinel key').mp hne), htargets] }
  · rw [heq]
    exact {
      currentSequenceNumber := hcurrent
      updated := fun key' doc' hmem => by
        obtain ⟨rfl, rfl⟩ := Prod.mk.inj (mem_singleton.mp hmem)
        exact hhere
      kept := fun key' hmem => hothers key' (by simpa using hmem)
      marks := fun key' hmem hlimbo' => by
        obtain rfl : key' = key := by simpa using hmem
        exact absurd hlimbo' hlimbo
      others := fun key' _ => by rw [htargets] }

/-- All rounds over the document updates. -/
theorem foldlM_applyDocumentUpdate {updates : List (DocumentKey × MaybeDocument)}
    {state state' : LevelDbPersistence × OptionalMaybeDocumentMap}
    (hnodup : (updates.map Prod.fst).Nodup) (hkeyed : ∀ update ∈ updates, update.2.key = update.1)
    (hexisting : ∀ update ∈ updates,
      (existingDocs.get? update.1).join = state.1.tables.remoteDocuments.get? update.1)
    (h : updates.foldlM (applyDocumentUpdate event existingDocs) state = .ok state') :
    AppliesUpdates event updates state.1 state'.1 := by
  induction updates generalizing state with
  | nil =>
    cases h
    exact ⟨rfl, nofun, fun _ _ => rfl, nofun, fun _ _ => rfl⟩
  | cons update updates ih =>
    obtain ⟨key, doc⟩ := update
    obtain ⟨state₁, hfirst, hrest⟩ := foldlM_cons_eq_ok.mp h
    rw [map_cons, nodup_cons] at hnodup
    obtain ⟨hkey, hkeyed⟩ := forall_mem_cons.mp hkeyed
    obtain ⟨hhere, hexisting⟩ := forall_mem_cons.mp hexisting
    have hone := applyDocumentUpdate_applies hkey hhere hfirst
    have hall := ih hnodup.2 hkeyed (fun update hmem => by
      rw [hexisting update hmem, hone.kept update.1]
      rintro hsame
      have heq : update.1 = key := by simpa using hsame
      exact hnodup.1 (heq ▸ mem_map.mpr ⟨_, hmem, rfl⟩)) hrest
    exact {
      currentSequenceNumber := hall.currentSequenceNumber.trans hone.currentSequenceNumber
      updated := fun key' doc' hmem => by
        rcases mem_cons.mp hmem with heq | hmem
        · obtain ⟨rfl, rfl⟩ := Prod.mk.inj heq
          rw [hall.kept key' hnodup.1, hone.updated key' doc' mem_cons_self]
        · rw [hall.updated key' doc' hmem, hone.kept key']
          rintro hsame
          have heq : key' = key := by simpa using hsame
          exact hnodup.1 (heq ▸ mem_map.mpr ⟨_, hmem, rfl⟩)
      kept := fun key' hmem => by
        rw [map_cons, mem_cons, not_or] at hmem
        rw [hall.kept key' hmem.2, hone.kept key' (by simpa using hmem.1)]
      marks := fun key' hmem hlimbo => by
        by_cases hlater : key' ∈ updates.map Prod.fst
        · rw [hall.marks key' hlater hlimbo, hone.currentSequenceNumber]
        · rw [hall.others key' fun h => hlater h.1]
          rw [map_cons, mem_cons] at hmem
          exact hone.marks key' (by simpa using hmem.resolve_right hlater) hlimbo
      others := fun key' hmem => by
        rw [hall.others key' fun h => hmem ⟨mem_cons_of_mem _ h.1, h.2⟩,
          hone.others key' fun h => hmem ⟨by simp_all, h.2⟩] }

/-! ## The event -/

variable {s s' : LocalStore} {event : RemoteEvent} {answer : MaybeDocumentMap}

/-- Target changes do not touch the documents. -/
theorem foldlM_applyTargetChange_remoteDocuments
    (h : entries.foldlM (applyTargetChange version) state = .ok state') :
    state'.1.tables.remoteDocuments = state.1.tables.remoteDocuments := by
  refine foldlM_keeps (·.1.tables.remoteDocuments) (fun state₁ entry _ state₂ hround => ?_) h
  rcases applyTargetChange_ok hround with ⟨-, rfl⟩ | ⟨old, p₁, p₂, -, hremove, hadd, hlast⟩
  · rfl
  · have hsame := (AppliesChanges.addMatchingKeys hadd).1.trans
      (AppliesChanges.removeMatchingKeys hremove).1
    rcases hlast with rfl | ⟨targetData, -, -, -, heq | heq⟩
    · exact hsame
    · rw [heq]
      exact hsame
    · rw [heq]
      unfold LevelDbPersistence.updateTarget
      dsimp only
      split_ifs <;> exact hsame

/-- The updates of an event, on the rows that the target changes leave. -/
theorem applyRemoteEvent_updates (hkeyed : event.Keyed)
    (h : s.applyRemoteEvent event = .ok (s', answer)) :
    ∃ p₁ targets, event.targetChanges.entries.foldlM (applyTargetChange event.snapshotVersion)
        (s.persistence.started, s.targetDataByTarget) = .ok (p₁, targets) ∧
      AppliesUpdates event event.documentUpdates.entries p₁
        { s'.persistence with currentSequenceNumber := p₁.currentSequenceNumber } := by
  obtain ⟨-, p₁, targets, existingDocs, p₂, changedDocs, p₃, htargets, hexisting, hdocs, hsave,
    rfl⟩ := applyRemoteEvent_ok h
  have hupdates : AppliesUpdates event event.documentUpdates.entries p₁ p₂ :=
    foldlM_applyDocumentUpdate (nodup_keys _)
      (fun update hmem => hkeyed _ _ (mem_entries.mp hmem))
      (fun update hmem => by
        rw [getAllRemoteDocuments_ok hexisting
          (mem_toFinset.mpr (mem_map_of_mem hmem))]
        rfl) hdocs
  have hsaved : p₃.tables.remoteDocuments = p₂.tables.remoteDocuments ∧
      p₃.tables.documentTargets = p₂.tables.documentTargets := by
    unfold saveSnapshotVersion at hsave
    split_ifs at hsave
    · obtain ⟨_, -, hsave⟩ := bind_eq_ok.mp hsave
      cases hsave
      exact ⟨rfl, rfl⟩
    · cases hsave
      exact ⟨rfl, rfl⟩
  refine ⟨p₁, targets, htargets, rfl, ?_, ?_, ?_, ?_⟩
  all_goals dsimp only [onTransactionCommitted]
  · rw [hsaved.1]
    exact hupdates.updated
  · rw [hsaved.1]
    exact hupdates.kept
  · rw [hsaved.2]
    exact hupdates.marks
  · rw [hsaved.2]
    exact hupdates.others

/-- What is in the cache for each key after an event. -/
theorem applyRemoteEvent_documents (hkeyed : event.Keyed)
    (h : s.applyRemoteEvent event = .ok (s', answer)) (key : DocumentKey) :
    s'.tables.remoteDocuments.get? key = match event.documentUpdates.get? key with
      | none => s.tables.remoteDocuments.get? key
      | some doc => updatedDocument doc (s.tables.remoteDocuments.get? key) := by
  obtain ⟨p₁, targets, htargets, hupdates⟩ := applyRemoteEvent_updates hkeyed h
  have hchanges : p₁.tables.remoteDocuments = s.tables.remoteDocuments :=
    foldlM_applyTargetChange_remoteDocuments htargets
  rw [← hchanges]
  cases hupdate : event.documentUpdates.get? key with
  | none =>
    refine hupdates.kept key ?_
    rw [OrdMap.mem_keys, hupdate]
    exact Bool.false_ne_true
  | some doc => exact hupdates.updated key doc (mem_entries.mpr hupdate)

/-- Which documents have a sentinel row after an event. -/
theorem applyRemoteEvent_sentinels (hids : IdsIn {id | 0 < id} s.targetDataByTarget)
    (hkeyed : event.Keyed) (h : s.applyRemoteEvent event = .ok (s', answer))
    (key : DocumentKey) : (s'.tables.documentTargets.get? (sentinel key)).isSome ↔
      (s.tables.documentTargets.get? (sentinel key)).isSome ∨
        ChangedIn s.targetDataByTarget event.targetChanges.entries key ∨
          ((event.documentUpdates.get? key).isSome ∧ key ∈ event.limboDocumentChanges) := by
  obtain ⟨p₁, targets, htargets, hupdates⟩ := applyRemoteEvent_updates hkeyed h
  have hchanges := foldlM_applyTargetChange hids htargets
  have hcurrent : p₁.currentSequenceNumber = some (s.persistence.previousSequenceNumber + 1) :=
    hchanges.currentSequenceNumber
  have hmem : key ∈ event.documentUpdates.entries.map Prod.fst ↔
      (event.documentUpdates.get? key).isSome := OrdMap.mem_keys
  rw [← hmem]
  by_cases hlimbo : key ∈ event.documentUpdates.entries.map Prod.fst ∧
      key ∈ event.limboDocumentChanges
  · have hmark := hupdates.marks key hlimbo.1 hlimbo.2
    exact iff_of_true (Option.isSome_iff_exists.mpr ⟨_, hmark⟩) (.inr (.inr hlimbo))
  · have hkept := hupdates.others key hlimbo
    rw [hkept]
    by_cases hchanged : ChangedIn s.targetDataByTarget event.targetChanges.entries key
    · have hmark := hchanges.marks key hchanged
      exact iff_of_true (Option.isSome_iff_exists.mpr ⟨_, hmark⟩) (.inr (.inl hchanged))
    · rw [show p₁.tables.documentTargets.get? (sentinel key) = _ from hchanges.others key hchanged]
      exact (or_iff_left (not_or.mpr ⟨hchanged, hlimbo⟩)).symm

end LocalStore

end Firebase.Firestore.Local
