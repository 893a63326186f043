import Firebase.Firestore.Local.CachedVersions
import Firebase.Firestore.Local.ListenSequences

/-!
# Documents that can be collected

The LRU collection finds documents by their sentinel rows, which the reference delegate
(`leveldb_lru_reference_delegate.cc`) writes.  The remote document cache itself writes none.
-/

namespace Firebase.Firestore.Local

open Lib Util Model Firestore.Core Remote Option
open OrdMap (get?_insert get?_erase get?_erase_eq_some)

/-! ## Rows of documents and targets -/

/-- The rows of `document_target` have ids that are not negative, the sentinel rows have numbers
from 1 on, and the documents of targets have sentinel rows. -/
structure MarkedRows (rows : OrdMap (DocumentKey ×ₗ Core.TargetId) (Option Int)) : Prop where
  ids : ∀ k value, rows.get? k = some value → 0 ≤ (ofLex k).2
  numbers : ∀ key value, rows.get? (sentinel key) = some value → ∃ n, value = some n ∧ 1 ≤ n
  inTarget : ∀ key id value, id ≠ 0 → rows.get? (toLex (key, id)) = some value →
    (rows.get? (sentinel key)).isSome

variable {t : LevelDbTables}

section

variable (h : MarkedRows t.documentTargets)
  (hblank : ∀ id, t.documentTargets.get? (toLex (DocumentKey.empty, id)) = none)

include h hblank

theorem MarkedRows.readable : t.ReadableSentinels := by
  intro k value hget
  constructor
  · intro heq
    have hk : k = toLex (DocumentKey.empty, (ofLex k).2) := by
      rw [← heq]
      rfl
    rw [hk, hblank] at hget
    cases hget
  · intro hzero
    rw [← LevelDbTables.sentinel_eq hzero] at hget
    obtain ⟨n, rfl, -⟩ := h.numbers _ value hget
    rfl

/-- The documents that are reported are those that belong to no target. -/
theorem MarkedRows.mem_reports :
    ∃ reports, t.enumerateOrphanedDocuments = .ok reports ∧ ∀ key n, (key, n) ∈ reports ↔
      t.documentTargets.get? (sentinel key) = some (some n) ∧ ¬ t.InTarget key := by
  obtain ⟨reports, hreports, hmem⟩ :=
    LevelDbTables.mem_enumerateOrphanedDocuments (h.readable hblank)
  refine ⟨reports, hreports, fun key n => ?_⟩
  rw [hmem, LevelDbTables.covered_iff_inTarget h.ids fun key ⟨id, value, hid, hget⟩ =>
    h.inTarget key id value hid hget]
  constructor
  · exact fun hreport => ⟨hreport.1, hreport.2.2⟩
  · rintro ⟨hget, htarget⟩
    obtain ⟨m, hm, hpos⟩ := h.numbers key _ hget
    cases hm
    exact ⟨hget, by rintro rfl; exact absurd hpos (by decide), htarget⟩

end

variable {reports : List (DocumentKey × Int)}

/-- An enumeration that comes to its end has met no row of the blank key. -/
theorem not_blank_of_enumerateRows {rows : List ((DocumentKey ×ₗ Core.TargetId) × Option Int)}
    {nextToReport : Int} {keyToReport : DocumentKey}
    (h : LevelDbTables.enumerateRows nextToReport keyToReport rows = .ok reports) :
    ∀ row ∈ rows, (ofLex row.1).1 ≠ DocumentKey.empty := by
  induction rows generalizing nextToReport keyToReport reports with
  | nil => exact nofun
  | cons row rows ih =>
    obtain ⟨k, value⟩ := row
    obtain ⟨_, hassert, h⟩ := bind_eq_ok.mp h
    refine List.forall_mem_cons.mpr ⟨of_decide_eq_true (hardAssert_eq_ok.mp hassert), ?_⟩
    split_ifs at h
    · obtain ⟨n, -, h⟩ := bind_eq_ok.mp h
      obtain ⟨later, hlater, -⟩ := bind_eq_ok.mp h
      exact ih hlater
    · exact ih h

theorem not_blank_of_enumerateOrphanedDocuments (h : t.enumerateOrphanedDocuments = .ok reports)
    (id : Core.TargetId) : t.documentTargets.get? (toLex (DocumentKey.empty, id)) = none := by
  by_contra hsome
  obtain ⟨value, hvalue⟩ := ne_none_iff_exists'.mp hsome
  exact not_blank_of_enumerateRows h _ (OrdMap.mem_entries.mpr hvalue) rfl

variable {p₁ p₂ p₃ : LevelDbPersistence} {data : TargetData}

namespace LevelDbPersistence

variable {scope : WriteScope} {p p' : LevelDbPersistence}

/-- What a write does to the rows: a new row belongs to a target and its document is marked, or it
is a sentinel row with the number of the transaction.  No sentinel row is lost. -/
structure MarksRows (p p' : LevelDbPersistence) : Prop where
  rows : ∀ k value, p'.tables.documentTargets.get? k = some value →
    p.tables.documentTargets.get? k = some value ∨
    0 < (ofLex k).2 ∧ (p'.tables.documentTargets.get? (sentinel (ofLex k).1)).isSome ∨
    (ofLex k).2 = 0 ∧ value = p.currentSequenceNumber ∧ value.isSome
  kept : ∀ key, (p.tables.documentTargets.get? (sentinel key)).isSome →
    (p'.tables.documentTargets.get? (sentinel key)).isSome

theorem MarksRows.of_eq (h : p'.tables.documentTargets = p.tables.documentTargets) :
    MarksRows p p' := by
  constructor <;> rw [h]
  · exact fun _ _ => .inl
  · exact fun _ => id

theorem MarksRows.trans (h : MarksRows p₁ p₂)
    (h' : MarksRows p₂ p₃) (hcurrent : p₂.currentSequenceNumber = p₁.currentSequenceNumber) :
    MarksRows p₁ p₃ where
  rows k value hget := by
    rcases h'.rows k value hget with hget | hmatch | ⟨hzero, hvalue, hsome⟩
    · rcases h.rows k value hget with hget | ⟨hpos, hsome⟩ | hmark
      · exact .inl hget
      · exact .inr (.inl ⟨hpos, h'.kept _ hsome⟩)
      · exact .inr (.inr hmark)
    · exact .inr (.inl hmatch)
    · exact .inr (.inr ⟨hzero, hvalue.trans hcurrent, hsome⟩)
  kept key hsome := h'.kept key (h.kept key hsome)

/-- Sentinel rows that are put. -/
theorem MarksRows.of_sentinels (marked : DocumentKey ×ₗ Core.TargetId → Prop) [DecidablePred marked]
    (hmarked : ∀ k, marked k → (ofLex k).2 = 0 ∧ p.currentSequenceNumber.isSome)
    (hrows : ∀ k, p'.tables.documentTargets.get? k =
      if marked k then some p.currentSequenceNumber else p.tables.documentTargets.get? k) :
    MarksRows p p' where
  rows k value hget := by
    rw [hrows] at hget
    split_ifs at hget with hk
    · cases hget
      exact .inr (.inr ⟨(hmarked k hk).1, rfl, (hmarked k hk).2⟩)
    · exact .inl hget
  kept key hsome := by
    rw [hrows]
    split_ifs
    · rfl
    · exact hsome

/-- A row of a target, after which its document is marked. -/
theorem MarksRows.of_match {targetId : Core.TargetId} {key : DocumentKey} {n : Int}
    {edited : OrdMap (DocumentKey ×ₗ Core.TargetId) (Option Int)} (hid : 0 < targetId)
    (hedited : ∀ k, k ≠ toLex (key, targetId) →
      edited.get? k = p.tables.documentTargets.get? k)
    (hn : p.currentSequenceNumber = some n)
    (hrows : p'.tables.documentTargets = edited.insert (sentinel key) (some n)) :
    MarksRows p p' where
  rows k value hget := by
    rw [hrows, get?_insert] at hget
    split_ifs at hget with hk
    · refine .inr (.inr ⟨by rw [hk]; rfl, ?_, by rw [← some.inj hget]; rfl⟩)
      rw [hn, some.inj hget]
    · by_cases hmatch : k = toLex (key, targetId)
      · refine .inr (.inl ⟨by rw [hmatch]; exact hid, ?_⟩)
        rw [hmatch, hrows, get?_insert]
        exact congrArg isSome (if_pos rfl)
      · rw [hedited k hmatch] at hget
        exact .inl hget
  kept key' hsome := by
    rw [hrows, get?_insert]
    split_ifs
    · rfl
    · rw [hedited]
      · exact hsome
      · intro heq
        exact hid.ne (Prod.mk.inj (toLex_inj.mp heq)).2

structure PositiveTargets (p : LevelDbPersistence) : Prop where
  rows : ∀ id targetData, p.tables.targets.get? id = some targetData → 0 < targetData.targetId
  highest : 0 ≤ p.metadata.highestTargetId

theorem TargetGlobal.le_highestTargetId_update (metadata : TargetGlobal) (data : TargetData) :
    metadata.highestTargetId ≤ (metadata.update data).2.highestTargetId := by
  dsimp only [TargetGlobal.update]
  split_ifs with hid
  · exact (of_decide_eq_true hid).le
  · exact le_rfl

theorem PositiveTargets.insert (h : p.PositiveTargets) (hid : 0 < data.targetId)
    (htargets : p'.tables.targets = p.tables.targets.insert data.targetId data)
    (hhighest : p.metadata.highestTargetId ≤ p'.metadata.highestTargetId) : p'.PositiveTargets where
  rows := htargets ▸ OrdMap.forall_insert h.rows hid
  highest := h.highest.trans hhighest

section

variable (htargets : ∀ id ∈ scope.targets, 0 < id)

include htargets

theorem Write.marks (h : Write scope p p') (hp : p.PositiveTargets) :
    p'.PositiveTargets ∧ ((∀ key, key ∉ scope.collected) → MarksRows p p') := by
  cases h with
  | startMutationQueue | setLastStreamToken | removeDocument | setLastRemoteSnapshotVersion =>
    exact ⟨{ hp with }, fun _ => .of_eq rfl⟩
  | addMutationBatch hbases hmuts h =>
    obtain ⟨_, _, _, _, _, rfl⟩ := addMutationBatch_eq h
    exact ⟨{ hp with }, fun _ => .of_eq rfl⟩
  | removeMutationBatch hbatch h =>
    have hcurrent := removeMutationBatch_current h
    obtain ⟨_, _, rows, rfl, hrows⟩ := removeMutationBatch_eq h
    refine ⟨{ hp with }, fun _ => .of_sentinels _ (fun k hk => ?_) hrows⟩
    obtain ⟨mutation, -, rfl⟩ := hk
    exact ⟨rfl, hcurrent⟩
  | addDocument hkey h =>
    obtain ⟨-, hindex⟩ := addDocument_ok h
    obtain ⟨-, _, rfl, -⟩ := addToCollectionParentIndex_ok hindex
    exact ⟨{ hp with }, fun _ => .of_eq rfl⟩
  | removeOrphan refs bound count hkey =>
    next report =>
    refine ⟨?_, fun hcollected => absurd hkey (hcollected _)⟩
    rcases removeOrphan_eq refs bound (p, count) report with heq | heq
    · rwa [heq]
    · rw [heq]
      exact { hp with }
  | writeSentinel h =>
    next key =>
    obtain ⟨n, hn, rfl⟩ := writeSentinel_ok h
    refine ⟨{ hp with }, fun _ => .of_sentinels (· = sentinel key) (fun k hk => ?_) fun k => ?_⟩
    · rw [hk, hn]
      exact ⟨rfl, rfl⟩
    · convert p.tables.documentTargets.get?_insert _ _ _
  | addMatch hid h =>
    obtain ⟨n, hn, rfl⟩ := writeSentinel_ok h
    exact ⟨{ hp with }, fun _ => .of_match (htargets _ hid)
      (fun k hk => (get?_insert _ _ _ _).trans (if_neg hk)) hn rfl⟩
  | removeMatch hid h =>
    obtain ⟨n, hn, rfl⟩ := writeSentinel_ok h
    exact ⟨{ hp with }, fun _ => .of_match (htargets _ hid)
      (fun k hk => (get?_erase _ _ _).trans (if_neg hk)) hn rfl⟩
  | addTarget canonicalId hid h =>
    exact ⟨hp.insert (htargets _ hid) rfl (TargetGlobal.le_highestTargetId_update _ _),
      fun _ => .of_eq rfl⟩
  | updateTarget hid h =>
    next data =>
    obtain ⟨_, heq, -⟩ := p.updateTarget_tables data
    rw [heq]
    exact ⟨hp.insert (htargets _ hid) rfl (TargetGlobal.le_highestTargetId_update _ _),
      fun _ => .of_eq rfl⟩
  | removeTarget canonicalId hrow =>
    next id data =>
    obtain ⟨_, rows, _, heq, hold, hother⟩ := removeTarget_eq canonicalId p data
    rw [heq]
    refine ⟨⟨fun id targetData' hget => hp.rows id targetData' (get?_erase_eq_some.mp hget).2,
      hp.highest⟩, fun _ => ⟨fun k value hget => .inl (hold k value hget), fun key hsome => ?_⟩⟩
    have hsame := hother (sentinel key) (hp.rows _ _ hrow).ne
    exact (congrArg isSome hsame).trans hsome

theorem Writes.marks (h : Writes scope p p') (hp : p.PositiveTargets) :
    p'.PositiveTargets ∧ ((∀ key, key ∉ scope.collected) → MarksRows p p') := by
  induction h with
  | refl => exact ⟨hp, fun _ => .of_eq rfl⟩
  | tail hbefore hwrite ih =>
    obtain ⟨hpositive, hmarks⟩ := hwrite.marks htargets ih.1
    exact ⟨hpositive, fun hcollected => (ih.2 hcollected).trans (hmarks hcollected)
      (Writes.writesNumbers hbefore).current⟩

end

/-! ## Transactions -/

structure Sound (p : LevelDbPersistence) : Prop where
  version : p.tables.version = some LevelDbTables.kSchemaVersion
  saved : p.tables.targetGlobal = some p.metadata
  previous : 0 ≤ p.previousSequenceNumber
  highest : 0 ≤ p.metadata.highestListenSequenceNumber
  positive : p.PositiveTargets
  rows : MarkedRows p.tables.documentTargets

theorem sound_new : new.Sound where
  version := rfl
  saved := rfl
  previous := le_rfl
  highest := le_rfl
  positive := ⟨fun _ _ h => absurd h (some_ne_none _).symm, le_rfl⟩
  rows := {
    ids := fun _ _ h => absurd h (some_ne_none _).symm
    numbers := fun _ _ h => absurd h (some_ne_none _).symm
    inTarget := fun _ _ _ _ h => absurd h (some_ne_none _).symm }

/-- New rows of a transaction are well formed. -/
theorem MarksRows.markedRows (hmarks : MarksRows p p') (h : MarkedRows p.tables.documentTargets)
    (hcurrent : ∀ n, p.currentSequenceNumber = some n → 1 ≤ n) :
    MarkedRows p'.tables.documentTargets where
  ids k value hget := by
    rcases hmarks.rows k value hget with hget | ⟨hpos, -⟩ | ⟨hzero, -, -⟩
    · exact h.ids k value hget
    · exact hpos.le
    · exact hzero.ge
  numbers key value hget := by
    rcases hmarks.rows _ value hget with hget | ⟨hpos, -⟩ | ⟨-, hvalue, hsome⟩
    · exact h.numbers key value hget
    · exact absurd hpos (lt_irrefl _)
    · obtain ⟨n, rfl⟩ := isSome_iff_exists.mp hsome
      exact ⟨n, rfl, hcurrent n hvalue.symm⟩
  inTarget key id value hid hget := by
    rcases hmarks.rows _ value hget with hget | ⟨-, hsome⟩ | ⟨hzero, -, -⟩
    · exact hmarks.kept key (h.inTarget key id value hid hget)
    · exact hsome
    · exact absurd hzero hid

section

variable (htargets : ∀ id ∈ scope.targets, 0 < id)

include htargets

/-- What a transaction keeps besides the rows of documents. -/
theorem Sound.of_writes (h : p.Sound)
    (hwrites : Writes scope p.started p') (hrows : MarkedRows p'.tables.documentTargets) :
    p'.onTransactionCommitted.Sound := by
  have hnumbers := hwrites.writesNumbers
  have hpositive := (hwrites.marks htargets { h.positive with }).1
  have hprevious : p'.previousSequenceNumber = p.previousSequenceNumber + 1 := hnumbers.previous
  refine {
    version := hnumbers.version.trans h.version
    saved := hnumbers.saved h.saved
    previous := ?_
    highest := h.highest.trans hnumbers.highest
    positive := { hpositive with }
    rows := hrows }
  change 0 ≤ p'.previousSequenceNumber
  rw [hprevious]
  exact h.previous.trans (lt_add_one _).le

variable (hcollected : ∀ key, key ∉ scope.collected)

include hcollected

/-- The rows within a transaction that has collected nothing. -/
theorem Sound.markedRows (h : p.Sound) (hwrites : Writes scope p.started p') :
    MarksRows p.started p' ∧ MarkedRows p'.tables.documentTargets := by
  have hmarks := (hwrites.marks htargets { h.positive with }).2 hcollected
  refine ⟨hmarks, hmarks.markedRows h.rows fun n hn => ?_⟩
  rw [← show p.previousSequenceNumber + 1 = n from some.inj hn]
  exact Int.le_add_of_nonneg_left h.previous

/-- A transaction that collects nothing keeps all sentinel rows. -/
theorem Sound.transaction (h : p.Sound) (htx : Transaction scope p p') :
    p'.Sound ∧ ∀ key, (p.tables.documentTargets.get? (sentinel key)).isSome →
      (p'.tables.documentTargets.get? (sentinel key)).isSome := by
  obtain ⟨-, p₁, hwrites, rfl⟩ := htx
  obtain ⟨hmarks, hrows⟩ := h.markedRows htargets hcollected hwrites
  exact ⟨h.of_writes htargets hwrites hrows, hmarks.kept⟩

theorem Sound.transactions (h : p.Sound) (htxs : LocalStore.Transactions scope p p') :
    p'.Sound ∧ ∀ key, (p.tables.documentTargets.get? (sentinel key)).isSome →
      (p'.tables.documentTargets.get? (sentinel key)).isSome := by
  induction htxs with
  | refl => exact ⟨h, fun _ => id⟩
  | tail _ htx ih =>
    obtain ⟨hsound, hkept⟩ := ih
    obtain ⟨hsound', hkept'⟩ := hsound.transaction htargets hcollected htx
    exact ⟨hsound', fun key hsome => hkept' key (hkept key hsome)⟩

end

theorem Sound.create (h : p.Sound) :
    ∃ p', LevelDbPersistence.create p.tables = .ok p' ∧ p'.Sound ∧ p'.tables = p.tables :=
  ⟨_, create_eq h.version h.saved, ⟨h.version, h.saved, h.highest, h.highest,
    ⟨h.positive.rows, h.positive.highest⟩, h.rows⟩, rfl⟩

/-! ## Collection -/

/-- Documents are removed together with their sentinel rows. -/
structure Collects (removed : DocumentKey → Prop) (p p' : LevelDbPersistence) : Prop where
  documents : ∀ key, removed key → p'.tables.remoteDocuments.get? key = none
  sentinels : ∀ key, removed key → p'.tables.documentTargets.get? (sentinel key) = none
  otherDocuments : ∀ key, ¬ removed key →
    p'.tables.remoteDocuments.get? key = p.tables.remoteDocuments.get? key
  otherRows : ∀ k, (∀ key, removed key → k ≠ sentinel key) →
    p'.tables.documentTargets.get? k = p.tables.documentTargets.get? k
  pinned : ∀ references key, p'.isPinned references key = p.isPinned references key

variable {removed : DocumentKey → Prop}

theorem Collects.refl (h : ∀ key, ¬ removed key) : Collects removed p p :=
  ⟨fun key hkey => absurd hkey (h key), fun key hkey => absurd hkey (h key), fun _ _ => rfl,
    fun _ _ => rfl, fun _ _ => rfl⟩

theorem Collects.trans {first second all : DocumentKey → Prop}
    (h : Collects first p₁ p₂) (h' : Collects second p₂ p₃)
    (hall : ∀ key, all key ↔ first key ∨ second key) : Collects all p₁ p₃ where
  documents key hkey := by
    by_cases hsecond : second key
    · exact h'.documents key hsecond
    · rw [h'.otherDocuments key hsecond]
      exact h.documents key (((hall key).mp hkey).resolve_right hsecond)
  sentinels key hkey := by
    by_cases hsecond : second key
    · exact h'.sentinels key hsecond
    · rw [h'.otherRows (sentinel key)]
      · exact h.sentinels key (((hall key).mp hkey).resolve_right hsecond)
      · intro key' hkey' heq
        rw [(Prod.mk.inj (toLex_inj.mp heq)).1] at hsecond
        exact hsecond hkey'
  otherDocuments key hkey := by
    rw [h'.otherDocuments key fun hsecond => hkey ((hall key).mpr (.inr hsecond)),
      h.otherDocuments key fun hfirst => hkey ((hall key).mpr (.inl hfirst))]
  otherRows k hk := by
    rw [h'.otherRows k fun key hsecond => hk key ((hall key).mpr (.inr hsecond)),
      h.otherRows k fun key hfirst => hk key ((hall key).mpr (.inl hfirst))]
  pinned refs key := (h'.pinned refs key).trans (h.pinned refs key)

/-- The callback removes a document that is old enough and not pinned. -/
theorem removeOrphan_collects (refs : ReferenceSet) (bound : Int)
    (state : LevelDbPersistence × Nat) (report : DocumentKey × Int) :
    Collects (fun key => key = report.1 ∧ report.2 ≤ bound ∧
      state.1.isPinned refs key = false) state.1
      (removeOrphan refs bound state report).1 := by
  unfold removeOrphan
  split_ifs with hold hpinned
  · rw [Bool.not_eq_true'] at hpinned
    constructor
    · rintro key ⟨rfl, -, -⟩
      exact (get?_erase _ _ _).trans (if_pos rfl)
    · rintro key ⟨rfl, -, -⟩
      exact (get?_erase _ _ _).trans (if_pos rfl)
    · intro key hkey
      refine (get?_erase _ _ _).trans (if_neg ?_)
      rintro rfl
      exact hkey ⟨rfl, hold, hpinned⟩
    · intro k hk
      exact (get?_erase _ _ _).trans (if_neg (hk report.1 ⟨rfl, hold, hpinned⟩))
    · exact fun _ _ => rfl
  · refine .refl ?_
    rintro key ⟨rfl, -, hfree⟩
    exact hpinned (by rw [hfree]; rfl)
  · exact .refl fun key hkey => hold hkey.2.1

theorem foldl_removeOrphan_collects (refs : ReferenceSet) (bound : Int)
    (reports : List (DocumentKey × Int)) (state : LevelDbPersistence × Nat) :
    Collects (fun key => (∃ n, (key, n) ∈ reports ∧ n ≤ bound) ∧
      state.1.isPinned refs key = false) state.1
      (reports.foldl (removeOrphan refs bound) state).1 := by
  induction reports generalizing state with
  | nil =>
    refine .refl ?_
    rintro key ⟨⟨n, hmem, -⟩, -⟩
    cases hmem
  | cons report reports ih =>
    have hfirst := removeOrphan_collects refs bound state report
    refine hfirst.trans (ih (removeOrphan refs bound state report)) fun key => ?_
    -- Later rounds see the same mutations and refs.
    rw [hfirst.pinned]
    constructor
    · rintro ⟨⟨n, hmem, hold⟩, hfree⟩
      rcases List.mem_cons.mp hmem with rfl | hmem
      · exact .inl ⟨rfl, hold, hfree⟩
      · exact .inr ⟨⟨n, hmem, hold⟩, hfree⟩
    · rintro (⟨rfl, hold, hfree⟩ | ⟨⟨n, hmem, hold⟩, hfree⟩)
      · exact ⟨⟨_, List.mem_cons_self, hold⟩, hfree⟩
      · exact ⟨⟨n, List.mem_cons_of_mem _ hmem, hold⟩, hfree⟩

/-- The rows of other documents stay well formed. -/
theorem Collects.markedRows (h : Collects removed p p')
    (hrows : MarkedRows p.tables.documentTargets)
    (hremoved : ∀ key, removed key → ¬ p.tables.InTarget key) :
    MarkedRows p'.tables.documentTargets := by
  have hbefore : ∀ k value, p'.tables.documentTargets.get? k = some value →
      p.tables.documentTargets.get? k = some value := by
    intro k value hget
    rw [← h.otherRows k]
    · exact hget
    · rintro key hkey rfl
      rw [h.sentinels key hkey] at hget
      cases hget
  refine ⟨fun k value hget => hrows.ids k value (hbefore k value hget),
    fun key value hget => hrows.numbers key value (hbefore _ value hget),
    fun key id value hid hget => ?_⟩
  have hin := hbefore _ value hget
  rw [h.otherRows (sentinel key)]
  · exact hrows.inTarget key id value hid hin
  · intro key' hkey' heq
    refine hremoved key' hkey' ⟨id, value, hid, ?_⟩
    rw [← (Prod.mk.inj (toLex_inj.mp heq)).1]
    exact hin

/-- What `RemoveOrphanedDocuments` does to the documents and the rows. -/
theorem removeOrphanedDocuments_collects {refs : ReferenceSet} {bound : Int}
    {count : Nat} (hrows : MarkedRows p.tables.documentTargets)
    (h : p.removeOrphanedDocuments refs bound = .ok (p', count)) :
    ∃ removed, Collects removed p p' ∧ ∀ key, removed key → ¬ p.tables.InTarget key := by
  obtain ⟨reports, hreports, h⟩ := bind_eq_ok.mp h
  obtain ⟨reports', hreports', hmem⟩ :=
    hrows.mem_reports (not_blank_of_enumerateOrphanedDocuments hreports)
  obtain rfl := Except.ok.inj (hreports.symm.trans hreports')
  rw [← show _ = p' from congrArg Prod.fst (Except.ok.inj h)]
  refine ⟨_, foldl_removeOrphan_collects refs bound reports (p, 0), ?_⟩
  rintro key ⟨⟨n, hreport, -⟩, -⟩
  exact ((hmem key n).mp hreport).2

/-- Every document of the cache has a sentinel row: once it belongs to no target it is reported, and
a collection up to its number removes it if it is not pinned. -/
def Collectable (p : LevelDbPersistence) : Prop :=
  ∀ key, (p.tables.remoteDocuments.get? key).isSome →
    (p.tables.documentTargets.get? (sentinel key)).isSome ∧
    (¬ p.tables.InTarget key →
      (∀ id, p.tables.documentTargets.get? (toLex (DocumentKey.empty, id)) = none) →
      ∃ reports n, p.tables.enumerateOrphanedDocuments = .ok reports ∧ (key, n) ∈ reports ∧
        ∀ references upperBound, n ≤ upperBound → p.isPinned references key = false →
          ∃ p' count, p.removeOrphanedDocuments references upperBound = .ok (p', count) ∧
            p'.tables.remoteDocuments.get? key = none)

/-- The sentinel rows are all that it takes. -/
theorem collectable_iff (hrows : MarkedRows p.tables.documentTargets) :
    p.Collectable ↔ ∀ key, (p.tables.remoteDocuments.get? key).isSome →
      (p.tables.documentTargets.get? (sentinel key)).isSome := by
  constructor
  · exact fun h key hstored => (h key hstored).1
  intro h key hstored
  refine ⟨h key hstored, fun htarget hblank => ?_⟩
  obtain ⟨value, hvalue⟩ := isSome_iff_exists.mp (h key hstored)
  obtain ⟨n, rfl, -⟩ := hrows.numbers key value hvalue
  obtain ⟨reports, hreports, hmem⟩ := hrows.mem_reports hblank
  have hreport : (key, n) ∈ reports := (hmem key n).mpr ⟨hvalue, htarget⟩
  refine ⟨reports, n, hreports, hreport, fun refs bound hold hfree => ?_⟩
  refine ⟨_, _, by rw [removeOrphanedDocuments, hreports]; rfl, ?_⟩
  exact (foldl_removeOrphan_collects refs bound reports (p, 0)).documents key
    ⟨⟨n, hreport, hold⟩, hfree⟩

end LevelDbPersistence

/-! ## Calls -/

/-- The documents of events are under their own keys. -/
def LocalStoreCall.Keyed : LocalStoreCall → Prop
  | .applyRemoteEvent event => event.Keyed
  | _ => True

variable {answer : MaybeDocumentMap} {tables : LevelDbTables}

namespace LocalStore

open LevelDbPersistence

variable {canonicalId : Target → Bytes} {s s' : LocalStore}

/-- What holds of a store between calls whose documents all have sentinel rows. -/
structure Marked (s : LocalStore) : Prop where
  sound : s.persistence.Sound
  ids : IdsIn {id | 0 < id} s.targetDataByTarget
  next : 0 < s.nextTargetId
  documents : ∀ key, (s.tables.remoteDocuments.get? key).isSome →
    (s.tables.documentTargets.get? (sentinel key)).isSome

def quiet : WriteScope := ⟨{id | 0 < id}, ∅, ∅, ∅, Set.univ⟩

/-- Positive target ids, and documents that are added and removed, but not collected. -/
def updating : WriteScope := ⟨{id | 0 < id}, Set.univ, Set.univ, ∅, Set.univ⟩

/-- A store on a persistence that is sound. -/
theorem start_marked {user : Bytes} {p : LevelDbPersistence}
    (hcreate : create tables = .ok p) (hp : p.Sound)
    (hdocs : ∀ key, (p.tables.remoteDocuments.get? key).isSome →
      (p.tables.documentTargets.get? (sentinel key)).isSome)
    (h : start tables user = .ok s) : Marked s := by
  obtain ⟨p', hcreate', htx⟩ : ∃ p', create tables = .ok p' ∧
      Transaction quiet p' s.persistence := start_ok h
  obtain rfl := Except.ok.inj (hcreate.symm.trans hcreate')
  obtain ⟨hsound, hkept⟩ := hp.transaction (fun _ => id) (fun _ => id) htx
  obtain ⟨_, -, h⟩ := bind_eq_ok.mp h
  obtain ⟨s₁, hstart, h⟩ := bind_eq_ok.mp h
  obtain ⟨⟨s₂, _⟩, hrun, hstart⟩ := bind_eq_ok.mp hstart
  obtain ⟨p₂, -, rfl⟩ := run_ok hrun
  cases hstart
  cases h
  refine ⟨hsound, fun id data hget => absurd hget (some_ne_none _).symm, ?_,
    fun key hstored => hkept key (hdocs key ?_)⟩
  · exact lt_of_lt_of_le (by decide) (Int.le_add_of_nonneg_left hsound.positive.highest)
  · rwa [htx.remoteDocuments_get? id id id] at hstored

theorem IdsIn.erase {ids : Set Core.TargetId} {targetDataByTarget : OrdMap Core.TargetId TargetData}
    (h : IdsIn ids targetDataByTarget) (id : Core.TargetId) :
    IdsIn ids (targetDataByTarget.erase id) :=
  fun id' data hget => h id' data (get?_erase_eq_some.mp hget).2

/-- A target that is found is one of the rows. -/
theorem findTarget_mem {target : Target} {ids : List Core.TargetId}
    (h : findTarget some tables target ids = .ok (some data)) :
    ∃ id, tables.targets.get? id = some data := by
  induction ids with
  | nil => cases h
  | cons id ids ih =>
    unfold findTarget at h
    split at h
    · cases h
    · next found hfound =>
      obtain ⟨found', hdecode, h⟩ := bind_eq_ok.mp h
      cases hdecode
      split_ifs at h
      · exact ⟨id, hfound.trans (Except.ok.inj h)⟩
      · exact ih h

theorem allocateTarget_ids {target : Target} {answer : TargetData} (hs : Marked s)
    (h : s.allocateTarget canonicalId target = .ok (s', answer)) :
    IdsIn {id | 0 < id} s'.targetDataByTarget ∧ 0 < s'.nextTargetId := by
  obtain ⟨⟨s₁, nextTargetId, data⟩, hrun, h⟩ := bind_eq_ok.mp h
  obtain ⟨-, p₁, hblock, rfl⟩ := run_started hrun
  have hids : 0 < nextTargetId ∧ 0 < data.targetId := by
    obtain ⟨cached, hfound, hblock⟩ := bind_eq_ok.mp hblock
    cases cached with
    | some cached =>
      obtain ⟨id, hrow⟩ := findTarget_mem hfound
      obtain ⟨-, hanswer⟩ := ok_inj hblock
      cases hanswer
      exact ⟨hs.next, hs.sound.positive.rows id _ hrow⟩
    | none =>
      obtain ⟨n, -, hblock⟩ := bind_eq_ok.mp hblock
      obtain ⟨-, hanswer⟩ := ok_inj hblock
      cases hanswer
      exact ⟨hs.next.trans (Int.lt_add_of_pos_right _ (by decide)), hs.next⟩
  dsimp only at h
  split_ifs at h
  · cases h
    exact ⟨hs.ids.insert hids.2 hids.2, hids.1⟩
  · cases h
    exact ⟨hs.ids, hids.1⟩

/-- An operation that is a transaction and nothing else. -/
theorem ids_of_run {α : Type} {a : α} {block : LevelDbPersistence → Hard (LevelDbPersistence × α)}
    (hs : IdsIn {id | 0 < id} s.targetDataByTarget ∧ 0 < s.nextTargetId)
    (h : s.run block = .ok (s', a)) :
    IdsIn {id | 0 < id} s'.targetDataByTarget ∧ 0 < s'.nextTargetId := by
  obtain ⟨p, -, rfl⟩ := run_ok h
  exact hs

variable {call : LocalStoreCall}

/-- Target ids stay positive. -/
theorem step_ids {answer : Unit} (hs : Marked s) (h : s.step canonicalId call = .ok (s', answer)) :
    IdsIn {id | 0 < id} s'.targetDataByTarget ∧ 0 < s'.nextTargetId := by
  cases call with
  | restart user =>
    obtain ⟨s₁, hstart, h⟩ := bind_eq_ok.mp h
    cases h
    obtain ⟨p, hcreate, hp, htables⟩ := hs.sound.create
    have hmarked := start_marked hcreate hp (by rw [htables]; exact hs.documents) hstart
    exact ⟨hmarked.ids, hmarked.next⟩
  | handleUserChange user =>
    obtain ⟨_, hop⟩ := ok_of_discard h
    obtain ⟨⟨s₂, _⟩, hold, hop⟩ := bind_eq_ok.mp hop
    obtain ⟨s₃, hstart, hop⟩ := bind_eq_ok.mp hop
    obtain ⟨⟨s₄, _⟩, hrun, hstart⟩ := bind_eq_ok.mp hstart
    cases hstart
    exact ids_of_run (ids_of_run (ids_of_run ⟨hs.ids, hs.next⟩ hold) hrun) hop
  | acknowledgeBatch batchId commitVersion mutationResults streamToken =>
    obtain ⟨result, hresult, h⟩ := bind_eq_ok.mp h
    obtain ⟨_, hop⟩ := ok_of_discard h
    exact ids_of_run ⟨hs.ids, hs.next⟩ hop
  | writeLocally | rejectBatch | collectGarbage =>
    obtain ⟨_, hop⟩ := ok_of_discard h
    exact ids_of_run ⟨hs.ids, hs.next⟩ hop
  | setLastStreamToken | read => exact ids_of_run ⟨hs.ids, hs.next⟩ h
  | applyRemoteEvent event =>
    obtain ⟨_, hop⟩ := ok_of_discard h
    obtain ⟨-, hids⟩ : Transaction updating s.persistence s'.persistence ∧
        IdsIn updating.targets s'.targetDataByTarget :=
      applyRemoteEvent_transaction hs.ids (fun _ => trivial) (fun _ => trivial) hop
    refine ⟨hids, ?_⟩
    obtain ⟨_, _, _, _, _, _, _, _, _, _, _, rfl⟩ := applyRemoteEvent_ok hop
    exact hs.next
  | notifyLocalViewChanges viewChanges =>
    obtain ⟨-, hids⟩ : Transaction quiet s.persistence s'.persistence ∧
        IdsIn quiet.targets s'.targetDataByTarget := notifyLocalViewChanges_transaction hs.ids h
    refine ⟨hids, ?_⟩
    obtain ⟨⟨s₁, _, _⟩, hrun, h⟩ := bind_eq_ok.mp h
    cases h
    exact (ids_of_run ⟨hs.ids, hs.next⟩ hrun).2
  | allocateTarget target =>
    obtain ⟨_, hop⟩ := ok_of_discard h
    exact allocateTarget_ids hs hop
  | releaseTarget targetId =>
    simp only [step, releaseTarget] at h
    split at h
    · cases h
    · obtain ⟨⟨s₁, _⟩, hrun, h⟩ := bind_eq_ok.mp h
      cases h
      obtain ⟨hids, hnext⟩ := ids_of_run ⟨hs.ids, hs.next⟩ hrun
      exact ⟨hids.erase targetId, hnext⟩

/-- The documents of a batch that is acknowledged are marked when it is removed. -/
theorem acknowledgeBatch_documents {result : MutationBatchResult}
    (h : s.acknowledgeBatch result = .ok (s', answer)) (key : DocumentKey) :
    s'.tables.remoteDocuments.get? key = s.tables.remoteDocuments.get? key ∨
      (s'.tables.documentTargets.get? (sentinel key)).isSome := by
  obtain ⟨-, p₃, p₂, hkeys, hremove, rfl⟩ := acknowledgeBatch_ok h
  obtain ⟨_, _, rows, rfl, hrows⟩ := removeMutationBatch_eq hremove
  by_cases hmem : key ∈ result.batch.keys
  · obtain ⟨mutation, hmutation, rfl⟩ := MutationBatch.mem_keys.mp hmem
    exact .inr (isSome_iff_exists.mpr
      ⟨_, (hrows _).trans (if_pos ⟨mutation, hmutation, rfl⟩)⟩)
  · have hloop : p₃.tables.remoteDocuments.get? key = s.tables.remoteDocuments.get? key := by
      refine foldlM_keeps (·.tables.remoteDocuments.get? key)
        (fun p₁ docKey hdocKey p₂ hround => ?_) hkeys
      rcases applyToKey_ok hround with rfl | ⟨doc, hadd, rfl, -⟩
      · rfl
      · rw [(addDocument_same hadd).2, get?_insert, if_neg]
        rintro rfl
        exact hmem ((Finset.mem_sort _).mp hdocKey)
    exact .inl hloop

/-- A document that is removed as an orphan is no longer stored. -/
theorem collectGarbage_marked {bound : Int} {answer : Nat × Nat} (hs : Marked s)
    (h : s.collectGarbage canonicalId bound = .ok (s', answer)) :
    s'.persistence.Sound ∧ ∀ key, (s'.tables.remoteDocuments.get? key).isSome →
      (s'.tables.documentTargets.get? (sentinel key)).isSome := by
  obtain ⟨-, p₁, hblock, rfl⟩ := run_started h
  obtain ⟨⟨p₀, targets⟩, hunused, hblock⟩ := bind_eq_ok.mp hblock
  obtain ⟨⟨p₂, documents⟩, hremove, hblock⟩ := bind_eq_ok.mp hblock
  obtain ⟨rfl, -⟩ := ok_inj hblock
  have htargets : Writes quiet s.persistence.started p₀ := writes_removeTargets hunused
  obtain ⟨hmarks, hrows⟩ := hs.sound.markedRows (fun _ => id) (fun _ => id) htargets
  obtain ⟨removed, hcollects, hfree⟩ := removeOrphanedDocuments_collects hrows hremove
  have hwrites : Writes ⟨{id | 0 < id}, ∅, ∅, Set.univ, Set.univ⟩ s.persistence.started p₂ :=
    (writes_removeTargets hunused).trans
      (writes_removeOrphanedDocuments (fun _ => trivial) hremove)
  refine ⟨hs.sound.of_writes (fun _ => id) hwrites (hcollects.markedRows hrows hfree),
    fun key hstored => ?_⟩
  change (p₂.tables.remoteDocuments.get? key).isSome at hstored
  change (p₂.tables.documentTargets.get? (sentinel key)).isSome
  by_cases hkey : removed key
  · rw [hcollects.documents key hkey] at hstored
    cases hstored
  · rw [hcollects.otherDocuments key hkey, htargets.remoteDocuments_get? id id id] at hstored
    rw [hcollects.otherRows (sentinel key)]
    · exact hmarks.kept key (hs.documents key hstored)
    · intro key' hkey' heq
      rw [(Prod.mk.inj (toLex_inj.mp heq)).1] at hkey
      exact hkey hkey'

/-- Each document that an event stores is marked by it, or has been before. -/
def MarksDocuments (s : LocalStore) : LocalStoreCall → Prop
  | .applyRemoteEvent event => ∀ s' answer, s.applyRemoteEvent event = .ok (s', answer) →
    ∀ key doc, event.documentUpdates.get? key = some doc → isRemoval doc = false →
      (s.tables.documentTargets.get? (sentinel key)).isSome ∨
      ChangedIn s.targetDataByTarget event.targetChanges.entries key ∨
      key ∈ event.limboDocumentChanges
  | _ => True

/-- The documents after an event have sentinel rows exactly under that condition. -/
theorem applyRemoteEvent_marked_iff {event : RemoteEvent}
    (hs : Marked s) (hkeyed : event.Keyed) (h : s.applyRemoteEvent event = .ok (s', answer)) :
    (∀ key, (s'.tables.remoteDocuments.get? key).isSome →
      (s'.tables.documentTargets.get? (sentinel key)).isSome) ↔
    ∀ key doc, event.documentUpdates.get? key = some doc → isRemoval doc = false →
      (s.tables.documentTargets.get? (sentinel key)).isSome ∨
      ChangedIn s.targetDataByTarget event.targetChanges.entries key ∨
      key ∈ event.limboDocumentChanges := by
  refine forall_congr' fun key => ?_
  have hdocs := applyRemoteEvent_documents hkeyed h key
  rw [applyRemoteEvent_sentinels hs.ids hkeyed h key, hdocs]
  cases hupdate : event.documentUpdates.get? key with
  | none =>
    exact iff_of_true (fun hstored => .inl (hs.documents key hstored)) fun _ hnone => nomatch hnone
  | some doc =>
    simp only [isSome_some, true_and, some.injEq, forall_eq']
    -- A document that is no removal is stored afterwards, be it this one or the one before.
    have hstored : (updatedDocument doc (s.tables.remoteDocuments.get? key)).isSome ↔
        isRemoval doc = false := by
      unfold updatedDocument
      split_ifs with hremoval hnewer
      · exact iff_of_false Bool.false_ne_true (by rw [hremoval]; exact Bool.noConfusion)
      · exact iff_of_true rfl (Bool.eq_false_of_not_eq_true hremoval)
      · refine iff_of_true ?_ (Bool.eq_false_of_not_eq_true hremoval)
        cases hold : s.tables.remoteDocuments.get? key with
        | none => exact absurd (by rw [hold]; rfl) hnewer
        | some old => rfl
    rw [hstored]

theorem Marked.step {answer : Unit} (hs : Marked s) (hkeyed : call.Keyed)
    (hmarks : MarksDocuments s call) (h : s.step canonicalId call = .ok (s', answer)) :
    Marked s' := by
  obtain ⟨hids, hnext⟩ := step_ids hs h
  have hquiet : InScope quiet call → Marked s' := by
    intro hscope
    rcases step_transactions hscope hs.ids hs.next h with htxs | ⟨user, rfl, hstart⟩
    · obtain ⟨hsound, hkept⟩ := hs.sound.transactions (fun _ => id) (fun _ => id) htxs
      refine ⟨hsound, hids, hnext, fun key hstored => hkept key (hs.documents key ?_)⟩
      rwa [remoteDocuments_get?_transactions htxs id id id] at hstored
    · obtain ⟨p, hcreate, hp, htables⟩ := hs.sound.create
      exact start_marked hcreate hp (by rw [htables]; exact hs.documents) hstart
  cases call with
  | applyRemoteEvent event =>
    obtain ⟨_, hop⟩ := ok_of_discard h
    obtain ⟨htx, -⟩ : Transaction updating s.persistence s'.persistence ∧
        IdsIn updating.targets s'.targetDataByTarget :=
      applyRemoteEvent_transaction hs.ids (fun _ => trivial) (fun _ => trivial) hop
    exact ⟨(hs.sound.transaction (fun _ => id) (fun _ => id) htx).1, hids, hnext,
      (applyRemoteEvent_marked_iff hs hkeyed hop).mpr (hmarks _ _ hop)⟩
  | acknowledgeBatch batchId commitVersion mutationResults streamToken =>
    obtain ⟨result, hresult, h⟩ := bind_eq_ok.mp h
    obtain ⟨_, hop⟩ := ok_of_discard h
    have htx : Transaction updating s.persistence s'.persistence :=
      acknowledgeBatch_transaction (fun _ => trivial) (batchResult_ok hresult) hop
    obtain ⟨hsound, hkept⟩ := hs.sound.transaction (fun _ => id) (fun _ => id) htx
    refine ⟨hsound, hids, hnext, fun key hstored => ?_⟩
    rcases acknowledgeBatch_documents hop key with hsame | hsome
    · rw [hsame] at hstored
      exact hkept key (hs.documents key hstored)
    · exact hsome
  | collectGarbage bound =>
    obtain ⟨_, hop⟩ := ok_of_discard h
    obtain ⟨hsound, hdocs⟩ := collectGarbage_marked hs hop
    exact ⟨hsound, hids, hnext, hdocs⟩
  | writeLocally => exact hquiet fun _ _ => trivial
  | _ => exact hquiet trivial

/-- A call leaves all documents collectable exactly if it marks those that it stores. -/
theorem collectable_step_iff (hs : Marked s) (hkeyed : call.Keyed) :
    (∀ s' answer, s.step canonicalId call = .ok (s', answer) → s'.persistence.Collectable) ↔
      MarksDocuments s call := by
  constructor
  · intro h
    cases call with
    | applyRemoteEvent event =>
      intro s' answer hop
      have hstep : s.step canonicalId (.applyRemoteEvent event) = .ok (s', ()) := by
        rw [LocalStore.step, hop]
        rfl
      exact (applyRemoteEvent_marked_iff hs hkeyed hop).mp
        fun key hstored => (h s' () hstep key hstored).1
    | _ => trivial
  · intro hmarks s' answer hok
    have hs' := hs.step hkeyed hmarks hok
    exact (collectable_iff hs'.sound.rows).mpr hs'.documents

theorem start_empty (user : Bytes) : ∃ s, start .empty user = .ok s := by
  exact ⟨_, rfl⟩

theorem start_empty_marked {user : Bytes} (h : start .empty user = .ok s) : Marked s :=
  start_marked create_empty sound_new (fun _ h => absurd h Bool.false_ne_true) h

/-- **Every document can be collected**, in each state of a run from an empty database, exactly as
long as every event either mentions the documents that it stores as added to or removed from a
target that is active, or resolves their limbo, or finds them marked. -/
theorem collectable_iff_marksDocuments (canonicalId : Target → Bytes) (user : Bytes) :
    ∃ s, start .empty user = .ok s ∧ ∀ calls : List {call : LocalStoreCall // call.Keyed},
      Along (fun s call => s.step canonicalId call.1) (fun s call => ∀ s' answer,
        s.step canonicalId call.1 = .ok (s', answer) → s'.persistence.Collectable) s calls ↔
      Along (fun s call => s.step canonicalId call.1) (fun s call => MarksDocuments s call.1)
        s calls := by
  obtain ⟨s, hstart⟩ := start_empty user
  refine ⟨s, hstart, fun calls => along_iff_along Marked (fun s call hs => ?_)
    (fun s call s' answer hs hmarks hok => ?_) (start_empty_marked hstart) calls⟩
  · exact collectable_step_iff hs call.2
  · exact hs.step call.2 hmarks hok

/-! ## A listen to a document that does not exist -/

namespace MissingRoom

open LevelDbPersistence.TwoUsers (room)

def target : Target := ⟨room.path, none, [], [], 0, none, none⟩

def provider : TargetMetadataProvider where
  getRemoteKeysForTarget _ := ∅
  getTargetDataForTarget _ := some (TargetData.create target 2 2 .listen)

/-- What the backend answers: the target is added, and then it is current without a document. -/
def changes : List WatchChange :=
  [.target ⟨.added, [2], [], none⟩, .target ⟨.current, [2], [], none⟩]

def version : SnapshotVersion := ⟨⟨4, 0, by decide⟩⟩

/-- The event has a delete that is made up for the document, and the target is current with no
change of its documents. -/
def event : RemoteEvent where
  snapshotVersion := version
  targetChanges := OrdMap.empty.insert 2 ⟨[], true, ∅, ∅, ∅⟩
  targetMismatches := ∅
  documentUpdates := OrdMap.empty.insert room (.noDocument room version false)
  limboDocumentChanges := ∅

theorem createRemoteEvent_changes : ∃ agg agg',
    changes.foldlM (WatchChangeAggregator.handle provider)
      (({} : WatchChangeAggregator).recordPendingTargetRequest 2) = .ok agg ∧
    agg.createRemoteEvent provider version = .ok (event, agg') :=
  ⟨_, _, rfl, rfl⟩

def isMissing : Option MaybeDocument → Bool
  | some (.noDocument key version' false) => key = room ∧ version' = version
  | _ => false

theorem eq_of_isMissing {doc : Option MaybeDocument} (h : isMissing doc) :
    doc = some (.noDocument room version false) := by
  unfold isMissing at h
  split at h
  · obtain ⟨rfl, rfl⟩ := of_decide_eq_true h
    rfl
  · cases h

end MissingRoom

open MissingRoom LevelDbPersistence.TwoUsers in
/-- The document that is found missing is stored without a sentinel row, and never reported. -/
theorem not_collectable_missingRoom : ∃ agg agg' s s' answers,
    changes.foldlM (WatchChangeAggregator.handle provider)
      (({} : WatchChangeAggregator).recordPendingTargetRequest 2) = .ok agg ∧
    agg.createRemoteEvent provider version = .ok (event, agg') ∧ start .empty [] = .ok s ∧
    runAll (step fun _ => []) s [.allocateTarget target, .applyRemoteEvent event] =
      .ok (s', answers) ∧
    s'.tables.remoteDocuments.get? room = some (.noDocument room version false) ∧
    s'.tables.documentTargets.get? (sentinel room) = none ∧
    ∀ reports, s'.tables.enumerateOrphanedDocuments = .ok reports → ∀ n, (room, n) ∉ reports := by
  obtain ⟨agg, agg', hchanges, hevent⟩ := createRemoteEvent_changes
  obtain ⟨s, hstart, s', answers, hrun, hdocument, hsentinel, hreports⟩ : ∃ s,
      start .empty [] = .ok s ∧ ∃ s' answers,
        runAll (step fun _ => []) s [.allocateTarget target, .applyRemoteEvent event] =
          .ok (s', answers) ∧
        isMissing (s'.tables.remoteDocuments.get? room) ∧
        s'.tables.documentTargets.get? (sentinel room) = none ∧ ∃ reports,
          s'.tables.enumerateOrphanedDocuments = .ok reports ∧
            ∀ report ∈ reports, report.1 ≠ room := by
    decide +kernel
  refine ⟨agg, agg', s, s', answers, hchanges, hevent, hstart, hrun, eq_of_isMissing hdocument,
    hsentinel, fun reports hreported n hmem => ?_⟩
  obtain ⟨reports', hok, hnone⟩ := hreports
  cases hreported.symm.trans hok
  exact hnone _ hmem rfl

end LocalStore

end Firebase.Firestore.Local
