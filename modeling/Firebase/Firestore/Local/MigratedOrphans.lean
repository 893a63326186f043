import Firebase.Firestore.Local.LevelDbMigrations

/-!
# Orphaned documents after the migrations

A document can only be collected if `EnumerateOrphanedDocuments` reports it.  For that it
needs a sentinel row, and migration 4 (`leveldb_migrations.cc`) makes one for every document
that has none, with the highest sequence number in the metadata of the targets.

Migration 3 has reset that number to 0 just before, where it runs, and deleted all sentinel rows.
The rows that migration 4 makes then have the number 0, with which the enumeration says that there
is nothing to report.
-/

namespace Firebase.Firestore.Local

open Lib Util Model Firestore.Core

namespace LevelDbTables

variable {t t' : LevelDbTables}

/-- The documents that belong to no target are reported, and no others. -/
def ReportsOrphans (t : LevelDbTables) : Prop :=
  ∃ reports, t.enumerateOrphanedDocuments = .ok reports ∧
    ∀ key, (t.remoteDocuments.get? key).isSome →
      ((∃ n, (key, n) ∈ reports) ↔ ¬ t.InTarget key)

/-! ## The rows that the migrations leave -/

def addedSentinel (t : LevelDbTables) (n : Int) (k : DocumentKey ×ₗ Core.TargetId) :
    Option (Option Int) :=
  if (ofLex k).2 = 0 ∧ (t.remoteDocuments.get? (ofLex k).1).isSome then some (some n) else none

/-- What the migrations after the fourth leave alone. -/
structure SameSentinels (t t' : LevelDbTables) : Prop where
  remoteDocuments : t'.remoteDocuments = t.remoteDocuments
  documentTargets : t'.documentTargets = t.documentTargets

theorem commitOnce_removeAcknowledgedMutations (h : t.Readable) : ∃ t',
    t.commitOnce .removeAcknowledgedMutations = .ok t' ∧ SameSentinels t t' ∧ t'.Readable := by
  obtain ⟨mutations, documentMutations, hok, -, hreferences⟩ := removeAcknowledgedMutations_ok h
  refine ⟨_, congrArg (fun x => Prod.fst <$> (·, false) <$> x) hok, ⟨rfl, rfl⟩, h.documents,
    fun userId key id hget => ?_⟩
  change documentMutations.get? _ = _ at hget
  rw [hreferences] at hget
  split_ifs at hget
  exact h.mutations userId key id hget

theorem commitOnce_ensureCollectionParentsIndex (h : t.Readable) : ∃ t',
    t.commitOnce .ensureCollectionParentsIndex = .ok t' ∧ SameSentinels t t' := by
  obtain ⟨parents, hok, -, -⟩ := ensureCollectionParentsIndex_ok h
  exact ⟨_, congrArg (fun x => Prod.fst <$> (·, false) <$> x) hok, ⟨rfl, rfl⟩⟩

theorem commitOnce_ensureSentinelRows (h : t.Readable) : ∃ t',
    t.commitOnce .ensureSentinelRows = .ok t' ∧ t'.remoteDocuments = t.remoteDocuments ∧
      (∀ k, t'.documentTargets.get? k =
        (t.documentTargets.get? k).or (t.addedSentinel t.highestSequenceNumber k)) ∧
      t'.Readable := by
  obtain ⟨rows, hok, hget⟩ := ensureSentinelRows_ok h
  exact ⟨_, congrArg (fun x => Prod.fst <$> (·, false) <$> x) hok, rfl, hget,
    h.documents, h.mutations⟩

/-- The rows of an old database after the migrations: those of the database, unless it is from
before version 3, and where it is from before version 4 the new sentinel rows. -/
theorem migrated_documentTargets (h : t.Readable) (hold : t.readSchemaVersion < kSchemaVersion) :
    ∃ t', t.migrated kSchemaVersion = .ok t' ∧ t'.remoteDocuments = t.remoteDocuments ∧
      ∀ k, t'.documentTargets.get? k =
        if t.readSchemaVersion < 3 then t.addedSentinel 0 k
        else if t.readSchemaVersion < 4 then
          (t.documentTargets.get? k).or (t.addedSentinel t.highestSequenceNumber k)
        else t.documentTargets.get? k := by
  have hnot : ¬ t.readSchemaVersion > kSchemaVersion := not_lt.mpr hold.le
  -- The last two migrations, from any state.
  have hfrom5 : ∀ t₄ : LevelDbTables, t₄.Readable → ∃ t', SameSentinels t₄ t' ∧
      ((if t.readSchemaVersion < 5 ∧ kSchemaVersion ≥ 5 then
          [MigrationTransaction.removeAcknowledgedMutations] else []) ++
        (if t.readSchemaVersion < 6 ∧ kSchemaVersion ≥ 6 then
          [MigrationTransaction.ensureCollectionParentsIndex] else [])).foldlM commitOnce t₄ =
        .ok t' := by
    intro t₄ h₄
    have hlast : t.readSchemaVersion < 6 ∧ kSchemaVersion ≥ 6 := ⟨hold, le_rfl⟩
    split_ifs with h5
    · obtain ⟨t₅, hok₅, hsame₅, h₅⟩ := commitOnce_removeAcknowledgedMutations h₄
      obtain ⟨t₆, hok₆, hsame₆⟩ := commitOnce_ensureCollectionParentsIndex h₅
      refine ⟨t₆, ⟨hsame₆.1.trans hsame₅.1, hsame₆.2.trans hsame₅.2⟩, ?_⟩
      simp only [List.singleton_append, List.foldlM_cons, hok₅, ok_bind, hok₆]
      rfl
    · obtain ⟨t₆, hok₆, hsame₆⟩ := commitOnce_ensureCollectionParentsIndex h₄
      refine ⟨t₆, hsame₆, ?_⟩
      simp only [List.nil_append, List.foldlM_cons, hok₆]
      rfl
  rw [migrated, if_neg hnot, laterMigrations, List.append_assoc]
  by_cases h3 : t.readSchemaVersion < 3
  · have h4 : t.readSchemaVersion < 4 ∧ kSchemaVersion ≥ 4 := ⟨by omega, by decide⟩
    have hcleared : t.queryCacheCleared.Readable := ⟨h.documents, h.mutations⟩
    obtain ⟨t₄, hok₄, hdocs, hget, h₄⟩ := commitOnce_ensureSentinelRows hcleared
    obtain ⟨t', hsame, hok⟩ := hfrom5 t₄ h₄
    refine ⟨t', ?_, hsame.1.trans hdocs, fun k => ?_⟩
    · rw [if_pos h4, if_pos ⟨h3, by decide⟩, List.singleton_append, List.foldlM_cons, hok₄]
      exact hok
    · rw [if_pos h3, hsame.2, hget]
      rfl
  · rw [if_neg fun hclear => h3 hclear.1]
    simp only [if_neg h3]
    by_cases h4 : t.readSchemaVersion < 4
    · obtain ⟨t₄, hok₄, hdocs, hget, h₄⟩ := commitOnce_ensureSentinelRows h
      obtain ⟨t', hsame, hok⟩ := hfrom5 t₄ h₄
      refine ⟨t', ?_, hsame.1.trans hdocs, fun k => ?_⟩
      · rw [if_pos ⟨h4, by decide⟩, List.singleton_append, List.foldlM_cons, hok₄]
        exact hok
      · rw [if_pos h4, hsame.2, hget]
    · obtain ⟨t', hsame, hok⟩ := hfrom5 t h
      refine ⟨t', ?_, hsame.1, fun k => ?_⟩
      · rw [if_neg fun hsentinels => h4 hsentinels.1]
        exact hok
      · rw [if_neg h4, hsame.2]

/-! ## What is reported -/

/-- The sentinel row that a document of a database from version 3 on has after the migrations. -/
def sentinelAfter (t : LevelDbTables) (key : DocumentKey) : Option (Option Int) :=
  (t.documentTargets.get? (sentinel key)).or
    (if t.readSchemaVersion < 4 then t.addedSentinel t.highestSequenceNumber (sentinel key)
      else none)

/-- No target id is negative, and the documents of targets have sentinel rows in the end. -/
structure MarksTargets (t : LevelDbTables) : Prop where
  positive : ∀ k value, t.documentTargets.get? k = some value → 0 ≤ (ofLex k).2
  sentinels : ∀ key, t.InTarget key → (t.sentinelAfter key).isSome

/-- A database from before version 3 has no documents, and in a later one the documents without
target have a sentinel row with a number other than 0 after the migrations. -/
def OrphansNumbered (t : LevelDbTables) : Prop :=
  if t.readSchemaVersion < 3 then ∀ key, t.remoteDocuments.get? key = none
  else ∀ key, (t.remoteDocuments.get? key).isSome → ¬ t.InTarget key →
    ∃ n, t.sentinelAfter key = some (some n) ∧ n ≠ 0

variable {k : DocumentKey ×ₗ Core.TargetId}

theorem addedSentinel_of_ne_zero (n : Int)
    (h : (ofLex k).2 ≠ 0) : t.addedSentinel n k = none := if_neg fun h' => h h'.1

theorem isSome_of_addedSentinel {n : Int} {value : Option Int}
    (h : t.addedSentinel n k = some value) :
    (ofLex k).2 = 0 ∧ (t.remoteDocuments.get? (ofLex k).1).isSome ∧ value = some n := by
  unfold addedSentinel at h
  split_ifs at h with hrow
  exact ⟨hrow.1, hrow.2, (Option.some.inj h).symm⟩

/-- From version 3 on the documents without target are reported that have a number. -/
theorem reportsOrphans_iff_numbered (hread : t'.ReadableSentinels) (hmarks : t.MarksTargets)
    (hdocs : t'.remoteDocuments = t.remoteDocuments)
    (hsentinels : ∀ key, t'.documentTargets.get? (sentinel key) = t.sentinelAfter key)
    (htargets : ∀ k, (ofLex k).2 ≠ 0 → t'.documentTargets.get? k = t.documentTargets.get? k) :
    t'.ReportsOrphans ↔ ∀ key, (t.remoteDocuments.get? key).isSome → ¬ t.InTarget key →
      ∃ n, t.sentinelAfter key = some (some n) ∧ n ≠ 0 := by
  have hinTarget : ∀ key, t'.InTarget key ↔ t.InTarget key := by
    intro key
    refine exists_congr fun id => exists_congr fun value => and_congr_right fun hid => ?_
    rw [htargets (toLex (key, id)) hid]
  have hcovered : ∀ key, t'.Covered key ↔ t.InTarget key := by
    intro key
    rw [← hinTarget]
    refine covered_iff_inTarget (fun k value hget => ?_) fun key hkey => ?_
    · by_cases hid : (ofLex k).2 = 0
      · exact hid.ge
      · exact hmarks.positive k value ((htargets k hid).symm.trans hget)
    · rw [hsentinels]
      exact hmarks.sentinels key ((hinTarget key).mp hkey)
  obtain ⟨reports, hreports, hmem⟩ := mem_enumerateOrphanedDocuments hread
  have hreported : ∀ key, (∃ n, (key, n) ∈ reports) ↔
      ¬ t.InTarget key ∧ ∃ n, t.sentinelAfter key = some (some n) ∧ n ≠ 0 := by
    intro key
    simp only [hmem, hsentinels, hcovered]
    constructor
    · rintro ⟨n, hget, hn, hclear⟩
      exact ⟨hclear, n, hget, hn⟩
    · rintro ⟨hclear, n, hget, hn⟩
      exact ⟨n, hget, hn, hclear⟩
  rw [ReportsOrphans, hdocs]
  constructor
  · rintro ⟨reports', hreports', hall⟩ key hkey hclear
    obtain rfl := Except.ok.inj (hreports.symm.trans hreports')
    have hreport := (hall key hkey).mpr ((hinTarget key).not.mpr hclear)
    exact ((hreported key).mp hreport).2
  · intro hall
    refine ⟨reports, hreports, fun key hkey => ?_⟩
    rw [hreported, hinTarget]
    exact ⟨And.left, fun hclear => ⟨hclear, hall key hkey hclear⟩⟩

/-- With the number 0 in all sentinel rows nothing is reported. -/
theorem reportsOrphans_iff_empty (h : t.Readable)
    (hdocs : t'.remoteDocuments = t.remoteDocuments)
    (hrows : ∀ k, t'.documentTargets.get? k = t.addedSentinel 0 k) :
    t'.ReportsOrphans ↔ ∀ key, t.remoteDocuments.get? key = none := by
  have hread : t'.ReadableSentinels := by
    intro k value hget
    rw [hrows] at hget
    obtain ⟨-, hdocument, rfl⟩ := isSome_of_addedSentinel hget
    obtain ⟨doc, hdoc⟩ := Option.isSome_iff_exists.mp hdocument
    exact ⟨h.documents _ doc hdoc, fun _ => rfl⟩
  obtain ⟨reports, hreports, hmem⟩ := mem_enumerateOrphanedDocuments hread
  have hnothing : ∀ key n, (key, n) ∉ reports := by
    intro key n hreport
    obtain ⟨hget, hn, -⟩ := (hmem key n).mp hreport
    rw [hrows] at hget
    obtain ⟨-, -, hzero⟩ := isSome_of_addedSentinel hget
    exact hn (Option.some.inj hzero)
  have hnoTarget : ∀ key, ¬ t'.InTarget key := by
    rintro key ⟨id, value, hid, hget⟩
    have hnone : t.addedSentinel 0 (toLex (key, id)) = none := addedSentinel_of_ne_zero 0 hid
    rw [hrows, hnone] at hget
    cases hget
  constructor
  · rintro ⟨reports', hreports', hall⟩ key
    obtain rfl := Except.ok.inj (hreports.symm.trans hreports')
    by_contra hsome
    rw [hdocs] at hall
    obtain ⟨n, hreport⟩ :=
      (hall key (Option.isSome_iff_ne_none.mpr hsome)).mpr (hnoTarget key)
    exact hnothing key n hreport
  · intro hnone
    refine ⟨reports, hreports, fun key hkey => ?_⟩
    rw [hdocs, hnone] at hkey
    cases hkey

/-- The migrations of any old database come to their end.  After them the documents without target
are reported and no others exactly if a database from before version 3 had no documents, and in a
later one, which marks the documents of its targets, the orphans have numbers. -/
theorem reportsOrphans_iff (hread : t.Readable) (hsentinels : t.ReadableSentinels)
    (hmarks : 3 ≤ t.readSchemaVersion → t.MarksTargets)
    (hold : t.readSchemaVersion < kSchemaVersion) :
    ∃ t', t.runMigrations kSchemaVersion = .ok t' ∧ (t'.ReportsOrphans ↔ t.OrphansNumbered) := by
  obtain ⟨t', hok, hdocs, hrows⟩ := migrated_documentTargets hread hold
  refine ⟨t', (t.runMigrations_eq kSchemaVersion).trans hok, ?_⟩
  unfold OrphansNumbered
  split_ifs with h3
  · exact reportsOrphans_iff_empty hread hdocs fun k => (hrows k).trans (if_pos h3)
  · have hrows' : ∀ k, t'.documentTargets.get? k = (t.documentTargets.get? k).or
        (if t.readSchemaVersion < 4 then t.addedSentinel t.highestSequenceNumber k
          else none) := by
      intro k
      rw [hrows]
      split_ifs
      · rfl
      · rw [Option.or_none]
    refine reportsOrphans_iff_numbered ?_ (hmarks (not_lt.mp h3)) hdocs
      (fun key => hrows' (sentinel key)) ?_
    · intro k value hget
      rcases Option.or_eq_some_iff.mp ((hrows' k).symm.trans hget) with hbefore | ⟨-, hadded⟩
      · exact hsentinels k value hbefore
      · split_ifs at hadded
        obtain ⟨-, hdocument, rfl⟩ := isSome_of_addedSentinel hadded
        obtain ⟨doc, hdoc⟩ := Option.isSome_iff_exists.mp hdocument
        exact ⟨hread.documents _ doc hdoc, fun _ => rfl⟩
    · intro k htarget
      rw [hrows', addedSentinel_of_ne_zero _ htarget, ite_self, Option.or_none]

namespace ThirdVersion

open OldDatabase (hall)

def tables : LevelDbTables := { OldDatabase.tables with
  version := some 3
  targetGlobal := some { TargetGlobal.default with highestListenSequenceNumber := 7 }
  documentTargets := (OrdMap.empty.insert (sentinel hall) (some 3)).insert (toLex (hall, 2)) none }

theorem get?_documentTargets {value : Option Int} (h : tables.documentTargets.get? k = some value) :
    (k = sentinel hall ∧ some 3 = value) ∨ (k = toLex (hall, 2) ∧ none = value) := by
  rcases OrdMap.get?_insert_eq_some.mp h with ⟨hk, hvalue⟩ | ⟨-, h⟩
  · exact .inr ⟨hk, hvalue⟩
  · rcases OrdMap.get?_insert_eq_some.mp h with ⟨hk, hvalue⟩ | ⟨-, h⟩
    · exact .inl ⟨hk, hvalue⟩
    · cases h

theorem readableSentinels : tables.ReadableSentinels := by
  intro k value h
  obtain ⟨rfl, rfl⟩ | ⟨rfl, rfl⟩ := get?_documentTargets h
  · exact ⟨by decide, fun _ => rfl⟩
  · exact ⟨by decide, fun hzero => absurd hzero (by decide)⟩

theorem eq_hall_of_inTarget {key : DocumentKey} (h : tables.InTarget key) : key = hall := by
  obtain ⟨id, value, hid, hget⟩ := h
  obtain ⟨hk, -⟩ | ⟨hk, -⟩ := get?_documentTargets hget <;> exact congrArg (fun k => (ofLex k).1) hk

theorem marksTargets : tables.MarksTargets where
  positive k value h := by
    obtain ⟨rfl, -⟩ | ⟨rfl, -⟩ := get?_documentTargets h <;> decide
  sentinels key h := by
    rw [eq_hall_of_inTarget h]
    rfl

end ThirdVersion

open ThirdVersion in
/-- The room without target gets a sentinel row with the number 7, and is reported. -/
theorem reportsOrphans_thirdVersion :
    ∃ t', tables.runMigrations kSchemaVersion = .ok t' ∧ t'.ReportsOrphans := by
  have hreadable : tables.Readable := { OldDatabase.readable with }
  obtain ⟨t', hok, hiff⟩ := reportsOrphans_iff hreadable readableSentinels (fun _ => marksTargets)
    (by decide)
  refine ⟨t', hok, hiff.mpr ?_⟩
  rw [OrphansNumbered, if_neg (by decide)]
  intro key hkey _
  obtain ⟨doc, hdoc⟩ := Option.isSome_iff_exists.mp hkey
  obtain ⟨rfl, -⟩ | ⟨-, hdoc⟩ := OrdMap.get?_insert_eq_some.mp hdoc
  · exact ⟨7, rfl, by decide⟩
  · cases hdoc

/-- The document of the old database belongs to no target, and is not reported. -/
theorem not_reported_oldDatabase : ∃ t', OldDatabase.tables.runMigrations kSchemaVersion = .ok t' ∧
    (t'.remoteDocuments.get? OldDatabase.room).isSome ∧ ¬ t'.InTarget OldDatabase.room ∧
    t'.enumerateOrphanedDocuments = .ok [] := by
  obtain ⟨t', hok, hdocs, hrows⟩ := migrated_documentTargets OldDatabase.readable (by decide)
  have hrun := (OldDatabase.tables.runMigrations_eq kSchemaVersion).trans hok
  have hreports : OldDatabase.tables.runMigrations kSchemaVersion >>=
      enumerateOrphanedDocuments = .ok [] := rfl
  rw [hrun] at hreports
  refine ⟨t', hrun, by rw [hdocs]; rfl, ?_, hreports⟩
  rintro ⟨id, value, hid, hget⟩
  have hnone : OldDatabase.tables.addedSentinel 0 (toLex (OldDatabase.room, id)) = none :=
    addedSentinel_of_ne_zero 0 hid
  rw [hrows, hnone] at hget
  cases hget

end LevelDbTables

end Firebase.Firestore.Local
