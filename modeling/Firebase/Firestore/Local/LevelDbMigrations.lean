import Firebase.Firestore.Local.SentinelRows

/-!
# Migrations

`LevelDbMigrations` (`leveldb_migrations.cc`) brings a database to the current schema version.  A
version below the one in the database is only written down, so that the migrations above it run
again later.

The process may end at any time, and what was committed until then stays.  Migration 3 deletes the
rows of its tables in transactions of 1000 rows, which are committed more than once
(`commitAtMost`); an interrupted run commits a number of its transactions.
-/

namespace Firebase.Firestore.Local

open Lib Util Model Firestore.Core OrdMap List Option
open LevelDbPersistence (addToIndex collectionEntry)

/-- The tables that migration 3 empties. -/
inductive QueryCacheTable where
  | target | documentTarget | targetDocument | queryTarget
deriving DecidableEq

inductive MigrationTransaction where
  | delete (table : QueryCacheTable)
  | dropQueryCache
  | ensureSentinelRows
  | removeAcknowledgedMutations
  | ensureCollectionParentsIndex
  | saveDowngradeVersion (version : Int)
deriving DecidableEq

variable {table : QueryCacheTable}

namespace LevelDbTables

section

variable (t : LevelDbTables)

def readSchemaVersion : Int := t.version.getD 0

def saveVersion (version : Int) : LevelDbTables :=
  { t with version := some version }

/-! ## Migration 3 -/

/-- A transaction of `DeleteEverythingWithPrefix`, with whether it leaves rows behind. -/
def deleteRows {K V : Type} [LinearOrder K] (rows : OrdMap K V) : OrdMap K V × Bool :=
  ((rows.entries.take 1000).foldl (fun rows row => rows.erase row.1) rows,
    1000 < rows.entries.length)

/-- A transaction of `DeleteEverythingWithPrefix` on one of the tables. -/
def deleteFrom : QueryCacheTable → LevelDbTables × Bool
  | .target => ({ t with targets := (deleteRows t.targets).1 }, (deleteRows t.targets).2)
  | .documentTarget =>
    ({ t with documentTargets := (deleteRows t.documentTargets).1 },
      (deleteRows t.documentTargets).2)
  | .targetDocument =>
    ({ t with targetDocuments := (deleteRows t.targetDocuments).1 },
      (deleteRows t.targetDocuments).2)
  | .queryTarget =>
    ({ t with queryTargets := (deleteRows t.queryTargets).1 }, (deleteRows t.queryTargets).2)

def dropQueryCache : LevelDbTables :=
  { t with targetGlobal := some .default }.saveVersion 3

/-! ## Migration 4 -/

def highestSequenceNumber : Int :=
  (t.targetGlobal.getD .default).highestListenSequenceNumber

def ensureSentinelRow (key : DocumentKey) (sentinelValue : Int) : LevelDbTables :=
  if (t.documentTargets.get? (sentinel key)).isNone then
    { t with documentTargets := t.documentTargets.insert (sentinel key) (some sentinelValue) }
  else t

def ensureSentinelRows : Hard LevelDbTables := do
  let sequenceNumber := t.highestSequenceNumber
  let t ← t.remoteDocuments.entries.foldlM (fun t row => do
    hardAssert (row.1 ≠ DocumentKey.empty) "Failed to decode document key"
    return t.ensureSentinelRow row.1 sequenceNumber) t
  return t.saveVersion 4

/-! ## Migration 5 -/

def removeMutationBatches (userId : Bytes) (lastAcknowledgedBatchId : Int) : LevelDbTables :=
  let rows := t.mutations.scan (fun k => userId ≤ (ofLex k).1)
    fun k => k ≤ toLex (userId, lastAcknowledgedBatchId)
  { t with mutations := rows.foldl (fun mutations row => mutations.erase row.1) t.mutations }

def removeMutationDocuments (userId : Bytes) (lastAcknowledgedBatchId : Int) : Hard LevelDbTables :=
  (t.documentMutations.scanUnder userId).foldlM (fun t row => do
    hardAssert ((ofLex (ofLex row.1).2).1 ≠ DocumentKey.empty)
      "Failed to decode document mutation key"
    return if (ofLex (ofLex row.1).2).2 ≤ lastAcknowledgedBatchId then
      { t with documentMutations := t.documentMutations.erase row.1 } else t) t

def removeAcknowledgedMutations : Hard LevelDbTables := do
  let t ← t.mutationQueues.entries.foldlM (fun t row =>
    (t.removeMutationBatches row.1 row.2.lastAcknowledgedBatchId).removeMutationDocuments row.1
      row.2.lastAcknowledgedBatchId) t
  return t.saveVersion 5

/-! ## Migration 6 -/

def ensureCollectionParentRow (state : OrdMap (Bytes ×ₗ ResourcePath) Unit × LevelDbTables)
    (key : DocumentKey) : Hard (OrdMap (Bytes ×ₗ ResourcePath) Unit × LevelDbTables) := do
  let collectionPath ← key.path.popLast
  let (inserted, cache) ← addToIndex state.1 collectionPath
  let entry := collectionEntry collectionPath
  if inserted then
    return (cache, { state.2 with
      collectionParents := state.2.collectionParents.insert entry () })
  else return (cache, state.2)

def ensureCollectionParentsIndex : Hard LevelDbTables := do
  let (cache, t) ← t.remoteDocuments.entries.foldlM (fun state row => do
    hardAssert (row.1 ≠ DocumentKey.empty) "Failed to decode document key"
    ensureCollectionParentRow state row.1) (.empty, t)
  let (_, t) ← t.documentMutations.entries.foldlM (fun state row => do
    hardAssert ((ofLex (ofLex row.1).2).1 ≠ DocumentKey.empty)
      "Failed to decode document-mutation key"
    ensureCollectionParentRow state (ofLex (ofLex row.1).2).1) (cache, t)
  return t.saveVersion 6

/-! ## Runs -/

def commit : MigrationTransaction → Hard (LevelDbTables × Bool)
  | .delete table => .ok (t.deleteFrom table)
  | .dropQueryCache => .ok (t.dropQueryCache, false)
  | .ensureSentinelRows => (·, false) <$> t.ensureSentinelRows
  | .removeAcknowledgedMutations => (·, false) <$> t.removeAcknowledgedMutations
  | .ensureCollectionParentsIndex => (·, false) <$> t.ensureCollectionParentsIndex
  | .saveDowngradeVersion version => .ok (t.saveVersion version, false)

end

/-- The transactions of a run up to the one that the process ends before, with whether all
transactions were committed. -/
def commitAtMost : Nat → List MigrationTransaction → LevelDbTables → Hard (LevelDbTables × Bool)
  | _, [], t => .ok (t, true)
  | 0, _ :: _, t => .ok (t, false)
  | count + 1, transaction :: rest, t => do
    let (t, again) ← t.commit transaction
    commitAtMost count (if again then transaction :: rest else rest) t

def clearQueryCache : List MigrationTransaction :=
  [.delete .target, .delete .documentTarget, .delete .targetDocument, .delete .queryTarget,
    .dropQueryCache]

/-- What `RunMigrations` does after migration 3. -/
def laterMigrations (fromVersion toVersion : Int) : List MigrationTransaction :=
  (if fromVersion < 4 ∧ toVersion ≥ 4 then [.ensureSentinelRows] else []) ++
  (if fromVersion < 5 ∧ toVersion ≥ 5 then [.removeAcknowledgedMutations] else []) ++
  (if fromVersion < 6 ∧ toVersion ≥ 6 then [.ensureCollectionParentsIndex] else [])

/-- `LevelDbMigrations::RunMigrations`, as a list of transactions. -/
def migrations (fromVersion toVersion : Int) : List MigrationTransaction :=
  if fromVersion > toVersion then [.saveDowngradeVersion toVersion]
  else (if fromVersion < 3 ∧ toVersion ≥ 3 then clearQueryCache else []) ++
    laterMigrations fromVersion toVersion

def kSchemaVersion : Int := 6

section

variable (t : LevelDbTables)

/-- `RunMigrations`, ended by the process before it has committed more than `count`
transactions. -/
def interruptedMigrations (toVersion : Int) (count : Nat) : Hard LevelDbTables :=
  Prod.fst <$> commitAtMost count (migrations t.readSchemaVersion toVersion) t

def rowCount : QueryCacheTable → Nat
  | .target => t.targets.entries.length
  | .documentTarget => t.documentTargets.entries.length
  | .targetDocument => t.targetDocuments.entries.length
  | .queryTarget => t.queryTargets.entries.length

def transactionBound : Nat :=
  t.rowCount .target + t.rowCount .documentTarget + t.rowCount .targetDocument +
    t.rowCount .queryTarget + 8

def runMigrations (toVersion : Int) : Hard LevelDbTables :=
  t.interruptedMigrations toVersion t.transactionBound

end

/-! ## Every run comes to its end -/

variable {t t' : LevelDbTables}

section Delete

variable {K V : Type} [LinearOrder K] {rows : OrdMap K V}

theorem entries_foldl_erase {before after : List (K × V)} (h : rows.entries = before ++ after) :
    (before.foldl (fun rows row => rows.erase row.1) rows).entries = after := by
  induction before generalizing rows with
  | nil => exact h
  | cons row before ih =>
    have hsorted := rows.sorted
    rw [h] at hsorted
    apply ih
    rw [entries_erase, h]
    have hfilter := filter_ne_append_of_eq (e := row) (forall_mem_nil _)
      (pairwise_cons.mp hsorted).1
    exact hfilter

theorem entries_deleteRows (rows : OrdMap K V) :
    (deleteRows rows).1.entries = rows.entries.drop 1000 :=
  entries_foldl_erase (take_append_drop 1000 rows.entries).symm

theorem length_deleteRows_lt (h : (deleteRows rows).2 = true) :
    (deleteRows rows).1.entries.length < rows.entries.length := by
  have hlength : 1000 < rows.entries.length := of_decide_eq_true h
  rw [entries_deleteRows, length_drop]
  omega

theorem deleteRows_eq_empty (h : (deleteRows rows).2 = false) : (deleteRows rows).1 = .empty := by
  have hlength : rows.entries.length ≤ 1000 := by simpa [deleteRows] using h
  apply OrdMap.ext
  rw [entries_deleteRows, drop_eq_nil_of_le hlength]
  rfl

end Delete

def emptied (t : LevelDbTables) : QueryCacheTable → LevelDbTables
  | .target => { t with targets := .empty }
  | .documentTarget => { t with documentTargets := .empty }
  | .targetDocument => { t with targetDocuments := .empty }
  | .queryTarget => { t with queryTargets := .empty }

theorem commitAtMost_succ (count : Nat) (tx : MigrationTransaction)
    (rest : List MigrationTransaction) (t : LevelDbTables) :
    commitAtMost (count + 1) (tx :: rest) t = t.commit tx >>= fun r =>
      commitAtMost count (if r.2 then tx :: rest else rest) r.1 := rfl

theorem deleteFrom_again (h : (t.deleteFrom table).2 = true) :
    (t.deleteFrom table).1.rowCount table < t.rowCount table ∧
      (t.deleteFrom table).1.emptied table = t.emptied table := by
  cases table <;> exact ⟨length_deleteRows_lt h, rfl⟩

theorem deleteFrom_last (h : (t.deleteFrom table).2 = false) :
    (t.deleteFrom table).1 = t.emptied table := by
  cases table <;> simp only [deleteFrom, emptied] at h ⊢ <;> rw [deleteRows_eq_empty h]

section

variable (t : LevelDbTables)

/-- The transactions that delete the rows of a table leave it empty. -/
theorem commitAtMost_delete (table : QueryCacheTable)
    (rest : List MigrationTransaction) : ∃ count ≤ t.rowCount table + 1, ∀ n,
      commitAtMost (n + count) (.delete table :: rest) t = commitAtMost n rest
        (t.emptied table) := by
  induction hrows : t.rowCount table using Nat.strong_induction_on generalizing t with
  | _ rows ih =>
    cases hagain : (t.deleteFrom table).2 with
    | true =>
      obtain ⟨hless, hemptied⟩ := deleteFrom_again hagain
      obtain ⟨count, hcount, heq⟩ := ih _ (hrows ▸ hless) (t.deleteFrom table).1 rfl
      refine ⟨count + 1, by omega, fun n => ?_⟩
      rw [← add_assoc, commitAtMost_succ, commit, ok_bind, hagain, if_pos rfl, heq, hemptied]
    | false =>
      refine ⟨1, by omega, fun n => ?_⟩
      rw [commitAtMost_succ, commit, ok_bind, hagain, if_neg nofun, deleteFrom_last hagain]

def queryCacheCleared : LevelDbTables :=
  ((((t.emptied .target).emptied .documentTarget).emptied .targetDocument).emptied
    .queryTarget).dropQueryCache

theorem commitAtMost_clearQueryCache (rest : List MigrationTransaction) :
    ∃ count ≤ t.transactionBound - 3, ∀ n, commitAtMost (n + count) (clearQueryCache ++ rest) t =
      commitAtMost n rest t.queryCacheCleared := by
  obtain ⟨c₁, hc₁, h₁⟩ := commitAtMost_delete t .target
    ([.delete .documentTarget, .delete .targetDocument, .delete .queryTarget, .dropQueryCache] ++
      rest)
  obtain ⟨c₂, hc₂, h₂⟩ := commitAtMost_delete (t.emptied .target) .documentTarget
    ([.delete .targetDocument, .delete .queryTarget, .dropQueryCache] ++ rest)
  obtain ⟨c₃, hc₃, h₃⟩ := commitAtMost_delete ((t.emptied .target).emptied .documentTarget)
    .targetDocument ([.delete .queryTarget, .dropQueryCache] ++ rest)
  obtain ⟨c₄, hc₄, h₄⟩ := commitAtMost_delete
    (((t.emptied .target).emptied .documentTarget).emptied .targetDocument) .queryTarget
    ([.dropQueryCache] ++ rest)
  refine ⟨1 + c₄ + c₃ + c₂ + c₁, ?_, fun n => ?_⟩
  · change c₂ ≤ t.rowCount .documentTarget + 1 at hc₂
    change c₃ ≤ t.rowCount .targetDocument + 1 at hc₃
    change c₄ ≤ t.rowCount .queryTarget + 1 at hc₄
    unfold transactionBound
    omega
  · rw [← add_assoc, ← add_assoc, ← add_assoc, ← add_assoc]
    exact (h₁ _).trans ((h₂ _).trans ((h₃ _).trans (h₄ _)))

def commitOnce (transaction : MigrationTransaction) : Hard LevelDbTables :=
  Prod.fst <$> t.commit transaction

theorem commitAtMost_once (txs : List MigrationTransaction)
    (h : ∀ tx ∈ txs, ∀ table, tx ≠ .delete table) (t : LevelDbTables)
    (n : Nat) : commitAtMost (n + txs.length) txs t =
      (·, true) <$> txs.foldlM commitOnce t := by
  induction txs generalizing t with
  | nil => cases n <;> rfl
  | cons tx txs ih =>
    have hrest := ih fun transaction' hmem => h transaction' (mem_cons_of_mem _ hmem)
    have hcommit : t.commit tx = (·, false) <$> t.commitOnce tx := by
      cases tx with
      | delete table => exact absurd rfl (h _ mem_cons_self table)
      | dropQueryCache => rfl
      | saveDowngradeVersion version => rfl
      | ensureSentinelRows | removeAcknowledgedMutations | ensureCollectionParentsIndex =>
        rw [commitOnce, commit, Functor.map_map, Functor.map_map]
    rw [length_cons, ← add_assoc, commitAtMost, foldlM_cons, hcommit]
    cases t.commitOnce tx with
    | error e => rfl
    | ok t' => exact hrest t'

theorem laterMigrations_ne_delete {fromVersion toVersion : Int} :
    ∀ tx ∈ laterMigrations fromVersion toVersion, ∀ table,
      tx ≠ .delete table := by
  intro tx hmem table
  unfold laterMigrations at hmem
  rintro rfl
  split_ifs at hmem <;> simp at hmem

theorem length_laterMigrations_le (fromVersion toVersion : Int) :
    (laterMigrations fromVersion toVersion).length ≤ 3 := by
  unfold laterMigrations
  split_ifs <;> decide

def migrated (toVersion : Int) : Hard LevelDbTables :=
  if t.readSchemaVersion > toVersion then .ok (t.saveVersion toVersion)
  else (laterMigrations t.readSchemaVersion toVersion).foldlM commitOnce
    (if t.readSchemaVersion < 3 ∧ toVersion ≥ 3 then t.queryCacheCleared else t)

/-- Every run comes to its end within the bound, or aborts. -/
theorem commitAtMost_migrations (toVersion : Int) {count : Nat}
    (hcount : t.transactionBound ≤ count) :
    commitAtMost count (migrations t.readSchemaVersion toVersion) t =
      (·, true) <$> t.migrated toVersion := by
  have hlater := length_laterMigrations_le t.readSchemaVersion toVersion
  unfold migrations migrated
  split_ifs with hdown hclear
  · obtain ⟨n, rfl⟩ := Nat.exists_eq_add_of_le' (show 1 ≤ count by
      unfold transactionBound at hcount; omega)
    exact commitAtMost_once [.saveDowngradeVersion toVersion] (by simp) t n
  · obtain ⟨c, hc, hcleared⟩ := t.commitAtMost_clearQueryCache
      (laterMigrations t.readSchemaVersion toVersion)
    obtain ⟨n, rfl⟩ := Nat.exists_eq_add_of_le' (show
        (laterMigrations t.readSchemaVersion toVersion).length + c ≤ count by
      unfold transactionBound at hc hcount; omega)
    rw [← add_assoc, hcleared]
    exact commitAtMost_once _ laterMigrations_ne_delete _ n
  · obtain ⟨n, rfl⟩ := Nat.exists_eq_add_of_le' (show
        (laterMigrations t.readSchemaVersion toVersion).length ≤ count by
      unfold transactionBound at hcount; omega)
    exact commitAtMost_once _ laterMigrations_ne_delete t n

theorem runMigrations_eq (toVersion : Int) : t.runMigrations toVersion = t.migrated toVersion := by
  rw [runMigrations, interruptedMigrations, commitAtMost_migrations t toVersion le_rfl]
  cases t.migrated toVersion <;> rfl

/-! ## What the migrations do -/

/-- The rows that the migrations go through can be decoded. -/
structure Readable (t : LevelDbTables) : Prop where
  documents : ∀ key doc, t.remoteDocuments.get? key = some doc → key ≠ DocumentKey.empty
  mutations : ∀ userId key id, t.documentMutations.get? (toLex (userId, toLex (key, id))) =
    some () →
    key ≠ DocumentKey.empty

/-- The batch id is not above the last one that the backend has acknowledged to the user. -/
def isAcknowledged (userId : Bytes) (id : Int) : Bool :=
  (t.mutationQueues.get? userId).any fun row => id ≤ row.lastAcknowledgedBatchId

theorem ensureSentinelRow_eq (key : DocumentKey) (n : Int) :
    ∃ rows, t.ensureSentinelRow key n = { t with documentTargets := rows } ∧ ∀ k, rows.get? k =
      (t.documentTargets.get? k).or (if k = sentinel key then some (some n) else none) := by
  unfold ensureSentinelRow
  split_ifs with hnone
  · refine ⟨_, rfl, fun k => ?_⟩
    rw [get?_insert]
    split_ifs with hk
    · rw [hk, isNone_iff_eq_none.mp hnone, none_or]
    · rw [or_none]
  · refine ⟨t.documentTargets, rfl, fun k => ?_⟩
    split_ifs with hk
    · obtain ⟨value, hvalue⟩ := ne_none_iff_exists'.mp
        (hk ▸ mt isNone_iff_eq_none.mpr hnone)
      rw [hvalue, some_or]
    · rw [or_none]

end

theorem foldlM_ensureSentinelRow {entries : List (DocumentKey × MaybeDocument)} (n : Int)
    (h : ∀ row ∈ entries, row.1 ≠ DocumentKey.empty) (t : LevelDbTables) :
    ∃ rows, entries.foldlM (fun (t : LevelDbTables) row => do
        hardAssert (row.1 ≠ DocumentKey.empty) "Failed to decode document key"
        return t.ensureSentinelRow row.1 n) t = .ok { t with documentTargets := rows } ∧
      ∀ k, rows.get? k = (t.documentTargets.get? k).or
        (if (ofLex k).2 = 0 ∧ (ofLex k).1 ∈ entries.map Prod.fst then some (some n) else none) := by
  induction entries generalizing t with
  | nil => exact ⟨t.documentTargets, rfl, by simp⟩
  | cons row entries ih =>
    obtain ⟨rows, hrow, hget⟩ := t.ensureSentinelRow_eq row.1 n
    obtain ⟨rows', hrest, hget'⟩ := ih (fun row hmem => h row (mem_cons_of_mem _ hmem))
      { t with documentTargets := rows }
    refine ⟨rows', ?_, fun k => ?_⟩
    · rw [foldlM_cons, decide_eq_true (h row mem_cons_self), hardAssert_true, hrow]
      exact hrest
    · rw [hget', hget, Option.or_assoc]
      refine congrArg _ ?_
      by_cases hk : k = sentinel row.1
      · subst hk
        simp [sentinel]
      · rw [if_neg hk]
        refine if_congr (and_congr_right fun hzero => ?_) rfl rfl
        have hkey : (ofLex k).1 ≠ row.1 := fun heq => hk (heq ▸ (sentinel_eq hzero).symm)
        simp [hkey]

/-- Migration 4 adds the sentinel rows that are missing. -/
theorem ensureSentinelRows_ok (h : t.Readable) : ∃ rows,
    t.ensureSentinelRows = .ok ({ t with documentTargets := rows }.saveVersion 4) ∧
    ∀ k, rows.get? k = (t.documentTargets.get? k).or
      (if (ofLex k).2 = 0 ∧ (t.remoteDocuments.get? (ofLex k).1).isSome then
        some (some t.highestSequenceNumber) else none) := by
  obtain ⟨rows, hrows, hget⟩ := foldlM_ensureSentinelRow t.highestSequenceNumber
    (fun row hmem => h.documents _ _ (mem_entries.mp hmem)) t
  refine ⟨rows, ?_, fun k => ?_⟩
  · rw [ensureSentinelRows, hrows]
    rfl
  · rw [hget]
    simp only [OrdMap.mem_keys]

theorem removeMutationBatches_eq (t : LevelDbTables) (user : Bytes) (last : Int) :
    ∃ rows, t.removeMutationBatches user last = { t with mutations := rows } ∧ ∀ userId' id,
      rows.get? (toLex (userId', id)) =
        if userId' = user ∧ id ≤ last then none else t.mutations.get? (toLex (userId', id)) := by
  refine ⟨_, rfl, fun userId' id => get?_foldl_erase_of_iff _ _ fun batch => ?_⟩
  rw [mem_scan_iff fun a b _ hab hb => hab.trans hb]
  refine and_congr_right fun _ => ?_
  rw [Prod.Lex.toLex_le_toLex]
  constructor
  · rintro ⟨hle, hlt | ⟨heq, hid⟩⟩
    · exact absurd hlt (not_lt.mpr hle)
    · exact ⟨heq, hid⟩
  · rintro ⟨rfl, hid⟩
    exact ⟨le_rfl, .inr ⟨rfl, hid⟩⟩

theorem foldlM_removeMutationDocument {scanned : List ((Bytes ×ₗ DocumentKey ×ₗ Int) × Unit)}
    (last : Int) (h : ∀ row ∈ scanned, (ofLex (ofLex row.1).2).1 ≠ DocumentKey.empty)
    (t : LevelDbTables) : scanned.foldlM (fun (t : LevelDbTables) row => do
        hardAssert ((ofLex (ofLex row.1).2).1 ≠ DocumentKey.empty)
          "Failed to decode document mutation key"
        return if (ofLex (ofLex row.1).2).2 ≤ last then
          { t with documentMutations := t.documentMutations.erase row.1 } else t) t =
      .ok { t with documentMutations :=
        ((scanned.filter fun row => (ofLex (ofLex row.1).2).2 ≤ last).foldl
          (fun rows row => rows.erase row.1) t.documentMutations) } := by
  induction scanned generalizing t with
  | nil => rfl
  | cons row scanned ih =>
    have hrest := ih fun row hmem => h row (mem_cons_of_mem _ hmem)
    rw [foldlM_cons, decide_eq_true (h row mem_cons_self)]
    by_cases hlast : (ofLex (ofLex row.1).2).2 ≤ last
    · rw [if_pos hlast, filter_cons_of_pos (by simpa using hlast)]
      exact hrest _
    · rw [if_neg hlast, filter_cons_of_neg (by simpa using hlast)]
      exact hrest t

theorem removeMutationDocuments_ok (h : t.Readable) (user : Bytes) (last : Int) :
    ∃ rows, t.removeMutationDocuments user last = .ok { t with documentMutations := rows } ∧
      ∀ userId' key id, rows.get? (toLex (userId', toLex (key, id))) =
        if userId' = user ∧ id ≤ last then none
        else t.documentMutations.get? (toLex (userId', toLex (key, id))) := by
  have hreadable : ∀ row ∈ t.documentMutations.scanUnder user,
      (ofLex (ofLex row.1).2).1 ≠ DocumentKey.empty :=
    fun row hrow => h.mutations _ _ _ (mem_scanUnder.mp hrow).1
  refine ⟨_, foldlM_removeMutationDocument last hreadable t, fun userId' key id =>
    get?_foldl_erase_of_iff _ _ fun _ => ?_⟩
  rw [mem_filter, mem_scanUnder, decide_eq_true_eq, and_assoc]
  rfl

theorem foldlM_removeAcknowledged (h : t.Readable) (entries : List (Bytes × MutationQueueRow)) :
    ∃ mutations documentMutations, entries.foldlM (fun (t : LevelDbTables) row =>
        (t.removeMutationBatches row.1 row.2.lastAcknowledgedBatchId).removeMutationDocuments row.1
          row.2.lastAcknowledgedBatchId) t = .ok { t with mutations, documentMutations } ∧
      (∀ user id, mutations.get? (toLex (user, id)) =
        if ∃ row ∈ entries, user = row.1 ∧ id ≤ row.2.lastAcknowledgedBatchId then none
        else t.mutations.get? (toLex (user, id))) ∧
      ∀ user key id, documentMutations.get? (toLex (user, toLex (key, id))) =
        if ∃ row ∈ entries, user = row.1 ∧ id ≤ row.2.lastAcknowledgedBatchId then none
        else t.documentMutations.get? (toLex (user, toLex (key, id))) := by
  induction entries generalizing t with
  | nil => exact ⟨t.mutations, t.documentMutations, rfl, by simp, by simp⟩
  | cons row entries ih =>
    obtain ⟨batches, hbatches, hgetBatches⟩ :=
      t.removeMutationBatches_eq row.1 row.2.lastAcknowledgedBatchId
    have hreadable : { t with mutations := batches }.Readable := ⟨h.documents, h.mutations⟩
    obtain ⟨documents, hdocs, hgetDocuments⟩ :=
      removeMutationDocuments_ok hreadable row.1 row.2.lastAcknowledgedBatchId
    have hreadable' : { t with
        mutations := batches
        documentMutations := documents }.Readable := by
      refine ⟨h.documents, fun user key id hget => ?_⟩
      rw [hgetDocuments] at hget
      split_ifs at hget
      exact h.mutations user key id hget
    obtain ⟨mutations, documentMutations, hrest, hgetMutations, hgetDocumentMutations⟩ :=
      ih hreadable'
    have hor : ∀ user id,
        ((∃ row ∈ entries, user = row.1 ∧ id ≤ row.2.lastAcknowledgedBatchId) ∨
          (user = row.1 ∧ id ≤ row.2.lastAcknowledgedBatchId)) ↔
        ∃ row' ∈ row :: entries, user = row'.1 ∧ id ≤ row'.2.lastAcknowledgedBatchId := by
      intro user id
      rw [or_comm, exists_mem_cons_iff]
    refine ⟨mutations, documentMutations, ?_, fun user id => ?_, fun user key id => ?_⟩
    · rw [foldlM_cons, hbatches, hdocs]
      exact hrest
    · rw [hgetMutations, hgetBatches, ← ite_or]
      exact if_congr (hor user id) rfl rfl
    · rw [hgetDocumentMutations, hgetDocuments, ← ite_or]
      exact if_congr (hor user id) rfl rfl

theorem isAcknowledged_iff {user : Bytes} {id : Int} : t.isAcknowledged user id = true ↔
    ∃ row ∈ t.mutationQueues.entries, user = row.1 ∧ id ≤ row.2.lastAcknowledgedBatchId := by
  rw [isAcknowledged, Option.any_eq_true]
  constructor
  · rintro ⟨row, hrow, hle⟩
    exact ⟨(user, row), mem_entries.mpr hrow, rfl, of_decide_eq_true hle⟩
  · rintro ⟨⟨user, row⟩, hrow, rfl, hle⟩
    exact ⟨row, mem_entries.mp hrow, decide_eq_true hle⟩

/-- Migration 5 removes the rows of acknowledged batches and no other. -/
theorem removeAcknowledgedMutations_ok (h : t.Readable) : ∃ mutations documentMutations,
    t.removeAcknowledgedMutations =
      .ok ({ t with mutations, documentMutations }.saveVersion 5) ∧
    (∀ user id, mutations.get? (toLex (user, id)) =
      if t.isAcknowledged user id then none else t.mutations.get? (toLex (user, id))) ∧
    ∀ user key id, documentMutations.get? (toLex (user, toLex (key, id))) =
      if t.isAcknowledged user id then none
      else t.documentMutations.get? (toLex (user, toLex (key, id))) := by
  obtain ⟨mutations, documentMutations, hok, hmuts, hdocumentMutations⟩ :=
    foldlM_removeAcknowledged h t.mutationQueues.entries
  refine ⟨mutations, documentMutations, ?_, fun user id => ?_, fun user key id => ?_⟩
  · rw [removeAcknowledgedMutations, hok]
    rfl
  · rw [hmuts]
    exact if_congr isAcknowledged_iff.symm rfl rfl
  · rw [hdocumentMutations]
    exact if_congr isAcknowledged_iff.symm rfl rfl

/-- The index has the collection of a document. -/
def HasParent (t : LevelDbTables) (key : DocumentKey) : Prop :=
  (t.collectionParents.get?
    (collectionEntry key.path.dropLast)).isSome

/-- The rows of the index that the cache of `EnsureCollectionParentsIndex` knows of are there. -/
def IndexState (before : LevelDbTables)
    (state : OrdMap (Bytes ×ₗ ResourcePath) Unit × LevelDbTables) : Prop :=
  ∃ parents, state.2 = { before with collectionParents := parents } ∧
    (∀ k, (before.collectionParents.get? k).isSome → (parents.get? k).isSome) ∧
    ∀ k, (state.1.get? k).isSome → (parents.get? k).isSome

variable {state : OrdMap (Bytes ×ₗ ResourcePath) Unit × LevelDbTables}

theorem ensureCollectionParentRow_ok (h : IndexState t state)
    {key : DocumentKey} (hkey : key ≠ DocumentKey.empty) :
    ∃ state', ensureCollectionParentRow state key = .ok state' ∧ IndexState t state' ∧
      state'.2.HasParent key ∧ ∀ key', state.2.HasParent key' → state'.2.HasParent key' := by
  obtain ⟨cache, t'⟩ := state
  obtain ⟨parents, rfl, hold, hcache⟩ := h
  have hpath : key.path ≠ [] := fun hnil => hkey (DocumentKey.ext hnil)
  have hpop : key.path.popLast = .ok key.path.dropLast := by
    rw [ResourcePath.popLast, if_neg (by simpa using hpath)]
  have hodd : key.path.dropLast.length % 2 = 1 := by
    have hlength := length_pos_iff.mpr hpath
    have heven := key.isDocumentKey
    rw [length_dropLast]
    omega
  have hadd : addToIndex cache key.path.dropLast = .ok
      ((cache.get? (collectionEntry key.path.dropLast)).isNone,
        cache.insert (collectionEntry key.path.dropLast) ()) := by
    rw [addToIndex, hodd]
    rfl
  rw [ensureCollectionParentRow, hpop, ok_bind, hadd]
  unfold HasParent
  generalize collectionEntry key.path.dropLast = entry
  have hinsert : ∀ k, (parents.get? k).isSome → ((parents.insert entry ()).get? k).isSome :=
    fun k hk => isSome_get?_insert.mpr (.inr hk)
  have hentry : ((parents.insert entry ()).get? entry).isSome :=
    isSome_get?_insert.mpr (.inl rfl)
  -- Either way the rows know of all that the cache knows of.
  have hcached : ∀ rows : OrdMap (Bytes ×ₗ ResourcePath) Unit, (rows.get? entry).isSome →
      (∀ k, (parents.get? k).isSome → (rows.get? k).isSome) →
      ∀ k, ((cache.insert entry ()).get? k).isSome → (rows.get? k).isSome := by
    intro rows hhas hsub k hk
    rcases isSome_get?_insert.mp hk with rfl | hk
    · exact hhas
    · exact hsub k (hcache k hk)
  cases hnew : cache.get? entry with
  | none =>
    exact ⟨_, rfl, ⟨parents.insert entry (), rfl, fun k hk => hinsert k (hold k hk),
      hcached _ hentry hinsert⟩, hentry, fun key' => hinsert _⟩
  | some row =>
    have hhas : (parents.get? entry).isSome := hcache entry (by rw [hnew]; rfl)
    exact ⟨_, rfl, ⟨parents, rfl, hold, hcached parents hhas fun _ hk => hk⟩, hhas,
      fun key' hkey' => hkey'⟩

theorem foldlM_ensureCollectionParentRow {α : Type} (keyOf : α → DocumentKey) (message : String)
    {rows : List α} (hrows : ∀ row ∈ rows, keyOf row ≠ DocumentKey.empty) (h : IndexState t state) :
    ∃ state', rows.foldlM (fun state row => do
        hardAssert (keyOf row ≠ DocumentKey.empty) message
        ensureCollectionParentRow state (keyOf row)) state = .ok state' ∧ IndexState t state' ∧
      (∀ row ∈ rows, state'.2.HasParent (keyOf row)) ∧
      ∀ key, state.2.HasParent key → state'.2.HasParent key := by
  induction rows generalizing state with
  | nil => exact ⟨state, rfl, h, nofun, fun key hkey => hkey⟩
  | cons row rows ih =>
    have hkey := hrows row mem_cons_self
    obtain ⟨state₁, hfirst, h₁, hhas, hkeep⟩ := ensureCollectionParentRow_ok h hkey
    obtain ⟨state₂, hrest, h₂, hall, hkeep'⟩ :=
      ih (fun row hmem => hrows row (mem_cons_of_mem _ hmem)) h₁
    refine ⟨state₂, ?_, h₂, forall_mem_cons.mpr ⟨hkeep' _ hhas, hall⟩,
      fun key hparent => hkeep' key (hkeep key hparent)⟩
    rw [foldlM_cons, decide_eq_true hkey, hardAssert_true, hfirst]
    exact hrest

/-- Migration 6 adds the collections of all documents and mutations to the index. -/
theorem ensureCollectionParentsIndex_ok (h : t.Readable) : ∃ parents,
    t.ensureCollectionParentsIndex =
      .ok ({ t with collectionParents := parents }.saveVersion 6) ∧
    (∀ key doc, t.remoteDocuments.get? key = some doc →
      { t with collectionParents := parents }.HasParent key) ∧
    ∀ user key id, t.documentMutations.get? (toLex (user, toLex (key, id))) = some () →
      { t with collectionParents := parents }.HasParent key := by
  have hstart : IndexState t (.empty, t) := ⟨t.collectionParents, rfl, fun _ hk => hk, nofun⟩
  obtain ⟨⟨cache, t₁⟩, hdocs, h₁, hhas, -⟩ := foldlM_ensureCollectionParentRow
    (fun row : DocumentKey × MaybeDocument => row.1) "Failed to decode document key"
    (fun row hmem => h.documents _ _ (mem_entries.mp hmem)) hstart
  obtain ⟨⟨cache', t₂⟩, hmuts, ⟨parents, heq, -, -⟩, hhas', hkeep⟩ :=
    foldlM_ensureCollectionParentRow
      (fun row : (Bytes ×ₗ DocumentKey ×ₗ Int) × Unit => (ofLex (ofLex row.1).2).1)
      "Failed to decode document-mutation key"
      (fun row hmem => h.mutations _ _ _ (mem_entries.mp hmem)) h₁
  obtain rfl : t₂ = { t with collectionParents := parents } := heq
  refine ⟨parents, ?_, fun key doc hget => ?_, fun user key id hget => ?_⟩
  · obtain ⟨_, heq₁, -⟩ := h₁
    have hsame : t₁.documentMutations = t.documentMutations := by rw [show t₁ = _ from heq₁]
    rw [ensureCollectionParentsIndex, hdocs, ok_bind]
    dsimp only
    rw [hsame, hmuts]
    rfl
  · exact hkeep key (hhas _ (mem_entries.mpr hget))
  · exact hhas' _ (mem_entries.mpr hget)

/-! ## What a version promises -/

/-- What the migrations up to a version have made sure of. -/
structure Migrated (t : LevelDbTables) (version : Int) : Prop where
  sentinels : 4 ≤ version → ∀ key, (t.remoteDocuments.get? key).isSome →
    (t.documentTargets.get? (sentinel key)).isSome
  batches : 5 ≤ version → ∀ userId id, t.isAcknowledged userId id →
    t.mutations.get? (toLex (userId, id)) = none
  references : 5 ≤ version → ∀ userId key id, t.isAcknowledged userId id →
    t.documentMutations.get? (toLex (userId, toLex (key, id))) = none
  documentParents : 6 ≤ version → ∀ key, (t.remoteDocuments.get? key).isSome → t.HasParent key
  mutationParents : 6 ≤ version → ∀ userId key id,
    t.documentMutations.get? (toLex (userId, toLex (key, id))) = some () → t.HasParent key

/-- The documents and the state of the queues are the same, and all rows of batches are there that
were not acknowledged. -/
structure Kept (before t : LevelDbTables) : Prop where
  remoteDocuments : t.remoteDocuments = before.remoteDocuments
  mutationQueues : t.mutationQueues = before.mutationQueues
  mutations : ∀ userId id, t.mutations.get? (toLex (userId, id)) =
    before.mutations.get? (toLex (userId, id)) ∨
      before.isAcknowledged userId id ∧ t.mutations.get? (toLex (userId, id)) = none
  documentMutations : ∀ userId key id, t.documentMutations.get? (toLex (userId, toLex (key, id))) =
    before.documentMutations.get? (toLex (userId, toLex (key, id))) ∨
      before.isAcknowledged userId id ∧
        t.documentMutations.get? (toLex (userId, toLex (key, id))) = none

theorem Kept.refl (t : LevelDbTables) : Kept t t :=
  ⟨rfl, rfl, fun _ _ => .inl rfl, fun _ _ _ => .inl rfl⟩

variable {before : LevelDbTables}

theorem Kept.isAcknowledged_eq (h : Kept before t) (user : Bytes)
    (id : Int) : t.isAcknowledged user id = before.isAcknowledged user id := by
  rw [isAcknowledged, isAcknowledged, h.mutationQueues]

theorem Kept.trans {t₁ t₂ t₃ : LevelDbTables} (h : Kept t₁ t₂) (h' : Kept t₂ t₃) : Kept t₁ t₃ where
  remoteDocuments := h'.remoteDocuments.trans h.remoteDocuments
  mutationQueues := h'.mutationQueues.trans h.mutationQueues
  mutations user id := by
    rcases h'.mutations user id with hsame | ⟨hacked, hnone⟩
    · rw [hsame]
      exact h.mutations user id
    · exact .inr ⟨h.isAcknowledged_eq user id ▸ hacked, hnone⟩
  documentMutations user key id := by
    rcases h'.documentMutations user key id with hsame | ⟨hacked, hnone⟩
    · rw [hsame]
      exact h.documentMutations user key id
    · exact .inr ⟨h.isAcknowledged_eq user id ▸ hacked, hnone⟩

theorem Kept.readable (h : Kept before t) (hread : before.Readable) : t.Readable where
  documents key doc hget := hread.documents key doc (h.remoteDocuments ▸ hget)
  mutations user key id hget := by
    rcases h.documentMutations user key id with hsame | ⟨-, hnone⟩
    · exact hread.mutations user key id (hsame ▸ hget)
    · rw [hnone] at hget
      cases hget

/-- The version of the database in which a transaction of a run is committed. -/
def RunsAt : MigrationTransaction → Int → Prop
  | .delete _, version | .dropQueryCache, version => version < 3
  | .ensureSentinelRows, version => version = 3
  | .removeAcknowledgedMutations, version => version = 4
  | .ensureCollectionParentsIndex, version => version = 5
  | .saveDowngradeVersion toVersion, version => toVersion < version

def versionAfter (version : Int) : MigrationTransaction → Int
  | .delete _ => version
  | .dropQueryCache => 3
  | .ensureSentinelRows => 4
  | .removeAcknowledgedMutations => 5
  | .ensureCollectionParentsIndex => 6
  | .saveDowngradeVersion toVersion => toVersion

/-- A transaction of a run keeps what the version promises. -/
theorem Migrated.commit (h : t.Migrated t.readSchemaVersion) (hread : t.Readable)
    {tx : MigrationTransaction} (hruns : RunsAt tx t.readSchemaVersion) :
    ∃ t' again, t.commit tx = .ok (t', again) ∧
      t'.Migrated (versionAfter t.readSchemaVersion tx) ∧ Kept t t' ∧
      t'.readSchemaVersion = versionAfter t.readSchemaVersion tx ∧
      (again = true → versionAfter t.readSchemaVersion tx = t.readSchemaVersion) := by
  cases tx with
  | delete table =>
    have hbelow : t.readSchemaVersion < 3 := hruns
    have hmigrated : ∀ t' : LevelDbTables, t'.Migrated t.readSchemaVersion := by
      intro t'
      constructor <;> intro hge <;> omega
    cases table <;> exact ⟨_, _, rfl, hmigrated _, { Kept.refl t with }, rfl, fun _ => rfl⟩
  | dropQueryCache =>
    refine ⟨_, _, rfl, ?_, { Kept.refl t with }, rfl, nofun⟩
    constructor <;> intro hge <;> exact absurd hge (by decide : ¬ _ ≤ (3 : Int))
  | ensureSentinelRows =>
    obtain ⟨rows, hok, hget⟩ := ensureSentinelRows_ok hread
    refine ⟨_, false, congrArg ((·, false) <$> ·) hok, ?_, { Kept.refl t with }, rfl, nofun⟩
    constructor
    · intro _ key hdoc
      change (rows.get? (sentinel key)).isSome
      rw [hget, if_pos ⟨rfl, hdoc⟩, isSome_or]
      exact Bool.or_true _
    all_goals exact fun hge => absurd hge (by decide : ¬ _ ≤ (4 : Int))
  | removeAcknowledgedMutations =>
    have hversion : t.readSchemaVersion = 4 := hruns
    obtain ⟨mutations, documentMutations, hok, hbatches, hreferences⟩ :=
      removeAcknowledgedMutations_ok hread
    refine ⟨_, false, congrArg ((·, false) <$> ·) hok, ?_, ?_, rfl, nofun⟩
    · constructor
      · exact fun _ => h.sentinels hversion.ge
      · intro _ user id hacked
        exact (hbatches user id).trans (if_pos hacked)
      · intro _ user key id hacked
        exact (hreferences user key id).trans (if_pos hacked)
      all_goals exact fun hge => absurd hge (by decide : ¬ _ ≤ (5 : Int))
    · refine ⟨rfl, rfl, fun user id => ?_, fun user key id => ?_⟩
      · change mutations.get? _ = _ ∨ _ ∧ mutations.get? _ = none
        rw [hbatches]
        split_ifs with hacked
        · exact .inr ⟨hacked, rfl⟩
        · exact .inl rfl
      · change documentMutations.get? _ = _ ∨ _ ∧ documentMutations.get? _ = none
        rw [hreferences]
        split_ifs with hacked
        · exact .inr ⟨hacked, rfl⟩
        · exact .inl rfl
  | ensureCollectionParentsIndex =>
    have hversion : t.readSchemaVersion = 5 := hruns
    obtain ⟨parents, hok, hdocs, hmuts⟩ := ensureCollectionParentsIndex_ok hread
    refine ⟨_, false, congrArg ((·, false) <$> ·) hok, ?_, { Kept.refl t with }, rfl, nofun⟩
    constructor
    · exact fun _ => h.sentinels (hversion ▸ by decide)
    · exact fun _ => h.batches hversion.ge
    · exact fun _ => h.references hversion.ge
    · intro _ key hdoc
      obtain ⟨doc, hdoc⟩ := isSome_iff_exists.mp hdoc
      exact hdocs key doc hdoc
    · exact fun _ => hmuts
  | saveDowngradeVersion toVersion =>
    have hbelow : toVersion < t.readSchemaVersion := hruns
    refine ⟨_, _, rfl, ?_, { Kept.refl t with }, rfl, nofun⟩
    constructor <;> intro hge <;> replace hge := le_trans hge hbelow.le
    · exact h.sentinels hge
    · exact h.batches hge
    · exact h.references hge
    · exact h.documentParents hge
    · exact h.mutationParents hge

/-! ## Runs that are interrupted -/

/-- The transactions can be committed one after the other, from the version on. -/
def Chained : Int → List MigrationTransaction → Prop
  | _, [] => True
  | version, transaction :: rest =>
    RunsAt transaction version ∧ Chained (versionAfter version transaction) rest

/-- What the version promises is kept wherever a run ends. -/
theorem Migrated.commitAtMost (h : t.Migrated t.readSchemaVersion) (hread : t.Readable)
    {txs : List MigrationTransaction} (hchained : Chained t.readSchemaVersion txs)
    (count : Nat) : ∃ t' finished, commitAtMost count txs t = .ok (t', finished) ∧
      t'.Migrated t'.readSchemaVersion ∧ Kept t t' ∧ (finished = true →
        t'.readSchemaVersion = txs.foldl versionAfter t.readSchemaVersion) := by
  induction count generalizing t txs with
  | zero =>
    cases txs with
    | nil => exact ⟨t, true, rfl, h, Kept.refl t, fun _ => rfl⟩
    | cons tx rest => exact ⟨t, false, rfl, h, Kept.refl t, nofun⟩
  | succ count ih =>
    cases txs with
    | nil => exact ⟨t, true, rfl, h, Kept.refl t, fun _ => rfl⟩
    | cons tx rest =>
      obtain ⟨hruns, hrest⟩ := hchained
      obtain ⟨t₁, again, hcommit, h₁, hkept, hversion, hagain⟩ := h.commit hread hruns
      rw [commitAtMost_succ, hcommit, ok_bind]
      rw [← hversion] at h₁ hrest
      -- A tx that is committed again leaves the version as it is.
      have hnext : Chained t₁.readSchemaVersion (if again then tx :: rest else rest) ∧
          (if again then tx :: rest else rest).foldl versionAfter
            t₁.readSchemaVersion =
          (tx :: rest).foldl versionAfter t.readSchemaVersion := by
        cases again with
        | false => exact ⟨hrest, by rw [hversion]; rfl⟩
        | true =>
          rw [hagain rfl] at hversion
          rw [hversion]
          rw [hversion] at hrest
          refine ⟨⟨hruns, ?_⟩, rfl⟩
          rw [hagain rfl]
          exact hrest
      obtain ⟨t₂, finished, hrun, h₂, hkept', hend⟩ :=
        ih h₁ (hkept.readable hread) hnext.1
      exact ⟨t₂, finished, hrun, h₂, hkept.trans hkept', fun hfinished =>
        (hend hfinished).trans hnext.2⟩

/-- A database in which the migrations have done their work: the acknowledged batches are gone and
the others are as before, every document has a sentinel row, and the collections of all documents
and of all pending mutations are in the index. -/
structure UpToDate (before t : LevelDbTables) : Prop where
  acknowledged : ∀ userId id, before.isAcknowledged userId id →
    t.mutations.get? (toLex (userId, id)) = none ∧
      ∀ key, t.documentMutations.get? (toLex (userId, toLex (key, id))) = none
  pending : ∀ userId id, ¬ before.isAcknowledged userId id →
    t.mutations.get? (toLex (userId, id)) = before.mutations.get? (toLex (userId, id)) ∧
      ∀ key, t.documentMutations.get? (toLex (userId, toLex (key, id))) =
        before.documentMutations.get? (toLex (userId, toLex (key, id)))
  documents : t.remoteDocuments = before.remoteDocuments
  sentinels : ∀ key, (t.remoteDocuments.get? key).isSome →
    (t.documentTargets.get? (sentinel key)).isSome
  documentParents : ∀ key, (t.remoteDocuments.get? key).isSome → t.HasParent key
  mutationParents : ∀ userId key id,
    t.documentMutations.get? (toLex (userId, toLex (key, id))) = some () → t.HasParent key
  batchParents : ∀ userId id batch, t.mutations.get? (toLex (userId, id)) = some batch →
    ∀ mutation ∈ batch.mutations, t.HasParent mutation.key

/-- The mutations of the batches are in the index of documents. -/
def BatchesIndexed (t : LevelDbTables) : Prop :=
  ∀ userId id batch, t.mutations.get? (toLex (userId, id)) = some batch →
    ∀ mutation ∈ batch.mutations,
      t.documentMutations.get? (toLex (userId, toLex (mutation.key, id))) = some ()

theorem Kept.upToDate (h : Kept before t) (hindexed : before.BatchesIndexed)
    (hmigrated : t.Migrated kSchemaVersion) : UpToDate before t := by
  have hacknowledged : ∀ user id, before.isAcknowledged user id →
      t.mutations.get? (toLex (user, id)) = none := fun user id hacked =>
    hmigrated.batches (by decide) user id ((h.isAcknowledged_eq user id).trans hacked)
  refine ⟨fun user id hacked => ⟨hacknowledged user id hacked, fun key => ?_⟩,
    fun user id hacked => ⟨?_, fun key => ?_⟩, h.remoteDocuments, hmigrated.sentinels (by decide),
    hmigrated.documentParents (by decide), hmigrated.mutationParents (by decide), ?_⟩
  · exact hmigrated.references (by decide) user key id
      ((h.isAcknowledged_eq user id).trans hacked)
  · exact (h.mutations user id).resolve_right fun hnot => hacked hnot.1
  · exact (h.documentMutations user key id).resolve_right fun hnot => hacked hnot.1
  · intro user id batch hbatch mutation hmutation
    have hpending : ¬ before.isAcknowledged user id := by
      intro hacked
      rw [hacknowledged user id hacked] at hbatch
      cases hbatch
    -- The batch was there before, and so were its rows in the index of documents.
    have hbefore := (h.mutations user id).resolve_right fun hnot => hpending hnot.1
    have hreference := hindexed user id batch (hbefore.symm.trans hbatch) mutation hmutation
    have hkept := (h.documentMutations user mutation.key id).resolve_right
      fun hnot => hpending hnot.1
    exact hmigrated.mutationParents (by decide) user mutation.key id (hkept.trans hreference)

namespace OldDatabase

def room : DocumentKey := .inCollection (ascii "rooms") (ascii "a")

def hall : DocumentKey := .inCollection (ascii "halls") (ascii "b")

def deletion (batchId : Int) (key : DocumentKey) : MutationBatch :=
  ⟨batchId, SnapshotVersion.none.timestamp, [], [.delete key .none], cons_ne_nil _ _⟩

/-- A database of the first version, with a document, an acknowledged batch and a pending one. -/
def tables : LevelDbTables where
  version := none
  mutations := (OrdMap.empty.insert (toLex (ascii "u", 1)) (deletion 1 room)).insert
    (toLex (ascii "u", 2)) (deletion 2 hall)
  documentMutations := (OrdMap.empty.insert (toLex (ascii "u", toLex (room, 1))) ()).insert
    (toLex (ascii "u", toLex (hall, 2))) ()
  mutationQueues := OrdMap.empty.insert (ascii "u") ⟨1, []⟩
  targetGlobal := none
  targets := .empty
  queryTargets := .empty
  targetDocuments := .empty
  documentTargets := .empty
  remoteDocuments := OrdMap.empty.insert room (.noDocument room .none false)
  remoteDocumentReadTimes := .empty
  collectionParents := .empty

theorem readable : tables.Readable where
  documents key doc hget := by
    obtain ⟨rfl, -⟩ : key = room ∧ _ := by simpa [tables, get?_insert] using hget
    decide
  mutations user key id hget := by
    rcases get?_insert_eq_some.mp hget with ⟨hk, -⟩ | ⟨-, hget⟩
    · cases hk
      decide
    · obtain ⟨hk, -⟩ := (get?_insert_eq_some.mp hget).resolve_right fun h => by cases h.2
      cases hk
      decide

/-- The first version promises nothing. -/
theorem migrated : tables.Migrated tables.readSchemaVersion := by
  constructor <;> intro hge <;> exact absurd hge (by decide)

end OldDatabase

end LevelDbTables

end Firebase.Firestore.Local
