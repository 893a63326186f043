import Firebase.Firestore.Local.OrphanedDocumentsScan

/-!
# Removing orphaned documents

What `RemoveOrphanedDocuments` deletes, as a set of documents of the local store.

The probe for pending mutations is one by path prefix and the path in a key of `document_mutation`
has no terminator of its own, so that it also finds the mutations of documents in subcollections
(`isPinned_iff`).
-/

namespace Firebase.Firestore.Local

open Lib Util Model LevelDbTransaction OrdMap List LevelDbKey
open LevelDbDocumentTargetKey (sentinelKey encodeSentinelValue)
open LevelDbDocumentMutationKey (keyPrefixForPath)

/-! ## Pinned documents -/

/-- Whether a probe finds a row with a prefix. -/
theorem seek_isPrefixOf_iff (txn : LevelDbTransaction) (p : Bytes) (it : Iterator) :
    ((it.seek txn p).isValid && p.isPrefixOf (it.seek txn p).current.1) = true ↔
      ∃ k v, txn.overlay.get? k = some v ∧ p <+: k := by
  have hseek := Iterator.pointsTo_seek txn p it
  rw [Bool.and_eq_true, isPrefixOf_iff_prefix]
  cases hfirst : txn.overlay.first (p ≤ ·) with
  | none =>
    rw [hfirst] at hseek
    have hinvalid : (it.seek txn p).isValid = false := hseek
    refine iff_of_false (by simp [hinvalid]) ?_
    rintro ⟨k, v, hget, hpre⟩
    exact absurd (((first_eq_none_iff.mp hfirst) k (le_of_isPrefixOf hpre)).symm.trans hget)
      (by simp)
  | some row =>
    rw [hfirst] at hseek
    obtain ⟨hvalid, hcurrent, -⟩ := hseek
    obtain ⟨hget, hle, hbelow⟩ := first_eq_some_iff.mp hfirst
    rw [hvalid, hcurrent]
    constructor
    · exact fun h => ⟨row.1, row.2, hget, h.2⟩
    · rintro ⟨k, v, hget', hpre⟩
      have hle' : row.1 ≤ k := by
        by_contra hlt
        have hnone := hbelow k (not_le.mp hlt) (le_of_isPrefixOf hpre)
        exact absurd (hnone.symm.trans hget') (by simp)
      exact ⟨rfl, isPrefixOf_of_le_of_le hpre hle hle'⟩

variable {txn : LevelDbTransaction} {users : List Bytes}

theorem anyUserMutates_iff {path : ResourcePath} {it : Iterator} :
    anyUserMutates txn path users it = true ↔ ∃ user ∈ users, ∃ k v,
      txn.overlay.get? k = some v ∧ keyPrefixForPath user path <+: k := by
  induction users generalizing it with
  | nil => simp [anyUserMutates]
  | cons user users ih =>
    have hprobe := seek_isPrefixOf_iff txn
      (keyPrefixForPath user path) it
    rw [anyUserMutates]
    split_ifs with hfound
    · simp only [true_iff]
      exact ⟨user, by simp, hprobe.mp hfound⟩
    · rw [ih]
      constructor
      · rintro ⟨user', hmem, h⟩
        exact ⟨user', mem_cons_of_mem _ hmem, h⟩
      · rintro ⟨user', hmem, h⟩
        rcases mem_cons.mp hmem with rfl | hmem
        · exact absurd (hprobe.mpr h) hfound
        · exact ⟨user', hmem, h⟩

/-- Only the rows of `document_mutation` matter for whether a document is pinned. -/
theorem isPinned_congr {txn txn' : LevelDbTransaction} {refs : ReferenceSet}
    (h : ∀ k, LevelDbDocumentMutationKey.keyPrefix <+: k →
      txn'.overlay.get? k = txn.overlay.get? k) (key : DocumentKey) :
    isPinned txn' users refs key = isPinned txn users refs key := by
  have htable : ∀ user k, keyPrefixForPath user key.path <+: k →
      LevelDbDocumentMutationKey.keyPrefix <+: k := fun user k hpre =>
    (prefix_append _ _).trans ((prefix_append _ _).trans hpre)
  rw [isPinned, isPinned, mutationQueuesContainKey, mutationQueuesContainKey]
  congr 1
  rw [Bool.eq_iff_iff, anyUserMutates_iff, anyUserMutates_iff]
  refine exists_congr fun user => and_congr_right fun _ => exists₂_congr fun k v => ?_
  refine and_congr_left fun hpre => ?_
  rw [h k (htable user k hpre)]

/-! ## What is removed -/

section Remove

variable {users : List Bytes} {refs : ReferenceSet} {upperBound : ListenSequenceNumber}

/-- The two rows of a document that are deleted with it. -/
def RowOfOrphan (key : DocumentKey) (k : Bytes) : Prop :=
  k = LevelDbRemoteDocumentKey.key key ∨ k = sentinelKey key

variable {key : DocumentKey}

/-- The rows of a document are neither rows of `document_mutation` ... -/
theorem RowOfOrphan.not_documentMutation {k : Bytes} (h : RowOfOrphan key k) :
    ¬ LevelDbDocumentMutationKey.keyPrefix <+: k := by
  rcases h with rfl | rfl
  · exact fun h => KeyPrefix.encode_prefix_iff (p := .documentMutation)
      (k := .remoteDocument ⟨key⟩) |>.mp h
  · exact fun h => KeyPrefix.encode_prefix_iff (p := .documentMutation)
      (k := .documentTarget ⟨key, kInvalidTargetId⟩) |>.mp h

/-- ... nor, but for the sentinel row, of `document_target`. -/
theorem RowOfOrphan.eq_sentinelKey {k : Bytes} (h : RowOfOrphan key k)
    (hpre : LevelDbDocumentTargetKey.keyPrefix <+: k) : k = sentinelKey key := by
  refine h.resolve_left ?_
  rintro rfl
  exact KeyPrefix.encode_prefix_iff (p := .documentTarget) (k := .remoteDocument ⟨key⟩) |>.mp hpre

open Classical in
/-- The callback deletes the rows of a document that is old enough and not pinned. -/
theorem get?_removeOrphan (state : LevelDbTransaction × Nat) (key : DocumentKey)
    (sequenceNumber : ListenSequenceNumber) (k : Bytes) :
    (removeOrphan users refs upperBound state key sequenceNumber).1.overlay.get? k =
      if (sequenceNumber ≤ upperBound ∧ isPinned state.1 users refs key = false) ∧ RowOfOrphan key k
      then none else state.1.overlay.get? k := by
  rw [removeOrphan]
  by_cases hold : sequenceNumber ≤ upperBound
  · cases hpinned : isPinned state.1 users refs key with
    | true => simp [hold]
    | false =>
      simp only [hold, if_true, Bool.not_false, overlay_delete, get?_erase,
        true_and, RowOfOrphan]
      by_cases h₁ : k = sentinelKey key
      · simp [h₁]
      · by_cases h₂ : k = LevelDbRemoteDocumentKey.key key
        · simp [h₂]
        · simp [h₁, h₂]
  · simp [hold]

theorem safeCallback_removeOrphan (users : List Bytes) (refs : ReferenceSet)
    (upperBound : ListenSequenceNumber) : SafeCallback (removeOrphan users refs upperBound) := by
  constructor
  · intro state key sequenceNumber k hpre hne
    rw [get?_removeOrphan, if_neg]
    exact fun h => hne (h.2.eq_sentinelKey hpre)
  · intro state key sequenceNumber
    rw [removeOrphan]
    split_ifs
    · exact .inr (Nat.lt_succ_of_lt (Nat.lt_succ_self _))
    · exact .inl rfl
    · exact .inl rfl

open Classical in
/-- What the callbacks delete, one after the other: whether a document is pinned does not change
meanwhile. -/
theorem get?_foldl_removeOrphan (reports : List (DocumentKey × ListenSequenceNumber))
    (state : LevelDbTransaction × Nat) (k : Bytes) :
    (reports.foldl (fun state r => removeOrphan users refs upperBound state r.1 r.2)
        state).1.overlay.get? k =
      if ∃ r ∈ reports, (r.2 ≤ upperBound ∧ isPinned state.1 users refs r.1 = false) ∧
        RowOfOrphan r.1 k then none else state.1.overlay.get? k := by
  induction reports generalizing state with
  | nil => simp
  | cons r reports ih =>
    have hpinned : ∀ key, isPinned (removeOrphan users refs upperBound state r.1 r.2).1 users refs
        key = isPinned state.1 users refs key := by
      refine isPinned_congr fun k hpre => ?_
      rw [get?_removeOrphan, if_neg]
      exact fun h => h.2.not_documentMutation hpre
    rw [foldl_cons, ih, get?_removeOrphan]
    simp only [hpinned, mem_cons, exists_eq_or_imp]
    by_cases h : (r.2 ≤ upperBound ∧ isPinned state.1 users refs r.1 = false) ∧ RowOfOrphan r.1 k
    · simp [h]
    · simp only [h, if_false, false_or]

end Remove

/-! ## Contents of the local store -/

/-- The contents of the local store, by table and components, in the order of the keys. -/
structure Content where
  rows : List (LevelDbKey × Bytes)
  sorted : rows.Pairwise fun a b => a.1.encode < b.1.encode

variable {s : ListenSequenceNumber}

namespace Content

def db (c : Content) : LevelDb where
  entries := c.rows.map fun row => (row.1.encode, row.2)
  sorted := pairwise_map.mpr c.sorted

variable {c : Content}

theorem get?_db {k v : Bytes} :
    c.db.get? k = some v ↔ ∃ key, key.encode = k ∧ (key, v) ∈ c.rows := by
  rw [← mem_entries, db, mem_map]
  constructor
  · rintro ⟨⟨key, value⟩, hmem, heq⟩
    cases heq
    exact ⟨key, rfl, hmem⟩
  · rintro ⟨key, rfl, hmem⟩
    exact ⟨(key, v), hmem, rfl⟩

theorem get?_db_encode {key : LevelDbKey} {v : Bytes} :
    c.db.get? key.encode = some v ↔ (key, v) ∈ c.rows := by
  rw [get?_db]
  constructor
  · rintro ⟨key', heq, hmem⟩
    rwa [← encode_injective heq]
  · exact fun hmem => ⟨key, rfl, hmem⟩

def HasDocument (c : Content) (key : DocumentKey) : Prop :=
  ∃ v, (remoteDocument ⟨key⟩, v) ∈ c.rows

def HasSentinel (c : Content) (key : DocumentKey) (sequenceNumber : ListenSequenceNumber) : Prop :=
  ∃ v, (documentTarget ⟨key, kInvalidTargetId⟩, v) ∈ c.rows ∧
    sentinelValue v = sequenceNumber

def InTarget (c : Content) (key : DocumentKey) : Prop :=
  ∃ targetId v, targetId ≠ kInvalidTargetId ∧ (documentTarget ⟨key, targetId⟩, v) ∈
    c.rows

def Mutates (c : Content) (userId : Bytes) (key : DocumentKey) : Prop :=
  ∃ batchId v, (documentMutation ⟨userId, key, batchId⟩, v) ∈ c.rows

/-- What the local store keeps to.  Sentinel rows hold sequence numbers, which are never negative;
target ids are positive; and a document with rows of targets or of mutations has a
sentinel row. -/
structure WellFormed (c : Content) : Prop where
  readable : ∀ k v, (documentTarget k, v) ∈ c.rows → Readable (k, v)
  targetIds : ∀ k v, (documentTarget k, v) ∈ c.rows → kInvalidTargetId ≤ k.targetId
  sequenceNumbers : ∀ key s, c.HasSentinel key s → 0 ≤ s
  targetSentinels : ∀ key, c.InTarget key → ∃ s, c.HasSentinel key s
  mutationSentinels : ∀ userId key, c.Mutates userId key → ∃ s, c.HasSentinel key s

def documentTargetRows (c : Content) : List (LevelDbDocumentTargetKey × Bytes) :=
  c.rows.filterMap fun row =>
    match row.1 with
    | .documentTarget key => some (key, row.2)
    | _ => none

theorem mem_documentTargetRows {row : LevelDbDocumentTargetKey × Bytes} :
    row ∈ c.documentTargetRows ↔ (documentTarget row.1, row.2) ∈ c.rows := by
  rw [documentTargetRows, mem_filterMap]
  constructor
  · rintro ⟨⟨key, v⟩, hmem, heq⟩
    cases key with
    | documentTarget key =>
      cases heq
      exact hmem
    | _ => simp at heq
  · exact fun hmem => ⟨_, hmem, rfl⟩

theorem documentTargetRows_sorted (c : Content) :
    c.documentTargetRows.Pairwise fun a b => a.1.encode < b.1.encode := by
  refine pairwise_filterMap.mpr (c.sorted.imp fun {a b} hlt row ha row' hb => ?_)
  obtain ⟨key, v⟩ := a
  obtain ⟨key', v'⟩ := b
  cases key with
  | documentTarget key =>
    cases key' with
    | documentTarget key' =>
      cases ha
      cases hb
      exact hlt
    | _ => simp at hb
  | _ => simp at ha

theorem rowsAhead (htxn : txn.overlay = c.db) :
    RowsAhead txn (LevelDbDocumentTargetKey.keyPrefix ≤ ·) c.documentTargetRows := by
  refine ⟨c.documentTargetRows_sorted,
    fun row _ => le_of_isPrefixOf (keyPrefix_isPrefixOf_encode row.1), fun k v _ hpre => ?_⟩
  rw [htxn, get?_db]
  constructor
  · rintro ⟨key, rfl, hmem⟩
    -- A key with the prefix of the table is a key of the table.
    have hmatches : KeyPrefix.documentTarget.Matches key := KeyPrefix.encode_prefix_iff.mp hpre
    cases key with
    | documentTarget key => exact ⟨(key, v), mem_documentTargetRows.mpr hmem, rfl, rfl⟩
    | _ => exact hmatches.elim
  · rintro ⟨row, hmem, rfl, rfl⟩
    exact ⟨.documentTarget row.1, rfl, mem_documentTargetRows.mp hmem⟩

variable {key : DocumentKey}

theorem pairwise_componentRow (c : Content) :
    (c.documentTargetRows.map componentRow).Pairwise fun a b => a.1 < b.1 := by
  refine pairwise_map.mpr (c.documentTargetRows_sorted.imp fun {a b} hlt => ?_)
  have hcomponents : a.1.components < b.1.components :=
    LevelDbDocumentTargetKey.encode_orderCode.lt_iff.mp hlt
  refine Prod.Lex.lt_iff.mpr ((Prod.Lex.lt_iff.mp hcomponents).imp id fun h => ?_)
  exact ⟨DocumentKey.ext h.1, Int32.lt_iff_toInt_lt.mp h.2⟩

def tables (c : Content) : LevelDbTables :=
  { LevelDbTables.empty with
    documentTargets := ⟨c.documentTargetRows.map componentRow, c.pairwise_componentRow⟩ }

theorem get?_documentTargets {k : DocumentKey ×ₗ Core.TargetId} {value : Option Int} :
    c.tables.documentTargets.get? k = some value ↔ ∃ targetId v,
      (documentTarget ⟨(ofLex k).1, targetId⟩, v) ∈ c.rows ∧
        targetId.toInt = (ofLex k).2 ∧ some (sentinelValue v).toInt = value := by
  rw [← mem_entries, tables, mem_map]
  constructor
  · rintro ⟨⟨⟨d, targetId⟩, v⟩, hmem, heq⟩
    cases heq
    exact ⟨targetId, v, mem_documentTargetRows.mp hmem, rfl, rfl⟩
  · rintro ⟨targetId, v, hmem, hid, rfl⟩
    refine ⟨(⟨(ofLex k).1, targetId⟩, v), mem_documentTargetRows.mpr hmem, ?_⟩
    rw [componentRow, hid]
    rfl

theorem get?_sentinel {n : Int} : c.tables.documentTargets.get? (sentinel key) = some (some n) ↔
      ∃ s, c.HasSentinel key s ∧ s.toInt = n := by
  rw [get?_documentTargets]
  constructor
  · rintro ⟨targetId, v, hmem, hid, hv⟩
    obtain rfl := toInt_targetId_eq_zero_iff.mp hid
    exact ⟨_, ⟨v, hmem, rfl⟩, Option.some.inj hv⟩
  · rintro ⟨_, ⟨v, hmem, rfl⟩, rfl⟩
    exact ⟨kInvalidTargetId, v, hmem, rfl, rfl⟩

theorem inTarget_tables : c.tables.InTarget key ↔ c.InTarget key := by
  constructor
  · rintro ⟨id, value, hid, hget⟩
    obtain ⟨targetId, v, hmem, rfl, -⟩ := get?_documentTargets.mp hget
    exact ⟨targetId, v, mt toInt_targetId_eq_zero_iff.mpr hid, hmem⟩
  · rintro ⟨targetId, v, hne, hmem⟩
    exact ⟨targetId.toInt, _, mt toInt_targetId_eq_zero_iff.mp hne,
      get?_documentTargets.mpr ⟨targetId, v, hmem, rfl, rfl⟩⟩

/-- In well-formed contents the scan reports the documents with a sentinel row that is not zero
and without a target. -/
theorem mem_reportedOrphans_iff (hc : c.WellFormed) :
    (key, s) ∈ reportedOrphans ⟨0, DocumentKey.empty⟩ c.documentTargetRows ↔
      s ≠ 0 ∧ c.HasSentinel key s ∧ ¬ c.InTarget key := by
  obtain ⟨reports, hreports, hmem⟩ : ∃ reports, c.tables.enumerateOrphanedDocuments = .ok reports ∧
      ∀ key n, (key, n) ∈ reports ↔ c.tables.documentTargets.get? (sentinel key) = some (some n) ∧
        n ≠ 0 ∧ ¬ c.tables.Covered key := by
    refine LevelDbTables.mem_enumerateOrphanedDocuments fun k value hget => ?_
    obtain ⟨targetId, v, hrow, -, rfl⟩ := get?_documentTargets.mp hget
    exact ⟨(hc.readable _ v hrow).1, fun _ => rfl⟩
  obtain rfl := Except.ok.inj (hreports.symm.trans (enumerateRows_componentRow ⟨0, .empty⟩
    fun row hrow => (hc.readable _ _ (mem_documentTargetRows.mp hrow)).1))
  have hcovered : c.tables.Covered key ↔ c.InTarget key := by
    refine (LevelDbTables.covered_iff_inTarget (fun k value hget => ?_) fun key hin => ?_).trans
      inTarget_tables
    · obtain ⟨targetId, v, hrow, hid, -⟩ := get?_documentTargets.mp hget
      exact hid ▸ Int32.le_iff_toInt_le.mp (hc.targetIds _ v hrow)
    · obtain ⟨s, hs⟩ := hc.targetSentinels key (inTarget_tables.mp hin)
      exact Option.isSome_iff_exists.mpr ⟨_, get?_sentinel.mpr ⟨s, hs, rfl⟩⟩
  have hinjective : Function.Injective fun r : DocumentKey × ListenSequenceNumber =>
      (r.1, r.2.toInt) := fun _ _ h =>
    Prod.ext (Prod.mk.inj h).1 (Int64.toInt_inj.mp (Prod.mk.inj h).2)
  have hzero : s.toInt = 0 ↔ s = 0 := Int64.toInt_inj (y := 0)
  rw [← mem_map_of_injective hinjective, hmem, get?_sentinel, hcovered, ne_eq, hzero]
  constructor
  · rintro ⟨⟨s', hs, heq⟩, hne, hnone⟩
    obtain rfl : s' = s := Int64.toInt_inj.mp heq
    exact ⟨hne, hs, hnone⟩
  · rintro ⟨hne, hs, hnone⟩
    exact ⟨⟨s, hs, rfl⟩, hne, hnone⟩

end Content

/-! ## Removing orphaned documents -/

section Main

variable {c : Content} {txn : LevelDbTransaction} {users : List Bytes} {refs : ReferenceSet}

section

variable (htxn : txn.overlay = c.db) (husers : ∀ userId key, c.Mutates userId key → userId ∈ users)

include htxn husers

/-- The probes of the delegate find the pending mutations of a document *and of those below it*. -/
theorem mutationQueuesContainKey_iff {key : DocumentKey} :
    mutationQueuesContainKey txn users key = true ↔
      ∃ user key', c.Mutates user key' ∧ key.path <+: key'.path := by
  rw [mutationQueuesContainKey, anyUserMutates_iff, htxn]
  constructor
  · rintro ⟨user, -, k, v, hget, hpre⟩
    obtain ⟨row, rfl, hmem⟩ := Content.get?_db.mp hget
    have hmatches : (KeyPrefix.documentMutationForPath user key.path).Matches row :=
      KeyPrefix.encode_prefix_iff.mp hpre
    cases row with
    | documentMutation row =>
      obtain ⟨rfl, hpath⟩ := hmatches
      exact ⟨row.userId, row.documentKey, ⟨row.batchId, v, hmem⟩, hpath⟩
    | _ => exact hmatches.elim
  · rintro ⟨user, key', ⟨batchId, v, hmem⟩, hpath⟩
    refine ⟨user, husers user key' ⟨batchId, v, hmem⟩, _, v, Content.get?_db_encode.mpr
      hmem, ?_⟩
    exact KeyPrefix.encode_prefix_iff (p := .documentMutationForPath user key.path)
      (k := .documentMutation ⟨user, key', batchId⟩) |>.mpr ⟨rfl, hpath⟩

/-- The documents that the delegate takes for pinned: those with a reference, and those with a
pending mutation of themselves *or of a document below them*. -/
theorem isPinned_iff (hrefs : ∀ key id, refs.Mem key id → 0 ≤ id) {key : DocumentKey} :
    isPinned txn users refs key = true ↔ (∃ id, refs.Mem key id) ∨
      ∃ user key', c.Mutates user key' ∧ key.path <+: key'.path := by
  rw [isPinned, Bool.or_eq_true, ReferenceSet.containsKey_iff,
    mutationQueuesContainKey_iff htxn husers]
  exact or_congr_left (exists_congr fun id => and_iff_right_of_imp (hrefs key id))

end

/-- The documents that garbage collection is meant to remove. -/
def Content.Collectable (c : Content) (refs : ReferenceSet) (upperBound : ListenSequenceNumber)
    (key : DocumentKey) : Prop :=
  c.HasDocument key ∧ (∃ s, c.HasSentinel key s ∧ 0 < s ∧ s ≤ upperBound) ∧ ¬ c.InTarget key ∧
    (¬ ∃ id, refs.Mem key id) ∧ ¬ ∃ userId, c.Mutates userId key

/-- The document was in the cache and is not there any more. -/
def Content.Deleted (c : Content) (txn : LevelDbTransaction) (key : DocumentKey) : Prop :=
  c.HasDocument key ∧ txn.overlay.get? (LevelDbRemoteDocumentKey.key key) = none

open Classical in
/-- The rows after `RemoveOrphanedDocuments`. -/
theorem removeOrphanedDocuments_eq (hc : c.WellFormed) (htxn : txn.overlay = c.db)
    (users : List Bytes) (refs : ReferenceSet) (upperBound : ListenSequenceNumber) {bound : Nat}
    (hbound : c.rows.length < bound) :
    ∃ txn' count, removeOrphanedDocuments users refs upperBound bound txn = .ok (txn', count) ∧
      ∀ k, txn'.overlay.get? k =
        if ∃ key s, (s ≠ 0 ∧ c.HasSentinel key s ∧ ¬ c.InTarget key) ∧
          (s ≤ upperBound ∧ isPinned txn users refs key = false) ∧ RowOfOrphan key k
        then none else c.db.get? k := by
  have hstart := (Iterator.pointsTo_seek txn LevelDbDocumentTargetKey.keyPrefix
    (Iterator.new txn)).tracks le_rfl
  have hlength : c.documentTargetRows.length < bound :=
    (length_filterMap_le _ _).trans_lt hbound
  obtain ⟨state', pending', hloop, hreport⟩ := enumerateRows_eq
    (safeCallback_removeOrphan users refs upperBound) (txn, 0) ⟨0, DocumentKey.empty⟩
    (fun _ _ hab ha => ha.trans hab) (fun _ h => h) hstart (Content.rowsAhead htxn)
    (fun row hmem => hc.readable row.1 row.2 (Content.mem_documentTargetRows.mp hmem))
    (fun h => absurd rfl h) hlength
  refine ⟨(pending'.report (removeOrphan users refs upperBound) state').1,
    (pending'.report (removeOrphan users refs upperBound) state').2, ?_, fun k => ?_⟩
  · rw [removeOrphanedDocuments, enumerateOrphanedDocuments, hloop]
    rfl
  · rw [hreport, get?_foldl_removeOrphan, htxn]
    congr 1
    simp only [Prod.exists, Content.mem_reportedOrphans_iff hc]

/-- The row of a document in the cache is deleted with that document only. -/
theorem rowOfOrphan_remoteDocumentKey {key key' : DocumentKey} :
    RowOfOrphan key' (LevelDbRemoteDocumentKey.key key) ↔ key' = key := by
  constructor
  · rintro (h | h)
    · have h : (remoteDocument ⟨key⟩).encode =
        (remoteDocument ⟨key'⟩).encode := h
      have hkey := encode_injective h
      simpa using hkey.symm
    · have h : (remoteDocument ⟨key⟩).encode =
          (documentTarget ⟨key', kInvalidTargetId⟩).encode := h
      exact absurd (encode_injective h) (by simp)
  · rintro rfl
    exact .inl rfl

/-- Which documents are deleted: unlike the ones to be collected, they have no pending mutation
of a document below them. -/
theorem deleted_iff (hc : c.WellFormed) (htxn : txn.overlay = c.db)
    (husers : ∀ user key, c.Mutates user key → user ∈ users)
    (hrefs : ∀ key id, refs.Mem key id → 0 ≤ id) {upperBound : ListenSequenceNumber}
    {txn' : LevelDbTransaction} (hget : ∀ k, txn'.overlay.get? k = none ↔ c.db.get? k = none ∨
      ∃ key s, (s ≠ 0 ∧ c.HasSentinel key s ∧ ¬ c.InTarget key) ∧
        (s ≤ upperBound ∧ isPinned txn users refs key = false) ∧ RowOfOrphan key k)
    {key : DocumentKey} : c.Deleted txn' key ↔ c.Collectable refs upperBound key ∧
      ¬ ∃ user key', c.Mutates user key' ∧ key.path <+: key'.path := by
  have hpinned := @isPinned_iff c txn users refs htxn husers hrefs key
  rw [← not_iff_not, Bool.not_eq_true, not_or] at hpinned
  constructor
  · rintro ⟨hdoc, hnone⟩
    obtain ⟨v, hv⟩ := hdoc
    have hvalue : c.db.get? (LevelDbRemoteDocumentKey.key key) = some v :=
      Content.get?_db_encode.mpr hv
    have hpresent : c.db.get? (LevelDbRemoteDocumentKey.key key) ≠ none := by simp [hvalue]
    obtain ⟨key', s, ⟨hne, hsentinel, htarget⟩, ⟨hle, hfree⟩, hrow⟩ :=
      ((hget _).mp hnone).resolve_left hpresent
    obtain rfl := rowOfOrphan_remoteDocumentKey.mp hrow
    obtain ⟨hrefs', hmuts⟩ := hpinned.mp hfree
    have hpos : 0 < s := lt_of_le_of_ne (hc.sequenceNumbers _ s hsentinel) (Ne.symm hne)
    refine ⟨⟨⟨v, hv⟩, ⟨s, hsentinel, hpos, hle⟩, htarget, hrefs', ?_⟩, hmuts⟩
    rintro ⟨user, hmutates⟩
    exact hmuts ⟨user, _, hmutates, prefix_rfl⟩
  · rintro ⟨⟨hdoc, ⟨s, hsentinel, hpos, hle⟩, htarget, hrefs', -⟩, hmuts⟩
    refine ⟨hdoc, (hget _).mpr (.inr ⟨key, s, ⟨hpos.ne', hsentinel, htarget⟩,
      ⟨hle, hpinned.mpr ⟨hrefs', hmuts⟩⟩, rowOfOrphan_remoteDocumentKey.mpr rfl⟩)⟩

/-- `RemoveOrphanedDocuments` only ever deletes documents that are to be collected.  It deletes all
of them exactly if none of them has a pending mutation of a document below it, in one of its
subcollections: such a document is taken for pinned. -/
theorem removeOrphanedDocuments_exact_iff (hc : c.WellFormed) (htxn : txn.overlay = c.db)
    (husers : ∀ user key, c.Mutates user key → user ∈ users)
    (hrefs : ∀ key id, refs.Mem key id → 0 ≤ id) (upperBound : ListenSequenceNumber) {bound : Nat}
    (hbound : c.rows.length < bound) :
    ∃ txn' count, removeOrphanedDocuments users refs upperBound bound txn = .ok (txn', count) ∧
      (∀ key, c.Deleted txn' key → c.Collectable refs upperBound key) ∧
      ((∀ key, c.Deleted txn' key ↔ c.Collectable refs upperBound key) ↔
        ∀ key, c.Collectable refs upperBound key →
          ∀ user key', c.Mutates user key' → ¬ key.path <+: key'.path) := by
  obtain ⟨txn', count, hresult, hrows⟩ :=
    removeOrphanedDocuments_eq hc htxn users refs upperBound hbound
  have hget : ∀ k, txn'.overlay.get? k = none ↔ c.db.get? k = none ∨
      ∃ key s, (s ≠ 0 ∧ c.HasSentinel key s ∧ ¬ c.InTarget key) ∧
        (s ≤ upperBound ∧ isPinned txn users refs key = false) ∧ RowOfOrphan key k := by
    intro k
    rw [hrows k]
    split_ifs with h
    · simp [h]
    · simp [h]
  have hdeleted := fun key => @deleted_iff c txn users refs hc htxn husers hrefs upperBound txn'
    hget key
  refine ⟨txn', count, hresult, fun key h => ((hdeleted key).mp h).1, ?_⟩
  constructor
  · intro hexact key hkey user key' hmutates hpath
    exact ((hdeleted key).mp ((hexact key).mpr hkey)).2 ⟨user, key', hmutates, hpath⟩
  · intro hfree key
    refine ⟨fun h => ((hdeleted key).mp h).1, fun h => (hdeleted key).mpr ⟨h, ?_⟩⟩
    rintro ⟨user, key', hmutates, hpath⟩
    exact hfree key h user key' hmutates hpath

end Main

def orphan : DocumentKey := ⟨[ascii "a", ascii "b"], rfl⟩

def nested : DocumentKey := ⟨[ascii "a", ascii "b", ascii "c", ascii "d"], rfl⟩

/-- An orphaned document, and a document in one of its subcollections that is in a target and has a
pending mutation. -/
def nestedContent : Content where
  rows := [(.documentMutation ⟨ascii "u", nested, 1⟩, []),
    (.documentTarget ⟨orphan, kInvalidTargetId⟩, encodeSentinelValue 1),
    (.documentTarget ⟨nested, kInvalidTargetId⟩, encodeSentinelValue 2),
    (.documentTarget ⟨nested, 2⟩, []),
    (.remoteDocument ⟨orphan⟩, []),
    (.remoteDocument ⟨nested⟩, [])]
  sorted := by decide

theorem nestedContent_sentinel : nestedContent.HasSentinel nested 2 :=
  ⟨encodeSentinelValue 2, by simp [nestedContent], by decide⟩

theorem nestedContent_wellFormed : nestedContent.WellFormed where
  readable := by
    intro k v hmem
    simp only [nestedContent, mem_cons, Prod.mk.injEq, LevelDbKey.documentTarget.injEq,
      reduceCtorEq, false_and, not_mem_nil, false_or, or_false] at hmem
    obtain ⟨rfl, rfl⟩ | ⟨rfl, rfl⟩ | ⟨rfl, rfl⟩ := hmem
    · exact ⟨by decide, fun _ => ⟨1, rfl⟩⟩
    · exact ⟨by decide, fun _ => ⟨2, rfl⟩⟩
    · exact ⟨by decide, fun h => absurd h (by decide)⟩
  targetIds := by
    intro k v hmem
    simp only [nestedContent, mem_cons, Prod.mk.injEq, LevelDbKey.documentTarget.injEq,
      reduceCtorEq, false_and, not_mem_nil, false_or, or_false] at hmem
    obtain ⟨rfl, -⟩ | ⟨rfl, -⟩ | ⟨rfl, -⟩ := hmem <;> decide
  sequenceNumbers := by
    rintro key s ⟨v, hmem, rfl⟩
    obtain ⟨-, rfl⟩ | ⟨-, rfl⟩ : (key = orphan ∧ v = encodeSentinelValue 1) ∨
        (key = nested ∧ v = encodeSentinelValue 2) := by
      simpa [nestedContent, kInvalidTargetId] using hmem
    all_goals decide
  targetSentinels := by
    rintro key ⟨t, v, hne, hmem⟩
    obtain ⟨⟨rfl, -⟩, -⟩ : (key = nested ∧ t = 2) ∧ v = [] := by
      simpa [nestedContent, hne] using hmem
    exact ⟨2, nestedContent_sentinel⟩
  mutationSentinels := by
    rintro user key ⟨batchId, v, hmem⟩
    obtain ⟨⟨-, rfl, -⟩, -⟩ : (user = ascii "u" ∧ key = nested ∧ batchId = 1) ∧ v = [] := by
      simpa [nestedContent] using hmem
    exact ⟨2, nestedContent_sentinel⟩

theorem mutates_nestedContent {user : Bytes} {key : DocumentKey} :
    nestedContent.Mutates user key ↔ user = ascii "u" ∧ key = nested := by
  simp [Content.Mutates, nestedContent]

/-- The pending mutation is below the orphaned document. -/
theorem removeOrphanedDocuments_exact_nested :
    ∃ txn' count, removeOrphanedDocuments [ascii "u"] .empty 5 7 (.new nestedContent.db) =
        .ok (txn', count) ∧
      (∀ key, nestedContent.Deleted txn' key → nestedContent.Collectable .empty 5 key) ∧
      ((∀ key, nestedContent.Deleted txn' key ↔ nestedContent.Collectable .empty 5 key) ↔
        ∀ key, nestedContent.Collectable .empty 5 key →
          ∀ user key', nestedContent.Mutates user key' → ¬ key.path <+: key'.path) :=
  removeOrphanedDocuments_exact_iff nestedContent_wellFormed (overlay_new _)
    (fun user key h => mem_singleton.mpr (mutates_nestedContent.mp h).1)
    (fun key id h => absurd h (ReferenceSet.not_mem_empty key id)) 5 (by decide)

theorem nestedContent_not_mutates : ¬ ∃ user, nestedContent.Mutates user orphan :=
  fun ⟨_, h⟩ => absurd (mutates_nestedContent.mp h).2 (by decide)

/-- A pending mutation of `a/b/c/d` pins `a/b`: the document is to be collected and stays. -/
theorem removeOrphanedDocuments_nestedContent : nestedContent.Collectable .empty 5 orphan ∧
      (removeOrphanedDocuments [ascii "u"] .empty 5 5 (.new nestedContent.db)).map
          (fun r => (r.1.overlay.get? (LevelDbRemoteDocumentKey.key orphan), r.2)) =
        .ok (some [], 0) := by
  have hsentinel : nestedContent.HasSentinel orphan 1 :=
    ⟨encodeSentinelValue 1, by simp [nestedContent], by decide⟩
  refine ⟨⟨⟨[], by simp [nestedContent]⟩, ⟨1, hsentinel, by decide⟩, ?_, ?_,
    nestedContent_not_mutates⟩, by decide +kernel⟩
  · rintro ⟨t, v, hne, hmem⟩
    obtain ⟨⟨heq, -⟩, -⟩ : (orphan = nested ∧ t = 2) ∧ v = [] := by
      simpa [nestedContent, hne] using hmem
    exact absurd heq (by decide)
  · rintro ⟨id, h⟩
    exact ReferenceSet.not_mem_empty _ _ h

/-! ## The delegate in memory -/

/-- `MemoryLruReferenceDelegate::MutationQueuesContainKey`, over the queues of the users. -/
def MemoryLruReferenceDelegate.mutationQueuesContainKey (queues : List MemoryMutationQueue)
    (key : DocumentKey) : Bool :=
  queues.any (·.containsKey key)

/-- The delegate in memory knows exactly the documents that are mutated.  The delegate over LevelDB
answers as it does exactly if the document is mutated as soon as a document below it is. -/
theorem mutationQueuesContainKey_exact_iff {c : Content} {pending : Bytes → List MutationBatch}
    {queues : Bytes → MemoryMutationQueue} (htxn : txn.overlay = c.db)
    (hrows : ∀ user key, c.Mutates user key ↔ ∃ batch ∈ pending user, batch.touches key)
    (husers : ∀ user, pending user ≠ [] → user ∈ users)
    (hqueues : ∀ user ∈ users, (queues user).Holds (pending user)) (key : DocumentKey) :
    (MemoryLruReferenceDelegate.mutationQueuesContainKey (users.map queues) key = true ↔
      ∃ user, ∃ batch ∈ pending user, batch.touches key) ∧
    ((mutationQueuesContainKey txn users key = true ↔
        ∃ user, ∃ batch ∈ pending user, batch.touches key) ↔
      ∀ user, ∀ batch ∈ pending user, ∀ key', batch.touches key' → key.path <+: key'.path →
        ∃ user, ∃ batch ∈ pending user, batch.touches key) := by
  have hknown : ∀ {user key}, c.Mutates user key → user ∈ users := fun hmutates => by
    obtain ⟨batch, hmem, -⟩ := (hrows _ _).mp hmutates
    exact husers _ (ne_nil_of_mem hmem)
  simp only [← hrows]
  constructor
  · rw [MemoryLruReferenceDelegate.mutationQueuesContainKey, any_map, any_eq_true]
    refine exists_congr fun user => ?_
    constructor
    · rintro ⟨huser, hfound⟩
      exact (hrows _ _).mpr ((hqueues user huser).containsKey_iff.mp hfound)
    · intro hmutates
      exact ⟨hknown hmutates, (hqueues user (hknown hmutates)).containsKey_iff.mpr
        ((hrows _ _).mp hmutates)⟩
  · rw [mutationQueuesContainKey_iff htxn fun _ _ => hknown]
    constructor
    · intro hexact user batch hmem key' htouches hpath
      exact hexact.mp ⟨user, key', (hrows _ _).mpr ⟨batch, hmem, htouches⟩, hpath⟩
    · intro hbelow
      constructor
      · rintro ⟨user, key', hmutates, hpath⟩
        obtain ⟨batch, hmem, htouches⟩ := (hrows _ _).mp hmutates
        exact hbelow user batch hmem key' htouches hpath
      · rintro ⟨user, hmutates⟩
        exact ⟨user, key, hmutates, prefix_rfl⟩

def nestedWrite : MutationBatch :=
  ⟨1, SnapshotVersion.none.timestamp, [], [.delete nested .none], by simp⟩

def nestedWrites (userId : Bytes) : List MutationBatch :=
  if userId = ascii "u" then [nestedWrite] else []

theorem touches_nestedWrites {user : Bytes} {key : DocumentKey} :
    (∃ batch ∈ nestedWrites user, batch.touches key) ↔ user = ascii "u" ∧ key = nested := by
  have htouches : nestedWrite.touches key ↔ key = nested := by
    simp [touches_iff, nestedWrite, Mutation.key, @eq_comm _ nested]
  unfold nestedWrites
  split_ifs with huser <;> simp [huser, htouches]

/-- The queue of the user has the write of `a/b/c/d`. -/
theorem mutationQueuesContainKey_exact_nested : ∃ q,
    MemoryMutationQueue.start.addMutationBatch SnapshotVersion.none.timestamp []
      [.delete nested .none] = .ok (nestedWrite, q) ∧
    (MemoryLruReferenceDelegate.mutationQueuesContainKey ([ascii "u"].map fun _ => q) orphan =
        true ↔ ∃ user, ∃ batch ∈ nestedWrites user, batch.touches orphan) ∧
    ((mutationQueuesContainKey (.new nestedContent.db) [ascii "u"] orphan = true ↔
        ∃ user, ∃ batch ∈ nestedWrites user, batch.touches orphan) ↔
      ∀ user, ∀ batch ∈ nestedWrites user, ∀ key', batch.touches key' →
        orphan.path <+: key'.path →
          ∃ user, ∃ batch ∈ nestedWrites user, batch.touches orphan) := by
  have hparents : collectionParents nestedWrite.mutations =
      .ok [[ascii "a", ascii "b", ascii "c"]] := rfl
  obtain ⟨q, hadd, -, -, hholds⟩ := MemoryMutationQueue.holds_start.add
    (show nestedWrite.batchId = 1 from rfl) (by decide) hparents
  refine ⟨q, hadd, mutationQueuesContainKey_exact_iff (overlay_new _)
    (fun _ _ => mutates_nestedContent.trans touches_nestedWrites.symm) (fun user hne => ?_)
    (fun user huser => ?_) orphan⟩
  · by_contra huser
    exact hne (if_neg fun heq => huser (mem_singleton.mpr heq))
  · rw [mem_singleton.mp huser]
    exact hholds

/-- A pending mutation of `a/b/c/d` is taken for one of `a/b`. -/
theorem mutationQueuesContainKey_nestedContent :
    mutationQueuesContainKey (.new nestedContent.db) [ascii "u"] orphan = true ∧
      ¬ ∃ user, nestedContent.Mutates user orphan :=
  ⟨by decide +kernel, nestedContent_not_mutates⟩

end Firebase.Firestore.Local
