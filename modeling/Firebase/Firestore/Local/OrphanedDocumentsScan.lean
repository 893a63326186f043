import Firebase.Firestore.Local.LruReferenceDelegate
import Firebase.Firestore.Local.SentinelRows

/-!
# The scan for orphaned documents

`EnumerateOrphanedDocuments` walks once over `document_target` and looks one row behind.  The
callback may delete rows of the table while it is walked over.

The walk makes the same callbacks as the pure function `reportedOrphans` on the list of rows, for
every callback that leaves the rows ahead alone.  That function is in turn the enumeration of
`SentinelRows`, which has the rows by the components of their keys.
-/

namespace Firebase.Firestore.Local

open Lib Util Model LevelDbTransaction List
open LevelDbDocumentTargetKey (decodeSentinelValue encodeSentinelValue keyPrefix sentinelKey)

/-! ## The scan as a function on rows -/

def sentinelValue (value : Bytes) : ListenSequenceNumber :=
  match decodeSentinelValue value with
  | .ok sequenceNumber => sequenceNumber
  | .error _ => 0

theorem decodeSentinelValue_encode (sequenceNumber : ListenSequenceNumber) : decodeSentinelValue
      (encodeSentinelValue sequenceNumber) = .ok sequenceNumber := by
  have h := OrderedCode.readSignedNumIncreasing_write sequenceNumber []
  rw [append_nil] at h
  rw [decodeSentinelValue, encodeSentinelValue, h]
  rfl

def PendingReport.reports (pending : PendingReport) : List (DocumentKey × ListenSequenceNumber) :=
  if pending.nextToReport ≠ 0 then [(pending.keyToReport, pending.nextToReport)] else []

theorem PendingReport.report_eq {α : Type} (pending : PendingReport)
    (callback : OrphanedDocumentCallback α) (state : LevelDbTransaction × α) :
    pending.report callback state =
      pending.reports.foldl (fun state r => callback state r.1 r.2) state := by
  rw [report, reports]
  split_ifs <;> rfl

def reportedOrphans : PendingReport → List (LevelDbDocumentTargetKey × Bytes) →
    List (DocumentKey × ListenSequenceNumber)
  | pending, [] => pending.reports
  | pending, (key, value) :: rows =>
    if key.targetId = kInvalidTargetId then
      pending.reports ++ reportedOrphans ⟨sentinelValue value, key.documentKey⟩ rows
    else reportedOrphans { pending with nextToReport := 0 } rows

section Enumerate

variable {α : Type}

/-- What a callback has to leave alone while the table is scanned: all rows of the table but
the sentinel row of the document that is reported to it. -/
structure SafeCallback (callback : OrphanedDocumentCallback α) : Prop where
  get?_eq : ∀ state key sequenceNumber k, keyPrefix <+: k →
    k ≠ sentinelKey key →
    (callback state key sequenceNumber).1.overlay.get? k = state.1.overlay.get? k
  version : ∀ state key sequenceNumber, (callback state key sequenceNumber).1 = state.1 ∨
    state.1.version < (callback state key sequenceNumber).1.version

/-- The rows of `document_target` above a bound are the given ones, in order. -/
structure RowsAhead (txn : LevelDbTransaction) (above : Bytes → Prop)
    (rows : List (LevelDbDocumentTargetKey × Bytes)) : Prop where
  sorted : rows.Pairwise fun a b => a.1.encode < b.1.encode
  isAbove : ∀ row ∈ rows, above row.1.encode
  get?_iff : ∀ k v, above k → keyPrefix <+: k →
    (txn.overlay.get? k = some v ↔ ∃ row ∈ rows, row.1.encode = k ∧ row.2 = v)

theorem keyPrefix_isPrefixOf_encode (key : LevelDbDocumentTargetKey) : keyPrefix <+: key.encode :=
  KeyPrefix.encode_prefix_iff (p := .documentTarget) (k := .documentTarget key) |>.mpr trivial

variable {txn : LevelDbTransaction} {above : Bytes → Prop} [DecidablePred above]
  {rows : List (LevelDbDocumentTargetKey × Bytes)}

/-- The first row above the bound, if one of the table is left. -/
theorem RowsAhead.first_cons {row : LevelDbDocumentTargetKey × Bytes}
    (h : RowsAhead txn above (row :: rows)) (hstart : ∀ k, above k → keyPrefix ≤ k) :
    txn.overlay.first above = some (row.1.encode, row.2) := by
  have habove := h.isAbove row (by simp)
  refine OrdMap.first_eq_some_iff.mpr ⟨?_, habove, fun k hlt hk => ?_⟩
  · exact (h.get?_iff _ _ habove (keyPrefix_isPrefixOf_encode row.1)).mpr ⟨row, by simp, rfl, rfl⟩
  · by_contra hget
    obtain ⟨v, hv⟩ := Option.ne_none_iff_exists'.mp hget
    -- A key between the prefix and a key of the table is a key of the table.
    have hpre := isPrefixOf_of_le_of_le (keyPrefix_isPrefixOf_encode row.1) (hstart k hk) hlt.le
    obtain ⟨row', hmem, rfl, -⟩ := (h.get?_iff k v hk hpre).mp hv
    rcases mem_cons.mp hmem with rfl | hmem
    · exact lt_irrefl _ hlt
    · exact lt_asymm hlt ((pairwise_cons.mp h.sorted).1 row' hmem)

/-- Nothing of the table is above the bound. -/
theorem RowsAhead.first_nil (h : RowsAhead txn above []) {row : Row}
    (hfirst : txn.overlay.first above = some row) : ¬ keyPrefix <+: row.1 := by
  intro hpre
  obtain ⟨hget, habove, -⟩ := OrdMap.first_eq_some_iff.mp hfirst
  obtain ⟨row', hmem, -⟩ := (h.get?_iff _ _ habove hpre).mp hget
  exact absurd hmem (by simp)

omit [DecidablePred above] in
/-- The rows ahead after one row has been passed and a callback was made. -/
theorem RowsAhead.tail {txn' : LevelDbTransaction} {row : LevelDbDocumentTargetKey × Bytes}
    (h : RowsAhead txn above (row :: rows)) (hup : ∀ a b, a ≤ b → above a → above b)
    (hget : ∀ k, row.1.encode < k → keyPrefix <+: k →
      txn'.overlay.get? k = txn.overlay.get? k) : RowsAhead txn' (row.1.encode < ·) rows := by
  obtain ⟨hhead, htail⟩ := pairwise_cons.mp h.sorted
  refine ⟨htail, hhead, fun k v hlt hpre => ?_⟩
  rw [hget k hlt hpre, h.get?_iff k v (hup _ _ hlt.le (h.isAbove row (by simp))) hpre]
  constructor
  · rintro ⟨row', hmem, rfl, rfl⟩
    rcases mem_cons.mp hmem with rfl | hmem
    · exact absurd hlt (lt_irrefl _)
    · exact ⟨row', hmem, rfl, rfl⟩
  · rintro ⟨row', hmem, hrow⟩
    exact ⟨row', mem_cons_of_mem _ hmem, hrow⟩

variable {callback : OrphanedDocumentCallback α}

theorem SafeCallback.tracks (h : SafeCallback callback)
    {state : LevelDbTransaction × α} {it : Iterator} {shown : Option Row}
    (ht : Iterator.Tracks state.1 it shown) (pending : PendingReport) :
    Iterator.Tracks (pending.report callback state).1 it shown := by
  rw [PendingReport.report]
  split_ifs
  · rcases h.version state pending.keyToReport pending.nextToReport with heq | hlt
    · rwa [heq]
    · exact ht.of_version_lt hlt
  · exact ht

/-- The rows of the table that a scan can read: they decode, and the values of sentinel rows
are sequence numbers. -/
def Readable (row : LevelDbDocumentTargetKey × Bytes) : Prop :=
  row.1.documentKey ≠ DocumentKey.empty ∧
    (row.1.targetId = kInvalidTargetId →
      ∃ sequenceNumber, row.2 = encodeSentinelValue sequenceNumber)

/-- Over readable rows the loop ends, and with the report after it the callback has been made for
exactly the reported documents, in order. -/
theorem enumerateRows_eq (hcallback : SafeCallback callback)
    {bound : Nat} {it : Iterator} (state : LevelDbTransaction × α) (pending : PendingReport)
    (hup : ∀ a b, a ≤ b → above a → above b) (hstart : ∀ k, above k → keyPrefix ≤ k)
    (hit : Iterator.Tracks state.1 it (state.1.overlay.first above))
    (hrows : RowsAhead state.1 above rows) (hreadable : ∀ row ∈ rows, Readable row)
    (hpending : pending.nextToReport ≠ 0 →
      ¬ above (sentinelKey pending.keyToReport))
    (hbound : rows.length < bound) :
    ∃ state' pending', enumerateRows callback bound it state pending = .ok (state', pending') ∧
      pending'.report callback state' =
        (reportedOrphans pending rows).foldl (fun state r => callback state r.1 r.2) state := by
  induction rows generalizing bound it state pending above with
  | nil =>
    obtain ⟨bound, rfl⟩ : ∃ n, bound = n + 1 := ⟨bound - 1, by simp at hbound; omega⟩
    refine ⟨state, pending, ?_, by rw [reportedOrphans, PendingReport.report_eq]⟩
    rw [enumerateRows, if_neg ?_]
    rw [Bool.and_eq_true, not_and, isPrefixOf_iff_prefix]
    intro hvalid
    cases hfirst : state.1.overlay.first above with
    | none =>
      rw [hfirst] at hit
      exact absurd hvalid (by simpa using hit.2)
    | some row =>
      rw [hfirst] at hit
      rw [hit.2.2.1]
      exact hrows.first_nil hfirst
  | cons row rows ih =>
    obtain ⟨bound, rfl⟩ : ∃ n, bound = n + 1 := ⟨bound - 1, by simp at hbound; omega⟩
    obtain ⟨hkey, hvalue⟩ := hreadable row (by simp)
    have hreadable' : ∀ row ∈ rows, Readable row :=
      fun row' hmem => hreadable row' (mem_cons_of_mem _ hmem)
    rw [hrows.first_cons hstart] at hit
    have hvalid := hit.2.1
    have hcurrent := hit.2.2.1
    have hpre : keyPrefix.isPrefixOf it.current.1 := by
      rw [hcurrent, isPrefixOf_iff_prefix]
      exact keyPrefix_isPrefixOf_encode row.1
    have hkeyOk : it.key = .ok row.1.encode := by rw [Iterator.key, if_pos hvalid, hcurrent]
    have hvalueOk : it.value = .ok row.2 := by rw [Iterator.value, if_pos hvalid, hcurrent]
    have hdecode : LevelDbDocumentTargetKey.decode row.1.encode = .ok (true, row.1) :=
      LevelDbDocumentTargetKey.decode_key hkey row.1.targetId
    have hcut : ∀ a b : Bytes, a ≤ b → row.1.encode < a → row.1.encode < b :=
      fun a b hab ha => lt_of_lt_of_le ha hab
    have hcutPrefix : ∀ k, row.1.encode < k → keyPrefix ≤ k :=
      fun k hk => hstart k (hup _ _ hk.le (hrows.isAbove row (by simp)))
    rw [enumerateRows, if_pos (by rw [hvalid, hpre]; rfl), reportedOrphans]
    by_cases hsentinel : row.1.targetId = kInvalidTargetId
    · obtain ⟨sequenceNumber, hsequence⟩ := hvalue hsentinel
      have hdecodeValue : decodeSentinelValue row.2 =
          .ok sequenceNumber := by
        rw [hsequence, decodeSentinelValue_encode]
      have hvalueEq : sentinelValue row.2 = sequenceNumber := by
        rw [sentinelValue, hdecodeValue]
      have hget : ∀ k, row.1.encode < k → keyPrefix <+: k →
          (pending.report callback state).1.overlay.get? k = state.1.overlay.get? k := by
        intro k hlt hpre
        rw [PendingReport.report]
        split_ifs with hreport
        · refine hcallback.get?_eq _ _ _ k hpre ?_
          rintro rfl
          exact hpending hreport (hup _ _ hlt.le (hrows.isAbove row (by simp)))
        · rfl
      obtain ⟨it', hnext, hit'⟩ := (hcallback.tracks hit pending).next rfl
      have hself : ¬ row.1.encode < sentinelKey row.1.documentKey := by
        rw [sentinelKey, ← hsentinel]
        exact lt_irrefl _
      obtain ⟨state', pending', hloop, hreport⟩ := @ih (row.1.encode < ·) _ bound it'
        (pending.report callback state) ⟨sequenceNumber, row.1.documentKey⟩ hcut hcutPrefix hit'
        (hrows.tail hup hget) hreadable' (fun _ => hself) (by simpa using hbound)
      refine ⟨state', pending', ?_, ?_⟩
      · simp only [hkeyOk, hdecode, hardAssert_true, if_pos hsentinel, hvalueOk, hdecodeValue,
          hnext, bind, Except.bind, hloop]
      · rw [hreport, if_pos hsentinel, hvalueEq, foldl_append, PendingReport.report_eq]
    · obtain ⟨it', hnext, hit'⟩ := hit.next rfl
      obtain ⟨state', pending', hloop, hreport⟩ := @ih (row.1.encode < ·) _ bound it' state
        { pending with nextToReport := 0 } hcut hcutPrefix hit'
        (hrows.tail hup fun _ _ _ => rfl) hreadable' (absurd rfl) (by simpa using hbound)
      refine ⟨state', pending', ?_, ?_⟩
      · simp only [hkeyOk, hdecode, hardAssert_true, if_neg hsentinel, hnext, bind, Except.bind,
          hloop]
      · rw [hreport, if_neg hsentinel]

end Enumerate

/-! ## The rows by their components -/

/-- A row by the components of its key, with the number that a sentinel row has as its value. -/
def componentRow (row : LevelDbDocumentTargetKey × Bytes) :
    (DocumentKey ×ₗ Core.TargetId) × Option Int :=
  (toLex (row.1.documentKey, row.1.targetId.toInt), some (sentinelValue row.2).toInt)

theorem toInt_targetId_eq_zero_iff {targetId : TargetId} :
    targetId.toInt = 0 ↔ targetId = kInvalidTargetId :=
  Int32.toInt_inj (y := kInvalidTargetId)

theorem PendingReport.pendingReport_eq (pending : PendingReport) :
    LevelDbTables.pendingReport pending.nextToReport.toInt pending.keyToReport =
      pending.reports.map fun r => (r.1, r.2.toInt) := by
  have hzero : pending.nextToReport.toInt = 0 ↔ pending.nextToReport = 0 := Int64.toInt_inj (y := 0)
  unfold LevelDbTables.pendingReport reports
  simp only [ne_eq, hzero]
  split_ifs <;> rfl

/-- The enumeration over the components makes the same reports. -/
theorem enumerateRows_componentRow (pending : PendingReport)
    {rows : List (LevelDbDocumentTargetKey × Bytes)}
    (hkeys : ∀ row ∈ rows, row.1.documentKey ≠ DocumentKey.empty) :
    LevelDbTables.enumerateRows pending.nextToReport.toInt pending.keyToReport
        (rows.map componentRow) =
      .ok ((reportedOrphans pending rows).map fun r => (r.1, r.2.toInt)) := by
  induction rows generalizing pending with
  | nil => exact congrArg Except.ok pending.pendingReport_eq
  | cons row rows ih =>
    obtain ⟨hkey, hkeys⟩ := forall_mem_cons.mp hkeys
    replace hkey : (ofLex (componentRow row).1).1 ≠ DocumentKey.empty := hkey
    rw [map_cons, LevelDbTables.enumerateRows, decide_eq_true hkey, hardAssert_true, ok_bind,
      reportedOrphans]
    simp only [componentRow, ofLex_toLex, toInt_targetId_eq_zero_iff]
    split_ifs
    · have hrest := ih ⟨sentinelValue row.2, row.1.documentKey⟩ hkeys
      rw [LevelDbTables.decodeSentinelValue, ok_bind, hrest, map_append,
        pending.pendingReport_eq]
      rfl
    · exact ih { pending with nextToReport := 0 } hkeys

end Firebase.Firestore.Local
