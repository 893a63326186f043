import Firebase.Firestore.Local.ReferenceSet
import Firebase.Firestore.Local.UserQueues

/-!
# Sentinel rows

`LevelDbTargetCache::EnumerateOrphanedDocuments` (`leveldb_target_cache.cc`) goes through all rows
of `document_target` and reports the sentinel rows that no row of a target follows, and
`LevelDbLruReferenceDelegate` (`leveldb_lru_reference_delegate.cc`) removes what is reported to it.

Here both work on the rows by the components of their keys.
-/

namespace Firebase.Firestore.Local

open Lib Util Model Firestore.Core OrdMap List
open Prod.Lex (lt_iff)

/-! ## The enumeration -/

namespace LevelDbTables

/-- What is reported for the last sentinel row once no row of a target was found behind it. -/
def pendingReport (nextToReport : Int) (keyToReport : DocumentKey) : List (DocumentKey × Int) :=
  if nextToReport ≠ 0 then [(keyToReport, nextToReport)] else []

/-- `LevelDbDocumentTargetKey::DecodeSentinelValue`, on a value that is a number or empty. -/
def decodeSentinelValue : Option Int → Hard Int
  | some sequenceNumber => .ok sequenceNumber
  | none => .error ⟨"Failed to read sequence number from a sentinel row"⟩

/-- The loop of `EnumerateOrphanedDocuments`, with the calls of the callback as a list. -/
def enumerateRows (nextToReport : Int) (keyToReport : DocumentKey) :
    List ((DocumentKey ×ₗ Core.TargetId) × Option Int) → Hard (List (DocumentKey × Int))
  | [] => .ok (pendingReport nextToReport keyToReport)
  | (k, value) :: rows => do
    hardAssert ((ofLex k).1 ≠ DocumentKey.empty) "Failed to decode DocumentTarget key"
    if (ofLex k).2 = 0 then
      let reports ← enumerateRows (← decodeSentinelValue value) (ofLex k).1 rows
      return pendingReport nextToReport keyToReport ++ reports
    else enumerateRows 0 keyToReport rows

def enumerateOrphanedDocuments (t : LevelDbTables) : Hard (List (DocumentKey × Int)) :=
  enumerateRows 0 DocumentKey.empty t.documentTargets.entries

/-- The rows of `document_target` can be decoded, and the sentinel rows have a number. -/
def ReadableSentinels (t : LevelDbTables) : Prop :=
  ∀ k value, t.documentTargets.get? k = some value →
    (ofLex k).1 ≠ DocumentKey.empty ∧ ((ofLex k).2 = 0 → value.isSome)

/-- The row after the sentinel row of a document is that of a target, of this or, where that has no
sentinel row, of another document. -/
def Covered (t : LevelDbTables) (key : DocumentKey) : Prop :=
  ∃ k value, t.documentTargets.get? k = some value ∧ (ofLex k).2 ≠ 0 ∧ sentinel key < k ∧
    ∀ key', sentinel key < sentinel key' → sentinel key' < k →
      t.documentTargets.get? (sentinel key') = none

/-- There is no row left, or the next one is a sentinel row. -/
def StartsAnew (rows : List ((DocumentKey ×ₗ Core.TargetId) × Option Int)) : Prop :=
  ∀ row ∈ rows.head?, (ofLex row.1).2 = 0

theorem mem_pendingReport {nextToReport n : Int} {keyToReport key : DocumentKey} :
    (key, n) ∈ pendingReport nextToReport keyToReport ↔
      key = keyToReport ∧ n = nextToReport ∧ n ≠ 0 := by
  unfold pendingReport
  split_ifs with hzero
  · rw [mem_singleton, Prod.mk.injEq]
    constructor
    · rintro ⟨rfl, rfl⟩
      exact ⟨rfl, rfl, hzero⟩
    · exact fun h => ⟨h.1, h.2.1⟩
  · rw [not_not] at hzero
    simp only [not_mem_nil, false_iff]
    rintro ⟨-, rfl, hn⟩
    exact hn hzero

theorem sentinel_eq {k : DocumentKey ×ₗ Core.TargetId} (h : (ofLex k).2 = 0) :
    sentinel (ofLex k).1 = k := by
  rw [sentinel, ← h]
  rfl

/-- What the loop reports: the pending row if no target follows it, and then every sentinel row that
no target follows. -/
theorem enumerateRows_ok {rows : List ((DocumentKey ×ₗ Core.TargetId) × Option Int)}
    (hrows : ∀ row ∈ rows, (ofLex row.1).1 ≠ DocumentKey.empty ∧
      ((ofLex row.1).2 = 0 → row.2.isSome)) (nextToReport : Int) (keyToReport : DocumentKey) :
    ∃ reports, enumerateRows nextToReport keyToReport rows = .ok reports ∧ ∀ key n,
      (key, n) ∈ reports ↔ ((key, n) ∈ pendingReport nextToReport keyToReport ∧ StartsAnew rows) ∨
        ∃ before after, rows = before ++ (sentinel key, some n) :: after ∧ n ≠ 0 ∧
          StartsAnew after := by
  induction rows generalizing nextToReport keyToReport with
  | nil => exact ⟨_, rfl, fun key n => by simp [StartsAnew]⟩
  | cons row rows ih =>
    obtain ⟨k, value⟩ := row
    obtain ⟨hblank, hvalue⟩ := hrows _ mem_cons_self
    have hrest := ih fun row hmem => hrows row (mem_cons_of_mem _ hmem)
    rw [enumerateRows, decide_eq_true hblank, hardAssert_true, ok_bind]
    by_cases hsentinel : (ofLex k).2 = 0
    · obtain ⟨s, rfl⟩ := Option.isSome_iff_exists.mp (hvalue hsentinel)
      obtain ⟨reports, hreports, hmem⟩ := hrest s (ofLex k).1
      rw [if_pos hsentinel, decodeSentinelValue, ok_bind, hreports]
      refine ⟨_, rfl, fun key n => ?_⟩
      have hanew : StartsAnew ((k, some s) :: rows) := by
        rintro _ ⟨⟩
        exact hsentinel
      have hpending : (key, n) ∈ pendingReport s (ofLex k).1 ↔
          key = (ofLex k).1 ∧ n = s ∧ n ≠ 0 := mem_pendingReport
      rw [mem_append, hmem, hpending]
      refine or_congr (iff_self_and.mpr fun _ => hanew) ?_
      constructor
      · rintro (⟨⟨rfl, rfl, hn⟩, hafter⟩ | ⟨before, after, rfl, hn, hafter⟩)
        · exact ⟨[], rows, by rw [sentinel_eq hsentinel]; rfl, hn, hafter⟩
        · exact ⟨(k, some s) :: before, after, rfl, hn, hafter⟩
      · rintro ⟨_ | ⟨row, before⟩, after, heq, hn, hafter⟩
        · obtain ⟨hrow, rfl⟩ := List.cons.inj heq
          obtain ⟨rfl, hs⟩ := Prod.mk.inj hrow
          exact .inl ⟨⟨rfl, (Option.some.inj hs).symm, hn⟩, hafter⟩
        · exact .inr ⟨before, after, (List.cons.inj heq).2, hn, hafter⟩
    · obtain ⟨reports, hreports, hmem⟩ := hrest 0 keyToReport
      rw [if_neg hsentinel]
      refine ⟨reports, hreports, fun key n => ?_⟩
      rw [hmem]
      constructor
      · rintro (⟨hpending, -⟩ | ⟨before, after, rfl, hn, hafter⟩)
        · obtain ⟨-, rfl, hn⟩ := mem_pendingReport.mp hpending
          exact absurd rfl hn
        · exact .inr ⟨(k, value) :: before, after, rfl, hn, hafter⟩
      · rintro (⟨-, hanew⟩ | ⟨_ | ⟨row, before⟩, after, heq, hn, hafter⟩)
        · exact absurd (hanew _ rfl) hsentinel
        · obtain ⟨hrow, -⟩ := List.cons.inj heq
          rw [(Prod.mk.inj hrow).1] at hsentinel
          exact absurd rfl hsentinel
        · exact .inr ⟨before, after, (List.cons.inj heq).2, hn, hafter⟩

variable {t : LevelDbTables} {key : DocumentKey}

/-- The rows behind a sentinel row start anew exactly if it is not covered. -/
theorem startsAnew_iff {before after : List ((DocumentKey ×ₗ Core.TargetId) × Option Int)}
    {value : Option Int}
    (hsplit : t.documentTargets.entries = before ++ (sentinel key, value) :: after) :
    StartsAnew after ↔ ¬ t.Covered key := by
  have hsorted := t.documentTargets.sorted
  rw [hsplit, pairwise_append, pairwise_cons] at hsorted
  obtain ⟨-, ⟨hbehind, hafter⟩, hbefore⟩ := hsorted
  have hmem : ∀ k v, t.documentTargets.get? k = some v → sentinel key < k → (k, v) ∈ after := by
    intro k v hget hlt
    have hmem := mem_entries.mpr hget
    rw [hsplit, mem_append, mem_cons] at hmem
    rcases hmem with hmem | heq | hmem
    · exact absurd (hbefore _ hmem _ mem_cons_self) (not_lt.mpr hlt.le)
    · exact absurd (Prod.mk.inj heq).1 hlt.ne'
    · exact hmem
  have hget : ∀ row ∈ after, t.documentTargets.get? row.1 = some row.2 := by
    intro row hrow
    apply mem_entries.mp
    rw [hsplit]
    exact mem_append_right _ (mem_cons_of_mem _ hrow)
  constructor
  · rintro hanew ⟨k, v, hk, htarget, hlt, hnone⟩
    have hkmem := hmem k v hk hlt
    cases after with
    | nil => cases hkmem
    | cons row after =>
      have hsentinel := hanew row rfl
      have hfirst := hget row mem_cons_self
      rw [← sentinel_eq hsentinel] at hfirst
      rcases mem_cons.mp hkmem with rfl | hlater
      · exact htarget hsentinel
      · have hrow := hnone (ofLex row.1).1
        rw [sentinel_eq hsentinel] at hrow
        have := hrow (hbehind row mem_cons_self)
          ((pairwise_cons.mp hafter).1 _ hlater)
        rw [sentinel_eq hsentinel, this] at hfirst
        cases hfirst
  · intro hcovered row hrow
    cases after with
    | nil => cases hrow
    | cons first after =>
      obtain rfl := Option.some.inj hrow
      by_contra htarget
      refine hcovered ⟨first.1, first.2, hget first mem_cons_self, htarget,
        hbehind first mem_cons_self, fun key' hlt hlt' => ?_⟩
      by_contra hsome
      obtain ⟨v, hv⟩ := Option.ne_none_iff_exists'.mp hsome
      rcases mem_cons.mp (hmem _ v hv hlt) with rfl | hlater
      · exact hlt'.false
      · exact hlt'.asymm ((pairwise_cons.mp hafter).1 _ hlater)

/-- The documents that are reported: those with a sentinel row of a number other than 0 that is not
covered by the row of a target. -/
theorem mem_enumerateOrphanedDocuments (h : t.ReadableSentinels) :
    ∃ reports, t.enumerateOrphanedDocuments = .ok reports ∧ ∀ key n, (key, n) ∈ reports ↔
      t.documentTargets.get? (sentinel key) = some (some n) ∧ n ≠ 0 ∧ ¬ t.Covered key := by
  obtain ⟨reports, hreports, hmem⟩ := enumerateRows_ok
    (fun row hrow => h _ _ (mem_entries.mp hrow)) 0 DocumentKey.empty
  refine ⟨reports, hreports, fun key n => ?_⟩
  rw [hmem]
  constructor
  · rintro (⟨hpending, -⟩ | ⟨before, after, hsplit, hn, hanew⟩)
    · obtain ⟨-, rfl, hn⟩ := mem_pendingReport.mp hpending
      exact absurd rfl hn
    · refine ⟨mem_entries.mp ?_, hn, (startsAnew_iff hsplit).mp hanew⟩
      rw [hsplit]
      exact mem_append_right _ mem_cons_self
  · rintro ⟨hget, hn, hcovered⟩
    obtain ⟨before, after, hsplit, -, -⟩ := exists_split_of_get? hget
    exact .inr ⟨before, after, hsplit, hn, (startsAnew_iff hsplit).mpr hcovered⟩

def InTarget (t : LevelDbTables) (key : DocumentKey) : Prop :=
  ∃ id value, id ≠ 0 ∧ t.documentTargets.get? (toLex (key, id)) = some value

/-- Where target ids are positive and the documents of targets have sentinel rows, a sentinel row is
covered by the targets of its own document only. -/
theorem covered_iff_inTarget (hpositive : ∀ k value, t.documentTargets.get? k = some value →
      0 ≤ (ofLex k).2)
    (hsentinels : ∀ key, t.InTarget key → (t.documentTargets.get? (sentinel key)).isSome) :
    t.Covered key ↔ t.InTarget key := by
  constructor
  · rintro ⟨k, value, hget, htarget, hlt, hnone⟩
    have hin : t.InTarget (ofLex k).1 := ⟨(ofLex k).2, value, htarget, hget⟩
    have hpos : 0 < (ofLex k).2 := lt_of_le_of_ne (hpositive k value hget) (Ne.symm htarget)
    have hbefore : sentinel (ofLex k).1 < k := lt_iff.mpr (.inr ⟨rfl, hpos⟩)
    by_cases hkey : key = (ofLex k).1
    · rwa [hkey]
    · -- The sentinel row of the other document is in between.
      have hkeys : key < (ofLex k).1 :=
        (lt_iff.mp hlt).resolve_right fun h => hkey h.1
      have hrow := hnone (ofLex k).1 (lt_iff.mpr (.inl hkeys)) hbefore
      have := hsentinels _ hin
      rw [hrow] at this
      cases this
  · rintro ⟨id, value, hid, hget⟩
    have hpos : 0 < id := lt_of_le_of_ne (hpositive _ value hget) (Ne.symm hid)
    refine ⟨toLex (key, id), value, hget, hid, lt_iff.mpr (.inr ⟨rfl, hpos⟩),
      fun key' hlt hlt' => ?_⟩
    -- No other document is between the rows of one document.
    rcases lt_iff.mp hlt with hkeys | ⟨-, hzero⟩
    · rcases lt_iff.mp hlt' with hkeys' | ⟨heq, -⟩
      · exact absurd hkeys' hkeys.asymm
      · exact absurd heq hkeys.ne'
    · exact absurd hzero (lt_irrefl _)

end LevelDbTables

/-! ## Collection -/

namespace LevelDbPersistence

/-- `LevelDbLruReferenceDelegate::MutationQueuesContainKey`: it asks for a row under the path of the
document, which may be that of a document below it. -/
def mutationQueuesContainKey (p : LevelDbPersistence) (key : DocumentKey) : Bool :=
  p.users.sort.any fun user => !(p.tables.documentMutationRows user key.path fun key' =>
    key.path.isPrefixOf key'.path).isEmpty

def isPinned (p : LevelDbPersistence) (additionalReferences : ReferenceSet) (key : DocumentKey) :
    Bool :=
  additionalReferences.containsKey key || p.mutationQueuesContainKey key

/-- The callback of `RemoveOrphanedDocuments`, with the number of documents removed. -/
def removeOrphan (additionalReferences : ReferenceSet) (upperBound : Int)
    (state : LevelDbPersistence × Nat) (report : DocumentKey × Int) : LevelDbPersistence × Nat :=
  if report.2 ≤ upperBound then
    if !state.1.isPinned additionalReferences report.1 then
      -- `LevelDbRemoteDocumentCache::Remove`, then `RemoveSentinel`.
      ({ state.1 with tables := { state.1.tables with
          remoteDocuments := state.1.tables.remoteDocuments.erase report.1
          documentTargets := state.1.tables.documentTargets.erase (sentinel report.1) } },
        state.2 + 1)
    else state
  else state

/-- `LevelDbLruReferenceDelegate::RemoveOrphanedDocuments`.  The callback deletes no row that the
enumeration has yet to come to, so that it sees the rows as they are at the start. -/
def removeOrphanedDocuments (p : LevelDbPersistence) (additionalReferences : ReferenceSet)
    (upperBound : Int) : Hard (LevelDbPersistence × Nat) := do
  let reports ← p.tables.enumerateOrphanedDocuments
  return reports.foldl (removeOrphan additionalReferences upperBound) (p, 0)

end LevelDbPersistence

end Firebase.Firestore.Local
