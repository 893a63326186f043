import Firebase.Firestore.Core.Target

/-!
# The sequence numbers to collect

`LruGarbageCollector::SequenceNumberForQueryCount` (`lru_garbage_collector.cc`) finds the sequence
number up to which targets and orphaned documents are collected.
-/

namespace Firebase.Firestore.Local

open Firestore.Core Model List

/-- `RollingSequenceNumberBuffer`.  The greatest element of the priority queue comes last. -/
structure RollingSequenceNumberBuffer where
  maxElements : Nat
  queue : List Int := []

namespace RollingSequenceNumberBuffer

variable (buffer : RollingSequenceNumberBuffer) (sequenceNumber : Int)

def push (queue : List Int) : RollingSequenceNumberBuffer :=
  { buffer with queue := queue.orderedInsert (· ≤ ·) sequenceNumber }

/-- `RollingSequenceNumberBuffer::AddElement`.  A full queue is not empty. -/
def addElement : RollingSequenceNumberBuffer :=
  if buffer.queue.length < buffer.maxElements then buffer.push sequenceNumber buffer.queue
  else
    match buffer.queue.getLast? with
    | none => buffer
    | some highestValue =>
      if sequenceNumber < highestValue then buffer.push sequenceNumber buffer.queue.dropLast
      else buffer

def maxValue : Option Int := buffer.queue.getLast?

variable {x : Int}

/-- What is cut off makes no difference to what is kept. -/
theorem take_orderedInsert_take (l : List Int) (m : Nat) :
    ((l.take m).orderedInsert (· ≤ ·) x).take m = (l.orderedInsert (· ≤ ·) x).take m := by
  induction l generalizing m with
  | nil => rw [take_nil]
  | cons a l ih =>
    cases m with
    | zero => rfl
    | succ m =>
      rw [take_succ_cons, orderedInsert_cons, orderedInsert_cons]
      split_ifs
      · cases m <;> simp [take_take]
      · rw [take_succ_cons, take_succ_cons, ih]

/-- A number below the greatest takes its place. -/
theorem take_orderedInsert_of_lt {last : Int} (h : x < last) (l : List Int) :
    ((l ++ [last]).orderedInsert (· ≤ ·) x).take (l.length + 1) = l.orderedInsert (· ≤ ·) x := by
  induction l with
  | nil => simp [h.le]
  | cons a l ih =>
    rw [cons_append, orderedInsert_cons, orderedInsert_cons]
    split_ifs
    · simp
    · rw [length_cons, take_succ_cons, ih]

/-- A number that is not below any other comes last. -/
theorem take_orderedInsert_of_le {l : List Int} (hsorted : l.Pairwise (· ≤ ·))
    (h : ∀ a ∈ l, a ≤ x) : (l.orderedInsert (· ≤ ·) x).take l.length = l := by
  have hlast : l.orderedInsert (· ≤ ·) x = l ++ [x] := by
    refine List.Perm.eq_of_pairwise' (hsorted.orderedInsert x l) ?_ ?_
    · exact pairwise_append.mpr ⟨hsorted, pairwise_singleton _ _,
        fun a ha b hb => mem_singleton.mp hb ▸ h a ha⟩
    · exact (perm_orderedInsert _ x l).trans (perm_append_singleton x l).symm
  rw [hlast, take_left']
  rfl

/-- An element is added to a buffer that has kept the smallest of `sorted`. -/
theorem addElement_take {m : Nat} (hm : 0 < m) {sorted : List Int}
    (hsorted : sorted.Pairwise (· ≤ ·)) : addElement ⟨m, sorted.take m⟩ x =
      ⟨m, (sorted.orderedInsert (· ≤ ·) x).take m⟩ := by
  unfold addElement
  rw [← take_orderedInsert_take]
  have hkept := hsorted.sublist (take_sublist m sorted)
  have hlength := length_take_le m sorted
  generalize sorted.take m = queue at hkept hlength
  dsimp only
  split_ifs with hroom
  · rw [push, take_of_length_le ((orderedInsert_length _ _ _).trans_le hroom)]
  · obtain rfl := hlength.antisymm (not_lt.mp hroom)
    cases hlast : queue.getLast? with
    | none => exact absurd (getLast?_eq_none_iff.mp hlast) (length_pos_iff.mp hm)
    | some last =>
      obtain ⟨init, rfl⟩ := getLast?_eq_some_iff.mp hlast
      dsimp only
      split_ifs with hlt
      · rw [push, dropLast_concat, length_append, length_singleton,
          take_orderedInsert_of_lt hlt]
      · rw [take_orderedInsert_of_le hkept]
        intro a ha
        refine le_trans ?_ (not_lt.mp hlt)
        rcases mem_append.mp ha with ha | ha
        · exact (pairwise_append.mp hkept).2.2 a ha last (mem_singleton_self last)
        · exact (mem_singleton.mp ha).le

theorem insertionSort_congr {l m : List Int} (h : l.Perm m) :
    l.insertionSort (· ≤ ·) = m.insertionSort (· ≤ ·) :=
  (((l.perm_insertionSort _).trans h).trans (m.perm_insertionSort _).symm).eq_of_pairwise'
    (pairwise_insertionSort _ l) (pairwise_insertionSort _ m)

/-- The smallest of all numbers are kept. -/
theorem foldl_addElement {m : Nat} (hm : 0 < m) (numbers seen : List Int) :
    numbers.foldl addElement ⟨m, (seen.insertionSort (· ≤ ·)).take m⟩ =
      ⟨m, ((numbers ++ seen).insertionSort (· ≤ ·)).take m⟩ := by
  induction numbers generalizing seen with
  | nil => rfl
  | cons x numbers ih =>
    rw [foldl_cons, addElement_take hm (pairwise_insertionSort _ _),
      ← insertionSort_cons, ih, insertionSort_congr perm_middle]
    rfl

end RollingSequenceNumberBuffer

variable (targets : List TargetData) (orphans : List (DocumentKey × Int)) (queryCount : Int32)

/-- `LruGarbageCollector::SequenceNumberForQueryCount`, with the targets and the orphaned documents
that the delegate enumerates. -/
def sequenceNumberForQueryCount : Option Int :=
  if queryCount = 0 then some (-1)
  else
    let buffer : RollingSequenceNumberBuffer := ⟨(queryCount.toInt % 2 ^ 64).toNat, []⟩
    let buffer := (targets.map (·.sequenceNumber)).foldl .addElement buffer
    ((orphans.map (·.2)).foldl .addElement buffer).maxValue

def sequenceNumbers : List Int := targets.map (·.sequenceNumber) ++ orphans.map (·.2)

/-- The bound for `n` of the numbers that are enumerated is the `n`-th smallest, and at least `n` of
them are up to it. -/
theorem sequenceNumberForQueryCount_eq {n : Nat} (hn : queryCount.toInt = n) (hpos : 0 < n)
    (hle : n ≤ (sequenceNumbers targets orphans).length) :
    ∃ bound, sequenceNumberForQueryCount targets orphans queryCount = some bound ∧
      ((sequenceNumbers targets orphans).insertionSort (· ≤ ·))[n - 1]? = some bound ∧
      n ≤ (sequenceNumbers targets orphans).countP (· ≤ bound) := by
  have hzero : queryCount ≠ 0 := by
    rintro rfl
    exact hpos.ne (Int.ofNat.inj hn)
  have hmod : (queryCount.toInt % 2 ^ 64).toNat = n := by
    have hlt := queryCount.toInt_lt
    omega
  have hkept := RollingSequenceNumberBuffer.foldl_addElement hpos
    (sequenceNumbers targets orphans) []
  rw [append_nil, sequenceNumbers, foldl_append, ← sequenceNumbers,
    insertionSort_nil, take_nil] at hkept
  have hsorted := pairwise_insertionSort (· ≤ ·) (sequenceNumbers targets orphans)
  have hcount (bound : Int) := ((sequenceNumbers targets orphans).perm_insertionSort
    (· ≤ ·)).countP_eq (· ≤ bound)
  rw [← length_insertionSort (· ≤ ·)] at hle
  generalize (sequenceNumbers targets orphans).insertionSort (· ≤ ·) = sorted at *
  have hlast : n - 1 < sorted.length := (Nat.sub_lt hpos one_pos).trans_le hle
  have htake : sorted.take n = sorted.take (n - 1) ++ [sorted[n - 1]] := by
    rw [take_append_getElem, Nat.sub_add_cancel hpos]
  refine ⟨sorted[n - 1], ?_, getElem?_eq_getElem hlast, ?_⟩
  · rw [sequenceNumberForQueryCount, if_neg hzero, hmod]
    refine (congrArg RollingSequenceNumberBuffer.maxValue hkept).trans ?_
    rw [RollingSequenceNumberBuffer.maxValue, htake, getLast?_concat]
  · rw [← hcount]
    refine (length_take_of_le hle).ge.trans (le_trans ?_
      (List.Sublist.countP_le (take_sublist n sorted)))
    refine (countP_eq_length.mpr fun a ha => decide_eq_true ?_).ge
    have hkept := hsorted.sublist (take_sublist n sorted)
    rw [htake] at hkept ha
    rcases mem_append.mp ha with ha | ha
    · exact (pairwise_append.mp hkept).2.2 a ha _ (mem_singleton_self _)
    · exact (mem_singleton.mp ha).le

/-- Two of three numbers. -/
theorem sequenceNumberForQueryCount_two : ∃ bound,
    sequenceNumberForQueryCount [] [(.empty, 7), (.empty, 3), (.empty, 5)] 2 = some bound ∧
      2 ≤ [7, 3, 5].countP (· ≤ bound) := by
  obtain ⟨bound, hbound, -, hcount⟩ := sequenceNumberForQueryCount_eq []
    [(.empty, 7), (.empty, 3), (.empty, 5)] 2 rfl two_pos (by decide)
  exact ⟨bound, hbound, hcount⟩

end Firebase.Firestore.Local
