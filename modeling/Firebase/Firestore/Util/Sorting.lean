import Firebase.Lib.SortedList
import Firebase.Firestore.Util.HardAssert

/-!
# Sorting with a comparison that may abort

The comparator of a query aborts when a document does not have a field that the query is
ordered by.  These are the operations of `immutable::SortedSet` and `std::sort` with such a
comparator, on lists.  As long as no comparison aborts they are the operations of
`Firebase.Lib` on ascending lists.
-/

namespace Firebase.Firestore.Util

open Lib List

variable {α : Type}

/-! ## Sorted sets -/

def insertSortedM (compare : α → α → Hard Ordering) (x : α) : List α → Hard (List α)
  | [] => .ok [x]
  | y :: l => do
    match ← compare x y with
    | .lt => return x :: y :: l
    | .eq => return x :: l
    | .gt => return y :: (← insertSortedM compare x l)

def eraseSortedM (compare : α → α → Hard Ordering) (x : α) : List α → Hard (List α)
  | [] => .ok []
  | y :: l => do
    match ← compare x y with
    | .lt => return y :: l
    | .eq => return l
    | .gt => return y :: (← eraseSortedM compare x l)

section

variable {compare : α → α → Hard Ordering} {cmp : α → α → Ordering} {x : α} {l : List α}

theorem insertSortedM_eq (h : ∀ y ∈ l, compare x y = .ok (cmp x y)) :
    insertSortedM compare x l = .ok (insertSorted cmp x l) := by
  induction l with
  | nil => rfl
  | cons y l ih =>
    obtain ⟨hy, hl⟩ := forall_mem_cons.mp h
    rw [insertSortedM, insertSorted, hy]
    cases cmp x y with
    | lt | eq => rfl
    | gt =>
      rw [ih hl]
      rfl

theorem eraseSortedM_eq (h : ∀ y ∈ l, compare x y = .ok (cmp x y)) :
    eraseSortedM compare x l = .ok (eraseSorted cmp x l) := by
  induction l with
  | nil => rfl
  | cons y l ih =>
    obtain ⟨hy, hl⟩ := forall_mem_cons.mp h
    rw [eraseSortedM, eraseSorted, hy]
    cases cmp x y with
    | lt | eq => rfl
    | gt =>
      rw [ih hl]
      rfl

end

/-! ## Sorting -/

def insertBeforeM (lessThan : α → α → Hard Bool) (x : α) : List α → Hard (List α)
  | [] => .ok [x]
  | y :: l => do
    if ← lessThan x y then return x :: y :: l else return y :: (← insertBeforeM lessThan x l)

def sortM (lessThan : α → α → Hard Bool) : List α → Hard (List α)
  | [] => .ok []
  | x :: l => do insertBeforeM lessThan x (← sortM lessThan l)

section

variable {lessThan : α → α → Hard Bool} {cmp : α → α → Ordering} [Std.TransCmp cmp]

theorem insertBeforeM_ok {x : α} {l : List α} (hl : Ascending cmp l)
    (h : ∀ y ∈ l, lessThan x y = .ok (cmp x y == .lt) ∧ cmp x y ≠ .eq) :
    ∃ l', insertBeforeM lessThan x l = .ok l' ∧ l'.Perm (x :: l) ∧ Ascending cmp l' := by
  induction l with
  | nil =>
    exact ⟨[x], rfl, .refl _, ascending_cons.mpr ⟨forall_mem_nil _, ascending_nil⟩⟩
  | cons y l ih =>
    obtain ⟨hy, hasc⟩ := ascending_cons.mp hl
    obtain ⟨⟨hless, hne⟩, hrest⟩ := forall_mem_cons.mp h
    rw [insertBeforeM, hless]
    cases hcmp : cmp x y with
    | lt =>
      refine ⟨x :: y :: l, rfl, .refl _, ascending_cons.mpr ⟨fun z hz => ?_, hl⟩⟩
      rcases mem_cons.mp hz with rfl | hz
      · exact hcmp
      · exact Std.TransCmp.lt_trans hcmp (hy z hz)
    | eq => exact absurd hcmp hne
    | gt =>
      obtain ⟨l', hok, hperm, hasc'⟩ := ih hasc hrest
      refine ⟨y :: l', ?_, (hperm.cons y).trans (.swap x y l), ascending_cons.mpr ⟨?_, hasc'⟩⟩
      · rw [hok]
        rfl
      · intro z hz
        rcases mem_cons.mp (hperm.mem_iff.mp hz) with rfl | hz
        · exact Std.OrientedCmp.lt_of_gt hcmp
        · exact hy z hz

/-- Elements that do not compare as equal are brought in ascending order. -/
theorem sortM_ok {l : List α} (hless : ∀ x ∈ l, ∀ y ∈ l, lessThan x y = .ok (cmp x y == .lt))
    (hne : l.Pairwise fun x y => cmp x y ≠ .eq) :
    ∃ l', sortM lessThan l = .ok l' ∧ l'.Perm l ∧ Ascending cmp l' := by
  induction l with
  | nil => exact ⟨[], rfl, .refl _, ascending_nil⟩
  | cons x l ih =>
    obtain ⟨hx, hne⟩ := pairwise_cons.mp hne
    obtain ⟨l₁, hok₁, hperm₁, hasc₁⟩ := ih (fun y hy z hz =>
      hless y (mem_cons_of_mem _ hy) z (mem_cons_of_mem _ hz)) hne
    obtain ⟨l₂, hok₂, hperm₂, hasc₂⟩ := insertBeforeM_ok hasc₁ (x := x) fun y hy => by
      have hmem := hperm₁.mem_iff.mp hy
      exact ⟨hless x mem_cons_self y (mem_cons_of_mem _ hmem), hx y hmem⟩
    refine ⟨l₂, ?_, hperm₂.trans (hperm₁.cons x), hasc₂⟩
    rw [sortM, hok₁, ok_bind, hok₂]

end

end Firebase.Firestore.Util
