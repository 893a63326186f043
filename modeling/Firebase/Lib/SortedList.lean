import Mathlib.Data.List.DropRight
import Mathlib.Data.List.Pairwise
import Mathlib.Data.List.Perm.Basic
import Mathlib.Data.List.Sort

/-!
# Lists in ascending order of a comparator

A list that is strictly ascending in a comparator is determined by its elements
(`Ascending.ext`).  `insertSorted` and `eraseSorted` are the operations of a sorted set
that is such a list: they treat elements as the same that compare as equal.
-/

universe u

namespace Firebase.Lib

open Std

variable {α : Type u} {cmp : α → α → Ordering} {l m : List α} {x y : α}

/-- Every element is smaller than the ones after it. -/
def Ascending (cmp : α → α → Ordering) (l : List α) : Prop := l.Pairwise fun a b => cmp a b = .lt

theorem ascending_nil : Ascending cmp [] := .nil

theorem ascending_cons : Ascending cmp (x :: l) ↔ (∀ a ∈ l, cmp x a = .lt) ∧ Ascending cmp l :=
  List.pairwise_cons

/-- The same list from its other end. -/
theorem ascending_reverse : Ascending (fun a b => cmp b a) l.reverse ↔ Ascending cmp l :=
  List.pairwise_reverse

section Ordered

variable [TransCmp cmp]

theorem Ascending.ne_of_lt (h : cmp x y = .lt) : x ≠ y := by
  rintro rfl
  cases ReflCmp.compare_self.symm.trans h

/-- An ascending list is determined by its elements. -/
theorem Ascending.ext (hl : Ascending cmp l) (hm : Ascending cmp m) (h : ∀ a, a ∈ l ↔ a ∈ m) :
    l = m := by
  have hirrefl : Std.Irrefl fun a b => cmp a b = .lt := ⟨fun a h => Ascending.ne_of_lt h rfl⟩
  have hasymm : Std.Antisymm fun a b => cmp a b = .lt :=
    ⟨fun a b hab hba => absurd (OrientedCmp.gt_of_lt hab) (by rw [hba]; exact nofun)⟩
  exact hl.eq_of_mem_iff hm h

/-! ## Windows -/

/-- Puts an element in its place, over an element that compares as equal. -/
def insertSorted (cmp : α → α → Ordering) (x : α) : List α → List α
  | [] => [x]
  | y :: l =>
    match cmp x y with
    | .lt => x :: y :: l
    | .eq => x :: l
    | .gt => y :: insertSorted cmp x l

/-- Takes out the element that compares as equal. -/
def eraseSorted (cmp : α → α → Ordering) (x : α) : List α → List α
  | [] => []
  | y :: l =>
    match cmp x y with
    | .lt => y :: l
    | .eq => l
    | .gt => y :: eraseSorted cmp x l

theorem mem_eraseSorted (h : Ascending cmp l) :
    y ∈ eraseSorted cmp x l ↔ y ∈ l ∧ cmp x y ≠ .eq := by
  induction l with
  | nil => simp [eraseSorted]
  | cons z l ih =>
    obtain ⟨hz, hl⟩ := ascending_cons.mp h
    rw [eraseSorted]
    cases hcmp : cmp x z with
    | lt =>
      refine ⟨fun hmem => ⟨hmem, fun heq => ?_⟩, And.left⟩
      rcases List.mem_cons.mp hmem with rfl | hmem
      · cases hcmp.symm.trans heq
      · cases (TransCmp.lt_trans hcmp (hz y hmem)).symm.trans heq
    | eq =>
      rw [List.mem_cons]
      constructor
      · intro hmem
        exact ⟨.inr hmem, fun heq =>
          nomatch (TransCmp.lt_of_eq_of_lt hcmp (hz y hmem)).symm.trans heq⟩
      · rintro ⟨rfl | hmem, hne⟩
        · exact absurd hcmp hne
        · exact hmem
    | gt =>
      rw [List.mem_cons, ih hl, List.mem_cons]
      constructor
      · rintro (rfl | ⟨hmem, hne⟩)
        · exact ⟨.inl rfl, fun heq => nomatch hcmp.symm.trans heq⟩
        · exact ⟨.inr hmem, hne⟩
      · rintro ⟨rfl | hmem, hne⟩
        · exact .inl rfl
        · exact .inr ⟨hmem, hne⟩

omit [TransCmp cmp] in
/-- Inserting is taking out what compares as equal and putting the element in. -/
theorem insertSorted_perm (x : α) (l : List α) :
    (insertSorted cmp x l).Perm (x :: eraseSorted cmp x l) := by
  induction l with
  | nil => exact .refl _
  | cons z l ih =>
    rw [insertSorted, eraseSorted]
    cases cmp x z with
    | lt => exact .refl _
    | eq => exact .refl _
    | gt => exact (ih.cons z).trans (.swap x z _)

theorem mem_insertSorted (h : Ascending cmp l) :
    y ∈ insertSorted cmp x l ↔ y = x ∨ y ∈ l ∧ cmp x y ≠ .eq := by
  rw [(insertSorted_perm x l).mem_iff, List.mem_cons, mem_eraseSorted h]

theorem Ascending.insertSorted (h : Ascending cmp l) (x : α) :
    Ascending cmp (insertSorted cmp x l) := by
  induction l with
  | nil => exact ascending_cons.mpr ⟨List.forall_mem_nil _, ascending_nil⟩
  | cons z l ih =>
    obtain ⟨hz, hl⟩ := ascending_cons.mp h
    rw [Lib.insertSorted]
    cases hcmp : cmp x z with
    | lt =>
      refine ascending_cons.mpr ⟨fun a ha => ?_, h⟩
      rcases List.mem_cons.mp ha with rfl | ha
      · exact hcmp
      · exact TransCmp.lt_trans hcmp (hz a ha)
    | eq => exact ascending_cons.mpr ⟨fun a ha => TransCmp.lt_of_eq_of_lt hcmp (hz a ha), hl⟩
    | gt =>
      refine ascending_cons.mpr ⟨fun a ha => ?_, ih hl⟩
      rcases (mem_insertSorted hl).mp ha with rfl | ⟨ha, -⟩
      · exact OrientedCmp.lt_of_gt hcmp
      · exact hz a ha

omit [TransCmp cmp] in
theorem Ascending.eraseSorted (h : Ascending cmp l) (x : α) :
    Ascending cmp (eraseSorted cmp x l) := by
  refine List.Pairwise.sublist ?_ h
  clear h
  induction l with
  | nil => exact List.Sublist.refl _
  | cons z l ih =>
    rw [Lib.eraseSorted]
    cases cmp x z with
    | lt => exact List.Sublist.refl _
    | eq => exact List.sublist_cons_self _ _
    | gt => exact .cons_cons _ ih

/-! ## Sorting -/

/-- The elements in order. -/
def sortBy (cmp : α → α → Ordering) (l : List α) : List α := l.foldr (insertSorted cmp) []

theorem ascending_sortBy (l : List α) : Ascending cmp (sortBy cmp l) := by
  induction l with
  | nil => exact ascending_nil
  | cons a l ih => exact ih.insertSorted a

theorem mem_sortBy {l : List α} (h : l.Pairwise fun a b => cmp a b ≠ .eq) :
    x ∈ sortBy cmp l ↔ x ∈ l := by
  induction l with
  | nil => exact Iff.rfl
  | cons a l ih =>
    obtain ⟨ha, h⟩ := List.pairwise_cons.mp h
    have hinsert : sortBy cmp (a :: l) = insertSorted cmp a (sortBy cmp l) := rfl
    rw [hinsert, mem_insertSorted (ascending_sortBy l), List.mem_cons]
    exact or_congr_right ((and_congr_left fun _ => ih h).trans (and_iff_left_of_imp (ha x)))

end Ordered

end Firebase.Lib
