import Mathlib.Data.Set.Insert
import Mathlib.Data.List.Basic

/-!
# Cells

A store of cells that are allocated one after the other, written in place and never given back: what
a program sees of the objects behind its shared pointers.
-/

universe u

namespace Firebase.Lib

/-- The cells by their addresses. -/
structure Cells (α : Type u) where
  cells : List α
deriving Repr

namespace Cells

variable {α : Type u} (s : Cells α)

/-- The next address to be given out. -/
def next : Nat := s.cells.length

def get [Inhabited α] (s : Cells α) (p : Nat) : α := s.cells.getD p default

def alloc (a : α) : Nat × Cells α := (s.next, ⟨s.cells ++ [a]⟩)

def modify (s : Cells α) (p : Nat) (f : α → α) : Cells α := ⟨s.cells.modify p f⟩

@[simp] theorem next_alloc (a : α) : (s.alloc a).2.next = s.next + 1 := by
  simp [alloc, next]

@[simp] theorem next_modify (p : Nat) (f : α → α) : (s.modify p f).next = s.next := by
  simp [modify, next]

variable [Inhabited α] (s : Cells α)

@[simp] theorem get_alloc_next (a : α) : (s.alloc a).2.get s.next = a := by
  simp [alloc, next, get]

theorem get_alloc_of_lt {s : Cells α} {p : Nat} (h : p < s.next) (a : α) :
    (s.alloc a).2.get p = s.get p := by
  simp [alloc, get, List.getElem?_append_left h]

theorem get_modify_self {s : Cells α} {p : Nat} (h : p < s.next) (f : α → α) :
    (s.modify p f).get p = f (s.get p) := by
  simp only [next] at h
  simp [modify, get, h]

theorem get_modify_of_ne {p q : Nat} (h : q ≠ p) (s : Cells α) (f : α → α) :
    (s.modify p f).get q = s.get q := by
  simp [modify, get, h.symm]

/-- No old cell outside of `w` was written to. -/
structure Extends (s s' : Cells α) (w : Set Nat) : Prop where
  next_le : s.next ≤ s'.next
  get_eq : ∀ p < s.next, p ∉ w → s'.get p = s.get p

theorem Extends.refl (w : Set Nat) : s.Extends s w := ⟨le_rfl, fun _ _ _ => rfl⟩

theorem Extends.trans {s s' s'' : Cells α} {w w' : Set Nat} (h : s.Extends s' w)
    (h' : s'.Extends s'' w') (hw : ∀ p < s.next, p ∈ w' → p ∈ w) : s.Extends s'' w := by
  refine ⟨h.next_le.trans h'.next_le, fun p hlt hp => ?_⟩
  rw [h'.get_eq p (hlt.trans_le h.next_le) fun hp' => hp (hw p hlt hp'), h.get_eq p hlt hp]

theorem extends_alloc (a : α) (w : Set Nat) : s.Extends (s.alloc a).2 w :=
  ⟨by simp, fun _ hlt _ => get_alloc_of_lt hlt a⟩

theorem extends_modify (p : Nat) (f : α → α) : s.Extends (s.modify p f) {p} :=
  ⟨by simp, fun _ _ hp => get_modify_of_ne hp s f⟩

end Cells

end Firebase.Lib
