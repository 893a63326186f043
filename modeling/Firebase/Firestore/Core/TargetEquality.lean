import Firebase.Firestore.Core.Target
import Firebase.Firestore.Model.FieldValueOrder

/-!
# Equality of targets

`operator==` on targets (`target.cc`) and on their filters, orderings and cursors
(`field_filter.cc`, `order_by.cc`, `bound.cc`).  It is an equivalence, but coarser than
being the same: all NaNs are equal, and so are points whose coordinates differ in the
sign of a zero.
-/

namespace Firebase.Firestore

open Lib Util Model
open Bool (and_eq_true)

namespace Core

open FieldValue

/-- `operator==` on filters: of the same class, with the same operator, field and value. -/
def Filter.equals : Filter → Filter → Bool
  | field path op value, field path' op' value' =>
    op == op' && path == path' && value.equals value'
  | arrayContains path value, arrayContains path' value' => path == path' && value.equals value'
  | arrayContainsAny path values, arrayContainsAny path' values' =>
    path == path' && equalArrays values values'
  | in_ path values, in_ path' values' => path == path' && equalArrays values values'
  | keyField op databaseId key, keyField op' databaseId' key' =>
    op == op' && databaseId == databaseId' && key == key'
  | keyFieldIn references, keyFieldIn references' => references == references'
  | _, _ => false

def Bound.equals (lhs rhs : Bound) : Bool :=
  equalArrays lhs.position rhs.position && lhs.before == rhs.before

def optionalEquals {α : Type} (equals : α → α → Bool) : Option α → Option α → Bool
  | some a, some b => equals a b
  | none, none => true
  | _, _ => false

def listEquals {α : Type} (equals : α → α → Bool) : List α → List α → Bool
  | [], [] => true
  | a :: as, b :: bs => equals a b && listEquals equals as bs
  | _, _ => false

def Target.equals (lhs rhs : Target) : Bool :=
  lhs.path == rhs.path && lhs.collectionGroup == rhs.collectionGroup &&
    listEquals Filter.equals lhs.filters rhs.filters && lhs.orderBys == rhs.orderBys &&
    lhs.limit == rhs.limit && optionalEquals Bound.equals lhs.startAt rhs.startAt &&
    optionalEquals Bound.equals lhs.endAt rhs.endAt

/-! ## An equivalence -/

/-- `operator==` of a class is an equivalence. -/
structure IsEquivalence {α : Type} (equals : α → α → Bool) : Prop where
  refl : ∀ a, equals a a
  symm : ∀ {a b}, equals a b → equals b a
  trans : ∀ {a b c}, equals a b → equals b c → equals a c

theorem IsEquivalence.optional {α : Type} {equals : α → α → Bool} (h : IsEquivalence equals) :
    IsEquivalence (optionalEquals equals) where
  refl
    | some a => h.refl a
    | none => rfl
  symm {a b} hab := by
    match a, b with
    | some a, some b => exact h.symm hab
    | none, none => rfl
  trans {a b c} hab hbc := by
    match a, b, c with
    | some a, some b, some c => exact h.trans hab hbc
    | none, none, none => rfl

theorem IsEquivalence.list {α : Type} {equals : α → α → Bool} (h : IsEquivalence equals) :
    IsEquivalence (listEquals equals) where
  refl as := by
    induction as with
    | nil => rfl
    | cons a as ih =>
      rw [listEquals, and_eq_true]
      exact ⟨h.refl a, ih⟩
  symm {as bs} hab := by
    induction as generalizing bs with
    | nil =>
      match bs with
      | [] => rfl
    | cons a as ih =>
      match bs with
      | b :: bs =>
        rw [listEquals, and_eq_true] at hab ⊢
        exact ⟨h.symm hab.1, ih hab.2⟩
  trans {as bs cs} hab hbc := by
    induction as generalizing bs cs with
    | nil =>
      match bs with
      | [] => exact hbc
    | cons a as ih =>
      match bs, cs with
      | b :: bs, c :: cs =>
        rw [listEquals, and_eq_true] at hab hbc ⊢
        exact ⟨h.trans hab.1 hbc.1, ih hab.2 hbc.2⟩

theorem IsEquivalence.beq {α : Type} [BEq α] [LawfulBEq α] :
    IsEquivalence fun a b : α => a == b where
  refl := beq_self_eq_true
  symm hab := beq_iff_eq.mpr (eq_of_beq hab).symm
  trans hab hbc := by rwa [eq_of_beq hab]

theorem IsEquivalence.comap {α β : Type} {equals : α → α → Bool} (h : IsEquivalence equals)
    (f : β → α) : IsEquivalence fun a b => equals (f a) (f b) :=
  ⟨fun a => h.refl (f a), h.symm, h.trans⟩

theorem IsEquivalence.and {α : Type} {equals equals' : α → α → Bool} (h : IsEquivalence equals)
    (h' : IsEquivalence equals') : IsEquivalence fun a b => equals a b && equals' a b where
  refl a := by rw [h.refl, h'.refl, Bool.and_self]
  symm hab := by
    rw [and_eq_true] at hab ⊢
    exact ⟨h.symm hab.1, h'.symm hab.2⟩
  trans hab hbc := by
    rw [and_eq_true] at hab hbc ⊢
    exact ⟨h.trans hab.1 hbc.1, h'.trans hab.2 hbc.2⟩

theorem Filter.equals_isEquivalence : IsEquivalence Filter.equals where
  refl filter := by
    cases filter <;>
      simp only [equals, beq_self_eq_true, Bool.and_self, equals_refl, equalArrays_refl]
  symm {a b} hab := by
    match a, b with
    | field _ _ _, field _ _ _ | arrayContains _ _, arrayContains _ _ =>
      simp only [equals, and_eq_true, beq_iff_eq] at hab ⊢
      exact ⟨by simp [hab.1], equals_symm hab.2⟩
    | arrayContainsAny _ _, arrayContainsAny _ _ | in_ _ _, in_ _ _ =>
      simp only [equals, and_eq_true, beq_iff_eq] at hab ⊢
      exact ⟨hab.1.symm, equalArrays_symm hab.2⟩
    | keyField _ _ _, keyField _ _ _ | keyFieldIn _, keyFieldIn _ =>
      simp only [equals] at hab ⊢
      simp_all
  trans {a b c} hab hbc := by
    match a, b, hab with
    | field _ _ _, field _ _ _, hab =>
      match c, hbc with
      | field _ _ _, hbc =>
        simp only [equals, and_eq_true, beq_iff_eq] at hab hbc ⊢
        exact ⟨⟨hab.1.1.trans hbc.1.1, hab.1.2.trans hbc.1.2⟩, equals_trans hab.2 hbc.2⟩
    | arrayContains _ _, arrayContains _ _, hab =>
      match c, hbc with
      | arrayContains _ _, hbc =>
        simp only [equals, and_eq_true, beq_iff_eq] at hab hbc ⊢
        exact ⟨hab.1.trans hbc.1, equals_trans hab.2 hbc.2⟩
    | arrayContainsAny _ _, arrayContainsAny _ _, hab =>
      match c, hbc with
      | arrayContainsAny _ _, hbc =>
        simp only [equals, and_eq_true, beq_iff_eq] at hab hbc ⊢
        exact ⟨hab.1.trans hbc.1, equalArrays_trans hab.2 hbc.2⟩
    | in_ _ _, in_ _ _, hab =>
      match c, hbc with
      | in_ _ _, hbc =>
        simp only [equals, and_eq_true, beq_iff_eq] at hab hbc ⊢
        exact ⟨hab.1.trans hbc.1, equalArrays_trans hab.2 hbc.2⟩
    | keyField _ _ _, keyField _ _ _, hab =>
      simp only [equals, and_eq_true, beq_iff_eq] at hab
      obtain ⟨⟨rfl, rfl⟩, rfl⟩ := hab
      exact hbc
    | keyFieldIn _, keyFieldIn _, hab =>
      simp only [equals, beq_iff_eq] at hab
      obtain rfl := hab
      exact hbc

theorem equalArrays_isEquivalence : IsEquivalence equalArrays :=
  ⟨equalArrays_refl, equalArrays_symm, equalArrays_trans⟩

theorem Bound.equals_isEquivalence : IsEquivalence Bound.equals :=
  (equalArrays_isEquivalence.comap position).and (IsEquivalence.beq.comap before)

theorem Target.equals_isEquivalence : IsEquivalence Target.equals :=
  ((((((IsEquivalence.beq.comap path).and (IsEquivalence.beq.comap collectionGroup)).and
    (Filter.equals_isEquivalence.list.comap filters)).and (IsEquivalence.beq.comap orderBys)).and
    (IsEquivalence.beq.comap limit)).and (Bound.equals_isEquivalence.optional.comap startAt)).and
    (Bound.equals_isEquivalence.optional.comap endAt)

end Core

end Firebase.Firestore
