import Firebase.Firestore.Model.FieldValueOrder
import Firebase.Firestore.Model.Mutation

/-!
# Array transforms

`ArrayTransform::Rep::Apply` (`transform_operation.cc`) takes one operand after the other and looks
for the first element that is equal to it.
-/

namespace Firebase.Firestore.Model.TransformOperation

open FieldValue List

variable {elements : List FieldValue}

/-! ## Unions -/

/-- What a union adds: operands, in their order, of which no two are equal and none is equal to an
element of the array, and one for each operand that is not. -/
structure Adds (values elements added : List FieldValue) : Prop where
  inOrder : added.Sublist elements
  distinct : added.Pairwise fun a b => ¬a.equals b
  new : ∀ a ∈ added, ∀ b ∈ values, ¬b.equals a
  complete : ∀ a ∈ elements, ∃ b ∈ values ++ added, b.equals a

theorem foldl_union (values elements : List FieldValue) :
    ∃ added, elements.foldl union values = values ++ added ∧ Adds values elements added := by
  induction elements generalizing values with
  | nil => exact ⟨[], (append_nil _).symm, .slnil, .nil, nofun, nofun⟩
  | cons a elements ih =>
    rw [foldl_cons, union]
    split_ifs with hany
    · obtain ⟨added, heq, h⟩ := ih values
      obtain ⟨b, hmem, hb⟩ := any_eq_true.mp hany
      refine ⟨added, heq, { h with inOrder := h.inOrder.cons a, complete := ?_ }⟩
      exact forall_mem_cons.mpr ⟨⟨b, mem_append_left _ hmem, hb⟩, h.complete⟩
    · obtain ⟨added, heq, h⟩ := ih (values ++ [a])
      have hcomplete := h.complete
      rw [append_assoc] at heq hcomplete
      refine ⟨a :: added, heq, h.inOrder.cons_cons a, ?_, ?_, ?_⟩
      · exact pairwise_cons.mpr ⟨fun b hmem => h.new b hmem a (by simp), h.distinct⟩
      · refine forall_mem_cons.mpr ⟨by simpa using hany, fun b hmem c hc => ?_⟩
        exact h.new b hmem c (mem_append_left _ hc)
      · exact forall_mem_cons.mpr ⟨⟨a, by simp, equals_refl a⟩, hcomplete⟩

variable {values : List FieldValue}

theorem foldl_union_of_complete (h : ∀ a ∈ elements, ∃ b ∈ values, b.equals a) :
    elements.foldl union values = values := by
  induction elements with
  | nil => rfl
  | cons a elements ih =>
    obtain ⟨ha, helements⟩ := forall_mem_cons.mp h
    rw [foldl_cons, union, if_pos (any_eq_true.mpr ha), ih helements]

/-! ## Removals -/

theorem countP_remove (values : List FieldValue) (a b : FieldValue) :
    (remove values a).countP (·.equals b) =
      values.countP (·.equals b) - if a.equals b then 1 else 0 := by
  induction values with
  | nil => simp [remove]
  | cons value values ih =>
    rw [remove] at ih
    rw [remove, eraseP_cons, countP_cons]
    by_cases ha : value.equals a
    · have hb : value.equals b = a.equals b :=
        Bool.eq_iff_iff.mpr ⟨equals_trans (equals_symm ha), equals_trans ha⟩
      rw [ha, hb, cond_true, Nat.add_sub_cancel]
    · have hb : a.equals b → ¬value.equals b := fun hab hb =>
        ha (equals_trans hb (equals_symm hab))
      rw [Bool.not_eq_true] at ha
      rw [ha, cond_false, countP_cons, ih]
      split_ifs with hab hvalue
      · exact absurd hvalue (hb hab)
      all_goals rfl

/-- Every operand takes one of the elements that are equal to it. -/
theorem countP_foldl_remove (values elements : List FieldValue) (b : FieldValue) :
    (elements.foldl remove values).countP (·.equals b) =
      values.countP (·.equals b) - elements.countP (·.equals b) := by
  induction elements generalizing values with
  | nil => rfl
  | cons a elements ih =>
    rw [foldl_cons, ih, countP_remove, countP_cons, Nat.sub_sub, Nat.add_comm]

theorem filter_foldl_remove (p : FieldValue → Bool)
    (hp : ∀ a ∈ elements, ∀ value : FieldValue, value.equals a → p value = false) :
    (elements.foldl remove values).filter p = values.filter p := by
  induction elements generalizing values with
  | nil => rfl
  | cons a elements ih =>
    obtain ⟨ha, helements⟩ := forall_mem_cons.mp hp
    rw [foldl_cons, ih helements, remove]
    rcases exists_or_eq_self_of_eraseP (·.equals a) values with heq |
      ⟨value, before, after, -, hvalue, hvalues, heq⟩
    · rw [heq]
    · rw [heq, hvalues, filter_append, filter_append, filter_cons_of_neg]
      rw [ha value hvalue]
      exact nofun

theorem foldl_remove_of_forall_not (h : ∀ a ∈ elements, ∀ value ∈ values, ¬value.equals a) :
    elements.foldl remove values = values := by
  induction elements with
  | nil => rfl
  | cons a elements ih =>
    obtain ⟨ha, helements⟩ := forall_mem_cons.mp h
    rw [foldl_cons, remove, eraseP_of_forall_not ha, ih helements]

/-- Nothing that is left is equal to an operand. -/
theorem forall_not_equals_iff :
    (∀ a ∈ elements, ∀ value ∈ elements.foldl remove values, ¬value.equals a) ↔
      ∀ a ∈ elements, values.countP (·.equals a) ≤ elements.countP (·.equals a) := by
  refine forall₂_congr fun a _ => ?_
  rw [← Nat.sub_eq_zero_iff_le, ← countP_foldl_remove, countP_eq_zero]

theorem foldl_remove_eq_filter_iff : elements.foldl remove values =
        values.filter (fun value => !elements.any fun a => value.equals a) ↔
      ∀ a ∈ elements, values.countP (·.equals a) ≤ elements.countP (·.equals a) := by
  rw [← forall_not_equals_iff]
  constructor
  · intro h a ha value hvalue hequals
    rw [h] at hvalue
    simp only [mem_filter, Bool.not_eq_true', any_eq_false] at hvalue
    exact hvalue.2 a ha hequals
  · intro h
    rw [← @filter_foldl_remove elements, filter_eq_self.mpr]
    · simpa using fun value hvalue a ha => h a ha value hvalue
    · simpa using fun a ha value hequals => ⟨a, ha, hequals⟩

theorem foldl_remove_idem_iff :
    elements.foldl remove (elements.foldl remove values) = elements.foldl remove values ↔
      ∀ a ∈ elements, values.countP (·.equals a) ≤ elements.countP (·.equals a) := by
  constructor
  · intro h a ha
    have hpos : 0 < elements.countP (·.equals a) := countP_pos_iff.mpr ⟨a, ha, equals_refl a⟩
    have hcount := countP_foldl_remove (elements.foldl remove values) elements a
    rw [h, countP_foldl_remove] at hcount
    omega
  · intro h
    exact foldl_remove_of_forall_not (forall_not_equals_iff.mpr h)

/-- A union adds the operands that are not there, in order and once, and changes nothing if it is
repeated.  A removal leaves the elements that are equal to no operand, and changes nothing if it is
repeated, exactly if the array has no more elements equal to an operand than there are such
operands. -/
theorem arrayTransforms_iff (previousValue : Option FieldValue) (elements : List FieldValue)
    (time : Timestamp) : let values := coercedFieldValuesArray previousValue
    (∃ added, (arrayUnion elements).applyToLocalView previousValue time =
        .ok (.array (values ++ added)) ∧
      Adds values elements added ∧
      (arrayUnion elements).applyToLocalView (some (.array (values ++ added))) time =
        .ok (.array (values ++ added))) ∧
    ∃ rest, (arrayRemove elements).applyToLocalView previousValue time =
        .ok (.array rest) ∧
      ((rest = values.filter (fun value => !elements.any value.equals) ∧
          (arrayRemove elements).applyToLocalView (some (.array rest)) time =
            .ok (.array rest)) ↔
        ∀ a ∈ elements, values.countP (·.equals a) ≤ elements.countP (·.equals a)) := by
  intro values
  constructor
  · obtain ⟨added, heq, hadds⟩ := foldl_union values elements
    refine ⟨added, by rw [applyToLocalView, heq], hadds, ?_⟩
    rw [applyToLocalView, coercedFieldValuesArray, foldl_union_of_complete hadds.complete]
  · refine ⟨_, rfl, ?_⟩
    rw [foldl_remove_eq_filter_iff, applyToLocalView, coercedFieldValuesArray, Except.ok.injEq,
      array.injEq, foldl_remove_idem_iff, and_self]

/-- One of two equal elements is removed. -/
theorem arrayRemove_equal_elements :
    (arrayRemove [.integer 1]).applyToLocalView (some (.array [.integer 1, .integer 1]))
      ⟨0, 0, by decide⟩ = .ok (.array [.integer 1]) := rfl

end Firebase.Firestore.Model.TransformOperation
