import Firebase.Firestore.Core.Query
import Firebase.Firestore.Model.DocumentSet
import Firebase.Firestore.Model.FieldValueOrder

/-!
# The order of the documents of a query

`Query::Comparator` (`query.cc`, `order_by.cc`) compares documents by the fields that the
query is ordered by, and at the end by their keys.  It aborts when a document does not
have one of the fields.

`order` is the same comparison with missing fields before all others.  It is a total preorder in
which only documents with the same key are equal.
-/

namespace Firebase.Firestore.Core

open Lib Util Model List

/-! ## Comparators -/

def OrderBy.compareDocuments (orderBy : OrderBy) (lhs rhs : Document) : Hard Ordering := do
  let result ←
    if orderBy.field = .keyFieldPath then Except.ok (compare lhs.key rhs.key)
    else
      match lhs.field orderBy.field, rhs.field orderBy.field with
      | some value1, some value2 => .ok (value1.compareTo value2)
      | _, _ => .error ⟨"Trying to compare documents on fields that don't exist."⟩
  return orderBy.direction.applyTo result

/-- The comparator of a list of orderings: the first one that does not call the documents the
same. -/
def compareBy : List OrderBy → DocumentComparator
  | [], _, _ => .ok .eq
  | orderBy :: ordering, doc1, doc2 => do
    match ← orderBy.compareDocuments doc1 doc2 with
    | .eq => compareBy ordering doc1 doc2
    | comp => return comp

def Query.comparator (query : Query) : Hard DocumentComparator := do
  let ordering ← query.orderBys
  hardAssert (ordering.any (·.field == .keyFieldPath))
    "QueryComparator needs to have a key ordering."
  return compareBy ordering

/-! ## The order -/

def fieldCode (path : FieldPath) (doc : Document) : List Token :=
  match doc.field path with
  | some value => value.code
  | none => []

def OrderBy.order (orderBy : OrderBy) (lhs rhs : Document) : Ordering :=
  orderBy.direction.applyTo
    (if orderBy.field = .keyFieldPath then compare lhs.key rhs.key
      else FieldValue.compareCode (fieldCode orderBy.field lhs) (fieldCode orderBy.field rhs))

def order : List OrderBy → Document → Document → Ordering
  | [], _, _ => .eq
  | orderBy :: ordering, lhs, rhs => (orderBy.order lhs rhs).then (order ordering lhs rhs)

/-- A comparator stays a total preorder in either direction. -/
theorem transCmp_applyTo {cmp : Document → Document → Ordering} [Std.TransCmp cmp]
    (direction : Direction) : Std.TransCmp fun a b => direction.applyTo (cmp a b) := by
  cases direction with
  | ascending => exact inferInstanceAs (Std.TransCmp cmp)
  | descending =>
    have hswap : (fun a b => (cmp a b).swap) = fun a b => cmp b a := by
      funext a b
      exact Std.OrientedCmp.eq_swap.symm
    show Std.TransCmp fun a b => (cmp a b).swap
    rw [hswap]
    infer_instance

instance (orderBy : OrderBy) : Std.TransCmp orderBy.order := by
  by_cases hkey : orderBy.field = .keyFieldPath
  · have horder : orderBy.order = fun a b =>
        orderBy.direction.applyTo (compareOn Document.key a b) := by
      funext a b
      rw [OrderBy.order, if_pos hkey]
      rfl
    rw [horder]
    exact transCmp_applyTo _
  · have horder : orderBy.order = fun a b => orderBy.direction.applyTo
        (FieldValue.compareCode (fieldCode orderBy.field a) (fieldCode orderBy.field b)) := by
      funext a b
      rw [OrderBy.order, if_neg hkey]
    have hcode : Std.TransCmp fun a b : Document =>
        FieldValue.compareCode (fieldCode orderBy.field a) (fieldCode orderBy.field b) :=
      { eq_swap := Std.OrientedCmp.eq_swap
        isLE_trans := Std.TransCmp.isLE_trans }
    rw [horder]
    exact transCmp_applyTo _

instance instTransCmpOrder (ordering : List OrderBy) : Std.TransCmp (order ordering) := by
  induction ordering with
  | nil => exact { eq_swap := rfl, isLE_trans := fun _ _ => rfl }
  | cons orderBy ordering ih =>
    exact inferInstanceAs (Std.TransCmp (compareLex orderBy.order (order ordering)))

def HasFields (ordering : List OrderBy) (doc : Document) : Prop :=
  ∀ orderBy ∈ ordering, orderBy.field = .keyFieldPath ∨ (doc.field orderBy.field).isSome

variable {lhs rhs : Document}

theorem OrderBy.compareDocuments_eq {orderBy : OrderBy}
    (hlhs : orderBy.field = .keyFieldPath ∨ (lhs.field orderBy.field).isSome)
    (hrhs : orderBy.field = .keyFieldPath ∨ (rhs.field orderBy.field).isSome) :
    orderBy.compareDocuments lhs rhs = .ok (orderBy.order lhs rhs) := by
  rw [compareDocuments, OrderBy.order]
  by_cases hkey : orderBy.field = .keyFieldPath
  · rw [if_pos hkey, if_pos hkey]
    rfl
  · obtain ⟨value1, hvalue1⟩ := Option.isSome_iff_exists.mp (hlhs.resolve_left hkey)
    obtain ⟨value2, hvalue2⟩ := Option.isSome_iff_exists.mp (hrhs.resolve_left hkey)
    rw [if_neg hkey, if_neg hkey, fieldCode, fieldCode, hvalue1, hvalue2]
    dsimp only
    rw [FieldValue.compareTo_eq]
    rfl

variable {ordering : List OrderBy}

theorem compareBy_eq (hlhs : HasFields ordering lhs) (hrhs : HasFields ordering rhs) :
    compareBy ordering lhs rhs = .ok (order ordering lhs rhs) := by
  induction ordering with
  | nil => rfl
  | cons orderBy ordering ih =>
    obtain ⟨hlhs₁, hlhs⟩ := forall_mem_cons.mp hlhs
    obtain ⟨hrhs₁, hrhs⟩ := forall_mem_cons.mp hrhs
    rw [compareBy, order, OrderBy.compareDocuments_eq hlhs₁ hrhs₁]
    cases orderBy.order lhs rhs with
    | lt | gt => rfl
    | eq => exact ih hlhs hrhs

theorem Direction.applyTo_eq_eq {direction : Direction} {o : Ordering}
    (h : direction.applyTo o = .eq) : o = .eq := by
  cases direction with
  | ascending => exact h
  | descending => exact Ordering.swap_eq_eq.mp h

/-- Documents that are the same in the order have the same key, if they are ordered by key. -/
theorem key_eq_of_order (hkey : ∃ orderBy ∈ ordering, orderBy.field = .keyFieldPath)
    (h : order ordering lhs rhs = .eq) : lhs.key = rhs.key := by
  obtain ⟨orderBy, hmem, hfield⟩ := hkey
  have hsame : orderBy.order lhs rhs = .eq := by
    induction ordering with
    | nil => cases hmem
    | cons orderBy' ordering ih =>
      obtain ⟨hhead, htail⟩ := Ordering.then_eq_eq.mp h
      rcases mem_cons.mp hmem with rfl | hmem
      · exact hhead
      · exact ih htail hmem
  rw [OrderBy.order, if_pos hfield] at hsame
  exact compare_eq_iff_eq.mp (Direction.applyTo_eq_eq hsame)

/-! ## Documents with equal data -/

/-- The documents are the same up to their version and their state. -/
def SameData (lhs rhs : Document) : Prop := lhs.key = rhs.key ∧ lhs.data.equals rhs.data

theorem SameData.refl (doc : Document) : SameData doc doc :=
  ⟨rfl, FieldValue.equalMaps_refl doc.data⟩

theorem SameData.trans {a b c : Document} (hab : SameData a b) (hbc : SameData b c) :
    SameData a c :=
  ⟨hab.1.trans hbc.1, FieldValue.equalMaps_trans hab.2 hbc.2⟩

theorem SameData.fieldCode_eq (h : SameData lhs rhs) (path : FieldPath) :
    fieldCode path lhs = fieldCode path rhs := by
  have hfield : Option.Rel (fun a b => FieldValue.equals a b) (lhs.field path) (rhs.field path) :=
    ObjectValue.get_of_equals h.2 path
  rw [fieldCode, fieldCode]
  generalize lhs.field path = x at hfield
  generalize rhs.field path = y at hfield
  cases hfield with
  | some hvalue => exact FieldValue.code_eq_of_equals hvalue
  | none => rfl

/-- The order depends on the keys and the data only. -/
theorem order_congr {a a' b b' : Document} (ha : SameData a a')
    (hb : SameData b b') : order ordering a b = order ordering a' b' := by
  induction ordering with
  | nil => rfl
  | cons orderBy ordering ih =>
    rw [order, order, ih, OrderBy.order, OrderBy.order, ha.1, hb.1, ha.fieldCode_eq,
      hb.fieldCode_eq]

/-! ## The comparator of a query -/

namespace Query

theorem isKeyFieldPath_iff {path : FieldPath} : path.isKeyFieldPath ↔ path = .keyFieldPath := by
  rw [FieldPath.isKeyFieldPath, FieldPath.keyFieldPath, Bool.and_eq_true, beq_iff_eq, beq_iff_eq,
    length_eq_one_iff]
  constructor
  · rintro ⟨⟨segment, rfl⟩, hhead⟩
    rw [Option.some.inj hhead]
  · rintro rfl
    exact ⟨⟨_, rfl⟩, rfl⟩

variable {query : Query} {ordering : List OrderBy}

section

variable (hordering : query.orderBys = .ok ordering)

include hordering

/-- Every query is ordered by key in the end. -/
theorem exists_keyFieldPath : ∃ orderBy ∈ ordering, orderBy.field = .keyFieldPath := by
  have hwith : ∃ orderBy ∈ withKeyOrder query.explicitOrderBys, orderBy.field = .keyFieldPath := by
    unfold withKeyOrder
    split_ifs with hany
    · obtain ⟨orderBy, hmem, hkey⟩ := any_eq_true.mp hany
      exact ⟨orderBy, hmem, isKeyFieldPath_iff.mp hkey⟩
    · exact ⟨_, mem_append_right _ mem_cons_self, rfl⟩
  rcases orderBys_cases hordering with ⟨-, path, -, rfl⟩ | ⟨rfl, -⟩
  · split_ifs
    · exact ⟨_, mem_cons_self, rfl⟩
    · exact ⟨_, mem_cons_of_mem _ mem_cons_self, rfl⟩
  · exact hwith

theorem comparator_eq : query.comparator = .ok (compareBy ordering) := by
  obtain ⟨orderBy, hmem, hkey⟩ := exists_keyFieldPath hordering
  have hany : ordering.any (·.field == .keyFieldPath) = true :=
    any_eq_true.mpr ⟨orderBy, hmem, beq_iff_eq.mpr hkey⟩
  rw [comparator, hordering, ok_bind, hany]
  rfl

/-- The comparator of a query orders the documents with the fields that the query is ordered by. -/
theorem orders_comparator :
    DocumentComparator.Orders (compareBy ordering) (order ordering) (HasFields ordering) :=
  ⟨compareBy_eq, key_eq_of_order (exists_keyFieldPath hordering)⟩

/-- Documents that match a query have the fields that the query is ordered by. -/
theorem hasFields_of_matches {doc : Document}
    (hmatches : query.matchesDocument doc = .ok true) : HasFields ordering doc := by
  unfold matchesDocument at hmatches
  split_ifs at hmatches with hpre
  · simp only [Bool.and_eq_true] at hpre
    exact field_of_mem_orderBys hordering hpre.1.2 hpre.2
  · cases hmatches

end

/-- A valid query can be matched with any document, and its comparator does not abort on the
documents that match: there it is a total preorder, in which documents with different keys are apart
and documents with the same key and data are not. -/
theorem matches_and_sorts (h : query.Valid) : (∀ doc, ∃ b, query.matchesDocument doc = .ok b) ∧
      ∃ comparator cmp, query.comparator = .ok comparator ∧ Std.TransCmp cmp ∧
        ∀ a b, query.matchesDocument a = .ok true → query.matchesDocument b = .ok true →
          comparator a b = .ok (cmp a b) ∧ (cmp a b = .eq → a.key = b.key) ∧
            (SameData a b → cmp a b = .eq) := by
  refine ⟨h.matchesDocument_ok, ?_⟩
  obtain ⟨ordering, hordering, -, -⟩ := h.cursors
  refine ⟨compareBy ordering, order ordering, comparator_eq hordering, inferInstance, ?_⟩
  intro a b ha hb
  refine ⟨?_, key_eq_of_order (exists_keyFieldPath hordering), fun hsame => ?_⟩
  · exact compareBy_eq (hasFields_of_matches hordering ha) (hasFields_of_matches hordering hb)
  · rw [order_congr hsame (.refl b)]
    exact Std.ReflCmp.compare_self

def roomsFrom (explicitOrderBys : List OrderBy) (position : FieldValue) : Query :=
  { Query.atPath [ascii "rooms"] with explicitOrderBys, startAt := some ⟨[position], true⟩ }

def roomWith (n : Int64) : Document :=
  ⟨[(ascii "n", .integer n)], .inCollection (ascii "rooms") (ascii "a"), .none, .synced⟩

theorem matches_and_sorts_roomsFrom : (roomsFrom [⟨[ascii "n"], .ascending⟩] (.integer 0)).Valid ∧
    ∃ b, (roomsFrom [⟨[ascii "n"], .ascending⟩] (.integer 0)).matchesDocument (roomWith 1) =
      .ok b := by
  have hvalid : (roomsFrom [⟨[ascii "n"], .ascending⟩] (.integer 0)).Valid := by
    refine ⟨_, rfl, ?_, nofun⟩
    intro bound hbound
    cases hbound
    refine ⟨by decide, fun entry hmem hfield => ?_⟩
    cases mem_singleton.mp hmem
    exact absurd hfield (by decide)
  exact ⟨hvalid, (matches_and_sorts hvalid).1 (roomWith 1)⟩

/-- Cursors have to fit, not only in their length: one with a number where the query is ordered by
key aborts.  And two documents with one key are apart if their fields are. -/
theorem matches_aborts_and_sameKey_apart :
    (roomsFrom [] (.integer 0)).matchesDocument (roomWith 1) =
        .error ⟨"Bound has a non-key value where the key path is being used"⟩ ∧
      ∃ comparator, (roomsFrom [⟨[ascii "n"], .ascending⟩] (.integer 0)).comparator =
          .ok comparator ∧
        comparator (roomWith 1) (roomWith 2) = .ok .lt := by
  refine ⟨?_, _, rfl, ?_⟩
  · rfl
  · with_unfolding_all rfl

end Query

end Firebase.Firestore.Core
