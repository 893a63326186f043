import Firebase.Firestore.Model.Mutation

/-!
# Queries

`core::Query` (`query.cc`) with its filters (`field_filter.cc` and the files of its
subclasses), orderings (`order_by.cc`) and cursors (`bound.cc`), and which
documents it matches.

Matching may abort on a cursor that does not fit the orderings of the query.  `Query.Valid` is what
the API promises, and under it matching does not abort.
-/

namespace Firebase.Firestore.Core

open Lib Util Model List

/-! ## Filters -/

/-- The operators of `Filter::Operator` that compare two values. -/
inductive Comparison where
  | lessThan | lessThanOrEqual | equal | greaterThanOrEqual | greaterThan
deriving DecidableEq

/-- `core::Filter`, one constructor for each class of filters. -/
inductive Filter where
  | field (field : FieldPath) (op : Comparison) (value : FieldValue)
  | arrayContains (field : FieldPath) (value : FieldValue)
  | arrayContainsAny (field : FieldPath) (values : List FieldValue)
  | in_ (field : FieldPath) (values : List FieldValue)
  | keyField (op : Comparison) (databaseId : DatabaseId) (key : DocumentKey)
  | keyFieldIn (references : List (DatabaseId × DocumentKey))

def Comparison.matches : Comparison → Ordering → Bool
  | lessThan, comparison => comparison == .lt
  | lessThanOrEqual, comparison => comparison == .lt || comparison == .eq
  | equal, comparison => comparison == .eq
  | greaterThanOrEqual, comparison => comparison == .gt || comparison == .eq
  | greaterThan, comparison => comparison == .gt

namespace Filter

def fieldPath : Filter → FieldPath
  | field path _ _ | arrayContains path _ | arrayContainsAny path _ | in_ path _ => path
  | keyField _ _ _ | keyFieldIn _ => .keyFieldPath

def isInequality : Filter → Bool
  | field _ op _ | keyField op _ _ => op != .equal
  | _ => false

def matchesDocument (filter : Filter) (doc : Document) : Bool :=
  match filter with
  | field path op value =>
    match doc.field path with
    | none => false
    | some lhs => FieldValue.comparable lhs.type value.type && op.matches (lhs.compareTo value)
  | arrayContains path value =>
    match doc.field path with
    | some (.array contents) => contents.any (·.equals value)
    | _ => false
  | arrayContainsAny path values =>
    match doc.field path with
    | some (.array contents) => contents.any fun lhs => values.any (·.equals lhs)
    | _ => false
  | in_ path values =>
    match doc.field path with
    | some lhs => values.any (·.equals lhs)
    | none => false
  | keyField op _ key => op.matches (compare doc.key key)
  | keyFieldIn references => references.any fun rhs => doc.key == rhs.2

end Filter

/-! ## Orderings and cursors -/

inductive Direction where
  | ascending | descending
deriving DecidableEq

def Direction.applyTo : Direction → Ordering → Ordering
  | ascending, comparison => comparison
  | descending, comparison => comparison.swap

structure OrderBy where
  field : FieldPath
  direction : Direction
deriving DecidableEq

structure Bound where
  position : List FieldValue
  before : Bool

variable {orderBy : List OrderBy} {document : Document}

namespace Bound

def compareComponent (fieldValue : FieldValue) (orderingComponent : OrderBy)
    (document : Document) : Hard Ordering :=
  if orderingComponent.field = .keyFieldPath then
    match fieldValue with
    | .reference _ key => .ok (compare key document.key)
    | _ => .error ⟨"Bound has a non-key value where the key path is being used"⟩
  else
    match document.field orderingComponent.field with
    | some docValue => .ok (fieldValue.compareTo docValue)
    | none => .error ⟨"Field should exist since document matched the orderBy already."⟩

/-- The loop of `Bound::SortsBeforeDocument`: the first component that is not the same. -/
def comparePosition (document : Document) : List FieldValue → List OrderBy → Hard Ordering
  | fieldValue :: position, orderingComponent :: orderBy => do
    let comparison ← compareComponent fieldValue orderingComponent document
    match orderingComponent.direction.applyTo comparison with
    | .eq => comparePosition document position orderBy
    | comparison => return comparison
  | _, _ => .ok .eq

def sortsBeforeDocument (bound : Bound) (orderBy : List OrderBy) (document : Document) :
    Hard Bool := do
  hardAssert (bound.position.length ≤ orderBy.length)
    "Bound has more components than the provided order by."
  let result ← comparePosition document bound.position orderBy
  return if bound.before then result != .gt else result == .lt

/-- A cursor fits orderings: it is no longer, and it has references where they are by key. -/
def Fits (bound : Bound) (orderBy : List OrderBy) : Prop :=
  bound.position.length ≤ orderBy.length ∧
    ∀ entry ∈ bound.position.zip orderBy, entry.2.field = .keyFieldPath →
      ∃ databaseId key, entry.1 = .reference databaseId key

theorem comparePosition_ok {position : List FieldValue}
    (hkey : ∀ entry ∈ position.zip orderBy, entry.2.field = .keyFieldPath →
      ∃ databaseId key, entry.1 = .reference databaseId key)
    (hfield : ∀ orderBy' ∈ orderBy, orderBy'.field = .keyFieldPath ∨
      (document.field orderBy'.field).isSome) :
    ∃ result, comparePosition document position orderBy = .ok result := by
  induction position generalizing orderBy with
  | nil => exact ⟨.eq, rfl⟩
  | cons fieldValue position ih =>
    cases orderBy with
    | nil => exact ⟨.eq, rfl⟩
    | cons component orderBy =>
      obtain ⟨result, hresult⟩ :
          ∃ result, compareComponent fieldValue component document = .ok result := by
        unfold compareComponent
        split_ifs with hpath
        · obtain ⟨databaseId, key, rfl⟩ := hkey (fieldValue, component) (by simp) hpath
          exact ⟨_, rfl⟩
        · obtain ⟨docValue, hdocValue⟩ := Option.isSome_iff_exists.mp
            ((hfield component mem_cons_self).resolve_left hpath)
          rw [hdocValue]
          exact ⟨_, rfl⟩
      rw [comparePosition, hresult, ok_bind]
      split
      · exact ih (fun entry hmem => hkey entry (mem_cons_of_mem _ hmem))
          fun orderBy' hmem => hfield orderBy' (mem_cons_of_mem _ hmem)
      · exact ⟨_, rfl⟩

theorem Fits.sortsBeforeDocument_ok {bound : Bound} (h : bound.Fits orderBy)
    (hfield : ∀ orderBy' ∈ orderBy, orderBy'.field = .keyFieldPath ∨
      (document.field orderBy'.field).isSome) :
    ∃ result, bound.sortsBeforeDocument orderBy document = .ok result := by
  obtain ⟨result, hresult⟩ := comparePosition_ok h.2 hfield
  rw [sortsBeforeDocument, decide_eq_true h.1, hardAssert_true, hresult]
  exact ⟨_, rfl⟩

end Bound

/-! ## Queries -/

inductive LimitType where
  | none | first | last
deriving DecidableEq

structure Query where
  path : ResourcePath
  collectionGroup : Option Bytes
  filters : List Filter
  explicitOrderBys : List OrderBy
  limit : Int32
  limitType : LimitType
  startAt : Option Bound
  endAt : Option Bound

variable {ordering : List OrderBy}

namespace Query

def atPath (path : ResourcePath) : Query :=
  ⟨path, none, [], [], .maxValue, .none, none, none⟩

section

variable (query : Query)

def isDocumentQuery : Bool :=
  query.path.length % 2 == 0 && query.collectionGroup.isNone && query.filters.isEmpty

def isCollectionGroupQuery : Bool := query.collectionGroup.isSome

def inequalityFilterField : Option FieldPath :=
  (query.filters.find? (·.isInequality)).map (·.fieldPath)

def firstOrderByField : Option FieldPath :=
  query.explicitOrderBys.head?.map (·.field)

def withKeyOrder (explicitOrderBys : List OrderBy) : List OrderBy :=
  if explicitOrderBys.any (·.field.isKeyFieldPath) then explicitOrderBys
  else
    let lastDirection := (explicitOrderBys.getLast?.map (·.direction)).getD .ascending
    explicitOrderBys ++ [⟨.keyFieldPath, lastDirection⟩]

def orderBys : Hard (List OrderBy) :=
  match query.inequalityFilterField, query.firstOrderByField with
  | some inequalityField, none =>
    if inequalityField.isKeyFieldPath then .ok [⟨.keyFieldPath, .ascending⟩]
    else .ok [⟨inequalityField, .ascending⟩, ⟨.keyFieldPath, .ascending⟩]
  | some inequalityField, some firstOrderByField => do
    hardAssert (inequalityField = firstOrderByField)
      "First orderBy should match inequality field."
    return withKeyOrder query.explicitOrderBys
  | none, _ => return withKeyOrder query.explicitOrderBys

end

variable {query : Query}

/-- The orderings of a query are those that its inequality implies, or its explicit ones with the
key, which are then by the field of the inequality first. -/
theorem orderBys_cases (hordering : query.orderBys = .ok ordering) :
    (query.explicitOrderBys = [] ∧ ∃ inequalityField,
        query.inequalityFilterField = some inequalityField ∧
        ordering = if inequalityField.isKeyFieldPath then [⟨.keyFieldPath, .ascending⟩]
          else [⟨inequalityField, .ascending⟩, ⟨.keyFieldPath, .ascending⟩]) ∨
      ordering = withKeyOrder query.explicitOrderBys ∧ ∀ inequalityField,
        query.inequalityFilterField = some inequalityField →
          query.firstOrderByField = some inequalityField := by
  unfold orderBys at hordering
  split at hordering
  · next inequalityField hinequality hfirst =>
    refine .inl ⟨head?_eq_none_iff.mp (Option.map_eq_none_iff.mp hfirst), inequalityField,
      hinequality, ?_⟩
    split_ifs at hordering ⊢
    · exact (Except.ok.inj hordering).symm
    · exact (Except.ok.inj hordering).symm
  · next inequalityField firstOrderByField hinequality hfirst =>
    obtain ⟨_, hassert, hordering⟩ := bind_eq_ok.mp hordering
    refine .inr ⟨(Except.ok.inj hordering).symm, fun field hfield => ?_⟩
    rw [hfirst, ← hfield, hinequality, of_decide_eq_true (hardAssert_eq_ok.mp hassert)]
  · next hinequality =>
    refine .inr ⟨(Except.ok.inj hordering).symm, fun _ hfield => ?_⟩
    cases hinequality.symm.trans hfield

section

variable (query : Query) (doc : Document)

def matchesPathAndCollectionGroup : Bool :=
  match query.collectionGroup with
  | some collectionGroup =>
    doc.key.hasCollectionId collectionGroup && query.path.isPrefixOf doc.key.path
  | none =>
    if query.path.length % 2 = 0 then query.path == doc.key.path
    else ResourcePath.isImmediateParentOf query.path doc.key.path

def matchesFilters : Bool :=
  query.filters.all (·.matchesDocument doc)

def matchesOrderBy : Bool :=
  query.explicitOrderBys.all fun orderBy =>
    orderBy.field == .keyFieldPath || (doc.field orderBy.field).isSome

def sortsBefore (bound : Option Bound) (unset : Bool) (ordering : List OrderBy) (doc : Document) :
    Hard Bool :=
  match bound with
  | some bound => bound.sortsBeforeDocument ordering doc
  | none => .ok unset

def matchesBounds : Hard Bool := do
  let ordering ← query.orderBys
  let afterStart ← sortsBefore query.startAt true ordering doc
  if !afterStart then return false else
    let afterEnd ← sortsBefore query.endAt false ordering doc
    return !afterEnd

def matchesDocument : Hard Bool :=
  if query.matchesPathAndCollectionGroup doc && query.matchesOrderBy doc &&
      query.matchesFilters doc then
    query.matchesBounds doc
  else .ok false

def asCollectionQueryAtPath (path : ResourcePath) : Query :=
  { query with path := path, collectionGroup := none }

end

/-! ## Matching does not abort -/

/-- What the API promises of a query: its first ordering is by the field of its inequality, and its
cursors fit its orderings. -/
structure Valid (query : Query) : Prop where
  cursors : ∃ ordering, query.orderBys = .ok ordering ∧
    (∀ bound ∈ query.startAt, bound.Fits ordering) ∧ ∀ bound ∈ query.endAt, bound.Fits ordering

variable {doc : Document}

theorem isSome_field_of_inequality (hfilters : query.matchesFilters doc) {path : FieldPath}
    (hpath : query.inequalityFilterField = some path) (hkey : ¬ path.isKeyFieldPath) :
    (doc.field path).isSome := by
  obtain ⟨filter, hfind, rfl⟩ := Option.map_eq_some_iff.mp hpath
  have hinequality := find?_some hfind
  have hmatches := all_eq_true.mp hfilters filter (mem_of_find?_eq_some hfind)
  cases filter with
  | field path op value =>
    cases hfield : doc.field path with
    | none => simp [Filter.matchesDocument, hfield] at hmatches
    | some lhs => simp [Filter.fieldPath, hfield]
  | keyField op databaseId key => exact absurd rfl hkey
  | arrayContains path value => cases hinequality
  | arrayContainsAny path values => cases hinequality
  | in_ path values => cases hinequality
  | keyFieldIn references => cases hinequality

theorem field_of_mem_withKeyOrder (horder : query.matchesOrderBy doc) :
    ∀ orderBy ∈ withKeyOrder query.explicitOrderBys,
      orderBy.field = .keyFieldPath ∨ (doc.field orderBy.field).isSome := by
  have hexplicit : ∀ orderBy ∈ query.explicitOrderBys,
      orderBy.field = .keyFieldPath ∨ (doc.field orderBy.field).isSome := by
    simpa [matchesOrderBy] using horder
  intro orderBy hmem
  unfold withKeyOrder at hmem
  split at hmem
  · exact hexplicit orderBy hmem
  · rcases mem_append.mp hmem with hmem | hmem
    · exact hexplicit orderBy hmem
    · exact .inl (by rw [mem_singleton.mp hmem])

/-- A document that has passed the orderings and filters has every field the query is ordered
by. -/
theorem field_of_mem_orderBys
    (hordering : query.orderBys = .ok ordering) (horder : query.matchesOrderBy doc)
    (hfilters : query.matchesFilters doc) :
    ∀ orderBy ∈ ordering, orderBy.field = .keyFieldPath ∨ (doc.field orderBy.field).isSome := by
  rcases orderBys_cases hordering with ⟨-, path, hpath, rfl⟩ | ⟨rfl, -⟩
  · split_ifs with hkey
    · simp
    · have hfield := isSome_field_of_inequality hfilters hpath hkey
      simp [hfield]
  · exact field_of_mem_withKeyOrder horder

theorem Valid.matchesBounds_ok (h : query.Valid)
    (horder : query.matchesOrderBy doc) (hfilters : query.matchesFilters doc) :
    ∃ b, query.matchesBounds doc = .ok b := by
  obtain ⟨ordering, hordering, hstart, hend⟩ := h.cursors
  have hfield := field_of_mem_orderBys hordering horder hfilters
  have hbound : ∀ {bound : Option Bound} unset, (∀ b ∈ bound, b.Fits ordering) →
      ∃ b, sortsBefore bound unset ordering doc = .ok b := by
    intro bound unset hfits
    cases bound with
    | none => exact ⟨unset, rfl⟩
    | some bound => exact (hfits bound rfl).sortsBeforeDocument_ok hfield
  obtain ⟨afterStart, hafterStart⟩ := hbound true hstart
  obtain ⟨afterEnd, hafterEnd⟩ := hbound false hend
  rw [matchesBounds, hordering, ok_bind, hafterStart, ok_bind]
  split_ifs
  · exact ⟨false, rfl⟩
  · rw [hafterEnd]
    exact ⟨!afterEnd, rfl⟩

/-- Matching a document with a valid query does not abort. -/
theorem Valid.matchesDocument_ok (h : query.Valid) (doc : Document) :
    ∃ b, query.matchesDocument doc = .ok b := by
  unfold matchesDocument
  split_ifs with hpre
  · simp only [Bool.and_eq_true] at hpre
    exact h.matchesBounds_ok hpre.1.2 hpre.2
  · exact ⟨false, rfl⟩

/-- Only the path and the collection group are different. -/
theorem Valid.asCollectionQueryAtPath (h : query.Valid) (path : ResourcePath) :
    (query.asCollectionQueryAtPath path).Valid :=
  ⟨h.cursors⟩

/-- A collection group query matches the documents of a collection as a query of that does. -/
theorem matchesDocument_asCollectionQueryAtPath {collectionId : Bytes}
    (hpath : query.path = []) (hgroup : query.collectionGroup = some collectionId)
    {parent : ResourcePath} (hparent : parent.length % 2 = 0)
    (hdoc : ResourcePath.isImmediateParentOf (parent ++ [collectionId]) doc.key.path) :
    (query.asCollectionQueryAtPath (parent ++ [collectionId])).matchesDocument doc =
      query.matchesDocument doc := by
  have hodd : ¬ (parent ++ [collectionId]).length % 2 = 0 := by
    rw [length_append, length_singleton]
    omega
  have hid : doc.key.hasCollectionId collectionId := by
    obtain ⟨name, hname⟩ := ResourcePath.isImmediateParentOf_iff.mp hdoc
    exact DocumentKey.hasCollectionId_iff.mpr ⟨parent, name, by rw [hname, append_assoc]; rfl⟩
  have hcollection : (query.asCollectionQueryAtPath
      (parent ++ [collectionId])).matchesPathAndCollectionGroup doc = true :=
    (if_neg hodd).trans hdoc
  have hmatches : query.matchesPathAndCollectionGroup doc = true := by
    rw [matchesPathAndCollectionGroup, hgroup, hpath, Bool.and_eq_true]
    exact ⟨hid, ResourcePath.isPrefixOf_iff.mpr nil_prefix⟩
  rw [matchesDocument, matchesDocument, hcollection, hmatches]
  rfl

structure IsCollectionQuery (query : Query) : Prop where
  collectionGroup : query.collectionGroup = none
  path : query.path.length % 2 = 1

theorem IsCollectionQuery.isImmediateParentOf (h : query.IsCollectionQuery)
    (hmatches : query.matchesDocument doc = .ok true) :
    ResourcePath.isImmediateParentOf query.path doc.key.path := by
  unfold matchesDocument at hmatches
  split_ifs at hmatches with hpre
  · simp only [Bool.and_eq_true, matchesPathAndCollectionGroup, h.collectionGroup, h.path] at hpre
    simpa using hpre.1.1
  · cases hmatches

end Query

end Firebase.Firestore.Core
