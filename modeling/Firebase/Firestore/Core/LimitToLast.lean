import Firebase.Firestore.Core.View

/-!
# The target of a `limitToLast` query

`Query::ToTarget` (`query.cc`) turns a `limitToLast` query around: every ordering gets the other
direction, the cursors change places, and each of them is before what it was after.
-/

namespace Firebase.Firestore.Core

open Lib Util Model List OrderBy

def OrderBy.flip (orderBy : OrderBy) : OrderBy :=
  { orderBy with direction := orderBy.direction.flip }

/-- A target as an ordinary limit query, the one that `Serializer::DecodeQueryTarget` makes of
it. -/
def Target.limitQuery (target : Target) : Query :=
  ⟨target.path, target.collectionGroup, target.filters, target.orderBys, target.limit, .first,
    target.startAt, target.endAt⟩

namespace Query

def matching (query : Query) : List Document → Hard (List Document)
  | [] => .ok []
  | doc :: documents => do
    let matched ← query.matchesDocument doc
    let rest ← query.matching documents
    return if matched then doc :: rest else rest

def sortedMatches (query : Query) (documents : List Document) : Hard (List Document) := do
  let comparator ← query.comparator
  let matching ← query.matching documents
  sortM (fun doc1 doc2 => do return (← comparator doc1 doc2) == .lt) matching

end Query

/-! ## Turning comparisons around -/

theorem Direction.applyTo_flip (direction : Direction) (comparison : Ordering) :
    direction.flip.applyTo comparison = (direction.applyTo comparison).swap := by
  cases direction with
  | ascending => rfl
  | descending => exact (Ordering.swap_swap (o := comparison)).symm

theorem order_flip (ordering : List OrderBy) (lhs rhs : Document) :
    order (ordering.map flip) lhs rhs = (order ordering lhs rhs).swap := by
  induction ordering with
  | nil => rfl
  | cons orderBy ordering ih =>
    rw [map_cons, order, order, ih, Ordering.swap_then]
    congr 1
    exact orderBy.direction.applyTo_flip _

variable {doc : Document} {ordering : List OrderBy}

theorem hasFields_flip : HasFields (ordering.map flip) doc ↔ HasFields ordering doc := by
  constructor
  · intro h orderBy hmem
    exact h orderBy.flip (mem_map_of_mem hmem)
  · intro h orderBy hmem
    obtain ⟨orderBy', hmem', rfl⟩ := mem_map.mp hmem
    exact h orderBy' hmem'

namespace Bound

theorem comparePosition_flip (document : Document) (position : List FieldValue)
    (ordering : List OrderBy) : comparePosition document position (ordering.map OrderBy.flip) =
      (comparePosition document position ordering).map Ordering.swap := by
  induction position generalizing ordering with
  | nil => rfl
  | cons fieldValue position ih =>
    cases ordering with
    | nil => rfl
    | cons orderBy ordering =>
      rw [map_cons, comparePosition, comparePosition]
      -- The field is the same one, so the component compares in the same way.
      show (compareComponent fieldValue orderBy document >>= _) = _
      cases compareComponent fieldValue orderBy document with
      | error e => rfl
      | ok comparison =>
        rw [ok_bind, ok_bind]
        have hflip := orderBy.direction.applyTo_flip comparison
        rw [OrderBy.flip, hflip]
        cases orderBy.direction.applyTo comparison with
        | lt | gt => rfl
        | eq => exact ih ordering

/-- The cursor of the turned query is before the document exactly if the cursor was not. -/
theorem sortsBeforeDocument_flip (bound : Bound) (ordering : List OrderBy) (document : Document) :
    bound.flip.sortsBeforeDocument (ordering.map OrderBy.flip) document =
      (bound.sortsBeforeDocument ordering document).map not := by
  rw [sortsBeforeDocument, sortsBeforeDocument, length_map]
  show (hardAssert (bound.position.length ≤ ordering.length) _ >>= _) = _
  cases hardAssert (bound.position.length ≤ ordering.length)
    "Bound has more components than the provided order by." with
  | error e => rfl
  | ok u =>
    show (comparePosition document bound.position (ordering.map OrderBy.flip) >>= _) = _
    rw [comparePosition_flip]
    cases comparePosition document bound.position ordering with
    | error e => rfl
    | ok result =>
      show Except.ok (if !bound.before then result.swap != .gt else result.swap == .lt) =
        Except.ok (!if bound.before then result != .gt else result == .lt)
      cases bound.before <;> cases result <;> rfl

theorem Fits.flip {bound : Bound} (h : bound.Fits ordering) :
    bound.flip.Fits (ordering.map OrderBy.flip) := by
  refine ⟨by rw [length_map]; exact h.1, fun entry hentry hkey => ?_⟩
  rw [zip_map_right] at hentry
  obtain ⟨entry', hentry', rfl⟩ := mem_map.mp hentry
  exact h.2 entry' hentry' hkey

end Bound

namespace Query

/-- A cursor that is not there lets every document pass, on either side. -/
theorem sortsBefore_flip (bound : Option Bound) (unset : Bool) (ordering : List OrderBy)
    (doc : Document) : sortsBefore (bound.map Bound.flip) (!unset) (ordering.map flip) doc =
      (sortsBefore bound unset ordering doc).map not := by
  cases bound with
  | none => rfl
  | some bound => exact bound.sortsBeforeDocument_flip ordering doc

/-! ## The target as a query -/

variable {query : Query} {target : Target} {ordering : List OrderBy}

theorem toTarget_last (hlast : query.limitType = .last)
    (hordering : query.orderBys = .ok ordering) :
    query.toTarget = .ok ⟨query.path, query.collectionGroup, query.filters,
      ordering.map flip, query.limit, query.endAt.map Bound.flip,
      query.startAt.map Bound.flip⟩ := by
  rw [toTarget, hordering, ok_bind, if_pos hlast]
  rfl

theorem toTarget_first (hlast : query.limitType ≠ .last)
    (hordering : query.orderBys = .ok ordering) :
    query.toTarget = .ok ⟨query.path, query.collectionGroup, query.filters, ordering, query.limit,
      query.startAt, query.endAt⟩ := by
  rw [toTarget, hordering, ok_bind, if_neg hlast]
  rfl

/-- The orderings are by the field of the inequality first, if there is one. -/
theorem orderBys_head? (hordering : query.orderBys = .ok ordering) {inequalityField : FieldPath}
    (hfield : query.inequalityFilterField = some inequalityField) :
    (ordering.map field).head? = some inequalityField := by
  rcases orderBys_cases hordering with ⟨-, path, hpath, rfl⟩ | ⟨rfl, hfirst⟩
  · obtain rfl := Option.some.inj (hpath.symm.trans hfield)
    split_ifs with hkey
    · rw [isKeyFieldPath_iff.mp hkey]
      rfl
    · rfl
  · have hfirst := hfirst inequalityField hfield
    rw [firstOrderByField, Option.map_eq_some_iff] at hfirst
    obtain ⟨orderBy, hhead, rfl⟩ := hfirst
    obtain ⟨rest, hcons⟩ := head?_eq_some_iff.mp hhead
    rw [withKeyOrder, hcons]
    split_ifs
    · rfl
    · rfl

/-- Orderings with the fields of those of a query are complete: none is added to them. -/
theorem orderBys_of_fields {query' : Query} (hordering : query.orderBys = .ok ordering)
    (hfilters : query'.filters = query.filters)
    (hfields : query'.explicitOrderBys.map field = ordering.map field) :
    query'.orderBys = .ok query'.explicitOrderBys := by
  have hkey : withKeyOrder query'.explicitOrderBys = query'.explicitOrderBys := by
    obtain ⟨orderBy, hmem, hkey⟩ := exists_keyFieldPath hordering
    have hmem' : orderBy.field ∈ query'.explicitOrderBys.map field := by
      rw [hfields]
      exact mem_map_of_mem hmem
    obtain ⟨orderBy', hmem', hfield⟩ := mem_map.mp hmem'
    refine if_pos (any_eq_true.mpr ⟨orderBy', hmem', ?_⟩)
    exact isKeyFieldPath_iff.mpr (hfield.trans hkey)
  have hinequality : query'.inequalityFilterField = query.inequalityFilterField := by
    rw [inequalityFilterField, inequalityFilterField, hfilters]
  have hfirst : query'.firstOrderByField = (ordering.map field).head? := by
    rw [← hfields, head?_map]
    rfl
  rw [orderBys, hinequality, hfirst]
  cases hfield : query.inequalityFilterField with
  | none => exact congrArg Except.ok hkey
  | some inequalityField =>
    rw [orderBys_head? hordering hfield]
    dsimp only
    rw [decide_eq_true rfl, hardAssert_true, hkey]
    rfl

/-- A target read as a limit query has the orderings of the target. -/
theorem orderBys_limitQuery (htarget : query.toTarget = .ok target) :
    target.limitQuery.orderBys = .ok target.orderBys := by
  obtain ⟨ordering, hordering, -⟩ := bind_eq_ok.mp htarget
  by_cases hlast : query.limitType = .last
  · obtain rfl := Except.ok.inj ((toTarget_last hlast hordering).symm.trans htarget)
    refine orderBys_of_fields hordering rfl ?_
    show (ordering.map flip).map field = _
    rw [map_map]
    rfl
  · obtain rfl := Except.ok.inj ((toTarget_first hlast hordering).symm.trans htarget)
    exact orderBys_of_fields hordering rfl rfl

/-- The orderings of a query are no more than its explicit ones, its inequality and the key. -/
theorem matchesOrderBy_iff (hordering : query.orderBys = .ok ordering)
    (hfilters : query.matchesFilters doc) : query.matchesOrderBy doc ↔ HasFields ordering doc := by
  refine ⟨fun h => field_of_mem_orderBys hordering h hfilters, fun h => ?_⟩
  refine all_eq_true.mpr fun orderBy hmem => ?_
  have hmem' : orderBy ∈ ordering := by
    rcases orderBys_cases hordering with ⟨hnil, -⟩ | ⟨rfl, -⟩
    · rw [hnil] at hmem
      cases hmem
    · rw [withKeyOrder]
      split_ifs
      · exact hmem
      · exact mem_append_left _ hmem
  rw [Bool.or_eq_true, beq_iff_eq]
  exact h orderBy hmem'

/-! ## The same documents -/

section Last

variable (hlast : query.limitType = .last) (htarget : query.toTarget = .ok target)

include hlast htarget

/-- The target has what the query has, turned around. -/
theorem limitQuery_eq : ∃ ordering, query.orderBys = .ok ordering ∧
    target.limitQuery.orderBys = .ok (ordering.map flip) ∧
    target.limitQuery = ⟨query.path, query.collectionGroup, query.filters,
      ordering.map flip, query.limit, .first, query.endAt.map Bound.flip,
      query.startAt.map Bound.flip⟩ := by
  have horderBys := orderBys_limitQuery htarget
  obtain ⟨ordering, hordering, -⟩ := bind_eq_ok.mp htarget
  obtain rfl := Except.ok.inj ((toTarget_last hlast hordering).symm.trans htarget)
  exact ⟨ordering, hordering, horderBys, rfl⟩

/-- Apart from its cursors the target matches what the query matches. -/
theorem limitQuery_passes (doc : Document) :
    (target.limitQuery.matchesPathAndCollectionGroup doc && target.limitQuery.matchesOrderBy doc &&
        target.limitQuery.matchesFilters doc) =
      (query.matchesPathAndCollectionGroup doc && query.matchesOrderBy doc &&
        query.matchesFilters doc) := by
  obtain ⟨ordering, hordering, hordering', heq⟩ := limitQuery_eq hlast htarget
  have hpath : target.limitQuery.matchesPathAndCollectionGroup doc =
      query.matchesPathAndCollectionGroup doc := by
    rw [heq]
    rfl
  have hfilters : target.limitQuery.matchesFilters doc = query.matchesFilters doc := by
    rw [heq]
    rfl
  rw [hpath, hfilters]
  cases hmatches : query.matchesFilters doc with
  | false => rw [Bool.and_false, Bool.and_false]
  | true =>
    have horder : target.limitQuery.matchesOrderBy doc = query.matchesOrderBy doc := by
      rw [Bool.eq_iff_iff, matchesOrderBy_iff hordering hmatches,
        matchesOrderBy_iff hordering' (hfilters.trans hmatches)]
      exact hasFields_flip
    rw [horder]

/-- The target and the query match the same documents. -/
theorem matchesDocument_limitQuery {matched matched' : Bool}
    (h : query.matchesDocument doc = .ok matched)
    (h' : target.limitQuery.matchesDocument doc = .ok matched') : matched' = matched := by
  obtain ⟨ordering, hordering, hordering', heq⟩ := limitQuery_eq hlast htarget
  rw [matchesDocument] at h h'
  rw [limitQuery_passes hlast htarget] at h'
  split_ifs at h h' with hpass
  · rw [matchesBounds, hordering, ok_bind] at h
    rw [matchesBounds, hordering', ok_bind] at h'
    have hstart : sortsBefore target.limitQuery.startAt true (ordering.map flip) doc =
        (sortsBefore query.endAt false ordering doc).map not := by
      rw [heq]
      exact sortsBefore_flip query.endAt false ordering doc
    have hend : sortsBefore target.limitQuery.endAt false (ordering.map flip) doc =
        (sortsBefore query.startAt true ordering doc).map not := by
      rw [heq]
      exact sortsBefore_flip query.startAt true ordering doc
    rw [hstart, hend] at h'
    -- Each of the two looks at the other cursor only if its first one lets the document pass.
    cases hs : sortsBefore query.startAt true ordering doc with
    | error e =>
      rw [hs] at h
      cases h
    | ok afterStart =>
      cases he : sortsBefore query.endAt false ordering doc with
      | error e =>
        rw [he] at h'
        cases h'
      | ok afterEnd =>
        rw [hs, he] at h h'
        cases afterStart <;> cases afterEnd <;> cases h <;> cases h' <;> rfl
  · exact (Except.ok.inj h').symm.trans (Except.ok.inj h)

theorem matching_limitQuery {docs matches_ matches' : List Document}
    (h : query.matching docs = .ok matches_)
    (h' : target.limitQuery.matching docs = .ok matches') : matches' = matches_ := by
  induction docs generalizing matches_ matches' with
  | nil =>
    cases h
    cases h'
    rfl
  | cons doc docs ih =>
    obtain ⟨matched, hmatched, h⟩ := bind_eq_ok.mp h
    obtain ⟨rest, hrest, h⟩ := bind_eq_ok.mp h
    obtain ⟨matched', hmatched', h'⟩ := bind_eq_ok.mp h'
    obtain ⟨rest', hrest', h'⟩ := bind_eq_ok.mp h'
    cases h
    cases h'
    rw [ih hrest hrest', matchesDocument_limitQuery hlast htarget hmatched hmatched']

end Last

/-! ## The same order from the other end -/

variable {docs matches_ : List Document}

theorem matching_ok (h : query.matching docs = .ok matches_) :
    matches_.Sublist docs ∧ ∀ doc ∈ matches_, query.matchesDocument doc = .ok true := by
  induction docs generalizing matches_ with
  | nil =>
    cases h
    exact ⟨.slnil, nofun⟩
  | cons doc docs ih =>
    obtain ⟨matched, hmatched, h⟩ := bind_eq_ok.mp h
    obtain ⟨rest, hrest, h⟩ := bind_eq_ok.mp h
    cases h
    obtain ⟨hsublist, hmatches⟩ := ih hrest
    cases matched with
    | true => exact ⟨hsublist.cons_cons doc, forall_mem_cons.mpr ⟨hmatched, hmatches⟩⟩
    | false => exact ⟨hsublist.cons doc, hmatches⟩

theorem Valid.matching_ok (h : query.Valid) (docs : List Document) :
    ∃ matches_, query.matching docs = .ok matches_ := by
  induction docs with
  | nil => exact ⟨[], rfl⟩
  | cons doc docs ih =>
    obtain ⟨matched, hmatched⟩ := h.matchesDocument_ok doc
    obtain ⟨rest, hrest⟩ := ih
    rw [matching, hmatched, hrest]
    exact ⟨_, rfl⟩

/-- Documents of different keys that a query matches can be sorted by it. -/
theorem sort_matching (hordering : query.orderBys = .ok ordering)
    (hkeys : (docs.map Document.key).Nodup) (h : query.matching docs = .ok matches_) :
    ∃ sorted, query.sortedMatches docs = .ok sorted ∧ sorted.Perm matches_ ∧
      Ascending (order ordering) sorted := by
  obtain ⟨hsublist, hmatches⟩ := Query.matching_ok h
  have hfields : ∀ doc ∈ matches_, HasFields ordering doc :=
    fun doc hdoc => hasFields_of_matches hordering (hmatches doc hdoc)
  have hpairwise : matches_.Pairwise fun doc1 doc2 => order ordering doc1 doc2 ≠ .eq := by
    refine (pairwise_map.mp (hkeys.sublist (hsublist.map Document.key))).imp ?_
    intro doc1 doc2 hne heq
    exact hne (key_eq_of_order (exists_keyFieldPath hordering) heq)
  rw [sortedMatches, comparator_eq hordering, h]
  refine sortM_ok (fun doc1 h1 doc2 h2 => ?_) hpairwise
  rw [compareBy_eq (hfields doc1 h1) (hfields doc2 h2)]
  rfl

/-- A cursor that fits the orderings fits them on the other side when they are turned around. -/
theorem Valid.limitQuery (h : query.Valid) (hlast : query.limitType = .last)
    (htarget : query.toTarget = .ok target) : target.limitQuery.Valid := by
  obtain ⟨ordering, hordering, hordering', heq⟩ := limitQuery_eq hlast htarget
  obtain ⟨ordering₁, hordering₁, hstart, hend⟩ := h.cursors
  obtain rfl := Except.ok.inj (hordering.symm.trans hordering₁)
  refine ⟨_, hordering', fun bound hbound => ?_, fun bound hbound => ?_⟩
  · rw [heq] at hbound
    obtain ⟨bound', hbound', rfl⟩ := Option.mem_map.mp hbound
    exact (hend bound' hbound').flip
  · rw [heq] at hbound
    obtain ⟨bound', hbound', rfl⟩ := Option.mem_map.mp hbound
    exact (hstart bound' hbound').flip

/-- The first documents of the target of a `limitToLast` query, taken as an ordinary limit query,
are the last documents of the query in its own order, read from the end.  For a query whose cursors
fit its orderings neither side aborts. -/
theorem take_sortedMatches_limitQuery (hlast : query.limitType = .last)
    (htarget : query.toTarget = .ok target) {docs : List Document}
    (hkeys : (docs.map Document.key).Nodup) :
    (∀ selected own, target.limitQuery.sortedMatches docs = .ok selected →
      query.sortedMatches docs = .ok own →
        selected.take target.limitQuery.limitSize = (own.rtake query.limitSize).reverse) ∧
    (query.Valid → ∃ selected own, target.limitQuery.sortedMatches docs = .ok selected ∧
      query.sortedMatches docs = .ok own) := by
  obtain ⟨ordering, hordering, hordering', heq⟩ := limitQuery_eq hlast htarget
  constructor
  · intro selected own hselected hown
    obtain ⟨matches_, hmatches⟩ : ∃ matches_, query.matching docs = .ok matches_ := by
      rw [sortedMatches, comparator_eq hordering, ok_bind] at hown
      obtain ⟨matches_, hmatches, -⟩ := bind_eq_ok.mp hown
      exact ⟨matches_, hmatches⟩
    obtain ⟨matches', hmatches'⟩ :
        ∃ matches', target.limitQuery.matching docs = .ok matches' := by
      rw [sortedMatches, comparator_eq hordering', ok_bind] at hselected
      obtain ⟨matches', hmatches', -⟩ := bind_eq_ok.mp hselected
      exact ⟨matches', hmatches'⟩
    obtain rfl := matching_limitQuery hlast htarget hmatches hmatches'
    obtain ⟨own₁, hown₁, hperm, hascending⟩ := sort_matching hordering hkeys hmatches
    obtain rfl := Except.ok.inj (hown.symm.trans hown₁)
    obtain ⟨selected₁, hselected₁, hperm', hascending'⟩ := sort_matching hordering' hkeys hmatches'
    obtain rfl := Except.ok.inj (hselected.symm.trans hselected₁)
    have hflip : order (ordering.map flip) = fun doc1 doc2 => order ordering doc2 doc1 := by
      funext doc1 doc2
      rw [order_flip]
      exact Std.OrientedCmp.eq_swap.symm
    have hreverse : selected = own.reverse := by
      refine hascending'.ext ?_ fun doc => ?_
      · rw [hflip]
        exact ascending_reverse.mpr hascending
      · rw [mem_reverse, hperm.mem_iff, hperm'.mem_iff]
    have hsize : target.limitQuery.limitSize = query.limitSize := by
      rw [heq]
      rfl
    rw [hreverse, hsize, rtake_eq_reverse_take_reverse, reverse_reverse]
  · intro hvalid
    obtain ⟨matches_, hmatches⟩ := hvalid.matching_ok docs
    obtain ⟨matches', hmatches'⟩ := (hvalid.limitQuery hlast htarget).matching_ok docs
    obtain ⟨own, hown, -, -⟩ := sort_matching hordering hkeys hmatches
    obtain ⟨selected, hselected, -, -⟩ := sort_matching hordering' hkeys hmatches'
    exact ⟨selected, own, hselected, hown⟩

namespace LastRoom

def lastRoom : Query := { atPath [[114]] with limit := 1, limitType := .last }

def roomTarget : Target := ⟨[[114]], none, [], [⟨.keyFieldPath, .descending⟩], 1, none, none⟩

def rooms : List Document :=
  [⟨[], .inCollection [114] [98], .none, .synced⟩, ⟨[], .inCollection [114] [97], .none, .synced⟩]

end LastRoom

open LastRoom in
theorem take_sortedMatches_limitQuery_lastRoom :
    ∃ selected own, roomTarget.limitQuery.sortedMatches rooms = .ok selected ∧
      lastRoom.sortedMatches rooms = .ok own ∧ selected.take 1 = (own.rtake 1).reverse := by
  have hkeys : (rooms.map Document.key).Nodup := by decide
  obtain ⟨hsame, hok⟩ := take_sortedMatches_limitQuery
    (show lastRoom.limitType = .last from rfl)
    (show lastRoom.toTarget = .ok roomTarget from rfl) hkeys
  obtain ⟨selected, own, hselected, hown⟩ := hok ⟨_, rfl, nofun, nofun⟩
  exact ⟨selected, own, hselected, hown, hsame selected own hselected hown⟩

end Query

end Firebase.Firestore.Core
