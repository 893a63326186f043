import Firebase.Firestore.Model.Mutation
import Firebase.Firestore.Util.Sorting

/-!
# Sets of documents

`model::DocumentSet` (`document_set.cc`) holds documents in the order of a comparator, at
most one for each key: an index by key, and a sorted set.

A comparator may abort.  `DocumentComparator.Orders` says that it does not abort on some documents
and puts them in a total order; a set of such documents is determined by its index
(`DocumentSet.Sorted.ext`).
-/

namespace Firebase.Firestore.Model

open Lib Util OrdMap List

abbrev DocumentComparator := Document → Document → Hard Ordering

@[ext] structure DocumentSet where
  comparator : DocumentComparator
  index : OrdMap DocumentKey Document
  sortedSet : List Document

namespace DocumentSet

def empty (comparator : DocumentComparator) : DocumentSet := ⟨comparator, .empty, []⟩

variable (set : DocumentSet)

/-- `DocumentSet::size`: the nodes of the tree of the index count in 31 bits. -/
def size : Nat := set.index.entries.length % 2 ^ 31

def containsKey (key : DocumentKey) : Bool := (set.index.get? key).isSome

def getDocument (key : DocumentKey) : Option Document := set.index.get? key

def getFirstDocument : Option Document := set.sortedSet.head?

def getLastDocument : Option Document := set.sortedSet.getLast?

def erase (set : DocumentSet) (key : DocumentKey) : Hard DocumentSet :=
  match set.getDocument key with
  | none => .ok set
  | some doc => do
    let sortedSet ← eraseSortedM set.comparator doc set.sortedSet
    return { set with index := set.index.erase key, sortedSet }

def insert (set : DocumentSet) : Option Document → Hard DocumentSet
  | none => .ok set
  | some document => do
    -- Any prior document of the key goes first.
    let removed ← set.erase document.key
    let sortedSet ← insertSortedM set.comparator document removed.sortedSet
    return { removed with index := removed.index.insert document.key document, sortedSet }

/-- `SortedSet::find_index`: the position of the document that compares the same. -/
def findIndexM (comparator : DocumentComparator) (doc : Document) :
    List Document → Hard (Option Nat)
  | [] => .ok none
  | doc' :: docs => do
    if (← comparator doc doc') = .eq then return some 0
    return (← findIndexM comparator doc docs).map (· + 1)

def indexOf (set : DocumentSet) (key : DocumentKey) : Hard (Option Nat) :=
  match set.getDocument key with
  | none => .ok none
  | some doc => findIndexM set.comparator doc set.sortedSet

end DocumentSet

/-! ## Sets in order -/

/-- The comparator does not abort on the documents, and puts documents with different keys in
order. -/
structure DocumentComparator.Orders (comparator : DocumentComparator)
    (order : Document → Document → Ordering) (p : Document → Prop) : Prop where
  compare_eq {a b : Document} : p a → p b → comparator a b = .ok (order a b)
  key_eq {a b : Document} : order a b = .eq → a.key = b.key

namespace DocumentSet

/-- The sorted set has the documents of the index in order, and the comparator does not abort on
them. -/
structure Sorted (order : Document → Document → Ordering) (p : Document → Prop)
    (set : DocumentSet) : Prop where
  orders : DocumentComparator.Orders set.comparator order p
  ascending : Ascending order set.sortedSet
  mem_iff {doc : Document} : doc ∈ set.sortedSet ↔ set.index.get? doc.key = some doc
  key_eq {key : DocumentKey} {doc : Document} : set.index.get? key = some doc → doc.key = key
  sortable {doc : Document} : doc ∈ set.sortedSet → p doc

namespace Sorted

variable {order : Document → Document → Ordering} {p : Document → Prop} {set set' : DocumentSet}
  {key : DocumentKey} {doc : Document}

theorem empty {comparator : DocumentComparator} (h : comparator.Orders order p) :
    Sorted order p (.empty comparator) :=
  ⟨h, ascending_nil, ⟨nofun, nofun⟩, nofun, nofun⟩

theorem mem_of_get? (h : set.Sorted order p) (hget : set.index.get? key = some doc) :
    doc ∈ set.sortedSet := by
  rw [h.mem_iff, h.key_eq hget, hget]

theorem sortable_of_get? (h : set.Sorted order p) (hget : set.index.get? key = some doc) : p doc :=
  h.sortable (h.mem_of_get? hget)

variable [Std.TransCmp order]

section

variable (h : set.Sorted order p)

include h

/-- A set is determined by its index. -/
theorem ext (h' : set'.Sorted order p)
    (hcmp : set.comparator = set'.comparator) (hindex : set.index = set'.index) :
    set = set' := by
  refine DocumentSet.ext hcmp hindex (h.ascending.ext h'.ascending fun doc => ?_)
  rw [h.mem_iff, h'.mem_iff, hindex]

theorem size_eq : set.size = set.sortedSet.length % 2 ^ 31 := by
  have hperm : (set.index.entries.map Prod.snd).Perm set.sortedSet := by
    rw [perm_ext_iff_of_nodup]
    · intro doc
      rw [h.mem_iff, ← mem_entries, mem_map]
      constructor
      · rintro ⟨⟨key, doc⟩, hmem, rfl⟩
        rwa [h.key_eq (mem_entries.mp hmem)]
      · exact fun hmem => ⟨_, hmem, rfl⟩
    · refine List.Nodup.map_on ?_ (set.index.sorted.imp fun hlt heq => hlt.ne (congrArg _ heq))
      rintro ⟨key, doc⟩ hmem ⟨key', doc'⟩ hmem' rfl
      rw [← h.key_eq (mem_entries.mp hmem), ← h.key_eq (mem_entries.mp hmem')]
    · exact h.ascending.imp Ascending.ne_of_lt
  rw [size, ← hperm.length_eq, length_map]

/-- Erasing does not abort. -/
theorem erase_ok (key : DocumentKey) :
    ∃ set', set.erase key = .ok set' ∧ set'.comparator = set.comparator ∧
      set'.index = set.index.erase key ∧ set'.Sorted order p := by
  unfold DocumentSet.erase getDocument
  cases hget : set.index.get? key with
  | none =>
    refine ⟨set, rfl, rfl, ext_get? fun key' => ?_, h⟩
    rw [get?_erase]
    split_ifs with hkey
    · rw [hkey, hget]
    · rfl
  | some doc =>
    have hp := h.sortable_of_get? hget
    have hdoc := h.key_eq hget
    dsimp only
    rw [eraseSortedM_eq fun doc' hmem => h.orders.compare_eq hp (h.sortable hmem)]
    refine ⟨_, rfl, rfl, rfl, h.orders, h.ascending.eraseSorted doc, ?_, ?_, ?_⟩
    · intro doc'
      rw [mem_eraseSorted h.ascending, h.mem_iff, get?_erase]
      split_ifs with hkey
      · refine ⟨fun hmem => absurd ?_ hmem.2, nofun⟩
        have heq : doc' = doc := by
          rw [hkey, hget] at hmem
          exact (Option.some.inj hmem.1).symm
        rw [heq]
        exact Std.ReflCmp.compare_self
      · refine and_iff_left fun heq => hkey ?_
        rw [← h.orders.key_eq heq, hdoc]
    · exact fun hget' => h.key_eq (get?_erase_eq_some.mp hget').2
    · exact fun hmem => h.sortable ((mem_eraseSorted h.ascending).mp hmem).1

/-- Erasing takes a document out of the sorted set. -/
theorem erase_sortedSet (h' : set'.Sorted order p)
    (hindex : set'.index = set.index.erase doc.key) {l₁ l₂ : List Document}
    (hsplit : set.sortedSet = l₁ ++ doc :: l₂) : set'.sortedSet = l₁ ++ l₂ := by
  have hasc : Ascending order (l₁ ++ doc :: l₂) := hsplit ▸ h.ascending
  have hget : ∀ {doc'}, doc' ∈ l₁ ++ doc :: l₂ ↔ set.index.get? doc'.key = some doc' := by
    intro doc'
    rw [← hsplit, h.mem_iff]
  have hsublist : (l₁ ++ l₂).Sublist (l₁ ++ doc :: l₂) :=
    (List.Sublist.refl _).append (sublist_cons_self _ _)
  have hnotMem : doc ∉ l₁ ++ l₂ := by
    have hnodup : (l₁ ++ doc :: l₂).Nodup := hasc.imp Ascending.ne_of_lt
    exact (nodup_cons.mp (nodup_middle.mp hnodup)).1
  refine h'.ascending.ext (hasc.sublist hsublist) fun doc' => ?_
  rw [h'.mem_iff, hindex, get?_erase]
  split_ifs with hkey
  · refine ⟨nofun, fun hmem => absurd ?_ hnotMem⟩
    have hdoc : doc' = doc := by
      have hget' := hget.mp (hsublist.subset hmem)
      rw [hkey, hget.mp (mem_append_right _ mem_cons_self)] at hget'
      exact (Option.some.inj hget').symm
    exact hdoc ▸ hmem
  · have hne : doc' ≠ doc := fun heq => hkey (congrArg _ heq)
    rw [← hget, mem_append, mem_cons, or_iff_right hne, mem_append]

/-- Inserting a document that the comparator can compare does not abort. -/
theorem insert_ok (hp : p doc) :
    ∃ set', set.insert (some doc) = .ok set' ∧ set'.comparator = set.comparator ∧
      set'.index = set.index.insert doc.key doc ∧ set'.Sorted order p := by
  obtain ⟨removed, hok, hcmp, hindex, hremoved⟩ := h.erase_ok doc.key
  unfold DocumentSet.insert
  dsimp only
  rw [hok, ok_bind, ← hcmp,
    insertSortedM_eq fun doc' hmem => hremoved.orders.compare_eq hp (hremoved.sortable hmem)]
  have hget : ∀ key, (removed.index.insert doc.key doc).get? key =
      if key = doc.key then some doc else set.index.get? key := by
    intro key
    rw [get?_insert, hindex, get?_erase]
    split_ifs <;> rfl
  refine ⟨_, rfl, rfl, ext_get? fun key => ?_, hremoved.orders,
    hremoved.ascending.insertSorted doc, ?_, ?_, ?_⟩
  · rw [hget, get?_insert]
    split_ifs <;> rfl
  · intro doc'
    rw [mem_insertSorted hremoved.ascending, hget, hremoved.mem_iff, hindex, get?_erase]
    split_ifs with hkey
    · rw [Option.some_inj, eq_comm]
      exact or_iff_left fun hmem => nomatch hmem.1
    · have hne : doc' ≠ doc := fun heq => hkey (congrArg _ heq)
      have hcompare : order doc doc' ≠ .eq := fun heq => hkey (h.orders.key_eq heq).symm
      rw [or_iff_right hne]
      exact and_iff_left hcompare
  · intro key doc' hget'
    rw [hget] at hget'
    split_ifs at hget' with hkey
    · rw [← Option.some.inj hget', hkey]
    · exact h.key_eq hget'
  · intro doc' hmem
    rcases (mem_insertSorted hremoved.ascending).mp hmem with rfl | ⟨hmem, -⟩
    · exact hp
    · exact hremoved.sortable hmem

/-- The documents in order have different keys. -/
theorem nodup_keys : (set.sortedSet.map (·.key)).Nodup := by
  refine pairwise_map.mpr (h.ascending.imp_of_mem fun {a b} ha hb hlt hkey => ?_)
  have hget := h.mem_iff.mp ha
  rw [hkey, h.mem_iff.mp hb] at hget
  exact Ascending.ne_of_lt hlt (Option.some.inj hget).symm

/-- The index of a key is the position of its document. -/
theorem indexOf_eq (key : DocumentKey) :
    set.indexOf key = .ok (set.sortedSet.findIdx? (·.key = key)) := by
  have hkeys : ∀ doc' ∈ set.sortedSet, set.index.get? doc'.key = some doc' :=
    fun _ => h.mem_iff.mp
  unfold indexOf getDocument
  cases hget : set.index.get? key with
  | none =>
    refine congrArg _ (findIdx?_eq_none_iff.mpr fun doc' hmem => ?_).symm
    refine decide_eq_false fun hkey => ?_
    have hsame := hkeys doc' hmem
    rw [hkey, hget] at hsame
    cases hsame
  | some doc =>
    have hdoc := h.key_eq hget
    have hp := h.sortable_of_get? hget
    have hcompare : ∀ doc' ∈ set.sortedSet, set.comparator doc doc' = .ok (order doc doc') ∧
        (order doc doc' = .eq ↔ doc'.key = key) := by
      intro doc' hmem
      refine ⟨h.orders.compare_eq hp (h.sortable hmem), fun heq => ?_, fun hkey => ?_⟩
      · rw [← h.orders.key_eq heq, hdoc]
      · have hsame := hkeys doc' hmem
        rw [hkey, hget] at hsame
        rw [Option.some.inj hsame]
        exact Std.ReflCmp.compare_self
    dsimp only
    generalize set.sortedSet = docs at hcompare
    induction docs with
    | nil => rfl
    | cons doc' docs ih =>
      obtain ⟨⟨hok, heq⟩, hrest⟩ := forall_mem_cons.mp hcompare
      rw [findIndexM, hok, ok_bind, findIdx?_cons]
      by_cases hkey : doc'.key = key
      · rw [if_pos (heq.mpr hkey), decide_eq_true hkey]
        rfl
      · rw [if_neg (mt heq.mp hkey), decide_eq_false hkey, ih hrest]
        rfl

end

end Sorted

/-! ## Histories -/

inductive Op where
  | insert (document : Option Document)
  | erase (key : DocumentKey)

def apply (set : DocumentSet) : Op → Hard DocumentSet
  | .insert document => set.insert document
  | .erase key => set.erase key

def Op.contents (documents : OrdMap DocumentKey Document) : Op → OrdMap DocumentKey Document
  | .insert document => document.elim documents fun doc => documents.insert doc.key doc
  | .erase key => documents.erase key

variable {comparator : DocumentComparator} {order : Document → Document → Ordering}
  [Std.TransCmp order]

theorem Sorted.foldlM_apply {p : Document → Prop} {set : DocumentSet} (h : set.Sorted order p)
    (hp : ∀ doc, p doc) (ops : List Op) : ∃ set', ops.foldlM apply set = .ok set' ∧
      set'.Sorted order p ∧ set'.index = ops.foldl Op.contents set.index := by
  induction ops generalizing set with
  | nil => exact ⟨set, rfl, h, rfl⟩
  | cons op ops ih =>
    obtain ⟨set₁, hok, h₁, hindex⟩ : ∃ set₁, set.apply op = .ok set₁ ∧ set₁.Sorted order p ∧
        set₁.index = op.contents set.index := by
      cases op with
      | insert document =>
        cases document with
        | none => exact ⟨set, rfl, h, rfl⟩
        | some doc =>
          obtain ⟨set', hok, -, hindex, h'⟩ := h.insert_ok (hp doc)
          exact ⟨set', hok, h', hindex⟩
      | erase key =>
        obtain ⟨set', hok, -, hindex, h'⟩ := h.erase_ok key
        exact ⟨set', hok, h', hindex⟩
    obtain ⟨set₂, hrest, h₂, hindex₂⟩ := ih h₁
    refine ⟨set₂, ?_, h₂, by rw [hindex₂, hindex, foldl_cons]⟩
    rw [foldlM_cons, hok, ok_bind, hrest]

/-- After every history the index has the documents that the history leaves, the sorted set has the
same ones in order and one for each key, and the index of a key is the position of its document. -/
theorem documentSet_history (h : comparator.Orders order fun _ => True) (ops : List Op) :
    ∃ set, ops.foldlM apply (.empty comparator) = .ok set ∧
      set.index = ops.foldl Op.contents .empty ∧
      (∀ doc, doc ∈ set.sortedSet ↔ set.index.get? doc.key = some doc) ∧
      (∀ key doc, set.index.get? key = some doc → doc.key = key) ∧
      (set.sortedSet.map (·.key)).Nodup ∧
      set.sortedSet.Pairwise (fun a b => order a b = .lt) ∧
      ∀ key, set.indexOf key = .ok (set.sortedSet.findIdx? (·.key = key)) := by
  obtain ⟨set, hok, hset, hindex⟩ := (Sorted.empty h).foldlM_apply (fun _ => trivial) ops
  exact ⟨set, hok, hindex, fun _ => hset.mem_iff, fun _ _ => hset.key_eq, hset.nodup_keys,
    hset.ascending, hset.indexOf_eq⟩

abbrev byVersion : Document → Document → Ordering :=
  compareLex (compareOn Document.version) (compareOn Document.key)

theorem valid_later : ((0 : Int32) ≤ 0 ∧ (0 : Int32) < kNanosPerSecond) ∧
    -62135596800 ≤ (1 : Int64) ∧ (1 : Int64) < 253402300800 := by
  decide

def later : SnapshotVersion := ⟨⟨1, 0, valid_later⟩⟩

def room (id : String) (version : SnapshotVersion) : Document :=
  ⟨[], .inCollection (ascii "rooms") (ascii id), version, .synced⟩

/-- The first of three documents is inserted again at a later version, and another one erased. -/
def reinsertion : List Op :=
  [.insert (some (room "a" .none)), .insert (some (room "b" .none)),
    .insert (some (room "c" .none)), .insert (some (room "a" later)), .erase (room "c" .none).key]

theorem documentSet_history_reinsertion : ∃ set,
    reinsertion.foldlM apply (.empty fun a b => .ok (byVersion a b)) = .ok set ∧
    set.sortedSet = [room "b" .none, room "a" later] ∧
    set.indexOf (room "a" later).key = .ok (some 1) := by
  have horders : DocumentComparator.Orders (fun a b => .ok (byVersion a b)) byVersion
      fun _ => True :=
    ⟨fun _ _ => rfl, fun h => compare_eq_iff_eq.mp (Ordering.then_eq_eq.mp h).2⟩
  obtain ⟨set, hok, -, -, -, -, -, hindexOf⟩ := documentSet_history horders reinsertion
  have hset : set.sortedSet = [room "b" .none, room "a" later] := by
    cases hok
    rfl
  refine ⟨set, hok, hset, (hindexOf _).trans ?_⟩
  rw [hset]
  decide

end DocumentSet

end Firebase.Firestore.Model
