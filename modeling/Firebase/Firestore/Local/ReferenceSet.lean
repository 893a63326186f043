import Firebase.Lib.OrdMap
import Firebase.Firestore.Model.DocumentKey

/-!
# `ReferenceSet`

A set of references from targets or batches to documents (`reference_set.cc`).  It is kept twice,
sorted by key and sorted by id.

The two sets have the same members: this is a field of the structure, and `Mem` reads
the references off the first one.  The sorted sets of the source are ordered maps to
`Unit` here.  Ids are integers, and the one computation with them is cut to 32 bits
(`nextId`).
-/

namespace Firebase.Firestore.Local

open Lib Model OrdMap
open Prod.Lex (le_iff lt_iff)

/-- `ReferenceSet`: `DocumentKeyReference`s by key and id, and by id and key. -/
structure ReferenceSet where
  byKey : OrdMap (DocumentKey ×ₗ Int) Unit
  byId : OrdMap (Int ×ₗ DocumentKey) Unit
  mirror : ∀ key id, byKey.get? (toLex (key, id)) = byId.get? (toLex (id, key))

namespace ReferenceSet

def Mem (set : ReferenceSet) (key : DocumentKey) (id : Int) : Prop :=
  set.byKey.get? (toLex (key, id)) = some ()

variable {set : ReferenceSet} {key : DocumentKey} {id : Int}

def empty : ReferenceSet := ⟨.empty, .empty, fun _ _ => rfl⟩

theorem not_mem_empty (key : DocumentKey) (id : Int) : ¬ empty.Mem key id := by
  simp [Mem, empty]

section

variable (set : ReferenceSet)

def addReference (key : DocumentKey) (id : Int) : ReferenceSet where
  byKey := set.byKey.insert (toLex (key, id)) ()
  byId := set.byId.insert (toLex (id, key)) ()
  mirror key' id' := by
    simp [get?_insert, set.mirror, and_comm]

def removeReference (key : DocumentKey) (id : Int) : ReferenceSet where
  byKey := set.byKey.erase (toLex (key, id))
  byId := set.byId.erase (toLex (id, key))
  mirror key' id' := by
    simp [get?_erase, set.mirror, and_comm]

/-- `id + 1` in the `int` of the source, wrapping around at the largest one. -/
def nextId (id : Int) : Int := (id + 1).bmod (2 ^ 32)

/-- `SortedSet::values_in` of the references by id, between `start` and `end`. -/
def valuesInById (start stop : Int ×ₗ DocumentKey) : List (Int ×ₗ DocumentKey) :=
  (set.byId.entries.filter fun e => start ≤ e.1 ∧ e.1 < stop).map Prod.fst

/-- `ReferenceSet::RemoveReferences` of an id, with the keys that were referenced. -/
def removeReferences (id : Int) : ReferenceSet × List DocumentKey :=
  let removed := set.valuesInById (toLex (id, DocumentKey.empty))
    (toLex (nextId id, DocumentKey.empty))
  (removed.foldl (fun set reference => set.removeReference (ofLex reference).2 (ofLex reference).1)
    set, removed.map fun reference => (ofLex reference).2)

/-- `ReferenceSet::ContainsKey`: the first reference that is not below the key with id zero is
one to the key. -/
def containsKey (key : DocumentKey) : Bool :=
  match set.byKey.first (toLex (key, (0 : Int)) ≤ ·) with
  | none => false
  | some (reference, _) => (ofLex reference).1 == key

end

/-- A key is contained if something with an id that is not negative refers to it. -/
theorem containsKey_iff : set.containsKey key ↔ ∃ id, 0 ≤ id ∧ set.Mem key id := by
  rw [containsKey]
  cases hfirst : set.byKey.first (toLex (key, 0) ≤ ·) with
  | none =>
    rw [first_eq_none_iff] at hfirst
    refine iff_of_false (by simp) ?_
    rintro ⟨id, hid, hmem⟩
    have hle : toLex (key, 0) ≤ toLex (key, id) := le_iff.mpr (.inr ⟨rfl, hid⟩)
    exact absurd ((hfirst _ hle).symm.trans hmem) (by simp)
  | some e =>
    obtain ⟨hget, hle, hbelow⟩ := first_eq_some_iff.mp hfirst
    simp only [beq_iff_eq]
    constructor
    · rintro hkey
      refine ⟨(ofLex e.1).2, ?_, ?_⟩
      · rcases le_iff.mp hle with hlt | ⟨-, hid⟩
        · exact absurd hkey hlt.ne'
        · exact hid
      · rw [← hkey]
        exact hget
    · rintro ⟨id, hid, hmem⟩
      -- The reference that was found lies between the key with id zero and the one at hand.
      have hle' : e.1 ≤ toLex (key, id) := by
        by_contra hlt
        have hrange : toLex (key, 0) ≤ toLex (key, id) :=
          le_iff.mpr (.inr ⟨rfl, hid⟩)
        exact absurd ((hbelow _ (not_le.mp hlt) hrange).symm.trans hmem) (by simp)
      have h₁ : key ≤ (ofLex e.1).1 := by
        rcases le_iff.mp hle with hlt | ⟨heq, -⟩
        · exact hlt.le
        · exact heq.le
      have h₂ : (ofLex e.1).1 ≤ key := by
        rcases le_iff.mp hle' with hlt | ⟨heq, -⟩
        · exact hlt.le
        · exact heq.le
      exact le_antisymm h₂ h₁

/-! ## Histories -/

variable {key' : DocumentKey} {id' : Int}

theorem mem_addReference :
    (set.addReference key id).Mem key' id' ↔ (key' = key ∧ id' = id) ∨ set.Mem key' id' := by
  simp only [Mem, addReference, get?_insert, toLex_inj, Prod.mk.injEq]
  split_ifs with h <;> simp [h]

theorem mem_removeReference :
    (set.removeReference key id).Mem key' id' ↔ set.Mem key' id' ∧ ¬ (key' = key ∧ id' = id) := by
  simp only [Mem, removeReference, get?_erase, toLex_inj, Prod.mk.injEq]
  split_ifs with h <;> simp [h]

theorem mem_byId_iff : set.byId.get? (toLex (id, key)) = some () ↔ set.Mem key id := by
  rw [Mem, set.mirror]

def HasNext (id : Int) : Prop := -2 ^ 31 ≤ id ∧ id < 2 ^ 31 - 1

theorem HasNext.nextId_eq (h : HasNext id) : nextId id = id + 1 := by
  obtain ⟨hlow, hhigh⟩ := h
  exact Int.bmod_eq_of_le (by omega) (by omega)

/-- The range between an id and the next one has the references of the id. -/
theorem mem_valuesInById (hnext : HasNext id) {reference : Int ×ₗ DocumentKey} :
    reference ∈ set.valuesInById (toLex (id, .empty)) (toLex (nextId id, .empty)) ↔
      set.Mem (ofLex reference).2 id ∧ (ofLex reference).1 = id := by
  rw [hnext.nextId_eq]
  have hempty : ∀ key, DocumentKey.empty ≤ key := fun key => le_of_isPrefixOf List.nil_prefix
  have hrange : toLex (id, DocumentKey.empty) ≤ reference ∧
      reference < toLex (id + 1, DocumentKey.empty) ↔ (ofLex reference).1 = id := by
    rw [le_iff, lt_iff]
    constructor
    · rintro ⟨hge, hlt | ⟨-, hlt⟩⟩
      · change (ofLex reference).1 < id + 1 at hlt
        change id < (ofLex reference).1 ∨ id = (ofLex reference).1 ∧ _ at hge
        omega
      · exact absurd hlt (hempty _).not_gt
    · rintro rfl
      exact ⟨.inr ⟨rfl, hempty _⟩, .inl (lt_add_one _)⟩
  simp only [valuesInById, List.mem_map, List.mem_filter, decide_eq_true_eq]
  constructor
  · rintro ⟨⟨reference, u⟩, ⟨hget, hin⟩, rfl⟩
    obtain rfl := hrange.mp hin
    exact ⟨mem_byId_iff.mp (mem_entries.mp hget), rfl⟩
  · rintro ⟨hmem, rfl⟩
    exact ⟨(reference, ()), ⟨mem_entries.mpr (mem_byId_iff.mpr hmem), hrange.mpr rfl⟩, rfl⟩

theorem mem_foldl_removeReference (references : List (Int ×ₗ DocumentKey)) :
    (references.foldl (fun set reference =>
      set.removeReference (ofLex reference).2 (ofLex reference).1) set).Mem key' id' ↔
      set.Mem key' id' ∧ toLex (id', key') ∉ references := by
  induction references generalizing set with
  | nil => simp
  | cons reference references ih =>
    rw [List.foldl_cons, ih, mem_removeReference, List.mem_cons, not_or, and_assoc]
    refine and_congr_right fun _ => and_congr_left fun _ => not_congr ?_
    rw [← ofLex_inj, Prod.ext_iff, and_comm]
    rfl

/-- All references of the id go, and their keys are returned. -/
theorem mem_removeReferences (hnext : HasNext id) :
    ((set.removeReferences id).1.Mem key' id' ↔ set.Mem key' id' ∧ id' ≠ id) ∧
      (key' ∈ (set.removeReferences id).2 ↔ set.Mem key' id) := by
  constructor
  · rw [removeReferences, mem_foldl_removeReference, mem_valuesInById hnext]
    refine and_congr_right fun hmem => not_congr ⟨And.right, ?_⟩
    rintro rfl
    exact ⟨hmem, rfl⟩
  · simp only [removeReferences, List.mem_map, mem_valuesInById hnext]
    constructor
    · rintro ⟨reference, ⟨hmem, -⟩, rfl⟩
      exact hmem
    · exact fun hmem => ⟨toLex (id, key'), ⟨hmem, rfl⟩, rfl⟩

end ReferenceSet

inductive ReferenceOp where
  | addReference (key : DocumentKey) (id : Int)
  | removeReference (key : DocumentKey) (id : Int)
  | removeReferences (id : Int)

namespace ReferenceOp

def apply (set : ReferenceSet) : ReferenceOp → ReferenceSet
  | addReference key id => set.addReference key id
  | removeReference key id => set.removeReference key id
  | removeReferences id => (set.removeReferences id).1

def references (pairs : Set (DocumentKey × Int)) : ReferenceOp → Set (DocumentKey × Int)
  | addReference key id => insert (key, id) pairs
  | removeReference key id => pairs \ {(key, id)}
  | removeReferences id => {pair ∈ pairs | pair.2 ≠ id}

/-- What is added has an id that is not negative, and the ids have a next one. -/
def Proper : ReferenceOp → Prop
  | addReference _ id => 0 ≤ id ∧ ReferenceSet.HasNext id
  | removeReference _ _ => True
  | removeReferences id => ReferenceSet.HasNext id

variable {set : ReferenceSet} {pairs : Set (DocumentKey × Int)} {ops : List ReferenceOp}

theorem mem_apply (h : ∀ key id, set.Mem key id ↔ (key, id) ∈ pairs) {op : ReferenceOp}
    (hop : op.Proper) (key : DocumentKey) (id : Int) :
    (apply set op).Mem key id ↔ (key, id) ∈ references pairs op := by
  cases op with
  | addReference key' id' =>
    rw [apply, ReferenceSet.mem_addReference, h, references, Set.mem_insert_iff, Prod.mk.injEq]
  | removeReference key' id' =>
    rw [apply, ReferenceSet.mem_removeReference, h, references, Set.mem_sdiff,
      Set.mem_singleton_iff, Prod.mk.injEq]
  | removeReferences id' =>
    rw [apply, (ReferenceSet.mem_removeReferences hop).1, h]
    rfl

theorem mem_foldl (h : ∀ key id, set.Mem key id ↔ (key, id) ∈ pairs)
    (hids : ∀ op ∈ ops, op.Proper) (key : DocumentKey) (id : Int) :
    (ops.foldl apply set).Mem key id ↔ (key, id) ∈ ops.foldl references pairs := by
  induction ops generalizing set pairs with
  | nil => exact h key id
  | cons op ops ih =>
    obtain ⟨hop, hops⟩ := List.forall_mem_cons.mp hids
    exact ih (mem_apply h hop) hops

theorem nonneg_foldl (hids : ∀ op ∈ ops, op.Proper) (h : ∀ pair ∈ pairs, 0 ≤ pair.2) :
    ∀ pair ∈ ops.foldl references pairs, 0 ≤ pair.2 := by
  induction ops generalizing pairs with
  | nil => exact h
  | cons op ops ih =>
    obtain ⟨hop, hops⟩ := List.forall_mem_cons.mp hids
    refine ih hops ?_
    cases op with
    | addReference key id => exact Set.forall_mem_insert.mpr ⟨hop.1, h⟩
    | removeReference key id => exact fun pair hpair => h pair hpair.1
    | removeReferences id => exact fun pair hpair => h pair hpair.1

/-- After every history the two sets have the references that the history leaves, removing an id
removes and returns its keys, and a key is contained if something refers to it. -/
theorem referenceSet_history (hids : ∀ op ∈ ops, op.Proper) :
    (∀ key id, (ops.foldl apply .empty).byKey.get? (toLex (key, id)) = some () ↔
      (key, id) ∈ ops.foldl references ∅) ∧
    (∀ key id, (ops.foldl apply .empty).byId.get? (toLex (id, key)) = some () ↔
      (key, id) ∈ ops.foldl references ∅) ∧
    (∀ id, ReferenceSet.HasNext id →
      (∀ key, key ∈ ((ops.foldl apply .empty).removeReferences id).2 ↔
        (key, id) ∈ ops.foldl references ∅) ∧
      ∀ key id', ((ops.foldl apply .empty).removeReferences id).1.Mem key id' ↔
        (key, id') ∈ ops.foldl references ∅ ∧ id' ≠ id) ∧
    ∀ key, (ops.foldl apply .empty).containsKey key ↔ ∃ id, (key, id) ∈ ops.foldl references ∅ := by
  have hmem := @mem_foldl .empty ∅ ops (fun key id =>
    iff_of_false (ReferenceSet.not_mem_empty key id) (Set.notMem_empty _)) hids
  refine ⟨hmem, fun key id => ReferenceSet.mem_byId_iff.trans (hmem key id),
    fun id hnext => ⟨fun key => ?_, fun key id' => ?_⟩, fun key => ?_⟩
  · exact (@ReferenceSet.mem_removeReferences _ id key id hnext).2.trans (hmem key id)
  · rw [(ReferenceSet.mem_removeReferences hnext).1, hmem]
  · rw [ReferenceSet.containsKey_iff]
    refine exists_congr fun id => ?_
    rw [hmem]
    exact and_iff_right_of_imp (nonneg_foldl hids (fun _ h => h.elim) _)

/-- A reference and a second one to another id, which is removed. -/
theorem referenceSet_history_two : ([addReference .empty 1, addReference .empty 2,
    removeReferences 2].foldl apply .empty).containsKey .empty := by
  refine ((referenceSet_history ?_).2.2.2 .empty).mpr ⟨1, ⟨.inr (.inl rfl), by decide⟩⟩
  simp [Proper, ReferenceSet.HasNext]

/-- Nothing below zero is found, and a reference of the largest `int` is not removed with it. -/
theorem not_containsKey_negative :
    (([addReference .empty (-1)].foldl apply .empty).Mem .empty (-1) ∧
      ([addReference .empty (-1)].foldl apply .empty).containsKey .empty = false) ∧
    ([addReference .empty (2 ^ 31 - 1), removeReferences (2 ^ 31 - 1)].foldl apply .empty).Mem
      .empty (2 ^ 31 - 1) :=
  ⟨⟨ReferenceSet.mem_addReference.mpr (.inl ⟨rfl, rfl⟩), rfl⟩, rfl⟩

end ReferenceOp

end Firebase.Firestore.Local
