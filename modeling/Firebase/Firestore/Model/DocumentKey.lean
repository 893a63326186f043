import Mathlib.Data.Finset.Sort
import Mathlib.Order.Hom.Lex
import Firebase.Firestore.Util.HardAssert
import Firebase.Firestore.Util.OrderedCode

/-!
# Paths, document keys and versions

The names that the local store files its rows under: `model::ResourcePath`
(`base_path.h`), `model::DocumentKey` (`document_key.cc`) and
`model::SnapshotVersion` over `Timestamp` (`timestamp.cc`).

`DocumentKey` and `Timestamp` assert their invariant in every constructor of the
source.  Here the invariant is a field; where the source builds a timestamp from
numbers that it has not checked, `Timestamp.make` is the asserting constructor.
-/

namespace Firebase.Firestore

open Lib Util List

variable {key : DocumentKey}

namespace Model

/-! ## Paths -/

/-- `model::ResourcePath`: the segments of the path.  `CompareTo` is the
lexicographic order on the segments, which in turn compare bytewise. -/
abbrev ResourcePath := List Bytes

namespace ResourcePath

def isPrefixOf (path rhs : ResourcePath) : Bool :=
  path.length ≤ rhs.length && rhs.take path.length == path

def isImmediateParentOf (path potentialChild : ResourcePath) : Bool :=
  path.length + 1 == potentialChild.length && potentialChild.take path.length == path

def popLast (path : ResourcePath) : Hard ResourcePath :=
  if path.isEmpty then .error ⟨"Cannot call PopLast() on empty path"⟩ else .ok path.dropLast

theorem isPrefixOf_iff {path rhs : ResourcePath} : isPrefixOf path rhs ↔ path <+: rhs := by
  rw [isPrefixOf, Bool.and_eq_true, decide_eq_true_iff, beq_iff_eq, prefix_iff_eq_take]
  constructor
  · exact fun h => h.2.symm
  · intro h
    refine ⟨?_, h.symm⟩
    rw [h, length_take]
    exact min_le_right _ _

variable {path child : ResourcePath}

theorem isImmediateParentOf_iff :
    isImmediateParentOf path child ↔ ∃ segment, child = path ++ [segment] := by
  rw [isImmediateParentOf, Bool.and_eq_true, beq_iff_eq, beq_iff_eq]
  constructor
  · rintro ⟨hlen, htake⟩
    have hdrop : (child.drop path.length).length = 1 := by simp; omega
    obtain ⟨segment, hseg⟩ := length_eq_one_iff.mp hdrop
    have hsplit := take_append_drop path.length child
    rw [htake, hseg] at hsplit
    exact ⟨segment, hsplit.symm⟩
  · rintro ⟨segment, rfl⟩
    simp

theorem isImmediateParentOf_iff_isPrefixOf :
    isImmediateParentOf path child ↔ isPrefixOf path child ∧ child.length = path.length + 1 := by
  simp only [isImmediateParentOf, isPrefixOf, Bool.and_eq_true, beq_iff_eq, decide_eq_true_eq]
  constructor
  · rintro ⟨hlength, htake⟩
    exact ⟨⟨by omega, htake⟩, hlength.symm⟩
  · rintro ⟨⟨-, htake⟩, hlength⟩
    exact ⟨hlength.symm, htake⟩

theorem isPrefixOf_of_isImmediateParentOf
    (h : isImmediateParentOf path child) : path <+: child := by
  obtain ⟨segment, rfl⟩ := isImmediateParentOf_iff.mp h
  exact prefix_append path _

end ResourcePath

/-! ## Document keys -/

@[ext] structure DocumentKey where
  path : ResourcePath
  /-- `AssertValidPath`. -/
  isDocumentKey : path.length % 2 = 0
deriving DecidableEq

namespace DocumentKey

def empty : DocumentKey := ⟨[], rfl⟩

def inCollection (collectionId documentId : Bytes) : DocumentKey :=
  ⟨[collectionId, documentId], by simp⟩

def hasCollectionId (key : DocumentKey) (collectionId : Bytes) : Bool :=
  2 ≤ key.path.length && key.path[key.path.length - 2]? == some collectionId

/-- A document has the collection id exactly if that is the segment before its name. -/
theorem hasCollectionId_iff {collectionId : Bytes} :
    key.hasCollectionId collectionId ↔ ∃ parent name, key.path =
      parent ++ [collectionId, name] := by
  rw [hasCollectionId, Bool.and_eq_true, decide_eq_true_eq, beq_iff_eq]
  constructor
  · rintro ⟨hlength, hget⟩
    obtain ⟨hlt, hget⟩ := List.getElem?_eq_some_iff.mp hget
    have hdrop : (key.path.drop (key.path.length - 1)).length = 1 := by
      rw [length_drop]
      omega
    obtain ⟨name, hname⟩ := length_eq_one_iff.mp hdrop
    refine ⟨key.path.take (key.path.length - 2), name, ?_⟩
    have hsplit := take_append_drop (key.path.length - 2) key.path
    rw [drop_eq_getElem_cons hlt, hget,
      show key.path.length - 2 + 1 = key.path.length - 1 by omega, hname] at hsplit
    exact hsplit.symm
  · rintro ⟨parent, name, hpath⟩
    rw [hpath]
    simp

theorem path_injective : Function.Injective path := fun _ _ => DocumentKey.ext

/-- `DocumentKey::CompareTo` compares the paths. -/
instance : LinearOrder DocumentKey := LinearOrder.lift' path path_injective

instance isTrans_le : IsTrans DocumentKey (· ≤ ·) := inferInstance

instance antisymm_le : Std.Antisymm fun a b : DocumentKey => a ≤ b := inferInstance

/-- No key below a collection is before the one with the empty segment. -/
theorem append_empty_le {path : ResourcePath} (hpath : path.length % 2 = 1)
    (hkey : path <+: key.path) : path ++ [[]] ≤ key.path := by
  obtain ⟨rest, hrest⟩ := hkey
  have heven := key.isDocumentKey
  cases rest with
  | nil =>
    rw [← hrest, append_nil] at heven
    omega
  | cons segment rest =>
    rw [← hrest]
    refine append_le_append (cons_le_cons.mpr ?_) path
    cases segment with
    | nil => exact .inr ⟨rfl, le_of_isPrefixOf nil_prefix⟩
    | cons byte segment => exact .inl (nil_lt_cons byte segment)

end DocumentKey

/-- `model::DocumentKeySet`.  Loops over it go through `Finset.sort`, the keys in their order. -/
abbrev DocumentKeySet := Finset DocumentKey

/-! ## Versions -/

def kNanosPerSecond : Int32 := 1000000000

@[ext] structure Timestamp where
  seconds : Int64
  nanoseconds : Int32
  /-- `Timestamp::ValidateBounds`. -/
  validBounds : (0 ≤ nanoseconds ∧ nanoseconds < kNanosPerSecond) ∧
    -62135596800 ≤ seconds ∧ seconds < 253402300800
deriving DecidableEq

namespace Timestamp

def make (seconds : Int64) (nanoseconds : Int32) : Hard Timestamp :=
  if hn : 0 ≤ nanoseconds ∧ nanoseconds < kNanosPerSecond then
    if hs : -62135596800 ≤ seconds ∧ seconds < 253402300800 then
      .ok ⟨seconds, nanoseconds, hn, hs⟩
    else .error ⟨"Timestamp seconds out of range: " ++ toString seconds⟩
  else .error ⟨"Timestamp nanoseconds out of range: " ++ toString nanoseconds⟩

@[simp] theorem make_eq (t : Timestamp) : make t.seconds t.nanoseconds = .ok t := by
  rw [make, dif_pos t.validBounds.1, dif_pos t.validBounds.2]

def components (t : Timestamp) : Int64 ×ₗ Int32 := toLex (t.seconds, t.nanoseconds)

theorem components_injective : Function.Injective components := by
  intro a b hab
  have h := congrArg ofLex hab
  exact Timestamp.ext (congrArg Prod.fst h) (congrArg Prod.snd h)

instance : LinearOrder Timestamp := LinearOrder.lift' components components_injective

theorem components_strictMono : StrictMono components := fun _ _ h => h

end Timestamp

@[ext] structure SnapshotVersion where
  timestamp : Timestamp
deriving DecidableEq

namespace SnapshotVersion

def none : SnapshotVersion := ⟨⟨0, 0, by decide⟩⟩

theorem timestamp_injective : Function.Injective timestamp := fun _ _ => SnapshotVersion.ext

/-- `SnapshotVersion::CompareTo`. -/
instance : LinearOrder SnapshotVersion := LinearOrder.lift' timestamp timestamp_injective

theorem timestamp_strictMono : StrictMono timestamp := fun _ _ h => h

end SnapshotVersion

end Model

end Firebase.Firestore
