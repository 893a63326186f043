import Firebase.Database.Node

/-!
# Hashes of data

`dataHash` of `FChildrenNode` (`FChildrenNode.m`) and `FLeafNode` (`FLeafNode.m`).  The children are
enumerated in the order of their keys and only sorted by priority if `sawPriority` is set, which is
done by a child that has no priority.
-/

namespace Firebase.Database

open Lib Std List

/-! ## Keys -/

/-- The characters of a key, as an `NSString` has them. -/
def Key.units (key : Key) : List Nat :=
  key.toList.flatMap fun c =>
    if c.toNat < 0x10000 then [c.toNat]
    else [0xd800 + (c.toNat - 0x10000) / 0x400, 0xdc00 + (c.toNat - 0x10000) % 0x400]

def parseDigits (value : Int) : List Nat → Option Int
  | [] => some value
  | c :: cs => if c < 48 ∨ c > 57 then none else parseDigits (value * 10 + (c - 48)) cs

def tryParseStringToInt (str : List Nat) : Option Int := do
  if str.length > 11 ∨ str.length = 0 then none
  let negative := str.head? = some 45
  if negative ∧ str.length = 1 then none
  let value ← parseDigits 0 (if negative then str.drop 1 else str)
  let value := if negative then -value else value
  if value < -2147483648 ∨ value > 2147483647 then none else some value

/-- `compareKey:toKey:`, for keys other than `minName` and `maxName`, which no data has: integers
of 32 bits come first. -/
def compareKey (a b : Key) : Ordering :=
  match tryParseStringToInt a.units, tryParseStringToInt b.units with
  | some aAsInt, some bAsInt =>
    compareLex (compareOn Prod.fst) (compareOn Prod.snd) (aAsInt, a.units.length)
      (bAsInt, b.units.length)
  | some _, none => .lt
  | none, some _ => .gt
  | none, none => compare a.units b.units

instance transCmp_compareKey : TransCmp compareKey where
  eq_swap {a b} := by
    unfold compareKey
    cases tryParseStringToInt a.units <;> cases tryParseStringToInt b.units <;> dsimp only
    case none.none => exact OrientedOrd.eq_swap
    case some.some => exact OrientedCmp.eq_swap
    all_goals rfl
  isLE_trans {a b c} := by
    unfold compareKey
    cases tryParseStringToInt a.units <;> cases tryParseStringToInt b.units <;>
      cases tryParseStringToInt c.units <;> dsimp only
    case none.none.none => exact TransOrd.isLE_trans
    case some.some.some => exact TransCmp.isLE_trans
    all_goals intro hab hbc; first | rfl | contradiction

/-! ## Children -/

structure HashedChild (L : Type) where
  name : Key
  priority : Option L
  dataHash : String

variable {L : Type} [Ord L]

/-- `compareNamedNode:toNamedNode:` of `FPriorityIndex`.  The order of leaves is that of `L`, and
a child without a priority comes before those with one. -/
def compareNamedNode : HashedChild L → HashedChild L → Ordering :=
  compareLex (compareOn HashedChild.priority) (Ordering.byKey HashedChild.name compareKey)

def listedChildren (children : List (HashedChild L)) : List (HashedChild L) :=
  let sawPriority := children.any fun child => child.priority.isNone
  let array := if sawPriority then children.insertionSort fun a b => (compareNamedNode a b).isLE
    else children
  array.filter fun child => child.dataHash ≠ ""

abbrev InPriorityOrder (children : List (HashedChild L)) : Prop :=
  children.Pairwise fun a b => (compareNamedNode a b).isLE

theorem inPriorityOrder_insertionSort [TransOrd L] (children : List (HashedChild L)) :
    InPriorityOrder (children.insertionSort fun a b => (compareNamedNode a b).isLE) := by
  have htrans : TransCmp (compareNamedNode (L := L)) := inferInstanceAs (TransCmp (compareLex _ _))
  have htotal : Std.Total fun a b : HashedChild L => (compareNamedNode a b).isLE := by
    refine ⟨fun a b => ?_⟩
    have hswap : compareNamedNode a b = (compareNamedNode b a).swap := OrientedCmp.eq_swap
    rw [hswap]
    cases compareNamedNode b a <;> simp
  have hle : IsTrans _ fun a b : HashedChild L => (compareNamedNode a b).isLE :=
    ⟨fun _ _ _ => TransCmp.isLE_trans⟩
  exact pairwise_insertionSort _ _

/-! ## Nodes -/

/-- What a node is hashed with: `appendHashRepresentationForLeafNode:toString:hashVersion:` on
leaves without a priority, and `base64EncodedSha1:`. -/
structure HashFunctions (L : Type) where
  leafRepresentation : L → String
  base64EncodedSha1 : String → String

namespace HashFunctions

variable (f : HashFunctions L)

def priorityRepresentation : Option L → String
  | some priority => "priority:" ++ f.leafRepresentation priority ++ ":"
  | none => ""

/-- The hash of a node without a value, from the children as they are listed. -/
def hashOfListed (priority : Option L) (listed : List (HashedChild L)) : String :=
  let toHash := f.priorityRepresentation priority ++
    .join (listed.map fun child => ":" ++ child.name ++ ":" ++ child.dataHash)
  if toHash = "" then "" else f.base64EncodedSha1 toHash

def hashOf (label : NodeLabel L) (children : List (HashedChild L)) : String :=
  match label.value with
  | some value =>
    f.base64EncodedSha1 (f.priorityRepresentation label.priority ++ f.leafRepresentation value)
  | none => f.hashOfListed label.priority (listedChildren children)

def enumerated (children : List (Key × Option L × String)) : List (HashedChild L) :=
  (children.map fun e => ⟨e.1, e.2.1, e.2.2⟩).insertionSort fun a b =>
    (compareKey a.name b.name).isLE

def hashed : NodeTree L → Option L × String :=
  KeyTree.fold fun label children => (label.priority, f.hashOf label (enumerated children))

def dataHash (n : Node L) : String := (f.hashed n.tree).2

def children (n : Node L) : List (HashedChild L) :=
  enumerated (n.tree.children.entries.map fun e => (e.1, f.hashed e.2))

theorem dataHash_eq (n : Node L) : f.dataHash n = f.hashOf n.tree.label (f.children n) :=
  congrArg Prod.snd (KeyTree.fold_eq _ n.tree)

end HashFunctions

/-- The children that a node without a value is hashed with are listed in the order of the priority
index exactly if one of them has no priority or the order of their keys is that order already. -/
theorem inPriorityOrder_listedChildren_iff [TransOrd L] (f : HashFunctions L) (n : Node L) :
    (n.tree.label.value = none →
      f.dataHash n = f.hashOfListed n.tree.label.priority (listedChildren (f.children n))) ∧
    (InPriorityOrder (listedChildren (f.children n)) ↔
      (∃ child ∈ f.children n, child.priority = none) ∨
        InPriorityOrder ((f.children n).filter fun child => child.dataHash ≠ "")) := by
  refine ⟨fun hvalue => by rw [f.dataHash_eq, HashFunctions.hashOf, hvalue], ?_⟩
  rw [listedChildren]
  split_ifs with hsaw
  · refine iff_of_true ((inPriorityOrder_insertionSort _).filter _) (.inl ?_)
    simpa using hsaw
  · refine (or_iff_right ?_).symm
    simpa using hsaw

def rooms (priority : Option Int) : Node Int :=
  (Node.empty.updateImmediateChild "a" (.leaf 0 (some 2))).updateImmediateChild "b"
    (.leaf 0 priority)

def asText : HashFunctions Int := ⟨toString, id⟩

theorem inPriorityOrder_mixedRooms :
    InPriorityOrder (listedChildren (asText.children (rooms none))) :=
  (inPriorityOrder_listedChildren_iff asText (rooms none)).2.mpr (by decide +kernel)

theorem not_inPriorityOrder_crossedRooms :
    ¬ InPriorityOrder (listedChildren (asText.children (rooms (some 1)))) := by
  decide +kernel

end Firebase.Database
