import Firebase.Firestore.Immutable.LlrbNode
import Firebase.Firestore.Util.HardAssert

/-!
# Immutable sorted maps

`SortedMap` keeps up to `kFixedSize` entries in an array and more in a tree.  An operation makes a
new map and leaves the old ones as they are; a tree shares nodes with the trees it was made
from, so that operations go through the `Heap` of nodes.
-/

namespace Firebase.Firestore.Immutable

open Lib Util

def kFixedSize : Nat := 25

/-- The index of keys that are not found: `static_cast<uint32_t>(-1)`. -/
def npos : Nat := 2 ^ 32 - 1

/-! ## Arrays -/

/-- An array that grows up to a fixed size. -/
structure FixedArray (α : Type) where
  contents : List α
  bounded : contents.length ≤ kFixedSize
deriving Repr

namespace FixedArray

variable {α : Type}

def empty : FixedArray α := ⟨[], Nat.zero_le _⟩

def append (a : FixedArray α) (range : List α) : Hard (FixedArray α) :=
  if h : a.contents.length + range.length ≤ kFixedSize then
    .ok ⟨a.contents ++ range, by rwa [List.length_append]⟩
  else .error ⟨"new_size <= SortedMapBase::kFixedSize"⟩

end FixedArray

structure ArraySortedMap (K V : Type) where
  array : FixedArray (K × V)
deriving Repr

namespace ArraySortedMap

variable {K V : Type}

def empty : ArraySortedMap K V := ⟨.empty⟩

def contents (m : ArraySortedMap K V) : List (K × V) := m.array.contents

def size (m : ArraySortedMap K V) : Nat := m.contents.length

variable [LinearOrder K] (m : ArraySortedMap K V)

/-- `std::lower_bound`: the position of the first entry that is not before the key. -/
def lowerBound (key : K) : Nat :=
  m.contents.findIdx fun el => compare el.1 key != .lt

def find (key : K) : Nat :=
  m.contents.findIdx fun kv => compare key kv.1 == .eq

def findIndex (key : K) : Nat :=
  let found := m.find key
  if found = m.size then npos else found

def replacingEntry (pos : Nat) (key : K) : Bool :=
  match m.contents[pos]? with
  | none => false
  | some el => compare key el.1 == .eq

def insert [DecidableEq V] (m : ArraySortedMap K V) (key : K) (value : V) :
    Hard (ArraySortedMap K V) := do
  let pos := m.lowerBound key
  let replacing := m.replacingEntry pos key
  if replacing && m.contents[pos]?.map Prod.snd == some value then
    return m
  let copy ← FixedArray.empty.append (m.contents.take pos)
  let copy ← copy.append [(key, value)]
  -- Skip the entry at `pos` if it compares the same as the new one.
  let copy ← copy.append (m.contents.drop (if replacing then pos + 1 else pos))
  return ⟨copy⟩

def erase (key : K) : Hard (ArraySortedMap K V) := do
  let pos := m.find key
  if pos = m.size then
    return m
  else if m.size ≤ 1 then
    return empty
  else
    let copy ← FixedArray.empty.append (m.contents.take pos)
    let copy ← copy.append (m.contents.drop (pos + 1))
    return ⟨copy⟩

end ArraySortedMap

/-! ## Iterators over trees -/

/-- The nodes that are still to be visited, the current one first. -/
structure LlrbNodeIterator (K V : Type) where
  stack : List (LlrbTree K V)
deriving Repr

namespace LlrbNodeIterator

variable {K V : Type}

/-- `AccumulateLeft`: pushes a node and the nodes along its left links. -/
def accumulateLeft : LlrbTree K V → List (LlrbTree K V) → List (LlrbTree K V)
  | .nil _, stack => stack
  | .node e c s l r, stack =>
    if (LlrbTree.node e c s l r).empty then stack
    else accumulateLeft l (.node e c s l r :: stack)

def first (root : LlrbTree K V) : LlrbNodeIterator K V := ⟨accumulateLeft root []⟩

def last : LlrbNodeIterator K V := ⟨[]⟩

def get [Inhabited K] [Inhabited V] (it : LlrbNodeIterator K V) : Hard (K × V) :=
  match it.stack with
  | [] => .error ⟨"!is_end()"⟩
  | node :: _ => .ok node.entry

def next (it : LlrbNodeIterator K V) : Hard (LlrbNodeIterator K V) :=
  match it.stack with
  | [] => .error ⟨"!is_end()"⟩
  | node :: stack => .ok ⟨accumulateLeft node.right stack⟩

variable [LinearOrder K]

/-- `operator==`: by the keys of the current nodes. -/
def eq [Inhabited K] [Inhabited V] (a b : LlrbNodeIterator K V) : Bool :=
  match a.stack, b.stack with
  | [], [] => true
  | node :: _, node' :: _ => node.entry.1 == node'.entry.1
  | _, _ => false

def lowerBoundFrom (key : K) : LlrbTree K V → List (LlrbTree K V) → List (LlrbTree K V)
  | .nil _, stack => stack
  | .node e c s l r, stack =>
    if (LlrbTree.node e c s l r).empty then stack
    else
      match compare key e.1 with
      | .eq => .node e c s l r :: stack
      | .lt => lowerBoundFrom key l (.node e c s l r :: stack)
      | .gt => lowerBoundFrom key r stack

def lowerBound (root : LlrbTree K V) (key : K) : LlrbNodeIterator K V :=
  ⟨lowerBoundFrom key root []⟩

end LlrbNodeIterator

/-! ## Reading a tree -/

namespace TreeSortedMap

variable {K V : Type} [LinearOrder K]

def contains (key : K) : LlrbTree K V → Bool
  | .nil _ => false
  | .node e c s l r =>
    if (LlrbTree.node e c s l r).empty then false
    else
      match compare key e.1 with
      | .eq => true
      | .lt => contains key l
      | .gt => contains key r

def findIndexFrom (key : K) : LlrbTree K V → Nat → Nat
  | .nil _, _ => npos
  | .node e c s l r, prunedNodes =>
    if (LlrbTree.node e c s l r).empty then npos
    else
      match compare key e.1 with
      | .eq => prunedNodes + l.size
      | .lt => findIndexFrom key l prunedNodes
      | .gt => findIndexFrom key r (prunedNodes + (l.size + 1))

def findIndex (root : LlrbTree K V) (key : K) : Nat := findIndexFrom key root 0

def find [Inhabited K] [Inhabited V] (root : LlrbTree K V) (key : K) : LlrbNodeIterator K V :=
  let found := LlrbNodeIterator.lowerBound root key
  match found.stack with
  | [] => .last
  | node :: _ => if compare key node.entry.1 = .eq then found else .last

def maxNode : LlrbTree K V → LlrbTree K V
  | .nil c => .nil c
  | .node e c s l r => if r.empty then .node e c s l r else maxNode r

def max (root : LlrbTree K V) : LlrbNodeIterator K V :=
  if root.empty then .last else ⟨[maxNode root]⟩

end TreeSortedMap

/-! ## Maps -/

/-- A map: an array, or the root of a tree. -/
inductive SortedMap (K V : Type)
  | array (m : ArraySortedMap K V)
  | tree (root : LlrbNode)
deriving Repr

/-- A map with the links of its tree followed. -/
inductive View (K V : Type)
  | array (m : ArraySortedMap K V)
  | tree (root : LlrbTree K V)
deriving Repr

/-- An iterator: a position in an array, or an iterator over a tree. -/
inductive SortedMapIterator (K V : Type)
  | array (contents : List (K × V)) (pos : Nat)
  | tree (it : LlrbNodeIterator K V)
deriving Repr

namespace SortedMapIterator

variable {K V : Type} [Inhabited K] [Inhabited V]

/-- To read behind the end of an array is undefined. -/
def get : SortedMapIterator K V → Hard (K × V)
  | .array contents pos =>
    match contents[pos]? with
    | none => .error ⟨"undefined"⟩
    | some el => .ok el
  | .tree it => it.get

def next : SortedMapIterator K V → Hard (SortedMapIterator K V)
  | .array contents pos => .ok (.array contents (pos + 1))
  | .tree it => it.next.map .tree

def eq [LinearOrder K] : SortedMapIterator K V → SortedMapIterator K V → Bool
  | .array _ pos, .array _ pos' => pos == pos'
  | .tree it, .tree it' => it.eq it'
  | _, _ => false

/-- `for (; it != end; ++it)` with the entries that are met, for a number of rounds at most. -/
def entriesUpTo [LinearOrder K] : Nat → SortedMapIterator K V → SortedMapIterator K V →
    Hard (List (K × V))
  | 0, _, _ => .ok []
  | rounds + 1, it, last => do
    if it.eq last then
      return []
    let entry ← it.get
    let it ← it.next
    let entries ← entriesUpTo rounds it last
    return entry :: entries

end SortedMapIterator

namespace View

variable {K V : Type} [Inhabited K] [Inhabited V]

def size : View K V → Nat
  | .array m => m.size
  | .tree root => root.size

def empty (m : View K V) : Bool := m.size == 0

def first : View K V → SortedMapIterator K V
  | .array m => .array m.contents 0
  | .tree root => .tree (.first root)

def last : View K V → SortedMapIterator K V
  | .array m => .array m.contents m.size
  | .tree _ => .tree .last

def min (m : View K V) : SortedMapIterator K V := m.first

variable [LinearOrder K]

def max : View K V → SortedMapIterator K V
  | .array m => .array m.contents (if m.size = 0 then m.size else m.size - 1)
  | .tree root => .tree (TreeSortedMap.max root)

def contains (m : View K V) (key : K) : Bool :=
  match m with
  | .array m => m.find key != m.size
  | .tree root => TreeSortedMap.contains key root

def find (m : View K V) (key : K) : SortedMapIterator K V :=
  match m with
  | .array m => .array m.contents (m.find key)
  | .tree root => .tree (TreeSortedMap.find root key)

def findIndex (m : View K V) (key : K) : Nat :=
  match m with
  | .array m => m.findIndex key
  | .tree root => TreeSortedMap.findIndex root key

def get (m : View K V) (key : K) : Hard (Option V) := do
  let found := m.find key
  if found.eq m.last then
    return none
  else
    let entry ← found.get
    return some entry.2

def lowerBound (m : View K V) (key : K) : SortedMapIterator K V :=
  match m with
  | .array m => .array m.contents (m.lowerBound key)
  | .tree root => .tree (.lowerBound root key)

variable (m : View K V)

def range (it last : SortedMapIterator K V) : Hard (List (K × V)) :=
  SortedMapIterator.entriesUpTo (m.size + 1) it last

def entries : Hard (List (K × V)) := m.range m.first m.last

def keys : Hard (List K) := do
  return (← m.range m.first m.last).map Prod.fst

def keysFrom (key : K) : Hard (List K) := do
  return (← m.range (m.lowerBound key) m.last).map Prod.fst

def keysIn (startKey endKey : K) : Hard (List K) := do
  if compare startKey endKey != .lt then
    return (← m.range m.last m.last).map Prod.fst
  return (← m.range (m.lowerBound startKey) (m.lowerBound endKey)).map Prod.fst

end View

namespace SortedMap

variable {K V : Type}

def empty : SortedMap K V := .array .empty

variable [Inhabited K] [Inhabited V]

def view (m : SortedMap K V) (h : Heap K V) : View K V :=
  match m with
  | .array m => .array m
  | .tree root => .tree (h.load (h.size root + 1) root)

variable [LinearOrder K]

def createTree (h : Heap K V) (range : List (K × V)) : LlrbNode × Heap K V :=
  range.foldl (fun (node, h) element => h.insert node element.1 element.2) (emptyNode, h)

def insert [DecidableEq V] (m : SortedMap K V) (h : Heap K V) (key : K) (value : V) :
    Hard (SortedMap K V × Heap K V) :=
  match m with
  | .array entries =>
    -- More eager than it needs to be, since an existing key could be replaced.
    if entries.size ≥ kFixedSize then
      let (root, h) := createTree h entries.contents
      let (root, h) := h.insert root key value
      .ok (.tree root, h)
    else do
      let entries ← entries.insert key value
      return (.array entries, h)
  | .tree root =>
    let (root, h) := h.insert root key value
    .ok (.tree root, h)

def erase (m : SortedMap K V) (h : Heap K V) (key : K) : Hard (SortedMap K V × Heap K V) :=
  match m with
  | .array entries => do
    let entries ← entries.erase key
    return (.array entries, h)
  | .tree root =>
    let (root, h) := h.erase root key
    -- Flip back to the array representation for empty maps.
    if h.empty root then .ok (empty, h) else .ok (.tree root, h)

end SortedMap

end Firebase.Firestore.Immutable
