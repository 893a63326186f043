import Firebase.Firestore.Immutable.LlrbTree
import Firebase.Lib.Cells

/-!
# Nodes of a `TreeSortedMap`

`LlrbNode` is a shared pointer to a `Rep`, and its private methods write to that `Rep` in place, but
only to one that they have just made with `Clone`.  A node is an address here and a method is a
function on the `Rep`s behind all addresses.

Nodes are never given back.  In the source they are, when the last pointer to them goes away;
nothing can be seen of it.
-/

namespace Firebase.Firestore.Immutable

open Lib

structure Rep (K V : Type) where
  entry : K × V
  color : Color
  size : Nat
  left : Nat
  right : Nat
deriving Repr

/-- A node: the address of its `Rep`. -/
abbrev LlrbNode := Nat

/-- `LlrbNode{}`: the address of the shared `EmptyRep`. -/
def emptyNode : LlrbNode := 0

variable {K V : Type} [Inhabited K] [Inhabited V]

def emptyRep : Rep K V := ⟨default, .black, 0, emptyNode, emptyNode⟩

instance : Inhabited (Rep K V) := ⟨emptyRep⟩

abbrev Heap (K V : Type) := Cells (Rep K V)

namespace Heap

/-- At the start there is only `EmptyRep`. -/
def start : Heap K V := ⟨[emptyRep]⟩

def size (h : Heap K V) (node : LlrbNode) : Nat := (h.get node).size

section

variable (h : Heap K V)

def empty (node : LlrbNode) : Bool := h.size node == 0

def red (h : Heap K V) (node : LlrbNode) : Bool := (h.get node).color == .red

def key (node : LlrbNode) : K := (h.get node).entry.1

def left (h : Heap K V) (node : LlrbNode) : LlrbNode := (h.get node).left

def right (h : Heap K V) (node : LlrbNode) : LlrbNode := (h.get node).right

/-- `size_` has 31 bits. -/
def sizeOver (left right : LlrbNode) : Nat :=
  (h.size left + 1 + h.size right) % sizeLimit

def newNode (entry : K × V) (color : Color) (left right : LlrbNode) : LlrbNode × Heap K V :=
  h.alloc ⟨entry, color, h.sizeOver left right, left, right⟩

section

variable (this : LlrbNode)

/-- `Clone`: a copy of the `Rep`, without copies of the children. -/
def clone : LlrbNode × Heap K V :=
  h.alloc (h.get this)

def setLeft (this left : LlrbNode) : Heap K V :=
  h.modify this fun rep => { rep with left := left }

def setRight (this right : LlrbNode) : Heap K V :=
  h.modify this fun rep => { rep with right := right }

def setEntry (entry : K × V) : Heap K V :=
  h.modify this fun rep => { rep with entry := entry }

def setValue (value : V) : Heap K V :=
  h.modify this fun rep => { rep with entry := (rep.entry.1, value) }

def setColor (color : Color) : Heap K V :=
  h.modify this fun rep => { rep with color := color }

def setSize (size : Nat) : Heap K V :=
  h.modify this fun rep => { rep with size := size }

def rotateLeft : Heap K V :=
  let (newLeft, h) := h.newNode (h.get this).entry .red (h.left this) (h.left (h.right this))
  let h := h.setEntry this (h.get (h.right this)).entry
  let h := h.setLeft this newLeft
  h.setRight this (h.right (h.right this))

def rotateRight : Heap K V :=
  let (newRight, h) := h.newNode (h.get this).entry .red (h.right (h.left this)) (h.right this)
  let h := h.setEntry this (h.get (h.left this)).entry
  let h := h.setLeft this (h.left (h.left this))
  h.setRight this newRight

def cloneOpposite (node : LlrbNode) : LlrbNode × Heap K V :=
  let (copy, h') := h.clone node
  (copy, h'.setColor copy (h.get node).color.opposite)

def flipColor : Heap K V :=
  let (newLeft, h) := h.cloneOpposite (h.left this)
  let (newRight, h) := h.cloneOpposite (h.right this)
  let h := h.setColor this (h.get this).color.opposite
  let h := h.setLeft this newLeft
  h.setRight this newRight

def fixUp : Heap K V :=
  let h := h.setSize this (h.sizeOver (h.left this) (h.right this))
  let h := if h.red (h.right this) && !h.red (h.left this) then h.rotateLeft this else h
  let h := if h.red (h.left this) && h.red (h.left (h.left this)) then h.rotateRight this else h
  if h.red (h.left this) && h.red (h.right this) then h.flipColor this else h

def fixRootColor : Heap K V :=
  if h.red this then h.setColor this .black else h

def moveRedLeft : Heap K V :=
  let h := h.flipColor this
  if h.red (h.left (h.right this)) then
    let (newRight, h) := h.clone (h.right this)
    let h := h.rotateRight newRight
    let h := h.setRight this newRight
    let h := h.rotateLeft this
    h.flipColor this
  else h

def moveRedRight : Heap K V :=
  let h := h.flipColor this
  if h.red (h.left (h.left this)) then
    let h := h.rotateRight this
    h.flipColor this
  else h

end

/-- `min`.  Loops and recursions are bounded by a depth, which the callers take from the size. -/
def min (h : Heap K V) : Nat → LlrbNode → LlrbNode
  | 0, this => this
  | depth + 1, this => if h.empty (h.left this) then this else h.min depth (h.left this)

/-- What `RemoveMin` does before it recurses. -/
def readyMin (this : LlrbNode) : Heap K V :=
  if !h.red (h.left this) && !h.red (h.left (h.left this)) then h.moveRedLeft this else h

end

def removeMin : Nat → Heap K V → LlrbNode → LlrbNode × Heap K V
  | 0, h, _ => (emptyNode, h)
  | depth + 1, h, this =>
    -- If the left node is empty then the right one must be empty, too.
    if h.empty (h.left this) then (emptyNode, h)
    else
      let h := h.readyMin this
      let (newLeft, h) := h.clone (h.left this)
      let (newLeft, h) := removeMin depth h newLeft
      let h := h.setLeft this newLeft
      (this, h.fixUp this)

variable [LinearOrder K]

def innerInsert : Nat → Heap K V → LlrbNode → K → V → LlrbNode × Heap K V
  | 0, h, _, _, _ => (emptyNode, h)
  | depth + 1, h, this, key, value =>
    if h.empty this then h.newNode (key, value) .red emptyNode emptyNode
    else
      let (result, h) := h.clone this
      match compare (h.key this) key with
      | .gt =>
        let (newLeft, h) := innerInsert depth h (h.left result) key value
        let h := h.setLeft result newLeft
        (result, h.fixUp result)
      | .lt =>
        let (newRight, h) := innerInsert depth h (h.right result) key value
        let h := h.setRight result newRight
        (result, h.fixUp result)
      | .eq => (result, h.setValue result value)

/-- `insert`.  The recursion is never deeper than there are entries. -/
def insert (h : Heap K V) (this : LlrbNode) (key : K) (value : V) : LlrbNode × Heap K V :=
  let (root, h) := innerInsert (h.size this + 1) h this key value
  (root, h.fixRootColor root)

omit [LinearOrder K] in
/-- What `InnerErase` does on its way to the left before it recurses. -/
def readyLeft (h : Heap K V) (n : LlrbNode) : Heap K V :=
  if !h.empty (h.left n) && !h.red (h.left n) && !h.red (h.left (h.left n)) then h.moveRedLeft n
  else h

omit [LinearOrder K] in
/-- What `InnerErase` does on its way to the right before it compares keys again. -/
def readyRight (h : Heap K V) (n : LlrbNode) : Heap K V :=
  let h := if h.red (h.left n) then h.rotateRight n else h
  if !h.empty (h.right n) && !h.red (h.right n) && !h.red (h.left (h.right n)) then h.moveRedRight n
  else h

def innerErase : Nat → Heap K V → LlrbNode → K → LlrbNode × Heap K V
  | 0, h, _, _ => (emptyNode, h)
  | depth + 1, h, this, key =>
    if h.empty this then (emptyNode, h)
    else
      let (n, h) := h.clone this
      if compare key (h.key n) = .lt then
        let h := h.readyLeft n
        let (newLeft, h) := innerErase depth h (h.left n) key
        let h := h.setLeft n newLeft
        (n, h.fixUp n)
      else
        let h := h.readyRight n
        if compare key (h.key n) = .eq then
          if h.empty (h.right n) then (emptyNode, h)
          else
            let smallest := h.min depth (h.right n)
            let (newRight, h) := h.clone (h.right n)
            let (newRight, h) := removeMin depth h newRight
            let h := h.setEntry n (h.get smallest).entry
            let h := h.setRight n newRight
            (n, h.fixUp n)
        else
          let (newRight, h) := innerErase depth h (h.right n) key
          let h := h.setRight n newRight
          (n, h.fixUp n)

def erase (h : Heap K V) (this : LlrbNode) (key : K) : LlrbNode × Heap K V :=
  let (root, h) := innerErase (h.size this + 1) h this key
  (root, h.fixRootColor root)

omit [LinearOrder K] in
def load (h : Heap K V) : Nat → LlrbNode → LlrbTree K V
  | 0, _ => .nil .black
  | depth + 1, node =>
    if h.empty node then .nil (h.get node).color
    else
      .node (h.get node).entry (h.get node).color (h.size node) (h.load depth (h.left node))
        (h.load depth (h.right node))

end Heap

end Firebase.Firestore.Immutable
