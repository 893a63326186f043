import Mathlib.Algebra.Group.Nat.Defs
import Mathlib.Order.Compare
import Mathlib.Data.List.Basic

/-!
# Left-leaning red-black trees

What an `LlrbNode` and the nodes below it look like once its pointers are followed, and what the
methods of `LlrbNode` do to that shape.

The functions are total in the way of the source.  `EmptyRep` can be followed to the left
and to the right forever, so that `left` and `right` of `nil` are `nil` again, and
nothing but the code itself keeps `FlipColor` from painting a copy of `EmptyRep` red,
so that `nil` has a color.
-/

namespace Firebase.Firestore.Immutable

inductive Color
  | black
  | red
  deriving DecidableEq, Repr

def Color.opposite : Color → Color
  | .red => .black
  | .black => .red

@[simp] theorem Color.opposite_red : Color.red.opposite = .black := rfl

@[simp] theorem Color.opposite_black : Color.black.opposite = .red := rfl

@[simp] theorem Color.opposite_opposite (c : Color) : c.opposite.opposite = c := by
  cases c <;> rfl

/-- `size_` shares a word of 32 bits with the color: it has 31 bits. -/
def sizeLimit : Nat := 2 ^ 31

/-- The shape of a node: a copy of `EmptyRep`, or an entry with its color, its stored size and its
subtrees. -/
inductive LlrbTree (K V : Type)
  | nil (color : Color)
  | node (entry : K × V) (color : Color) (size : Nat) (left right : LlrbTree K V)
  deriving DecidableEq, Repr

namespace LlrbTree

variable {K V : Type}

def size : LlrbTree K V → Nat
  | .nil _ => 0
  | .node _ _ s _ _ => s

def empty (t : LlrbTree K V) : Bool :=
  t.size == 0

def color : LlrbTree K V → Color
  | .nil c => c
  | .node _ c _ _ _ => c

def red (t : LlrbTree K V) : Bool :=
  t.color == .red

def left : LlrbTree K V → LlrbTree K V
  | .nil _ => .nil .black
  | .node _ _ _ l _ => l

def right : LlrbTree K V → LlrbTree K V
  | .nil _ => .nil .black
  | .node _ _ _ _ r => r

/-- The entry of `EmptyRep` is the default one. -/
def entry [Inhabited K] [Inhabited V] : LlrbTree K V → K × V
  | .nil _ => default
  | .node e _ _ _ _ => e

def sizeOver (l r : LlrbTree K V) : Nat :=
  (l.size + 1 + r.size) % sizeLimit

/-- `Rep(entry, color, left, right)`, which computes the size. -/
def make (e : K × V) (c : Color) (l r : LlrbTree K V) : LlrbTree K V :=
  .node e c (sizeOver l r) l r

def setColor (c : Color) : LlrbTree K V → LlrbTree K V
  | .nil _ => .nil c
  | .node e _ s l r => .node e c s l r

section Mutators

variable [Inhabited K] [Inhabited V]

def setLeft (t l : LlrbTree K V) : LlrbTree K V :=
  .node t.entry t.color t.size l t.right

def setRight (t r : LlrbTree K V) : LlrbTree K V :=
  .node t.entry t.color t.size t.left r

section

variable (t : LlrbTree K V)

def setEntry (e : K × V) : LlrbTree K V :=
  .node e t.color t.size t.left t.right

def setValue (v : V) : LlrbTree K V :=
  t.setEntry (t.entry.1, v)

/-- Rotates left.  Size and color of the node remain unchanged. -/
def rotateLeft : LlrbTree K V :=
  .node t.right.entry t.color t.size (make t.entry .red t.left t.right.left) t.right.right

/-- Rotates right.  Size and color of the node remain unchanged. -/
def rotateRight : LlrbTree K V :=
  .node t.left.entry t.color t.size t.left.left (make t.entry .red t.left.right t.right)

def flipColor : LlrbTree K V :=
  .node t.entry t.color.opposite t.size (t.left.setColor t.left.color.opposite)
    (t.right.setColor t.right.color.opposite)

def setSize : LlrbTree K V :=
  .node t.entry t.color (sizeOver t.left t.right) t.left t.right

def leanLeft : LlrbTree K V :=
  if t.right.red && !t.left.red then t.rotateLeft else t

def splitReds : LlrbTree K V :=
  if t.left.red && t.left.left.red then t.rotateRight else t

def liftReds : LlrbTree K V :=
  if t.left.red && t.right.red then t.flipColor else t

/-- `FixUp`: the size, and the three repairs one after the other. -/
def fixUp : LlrbTree K V :=
  t.setSize.leanLeft.splitReds.liftReds

theorem fixUp_eq_node : ∃ e c s l r, t.fixUp = .node e c s l r := by
  have hnode : ∀ t : LlrbTree K V, (∃ e c s l r, t = .node e c s l r) →
      ∃ e c s l r, t.liftReds = .node e c s l r := by
    rintro t ⟨e, c, s, l, r, rfl⟩
    rw [liftReds]
    split_ifs <;> exact ⟨_, _, _, _, _, rfl⟩
  refine hnode _ ?_
  rw [splitReds, leanLeft]
  split_ifs <;> exact ⟨_, _, _, _, _, rfl⟩

def fixRootColor : LlrbTree K V :=
  if t.red then t.setColor .black else t

def moveRedLeft : LlrbTree K V :=
  let t := t.flipColor
  if t.right.left.red then (t.setRight t.right.rotateRight).rotateLeft.flipColor else t

def moveRedRight : LlrbTree K V :=
  let t := t.flipColor
  if t.left.left.red then t.rotateRight.flipColor else t

end

/-- `min`.  Loops and recursions are bounded by a depth, which the callers take from the size. -/
def min : Nat → LlrbTree K V → LlrbTree K V
  | 0, t => t
  | depth + 1, t => if t.left.empty then t else t.left.min depth

/-- What `RemoveMin` does before it recurses. -/
def readyMin (t : LlrbTree K V) : LlrbTree K V :=
  if !t.left.red && !t.left.left.red then t.moveRedLeft else t

def removeMin : Nat → LlrbTree K V → LlrbTree K V
  | 0, _ => .nil .black
  | depth + 1, t =>
    if t.left.empty then .nil .black
    else
      let t := t.readyMin
      (t.setLeft (removeMin depth t.left)).fixUp

variable [LinearOrder K]

def innerInsert (depth : Nat) (t : LlrbTree K V) (key : K) (value : V) : LlrbTree K V :=
  match depth with
  | 0 => .nil .black
  | depth + 1 =>
    if t.empty then make (key, value) .red (.nil .black) (.nil .black)
    else
      match compare t.entry.1 key with
      | .gt => (t.setLeft (t.left.innerInsert depth key value)).fixUp
      | .lt => (t.setRight (t.right.innerInsert depth key value)).fixUp
      | .eq => t.setValue value

def insert (t : LlrbTree K V) (key : K) (value : V) : LlrbTree K V :=
  (t.innerInsert (t.size + 1) key value).fixRootColor

/-- What `InnerErase` does on its way to the left before it recurses. -/
def readyLeft (t : LlrbTree K V) : LlrbTree K V :=
  if !t.left.empty && !t.left.red && !t.left.left.red then t.moveRedLeft else t

/-- What `InnerErase` does on its way to the right before it compares keys again. -/
def readyRight (t : LlrbTree K V) : LlrbTree K V :=
  let t := if t.left.red then t.rotateRight else t
  if !t.right.empty && !t.right.red && !t.right.left.red then t.moveRedRight else t

def innerErase : Nat → LlrbTree K V → K → LlrbTree K V
  | 0, _, _ => .nil .black
  | depth + 1, t, key =>
    if t.empty then .nil .black
    else if compare key t.entry.1 = .lt then
      let n := t.readyLeft
      (n.setLeft (innerErase depth n.left key)).fixUp
    else
      let n := t.readyRight
      if compare key n.entry.1 = .eq then
        if n.right.empty then .nil .black
        else ((n.setEntry (n.right.min depth).entry).setRight (n.right.removeMin depth)).fixUp
      else (n.setRight (innerErase depth n.right key)).fixUp

def erase (t : LlrbTree K V) (key : K) : LlrbTree K V :=
  (t.innerErase (t.size + 1) key).fixRootColor

end Mutators

def toList : LlrbTree K V → List (K × V)
  | .nil _ => []
  | .node e _ _ l r => l.toList ++ e :: r.toList

end LlrbTree

end Firebase.Firestore.Immutable
