import Firebase.Database.ImmutableTree

/-!
# Data

`FNode` with its classes `FChildrenNode`, `FLeafNode` and `FEmptyNode`.  A node is a leaf with a
value, or it has children, none of which is empty; the empty node is the one without children.
Every node but the empty one may have a priority, a value that is reached as the child
`.priority`.

`Node` carries this, so that two nodes are equal in the sense of `isEqual:` exactly if they are the
same.  Keys are compared literally: the dictionary of `FChildrenNode` compares them by
`compareKey:toKey:`, for which `00` and `-0` are the same, so that this is about keys that are
distinct for it.  The assertions on `.priority` and on priorities are left out: a priority here is a
value.  `L` are the values of leaves.
-/

namespace Firebase.Database

open Lib OrdMap
open KeyTree (children_node)

def priorityKey : Key := ".priority"

structure NodeLabel (L : Type) where
  value : Option L
  priority : Option L
deriving DecidableEq

/-- Nodes before it is known that they are valid. -/
abbrev NodeTree (L : Type) := KeyTree Key (NodeLabel L)

def NodeTree.isEmpty {L : Type} (t : NodeTree L) : Bool :=
  t.label.value.isNone && t.children.entries.isEmpty

/-- A leaf has no children, no child is empty or a priority, and what is empty has no priority. -/
inductive NodeTree.Valid {L : Type} : NodeTree L → Prop where
  | intro {t : NodeTree L}
      (leaf : t.label.value.isSome → t.children = .empty)
      (priority : t.isEmpty → t.label.priority = none)
      (noPriority : t.children.get? priorityKey = none)
      (nonempty : ∀ k c, t.children.get? k = some c → NodeTree.isEmpty c = false)
      (child : ∀ k c, t.children.get? k = some c → Valid c) : Valid t

@[ext] structure Node (L : Type) where
  tree : NodeTree L
  valid : tree.Valid
deriving DecidableEq

namespace Node

variable {L : Type}

def empty : Node L where
  tree := .node ⟨none, none⟩ .empty
  valid := .intro nofun (fun _ => rfl) (by rw [children_node]; rfl)
    (by rw [children_node]; exact nofun) (by rw [children_node]; exact nofun)

def leaf (value : L) (priority : Option L) : Node L where
  tree := .node ⟨some value, priority⟩ .empty
  valid := .intro (fun _ => children_node _ _) nofun (by rw [children_node]; rfl)
    (by rw [children_node]; exact nofun) (by rw [children_node]; exact nofun)

def value (n : Node L) : Option L := n.tree.label.value

def priority (n : Node L) : Option L := n.tree.label.priority

def isLeafNode (n : Node L) : Bool := n.value.isSome

def isEmpty (n : Node L) : Bool := n.tree.isEmpty

def getPriority (n : Node L) : Node L :=
  match n.priority with
  | some priority => leaf priority none
  | none => empty

def withPriority (n : Node L) (priority : Option L) (h : n.isEmpty = false) : Node L where
  tree := .node ⟨n.value, priority⟩ n.tree.children
  valid := by
    cases n.valid with
    | intro hleaf hpriority hnoPriority hnonempty hchild =>
      have hchildren := children_node ⟨n.value, priority⟩ n.tree.children
      have hsame : NodeTree.isEmpty (.node ⟨n.value, priority⟩ n.tree.children) = n.isEmpty := by
        rw [NodeTree.isEmpty, hchildren]
        rfl
      refine .intro ?_ (fun hempty => ?_) ?_ ?_ ?_
      · exact fun hvalue => hchildren.trans (hleaf hvalue)
      · exact absurd (hsame.symm.trans hempty) (Bool.eq_false_iff.mp h)
      · exact hchildren.symm ▸ hnoPriority
      · exact hchildren.symm ▸ hnonempty
      · exact hchildren.symm ▸ hchild

def updatePriority (n : Node L) (priority : Node L) : Node L :=
  if h : n.isEmpty then empty else n.withPriority priority.value (Bool.eq_false_iff.mpr h)

theorem valid_child {n : Node L} {k : Key} {c : NodeTree L} (h : n.tree.children.get? k = some c) :
    c.Valid := by
  cases n.valid with
  | intro _ _ _ _ hchild => exact hchild k c h

def getImmediateChild (n : Node L) (childName : Key) : Node L :=
  if childName = priorityKey then n.getPriority
  else
    match h : n.tree.children.get? childName with
    | none => empty
    | some child => ⟨child, valid_child h⟩

/-- The children of `updateImmediateChild:withNewChild:`. -/
def newChildren (children : OrdMap Key (NodeTree L)) (childName : Key) (newChildNode : Node L) :
    OrdMap Key (NodeTree L) :=
  if newChildNode.isEmpty then children.erase childName
  else children.insert childName newChildNode.tree

def ofChildren (priority : Option L) (children : OrdMap Key (NodeTree L))
    (hpriority : children.get? priorityKey = none)
    (hnonempty : ∀ k c, children.get? k = some c → c.isEmpty = false)
    (hvalid : ∀ k c, children.get? k = some c → c.Valid) : Node L :=
  if h : children.entries.isEmpty then empty
  else {
    tree := .node ⟨none, priority⟩ children
    valid := by
      refine .intro nofun (fun hempty => ?_) ?_ ?_ ?_
      · rw [NodeTree.isEmpty, children_node, Bool.and_eq_true] at hempty
        exact absurd hempty.2 h
      · rw [children_node]
        exact hpriority
      · rw [children_node]
        exact hnonempty
      · rw [children_node]
        exact hvalid }

def updateImmediateChild (n : Node L) (childName : Key) (newChildNode : Node L) : Node L :=
  if hkey : childName = priorityKey then n.updatePriority newChildNode
  else if n.isLeafNode && newChildNode.isEmpty then n
  else
    -- A leaf has no children: it becomes a node with the new child only.
    ofChildren n.priority (newChildren n.tree.children childName newChildNode)
      (by
        cases n.valid with
        | intro _ _ hpriority _ _ =>
          rw [newChildren]
          split_ifs
          · rw [get?_erase, hpriority, ite_self]
          · rw [get?_insert, if_neg (Ne.symm hkey), hpriority])
      (by
        cases n.valid with
        | intro _ _ _ hnonempty _ =>
          intro k c hc
          rw [newChildren] at hc
          split_ifs at hc with hempty
          · rw [get?_erase] at hc
            split_ifs at hc
            exact hnonempty k c hc
          · rw [get?_insert] at hc
            split_ifs at hc
            · cases hc
              exact Bool.eq_false_iff.mpr hempty
            · exact hnonempty k c hc)
      (by
        cases n.valid with
        | intro _ _ _ _ hchild =>
          intro k c hc
          rw [newChildren] at hc
          split_ifs at hc with hempty
          · rw [get?_erase] at hc
            split_ifs at hc
            exact hchild k c hc
          · rw [get?_insert] at hc
            split_ifs at hc
            · cases hc
              exact newChildNode.valid
            · exact hchild k c hc)

def getChild : Node L → Path → Node L
  | n, [] => n
  | n, front :: path =>
    if n.isLeafNode then if front = priorityKey then n.getPriority else empty
    else getChild (n.getImmediateChild front) path

def updateChild : Node L → Path → Node L → Node L
  | _, [], newChildNode => newChildNode
  | n, front :: path, newChildNode =>
    if n.isLeafNode then
      if newChildNode.isEmpty && front ≠ priorityKey then n
      else n.updateImmediateChild front (updateChild empty path newChildNode)
    else n.updateImmediateChild front (updateChild (n.getImmediateChild front) path newChildNode)

end Node

end Firebase.Database
