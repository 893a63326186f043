import Firebase.Lib.OrdMap

/-!
# Trees with keyed children

A `KeyTree K A` has a label at every node, and the children of a node are an ordered map.  An
inductive type cannot have itself inside of an `OrdMap`, which carries a proof, so that the trees
are those of `KeyTree.Raw` whose children are sorted everywhere.
-/

namespace Firebase.Lib

/-- A tree with a list of children. -/
inductive KeyTree.Raw (K A : Type) where
  | node (label : A) (children : List (K × KeyTree.Raw K A))

namespace KeyTree.Raw

variable {K A B : Type}

def label : Raw K A → A
  | node label _ => label

def children : Raw K A → List (K × Raw K A)
  | node _ children => children

/-- The children are sorted, everywhere in the tree. -/
inductive Sorted [LinearOrder K] : Raw K A → Prop where
  | node {label : A} {children : List (K × Raw K A)}
      (sorted : children.Pairwise fun a b => a.1 < b.1) (all : ∀ e ∈ children, Sorted e.2) :
      Sorted (.node label children)

mutual

/-- Computes a value from the label and the values of the children. -/
def fold (f : A → List (K × B) → B) : Raw K A → B
  | node label children => f label (foldChildren f children)

def foldChildren (f : A → List (K × B) → B) : List (K × Raw K A) → List (K × B)
  | [] => []
  | (k, t) :: children => (k, fold f t) :: foldChildren f children

end

theorem foldChildren_eq (f : A → List (K × B) → B) (children : List (K × Raw K A)) :
    foldChildren f children = children.map fun e => (e.1, fold f e.2) := by
  induction children with
  | nil => rfl
  | cons e children ih => exact congrArg ((e.1, fold f e.2) :: ·) ih

mutual

def decEq [DecidableEq K] [DecidableEq A] : (s t : Raw K A) → Decidable (s = t)
  | node a as, node b bs =>
    match decEq' as bs with
    | isFalse h => isFalse fun heq => h (Raw.node.inj heq).2
    | isTrue h =>
      if hab : a = b then isTrue (by rw [hab, h]) else isFalse fun heq => hab (Raw.node.inj heq).1

def decEq' [DecidableEq K] [DecidableEq A] : (as bs : List (K × Raw K A)) → Decidable (as = bs)
  | [], [] => isTrue rfl
  | [], _ :: _ | _ :: _, [] => isFalse nofun
  | (k, s) :: as, (l, t) :: bs =>
    match decEq s t, decEq' as bs with
    | isFalse h, _ => isFalse fun heq => h (Prod.mk.inj (List.cons.inj heq).1).2
    | _, isFalse h => isFalse fun heq => h (List.cons.inj heq).2
    | isTrue hs, isTrue has =>
      if hk : k = l then isTrue (by rw [hk, hs, has])
      else isFalse fun heq => hk (Prod.mk.inj (List.cons.inj heq).1).1

end

instance [DecidableEq K] [DecidableEq A] : DecidableEq (Raw K A) := decEq

theorem Sorted.pairwise [LinearOrder K] {t : Raw K A} (h : t.Sorted) :
    t.children.Pairwise fun a b => a.1 < b.1 := by
  cases h with
  | node sorted all => exact sorted

theorem Sorted.child [LinearOrder K] {t : Raw K A} (h : t.Sorted) {e : K × Raw K A}
    (he : e ∈ t.children) : e.2.Sorted := by
  cases h with
  | node sorted all => exact all e he

end KeyTree.Raw

/-- A tree whose nodes have a label and an ordered map of children. -/
@[ext] structure KeyTree (K A : Type) [LinearOrder K] where
  raw : KeyTree.Raw K A
  sorted : raw.Sorted
deriving DecidableEq

namespace KeyTree

variable {K A B : Type} [LinearOrder K]

/-- The label of the root. -/
def label (t : KeyTree K A) : A := t.raw.label

/-- The trees under the root. -/
def children (t : KeyTree K A) : OrdMap K (KeyTree K A) where
  entries := t.raw.children.attach.map fun e => (e.1.1, ⟨e.1.2, t.sorted.child e.2⟩)
  sorted := by
    rw [List.pairwise_map]
    exact (List.pairwise_map (l := t.raw.children.attach) (f := Subtype.val)).mp
      ((List.attach_map_subtype_val t.raw.children).symm ▸ t.sorted.pairwise)

/-- The tree with a label and children. -/
def node (label : A) (children : OrdMap K (KeyTree K A)) : KeyTree K A where
  raw := .node label (children.entries.map fun e => (e.1, e.2.raw))
  sorted := by
    refine .node (List.pairwise_map.mpr children.sorted) fun e he => ?_
    obtain ⟨e', -, rfl⟩ := List.mem_map.mp he
    exact e'.2.sorted

@[simp] theorem children_node (label : A) (children : OrdMap K (KeyTree K A)) :
    (node label children).children = children := by
  refine OrdMap.ext ?_
  show ((children.entries.map fun e => (e.1, e.2.raw)).attach.map fun e =>
    ((e.1.1, ⟨e.1.2, _⟩) : K × KeyTree K A)) = children.entries
  rw [List.attach_map, List.map_map]
  exact List.attach_map_subtype_val children.entries

theorem map_raw_children (t : KeyTree K A) :
    t.children.entries.map (fun e => (e.1, e.2.raw)) = t.raw.children := by
  rw [children, List.map_map]
  exact List.attach_map_subtype_val t.raw.children

@[simp] theorem node_label_children (t : KeyTree K A) : node t.label t.children = t := by
  refine KeyTree.ext ?_
  show Raw.node t.raw.label (t.children.entries.map fun e => (e.1, e.2.raw)) = t.raw
  rw [map_raw_children]
  cases t.raw with
  | node label children => rfl

theorem ext_children {s t : KeyTree K A} (hlabel : s.label = t.label)
    (hchildren : ∀ k, s.children.get? k = t.children.get? k) : s = t := by
  rw [← node_label_children s, ← node_label_children t, hlabel, OrdMap.ext_get? hchildren]

/-- What holds of a tree whenever it holds of its children holds of every tree. -/
theorem induction {P : KeyTree K A → Prop}
    (h : ∀ t : KeyTree K A, (∀ k c, t.children.get? k = some c → P c) → P t) (t : KeyTree K A) :
    P t := by
  obtain ⟨raw, hraw⟩ := t
  induction hraw with
  | @node label children sorted all ih =>
    refine h _ fun k c hc => ?_
    obtain ⟨⟨e, he⟩, -, heq⟩ := List.mem_map.mp (OrdMap.mem_entries.mpr hc)
    cases heq
    exact ih e he

/-- Computes a value from the label and the values of the children. -/
def fold (f : A → List (K × B) → B) (t : KeyTree K A) : B := t.raw.fold f

theorem fold_eq (f : A → List (K × B) → B) (t : KeyTree K A) :
    t.fold f = f t.label (t.children.entries.map fun e => (e.1, e.2.fold f)) := by
  have hraw : ∀ raw : Raw K A,
      raw.fold f = f raw.label (raw.children.map fun e => (e.1, e.2.fold f)) := by
    rintro ⟨label, children⟩
    exact congrArg (f label) (Raw.foldChildren_eq f children)
  rw [fold, hraw, ← map_raw_children, List.map_map]
  rfl

end KeyTree

end Firebase.Lib
