import Firebase.Lib.KeyTree
import Mathlib.Data.String.Basic

/-!
# Paths and trees of values

`FPath` (`FPath.m`), a list of keys, and `FImmutableTree` (`FImmutableTree.m`), a tree with a
value at some of its nodes.  A tree without empty subtrees (`Pruned`) is the same as what it has
at every path (`Pruned.ext`), so that each operation is specified by `valueAtPath` after it.

The children of a node are enumerated in the order of `stringComparator`.  Keys are compared
literally here.  `FImmutableTree` compares them by `compare:` of `NSString`, for which composed and
decomposed characters are the same, so that all of this is about keys that are distinct for it.
-/

namespace Firebase.Database

open Lib OrdMap List

abbrev Key := String

abbrev Path := List Key

namespace Path

/-- `[self contains:other]`. -/
def contains (path other : Path) : Bool := path.isPrefixOf other

theorem contains_iff {path other : Path} : path.contains other ↔ path <+: other :=
  isPrefixOf_iff_prefix

/-- `relativePathFrom:to:`.  The source throws where the one path is not within the other. -/
def relativePathFrom (outer inner : Path) : Path := inner.drop outer.length

@[simp] theorem relativePathFrom_append (outer inner : Path) :
    relativePathFrom outer (outer ++ inner) = inner := drop_left

end Path

abbrev ImmutableTree (V : Type) := KeyTree Key (Option V)

namespace ImmutableTree

variable {V : Type}

def value (t : ImmutableTree V) : Option V := t.label

def children (t : ImmutableTree V) : OrdMap Key (ImmutableTree V) := KeyTree.children t

def make (value : Option V) (children : OrdMap Key (ImmutableTree V)) : ImmutableTree V :=
  KeyTree.node value children

@[simp] theorem children_make (value : Option V) (children : OrdMap Key (ImmutableTree V)) :
    (make value children).children = children := KeyTree.children_node value children

theorem induction {P : ImmutableTree V → Prop}
    (h : ∀ t : ImmutableTree V, (∀ k c, t.children.get? k = some c → P c) → P t)
    (t : ImmutableTree V) : P t := KeyTree.induction h t

def ofValue (value : Option V) : ImmutableTree V := make value .empty

def empty : ImmutableTree V := ofValue none

def isEmpty (t : ImmutableTree V) : Bool := t.value.isNone && t.children.entries.isEmpty

/-- `[self.children get:front]`, or the empty tree. -/
def childOrEmpty (t : ImmutableTree V) (front : Key) : ImmutableTree V :=
  (t.children.get? front).getD empty

def findRootMostMatchingPath (predicate : V → Bool) : ImmutableTree V → Path → Option (Path × V)
  | t, [] => (t.value.filter predicate).map ([], ·)
  | t, front :: relativePath =>
    match t.value.filter predicate with
    | some value => some ([], value)
    | none =>
      match t.children.get? front with
      | none => none
      | some child =>
        (findRootMostMatchingPath predicate child relativePath).map fun (path, value) =>
          (front :: path, value)

def findRootMostValueAndPath (t : ImmutableTree V) (relativePath : Path) : Option (Path × V) :=
  t.findRootMostMatchingPath (fun _ => true) relativePath

def subtreeAtPath : ImmutableTree V → Path → ImmutableTree V
  | t, [] => t
  | t, front :: relativePath =>
    match t.children.get? front with
    | none => empty
    | some childTree => subtreeAtPath childTree relativePath

def setValue (newValue : Option V) : ImmutableTree V → Path → ImmutableTree V
  | t, [] => make newValue t.children
  | t, front :: relativePath =>
    let newChild := setValue newValue (t.childOrEmpty front) relativePath
    make t.value (t.children.insert front newChild)

def replaceChild (t : ImmutableTree V) (front : Key) (newChild : ImmutableTree V) :
    OrdMap Key (ImmutableTree V) :=
  if newChild.isEmpty then t.children.erase front else t.children.insert front newChild

def valueAtPath : ImmutableTree V → Path → Option V
  | t, [] => t.value
  | t, front :: relativePath =>
    match t.children.get? front with
    | none => none
    | some child => valueAtPath child relativePath

def setTree (newTree : ImmutableTree V) : ImmutableTree V → Path → ImmutableTree V
  | _, [] => newTree
  | t, front :: relativePath =>
    let newChild := setTree newTree (t.childOrEmpty front) relativePath
    make t.value (t.replaceChild front newChild)

/-- `forEachPathSoFar:withBlock:`: the calls of the block, in their order. -/
def forEachPathSoFar (t : ImmutableTree V) (pathSoFar : Path) : List (Path × V) :=
  t.fold (B := Path → List (Path × V)) (fun value children pathSoFar =>
    (children.flatMap fun (childKey, childTree) => childTree (pathSoFar ++ [childKey])) ++
      (value.map fun value => (pathSoFar, value)).toList) pathSoFar

def forEach (t : ImmutableTree V) : List (Path × V) := t.forEachPathSoFar []

/-! ## Values at paths -/

section Values

variable {t : ImmutableTree V}

/-- Nothing is at any path of an empty tree. -/
theorem valueAtPath_eq_none (hvalue : t.value = none) (hchildren : ∀ k, t.children.get? k = none)
    (path : Path) : t.valueAtPath path = none := by
  cases path with
  | nil => exact hvalue
  | cons front path => rw [valueAtPath, hchildren front]

theorem isEmpty_iff : t.isEmpty ↔ t.value = none ∧ ∀ k, t.children.get? k = none := by
  rw [isEmpty, Bool.and_eq_true, Option.isNone_iff_eq_none, List.isEmpty_iff]
  refine and_congr_right fun _ => ⟨fun hnil k => ?_, fun hnone => ?_⟩
  · rw [OrdMap.get?, hnil]
    rfl
  · refine eq_nil_iff_forall_not_mem.mpr fun e he => ?_
    cases (hnone e.1).symm.trans (mem_entries.mp he)

@[simp] theorem valueAtPath_empty (path : Path) :
    (empty : ImmutableTree V).valueAtPath path = none :=
  valueAtPath_eq_none rfl (fun k => by rw [empty, ofValue]; rfl) path

theorem valueAtPath_of_isEmpty (h : t.isEmpty) (path : Path) : t.valueAtPath path = none :=
  valueAtPath_eq_none (isEmpty_iff.mp h).1 (isEmpty_iff.mp h).2 path

theorem valueAtPath_cons (t : ImmutableTree V) (front : Key) (path : Path) :
    t.valueAtPath (front :: path) = (t.childOrEmpty front).valueAtPath path := by
  rw [valueAtPath, childOrEmpty]
  cases t.children.get? front with
  | none => exact (valueAtPath_empty path).symm
  | some child => rfl

theorem valueAtPath_ofValue (value : Option V) (path : Path) :
    (ofValue value).valueAtPath path = if path = [] then value else none := by
  cases path with
  | nil => rfl
  | cons front path =>
    rfl

theorem childOrEmpty_make_replaceChild (t : ImmutableTree V) (value : Option V) (front key : Key)
    (newChild : ImmutableTree V) (path : Path) :
    ((make value (t.replaceChild front newChild)).childOrEmpty key).valueAtPath path =
      if key = front then newChild.valueAtPath path
      else (t.childOrEmpty key).valueAtPath path := by
  rw [childOrEmpty, children_make, replaceChild]
  by_cases hempty : newChild.isEmpty
  · rw [if_pos hempty, get?_erase]
    by_cases hkey : key = front
    · rw [if_pos hkey, if_pos hkey, valueAtPath_of_isEmpty hempty]
      exact valueAtPath_empty path
    · rw [if_neg hkey, if_neg hkey]
      rfl
  · rw [if_neg hempty, get?_insert]
    by_cases hkey : key = front
    · rw [if_pos hkey, if_pos hkey]
      rfl
    · rw [if_neg hkey, if_neg hkey]
      rfl

/-- A subtree is what is under its path. -/
theorem valueAtPath_setTree (newTree t : ImmutableTree V) (path other : Path) :
    (setTree newTree t path).valueAtPath other =
      if path <+: other then newTree.valueAtPath (other.drop path.length)
      else t.valueAtPath other := by
  induction path generalizing t other with
  | nil =>
    rfl
  | cons front path ih =>
    cases other with
    | nil =>
      rfl
    | cons key other =>
      rw [setTree, valueAtPath_cons, childOrEmpty_make_replaceChild]
      by_cases hkey : key = front
      · subst hkey
        rw [if_pos rfl, ih, valueAtPath_cons]
        simp only [cons_prefix_cons, true_and, length_cons, drop_succ_cons]
      · rw [if_neg hkey, if_neg fun h => hkey (cons_prefix_cons.mp h).1.symm, valueAtPath_cons]

theorem valueAtPath_setValue (newValue : Option V) (t : ImmutableTree V) (path other : Path) :
    (setValue newValue t path).valueAtPath other =
      if other = path then newValue else t.valueAtPath other := by
  induction path generalizing t other with
  | nil =>
    cases other with
    | nil => rfl
    | cons key other =>
      rw [setValue, valueAtPath, children_make]
      rfl
  | cons front path ih =>
    cases other with
    | nil =>
      rfl
    | cons key other =>
      rw [setValue, valueAtPath_cons, childOrEmpty, children_make, get?_insert]
      by_cases hkey : key = front
      · subst hkey
        rw [if_pos rfl, Option.getD_some, ih, valueAtPath_cons]
        simp only [List.cons.injEq, true_and]
      · rw [if_neg hkey, if_neg fun h => hkey (List.cons.inj h).1, valueAtPath_cons]
        rfl

/-- The value found is the one with the shortest path. -/
theorem findRootMostValueAndPath_eq_some {path r : Path} {v : V}
    (h : t.findRootMostValueAndPath path = some (r, v)) :
    r <+: path ∧ t.valueAtPath r = some v ∧ ∀ r', r' <+: r → r' ≠ r → t.valueAtPath r' = none := by
  induction path generalizing t r with
  | nil =>
    rw [findRootMostValueAndPath, findRootMostMatchingPath, Option.map_eq_some_iff] at h
    obtain ⟨v', hv', heq⟩ := h
    cases heq
    refine ⟨List.nil_prefix, (Option.filter_eq_some_iff.mp hv').1, fun r' hr' hne => ?_⟩
    exact absurd (prefix_nil.mp hr') hne
  | cons front path ih =>
    rw [findRootMostValueAndPath, findRootMostMatchingPath] at h
    cases hvalue : t.value with
    | some value =>
      rw [hvalue] at h
      cases h
      exact ⟨List.nil_prefix, hvalue, fun r' hr' hne => absurd (prefix_nil.mp hr') hne⟩
    | none =>
      rw [hvalue] at h
      cases hchild : t.children.get? front with
      | none =>
        rw [hchild] at h
        cases h
      | some child =>
        rw [hchild] at h
        obtain ⟨⟨r₁, v₁⟩, hfind, heq⟩ := Option.map_eq_some_iff.mp h
        cases heq
        obtain ⟨hunder, hget, hfirst⟩ := ih hfind
        have hcons : ∀ r, t.valueAtPath (front :: r) = child.valueAtPath r := fun r => by
          rw [valueAtPath, hchild]
        refine ⟨cons_prefix_cons.mpr ⟨rfl, hunder⟩, (hcons r₁).trans hget, ?_⟩
        intro r' hr' hne
        cases r' with
        | nil => exact hvalue
        | cons key r' =>
          obtain ⟨rfl, htail⟩ := cons_prefix_cons.mp hr'
          exact (hcons r').trans (hfirst r' htail fun heq => hne (congrArg _ heq))

theorem mem_forEachPathSoFar {pathSoFar : Path} {e : Path × V} :
    e ∈ t.forEachPathSoFar pathSoFar ↔ ∃ r, e.1 = pathSoFar ++ r ∧ t.valueAtPath r = some e.2 := by
  induction t using ImmutableTree.induction generalizing pathSoFar with
  | h t ih =>
    have hforEach : t.forEachPathSoFar pathSoFar =
        t.children.entries.flatMap (fun c => c.2.forEachPathSoFar (pathSoFar ++ [c.1])) ++
          (t.value.map (pathSoFar, ·)).toList := by
      rw [forEachPathSoFar, KeyTree.fold_eq, List.flatMap_map]
      rfl
    rw [hforEach, mem_append, mem_flatMap]
    constructor
    · rintro (⟨c, hc, he⟩ | he)
      · obtain ⟨r, hr, hvalue⟩ := (ih c.1 c.2 (mem_entries.mp hc)).mp he
        refine ⟨c.1 :: r, hr.trans (append_assoc _ _ _), ?_⟩
        rw [valueAtPath, mem_entries.mp hc]
        exact hvalue
      · obtain ⟨v, hv, rfl⟩ := Option.map_eq_some_iff.mp (Option.mem_toList.mp he)
        exact ⟨[], (append_nil _).symm, hv⟩
    · rintro ⟨r, hr, hvalue⟩
      cases r with
      | nil =>
        refine .inr (Option.mem_toList.mpr (Option.map_eq_some_iff.mpr ⟨e.2, hvalue, ?_⟩))
        exact Prod.ext (hr.trans (append_nil _)).symm rfl
      | cons key r =>
        rw [valueAtPath] at hvalue
        cases hget : t.children.get? key with
        | none =>
          rw [hget] at hvalue
          cases hvalue
        | some c =>
          rw [hget] at hvalue
          refine .inl ⟨(key, c), mem_entries.mpr hget, (ih key c hget).mpr ⟨r, ?_, hvalue⟩⟩
          exact hr.trans (append_assoc pathSoFar [key] r).symm

/-- The enumeration is of the values at all paths. -/
theorem mem_forEach {e : Path × V} : e ∈ t.forEach ↔ t.valueAtPath e.1 = some e.2 := by
  refine mem_forEachPathSoFar.trans ⟨?_, fun h => ⟨e.1, rfl, h⟩⟩
  rintro ⟨r, hr, hvalue⟩
  rwa [hr]

theorem findRootMostValueAndPath_eq_none {path : Path}
    (h : t.findRootMostValueAndPath path = none) : ∀ r, r <+: path → t.valueAtPath r = none := by
  induction path generalizing t with
  | nil =>
    intro r hr
    rw [prefix_nil.mp hr]
    rw [findRootMostValueAndPath, findRootMostMatchingPath] at h
    cases hvalue : t.value with
    | none => exact hvalue
    | some value =>
      rw [hvalue] at h
      cases h
  | cons front path ih =>
    rw [findRootMostValueAndPath, findRootMostMatchingPath] at h
    cases hvalue : t.value with
    | some value =>
      rw [hvalue] at h
      cases h
    | none =>
      intro r hr
      cases r with
      | nil => exact hvalue
      | cons key r =>
        obtain ⟨rfl, htail⟩ := cons_prefix_cons.mp hr
        rw [hvalue] at h
        rw [valueAtPath]
        cases hchild : t.children.get? key with
        | none => rfl
        | some child =>
          rw [hchild] at h
          exact ih (Option.map_eq_none_iff.mp h) r htail

end Values

/-! ## Trees without empty subtrees -/

/-- No subtree is empty, apart from the tree itself. -/
inductive Pruned : ImmutableTree V → Prop where
  | intro {t : ImmutableTree V}
      (nonempty : ∀ k c, t.children.get? k = some c → c.isEmpty = false)
      (child : ∀ k c, t.children.get? k = some c → Pruned c) : Pruned t

variable {t : ImmutableTree V}

theorem pruned_of_forall
    (h : ∀ k c, t.children.get? k = some c → c.isEmpty = false ∧ c.Pruned) : t.Pruned :=
  .intro (fun k c hc => (h k c hc).1) fun k c hc => (h k c hc).2

theorem Pruned.child (h : t.Pruned) {k : Key} {c : ImmutableTree V}
    (hc : t.children.get? k = some c) : c.isEmpty = false ∧ c.Pruned := by
  cases h with
  | intro nonempty child => exact ⟨nonempty k c hc, child k c hc⟩

theorem pruned_ofValue (value : Option V) : (ofValue value).Pruned := by
  refine pruned_of_forall fun k c hc => ?_
  cases hc

theorem Pruned.childOrEmpty (h : t.Pruned) (front : Key) : (t.childOrEmpty front).Pruned := by
  rw [ImmutableTree.childOrEmpty]
  cases hc : t.children.get? front with
  | none => exact pruned_ofValue none
  | some c => exact (h.child hc).2

/-- A tree that is not empty has a value somewhere. -/
theorem Pruned.exists_value (h : t.Pruned) (hne : t.isEmpty = false) :
    ∃ path v, t.valueAtPath path = some v := by
  induction h with
  | @intro t nonempty child ih =>
    cases hvalue : t.value with
    | some v => exact ⟨[], v, hvalue⟩
    | none =>
      obtain ⟨k, c, hc⟩ : ∃ k c, t.children.get? k = some c := by
        by_contra hnone
        refine absurd (isEmpty_iff.mpr ⟨hvalue, fun k => ?_⟩) (Bool.eq_false_iff.mp hne)
        refine Option.eq_none_iff_forall_ne_some.mpr fun c hc => hnone ⟨k, c, hc⟩
      obtain ⟨path, v, hv⟩ := ih k c hc (nonempty k c hc)
      refine ⟨k :: path, v, ?_⟩
      rw [valueAtPath, hc]
      exact hv

/-- A tree is determined by its values. -/
theorem Pruned.ext {s t : ImmutableTree V} (hs : s.Pruned) (ht : t.Pruned)
    (h : ∀ path, s.valueAtPath path = t.valueAtPath path) : s = t := by
  induction hs generalizing t with
  | @intro s nonempty child ih =>
    refine KeyTree.ext_children (h []) fun k => ?_
    have hk : ∀ path, (s.childOrEmpty k).valueAtPath path = (t.childOrEmpty k).valueAtPath path :=
      fun path => by rw [← valueAtPath_cons, ← valueAtPath_cons, h]
    show s.children.get? k = t.children.get? k
    rw [ImmutableTree.childOrEmpty, ImmutableTree.childOrEmpty] at hk
    cases hsk : s.children.get? k with
    | none =>
      cases htk : t.children.get? k with
      | none => rfl
      | some d =>
        rw [hsk, htk] at hk
        obtain ⟨path, v, hv⟩ := (ht.child htk).2.exists_value (ht.child htk).1
        cases (hv.symm.trans (hk path).symm).trans (valueAtPath_empty path)
    | some c =>
      cases htk : t.children.get? k with
      | none =>
        rw [hsk, htk] at hk
        obtain ⟨path, v, hv⟩ := (child k c hsk).exists_value (nonempty k c hsk)
        cases (hv.symm.trans (hk path)).trans (valueAtPath_empty path)
      | some d =>
        rw [hsk, htk] at hk
        exact congrArg some (ih k c hsk (ht.child htk).2 hk)

theorem Pruned.setTree {newTree t : ImmutableTree V} (hnew : newTree.Pruned) (ht : t.Pruned)
    (path : Path) : (ImmutableTree.setTree newTree t path).Pruned := by
  induction path generalizing t with
  | nil => exact hnew
  | cons front path ih =>
    refine pruned_of_forall fun k c hc => ?_
    rw [ImmutableTree.setTree, children_make, replaceChild] at hc
    have hchild := ih (ht.childOrEmpty front)
    by_cases hempty : (ImmutableTree.setTree newTree (t.childOrEmpty front) path).isEmpty
    · rw [if_pos hempty, get?_erase_eq_some] at hc
      exact ht.child hc.2
    · rw [if_neg hempty, get?_insert_eq_some] at hc
      rcases hc with ⟨-, rfl⟩ | ⟨-, hc⟩
      · exact ⟨Bool.eq_false_iff.mpr hempty, hchild⟩
      · exact ht.child hc

theorem isEmpty_setValue (value : V) (t : ImmutableTree V) (path : Path) :
    (setValue (some value) t path).isEmpty = false := by
  refine Bool.eq_false_iff.mpr fun hempty => ?_
  have hvalue := valueAtPath_setValue (some value) t path path
  rw [if_pos rfl, valueAtPath_of_isEmpty hempty] at hvalue
  cases hvalue

theorem Pruned.setValue (ht : t.Pruned) (value : V) (path : Path) :
    (ImmutableTree.setValue (some value) t path).Pruned := by
  induction path generalizing t with
  | nil =>
    refine pruned_of_forall fun k c hc => ?_
    rw [ImmutableTree.setValue, children_make] at hc
    exact ht.child hc
  | cons front path ih =>
    refine pruned_of_forall fun k c hc => ?_
    rw [ImmutableTree.setValue, children_make, get?_insert_eq_some] at hc
    rcases hc with ⟨-, rfl⟩ | ⟨-, hc⟩
    · exact ⟨isEmpty_setValue value _ path, ih (ht.childOrEmpty front)⟩
    · exact ht.child hc

/-! ## Enumeration -/

end ImmutableTree

end Firebase.Database
