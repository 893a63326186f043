import Firebase.Database.Node

/-!
# Data as values at paths

A node without priorities is determined by the values of its leaves (`Plain.ext`), so that what an
update does to it is what the update does to the value at each path (`valueAt_updateChild`).
-/

namespace Firebase.Database

open Lib OrdMap List

variable {L : Type}

namespace NodeTree

def valueAt : NodeTree L → Path → Option L
  | t, [] => t.label.value
  | t, front :: path =>
    match t.children.get? front with
    | none => none
    | some child => valueAt child path

inductive Plain : NodeTree L → Prop where
  | intro {t : NodeTree L} (priority : t.label.priority = none)
      (child : ∀ k c, t.children.get? k = some c → Plain c) : Plain t

theorem valueAt_eq_none {t : NodeTree L} (h : t.isEmpty) (path : Path) : t.valueAt path = none := by
  rw [isEmpty, Bool.and_eq_true, Option.isNone_iff_eq_none, List.isEmpty_iff] at h
  cases path with
  | nil => exact h.1
  | cons front path =>
    rw [valueAt, OrdMap.get?, h.2]
    rfl

theorem Valid.exists_value {t : NodeTree L} (h : t.Valid) (hne : t.isEmpty = false) :
    ∃ path, t.valueAt path ≠ none := by
  induction h with
  | @intro t leaf priority noPriority nonempty child ih =>
    cases hvalue : t.label.value with
    | some v => exact ⟨[], fun hnone => nomatch hvalue.symm.trans hnone⟩
    | none =>
      obtain ⟨⟨k, c⟩, hentry⟩ : ∃ e, e ∈ t.children.entries := by
        refine exists_mem_of_ne_nil _ fun hnil => ?_
        rw [isEmpty, hvalue, hnil] at hne
        cases hne
      have hc := mem_entries.mp hentry
      obtain ⟨path, hpath⟩ := ih k c hc (nonempty k c hc)
      exact ⟨k :: path, by rwa [valueAt, hc]⟩

/-- Trees without priorities are determined by their values. -/
theorem Plain.ext {s t : NodeTree L} (hs : s.Plain) (ht : t.Plain) (hvs : s.Valid) (hvt : t.Valid)
    (h : ∀ path, s.valueAt path = t.valueAt path) : s = t := by
  induction hs generalizing t with
  | @intro s hspriority hschild ih =>
    obtain ⟨htpriority, htchild⟩ := ht
    obtain ⟨_, _, _, hsne, hsvalid⟩ := hvs
    obtain ⟨_, _, _, htne, htvalid⟩ := hvt
    have hlabel : s.label = t.label := by
      cases hs : s.label
      cases ht : t.label
      have hvalue := h []
      rw [valueAt, valueAt, hs, ht] at hvalue
      rw [hs] at hspriority
      rw [ht] at htpriority
      exact congrArg₂ NodeLabel.mk hvalue (hspriority.trans htpriority.symm)
    refine KeyTree.ext_children hlabel fun k => ?_
    have hk : ∀ path, s.valueAt (k :: path) = t.valueAt (k :: path) := fun path => h _
    simp only [valueAt] at hk
    cases hsk : s.children.get? k with
    | none =>
      cases htk : t.children.get? k with
      | none => rfl
      | some d =>
        rw [hsk, htk] at hk
        obtain ⟨path, hpath⟩ := (htvalid k d htk).exists_value (htne k d htk)
        exact absurd (hk path).symm hpath
    | some c =>
      cases htk : t.children.get? k with
      | none =>
        rw [hsk, htk] at hk
        obtain ⟨path, hpath⟩ := (hsvalid k c hsk).exists_value (hsne k c hsk)
        exact absurd (hk path) hpath
      | some d =>
        rw [hsk, htk] at hk
        exact congrArg some (ih k c hsk (htchild k d htk) (hsvalid k c hsk) (htvalid k d htk) hk)

end NodeTree

namespace Node

def valueAt (n : Node L) (path : Path) : Option L := n.tree.valueAt path

def Plain (n : Node L) : Prop := n.tree.Plain

variable {n m newChild : Node L}

theorem Plain.ext (hn : n.Plain) (hm : m.Plain) (h : ∀ path, n.valueAt path = m.valueAt path) :
    n = m := Node.ext (NodeTree.Plain.ext hn hm n.valid m.valid h)

theorem isEmpty_eq_false_iff : n.isEmpty = false ↔ ∃ path, n.valueAt path ≠ none := by
  refine ⟨n.valid.exists_value, fun ⟨path, hpath⟩ => Bool.eq_false_iff.mpr fun hempty => ?_⟩
  exact hpath (NodeTree.valueAt_eq_none hempty path)

theorem valueAt_of_isEmpty (h : n.isEmpty = true) (path : Path) : n.valueAt path = none :=
  NodeTree.valueAt_eq_none h path

@[simp] theorem valueAt_empty (path : Path) : (empty : Node L).valueAt path = none :=
  valueAt_of_isEmpty rfl path

theorem plain_empty : (empty : Node L).Plain :=
  .intro rfl fun k c hc => by rw [empty] at hc; cases hc

theorem plain_leaf (value : L) : (leaf value none).Plain :=
  .intro rfl fun k c hc => by rw [leaf] at hc; cases hc

/-- There is nothing below a leaf. -/
theorem valueAt_cons_of_isLeafNode (h : n.isLeafNode = true) (front : Key) (path : Path) :
    n.valueAt (front :: path) = none := by
  cases n.valid with
  | intro hleaf =>
    rw [valueAt, NodeTree.valueAt, hleaf h]
    rfl

variable {front : Key}

theorem valueAt_getImmediateChild (hfront : front ≠ priorityKey) (path : Path) :
    (n.getImmediateChild front).valueAt path = n.valueAt (front :: path) := by
  rw [getImmediateChild, if_neg hfront]
  split
  · next hget =>
    rw [valueAt_empty, valueAt, NodeTree.valueAt, hget]
  · next child hget =>
    have hvalue : n.tree.valueAt (front :: path) = NodeTree.valueAt child path := by
      rw [NodeTree.valueAt, hget]
    exact hvalue.symm

theorem Plain.getImmediateChild (h : n.Plain) (front : Key) :
    (n.getImmediateChild front).Plain := by
  obtain ⟨hpriority, hchild⟩ := h
  rw [Node.getImmediateChild]
  split_ifs
  · rw [getPriority, priority, hpriority]
    exact plain_empty
  · split
    · exact plain_empty
    · next child hget => exact hchild front child hget

variable {path : Path}

theorem valueAt_getChild (hpath : priorityKey ∉ path) (rest : Path) :
    (n.getChild path).valueAt rest = n.valueAt (path ++ rest) := by
  induction path generalizing n with
  | nil => rfl
  | cons front path ih =>
    obtain ⟨hfront, hpath⟩ := not_or.mp (mt mem_cons.mpr hpath)
    rw [getChild]
    split_ifs with hleaf hkey
    · exact absurd hkey.symm hfront
    · rw [valueAt_empty, cons_append, valueAt_cons_of_isLeafNode hleaf]
    · rw [ih hpath, valueAt_getImmediateChild (Ne.symm hfront)]
      rfl

theorem Plain.getChild (h : n.Plain) (hpath : priorityKey ∉ path) : (n.getChild path).Plain := by
  induction path generalizing n with
  | nil => exact h
  | cons front path ih =>
    obtain ⟨hfront, hpath⟩ := not_or.mp (mt mem_cons.mpr hpath)
    rw [Node.getChild]
    split_ifs with hleaf hkey
    · exact absurd hkey.symm hfront
    · exact plain_empty
    · exact ih (h.getImmediateChild front) hpath

/-! ## Updates -/

theorem valueAt_ofChildren {priority : Option L} {children : OrdMap Key (NodeTree L)}
    (hpriority : children.get? priorityKey = none)
    (hnonempty : ∀ k c, children.get? k = some c → c.isEmpty = false)
    (hvalid : ∀ k c, children.get? k = some c → c.Valid) (path : Path) :
    (ofChildren priority children hpriority hnonempty hvalid).valueAt path =
      NodeTree.valueAt (.node ⟨none, priority⟩ children) path := by
  rw [ofChildren]
  split_ifs with hempty
  · rw [valueAt_empty, NodeTree.valueAt_eq_none]
    rw [NodeTree.isEmpty, KeyTree.children_node, hempty]
    rfl
  · rfl

theorem get?_newChildren (children : OrdMap Key (NodeTree L)) (front : Key) (newChild : Node L)
    (key : Key) : (newChildren children front newChild).get? key =
      if key = front then if newChild.isEmpty then none else some newChild.tree
      else children.get? key := by
  rw [newChildren]
  split_ifs with hempty hkey hkey
  · rw [get?_erase, if_pos hkey]
  · rw [get?_erase, if_neg hkey]
  · rw [get?_insert, if_pos hkey]
  · rw [get?_insert, if_neg hkey]

/-- A leaf stays if the new child is empty. -/
theorem value_updateImmediateChild (hfront : front ≠ priorityKey) :
    (n.updateImmediateChild front newChild).valueAt [] =
      if newChild.isEmpty = false then none else n.valueAt [] := by
  rw [updateImmediateChild, dif_neg hfront]
  split_ifs with hleaf hempty hempty
  · cases (Bool.and_eq_true_iff.mp hleaf).2.symm.trans hempty
  · rfl
  · exact valueAt_ofChildren _ _ _ []
  · rw [valueAt_ofChildren]
    refine (Option.not_isSome_iff_eq_none.mp fun hvalue => hleaf ?_).symm
    exact Bool.and_eq_true_iff.mpr ⟨hvalue, Bool.not_eq_false _ ▸ hempty⟩

theorem valueAt_updateImmediateChild (hfront : front ≠ priorityKey) (key : Key)
    (path : Path) : (n.updateImmediateChild front newChild).valueAt (key :: path) =
      if key = front then newChild.valueAt path else n.valueAt (key :: path) := by
  rw [updateImmediateChild, dif_neg hfront]
  split_ifs with hleaf hkey hkey
  · obtain ⟨hleaf, hempty⟩ := Bool.and_eq_true_iff.mp hleaf
    rw [valueAt_cons_of_isLeafNode hleaf, valueAt_of_isEmpty hempty]
  · rfl
  · rw [valueAt_ofChildren, NodeTree.valueAt, KeyTree.children_node, get?_newChildren]
    split_ifs with hempty
    · exact (valueAt_of_isEmpty hempty path).symm
    · rfl
  · rw [valueAt_ofChildren, NodeTree.valueAt, KeyTree.children_node, get?_newChildren, if_neg hkey]
    rfl

theorem Plain.updateImmediateChild (hn : n.Plain) (hnew : newChild.Plain)
    (hfront : front ≠ priorityKey) : (n.updateImmediateChild front newChild).Plain := by
  obtain ⟨hpriority, hchild⟩ := hn
  rw [Node.updateImmediateChild, dif_neg hfront]
  split_ifs
  · exact .intro hpriority hchild
  · rw [ofChildren]
    split_ifs
    · exact plain_empty
    · refine .intro hpriority fun k c hc => ?_
      rw [KeyTree.children_node, get?_newChildren] at hc
      split_ifs at hc
      · exact Option.some.inj hc ▸ hnew
      · exact hchild k c hc

/-- What is put at a path takes the place of a leaf above, unless it is empty. -/
theorem valueAt_updateChild (hpath : priorityKey ∉ path) (other : Path) :
    (n.updateChild path newChild).valueAt other =
      if path <+: other then newChild.valueAt (other.drop path.length)
      else if other <+: path ∧ newChild.isEmpty = false then none else n.valueAt other := by
  induction path generalizing n other with
  | nil =>
    rfl
  | cons front path ih =>
    obtain ⟨hfront, hpath⟩ := not_or.mp (mt mem_cons.mpr hpath)
    have ih {n : Node L} := ih (n := n) hpath
    have hnil : ¬front :: path <+: [] := fun h => nomatch prefix_nil.mp h
    -- A child is updated that has what the node has under the key.
    have hstep child (hchild : ∀ other, child.valueAt other = n.valueAt (front :: other))
        (hroot : newChild.isEmpty = false ∨ n.valueAt [] = none) :
        (n.updateImmediateChild front (updateChild child path newChild)).valueAt other =
          if front :: path <+: other then newChild.valueAt (other.drop (front :: path).length)
          else if other <+: front :: path ∧ newChild.isEmpty = false then none
          else n.valueAt other := by
      cases other with
      | nil =>
        rw [value_updateImmediateChild (Ne.symm hfront), if_neg hnil]
        rcases hroot with hnew | hroot
        · obtain ⟨rest, hrest⟩ := isEmpty_eq_false_iff.mp hnew
          rw [if_pos (isEmpty_eq_false_iff.mpr ⟨path ++ rest, ?_⟩), if_pos ⟨List.nil_prefix, hnew⟩]
          rwa [ih, if_pos (prefix_append _ _), drop_left]
        · rw [hroot, ite_self, ite_self]
      | cons key other =>
        rw [valueAt_updateImmediateChild (Ne.symm hfront)]
        simp only [cons_prefix_cons]
        by_cases hkey : key = front
        · rw [if_pos hkey, ih, hchild, hkey]
          simp only [true_and, length_cons, drop_succ_cons]
        · simp only [hkey, Ne.symm hkey, false_and, if_false]
    by_cases hleaf : n.isLeafNode
    · have hnone other : empty.valueAt other = n.valueAt (front :: other) :=
        (valueAt_empty other).trans (valueAt_cons_of_isLeafNode hleaf front other).symm
      by_cases hempty : newChild.isEmpty
      · rw [updateChild, if_pos hleaf,
          if_pos (Bool.and_eq_true_iff.mpr ⟨hempty, decide_eq_true (Ne.symm hfront)⟩)]
        cases other with
        | nil => rw [if_neg hnil, if_neg fun h => Bool.false_ne_true (h.2.symm.trans hempty)]
        | cons key other =>
          rw [valueAt_cons_of_isLeafNode hleaf, valueAt_of_isEmpty hempty, ite_self, ite_self]
      · rw [updateChild, if_pos hleaf, if_neg fun h => hempty (Bool.and_eq_true_iff.mp h).1]
        exact hstep empty hnone (Or.inl (Bool.eq_false_iff.mpr hempty))
    · rw [updateChild, if_neg hleaf]
      refine hstep _ (valueAt_getImmediateChild (Ne.symm hfront)) (Or.inr ?_)
      exact Option.not_isSome_iff_eq_none.mp hleaf

theorem isEmpty_updateChild (hpath : priorityKey ∉ path)
    (h : newChild.isEmpty = false) : (n.updateChild path newChild).isEmpty = false := by
  obtain ⟨rest, hrest⟩ := isEmpty_eq_false_iff.mp h
  refine isEmpty_eq_false_iff.mpr ⟨path ++ rest, ?_⟩
  rwa [valueAt_updateChild hpath, if_pos (prefix_append _ _), drop_left]

theorem Plain.updateChild (hn : n.Plain) (hnew : newChild.Plain)
    (hpath : priorityKey ∉ path) : (n.updateChild path newChild).Plain := by
  induction path generalizing n with
  | nil => exact hnew
  | cons front path ih =>
    obtain ⟨hfront, hpath⟩ := not_or.mp (mt mem_cons.mpr hpath)
    rw [Node.updateChild]
    split_ifs
    · exact hn
    · exact hn.updateImmediateChild (ih plain_empty hpath) (Ne.symm hfront)
    · exact hn.updateImmediateChild (ih (hn.getImmediateChild front) hpath) (Ne.symm hfront)

/-- What was put at a path is found there.  Updates at paths of which none is above the other do not
see each other and commute. -/
theorem updateChild_laws {n v w : Node L} {a b : Path} (hn : n.Plain) (hv : v.Plain) (hw : w.Plain)
    (ha : priorityKey ∉ a) (hb : priorityKey ∉ b) :
    (n.updateChild a v).getChild a = v ∧ (¬a <+: b → ¬b <+: a →
      (n.updateChild a v).getChild b = n.getChild b ∧
      (n.updateChild a v).updateChild b w = (n.updateChild b w).updateChild a v) := by
  have hav := hn.updateChild hv ha
  refine ⟨(hav.getChild ha).ext hv fun q => ?_, fun hab hba => ⟨?_, ?_⟩⟩
  · rw [valueAt_getChild ha, valueAt_updateChild ha, if_pos (prefix_append a q), drop_left]
  · refine (hav.getChild hb).ext (hn.getChild hb) fun q => ?_
    have hq := prefix_append b q
    rw [valueAt_getChild hb, valueAt_getChild hb, valueAt_updateChild ha,
      if_neg fun h => (List.prefix_or_prefix_of_prefix h hq).elim hab hba,
      if_neg fun h => hba (hq.trans h.1)]
  · refine (hav.updateChild hw hb).ext ((hn.updateChild hw hb).updateChild hv ha) fun q => ?_
    simp only [valueAt_updateChild ha, valueAt_updateChild hb]
    by_cases haq : a <+: q
    · have hbq : ¬b <+: q := fun h => (List.prefix_or_prefix_of_prefix haq h).elim hab hba
      have hqb : ¬q <+: b := fun h => hab (haq.trans h)
      simp only [haq, hbq, hqb, if_true, if_false, false_and]
    · by_cases hbq : b <+: q
      · have hqa : ¬q <+: a := fun h => hba (hbq.trans h)
        simp only [haq, hbq, hqa, if_true, if_false, false_and]
      · simp only [haq, hbq, if_false]
        split_ifs <;> rfl

theorem updateChild_laws_siblings :
    ((empty : Node Int).updateChild ["a"] (leaf 1 none)).updateChild ["b"] (leaf 2 none) =
      ((empty : Node Int).updateChild ["b"] (leaf 2 none)).updateChild ["a"] (leaf 1 none) :=
  ((updateChild_laws plain_empty (plain_leaf 1) (plain_leaf 2) (by decide) (by decide)).2
    (by decide) (by decide)).2

end Node

end Firebase.Database
