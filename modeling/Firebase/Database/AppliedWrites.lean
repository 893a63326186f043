import Firebase.Database.CompoundWrite
import Firebase.Database.NodeValues

/-!
# Applying compound writes

`applyToNode:` of `FCompoundWrite` performs the writes of the tree on a node, priorities after
everything else and only where there is a node.
-/

namespace Firebase.Database

open Lib OrdMap List

variable {L : Type}

namespace CompoundWrite

/-- The loop of `applySubtreeWrite:atPath:toNode:` over the children, with the priority. -/
def applyChild (relativePath : Path) (block : Option (Node L) × Node L)
    (child : Key × (Option (Node L) × (Path → Node L → Node L))) : Option (Node L) × Node L :=
  if child.1 = priorityKey then (child.2.1, block.2)
  else (block.1, child.2.2 (relativePath ++ [child.1]) block.2)

def applyPriority (relativePath : Path) (block : Option (Node L) × Node L) : Node L :=
  match block.1 with
  | some priorityWrite =>
    if (block.2.getChild relativePath).isEmpty then block.2
    else block.2.updateChild (relativePath ++ [priorityKey]) priorityWrite
  | none => block.2

/-- `applySubtreeWrite:atPath:toNode:` of a tree, beside the value that the tree has. -/
def subtreeWrite (value : Option (Node L))
    (children : List (Key × (Option (Node L) × (Path → Node L → Node L)))) :
    Option (Node L) × (Path → Node L → Node L) :=
  (value, fun relativePath node =>
    match value with
    | some value => node.updateChild relativePath value
    | none => applyPriority relativePath (children.foldl (applyChild relativePath) (none, node)))

def applySubtreeWrite (t : ImmutableTree (Node L)) : Path → Node L → Node L :=
  (t.fold subtreeWrite).2

def applyToNode (write : CompoundWrite L) (node : Node L) : Node L :=
  applySubtreeWrite write.writeTree [] node

theorem applySubtreeWrite_eq (t : ImmutableTree (Node L)) (path : Path) (n : Node L) :
    applySubtreeWrite t path n =
      match t.value with
      | some value => n.updateChild path value
      | none =>
        applyPriority path (t.children.entries.foldl (fun block e =>
          applyChild path block (e.1, e.2.value, applySubtreeWrite e.2)) (none, n)) := by
  have hfold (t : ImmutableTree (Node L)) : t.fold subtreeWrite = (t.value, applySubtreeWrite t) :=
    Prod.ext (by rw [KeyTree.fold_eq]; rfl) rfl
  rw [applySubtreeWrite, KeyTree.fold_eq]
  show (match t.value with | some value => _ | none => _) = _
  cases t.value with
  | some value => rfl
  | none =>
    rw [foldl_map]
    simp only [hfold]
    rfl

end CompoundWrite

/-! ## Values -/

namespace Node

/-- The values of a node after writes at different paths. -/
structure Overlays (writes : Path → Node L → Prop) (n m : Node L) : Prop where
  written : ∀ r v, writes r v → ∀ q, m.valueAt (r ++ q) = v.valueAt q
  above : ∀ r v, writes r v → v.isEmpty = false → ∀ q, q <+: r → q ≠ r → m.valueAt q = none
  other : ∀ q, (∀ r v, writes r v → ¬r <+: q ∧ (q <+: r → v.isEmpty = true)) →
    m.valueAt q = n.valueAt q

variable {writes writes' : Path → Node L → Prop} {n m k : Node L} {path : Path}

theorem Overlays.congr (h : Overlays writes n m) (hiff : ∀ r v, writes r v ↔ writes' r v)
    (hvalue : ∀ q, k.valueAt q = m.valueAt q) : Overlays writes' n k := by
  obtain rfl : writes = writes' := funext₂ fun r v => propext (hiff r v)
  refine ⟨fun r v hw q => ?_, fun r v hw hv q hq hne => ?_, fun q hq => ?_⟩
  · exact (hvalue _).trans (h.written r v hw q)
  · exact (hvalue _).trans (h.above r v hw hv q hq hne)
  · exact (hvalue _).trans (h.other q hq)

theorem overlays_updateChild (hpath : priorityKey ∉ path) (n node : Node L) :
    Overlays (fun r v => r = path ∧ v = node) n (n.updateChild path node) := by
  refine ⟨?_, ?_, fun q hq => ?_⟩
  · rintro r v ⟨rfl, rfl⟩ q
    rw [valueAt_updateChild hpath, if_pos (prefix_append _ _), drop_left]
  · rintro r v ⟨rfl, rfl⟩ hv q hq hne
    rw [valueAt_updateChild hpath, if_neg fun h => hne (hq.eq_of_length_le h.length_le),
      if_pos ⟨hq, hv⟩]
  · obtain ⟨hnot, hempty⟩ := hq path node ⟨rfl, rfl⟩
    rw [valueAt_updateChild hpath, if_neg hnot, if_neg]
    exact fun h => Bool.false_ne_true (h.2.symm.trans (hempty h.1))

theorem Overlays.comp (h : Overlays writes n m) (h' : Overlays writes' m k)
    (hdisjoint : ∀ r v r' v', writes r v → writes' r' v' → ¬r <+: r' ∧ ¬r' <+: r) :
    Overlays (fun r v => writes r v ∨ writes' r v) n k := by
  refine ⟨?_, ?_, fun q hq => ?_⟩
  · rintro r v (hw | hw) q
    · refine (h'.other _ fun r' v' hw' => ?_).trans (h.written r v hw q)
      obtain ⟨hnot, hnot'⟩ := hdisjoint r v r' v' hw hw'
      refine ⟨fun hle => ?_, fun hle => absurd ((prefix_append r q).trans hle) hnot⟩
      exact (List.prefix_or_prefix_of_prefix hle (prefix_append r q)).elim hnot' hnot
    · exact h'.written r v hw q
  · rintro r v (hw | hw) hv q hq hne
    · -- Something else may be written below as well.
      by_cases hother : ∃ r' v', writes' r' v' ∧ q <+: r' ∧ v'.isEmpty = false
      · obtain ⟨r', v', hw', hle, hv'⟩ := hother
        refine h'.above r' v' hw' hv' q hle ?_
        rintro rfl
        exact (hdisjoint r v q v' hw hw').2 hq
      · refine (h'.other q fun r' v' hw' => ⟨fun hle => ?_, fun hle => ?_⟩).trans
          (h.above r v hw hv q hq hne)
        · exact (hdisjoint r v r' v' hw hw').2 (hle.trans hq)
        · exact Bool.eq_true_of_not_eq_false fun hv' => hother ⟨r', v', hw', hle, hv'⟩
    · exact h'.above r v hw hv q hq hne
  · rw [h'.other q fun r v hw => hq r v (.inr hw), h.other q fun r v hw => hq r v (.inl hw)]

/-- A priority is not a value. -/
theorem valueAt_updateChild_priority (hpath : priorityKey ∉ path)
    (hne : (n.getChild path).isEmpty = false) (priority : Node L) (q : Path) :
    (n.updateChild (path ++ [priorityKey]) priority).valueAt q = n.valueAt q := by
  induction path generalizing n q with
  | nil =>
    have hupdate : n.updateChild [priorityKey] priority = n.updatePriority priority := by
      simp [updateImmediateChild, updateChild]
    have hne : n.isEmpty = false := hne
    rw [nil_append, hupdate, updatePriority, dif_neg (Bool.eq_false_iff.mp hne)]
    cases q with
    | nil => rfl
    | cons key q =>
      show NodeTree.valueAt (.node _ _) _ = n.tree.valueAt _
      rw [NodeTree.valueAt, KeyTree.children_node]
      rfl
  | cons front path ih =>
    obtain ⟨hfront, hpath⟩ := not_or.mp (mt mem_cons.mpr hpath)
    rw [getChild] at hne
    split_ifs at hne with hleaf hkey
    · exact absurd hkey.symm hfront
    · cases hne
    · rw [cons_append, updateChild, if_neg hleaf]
      cases q with
      | nil =>
        have hvalue : n.valueAt [] = none := Option.not_isSome_iff_eq_none.mp hleaf
        rw [value_updateImmediateChild (Ne.symm hfront), hvalue, ite_self]
      | cons key q =>
        rw [valueAt_updateImmediateChild (Ne.symm hfront)]
        split_ifs with hkey
        · rw [ih hpath hne, valueAt_getImmediateChild (Ne.symm hfront), hkey]
        · rfl

end Node

namespace CompoundWrite

variable {n : Node L} {path : Path}

theorem valueAt_applyPriority (hpath : priorityKey ∉ path) (block : Option (Node L) × Node L)
    (q : Path) : (applyPriority path block).valueAt q = block.2.valueAt q := by
  rw [applyPriority]
  split
  · split_ifs with hempty
    · rfl
    · exact Node.valueAt_updateChild_priority hpath (Bool.eq_false_iff.mpr hempty) _ q
  · rfl

def WritesAt (t : ImmutableTree (Node L)) (path : Path) (r : Path) (v : Node L) : Prop :=
  ∃ q, r = path ++ q ∧ priorityKey ∉ q ∧ t.valueAtPath q = some v

/-- Children at different keys write at different paths. -/
theorem overlays_applyChildren {es : List (Key × ImmutableTree (Node L))}
    (hes : (es.map Prod.fst).Nodup) (hchild : ∀ e ∈ es, e.1 ≠ priorityKey → ∀ n : Node L,
      Node.Overlays (WritesAt e.2 (path ++ [e.1])) n (applySubtreeWrite e.2 (path ++ [e.1]) n))
    (priority : Option (Node L)) (n : Node L) :
    Node.Overlays (fun r v => ∃ e ∈ es, e.1 ≠ priorityKey ∧ WritesAt e.2 (path ++ [e.1]) r v) n
      (es.foldl (fun block e => applyChild path block (e.1, e.2.value, applySubtreeWrite e.2))
        (priority, n)).2 := by
  induction es generalizing priority n with
  | nil => exact ⟨nofun, nofun, fun _ _ => rfl⟩
  | cons e es ih =>
    obtain ⟨hnotMem, hes⟩ := nodup_cons.mp hes
    obtain ⟨hhead, hchild⟩ := forall_mem_cons.mp hchild
    rw [foldl_cons, applyChild]
    by_cases hkey : e.1 = priorityKey
    · rw [if_pos (by exact hkey)]
      refine (ih hes hchild e.2.value n).congr (fun r v => ?_) fun _ => rfl
      simp only [exists_mem_cons_iff, hkey, ne_eq, not_true_eq_false, false_and, false_or]
    · rw [if_neg (by exact hkey)]
      refine ((hhead hkey n).comp (ih hes hchild priority _) ?_).congr (fun r v => ?_) fun _ => rfl
      · rintro _ v _ v' ⟨q, rfl, -⟩ ⟨e', he', -, q', rfl, -⟩
        have hne : e.1 ≠ e'.1 := fun h => hnotMem (h ▸ mem_map_of_mem he')
        simp only [append_assoc, prefix_append_right_inj, singleton_append,
          cons_prefix_cons]
        exact ⟨fun h => hne h.1, fun h => hne h.1.symm⟩
      · simp only [exists_mem_cons_iff, hkey, ne_eq, not_false_eq_true, true_and]

theorem overlays_applySubtreeWrite (t : ImmutableTree (Node L))
    (hanti : ∀ r q, r <+: q → r ≠ q → (t.valueAtPath r).isSome → t.valueAtPath q = none)
    (hpath : priorityKey ∉ path) (n : Node L) :
    Node.Overlays (WritesAt t path) n (applySubtreeWrite t path n) := by
  induction t using ImmutableTree.induction generalizing path n with
  | h t ih =>
    rw [applySubtreeWrite_eq]
    cases hvalue : t.value with
    | some node =>
      refine (Node.overlays_updateChild hpath n node).congr (fun r v => ⟨?_, ?_⟩) fun _ => rfl
      · rintro ⟨rfl, rfl⟩
        exact ⟨[], (append_nil _).symm, not_mem_nil, hvalue⟩
      · rintro ⟨q, rfl, -, hq⟩
        cases q with
        | nil => exact ⟨append_nil _, Option.some.inj (hq.symm.trans hvalue)⟩
        | cons key q =>
          have hsome : (t.valueAtPath []).isSome := Option.isSome_iff_exists.mpr ⟨node, hvalue⟩
          cases hq.symm.trans
            (hanti [] (key :: q) nil_prefix (cons_ne_nil key q).symm hsome)
    | none =>
      have hcons {e : Key × ImmutableTree (Node L)} (he : e ∈ t.children.entries) q :
          t.valueAtPath (e.1 :: q) = e.2.valueAtPath q := by
        rw [ImmutableTree.valueAtPath, mem_entries.mp he]
      refine (overlays_applyChildren t.children.nodup_keys ?_ none n).congr (fun r v => ⟨?_, ?_⟩)
        (valueAt_applyPriority hpath _)
      · intro e he hkey n
        refine ih e.1 e.2 (mem_entries.mp he) (fun r q hrq hne hsome => ?_) ?_ n
        · rw [← hcons he] at hsome ⊢
          exact hanti (e.1 :: r) (e.1 :: q) (cons_prefix_cons.mpr ⟨rfl, hrq⟩)
            (fun h => hne (List.cons.inj h).2) hsome
        · simp [hpath, Ne.symm hkey]
      · rintro ⟨e, he, hkey, q, rfl, hq, hv⟩
        refine ⟨e.1 :: q, append_assoc _ _ _, ?_, (hcons he q).trans hv⟩
        simp [hq, Ne.symm hkey]
      · rintro ⟨q, rfl, hq, hv⟩
        cases q with
        | nil => cases hvalue.symm.trans hv
        | cons key q =>
          obtain ⟨hkey, hq⟩ := not_or.mp (mt mem_cons.mpr hq)
          cases hget : t.children.get? key with
          | none =>
            rw [ImmutableTree.valueAtPath, hget] at hv
            cases hv
          | some child =>
            have he : (key, child) ∈ t.children.entries := mem_entries.mpr hget
            refine ⟨(key, child), he, Ne.symm hkey, q, ?_, hq, (hcons he q).symm.trans hv⟩
            exact (append_assoc path [key] q).symm

/-- The node after all of the writes. -/
theorem WellFormed.overlays {write : CompoundWrite L} (h : write.WellFormed) (n : Node L) :
    Node.Overlays (fun r v => priorityKey ∉ r ∧ write.at_ r = some v) n (write.applyToNode n) := by
  refine (overlays_applySubtreeWrite write.writeTree h.antichain not_mem_nil n).congr
    (fun r v => ⟨?_, ?_⟩) fun _ => rfl
  · rintro ⟨q, rfl, hq, hv⟩
    exact ⟨hq, hv⟩
  · rintro ⟨hr, hv⟩
    exact ⟨r, rfl, hr, hv⟩

/-! ## Adding a write -/

/-- Something is written at the path or below it. -/
def Fills (write : CompoundWrite L) (path : Path) : Prop :=
  ∃ r v, path <+: r ∧ priorityKey ∉ r ∧ write.at_ r = some v ∧ v.isEmpty = false

/-- No leaf of the node is written below, and then is not any more with another write. -/
def KeepsLeaves (write : CompoundWrite L) (n node : Node L) (path : Path) : Prop :=
  ∀ l, l <+: path → l ≠ path → n.valueAt l ≠ none → (∀ r, r <+: l → write.at_ r = none) →
    write.Fills l → (write.addWrite node path).Fills l

/-- Where a write is found that was added: at its path, or in the write that its path is in. -/
structure Added (f f' : Path → Option (Node L)) (n node : Node L) (path at_ : Path) (v : Node L) :
    Prop where
  le : at_ <+: path
  known : at_ = path ∨ f at_ ≠ none
  written : f' at_ = some v
  under : ∀ r, at_ <+: r → r ≠ at_ → f' r = none
  other : ∀ r, ¬at_ <+: r → f' r = f r
  value : ∀ q, v.valueAt q = (n.updateChild path node).valueAt (at_ ++ q)
  fills : node.isEmpty = false → v.isEmpty = false
  filled : v.isEmpty = false → node.isEmpty = false ∨ ∃ w, f at_ = some w ∧ w.isEmpty = false

variable {write : CompoundWrite L} {node : Node L}

section

variable (h : write.WellFormed) (hpath : priorityKey ∉ path) (n node : Node L)

include h hpath

theorem WellFormed.added :
    ∃ at_ v, Added write.at_ (write.addWrite node path).at_ (write.applyToNode n) node path at_
      v := by
  cases h.adds node path with
  | replaces hnone hadd =>
    refine ⟨path, node, prefix_rfl, .inl rfl, ?_, fun r hr hne => ?_, fun r hr => ?_,
      fun q => ?_, id, .inl⟩
    · rw [hadd, if_pos prefix_rfl, if_pos rfl]
    · rw [hadd, if_pos hr, if_neg hne]
    · rw [hadd, if_neg hr]
    · rw [Node.valueAt_updateChild hpath, if_pos (prefix_append _ _), drop_left]
  | updates r w hr hw hfirst hadd =>
    obtain ⟨rest, rfl⟩ := hr
    rw [drop_left] at hadd
    have hrest : priorityKey ∉ rest := fun hmem => hpath (mem_append_right r hmem)
    refine ⟨r, w.updateChild rest node, prefix_append r rest,
      .inr (hw ▸ Option.some_ne_none w), ?_, fun q hq hne => ?_, fun q hq => ?_, fun q => ?_,
      Node.isEmpty_updateChild hrest, fun hv => ?_⟩
    · rw [hadd, if_pos rfl]
    · rw [hadd, if_neg hne]
      exact h.antichain r q hq hne.symm (hw ▸ rfl)
    · rw [hadd, if_neg]
      rintro rfl
      exact hq prefix_rfl
    · have hr : priorityKey ∉ r := fun hmem => hpath (mem_append_left rest hmem)
      have hdrop : (r ++ q).drop (r ++ rest).length = q.drop rest.length := by
        rw [length_append, ← drop_drop, drop_left]
      rw [Node.valueAt_updateChild hrest, Node.valueAt_updateChild hpath,
        (h.overlays n).written r w ⟨hr, hw⟩, hdrop]
      simp only [prefix_append_right_inj]
    · obtain ⟨q, hq⟩ := Node.isEmpty_eq_false_iff.mp hv
      rw [Node.valueAt_updateChild hrest] at hq
      split_ifs at hq
      · exact .inl (Node.isEmpty_eq_false_iff.mpr ⟨_, hq⟩)
      · exact absurd rfl hq
      · exact .inr ⟨w, hw, Node.isEmpty_eq_false_iff.mpr ⟨q, hq⟩⟩

/-- Adding a write and performing it after the others is the same, other than at a leaf. -/
theorem WellFormed.valueAt_addWrite (q : Path) (hq : q <+: path → q ≠ path →
      (∀ r, r <+: q → write.at_ r = none) → write.Fills q → (write.addWrite node path).Fills q) :
    ((write.addWrite node path).applyToNode n).valueAt q =
      ((write.applyToNode n).updateChild path node).valueAt q := by
  obtain ⟨at_, v, hadded⟩ := h.added hpath n node
  have hat : priorityKey ∉ at_ := fun hmem => hpath (hadded.le.subset hmem)
  have hafter := (h.addWrite node path).overlays n
  have hbefore := h.overlays n
  by_cases hle : at_ <+: q
  · obtain ⟨rest, rfl⟩ := hle
    rw [hafter.written at_ v ⟨hat, hadded.written⟩, hadded.value]
  · rw [Node.valueAt_updateChild hpath, if_neg fun h => hle (hadded.le.trans h)]
    have hother {r : Path} hr {w : Node L}
        (hw : priorityKey ∉ r ∧ write.at_ r = some w) :
        priorityKey ∉ r ∧ (write.addWrite node path).at_ r = some w :=
      ⟨hw.1, (hadded.other r hr).trans hw.2⟩
    split_ifs with hnode
    · have hqat := (List.prefix_or_prefix_of_prefix hnode.1 hadded.le).resolve_right hle
      refine hafter.above at_ v ⟨hat, hadded.written⟩ (hadded.fills hnode.2) q hqat ?_
      rintro rfl
      exact hle prefix_rfl
    · by_cases hin : ∃ r w, (priorityKey ∉ r ∧ write.at_ r = some w) ∧ r <+: q
      · obtain ⟨r, w, hw, hrq⟩ := hin
        have hr : ¬at_ <+: r := fun h => hle (h.trans hrq)
        obtain ⟨rest, rfl⟩ := hrq
        rw [hafter.written r w (hother hr hw), hbefore.written r w hw]
      · by_cases hfills : write.Fills q
        · -- Whatever fills the path is still there, or it is all above the path of the write.
          have hfills' : (write.addWrite node path).Fills q := by
            by_cases hqpath : q <+: path
            · refine hq hqpath (fun heq => hle (heq ▸ hadded.le)) (fun r hr => ?_) hfills
              refine Option.not_isSome_iff_eq_none.mp fun hsome => ?_
              obtain ⟨w, hw⟩ := Option.isSome_iff_exists.mp hsome
              exact hin ⟨r, w, ⟨fun hmem => hpath (hqpath.subset (hr.subset hmem)), hw⟩, hr⟩
            · obtain ⟨r, w, hqr, hr, hw, hne⟩ := hfills
              refine ⟨r, w, hqr, hr, (hother (fun h => ?_) ⟨hr, hw⟩).2, hne⟩
              exact (List.prefix_or_prefix_of_prefix h hqr).elim hle
                fun h => hqpath (h.trans hadded.le)
          obtain ⟨r, w, hqr, hr, hw, hne⟩ := hfills
          obtain ⟨r', w', hqr', hr', hw', hne'⟩ := hfills'
          rw [hbefore.above r w ⟨hr, hw⟩ hne q hqr fun heq =>
            hin ⟨r, w, ⟨hr, hw⟩, heq ▸ prefix_rfl⟩]
          refine hafter.above r' w' ⟨hr', hw'⟩ hne' q hqr' ?_
          rintro rfl
          exact hin ⟨q, w', ⟨hr', (hadded.other q hle).symm.trans hw'⟩, prefix_rfl⟩
        · rw [hbefore.other q fun r w hw => ⟨fun h => hin ⟨r, w, hw, h⟩, fun h =>
            Bool.eq_true_of_not_eq_false fun hne => hfills ⟨r, w, h, hw.1, hw.2, hne⟩⟩]
          refine hafter.other q fun r w ⟨hr, hw⟩ => ⟨fun hrq => ?_, fun hqr => ?_⟩
          · have hnot : ¬at_ <+: r := fun h => hle (h.trans hrq)
            exact hin ⟨r, w, ⟨hr, (hadded.other r hnot).symm.trans hw⟩, hrq⟩
          · refine Bool.eq_true_of_not_eq_false fun hne => ?_
            by_cases hat_le : at_ <+: r
            · obtain rfl : r = at_ := by
                by_contra hr_ne
                cases hw.symm.trans (hadded.under r hat_le hr_ne)
              obtain rfl := Option.some.inj (hw.symm.trans hadded.written)
              rcases hadded.filled hne with hnode' | ⟨u, hu, hne'⟩
              · exact hnode ⟨hqr.trans hadded.le, hnode'⟩
              · exact hfills ⟨r, u, hqr, hr, hu, hne'⟩
            · exact hfills ⟨r, w, hqr, hr, (hadded.other r hat_le).symm.trans hw, hne⟩

/-- A leaf that was written below is still there if what was written is deleted before. -/
theorem WellFormed.valueAt_addWrite_of_leaf {l : Path} (hl : l <+: path) (hne : l ≠ path)
    (hnone : ∀ r, r <+: l → write.at_ r = none) (hfills : write.Fills l)
    (hnot : ¬(write.addWrite node path).Fills l) :
    ((write.addWrite node path).applyToNode n).valueAt l = n.valueAt l ∧
      ((write.applyToNode n).updateChild path node).valueAt l = none := by
  obtain ⟨at_, v, hadded⟩ := h.added hpath n node
  constructor
  · refine ((h.addWrite node path).overlays n).other l fun r w ⟨hr, hw⟩ =>
      ⟨fun hrl => ?_, fun hlr => ?_⟩
    · by_cases hle : at_ <+: r
      · rcases hadded.known with rfl | hsome
        · exact hne (hl.eq_of_length_le (hle.trans hrl).length_le)
        · exact hsome (hnone at_ (hle.trans hrl))
      · cases hw.symm.trans ((hadded.other r hle).trans (hnone r hrl))
    · exact Bool.eq_true_of_not_eq_false fun hw' => hnot ⟨r, w, hlr, hr, hw, hw'⟩
  · obtain ⟨r, w, hlr, hr, hw, hw'⟩ := hfills
    have hlne : l ≠ r := fun heq => nomatch hw.symm.trans (hnone r (heq ▸ prefix_rfl))
    rw [Node.valueAt_updateChild hpath, (h.overlays n).above r w ⟨hr, hw⟩ hw' l hlr hlne, ite_self,
      if_neg fun h => hne (hl.eq_of_length_le h.length_le)]

/-- The values are the same exactly if leaves are kept. -/
theorem WellFormed.values_addWrite_iff :
    (∀ q, ((write.addWrite node path).applyToNode n).valueAt q =
      ((write.applyToNode n).updateChild path node).valueAt q) ↔
      write.KeepsLeaves n node path := by
  constructor
  · intro heq l hl hne hvalue hnone hfills
    by_contra hnot
    obtain ⟨hleaf, hgone⟩ := h.valueAt_addWrite_of_leaf hpath n node hl hne hnone hfills hnot
    exact hvalue (hleaf.symm.trans ((heq l).trans hgone))
  · intro hkeeps q
    by_cases hq : q <+: path ∧ q ≠ path ∧ (∀ r, r <+: q → write.at_ r = none) ∧ write.Fills q ∧
        ¬(write.addWrite node path).Fills q
    · obtain ⟨hq, hne, hnone, hfills, hnot⟩ := hq
      obtain ⟨hleaf, hgone⟩ := h.valueAt_addWrite_of_leaf hpath n node hq hne hnone hfills hnot
      rw [hleaf, hgone]
      by_contra hvalue
      exact hnot (hkeeps q hq hne hvalue hnone hfills)
    · refine h.valueAt_addWrite hpath n node q fun hle hne hnone hfills => ?_
      by_contra hnot
      exact hq ⟨hle, hne, hnone, hfills, hnot⟩

end

/-! ## Data without priorities -/

def Plain (write : CompoundWrite L) : Prop :=
  ∀ r v, write.at_ r = some v → priorityKey ∉ r ∧ v.Plain

theorem plain_emptyWrite : (emptyWrite : CompoundWrite L).Plain := by
  intro r v hv
  rw [at_, emptyWrite, ImmutableTree.valueAtPath_ofValue, ite_self] at hv
  cases hv

theorem plain_applySubtreeWrite (t : ImmutableTree (Node L))
    (ht : ∀ r v, t.valueAtPath r = some v → priorityKey ∉ r ∧ v.Plain)
    (hpath : priorityKey ∉ path) (hn : n.Plain) : (applySubtreeWrite t path n).Plain := by
  induction t using ImmutableTree.induction generalizing path n with
  | h t ih =>
    rw [applySubtreeWrite_eq]
    cases hvalue : t.value with
    | some value => exact hn.updateChild (ht [] value hvalue).2 hpath
    | none =>
      have hloop (es : List (Key × ImmutableTree (Node L))) (hes : ∀ e ∈ es, e ∈ t.children.entries)
          n (hn : n.Plain) : ∃ m : Node L, m.Plain ∧
            es.foldl (fun block e => applyChild path block (e.1, e.2.value, applySubtreeWrite e.2))
              (none, n) = (none, m) := by
        induction es generalizing n with
        | nil => exact ⟨n, hn, rfl⟩
        | cons e es ihes =>
          obtain ⟨he, hes⟩ := forall_mem_cons.mp hes
          have hget := mem_entries.mp he
          have hchild : ∀ r v, e.2.valueAtPath r = some v → priorityKey ∉ e.1 :: r ∧ v.Plain := by
            intro r v hv
            refine ht (e.1 :: r) v ?_
            rwa [ImmutableTree.valueAtPath, hget]
          rw [foldl_cons, applyChild]
          by_cases hkey : e.1 = priorityKey
          · have hnone : e.2.value = none := by
              refine Option.eq_none_iff_forall_ne_some.mpr fun v hv => ?_
              exact (hchild [] v hv).1 (hkey ▸ mem_cons_self)
            rw [if_pos (by exact hkey), hnone]
            exact ihes hes n hn
          · rw [if_neg (by exact hkey)]
            refine ihes hes _ (ih e.1 e.2 hget (fun r v hv => ?_) ?_ hn)
            · obtain ⟨hr, hv⟩ := hchild r v hv
              exact ⟨fun hmem => hr (mem_cons_of_mem _ hmem), hv⟩
            · simp [hpath, Ne.symm hkey]
      obtain ⟨m, hm, heq⟩ := hloop t.children.entries (fun _ => id) n hn
      rwa [heq]

theorem Plain.applyToNode (hw : write.Plain) (hn : n.Plain) : (write.applyToNode n).Plain :=
  plain_applySubtreeWrite write.writeTree hw not_mem_nil hn

theorem Plain.addWrite (h : write.WellFormed) (hw : write.Plain) (hnode : node.Plain)
    (hpath : priorityKey ∉ path) : (write.addWrite node path).Plain := by
  intro r v hv
  cases h.adds node path with
  | replaces _ hadd =>
    rw [hadd] at hv
    split_ifs at hv with hle heq
    · cases hv
      exact ⟨heq ▸ hpath, hnode⟩
    · exact hw r v hv
  | updates s u hs hu _ hadd =>
    rw [hadd] at hv
    split_ifs at hv with heq
    · cases hv
      obtain ⟨hr, hu⟩ := hw s u hu
      exact ⟨heq ▸ hr, hu.updateChild hnode fun hmem => hpath (mem_of_mem_drop hmem)⟩
    · exact hw r v hv

/-- Without priorities, the nodes are the same exactly if leaves are kept. -/
theorem WellFormed.addWrite_eq_iff (h : write.WellFormed) (hw : write.Plain) (hn : n.Plain)
    (hnode : node.Plain) (hpath : priorityKey ∉ path) :
    (write.addWrite node path).applyToNode n = (write.applyToNode n).updateChild path node ↔
      write.KeepsLeaves n node path := by
  rw [← h.values_addWrite_iff hpath]
  refine ⟨fun heq q => heq ▸ rfl, fun hvalues => ?_⟩
  exact ((hw.addWrite h hnode hpath).applyToNode hn).ext
    ((hw.applyToNode hn).updateChild hnode hpath) hvalues

/-- Layering a write onto a compound write gives the values of performing the writes one after the
other exactly if leaves are kept; without priorities, it gives the same node. -/
theorem applyToNode_addWrite_iff (h : write.WellFormed) (hpath : priorityKey ∉ path) :
    ((∀ q, ((write.addWrite node path).applyToNode n).valueAt q =
        ((write.applyToNode n).updateChild path node).valueAt q) ↔
      write.KeepsLeaves n node path) ∧
    (write.Plain → n.Plain → node.Plain →
      ((write.addWrite node path).applyToNode n = (write.applyToNode n).updateChild path node ↔
        write.KeepsLeaves n node path)) :=
  ⟨h.values_addWrite_iff hpath n node, fun hw hn hnode => h.addWrite_eq_iff hw hn hnode hpath⟩

theorem applyToNode_addWrite_leaf :
    ((emptyWrite.addWrite (.leaf 1 none) ["a"]).addWrite (.leaf 2 none) ["b"]).applyToNode
        (.leaf 5 none : Node Nat) =
      ((emptyWrite.addWrite (.leaf 1 none) ["a"]).applyToNode (.leaf 5 none)).updateChild ["b"]
        (.leaf 2 none) := by
  have hwrite : (emptyWrite.addWrite (.leaf 1 none) ["a"]).Plain :=
    plain_emptyWrite.addWrite wellFormed_emptyWrite (Node.plain_leaf 1) (by decide)
  refine ((applyToNode_addWrite_iff (wellFormed_emptyWrite.addWrite _ _) (by decide)).2 hwrite
    (Node.plain_leaf 5) (Node.plain_leaf 2)).mpr fun l hl hne _ _ _ => ?_
  exact ⟨["b"], .leaf 2 none, hl, by decide, by decide, rfl⟩

/-- A leaf below which a write is deleted again, and a priority that comes before its node. -/
theorem applyToNode_addWrite_ne :
    ((emptyWrite.addWrite (.leaf 1 none) ["a"]).addWrite .empty ["a"]).applyToNode
        (.leaf 5 none : Node Nat) ≠
      ((emptyWrite.addWrite (.leaf 1 none) ["a"]).applyToNode (.leaf 5 none)).updateChild ["a"]
        .empty ∧
    ((emptyWrite.addWrite (.leaf 1 none) [priorityKey]).addWrite (.leaf 5 none) ["a"]).applyToNode
        (.empty : Node Nat) ≠
      ((emptyWrite.addWrite (.leaf 1 none) [priorityKey]).applyToNode .empty).updateChild ["a"]
        (.leaf 5 none) := by
  decide

end CompoundWrite

end Firebase.Database
