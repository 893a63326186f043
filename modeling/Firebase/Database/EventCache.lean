import Firebase.Database.AppliedWrites
import Firebase.Database.WriteTree

/-!
# Event caches

`calculateCompleteEventCacheAtPath:` of `FWriteTree` puts the pending writes on top of the data that
the server has at a path.

A merge from above the path is where the source goes wrong: it looks up the node of the merge at the
path and then goes down once more by all but the first key, and it leaves out what the merge writes
below the path (`ReachesPath`).
-/

namespace Firebase.Database

open Lib List

variable {L : Type}

namespace CompoundWrite

def hasCompleteWriteAtPath (write : CompoundWrite L) (path : Path) : Bool :=
  (write.completeNodeAtPath path).isSome

def isEmpty (write : CompoundWrite L) : Bool := write.writeTree.isEmpty

def childCompoundWriteAtPath (write : CompoundWrite L) (path : Path) : CompoundWrite L :=
  if path.isEmpty then write
  else
    match write.completeNodeAtPath path with
    | some shadowingNode => ⟨.ofValue (some shadowingNode)⟩
    | none => ⟨write.writeTree.subtreeAtPath path⟩

end CompoundWrite

namespace WriteTree

/-- Whether a write is neither hidden, if those are not included, nor excluded. -/
def included (writeIdsToExclude : Option (List Int)) (includeHiddenWrites : Bool)
    (record : WriteRecord L) : Bool :=
  (record.visible || includeHiddenWrites) && writeIdsToExclude.all (!·.contains record.writeId)

def calculateCompleteEventCacheAtPath (t : WriteTree L) (treePath : Path)
    (completeServerCache : Option (Node L)) (writeIdsToExclude : Option (List Int))
    (includeHiddenWrites : Bool) : Option (Node L) :=
  let merge := t.visibleWrites.childCompoundWriteAtPath treePath
  let layeredCache := completeServerCache.getD .empty
  if writeIdsToExclude.isNone && !includeHiddenWrites then
    match t.visibleWrites.completeNodeAtPath treePath with
    | some shadowingNode => some shadowingNode
    | none =>
      if merge.isEmpty then completeServerCache
      else if completeServerCache.isNone && !merge.hasCompleteWriteAtPath [] then none
      else some (merge.applyToNode layeredCache)
  else if !includeHiddenWrites && merge.isEmpty then completeServerCache
  else if !includeHiddenWrites && completeServerCache.isNone &&
      !merge.hasCompleteWriteAtPath [] then none
  else
    let mergeAtPath := layerTreeFromWrites t.allWrites (fun record =>
      included writeIdsToExclude includeHiddenWrites record &&
        (Path.contains record.path treePath || Path.contains treePath record.path)) treePath
    some (mergeAtPath.applyToNode layeredCache)

end WriteTree

/-! ## Writes to a tree -/

namespace Node

def applyWrites (n : Node L) (writes : List (Path × Node L)) : Node L :=
  writes.foldl (fun n write => n.updateChild write.1 write.2) n

/-- No write passes strictly through a leaf. -/
def AroundLeaves : Node L → List (Path × Node L) → Prop
  | _, [] => True
  | n, (path, node) :: writes =>
    (∀ l, l <+: path → l ≠ path → n.valueAt l = none) ∧
      (n.updateChild path node).AroundLeaves writes

theorem aroundLeaves_append {n : Node L} {writes more : List (Path × Node L)} :
    n.AroundLeaves (writes ++ more) ↔
      n.AroundLeaves writes ∧ (n.applyWrites writes).AroundLeaves more := by
  induction writes generalizing n with
  | nil => exact (iff_of_eq (true_and _)).symm
  | cons w writes ih => exact (and_congr_right fun _ => ih).trans and_assoc.symm

end Node

namespace CompoundWrite

variable {p a b : Path} {s v T : Node L} {write : CompoundWrite L}

/-- A compound write makes of a node what the tree has at the path. -/
structure Tracks (p : Path) (s : Node L) (write : CompoundWrite L) (T : Node L) : Prop where
  wellFormed : write.WellFormed
  plain : write.Plain
  tree : T.Plain
  node : write.applyToNode s = T.getChild p
  leaves : ∀ l, s.valueAt l ≠ none → (∀ r, r <+: l → write.at_ r = none) →
    ∀ r, l <+: r → write.at_ r = none

section Tracks

variable (h : Tracks p s write T) (hp : priorityKey ∉ p) (hv : v.Plain)

include h hp hv

/-- A write below the path passes through no leaf, so that it can be added. -/
theorem Tracks.below (hs : s.Plain) (ha : priorityKey ∉ a)
    (hleaf : ∀ l, l <+: p ++ a → l ≠ p ++ a → T.valueAt l = none) :
    Tracks p s (write.addWrite v a) (T.updateChild (p ++ a) v) := by
  have hpa : priorityKey ∉ p ++ a := by simp [hp, ha]
  have htree := h.tree.updateChild hv hpa
  refine ⟨h.wellFormed.addWrite v a, h.plain.addWrite h.wellFormed hv ha, htree, ?_, ?_⟩
  · have hadd := (h.wellFormed.addWrite_eq_iff h.plain hs hv ha).mpr fun l _ _ hl hnone hfills => by
      obtain ⟨r, w, hr, -, hw, -⟩ := hfills
      cases hw.symm.trans (h.leaves l hl hnone r hr)
    rw [hadd, h.node]
    refine ((h.tree.getChild hp).updateChild hv ha).ext (htree.getChild hp) fun q => ?_
    have hdrop : (p ++ q).drop (p ++ a).length = q.drop a.length := by
      rw [length_append, ← drop_drop, drop_left]
    rw [Node.valueAt_updateChild ha, Node.valueAt_getChild hp, Node.valueAt_getChild hp,
      Node.valueAt_updateChild hpa, hdrop]
    simp only [prefix_append_right_inj]
  · intro l hl hnone r hr
    obtain ⟨at_, w, hadded⟩ := h.wellFormed.added ha s v
    have hat : ¬at_ <+: l := fun hle => nomatch hadded.written.symm.trans (hnone at_ hle)
    have hbefore : ∀ r, r <+: l → write.at_ r = none := fun r hrl =>
      (hadded.other r fun hle => hat (hle.trans hrl)).symm.trans (hnone r hrl)
    -- The leaf is still there, and so the write is not below it.
    have hla : ¬l <+: a := by
      intro hla
      have hvalue : (write.applyToNode s).valueAt l = s.valueAt l := by
        refine (h.wellFormed.overlays s).other l fun r w hw => ⟨fun hrl => ?_, fun hlr => ?_⟩
        · cases hw.2.symm.trans (hbefore r hrl)
        · cases hw.2.symm.trans (h.leaves l hl hbefore r hlr)
      rw [h.node, Node.valueAt_getChild hp] at hvalue
      have hpla : p ++ l <+: p ++ a := (prefix_append_right_inj p).mpr hla
      refine hl (hvalue.symm.trans (hleaf _ hpla fun heq => ?_))
      exact hat (append_cancel_left heq ▸ hadded.le)
    refine (hadded.other r fun hle => ?_).trans (h.leaves l hl hbefore r hr)
    exact (List.prefix_or_prefix_of_prefix hle hr).elim hat fun hle => hla (hle.trans hadded.le)

/-- A write above the path replaces everything. -/
theorem Tracks.above (hab : p = a ++ b) :
    Tracks p s (write.addWrite (v.getChild b) []) (T.updateChild a v) := by
  subst hab
  have ha : priorityKey ∉ a := fun hmem => hp (mem_append_left b hmem)
  have hb : priorityKey ∉ b := fun hmem => hp (mem_append_right a hmem)
  have htree := h.tree.updateChild hv ha
  refine ⟨h.wellFormed.addWrite _ _, h.plain.addWrite h.wellFormed (hv.getChild hb)
    not_mem_nil, htree, ?_, fun l _ hnone => nomatch hnone [] nil_prefix⟩
  have hroot : (write.addWrite (v.getChild b) []).applyToNode s = v.getChild b := by
    rfl
  refine (hv.getChild hb).ext (htree.getChild hp) fun q => ?_
  rw [Node.valueAt_getChild hb, Node.valueAt_getChild hp, Node.valueAt_updateChild ha,
    append_assoc, if_pos (prefix_append _ _), drop_left]

theorem Tracks.apart (ha : priorityKey ∉ a) (hap : ¬a <+: p) (hpa : ¬p <+: a) :
    Tracks p s write (T.updateChild a v) := by
  have htree := h.tree.updateChild hv ha
  refine { h with tree := htree, node := h.node.trans ?_ }
  refine (h.tree.getChild hp).ext (htree.getChild hp) fun q => ?_
  have hq : p <+: p ++ q := prefix_append p q
  rw [Node.valueAt_getChild hp, Node.valueAt_getChild hp, Node.valueAt_updateChild ha,
    if_neg fun hle => (List.prefix_or_prefix_of_prefix hle hq).elim hap hpa,
    if_neg fun hle => hpa (hq.trans hle.1)]

end Tracks

/-! ## Records -/

theorem tracks_emptyWrite (hT : T.Plain) : Tracks p (T.getChild p) emptyWrite T := by
  have hnone q : (emptyWrite : CompoundWrite L).at_ q = none :=
    (ImmutableTree.valueAtPath_ofValue none q).trans (ite_self _)
  refine ⟨wellFormed_emptyWrite, plain_emptyWrite, hT, ?_, fun l _ _ r _ => hnone r⟩
  rfl

variable {writes : List (Path × Node L)}

section

variable (h : Tracks p s write T) (hp : priorityKey ∉ p)

include h hp

/-- Writes at the path and below. -/
theorem Tracks.addWrites (hs : s.Plain) (hwrites : ∀ w ∈ writes, priorityKey ∉ w.1 ∧ w.2.Plain)
    (hleaf : T.AroundLeaves (writes.map fun w => (p ++ w.1, w.2))) :
    Tracks p s (write.addWrites writes) (T.applyWrites (writes.map fun w => (p ++ w.1, w.2))) := by
  induction writes generalizing write T with
  | nil => exact h
  | cons w writes ih =>
    obtain ⟨hw, hwrites⟩ := forall_mem_cons.mp hwrites
    exact ih (h.below hp hw.2 hs hw.1 hleaf.1) hwrites hleaf.2

/-- Writes that are apart from the path, or above it with the same node there. -/
theorem Tracks.covers (child : Node L) (hwrites : ∀ w ∈ writes, (priorityKey ∉ w.1 ∧ w.2.Plain) ∧
      (¬w.1 <+: p ∧ ¬p <+: w.1 ∨ ∃ b, p = w.1 ++ b ∧ w.2.getChild b = child)) :
    Tracks p s (if ∃ w ∈ writes, w.1 <+: p then write.addWrite child [] else write)
      (T.applyWrites writes) := by
  induction writes generalizing write T with
  | nil => exact h
  | cons w writes ih =>
    obtain ⟨⟨⟨hpriority, hplain⟩, hw⟩, hwrites⟩ := forall_mem_cons.mp hwrites
    simp only [exists_mem_cons_iff]
    rcases hw with ⟨hnot, hnot'⟩ | ⟨b, hb, rfl⟩
    · simp only [hnot, false_or]
      exact ih (h.apart hp hplain hpriority hnot hnot') hwrites
    · rw [if_pos (.inl (hb ▸ prefix_append _ _))]
      have hrest := ih (h.above hp hplain hb) hwrites
      split_ifs at hrest
      · exact hrest
      · exact hrest

/-- What is written above the path has a node there, and nothing is written strictly below. -/
structure Takes (p : Path) (writes : List (Path × Node L)) (taken : Option (Node L)) : Prop where
  exists_above : taken.isSome → ∃ w ∈ writes, w.1 <+: p
  above : ∀ w ∈ writes, ∀ b, p = w.1 ++ b → taken = some (w.2.getChild b)
  not_below : ∀ w ∈ writes, p <+: w.1 → w.1 <+: p

theorem Tracks.takes {taken : Option (Node L)}
    (hplain : ∀ w ∈ writes, priorityKey ∉ w.1 ∧ w.2.Plain) (htakes : Takes p writes taken) :
    Tracks p s (taken.elim write (write.addWrite · [])) (T.applyWrites writes) := by
  cases taken with
  | none =>
    have hnot : ∀ w ∈ writes, ¬w.1 <+: p := fun w hw ⟨b, hb⟩ =>
      nomatch htakes.above w hw b hb.symm
    have hcovers := h.covers hp .empty fun w hw =>
      ⟨hplain w hw, .inl ⟨hnot w hw, fun hle => hnot w hw (htakes.not_below w hw hle)⟩⟩
    rwa [if_neg fun ⟨w, hw, hle⟩ => hnot w hw hle] at hcovers
  | some child =>
    have hcovers := h.covers hp child fun w hw => ⟨hplain w hw, ?_⟩
    · rwa [if_pos (htakes.exists_above rfl)] at hcovers
    · by_cases hle : w.1 <+: p
      · obtain ⟨b, hb⟩ := hle
        exact .inr ⟨b, hb.symm, (Option.some.inj (htakes.above w hw b hb.symm)).symm⟩
      · exact .inl ⟨hle, fun hle' => hle (htakes.not_below w hw hle')⟩

end

end CompoundWrite

namespace WriteRecord

def taken (p : Path) (record : WriteRecord L) : Option (Node L) :=
  if Path.contains record.path p then
    let relativePath := Path.relativePathFrom record.path p
    match record.data with
    | .overwrite node => some (node.getChild relativePath)
    | .merge merge => (merge.completeNodeAtPath relativePath).map (·.getChild relativePath.tail)
  else none

/-- A merge from strictly above the path writes nothing strictly below it; and the path is the
merge's by one key, or what the merge writes there is empty. -/
def ReachesPath (p : Path) (record : WriteRecord L) : Prop :=
  ∀ merge rel, record.data = .merge merge → p = record.path ++ rel → rel ≠ [] →
    (∀ r, rel <+: r → r ≠ rel → merge.at_ r = none) ∧
      ∀ r b node, rel = r ++ b → merge.at_ r = some node →
        rel.length = 1 ∨ (node.getChild b).isEmpty

def WellFormed (record : WriteRecord L) : Prop :=
  ∀ merge, record.data = .merge merge → merge.WellFormed

end WriteRecord

namespace WriteTree

open CompoundWrite

variable {p : Path} {s T : Node L} {write : CompoundWrite L} {record : WriteRecord L}

/-- The first write above the path is the only one. -/
theorem completeNodeAtPath_append (h : write.WellFormed) {r : Path} {node : Node L}
    (hr : write.at_ r = some node) (b : Path) :
    write.completeNodeAtPath (r ++ b) = some (node.getChild b) := by
  rw [completeNodeAtPath]
  cases hfind : write.writeTree.findRootMostValueAndPath (r ++ b) with
  | none =>
    have hnone := ImmutableTree.findRootMostValueAndPath_eq_none hfind r (prefix_append r b)
    cases hr.symm.trans hnone
  | some found =>
    obtain ⟨r', v⟩ := found
    obtain ⟨hr', hv, hfirst⟩ := ImmutableTree.findRootMostValueAndPath_eq_some hfind
    obtain rfl : r' = r := by
      by_contra hne
      rcases List.prefix_or_prefix_of_prefix hr' (prefix_append r b) with hle | hle
      · cases hr.symm.trans (h.antichain r' r hle hne (Option.isSome_iff_exists.mpr ⟨v, hv⟩))
      · cases hr.symm.trans (hfirst r hle (Ne.symm hne))
    obtain rfl := Option.some.inj (hr.symm.trans hv)
    exact congrArg (some <| node.getChild ·) (Path.relativePathFrom_append _ b)

theorem takes_merge {merge : CompoundWrite L} (hdata : record.data = .merge merge)
    (hwf : merge.WellFormed) (hp : priorityKey ∉ p)
    (hplain : ∀ w ∈ record.writes, priorityKey ∉ w.1 ∧ w.2.Plain) (hreach : record.ReachesPath p)
    {rel : Path} (hrel : p = record.path ++ rel) (hne : rel ≠ []) :
    Takes p record.writes (record.taken p) := by
  obtain ⟨hbelow, hnode⟩ := hreach merge rel hdata hrel hne
  have htaken : record.taken p =
      (merge.completeNodeAtPath rel).map (·.getChild rel.tail) := by
    rw [WriteRecord.taken, hdata, hrel, if_pos (Path.contains_iff.mpr (prefix_append _ _)),
      Path.relativePathFrom_append]
  have hmem {w : Path × Node L} : w ∈ record.writes ↔
      ∃ r, w.1 = record.path ++ r ∧ merge.at_ r = some w.2 := by
    rw [WriteRecord.writes, hdata, mem_map]
    constructor
    · rintro ⟨e, he, rfl⟩
      exact ⟨e.1, rfl, ImmutableTree.mem_forEach.mp he⟩
    · rintro ⟨r, hr, hat⟩
      exact ⟨(r, w.2), ImmutableTree.mem_forEach.mpr hat, Prod.ext hr.symm rfl⟩
  refine ⟨fun hsome => ?_, fun w hw b hb => ?_, fun w hw hle => ?_⟩
  · rw [htaken, Option.isSome_map, completeNodeAtPath, Option.isSome_map] at hsome
    obtain ⟨⟨r, v⟩, hfind⟩ := Option.isSome_iff_exists.mp hsome
    obtain ⟨hr, hv, -⟩ := ImmutableTree.findRootMostValueAndPath_eq_some hfind
    refine ⟨(record.path ++ r, v), hmem.mpr ⟨r, rfl, hv⟩, ?_⟩
    exact hrel ▸ (prefix_append_right_inj record.path).mpr hr
  · obtain ⟨r, hr, hat⟩ := hmem.mp hw
    obtain rfl : rel = r ++ b := by
      rw [hrel, hr, append_assoc] at hb
      exact append_cancel_left hb
    rw [htaken, completeNodeAtPath_append hwf hat, Option.map_some]
    rcases hnode r b w.2 rfl hat with hone | hempty
    · obtain ⟨key, hkey⟩ := length_eq_one_iff.mp hone
      rw [hkey]
      rfl
    · have hpriority : priorityKey ∉ r ++ b := fun hin =>
        hp (hrel ▸ mem_append_right record.path hin)
      have hpriority' : priorityKey ∉ (r ++ b).tail := fun hin => hpriority (mem_of_mem_tail hin)
      have hchild : (w.2.getChild b).Plain :=
        (hplain w hw).2.getChild fun hin => hpriority (mem_append_right r hin)
      refine congrArg some ((hchild.getChild hpriority').ext hchild fun q => ?_)
      rw [Node.valueAt_getChild hpriority', Node.valueAt_of_isEmpty hempty,
        Node.valueAt_of_isEmpty hempty]
  · obtain ⟨r, hr, hat⟩ := hmem.mp hw
    rw [hr, hrel, prefix_append_right_inj] at hle
    obtain rfl : r = rel := by
      by_contra hother
      cases hat.symm.trans (hbelow r hle hother)
    exact (hr.trans hrel.symm) ▸ prefix_rfl

theorem takes_taken (hp : priorityKey ∉ p)
    (hplain : ∀ w ∈ record.writes, priorityKey ∉ w.1 ∧ w.2.Plain) (hwf : record.WellFormed)
    (hreach : record.ReachesPath p) (hbelow : ¬p <+: record.path) :
    Takes p record.writes (record.taken p) := by
  by_cases habove : record.path <+: p
  · cases hdata : record.data with
    | merge merge =>
      obtain ⟨rel, hrel⟩ := habove
      refine takes_merge hdata (hwf merge hdata) hp hplain hreach hrel.symm ?_
      rintro rfl
      exact hbelow (append_nil record.path ▸ hrel ▸ prefix_rfl)
    | overwrite node =>
      have hwrites : record.writes = [(record.path, node)] := by rw [WriteRecord.writes, hdata]
      rw [hwrites, WriteRecord.taken, if_pos (Path.contains_iff.mpr habove), hdata]
      refine ⟨fun _ => ⟨_, mem_cons_self, habove⟩, ?_, ?_⟩
      · intro w hw b hb
        obtain rfl := mem_singleton.mp hw
        rw [hb, Path.relativePathFrom_append]
      · intro w hw
        obtain rfl := mem_singleton.mp hw
        exact fun hle => absurd hle hbelow
  · rw [WriteRecord.taken, if_neg (mt Path.contains_iff.mp habove)]
    refine ⟨fun htaken => ?_, fun w hw b hb => ?_, fun w hw hle => ?_⟩
    · cases htaken
    · exact absurd ((WriteRecord.isPrefix_of_mem_writes hw).trans ⟨b, hb.symm⟩) habove
    · exact absurd (List.prefix_or_prefix_of_prefix hle (WriteRecord.isPrefix_of_mem_writes hw))
        (not_or.mpr ⟨hbelow, habove⟩)

theorem layerRecord_of_not_below (hbelow : ¬p <+: record.path) :
    layerRecord p write record = (record.taken p).elim write (write.addWrite · []) := by
  have hcontains : Path.contains p record.path = false :=
    Bool.eq_false_iff.mpr (mt Path.contains_iff.mp hbelow)
  have hne : record.path <+: p → (Path.relativePathFrom record.path p).isEmpty = false := by
    rintro ⟨rel, rfl⟩
    rw [Path.relativePathFrom_append, isEmpty_eq_false_iff]
    rintro rfl
    exact hbelow (by simp)
  rw [layerRecord, WriteRecord.taken]
  simp only [hcontains]
  by_cases habove : Path.contains record.path p
  · simp only [if_pos habove, hne (Path.contains_iff.mp habove)]
    cases record.data with
    | overwrite node => rfl
    | merge merge =>
      dsimp only
      cases merge.completeNodeAtPath (Path.relativePathFrom record.path p) <;> rfl
  · simp only [if_neg habove]
    cases record.data <;> rfl

/-- What is layered for a record follows its writes. -/
theorem tracks_layerRecord (h : Tracks p s write T) (hp : priorityKey ∉ p) (hs : s.Plain)
    (hplain : ∀ w ∈ record.writes, priorityKey ∉ w.1 ∧ w.2.Plain) (hwf : record.WellFormed)
    (hreach : record.ReachesPath p) (hleaf : T.AroundLeaves record.writes) :
    Tracks p s (layerRecord p write record) (T.applyWrites record.writes) := by
  by_cases hbelow : p <+: record.path
  · obtain ⟨rel, hrel⟩ := hbelow
    -- The writes are those that are added, below the path.
    obtain ⟨writes, hwrites, hlayer⟩ : ∃ writes : List (Path × Node L),
        record.writes = writes.map (fun w => (p ++ w.1, w.2)) ∧
          layerRecord p write record = write.addWrites writes := by
      rw [layerRecord, WriteRecord.writes, ← hrel]
      simp only [Path.contains_iff.mpr (prefix_append p rel), if_true,
        Path.relativePathFrom_append]
      cases record.data with
      | overwrite node => exact ⟨[(rel, node)], rfl, rfl⟩
      | merge merge =>
        refine ⟨merge.enumerateWrites.map fun e => (rel ++ e.1, e.2), ?_, addCompoundWrite_eq _ _ _⟩
        simp
    rw [hwrites] at hleaf ⊢
    rw [hlayer]
    refine h.addWrites hp hs (fun w hw => ?_) hleaf
    obtain ⟨hpriority, hw⟩ := hplain (p ++ w.1, w.2) (hwrites ▸ mem_map_of_mem hw)
    exact ⟨fun hmem => hpriority (mem_append_right p hmem), hw⟩
  · rw [layerRecord_of_not_below hbelow]
    exact h.takes hp hplain (takes_taken hp hplain hwf hreach hbelow)

theorem tracks_layers {records : List (WriteRecord L)} {keep : WriteRecord L → Bool}
    (h : Tracks p s write T) (hp : priorityKey ∉ p) (hs : s.Plain)
    (hplain : ∀ w ∈ (records.filter keep).flatMap (·.writes), priorityKey ∉ w.1 ∧ w.2.Plain)
    (hreach : ∀ record ∈ records, keep record → record.WellFormed ∧ record.ReachesPath p)
    (hleaf : T.AroundLeaves ((records.filter keep).flatMap (·.writes))) :
    Tracks p s (records.foldl (fun compoundWrite record =>
        if keep record && (Path.contains record.path p || Path.contains p record.path) then
          layerRecord p compoundWrite record else compoundWrite) write)
      (T.applyWrites ((records.filter keep).flatMap (·.writes))) := by
  induction records generalizing write T with
  | nil => exact h
  | cons record records ih =>
    obtain ⟨hhead, hreach⟩ := forall_mem_cons.mp hreach
    rw [foldl_cons]
    by_cases hkeep : keep record
    · rw [filter_cons_of_pos hkeep, flatMap_cons] at hplain hleaf ⊢
      obtain ⟨hrecord, hplain⟩ := forall_mem_append.mp hplain
      obtain ⟨hfirst, hleaf⟩ := Node.aroundLeaves_append.mp hleaf
      rw [Node.applyWrites, foldl_append]
      have hlayer := tracks_layerRecord h hp hs hrecord (hhead hkeep).1 (hhead hkeep).2 hfirst
      refine ih ?_ hplain hreach hleaf
      by_cases hoverlap : Path.contains record.path p || Path.contains p record.path
      · rwa [if_pos (by rw [hkeep, hoverlap]; rfl)]
      · -- Without overlap nothing would be layered anyway.
        rw [Bool.or_eq_true, Path.contains_iff, Path.contains_iff, not_or] at hoverlap
        rw [layerRecord_of_not_below hoverlap.2, WriteRecord.taken,
          if_neg (mt Path.contains_iff.mp hoverlap.1)] at hlayer
        rwa [if_neg (by simp [Path.contains_iff, hoverlap])]
    · rw [filter_cons_of_neg hkeep] at hplain hleaf ⊢
      rw [if_neg fun h => hkeep (Bool.and_eq_true_iff.mp h).1]
      exact ih h hplain hreach hleaf

def includedWrites (t : WriteTree L) (writeIdsToExclude : Option (List Int)) :
    List (Path × Node L) :=
  (t.allWrites.filter (included writeIdsToExclude true)).flatMap (·.writes)

/-- With hidden writes, the cache is what the tree has at the path after all writes that are not
excluded. -/
theorem calculateCompleteEventCacheAtPath_eq {t : WriteTree L}
    {writeIdsToExclude : Option (List Int)} (hT : T.Plain) (hp : priorityKey ∉ p)
    (hplain : ∀ w ∈ t.includedWrites writeIdsToExclude, priorityKey ∉ w.1 ∧ w.2.Plain)
    (hleaf : T.AroundLeaves (t.includedWrites writeIdsToExclude))
    (hwf : ∀ record ∈ t.allWrites, record.WellFormed)
    (hreach : ∀ record ∈ t.allWrites, included writeIdsToExclude true record →
      record.ReachesPath p) :
    t.calculateCompleteEventCacheAtPath p (some (T.getChild p)) writeIdsToExclude true =
      some ((T.applyWrites (t.includedWrites writeIdsToExclude)).getChild p) := by
  rw [calculateCompleteEventCacheAtPath]
  simp only [Bool.not_true, Bool.and_false]
  exact congrArg some (tracks_layers (tracks_emptyWrite hT) hp (hT.getChild hp) hplain
    (fun record hrecord hkeep => ⟨hwf record hrecord, hreach record hrecord hkeep⟩) hleaf).node

namespace Merged

def child : Node Nat := Node.empty.updateChild ["x"] (.leaf 1 none)

theorem plain_child : child.Plain :=
  Node.plain_empty.updateChild (Node.plain_leaf 1) (by decide)

def merged : CompoundWrite Nat := (emptyWrite.addWrite child ["a"]).addWrite (.leaf 3 none) ["d"]

theorem wellFormed_merged : merged.WellFormed := (wellFormed_emptyWrite.addWrite _ _).addWrite _ _

/-- The merge, and two writes at the path and above, of which the first is hidden. -/
def pending : WriteTree Nat where
  allWrites := [⟨[], .merge merged, 0, true⟩, ⟨["a", "y"], .overwrite (.leaf 2 none), 1, false⟩,
    ⟨[], .overwrite .empty, 2, true⟩]

theorem includedWrites_pending : pending.includedWrites (some [2]) =
    [(["a"], child), (["d"], .leaf 3 none), (["a", "y"], .leaf 2 none)] := by
  decide

/-- The only merge among the writes. -/
theorem eq_of_mem_pending {record : WriteRecord Nat} (hrecord : record ∈ pending.allWrites)
    {merge : CompoundWrite Nat} (hdata : record.data = .merge merge) :
    record.path = [] ∧ merge = merged := by
  rcases mem_cons.mp hrecord with rfl | hrecord
  · cases hdata
    exact ⟨rfl, rfl⟩
  · rcases mem_cons.mp hrecord with rfl | hrecord
    · cases hdata
    · rw [mem_singleton.mp hrecord] at hdata
      cases hdata

end Merged

open Merged in
theorem calculateCompleteEventCacheAtPath_merge :
    pending.calculateCompleteEventCacheAtPath ["a"] (some (Node.empty.getChild ["a"])) (some [2])
      true = some (child.updateChild ["y"] (.leaf 2 none)) := by
  refine (calculateCompleteEventCacheAtPath_eq Node.plain_empty (by decide) ?_ ?_ ?_ ?_).trans
    (by decide)
  · rw [includedWrites_pending]
    refine forall_mem_cons.mpr ⟨⟨by decide, plain_child⟩, forall_mem_cons.mpr ⟨⟨by decide, ?_⟩,
      forall_mem_singleton.mpr ⟨by decide, ?_⟩⟩⟩
    · exact Node.plain_leaf 3
    · exact Node.plain_leaf 2
  · rw [includedWrites_pending]
    refine ⟨fun l _ _ => Node.valueAt_empty l, fun l hl hne => ?_, fun l hl hne => ?_, trivial⟩
    · obtain rfl | rfl : l = [] ∨ l = ["d"] := by simpa [prefix_cons_iff] using hl
      · decide
      · exact absurd rfl hne
    · obtain rfl | ⟨t, rfl, rfl | rfl⟩ : l = [] ∨ ∃ t, l = "a" :: t ∧ (t = [] ∨ t = ["y"]) := by
        simpa [prefix_cons_iff] using hl
      · decide
      · decide
      · exact absurd rfl hne
  · intro record hrecord merge hdata
    exact (eq_of_mem_pending hrecord hdata).2 ▸ wellFormed_merged
  · rintro record hrecord - merge rel hdata hrel -
    obtain ⟨hpath, rfl⟩ := eq_of_mem_pending hrecord hdata
    obtain rfl : ["a"] = rel := by rwa [hpath] at hrel
    exact ⟨fun r hr hne => wellFormed_merged.antichain _ r hr hne.symm rfl,
      fun _ _ _ _ _ => .inl rfl⟩

/-- A merge above the path by two keys, and one that writes below the path. -/
theorem calculateCompleteEventCacheAtPath_ne :
    (let merge := (emptyWrite : CompoundWrite Nat).addWrite
        (Node.empty.updateChild ["b"] (.leaf 1 none)) ["a"]
      let t : WriteTree Nat := { allWrites := [⟨[], .merge merge, 0, true⟩] }
      t.calculateCompleteEventCacheAtPath ["a", "b"] (some .empty) none true ≠
        some ((Node.empty.applyWrites (t.includedWrites none)).getChild ["a", "b"])) ∧
    (let merge := (emptyWrite : CompoundWrite Nat).addWrite (.leaf 1 none) ["a", "b"]
      let t : WriteTree Nat := { allWrites := [⟨[], .merge merge, 0, true⟩] }
      t.calculateCompleteEventCacheAtPath ["a"] (some .empty) none true ≠
        some ((Node.empty.applyWrites (t.includedWrites none)).getChild ["a"])) := by
  decide

end WriteTree

end Firebase.Database
