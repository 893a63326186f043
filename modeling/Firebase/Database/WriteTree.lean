import Firebase.Database.CompoundWrite
import Firebase.Firestore.Util.HardAssert
import Firebase.Lib.Simulation

/-!
# Pending writes

`FWriteTree` (`FWriteTree.m`) keeps the writes of the user that the server has not answered, and
`visibleWrites`, the compound write that they make together.  An `NSAssert` that fails is a hard
failure here.
-/

namespace Firebase.Database

open Lib Firebase.Firestore.Util List CompoundWrite

/-- What a write does: `overwrite` and `merge` of an `FWriteRecord`. -/
inductive WriteData (L : Type) where
  | overwrite (node : Node L)
  | merge (merge : CompoundWrite L)

structure WriteRecord (L : Type) where
  path : Path
  data : WriteData L
  writeId : Int
  visible : Bool

namespace WriteRecord

variable {L : Type}

/-- The paths that are written, with their nodes, in the order in which they are added. -/
def writes (record : WriteRecord L) : List (Path × Node L) :=
  match record.data with
  | .overwrite node => [(record.path, node)]
  | .merge merge => merge.enumerateWrites.map fun e => (record.path ++ e.1, e.2)

def containsPath (record : WriteRecord L) (path : Path) : Bool :=
  match record.data with
  | .overwrite _ => Path.contains record.path path
  | .merge merge => merge.enumerateWrites.any fun e => Path.contains (record.path ++ e.1) path

/-- The paths of a record are below its path. -/
theorem isPrefix_of_mem_writes {record : WriteRecord L} {w : Path × Node L}
    (hw : w ∈ record.writes) : record.path <+: w.1 := by
  rw [writes] at hw
  cases hdata : record.data with
  | overwrite node =>
    rw [hdata] at hw
    exact mem_singleton.mp hw ▸ prefix_rfl
  | merge merge =>
    rw [hdata] at hw
    obtain ⟨e, -, rfl⟩ := mem_map.mp hw
    exact prefix_append _ _

end WriteRecord

structure WriteTree (L : Type) where
  visibleWrites : CompoundWrite L := .emptyWrite
  allWrites : List (WriteRecord L) := []
  lastWriteId : Int := -1

namespace WriteTree

variable {L : Type}

def addOverwriteAtPath (t : WriteTree L) (path : Path) (newData : Node L) (writeId : Int)
    (visible : Bool) : Hard (WriteTree L) := do
  hardAssert (t.lastWriteId < writeId) "Stacking an older write on top of a newer one"
  return {
    visibleWrites := if visible then t.visibleWrites.addWrite newData path else t.visibleWrites
    allWrites := t.allWrites ++ [⟨path, .overwrite newData, writeId, visible⟩]
    lastWriteId := writeId }

def addMergeAtPath (t : WriteTree L) (path : Path) (changedChildren : CompoundWrite L)
    (writeId : Int) : Hard (WriteTree L) := do
  hardAssert (t.lastWriteId < writeId) "Stacking an older merge on top of newer one"
  return {
    visibleWrites := t.visibleWrites.addCompoundWrite changedChildren path
    allWrites := t.allWrites ++ [⟨path, .merge changedChildren, writeId, true⟩]
    lastWriteId := writeId }

/-- One record in `layerTreeFromWrites:filter:treeRoot:`. -/
def layerRecord (treeRoot : Path) (compoundWrite : CompoundWrite L) (record : WriteRecord L) :
    CompoundWrite L :=
  match record.data with
  | .overwrite node =>
    if Path.contains treeRoot record.path then
      compoundWrite.addWrite node (Path.relativePathFrom treeRoot record.path)
    else if Path.contains record.path treeRoot then
      compoundWrite.addWrite (node.getChild (Path.relativePathFrom record.path treeRoot)) []
    else compoundWrite
  | .merge merge =>
    if Path.contains treeRoot record.path then
      compoundWrite.addCompoundWrite merge (Path.relativePathFrom treeRoot record.path)
    else if Path.contains record.path treeRoot then
      let relativePath := Path.relativePathFrom record.path treeRoot
      if relativePath.isEmpty then compoundWrite.addCompoundWrite merge []
      else
        match merge.completeNodeAtPath relativePath with
        | some child => compoundWrite.addWrite (child.getChild relativePath.tail) []
        | none => compoundWrite
    else compoundWrite

def layerTreeFromWrites (writes : List (WriteRecord L)) (filter : WriteRecord L → Bool)
    (treeRoot : Path) : CompoundWrite L :=
  writes.foldl (fun compoundWrite record =>
    if filter record then layerRecord treeRoot compoundWrite record else compoundWrite) .emptyWrite

def defaultFilter (_ : WriteRecord L) : Bool := true

def resetTree (t : WriteTree L) : WriteTree L :=
  { t with
    visibleWrites := layerTreeFromWrites t.allWrites defaultFilter []
    lastWriteId := (t.allWrites.getLast?.map (·.writeId)).getD (-1) }

/-- The loop of `removeWriteId:` over the writes before position `n`, from the last one: whether
the removed write was visible, and whether it overlaps with other writes. -/
def overlapsWithOtherWrites (allWrites : List (WriteRecord L)) (index : Nat)
    (writeToRemove : WriteRecord L) : Nat → Bool → Bool × Bool
  | 0, overlaps => (true, overlaps)
  | i + 1, overlaps =>
    match allWrites[i]? with
    | none => (true, overlaps)
    | some currentWrite =>
      if currentWrite.visible && index ≤ i && currentWrite.containsPath writeToRemove.path then
        -- The removed write was completely shadowed by a subsequent write.
        (false, overlaps)
      else
        overlapsWithOtherWrites allWrites index writeToRemove i
          (overlaps || currentWrite.visible && Path.contains writeToRemove.path currentWrite.path)

def deleteWrites (visibleWrites : CompoundWrite L) (writeToRemove : WriteRecord L) :
    CompoundWrite L :=
  match writeToRemove.data with
  | .overwrite _ => visibleWrites.removeWriteAtPath writeToRemove.path
  | .merge merge =>
    merge.enumerateWrites.foldl (fun visibleWrites (path, _) =>
      visibleWrites.removeWriteAtPath (writeToRemove.path ++ path)) visibleWrites

def removeWriteId (t : WriteTree L) (writeId : Int) : Hard (WriteTree L × Bool) :=
  match t.allWrites.findIdx? (·.writeId = writeId) with
  | none => .error ⟨"[FWriteTree removeWriteId:] called with nonexistent writeId."⟩
  | some index =>
    match t.allWrites[index]? with
    | none => .error ⟨"index beyond bounds"⟩
    | some writeToRemove =>
      let allWrites := t.allWrites.eraseIdx index
      let t := { t with allWrites := allWrites }
      if !writeToRemove.visible then .ok (t, false)
      else
        match overlapsWithOtherWrites allWrites index writeToRemove allWrites.length false with
        | (false, _) => .ok (t, false)
        | (true, true) => .ok (t.resetTree, true)
        | (true, false) =>
          .ok ({ t with visibleWrites := deleteWrites t.visibleWrites writeToRemove }, true)

end WriteTree

inductive WriteTreeCall (L : Type) where
  | addOverwriteAtPath (path : Path) (newData : Node L) (writeId : Int) (visible : Bool)
  | addMergeAtPath (path : Path) (changedChildren : CompoundWrite L) (writeId : Int)
  | removeWriteId (writeId : Int)

namespace WriteTree

variable {L : Type}

def step (t : WriteTree L) : WriteTreeCall L → Hard (WriteTree L × Option Bool)
  | .addOverwriteAtPath path newData writeId visible => do
    return (← t.addOverwriteAtPath path newData writeId visible, none)
  | .addMergeAtPath path changedChildren writeId => do
    return (← t.addMergeAtPath path changedChildren writeId, none)
  | .removeWriteId writeId => do
    let (t, answer) ← t.removeWriteId writeId
    return (t, some answer)

/-! ## Layers -/

def writesOf (records : List (WriteRecord L)) : List (Path × Node L) :=
  records.flatMap WriteRecord.writes

theorem layerRecord_root (compoundWrite : CompoundWrite L) (record : WriteRecord L) :
    layerRecord [] compoundWrite record = compoundWrite.addWrites record.writes := by
  rw [layerRecord, WriteRecord.writes]
  cases record.data with
  | overwrite node => exact if_pos (Path.contains_iff.mpr nil_prefix)
  | merge merge =>
    exact (if_pos (Path.contains_iff.mpr nil_prefix)).trans
      (addCompoundWrite_eq compoundWrite merge record.path)

/-- Layering at the root adds what the records write. -/
theorem layerTreeFromWrites_root (records : List (WriteRecord L)) (filter : WriteRecord L → Bool) :
    layerTreeFromWrites records filter [] =
      emptyWrite.addWrites (writesOf (records.filter filter)) := by
  have hloop : ∀ compoundWrite : CompoundWrite L, records.foldl (fun compoundWrite record =>
        if filter record then layerRecord [] compoundWrite record else compoundWrite)
        compoundWrite = compoundWrite.addWrites (writesOf (records.filter filter)) := by
    induction records with
    | nil => exact fun _ => rfl
    | cons record records ih =>
      intro compoundWrite
      rw [foldl_cons, ih]
      cases hfilter : filter record with
      | true =>
        rw [filter_cons_of_pos hfilter, if_pos rfl, layerRecord_root, writesOf, writesOf,
          flatMap_cons, addWrites_append]
      | false =>
        rw [filter_cons_of_neg (Bool.eq_false_iff.mp hfilter), if_neg Bool.false_ne_true]
  exact hloop _

/-- The visible writes are exactly the pending ones, layered in the order of their ids. -/
structure Layered (t : WriteTree L) : Prop where
  visibleWrites : t.visibleWrites = layerTreeFromWrites t.allWrites (·.visible) []
  ascending : t.allWrites.Pairwise (·.writeId < ·.writeId)
  lastWriteId : ∀ record ∈ t.allWrites, record.writeId ≤ t.lastWriteId

theorem layered_new : Layered ({} : WriteTree L) := ⟨rfl, .nil, nofun⟩

variable {t t' : WriteTree L}

theorem writesOf_append (records more : List (WriteRecord L)) :
    writesOf (records ++ more) = writesOf records ++ writesOf more := flatMap_append

/-- A new write on top of the others. -/
theorem Layered.add (h : Layered t) (record : WriteRecord L) (hid : t.lastWriteId < record.writeId)
    {visibleWrites : CompoundWrite L} (hwrites : visibleWrites =
      if record.visible then t.visibleWrites.addWrites record.writes else t.visibleWrites) :
    Layered ⟨visibleWrites, t.allWrites ++ [record], record.writeId⟩ := by
  refine ⟨?_, ?_, fun other hother => ?_⟩
  · rw [hwrites, layerTreeFromWrites_root, filter_append, writesOf_append,
      addWrites_append, ← layerTreeFromWrites_root, ← h.visibleWrites]
    cases hvisible : record.visible with
    | true =>
      rw [filter_cons_of_pos hvisible]
      exact congrArg _ (append_nil _).symm
    | false =>
      rw [filter_cons_of_neg (Bool.eq_false_iff.mp hvisible)]
      rfl
  · refine pairwise_append.mpr ⟨h.ascending, pairwise_singleton _ _, ?_⟩
    intro other hother last hlast
    rw [mem_singleton.mp hlast]
    exact (h.lastWriteId other hother).trans_lt hid
  · rcases mem_append.mp hother with hother | hother
    · exact (h.lastWriteId other hother).trans hid.le
    · rw [mem_singleton.mp hother]

/-! ## What a removal finds -/

/-- A later visible write covers the path of the record. -/
def Shadowed (record : WriteRecord L) (after : List (WriteRecord L)) : Prop :=
  ∃ w ∈ after, w.visible ∧ w.containsPath record.path

/-- Another visible write has its path at or below the path of the record. -/
def Overlaps (record : WriteRecord L) (others : List (WriteRecord L)) : Prop :=
  ∃ w ∈ others, w.visible ∧ Path.contains record.path w.path

/-- The loop finds a later visible write that covers the removed one, or looks at all of them. -/
theorem overlapsWithOtherWrites_spec (before after : List (WriteRecord L)) (index : Nat)
    (record : WriteRecord L) (overlaps : Bool) :
    (Shadowed record (before.drop index) ∧ ∃ found, overlapsWithOtherWrites (before ++ after) index
        record before.length overlaps = (false, found)) ∨
      (¬ Shadowed record (before.drop index) ∧ ∃ found, overlapsWithOtherWrites (before ++ after)
        index record before.length overlaps = (true, found) ∧
        (found = true ↔ overlaps = true ∨ Overlaps record before)) := by
  induction before using List.reverseRecOn generalizing after overlaps with
  | nil => exact .inr ⟨by simp [Shadowed], overlaps, rfl, by simp [Overlaps]⟩
  | append_singleton before current ih =>
    have hcurrent : (before ++ [current] ++ after)[before.length]? = some current := by simp
    rw [length_append, length_singleton, overlapsWithOtherWrites, hcurrent]
    have hdrop : ∀ w, w ∈ (before ++ [current]).drop index ↔
        w ∈ before.drop index ∨ index ≤ before.length ∧ w = current := by
      intro w
      rw [drop_append]
      rcases Nat.lt_or_ge before.length index with hlt | hle
      · have hnil : [current].drop (index - before.length) = [] :=
          drop_eq_nil_of_le (Nat.sub_pos_of_lt hlt)
        simp [hnil, hlt]
      · simp [hle]
    by_cases hshadow : (current.visible && index ≤ before.length &&
        current.containsPath record.path) = true
    · refine .inl ⟨?_, overlaps, if_pos hshadow⟩
      simp only [Bool.and_eq_true, decide_eq_true_eq] at hshadow
      exact ⟨current, (hdrop current).mpr (.inr ⟨hshadow.1.2, rfl⟩), hshadow.1.1, hshadow.2⟩
    · rw [append_assoc]
      dsimp only
      rw [if_neg hshadow]
      rcases ih ([current] ++ after) (overlaps || current.visible &&
        Path.contains record.path current.path) with
        ⟨⟨w, hw, hcovers⟩, hfound⟩ | ⟨hnot, found, hfound, hiff⟩
      · exact .inl ⟨⟨w, (hdrop w).mpr (.inl hw), hcovers⟩, hfound⟩
      · refine .inr ⟨?_, found, hfound, hiff.trans ?_⟩
        · rintro ⟨w, hw, hvisible, hcontains⟩
          rcases (hdrop w).mp hw with hw | ⟨hindex, rfl⟩
          · exact hnot ⟨w, hw, hvisible, hcontains⟩
          · exact hshadow (by simp [hvisible, hindex, hcontains])
        · simp only [Overlaps, mem_append, mem_singleton, or_and_right, exists_or,
            exists_eq_left, Bool.or_eq_true, Bool.and_eq_true, or_assoc, or_comm]

/-- A removal takes the record out of the list, and does one of four things to the visible
writes. -/
theorem removeWriteId_cases {writeId : Int} {answer : Bool}
    (h : t.removeWriteId writeId = .ok (t', answer)) :
    ∃ before record after, t.allWrites = before ++ record :: after ∧ record.writeId = writeId ∧
      (record.visible = false ∧ t' = { t with allWrites := before ++ after } ∨
        record.visible = true ∧ Shadowed record after ∧
          t' = { t with allWrites := before ++ after } ∨
        record.visible = true ∧ ¬ Shadowed record after ∧ Overlaps record (before ++ after) ∧
          t' = { t with allWrites := before ++ after }.resetTree ∨
        record.visible = true ∧ ¬ Shadowed record after ∧ ¬ Overlaps record (before ++ after) ∧
          t' = ⟨deleteWrites t.visibleWrites record, before ++ after, t.lastWriteId⟩) := by
  rw [removeWriteId] at h
  cases hfind : t.allWrites.findIdx? (·.writeId = writeId) with
  | none =>
    rw [hfind] at h
    cases h
  | some index =>
    rw [hfind] at h
    obtain ⟨hlt, hid, -⟩ := findIdx?_eq_some_iff_getElem.mp hfind
    have hget : t.allWrites[index]? = some t.allWrites[index] := getElem?_eq_getElem hlt
    dsimp only at h
    rw [hget] at h
    dsimp only at h
    have hsplit : t.allWrites = t.allWrites.take index ++ t.allWrites[index] ::
        t.allWrites.drop (index + 1) := by
      rw [getElem_cons_drop hlt, take_append_drop]
    rw [eraseIdx_eq_take_drop_succ] at h
    generalize t.allWrites[index] = record at h hsplit hid
    have hlength : (t.allWrites.take index).length = index := length_take_of_le hlt.le
    generalize t.allWrites.take index = before at h hsplit hlength
    generalize t.allWrites.drop (index + 1) = after at h hsplit
    subst hlength
    refine ⟨before, record, after, hsplit, of_decide_eq_true hid, ?_⟩
    cases hvisible : record.visible with
    | false =>
      rw [hvisible] at h
      exact .inl ⟨rfl, (Prod.mk.inj (Except.ok.inj h)).1.symm⟩
    | true =>
      rw [hvisible] at h
      have hspec := overlapsWithOtherWrites_spec (before ++ after) [] before.length record false
      rw [append_nil, drop_left] at hspec
      rcases hspec with ⟨hshadow, found, hfound⟩ | ⟨hshadow, found, hfound, hoverlaps⟩
      · rw [hfound] at h
        exact .inr (.inl ⟨rfl, hshadow, (Prod.mk.inj (Except.ok.inj h)).1.symm⟩)
      · rw [hfound] at h
        cases found with
        | true =>
          exact .inr (.inr (.inl ⟨rfl, hshadow, (hoverlaps.mp rfl).resolve_left Bool.false_ne_true,
            (Prod.mk.inj (Except.ok.inj h)).1.symm⟩))
        | false =>
          exact .inr (.inr (.inr ⟨rfl, hshadow,
            fun hmem => Bool.false_ne_true (hoverlaps.mpr (.inr hmem)),
            (Prod.mk.inj (Except.ok.inj h)).1.symm⟩))

/-! ## Removals that keep the layers -/

def pathsOf (records : List (WriteRecord L)) : List Path :=
  (writesOf (records.filter (·.visible))).map Prod.fst

/-- A path covers another one if it is at or above it, and at or above every earlier write that
is. -/
def Covers (earlier : List Path) (path e : Path) : Prop :=
  e <+: path ∧ ∀ b ∈ earlier, b <+: path → e <+: b

instance (earlier : List Path) (path e : Path) : Decidable (Covers earlier path e) :=
  inferInstanceAs (Decidable (_ ∧ _))

/-- A visible write whose removal is seen for what it is.  If a later write shadows it, its paths
are covered by later writes; if everything is layered anew, those of the hidden writes are; and if
its paths are deleted, each is covered from above, or nothing else is written there, neither above
by an earlier write nor below. -/
structure Removable (before : List (WriteRecord L)) (record : WriteRecord L)
    (after : List (WriteRecord L)) : Prop where
  shadowed : Shadowed record after →
    ∀ w ∈ record.writes, ∃ e ∈ pathsOf after, Covers (pathsOf before) w.1 e
  rebuilt : ¬ Shadowed record after → Overlaps record (before ++ after) →
    ∀ first hidden rest, before ++ after = first ++ hidden :: rest → hidden.visible = false →
      ∀ w ∈ hidden.writes, ∃ e ∈ pathsOf rest, Covers (pathsOf first) w.1 e
  deleted : ¬ Shadowed record after → ¬ Overlaps record (before ++ after) →
    ∀ w ∈ record.writes, (∃ e ∈ pathsOf after, e ≠ w.1 ∧ Covers (pathsOf before) w.1 e) ∨
      (∀ b ∈ pathsOf before, ¬ b <+: w.1) ∧ ∀ b ∈ pathsOf (before ++ after), ¬ w.1 <+: b

/-- Every visible write with the id of a removal is removable. -/
def RemovesRemovable (t : WriteTree L) : WriteTreeCall L → Prop
  | .removeWriteId writeId => ∀ before record after, t.allWrites = before ++ record :: after →
      record.writeId = writeId → record.visible → Removable before record after
  | _ => True

section Remove

variable {before after : List (WriteRecord L)} {record : WriteRecord L}

def layersOf (records : List (WriteRecord L)) : CompoundWrite L :=
  emptyWrite.addWrites (writesOf (records.filter (·.visible)))

theorem wellFormed_layersOf (records : List (WriteRecord L)) : (layersOf records).WellFormed :=
  wellFormed_emptyWrite.addWrites _

theorem layersOf_append (records more : List (WriteRecord L)) : layersOf (records ++ more) =
      (layersOf records).addWrites (writesOf (more.filter (·.visible))) := by
  rw [layersOf, filter_append, writesOf_append, addWrites_append]
  rfl

theorem layersOf_cons_visible (hvisible : record.visible = true) :
    layersOf (before ++ record :: after) = ((layersOf before).addWrites record.writes).addWrites
      (writesOf (after.filter (·.visible))) := by
  rw [layersOf_append, filter_cons_of_pos hvisible]
  exact addWrites_append _ _ _

theorem layersOf_cons_hidden (hvisible : record.visible = false) :
    layersOf (before ++ record :: after) = layersOf (before ++ after) := by
  rw [layersOf_append, layersOf_append, filter_cons_of_neg (Bool.eq_false_iff.mp hvisible)]

/-- There is nothing but what the visible records write. -/
theorem mem_pathsOf {records : List (WriteRecord L)} {q : Path}
    (hq : (layersOf records).at_ q ≠ none) : q ∈ pathsOf records := by
  refine (wellFormed_emptyWrite.mem_of_addWrites hq).resolve_left fun hempty => hempty ?_
  exact (ImmutableTree.valueAtPath_ofValue none q).trans (ite_self _)

/-- Where writes show: at their paths, and in the earlier writes that these are in. -/
def affected (earlier : List Path) (writes : List (Path × Node L)) : Set Path :=
  {a | ∃ w ∈ writes, a = w.1 ∨ a ∈ earlier ∧ a <+: w.1}

/-- Later writes leave differences only where they do not cover them. -/
theorem agreeOff_affected (records : List (WriteRecord L)) (writes later : List (Path × Node L)) :
    AgreeOff {a ∈ affected (pathsOf records) writes | ∀ e ∈ later, ¬ e.1 <+: a}
      (((layersOf records).addWrites writes).addWrites later).at_
      ((layersOf records).addWrites later).at_ := by
  have hwf := wellFormed_layersOf records
  refine (hwf.addWrites writes).agreeOff_addWrites hwf ?_ later
  refine hwf.agreeOff_addWrites_left (fun _ _ => rfl) (fun w hw => ⟨w, hw, .inl rfl⟩) ?_
  rintro a ⟨w, hw, ha⟩ r hr hout
  by_contra hne
  have hrw : r <+: w.1 := ha.elim (· ▸ hr) fun ha => hr.trans ha.2
  exact hout ⟨r, ⟨w, hw, .inr ⟨mem_pathsOf hne, hrw⟩⟩, prefix_rfl⟩

/-- Writes whose paths are covered later make no difference. -/
theorem addWrites_covered (records : List (WriteRecord L)) {writes later : List (Path × Node L)}
    (h : ∀ w ∈ writes, ∃ e ∈ later.map Prod.fst, Covers (pathsOf records) w.1 e) :
    ((layersOf records).addWrites writes).addWrites later =
      (layersOf records).addWrites later := by
  have hwf := wellFormed_layersOf records
  refine ((hwf.addWrites writes).addWrites later).ext (hwf.addWrites later) fun q =>
    agreeOff_affected records writes later q ?_
  rintro ⟨a, ⟨⟨w, hw, ha⟩, huncovered⟩, -⟩
  obtain ⟨e, he, hpath, hearlier⟩ := h w hw
  obtain ⟨e, hlater, rfl⟩ := mem_map.mp he
  refine huncovered e hlater ?_
  rcases ha with rfl | ⟨ha, haw⟩
  · exact hpath
  · exact hearlier a ha haw

/-- Hidden writes whose paths are covered later do not show when everything is layered. -/
theorem addWrites_writesOf {first records : List (WriteRecord L)}
    (h : ∀ before hidden after, first ++ records = before ++ hidden :: after →
      hidden.visible = false →
        ∀ w ∈ hidden.writes, ∃ e ∈ pathsOf after, Covers (pathsOf before) w.1 e) :
    (layersOf first).addWrites (writesOf records) = layersOf (first ++ records) := by
  induction records generalizing first with
  | nil => rw [append_nil]; rfl
  | cons record records ih =>
    have hcons : writesOf (record :: records) = record.writes ++ writesOf records := flatMap_cons
    have ih := @ih (first ++ [record])
    simp only [append_assoc, singleton_append] at ih
    rw [← ih h, hcons, addWrites_append]
    cases hvisible : record.visible with
    | true => rw [layersOf_cons_visible hvisible]; rfl
    | false =>
      rw [layersOf_cons_hidden hvisible, append_nil]
      refine addWrites_covered first fun w hw => ?_
      obtain ⟨e, he, hcovers⟩ := h first record records rfl hvisible w hw
      refine ⟨e, ?_, hcovers⟩
      obtain ⟨b, hb, rfl⟩ := mem_map.mp he
      obtain ⟨r, hr, hb⟩ := mem_flatMap.mp hb
      exact mem_map_of_mem (mem_flatMap.mpr ⟨r, (mem_filter.mp hr).1, hb⟩)

theorem deleteWrites_eq (visibleWrites : CompoundWrite L) (record : WriteRecord L) :
    deleteWrites visibleWrites record =
      (record.writes.map Prod.fst).foldl removeWriteAtPath visibleWrites := by
  rw [deleteWrites, WriteRecord.writes]
  cases record.data with
  | overwrite node => rfl
  | merge merge =>
    rw [map_map, foldl_map]
    rfl

theorem deleteWrites_layersOf (hvisible : record.visible = true)
    (h : ∀ w ∈ record.writes, (∃ e ∈ pathsOf after, e ≠ w.1 ∧ Covers (pathsOf before) w.1 e) ∨
      (∀ b ∈ pathsOf before, ¬ b <+: w.1) ∧ ∀ b ∈ pathsOf (before ++ after), ¬ w.1 <+: b) :
    deleteWrites (layersOf (before ++ record :: after)) record = layersOf (before ++ after) := by
  rw [deleteWrites_eq]
  obtain ⟨hwf, hat⟩ :=
    (wellFormed_layersOf (before ++ record :: after)).removeWrites (record.writes.map Prod.fst)
  refine hwf.ext (wellFormed_layersOf _) fun q => ?_
  by_cases hq : CompoundWrite.Region {a | a ∈ record.writes.map Prod.fst} q
  · -- The other writes have nothing at the paths that are deleted and below.
    rw [(hat q).1 hq]
    obtain ⟨a, ha, haq⟩ := hq
    obtain ⟨w, hw, rfl⟩ := mem_map.mp ha
    rcases h w hw with ⟨e, he, hne, hpath, -⟩ | ⟨-, hfree⟩
    · obtain ⟨e, hlater, rfl⟩ := mem_map.mp he
      rw [layersOf_append]
      refine ((wellFormed_layersOf before).at_below_addWrites hlater (hpath.trans haq) ?_).symm
      exact fun heq => hne (hpath.eq_of_length_le (heq ▸ haq.length_le))
    · by_contra hsome
      exact hfree q (mem_pathsOf (Ne.symm hsome)) haq
  · rw [(hat q).2 hq, layersOf_cons_visible hvisible, layersOf_append]
    refine agreeOff_affected before record.writes _ q ?_
    rintro ⟨a, ⟨⟨w, hw, ha⟩, huncovered⟩, haq⟩
    rcases ha with rfl | ⟨ha, haw⟩
    · exact hq ⟨w.1, mem_map_of_mem hw, haq⟩
    · rcases h w hw with ⟨e, he, -, -, hearlier⟩ | ⟨hfree, -⟩
      · obtain ⟨e, hlater, rfl⟩ := mem_map.mp he
        exact huncovered e hlater (hearlier a ha haw)
      · exact hfree a ha haw

end Remove

theorem Layered.layersOf_eq (h : Layered t) : t.visibleWrites = layersOf t.allWrites :=
  h.visibleWrites.trans (layerTreeFromWrites_root _ _)

/-- Everything but the layers is right after every removal. -/
theorem Layered.remove (h : Layered t) {before after : List (WriteRecord L)}
    {record : WriteRecord L} (hsplit : t.allWrites = before ++ record :: after)
    {visibleWrites : CompoundWrite L} (hwrites : visibleWrites = layersOf (before ++ after))
    {lastWriteId : Int} (hlast : ∀ w ∈ before ++ after, w.writeId ≤ lastWriteId) :
    Layered ⟨visibleWrites, before ++ after, lastWriteId⟩ := by
  refine ⟨hwrites.trans (layerTreeFromWrites_root _ _).symm, ?_, hlast⟩
  refine (hsplit ▸ h.ascending).sublist ?_
  exact (sublist_cons_self record after).append_left before

theorem le_getLast? {records : List (WriteRecord L)}
    (hascending : records.Pairwise (·.writeId < ·.writeId)) {w : WriteRecord L} (hw : w ∈ records) :
    w.writeId ≤ (records.getLast?.map (·.writeId)).getD (-1) := by
  rcases eq_nil_or_concat' records with rfl | ⟨init, last, rfl⟩
  · cases hw
  · rw [getLast?_concat]
    rcases mem_append.mp hw with hw | hw
    · exact ((pairwise_append.mp hascending).2.2 w hw last (mem_singleton_self _)).le
    · rw [mem_singleton.mp hw]
      rfl

/-- Removing a write keeps the layers, if the write is removable. -/
theorem Layered.removeWriteId (h : Layered t) {writeId : Int} {answer : Bool}
    (hremovable : RemovesRemovable t (.removeWriteId writeId))
    (hremove : t.removeWriteId writeId = .ok (t', answer)) : Layered t' := by
  obtain ⟨before, record, after, hsplit, hid, hcases⟩ := removeWriteId_cases hremove
  have hremovable := hremovable before record after hsplit hid
  have hlayers := hsplit ▸ h.layersOf_eq
  have hlast : ∀ w ∈ before ++ after, w.writeId ≤ t.lastWriteId := by
    intro w hw
    refine h.lastWriteId w ?_
    rw [hsplit]
    exact ((sublist_cons_self record after).append_left before).mem hw
  rcases hcases with ⟨hvisible, rfl⟩ | ⟨hvisible, hshadow, rfl⟩ |
    ⟨hvisible, hshadow, hoverlaps, rfl⟩ | ⟨hvisible, hshadow, hoverlaps, rfl⟩
  · exact h.remove hsplit (hlayers.trans (layersOf_cons_hidden hvisible)) hlast
  · refine h.remove hsplit (hlayers.trans ?_) hlast
    rw [layersOf_cons_visible hvisible, layersOf_append]
    exact addWrites_covered before ((hremovable hvisible).shadowed hshadow)
  · refine h.remove hsplit ?_ ?_
    · have hfilter : (before ++ after).filter defaultFilter = before ++ after :=
        filter_eq_self.mpr fun _ _ => rfl
      rw [layerTreeFromWrites_root, hfilter]
      exact @addWrites_writesOf L [] _ ((hremovable hvisible).rebuilt hshadow hoverlaps)
    · have hascending : (before ++ after).Pairwise (·.writeId < ·.writeId) :=
        (hsplit ▸ h.ascending).sublist
          ((sublist_cons_self record after).append_left before)
      exact fun w hw => le_getLast? hascending hw
  · refine h.remove hsplit ?_ hlast
    rw [hlayers]
    exact deleteWrites_layersOf hvisible ((hremovable hvisible).deleted hshadow hoverlaps)

theorem Layered.step (h : Layered t) {call : WriteTreeCall L} {answer : Option Bool}
    (hremovable : RemovesRemovable t call) (hstep : t.step call = .ok (t', answer)) :
    Layered t' := by
  cases call with
  | addOverwriteAtPath path newData writeId visible =>
    obtain ⟨t₁, hadd, hstep⟩ := bind_eq_ok.mp hstep
    cases hstep
    obtain ⟨_, hassert, hadd⟩ := bind_eq_ok.mp hadd
    cases hadd
    exact h.add ⟨path, .overwrite newData, writeId, visible⟩
      (of_decide_eq_true (hardAssert_eq_ok.mp hassert)) rfl
  | addMergeAtPath path changedChildren writeId =>
    obtain ⟨t₁, hadd, hstep⟩ := bind_eq_ok.mp hstep
    cases hstep
    obtain ⟨_, hassert, hadd⟩ := bind_eq_ok.mp hadd
    cases hadd
    refine h.add ⟨path, .merge changedChildren, writeId, true⟩
      (of_decide_eq_true (hardAssert_eq_ok.mp hassert)) ?_
    exact addCompoundWrite_eq t.visibleWrites changedChildren path
  | removeWriteId writeId =>
    obtain ⟨⟨t₁, answer₁⟩, hremove, hstep⟩ := bind_eq_ok.mp hstep
    cases hstep
    exact h.removeWriteId hremovable hremove

/-- After every sequence of calls in which only removable writes are removed, the visible writes
are the pending writes that are visible, layered in the order of their ids. -/
theorem visibleWrites_eq_of_removable {calls : List (WriteTreeCall L)}
    {answers : List (Option Bool)} (hcalls : Along step RemovesRemovable {} calls)
    (hrun : runAll step {} calls = .ok (t, answers)) :
    t.visibleWrites = layerTreeFromWrites t.allWrites (·.visible) [] ∧
      t.allWrites.Pairwise (·.writeId < ·.writeId) := by
  have hlayered : Layered t := runAll_invariant_along Layered
    (fun s call s' answer hs hcall hstep => hs.step hcall hstep) layered_new hcalls hrun
  exact ⟨hlayered.visibleWrites, hlayered.ascending⟩

/-- The pending writes are in the order of their ids, so that only one has the id. -/
theorem removesRemovable_of {before after : List (WriteRecord L)} {record : WriteRecord L}
    {writeId : Int} (hremovable : Removable before record after)
    (hsplit : t.allWrites = before ++ record :: after) (hwriteId : record.writeId = writeId)
    (hascending : t.allWrites.Pairwise (·.writeId < ·.writeId)) :
    RemovesRemovable t (.removeWriteId writeId) := by
  rintro before' record' after' hsplit' hid -
  rw [← hwriteId] at hid
  -- Of two writes in the list, the later one has the greater id.
  have hlt {first rest : List (WriteRecord L)} {w w' : WriteRecord L}
      (h : t.allWrites = first ++ w :: rest) (hmem : w' ∈ rest) : w.writeId < w'.writeId :=
    (pairwise_cons.mp (pairwise_append.mp (h ▸ hascending)).2.1).1 w' hmem
  rcases append_eq_append_iff.mp (hsplit.symm.trans hsplit') with
    ⟨between, rfl, heq⟩ | ⟨between, rfl, heq⟩
  · cases between with
    | nil =>
      cases heq
      rwa [append_nil]
    | cons w between =>
      obtain ⟨rfl, rfl⟩ := cons.inj heq
      exact absurd (hlt hsplit (mem_append_right _ mem_cons_self)) hid.not_gt
  · cases between with
    | nil =>
      cases heq
      rwa [append_nil] at hremovable
    | cons w between =>
      obtain ⟨rfl, rfl⟩ := cons.inj heq
      exact absurd (hlt hsplit' (mem_append_right _ mem_cons_self)) hid.not_lt

namespace Removals

def one : Node Nat := .leaf 1 none

def two : Node Nat := .leaf 2 none

def lower : WriteRecord Nat := ⟨["a"], .overwrite one, 0, true⟩

def hidden : WriteRecord Nat := ⟨["b"], .overwrite two, 1, false⟩

def inside : WriteRecord Nat := ⟨["a", "c"], .overwrite two, 2, true⟩

def upper : WriteRecord Nat := ⟨["a"], .overwrite two, 3, true⟩

def apart : WriteRecord Nat := ⟨["d"], .merge (emptyWrite.addWrite one ["e"]), 4, true⟩

/-- While a hidden write is pending, two writes are removed: one that is inside of another one, and
a merge apart from the others. -/
def hiddenStays : List (WriteTreeCall Nat) :=
  [.addOverwriteAtPath ["a"] one 0 true, .addOverwriteAtPath ["b"] two 1 false,
    .addOverwriteAtPath ["a", "c"] two 2 true, .addOverwriteAtPath ["a"] two 3 true,
    .removeWriteId 2, .addMergeAtPath ["d"] (emptyWrite.addWrite one ["e"]) 4, .removeWriteId 4]

theorem removable_inside : Removable [lower, hidden] inside [upper] := by
  have hshadow : Shadowed inside [upper] := ⟨upper, mem_singleton_self _, rfl, rfl⟩
  exact ⟨fun _ => by decide, fun hnot => absurd hshadow hnot, fun hnot => absurd hshadow hnot⟩

theorem removable_apart : Removable [lower, hidden, upper] apart [] := by
  have hoverlaps : ¬ Overlaps apart [lower, hidden, upper] := by
    unfold Overlaps
    decide
  exact ⟨fun ⟨_, hw, _⟩ => absurd hw not_mem_nil, fun _ h => absurd h hoverlaps,
    fun _ _ => by decide⟩

/-- A write below the one that is removed, so that everything is layered anew. -/
def hiddenLayered : List (WriteTreeCall Nat) :=
  [.addOverwriteAtPath ["a"] one 0 true, .addOverwriteAtPath ["b"] two 1 false,
    .addOverwriteAtPath ["a", "c"] two 2 true, .removeWriteId 0]

/-- A write that was made to the node of an earlier one is removed before that one. -/
def folded : List (WriteTreeCall Nat) :=
  [.addOverwriteAtPath ["a"] one 0 true, .addOverwriteAtPath ["a", "b"] two 1 true,
    .removeWriteId 1]

/-- A write that was made to the node of an earlier one is removed after a later one has deleted
what it wrote. -/
def foldedShadowed : List (WriteTreeCall Nat) :=
  [.addOverwriteAtPath ["a"] one 0 true, .addOverwriteAtPath ["a", "b", "c"] two 1 true,
    .addOverwriteAtPath ["a", "b"] .empty 2 true, .removeWriteId 1]

/-- A write is removed while a merge from above it is pending that writes below it. -/
def mergedBelow : List (WriteTreeCall Nat) :=
  [.addOverwriteAtPath ["a"] one 0 true,
    .addMergeAtPath [] (emptyWrite.addWrite two ["a", "b"]) 1, .removeWriteId 0]

/-- The calls end in a state whose visible writes are not those that are pending. -/
def EndsUnlayered (calls : List (WriteTreeCall Nat)) : Prop :=
  ∃ t answers, runAll step {} calls = .ok (t, answers) ∧
    t.visibleWrites ≠ layerTreeFromWrites t.allWrites (·.visible) []

end Removals

open Removals in
theorem visibleWrites_eq_of_removable_hiddenStays :
    ∃ t answers, runAll step {} hiddenStays = .ok (t, answers) ∧
      t.visibleWrites = layerTreeFromWrites t.allWrites (·.visible) [] := by
  obtain ⟨t, answers, hrun⟩ : ∃ t answers, runAll step {} hiddenStays = .ok (t, answers) :=
    ⟨_, _, rfl⟩
  refine ⟨t, answers, hrun, (visibleWrites_eq_of_removable ?_ hrun).1⟩
  refine ⟨trivial, fun t₁ _ h₁ => ⟨trivial, fun t₂ _ h₂ => ⟨trivial, fun t₃ _ h₃ => ⟨trivial,
    fun t₄ _ h₄ => ⟨?_, fun t₅ _ h₅ => ⟨trivial, fun t₆ _ h₆ => ⟨?_, fun _ _ _ => trivial⟩⟩⟩⟩⟩⟩⟩
  all_goals
    cases h₁
    cases h₂
    cases h₃
    cases h₄
  · exact removesRemovable_of removable_inside rfl rfl (by decide)
  · cases h₅
    cases h₆
    exact removesRemovable_of removable_apart rfl rfl (by decide)

open Removals in
/-- Hidden writes come in when everything is layered anew, writes stay that were made to the node of
another one, and writes go with one that they were made to. -/
theorem not_layered_after_removals : EndsUnlayered hiddenLayered ∧ EndsUnlayered folded ∧
    EndsUnlayered foldedShadowed ∧ EndsUnlayered mergedBelow := by
  refine ⟨⟨_, _, rfl, ?_⟩, ⟨_, _, rfl, ?_⟩, ⟨_, _, rfl, ?_⟩, ⟨_, _, rfl, ?_⟩⟩
  · decide +kernel
  · decide +kernel
  · decide +kernel
  · decide +kernel

end WriteTree

end Firebase.Database
