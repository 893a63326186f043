import Firebase.Database.Node

/-!
# Compound writes

`FCompoundWrite` (`FCompoundWrite.m`) is a set of writes at different paths, a tree of nodes.  A
write below another one is made to the node of that one.

The tree of a compound write is pruned, and no value is below another (`WellFormed`).
-/

namespace Firebase.Database

open Lib List
open ImmutableTree (pruned_ofValue valueAtPath_ofValue valueAtPath_setTree)

@[ext] structure CompoundWrite (L : Type) where
  writeTree : ImmutableTree (Node L)
deriving DecidableEq

namespace CompoundWrite

variable {L : Type}

def emptyWrite : CompoundWrite L := ⟨.ofValue none⟩

section

variable (write : CompoundWrite L)

def addWrite (node : Node L) (path : Path) : CompoundWrite L :=
  if path.isEmpty then ⟨.ofValue (some node)⟩
  else
    match write.writeTree.findRootMostValueAndPath path with
    | some (rootMostPath, rootMostValue) =>
      let value := rootMostValue.updateChild (Path.relativePathFrom rootMostPath path) node
      ⟨.setValue (some value) write.writeTree rootMostPath⟩
    | none => ⟨.setTree (.ofValue (some node)) write.writeTree path⟩

def enumerateWrites : List (Path × Node L) := write.writeTree.forEach

def addCompoundWrite (write compoundWrite : CompoundWrite L) (path : Path) : CompoundWrite L :=
  compoundWrite.enumerateWrites.foldl (fun newWrite (childPath, value) =>
    newWrite.addWrite value (path ++ childPath)) write

def removeWriteAtPath (path : Path) : CompoundWrite L :=
  if path.isEmpty then emptyWrite else ⟨.setTree .empty write.writeTree path⟩

def completeNodeAtPath (path : Path) : Option (Node L) :=
  (write.writeTree.findRootMostValueAndPath path).map fun (rootMostPath, rootMostValue) =>
    rootMostValue.getChild (Path.relativePathFrom rootMostPath path)

/-! ## What a write does -/

def at_ (path : Path) : Option (Node L) :=
  write.writeTree.valueAtPath path

end

/-- No empty subtrees, and nothing is written below a write. -/
structure WellFormed (write : CompoundWrite L) : Prop where
  pruned : write.writeTree.Pruned
  antichain : ∀ r q, r <+: q → r ≠ q → (write.at_ r).isSome → write.at_ q = none

/-- A write replaces what is under its path, or it updates the write that its path is in. -/
inductive Adds (f : Path → Option (Node L)) (path : Path) (node : Node L)
    (f' : Path → Option (Node L)) : Prop where
  | replaces (hnone : ∀ r, r <+: path → f r = none)
      (h : ∀ q, f' q = if path <+: q then if q = path then some node else none else f q)
  | updates (r : Path) (v : Node L) (hr : r <+: path) (hv : f r = some v)
      (hfirst : ∀ r', r' <+: r → r' ≠ r → f r' = none)
      (h : ∀ q, f' q = if q = r then some (v.updateChild (path.drop r.length) node) else f q)

theorem wellFormed_emptyWrite : (emptyWrite : CompoundWrite L).WellFormed := by
  refine ⟨pruned_ofValue none, fun r q _ _ h => ?_⟩
  rw [at_, emptyWrite, valueAtPath_ofValue, ite_self] at h
  cases h

theorem at_ofValue (node : Node L) (q : Path) :
    at_ ⟨.ofValue (some node)⟩ q = if q = [] then some node else none :=
  valueAtPath_ofValue (some node) q

variable {write : CompoundWrite L}

theorem WellFormed.adds (h : write.WellFormed) (node : Node L)
    (path : Path) : Adds write.at_ path node (write.addWrite node path).at_ := by
  cases path with
  | nil =>
    show Adds write.at_ [] node (at_ ⟨.ofValue (some node)⟩)
    cases hroot : write.at_ [] with
    | none =>
      refine .replaces (fun r hr => prefix_nil.mp hr ▸ hroot) fun q => ?_
      rw [at_ofValue, if_pos nil_prefix]
    | some v =>
      refine .updates [] v nil_prefix hroot ?_ fun q => ?_
      · exact fun r' hr' hne => absurd (prefix_nil.mp hr') hne
      · rw [at_ofValue]
        by_cases hq : q = []
        · rw [if_pos hq, if_pos hq]
          rfl
        · rw [if_neg hq, if_neg hq]
          exact (h.antichain [] q nil_prefix (Ne.symm hq) (hroot ▸ rfl)).symm
  | cons front path =>
    rw [addWrite, if_neg (by exact Bool.false_ne_true)]
    cases hfind : write.writeTree.findRootMostValueAndPath (front :: path) with
    | none =>
      refine .replaces (ImmutableTree.findRootMostValueAndPath_eq_none hfind) fun q => ?_
      show ImmutableTree.valueAtPath _ q = _
      rw [valueAtPath_setTree, valueAtPath_ofValue]
      by_cases hq : front :: path <+: q
      · obtain ⟨rest, rfl⟩ := hq
        rw [if_pos (prefix_append _ _), if_pos (prefix_append _ _), drop_left]
        simp only [append_right_eq_self]
      · rw [if_neg hq, if_neg hq]
        rfl
    | some found =>
      obtain ⟨r, v⟩ := found
      obtain ⟨hr, hv, hfirst⟩ := ImmutableTree.findRootMostValueAndPath_eq_some hfind
      refine .updates r v hr hv hfirst fun q => ?_
      exact ImmutableTree.valueAtPath_setValue _ write.writeTree r q

theorem Adds.antichain {f f' : Path → Option (Node L)} {path : Path} {node : Node L}
    (hadds : Adds f path node f') (h : ∀ r q, r <+: q → r ≠ q → (f r).isSome → f q = none) :
    ∀ r q, r <+: q → r ≠ q → (f' r).isSome → f' q = none := by
  intro r q hrq hne hsome
  cases hadds with
  | replaces hnone hf' =>
    rw [hf'] at hsome ⊢
    by_cases hq : path <+: q
    · rw [if_pos hq]
      by_cases hqp : q = path
      · -- What is above the path has no write.
        have hr : ¬ path <+: r := fun hpr =>
          hne (hrq.eq_of_length_le (hqp ▸ hpr.length_le))
        rw [if_neg hr, hnone r (hqp ▸ hrq)] at hsome
        cases hsome
      · rw [if_neg hqp]
    · have hr : ¬ path <+: r := fun hpr => hq (hpr.trans hrq)
      rw [if_neg hr] at hsome
      rw [if_neg hq]
      exact h r q hrq hne hsome
  | updates s v hs hv hfirst hf' =>
    have hsome_iff : ∀ p, (f' p).isSome = (f p).isSome := by
      intro p
      rw [hf' p]
      by_cases hp : p = s
      · rw [if_pos hp, hp, hv]
        rfl
      · rw [if_neg hp]
    rw [hsome_iff] at hsome
    have hnone := h r q hrq hne hsome
    refine Option.not_isSome_iff_eq_none.mp fun hq => ?_
    rw [hsome_iff, hnone] at hq
    cases hq

theorem WellFormed.addWrite (h : write.WellFormed) (node : Node L)
    (path : Path) : (write.addWrite node path).WellFormed := by
  refine ⟨?_, (h.adds node path).antichain h.antichain⟩
  rw [CompoundWrite.addWrite]
  by_cases hpath : path.isEmpty
  · rw [if_pos hpath]
    exact pruned_ofValue _
  · rw [if_neg hpath]
    cases write.writeTree.findRootMostValueAndPath path with
    | none => exact (pruned_ofValue _).setTree h.pruned path
    | some found => exact h.pruned.setValue _ _

/-- Compound writes are determined by what they write. -/
theorem WellFormed.ext {write write' : CompoundWrite L} (h : write.WellFormed)
    (h' : write'.WellFormed) (heq : ∀ q, write.at_ q = write'.at_ q) : write = write' :=
  CompoundWrite.ext (h.pruned.ext h'.pruned heq)

theorem at_removeWriteAtPath (write : CompoundWrite L) (path q : Path) :
    (write.removeWriteAtPath path).at_ q = if path <+: q then none else write.at_ q := by
  rw [removeWriteAtPath]
  cases path with
  | nil =>
    exact (valueAtPath_ofValue none q).trans (ite_self _)
  | cons front path =>
    refine (valueAtPath_setTree _ _ _ q).trans ?_
    rw [ImmutableTree.valueAtPath_empty]
    rfl

theorem WellFormed.removeWriteAtPath (h : write.WellFormed)
    (path : Path) : (write.removeWriteAtPath path).WellFormed := by
  constructor
  · rw [CompoundWrite.removeWriteAtPath]
    by_cases hpath : path.isEmpty
    · rw [if_pos hpath]
      exact pruned_ofValue _
    · rw [if_neg hpath]
      exact (pruned_ofValue _).setTree h.pruned path
  · intro r q hrq hne hsome
    rw [at_removeWriteAtPath] at hsome ⊢
    by_cases hr : path <+: r
    · rw [if_pos hr] at hsome
      cases hsome
    · rw [if_neg hr] at hsome
      rw [h.antichain r q hrq hne hsome, ite_self]

/-! ## Differences in a region -/

def Region (roots : Set Path) (q : Path) : Prop := ∃ a ∈ roots, a <+: q

theorem Region.of_isPrefix {roots : Set Path} {r q : Path} (h : Region roots r) (hrq : r <+: q) :
    Region roots q := by
  obtain ⟨a, ha, har⟩ := h
  exact ⟨a, ha, har.trans hrq⟩

/-- The same is written outside of the region. -/
def AgreeOff (roots : Set Path) (f g : Path → Option (Node L)) : Prop :=
  ∀ q, ¬ Region roots q → f q = g q

section AgreeOff

variable {roots roots' : Set Path} {f g f' g' : Path → Option (Node L)} {path : Path}
  {node : Node L}

/-- Of two writes that a path is in, the first is above the other one. -/
theorem isPrefix_of_first {r s : Path} (hr : r <+: path) (hs : s <+: path)
    (hfirst : ∀ r', r' <+: r → r' ≠ r → f r' = none) (hsome : f s ≠ none) : r <+: s := by
  rcases List.prefix_or_prefix_of_prefix hr hs with h | h
  · exact h
  · by_cases heq : s = r
    · exact heq ▸ prefix_rfl
    · exact absurd (hfirst s h heq) hsome

/-- If the first write that the path is in is outside of the region, it is the same in both. -/
theorem AgreeOff.first_eq (h : AgreeOff roots f g) {r s : Path} (hr : r <+: path) (hs : s <+: path)
    (hfr : f r ≠ none) (hgs : g s ≠ none) (hfirst : ∀ r', r' <+: r → r' ≠ r → f r' = none)
    (hfirst' : ∀ s', s' <+: s → s' ≠ s → g s' = none) (hregion : ¬ Region roots r) : r = s := by
  have hgr : g r ≠ none := h r hregion ▸ hfr
  have hsr := isPrefix_of_first hs hr hfirst' hgr
  have hregion' : ¬ Region roots s := fun hin => hregion (hin.of_isPrefix hsr)
  have hfs : f s ≠ none := (h s hregion').symm ▸ hgs
  have hrs := isPrefix_of_first hr hs hfirst hfs
  exact hrs.eq_of_length_le hsr.length_le

theorem AgreeOff.symm (h : AgreeOff roots f g) : AgreeOff roots g f := fun q hq => (h q hq).symm

theorem AgreeOff.mono (h : AgreeOff roots f g) (hsub : roots ⊆ roots') : AgreeOff roots' f g :=
  fun q hq => h q fun ⟨a, ha, haq⟩ => hq ⟨a, hsub ha, haq⟩

/-- The same write keeps differences in their region. -/
theorem Adds.agreeOff (hf : Adds f path node f') (hg : Adds g path node g')
    (h : AgreeOff roots f g) : AgreeOff roots f' g' := by
  intro q hq
  cases hf with
  | replaces hfnone hf' =>
    cases hg with
    | replaces hgnone hg' => rw [hf', hg', h q hq]
    | updates s w hs hw hfirst' hg' =>
      -- The write of the one tree is in the region, and with it the path.
      have hin : Region roots s := by
        by_contra hout
        cases (hfnone s hs).symm.trans ((h s hout).trans hw)
      rw [hf', hg', if_neg fun hpq => hq (hin.of_isPrefix (hs.trans hpq)),
        if_neg fun hqs : q = s => hq (hqs ▸ hin), h q hq]
  | updates r v hr hv hfirst hf' =>
    cases hg with
    | replaces hgnone hg' =>
      have hin : Region roots r := by
        by_contra hout
        cases hv.symm.trans ((h r hout).trans (hgnone r hr))
      rw [hf', hg', if_neg fun hqr : q = r => hq (hqr ▸ hin),
        if_neg fun hpq => hq (hin.of_isPrefix (hr.trans hpq)), h q hq]
    | updates s w hs hw hfirst' hg' =>
      have hfr : f r ≠ none := hv ▸ Option.some_ne_none v
      have hgs : g s ≠ none := hw ▸ Option.some_ne_none w
      rw [hf', hg']
      by_cases hin : Region roots r
      · have hin' : Region roots s := by
          by_contra hout
          exact hout (h.symm.first_eq hs hr hgs hfr hfirst' hfirst hout ▸ hin)
        rw [if_neg fun hqr : q = r => hq (hqr ▸ hin),
          if_neg fun hqs : q = s => hq (hqs ▸ hin'), h q hq]
      · obtain rfl := h.first_eq hr hs hfr hgs hfirst hfirst' hin
        obtain rfl := Option.some.inj (hv.symm.trans ((h r hin).trans hw))
        rw [h q hq]

/-- A write in the region that is made to one of the trees only. -/
theorem Adds.agreeOff_left (hf : Adds f path node f') (h : AgreeOff roots f g)
    (hpath : path ∈ roots) (hnone : ∀ r, r <+: path → ¬ Region roots r → f r = none) :
    AgreeOff roots f' g := by
  intro q hq
  rw [← h q hq]
  cases hf with
  | replaces _ hf' => rw [hf', if_neg fun hpq => hq ⟨path, hpath, hpq⟩]
  | updates r v hr hv _ hf' =>
    refine (hf' q).trans (if_neg fun hqr => ?_)
    cases hv.symm.trans (hnone r hr (hqr ▸ hq))

/-- After a write above a part of the region, that is what the part has; unless the path is in a
write outside of the region, and then the part has nothing. -/
theorem Adds.under (hadds : Adds f path node f')
    (hanti : ∀ r q, r <+: q → r ≠ q → (f r).isSome → f q = none) {q : Path}
    (hq : Region roots q) (hpq : path <+: q)
    (habove : ∀ r, r <+: path → Region roots r → r = path) :
    ((∃ r, r <+: path ∧ ¬ Region roots r ∧ f r ≠ none) → f' q = none) ∧
      ((∀ r, r <+: path → ¬ Region roots r → f r = none) →
        f' q = if q = path then some node else none) := by
  cases hadds with
  | replaces hnone hf' =>
    refine ⟨fun ⟨r, hr, _, hne⟩ => absurd (hnone r hr) hne, fun _ => ?_⟩
    rw [hf', if_pos hpq]
  | updates s v hs hv hfirst hf' =>
    constructor
    · rintro ⟨r, hr, hout, hne⟩
      have hsr := isPrefix_of_first hs hr hfirst hne
      have hsq : q ≠ s := fun heq => hout ((heq ▸ hq).of_isPrefix hsr)
      rw [hf', if_neg hsq]
      exact hanti s q (hs.trans hpq) (Ne.symm hsq) (hv ▸ rfl)
    · intro hnone
      -- The write is at the path itself.
      obtain rfl : s = path := by
        refine habove s hs ?_
        by_contra hout
        cases hv.symm.trans (hnone s hs hout)
      rw [hf', drop_length]
      by_cases hqs : q = s
      · rw [if_pos hqs, if_pos hqs]
        rfl
      · rw [if_neg hqs, if_neg hqs]
        exact hanti s q hpq (Ne.symm hqs) (hv ▸ rfl)

/-- The same write makes the trees the same under its path. -/
theorem Adds.agreeOff_under (hf : Adds f path node f') (hg : Adds g path node g')
    (h : AgreeOff roots f g) (hfanti : ∀ r q, r <+: q → r ≠ q → (f r).isSome → f q = none)
    (hganti : ∀ r q, r <+: q → r ≠ q → (g r).isSome → g q = none) :
    AgreeOff {a ∈ roots | ¬ path <+: a} f' g' := by
  intro q hrest
  by_cases hq : Region roots q
  · have hunder : ∀ a ∈ roots, a <+: q → path <+: a := fun a ha haq => by
      by_contra hpath
      exact hrest ⟨a, ⟨ha, hpath⟩, haq⟩
    have hpq : path <+: q := by
      obtain ⟨a, ha, haq⟩ := hq
      exact (hunder a ha haq).trans haq
    have habove : ∀ r, r <+: path → Region roots r → r = path := fun r hr ⟨a, ha, har⟩ =>
      hr.eq_of_length_le ((hunder a ha (har.trans (hr.trans hpq))).trans har).length_le
    obtain ⟨hfsome, hfnone⟩ := hf.under hfanti hq hpq habove
    obtain ⟨hgsome, hgnone⟩ := hg.under hganti hq hpq habove
    by_cases hex : ∃ r, r <+: path ∧ ¬ Region roots r ∧ f r ≠ none
    · rw [hfsome hex]
      obtain ⟨r, hr, hout, hne⟩ := hex
      exact (hgsome ⟨r, hr, hout, h r hout ▸ hne⟩).symm
    · have hnone : ∀ r, r <+: path → ¬ Region roots r → f r = none := fun r hr hout => by
        by_contra hne
        exact hex ⟨r, hr, hout, hne⟩
      rw [hfnone hnone, hgnone fun r hr hout => h r hout ▸ hnone r hr hout]
  · exact hf.agreeOff hg h q hq

/-- After a write there is one at its path or above. -/
theorem Adds.exists_above (hadds : Adds f path node f') : ∃ r, r <+: path ∧ f' r ≠ none := by
  cases hadds with
  | replaces _ hf' =>
    refine ⟨path, prefix_rfl, ?_⟩
    rw [hf', if_pos prefix_rfl, if_pos rfl]
    exact Option.some_ne_none node
  | updates r v hr _ _ hf' =>
    refine ⟨r, hr, ?_⟩
    rw [hf', if_pos rfl]
    exact Option.some_ne_none _

/-- Other writes only replace it by one that is further up. -/
theorem Adds.exists_above_of (hadds : Adds f path node f') {p : Path}
    (h : ∃ r, r <+: p ∧ f r ≠ none) : ∃ r, r <+: p ∧ f' r ≠ none := by
  obtain ⟨r, hr, hne⟩ := h
  cases hadds with
  | replaces _ hf' =>
    by_cases hpr : path <+: r
    · refine ⟨path, hpr.trans hr, ?_⟩
      rw [hf', if_pos prefix_rfl, if_pos rfl]
      exact Option.some_ne_none node
    · exact ⟨r, hr, by rwa [hf', if_neg hpr]⟩
  | updates s v _ _ _ hf' =>
    refine ⟨r, hr, ?_⟩
    rw [hf']
    split_ifs
    · exact Option.some_ne_none _
    · exact hne

end AgreeOff

/-! ## Many writes -/

def addWrites (write : CompoundWrite L) (writes : List (Path × Node L)) : CompoundWrite L :=
  writes.foldl (fun newWrite (path, node) => newWrite.addWrite node path) write

theorem addWrites_append (write : CompoundWrite L) (writes more : List (Path × Node L)) :
    write.addWrites (writes ++ more) = (write.addWrites writes).addWrites more :=
  foldl_append

theorem addCompoundWrite_eq (write compoundWrite : CompoundWrite L) (path : Path) :
    write.addCompoundWrite compoundWrite path =
      write.addWrites (compoundWrite.enumerateWrites.map fun e => (path ++ e.1, e.2)) := by
  rw [addWrites, foldl_map]
  rfl

section Writes

variable {roots : Set Path} {write write' : CompoundWrite L} {writes : List (Path × Node L)}

section

variable (h : write.WellFormed)

include h

theorem WellFormed.addWrites (writes : List (Path × Node L)) :
    (write.addWrites writes).WellFormed := by
  induction writes generalizing write with
  | nil => exact h
  | cons e writes ih => exact ih (h.addWrite e.2 e.1)

/-- There are only writes at the paths of the writes that were added. -/
theorem WellFormed.mem_of_addWrites {q : Path} (hq : (write.addWrites writes).at_ q ≠ none) :
    write.at_ q ≠ none ∨ q ∈ writes.map Prod.fst := by
  induction writes generalizing write with
  | nil => exact .inl hq
  | cons e writes ih =>
    rcases ih (h.addWrite e.2 e.1) hq with hone | hrest
    · cases h.adds e.2 e.1 with
      | replaces hnone hadd =>
        rw [hadd] at hone
        split_ifs at hone with _ heq
        · exact .inr (heq ▸ mem_cons_self)
        · exact absurd rfl hone
        · exact .inl hone
      | updates r v hr hv hfirst hadd =>
        rw [hadd] at hone
        split_ifs at hone with heq
        · exact .inl (heq ▸ hv ▸ Option.some_ne_none v)
        · exact .inl hone
    · exact .inr (mem_cons_of_mem _ hrest)

/-- The same writes keep differences in their region, and out of what they write. -/
theorem WellFormed.agreeOff_addWrites (h' : write'.WellFormed)
    (hagree : AgreeOff roots write.at_ write'.at_) (writes : List (Path × Node L)) :
    AgreeOff {a ∈ roots | ∀ e ∈ writes, ¬ e.1 <+: a} (write.addWrites writes).at_
      (write'.addWrites writes).at_ := by
  induction writes generalizing write write' roots with
  | nil => exact hagree.mono fun a ha => ⟨ha, forall_mem_nil _⟩
  | cons e writes ih =>
    refine (ih (h.addWrite e.2 e.1) (h'.addWrite e.2 e.1) <| (h.adds e.2 e.1).agreeOff_under
      (h'.adds e.2 e.1) hagree h.antichain h'.antichain).mono ?_
    exact fun a ⟨⟨ha, hfirst⟩, hrest⟩ => ⟨ha, forall_mem_cons.mpr ⟨hfirst, hrest⟩⟩

theorem WellFormed.exists_above_addWrites {p : Path} (habove : ∃ r, r <+: p ∧ write.at_ r ≠ none)
    (writes : List (Path × Node L)) : ∃ r, r <+: p ∧ (write.addWrites writes).at_ r ≠ none := by
  induction writes generalizing write with
  | nil => exact habove
  | cons e writes ih =>
    exact ih (h.addWrite e.2 e.1) ((h.adds e.2 e.1).exists_above_of habove)

/-- Nothing is written below what was added. -/
theorem WellFormed.at_below_addWrites {e : Path × Node L} (he : e ∈ writes) {q : Path}
    (hq : e.1 <+: q) (hne : e.1 ≠ q) : (write.addWrites writes).at_ q = none := by
  obtain ⟨first, rest, rfl⟩ := append_of_mem he
  have hwf := (h.addWrites first).addWrite e.2 e.1
  obtain ⟨r, hr, hsome⟩ :=
    hwf.exists_above_addWrites ((h.addWrites first).adds e.2 e.1).exists_above rest
  rw [addWrites_append]
  refine (hwf.addWrites rest).antichain r q (hr.trans hq) (fun heq => ?_)
    (Option.isSome_iff_ne_none.mpr hsome)
  exact hne (hq.eq_of_length_le (heq ▸ hr.length_le))

/-- Writes in the region stay there, if the region is not in a write from before. -/
theorem WellFormed.agreeOff_addWrites_left
    (hagree : AgreeOff roots write.at_ write'.at_) (hroots : ∀ e ∈ writes, e.1 ∈ roots)
    (hnone : ∀ a ∈ roots, ∀ r, r <+: a → ¬ Region roots r → write'.at_ r = none) :
    AgreeOff roots (write.addWrites writes).at_ write'.at_ := by
  induction writes generalizing write with
  | nil => exact hagree
  | cons e writes ih =>
    obtain ⟨hroot, hroots⟩ := forall_mem_cons.mp hroots
    refine ih (h.addWrite e.2 e.1) ?_ hroots
    refine (h.adds e.2 e.1).agreeOff_left hagree hroot fun r hr hout => ?_
    exact (hagree r hout).trans (hnone e.1 hroot r hr hout)

/-- Removing the writes at the roots removes what is in their region. -/
theorem WellFormed.removeWrites (roots : List Path) :
    (roots.foldl CompoundWrite.removeWriteAtPath write).WellFormed ∧
      ∀ q, (Region {a | a ∈ roots} q →
          (roots.foldl CompoundWrite.removeWriteAtPath write).at_ q = none) ∧
        (¬ Region {a | a ∈ roots} q →
          (roots.foldl CompoundWrite.removeWriteAtPath write).at_ q = write.at_ q) := by
  induction roots generalizing write with
  | nil => exact ⟨h, fun q => ⟨fun ⟨_, ha, _⟩ => absurd ha not_mem_nil, fun _ => rfl⟩⟩
  | cons a roots ih =>
    obtain ⟨hwf, hat⟩ := ih (h.removeWriteAtPath a)
    refine ⟨hwf, fun q => ?_⟩
    have hcons : Region {b | b ∈ a :: roots} q ↔ a <+: q ∨ Region {b | b ∈ roots} q :=
      exists_mem_cons_iff ..
    rw [hcons, not_or]
    have hremove := (hat q).2
    rw [at_removeWriteAtPath] at hremove
    by_cases hrest : Region {b | b ∈ roots} q
    · exact ⟨fun _ => (hat q).1 hrest, fun hout => absurd hrest hout.2⟩
    · refine ⟨fun hin => ?_, fun hout => (hremove hrest).trans (if_neg hout.1)⟩
      exact (hremove hrest).trans (if_pos (hin.resolve_right hrest))

end

end Writes

end CompoundWrite

end Firebase.Database
