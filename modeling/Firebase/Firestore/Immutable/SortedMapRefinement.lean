import Firebase.Firestore.Immutable.SortedMapView
import Firebase.Lib.Simulation

/-!
# The persistent map refines the sorted finite map

The map as the code has it, an array of up to `kFixedSize` entries or a tree of shared nodes on a
heap, refines `OrdMap`, the sorted list of entries (`SortedMap.StandsFor`).

A node keeps its size in 31 bits, next to its color.  Below that limit every
observer of every version agrees with the reference map; at the limit the
size is zero again.
-/

namespace Firebase.Firestore.Immutable

open Lib Util OrdMap List

variable {K V : Type}

/-! ## Arrays -/

theorem FixedArray.append_bind {α β : Type} {a : FixedArray α} {range : List α}
    (h : a.contents.length + range.length ≤ kFixedSize) (f : FixedArray α → Hard β) :
    (a.append range >>= f) = f ⟨a.contents ++ range, by rwa [length_append]⟩ := by
  rw [append, dif_pos h]
  rfl

section Array

variable [LinearOrder K] {m : ArraySortedMap K V} {r : OrdMap K V}

theorem ArraySortedMap.lowerBound_append {as bs : List (K × V)} {key : K}
    (hm : m.contents = as ++ bs) (has : ∀ a ∈ as, a.1 < key) (hbs : ∀ b ∈ bs, key ≤ b.1) :
    m.lowerBound key = as.length := by
  have hfalse : ∀ a ∈ as, (compare a.1 key != .lt) = false := fun a ha => by
    simpa using compare_lt_iff_lt.mpr (has a ha)
  rw [lowerBound, hm, findIdx_append, findIdx_eq_length_of_false hfalse]
  cases bs with
  | nil => simp
  | cons b bs =>
    have htrue : (compare b.1 key != .lt) = true := by
      simpa [compare_lt_iff_lt] using hbs b (by simp)
    simp [findIdx_cons, htrue]

/-- `insert` into an array that is not full. -/
theorem ArraySortedMap.insert_eq [DecidableEq V] (hm : m.contents = r.entries)
    (hsize : m.size < kFixedSize) (key : K) (value : V) :
    ∃ m', m.insert key value = .ok m' ∧ m'.contents = (r.insert key value).entries := by
  have hsize' : r.entries.length < kFixedSize := by rwa [← hm]
  rw [ArraySortedMap.insert]
  cases hget : r.get? key with
  | none =>
    obtain ⟨as, bs, hsplit, has, hbs⟩ := exists_split_of_get?_eq_none hget
    have hpos := lowerBound_append (hm.trans hsplit) has fun b hb => (hbs b hb).le
    rw [hsplit, length_append] at hsize'
    have hreplacing : m.replacingEntry as.length key = false := by
      rw [replacingEntry, hm, hsplit, getElem?_append_right le_rfl]
      cases bs with
      | nil => rfl
      | cons b bs => simpa using (hbs b (by simp)).ne
    have htake : m.contents.take as.length = as := by rw [hm, hsplit, take_left]
    have hdrop : m.contents.drop as.length = bs := by rw [hm, hsplit, drop_left]
    simp only [hpos, hreplacing, Bool.false_eq_true, if_false, htake, hdrop]
    rw [FixedArray.append_bind (by simp [FixedArray.empty]; omega),
      FixedArray.append_bind (by simp [FixedArray.empty]; omega),
      FixedArray.append_bind (by simp [FixedArray.empty]; omega)]
    refine ⟨_, rfl, ?_⟩
    rw [entries_insert, hsplit, insertEntry_append_of_between has hbs]
    simp [contents, FixedArray.empty]
  | some v =>
    obtain ⟨as, bs, hsplit, has, hbs⟩ := exists_split_of_get? hget
    have hpos := lowerBound_append (hm.trans hsplit) has fun b hb => by
      rcases mem_cons.mp hb with rfl | hb
      · exact le_rfl
      · exact (hbs b hb).le
    rw [hsplit, length_append, length_cons] at hsize'
    have hentry : m.contents[as.length]? = some (key, v) := by rw [hm, hsplit]; simp
    have hreplacing : m.replacingEntry as.length key = true := by simp [replacingEntry, hentry]
    have hinsert : (r.insert key value).entries = as ++ (key, value) :: bs := by
      rw [entries_insert, hsplit]
      exact insertEntry_append_of_eq (e := (key, v)) has value bs
    have htake : m.contents.take as.length = as := by rw [hm, hsplit, take_left]
    have hdrop : m.contents.drop (as.length + 1) = bs := by
      rw [hm, hsplit, ← drop_drop, drop_left, drop_one, tail_cons]
    simp only [hpos, hreplacing, hentry, if_true, htake, hdrop]
    split_ifs with hvalue
    · refine ⟨m, rfl, ?_⟩
      obtain rfl : v = value := by simpa using hvalue
      rw [hm, hsplit, hinsert]
    · rw [FixedArray.append_bind (by simp [FixedArray.empty]; omega),
        FixedArray.append_bind (by simp [FixedArray.empty]; omega),
        FixedArray.append_bind (by simp [FixedArray.empty]; omega)]
      refine ⟨_, rfl, ?_⟩
      rw [hinsert]
      simp [contents, FixedArray.empty]

/-- `erase` from an array. -/
theorem ArraySortedMap.erase_eq (hm : m.contents = r.entries) (key : K) :
    ∃ m', m.erase key = .ok m' ∧ m'.contents = (r.erase key).entries := by
  have hbounded := m.array.bounded
  change m.contents.length ≤ _ at hbounded
  rw [ArraySortedMap.erase]
  cases hget : r.get? key with
  | none =>
    have hkey := get?_eq_none_iff.mp hget
    have hfind : m.find key = m.size := View.findIdx_of_not_mem (hm ▸ hkey)
    refine ⟨m, by rw [if_pos hfind]; rfl, ?_⟩
    rw [hm]
    exact (filter_eq_self.mpr fun e he => by simpa using hkey e he).symm
  | some v =>
    obtain ⟨as, bs, hsplit, has, hbs⟩ := exists_split_of_get? hget
    have hfind : m.find key = as.length := by
      rw [ArraySortedMap.find, hm, hsplit]
      exact View.findIdx_key has
    have herase : (r.erase key).entries = as ++ bs := by
      rw [entries_erase, hsplit]
      exact filter_ne_append_of_eq (e := (key, v)) has hbs
    have hsize : m.size = as.length + (bs.length + 1) := by
      rw [size, hm, hsplit, length_append, length_cons]
    have hlength : m.contents.length = as.length + (bs.length + 1) := hsize
    have htake : m.contents.take as.length = as := by rw [hm, hsplit, take_left]
    have hdrop : m.contents.drop (as.length + 1) = bs := by
      rw [hm, hsplit, ← drop_drop, drop_left, drop_one, tail_cons]
    rw [if_neg (by omega)]
    split_ifs with hone
    · refine ⟨_, rfl, ?_⟩
      obtain rfl : as = [] := eq_nil_of_length_eq_zero (by omega)
      obtain rfl : bs = [] := eq_nil_of_length_eq_zero (by omega)
      rw [herase]
      rfl
    · rw [hfind, htake, hdrop, FixedArray.append_bind (by simp [FixedArray.empty]; omega),
        FixedArray.append_bind (by simp [FixedArray.empty]; omega)]
      refine ⟨_, rfl, ?_⟩
      rw [herase]
      simp [contents, FixedArray.empty]

end Array

/-! ## Versions -/

section Version

variable [Inhabited K] [Inhabited V] [LinearOrder K] {h h' : Heap K V} {r : OrdMap K V}

/-- A map stands for a reference map: it has its entries, and if it is a tree it is a well-formed
one. -/
def SortedMap.StandsFor (h : Heap K V) (m : SortedMap K V) (r : OrdMap K V) : Prop :=
  match m with
  | .array m => m.contents = r.entries
  | .tree root => ∃ t, h.Shows ∅ root t ∧ t.WellFormed ∧ t.toList = r.entries

variable {m : SortedMap K V}

/-- As long as nothing is written to its nodes, it goes on to do so, ... -/
theorem SortedMap.StandsFor.mono (hm : m.StandsFor h r)
    (hext : h.Extends h' ∅) : m.StandsFor h' r := by
  match m, hm with
  | .array m, hm => exact hm
  | .tree root, ⟨t, hshows, hwf, hlist⟩ =>
    exact ⟨t, hshows.mono hext (Set.empty_subset _), hwf, hlist⟩

omit [Inhabited K] [Inhabited V] in
theorem LlrbTree.WellFormed.counted {t : LlrbTree K V} (ht : t.WellFormed) : t.Counted := by
  obtain ⟨n, hbalanced⟩ := ht.balanced
  exact hbalanced.counted ht.small

variable {t : LlrbTree K V} {root : LlrbNode}

omit [Inhabited K] [Inhabited V] in
theorem LlrbTree.wellFormed_of_balanced (hbalanced : ∃ n, Balanced t .black n)
    (hlist : t.toList = r.entries) (hsmall : r.entries.length < sizeLimit) : t.WellFormed := by
  refine ⟨hbalanced, ?_, by rwa [hlist]⟩
  rw [LlrbTree.Sorted, hlist]
  exact r.sorted

theorem view_tree (hshows : h.Shows ∅ root t)
    (hwf : t.WellFormed) : (SortedMap.tree root).view h = .tree t := by
  refine congrArg View.tree (hshows.load hwf.counted ?_)
  rw [hshows.size_eq, hwf.counted.size_eq]
  exact Nat.lt_succ_self _

/-- ... reads the same, ... -/
theorem SortedMap.StandsFor.view_eq (hm : m.StandsFor h r)
    (hext : h.Extends h' ∅) : m.view h' = m.view h := by
  match m, hm with
  | .array m, _ => rfl
  | .tree root, ⟨t, hshows, hwf, _⟩ =>
    rw [view_tree hshows hwf, view_tree (hshows.mono hext (Set.empty_subset _)) hwf]

/-- ... and shows nothing but the reference map. -/
theorem SortedMap.StandsFor.agrees (hm : m.StandsFor h r) : (m.view h).Agrees r := by
  match m, hm with
  | .array m, hm =>
    refine View.agrees ⟨?_, nofun⟩ hm
    rw [show ((SortedMap.array m).view h).toList = r.entries from hm]
    exact r.sorted
  | .tree root, ⟨t, hshows, hwf, hlist⟩ =>
    rw [view_tree hshows hwf]
    refine View.agrees ⟨hwf.sorted, fun root heq => ?_⟩ hlist
    cases heq
    exact hwf.counted

/-- The tree of the entries of an array. -/
theorem createTree_from {es : List (K × V)}
    (hf : h.Frame ∅) (hshows : h.Shows ∅ root t) (hwf : t.WellFormed)
    (hsorted : (t.toList ++ es).Pairwise fun a b => a.1 < b.1)
    (hsmall : (t.toList ++ es).length < sizeLimit) :
    ∃ root' h' t', es.foldl (fun (node, h) element => Heap.insert h node element.1 element.2)
    (root, h) =
      (root', h') ∧ h.Extends h' ∅ ∧ h'.Shows ∅ root' t' ∧ t'.WellFormed ∧
      t'.toList = t.toList ++ es := by
  induction es generalizing h root t with
  | nil => exact ⟨root, h, t, rfl, .refl h ∅, hshows, hwf, (append_nil _).symm⟩
  | cons e es ih =>
    obtain ⟨hext, hshows'⟩ := hshows.insert hf e.1 e.2
    obtain ⟨hbalanced, hlist⟩ := hwf.insert e.1 e.2
    have hbefore : ∀ a ∈ t.toList, a.1 < e.1 := fun a ha =>
      (pairwise_append.mp hsorted).2.2 a ha e (by simp)
    have heq : t.toList ++ e :: es = (t.insert e.1 e.2).toList ++ es := by
      rw [hlist, insertEntry_of_forall_lt hbefore, append_assoc]
      rfl
    rw [heq] at hsorted hsmall ⊢
    have hwf' : (t.insert e.1 e.2).WellFormed := by
      refine ⟨hbalanced, (pairwise_append.mp hsorted).1, ?_⟩
      rw [length_append] at hsmall
      omega
    obtain ⟨root', h', t', hfold, hext', hresult⟩ :=
      ih (hf.mono hext (Set.empty_subset _)) hshows' hwf' hsorted hsmall
    exact ⟨root', h', t', hfold, hext.trans hext' (by simp), hresult⟩

theorem Heap.Frame.shows_createTree (hf : h.Frame ∅) {m : ArraySortedMap K V}
    (hm : m.contents = r.entries) :
    ∃ root h' t, SortedMap.createTree h m.contents = (root, h') ∧ h.Extends h' ∅ ∧
      h'.Shows ∅ root t ∧ t.WellFormed ∧ t.toList = r.entries := by
  have hbounded : r.entries.length < sizeLimit := by
    have hle := m.array.bounded
    change m.contents.length ≤ _ at hle
    rw [hm] at hle
    exact hle.trans_lt (by decide)
  rw [hm]
  exact createTree_from hf hf.shows_emptyNode LlrbTree.wellFormed_nil r.sorted hbounded

/-- Insertion into a tree. -/
theorem Heap.Frame.insert_tree (hf : h.Frame ∅)
    (hshows : h.Shows ∅ root t) (hwf : t.WellFormed) (hlist : t.toList = r.entries) (key : K)
    (value : V) : ∃ root' h' t', Heap.insert h root key value = (root', h') ∧ h.Extends h' ∅ ∧
      h'.Shows ∅ root' t' ∧ (∃ n, LlrbTree.Balanced t' .black n) ∧
      t'.toList = (r.insert key value).entries := by
  obtain ⟨hext, hshows'⟩ := hshows.insert hf key value
  obtain ⟨hbalanced, hlist'⟩ := hwf.insert key value
  exact ⟨_, _, _, rfl, hext, hshows', hbalanced, by rw [hlist', hlist, entries_insert]⟩

theorem SortedMap.StandsFor.insert [DecidableEq V] (hm : m.StandsFor h r)
    (hf : h.Frame ∅) (key : K) (value : V)
    (hsmall : (r.insert key value).entries.length < sizeLimit) :
    ∃ m' h', m.insert h key value = .ok (m', h') ∧ h.Extends h' ∅ ∧
      m'.StandsFor h' (r.insert key value) := by
  match m, hm with
  | .array m, hm =>
    rw [SortedMap.insert]
    split_ifs with hfull
    · obtain ⟨root, h₁, t, hcreate, hext, hshows, hwf, hlist⟩ := hf.shows_createTree hm
      obtain ⟨root', h', t', hinsert, hext', hshows', hbalanced, hlist'⟩ :=
        (hf.mono hext (Set.empty_subset _)).insert_tree hshows hwf hlist key value
      refine ⟨.tree root', h', ?_, hext.trans hext' (by simp), t', hshows',
        LlrbTree.wellFormed_of_balanced hbalanced hlist' hsmall, hlist'⟩
      simp only [hcreate, hinsert]
    · obtain ⟨m', hinsert, hlist⟩ := ArraySortedMap.insert_eq hm (not_le.mp hfull) key value
      refine ⟨.array m', h, ?_, .refl h ∅, hlist⟩
      rw [hinsert]
      rfl
  | .tree root, ⟨t, hshows, hwf, hlist⟩ =>
    obtain ⟨root', h', t', hinsert, hext, hshows', hbalanced, hlist'⟩ :=
      hf.insert_tree hshows hwf hlist key value
    refine ⟨.tree root', h', ?_, hext, t', hshows',
      LlrbTree.wellFormed_of_balanced hbalanced hlist' hsmall, hlist'⟩
    rw [SortedMap.insert, hinsert]

theorem SortedMap.StandsFor.erase (hm : m.StandsFor h r) (hf : h.Frame ∅) (key : K) :
    ∃ m' h', m.erase h key = .ok (m', h') ∧ h.Extends h' ∅ ∧ m'.StandsFor h' (r.erase key) := by
  match m, hm with
  | .array m, hm =>
    obtain ⟨m', herase, hlist⟩ := ArraySortedMap.erase_eq hm key
    refine ⟨.array m', h, ?_, .refl h ∅, hlist⟩
    rw [SortedMap.erase, herase]
    rfl
  | .tree root, ⟨t, hshows, hwf, hlist⟩ =>
    obtain ⟨hext, hshows'⟩ := hshows.erase hf key
    obtain ⟨hwf', hlist'⟩ := hwf.erase key
    rw [hlist] at hlist'
    rw [SortedMap.erase]
    generalize Heap.erase h root key = result at hext hshows' ⊢
    obtain ⟨root', h'⟩ := result
    simp only [hshows'.empty_eq, hwf'.counted.empty_eq]
    split_ifs with hempty
    · refine ⟨_, h', rfl, hext, ?_⟩
      exact (isEmpty_iff.mp hempty).symm.trans hlist'
    · exact ⟨_, h', rfl, hext, _, hshows', hwf', hlist'⟩

end Version

/-! ## Runs

A program that uses the map keeps every version it has built: an operation picks one of them and
adds the map it gives. -/

/-- A call on one of the versions built so far. -/
inductive Op (K V : Type) where
  | insert (version : Nat) (key : K) (value : V)
  | erase (version : Nat) (key : K)

/-- The versions built so far and the memory they share. -/
structure Versions (K V : Type) where
  heap : Heap K V
  maps : List (SortedMap K V)

section Runs

variable [Inhabited K] [Inhabited V] [LinearOrder K] [DecidableEq V]

def Versions.start : Versions K V :=
  ⟨Heap.start, [SortedMap.empty]⟩

def Versions.push (s : Versions K V) (version : Nat)
    (operation : SortedMap K V → Hard (SortedMap K V × Heap K V)) : Hard (Versions K V) :=
  match s.maps[version]? with
  | none => .ok s
  | some m =>
    match operation m with
    | .error e => .error e
    | .ok (m', h') => .ok ⟨h', s.maps ++ [m']⟩

def Versions.step (s : Versions K V) : Op K V → Hard (Versions K V)
  | .insert version key value => s.push version fun m => m.insert s.heap key value
  | .erase version key => s.push version fun m => m.erase s.heap key

def Versions.run (s : Versions K V) : List (Op K V) → Hard (Versions K V)
  | [] => .ok s
  | op :: ops =>
    match s.step op with
    | .error e => .error e
    | .ok s' => s'.run ops

end Runs

section Reference

variable [LinearOrder K] {rs : List (OrdMap K V)}

def referencePush (rs : List (OrdMap K V)) (version : Nat)
    (operation : OrdMap K V → OrdMap K V) : List (OrdMap K V) :=
  match rs[version]? with
  | none => rs
  | some r => rs ++ [operation r]

def referenceStep (rs : List (OrdMap K V)) : Op K V → List (OrdMap K V)
  | .insert version key value => referencePush rs version fun r => r.insert key value
  | .erase version key => referencePush rs version fun r => r.erase key

def referenceRun (rs : List (OrdMap K V)) (ops : List (Op K V)) : List (OrdMap K V) :=
  ops.foldl referenceStep rs

theorem isPrefixOf_referencePush (version : Nat) (operation : OrdMap K V → OrdMap K V) :
    rs <+: referencePush rs version operation := by
  rw [referencePush]
  split
  · exact prefix_rfl
  · exact prefix_append rs _

theorem isPrefixOf_referenceStep (op : Op K V) : rs <+: referenceStep rs op := by
  cases op with
  | insert version key value => exact isPrefixOf_referencePush version _
  | erase version key => exact isPrefixOf_referencePush version _

theorem isPrefixOf_referenceRun (ops : List (Op K V)) : rs <+: referenceRun rs ops := by
  induction ops generalizing rs with
  | nil => exact prefix_rfl
  | cons op ops ih => exact (isPrefixOf_referenceStep op).trans ih

end Reference

section Refinement

variable [Inhabited K] [Inhabited V] [LinearOrder K] [DecidableEq V] {s : Versions K V}
  {rs : List (OrdMap K V)}

/-- Every version stands for its reference map. -/
structure Versions.StandFor (s : Versions K V) (rs : List (OrdMap K V)) : Prop where
  frame : s.heap.Frame ∅
  maps : List.Forall₂ (SortedMap.StandsFor s.heap) s.maps rs

/-- A state is later than another: the versions of the earlier one are still there, and none of
their nodes has been written to. -/
structure Versions.Later (s s' : Versions K V) : Prop where
  heap : s.heap.Extends s'.heap ∅
  maps : s.maps <+: s'.maps

omit [LinearOrder K] [DecidableEq V] in
theorem Versions.Later.refl (s : Versions K V) : s.Later s :=
  ⟨.refl _ _, prefix_rfl⟩

omit [LinearOrder K] [DecidableEq V] in
theorem Versions.Later.trans {s s' s'' : Versions K V} (h : s.Later s') (h' : s'.Later s'') :
    s.Later s'' :=
  ⟨h.heap.trans h'.heap (by simp), h.maps.trans h'.maps⟩

omit [DecidableEq V] in
theorem Versions.standFor_start : (Versions.start : Versions K V).StandFor [OrdMap.empty] :=
  ⟨Heap.frame_start, .cons rfl .nil⟩

omit [DecidableEq V] in
theorem Versions.StandFor.push (hs : s.StandFor rs) (version : Nat)
    {operation : SortedMap K V → Hard (SortedMap K V × Heap K V)}
    {reference : OrdMap K V → OrdMap K V}
    (hoperation : ∀ m r, m.StandsFor s.heap r → reference r ∈ referencePush rs version reference →
      ∃ m' h', operation m = .ok (m', h') ∧ s.heap.Extends h' ∅ ∧
        m'.StandsFor h' (reference r)) :
    ∃ s', s.push version operation = .ok s' ∧ s'.StandFor (referencePush rs version reference) ∧
      s.Later s' := by
  obtain ⟨hm, hr⟩ | ⟨m, r, hm, hr, hmr⟩ := forall₂_getElem? hs.maps version
  · rw [Versions.push, hm, referencePush, hr]
    exact ⟨s, rfl, hs, .refl s⟩
  · have hpush : referencePush rs version reference = rs ++ [reference r] := by
      rw [referencePush, hr]
    obtain ⟨m', h', hok, hext, hmr'⟩ := hoperation m r hmr (by simp [hpush])
    rw [Versions.push, hm]
    dsimp only
    rw [hok, hpush]
    refine ⟨_, rfl, ⟨hs.frame.mono hext (Set.empty_subset _), ?_⟩, hext, prefix_append _ _⟩
    exact rel_append (hs.maps.imp fun m r hmr => hmr.mono hext) (.cons hmr' .nil)

/-- One operation does to the versions what it does to the reference maps. -/
theorem Versions.StandFor.step (hs : s.StandFor rs) (op : Op K V)
    (hsmall : ∀ r ∈ referenceStep rs op, r.entries.length < sizeLimit) :
    ∃ s', s.step op = .ok s' ∧ s'.StandFor (referenceStep rs op) ∧ s.Later s' := by
  cases op with
  | insert version key value =>
    exact hs.push version fun m r hmr hmem => hmr.insert hs.frame key value (hsmall _ hmem)
  | erase version key =>
    exact hs.push version fun m r hmr _ => hmr.erase hs.frame key

/-- And so does every run. -/
theorem Versions.StandFor.run (hs : s.StandFor rs) (ops : List (Op K V))
    (hsmall : ∀ r ∈ referenceRun rs ops, r.entries.length < sizeLimit) :
    ∃ s', s.run ops = .ok s' ∧ s'.StandFor (referenceRun rs ops) ∧ s.Later s' := by
  induction ops generalizing s rs with
  | nil => exact ⟨s, rfl, hs, .refl s⟩
  | cons op ops ih =>
    obtain ⟨s₁, hstep, hs₁, hlater₁⟩ := hs.step op fun r hr =>
      hsmall r ((isPrefixOf_referenceRun ops).mem hr)
    obtain ⟨s₂, hrun, hs₂, hlater₂⟩ := ih hs₁ hsmall
    refine ⟨s₂, ?_, hs₂, hlater₁.trans hlater₂⟩
    rw [Versions.run, hstep]
    exact hrun

omit [DecidableEq V] in
/-- What was built earlier is unchanged. -/
theorem Versions.StandFor.view_eq {s s' : Versions K V} (hs : s.StandFor rs) (h : s.Later s')
    {m : SortedMap K V} (hm : m ∈ s.maps) : m.view s'.heap = m.view s.heap := by
  obtain ⟨i, hi⟩ := getElem?_of_mem hm
  obtain ⟨hnone, _⟩ | ⟨m', r, hm', _, hmr⟩ := forall₂_getElem? hs.maps i
  · exact absurd (hi.symm.trans hnone) nofun
  · obtain rfl := Option.some.inj (hi.symm.trans hm')
    exact hmr.view_eq h.heap

theorem Versions.run_append (s : Versions K V) (ops ops' : List (Op K V)) {s' : Versions K V}
    (hrun : s.run ops = .ok s') : s.run (ops ++ ops') = s'.run ops' := by
  induction ops generalizing s with
  | nil => rw [← Except.ok.inj hrun, nil_append]
  | cons op ops ih =>
    rw [cons_append, Versions.run]
    rw [Versions.run] at hrun
    match hstep : s.step op, hrun with
    | .ok s₁, hrun => exact ih s₁ hrun

/-- — as long as no version has so many entries that the 31 bits of a node's size do not hold their
number. -/
theorem sortedMap_agrees (ops : List (Op K V))
    (hsmall : ∀ r ∈ referenceRun [OrdMap.empty] ops, r.entries.length < 2 ^ 31) :
    ∃ s : Versions K V, Versions.start.run ops = .ok s ∧
      List.Forall₂ (fun m r => (m.view s.heap).Agrees r) s.maps (referenceRun [OrdMap.empty] ops) ∧
      ∀ ops₁, ops₁ <+: ops → ∃ s₁ : Versions K V, Versions.start.run ops₁ = .ok s₁ ∧
        s₁.maps <+: s.maps ∧ ∀ m ∈ s₁.maps, m.view s.heap = m.view s₁.heap := by
  obtain ⟨s, hrun, hs, -⟩ := Versions.standFor_start.run ops hsmall
  refine ⟨s, hrun, hs.maps.imp fun m r hmr => hmr.agrees, ?_⟩
  rintro ops₁ ⟨ops₂, rfl⟩
  rw [referenceRun, foldl_append] at hsmall
  obtain ⟨s₁, hrun₁, hs₁, -⟩ := Versions.standFor_start.run ops₁ fun r hr =>
    hsmall r ((isPrefixOf_referenceRun ops₂).mem hr)
  obtain ⟨s₂, hrun₂, -, hlater⟩ := hs₁.run ops₂ hsmall
  rw [Versions.run_append _ _ _ hrun₁, hrun₂] at hrun
  cases hrun
  exact ⟨s₁, hrun₁, hlater.maps, fun m hm => hs₁.view_eq hlater hm⟩

end Refinement

def growAndShrink : List (Op Nat Nat) :=
  (range 27).map (fun i => .insert i (i * 7 % 27) i) ++
    (range 6).map fun i => .erase (27 + i) (i * 5)

theorem sortedMap_agrees_growAndShrink :
    ∃ s : Versions Nat Nat, Versions.start.run growAndShrink = .ok s ∧
      List.Forall₂ (fun m r => (m.view s.heap).Agrees r) s.maps
        (referenceRun [OrdMap.empty] growAndShrink) ∧
      (∃ r ∈ referenceRun [OrdMap.empty] growAndShrink, kFixedSize < r.entries.length) := by
  obtain ⟨s, hrun, hagrees, -⟩ := sortedMap_agrees growAndShrink (by decide +kernel)
  exact ⟨s, hrun, hagrees, by decide +kernel⟩

/-! ## The limit -/

theorem Heap.size_load [Inhabited K] [Inhabited V] (h : Heap K V) (node : LlrbNode) (depth : Nat) :
    (h.load (depth + 1) node).size = h.size node := by
  rw [Heap.load]
  split_ifs with hempty
  · rw [Heap.empty, beq_iff_eq] at hempty
    rw [hempty]
    rfl
  · rfl

section Limit

variable [Inhabited K] [Inhabited V] [LinearOrder K] [DecidableEq V] {h : Heap K V}
  {r : OrdMap K V}

theorem SortedMap.StandsFor.insert_size {m : SortedMap K V} (hm : m.StandsFor h r)
    (hf : h.Frame ∅) (hlarge : kFixedSize < r.entries.length) (key : K) (value : V) :
    ∃ m' h', m.insert h key value = .ok (m', h') ∧
      (m'.view h').size = (r.insert key value).entries.length % sizeLimit := by
  match m, hm with
  | .array m, hm =>
    have hle := m.array.bounded
    rw [show m.array.contents = r.entries from hm] at hle
    omega
  | .tree root, ⟨t, hshows, hwf, hlist⟩ =>
    obtain ⟨root', h', t', hinsert, -, hshows', ⟨n, hbalanced⟩, hlist'⟩ :=
      hf.insert_tree hshows hwf hlist key value
    refine ⟨.tree root', h', ?_, ?_⟩
    · rw [SortedMap.insert, hinsert]
    · have hsize : h'.size root' = (r.insert key value).entries.length % sizeLimit := by
        rw [hshows'.size_eq, hbalanced.size_eq, hlist']
      rw [← hsize]
      exact Heap.size_load h' root' _

end Limit

def rangeMap (n : Nat) : OrdMap Nat Unit :=
  ⟨(List.range n).map fun key => (key, ()), by
    rw [pairwise_map]
    exact pairwise_lt_range⟩

theorem rangeMap_insert (n : Nat) : (rangeMap n).insert n () = rangeMap (n + 1) := by
  have hbefore : ∀ a ∈ (rangeMap n).entries, a.1 < n := by simp [rangeMap]
  refine OrdMap.ext ?_
  rw [entries_insert, insertEntry_of_forall_lt hbefore]
  simp [rangeMap, range_succ]

/-- The operations that insert the keys below `n` one after the other, each into the last
version. -/
def insertRange (n : Nat) : List (Op Nat Unit) :=
  (List.range n).map fun key => .insert key key ()

theorem insertRange_succ (n : Nat) : insertRange (n + 1) = insertRange n ++ [.insert n n ()] := by
  rw [insertRange, range_succ, map_append]
  rfl

theorem referenceRun_insertRange (n : Nat) :
    referenceRun [OrdMap.empty] (insertRange n) = (List.range (n + 1)).map rangeMap := by
  induction n with
  | zero => rfl
  | succ n ih =>
    have hlast : ((List.range (n + 1)).map rangeMap)[n]? = some (rangeMap n) := by simp
    rw [referenceRun] at ih
    rw [insertRange_succ, referenceRun, foldl_append, ih]
    change referencePush _ n _ = _
    rw [referencePush, hlast]
    simp only [rangeMap_insert]
    rw [range_succ (n := n + 1), map_append]
    rfl

theorem insertRange_size {n : Nat} (hn : n + 1 = sizeLimit) :
    ∃ (s : Versions Nat Unit) (m : SortedMap Nat Unit),
      Versions.start.run (insertRange (n + 1)) = .ok s ∧ s.maps[n + 1]? = some m ∧
        (m.view s.heap).size = 0 := by
  have hlimit : kFixedSize + 1 < sizeLimit := by decide
  obtain ⟨s, hrun, hs, -⟩ := Versions.standFor_start.run (insertRange n) <| by
    rw [referenceRun_insertRange]
    simp only [mem_map, mem_range, rangeMap]
    rintro r ⟨i, hi, rfl⟩
    simp only [length_map, length_range]
    omega
  have hmaps := hs.maps
  rw [referenceRun_insertRange] at hmaps
  obtain ⟨-, hnone⟩ | ⟨m, r, hm, hr, hmr⟩ := forall₂_getElem? hmaps n
  · simp at hnone
  · obtain rfl : rangeMap n = r := by simpa using hr
    obtain ⟨m', h', hinsert, hsize⟩ := hmr.insert_size hs.frame
      (by simp [rangeMap]; omega) n ()
    refine ⟨⟨h', s.maps ++ [m']⟩, m', ?_, ?_, ?_⟩
    · rw [insertRange_succ, Versions.run_append _ _ _ hrun]
      simp only [Versions.run, Versions.step, Versions.push, hm, hinsert]
    · have hlength := hmaps.length_eq
      simp [hlength]
    · rw [hsize, rangeMap_insert, hn]
      simp [rangeMap]

/-- With `2 ^ 31` keys the size that the map reports is zero. -/
theorem sortedMap_size_wraps :
    ∃ (s : Versions Nat Unit) (m : SortedMap Nat Unit) (r : OrdMap Nat Unit),
      Versions.start.run (insertRange (2 ^ 31)) = .ok s ∧ s.maps[2 ^ 31]? = some m ∧
        (referenceRun [OrdMap.empty] (insertRange (2 ^ 31)))[2 ^ 31]? = some r ∧
        (m.view s.heap).size = 0 ∧ r.entries.length = 2 ^ 31 := by
  obtain ⟨n, hn⟩ : ∃ n, n + 1 = 2 ^ 31 := ⟨2 ^ 31 - 1, rfl⟩
  rw [← hn]
  obtain ⟨s, m, hrun, hm, hsize⟩ := insertRange_size hn
  refine ⟨s, m, rangeMap (n + 1), hrun, hm, ?_, hsize, ?_⟩
  · simp [referenceRun_insertRange]
  · simp [rangeMap]

/-! ## Left-leaning red-black trees

What a tree keeps through insertions and removals, in terms of its nodes and paths. -/

namespace LlrbTree

/-- Every red link leans to the left, none follows another, and the empty nodes are black. -/
def Colored : LlrbTree K V → Prop
  | .nil c => c = .black
  | .node _ c _ l r => r.red = false ∧ (c = .red → l.red = false) ∧ l.Colored ∧ r.Colored

/-- The numbers of black nodes on the paths from the root to the empty nodes. -/
def blackHeights : LlrbTree K V → List Nat
  | .nil _ => [0]
  | .node _ c _ l r => (l.blackHeights ++ r.blackHeights).map (· + if c = .black then 1 else 0)

structure LeftLeaning [LinearOrder K] (t : LlrbTree K V) : Prop where
  sorted : t.Sorted
  blackRoot : t.color = .black
  colored : t.Colored
  height : ∃ n, ∀ m ∈ t.blackHeights, m = n
  sizes : t.Counted

variable {t : LlrbTree K V} {c : Color} {n : Nat}

theorem Balanced.colored (h : Balanced t c n) : t.Colored := by
  induction h with
  | nil => rfl
  | red hl hr ihl ihr => exact ⟨hr.red_eq, fun _ => hl.red_eq, ihl, ihr⟩
  | black _ hr ihl ihr => exact ⟨hr.red_eq, nofun, ihl, ihr⟩

theorem Balanced.blackHeights_eq (h : Balanced t c n) : ∀ m ∈ t.blackHeights, m = n := by
  induction h with
  | nil => simp [blackHeights]
  | red _ _ ihl ihr | black _ _ ihl ihr =>
    simpa [make, blackHeights, or_imp, forall_and] using ⟨ihl, ihr⟩

theorem WellFormed.leftLeaning [LinearOrder K] (h : t.WellFormed) : t.LeftLeaning := by
  obtain ⟨n, hbalanced⟩ := h.balanced
  exact ⟨h.sorted, hbalanced.color_eq, hbalanced.colored, ⟨n, hbalanced.blackHeights_eq⟩, h.counted⟩

end LlrbTree

/-- A call on the tree of the call before. -/
inductive NodeOp (K V : Type) where
  | insert (key : K) (value : V)
  | erase (key : K)

namespace NodeOp

variable [LinearOrder K]

def reference (r : OrdMap K V) : NodeOp K V → OrdMap K V
  | insert key value => r.insert key value
  | erase key => r.erase key

variable [Inhabited K] [Inhabited V]

def apply (this : LlrbNode × Heap K V) : NodeOp K V → LlrbNode × Heap K V
  | insert key value => this.2.insert this.1 key value
  | erase key => this.2.erase this.1 key

/-- A balanced tree with the given entries. -/
def Stores (this : LlrbNode × Heap K V) (r : OrdMap K V) : Prop :=
  this.2.Frame ∅ ∧ ∃ t, this.2.Shows ∅ this.1 t ∧ (∃ n, LlrbTree.Balanced t .black n) ∧
    t.toList = r.entries

variable {this : LlrbNode × Heap K V} {r : OrdMap K V}

theorem Stores.apply (h : Stores this r) (hsmall : r.entries.length < sizeLimit)
    (op : NodeOp K V) : Stores (op.apply this) (op.reference r) := by
  obtain ⟨hf, t, hshows, hbalanced, hlist⟩ := h
  have hwf := LlrbTree.wellFormed_of_balanced hbalanced hlist hsmall
  cases op with
  | insert key value =>
    obtain ⟨hext, hshows'⟩ := hshows.insert hf key value
    obtain ⟨hbalanced', hlist'⟩ := hwf.insert key value
    exact ⟨hf.mono hext (Set.empty_subset _), _, hshows', hbalanced', by rw [hlist', hlist]; rfl⟩
  | erase key =>
    obtain ⟨hext, hshows'⟩ := hshows.erase hf key
    obtain ⟨hwf', hlist'⟩ := hwf.erase key
    exact ⟨hf.mono hext (Set.empty_subset _), _, hshows', hwf'.balanced, by rw [hlist', hlist]; rfl⟩

/-- Only the entries before the last call have to be few. -/
theorem Stores.foldl {ops : List (NodeOp K V)} (h : Stores this r) (hsmall : ∀ before,
      before <+: ops → before ≠ ops → (before.foldl reference r).entries.length < sizeLimit) :
    Stores (ops.foldl NodeOp.apply this) (ops.foldl reference r) := by
  induction ops generalizing this r with
  | nil => exact h
  | cons op ops ih =>
    refine ih (h.apply (hsmall [] nil_prefix nofun) op) fun before hbefore hne => ?_
    exact hsmall (op :: before) (cons_prefix_cons.mpr ⟨rfl, hbefore⟩) (by simpa using hne)

def run (ops : List (NodeOp K V)) : LlrbNode × Heap K V := ops.foldl apply (emptyNode, .start)

omit [Inhabited K] [Inhabited V] in
def contents (ops : List (NodeOp K V)) : OrdMap K V := ops.foldl reference .empty

theorem stores_run {ops : List (NodeOp K V)} (hsmall : ∀ before, before <+: ops → before ≠ ops →
    (contents before).entries.length < sizeLimit) : Stores (run ops) (contents ops) :=
  Stores.foldl ⟨Heap.frame_start, _, Heap.frame_start.shows_emptyNode, ⟨0, .nil⟩, rfl⟩ hsmall

/-- Through every sequence of insertions and removals the tree has the entries that it should have
and stays left-leaning, as long as there are fewer than `2 ^ 31` entries. -/
theorem run_leftLeaning (ops : List (NodeOp K V))
    (hsmall : ∀ before, before <+: ops → (contents before).entries.length < 2 ^ 31) :
    ∃ t, (run ops).2.Shows ∅ (run ops).1 t ∧ t.LeftLeaning ∧ t.toList = (contents ops).entries := by
  obtain ⟨-, t, hshows, hbalanced, hlist⟩ := stores_run fun before hbefore _ =>
    hsmall before hbefore
  have hwf := LlrbTree.wellFormed_of_balanced hbalanced hlist (hsmall ops (prefix_refl _))
  exact ⟨t, hshows, hwf.leftLeaning, hlist⟩

def insertAndErase : List (NodeOp Nat Bool) :=
  (List.range 8).map (fun i => insert (i * 3 % 8) true) ++
    [erase 3, insert 4 false, erase 0, erase 7]

theorem run_leftLeaning_insertAndErase : ∃ t,
    (run insertAndErase).2.Shows ∅ (run insertAndErase).1 t ∧ t.LeftLeaning ∧
      t.toList = [(1, true), (2, true), (4, false), (5, true), (6, true)] := by
  have hsmall : ∀ n < 13, (contents (insertAndErase.take n)).entries.length < 2 ^ 31 := by
    decide +kernel
  obtain ⟨t, hshows, hleftLeaning, hlist⟩ := run_leftLeaning insertAndErase fun before hbefore => by
    rw [prefix_iff_eq_take.mp hbefore]
    exact hsmall _ (Nat.lt_succ_of_le hbefore.length_le)
  exact ⟨t, hshows, hleftLeaning, hlist.trans (by decide +kernel)⟩

def insertRange (n : Nat) : List (NodeOp Nat Unit) := (List.range n).map fun key => insert key ()

theorem contents_insertRange (n : Nat) : contents (insertRange n) = rangeMap n := by
  induction n with
  | zero => rfl
  | succ n ih =>
    rw [contents, insertRange] at ih ⊢
    rw [range_succ, map_append, foldl_append, ih]
    exact rangeMap_insert n

/-- The root of a tree with `2 ^ 31` keys has the size zero. -/
theorem run_size_wraps : ∃ t, (run (insertRange (2 ^ 31))).2.Shows ∅
    (run (insertRange (2 ^ 31))).1 t ∧ t.toList.length = 2 ^ 31 ∧ t.size = 0 := by
  generalize hn : 2 ^ 31 = n
  have hstores : Stores (run (insertRange n)) (contents (insertRange n)) := by
    refine stores_run fun before hbefore hne => ?_
    have hlt : before.length < n := by
      have hle := hbefore.length_le.lt_of_ne fun heq => hne (hbefore.eq_of_length heq)
      simpa [insertRange] using hle
    rw [prefix_iff_eq_take.mp hbefore, insertRange, ← map_take, take_range,
      ← insertRange, contents_insertRange]
    simp [rangeMap, sizeLimit, hn, hlt]
  obtain ⟨-, t, hshows, ⟨_, hbalanced⟩, hlist⟩ := hstores
  have hlength : t.toList.length = n := by
    rw [hlist, contents_insertRange]
    simp [rangeMap]
  refine ⟨t, hshows, hlength, ?_⟩
  rw [hbalanced.size_eq, hlength, ← hn]
  rfl

end NodeOp

end Firebase.Firestore.Immutable
