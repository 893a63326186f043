import Firebase.Firestore.Immutable.SortedMap
import Firebase.Firestore.Immutable.LlrbNodeShows
import Firebase.Firestore.Immutable.LlrbTreeErase

/-!
# Reading sorted maps

All that can be read from a map: lookups, positions, bounds, and what iterators enumerate.  `View.At
m it rest` says that an iterator of the map has the entries `rest` ahead of it; iterators of arrays
and of trees are used through it alone.
-/

namespace Firebase.Firestore.Immutable

open Lib Util OrdMap List LlrbTree LlrbNodeIterator

variable {K V : Type}

/-! ## Trees with exact sizes -/

/-- All stored sizes are the numbers of entries. -/
def LlrbTree.Counted : LlrbTree K V → Prop
  | .nil _ => True
  | .node _ _ s l r => s = l.toList.length + 1 + r.toList.length ∧ l.Counted ∧ r.Counted

variable {t : LlrbTree K V}

theorem LlrbTree.Counted.size_eq (h : t.Counted) : t.size = t.toList.length := by
  cases t with
  | nil => rfl
  | node e c s l r =>
    rw [size_node, h.1, toList_node, length_append, length_cons]
    omega

theorem LlrbTree.Counted.empty_eq (h : t.Counted) : t.empty = t.toList.isEmpty := by
  rw [empty, h.size_eq]
  cases t.toList <;> rfl

theorem LlrbTree.Counted.empty_node {e : K × V} {c : Color} {s : Nat} {l r : LlrbTree K V}
    (h : (node e c s l r).Counted) : (node e c s l r).empty = false := by
  rw [h.empty_eq]
  simp

theorem LlrbTree.Balanced.counted {c : Color} {n : Nat} (h : Balanced t c n)
    (hsize : t.toList.length < sizeLimit) : t.Counted := by
  induction h with
  | nil => trivial
  | @red e l r n hl hr ihl ihr | @black e l r _ n hl hr ihl ihr =>
    rw [toList_make, length_append, length_cons] at hsize
    have hl' := ihl (by omega)
    have hr' := ihr (by omega)
    refine ⟨?_, hl', hr'⟩
    rw [sizeOver, hl'.size_eq, hr'.size_eq, Nat.mod_eq_of_lt (by omega)]

/-- Reading a tree shows it. -/
theorem Heap.Shows.load [Inhabited K] [Inhabited V] {h : Heap K V} {o : Set Nat} {p : LlrbNode}
    (hs : Shows h o p t) (hcounted : t.Counted) {depth : Nat}
    (hdepth : t.toList.length < depth) : h.load depth p = t := by
  induction hs generalizing depth with
  | nil _ _ hrep =>
    obtain ⟨depth, rfl⟩ : ∃ d, depth = d + 1 := ⟨depth - 1, by omega⟩
    simp [Heap.load, Heap.empty, Heap.size, hrep]
  | @node p pl pr e c s l r hlt hp hrep hl hr ihl ihr =>
    obtain ⟨depth, rfl⟩ : ∃ d, depth = d + 1 := ⟨depth - 1, by omega⟩
    obtain ⟨hsize, hcl, hcr⟩ := hcounted
    rw [toList_node, length_append, length_cons] at hdepth
    have hempty : h.empty p = false := by
      simp only [Heap.empty, Heap.size, hrep, beq_eq_false_iff_ne]
      omega
    rw [Heap.load, if_neg (by simp [hempty])]
    simp only [Heap.size, Heap.left, Heap.right, hrep]
    rw [ihl hcl (by omega), ihr hcr (by omega)]

/-! ## Iterators over trees -/

variable {t : LlrbTree K V} {stack : List (LlrbTree K V)}

namespace LlrbNodeIterator

def Solid (stack : List (LlrbTree K V)) : Prop :=
  ∀ t ∈ stack, t.right.Counted

theorem solid_nil : Solid ([] : List (LlrbTree K V)) := by simp [Solid]

variable [Inhabited K] [Inhabited V]

def ahead (stack : List (LlrbTree K V)) : List (K × V) :=
  stack.flatMap fun t => t.entry :: t.right.toList

theorem ahead_cons (t : LlrbTree K V) (stack : List (LlrbTree K V)) :
    ahead (t :: stack) = t.entry :: (t.right.toList ++ ahead stack) := rfl

theorem accumulateLeft_spec (ht : t.Counted) (hstack : Solid stack) :
    Solid (accumulateLeft t stack) ∧ ahead (accumulateLeft t stack) = t.toList ++ ahead stack := by
  induction t generalizing stack with
  | nil => exact ⟨hstack, rfl⟩
  | node e c s l r ihl _ =>
    rw [accumulateLeft, if_neg (by simp [ht.empty_node])]
    have hpush : Solid (.node e c s l r :: stack) := forall_mem_cons.mpr ⟨ht.2.2, hstack⟩
    obtain ⟨hsolid, hahead⟩ := ihl ht.2.1 hpush
    refine ⟨hsolid, ?_⟩
    rw [hahead, ahead_cons]
    simp [entry]

variable [LinearOrder K]

theorem lowerBoundFrom_spec (ht : t.Counted) (hsorted : t.Sorted) (key : K) (hstack : Solid stack) :
    Solid (lowerBoundFrom key t stack) ∧
      ahead (lowerBoundFrom key t stack) = t.toList.filter (fun e => key ≤ e.1) ++ ahead stack := by
  induction t generalizing stack with
  | nil => exact ⟨hstack, rfl⟩
  | node e c s l r ihl ihr =>
    obtain ⟨hsl, hsr, hle, her⟩ := sorted_node.mp hsorted
    have hpush : Solid (.node e c s l r :: stack) := forall_mem_cons.mpr ⟨ht.2.2, hstack⟩
    rw [lowerBoundFrom, if_neg (by simp [ht.empty_node]), toList_node, filter_append]
    rcases lt_trichotomy key e.1 with hlt | rfl | hlt
    · rw [compare_lt_iff_lt.mpr hlt]
      obtain ⟨hsolid, hahead⟩ := ihl ht.2.1 hsl hpush
      have hright : r.toList.filter (fun e => key ≤ e.1) = r.toList :=
        filter_eq_self.mpr fun x hx => by simpa using (hlt.trans (her x hx)).le
      refine ⟨hsolid, ?_⟩
      rw [hahead, ahead_cons, filter_cons_of_pos (by simpa using hlt.le), hright]
      simp [entry]
    · rw [compare_eq_iff_eq.mpr rfl]
      have hleft : l.toList.filter (fun x => e.1 ≤ x.1) = [] :=
        filter_eq_nil_iff.mpr fun x hx => by simpa using hle x hx
      have hright : r.toList.filter (fun x => e.1 ≤ x.1) = r.toList :=
        filter_eq_self.mpr fun x hx => by simpa using (her x hx).le
      refine ⟨hpush, ?_⟩
      rw [ahead_cons, hleft, filter_cons_of_pos (by simp), hright]
      simp [entry]
    · rw [compare_gt_iff_gt.mpr hlt]
      obtain ⟨hsolid, hahead⟩ := ihr ht.2.2 hsr hstack
      have hleft : l.toList.filter (fun x => key ≤ x.1) = [] :=
        filter_eq_nil_iff.mpr fun x hx => by simpa using (hle x hx).trans hlt
      refine ⟨hsolid, ?_⟩
      rw [hahead, hleft, filter_cons_of_neg (by simpa using hlt), nil_append]

end LlrbNodeIterator

/-- The last entry is the one of `max`. -/
theorem TreeSortedMap.maxNode_spec [Inhabited K] [Inhabited V] (ht : t.Counted) :
    (maxNode t).right.toList = [] ∧ (maxNode t).right.Counted ∧
      (t.toList ≠ [] → t.toList.getLast? = some (maxNode t).entry) := by
  induction t with
  | nil => exact ⟨rfl, trivial, absurd rfl⟩
  | node e c s l r _ ihr =>
    rw [maxNode, ht.2.2.empty_eq, toList_node, getLast?_append, getLast?_cons]
    cases hlist : r.toList with
    | nil => exact ⟨hlist, ht.2.2, fun _ => rfl⟩
    | cons x xs =>
      obtain ⟨hnil, hcounted, hlast⟩ := ihr ht.2.2
      refine ⟨hnil, hcounted, fun _ => ?_⟩
      rw [← hlist, hlast (by simp [hlist])]
      simp [hlist]

variable {es : List (K × V)}

namespace View

section

variable [LinearOrder K] {key : K} {v : V} {as bs : List (K × V)}

theorem findIdx_key (has : ∀ a ∈ as, a.1 < key) :
    ((as ++ (key, v) :: bs).findIdx fun kv => compare key kv.1 == .eq) = as.length := by
  have hfalse : ∀ a ∈ as, (compare key a.1 == .eq) = false := fun a ha => by
    simpa using (has a ha).ne'
  rw [findIdx_append, findIdx_eq_length_of_false hfalse]
  simp [findIdx_cons]

theorem findIdx_of_not_mem (hkey : ∀ e ∈ es, e.1 ≠ key) :
    (es.findIdx fun kv => compare key kv.1 == .eq) = es.length :=
  findIdx_eq_length_of_false fun e he => by simpa using (hkey e he).symm

/-- Two last parts of the entries that start with the same key are the same. -/
theorem suffix_eq_of_key_eq {a b : K × V} (hsorted : es.Pairwise fun a b => a.1 < b.1)
    (ha : a :: as <:+ es) (hb : b :: bs <:+ es) (hkey : a.1 = b.1) : a :: as = b :: bs := by
  have hlt : ∀ {a b : K × V} {as bs : List (K × V)}, a :: as <:+ b :: bs →
      ((b :: bs).Pairwise fun a b => a.1 < b.1) → a.1 = b.1 → a :: as = b :: bs := by
    intro a b as bs hsuffix hsorted hkey
    rcases suffix_cons_iff.mp hsuffix with heq | hsuffix
    · exact heq
    · have hmem : a ∈ bs := hsuffix.subset (by simp)
      exact absurd hkey ((pairwise_cons.mp hsorted).1 a hmem).ne'
  rcases suffix_or_suffix_of_suffix ha hb with hab | hba
  · exact hlt hab (hsorted.sublist hb.sublist) hkey
  · exact (hlt hba (hsorted.sublist ha.sublist) hkey.symm).symm

end

def toList : View K V → List (K × V)
  | .array m => m.contents
  | .tree root => root.toList

/-- The views of the maps that the operations make. -/
structure Ok [LinearOrder K] (m : View K V) : Prop where
  sorted : m.toList.Pairwise fun a b => a.1 < b.1
  counted : ∀ root, m = .tree root → root.Counted

variable [Inhabited K] [Inhabited V]

/-- The iterator is one of the map, with some last part of its entries ahead of it. -/
def At (m : View K V) (it : SortedMapIterator K V) (rest : List (K × V)) : Prop :=
  match m, it with
  | .array m, .array contents pos =>
    contents = m.contents ∧ pos ≤ contents.length ∧ rest = contents.drop pos
  | .tree root, .tree it =>
    LlrbNodeIterator.Solid it.stack ∧ rest = ahead it.stack ∧ rest <:+ root.toList
  | _, _ => False

variable {m : View K V} {it it' : SortedMapIterator K V} {e : K × V} {rest rest' : List (K × V)}

theorem At.get (h : m.At it (e :: rest)) : it.get = .ok e := by
  match m, it, h with
  | .array m, .array contents pos, ⟨_, _, hrest⟩ =>
    have hget : contents[pos]? = some e := by
      rw [← head?_drop, ← hrest]
      rfl
    simp [SortedMapIterator.get, hget]
  | .tree root, .tree ⟨t :: stack⟩, ⟨_, hrest, _⟩ =>
    rw [(List.cons.inj hrest).1]
    rfl
  | .tree root, .tree ⟨[]⟩, ⟨_, hrest, _⟩ => exact absurd hrest (by simp [ahead])

theorem At.next (h : m.At it (e :: rest)) : ∃ it', it.next = .ok it' ∧ m.At it' rest := by
  match m, it, h with
  | .array m, .array contents pos, ⟨hcontents, hpos, hrest⟩ =>
    have hlt : pos < contents.length := by
      by_contra hge
      rw [drop_eq_nil_of_le (not_lt.mp hge)] at hrest
      exact absurd hrest (by simp)
    refine ⟨_, rfl, hcontents, hlt, ?_⟩
    rw [← tail_drop, ← hrest, tail_cons]
  | .tree root, .tree ⟨t :: stack⟩, ⟨hsolid, hrest, hsuffix⟩ =>
    obtain ⟨hright, hstack⟩ := forall_mem_cons.mp hsolid
    obtain ⟨hsolid', hahead⟩ := accumulateLeft_spec hright hstack
    refine ⟨_, rfl, hsolid', ?_, (suffix_cons e rest).trans hsuffix⟩
    rw [(List.cons.inj hrest).2]
    exact hahead.symm
  | .tree root, .tree ⟨[]⟩, ⟨_, hrest, _⟩ => exact absurd hrest (by simp [ahead])

theorem At.isSuffix (h : m.At it rest) : rest <:+ m.toList := by
  match m, it, h with
  | .array m, .array contents pos, ⟨hcontents, _, hrest⟩ =>
    rw [hrest, hcontents]
    exact drop_suffix _ _
  | .tree root, .tree it, ⟨_, _, hsuffix⟩ => exact hsuffix

variable [LinearOrder K]

/-- Iterators are compared by what is ahead of them. -/
theorem At.eq_iff (hm : m.Ok) (h : m.At it rest) (h' : m.At it' rest') :
    it.eq it' = true ↔ rest = rest' := by
  match m, it, it', h, h' with
  | .array m, .array contents pos, .array contents' pos', ⟨hc, hpos, hrest⟩, ⟨hc', hpos', hrest'⟩ =>
    subst hc hc' hrest hrest'
    simp only [SortedMapIterator.eq, beq_iff_eq]
    refine ⟨fun heq => by rw [heq], fun heq => ?_⟩
    have hlength := congrArg List.length heq
    rw [length_drop, length_drop] at hlength
    omega
  | .tree root, .tree ⟨stack⟩, .tree ⟨stack'⟩, ⟨_, hrest, hsuffix⟩, ⟨_, hrest', hsuffix'⟩ =>
    subst hrest hrest'
    cases stack with
    | nil =>
      cases stack' with
      | nil => simp [SortedMapIterator.eq, eq]
      | cons t' stack' =>
        simp [SortedMapIterator.eq, eq, ahead]
    | cons t stack =>
      cases stack' with
      | nil => simp [SortedMapIterator.eq, eq, ahead]
      | cons t' stack' =>
        simp only [SortedMapIterator.eq, eq, beq_iff_eq]
        refine ⟨suffix_eq_of_key_eq hm.sorted hsuffix hsuffix', fun heq => ?_⟩
        rw [(List.cons.inj heq).1]

/-- The entries between two iterators. -/
theorem At.entriesUpTo (hm : m.Ok) (h : m.At it (es ++ rest))
    (hlast : m.At it' rest) {rounds : Nat} (hrounds : es.length < rounds) :
    SortedMapIterator.entriesUpTo rounds it it' = .ok es := by
  induction es generalizing it rounds with
  | nil =>
    obtain ⟨rounds, rfl⟩ : ∃ n, rounds = n + 1 := ⟨rounds - 1, by omega⟩
    have heq : it.eq it' = true := (h.eq_iff hm hlast).mpr (nil_append rest)
    simp [SortedMapIterator.entriesUpTo, heq, pure, Except.pure]
  | cons e es ih =>
    obtain ⟨rounds, rfl⟩ : ∃ n, rounds = n + 1 := ⟨rounds - 1, by omega⟩
    have hne : it.eq it' = false := by
      rw [← Bool.not_eq_true, h.eq_iff hm hlast]
      intro heq
      have hlength := congrArg List.length heq
      rw [length_append, length_cons] at hlength
      omega
    obtain ⟨it₁, hnext, h₁⟩ := h.next
    have hrest := ih h₁ (by simpa using hrounds)
    simp [SortedMapIterator.entriesUpTo, hne, h.get, hnext, hrest, pure, Except.pure]

/-! ## Where the iterators of a map stand -/

theorem at_first (hm : m.Ok) : m.At m.first m.toList := by
  match m, hm with
  | .array m, _ => exact ⟨rfl, Nat.zero_le _, rfl⟩
  | .tree root, hm =>
    obtain ⟨hsolid, hahead⟩ := accumulateLeft_spec (hm.counted root rfl)
      solid_nil
    refine ⟨hsolid, ?_, suffix_rfl⟩
    exact (hahead.trans (append_nil _)).symm

omit [LinearOrder K] in
theorem at_last (m : View K V) : m.At m.last [] := by
  match m with
  | .array m => exact ⟨rfl, le_rfl, drop_length.symm⟩
  | .tree root => exact ⟨solid_nil, rfl, nil_suffix⟩

theorem at_lowerBound (hm : m.Ok) (key : K) :
    m.At (m.lowerBound key) (m.toList.filter fun e => key ≤ e.1) := by
  have hdrop : (m.toList.filter fun e => key ≤ e.1) = m.toList.dropWhile fun e => ¬ key ≤ e.1 :=
    (dropWhile_eq_filter (fun _ _ hab ha => ha.trans hab) hm.sorted).symm
  match m, hm with
  | .array m, hm =>
    refine ⟨rfl, findIdx_le_length, ?_⟩
    rw [hdrop, dropWhile_eq_drop_findIdx_not]
    refine congrArg (List.drop · m.contents) (congrArg (List.findIdx · m.contents) ?_)
    funext e
    by_cases hle : key ≤ e.1
    · simp [hle, compare_lt_iff_lt]
    · simp [hle, compare_lt_iff_lt.mpr (not_le.mp hle)]
  | .tree root, hm =>
    obtain ⟨hsolid, hahead⟩ := lowerBoundFrom_spec (hm.counted root rfl) hm.sorted
      key solid_nil
    refine ⟨hsolid, (hahead.trans (append_nil _)).symm, ?_⟩
    rw [hdrop]
    exact dropWhile_suffix _

section Find

variable {key : K} {v : V} {as bs : List (K × V)}

/-- Where a key is found that is there. -/
theorem at_find_of_mem (hm : m.Ok) (hlist : m.toList = as ++ (key, v) :: bs)
    (has : ∀ a ∈ as, a.1 < key) (hbs : ∀ b ∈ bs, key < b.1) :
      m.At (m.find key) ((key, v) :: bs) := by
  match m, hm with
  | .array m, hm =>
    have hcontents : m.contents = as ++ (key, v) :: bs := hlist
    refine ⟨rfl, findIdx_le_length, ?_⟩
    rw [ArraySortedMap.find, hcontents, findIdx_key has, drop_left]
  | .tree root, hm =>
    have hbound := at_lowerBound hm key
    have hfilter : ((View.tree root).toList.filter fun e => key ≤ e.1) = (key, v) :: bs := by
      have hleft : as.filter (fun e => key ≤ e.1) = [] :=
        filter_eq_nil_iff.mpr fun a ha => by simpa using has a ha
      have hright : bs.filter (fun e => key ≤ e.1) = bs :=
        filter_eq_self.mpr fun b hb => by simpa using (hbs b hb).le
      rw [hlist, filter_append, hleft, filter_cons_of_pos (by simp), hright,
        nil_append]
    rw [hfilter] at hbound
    have hget := hbound.get
    have hfound : TreeSortedMap.find root key = .lowerBound root key := by
      rw [TreeSortedMap.find]
      cases hstack : (LlrbNodeIterator.lowerBound root key).stack with
      | nil => simp [lowerBound, SortedMapIterator.get, LlrbNodeIterator.get, hstack] at hget
      | cons t stack =>
        simp only [lowerBound, SortedMapIterator.get, LlrbNodeIterator.get, hstack,
          Except.ok.injEq] at hget
        simp [hget]
    rw [find, hfound]
    exact hbound

/-- A key that is not there is not found. -/
theorem at_find_of_not_mem (hm : m.Ok) (hkey : ∀ e ∈ m.toList, e.1 ≠ key) :
    m.At (m.find key) [] := by
  match m, hm with
  | .array m, hm =>
    refine ⟨rfl, findIdx_le_length, ?_⟩
    have hfind : m.find key = m.contents.length := findIdx_of_not_mem hkey
    rw [hfind, drop_length]
  | .tree root, hm =>
    obtain ⟨hsolid, hahead, hsuffix⟩ := at_lowerBound hm key
    have hfound : TreeSortedMap.find root key = .last := by
      rw [TreeSortedMap.find]
      cases hstack : (LlrbNodeIterator.lowerBound root key).stack with
      | nil => rfl
      | cons t stack =>
        rw [hstack, ahead_cons] at hahead
        have hmem : t.entry ∈ (View.tree root).toList :=
          mem_of_mem_filter (hahead ▸ mem_cons_self)
        simp [(hkey _ hmem).symm]
    rw [find, hfound]
    exact at_last (.tree root)

end Find

theorem at_max (hm : m.Ok) : m.At m.max m.toList.getLast?.toList := by
  match m, hm with
  | .array m, hm =>
    refine ⟨rfl, ?_, ?_⟩
    · rw [ArraySortedMap.size]
      split_ifs <;> omega
    · change m.contents.getLast?.toList = _
      rcases eq_nil_or_concat m.contents with hnil | ⟨es, e, hlast⟩
      · simp [hnil]
      · simp [ArraySortedMap.size, hlast]
  | .tree root, hm =>
    obtain ⟨hnil, hcounted, hlast⟩ := TreeSortedMap.maxNode_spec (hm.counted root rfl)
    change View.At (.tree root) _ root.toList.getLast?.toList
    rw [max, TreeSortedMap.max, (hm.counted root rfl).empty_eq]
    by_cases hlist : root.toList = []
    · rw [hlist]
      exact at_last (.tree root)
    · have hmax := hlast hlist
      rw [if_neg (by simpa using hlist), hmax]
      refine ⟨forall_mem_cons.mpr ⟨hcounted, solid_nil⟩, ?_, ?_⟩
      · rw [ahead_cons, hnil]
        rfl
      · obtain ⟨es, heq⟩ := getLast?_eq_some_iff.mp hmax
        exact ⟨es, heq.symm⟩

end View

namespace TreeSortedMap

variable [LinearOrder K]

theorem contains_eq (ht : t.Counted) (hsorted : t.Sorted) (key : K) :
    contains key t = t.toList.any fun e => e.1 = key := by
  induction t with
  | nil => rfl
  | node e c s l r ihl ihr =>
    obtain ⟨hsl, hsr, hle, her⟩ := sorted_node.mp hsorted
    rw [contains, if_neg (by simp [ht.empty_node]), toList_node, any_append,
      any_cons]
    rcases lt_trichotomy key e.1 with hlt | rfl | hlt
    · have hright : (r.toList.any fun e => e.1 = key) = false :=
        any_eq_false.mpr fun x hx => by simpa using (hlt.trans (her x hx)).ne'
      rw [compare_lt_iff_lt.mpr hlt, hright]
      simp [ihl ht.2.1 hsl, hlt.ne']
    · simp
    · have hleft : (l.toList.any fun e => e.1 = key) = false :=
        any_eq_false.mpr fun x hx => by simpa using ((hle x hx).trans hlt).ne
      rw [compare_gt_iff_gt.mpr hlt, hleft]
      simp [ihr ht.2.2 hsr, hlt.ne]

theorem findIndexFrom_eq (ht : t.Counted) (hsorted : t.Sorted) (key : K) (prunedNodes : Nat) :
    findIndexFrom key t prunedNodes =
      ((t.toList.findIdx? fun e => e.1 = key).map (prunedNodes + ·)).getD npos := by
  induction t generalizing prunedNodes with
  | nil => rfl
  | node e c s l r ihl ihr =>
    obtain ⟨hsl, hsr, hle, her⟩ := sorted_node.mp hsorted
    rw [findIndexFrom, if_neg (by simp [ht.empty_node]), toList_node,
      findIdx?_append, findIdx?_cons]
    rcases lt_trichotomy key e.1 with hlt | rfl | hlt
    · have hright : (r.toList.findIdx? fun e => e.1 = key) = none :=
        findIdx?_eq_none_iff.mpr fun x hx => by simpa using (hlt.trans (her x hx)).ne'
      rw [compare_lt_iff_lt.mpr hlt, hright]
      simp [ihl ht.2.1 hsl, hlt.ne']
    · have hleft : (l.toList.findIdx? fun x => x.1 = e.1) = none :=
        findIdx?_eq_none_iff.mpr fun x hx => by simpa using (hle x hx).ne
      rw [hleft]
      simp [ht.2.1.size_eq]
    · have hleft : (l.toList.findIdx? fun e => e.1 = key) = none :=
        findIdx?_eq_none_iff.mpr fun x hx => by simpa using ((hle x hx).trans hlt).ne
      rw [compare_gt_iff_gt.mpr hlt, hleft]
      simp only [ihr ht.2.2 hsr, ht.2.1.size_eq]
      cases r.toList.findIdx? fun e => e.1 = key with
      | none => simp [hlt.ne]
      | some i =>
        simp only [hlt.ne, decide_false, Bool.false_eq_true, if_false, Option.map_some,
          Option.none_or, Option.getD_some]
        omega

end TreeSortedMap

namespace View

/-! ## Maps and the reference -/

theorem map_ok {α β : Type} (f : α → β) {x : Hard α} {a : α} (h : x = .ok a) :
    (do return f (← x) : Hard β) = .ok (f a) := by
  rw [h]
  rfl

variable [LinearOrder K] {m : View K V} {r : OrdMap K V}

theorem Ok.size_eq (hm : m.Ok) : m.size = m.toList.length := by
  match m, hm with
  | .array m, _ => rfl
  | .tree root, hm => exact (hm.counted root rfl).size_eq

theorem any_key_eq (r : OrdMap K V) (key : K) :
    (r.entries.any fun e => e.1 = key) = (r.get? key).isSome := by
  rw [OrdMap.get?, Option.isSome_map, isSome_find?]

theorem key_pred_eq (key : K) :
    (fun kv : K × V => compare key kv.1 == .eq) = fun e => decide (e.1 = key) := by
  funext e
  by_cases heq : e.1 = key
  · simp [heq]
  · simp [heq, Ne.symm heq]

theorem contains_eq (hm : m.Ok) (hr : m.toList = r.entries) (key : K) :
    m.contains key = (r.get? key).isSome := by
  rw [← any_key_eq, ← hr]
  match m, hm with
  | .array m, _ =>
    rw [Bool.eq_iff_iff, View.contains, bne_iff_ne, ArraySortedMap.find, ArraySortedMap.size, ne_eq]
    simp [toList]
  | .tree root, hm => exact TreeSortedMap.contains_eq (hm.counted root rfl) hm.sorted key

theorem findIndex_eq (hm : m.Ok) (hr : m.toList = r.entries) (key : K) :
    m.findIndex key = (r.entries.findIdx? fun e => e.1 = key).getD npos := by
  rw [← hr]
  match m, hm with
  | .array m, _ =>
    rw [View.findIndex, ArraySortedMap.findIndex, ArraySortedMap.find, ArraySortedMap.size,
      key_pred_eq, toList, findIdx?_eq_guard_findIdx_lt]
    by_cases hfound : (m.contents.findIdx fun e => e.1 = key) = m.contents.length
    · simp [hfound, Option.guard]
    · have hlt := lt_of_le_of_ne findIdx_le_length hfound
      simp [hfound, hlt]
  | .tree root, hm =>
    refine (TreeSortedMap.findIndexFrom_eq (hm.counted root rfl) hm.sorted key 0).trans ?_
    simp [toList]

variable [Inhabited K] [Inhabited V]

/-- A map shows nothing but the reference map: all observers agree. -/
structure Agrees (m : View K V) (r : OrdMap K V) : Prop where
  get : ∀ key, m.get key = .ok (r.get? key)
  contains : ∀ key, m.contains key = (r.get? key).isSome
  findIndex : ∀ key, m.findIndex key = (r.entries.findIdx? fun e => e.1 = key).getD npos
  lowerBound : ∀ key, m.range (m.lowerBound key) m.last = .ok (r.entries.filter fun e => key ≤ e.1)
  min : m.range m.min m.last = .ok r.entries
  max : m.range m.max m.last = .ok r.entries.getLast?.toList
  size : m.size = r.entries.length
  empty : m.empty = r.entries.isEmpty
  entries : m.entries = .ok r.entries
  keys : m.keys = .ok (r.entries.map Prod.fst)
  keysFrom : ∀ key, m.keysFrom key = .ok ((r.entries.map Prod.fst).filter fun k => key ≤ k)
  keysIn : ∀ startKey endKey, m.keysIn startKey endKey =
    .ok ((r.entries.map Prod.fst).filter fun k => startKey ≤ k ∧ k < endKey)

/-- The entries between two iterators, as the map enumerates them. -/
theorem range_eq (hm : m.Ok) {it it' : SortedMapIterator K V} {es rest : List (K × V)}
    (h : m.At it (es ++ rest)) (hlast : m.At it' rest) : m.range it it' = .ok es := by
  refine h.entriesUpTo hm hlast ?_
  have hlength := h.isSuffix.length_le
  rw [length_append] at hlength
  rw [hm.size_eq]
  omega

theorem range_last (hm : m.Ok) {it : SortedMapIterator K V} (h : m.At it es) :
    m.range it m.last = .ok es :=
  range_eq hm (by rwa [append_nil]) (at_last m)

theorem get_eq (hm : m.Ok) (hr : m.toList = r.entries) (key : K) :
    m.get key = .ok (r.get? key) := by
  cases hget : r.get? key with
  | none =>
    have hkey : ∀ e ∈ m.toList, e.1 ≠ key := hr ▸ get?_eq_none_iff.mp hget
    have hfind := at_find_of_not_mem hm hkey
    have heq : (m.find key).eq m.last = true := (hfind.eq_iff hm (at_last m)).mpr rfl
    simp [View.get, heq, pure, Except.pure]
  | some v =>
    obtain ⟨as, bs, hsplit, has, hbs⟩ := exists_split_of_get? hget
    have hfind := at_find_of_mem hm (hr.trans hsplit) has hbs
    have hne : (m.find key).eq m.last = false := by
      rw [← Bool.not_eq_true, hfind.eq_iff hm (at_last m)]
      simp
    simp [View.get, hne, hfind.get, pure, Except.pure]

/-- A well-formed map agrees with the reference map that has its entries. -/
theorem agrees (hm : m.Ok) (hr : m.toList = r.entries) : m.Agrees r where
  get := get_eq hm hr
  contains := contains_eq hm hr
  findIndex := findIndex_eq hm hr
  lowerBound key := hr ▸ range_last hm (at_lowerBound hm key)
  min := hr ▸ range_last hm (at_first hm)
  max := hr ▸ range_last hm (at_max hm)
  size := hr ▸ hm.size_eq
  empty := by
    rw [View.empty, hm.size_eq, hr]
    cases r.entries <;> rfl
  entries := hr ▸ range_last hm (at_first hm)
  keys := hr ▸ map_ok _ (range_last hm (at_first hm))
  keysFrom key := by
    rw [filter_map, ← hr]
    exact map_ok _ (range_last hm (at_lowerBound hm key))
  keysIn startKey endKey := by
    rw [filter_map, ← hr, View.keysIn]
    split_ifs with hempty
    · have hnone : m.toList.filter ((fun k => decide (startKey ≤ k ∧ k < endKey)) ∘ Prod.fst) =
        [] := by
        have hle : endKey ≤ startKey := by simpa [compare_lt_iff_lt] using hempty
        exact filter_eq_nil_iff.mpr fun e _ => by simpa using hle.trans
      rw [hnone]
      exact map_ok _ (range_last hm (at_last m))
    · have hlt : startKey < endKey := by simpa [compare_lt_iff_lt] using hempty
      have hsplit := filter_le_split hlt.le hm.sorted
      have hstart := at_lowerBound hm startKey
      rw [hsplit] at hstart
      exact map_ok _ (range_eq hm hstart (at_lowerBound hm endKey))

end View

end Firebase.Firestore.Immutable
