import Mathlib.Data.List.Lex
import Mathlib.Data.Prod.Lex
import Firebase.Lib.SortedList

/-!
# Finite maps with ordered keys

`OrdMap K V` is a list of entries in strictly ascending order of keys.  It is the abstract side of
the refinements in this development, and the contents of the sorted containers that the code takes
from its libraries.

An ordered map is determined by its lookups (`OrdMap.ext_get?`), so that all operations are
specified by what `get?` returns after them.
-/

universe u v

namespace Firebase.Lib

open List

/-- A finite map, as the list of its entries in ascending order of keys. -/
@[ext] structure OrdMap (K : Type u) (V : Type v) [LinearOrder K] where
  entries : List (K × V)
  sorted : entries.Pairwise fun a b => a.1 < b.1
deriving DecidableEq

namespace OrdMap

variable {K : Type u} {V : Type v} [LinearOrder K]

def empty : OrdMap K V := ⟨[], .nil⟩

/-- The value of a key. -/
def get? (m : OrdMap K V) (k : K) : Option V := (m.entries.find? fun e => e.1 = k).map Prod.snd

/-- The entry with the least key that satisfies `p`. -/
def first (m : OrdMap K V) (p : K → Prop) [DecidablePred p] : Option (K × V) :=
  m.entries.find? fun e => p e.1

/-! ## Lookups and entries -/

variable {m : OrdMap K V}

/-- Entries with the same key are the same entry. -/
theorem eq_of_mem_of_mem {a b : K × V} (ha : a ∈ m.entries) (hb : b ∈ m.entries)
    (hab : a.1 = b.1) : a = b := by
  by_contra hne
  have hsymm : Std.Symm fun a b : K × V => a.1 ≠ b.1 := ⟨fun _ _ h => h.symm⟩
  have hdistinct : m.entries.Pairwise fun a b => a.1 ≠ b.1 := m.sorted.imp ne_of_lt
  exact hdistinct.forall ha hb hne hab

variable {k : K} {v : V}

theorem mem_entries : (k, v) ∈ m.entries ↔ m.get? k = some v := by
  rw [get?, Option.map_eq_some_iff]
  constructor
  · intro hmem
    obtain ⟨e, he⟩ : ∃ e, (m.entries.find? fun e => e.1 = k) = some e := by
      rw [← Option.isSome_iff_exists, find?_isSome]
      exact ⟨(k, v), hmem, by simp⟩
    have hkey : e.1 = k := by simpa using find?_some he
    obtain rfl := eq_of_mem_of_mem (mem_of_find?_eq_some he) hmem hkey
    exact ⟨_, he, rfl⟩
  · rintro ⟨e, he, rfl⟩
    have hkey : e.1 = k := by simpa using find?_some he
    rw [← hkey]
    exact mem_of_find?_eq_some he

theorem get?_eq_none_iff : m.get? k = none ↔ ∀ e ∈ m.entries, e.1 ≠ k := by
  simp [get?]

theorem mem_keys : k ∈ m.entries.map Prod.fst ↔ (m.get? k).isSome := by
  rw [Option.isSome_iff_exists, mem_map]
  constructor
  · rintro ⟨⟨_, v⟩, hentry, rfl⟩
    exact ⟨v, mem_entries.mp hentry⟩
  · rintro ⟨v, hget⟩
    exact ⟨(k, v), mem_entries.mpr hget, rfl⟩

theorem nodup_keys (m : OrdMap K V) : (m.entries.map Prod.fst).Nodup :=
  pairwise_map.mpr (m.sorted.imp ne_of_lt)

/-- A map is determined by its lookups. -/
theorem ext_get? {m m' : OrdMap K V} (h : ∀ k, m.get? k = m'.get? k) : m = m' := by
  apply OrdMap.ext
  have hirrefl : Std.Irrefl fun a b : K × V => a.1 < b.1 := ⟨fun a => lt_irrefl a.1⟩
  have hasymm : Std.Antisymm fun a b : K × V => a.1 < b.1 :=
    ⟨fun a b hab hba => absurd hba (lt_asymm hab)⟩
  refine m.sorted.eq_of_mem_iff m'.sorted fun ⟨k, v⟩ => ?_
  rw [mem_entries, mem_entries, h]

/-- The entries around a key. -/
theorem exists_split_of_get? (h : m.get? k = some v) :
    ∃ as bs, m.entries = as ++ (k, v) :: bs ∧ (∀ a ∈ as, a.1 < k) ∧ ∀ b ∈ bs, k < b.1 := by
  obtain ⟨as, bs, heq⟩ := append_of_mem (mem_entries.mpr h)
  have hsorted := m.sorted
  rw [heq, pairwise_append, pairwise_cons] at hsorted
  exact ⟨as, bs, heq, fun a ha => hsorted.2.2 a ha (k, v) (by simp), hsorted.2.1.1⟩

/-- The least entry whose key satisfies a predicate. -/
theorem first_eq_some_iff {p : K → Prop} [DecidablePred p] : m.first p = some (k, v) ↔
      m.get? k = some v ∧ p k ∧ ∀ k' < k, p k' → m.get? k' = none := by
  rw [first, find?_eq_some_iff_append, ← mem_entries]
  constructor
  · rintro ⟨hp, as, bs, he, has⟩
    refine ⟨by simp [he], by simpa using hp, fun k' hlt hp' => get?_eq_none_iff.mpr ?_⟩
    rintro e hmem rfl
    have hsorted := m.sorted
    rw [he, pairwise_append, pairwise_cons] at hsorted
    rw [he, mem_append, mem_cons] at hmem
    rcases hmem with hmem | rfl | hmem
    · exact absurd hp' (by simpa using has e hmem)
    · exact lt_irrefl _ hlt
    · exact lt_asymm hlt (hsorted.2.1.1 e hmem)
  · rintro ⟨hmem, hp, hleast⟩
    obtain ⟨as, bs, he⟩ := append_of_mem hmem
    refine ⟨by simpa using hp, as, bs, he, fun e hmem' => ?_⟩
    have hsorted := m.sorted
    rw [he, pairwise_append] at hsorted
    have hlt : e.1 < k := hsorted.2.2 e hmem' (k, v) (by simp)
    have hnone : ¬ p e.1 := fun hp' =>
      get?_eq_none_iff.mp (hleast e.1 hlt hp') e (by simp [he, hmem']) rfl
    simpa using hnone

theorem first_eq_none_iff {p : K → Prop} [DecidablePred p] :
    m.first p = none ↔ ∀ k, p k → m.get? k = none := by
  rw [first, find?_eq_none]
  constructor
  · intro h k hp
    rw [get?_eq_none_iff]
    rintro e hmem rfl
    exact absurd hp (by simpa using h e hmem)
  · intro h e hmem
    have hnone : ¬ p e.1 := fun hp => get?_eq_none_iff.mp (h e.1 hp) e hmem rfl
    simpa using hnone

/-- Only the keys of the map matter for its least entry. -/
theorem first_congr {p q : K → Prop} [DecidablePred p] [DecidablePred q]
    (h : ∀ k v, m.get? k = some v → (p k ↔ q k)) : m.first p = m.first q := by
  refine Option.ext fun ⟨k, v⟩ => ?_
  rw [first_eq_some_iff, first_eq_some_iff]
  refine and_congr_right fun hget => and_congr (h k v hget) (forall₂_congr fun k' _ => ?_)
  cases hget' : m.get? k' with
  | none => simp
  | some v' => simp [h k' v' hget']

/-! ## Operations -/

/-- Puts an entry in its place in a sorted list, over an entry with the same key. -/
def insertEntry (k : K) (v : V) : List (K × V) → List (K × V)
  | [] => [(k, v)]
  | e :: es =>
    if k < e.1 then (k, v) :: e :: es
    else if k = e.1 then (k, v) :: es
    else e :: insertEntry k v es

variable {e : K × V}

/-- The entries are a sorted list in which entries compare as their keys. -/
theorem ascending_iff {es : List (K × V)} :
    Ascending (compareOn Prod.fst) es ↔ es.Pairwise fun a b => a.1 < b.1 := by
  simp only [Ascending, compareOn, compare_lt_iff_lt]

theorem insertEntry_eq (k : K) (v : V) (es : List (K × V)) :
    insertEntry k v es = insertSorted (compareOn Prod.fst) (k, v) es := by
  induction es with
  | nil => rfl
  | cons e es ih =>
    rw [insertEntry, insertSorted, ih, compareOn]
    rcases lt_trichotomy k e.1 with hlt | heq | hgt
    · rw [if_pos hlt, compare_lt_iff_lt.mpr hlt]
    · rw [if_neg heq.not_lt, if_pos heq, compare_eq_iff_eq.mpr heq]
    · rw [if_neg hgt.not_gt, if_neg hgt.ne', compare_gt_iff_gt.mpr hgt]

theorem mem_insertEntry {es : List (K × V)} (hsorted : es.Pairwise fun a b => a.1 < b.1) :
    e ∈ insertEntry k v es ↔ e = (k, v) ∨ e ∈ es ∧ e.1 ≠ k := by
  rw [insertEntry_eq, mem_insertSorted (ascending_iff.mpr hsorted), compareOn, ne_eq,
    compare_eq_iff_eq, eq_comm (a := (k, v).1)]

theorem sorted_insertEntry {es : List (K × V)} (hsorted : es.Pairwise fun a b => a.1 < b.1) :
    (insertEntry k v es).Pairwise fun a b => a.1 < b.1 := by
  rw [insertEntry_eq]
  exact ascending_iff.mp ((ascending_iff.mpr hsorted).insertSorted (k, v))

/-- Where an entry goes in a list that is split at some entry: before it, ... -/
theorem insertEntry_append_of_lt (hlt : k < e.1) (v : V) (as bs : List (K × V)) :
    insertEntry k v (as ++ e :: bs) = insertEntry k v as ++ e :: bs := by
  induction as with
  | nil => simp [insertEntry, hlt]
  | cons a as ih =>
    rw [cons_append, insertEntry, insertEntry, ih]
    split_ifs <;> rfl

variable {as : List (K × V)}

/-- The entries below the key are passed over. -/
theorem insertEntry_append_of_forall_lt (has : ∀ a ∈ as, a.1 < k) (v : V)
    (bs : List (K × V)) : insertEntry k v (as ++ bs) = as ++ insertEntry k v bs := by
  induction as with
  | nil => rfl
  | cons a as ih =>
    have hlt : a.1 < k := has a (by simp)
    rw [cons_append, insertEntry, if_neg hlt.not_gt, if_neg hlt.ne',
      ih fun a hmem => has a (mem_cons_of_mem _ hmem), cons_append]

/-- ... behind it, ... -/
theorem insertEntry_append_of_gt (has : ∀ a ∈ as, a.1 < e.1)
    (hlt : e.1 < k) (v : V) (bs : List (K × V)) :
    insertEntry k v (as ++ e :: bs) = as ++ e :: insertEntry k v bs := by
  rw [insertEntry_append_of_forall_lt fun a hmem => (has a hmem).trans hlt, insertEntry,
    if_neg hlt.not_gt, if_neg hlt.ne']

/-- ... or in its place. -/
theorem insertEntry_append_of_eq (has : ∀ a ∈ as, a.1 < e.1) (v : V) (bs : List (K × V)) :
    insertEntry e.1 v (as ++ e :: bs) = as ++ (e.1, v) :: bs := by
  rw [insertEntry_append_of_forall_lt has, insertEntry, if_neg (lt_irrefl _), if_pos rfl]

variable {as bs : List (K × V)}

/-- A new entry between smaller and greater ones. -/
theorem insertEntry_append_of_between (has : ∀ a ∈ as, a.1 < k)
    (hbs : ∀ b ∈ bs, k < b.1) (v : V) : insertEntry k v (as ++ bs) = as ++ (k, v) :: bs := by
  rw [insertEntry_append_of_forall_lt has]
  cases bs with
  | nil => rfl
  | cons b bs => rw [insertEntry, if_pos (hbs b (by simp))]

/-- A new entry after all others. -/
theorem insertEntry_of_forall_lt (has : ∀ a ∈ as, a.1 < k) (v : V) :
    insertEntry k v as = as ++ [(k, v)] := by
  have happend := insertEntry_append_of_between has (forall_mem_nil _) v
  rwa [append_nil] at happend

section

variable (m : OrdMap K V)

/-- The map with a key set to a value. -/
def insert (k : K) (v : V) : OrdMap K V :=
  ⟨insertEntry k v m.entries, sorted_insertEntry m.sorted⟩

/-- The map without the keys that fail a test. -/
def filterKeys (p : K → Prop) [DecidablePred p] : OrdMap K V :=
  ⟨m.entries.filter fun e => p e.1, m.sorted.filter _⟩

/-- The map without a key. -/
def erase (k : K) : OrdMap K V := m.filterKeys (· ≠ k)

theorem entries_insert (k : K) (v : V) : (m.insert k v).entries = insertEntry k v m.entries := rfl

theorem entries_erase (k : K) : (m.erase k).entries = m.entries.filter fun e => e.1 ≠ k := rfl

/-- The entries without a key, in a list that is split at some entry: what has to be removed is
before it, ... -/
theorem filter_ne_append_of_lt (hbs : ∀ b ∈ bs, e.1 < b.1) (hlt : k < e.1) :
    (as ++ e :: bs).filter (fun e => e.1 ≠ k) = as.filter (fun e => e.1 ≠ k) ++ e :: bs := by
  have hkeep : bs.filter (fun e => e.1 ≠ k) = bs :=
    filter_eq_self.mpr fun b hmem => by simpa using (hlt.trans (hbs b hmem)).ne'
  rw [filter_append, filter_cons_of_pos (by simp [hlt.ne']), hkeep]

/-- ... behind it, ... -/
theorem filter_ne_append_of_gt (has : ∀ a ∈ as, a.1 < e.1) (hlt : e.1 < k) :
    (as ++ e :: bs).filter (fun e => e.1 ≠ k) = as ++ e :: bs.filter (fun e => e.1 ≠ k) := by
  have hkeep : as.filter (fun e => e.1 ≠ k) = as :=
    filter_eq_self.mpr fun a hmem => by simpa using ((has a hmem).trans hlt).ne
  rw [filter_append, filter_cons_of_pos (by simp [hlt.ne]), hkeep]

/-- ... or that entry. -/
theorem filter_ne_append_of_eq (has : ∀ a ∈ as, a.1 < e.1)
    (hbs : ∀ b ∈ bs, e.1 < b.1) : (as ++ e :: bs).filter (fun e' => e'.1 ≠ e.1) = as ++ bs := by
  rw [filter_append, filter_cons_of_neg (by simp), filter_eq_self.mpr, filter_eq_self.mpr]
  · exact fun b hmem => by simpa using (hbs b hmem).ne'
  · exact fun a hmem => by simpa using (has a hmem).ne

@[simp] theorem get?_empty (k : K) : (empty : OrdMap K V).get? k = none := rfl

theorem get?_insert (k : K) (v : V) (k' : K) :
    (m.insert k v).get? k' = if k' = k then some v else m.get? k' := by
  apply Option.ext
  intro v'
  rw [← mem_entries, insert, mem_insertEntry m.sorted]
  split_ifs with hk
  · subst hk
    simp [eq_comm]
  · simp [hk, mem_entries]

theorem get?_filterKeys (p : K → Prop) [DecidablePred p] (k : K) :
    (m.filterKeys p).get? k = if p k then m.get? k else none := by
  apply Option.ext
  intro v
  rw [← mem_entries, filterKeys, mem_filter, mem_entries]
  split_ifs with hp
  · simp [hp]
  · simp [hp]

theorem get?_erase (k k' : K) : (m.erase k).get? k' = if k' = k then none else m.get? k' := by
  rw [erase, get?_filterKeys, ite_not]

variable {m} {k k' : K} {v v' : V}

theorem get?_insert_eq_some : (m.insert k v).get? k' = some v' ↔
    k' = k ∧ v = v' ∨ k' ≠ k ∧ m.get? k' = some v' := by
  rw [get?_insert]
  split_ifs with h <;> simp [h]

theorem get?_erase_eq_some : (m.erase k).get? k' = some v ↔ k' ≠ k ∧ m.get? k' = some v := by
  rw [get?_erase]
  split_ifs with h <;> simp [h]

theorem isSome_get?_insert : ((m.insert k v).get? k').isSome ↔ k' = k ∨ (m.get? k').isSome := by
  rw [get?_insert]
  split_ifs with h <;> simp [h]

theorem isSome_get?_erase : ((m.erase k).get? k').isSome ↔ k' ≠ k ∧ (m.get? k').isSome := by
  rw [get?_erase]
  split_ifs with h <;> simp [h]

/-- What holds of all entries of a map holds of them with another one for which it holds. -/
theorem forall_insert {P : K → V → Prop} (h : ∀ k v, m.get? k = some v → P k v) (hkv : P k v) :
    ∀ k' v', (m.insert k v).get? k' = some v' → P k' v' := by
  intro k' v' hget
  rcases get?_insert_eq_some.mp hget with ⟨rfl, rfl⟩ | ⟨-, hget⟩
  · exact hkv
  · exact h k' v' hget

end

/-- The entries of `m`, put onto the entries of `m'`. -/
def onto (m m' : OrdMap K V) : OrdMap K V := m.entries.foldl (fun acc e => acc.insert e.1 e.2) m'

theorem get?_onto (m m' : OrdMap K V) (k : K) : (m.onto m').get? k = (m.get? k).or (m'.get? k) := by
  -- The list of entries is taken apart, so the map it came from is only kept as a lookup.
  have h : ∀ (es : List (K × V)) (acc : OrdMap K V), (es.Pairwise fun a b => a.1 < b.1) →
      (es.foldl (fun acc e => acc.insert e.1 e.2) acc).get? k =
        ((es.find? fun e => e.1 = k).map Prod.snd).or (acc.get? k) := by
    intro es
    induction es with
    | nil => simp
    | cons e es ih =>
      intro acc hsorted
      obtain ⟨hhead, htail⟩ := pairwise_cons.mp hsorted
      rw [foldl_cons, ih _ htail, get?_insert]
      by_cases hk : e.1 = k
      · have hnone : (es.find? fun e => e.1 = k) = none := by
          rw [find?_eq_none]
          intro e' hmem
          simpa [← hk] using (hhead e' hmem).ne'
        rw [hnone, find?_cons_of_pos (by simpa using hk), if_pos hk.symm]
        rfl
      · rw [find?_cons_of_neg (by simpa using hk), if_neg (Ne.symm hk)]
  exact h m.entries m' m.sorted

/-! ## Cursors

A cursor of a sorted container stands for the entries that are still ahead of it.
It is moved to the entries above a bound, and possibly on over entries that are
to be skipped. -/

section Cursor

variable {p q : K → Prop} [DecidablePred p] [DecidablePred q] {es : List (K × V)}

/-- Leaving out the entries in front of a bound leaves the entries above it. -/
theorem dropWhile_eq_filter (hp : ∀ a b, a ≤ b → p a → p b)
    (hsorted : es.Pairwise fun a b => a.1 < b.1) :
    (es.dropWhile fun e => ¬ p e.1) = es.filter fun e => p e.1 := by
  induction es with
  | nil => rfl
  | cons e es ih =>
    obtain ⟨hhead, htail⟩ := pairwise_cons.mp hsorted
    by_cases h : p e.1
    · have hall : ∀ e' ∈ es, p e'.1 := fun e' hmem => hp _ _ (hhead e' hmem).le h
      rw [dropWhile_cons_of_neg (by simpa using h),
        filter_cons_of_pos (by simpa using h), filter_eq_self.mpr (by simpa using hall)]
    · rw [dropWhile_cons_of_pos (by simpa using h),
        filter_cons_of_neg (by simpa using h), ih htail]

/-- A scan from a bound on that stops at the first entry out of range visits all entries that are
asked for, if none of them is behind an entry out of range. -/
theorem scan_filter_eq (start within want : K → Prop) [DecidablePred start] [DecidablePred within]
    [DecidablePred want]
    (hwant : ∀ a, want a → start a) (hwithin : ∀ a b, start a → a ≤ b → want b → within a)
    (hsorted : es.Pairwise fun a b => a.1 < b.1) :
    ((es.filter fun e => start e.1).takeWhile fun e => within e.1).filter (fun e => want e.1) =
      es.filter fun e => want e.1 := by
  induction es with
  | nil => rfl
  | cons e es ih =>
    obtain ⟨hhead, htail⟩ := pairwise_cons.mp hsorted
    by_cases hs : start e.1
    · rw [filter_cons_of_pos (by simpa using hs)]
      by_cases hw : within e.1
      · rw [takeWhile_cons_of_pos (by simpa using hw), filter_cons, filter_cons,
          ih htail]
      · -- Nothing from here on is asked for.
        have hnone : ∀ e' ∈ e :: es, ¬ want e'.1 := by
          intro e' hmem hwant'
          rcases mem_cons.mp hmem with rfl | hmem
          · exact hw (hwithin _ _ hs le_rfl hwant')
          · exact hw (hwithin _ _ hs (hhead e' hmem).le hwant')
        rw [takeWhile_cons_of_neg (by simpa using hw), filter_nil,
          filter_eq_nil_iff.mpr (by simpa using hnone)]
    · have hnot : ¬ want e.1 := fun h => hs (hwant _ h)
      rw [filter_cons_of_neg (by simpa using hs), ih htail,
        filter_cons_of_neg (by simpa using hnot)]

/-- Where the entries in range are next to each other, the scan visits exactly these. -/
theorem takeWhile_filter_eq {start within : K → Prop} [DecidablePred start] [DecidablePred within]
    (hwithin : ∀ a b, start a → a ≤ b → within b → within a)
    (hsorted : es.Pairwise fun a b => a.1 < b.1) :
    ((es.filter fun e => start e.1).takeWhile fun e => within e.1) =
      es.filter fun e => start e.1 ∧ within e.1 := by
  have hscan := scan_filter_eq start within (fun a => start a ∧ within a) (fun a h => h.1)
    (fun a b hs hab h => hwithin a b hs hab h.2) hsorted
  rw [← hscan, eq_comm, filter_eq_self]
  intro e hmem
  have hstart := (mem_filter.mp ((takeWhile_sublist _).mem hmem)).2
  have hwithin := mem_takeWhile_imp hmem
  simp_all

/-- The entries from a bound on, up to a second one and from there on. -/
theorem filter_le_split {a b : K} (hab : a ≤ b) (hsorted : es.Pairwise fun a b => a.1 < b.1) :
    (es.filter fun e => a ≤ e.1) =
      (es.filter fun e => a ≤ e.1 ∧ e.1 < b) ++ es.filter fun e => b ≤ e.1 := by
  have htake : ((es.filter fun e => a ≤ e.1).takeWhile fun e => ¬ b ≤ e.1) =
      es.filter fun e => a ≤ e.1 ∧ ¬ b ≤ e.1 :=
    takeWhile_filter_eq (show ∀ x y, a ≤ x → x ≤ y → ¬ b ≤ y → ¬ b ≤ x from
      fun _ _ _ hle hlt hb => hlt (hb.trans hle)) hsorted
  have hdrop : ((es.filter fun e => a ≤ e.1).dropWhile fun e => ¬ b ≤ e.1) =
      es.filter fun e => b ≤ e.1 := by
    rw [dropWhile_eq_filter (fun _ _ hle hb => hb.trans hle) (hsorted.filter _),
      filter_filter]
    exact filter_congr fun e _ => by simpa using hab.trans
  simp only [← not_le]
  rw [← htake, ← hdrop, takeWhile_append_dropWhile]

/-- The entries around a key that is not there. -/
theorem exists_split_of_get?_eq_none {m : OrdMap K V} {k : K} (h : m.get? k = none) :
    ∃ as bs, m.entries = as ++ bs ∧ (∀ a ∈ as, a.1 < k) ∧ ∀ b ∈ bs, k < b.1 := by
  refine ⟨m.entries.takeWhile fun e => ¬ k ≤ e.1, m.entries.dropWhile fun e => ¬ k ≤ e.1,
    takeWhile_append_dropWhile.symm, fun a ha => ?_, fun b hb => ?_⟩
  · simpa using mem_takeWhile_imp ha
  · rw [dropWhile_eq_filter (fun _ _ hab hle => hle.trans hab) m.sorted, mem_filter] at hb
    exact lt_of_le_of_ne (by simpa using hb.2) (get?_eq_none_iff.mp h b hb.1).symm

/-- Skipping from a lower bound or from a higher one ends at the same entry, if everything in
between is to be skipped. -/
theorem dropWhile_filter_congr (hq : ∀ a b, a ≤ b → q a → q b) (hqp : ∀ a, q a → p a)
    {skip : K × V → Bool} (hsorted : es.Pairwise fun a b => a.1 < b.1)
    (hskip : ∀ e ∈ es, p e.1 → ¬ q e.1 → skip e) :
    (es.filter fun e => p e.1).dropWhile skip = (es.filter fun e => q e.1).dropWhile skip := by
  induction es with
  | nil => rfl
  | cons e es ih =>
    obtain ⟨hhead, htail⟩ := pairwise_cons.mp hsorted
    have ih := ih htail fun e' hmem => hskip e' (mem_cons_of_mem _ hmem)
    by_cases hpe : p e.1
    · by_cases hqe : q e.1
      · have hall : ∀ e' ∈ e :: es, q e'.1 := by
          intro e' hmem
          rcases mem_cons.mp hmem with rfl | hmem
          · exact hqe
          · exact hq _ _ (hhead e' hmem).le hqe
        rw [filter_eq_self.mpr fun e' hmem => decide_eq_true (hqp _ (hall e' hmem)),
          filter_eq_self.mpr fun e' hmem => decide_eq_true (hall e' hmem)]
      · rw [filter_cons_of_pos (by simpa using hpe), filter_cons_of_neg (by simpa using hqe),
          dropWhile_cons_of_pos (hskip e (by simp) hpe hqe), ih]
    · have hqe : ¬ q e.1 := fun h => hpe (hqp _ h)
      rw [filter_cons_of_neg (by simpa using hpe), filter_cons_of_neg (by simpa using hqe), ih]

/-- Where a cursor stands after skipping: at the least entry above the bound that is not to be
skipped, with the entries above that one ahead of it. -/
theorem dropWhile_filter_eq_cons (hp : ∀ a b, a ≤ b → p a → p b)
    {skip : K × V → Bool} {es rest : List (K × V)} {e : K × V}
    (hsorted : es.Pairwise fun a b => a.1 < b.1)
    (h : (es.filter fun e => p e.1).dropWhile skip = e :: rest) :
    e ∈ es ∧ p e.1 ∧ ¬ skip e ∧ (rest = es.filter fun e' => e.1 < e'.1) ∧
      ∀ e' ∈ es, p e'.1 → e'.1 < e.1 → skip e' := by
  induction es with
  | nil => simp at h
  | cons x es ih =>
    obtain ⟨hhead, htail⟩ := pairwise_cons.mp hsorted
    by_cases hx : p x.1 → skip x
    · have hpass : ((x :: es).filter fun e => p e.1).dropWhile skip =
          (es.filter fun e => p e.1).dropWhile skip := by
        by_cases hpx : p x.1
        · rw [filter_cons_of_pos (by simpa using hpx), dropWhile_cons_of_pos (hx hpx)]
        · rw [filter_cons_of_neg (by simpa using hpx)]
      obtain ⟨hmem, hpe, hskip, rfl, hbelow⟩ := ih htail (hpass ▸ h)
      have hlt := hhead e hmem
      refine ⟨mem_cons_of_mem _ hmem, hpe, hskip, ?_, ?_⟩
      · rw [filter_cons_of_neg (by simpa using hlt.le)]
      · rintro e' hmem' hpe' hlt'
        rcases mem_cons.mp hmem' with rfl | hmem'
        · exact hx hpe'
        · exact hbelow e' hmem' hpe' hlt'
    · obtain ⟨hpx, hx⟩ := Classical.not_imp.mp hx
      rw [filter_cons_of_pos (by simpa using hpx), dropWhile_cons_of_neg hx] at h
      obtain ⟨rfl, rfl⟩ := h
      have hall : ∀ e' ∈ es, p e'.1 := fun e' hmem => hp _ _ (hhead e' hmem).le hpx
      refine ⟨mem_cons_self, hpx, hx, ?_, ?_⟩
      · rw [filter_eq_self.mpr fun e' hmem => decide_eq_true (hall e' hmem),
          filter_cons_of_neg (by simp),
          filter_eq_self.mpr fun e' hmem => decide_eq_true (hhead e' hmem)]
      · rintro e' hmem' - hlt'
        rcases mem_cons.mp hmem' with rfl | hmem'
        · exact absurd hlt' (lt_irrefl _)
        · exact absurd hlt' (lt_asymm (hhead e' hmem'))

end Cursor

/-! ## Numbers of entries -/

theorem length_entries_insert_of_some (h : m.get? k = some v)
    (v' : V) : (m.insert k v').entries.length = m.entries.length := by
  obtain ⟨as, bs, hentries, has, -⟩ := exists_split_of_get? h
  rw [entries_insert, hentries, insertEntry_append_of_eq (e := (k, v)) has]
  simp

theorem length_entries_insert_of_none (h : m.get? k = none) (v : V) :
    (m.insert k v).entries.length = m.entries.length + 1 := by
  obtain ⟨as, bs, hentries, has, hbs⟩ := exists_split_of_get?_eq_none h
  rw [entries_insert, hentries, insertEntry_append_of_between has hbs]
  simp only [length_append]
  rfl

theorem length_entries_erase_of_some (h : m.get? k = some v) :
    (m.erase k).entries.length + 1 = m.entries.length := by
  obtain ⟨as, bs, hentries, has, hbs⟩ := exists_split_of_get? h
  rw [entries_erase, hentries, filter_ne_append_of_eq (e := (k, v)) has hbs]
  simp only [length_append]
  rfl

/-! ## Loops over keys -/

section Loop

variable {α : Type*} (f : α → K) (as : List α) (m : OrdMap K V) (k : K)

theorem get?_foldl_erase : (as.foldl (fun m a => m.erase (f a)) m).get? k =
    if k ∈ as.map f then none else m.get? k := by
  induction as generalizing m with
  | nil => simp
  | cons a as ih =>
    rw [foldl_cons, ih, get?_erase]
    by_cases ha : k = f a
    · simp [ha]
    · simp [ha]

theorem get?_foldl_insert (v : V) : (as.foldl (fun m a => m.insert (f a) v) m).get? k =
    if k ∈ as.map f then some v else m.get? k := by
  induction as generalizing m with
  | nil => simp
  | cons a as ih =>
    rw [foldl_cons, ih, get?_insert]
    by_cases ha : k = f a
    · simp [ha]
    · simp [ha]

/-- The rows of a map that have a property are erased. -/
theorem get?_foldl_erase_of_iff {rows : List (K × V)} {p : Prop} [Decidable p]
    (h : ∀ v, (k, v) ∈ rows ↔ m.get? k = some v ∧ p) :
    (rows.foldl (fun m row => m.erase row.1) m).get? k = if p then none else m.get? k := by
  rw [get?_foldl_erase]
  have hmem : k ∈ rows.map Prod.fst ↔ (m.get? k).isSome ∧ p := by
    simp [h, Option.isSome_iff_exists]
  by_cases hp : p
  · cases hget : m.get? k with
    | none => simp
    | some v => simp [hmem, hget, hp]
  · simp [hmem, hp]

end Loop

/-! ## Scans -/

section Scan

/-- A cursor that is moved to a bound and from there on as long as the entries are in range. -/
def scan (m : OrdMap K V) (start within : K → Prop) [DecidablePred start] [DecidablePred within] :
    List (K × V) :=
  (m.entries.filter fun e => start e.1).takeWhile fun e => within e.1

variable {start within : K → Prop} [DecidablePred start] [DecidablePred within]

theorem scan_eq_filter (m : OrdMap K V)
    (hwithin : ∀ a b, start a → a ≤ b → within b → within a) (hstart : ∀ a, within a → start a) :
    m.scan start within = m.entries.filter fun e => within e.1 := by
  rw [scan, takeWhile_filter_eq hwithin m.sorted]
  refine filter_congr fun e _ => decide_eq_decide.mpr ?_
  exact and_iff_right_of_imp (hstart e.1)

/-- What a scan sees where the range starts before the bound. -/
theorem mem_scan_iff {m : OrdMap K V} (hwithin : ∀ a b, start a → a ≤ b → within b → within a)
    {k : K} {v : V} : (k, v) ∈ m.scan start within ↔ m.get? k = some v ∧ start k ∧ within k := by
  rw [scan, takeWhile_filter_eq hwithin m.sorted, mem_filter, mem_entries, decide_eq_true_eq]

end Scan

/-! ## Composite keys -/

section Lex

variable {A : Type u} {B : Type u} [LinearOrder A] [LinearOrder B] (m : OrdMap (A ×ₗ B) V)

/-- The entries whose key has a given first component, under the second. -/
def under (a : A) : OrdMap B V where
  entries := (m.entries.filter fun e => (ofLex e.1).1 = a).map fun e => ((ofLex e.1).2, e.2)
  sorted := by
    rw [pairwise_map]
    refine (m.sorted.filter _).imp_of_mem fun {x y} hx hy hlt => ?_
    simp only [mem_filter, decide_eq_true_eq] at hx hy
    exact ((Prod.Lex.lt_iff.mp hlt).resolve_left (hx.2.trans hy.2.symm).not_lt).2

theorem entries_under (a : A) [DecidablePred fun a' : A => a' = a] : (m.under a).entries =
      (m.entries.filter fun e => (ofLex e.1).1 = a).map fun e => ((ofLex e.1).2, e.2) :=
  congrArg (List.map _) (filter_congr fun _ _ => decide_eq_decide.mpr Iff.rfl)

/-- A scan from a first component on that stops at the next one. -/
def scanUnder (a : A) : List ((A ×ₗ B) × V) :=
  m.scan (fun k => a ≤ (ofLex k).1) fun k => (ofLex k).1 = a

theorem scanUnder_eq (a : A) : m.scanUnder a = m.entries.filter fun e => (ofLex e.1).1 = a := by
  refine m.scan_eq_filter (fun k k' hstart hle hk' => ?_) fun k hk => hk.ge
  exact le_antisymm ((Prod.Lex.monotone_fst _ _ hle).trans hk'.le) hstart

theorem mem_scanUnder {m : OrdMap (A ×ₗ B) V} {a : A} {k : A ×ₗ B} {v : V} :
    (k, v) ∈ m.scanUnder a ↔ m.get? k = some v ∧ (ofLex k).1 = a := by
  rw [scanUnder_eq, mem_filter, mem_entries, decide_eq_true_eq]

theorem entries_under_eq (a : A) :
    (m.under a).entries = (m.scanUnder a).map fun e => ((ofLex e.1).2, e.2) := by
  rw [scanUnder_eq]
  rfl

theorem get?_under (a : A) (b : B) : (m.under a).get? b = m.get? (toLex (a, b)) := by
  refine Option.ext fun v => ?_
  rw [← mem_entries, ← mem_entries, under, mem_map]
  constructor
  · rintro ⟨⟨k, v⟩, hfilter, hentry⟩
    obtain ⟨hmem, hfirst⟩ := mem_filter.mp hfilter
    obtain rfl := of_decide_eq_true hfirst
    cases hentry
    exact hmem
  · intro hmem
    exact ⟨(toLex (a, b), v), by simpa using hmem, rfl⟩

end Lex

end OrdMap

end Firebase.Lib
