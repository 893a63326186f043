import Firebase.Lib.Simulation
import Firebase.Firestore.Local.LevelDbTransaction

/-!
# The overlay of a transaction

What `LevelDbTransaction` is for: its caller sees one ordered map, the database with
the pending changes applied, and each of its iterators shows a row of that map.

The abstract side is `View`.  The concrete side is a `Session`: the transaction with the iterators
made on it.  `Session.Refines` relates them, and every call keeps the relation
(`Session.Refines.step`).
-/

namespace Firebase.Firestore.Local

open Lib Util OrdMap List

variable {txn : LevelDbTransaction} {rest : List Row} {s : Session} {v : View}

namespace LevelDbTransaction

/-! ## The overlay -/

section

variable (txn : LevelDbTransaction)

def overlay : LevelDb :=
  txn.mutations.onto (txn.db.filterKeys (· ∉ txn.deletions))

theorem get?_overlay (k : Bytes) : txn.overlay.get? k =
      (txn.mutations.get? k).or (if k ∈ txn.deletions then none else txn.db.get? k) := by
  rw [overlay, get?_onto, get?_filterKeys, ite_not]

@[simp] theorem overlay_new (db : LevelDb) : (new db).overlay = db := by
  refine ext_get? fun k => ?_
  rw [get?_overlay]
  simp [new]

theorem overlay_put (key value : Bytes) :
    (txn.put key value).overlay = txn.overlay.insert key value := by
  refine ext_get? fun k => ?_
  rw [get?_insert, get?_overlay, get?_overlay]
  simp only [put, get?_insert]
  by_cases hk : k = key
  · simp [hk]
  · simp [hk]

theorem overlay_delete (key : Bytes) : (txn.delete key).overlay = txn.overlay.erase key := by
  refine ext_get? fun k => ?_
  rw [get?_erase, get?_overlay, get?_overlay]
  simp only [delete, get?_erase]
  by_cases hk : k = key
  · simp [hk]
  · simp [hk]

/-- `Get` returns the value of the overlay. -/
theorem get_toOption (key : Bytes) : (txn.get key).toOption = txn.overlay.get? key := by
  rw [get?_overlay, get]
  by_cases hdel : key ∈ txn.deletions
  · rw [if_pos hdel, if_pos hdel, txn.disjoint key hdel]
    rfl
  · rw [if_neg hdel, if_neg hdel]
    cases txn.mutations.get? key with
    | some value => rfl
    | none =>
      cases txn.db.get? key with
      | some value => rfl
      | none => rfl

theorem get?_write_delete (keys : List Bytes) (db : LevelDb) (k : Bytes) :
    (db.write (keys.map WriteOp.delete)).get? k = if k ∈ keys then none else db.get? k := by
  induction keys generalizing db with
  | nil => simp [LevelDb.write]
  | cons key keys ih =>
    have h := ih (db.erase key)
    simp only [LevelDb.write, map_cons, foldl_cons] at h ⊢
    rw [h, get?_erase]
    by_cases hk : k = key
    · simp [hk]
    · simp [hk]

theorem write_put (m db : LevelDb) :
    db.write (m.entries.map fun e => WriteOp.put e.1 e.2) = m.onto db := by
  rw [LevelDb.write, foldl_map]
  rfl

/-- Committing makes the database equal to the overlay. -/
theorem commit_eq : txn.commit = txn.overlay := by
  refine ext_get? fun k => ?_
  have hsplit : txn.commit = (txn.db.write ((txn.deletions.sort (· ≤ ·)).map WriteOp.delete)).write
      (txn.mutations.entries.map fun e => WriteOp.put e.1 e.2) := by
    rw [commit, LevelDb.write, LevelDb.write, LevelDb.write, foldl_append]
  rw [hsplit, write_put, get?_onto, get?_write_delete, get?_overlay]
  simp

end

/-- A key that the overlay does not have is not pending, and deleted if it is committed. -/
theorem hidden_of_overlay {k : Bytes} (h : txn.overlay.get? k = none) :
    txn.mutations.get? k = none ∧ ∀ v, txn.db.get? k = some v → k ∈ txn.deletions := by
  rw [get?_overlay, Option.or_eq_none_iff] at h
  refine ⟨h.1, fun v hv => ?_⟩
  by_contra hdel
  rw [if_neg hdel, hv] at h
  exact absurd h.2 (by simp)

theorem overlay_eq_none {k : Bytes} (hm : txn.mutations.get? k = none)
    (hdb : ∀ v, txn.db.get? k = some v → k ∈ txn.deletions) : txn.overlay.get? k = none := by
  rw [get?_overlay, hm]
  split_ifs with hdel
  · rfl
  · cases hv : txn.db.get? k with
    | none => rfl
    | some v => exact absurd (hdb v hv) hdel

/-! ## Iterators -/

namespace Iterator

/-- Both cursors stand at the first rows above a bound. -/
structure At (txn : LevelDbTransaction) (p : Bytes → Prop) [DecidablePred p] (it : Iterator) :
    Prop where
  dbIter : it.dbIter = (txn.db.entries.filter fun e => p e.1).dropWhile (isDeleted txn)
  mutationsIter : it.mutationsIter = (txn.mutations.first p).map Prod.fst

variable {txn : LevelDbTransaction} {p : Bytes → Prop} [DecidablePred p] {it : Iterator}

section

variable (h : At txn p it)

include h

theorem At.mutation? : it.mutation? txn = txn.mutations.first p := by
  rw [Iterator.mutation?, h.mutationsIter]
  cases hfirst : txn.mutations.first p with
  | none => rfl
  | some m =>
    obtain ⟨hget, -⟩ := first_eq_some_iff.mp hfirst
    simp [hget]

section

variable (hp : ∀ a b, a ≤ b → p a → p b)

include hp

/-- A committed row above the bound and in front of the cursor is deleted. -/
theorem At.deleted {k v : Bytes} (hk : p k) (hlt : ∀ row rest, it.dbIter = row :: rest → k < row.1)
    (hget : txn.db.get? k = some v) : k ∈ txn.deletions := by
  have hmem := mem_entries.mpr hget
  cases hdb : it.dbIter with
  | nil =>
    rw [h.dbIter, dropWhile_eq_nil_iff] at hdb
    simpa [isDeleted] using hdb (k, v) (mem_filter.mpr ⟨hmem, by simpa using hk⟩)
  | cons row rest =>
    have hcons := h.dbIter.symm.trans hdb
    obtain ⟨-, -, -, -, hbelow⟩ := dropWhile_filter_eq_cons hp txn.db.sorted hcons
    simpa [isDeleted] using hbelow (k, v) hmem hk (hlt row rest hdb)

/-- The row that the database cursor points to. -/
theorem At.row {row : Row} (hdb : it.dbIter = row :: rest) :
    txn.db.get? row.1 = some row.2 ∧ p row.1 ∧ row.1 ∉ txn.deletions := by
  obtain ⟨hmem, hrow, hskip, -, -⟩ :=
    dropWhile_filter_eq_cons hp txn.db.sorted (h.dbIter.symm.trans hdb)
  exact ⟨mem_entries.mp hmem, hrow, by simpa [isDeleted] using hskip⟩

/-- Between them the two cursors point to the first row of the overlay above the bound. -/
theorem At.first_overlay : txn.overlay.first p =
      match txn.mutations.first p, it.dbIter with
      | none, [] => none
      | none, row :: _ => some row
      | some m, [] => some m
      | some m, row :: _ => if m.1 ≤ row.1 then some m else some row := by
  -- A row of the overlay is one that is pending or one that is committed and not deleted.
  have hrow : ∀ row rest, it.dbIter = row :: rest → txn.mutations.get? row.1 = none →
      (∀ k < row.1, p k → txn.mutations.get? k = none) → txn.overlay.first p = some row := by
    intro row rest hdb hm hbelow
    obtain ⟨hget, hprow, hdel⟩ := h.row hp hdb
    refine first_eq_some_iff.mpr ⟨?_, hprow, fun k hlt hk => ?_⟩
    · rw [get?_overlay, hm, if_neg hdel, hget]
      rfl
    · refine overlay_eq_none (hbelow k hlt hk) fun v hv => h.deleted hp hk ?_ hv
      intro row' rest' hdb'
      obtain ⟨rfl, -⟩ := List.cons.inj (hdb.symm.trans hdb')
      exact hlt
  have hmutation : ∀ m, txn.mutations.first p = some m →
      (∀ row rest, it.dbIter = row :: rest → m.1 ≤ row.1) → txn.overlay.first p = some m := by
    rintro ⟨km, vm⟩ hfirst hle
    obtain ⟨hget, hpm, hbelow⟩ := first_eq_some_iff.mp hfirst
    refine first_eq_some_iff.mpr ⟨?_, hpm, fun k hlt hk => ?_⟩
    · rw [get?_overlay, hget]
      rfl
    · exact overlay_eq_none (hbelow k hlt hk) fun v hv =>
        h.deleted hp hk (fun row rest hdb => hlt.trans_le (hle row rest hdb)) hv
  cases hfirst : txn.mutations.first p with
  | none =>
    have hnone := first_eq_none_iff.mp hfirst
    cases hdb : it.dbIter with
    | nil =>
      refine first_eq_none_iff.mpr fun k hk => overlay_eq_none (hnone k hk) fun v hv => ?_
      exact h.deleted hp hk (by simp [hdb]) hv
    | cons row rest =>
      exact hrow row rest hdb (hnone _ (h.row hp hdb).2.1) fun k _ hk => hnone k hk
  | some m =>
    obtain ⟨-, -, hbelow⟩ := first_eq_some_iff.mp hfirst
    cases hdb : it.dbIter with
    | nil => exact hmutation m hfirst (by simp [hdb])
    | cons row rest =>
      dsimp only
      split_ifs with hle
      · refine hmutation m hfirst fun row' rest' hdb' => ?_
        obtain ⟨rfl, -⟩ := List.cons.inj (hdb.symm.trans hdb')
        exact hle
      · have hlt := not_le.mp hle
        exact hrow row rest hdb (hbelow _ hlt (h.row hp hdb).2.1) fun k hk =>
          hbelow k (hk.trans hlt)

/-- The cursors of an iterator that points to the first row above a bound stand at that row. -/
theorem At.of_first {row : Row}
    (hfirst : txn.overlay.first p = some row) : At txn (row.1 ≤ ·) it := by
  obtain ⟨-, hrow, hbelow⟩ := first_eq_some_iff.mp hfirst
  constructor
  · rw [h.dbIter]
    refine dropWhile_filter_congr (fun a b hab ha => ha.trans hab)
      (fun a ha => hp _ _ ha hrow) txn.db.sorted fun e hmem hpe hlt => ?_
    have hhidden := (hidden_of_overlay (hbelow e.1 (not_le.mp hlt) hpe)).2
    simpa [isDeleted] using hhidden e.2 (mem_entries.mp hmem)
  · rw [h.mutationsIter]
    congr 1
    refine first_congr fun k v hget => ⟨fun hk => ?_, fun hk => hp _ _ hk hrow⟩
    by_contra hlt
    have hhidden := (hidden_of_overlay (hbelow k (not_le.mp hlt) hk)).1
    rw [hhidden] at hget
    exact absurd hget (by simp)

end

end

/-- The iterator stands at its current row, and knows which cursor the row came from. -/
structure Synced (txn : LevelDbTransaction) (it : Iterator) : Prop where
  at_current : At txn (it.current.1 ≤ ·) it
  mutation : it.isMutation = true → txn.mutations.get? it.current.1 = some it.current.2
  row : it.isMutation = false →
    txn.mutations.get? it.current.1 = none ∧ ∃ rest, it.dbIter = it.current :: rest

/-- The iterator is at the end, or stands at a row. -/
def PointsTo (txn : LevelDbTransaction) (it : Iterator) : Option Row → Prop
  | none => it.isValid = false
  | some row => it.isValid = true ∧ it.current = row ∧ Synced txn it

theorem pointsTo_mutation {m : Row} (h : At txn (m.1 ≤ ·) it)
    (hget : txn.mutations.get? m.1 = some m.2) :
    PointsTo txn { it with isValid := true, isMutation := true, current := m } (some m) :=
  ⟨rfl, rfl, ⟨h.dbIter, h.mutationsIter⟩, fun _ => hget, by simp⟩

theorem pointsTo_row {row : Row} (h : At txn (row.1 ≤ ·) it)
    (hdb : it.dbIter = row :: rest) (hnone : txn.mutations.get? row.1 = none) :
    PointsTo txn { it with isValid := true, isMutation := false, current := row } (some row) :=
  ⟨rfl, rfl, ⟨h.dbIter, h.mutationsIter⟩, by simp, fun _ => ⟨hnone, rest, hdb⟩⟩

/-- `UpdateCurrent` makes an iterator whose cursors stand above a bound point to the first
row above the bound. -/
theorem At.updateCurrent (h : At txn p it) (hp : ∀ a b, a ≤ b → p a → p b) :
    PointsTo txn (it.updateCurrent txn) (txn.overlay.first p) := by
  have hfirst := h.first_overlay hp
  have hof : ∀ row, txn.overlay.first p = some row → At txn (row.1 ≤ ·) it :=
    fun row => h.of_first hp
  cases hm : txn.mutations.first p with
  | none =>
    have hnone := first_eq_none_iff.mp hm
    cases hdb : it.dbIter with
    | nil =>
      have hupdate : it.updateCurrent txn = { it with isValid := false } := by
        simp [Iterator.updateCurrent, h.mutation?, hm, hdb]
      simp only [hm, hdb] at hfirst
      rw [hfirst, hupdate]
      rfl
    | cons row rest =>
      have hupdate : it.updateCurrent txn =
          { it with isValid := true, isMutation := false, current := row } := by
        simp [Iterator.updateCurrent, h.mutation?, hm, hdb]
      simp only [hm, hdb] at hfirst
      rw [hfirst, hupdate]
      exact pointsTo_row (hof row hfirst) hdb (hnone _ (h.row hp hdb).2.1)
  | some m =>
    obtain ⟨hget, hpm, hbelow⟩ := first_eq_some_iff.mp hm
    cases hdb : it.dbIter with
    | nil =>
      have hupdate : it.updateCurrent txn =
          { it with isValid := true, isMutation := true, current := m } := by
        simp [Iterator.updateCurrent, h.mutation?, hm, hdb]
      simp only [hm, hdb] at hfirst
      rw [hfirst, hupdate]
      exact pointsTo_mutation (hof m hfirst) hget
    | cons row rest =>
      simp only [hm, hdb] at hfirst
      by_cases hle : m.1 ≤ row.1
      · have hupdate : it.updateCurrent txn =
            { it with isValid := true, isMutation := true, current := m } := by
          simp [Iterator.updateCurrent, h.mutation?, hm, hdb, hle]
        rw [if_pos hle] at hfirst
        rw [hfirst, hupdate]
        exact pointsTo_mutation (hof m hfirst) hget
      · have hupdate : it.updateCurrent txn =
            { it with isValid := true, isMutation := false, current := row } := by
          simp [Iterator.updateCurrent, h.mutation?, hm, hdb, hle]
        rw [if_neg hle] at hfirst
        rw [hfirst, hupdate]
        exact pointsTo_row (hof row hfirst) hdb
          (hbelow _ (not_le.mp hle) (h.row hp hdb).2.1)

/-- The database cursor after `AdvanceLDB` stands above the row that it pointed to. -/
theorem tail_dropWhile (h : At txn p it) (hp : ∀ a b, a ≤ b → p a → p b) {row : Row}
    (hdb : it.dbIter = row :: rest) : it.dbIter.tail.dropWhile (isDeleted txn) =
      (txn.db.entries.filter fun e => row.1 < e.1).dropWhile (isDeleted txn) := by
  obtain ⟨-, -, -, hrest, -⟩ :=
    dropWhile_filter_eq_cons hp txn.db.sorted (h.dbIter.symm.trans hdb)
  rw [hdb, tail_cons, hrest]
  congr!

/-- Moving on from the current row puts both cursors above it. -/
theorem Synced.advance (h : Synced txn it) : At txn (it.current.1 < ·) (it.advance txn) := by
  have hup : ∀ a b, a ≤ b → it.current.1 ≤ a → it.current.1 ≤ b := fun a b hab ha => ha.trans hab
  have hcur := h.at_current
  rw [Iterator.advance]
  cases hmut : it.isMutation with
  | false =>
    obtain ⟨hnone, rest, hdb⟩ := h.row hmut
    simp only [Bool.false_eq_true, if_false]
    refine ⟨tail_dropWhile hcur hup hdb, ?_⟩
    rw [advanceLDB, hcur.mutationsIter]
    congr 1
    refine first_congr fun k v hget => ?_
    have hne : it.current.1 ≠ k := by
      rintro rfl
      exact absurd (hnone.symm.trans hget) (by simp)
    exact ⟨fun hle => lt_of_le_of_ne hle hne, le_of_lt⟩
  | true =>
    have hget := h.mutation hmut
    have hfirst : txn.mutations.first (it.current.1 ≤ ·) = some it.current :=
      first_eq_some_iff.mpr
        ⟨hget, le_rfl, fun k hlt hle => absurd hlt (not_lt_of_ge hle)⟩
    have hiter : it.mutationsIter = some it.current.1 := by rw [hcur.mutationsIter, hfirst]; rfl
    have hnext : (it.advanceMutation txn).mutationsIter =
        (txn.mutations.first (it.current.1 < ·)).map Prod.fst := by
      rw [advanceMutation, hiter]
      rfl
    by_cases hshadow : it.isShadowing
    · obtain ⟨row, rest, hdb, hrow⟩ : ∃ row rest, it.dbIter = row :: rest ∧
          row.1 = it.current.1 := by
        cases hdb : it.dbIter with
        | nil => simp [isShadowing, hdb] at hshadow
        | cons row rest => exact ⟨row, rest, rfl, by simpa [isShadowing, hdb, hiter] using hshadow⟩
      rw [if_pos hshadow, ← hrow]
      refine ⟨tail_dropWhile hcur hup hdb, ?_⟩
      rw [hrow]
      exact hnext
    · rw [if_neg hshadow]
      refine ⟨?_, hnext⟩
      change it.dbIter = _
      rw [hcur.dbIter]
      refine dropWhile_filter_congr (fun a b hab ha => lt_of_lt_of_le ha hab)
        (fun a => le_of_lt) txn.db.sorted fun e hmem hle hnlt => ?_
      have he : e.1 = it.current.1 := le_antisymm (not_lt.mp hnlt) hle
      have hdel : e.1 ∈ txn.deletions := by
        refine hcur.deleted hup hle (fun row rest hdb => ?_) (mem_entries.mp hmem)
        have hne : it.current.1 ≠ row.1 := by
          intro heq
          exact hshadow (by simp [isShadowing, hdb, hiter, heq])
        exact he ▸ lt_of_le_of_ne (hcur.row hup hdb).2.1 hne
      simpa [isDeleted] using hdel

theorem lastVersion_updateCurrent (txn : LevelDbTransaction) (it : Iterator) :
    (it.updateCurrent txn).lastVersion = it.lastVersion := by
  rw [Iterator.updateCurrent]
  split
  · rfl
  · rfl
  · rfl
  · split_ifs <;> rfl

/-- What an iterator shows.  After a change of the transaction its cursors no longer stand at the
row. -/
def Tracks (txn : LevelDbTransaction) (it : Iterator) (shown : Option Row) : Prop :=
  it.lastVersion ≤ txn.version ∧
    match shown with
    | none => it.isValid = false
    | some row => it.isValid = true ∧ it.current = row ∧
        (it.lastVersion = txn.version → Synced txn it)

variable {shown : Option Row}

theorem PointsTo.tracks (h : PointsTo txn it shown)
    (hversion : it.lastVersion ≤ txn.version) : Tracks txn it shown := by
  refine ⟨hversion, ?_⟩
  cases shown with
  | none => exact h
  | some row => exact ⟨h.1, h.2.1, fun _ => h.2.2⟩

/-- A change of the transaction does not change what its iterators show. -/
theorem Tracks.of_version_lt {txn' : LevelDbTransaction}
    (h : Tracks txn it shown) (hversion : txn.version < txn'.version) : Tracks txn' it shown := by
  refine ⟨h.1.trans hversion.le, ?_⟩
  cases shown with
  | none => exact h.2
  | some row => exact ⟨h.2.1, h.2.2.1, fun heq => absurd heq (lt_of_le_of_lt h.1 hversion).ne⟩

/-- `Seek` lands on the least key of the overlay that is not below the given one. -/
theorem pointsTo_seek (txn : LevelDbTransaction) (key : Bytes) (it : Iterator) :
    PointsTo txn (it.seek txn key) (txn.overlay.first (key ≤ ·)) := by
  have hup : ∀ a b : Bytes, a ≤ b → key ≤ a → key ≤ b := fun a b hab ha => ha.trans hab
  have hat : At txn (key ≤ ·) { it with
      dbIter := (txn.db.entries.dropWhile fun e => ¬ key ≤ e.1).dropWhile (isDeleted txn)
      mutationsIter := (txn.mutations.first (key ≤ ·)).map Prod.fst } := by
    refine ⟨?_, rfl⟩
    rw [dropWhile_eq_filter hup txn.db.sorted]
  have hpoints := hat.updateCurrent hup
  cases hfirst : txn.overlay.first (key ≤ ·) with
  | none =>
    rw [hfirst] at hpoints
    exact hpoints
  | some row =>
    rw [hfirst] at hpoints
    obtain ⟨hvalid, hcurrent, hsynced⟩ := hpoints
    exact ⟨hvalid, hcurrent, ⟨hsynced.1.1, hsynced.1.2⟩, hsynced.2, hsynced.3⟩

theorem lastVersion_advance (txn : LevelDbTransaction) (it : Iterator) :
    (it.advance txn).lastVersion = it.lastVersion := by
  rw [Iterator.advance]
  split_ifs <;> rfl

/-- Moving an iterator that stands at a row lands on the next key of the overlay. -/
theorem Synced.next (h : Synced txn it) :
    PointsTo txn ((it.advance txn).updateCurrent txn) (txn.overlay.first (it.current.1 < ·)) :=
  h.advance.updateCurrent fun _ _ hab ha => lt_of_lt_of_le ha hab

/-- `Next` lands on the least key of the present overlay that is above the current one, whether
or not the transaction was modified since the iterator was moved, if the test of the versions
tells. -/
theorem Tracks.next {behind : Behind} {row : Row} (h : Tracks txn it (some row))
    (hbehind : behind it.lastVersion txn.version = Behind.unbounded it.lastVersion txn.version) :
    ∃ it', it.next txn behind = .ok it' ∧ Tracks txn it' (txn.overlay.first (row.1 < ·)) := by
  obtain ⟨hversion, hvalid, rfl, hsynced⟩ := h
  rw [Iterator.next, if_pos hvalid, syncToTransaction, hbehind, Behind.unbounded]
  simp only [decide_eq_true_eq]
  by_cases hlt : it.lastVersion < txn.version
  · rw [if_pos hlt]
    have hseek := pointsTo_seek txn it.current.1 it
    have hlast : (it.seek txn it.current.1).lastVersion = txn.version := rfl
    generalize it.seek txn it.current.1 = it' at hseek hlast
    cases hfirst : txn.overlay.first (it.current.1 ≤ ·) with
    | none =>
      rw [hfirst] at hseek
      have hinvalid : it'.isValid = false := hseek
      have hnone : txn.overlay.first (it.current.1 < ·) = none := by
        rw [first_eq_none_iff] at hfirst ⊢
        exact fun k hk => hfirst k hk.le
      refine ⟨it', by simp [hinvalid], ?_⟩
      rw [hnone]
      exact ⟨hlast.le, hinvalid⟩
    | some row =>
      rw [hfirst] at hseek
      obtain ⟨hget, hle, hbelow⟩ := first_eq_some_iff.mp hfirst
      obtain ⟨hvalid', hcurrent, hsynced'⟩ := hseek
      rcases hle.lt_or_eq with hgt | heq
      · -- The seek has moved on already, past a row that is gone.
        have hnext : txn.overlay.first (it.current.1 < ·) = some row :=
          first_eq_some_iff.mpr ⟨hget, hgt, fun k hk hlt => hbelow k hk hlt.le⟩
        refine ⟨it', by simp [hcurrent, hgt], ?_⟩
        rw [hnext]
        exact ⟨hlast.le, hvalid', hcurrent, fun _ => hsynced'⟩
      · refine ⟨_, by simp [hvalid', hcurrent, heq]; rfl, ?_⟩
        have hnext := hsynced'.next
        rw [hcurrent, ← heq] at hnext
        refine hnext.tracks ?_
        rw [lastVersion_updateCurrent, lastVersion_advance, hlast]
  · rw [if_neg hlt]
    have hnext := (hsynced (le_antisymm hversion (not_lt.mp hlt))).next
    refine ⟨_, by simp [hvalid], hnext.tracks ?_⟩
    rw [lastVersion_updateCurrent, lastVersion_advance]
    exact hversion

/-- With fewer than `2 ^ 31` changes the counters of the source tell as much as the numbers of the
changes. -/
theorem Tracks.int32_eq (h : Tracks txn it shown) (hroom : txn.version < 2 ^ 31) :
    Behind.int32 it.lastVersion txn.version = Behind.unbounded it.lastVersion txn.version :=
  decide_eq_decide.mpr (Int32.ofNat_lt_iff_lt (h.1.trans_lt hroom) hroom)

/-- The rows that a loop over the iterator visits, in at most the given number of steps. -/
def scan (txn : LevelDbTransaction) : Nat → Iterator → Hard (List Row)
  | 0, _ => .ok []
  | steps + 1, it =>
    if it.isValid then do
      let rows ← scan txn steps (← it.next txn Behind.int32)
      return it.current :: rows
    else .ok []

/-- A scan visits the rows of the overlay from where it starts, in order. -/
theorem scan_eq_filter {steps : Nat} (hp : ∀ a b, a ≤ b → p a → p b)
    (hroom : txn.version < 2 ^ 31) (h : Tracks txn it (txn.overlay.first p))
    (hsteps : (txn.overlay.entries.filter fun e => p e.1).length < steps) :
    it.scan txn steps = .ok (txn.overlay.entries.filter fun e => p e.1) := by
  induction steps generalizing it p with
  | zero => simp at hsteps
  | succ steps ih =>
    rw [scan]
    cases hrows : txn.overlay.entries.filter fun e => p e.1 with
    | nil =>
      have hnone : txn.overlay.first p = none := by
        rw [OrdMap.first, ← head?_filter, hrows]
        rfl
      rw [hnone] at h
      rw [if_neg (by simpa using h.2)]
    | cons row rows =>
      have hfirst : txn.overlay.first p = some row := by
        rw [OrdMap.first, ← head?_filter, hrows]
        rfl
      rw [hfirst] at h
      -- The rows behind the first one are the rows above it.
      have hdrop : (txn.overlay.entries.filter fun e => p e.1).dropWhile (fun _ => false) =
          row :: rows := by
        rw [hrows, dropWhile_cons_of_neg (by simp)]
      obtain ⟨-, -, -, hrest, -⟩ :=
        dropWhile_filter_eq_cons hp txn.overlay.sorted hdrop
      obtain ⟨it', hnext, htracks⟩ := h.next (h.int32_eq hroom)
      have hrest' : rows = txn.overlay.entries.filter fun e => row.1 < e.1 := by
        rw [hrest]
        congr!
      have hscan := ih (fun _ _ hab ha => lt_of_lt_of_le ha hab) htracks
        (by rw [← hrest']; simpa [hrows] using hsteps)
      rw [if_pos h.2.1, hnext]
      simp only [bind, Except.bind, hscan, ← hrest', pure, Except.pure, h.2.2.1]

end Iterator

/-! ## Runs -/

/-- What a caller does with one transaction and any number of iterators on it, in the order in which
they were made. -/
inductive Call
  | put (key value : Bytes)
  | delete (key : Bytes)
  | get (key : Bytes)
  | newIterator
  | seek (i : Nat) (key : Bytes)
  | next (i : Nat)

def Call.changes : Call → Bool
  | put _ _ | delete _ => true
  | get _ | newIterator | seek _ _ | next _ => false

/-- What the caller sees of a call: nothing, the value of a key, or the row that an iterator
shows. -/
inductive Answer
  | done
  | got (value : Option Bytes)
  | shows (row : Option Row)
deriving DecidableEq

/-- What `Valid`, `key` and `value` tell about an iterator. -/
def Iterator.shown (it : Iterator) : Option Row := if it.isValid then some it.current else none

/-- A transaction with the iterators made on it. -/
structure Session where
  txn : LevelDbTransaction
  iterators : List Iterator

namespace Session

def start (db : LevelDb) : Session := ⟨LevelDbTransaction.new db, []⟩

def step (s : Session) : Call → Hard (Session × Answer)
  | .put key value => .ok ({ s with txn := s.txn.put key value }, .done)
  | .delete key => .ok ({ s with txn := s.txn.delete key }, .done)
  | .get key => .ok (s, .got (s.txn.get key).toOption)
  | .newIterator =>
    let it := Iterator.new s.txn
    .ok ({ s with iterators := s.iterators ++ [it] }, .shows it.shown)
  | .seek i key =>
    match s.iterators[i]? with
    | none => .ok (s, .done)
    | some it =>
      let it := it.seek s.txn key
      .ok ({ s with iterators := s.iterators.set i it }, .shows it.shown)
  | .next i =>
    match s.iterators[i]? with
    | none => .ok (s, .done)
    | some it => do
      let it ← it.next s.txn Iterator.Behind.int32
      return ({ s with iterators := s.iterators.set i it }, .shows it.shown)

end Session

/-- What the transaction is meant to be: one ordered map that the changes are applied to, and
for each iterator the row that it shows. -/
structure View where
  rows : LevelDb
  shown : List (Option Row)

namespace View

def start (db : LevelDb) : View := ⟨db, []⟩

def step (v : View) : Call → Hard (View × Answer)
  | .put key value => .ok ({ v with rows := v.rows.insert key value }, .done)
  | .delete key => .ok ({ v with rows := v.rows.erase key }, .done)
  | .get key => .ok (v, .got (v.rows.get? key))
  | .newIterator => .ok ({ v with shown := v.shown ++ [none] }, .shows none)
  | .seek i key =>
    match v.shown[i]? with
    | none => .ok (v, .done)
    | some _ =>
      -- The least key that is not below the given one.
      let row := v.rows.first (key ≤ ·)
      .ok ({ v with shown := v.shown.set i row }, .shows row)
  | .next i =>
    match v.shown[i]? with
    | none => .ok (v, .done)
    | some none => .error ⟨"Next() called on invalid iterator"⟩
    | some (some current) =>
      -- The least key of the present rows that is above the current one.
      let row := v.rows.first (current.1 < ·)
      .ok ({ v with shown := v.shown.set i row }, .shows row)

end View

/-- The transaction shows the rows of the view, each iterator shows its row, and the counter of the
changes has not wrapped around. -/
structure Session.Refines (s : Session) (v : View) : Prop where
  room : s.txn.version < 2 ^ 31
  rows : s.txn.overlay = v.rows
  iterators : List.Forall₂ (Iterator.Tracks s.txn) s.iterators v.shown

open Iterator

theorem Iterator.Tracks.shown_eq {it : Iterator} {row : Option Row}
    (h : Tracks txn it row) : it.shown = row := by
  cases row with
  | none => exact if_neg (by simpa using h.2)
  | some row => exact (if_pos h.2.1).trans (congrArg some h.2.2.1)

/-- A change of the transaction that is a change of the rows. -/
theorem Session.Refines.modify (h : s.Refines v)
    {rows : LevelDb} (hversion : s.txn.version < txn.version) (hroom : txn.version < 2 ^ 31)
    (hrows : txn.overlay = rows) : Session.Refines { s with txn := txn } { v with rows := rows } :=
  ⟨hroom, hrows, h.iterators.imp fun _ _ ht => ht.of_version_lt hversion⟩

/-- Moving one iterator to a row. -/
theorem Session.Refines.set (h : s.Refines v) (i : Nat) {it : Iterator}
    {row : Option Row} (ht : Tracks s.txn it row) :
    Session.Refines { s with iterators := s.iterators.set i it }
      { v with shown := v.shown.set i row } :=
  ⟨h.room, h.rows, forall₂_set h.iterators ht i⟩

theorem Session.Refines.step (h : s.Refines v) {call : Call}
    (hroom : s.txn.version + call.changes.toNat < 2 ^ 31) :
    Related Session.Refines (s.step call) (v.step call) := by
  cases call with
  | put key value =>
    exact ⟨h.modify (Nat.lt_succ_self _) hroom (by rw [overlay_put, h.rows]), rfl⟩
  | delete key =>
    exact ⟨h.modify (Nat.lt_succ_self _) hroom (by rw [overlay_delete, h.rows]), rfl⟩
  | get key =>
    exact ⟨h, congrArg Answer.got (by rw [get_toOption, h.rows])⟩
  | newIterator =>
    have hnew : Tracks s.txn (Iterator.new s.txn) none := ⟨le_rfl, rfl⟩
    exact ⟨⟨h.room, h.rows, rel_append h.iterators (.cons hnew .nil)⟩, rfl⟩
  | seek i key =>
    rw [Session.step, View.step]
    rcases forall₂_getElem? h.iterators i with ⟨his, hvs⟩ | ⟨it, row, his, hvs, -⟩
    · rw [his, hvs]
      exact ⟨h, rfl⟩
    · rw [his, hvs]
      have hseek : Tracks s.txn (it.seek s.txn key) (v.rows.first (key ≤ ·)) := by
        rw [← h.rows]
        exact (pointsTo_seek s.txn key it).tracks le_rfl
      exact ⟨h.set i hseek, congrArg Answer.shows hseek.shown_eq⟩
  | next i =>
    rw [Session.step, View.step]
    rcases forall₂_getElem? h.iterators i with ⟨his, hvs⟩ | ⟨it, row, his, hvs, ht⟩
    · rw [his, hvs]
      exact ⟨h, rfl⟩
    · rw [his, hvs]
      cases row with
      | none =>
        have hinvalid : it.isValid = false := ht.2
        simp [Iterator.next, hinvalid, Related]
      | some row =>
        obtain ⟨it', hnext, ht'⟩ := ht.next (ht.int32_eq h.room)
        rw [h.rows] at ht'
        dsimp only
        rw [hnext]
        exact ⟨h.set i ht', congrArg Answer.shows ht'.shown_eq⟩

theorem Session.start_refines (db : LevelDb) : (Session.start db).Refines (View.start db) :=
  ⟨Nat.two_pow_pos 31, overlay_new db, .nil⟩

/-- A call counts at most its own change. -/
theorem Session.version_step {s' : Session} {call : Call} {answer : Answer}
    (hok : s.step call = .ok (s', answer)) :
    s'.txn.version ≤ s.txn.version + call.changes.toNat := by
  cases call with
  | put key value | delete key =>
    cases hok
    exact le_rfl
  | get key | newIterator =>
    cases hok
    exact le_rfl
  | seek i key =>
    rw [Session.step] at hok
    split at hok <;> cases hok <;> exact le_rfl
  | next i =>
    rw [Session.step] at hok
    split at hok
    · cases hok
      exact le_rfl
    · obtain ⟨it, -, hok⟩ := bind_eq_ok.mp hok
      cases hok
      exact le_rfl

/-- **A transaction is its overlay.**  Whatever is called on a transaction and its iterators, in any
order and with fewer than `2 ^ 31` changes, the answers are those of one ordered map to which the
changes are applied.  A scan from a key visits exactly the rows of the map from that key on, in
ascending order, and committing makes the database equal to the map. -/
theorem transaction_refines_overlay (db : LevelDb) (calls : List Call)
    (hchanges : calls.countP Call.changes < 2 ^ 31) : Related (fun (s : Session) (v : View) =>
        s.txn.commit = v.rows ∧
        ∀ (key : Bytes) (it : Iterator) (steps : Nat), v.rows.entries.length < steps →
          (it.seek s.txn key).scan s.txn steps =
            .ok (v.rows.entries.filter fun e => key ≤ e.1))
      (runAll Session.step (Session.start db) calls)
      (runAll View.step (View.start db) calls) := by
  have hroom : Along Session.step (fun s call => s.txn.version + call.changes.toNat < 2 ^ 31)
      (Session.start db) calls :=
    along_of_countP (fun s : Session => s.txn.version) Call.changes
      (fun _ _ _ _ => Session.version_step) (fun _ _ => id) ((Nat.zero_add _).trans_lt hchanges)
  have hrun := runAll_related_along (fun s v call (h : s.Refines v) hcall => h.step hcall)
    (Session.start_refines db) hroom
  refine hrun.mono fun s v h => ⟨by rw [commit_eq, h.rows], fun key it steps hsteps => ?_⟩
  rw [← h.rows] at hsteps ⊢
  refine scan_eq_filter (fun _ _ hab ha => ha.trans hab) h.room
    ((pointsTo_seek s.txn key it).tracks le_rfl) ?_
  exact (length_filter_le _ _).trans_lt hsteps

/-! A row that is put behind an iterator is found by `Next`, unless the counter of the changes wraps
around just then. -/

namespace Wrap

def rows : LevelDb := (OrdMap.empty.insert (ascii "a") []).insert (ascii "b") []

def putBehind : List Call :=
  [.newIterator, .seek 0 (ascii "a"), .put (ascii "ab") [], .next 0]

def session (version : Nat) : Session where
  txn := { (LevelDbTransaction.new rows).put (ascii "z") [] with version := version }
  iterators := []

def view : View := ⟨rows.insert (ascii "z") [], []⟩

def calls (n : Nat) : List Call :=
  .put (ascii "z") [] :: (replicate n (.put (ascii "z") []) ++ putBehind)

theorem run_session {n : Nat} {s : Session} {answers : List Answer} {answer : Answer}
    (hrun : runAll Session.step (session (1 + n)) putBehind = .ok (s, answers))
    (hlast : answers.getLast? = some answer) :
    (runAll Session.step (Session.start rows) (calls n)).map (·.2.getLast?) =
      .ok (some answer) := by
  have hput : ∀ k, (session k).step (.put (ascii "z") []) = .ok (session (k + 1), .done) :=
    fun _ => rfl
  have hall : runAll Session.step (Session.start rows) (calls n) =
      .ok (s, .done :: (replicate n .done ++ answers)) :=
    runAll_cons_eq_ok.mpr ⟨session 1, .done, _, rfl, runAll_replicate_append hput hrun, rfl⟩
  rw [hall]
  simp [Except.map, getLast?_cons, getLast?_append, hlast]

theorem run_view {n : Nat} {v : View} {answers : List Answer} {answer : Answer}
    (hrun : runAll View.step view putBehind = .ok (v, answers))
    (hlast : answers.getLast? = some answer) :
    (runAll View.step (View.start rows) (calls n)).map (·.2.getLast?) = .ok (some answer) := by
  have hput : ∀ _ : Nat, view.step (.put (ascii "z") []) = .ok (view, .done) := fun _ => rfl
  have hall : runAll View.step (View.start rows) (calls n) =
      .ok (v, .done :: (replicate n .done ++ answers)) :=
    runAll_cons_eq_ok.mpr ⟨view, .done, _, rfl,
      runAll_replicate_append (f := fun _ => view) (k := 0) hput hrun, rfl⟩
  rw [hall]
  simp [Except.map, getLast?_cons, getLast?_append, hlast]

end Wrap

open Wrap

theorem transaction_refines_overlay_putBehind : Related (fun (s : Session) (v : View) =>
        s.txn.commit = v.rows ∧
        ∀ (key : Bytes) (it : Iterator) (steps : Nat), v.rows.entries.length < steps →
          (it.seek s.txn key).scan s.txn steps =
            .ok (v.rows.entries.filter fun e => key ≤ e.1))
      (runAll Session.step (Session.start rows) putBehind)
      (runAll View.step (View.start rows) putBehind) :=
  transaction_refines_overlay rows putBehind (by decide)

/-- After `2 ^ 31 - 1` changes, one more change is taken for none: the iterator moves on to `b` past
the new row. -/
theorem next_passes_over_put :
    (runAll Session.step (Session.start rows) (calls (2 ^ 31 - 2))).map (·.2.getLast?) =
      .ok (some (.shows (some (ascii "b", [])))) ∧
    (runAll View.step (View.start rows) (calls (2 ^ 31 - 2))).map (·.2.getLast?) =
      .ok (some (.shows (some (ascii "ab", [])))) :=
  ⟨run_session rfl rfl, run_view rfl rfl⟩

end LevelDbTransaction

end Firebase.Firestore.Local
