import Mathlib.Data.Finset.Sort
import Firebase.Lib.OrdMap
import Firebase.Firestore.Util.HardAssert
import Firebase.Firestore.Util.OrderedCode

/-!
# `LevelDbTransaction`

A transaction collects puts and deletes in memory and shows its caller the database with these
changes applied (`leveldb_transaction.cc`).

The database itself is an ordered map that does not change while the transaction
is open, and its operations report no errors: the assertions on a `leveldb`
status do not fire.  `version` is the number of the changes made, which the source
counts in 32 bits: an iterator takes the way in which it compares two versions as a
parameter (`Behind`).
-/

namespace Firebase.Firestore.Local

open Lib Util

/-- A row: its key and its value. -/
abbrev Row := Bytes × Bytes

abbrev LevelDb := OrdMap Bytes Bytes

/-- One change in a `leveldb::WriteBatch`. -/
inductive WriteOp
  | delete (key : Bytes)
  | put (key value : Bytes)

def LevelDb.write (db : LevelDb) (batch : List WriteOp) : LevelDb :=
  batch.foldl (fun db op => match op with
    | .delete key => db.erase key
    | .put key value => db.insert key value) db

/-- Why a key has no value: `Status::NotFound`. -/
inductive NotFound
  | inTransaction (message : Bytes)
  | inDb
deriving DecidableEq

/-- `LevelDbTransaction`.  A key is never both put and deleted. -/
structure LevelDbTransaction where
  db : LevelDb
  mutations : OrdMap Bytes Bytes
  deletions : Finset Bytes
  version : Nat
  disjoint : ∀ k ∈ deletions, mutations.get? k = none

namespace LevelDbTransaction

/-- The constructor: no pending changes. -/
def new (db : LevelDb) : LevelDbTransaction where
  db := db
  mutations := .empty
  deletions := ∅
  version := 0
  disjoint := fun _ _ => rfl

variable (txn : LevelDbTransaction)

def put (key value : Bytes) : LevelDbTransaction where
  db := txn.db
  mutations := txn.mutations.insert key value
  deletions := txn.deletions.erase key
  version := txn.version + 1
  disjoint := by
    intro k hk
    obtain ⟨hne, hk⟩ := Finset.mem_erase.mp hk
    rw [OrdMap.get?_insert, if_neg hne, txn.disjoint k hk]

def delete (key : Bytes) : LevelDbTransaction where
  db := txn.db
  mutations := txn.mutations.erase key
  deletions := insert key txn.deletions
  version := txn.version + 1
  disjoint := by
    intro k hk
    rw [OrdMap.get?_erase]
    split_ifs with h
    · rfl
    · exact txn.disjoint k ((Finset.mem_insert.mp hk).resolve_left h)

def get (txn : LevelDbTransaction) (key : Bytes) : Except NotFound Bytes :=
  if key ∈ txn.deletions then
    .error (.inTransaction (key ++ ascii " is not present in the transaction"))
  else
    match txn.mutations.get? key with
    | some value => .ok value
    | none =>
      match txn.db.get? key with
      | some value => .ok value
      | none => .error .inDb

def commit : LevelDb :=
  txn.db.write ((txn.deletions.sort (· ≤ ·)).map WriteOp.delete ++
    txn.mutations.entries.map fun e => WriteOp.put e.1 e.2)

/-! ## Iterators -/

/-- `LevelDbTransaction::Iterator`.  The cursor `db_iter_` is the list of the rows that are
not behind it, empty when it is not valid; `mutations_iter_` is the key of the entry
that it points to, `none` when it is `end()`. -/
structure Iterator where
  dbIter : List Row
  lastVersion : Nat
  mutationsIter : Option Bytes
  current : Row
  isMutation : Bool
  isValid : Bool
deriving DecidableEq

namespace Iterator

variable (txn : LevelDbTransaction)

/-- The constructor: it does not point to anything yet. -/
def new : Iterator where
  dbIter := []
  lastVersion := txn.version
  mutationsIter := txn.mutations.entries.head?.map Prod.fst
  current := ([], [])
  isMutation := false
  isValid := false

variable (it : Iterator)

/-- `*mutations_iter_`, if it is not `end()`.  A change of the transaction is always followed by a
seek before the cursor is used. -/
def mutation? : Option Row :=
  it.mutationsIter.bind fun k => (txn.mutations.get? k).map fun v => (k, v)

def updateCurrent : Iterator :=
  match it.mutation? txn, it.dbIter with
  | none, [] => { it with isValid := false }
  | none, row :: _ => { it with isValid := true, isMutation := false, current := row }
  | some mutation, [] => { it with isValid := true, isMutation := true, current := mutation }
  | some mutation, row :: _ =>
    -- On equal keys the mutation shadows the committed value.
    if mutation.1 ≤ row.1 then
      { it with isValid := true, isMutation := true, current := mutation }
    else { it with isValid := true, isMutation := false, current := row }

def isDeleted (row : Row) : Bool := row.1 ∈ txn.deletions

def seek (key : Bytes) (it : Iterator) : Iterator :=
  let dbIter := (txn.db.entries.dropWhile fun e => ¬ key ≤ e.1).dropWhile (isDeleted txn)
  let mutationsIter := (txn.mutations.first (key ≤ ·)).map Prod.fst
  { updateCurrent txn { it with dbIter, mutationsIter } with lastVersion := txn.version }

/-- How an iterator finds that it is behind its transaction: `last_version_ < version_`. -/
abbrev Behind := Nat → Nat → Bool

/-- The test of the source, on counters that wrap around after `2 ^ 31` changes. -/
def Behind.int32 : Behind := fun lastVersion version =>
  Int32.ofNat lastVersion < Int32.ofNat version

def Behind.unbounded : Behind := fun lastVersion version => lastVersion < version

variable (behind : Behind)

def syncToTransaction : Bool × Iterator :=
  if behind it.lastVersion txn.version then
    let it' := it.seek txn it.current.1
    (it'.isValid && it.current.1 < it'.current.1, it')
  else (false, it)

def advanceLDB : Iterator :=
  { it with dbIter := it.dbIter.tail.dropWhile (isDeleted txn) }

def advanceMutation : Iterator :=
  { it with mutationsIter :=
      it.mutationsIter.bind fun k => (txn.mutations.first (k < ·)).map Prod.fst }

/-- Whether the mutation that the iterator points to is shadowing the row that the database
cursor points to. -/
def isShadowing : Bool :=
  match it.dbIter, it.mutationsIter with
  | row :: _, some k => row.1 == k
  | _, _ => false

def advance : Iterator :=
  if it.isMutation then
    -- If the mutation is shadowing a committed value, both cursors move.
    if it.isShadowing then
      (it.advanceLDB txn).advanceMutation txn
    else it.advanceMutation txn
  else it.advanceLDB txn

def next : Hard Iterator :=
  if it.isValid then
    let (advanced, it) := it.syncToTransaction txn behind
    if !advanced && it.isValid then .ok ((it.advance txn).updateCurrent txn) else .ok it
  else .error ⟨"Next() called on invalid iterator"⟩

def key (it : Iterator) : Hard Bytes :=
  if it.isValid then .ok it.current.1 else .error ⟨"key() called on invalid iterator"⟩

def value (it : Iterator) : Hard Bytes :=
  if it.isValid then .ok it.current.2 else .error ⟨"value() called on invalid iterator"⟩

end Iterator

end LevelDbTransaction

end Firebase.Firestore.Local
