import Firebase.Lib.Simulation
import Firebase.Firestore.Core.TargetEquality
import Firebase.Firestore.Local.LevelDbPersistence

/-!
# The target cache

`LevelDbTargetCache` (`leveldb_target_cache.cc`): the targets by id, an index of them by canonical
id, the documents of each target with an index in the other direction, and a row of metadata that
counts the targets.

A canonical id is a text made from the target, which different targets may share; it is a parameter
here.  So is what a row of `target` reads back as (`decode`), since a filter on a field with a zero
byte in its name does not parse, and of the target of a document only the path is written.
-/

namespace Firebase.Firestore.Local

open Lib Util Model Firestore.Core OrdMap List

/-! ## Targets -/

def withSequenceNumber (targetData : TargetData) (sequenceNumber : Int) : TargetData :=
  { targetData with sequenceNumber }

/-- `LevelDbTargetCache::UpdateMetadata`, with whether there was something to update. -/
def TargetGlobal.update (metadata : TargetGlobal) (targetData : TargetData) : Bool × TargetGlobal :=
  let newId := decide (metadata.highestTargetId < targetData.targetId)
  let newNumber := decide (metadata.highestListenSequenceNumber < targetData.sequenceNumber)
  (newId || newNumber, { metadata with
    highestTargetId := if newId then targetData.targetId else metadata.highestTargetId
    highestListenSequenceNumber :=
      if newNumber then targetData.sequenceNumber else metadata.highestListenSequenceNumber })

variable {targetId : Core.TargetId} {keys : DocumentKeySet} {key : DocumentKey}

namespace LevelDbPersistence

def saveTarget (p : LevelDbPersistence) (targetData : TargetData) : LevelDbPersistence :=
  { p with tables := { p.tables with
    targets := p.tables.targets.insert targetData.targetId targetData } }

def saveMetadata (p : LevelDbPersistence) : LevelDbPersistence :=
  { p with tables := { p.tables with targetGlobal := some p.metadata } }

section CanonicalId

variable (canonicalId : Target → Bytes) (p : LevelDbPersistence)

/-- `LevelDbTargetCache::AddTarget`.  `target_count` is an `int32_t`, which wraps around. -/
def addTarget (targetData : TargetData) : LevelDbPersistence :=
  let p := p.saveTarget targetData
  let p := { p with tables := { p.tables with
    queryTargets := p.tables.queryTargets.insert
      (toLex (canonicalId targetData.target, targetData.targetId)) () } }
  let metadata := { p.metadata with
    targetCount := (p.metadata.targetCount + 1).bmod (2 ^ 32) }
  { p with metadata := (metadata.update targetData).2 }.saveMetadata

def updateTarget (targetData : TargetData) : LevelDbPersistence :=
  let p := p.saveTarget targetData
  let (updated, metadata) := p.metadata.update targetData
  let p := { p with metadata := metadata }
  if updated then p.saveMetadata else p

def deleteMatch (targetId : Core.TargetId) (p : LevelDbPersistence) (key : DocumentKey) :
    LevelDbPersistence :=
  { p with tables := { p.tables with
    targetDocuments := p.tables.targetDocuments.erase (toLex (targetId, key))
    documentTargets := p.tables.documentTargets.erase (toLex (key, targetId)) } }

/-- The documents of a target, in order.  `Decode` fails on the blank key. -/
def matchingKeys (targetId : Core.TargetId) : List DocumentKey :=
  (p.tables.targetDocuments.scan (fun k => targetId ≤ (ofLex k).1)
    fun k => (ofLex k).1 = targetId ∧ (ofLex k).2 ≠ DocumentKey.empty).map fun row =>
      (ofLex row.1).2

def removeAllKeysForTarget (targetId : Core.TargetId) : LevelDbPersistence :=
  (p.matchingKeys targetId).foldl (deleteMatch targetId) p

def removeTarget (targetData : TargetData) : LevelDbPersistence :=
  let p := p.removeAllKeysForTarget targetData.targetId
  let p := { p with tables := { p.tables with
    targets := p.tables.targets.erase targetData.targetId
    queryTargets := p.tables.queryTargets.erase
      (toLex (canonicalId targetData.target, targetData.targetId)) } }
  { p with metadata := { p.metadata with
    targetCount := (p.metadata.targetCount - 1).bmod (2 ^ 32) } }.saveMetadata

variable (decode : TargetData → Option TargetData)

def decodeTarget (row : TargetData) : Hard TargetData :=
  match decode row with
  | some targetData => .ok targetData
  | none => .error ⟨"Target proto failed to parse"⟩

def findTarget (tables : LevelDbTables) (target : Target) :
    List Core.TargetId → Hard (Option TargetData)
  | [] => .ok none
  | targetId :: targetIds =>
    match tables.targets.get? targetId with
    | none => .error ⟨"Dangling query-target reference found"⟩
    | some row => do
      let targetData ← decodeTarget decode row
      if targetData.target.equals target then return some targetData
      else findTarget tables target targetIds

def getTarget (target : Target) : Hard (Option TargetData) :=
  findTarget decode p.tables target
    ((p.tables.queryTargets.scanUnder (canonicalId target)).map fun row => (ofLex row.1).2)

/-- A round of `RemoveTargets`, at the row of a target if that is still there. -/
def removeIfUnused (upperBound : Int) (liveTargets : OrdMap Core.TargetId TargetData)
    (state : LevelDbPersistence × Nat) (targetId : Core.TargetId) :
    Hard (LevelDbPersistence × Nat) :=
  match state.1.tables.targets.get? targetId with
  | none => .ok state
  | some row => do
    let targetData ← decodeTarget decode row
    if targetData.sequenceNumber ≤ upperBound ∧
        (liveTargets.get? targetData.targetId).isNone then
      return (removeTarget canonicalId state.1 targetData, state.2 + 1)
    else return state

def removeTargets (upperBound : Int)
    (liveTargets : OrdMap Core.TargetId TargetData) : Hard (LevelDbPersistence × Nat) :=
  (p.tables.targets.entries.map Prod.fst).foldlM
    (removeIfUnused canonicalId decode upperBound liveTargets) (p, 0)

end CanonicalId

/-! ## Documents of targets -/

def putMatch (targetId : Core.TargetId) (p : LevelDbPersistence) (key : DocumentKey) :
    LevelDbPersistence :=
  { p with tables := { p.tables with
    targetDocuments := p.tables.targetDocuments.insert (toLex (targetId, key)) ()
    documentTargets := p.tables.documentTargets.insert (toLex (key, targetId)) none } }

section

variable (p : LevelDbPersistence)

def addMatchingKeys (keys : DocumentKeySet) (targetId : Core.TargetId) : Hard LevelDbPersistence :=
  keys.sort.foldlM (fun p key => (putMatch targetId p key).addReference key) p

def removeMatchingKeys (keys : DocumentKeySet)
    (targetId : Core.TargetId) : Hard LevelDbPersistence :=
  keys.sort.foldlM (fun p key => (deleteMatch targetId p key).removeReference key) p

def setLastRemoteSnapshotVersion (version : SnapshotVersion) : LevelDbPersistence :=
  { p with metadata := { p.metadata with
    lastRemoteSnapshotVersion := version } }.saveMetadata

end

/-! ## What holds between the tables -/

variable {canonicalId : Target → Bytes} {decode : TargetData → Option TargetData}
  {p p' : LevelDbPersistence}

/-- The rows of `query_target` are those of the targets, no two of which are equal, and the metadata
has their number, up to its width.  Every row reads back as it was saved. -/
structure TargetsInv (canonicalId : Target → Bytes) (decode : TargetData → Option TargetData)
    (p : LevelDbPersistence) : Prop where
  keyed : ∀ id targetData, p.tables.targets.get? id = some targetData → targetData.targetId = id
  index : ∀ text id, p.tables.queryTargets.get? (toLex (text, id)) = some () ↔
    ∃ targetData, p.tables.targets.get? id = some targetData ∧ canonicalId targetData.target = text
  unique : ∀ id id' targetData targetData', p.tables.targets.get? id = some targetData →
    p.tables.targets.get? id' = some targetData' →
    canonicalId targetData.target = canonicalId targetData'.target →
    targetData.target.equals targetData'.target → id = id'
  count : p.metadata.targetCount = (p.tables.targets.entries.length : Int).bmod (2 ^ 32)
  readable : ∀ id row, p.tables.targets.get? id = some row → decode row = some row
  persisted : p.tables.targetGlobal.map (·.targetCount) = some p.metadata.targetCount

/-- The rows of documents and targets are there in both directions. -/
def Mirrored (p : LevelDbPersistence) : Prop :=
  ∀ key id, id ≠ 0 → ((p.tables.documentTargets.get? (toLex (key, id))).isSome ↔
    (p.tables.targetDocuments.get? (toLex (id, key))).isSome)

/-- Nothing changes but the documents of targets. -/
structure SameTargets (p p' : LevelDbPersistence) : Prop where
  targets : p'.tables.targets = p.tables.targets
  queryTargets : p'.tables.queryTargets = p.tables.queryTargets
  targetGlobal : p'.tables.targetGlobal = p.tables.targetGlobal
  metadata : p'.metadata = p.metadata

theorem SameTargets.refl (p : LevelDbPersistence) : SameTargets p p := ⟨rfl, rfl, rfl, rfl⟩

theorem SameTargets.trans {p₁ p₂ p₃ : LevelDbPersistence} (h : SameTargets p₁ p₂)
    (h' : SameTargets p₂ p₃) : SameTargets p₁ p₃ :=
  ⟨h'.targets.trans h.targets, h'.queryTargets.trans h.queryTargets,
    h'.targetGlobal.trans h.targetGlobal, h'.metadata.trans h.metadata⟩

theorem TargetsInv.of_sameTargets (h : p.TargetsInv canonicalId decode) (hsame : SameTargets p p') :
    p'.TargetsInv canonicalId decode := by
  constructor
  · rw [hsame.targets]
    exact h.keyed
  · rw [hsame.targets, hsame.queryTargets]
    exact h.index
  · rw [hsame.targets]
    exact h.unique
  · rw [hsame.metadata, hsame.targets]
    exact h.count
  · rw [hsame.targets]
    exact h.readable
  · rw [hsame.targetGlobal, hsame.metadata]
    exact h.persisted

/-! ## Documents -/

theorem sameTargets_writeSentinel (hok : p.writeSentinel key = .ok p') : SameTargets p p' := by
  obtain ⟨n, -, rfl⟩ := writeSentinel_ok hok
  exact ⟨rfl, rfl, rfl, rfl⟩

/-- A sentinel row is no row of a target. -/
theorem Mirrored.writeSentinel (h : p.Mirrored)
    (hok : p.writeSentinel key = .ok p') : p'.Mirrored := by
  obtain ⟨n, -, rfl⟩ := writeSentinel_ok hok
  intro key' id hid
  rw [← h key' id hid, get?_insert, if_neg]
  intro hrow
  exact hid (Prod.mk.inj (toLex_inj.mp hrow)).2

theorem Mirrored.deleteMatch (h : p.Mirrored) (targetId : Core.TargetId) (key : DocumentKey) :
    (deleteMatch targetId p key).Mirrored := by
  intro key' id hid
  rw [LevelDbPersistence.deleteMatch, isSome_get?_erase, isSome_get?_erase,
    h key' id hid]
  simp [and_comm]

theorem Mirrored.putMatch (h : p.Mirrored) (targetId : Core.TargetId) (key : DocumentKey) :
    (putMatch targetId p key).Mirrored := by
  intro key' id hid
  rw [LevelDbPersistence.putMatch, isSome_get?_insert, isSome_get?_insert,
    h key' id hid]
  simp [and_comm]

/-- The rows of a target are put or deleted and their documents marked. -/
theorem foldlM_writeSentinel_keeps (edit : LevelDbPersistence → DocumentKey → LevelDbPersistence)
    (hedit : ∀ p key, p.Mirrored → SameTargets p (edit p key) ∧ (edit p key).Mirrored)
    {keys : List DocumentKey} (h : p.Mirrored)
    (hok : keys.foldlM (fun p key => (edit p key).writeSentinel key) p = .ok p') :
    SameTargets p p' ∧ p'.Mirrored := by
  refine foldlM_invariant (fun p₁ => SameTargets p p₁ ∧ p₁.Mirrored)
    (fun p₁ key _ p₂ hinv hround => ?_) ⟨.refl p, h⟩ hok
  obtain ⟨hsame, hmirrored⟩ := hedit p₁ key hinv.2
  exact ⟨hinv.1.trans (hsame.trans (sameTargets_writeSentinel hround)),
    hmirrored.writeSentinel hround⟩

theorem sameTargets_removeAllKeysForTarget (p : LevelDbPersistence) (targetId : Core.TargetId) :
    SameTargets p (p.removeAllKeysForTarget targetId) :=
  List.foldlRecOn (motive := SameTargets p) _ _ (.refl p)
    fun _ h _ _ => h.trans ⟨rfl, rfl, rfl, rfl⟩

theorem Mirrored.removeAllKeysForTarget (h : p.Mirrored) (targetId : Core.TargetId) :
    (p.removeAllKeysForTarget targetId).Mirrored :=
  List.foldlRecOn (motive := Mirrored) _ _ h fun _ h key _ => h.deleteMatch targetId key

/-! ## Targets -/

/-- The entry that the cache has for a target. -/
def HasEntry (canonicalId : Target → Bytes) (p : LevelDbPersistence) (targetData : TargetData) :
    Prop :=
  ∃ entry, p.tables.targets.get? targetData.targetId = some entry ∧
    canonicalId entry.target = canonicalId targetData.target ∧
    entry.target.equals targetData.target

instance (canonicalId : Target → Bytes) (p : LevelDbPersistence) (targetData : TargetData) :
    Decidable (p.HasEntry canonicalId targetData) :=
  inferInstanceAs (Decidable (∃ entry ∈ p.tables.targets.get? targetData.targetId,
    canonicalId entry.target = canonicalId targetData.target ∧
    entry.target.equals targetData.target))

/-- What `AddTarget` asks for: the target and its id are new to the cache. -/
def IsNew (canonicalId : Target → Bytes) (p : LevelDbPersistence) (targetData : TargetData) :
    Prop :=
  p.tables.targets.get? targetData.targetId = none ∧
    ∀ id entry, p.tables.targets.get? id = some entry →
      canonicalId entry.target = canonicalId targetData.target →
      ¬ entry.target.equals targetData.target

/-- Whether a target is new is seen from the rows. -/
theorem isNew_iff {data : TargetData} : p.IsNew canonicalId data ↔
    p.tables.targets.get? data.targetId = none ∧ ∀ row ∈ p.tables.targets.entries,
      canonicalId row.2.target = canonicalId data.target →
      ¬ row.2.target.equals data.target := by
  simp only [IsNew, Prod.forall, mem_entries]

instance (canonicalId : Target → Bytes) (p : LevelDbPersistence) (targetData : TargetData) :
    Decidable (p.IsNew canonicalId targetData) :=
  decidable_of_iff _ isNew_iff.symm

variable {data : TargetData}

section

theorem TargetsInv.of_empty (htargets : p.tables.targets = .empty)
    (hqueryTargets : p.tables.queryTargets = .empty)
    (hglobal : p.tables.targetGlobal = some p.metadata) (hcount : p.metadata.targetCount = 0) :
    p.TargetsInv canonicalId decode := by
  constructor
  · simp [htargets]
  · simp [htargets, hqueryTargets]
  · simp [htargets]
  · simp [hcount, htargets, OrdMap.empty]
  · simp [htargets]
  · rw [hglobal]
    rfl

variable (h : p.TargetsInv canonicalId decode)

include h

theorem TargetsInv.addTarget (hnew : p.IsNew canonicalId data) (hreads : decode data = some data) :
    (addTarget canonicalId p data).TargetsInv canonicalId decode := by
  unfold LevelDbPersistence.addTarget saveTarget saveMetadata
  constructor
  · exact forall_insert h.keyed rfl
  · intro text id
    simp only [get?_insert_eq_some, h.index]
    by_cases hid : id = data.targetId
    · simp [hid, hnew.1, eq_comm]
    · simp [hid]
  · intro id id' entry entry' hentry hentry' htext hequals
    rcases get?_insert_eq_some.mp hentry with ⟨rfl, rfl⟩ | ⟨-, hentry⟩
    · rcases get?_insert_eq_some.mp hentry' with ⟨rfl, -⟩ | ⟨-, hentry'⟩
      · rfl
      · exact absurd (Target.equals_isEquivalence.symm hequals)
          (hnew.2 id' entry' hentry' htext.symm)
    · rcases get?_insert_eq_some.mp hentry' with ⟨-, rfl⟩ | ⟨-, hentry'⟩
      · exact absurd hequals (hnew.2 id entry hentry htext)
      · exact h.unique id id' entry entry' hentry hentry' htext hequals
  · have hlength := length_entries_insert_of_none hnew.1 data
    change (p.metadata.targetCount + 1).bmod (2 ^ 32) =
      ((p.tables.targets.insert _ data).entries.length : Int).bmod (2 ^ 32)
    rw [hlength, h.count, Int.bmod_add_bmod]
    rfl
  · exact forall_insert h.readable hreads
  · rfl

theorem TargetsInv.updateTarget (hentry : p.HasEntry canonicalId data)
    (hreads : decode data = some data) : (p.updateTarget data).TargetsInv canonicalId decode := by
  obtain ⟨old, hold, htext, hequals⟩ := hentry
  -- The row is the only thing that changes, but for the highest numbers in the metadata.
  have htables : (p.updateTarget data).tables.targets =
      p.tables.targets.insert data.targetId data ∧
      (p.updateTarget data).tables.queryTargets = p.tables.queryTargets ∧
      (p.updateTarget data).metadata.targetCount = p.metadata.targetCount ∧
      (p.updateTarget data).tables.targetGlobal.map (·.targetCount) =
        some p.metadata.targetCount := by
    unfold LevelDbPersistence.updateTarget
    dsimp only
    split_ifs
    · exact ⟨rfl, rfl, rfl, rfl⟩
    · exact ⟨rfl, rfl, rfl, h.persisted⟩
  obtain ⟨htargets, hqueryTargets, hcount, hpersisted⟩ := htables
  -- A row of a target stands for the same target as before.
  have hsame : ∀ id entry, (p.updateTarget data).tables.targets.get? id = some entry →
      entry.targetId = id ∧ ∃ entry₀, p.tables.targets.get? id = some entry₀ ∧
        canonicalId entry₀.target = canonicalId entry.target ∧
        entry₀.target.equals entry.target := by
    intro id entry hentry
    rw [htargets, get?_insert_eq_some] at hentry
    rcases hentry with ⟨rfl, rfl⟩ | ⟨-, hentry⟩
    · exact ⟨rfl, old, hold, htext, hequals⟩
    · exact ⟨h.keyed id entry hentry, entry, hentry, rfl, Target.equals_isEquivalence.refl _⟩
  constructor
  · exact fun id entry hentry => (hsame id entry hentry).1
  · intro text id
    rw [hqueryTargets, h.index]
    constructor
    · rintro ⟨entry, hentry, rfl⟩
      rw [htargets, get?_insert]
      split_ifs with hid
      · obtain rfl := Option.some.inj ((hid ▸ hold).symm.trans hentry)
        exact ⟨data, rfl, htext.symm⟩
      · exact ⟨entry, hentry, rfl⟩
    · rintro ⟨entry, hentry, rfl⟩
      obtain ⟨-, entry₀, hentry₀, htext₀, -⟩ := hsame id entry hentry
      exact ⟨entry₀, hentry₀, htext₀⟩
  · intro id id' entry entry' hentry hentry' htext' hequals'
    obtain ⟨-, entry₀, hentry₀, htext₀, hequals₀⟩ := hsame id entry hentry
    obtain ⟨-, entry₁, hentry₁, htext₁, hequals₁⟩ := hsame id' entry' hentry'
    refine h.unique id id' entry₀ entry₁ hentry₀ hentry₁ (by rw [htext₀, htext', htext₁]) ?_
    exact Target.equals_isEquivalence.trans (Target.equals_isEquivalence.trans hequals₀ hequals')
      (Target.equals_isEquivalence.symm hequals₁)
  · rw [hcount, htargets, length_entries_insert_of_some hold]
    exact h.count
  · rw [htargets]
    exact forall_insert h.readable hreads
  · rw [hcount]
    exact hpersisted

theorem TargetsInv.removeTarget (hentry : p.HasEntry canonicalId data) :
    (removeTarget canonicalId p data).TargetsInv canonicalId decode := by
  obtain ⟨old, hold, htext, -⟩ := hentry
  have hkeys := sameTargets_removeAllKeysForTarget p data.targetId
  replace h := h.of_sameTargets hkeys
  rw [← hkeys.targets] at hold
  unfold LevelDbPersistence.removeTarget saveMetadata
  generalize p.removeAllKeysForTarget data.targetId = p at h hold
  have hkept {id entry} (hget : (p.tables.targets.erase data.targetId).get? id = some entry) :
      p.tables.targets.get? id = some entry := (get?_erase_eq_some.mp hget).2
  constructor
  · exact fun id entry hentry => h.keyed id entry (hkept hentry)
  · intro text id
    simp only [get?_erase_eq_some, h.index]
    by_cases hid : id = data.targetId
    · -- The only row of the index with this id is the one that is deleted.
      simp [hid, hold, htext, eq_comm]
    · simp [hid]
  · intro id id' entry entry' hentry hentry' htext' hequals
    exact h.unique id id' entry entry' (hkept hentry) (hkept hentry') htext' hequals
  · have hlength := length_entries_erase_of_some hold
    dsimp only
    rw [h.count, Int.bmod_sub_bmod]
    congr 1
    omega
  · exact fun id row hrow => h.readable id row (hkept hrow)
  · rfl

end

theorem decodeTarget_eq_ok {row : TargetData} :
    decodeTarget decode row = .ok data ↔ decode row = some data := by
  unfold decodeTarget
  split <;> simp_all

/-- What holds as long as targets of the cache are removed holds after `RemoveTargets`. -/
theorem removeTargets_invariant {inv : LevelDbPersistence → Prop} (h : inv p) {bound : Int}
    {liveTargets : OrdMap Core.TargetId TargetData} {count : Nat}
    (hstep : ∀ p id row data, inv p → p.tables.targets.get? id = some row →
      decode row = some data → inv (p.removeTarget canonicalId data))
    (hok : removeTargets canonicalId p decode bound liveTargets = .ok (p', count)) : inv p' := by
  refine foldlM_invariant (fun state : LevelDbPersistence × Nat => inv state.1)
    (fun state targetId _ state' hstate hround => ?_) h hok
  unfold removeIfUnused at hround
  split at hround
  · cases hround
    exact hstate
  · next row hget =>
    obtain ⟨data, hdecode, hround⟩ := bind_eq_ok.mp hround
    split_ifs at hround
    · cases hround
      exact hstep _ _ row data hstate hget (decodeTarget_eq_ok.mp hdecode)
    · cases hround
      exact hstate

theorem TargetsInv.removeTargets (h : p.TargetsInv canonicalId decode) {bound : Int}
    {liveTargets : OrdMap Core.TargetId TargetData} {count : Nat}
    (hok : removeTargets canonicalId p decode bound liveTargets = .ok (p', count)) :
    p'.TargetsInv canonicalId decode :=
  removeTargets_invariant h (fun _ id row data h hget hdecode => by
    obtain rfl := Option.some.inj ((h.readable id row hget).symm.trans hdecode)
    exact h.removeTarget
      ⟨row, h.keyed id row hget ▸ hget, rfl, Target.equals_isEquivalence.refl _⟩) hok

theorem Mirrored.removeTarget (h : p.Mirrored) (data : TargetData) :
    (removeTarget canonicalId p data).Mirrored :=
  h.removeAllKeysForTarget data.targetId

theorem Mirrored.removeTargets (h : p.Mirrored) {bound : Int}
    {liveTargets : OrdMap Core.TargetId TargetData} {count : Nat}
    (hok : removeTargets canonicalId p decode bound liveTargets = .ok (p', count)) : p'.Mirrored :=
  removeTargets_invariant h (fun _ _ _ data h _ _ => h.removeTarget data) hok

theorem Mirrored.updateTarget (h : p.Mirrored) (data : TargetData) :
    (p.updateTarget data).Mirrored := by
  unfold LevelDbPersistence.updateTarget
  dsimp only
  split_ifs
  · exact h
  · exact h

/-- The loop of `GetTarget` ends at a row whose target is equal to the one that is asked for, if
there is one. -/
theorem findTarget_ok {tables : LevelDbTables} (target : Target) {ids : List Core.TargetId}
    (hids : ∀ id ∈ ids, ∃ row, tables.targets.get? id = some row ∧ decode row = some row) :
    ∃ found, findTarget decode tables target ids = .ok found ∧
      (∀ data ∈ found, ∃ id ∈ ids, tables.targets.get? id = some data ∧
        data.target.equals target) ∧
      (found = none → ∀ id ∈ ids, ∀ data, tables.targets.get? id = some data →
        ¬ data.target.equals target) := by
  induction ids with
  | nil => exact ⟨none, rfl, by simp, by simp⟩
  | cons id ids ih =>
    obtain ⟨⟨data, hget, hdecode⟩, hids⟩ := forall_mem_cons.mp hids
    replace hdecode := decodeTarget_eq_ok.mpr hdecode
    obtain ⟨found, hfound, hsome, hnone⟩ := ih hids
    by_cases hequals : data.target.equals target
    · refine ⟨some data, by simp [findTarget, hget, hdecode, hequals, pure, Except.pure], ?_,
        by simp⟩
      intro entry hentry
      cases hentry
      exact ⟨id, mem_cons_self, hget, hequals⟩
    · refine ⟨found, by simp [findTarget, hget, hdecode, hequals, hfound], fun entry hentry => ?_,
        fun hnil => forall_mem_cons.mpr ⟨fun entry hentry => ?_, hnone hnil⟩⟩
      · obtain ⟨id', hmem, hentry⟩ := hsome entry hentry
        exact ⟨id', mem_cons_of_mem id hmem, hentry⟩
      · rwa [← Option.some.inj (hget.symm.trans hentry)]

/-- `GetTarget` does not abort, and what it returns is the entry of the target. -/
theorem TargetsInv.getTarget (h : p.TargetsInv canonicalId decode) (target : Target) :
    ∃ found, getTarget canonicalId p decode target = .ok found ∧
      ∀ data, found = some data ↔
        p.tables.targets.get? data.targetId = some data ∧
          canonicalId data.target = canonicalId target ∧
          data.target.equals target := by
  have hrows : ∀ id, id ∈ ((p.tables.queryTargets.scanUnder (canonicalId target)).map
      fun row => (ofLex row.1).2) ↔ ∃ data, p.tables.targets.get? id = some data ∧
        canonicalId data.target = canonicalId target := by
    intro id
    rw [← h.index, mem_map]
    constructor
    · rintro ⟨⟨k, ⟨⟩⟩, hrow, rfl⟩
      obtain ⟨hget, htext⟩ := mem_scanUnder.mp hrow
      rw [← htext]
      exact hget
    · intro hget
      exact ⟨(_, ()), mem_scanUnder.mpr ⟨hget, rfl⟩, rfl⟩
  obtain ⟨found, hfound, hsome, hnone⟩ := findTarget_ok target fun id hid =>
    ((hrows id).mp hid).imp fun row hrow => ⟨hrow.1, h.readable id row hrow.1⟩
  refine ⟨found, hfound, fun data => ⟨fun heq => ?_, fun ⟨hget, htext, hequals⟩ => ?_⟩⟩
  · obtain ⟨id, hid, hget, hequals⟩ := hsome data heq
    obtain ⟨entry, hentry, htext⟩ := (hrows id).mp hid
    obtain rfl := Option.some.inj (hget.symm.trans hentry)
    exact ⟨h.keyed id data hget ▸ hget, htext, hequals⟩
  · cases hcase : found with
    | none =>
      have hid := (hrows data.targetId).mpr ⟨data, hget, htext⟩
      exact absurd hequals (hnone hcase _ hid data hget)
    | some entry =>
      obtain ⟨id, hid, hget', hequals'⟩ := hsome entry hcase
      obtain ⟨entry', hentry', htext'⟩ := (hrows id).mp hid
      obtain rfl := Option.some.inj (hget'.symm.trans hentry')
      -- The two entries are equal to the same target, so they are one.
      obtain rfl : id = data.targetId :=
        h.unique id _ entry data hget' hget (htext'.trans htext.symm)
          (Target.equals_isEquivalence.trans hequals' (Target.equals_isEquivalence.symm hequals))
      exact hget'.symm.trans hget

/-! ## Runs -/

inductive TargetCacheCall where
  | addTarget (targetData : TargetData)
  | updateTarget (targetData : TargetData)
  | removeTarget (targetData : TargetData)
  | removeTargets (upperBound : Int) (liveTargets : OrdMap Core.TargetId TargetData)
  | addMatchingKeys (keys : DocumentKeySet) (targetId : Core.TargetId)
  | removeMatchingKeys (keys : DocumentKeySet) (targetId : Core.TargetId)
  | removeAllKeysForTarget (targetId : Core.TargetId)

/-- What `LocalSerializer::EncodeTargetData` asserts of a target that is saved. -/
def assertStorable (targetData : TargetData) : Hard Unit :=
  hardAssert (targetData.purpose = .listen) "Only queries with purpose Listen may be stored"

def targetCacheStep (canonicalId : Target → Bytes) (decode : TargetData → Option TargetData)
    (p : LevelDbPersistence) (call : TargetCacheCall) : Hard (LevelDbPersistence × Unit) :=
  p.run fun p =>
    match call with
    | .addTarget targetData => do
      assertStorable targetData
      return (p.addTarget canonicalId targetData, ())
    | .updateTarget targetData => do
      assertStorable targetData
      return (p.updateTarget targetData, ())
    | .removeTarget targetData => return (p.removeTarget canonicalId targetData, ())
    | .removeTargets upperBound liveTargets =>
      return ((← p.removeTargets canonicalId decode upperBound liveTargets).1, ())
    | .addMatchingKeys keys targetId => return (← p.addMatchingKeys keys targetId, ())
    | .removeMatchingKeys keys targetId => return (← p.removeMatchingKeys keys targetId, ())
    | .removeAllKeysForTarget targetId => return (p.removeAllKeysForTarget targetId, ())

/-- What `target_cache.h` asks of the callers: a target that is added is new, and one that is
updated or removed has an entry; and what is saved can be read back. -/
def Contract (canonicalId : Target → Bytes) (decode : TargetData → Option TargetData)
    (p : LevelDbPersistence) : TargetCacheCall → Prop
  | .addTarget targetData =>
    p.IsNew canonicalId targetData ∧ decode targetData = some targetData
  | .updateTarget targetData =>
    p.HasEntry canonicalId targetData ∧ decode targetData = some targetData
  | .removeTarget targetData => p.HasEntry canonicalId targetData
  | _ => True

theorem targetCacheStep_keeps {call : TargetCacheCall} {answer : Unit}
    (h : p.TargetsInv canonicalId decode ∧ p.Mirrored)
    (hcontract : p.Contract canonicalId decode call)
    (hok : targetCacheStep canonicalId decode p call = .ok (p', answer)) :
    p'.TargetsInv canonicalId decode ∧ p'.Mirrored := by
  obtain ⟨-, p₁, hblock, rfl⟩ := run_ok hok
  suffices hkeeps : p₁.TargetsInv canonicalId decode ∧ p₁.Mirrored from
    ⟨hkeeps.1.of_sameTargets ⟨rfl, rfl, rfl, rfl⟩, hkeeps.2⟩
  have hcontract₀ : p.started.Contract canonicalId decode call := by
    cases call <;> exact hcontract
  have h₀ : p.started.TargetsInv canonicalId decode ∧ p.started.Mirrored :=
    ⟨h.1.of_sameTargets ⟨rfl, rfl, rfl, rfl⟩, h.2⟩
  match call, hcontract₀, hblock with
  | .addTarget data, hcontract, hblock =>
    obtain ⟨_, -, hblock⟩ := bind_eq_ok.mp hblock
    cases hblock
    exact ⟨h₀.1.addTarget hcontract.1 hcontract.2, h₀.2⟩
  | .updateTarget data, hcontract, hblock =>
    obtain ⟨_, -, hblock⟩ := bind_eq_ok.mp hblock
    cases hblock
    exact ⟨h₀.1.updateTarget hcontract.1 hcontract.2, h₀.2.updateTarget data⟩
  | .removeTarget data, hcontract, hblock =>
    cases hblock
    exact ⟨h₀.1.removeTarget hcontract, h₀.2.removeTarget data⟩
  | .removeTargets bound liveTargets, _, hblock =>
    obtain ⟨⟨p₂, count⟩, hremove, hblock⟩ := bind_eq_ok.mp hblock
    cases hblock
    exact ⟨h₀.1.removeTargets hremove, h₀.2.removeTargets hremove⟩
  | .addMatchingKeys keys targetId, _, hblock =>
    obtain ⟨p₂, hkeys, hblock⟩ := bind_eq_ok.mp hblock
    cases hblock
    obtain ⟨hsame, hmirrored⟩ := foldlM_writeSentinel_keeps (putMatch targetId)
      (fun _ key h => ⟨⟨rfl, rfl, rfl, rfl⟩, h.putMatch targetId key⟩) h₀.2 hkeys
    exact ⟨h₀.1.of_sameTargets hsame, hmirrored⟩
  | .removeMatchingKeys keys targetId, _, hblock =>
    obtain ⟨p₂, hkeys, hblock⟩ := bind_eq_ok.mp hblock
    cases hblock
    obtain ⟨hsame, hmirrored⟩ := foldlM_writeSentinel_keeps (deleteMatch targetId)
      (fun _ key h => ⟨⟨rfl, rfl, rfl, rfl⟩, h.deleteMatch targetId key⟩) h₀.2 hkeys
    exact ⟨h₀.1.of_sameTargets hsame, hmirrored⟩
  | .removeAllKeysForTarget targetId, _, hblock =>
    cases hblock
    exact ⟨h₀.1.of_sameTargets (sameTargets_removeAllKeysForTarget _ targetId),
      h₀.2.removeAllKeysForTarget targetId⟩

/-- From an empty cache on, after any calls that keep to the contract: the index and the metadata
fit the rows of `target`; `GetTarget` returns the one entry whose target is equal to the one that is
asked for, among those with its canonical id; and but for the sentinel rows, `document_target` and
`target_document` have the same rows. -/
theorem targetCache_consistent (htargets : p.tables.targets = .empty)
    (hqueryTargets : p.tables.queryTargets = .empty)
    (htargetDocuments : p.tables.targetDocuments = .empty)
    (hdocumentTargets : p.tables.documentTargets = .empty)
    (hglobal : p.tables.targetGlobal = some p.metadata) (hcount : p.metadata.targetCount = 0)
    {calls : List TargetCacheCall} {s : LevelDbPersistence} {answers : List Unit}
    (hcalls : Along (targetCacheStep canonicalId decode) (Contract canonicalId decode) p calls)
    (hrun : runAll (targetCacheStep canonicalId decode) p calls = .ok (s, answers)) :
    (∀ text id, s.tables.queryTargets.get? (toLex (text, id)) = some () ↔
      ∃ data, s.tables.targets.get? id = some data ∧
        canonicalId data.target = text) ∧
    (s.tables.targets.entries.length < 2 ^ 31 →
      s.tables.targetGlobal.map (·.targetCount) = some (s.tables.targets.entries.length : Int)) ∧
    (∀ target, ∃ found, s.getTarget canonicalId decode target = .ok found ∧
      ∀ data, found = some data ↔
        s.tables.targets.get? data.targetId = some data ∧
          canonicalId data.target = canonicalId target ∧
          data.target.equals target) ∧
    ∀ key id, id ≠ 0 → ((s.tables.documentTargets.get? (toLex (key, id))).isSome ↔
      (s.tables.targetDocuments.get? (toLex (id, key))).isSome) := by
  have hstart : p.TargetsInv canonicalId decode ∧ p.Mirrored := by
    refine ⟨.of_empty htargets hqueryTargets hglobal hcount, fun key id _ => ?_⟩
    simp [hdocumentTargets, htargetDocuments]
  obtain ⟨htargetsInv, hmirrored⟩ := runAll_invariant_along
    (fun s => s.TargetsInv canonicalId decode ∧ s.Mirrored)
    (fun _ _ _ _ hs hcontract hok => targetCacheStep_keeps hs hcontract hok) hstart hcalls hrun
  refine ⟨htargetsInv.index, fun hroom => ?_, htargetsInv.getTarget, hmirrored⟩
  rw [htargetsInv.persisted, htargetsInv.count, Int.bmod_eq_of_le (by omega) (by omega)]

namespace SharedIds

def start : LevelDbPersistence :=
  { empty with tables := { LevelDbTables.empty with targetGlobal := some .default } }

def textOf (target : Target) : Bytes :=
  target.path.flatten ++ target.filters.flatMap fun
    | .field _ _ (.geoPoint point) =>
      if point.latitude.toBits < 0x8000000000000000 then ascii "+" else ascii "-"
    | _ => []

/-- The name of a field may have no zero byte, and of the target of a document only the path is
written. -/
def readBack (row : TargetData) : Option TargetData :=
  let parses := row.target.filters.all fun
    | .field path _ _ => 0 ∉ path.flatten
    | _ => true
  if row.target.isDocumentQuery then
    some { row with target :=
      { row.target with limit := .maxValue, startAt := none, endAt := none } }
  else if parses then some row
  else none

def collection (name : String) (limit : Int32) : Target :=
  ⟨[ascii name], none, [], [⟨.keyFieldPath, .ascending⟩], limit, none, none⟩

def rooms : TargetData := .create (collection "rooms" .maxValue) 2 1 .listen

def firstRoom : TargetData := .create (collection "rooms" 1) 4 2 .listen

def halls : TargetData := .create (collection "halls" .maxValue) 6 3 .listen

def room : DocumentKey := .inCollection (ascii "rooms") (ascii "a")

/-- `rooms` is used again, and all that is older than that and not in use is removed. -/
def calls : List TargetCacheCall :=
  [.addTarget rooms, .addTarget firstRoom, .addTarget halls, .addMatchingKeys {room} 2,
    .updateTarget (withSequenceNumber rooms 4),
    .removeTargets 3 (OrdMap.empty.insert 4 firstRoom)]

theorem sort_room : ({room} : DocumentKeySet).sort = [room] := Finset.sort_singleton ..

end SharedIds

open SharedIds in
theorem targetCache_consistent_sharedIds : ∃ s answers,
    runAll (targetCacheStep textOf readBack) start calls = .ok (s, answers) ∧
    s.tables.targetGlobal.map (·.targetCount) = some 2 ∧
    s.getTarget textOf readBack firstRoom.target = .ok (some firstRoom) := by
  obtain ⟨⟨s, answers⟩, hrun, hlength, hrow⟩ : ∃ r,
      runAll (targetCacheStep textOf readBack) start calls = .ok r ∧
      r.1.tables.targets.entries.length = 2 ∧ r.1.tables.targets.get? 4 = some firstRoom := by
    simp only [calls, runAll, targetCacheStep, addMatchingKeys, sort_room]
    exact ⟨_, rfl, rfl, rfl⟩
  have hcontract : Along (targetCacheStep textOf readBack) (Contract textOf readBack) start
      calls := by
    refine ⟨⟨by decide +kernel, rfl⟩, fun p₁ _ h₁ => ?_⟩
    cases h₁
    refine ⟨⟨by decide +kernel, rfl⟩, fun p₂ _ h₂ => ?_⟩
    cases h₂
    refine ⟨⟨by decide +kernel, rfl⟩, fun p₃ _ h₃ => ⟨trivial, fun p₄ _ h₄ => ?_⟩⟩
    cases h₃
    simp only [targetCacheStep, addMatchingKeys, sort_room] at h₄
    cases h₄
    exact ⟨⟨by decide +kernel, rfl⟩, fun _ _ _ => ⟨trivial, fun _ _ _ => trivial⟩⟩
  obtain ⟨-, hcount, hget, -⟩ := targetCache_consistent rfl rfl rfl rfl rfl rfl hcontract hrun
  refine ⟨s, answers, hrun, ?_, ?_⟩
  · rw [hcount (by rw [hlength]; decide), hlength]
    rfl
  · obtain ⟨found, hfound, hiff⟩ := hget firstRoom.target
    rw [hfound, (hiff firstRoom).mpr ⟨hrow, rfl, Target.equals_isEquivalence.refl _⟩]

namespace SharedIds

def Ends (calls : List TargetCacheCall) (holds : LevelDbPersistence → Prop) : Prop :=
  ∃ s answers, runAll (targetCacheStep textOf readBack) start calls = .ok (s, answers) ∧ holds s

def filtered (name : Bytes) (value : FieldValue) : TargetData :=
  .create { collection "rooms" .maxValue with filters := [.field [name] .equal value] } 2 1 .listen

theorem valid_zero : ((0 : Float).isNaN = false ∧ -90 ≤ (0 : Float) ∧ (0 : Float) ≤ 90) ∧
    ((0 : Float).isNaN = false ∧ -180 ≤ (0 : Float) ∧ (0 : Float) ≤ 180) := by
  decide +kernel

def minusZero : Float := .ofBits 0x8000000000000000

theorem valid_minusZero : (minusZero.isNaN = false ∧ -90 ≤ minusZero ∧ minusZero ≤ 90) ∧
    ((0 : Float).isNaN = false ∧ -180 ≤ (0 : Float) ∧ (0 : Float) ≤ 180) := by
  decide +kernel

def document : TargetData :=
  .create ⟨[ascii "rooms", ascii "a"], none, [], [⟨.keyFieldPath, .ascending⟩], 1, none, none⟩ 2 1
    .listen

def numbered (i : Nat) : TargetData := .create (collection "rooms" (.ofNat i)) (-(i + 1)) 1 .listen

theorem eq_of_equals_numbered {i j : Nat} (hi : i < 2 ^ 31) (hj : j < 2 ^ 31)
    (h : (numbered i).target.equals (numbered j).target) : i = j := by
  have hlimit : Int32.ofNat i = Int32.ofNat j := by
    simp only [Target.equals, Bool.and_eq_true, beq_iff_eq] at h
    exact h.1.1.2
  have hint := congrArg Int32.toInt hlimit
  rw [Int32.toInt_ofNat_of_lt hi, Int32.toInt_ofNat_of_lt hj] at hint
  exact Int.ofNat_inj.mp hint

theorem ends_addTargets {n : Nat} (hn : n ≤ 2 ^ 31) :
    Ends ((range n).map fun i => .addTarget (numbered i)) fun s =>
      s.TargetsInv textOf readBack ∧ s.currentSequenceNumber = none ∧
      s.tables.targets.entries.length = n ∧
      ∀ id row, s.tables.targets.get? id = some row → ∃ i < n, row = numbered i := by
  induction n with
  | zero =>
    refine ⟨start, [], rfl, .of_empty rfl rfl rfl rfl, rfl, rfl, fun id row hget => ?_⟩
    simp [start, LevelDbTables.empty] at hget
  | succ n ih =>
    obtain ⟨s, answers, hrun, hinv, hfree, hlength, hrows⟩ := ih (by omega)
    have hnew : s.IsNew textOf (numbered n) := by
      refine ⟨?_, fun id row hget _ hequals => ?_⟩
      · by_contra hsome
        obtain ⟨row, hrow⟩ := Option.ne_none_iff_exists'.mp hsome
        obtain ⟨i, hi, rfl⟩ := hrows _ row hrow
        have hid : -((i : Int) + 1) = -(n + 1) := hinv.keyed _ _ hrow
        omega
      · obtain ⟨i, hi, rfl⟩ := hrows id row hget
        exact hi.ne (eq_of_equals_numbered (by omega) (by omega) hequals)
    have hstep : runAll (targetCacheStep textOf readBack) s [.addTarget (numbered n)] =
        .ok ((addTarget textOf s.started (numbered n)).onTransactionCommitted, [()]) := by
      rw [runAll, targetCacheStep, run_eq hfree rfl]
      rfl
    have hrun' := runAll_append_eq_ok.mpr ⟨s, answers, [()], hrun, hstep, rfl⟩
    rw [Ends, range_succ, map_append]
    refine ⟨_, _, hrun', ?_, rfl, ?_, fun id row hget => ?_⟩
    · exact (hinv.addTarget hnew rfl).of_sameTargets ⟨rfl, rfl, rfl, rfl⟩
    · exact (length_entries_insert_of_none hnew.1 _).trans (congrArg Nat.succ hlength)
    · rcases get?_insert_eq_some.mp hget with ⟨-, rfl⟩ | ⟨-, hget⟩
      · exact ⟨n, n.lt_succ_self, rfl⟩
      · obtain ⟨i, hi, heq⟩ := hrows id row hget
        exact ⟨i, hi.trans n.lt_succ_self, heq⟩

end SharedIds

open SharedIds in
/-- What the contract and the other conditions are for: targets that are added twice, updated or
removed without an entry or as another target, sentinel rows, points that differ in the sign of a
zero, rows that are not parsed or read back as another target, and a number of more than 31 bits. -/
theorem not_targetCache_consistent : Ends [.addTarget rooms, .addTarget rooms] (fun s =>
      s.tables.targetGlobal.map (·.targetCount) = some 2 ∧ s.tables.targets.entries.length = 1) ∧
    Ends [.addTarget rooms, .addTarget { rooms with targetId := 8 }] (fun s =>
      s.tables.targets.entries.map (fun row => (row.1, row.2.target.equals rooms.target)) =
        [(2, true), (8, true)]) ∧
    Ends [.addTarget rooms, .addTarget { halls with targetId := 2 }] (fun s =>
      s.tables.queryTargets.get? (toLex (ascii "rooms", 2)) = some () ∧
        (s.tables.targets.get? 2).map (textOf ·.target) = some (ascii "halls")) ∧
    Ends [.updateTarget halls] (fun s =>
      s.tables.targets.entries.length = 1 ∧ s.tables.queryTargets.entries = []) ∧
    Ends [.addTarget rooms, .updateTarget { halls with targetId := 2 }] (fun s =>
      s.tables.queryTargets.get? (toLex (ascii "rooms", 2)) = some () ∧
        (s.tables.targets.get? 2).map (textOf ·.target) = some (ascii "halls")) ∧
    Ends [.removeTarget halls] (fun s =>
      s.tables.targetGlobal.map (·.targetCount) = some (-1) ∧
        s.tables.targets.entries.length = 0) ∧
    Ends [.addTarget rooms, .removeTarget { halls with targetId := 2 }] (fun s =>
      s.getTarget textOf readBack rooms.target =
        .error ⟨"Dangling query-target reference found"⟩) ∧
    Ends [.addMatchingKeys {room} 2] (fun s =>
      (s.tables.documentTargets.get? (toLex (room, 0))).isSome ∧
        s.tables.targetDocuments.get? (toLex (0, room)) = none) ∧
    Ends [.addTarget (filtered (ascii "at") (.geoPoint ⟨0, 0, valid_zero⟩))] (fun s =>
      ∃ target, (filtered (ascii "at") (.geoPoint ⟨0, 0, valid_zero⟩)).target.equals target ∧
        s.getTarget textOf readBack target = .ok none) ∧
    Ends [.addTarget (filtered [0] .null)] (fun s =>
      s.getTarget textOf readBack (filtered [0] .null).target =
          .error ⟨"Target proto failed to parse"⟩ ∧
        targetCacheStep textOf readBack s (.removeTargets 0 .empty) =
          .error ⟨"Target proto failed to parse"⟩) ∧
    Ends [.addTarget document] (fun s =>
      s.getTarget textOf readBack document.target = .ok none) ∧
    Ends ((range (2 ^ 31)).map fun i => .addTarget (numbered i)) (fun s =>
      s.tables.targetGlobal.map (·.targetCount) = some (-2 ^ 31) ∧
        s.tables.targets.entries.length = 2 ^ 31) := by
  refine ⟨⟨_, _, rfl, rfl, rfl⟩, ⟨_, _, rfl, by decide +kernel⟩, ⟨_, _, rfl, rfl, rfl⟩,
    ⟨_, _, rfl, rfl, rfl⟩, ⟨_, _, rfl, rfl, rfl⟩, ⟨_, _, rfl, rfl, rfl⟩, ⟨_, _, rfl, rfl⟩, ?_,
    ⟨_, _, rfl, (filtered (ascii "at") (.geoPoint ⟨minusZero, 0, valid_minusZero⟩)).target,
      by decide +kernel, rfl⟩,
    ⟨_, _, rfl, rfl, rfl⟩, ⟨_, _, rfl, rfl⟩, ?_⟩
  · simp only [Ends, runAll, targetCacheStep, addMatchingKeys, sort_room]
    exact ⟨_, _, rfl, rfl, rfl⟩
  · obtain ⟨s, answers, hrun, hinv, -, hlength, -⟩ := ends_addTargets le_rfl
    refine ⟨s, answers, hrun, ?_, hlength⟩
    rw [hinv.persisted, hinv.count, hlength]
    rfl

end LevelDbPersistence

end Firebase.Firestore.Local
