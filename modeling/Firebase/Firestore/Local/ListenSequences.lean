import Firebase.Firestore.Local.LocalStoreWrites

/-!
# The numbers of the listen sequence

A transaction of the LRU persistence writes the next number of a `ListenSequence`
(`listen_sequence.h`) to the sentinel rows of the documents and to the rows of the targets that it
touches.  When the database is opened, the sequence goes on after the highest number of a target,
which is all that `target_global` keeps.

`NumberedStore` is the persistence with a record of all numbers that were ever committed.
Its steps are the transactions, whatever they write, and the restarts of the process.
-/

namespace Firebase.Firestore.Local

open Lib Util Model Firestore.Core Remote OrdMap List LevelDbTables

/-! ## Numbers in rows -/

namespace LevelDbTables

def sentinelNumbers (t : LevelDbTables) : List Int := t.documentTargets.entries.filterMap Prod.snd

def targetNumbers (t : LevelDbTables) : List Int :=
  t.targets.entries.map fun row => row.2.sequenceNumber

variable {t : LevelDbTables} {n : Int}

theorem mem_sentinelNumbers :
    n ∈ t.sentinelNumbers ↔ ∃ k, t.documentTargets.get? k = some (some n) := by
  rw [sentinelNumbers, mem_filterMap]
  constructor
  · rintro ⟨⟨k, value⟩, hmem, rfl⟩
    exact ⟨k, mem_entries.mp hmem⟩
  · rintro ⟨k, hget⟩
    exact ⟨(k, some n), mem_entries.mpr hget, rfl⟩

theorem mem_targetNumbers : n ∈ t.targetNumbers ↔
    ∃ id data, t.targets.get? id = some data ∧ data.sequenceNumber = n := by
  rw [targetNumbers, mem_map]
  constructor
  · rintro ⟨⟨id, data⟩, hmem, rfl⟩
    exact ⟨id, data, mem_entries.mp hmem, rfl⟩
  · rintro ⟨id, data, hget, rfl⟩
    exact ⟨(id, data), mem_entries.mpr hget, rfl⟩

end LevelDbTables

theorem TargetGlobal.highest_update (metadata : TargetGlobal) (data : TargetData) :
    (metadata.update data).2.highestListenSequenceNumber =
      max metadata.highestListenSequenceNumber data.sequenceNumber := by
  dsimp only [TargetGlobal.update]
  split_ifs with hnumber
  · exact (max_eq_right (of_decide_eq_true hnumber).le).symm
  · exact (max_eq_left (by simpa using hnumber)).symm

theorem TargetGlobal.update_of_not (metadata : TargetGlobal) (data : TargetData)
    (h : (metadata.update data).1 = false) : (metadata.update data).2 = metadata := by
  obtain ⟨hid, hnumber⟩ := Bool.or_eq_false_iff.mp h
  dsimp only [TargetGlobal.update]
  rw [hid, hnumber]
  rfl

/-! ## Numbers that are written -/

namespace LevelDbPersistence

variable {scope : WriteScope} {p p' : LevelDbPersistence}

/-- What a write does to the numbers: no row gets another number than that of the transaction, and
the highest number of the targets is in the metadata. -/
structure WritesNumbers (p p' : LevelDbPersistence) : Prop where
  previous : p'.previousSequenceNumber = p.previousSequenceNumber
  current : p'.currentSequenceNumber = p.currentSequenceNumber
  version : p'.tables.version = p.tables.version
  saved : p.tables.targetGlobal = some p.metadata → p'.tables.targetGlobal = some p'.metadata
  highest : p.metadata.highestListenSequenceNumber ≤ p'.metadata.highestListenSequenceNumber
  highest_eq : p'.metadata.highestListenSequenceNumber = p.metadata.highestListenSequenceNumber ∨
    p.currentSequenceNumber = some p'.metadata.highestListenSequenceNumber
  sentinels : ∀ k n, p'.tables.documentTargets.get? k = some (some n) →
    p.tables.documentTargets.get? k = some (some n) ∨ p.currentSequenceNumber = some n
  targets : ∀ id targetData, p'.tables.targets.get? id = some targetData →
    p.tables.targets.get? id = some targetData ∨
      targetData.sequenceNumber ≤ p'.metadata.highestListenSequenceNumber

namespace WritesNumbers

theorem refl (p : LevelDbPersistence) : WritesNumbers p p where
  previous := rfl
  current := rfl
  version := rfl
  saved := id
  highest := le_rfl
  highest_eq := .inl rfl
  sentinels _ _ h := .inl h
  targets _ _ h := .inl h

theorem trans {p₁ p₂ p₃ : LevelDbPersistence} (h : WritesNumbers p₁ p₂)
    (h' : WritesNumbers p₂ p₃) : WritesNumbers p₁ p₃ where
  previous := h'.previous.trans h.previous
  current := h'.current.trans h.current
  version := h'.version.trans h.version
  saved hsaved := h'.saved (h.saved hsaved)
  highest := h.highest.trans h'.highest
  highest_eq := by
    rcases h'.highest_eq with heq | hcurrent
    · rw [heq]
      exact h.highest_eq
    · exact .inr (h.current.symm.trans hcurrent)
  sentinels k n hget := by
    rcases h'.sentinels k n hget with hget | hcurrent
    · exact h.sentinels k n hget
    · exact .inr (h.current.symm.trans hcurrent)
  targets id data hget := by
    rcases h'.targets id data hget with hget | hle
    · exact (h.targets id data hget).imp_right h'.highest.trans'
    · exact .inr hle

/-- The row of a target, with the metadata updated. -/
theorem of_target {data : TargetData} {metadata : TargetGlobal} {targetGlobal queryTargets}
    (hnumber : p.currentSequenceNumber = some data.sequenceNumber)
    (hglobal : p.tables.targetGlobal = some p.metadata → targetGlobal = some metadata)
    (hhighest : metadata.highestListenSequenceNumber =
      max p.metadata.highestListenSequenceNumber data.sequenceNumber) :
    WritesNumbers p { p with
      metadata
      tables := { p.tables with
        targets := p.tables.targets.insert data.targetId data
        targetGlobal
        queryTargets } } := by
  refine { refl p with
    saved := hglobal
    highest := hhighest ▸ le_max_left _ _
    highest_eq := ?_
    targets := fun id targetData' hget => ?_ }
  · rcases max_choice p.metadata.highestListenSequenceNumber data.sequenceNumber with h | h
    · exact .inl (hhighest.trans h)
    · exact .inr (by rw [hhighest, h, hnumber])
  · rcases get?_insert_eq_some.mp hget with ⟨-, rfl⟩ | ⟨-, hget⟩
    · exact .inr (hhighest ▸ le_max_right _ _)
    · exact .inl hget

end WritesNumbers

open WritesNumbers

theorem updateTarget_tables (p : LevelDbPersistence) (data : TargetData) :
    ∃ targetGlobal, p.updateTarget data = { p with
        metadata := (p.metadata.update data).2
        tables := { p.tables with
          targets := p.tables.targets.insert data.targetId data, targetGlobal } } ∧
      (p.tables.targetGlobal = some p.metadata →
        targetGlobal = some (p.metadata.update data).2) := by
  unfold updateTarget
  dsimp only
  split_ifs with hupdated
  · exact ⟨_, rfl, fun _ => rfl⟩
  · refine ⟨_, rfl, fun hsaved => ?_⟩
    rw [hsaved]
    exact congrArg some (p.metadata.update_of_not data
      (Bool.eq_false_of_not_eq_true hupdated)).symm

/-- No write gives a row another number than that of the transaction. -/
theorem Write.writesNumbers (h : Write scope p p') : WritesNumbers p p' := by
  cases h with
  | startMutationQueue | setLastStreamToken | removeDocument => exact { refl p with }
  | addMutationBatch hbases hmuts h =>
    obtain ⟨_, _, _, _, _, rfl⟩ := addMutationBatch_eq h
    exact { refl p with }
  | removeMutationBatch hbatch h =>
    obtain ⟨_, _, rows, rfl, hrows⟩ := removeMutationBatch_eq h
    refine { refl p with sentinels := fun k n hget => ?_ }
    rw [hrows] at hget
    split_ifs at hget
    · exact .inr (Option.some.inj hget)
    · exact .inl hget
  | addDocument hkey h =>
    obtain ⟨-, hindex⟩ := addDocument_ok h
    obtain ⟨-, rows, rfl, -⟩ := addToCollectionParentIndex_ok hindex
    exact { refl p with }
  | removeOrphan refs upperBound count hkey =>
    next report =>
    rcases removeOrphan_eq refs upperBound (p, count) report with heq | heq
    · rw [heq]
      exact .refl p
    · rw [heq]
      exact { refl p with
        sentinels := fun k n hget => .inl (get?_erase_eq_some.mp hget).2 }
  | writeSentinel h =>
    obtain ⟨m, hm, rfl⟩ := writeSentinel_ok h
    refine { refl p with sentinels := fun k n hget => ?_ }
    rcases get?_insert_eq_some.mp hget with ⟨-, heq⟩ | ⟨-, hget⟩
    · exact .inr (hm.trans heq)
    · exact .inl hget
  | addMatch hid h =>
    obtain ⟨m, hm, rfl⟩ := writeSentinel_ok h
    refine { refl p with sentinels := fun k n hget => ?_ }
    dsimp only [putMatch] at hget
    rw [get?_insert, get?_insert] at hget
    split_ifs at hget
    · exact .inr (hm.trans (Option.some.inj hget))
    · cases Option.some.inj hget
    · exact .inl hget
  | removeMatch hid h =>
    obtain ⟨m, hm, rfl⟩ := writeSentinel_ok h
    refine { refl p with sentinels := fun k n hget => ?_ }
    dsimp only [deleteMatch] at hget
    rw [get?_insert, get?_erase] at hget
    split_ifs at hget
    · exact .inr (hm.trans (Option.some.inj hget))
    · exact .inl hget
  | addTarget canonicalId hid h =>
    exact .of_target h (fun _ => rfl) (TargetGlobal.highest_update _ _)
  | updateTarget hid h =>
    next data =>
    obtain ⟨_, heq, hsaved⟩ := p.updateTarget_tables data
    rw [heq]
    exact .of_target h hsaved (TargetGlobal.highest_update _ _)
  | removeTarget canonicalId hrow =>
    next id data =>
    obtain ⟨_, rows, _, heq, hold, -⟩ := removeTarget_eq canonicalId p data
    rw [heq]
    exact { refl p with
      saved := fun _ => rfl
      sentinels := fun k n hget => .inl (hold k _ hget)
      targets := fun id _ hget => .inl (get?_erase_eq_some.mp hget).2 }
  | setLastRemoteSnapshotVersion version =>
    exact { refl p with saved := fun _ => rfl }

theorem Writes.writesNumbers (h : Writes scope p p') : WritesNumbers p p' := by
  induction h with
  | refl => exact .refl p
  | tail _ hwrite ih => exact ih.trans hwrite.writesNumbers

end LevelDbPersistence

/-! ## Runs -/

open LevelDbPersistence

/-- The block of a transaction: it does nothing but the writes of the local store. -/
structure LruBlock where
  run : LevelDbPersistence → Hard LevelDbPersistence
  writes : ∀ p p', run p = .ok p' → Writes .univ p p'

/-- What happens to the persistence: a transaction, or the end of the process and the first
transaction after the database was opened again. -/
inductive LruEvent where
  | transaction (block : LruBlock)
  | restart (block : LruBlock)

def LruEvent.block : LruEvent → LruBlock
  | .transaction block => block
  | .restart block => block

/-- The persistence, with all numbers that were committed in sentinel rows and in rows of targets,
whether they are still there or not. -/
structure NumberedStore where
  persistence : LevelDbPersistence
  sentinelNumbers : List Int
  targetNumbers : List Int

variable {answer : Unit}

namespace NumberedStore

def new : NumberedStore := ⟨LevelDbPersistence.new, [], []⟩

section

variable (s : NumberedStore)

def opened : LruEvent → Hard LevelDbPersistence
  | .transaction _ => .ok s.persistence
  | .restart _ => LevelDbPersistence.create s.persistence.tables

def step (event : LruEvent) : Hard (NumberedStore × Unit) := do
  let p ← s.opened event
  let (p, _) ← p.run fun p => do return (← event.block.run p, ())
  return (⟨p, s.sentinelNumbers ++ p.tables.sentinelNumbers,
    s.targetNumbers ++ p.tables.targetNumbers⟩, ())

def numberUsed (event : LruEvent) : Hard Int := do
  let p ← s.opened event
  let p ← p.onTransactionStarted
  p.sequenceNumber

/-- The number is above all that were committed before. -/
def Fresh (event : LruEvent) : Prop :=
  ∀ n, s.numberUsed event = .ok n → ∀ m ∈ s.sentinelNumbers ++ s.targetNumbers, m < n

/-- A restart finds a target with a number that none of the sentinel rows has exceeded. -/
def RestartsAbove : LruEvent → Prop
  | .transaction _ => True
  | .restart _ => ∀ m ∈ s.sentinelNumbers, m ≤ s.persistence.tables.highestSequenceNumber

end

/-- All numbers were given out by the sequence, and those of targets are not above the highest one
in the metadata. -/
structure Counted (s : NumberedStore) : Prop where
  idle : s.persistence.currentSequenceNumber = none
  version : s.persistence.tables.version = some kSchemaVersion
  saved : s.persistence.tables.targetGlobal = some s.persistence.metadata
  highest : s.persistence.metadata.highestListenSequenceNumber ≤
    s.persistence.previousSequenceNumber
  sentinels : ∀ m ∈ s.sentinelNumbers, m ≤ s.persistence.previousSequenceNumber
  sentinelRows : ∀ m ∈ s.persistence.tables.sentinelNumbers, m ∈ s.sentinelNumbers
  targets : ∀ m ∈ s.targetNumbers, m ≤ s.persistence.metadata.highestListenSequenceNumber
  targetRows : ∀ m ∈ s.persistence.tables.targetNumbers, m ∈ s.targetNumbers

variable {s s' : NumberedStore} {event : LruEvent}

theorem counted_new : new.Counted where
  idle := rfl
  version := rfl
  saved := rfl
  highest := le_rfl
  sentinels _ h := nomatch h
  sentinelRows _ h := nomatch h
  targets _ h := nomatch h
  targetRows _ h := nomatch h

/-- An event is a transaction on the persistence that was opened for it. -/
theorem step_ok (h : s.step event = .ok (s', answer)) :
    ∃ p p', s.opened event = .ok p ∧ Transaction .univ p p' ∧
      s' = ⟨p', s.sentinelNumbers ++ p'.tables.sentinelNumbers,
        s.targetNumbers ++ p'.tables.targetNumbers⟩ := by
  obtain ⟨p, hopened, h⟩ := bind_eq_ok.mp h
  obtain ⟨⟨p', _⟩, hrun, h⟩ := bind_eq_ok.mp h
  refine ⟨p, p', hopened, transaction_of_run (fun p₀ p₁ _ hblock => ?_) hrun, (ok_inj h).1.symm⟩
  obtain ⟨p₂, hwrites, hblock⟩ := bind_eq_ok.mp hblock
  cases hblock
  exact event.block.writes _ _ hwrites

/-- A transaction commits no number but its own and those that were there before. -/
theorem Counted.commit {p p' : LevelDbPersistence} {sentinelNumbers targetNumbers : List Int}
    (h : Counted ⟨p, sentinelNumbers, targetNumbers⟩) (htx : Transaction .univ p p') :
    Counted ⟨p', sentinelNumbers ++ p'.tables.sentinelNumbers,
      targetNumbers ++ p'.tables.targetNumbers⟩ := by
  obtain ⟨-, p₁, hwrites, rfl⟩ := htx
  have hnumbers := hwrites.writesNumbers
  have hprevious : p₁.previousSequenceNumber = p.previousSequenceNumber + 1 := hnumbers.previous
  have hown : ∀ n, p.started.currentSequenceNumber = some n → n = p₁.previousSequenceNumber := by
    intro n hn
    rw [hprevious]
    exact (Option.some.inj hn).symm
  have hbelow : ∀ m, m ≤ p.previousSequenceNumber → m ≤ p₁.previousSequenceNumber := by
    intro m hm
    rw [hprevious]
    exact hm.trans (lt_add_one _).le
  have hsentinels : ∀ m ∈ p₁.tables.sentinelNumbers, m ≤ p₁.previousSequenceNumber := by
    intro m hm
    obtain ⟨k, hget⟩ := mem_sentinelNumbers.mp hm
    rcases hnumbers.sentinels k m hget with hold | hcurrent
    · exact hbelow m (h.sentinels m (h.sentinelRows m
        (mem_sentinelNumbers.mpr ⟨k, hold⟩)))
    · exact (hown m hcurrent).le
  have htargets : ∀ m ∈ p₁.tables.targetNumbers, m ≤ p₁.metadata.highestListenSequenceNumber := by
    intro m hm
    obtain ⟨id, data, hget, rfl⟩ := mem_targetNumbers.mp hm
    rcases hnumbers.targets id data hget with hold | hle
    · exact (h.targets _ (h.targetRows _
        (mem_targetNumbers.mpr ⟨id, data, hold, rfl⟩))).trans hnumbers.highest
    · exact hle
  exact {
    idle := rfl
    version := hnumbers.version.trans h.version
    saved := hnumbers.saved h.saved
    highest := by
      rcases hnumbers.highest_eq with heq | hcurrent
      · exact hbelow _ (heq.le.trans h.highest)
      · exact (hown _ hcurrent).le
    sentinels := fun m hm => (mem_append.mp hm).elim
      (fun hm => hbelow m (h.sentinels m hm)) (hsentinels m)
    sentinelRows := fun m hm => mem_append_right _ hm
    targets := fun m hm => (mem_append.mp hm).elim
      (fun hm => (h.targets m hm).trans hnumbers.highest) (htargets m)
    targetRows := fun m hm => mem_append_right _ hm }

/-- A database that is opened again goes on after the highest number of a target. -/
theorem Counted.opened (h : s.Counted) (event : LruEvent) :
    ∃ p, s.opened event = .ok p ∧ p.currentSequenceNumber = none ∧
      (RestartsAbove s event → Counted { s with persistence := p }) ∧
      ((∀ m ∈ s.sentinelNumbers ++ s.targetNumbers, m < p.previousSequenceNumber + 1) ↔
        s.RestartsAbove event) := by
  cases event with
  | transaction block =>
    refine ⟨s.persistence, rfl, h.idle, fun _ => h, iff_true_intro fun m hm => ?_⟩
    apply Int.lt_add_one_of_le
    rcases mem_append.mp hm with hm | hm
    · exact h.sentinels m hm
    · exact (h.targets m hm).trans h.highest
  | restart block =>
    have habove : s.RestartsAbove (.restart block) ↔ ∀ m ∈ s.sentinelNumbers,
        m ≤ s.persistence.metadata.highestListenSequenceNumber := by
      rw [RestartsAbove, highestSequenceNumber, h.saved]
      rfl
    refine ⟨_, create_eq h.version h.saved, rfl, fun hrestart => ?_, ?_⟩
    · exact { h with
        idle := rfl
        highest := le_rfl
        sentinels := habove.mp hrestart }
    · rw [habove]
      constructor
      · exact fun hall m hm => Int.le_of_lt_add_one (hall m (mem_append_left _ hm))
      · intro hall m hm
        exact Int.lt_add_one_of_le ((mem_append.mp hm).elim (hall m) (h.targets m))

theorem Counted.fresh_iff (h : s.Counted) (event : LruEvent) :
    s.Fresh event ↔ s.RestartsAbove event := by
  obtain ⟨p, hopened, hidle, -, habove⟩ := h.opened event
  have hnumber : s.numberUsed event = .ok (p.previousSequenceNumber + 1) := by
    rw [numberUsed, hopened, ok_bind, onTransactionStarted, hidle]
    rfl
  rw [← habove, Fresh, hnumber]
  constructor
  · exact fun hfresh => hfresh _ rfl
  · intro hall n hn
    rwa [← Except.ok.inj hn]

theorem Counted.step (h : s.Counted) (hrestart : s.RestartsAbove event)
    (hok : s.step event = .ok (s', answer)) : s'.Counted := by
  obtain ⟨p, p', hopened, htx, rfl⟩ := step_ok hok
  obtain ⟨p₁, hopened₁, -, hcounted, -⟩ := h.opened event
  obtain rfl := Except.ok.inj (hopened.symm.trans hopened₁)
  exact (hcounted hrestart).commit htx

/-- In every run of transactions and restarts of a new database, all transactions use numbers above
those that were committed before, exactly if every restart finds the highest number of a target not
exceeded by a number that was ever committed in a sentinel row. -/
theorem fresh_iff_restartsAbove (events : List LruEvent) :
    Along step Fresh new events ↔ Along step RestartsAbove new events :=
  along_iff_along Counted (fun _ event h => h.fresh_iff event)
    (fun _ _ _ _ h hrestart hok => h.step hrestart hok) counted_new events

end NumberedStore

/-! ## The local store -/

open Classical in
noncomputable def LruBlock.ofWrites {p p' : LevelDbPersistence} (h : Writes .univ p p') :
    LruBlock where
  run q := if q = p then .ok p' else .error ⟨"Not in this state"⟩
  writes q q' hok := by
    split_ifs at hok with heq
    · cases hok
      rwa [heq]

namespace NumberedStore

variable {s : NumberedStore} {p p' : LevelDbPersistence}

/-- Every transaction of the persistence is an event. -/
theorem exists_step_of_transaction (h : Transaction .univ p p') (event : LruBlock → LruEvent)
    (hblock : ∀ block, (event block).block = block)
    (hopened : ∀ block, s.opened (event block) = .ok p) :
    ∃ block s', s.step (event block) = .ok (s', ()) ∧ s'.persistence = p' := by
  obtain ⟨hidle, p₁, hwrites, rfl⟩ := h
  have hwritten : (LruBlock.ofWrites hwrites).run p.started = .ok p₁ := if_pos rfl
  have hrun : (p.run fun p => do return (← (LruBlock.ofWrites hwrites).run p, ())) =
      .ok (p₁.onTransactionCommitted, ()) :=
    run_eq hidle (by rw [hwritten]; rfl)
  have hstep : s.step (event (.ofWrites hwrites)) = .ok (⟨p₁.onTransactionCommitted,
      s.sentinelNumbers ++ p₁.tables.sentinelNumbers,
      s.targetNumbers ++ p₁.tables.targetNumbers⟩, ()) := by
    rw [step, hopened, ok_bind, hblock, hrun]
    rfl
  exact ⟨.ofWrites hwrites, _, hstep, rfl⟩

/-- The transactions of an operation are a run. -/
theorem exists_run_of_transactions (h : LocalStore.Transactions .univ p p')
    (hs : s.persistence = p) :
    ∃ events s' answers, (∀ event ∈ events, ∃ block, event = .transaction block) ∧
      runAll step s events = .ok (s', answers) ∧ s'.persistence = p' := by
  induction h using Relation.ReflTransGen.head_induction_on generalizing s with
  | refl => exact ⟨[], s, [], forall_mem_nil _, rfl, hs⟩
  | head hfirst _ ih =>
    obtain ⟨block, s₁, hstep, hs₁⟩ := exists_step_of_transaction hfirst .transaction
      (fun _ => rfl) fun _ => congrArg Except.ok hs
    obtain ⟨events, s', answers, hevents, hrun, hs'⟩ := ih hs₁
    refine ⟨.transaction block :: events, s', () :: answers,
      forall_mem_cons.mpr ⟨⟨block, rfl⟩, hevents⟩, ?_, hs'⟩
    rw [runAll, hstep]
    dsimp only
    rw [hrun]

/-- The events of a call of the local store: one restart, or transactions. -/
def EventsOf (call : LocalStoreCall) (events : List LruEvent) : Prop :=
  match call with
  | .restart _ => ∃ block, events = [.restart block]
  | _ => ∀ event ∈ events, ∃ block, event = .transaction block

theorem exists_run_of_call {canonicalId : Target → Bytes} {store store' : LocalStore}
    {call : LocalStoreCall} (hs : s.persistence = store.persistence)
    (h : store.step canonicalId call = .ok (store', answer)) :
    ∃ events s' answers, EventsOf call events ∧ runAll step s events = .ok (s', answers) ∧
      s'.persistence = store'.persistence := by
  by_cases hrestart : ∃ userId, call = .restart userId
  · obtain ⟨userId, rfl⟩ := hrestart
    obtain ⟨store₁, hstart, h⟩ := bind_eq_ok.mp h
    cases h
    obtain ⟨p, hcreate, htx⟩ := LocalStore.start_ok hstart
    obtain ⟨block, s₁, hstep, hs₁⟩ := exists_step_of_transaction htx
      .restart (fun _ => rfl) fun _ => by rw [opened, hs, hcreate]
    exact ⟨[.restart block], s₁, [()], ⟨block, rfl⟩, by rw [runAll, hstep]; rfl, hs₁⟩
  · have hscope : LocalStore.InScope .univ call := by
      cases call <;> simp [LocalStore.InScope, WriteScope.univ]
    rcases LocalStore.step_transactions hscope (fun _ _ _ => ⟨trivial, trivial⟩) trivial
      h with htxs | ⟨userId, hcall, -⟩
    · obtain ⟨events, s', answers, hevents, hrun⟩ := exists_run_of_transactions htxs hs
      refine ⟨events, s', answers, ?_, hrun⟩
      unfold EventsOf
      split
      · exact absurd ⟨_, rfl⟩ hrestart
      · exact hevents
    · exact absurd ⟨userId, hcall⟩ hrestart

/-- Every run of the local store, from any state, is a run of transactions and restarts of its
persistence; a call gives transactions only, and the restart of the store is the one event of a
restart. -/
theorem exists_run_of_localStore {canonicalId : Target → Bytes} {store store' : LocalStore}
    {calls : List LocalStoreCall} {answers : List Unit} (hs : s.persistence = store.persistence)
    (h : runAll (LocalStore.step canonicalId) store calls = .ok (store', answers)) :
    ∃ (events : List (List LruEvent)) (s' : NumberedStore) (answers' : List Unit),
      Forall₂ EventsOf calls events ∧ runAll step s events.flatten = .ok (s', answers') ∧
        s'.persistence = store'.persistence := by
  induction calls generalizing s store answers with
  | nil =>
    cases h
    exact ⟨[], s, [], .nil, rfl, hs⟩
  | cons call calls ih =>
    obtain ⟨store₁, _, _, hstep, hrun, -⟩ := runAll_cons_eq_ok.mp h
    obtain ⟨first, s₁, answers₁, hfirst, hrun₁, hs₁⟩ := exists_run_of_call hs hstep
    obtain ⟨events, s', answers', hevents, hrun', hs'⟩ := ih hs₁ hrun
    refine ⟨first :: events, s', answers₁ ++ answers', .cons hfirst hevents, ?_, hs'⟩
    exact runAll_append_eq_ok.mpr ⟨s₁, answers₁, answers', hrun₁, hrun', rfl⟩

/-- A write, another user, and a restart. -/
theorem exists_run_of_localStore_user : ∃ store, LocalStore.start .empty [] = .ok store ∧
    ∃ store' answers, runAll (LocalStore.step fun _ => []) store
      [.writeLocally SnapshotVersion.none.timestamp TwoUsers.mutations, .handleUserChange [1],
        .restart []] = .ok (store', answers) ∧
      ∃ (events : List (List LruEvent)) (s' : NumberedStore) (answers' : List Unit),
        Forall₂ EventsOf [.writeLocally SnapshotVersion.none.timestamp TwoUsers.mutations,
          .handleUserChange [1], .restart []] events ∧
        runAll step ⟨store.persistence, [], []⟩ events.flatten = .ok (s', answers') ∧
          s'.persistence = store'.persistence := by
  obtain ⟨store, hstart, store', answers, h, -⟩ : ∃ store,
      LocalStore.start .empty [] = .ok store ∧
      ∃ store' answers, runAll (LocalStore.step fun _ => []) store
        [.writeLocally SnapshotVersion.none.timestamp TwoUsers.mutations, .handleUserChange [1],
          .restart []] = .ok (store', answers) ∧ True := by
    decide +kernel
  exact ⟨store, hstart, store', answers, h, exists_run_of_localStore rfl h⟩

end NumberedStore

/-! ## A number that is used again -/

namespace LruBlock

def startMutationQueue (userId : Bytes) : LruBlock where
  run p := .ok (p.startMutationQueue userId)
  writes p p' h := by
    cases h
    exact .single (.startMutationQueue userId)

/-- The writes of `WriteLocally`, without base mutations. -/
def addMutationBatch (localWriteTime : Timestamp) (mutations : List Mutation) : LruBlock where
  run p := Prod.fst <$> p.addMutationBatch localWriteTime [] mutations
  writes p p' h := by
    obtain ⟨⟨p₁, batch⟩, hadd, h⟩ := bind_eq_ok.mp h
    cases h
    exact .single (.addMutationBatch (fun _ h => absurd h not_mem_nil) (fun _ _ => trivial)
      hadd)

def rejectBatch (batchId : Int) : LruBlock where
  run p :=
    match p.tables.lookupMutationBatch p.queue.userId batchId with
    | some batch => p.removeMutationBatch batch
    | none => .error ⟨"Attempt to reject nonexistent batch!"⟩
  writes p p' h := by
    split at h
    · next batch hbatch => exact .single (.removeMutationBatch hbatch h)
    · cases h

end LruBlock

namespace NumberedStore

/-- The user writes a document, the write is rejected, which marks the document with the number 3,
and the process ends.  There is no target, so the first transaction after that has the number 1. -/
theorem not_fresh_rejected : ¬ Along step Fresh new [.transaction (.startMutationQueue []),
      .transaction (.addMutationBatch SnapshotVersion.none.timestamp TwoUsers.mutations),
      .transaction (.rejectBatch 1), .restart (.startMutationQueue [])] := by
  rintro ⟨-, h⟩
  have hfresh := ((h _ _ rfl).2 _ _ rfl).2 _ _ rfl
  have hlt : (3 : Int) < 1 := hfresh.1 1 rfl 3 (by decide)
  omega

end NumberedStore

end Firebase.Firestore.Local
