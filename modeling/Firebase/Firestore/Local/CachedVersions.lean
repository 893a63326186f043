import Firebase.Firestore.Local.AppliedEvents

/-!
# The versions in the remote document cache

Two operations of the local store put documents into the remote document cache: the backend's answer
to a batch (`LocalStore::ApplyBatchResult`) and the events of the watch stream
(`LocalStore::ApplyRemoteEvent`).  Each has its own guard on the version that is there.
-/

namespace Firebase.Firestore.Local

open Lib Util Model Firestore.Core Remote OrdMap

/-! ## Migrations and documents -/

namespace LevelDbTables

variable {t t' : LevelDbTables}

theorem removeMutationDocuments_remoteDocuments {userId : Bytes} {last : Int}
    (h : t.removeMutationDocuments userId last = .ok t') :
    t'.remoteDocuments = t.remoteDocuments := by
  refine foldlM_keeps LevelDbTables.remoteDocuments (fun t₁ row _ t₂ hround => ?_) h
  obtain ⟨_, -, hround⟩ := bind_eq_ok.mp hround
  rw [← Except.ok.inj hround]
  split_ifs <;> rfl

theorem ensureCollectionParentRow_remoteDocuments
    {state state' : OrdMap (Bytes ×ₗ ResourcePath) Unit × LevelDbTables} {key : DocumentKey}
    (h : ensureCollectionParentRow state key = .ok state') :
    state'.2.remoteDocuments = state.2.remoteDocuments := by
  obtain ⟨path, -, h⟩ := bind_eq_ok.mp h
  obtain ⟨⟨inserted, cache⟩, -, h⟩ := bind_eq_ok.mp h
  dsimp only at h
  split_ifs at h <;> obtain rfl := Except.ok.inj h <;> rfl

/-- No transaction of the migrations changes a document. -/
theorem commit_remoteDocuments {transaction : MigrationTransaction} {again : Bool}
    (h : t.commit transaction = .ok (t', again)) : t'.remoteDocuments = t.remoteDocuments := by
  cases transaction with
  | delete table =>
    rw [← (ok_inj h).1]
    cases table <;> rfl
  | dropQueryCache | saveDowngradeVersion version =>
    rw [← (ok_inj h).1]
    rfl
  | ensureSentinelRows =>
    obtain ⟨t₁, hrows, h⟩ := bind_eq_ok.mp h
    obtain ⟨t₂, hloop, hrows⟩ := bind_eq_ok.mp hrows
    cases hrows
    rw [← (ok_inj h).1]
    change t₂.remoteDocuments = t.remoteDocuments
    refine foldlM_keeps LevelDbTables.remoteDocuments (fun t₁ row _ t₂ hround => ?_) hloop
    obtain ⟨_, -, hround⟩ := bind_eq_ok.mp hround
    rw [← Except.ok.inj hround, ensureSentinelRow]
    split_ifs <;> rfl
  | removeAcknowledgedMutations =>
    obtain ⟨t₁, hrows, h⟩ := bind_eq_ok.mp h
    obtain ⟨t₂, hloop, hrows⟩ := bind_eq_ok.mp hrows
    cases hrows
    rw [← (ok_inj h).1]
    change t₂.remoteDocuments = t.remoteDocuments
    refine foldlM_keeps LevelDbTables.remoteDocuments (fun t₁ row _ t₂ hround => ?_) hloop
    have hsame := removeMutationDocuments_remoteDocuments hround
    exact hsame
  | ensureCollectionParentsIndex =>
    obtain ⟨t₁, hrows, h⟩ := bind_eq_ok.mp h
    obtain ⟨⟨cache₂, t₂⟩, hdocs, hrows⟩ := bind_eq_ok.mp hrows
    obtain ⟨⟨cache₃, t₃⟩, hmuts, hrows⟩ := bind_eq_ok.mp hrows
    cases hrows
    rw [← (ok_inj h).1]
    have hfirst : t₂.remoteDocuments = t.remoteDocuments := by
      refine foldlM_keeps (·.2.remoteDocuments) (fun state row _ state' hround => ?_) hdocs
      obtain ⟨_, -, hround⟩ := bind_eq_ok.mp hround
      exact ensureCollectionParentRow_remoteDocuments hround
    have hsecond : t₃.remoteDocuments = t₂.remoteDocuments := by
      refine foldlM_keeps (·.2.remoteDocuments) (fun state row _ state' hround => ?_) hmuts
      obtain ⟨_, -, hround⟩ := bind_eq_ok.mp hround
      exact ensureCollectionParentRow_remoteDocuments hround
    exact hsecond.trans hfirst

theorem commitAtMost_remoteDocuments {count : Nat} {transactions : List MigrationTransaction}
    {done : Bool} (h : commitAtMost count transactions t = .ok (t', done)) :
    t'.remoteDocuments = t.remoteDocuments := by
  induction count generalizing transactions t with
  | zero =>
    cases transactions <;> rw [← (ok_inj h).1]
  | succ count ih =>
    cases transactions with
    | nil => rw [← (ok_inj h).1]
    | cons transaction rest =>
      obtain ⟨⟨t₁, again⟩, hfirst, hrest⟩ := bind_eq_ok.mp h
      exact (ih hrest).trans (commit_remoteDocuments hfirst)

theorem create_remoteDocuments {p : LevelDbPersistence} (h : LevelDbPersistence.create t = .ok p) :
    p.tables.remoteDocuments = t.remoteDocuments := by
  obtain ⟨t₁, hmigrations, h⟩ := bind_eq_ok.mp h
  obtain ⟨⟨t₂, done⟩, hcommit, hmigrations⟩ := bind_eq_ok.mp hmigrations
  cases hmigrations
  have hsame := commitAtMost_remoteDocuments hcommit
  split at h
  · cases h
  · rw [← Except.ok.inj h]
    exact hsame

end LevelDbTables

/-! ## Writes and documents -/

namespace LevelDbPersistence

variable {scope : WriteScope} {p p' : LevelDbPersistence} {key : DocumentKey}

section OutOfScope

variable (hadded : key ∉ scope.added) (hremoved : key ∉ scope.removed)
  (hcollected : key ∉ scope.collected)
include hadded hremoved hcollected

/-- A document that is out of scope stays as it is. -/
theorem Write.remoteDocuments_get? (h : Write scope p p') :
    p'.tables.remoteDocuments.get? key = p.tables.remoteDocuments.get? key := by
  cases h with
  | startMutationQueue | setLastStreamToken | setLastRemoteSnapshotVersion => rfl
  | addTarget canonicalId hid h => rfl
  | addMutationBatch hbases hmuts h =>
    obtain ⟨_, _, _, _, _, rfl⟩ := addMutationBatch_eq h
    rfl
  | removeMutationBatch hbatch h =>
    obtain ⟨_, _, _, rfl, -⟩ := removeMutationBatch_eq h
    rfl
  | addDocument hkey h =>
    rw [(addDocument_same h).2, get?_insert, if_neg (ne_of_mem_of_not_mem hkey hadded).symm]
  | removeDocument hkey =>
    exact (get?_erase _ _ _).trans (if_neg (ne_of_mem_of_not_mem hkey hremoved).symm)
  | removeOrphan refs upperBound count hkey =>
    next report =>
    rcases removeOrphan_eq refs upperBound (p, count) report with heq | heq
    · rw [heq]
    · rw [heq]
      exact (get?_erase _ _ _).trans (if_neg (ne_of_mem_of_not_mem hkey hcollected).symm)
  | writeSentinel h =>
    obtain ⟨_, -, rfl⟩ := writeSentinel_ok h
    rfl
  | addMatch hid h | removeMatch hid h =>
    obtain ⟨_, -, rfl⟩ := writeSentinel_ok h
    rfl
  | updateTarget hid h =>
    unfold LevelDbPersistence.updateTarget
    dsimp only
    split_ifs <;> rfl
  | removeTarget canonicalId hrow =>
    next id targetData =>
    obtain ⟨_, _, _, heq, -, -⟩ := removeTarget_eq canonicalId p targetData
    rw [heq]
    rfl

theorem Writes.remoteDocuments_get? (h : Writes scope p p') :
    p'.tables.remoteDocuments.get? key = p.tables.remoteDocuments.get? key := by
  induction h with
  | refl => rfl
  | tail _ hwrite ih => exact (hwrite.remoteDocuments_get? hadded hremoved hcollected).trans ih

theorem Transaction.remoteDocuments_get? (h : Transaction scope p p') :
    p'.tables.remoteDocuments.get? key = p.tables.remoteDocuments.get? key := by
  obtain ⟨-, p₁, hwrites, rfl⟩ := h
  have hsame := hwrites.remoteDocuments_get? hadded hremoved hcollected
  exact hsame

end OutOfScope

end LevelDbPersistence

/-! ## Steps -/

/-- A document may take the place of another: its version is higher, or the same and the other one
stands for writes that are committed and not yet synced. -/
def Supersedes (new old : MaybeDocument) : Prop :=
  old.version < new.version ∨ new.version = old.version ∧ hasPendingWrites old = true

theorem Supersedes.version_le {new old : MaybeDocument} (h : Supersedes new old) :
    old.version ≤ new.version :=
  h.elim le_of_lt fun h => h.1.ge

/-- The call has a `NoDocument` at version `None` for the key. -/
def LocalStoreCall.Removes (call : LocalStoreCall) (key : DocumentKey) : Prop :=
  ∃ event doc, call = .applyRemoteEvent event ∧ event.documentUpdates.get? key = some doc ∧
    LocalStore.isRemoval doc = true

/-- All calls but the collection of garbage, with the documents of events under their own keys. -/
def LocalStoreCall.KeepsDocuments : LocalStoreCall → Prop
  | .applyRemoteEvent event => event.Keyed
  | .collectGarbage _ => False
  | _ => True

variable {answer : MaybeDocumentMap}

namespace LocalStore

open LevelDbPersistence

variable {canonicalId : Target → Bytes} {s s' : LocalStore} {key : DocumentKey}

/-- What may become of a document of the cache in a call. -/
def Evolves (s : LocalStore) (call : LocalStoreCall) (s' : LocalStore) : Prop :=
  ∀ key old, s.tables.remoteDocuments.get? key = some old →
    s'.tables.remoteDocuments.get? key = some old ∨
    (∃ new, s'.tables.remoteDocuments.get? key = some new ∧ Supersedes new old) ∨
    call.Removes key ∧ s'.tables.remoteDocuments.get? key = none

variable {call : LocalStoreCall}

theorem Evolves.of_eq
    (h : ∀ key, s'.tables.remoteDocuments.get? key = s.tables.remoteDocuments.get? key) :
    Evolves s call s' :=
  fun key _ hold => .inl ((h key).trans hold)

/-- The guard of remote events. -/
theorem supersedes_of_isNewer {doc old : MaybeDocument} (h : isNewer doc (some old) = true) :
    Supersedes doc old := by
  rw [isNewer, Option.all_some, Bool.or_eq_true, Bool.and_eq_true, decide_eq_true_eq] at h
  exact h.imp_right fun h => ⟨eq_of_beq h.1, h.2⟩

theorem applyRemoteEvent_evolves {event : RemoteEvent}
    (hkeyed : event.Keyed) (h : s.applyRemoteEvent event = .ok (s', answer)) :
    Evolves s (.applyRemoteEvent event) s' := by
  intro key old hold
  have hafter := applyRemoteEvent_documents hkeyed h key
  rw [hold] at hafter
  split at hafter
  · exact .inl hafter
  · next doc hupdate =>
    unfold updatedDocument at hafter
    split_ifs at hafter with hremoval hnewer
    · exact .inr (.inr ⟨⟨event, doc, rfl, hupdate, hremoval⟩, hafter⟩)
    · exact .inr (.inl ⟨doc, hafter, supersedes_of_isNewer hnewer⟩)
    · exact .inl hafter

/-- The guard of acknowledgements, over all documents of the batch. -/
theorem acknowledgeBatch_evolves {result : MutationBatchResult}
    (h : s.acknowledgeBatch result = .ok (s', answer)) : Evolves s call s' := by
  obtain ⟨-, p₃, p₂, hkeys, hremove, rfl⟩ := acknowledgeBatch_ok h
  obtain ⟨_, _, _, rfl, -⟩ := removeMutationBatch_eq hremove
  have hloop : ∀ key old, s.tables.remoteDocuments.get? key = some old →
      p₃.tables.remoteDocuments.get? key = some old ∨
        ∃ new, p₃.tables.remoteDocuments.get? key = some new ∧ old.version < new.version := by
    refine foldlM_invariant (fun p₁ : LevelDbPersistence => ∀ key old,
      s.tables.remoteDocuments.get? key = some old → p₁.tables.remoteDocuments.get? key = some old ∨
        ∃ new, p₁.tables.remoteDocuments.get? key = some new ∧ old.version < new.version)
      (fun p₁ docKey _ p₂ hbefore hround => ?_) ?_ hkeys
    · rcases applyToKey_ok hround with rfl | ⟨doc, hadd, rfl, hnewer⟩
      · exact hbefore
      · intro key old hold
        rw [(addDocument_same hadd).2, get?_insert]
        split_ifs with hkey
        · -- The document is above what the rounds before have left.
          rw [hkey] at hold
          refine .inr ⟨doc, rfl, ?_⟩
          rcases hbefore _ old hold with hsame | ⟨new, hnew, hlt⟩
          · exact hnewer old hsame
          · exact hlt.trans (hnewer new hnew)
        · exact hbefore key old hold
    · exact fun key old hold => .inl hold
  intro key old hold
  exact (hloop key old hold).imp_right fun ⟨new, hnew, hlt⟩ => .inl ⟨new, hnew, .inl hlt⟩

theorem remoteDocuments_get?_transactions {scope : WriteScope} {p p' : LevelDbPersistence}
    (h : Transactions scope p p') (hadded : key ∉ scope.added) (hremoved : key ∉ scope.removed)
    (hcollected : key ∉ scope.collected) :
    p'.tables.remoteDocuments.get? key = p.tables.remoteDocuments.get? key := by
  induction h with
  | refl => rfl
  | tail _ htx ih =>
    exact (htx.remoteDocuments_get? hadded hremoved hcollected).trans ih

/-- Calls that are neither events nor acknowledgements leave the documents alone. -/
theorem step_evolves {answer : Unit} (hcall : call.KeepsDocuments)
    (h : s.step canonicalId call = .ok (s', answer)) : Evolves s call s' := by
  have hothers : InScope ⟨Set.univ, ∅, ∅, ∅, Set.univ⟩ call → Evolves s call s' := by
    intro hscope
    refine .of_eq fun key => ?_
    rcases step_transactions hscope (fun _ _ _ => ⟨trivial, trivial⟩) trivial h with
      htxs | ⟨userId, rfl, hstart⟩
    · exact remoteDocuments_get?_transactions htxs id id id
    · obtain ⟨p, hcreate, htx⟩ : ∃ p, LevelDbPersistence.create s.tables = .ok p ∧
          Transaction ⟨Set.univ, ∅, ∅, ∅, Set.univ⟩ p s'.persistence := start_ok hstart
      rw [htx.remoteDocuments_get? id id id, LevelDbTables.create_remoteDocuments hcreate]
  cases call with
  | applyRemoteEvent event =>
    obtain ⟨_, hop⟩ := ok_of_discard h
    exact applyRemoteEvent_evolves hcall hop
  | acknowledgeBatch batchId commitVersion mutationResults streamToken =>
    obtain ⟨result, hresult, h⟩ := bind_eq_ok.mp h
    obtain ⟨_, hop⟩ := ok_of_discard h
    exact acknowledgeBatch_evolves hop
  | collectGarbage => exact hcall.elim
  | writeLocally => exact hothers fun _ _ => trivial
  | _ => exact hothers trivial

/-! ## Runs -/

/-- What the calls do to the document of a key that none of them removes. -/
theorem runAll_version_le {calls : List LocalStoreCall} {answers : List Unit}
    (hcalls : ∀ call ∈ calls, call.KeepsDocuments)
    (hrun : runAll (step canonicalId) s calls = .ok (s', answers))
    (hkept : ∀ call ∈ calls, ¬ call.Removes key) {old : MaybeDocument}
    (hold : s.tables.remoteDocuments.get? key = some old) :
    ∃ new, s'.tables.remoteDocuments.get? key = some new ∧ old.version ≤ new.version := by
  refine runAll_invariant (p := fun call => call.KeepsDocuments ∧ ¬ call.Removes key)
    (fun s₁ => ∃ new, s₁.tables.remoteDocuments.get? key = some new ∧ old.version ≤ new.version)
    ?_ ⟨old, hold, le_rfl⟩ (fun call hmem => ⟨hcalls call hmem, hkept call hmem⟩) hrun
  rintro s₁ call s₂ answer ⟨doc, hdoc, hle⟩ ⟨hkeeps, hremoves⟩ hstep
  rcases step_evolves hkeeps hstep key doc hdoc with hsame | ⟨new, hnew, hnewer⟩ | ⟨hremoved, -⟩
  · exact ⟨doc, hsame, hle⟩
  · exact ⟨new, hnew, hle.trans hnewer.version_le⟩
  · exact absurd hremoved hremoves

/-- **Versions only go up.**  Over any interleaving of operations but the collection of garbage, a
document of the cache is replaced by one of a higher version or, if it has pending writes, of the
same version, or is removed by a `NoDocument` at version `None`.  As long as no call removes it, its
version is at the end what it was or higher. -/
theorem versions_monotone {calls : List LocalStoreCall} {answers : List Unit}
    (hcalls : ∀ call ∈ calls, call.KeepsDocuments)
    (hrun : runAll (step canonicalId) s calls = .ok (s', answers)) :
    Along (step canonicalId) (fun s call => ∀ s' answer,
      s.step canonicalId call = .ok (s', answer) → Evolves s call s') s calls ∧
    ∀ key old, s.tables.remoteDocuments.get? key = some old →
      (∀ call ∈ calls, ¬ call.Removes key) →
      ∃ new, s'.tables.remoteDocuments.get? key = some new ∧ old.version ≤ new.version := by
  constructor
  · clear hrun
    induction calls generalizing s with
    | nil => trivial
    | cons call calls ih =>
      obtain ⟨hcall, hcalls⟩ := List.forall_mem_cons.mp hcalls
      exact ⟨fun s' answer hstep => step_evolves hcall hstep, fun s₁ _ _ => ih hcalls⟩
  · exact fun key old hold hkept => runAll_version_le hcalls hrun hkept hold

namespace CachedRoom

open LevelDbPersistence.TwoUsers (room)

def first : SnapshotVersion := ⟨⟨5, 0, by decide⟩⟩

def second : SnapshotVersion := ⟨⟨6, 0, by decide⟩⟩

def store : LocalStore where
  persistence := { LevelDbPersistence.new with tables := { LevelDbPersistence.new.tables with
    remoteDocuments := OrdMap.empty.insert room (.noDocument room first false) } }
  targetDataByTarget := .empty
  targetIdByTarget := []
  nextTargetId := 2
  localViewReferences := .empty

def event : RemoteEvent where
  snapshotVersion := second
  targetChanges := .empty
  targetMismatches := ∅
  documentUpdates := OrdMap.empty.insert room (.noDocument room second false)
  limboDocumentChanges := {room}

theorem keyed (version : SnapshotVersion) (key : DocumentKey) (doc : MaybeDocument)
    (h : (OrdMap.empty.insert room (.noDocument room version false)).get? key = some doc) :
    doc.key = key ∧ key = room := by
  rcases get?_insert_eq_some.mp h with ⟨rfl, rfl⟩ | ⟨-, h⟩
  · exact ⟨rfl, rfl⟩
  · cases h

end CachedRoom

open CachedRoom in
theorem versions_monotone_cachedRoom : ∃ s' answers new,
    runAll (step fun _ => []) store [.applyRemoteEvent event] = .ok (s', answers) ∧
      s'.tables.remoteDocuments.get? LevelDbPersistence.TwoUsers.room = some new ∧
      first ≤ new.version := by
  obtain ⟨s', answers, hrun, -⟩ : ∃ s' answers,
      runAll (step fun _ => []) store [.applyRemoteEvent event] = .ok (s', answers) ∧ True := by
    decide +kernel
  have hcalls : ∀ call ∈ [LocalStoreCall.applyRemoteEvent event], call.KeepsDocuments := by
    intro call hmem
    rw [List.mem_singleton.mp hmem]
    exact fun key doc h => (keyed second key doc h).1
  obtain ⟨new, hnew, hle⟩ := (versions_monotone hcalls hrun).2 LevelDbPersistence.TwoUsers.room
    (.noDocument _ first false) rfl (by
      rintro call hmem ⟨event', doc, rfl, hupdate, hremoval⟩
      obtain rfl : event' = event := by simpa using hmem
      obtain rfl : MaybeDocument.noDocument _ second false = doc := Option.some.inj hupdate
      exact absurd hremoval (by decide))
  exact ⟨s', answers, new, hrun, hnew, hle⟩

end LocalStore

end Firebase.Firestore.Local
