import Firebase.Firestore.Model.Mutation
import Firebase.Firestore.Util.Status
import Firebase.Lib.Simulation

/-!
# Transactions

`core::Transaction` (`transaction.cc`) with the parsed data of its writes (`user_data.cc`).  A
version that was read becomes the precondition of the first mutation of its key, or of a verify
mutation if the key was not written.
-/

namespace Firebase.Firestore.Core

open Lib Util Model List

/-! ## Parsed writes -/

/-- The mutation of the field transforms, which the source leaves out if there are none. -/
def fieldTransformMutations (key : DocumentKey) (fieldTransforms : List FieldTransform) :
    List Mutation :=
  if fieldTransforms.isEmpty then [] else [.transform key fieldTransforms]

/-- `core::ParsedSetData`: a set, or a merge if `patch` is set. -/
structure ParsedSetData where
  data : ObjectValue
  fieldMask : FieldMask
  fieldTransforms : List FieldTransform
  patch : Bool

def ParsedSetData.toMutations (parsed : ParsedSetData) (key : DocumentKey)
    (precondition : Precondition) : List Mutation :=
  (if parsed.patch then .patch key parsed.data parsed.fieldMask precondition
    else .set key parsed.data precondition) ::
    fieldTransformMutations key parsed.fieldTransforms

structure ParsedUpdateData where
  data : ObjectValue
  fieldMask : FieldMask
  fieldTransforms : List FieldTransform

def ParsedUpdateData.toMutations (parsed : ParsedUpdateData) (key : DocumentKey)
    (precondition : Precondition) : List Mutation :=
  .patch key parsed.data parsed.fieldMask precondition ::
    fieldTransformMutations key parsed.fieldTransforms

/-! ## The transaction -/

structure Transaction where
  mutations : List Mutation := []
  committed : Bool := false
  permanentError : Bool := false
  lastWriteError : Option Status := none
  writtenDocs : DocumentKeySet := ∅
  readVersions : OrdMap DocumentKey SnapshotVersion := .empty

/-- The order in which a loop goes through an `unordered_set` of keys. -/
structure KeyOrder where
  list : DocumentKeySet → List DocumentKey
  nodup : ∀ keys, (list keys).Nodup
  mem : ∀ keys key, key ∈ list keys ↔ key ∈ keys

def KeyOrder.sorted : KeyOrder where
  list keys := keys.sort (· ≤ ·)
  nodup keys := keys.sort_nodup (· ≤ ·)
  mem keys _ := keys.mem_sort (· ≤ ·)

namespace Transaction

def noSuchDocument : Status := ⟨.invalidArgument, "Can't update a document that doesn't exist."⟩

variable (t : Transaction)

def ensureCommitNotCalled : Hard Unit :=
  hardAssert (!t.committed)
    "A transaction object cannot be used after its update callback has been invoked."

section

variable (key : DocumentKey)

def getVersion : Option SnapshotVersion :=
  t.readVersions.get? key

/-- The version that `RecordVersion` takes for a document. -/
def docVersion : MaybeDocument → Hard SnapshotVersion
  | .document doc => .ok doc.version
  -- For deleted docs, an explicit no version.
  | .noDocument _ _ _ => .ok .none
  | .unknownDocument _ _ => .error ⟨"Unexpected document type in transaction"⟩

def recordVersion (doc : MaybeDocument) : Hard (Transaction × Option Status) := do
  let version ← docVersion doc
  match t.getVersion doc.key with
  | some existing =>
    if version ≠ existing then
      return (t, some ⟨.aborted, "Document version changed between two reads."⟩)
    else return (t, none)
  | none => return ({ t with readVersions := t.readVersions.insert doc.key version }, none)

/-- The loop of `Lookup` over the documents that were read. -/
def recordVersions (t : Transaction) : List MaybeDocument → Hard (Transaction × Option Status)
  | [] => .ok (t, none)
  | doc :: documents => do
    match ← t.recordVersion doc with
    | (t, some status) => return (t, some status)
    | (t, none) => t.recordVersions documents

/-- `Transaction::Lookup` with what `Datastore::LookupDocuments` answers; the body of a
transaction waits for the answer.  The result is what the callback is given. -/
def lookup (keys : List DocumentKey)
    (lookupDocuments : List DocumentKey → Except Status (List MaybeDocument)) :
    Hard (Transaction × Except Status (List MaybeDocument)) := do
  t.ensureCommitNotCalled
  if !t.mutations.isEmpty then
    return (t, .error ⟨.invalidArgument,
      "Firestore transactions require all reads to be executed before all writes"⟩)
  match lookupDocuments keys with
  | .error status => return (t, .error status)
  | .ok documents =>
    match ← t.recordVersions documents with
    | (t, some status) => return (t, .error status)
    | (t, none) => return (t, .ok documents)

def writeMutations (mutations : List Mutation) : Hard Transaction := do
  t.ensureCommitNotCalled
  return { t with mutations := t.mutations ++ mutations }

def createPrecondition : Precondition :=
  match t.getVersion key with
  | some version => if key ∉ t.writtenDocs then .updateTime version else .none
  | none => .none

def createUpdatePrecondition : Except Status Precondition :=
  match t.getVersion key with
  | some version =>
    if key ∉ t.writtenDocs then
      if version = .none then .error noSuchDocument else .ok (.updateTime version)
    else .ok (.exists_ true)
  | none => .ok (.exists_ true)

def markWritten : Transaction :=
  { t with writtenDocs := insert key t.writtenDocs }

def set (data : ParsedSetData) : Hard Transaction := do
  let t ← t.writeMutations (data.toMutations key (t.createPrecondition key))
  return t.markWritten key

def update (data : ParsedUpdateData) : Hard Transaction :=
  match t.createUpdatePrecondition key with
  | .error status => .ok ({ t with lastWriteError := some status }.markWritten key)
  | .ok precondition => do
    let t ← t.writeMutations (data.toMutations key precondition)
    return t.markWritten key

end

def delete (t : Transaction) (key : DocumentKey) : Hard Transaction := do
  let t ← t.writeMutations [.delete key (t.createPrecondition key)]
  return t.markWritten key

def unwritten : DocumentKeySet :=
  t.mutations.foldl (fun keys mutation => keys.erase mutation.key)
    (t.readVersions.entries.map Prod.fst).toFinset

/-- `Transaction::Commit`: the error that is raised at once, or the mutations that
`Datastore::CommitMutations` sends to the backend. -/
def commit (order : KeyOrder) : Hard (Transaction × Except Status (List Mutation)) := do
  t.ensureCommitNotCalled
  match t.lastWriteError with
  | some status => return (t, .error status)
  | none =>
    let mutations := t.mutations ++
      (order.list t.unwritten).map fun key => .verify key (t.createPrecondition key)
    return ({ t with mutations := mutations, committed := true }, .ok mutations)

def markPermanentlyFailed : Transaction := { t with permanentError := true }

end Transaction

/-- What the body of a transaction calls. -/
inductive TransactionCall where
  | lookup (keys : List DocumentKey)
      (lookupDocuments : List DocumentKey → Except Status (List MaybeDocument))
  | set (key : DocumentKey) (data : ParsedSetData)
  | update (key : DocumentKey) (data : ParsedUpdateData)
  | delete (key : DocumentKey)
  | markPermanentlyFailed

def TransactionCall.writes : TransactionCall → Option DocumentKey
  | lookup _ _ | markPermanentlyFailed => none
  | set key _ | update key _ | delete key => some key

namespace Transaction

def step (t : Transaction) :
    TransactionCall → Hard (Transaction × Option (Except Status (List MaybeDocument)))
  | .lookup keys lookupDocuments => do
    let (t, answer) ← t.lookup keys lookupDocuments
    return (t, some answer)
  | .set key data => do return (← t.set key data, none)
  | .update key data => do return (← t.update key data, none)
  | .delete key => do return (← t.delete key, none)
  | .markPermanentlyFailed => .ok (t.markPermanentlyFailed, none)

end Transaction

/-! ## Guards -/

def Precondition.version? : Precondition → Option SnapshotVersion
  | .updateTime time => some time
  | _ => none

variable {precondition : Precondition}

theorem Precondition.version?_eq_some {version : SnapshotVersion} :
    Precondition.version? precondition = some version ↔ precondition = .updateTime version := by
  cases precondition with
  | none | exists_ _ => exact ⟨nofun, nofun⟩
  | updateTime time => exact ⟨fun h => congrArg _ (Option.some.inj h), congrArg _⟩

/-- The mutations of a key, of which the first is guarded by the version and no other by any. -/
def GuardedBy (version : Option SnapshotVersion) (mutations : List Mutation) : Prop :=
  ∃ first rest, mutations = first :: rest ∧ Precondition.version? first.precondition = version ∧
    ∀ later ∈ rest, Precondition.version? later.precondition = none

/-- Exactly one mutation asks for the version. -/
theorem GuardedBy.countP {version : SnapshotVersion} {mutations : List Mutation}
    (h : GuardedBy (some version) mutations) :
    mutations.countP (fun m => m.precondition = .updateTime version) = 1 := by
  obtain ⟨first, rest, rfl, hfirst, hrest⟩ := h
  have hnone : rest.countP (fun m => m.precondition = .updateTime version) = 0 := by
    refine countP_eq_zero.mpr fun later hlater heq => ?_
    have hversion := Precondition.version?_eq_some.mpr (of_decide_eq_true heq)
    cases (hrest later hlater).symm.trans hversion
  rw [countP_cons, hnone, if_pos (decide_eq_true (Precondition.version?_eq_some.mp hfirst))]

theorem GuardedBy.append {version : Option SnapshotVersion} {mutations more : List Mutation}
    (h : GuardedBy version mutations)
    (hmore : ∀ m ∈ more, Precondition.version? m.precondition = none) :
    GuardedBy version (mutations ++ more) := by
  obtain ⟨first, rest, rfl, hfirst, hrest⟩ := h
  refine ⟨first, rest ++ more, rfl, hfirst, fun later hlater => ?_⟩
  rcases mem_append.mp hlater with hlater | hlater
  · exact hrest later hlater
  · exact hmore later hlater

/-! ## What one write adds -/

structure UserWrite (key : DocumentKey) (version : Option SnapshotVersion)
    (mutations : List Mutation) : Prop where
  keys : ∀ m ∈ mutations, m.key = key
  noVerify : ∀ m ∈ mutations, ∀ p, m ≠ .verify m.key p
  guarded : GuardedBy version mutations

section UserWrite

variable {key : DocumentKey} {version : Option SnapshotVersion}

theorem UserWrite.of_cons (first : Mutation) (hkey : first.key = key)
    (hverify : ∀ p, first ≠ .verify first.key p)
    (hfirst : Precondition.version? first.precondition = version)
    (fieldTransforms : List FieldTransform) :
    UserWrite key version (first :: fieldTransformMutations key fieldTransforms) := by
  have htransform : ∀ m ∈ fieldTransformMutations key fieldTransforms,
      m = .transform key fieldTransforms := by
    intro m hm
    rw [fieldTransformMutations] at hm
    split at hm
    · cases hm
    · exact mem_singleton.mp hm
  constructor
  · refine forall_mem_cons.mpr ⟨hkey, fun m hm => ?_⟩
    rw [htransform m hm]
    rfl
  · refine forall_mem_cons.mpr ⟨hverify, fun m hm => ?_⟩
    rw [htransform m hm]
    exact nofun
  · refine ⟨first, _, rfl, hfirst, fun m hm => ?_⟩
    rw [htransform m hm]
    rfl

theorem ParsedSetData.toMutations_userWrite (data : ParsedSetData)
    (hversion : Precondition.version? precondition = version) :
    UserWrite key version (data.toMutations key precondition) := by
  rw [ParsedSetData.toMutations]
  cases data.patch with
  | true => exact .of_cons (.patch key data.data data.fieldMask precondition) rfl nofun hversion _
  | false => exact .of_cons (.set key data.data precondition) rfl nofun hversion _

theorem ParsedUpdateData.toMutations_userWrite (data : ParsedUpdateData)
    (hversion : Precondition.version? precondition = version) :
    UserWrite key version (data.toMutations key precondition) :=
  .of_cons (.patch key data.data data.fieldMask precondition) rfl nofun hversion _

end UserWrite

variable {keys : List DocumentKey} {call : TransactionCall} {error : Option Status}

namespace Transaction

def guard (t : Transaction) (key : DocumentKey) : Option SnapshotVersion :=
  if key ∈ t.writtenDocs then none else t.getVersion key

theorem version?_createPrecondition (t : Transaction) (key : DocumentKey) :
    Precondition.version? (t.createPrecondition key) = t.guard key := by
  rw [createPrecondition, guard]
  by_cases hwritten : key ∈ t.writtenDocs
  · rw [if_pos hwritten]
    cases t.getVersion key with
    | none => rfl
    | some version =>
      dsimp only
      rw [if_neg (not_not_intro hwritten)]
      rfl
  · rw [if_neg hwritten]
    cases t.getVersion key with
    | none => rfl
    | some version =>
      dsimp only
      rw [if_pos hwritten]
      rfl

/-- An update fails exactly if it is the first write of a document that was read as missing;
otherwise it asks for the version like every other write. -/
theorem createUpdatePrecondition_cases (t : Transaction) (key : DocumentKey) :
    (t.guard key = some .none ∧ t.createUpdatePrecondition key = .error noSuchDocument) ∨
      ∃ precondition, t.createUpdatePrecondition key = .ok precondition ∧
        Precondition.version? precondition = t.guard key ∧ t.guard key ≠ some .none := by
  rw [createUpdatePrecondition, guard]
  by_cases hwritten : key ∈ t.writtenDocs
  · rw [if_pos hwritten]
    refine .inr ⟨.exists_ true, ?_, rfl, nofun⟩
    cases t.getVersion key with
    | none => rfl
    | some version => exact if_neg (not_not_intro hwritten)
  · rw [if_neg hwritten]
    cases t.getVersion key with
    | none => exact .inr ⟨.exists_ true, rfl, rfl, nofun⟩
    | some version =>
      dsimp only
      rw [if_pos hwritten]
      by_cases hmissing : version = .none
      · rw [hmissing]
        exact .inl ⟨rfl, rfl⟩
      · rw [if_neg hmissing]
        exact .inr ⟨_, rfl, rfl, fun h => hmissing (Option.some.inj h)⟩

/-! ## The invariant -/

def ofKey (mutations : List Mutation) (key : DocumentKey) : List Mutation :=
  mutations.filter (·.key = key)

/-- A transaction that has not been committed, whose mutations are those of its writes, guarded by
the versions that it has read. -/
structure Guarded (t : Transaction) : Prop where
  uncommitted : t.committed = false
  written : ∀ m ∈ t.mutations, m.key ∈ t.writtenDocs
  noVerify : ∀ m ∈ t.mutations, ∀ p, m ≠ .verify m.key p
  error : ∀ status, t.lastWriteError = some status → status = noSuchDocument
  guards : t.lastWriteError = none → ∀ key ∈ t.writtenDocs,
    GuardedBy (t.getVersion key) (ofKey t.mutations key)

theorem guarded_new : Guarded {} :=
  ⟨rfl, nofun, nofun, nofun, fun _ _ h => absurd h (Finset.notMem_empty _)⟩

variable {t t' : Transaction} {key : DocumentKey}

theorem Guarded.ensureCommitNotCalled (h : Guarded t) : t.ensureCommitNotCalled = .ok () := by
  rw [Transaction.ensureCommitNotCalled, h.uncommitted]
  rfl

theorem Guarded.ofKey_eq_nil (h : Guarded t) (hkey : key ∉ t.writtenDocs) :
    ofKey t.mutations key = [] := by
  refine filter_eq_nil_iff.mpr fun m hm hmkey => hkey ?_
  rw [← of_decide_eq_true hmkey]
  exact h.written m hm

theorem ofKey_cons_self (m : Mutation) (mutations : List Mutation) :
    ofKey (m :: mutations) m.key = m :: ofKey mutations m.key :=
  filter_cons_of_pos (decide_eq_true rfl)

theorem ofKey_cons_of_ne (m : Mutation) (hkey : m.key ≠ key) (mutations : List Mutation) :
    ofKey (m :: mutations) key = ofKey mutations key :=
  filter_cons_of_neg fun h => hkey (of_decide_eq_true h)

theorem ofKey_append (mutations more : List Mutation) (key : DocumentKey) :
    ofKey (mutations ++ more) key = ofKey mutations key ++ ofKey more key :=
  filter_append mutations more

variable {mutations : List Mutation} {version : Option SnapshotVersion}

theorem UserWrite.ofKey_eq
    (h : UserWrite key version mutations) : ofKey mutations key = mutations :=
  filter_eq_self.mpr fun m hm => decide_eq_true (h.keys m hm)

theorem UserWrite.ofKey_eq_nil
    (h : UserWrite key version mutations) {key' : DocumentKey} (hne : key' ≠ key) :
    ofKey mutations key' = [] :=
  filter_eq_nil_iff.mpr fun m hm hmkey =>
    hne ((of_decide_eq_true hmkey).symm.trans (h.keys m hm))

/-- A write that asks for the version of its key, if it is the first of that key. -/
theorem Guarded.write (h : Guarded t) (hwrite : UserWrite key (t.guard key) mutations) :
    Guarded ({ t with mutations := t.mutations ++ mutations }.markWritten key) := by
  refine ⟨h.uncommitted, fun m hm => ?_, fun m hm => ?_, h.error, fun herror key' hkey' => ?_⟩
  · rcases mem_append.mp hm with hm | hm
    · exact Finset.mem_insert_of_mem (h.written m hm)
    · exact Finset.mem_insert.mpr (.inl (hwrite.keys m hm))
  · rcases mem_append.mp hm with hm | hm
    · exact h.noVerify m hm
    · exact hwrite.noVerify m hm
  · show GuardedBy (t.getVersion key') (ofKey (t.mutations ++ mutations) key')
    rw [ofKey_append]
    have hguard := hwrite.guarded
    rw [guard] at hguard
    by_cases heq : key' = key
    · subst heq
      rw [UserWrite.ofKey_eq hwrite]
      by_cases hwritten : key' ∈ t.writtenDocs
      · -- A later write of the key, which asks for no version.
        rw [if_pos hwritten] at hguard
        refine (h.guards herror key' hwritten).append ?_
        obtain ⟨first, rest, rfl, hfirst, hrest⟩ := hguard
        exact forall_mem_cons.mpr ⟨hfirst, hrest⟩
      · rw [if_neg hwritten] at hguard
        rw [h.ofKey_eq_nil hwritten]
        exact hguard
    · rw [UserWrite.ofKey_eq_nil hwrite heq, append_nil]
      exact h.guards herror key' ((Finset.mem_insert.mp hkey').resolve_left heq)

theorem Guarded.writeMutations (h : Guarded t) (mutations : List Mutation) :
    t.writeMutations mutations = .ok { t with mutations := t.mutations ++ mutations } := by
  rw [Transaction.writeMutations, h.ensureCommitNotCalled]
  rfl

/-! ## Reads -/

def Keeps (t t' : Transaction) : Prop :=
  ∀ key version, t.getVersion key = some version → t'.getVersion key = some version

def HasRead (t : Transaction) (doc : MaybeDocument) : Prop :=
  ∃ version, docVersion doc = .ok version ∧ t.getVersion doc.key = some version

theorem HasRead.mono {doc : MaybeDocument} (h : t.HasRead doc) (hkept : t.Keeps t') :
    t'.HasRead doc := by
  obtain ⟨version, hversion, hget⟩ := h
  exact ⟨version, hversion, hkept _ _ hget⟩

/-- Recording a version changes nothing but the versions, keeps those that are there, and without
an error it has the version of the document. -/
theorem recordVersion_ok {doc : MaybeDocument} (h : t.recordVersion doc = .ok (t', error)) :
    (∃ readVersions, t' = { t with readVersions := readVersions }) ∧
      t.Keeps t' ∧
      (error = none → t'.HasRead doc) := by
  obtain ⟨version, hversion, h⟩ := bind_eq_ok.mp h
  cases hread : t.getVersion doc.key with
  | some existing =>
    simp only [hread] at h
    by_cases hne : version ≠ existing
    · rw [if_pos hne] at h
      cases h
      exact ⟨⟨_, rfl⟩, fun _ _ h => h, nofun⟩
    · rw [if_neg hne] at h
      cases h
      exact ⟨⟨_, rfl⟩, fun _ _ h => h,
        fun _ => ⟨version, hversion, hread.trans (congrArg some (not_not.mp hne).symm)⟩⟩
  | none =>
    simp only [hread] at h
    cases h
    refine ⟨⟨_, rfl⟩, fun key version' hkey => ?_, fun _ => ⟨version, hversion, ?_⟩⟩
    · have hne : key ≠ doc.key := by
        rintro rfl
        rw [hread] at hkey
        cases hkey
      exact ((OrdMap.get?_insert _ _ _ key).trans (if_neg hne)).trans hkey
    · exact (OrdMap.get?_insert _ _ _ doc.key).trans (if_pos rfl)

theorem recordVersions_ok {documents : List MaybeDocument}
    (h : t.recordVersions documents = .ok (t', error)) :
    (∃ readVersions, t' = { t with readVersions := readVersions }) ∧
      t.Keeps t' ∧
      (error = none → ∀ doc ∈ documents, t'.HasRead doc) := by
  induction documents generalizing t with
  | nil =>
    cases h
    exact ⟨⟨_, rfl⟩, fun _ _ h => h, nofun⟩
  | cons doc documents ih =>
    obtain ⟨⟨t₁, error₁⟩, hfirst, h⟩ := bind_eq_ok.mp h
    obtain ⟨⟨readVersions, rfl⟩, hkept, hread⟩ := recordVersion_ok hfirst
    cases error₁ with
    | some status =>
      cases h
      exact ⟨⟨_, rfl⟩, hkept, nofun⟩
    | none =>
      obtain ⟨⟨readVersions', rfl⟩, hkept', hread'⟩ := ih h
      exact ⟨⟨readVersions', rfl⟩,
        fun key version hkey => hkept' key version (hkept key version hkey),
        fun herror => forall_mem_cons.mpr ⟨(hread rfl).mono hkept', hread' herror⟩⟩

variable {lookupDocuments : List DocumentKey → Except Status (List MaybeDocument)}
  {answer : Except Status (List MaybeDocument)}

/-- A lookup changes nothing but the versions, and only as long as nothing is written. -/
theorem lookup_ok (h : t.lookup keys lookupDocuments = .ok (t', answer)) :
    (∃ readVersions, t' = { t with readVersions := readVersions }) ∧
      (t.mutations ≠ [] → t' = t) ∧
      t.Keeps t' ∧
      (∀ documents, answer = .ok documents → ∀ doc ∈ documents, t'.HasRead doc) := by
  obtain ⟨-, -, h⟩ := bind_eq_ok.mp h
  by_cases hempty : t.mutations = []
  · rw [hempty] at h
    cases hanswer : lookupDocuments keys with
    | error status =>
      rw [hanswer] at h
      cases h
      exact ⟨⟨_, rfl⟩, fun _ => rfl, fun _ _ h => h, nofun⟩
    | ok documents =>
      rw [hanswer] at h
      obtain ⟨⟨t₁, error⟩, hrecord, h⟩ := bind_eq_ok.mp h
      obtain ⟨hframe, hkept, hread⟩ := recordVersions_ok hrecord
      cases error with
      | some status =>
        cases h
        exact ⟨hframe, absurd hempty, hkept, nofun⟩
      | none =>
        cases h
        refine ⟨hframe, absurd hempty, hkept, fun documents' heq => ?_⟩
        cases heq
        exact hread rfl
  · have hwritten : (!t.mutations.isEmpty) = true := by
      rw [isEmpty_eq_false_iff.mpr hempty]
      rfl
    rw [if_pos hwritten] at h
    cases h
    exact ⟨⟨_, rfl⟩, fun _ => rfl, fun _ _ h => h, nofun⟩

/-- What is read before anything is written is read in time to guard it. -/
theorem Guarded.lookup (h : Guarded t)
    (hlookup : t.lookup keys lookupDocuments = .ok (t', answer)) : Guarded t' := by
  obtain ⟨⟨readVersions, rfl⟩, hsame, -, -⟩ := lookup_ok hlookup
  by_cases hempty : t.mutations = []
  · refine { h with guards := fun herror key hkey => ?_ }
    -- Without mutations and without an error no key is written.
    obtain ⟨first, rest, hnil, -, -⟩ := h.guards herror key hkey
    rw [hempty] at hnil
    cases hnil
  · rw [hsame hempty]
    exact h

/-! ## Steps and runs -/

variable {answer : Option (Except Status (List MaybeDocument))}

/-- What a call does: the three kinds of calls differ in what they leave alone. -/
theorem Guarded.step_cases (h : Guarded t) (hstep : t.step call = .ok (t', answer)) :
    (call.writes = none ∧ Guarded t' ∧ t'.writtenDocs = t.writtenDocs ∧
        t'.lastWriteError = t.lastWriteError ∧
        t.Keeps t' ∧
        ∀ documents, answer = some (.ok documents) → ∀ doc ∈ documents, t'.HasRead doc) ∨
      ∃ key, call.writes = some key ∧ Guarded t' ∧ answer = none ∧
        t'.writtenDocs = insert key t.writtenDocs ∧ t'.readVersions = t.readVersions ∧
        (t'.lastWriteError = t.lastWriteError ∨ t'.lastWriteError = some noSuchDocument) ∧
        (∀ data, call = .update key data → t.guard key = some .none →
          t'.lastWriteError = some noSuchDocument) := by
  cases call with
  | lookup keys lookupDocuments =>
    obtain ⟨⟨t₁, answer₁⟩, hlookup, hstep⟩ := bind_eq_ok.mp hstep
    cases hstep
    obtain ⟨⟨readVersions, hframe⟩, -, hkept, hread⟩ := lookup_ok hlookup
    refine .inl ⟨rfl, h.lookup hlookup, ?_, ?_, hkept, fun documents heq =>
      hread documents (Option.some.inj heq)⟩
    · rw [hframe]
    · rw [hframe]
  | markPermanentlyFailed =>
    cases hstep
    exact .inl ⟨rfl, { h with }, rfl, rfl, fun _ _ h => h, nofun⟩
  | set key data =>
    obtain ⟨t₁, hset, hstep⟩ := bind_eq_ok.mp hstep
    cases hstep
    rw [set, h.writeMutations] at hset
    cases hset
    refine .inr ⟨key, rfl, h.write ?_, rfl, rfl, rfl, .inl rfl, nofun⟩
    exact data.toMutations_userWrite (t.version?_createPrecondition key)
  | update key data =>
    obtain ⟨t₁, hupdate, hstep⟩ := bind_eq_ok.mp hstep
    cases hstep
    rw [update] at hupdate
    rcases t.createUpdatePrecondition_cases key with ⟨hmissing, herror⟩ | ⟨p, hp, hversion, hne⟩
    · rw [herror] at hupdate
      cases hupdate
      refine .inr ⟨key, rfl, ?_, rfl, rfl, rfl, .inr rfl, fun _ _ _ => rfl⟩
      exact ⟨h.uncommitted, fun m hm => Finset.mem_insert_of_mem (h.written m hm), h.noVerify,
        fun status hstatus => (Option.some.inj hstatus).symm, nofun⟩
    · rw [hp] at hupdate
      dsimp only at hupdate
      rw [h.writeMutations] at hupdate
      cases hupdate
      refine .inr ⟨key, rfl, h.write ?_, rfl, rfl, rfl, .inl rfl, fun _ _ hmissing =>
        absurd hmissing hne⟩
      exact data.toMutations_userWrite hversion
  | delete key =>
    obtain ⟨t₁, hdelete, hstep⟩ := bind_eq_ok.mp hstep
    cases hstep
    rw [delete, h.writeMutations] at hdelete
    cases hdelete
    refine .inr ⟨key, rfl, h.write ?_, rfl, rfl, rfl, .inl rfl, nofun⟩
    have hversion := t.version?_createPrecondition key
    exact .of_cons (.delete key (t.createPrecondition key)) rfl nofun hversion []

/-- What one call of a run leaves to the calls after it. -/
structure Follows (t t' : Transaction) : Prop where
  guarded : Guarded t'
  written : t.writtenDocs ⊆ t'.writtenDocs
  versions : ∀ key version, t.getVersion key = some version → t'.getVersion key = some version
  error : t.lastWriteError = some noSuchDocument → t'.lastWriteError = some noSuchDocument

theorem Guarded.follows (h : Guarded t) (hstep : t.step call = .ok (t', answer)) :
    Follows t t' := by
  rcases h.step_cases hstep with ⟨-, hguarded, hwritten, herror, hkept, -⟩ |
    ⟨key, -, hguarded, -, hwritten, hread, herror, -⟩
  · exact ⟨hguarded, hwritten.symm.subset, hkept, herror.trans⟩
  · refine ⟨hguarded, ?_, fun key version hkey => ?_, fun h => ?_⟩
    · rw [hwritten]
      exact Finset.subset_insert key t.writtenDocs
    · rw [getVersion, hread]
      exact hkey
    · rcases herror with herror | herror
      · exact herror.trans h
      · exact herror

/-- What a run leaves to the calls after it, which keys it has written, and what it has read. -/
theorem Guarded.run (h : Guarded t) {calls : List TransactionCall}
    {answers : List (Option (Except Status (List MaybeDocument)))}
    (hrun : runAll step t calls = .ok (t', answers)) : Follows t t' ∧
      (∀ key, key ∈ t'.writtenDocs ↔ key ∈ t.writtenDocs ∨ ∃ call ∈ calls, call.writes = some key) ∧
      ∀ documents, some (.ok documents) ∈ answers → ∀ doc ∈ documents, t'.HasRead doc := by
  induction calls generalizing t answers with
  | nil =>
    cases hrun
    exact ⟨⟨h, subset_rfl, fun _ _ h => h, id⟩, fun key => by simp, nofun⟩
  | cons call calls ih =>
    obtain ⟨t₁, answer, answers', hfirst, hrest, rfl⟩ := runAll_cons_eq_ok.mp hrun
    have hone := h.follows hfirst
    obtain ⟨hfollows, hwrites, hreads⟩ := ih hone.guarded hrest
    refine ⟨⟨hfollows.guarded, hone.written.trans hfollows.written,
      fun key version hkey => hfollows.versions key version (hone.versions key version hkey),
      fun herror => hfollows.error (hone.error herror)⟩, fun key => ?_, fun documents hmem => ?_⟩
    · rw [hwrites key]
      simp only [mem_cons, or_and_right, exists_or, exists_eq_left]
      rcases h.step_cases hfirst with ⟨hnone, -, hwritten, -⟩ | ⟨key', hsome, -, -, hwritten, -⟩
      · rw [hwritten, hnone]
        simp only [reduceCtorEq, false_or]
      · rw [hwritten, hsome, Finset.mem_insert, Option.some_inj]
        constructor
        · rintro ((rfl | hkey) | hlater)
          · exact .inr (.inl rfl)
          · exact .inl hkey
          · exact .inr (.inr hlater)
        · rintro (hkey | rfl | hlater)
          · exact .inl (.inr hkey)
          · exact .inl (.inl rfl)
          · exact .inr hlater
    · rcases mem_cons.mp hmem with heq | hmem
      · rcases h.step_cases hfirst with ⟨-, -, -, -, -, hread⟩ | ⟨_, -, -, hnone, -⟩
        · exact fun doc hdoc => (hread documents heq.symm doc hdoc).mono hfollows.versions
        · cases hnone.symm.trans heq.symm
      · exact hreads documents hmem

/-! ## The commit -/

theorem mem_unwritten {key : DocumentKey} : key ∈ t.unwritten ↔
    (t.getVersion key).isSome ∧ ∀ m ∈ t.mutations, m.key ≠ key := by
  have hloop : ∀ (mutations : List Mutation) (keys : DocumentKeySet),
      key ∈ mutations.foldl (fun keys mutation => keys.erase mutation.key) keys ↔
        key ∈ keys ∧ ∀ m ∈ mutations, m.key ≠ key := by
    intro mutations
    induction mutations with
    | nil => exact fun keys => ⟨fun h => ⟨h, nofun⟩, And.left⟩
    | cons m mutations ih =>
      intro keys
      rw [foldl_cons, ih, Finset.mem_erase, forall_mem_cons]
      constructor
      · exact fun ⟨⟨hne, hkey⟩, hrest⟩ => ⟨hkey, hne.symm, hrest⟩
      · exact fun ⟨hkey, hne, hrest⟩ => ⟨⟨hne.symm, hkey⟩, hrest⟩
  rw [unwritten, hloop, mem_toFinset, OrdMap.mem_keys]
  rfl

/-- The verify mutations of a key: one, or none. -/
theorem ofKey_verify (order : KeyOrder) (keys : DocumentKeySet) (f : DocumentKey → Precondition)
    (key : DocumentKey) : ofKey ((order.list keys).map fun key => .verify key (f key)) key =
      if key ∈ keys then [.verify key (f key)] else [] := by
  have hloop : ∀ list : List DocumentKey, list.Nodup →
      ofKey (list.map fun key => .verify key (f key)) key =
        if key ∈ list then [.verify key (f key)] else [] := by
    intro list hnodup
    induction list with
    | nil => rfl
    | cons key' list ih =>
      obtain ⟨hhead, hnodup⟩ := nodup_cons.mp hnodup
      by_cases heq : key' = key
      · subst heq
        rw [if_pos mem_cons_self]
        refine (ofKey_cons_self (.verify key' (f key')) _).trans (congrArg _ ?_)
        exact (ih hnodup).trans (if_neg hhead)
      · rw [map_cons, ofKey_cons_of_ne (.verify key' (f key')) heq, ih hnodup]
        by_cases hmem : key ∈ list
        · rw [if_pos hmem, if_pos (mem_cons_of_mem key' hmem)]
        · rw [if_neg hmem, if_neg fun h => (mem_cons.mp h).elim (fun h => heq h.symm) hmem]
  rw [hloop _ (order.nodup keys)]
  by_cases hmem : key ∈ keys
  · rw [if_pos hmem, if_pos ((order.mem keys key).mpr hmem)]
  · rw [if_neg hmem, if_neg fun h => hmem ((order.mem keys key).mp h)]

/-- What is sent for a key that was read: the mutations of its writes, or the one that verifies
it. -/
theorem Guarded.commit (h : Guarded t) (order : KeyOrder)
    (hcommit : t.commit order = .ok (t', .ok mutations)) {version : SnapshotVersion}
    (hread : t.getVersion key = some version) : GuardedBy (some version) (ofKey mutations key) ∧
      (if key ∈ t.writtenDocs then ofKey mutations key = ofKey t.mutations key
        else ofKey mutations key = [.verify key (.updateTime version)]) := by
  rw [Transaction.commit, h.ensureCommitNotCalled] at hcommit
  cases herror : t.lastWriteError with
  | some status =>
    simp only [herror] at hcommit
    cases (ok_inj hcommit).2
  | none =>
    simp only [herror] at hcommit
    obtain rfl := Except.ok.inj (ok_inj hcommit).2
    rw [ofKey_append, ofKey_verify]
    by_cases hwritten : key ∈ t.writtenDocs
    · have hguards := h.guards herror key hwritten
      have hmem : key ∉ t.unwritten := by
        obtain ⟨first, rest, hcons, -, -⟩ := hguards
        have hfirst : first ∈ ofKey t.mutations key := hcons ▸ mem_cons_self
        obtain ⟨hfirst, hkey⟩ := mem_filter.mp hfirst
        exact fun hkey' => (mem_unwritten.mp hkey').2 first hfirst (of_decide_eq_true hkey)
      rw [if_neg hmem, append_nil, if_pos hwritten, ← hread]
      exact ⟨hguards, rfl⟩
    · have hmem : key ∈ t.unwritten := by
        refine mem_unwritten.mpr ⟨hread ▸ rfl, fun m hm heq => hwritten ?_⟩
        exact heq ▸ h.written m hm
      have hprecondition : t.createPrecondition key = .updateTime version := by
        rw [createPrecondition, hread]
        exact if_pos hwritten
      rw [if_pos hmem, h.ofKey_eq_nil hwritten, if_neg hwritten, hprecondition]
      exact ⟨⟨_, [], rfl, rfl, nofun⟩, rfl⟩

/-- The mutations that reach the backend guard every document that the transaction has read: the
first mutation of its key asks for the version that was read, and no other asks for any; it is a
verify mutation exactly if the body did not write the key.  A commit after an update, as the first
write of its key, of a document that was read as missing sends nothing and fails. -/
theorem commit_guards_reads (order : KeyOrder) {calls : List TransactionCall}
    {answers : List (Option (Except Status (List MaybeDocument)))}
    (hrun : runAll step {} calls = .ok (t, answers)) :
    (∀ documents, some (.ok documents) ∈ answers → ∀ doc ∈ documents,
      ∃ version, docVersion doc = .ok version ∧ t.getVersion doc.key = some version) ∧
    (∀ t' mutations, t.commit order = .ok (t', .ok mutations) →
      ∀ key version, t.getVersion key = some version →
        ∃ first rest, ofKey mutations key = first :: rest ∧
          first.precondition = .updateTime version ∧
          (∀ later ∈ rest, ∀ time, later.precondition ≠ .updateTime time) ∧
          mutations.countP (fun m => m.key = key ∧ m.precondition = .updateTime version) = 1 ∧
          ((∃ p, first = .verify key p) ↔ ∀ call ∈ calls, call.writes ≠ some key)) ∧
    (∀ before key data after s earlier, calls = before ++ .update key data :: after →
      runAll step {} before = .ok (s, earlier) → s.getVersion key = some .none →
      (∀ call ∈ before, call.writes ≠ some key) →
        t.commit order = .ok (t, .error noSuchDocument)) := by
  obtain ⟨hfollows, hwrites, hreads⟩ := guarded_new.run hrun
  have hguarded := hfollows.guarded
  refine ⟨hreads, fun t' mutations hcommit key version hread => ?_,
    fun before key data after s earlier hcalls hbefore hmissing hfirst => ?_⟩
  · obtain ⟨hguards, hwhich⟩ := hguarded.commit order hcommit hread
    have hcount := hguards.countP
    obtain ⟨first, rest, hcons, hversion, hrest⟩ := hguards
    have hlater : ∀ later ∈ rest, ∀ time, later.precondition ≠ .updateTime time :=
      fun later hmem time heq =>
        nomatch (hrest later hmem).symm.trans (Precondition.version?_eq_some.mpr heq)
    refine ⟨first, rest, hcons, Precondition.version?_eq_some.mp hversion, hlater, ?_, ?_⟩
    · rw [ofKey, countP_filter] at hcount
      rw [← hcount]
      refine countP_congr fun m _ => ?_
      rw [decide_eq_true_eq, Bool.and_eq_true, decide_eq_true_eq, decide_eq_true_eq]
      exact and_comm
    · have hunwritten : (∀ call ∈ calls, call.writes ≠ some key) ↔ key ∉ t.writtenDocs := by
        rw [hwrites key]
        simp
      rw [hunwritten]
      by_cases hwritten : key ∈ t.writtenDocs
      · rw [if_pos hwritten] at hwhich
        have hmem : first ∈ ofKey t.mutations key := by
          rw [← hwhich, hcons]
          exact mem_cons_self
        obtain ⟨hmem, hkey⟩ := mem_filter.mp hmem
        refine ⟨fun ⟨p, hp⟩ => ?_, absurd hwritten⟩
        exact absurd hp ((of_decide_eq_true hkey) ▸ hguarded.noVerify first hmem p)
      · rw [if_neg hwritten, hcons] at hwhich
        exact ⟨fun _ => hwritten, fun _ => ⟨_, (List.cons.inj hwhich).1⟩⟩
  · obtain ⟨hbetween, hwritten, -⟩ := guarded_new.run hbefore
    rw [hcalls] at hrun
    obtain ⟨s', _, _, hbefore', hlast, -⟩ := runAll_append_eq_ok.mp hrun
    obtain ⟨rfl, -⟩ := ok_inj (hbefore.symm.trans hbefore')
    obtain ⟨s₁, _, _, hupdate, hafter, -⟩ := runAll_cons_eq_ok.mp hlast
    have hguard : s.guard key = some .none := by
      refine (if_neg fun hmem => ?_).trans hmissing
      rcases (hwritten key).mp hmem with hmem | ⟨call, hcall, hwrites⟩
      · exact Finset.notMem_empty key hmem
      · exact hfirst call hcall hwrites
    have herror : s₁.lastWriteError = some noSuchDocument := by
      rcases hbetween.guarded.step_cases hupdate with ⟨hnone, -⟩ |
        ⟨key', hkey', -, -, -, -, -, hfails⟩
      · cases hnone
      · cases hkey'
        exact hfails data rfl hguard
    have hlast := ((hbetween.guarded.follows hupdate).guarded.run hafter).1.error herror
    rw [Transaction.commit, hguarded.ensureCommitNotCalled, hlast]
    rfl

/-! ## A document that was read as missing -/

namespace MissingRoom

def room : DocumentKey := ⟨[[114, 111, 111, 109, 115], [97]], rfl⟩

def readRoom : TransactionCall := .lookup [room] fun _ => .ok [.noDocument room .none false]

def createRoom : TransactionCall := .set room ⟨[], ⟨[], .nil⟩, [], false⟩

def updateRoom : TransactionCall := .update room ⟨[], ⟨[], .nil⟩, []⟩

end MissingRoom

open MissingRoom in
theorem commit_guards_reads_missingRoom :
    ∃ t answers, runAll step {} [readRoom, updateRoom] = .ok (t, answers) ∧
      t.commit .sorted = .ok (t, .error noSuchDocument) := by
  obtain ⟨t, answers, hrun⟩ :
      ∃ t answers, runAll step {} [readRoom, updateRoom] = .ok (t, answers) := ⟨_, _, rfl⟩
  refine ⟨t, answers, hrun, ?_⟩
  refine (commit_guards_reads .sorted hrun).2.2 [readRoom] room _ [] _ _ rfl rfl rfl ?_
  exact forall_mem_singleton.mpr nofun

open MissingRoom in
/-- The room is read as missing, created, and updated: the update is not the first write of the
room, and the commit goes to the backend. -/
theorem commit_after_update_of_created :
    ∃ t answers t' mutations, runAll step {} [readRoom, createRoom, updateRoom] = .ok (t, answers) ∧
      t.getVersion room = some .none ∧ t.commit .sorted = .ok (t', .ok mutations) := by
  exact ⟨_, _, _, _, rfl, rfl, rfl⟩

end Transaction

end Firebase.Firestore.Core
