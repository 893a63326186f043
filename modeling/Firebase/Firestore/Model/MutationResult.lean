import Firebase.Firestore.Model.MutationBatch

/-!
# Acknowledged mutations

What a mutation does to the document in the remote document cache once the backend has committed it
(`ApplyToRemoteDocument` of the classes of mutations), and the same for a batch
(`mutation_batch.cc`, `mutation_batch_result.cc`).
-/

namespace Firebase.Firestore.Model

open Lib Util

structure MutationResult where
  version : SnapshotVersion
  transformResults : Option (List FieldValue)

/-- `TransformOperation::ApplyToRemoteDocument`.  The backend sends no result of array operations.
-/
def TransformOperation.applyToRemoteDocument (operation : TransformOperation)
    (previousValue : Option FieldValue) (transformResult : FieldValue) : FieldValue :=
  match operation with
  | serverTimestamp | increment _ _ => transformResult
  | arrayUnion elements => .array (elements.foldl union (coercedFieldValuesArray previousValue))
  | arrayRemove elements => .array (elements.foldl remove (coercedFieldValuesArray previousValue))

variable {doc : Option MaybeDocument} {result : MutationResult} {doc' : MaybeDocument}
  {mutation : Mutation}

namespace Mutation

def serverTransformResults (fieldTransforms : List FieldTransform) (baseDoc : Option MaybeDocument)
    (results : List FieldValue) : Hard (List FieldValue) := do
  hardAssert (fieldTransforms.length = results.length)
    "server transform result size should match field transforms size"
  return (fieldTransforms.zip results).map fun (fieldTransform, result) =>
    fieldTransform.transformation.applyToRemoteDocument
      ((existing baseDoc).bind (·.field fieldTransform.path)) result

/-- What `ApplyToRemoteDocument` of each kind of mutation makes once the assertions hold that all of
them start with. -/
def committedDocument (mutation : Mutation) (doc : Option MaybeDocument) (result : MutationResult) :
    Hard MaybeDocument :=
  match mutation with
  | set key value _ => return .document ⟨value, key, result.version, .committedMutations⟩
  | patch key value mask precondition =>
    -- The mutation was not rejected, so an invalid precondition means that the cache is behind.
    if precondition.isValidFor doc then do
      let newData ← patchDocument value mask doc
      return .document ⟨newData, key, result.version, .committedMutations⟩
    else return .unknownDocument key result.version
  | transform key fieldTransforms =>
    if mutation.precondition.isValidFor doc then
      match existing doc, result.transformResults with
      | none, _ => .error ⟨"Unknown MaybeDocument type"⟩
      | _, none => .error ⟨"Transform results missing from TransformMutation."⟩
      | some existingDoc, some results => do
        let transformResults ← serverTransformResults fieldTransforms doc results
        let newData ← transformObject fieldTransforms existingDoc.data transformResults
        return .document ⟨newData, key, result.version, .committedMutations⟩
    else return .unknownDocument key result.version
  | delete key _ => return .noDocument key result.version true
  | verify _ _ => .error ⟨"VerifyMutation should only be used in Transactions."⟩

def transformResultsMessage : Mutation → String
  | set _ _ _ => "Transform results received by SetMutation."
  | patch _ _ _ _ => "Transform results received by PatchMutation."
  | transform _ _ => "Transform results missing from TransformMutation."
  | delete _ _ => "Transform results received by DeleteMutation."
  | verify _ _ => "VerifyMutation should only be used in Transactions."

def applyToRemoteDocument (mutation : Mutation) (doc : Option MaybeDocument)
    (result : MutationResult) : Hard MaybeDocument :=
  match mutation with
  | verify _ _ => .error ⟨"VerifyMutation should only be used in Transactions."⟩
  | mutation => do
    mutation.verifyKeyMatches doc
    hardAssert (result.transformResults.isSome = mutation.isTransform)
      mutation.transformResultsMessage
    mutation.committedDocument doc result

/-- A committed mutation leaves a document of its key, at the version of the result, that has
committed mutations or is unknown. -/
theorem committedDocument_ok (h : mutation.committedDocument doc result = .ok doc') :
    doc'.key = mutation.key ∧ doc'.version = result.version := by
  cases mutation with
  | set key value precondition =>
    cases h
    exact ⟨rfl, rfl⟩
  | patch key value mask precondition =>
    rw [committedDocument] at h
    split_ifs at h
    · obtain ⟨newData, -, h⟩ := bind_eq_ok.mp h
      cases h
      exact ⟨rfl, rfl⟩
    · cases h
      exact ⟨rfl, rfl⟩
  | transform key fieldTransforms =>
    rw [committedDocument] at h
    split_ifs at h
    · split at h
      · cases h
      · cases h
      · obtain ⟨results, -, h⟩ := bind_eq_ok.mp h
        obtain ⟨newData, -, h⟩ := bind_eq_ok.mp h
        cases h
        exact ⟨rfl, rfl⟩
    · cases h
      exact ⟨rfl, rfl⟩
  | delete key precondition =>
    cases h
    exact ⟨rfl, rfl⟩
  | verify key precondition => cases h

theorem applyToRemoteDocument_ok (h : mutation.applyToRemoteDocument doc result = .ok doc') :
    doc'.key = mutation.key ∧ doc'.version = result.version := by
  unfold applyToRemoteDocument at h
  split at h
  · cases h
  · obtain ⟨_, -, h⟩ := bind_eq_ok.mp h
    obtain ⟨_, -, h⟩ := bind_eq_ok.mp h
    exact committedDocument_ok h

end Mutation

structure MutationBatchResult where
  batch : MutationBatch
  commitVersion : SnapshotVersion
  mutationResults : List MutationResult
  streamToken : Bytes
  /-- What the constructor asserts. -/
  lengths : batch.mutations.length = mutationResults.length

namespace MutationBatchResult

def results (result : MutationBatchResult) : List (Mutation × MutationResult) :=
  result.batch.mutations.zip result.mutationResults

/-- `MutationBatchResult::doc_versions`.  The version of a result is always there, so the one of the
commit is never used. -/
def docVersions (result : MutationBatchResult) : OrdMap DocumentKey SnapshotVersion :=
  result.results.foldl (fun versions (mutation, mutationResult) =>
    versions.insert mutation.key mutationResult.version) .empty

end MutationBatchResult

namespace MutationBatch

def keys (batch : MutationBatch) : Finset DocumentKey :=
  batch.mutations.foldl (fun keys mutation => insert mutation.key keys) ∅

variable {key : DocumentKey}

theorem mem_keys {batch : MutationBatch} :
    key ∈ batch.keys ↔ ∃ mutation ∈ batch.mutations, mutation.key = key := by
  have hfold : ∀ (mutations : List Mutation) (keys : Finset DocumentKey),
      key ∈ mutations.foldl (fun keys mutation => insert mutation.key keys) keys ↔
        (∃ mutation ∈ mutations, mutation.key = key) ∨ key ∈ keys := by
    intro mutations
    induction mutations with
    | nil => simp
    | cons mutation mutations ih =>
      intro keys
      rw [List.foldl_cons, ih, Finset.mem_insert, List.exists_mem_cons_iff]
      rw [or_left_comm, ← or_assoc, eq_comm]
  rw [keys, hfold]
  simp

def applyResults (documentKey : DocumentKey) (results : List (Mutation × MutationResult))
    (maybeDoc : Option MaybeDocument) : Hard (Option MaybeDocument) :=
  results.foldlM (fun doc (mutation, mutationResult) =>
    if mutation.key = documentKey then some <$> mutation.applyToRemoteDocument doc mutationResult
    else .ok doc) maybeDoc

/-- `MutationBatch::ApplyToRemoteDocument`, where the batch is that of the result. -/
def applyToRemoteDocument (maybeDoc : Option MaybeDocument) (documentKey : DocumentKey)
    (result : MutationBatchResult) : Hard (Option MaybeDocument) := do
  hardAssert (maybeDoc.all (·.key = documentKey)) "ApplyTo: key doesn't match maybe_doc key"
  applyResults documentKey result.results maybeDoc

variable {doc doc' : Option MaybeDocument}

/-- The version of a document follows the versions of its mutations. -/
theorem applyResults_ok {results : List (Mutation × MutationResult)}
    {versions : OrdMap DocumentKey SnapshotVersion}
    (hdoc : ∀ version, versions.get? key = some version → ∃ d, doc = some d ∧ d.version = version)
    (hkey : ∀ d ∈ doc, d.key = key) (h : applyResults key results doc = .ok doc') :
    (∀ version, (results.foldl (fun versions (mutation, mutationResult) =>
        versions.insert mutation.key mutationResult.version) versions).get? key = some version →
      ∃ d, doc' = some d ∧ d.version = version) ∧ ∀ d ∈ doc', d.key = key := by
  induction results generalizing doc versions with
  | nil =>
    cases h
    exact ⟨hdoc, hkey⟩
  | cons entry results ih =>
    obtain ⟨mutation, mutationResult⟩ := entry
    obtain ⟨doc₁, hfirst, hrest⟩ := bind_eq_ok.mp h
    dsimp only at hfirst ⊢
    split_ifs at hfirst with hmutation
    · obtain ⟨d, hd, rfl⟩ : ∃ d, mutation.applyToRemoteDocument doc mutationResult = .ok d ∧
          some d = doc₁ := by
        cases hd : mutation.applyToRemoteDocument doc mutationResult with
        | error e =>
          rw [hd] at hfirst
          cases hfirst
        | ok d =>
          rw [hd] at hfirst
          exact ⟨d, rfl, Except.ok.inj hfirst⟩
      obtain ⟨hdkey, hversion⟩ := Mutation.applyToRemoteDocument_ok hd
      refine ih (fun version hget => ⟨d, rfl, ?_⟩) ?_ hrest
      · rw [OrdMap.get?_insert, if_pos hmutation.symm] at hget
        exact hversion.trans (Option.some.inj hget)
      · rintro _ ⟨⟩
        exact hdkey.trans hmutation
    · cases hfirst
      refine ih (fun version hget => hdoc version ?_) hkey hrest
      rwa [OrdMap.get?_insert, if_neg (Ne.symm hmutation)] at hget

/-- The document that a batch leaves is of the version that the result gives for it. -/
theorem applyToRemoteDocument_ok
    {result : MutationBatchResult} (h : applyToRemoteDocument doc key result = .ok doc')
    {version : SnapshotVersion} (hversion : result.docVersions.get? key = some version) :
    ∃ d, doc' = some d ∧ d.key = key ∧ d.version = version := by
  obtain ⟨_, hassert, h⟩ := bind_eq_ok.mp h
  have hkey : ∀ d ∈ doc, d.key = key := by
    simpa [Option.all_eq_true] using hardAssert_eq_ok.mp hassert
  have hstart : ∀ version, OrdMap.empty.get? key =
      some version → ∃ d, doc = some d ∧ d.version = version := by simp
  obtain ⟨hversions, hkeys⟩ := applyResults_ok hstart hkey h
  obtain ⟨d, rfl, hd⟩ := hversions version hversion
  exact ⟨d, rfl, hkeys d rfl, hd⟩

end MutationBatch

end Firebase.Firestore.Model
