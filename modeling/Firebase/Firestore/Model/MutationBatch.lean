import Firebase.Firestore.Model.Mutation

/-!
# Mutation batches

`model::MutationBatch` (`mutation_batch.cc`): the mutations of one local write, and the
base mutations that were recorded with it so that its transforms start from the
same values every time they are applied.
-/

namespace Firebase.Firestore.Model

open Lib Util

/-- `model::MutationBatch`.  Batch ids are integers here. -/
structure MutationBatch where
  batchId : Int
  localWriteTime : Timestamp
  baseMutations : List Mutation
  mutations : List Mutation
  /-- What the constructor asserts. -/
  nonempty : mutations ≠ []

variable {doc : Option MaybeDocument} {key : DocumentKey}

namespace MutationBatch

def applyToLocalDocument (batch : MutationBatch) (maybeDoc : Option MaybeDocument)
    (documentKey : DocumentKey) : Hard (Option MaybeDocument) := do
  hardAssert (maybeDoc.all (·.key = documentKey)) "key doesn't match maybe_doc key"
  let baseDoc ← batch.baseMutations.foldlM (fun doc mutation =>
    if mutation.key = documentKey then mutation.applyToLocalView doc doc batch.localWriteTime
    else .ok doc) maybeDoc
  batch.mutations.foldlM (fun doc mutation =>
    if mutation.key = documentKey then mutation.applyToLocalView doc baseDoc batch.localWriteTime
    else .ok doc) baseDoc

def touches (batch : MutationBatch) (key : DocumentKey) : Bool :=
  batch.mutations.any (·.key = key)

/-- What the writers of batches promise of their mutations. -/
def Applicable (batch : MutationBatch) : Prop :=
  (∀ mutation ∈ batch.baseMutations, mutation.Applicable) ∧
    ∀ mutation ∈ batch.mutations, mutation.Applicable

def ofKey (key : DocumentKey) (mutations : List Mutation) : List Mutation :=
  mutations.filter (·.key = key)

def baseView (batch : MutationBatch) (key : DocumentKey) (doc : Option Document) :
    Option Document :=
  (ofKey key batch.baseMutations).foldl
    (fun doc mutation => mutation.localView doc doc batch.localWriteTime) doc

def localView (batch : MutationBatch) (key : DocumentKey) (doc : Option Document) :
    Option Document :=
  let baseDoc := batch.baseView key doc
  (ofKey key batch.mutations).foldl
    (fun doc mutation => mutation.localView doc baseDoc batch.localWriteTime) baseDoc

/-- Mutations of a key, one after the other.  The document before the batch is `base` of the
current one: the current one itself for base mutations, a fixed one for the others. -/
theorem foldlM_applyToLocalView {mutations : List Mutation}
    (h : ∀ mutation ∈ mutations, mutation.Applicable)
    (base : Option MaybeDocument → Option MaybeDocument)
    (baseView : Option Document → Option Document)
    (hbase : ∀ doc, existing (base doc) = baseView (existing doc)) (time : Timestamp)
    (hkey : ∀ d ∈ doc, d.key = key) : ∃ r, mutations.foldlM (fun doc mutation =>
        if mutation.key = key then mutation.applyToLocalView doc (base doc) time
        else .ok doc) doc = .ok r ∧
      existing r = (ofKey key mutations).foldl
        (fun doc mutation => mutation.localView doc (baseView doc) time)
        (existing doc) ∧
      ∀ d ∈ r, d.key = key := by
  induction mutations generalizing doc with
  | nil => exact ⟨doc, rfl, rfl, hkey⟩
  | cons mutation mutations ih =>
    have hrest := fun mutation' hmem => h mutation' (List.mem_cons_of_mem mutation hmem)
    rw [List.foldlM_cons]
    by_cases hmutation : mutation.key = key
    · obtain ⟨r, hr, hexisting, hrkey⟩ := Mutation.applyToLocalView_eq
        (h mutation List.mem_cons_self) (hmutation ▸ hkey) (base doc) time
      rw [hmutation] at hrkey
      rw [if_pos hmutation, hr, ofKey, List.filter_cons_of_pos (by simpa using hmutation),
        List.foldl_cons, ← hbase, ← hexisting]
      exact ih hrest hrkey
    · rw [if_neg hmutation, ofKey, List.filter_cons_of_neg (by simpa using hmutation)]
      exact ih hrest hkey

/-- An applicable batch does not abort on a document of the key, and its result exists as
`localView` says. -/
theorem applyToLocalDocument_eq {batch : MutationBatch} (h : batch.Applicable)
    (hkey : ∀ d ∈ doc, d.key = key) : ∃ r, batch.applyToLocalDocument doc key = .ok r ∧
      existing r = batch.localView key (existing doc) ∧ ∀ d ∈ r, d.key = key := by
  have hassert : doc.all (·.key = key) = true := by
    simpa [Option.all_eq_true] using hkey
  obtain ⟨baseDoc, hbaseDoc, hbaseView, hbaseKey⟩ :=
    foldlM_applyToLocalView h.1 id id (fun _ => rfl) batch.localWriteTime hkey
  obtain ⟨r, hr, hview, hrkey⟩ :=
    foldlM_applyToLocalView h.2 (fun _ => baseDoc) (fun _ => existing baseDoc) (fun _ => rfl)
      batch.localWriteTime hbaseKey
  refine ⟨r, ?_, ?_, hrkey⟩
  · rw [applyToLocalDocument, hassert, hardAssert_true, ok_bind]
    exact (congrArg (· >>= _) hbaseDoc).trans hr
  · rw [hview, hbaseView]
    rfl

end MutationBatch

end Firebase.Firestore.Model
