import Firebase.Firestore.Model.FieldValue

/-!
# Documents and mutations

`model::MaybeDocument` and the mutations of a pending write (`mutation.cc`,
`set_mutation.cc`, `patch_mutation.cc`, `transform_mutation.cc`,
`delete_mutation.cc`, `verify_mutation.cc`), with what they do to the local view of
a document.

What a mutation does depends on the document only through its existing part (`Existing`): a missing,
a deleted and an unknown document are all the same to it.
-/

namespace Firebase.Firestore.Model

open Lib Util

/-! ## Documents -/

inductive DocumentState where
  | localMutations | committedMutations | synced
deriving DecidableEq

@[ext] structure Document where
  data : ObjectValue
  key : DocumentKey
  version : SnapshotVersion
  documentState : DocumentState

def Document.field (doc : Document) (path : FieldPath) : Option FieldValue := doc.data.get path

def Document.hasLocalMutations (doc : Document) : Bool := doc.documentState = .localMutations

def Document.hasCommittedMutations (doc : Document) : Bool :=
  doc.documentState = .committedMutations

inductive MaybeDocument where
  | document (doc : Document)
  | noDocument (key : DocumentKey) (version : SnapshotVersion) (hasCommittedMutations : Bool)
  | unknownDocument (key : DocumentKey) (version : SnapshotVersion)

namespace MaybeDocument

def key : MaybeDocument → DocumentKey
  | document doc => doc.key
  | noDocument key _ _ | unknownDocument key _ => key

def version : MaybeDocument → SnapshotVersion
  | document doc => doc.version
  | noDocument _ version _ | unknownDocument _ version => version

/-- `MaybeDocument::is_document`, with the document. -/
def asDocument : MaybeDocument → Option Document
  | document doc => some doc
  | _ => none

@[simp] theorem asDocument_document (doc : Document) : (document doc).asDocument = some doc := rfl

@[simp] theorem key_document (doc : Document) : (document doc).key = doc.key := rfl

end MaybeDocument

def existing (doc : Option MaybeDocument) : Option Document := doc.bind MaybeDocument.asDocument

@[simp] theorem existing_none : existing none = none := rfl

@[simp] theorem existing_some (doc : MaybeDocument) : existing (some doc) = doc.asDocument := rfl

@[simp] theorem existing_map_document (doc : Option Document) :
    existing (doc.map .document) = doc := by
  cases doc <;> rfl

variable {doc : Option MaybeDocument}

theorem existing_eq_some_iff {d : Document} : existing doc = some d ↔ doc = some (.document d) := by
  constructor
  · intro h
    match doc, h with
    | some (.document _), rfl => rfl
  · rintro rfl
    rfl

/-! ## Preconditions -/

inductive Precondition where
  | none
  | exists_ (value : Bool)
  | updateTime (time : SnapshotVersion)
deriving DecidableEq

def Precondition.isValidFor (precondition : Precondition) (doc : Option MaybeDocument) : Bool :=
  match precondition with
  | none => true
  | exists_ value => value == (existing doc).isSome
  | updateTime time => (existing doc).any (·.version == time)

/-! ## Transforms -/

inductive TransformOperation where
  | serverTimestamp
  | arrayUnion (elements : List FieldValue)
  | arrayRemove (elements : List FieldValue)
  | increment (operand : FieldValue) (isNumber : operand.isNumber)

namespace TransformOperation

def coercedFieldValuesArray : Option FieldValue → List FieldValue
  | some (.array value) => value
  | _ => []

def union (result : List FieldValue) (element : FieldValue) : List FieldValue :=
  if result.any (·.equals element) then result else result ++ [element]

def remove (result : List FieldValue) (element : FieldValue) : List FieldValue :=
  result.eraseP (·.equals element)

def safeIncrement (x y : Int64) : Int64 :=
  if 0 < x ∧ y > Int64.maxValue - x then .maxValue
  else if x < 0 ∧ y < Int64.minValue - x then .minValue
  else x + y

def asDouble : FieldValue → Hard Float
  | .double value => .ok value
  | .integer value => .ok (Float.ofInt value.toInt)
  | _ => .error ⟨"Expected 'operand' to be of numeric type"⟩

def computeBaseValue : Option FieldValue → FieldValue
  | some (.integer value) => .integer value
  | some (.double value) => .double value
  | _ => .integer 0

def applyIncrement (operand : FieldValue) (previousValue : Option FieldValue) : Hard FieldValue :=
  match computeBaseValue previousValue, operand with
  | .integer base, .integer operand => .ok (.integer (safeIncrement base operand))
  | base, operand => do
    let sum := (← asDouble base) + (← asDouble operand)
    return FieldValue.fromDouble sum

def applyToLocalView (operation : TransformOperation) (previousValue : Option FieldValue)
    (localWriteTime : Timestamp) : Hard FieldValue :=
  match operation with
  | serverTimestamp => .ok (.serverTimestamp localWriteTime previousValue)
  | arrayUnion elements =>
    .ok (.array (elements.foldl union (coercedFieldValuesArray previousValue)))
  | arrayRemove elements =>
    .ok (.array (elements.foldl remove (coercedFieldValuesArray previousValue)))
  | increment operand _ => applyIncrement operand previousValue

end TransformOperation

structure FieldTransform where
  path : FieldPath
  transformation : TransformOperation

/-- `model::FieldMask`: a set of paths. -/
structure FieldMask where
  fields : List FieldPath
  sorted : fields.Pairwise (· < ·)

/-! ## Mutations -/

inductive Mutation where
  | set (key : DocumentKey) (value : ObjectValue) (precondition : Precondition)
  | patch (key : DocumentKey) (value : ObjectValue) (mask : FieldMask)
      (precondition : Precondition)
  | transform (key : DocumentKey) (fieldTransforms : List FieldTransform)
  | delete (key : DocumentKey) (precondition : Precondition)
  | verify (key : DocumentKey) (precondition : Precondition)

namespace Mutation

def key : Mutation → DocumentKey
  | set key _ _ | patch key _ _ _ | transform key _ | delete key _ | verify key _ => key

def precondition : Mutation → Precondition
  | set _ _ precondition | patch _ _ _ precondition | delete _ precondition
  | verify _ precondition => precondition
  | transform _ _ => .exists_ true

def isPatch : Mutation → Bool
  | patch _ _ _ _ => true
  | _ => false

def verifyKeyMatches (mutation : Mutation) : Option MaybeDocument → Hard Unit
  | none => .ok ()
  | some doc =>
    hardAssert (doc.key = mutation.key)
      "Can only apply a mutation to a document with the same key"

def getPostMutationVersion (doc : Option MaybeDocument) : SnapshotVersion :=
  match existing doc with
  | some doc => doc.version
  | none => .none

def patchObject (value : ObjectValue) (mask : FieldMask) (object : ObjectValue) :
    Hard ObjectValue :=
  mask.fields.foldlM (fun object path =>
    if path.isEmpty then .ok object
    else
      match value.get path with
      | none => object.delete path
      | some newValue => object.set newValue path) object

def patchDocument (value : ObjectValue) (mask : FieldMask) (doc : Option MaybeDocument) :
    Hard ObjectValue :=
  match existing doc with
  | some doc => patchObject value mask doc.data
  | none => patchObject value mask []

/-- The value that a transform starts from: that of the current document, or, where that has
none, the one before the batch. -/
def previousValue (doc baseDoc : Option MaybeDocument) (path : FieldPath) : Option FieldValue :=
  ((existing doc).bind (·.field path)).or ((existing baseDoc).bind (·.field path))

def localTransformResults (fieldTransforms : List FieldTransform)
    (doc baseDoc : Option MaybeDocument) (localWriteTime : Timestamp) : Hard (List FieldValue) :=
  fieldTransforms.mapM fun fieldTransform =>
    fieldTransform.transformation.applyToLocalView (previousValue doc baseDoc fieldTransform.path)
      localWriteTime

def transformObject (fieldTransforms : List FieldTransform) (object : ObjectValue)
    (transformResults : List FieldValue) : Hard ObjectValue := do
  hardAssert (transformResults.length = fieldTransforms.length) "Transform results size mismatch."
  (fieldTransforms.zip transformResults).foldlM
    (fun object (fieldTransform, result) => object.set result fieldTransform.path) object

/-- The document that `ApplyToLocalView` of each kind of mutation makes once its precondition is
found to hold. -/
def mutatedDocument (mutation : Mutation) (doc baseDoc : Option MaybeDocument)
    (localWriteTime : Timestamp) : Hard MaybeDocument :=
  match mutation with
  | set key value _ =>
    return .document ⟨value, key, getPostMutationVersion doc, .localMutations⟩
  | patch key value mask _ => do
    let newData ← patchDocument value mask doc
    return .document ⟨newData, key, getPostMutationVersion doc, .localMutations⟩
  | transform _ fieldTransforms =>
    match existing doc with
    | none => .error ⟨"Unknown MaybeDocument type"⟩
    | some existingDoc => do
      let transformResults ← localTransformResults fieldTransforms doc baseDoc localWriteTime
      let newData ← transformObject fieldTransforms existingDoc.data transformResults
      return .document ⟨newData, existingDoc.key, existingDoc.version, .localMutations⟩
  | delete key _ => return .noDocument key .none false
  | verify _ _ => .error ⟨"VerifyMutation should only be used in Transactions."⟩

def applyToLocalView (mutation : Mutation) (doc baseDoc : Option MaybeDocument)
    (localWriteTime : Timestamp) : Hard (Option MaybeDocument) :=
  match mutation with
  | verify _ _ => .error ⟨"VerifyMutation should only be used in Transactions."⟩
  | mutation => do
    mutation.verifyKeyMatches doc
    if mutation.precondition.isValidFor doc then
      some <$> mutation.mutatedDocument doc baseDoc localWriteTime
    else return doc

/-- What the writers of mutations promise: `verify` is never kept in the queue, and a transform
names a field. -/
def Applicable : Mutation → Prop
  | verify _ _ => False
  | transform _ fieldTransforms => ∀ fieldTransform ∈ fieldTransforms, fieldTransform.path ≠ []
  | _ => True

variable {mutation : Mutation}

theorem isSome_of_applyToLocalView {baseDoc result : Option MaybeDocument}
    {time : Timestamp} (hdoc : doc.isSome)
    (h : mutation.applyToLocalView doc baseDoc time = .ok result) : result.isSome := by
  unfold applyToLocalView at h
  split at h
  · cases h
  · obtain ⟨_, -, h⟩ := bind_eq_ok.mp h
    split_ifs at h
    · cases hmutated : mutation.mutatedDocument doc baseDoc time with
      | error e =>
        rw [hmutated] at h
        cases h
      | ok mutated =>
        rw [hmutated] at h
        exact Except.ok.inj h ▸ rfl
    · exact Except.ok.inj h ▸ hdoc

theorem verifyKeyMatches_eq
    (hkey : ∀ d ∈ doc, d.key = mutation.key) : mutation.verifyKeyMatches doc = .ok () := by
  cases doc with
  | none => rfl
  | some d => simp [verifyKeyMatches, hkey d rfl]

theorem patchObject_ok (value : ObjectValue) (mask : FieldMask) (object : ObjectValue) :
    ∃ newData, patchObject value mask object = .ok newData := by
  refine foldlM_ok (fun object path _ => ?_) object
  cases path with
  | nil => exact ⟨object, rfl⟩
  | cons name rest =>
    cases hget : value.get (name :: rest) with
    | none => exact ⟨object.deleteBelow name rest, by simp [ObjectValue.delete]⟩
    | some newValue => exact ⟨object.setBelow name newValue rest, by simp [ObjectValue.set]⟩

theorem asDouble_ok {value : FieldValue} (h : value.isNumber) :
    ∃ d, TransformOperation.asDouble value = .ok d := by
  cases value <;> first | exact ⟨_, rfl⟩ | cases h

theorem isNumber_computeBaseValue (previousValue : Option FieldValue) :
    (TransformOperation.computeBaseValue previousValue).isNumber := by
  unfold TransformOperation.computeBaseValue
  split <;> rfl

theorem applyIncrement_ok {operand : FieldValue} (h : operand.isNumber)
    (previousValue : Option FieldValue) :
    ∃ result, TransformOperation.applyIncrement operand previousValue = .ok result := by
  unfold TransformOperation.applyIncrement
  split
  · exact ⟨_, rfl⟩
  · obtain ⟨x, hx⟩ := asDouble_ok (isNumber_computeBaseValue previousValue)
    obtain ⟨y, hy⟩ := asDouble_ok h
    rw [hx, hy]
    exact ⟨_, rfl⟩

theorem transformOperation_ok (operation : TransformOperation)
    (previousValue : Option FieldValue) (time : Timestamp) :
    ∃ result, operation.applyToLocalView previousValue time = .ok result := by
  cases operation with
  | serverTimestamp => exact ⟨_, rfl⟩
  | arrayUnion elements => exact ⟨_, rfl⟩
  | arrayRemove elements => exact ⟨_, rfl⟩
  | increment operand isNumber => exact applyIncrement_ok isNumber previousValue

theorem transformObject_ok {fieldTransforms : List FieldTransform}
    (h : ∀ fieldTransform ∈ fieldTransforms, fieldTransform.path ≠ []) (object : ObjectValue)
    {transformResults : List FieldValue}
    (hlength : transformResults.length = fieldTransforms.length) :
    ∃ newData, transformObject fieldTransforms object transformResults = .ok newData := by
  rw [transformObject, decide_eq_true hlength]
  refine foldlM_ok (fun object entry hentry => ?_) object
  obtain ⟨fieldTransform, result⟩ := entry
  have hpath := h fieldTransform (List.of_mem_zip hentry).1
  cases hcons : fieldTransform.path with
  | nil => exact absurd hcons hpath
  | cons name rest => exact ⟨_, by simp [hcons]; rfl⟩

/-! ## Mutations see existing documents only -/

section Congr

variable {doc doc' baseDoc baseDoc' : Option MaybeDocument} {mutation : Mutation}

theorem isValidFor_congr (hdoc : existing doc = existing doc') (precondition : Precondition) :
    precondition.isValidFor doc = precondition.isValidFor doc' := by
  cases precondition <;> simp only [Precondition.isValidFor, hdoc]

theorem mutatedDocument_congr (hdoc : existing doc = existing doc')
    (hbase : existing baseDoc = existing baseDoc') (mutation : Mutation) (time : Timestamp) :
    mutation.mutatedDocument doc baseDoc time =
      mutation.mutatedDocument doc' baseDoc' time := by
  cases mutation <;>
    simp only [mutatedDocument, patchDocument, getPostMutationVersion, localTransformResults,
      previousValue, hdoc, hbase]

section

variable (h : mutation.Applicable) (hkey : ∀ d ∈ doc, d.key = mutation.key)

include h hkey

theorem mutatedDocument_ok
    (hvalid : mutation.precondition.isValidFor doc) (baseDoc : Option MaybeDocument)
    (time : Timestamp) :
    ∃ r, mutation.mutatedDocument doc baseDoc time = .ok r ∧ r.key = mutation.key := by
  cases mutation with
  | set key value precondition => exact ⟨_, rfl, rfl⟩
  | patch key value mask precondition =>
    obtain ⟨newData, hnew⟩ : ∃ newData, patchDocument value mask doc = .ok newData := by
      unfold patchDocument
      split <;> exact patchObject_ok value mask _
    refine ⟨.document ⟨newData, key, getPostMutationVersion doc, .localMutations⟩, ?_, rfl⟩
    rw [mutatedDocument, hnew]
    rfl
  | transform key fieldTransforms =>
    obtain ⟨existingDoc, hexisting⟩ : ∃ d, existing doc = some d := by
      simpa [precondition, Precondition.isValidFor, Option.isSome_iff_exists] using hvalid
    obtain ⟨results, hresults, hlength⟩ := mapM_ok fun fieldTransform
      (_ : fieldTransform ∈ fieldTransforms) =>
        transformOperation_ok fieldTransform.transformation
          (previousValue doc baseDoc fieldTransform.path) time
    obtain ⟨newData, hnew⟩ := transformObject_ok h existingDoc.data hlength
    refine ⟨.document ⟨newData, existingDoc.key, existingDoc.version, .localMutations⟩, ?_, ?_⟩
    · rw [mutatedDocument, hexisting]
      dsimp only
      rw [localTransformResults, hresults, ok_bind, hnew]
      rfl
    · exact hkey (.document existingDoc) (existing_eq_some_iff.mp hexisting)
  | delete key precondition => exact ⟨_, rfl, rfl⟩
  | verify key precondition => exact absurd h id

theorem applyToLocalView_eq_ite (baseDoc : Option MaybeDocument) (time : Timestamp) :
    mutation.applyToLocalView doc baseDoc time =
      if mutation.precondition.isValidFor doc then
        some <$> mutation.mutatedDocument doc baseDoc time
      else .ok doc := by
  unfold applyToLocalView
  split
  · exact absurd h id
  · rw [verifyKeyMatches_eq hkey]
    rfl

/-- On documents with the same existing part a mutation has the same effect. -/
theorem applyToLocalView_congr (hkey' : ∀ d ∈ doc', d.key = mutation.key)
    (hdoc : existing doc = existing doc') (hbase : existing baseDoc = existing baseDoc')
    (time : Timestamp) : ∃ r r', mutation.applyToLocalView doc baseDoc time = .ok r ∧
      mutation.applyToLocalView doc' baseDoc' time = .ok r' ∧
      existing r = existing r' ∧ ∀ d ∈ r, d.key = mutation.key := by
  rw [applyToLocalView_eq_ite h hkey, applyToLocalView_eq_ite h hkey',
    ← isValidFor_congr hdoc mutation.precondition, ← mutatedDocument_congr hdoc hbase]
  split_ifs with hvalid
  · obtain ⟨r, hr, hrkey⟩ := mutatedDocument_ok h hkey hvalid baseDoc time
    rw [hr]
    exact ⟨some r, some r, rfl, rfl, rfl, fun d hd => Option.mem_some_iff.mp hd ▸ hrkey⟩
  · exact ⟨doc, doc', rfl, rfl, hdoc, hkey⟩

end

end Congr

/-- The mutation as a function of existing documents: the current one and the one before the
batch. -/
def localView (mutation : Mutation) (doc baseDoc : Option Document) (localWriteTime : Timestamp) :
    Option Document :=
  match mutation.applyToLocalView (doc.map .document) (baseDoc.map .document) localWriteTime with
  | .ok r => existing r
  | .error _ => none

def isTransform : Mutation → Bool
  | transform _ _ => true
  | _ => false

/-- Only transforms look at the document before the batch. -/
theorem localView_congr_base (h : mutation.isTransform = false)
    (doc baseDoc baseDoc' : Option Document) (time : Timestamp) :
    mutation.localView doc baseDoc time =
      mutation.localView doc baseDoc' time := by
  cases mutation with
  | transform key fieldTransforms => cases h
  | set key value precondition => rfl
  | patch key value mask precondition => rfl
  | delete key precondition => rfl
  | verify key precondition => rfl

/-- An applicable mutation does not abort on a document of its key, and its result exists as
`localView` says. -/
theorem applyToLocalView_eq (h : mutation.Applicable) (hkey : ∀ d ∈ doc, d.key = mutation.key)
    (baseDoc : Option MaybeDocument) (time : Timestamp) :
    ∃ r, mutation.applyToLocalView doc baseDoc time = .ok r ∧
      existing r = mutation.localView (existing doc) (existing baseDoc) time ∧
      ∀ d ∈ r, d.key = mutation.key := by
  have hkey' : ∀ d ∈ (existing doc).map MaybeDocument.document, d.key = mutation.key := by
    intro d hd
    obtain ⟨existingDoc, hexisting, rfl⟩ := Option.map_eq_some_iff.mp hd
    exact hkey _ (existing_eq_some_iff.mp hexisting)
  obtain ⟨r, r', hr, hr', heq, hrkey⟩ := applyToLocalView_congr h hkey hkey'
    (existing_map_document _).symm (existing_map_document (existing baseDoc)).symm time
  refine ⟨r, hr, ?_, hrkey⟩
  rw [heq, localView, hr']

end Mutation

end Firebase.Firestore.Model
