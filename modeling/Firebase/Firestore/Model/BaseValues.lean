import Firebase.Firestore.Model.MutationBatch

/-!
# Base values

An increment is not idempotent, so a local write records the values that its increments start from
in base mutations, which overwrite the fields of the document before the mutations of the batch are
applied (`ExtractBaseValue` in `transform_mutation.cc`, `WriteLocally` in `local_store.cc`).
-/

namespace Firebase.Firestore.Model

open Lib Util

/-! ## Masks -/

namespace ObjectValue

mutual

def leavesOf : FieldValue → List FieldPath
  | .object entries => leafPaths entries
  | _ => []

/-- The loop of `ObjectValue::ToFieldMask`.  An empty map is a leaf itself. -/
def leafPaths : List (Bytes × FieldValue) → List FieldPath
  | [] => []
  | (name, value) :: entries =>
    (match leavesOf value with
    | [] => [[name]]
    | paths => paths.map (name :: ·)) ++ leafPaths entries

end

end ObjectValue

def FieldMask.ofPaths (paths : List FieldPath) : FieldMask :=
  let set : OrdMap FieldPath Unit := paths.foldl (fun set path => set.insert path ()) .empty
  ⟨set.entries.map Prod.fst, List.pairwise_map.mpr set.sorted⟩

def ObjectValue.toFieldMask (object : ObjectValue) : FieldMask :=
  .ofPaths (leafPaths object)

/-! ## Base mutations -/

def TransformOperation.baseValue (operation : TransformOperation)
    (previousValue : Option FieldValue) : Option FieldValue :=
  match operation with
  | increment _ _ => some (computeBaseValue previousValue)
  -- Server timestamps and array operations are idempotent.
  | serverTimestamp | arrayUnion _ | arrayRemove _ => none

namespace Mutation

/-- A round of the loop of `TransformMutation::Rep::ExtractBaseValue`. -/
def addBaseValue (doc : Option MaybeDocument) (baseObject : Option ObjectValue)
    (fieldTransform : FieldTransform) : Hard (Option ObjectValue) :=
  match fieldTransform.transformation.baseValue
    ((existing doc).bind (·.field fieldTransform.path)) with
  | some coercedValue => some <$> (baseObject.getD []).set coercedValue fieldTransform.path
  | none => .ok baseObject

def extractBaseValue (mutation : Mutation) (doc : Option MaybeDocument) :
    Hard (Option ObjectValue) :=
  match mutation with
  | transform _ fieldTransforms => fieldTransforms.foldlM (addBaseValue doc) none
  | _ => .ok none

/-- The base mutation of a mutation.  It is only applied if there is a document to override. -/
def baseMutation (mutation : Mutation) (doc : Option MaybeDocument) : Hard (Option Mutation) := do
  let baseValue ← mutation.extractBaseValue doc
  return baseValue.map fun value =>
    patch mutation.key value value.toFieldMask (.exists_ true)

end Mutation

namespace MutationBatch

def applyToLocalDocumentSet (batch : MutationBatch)
    (documentSet : OrdMap DocumentKey MaybeDocument) : Hard (OrdMap DocumentKey MaybeDocument) :=
  batch.mutations.foldlM (fun mutatedDocuments mutation => do
    match ← batch.applyToLocalDocument (mutatedDocuments.get? mutation.key) mutation.key with
    | some mutatedDocument => return mutatedDocuments.insert mutation.key mutatedDocument
    | none => return mutatedDocuments) documentSet

def applyTimes (batch : MutationBatch) (key : DocumentKey) :
    Nat → Option MaybeDocument → Hard (Option MaybeDocument)
  | 0, doc => .ok doc
  | times + 1, doc => do batch.applyTimes key times (← batch.applyToLocalDocument doc key)

variable {batch : MutationBatch} {docs mutatedDocs : OrdMap DocumentKey MaybeDocument}
  {doc result : Option MaybeDocument}

theorem isSome_of_applyToLocalDocument {key : DocumentKey} (hdoc : doc.isSome)
    (h : batch.applyToLocalDocument doc key = .ok result) : result.isSome := by
  have hloop {base : Option MaybeDocument → Option MaybeDocument} {mutations : List Mutation}
      {doc result : Option MaybeDocument} (hdoc : doc.isSome)
      (h : mutations.foldlM (fun doc mutation => if mutation.key = key then
        mutation.applyToLocalView doc (base doc) batch.localWriteTime else .ok doc) doc =
          .ok result) : result.isSome := by
    refine foldlM_invariant (·.isSome = true) (fun doc mutation _ doc' hdoc h => ?_) hdoc h
    split_ifs at h
    · exact Mutation.isSome_of_applyToLocalView hdoc h
    · exact Except.ok.inj h ▸ hdoc
  obtain ⟨_, -, h⟩ := bind_eq_ok.mp h
  obtain ⟨baseDoc, hbase, h⟩ := bind_eq_ok.mp h
  have hbaseDoc := @hloop id _ _ _ hdoc hbase
  exact @hloop (fun _ => baseDoc) _ _ _ hbaseDoc h

/-- The batch is applied to a document once for each of its mutations of that document. -/
theorem applyTimes_of_applyToLocalDocumentSet {mutations : List Mutation}
    (h : mutations.foldlM (fun mutatedDocuments mutation => do
      match ← batch.applyToLocalDocument (mutatedDocuments.get? mutation.key) mutation.key with
      | some mutatedDocument => return mutatedDocuments.insert mutation.key mutatedDocument
      | none => return mutatedDocuments) docs = .ok mutatedDocs) (key : DocumentKey) :
    batch.applyTimes key (mutations.countP (·.key = key)) (docs.get? key) =
      .ok (mutatedDocs.get? key) := by
  induction mutations generalizing docs with
  | nil =>
    cases h
    rfl
  | cons mutation mutations ih =>
    obtain ⟨docs₁, hfirst, hrest⟩ := foldlM_cons_eq_ok.mp h
    obtain ⟨result, hresult, hfirst⟩ := bind_eq_ok.mp hfirst
    obtain ⟨hsame, hother⟩ : docs₁.get? mutation.key = result ∧
        ∀ key ≠ mutation.key, docs₁.get? key = docs.get? key := by
      cases result with
      | some doc =>
        cases hfirst
        exact ⟨(OrdMap.get?_insert _ _ _ _).trans (if_pos rfl),
          fun key hkey => (OrdMap.get?_insert _ _ _ _).trans (if_neg hkey)⟩
      | none =>
        cases hfirst
        refine ⟨Option.not_isSome_iff_eq_none.mp fun hsome => ?_, fun _ _ => rfl⟩
        cases isSome_of_applyToLocalDocument hsome hresult
    by_cases hkey : mutation.key = key
    · subst hkey
      rw [List.countP_cons_of_pos (by simp), applyTimes, hresult, ← hsame]
      exact ih hrest
    · rw [List.countP_cons_of_neg (by simpa using hkey), ← hother key (Ne.symm hkey)]
      exact ih hrest

theorem applyToLocalDocumentSet_ok (h : batch.Applicable)
    (hkeyed : ∀ key doc, docs.get? key = some doc → doc.key = key) :
    ∃ mutatedDocs, batch.applyToLocalDocumentSet docs = .ok mutatedDocs := by
  refine (foldlM_ok_invariant (fun docs : OrdMap DocumentKey MaybeDocument => ∀ key doc,
    docs.get? key = some doc → doc.key = key) (fun docs mutation _ hdocs => ?_) hkeyed).imp
      fun _ => And.left
  obtain ⟨result, hresult, -, hkey⟩ := applyToLocalDocument_eq h (hdocs mutation.key)
  rw [hresult]
  cases result with
  | none => exact ⟨docs, rfl, hdocs⟩
  | some doc => exact ⟨_, rfl, OrdMap.forall_insert hdocs (hkey doc rfl)⟩

/-! ## Batches that may be applied again -/

/-- The mutation does not look at the document that it replaces or deletes. -/
def Replaces : Mutation → Bool
  | .set _ _ .none | .delete _ .none => true
  | _ => false

/-- The first mutation of the key replaces or deletes the document whatever it is, and the others
neither transform it nor ask for its version. -/
def Overwrites (batch : MutationBatch) (key : DocumentKey) : Prop :=
  ofKey key batch.baseMutations = [] ∧
    ∃ first rest, ofKey key batch.mutations = first :: rest ∧ Replaces first ∧
      ∀ mutation ∈ rest, mutation.isTransform = false ∧
        ∀ time, mutation.precondition ≠ .updateTime time

/-- Two documents of a key that are the same, up to their versions. -/
structure SameUpTo (key : DocumentKey) (version version' : SnapshotVersion)
    (doc doc' : Option MaybeDocument) : Prop where
  keyed : ∀ d ∈ doc, d.key = key
  keyed' : ∀ d ∈ doc', d.key = key
  same : doc = doc' ∨ ∃ d : Document, doc = some (.document { d with version := version }) ∧
    doc' = some (.document { d with version := version' })

variable {key : DocumentKey} {version version' : SnapshotVersion} {doc' : Option MaybeDocument}
  {mutation : Mutation}

theorem SameUpTo.refl (d : MaybeDocument) (hd : d.key = key) :
    SameUpTo key version version' (some d) (some d) :=
  ⟨by simp [hd], by simp [hd], .inl rfl⟩

theorem SameUpTo.versions (d : Document) (hd : d.key = key) : SameUpTo key version version'
    (some (.document { d with version := version }))
    (some (.document { d with version := version' })) :=
  ⟨by simp [MaybeDocument.key, hd], by simp [MaybeDocument.key, hd], .inr ⟨d, rfl, rfl⟩⟩

/-- A mutation that neither transforms a document nor asks for its version does the same to two
versions of it. -/
theorem SameUpTo.applyToLocalView (h : SameUpTo mutation.key version version' doc doc')
    (happ : mutation.Applicable) (htransform : mutation.isTransform = false)
    (htime : ∀ time, mutation.precondition ≠ .updateTime time)
    (baseDoc baseDoc' : Option MaybeDocument) (localWriteTime : Timestamp) :
    ∃ r r', mutation.applyToLocalView doc baseDoc localWriteTime = .ok r ∧
      mutation.applyToLocalView doc' baseDoc' localWriteTime = .ok r' ∧
      SameUpTo mutation.key version version' r r' := by
  obtain ⟨hkey, hkey', hsame⟩ := h
  rw [Mutation.applyToLocalView_eq_ite happ hkey,
    Mutation.applyToLocalView_eq_ite happ hkey']
  have hvalid : mutation.precondition.isValidFor doc' = mutation.precondition.isValidFor doc := by
    obtain rfl | ⟨d, rfl, rfl⟩ := hsame
    · rfl
    · cases hprecondition : mutation.precondition with
      | none => rfl
      | exists_ value => rfl
      | updateTime time => exact absurd hprecondition (htime time)
  rw [hvalid]
  split_ifs
  · cases mutation with
    | transform => cases htransform
    | verify => cases happ
    | delete key precondition => exact ⟨_, _, rfl, rfl, .refl _ rfl⟩
    | set key value precondition =>
      refine ⟨_, _, rfl, rfl, ?_⟩
      obtain rfl | ⟨d, rfl, rfl⟩ := hsame
      · exact .refl _ rfl
      · exact .versions ⟨value, key, version, .localMutations⟩ rfl
    | patch key value mask precondition =>
      obtain ⟨newData, hnew, hnew'⟩ : ∃ newData, Mutation.patchDocument value mask doc =
          .ok newData ∧ Mutation.patchDocument value mask doc' = .ok newData := by
        obtain ⟨newData, hnew⟩ : ∃ newData, Mutation.patchDocument value mask doc =
            .ok newData := by
          unfold Mutation.patchDocument
          split <;> exact Mutation.patchObject_ok value mask _
        obtain rfl | ⟨d, rfl, rfl⟩ := hsame <;> exact ⟨newData, hnew, hnew⟩
      refine ⟨some (.document ⟨newData, key, Mutation.getPostMutationVersion doc, .localMutations⟩),
        some (.document ⟨newData, key, Mutation.getPostMutationVersion doc', .localMutations⟩),
        by rw [Mutation.mutatedDocument, hnew]; rfl,
        by rw [Mutation.mutatedDocument, hnew']; rfl, ?_⟩
      obtain rfl | ⟨d, rfl, rfl⟩ := hsame
      · exact .refl _ rfl
      · exact .versions ⟨newData, key, version, .localMutations⟩ rfl
  · exact ⟨doc, doc', rfl, rfl, hkey, hkey', hsame⟩

theorem SameUpTo.foldlM {mutations : List Mutation} (h : SameUpTo key version version' doc doc')
    (hkeys : ∀ mutation ∈ mutations, mutation.key = key ∧ mutation.Applicable)
    (hplain : ∀ mutation ∈ mutations, mutation.isTransform = false ∧
      ∀ time, mutation.precondition ≠ .updateTime time)
    (baseDoc baseDoc' : Option MaybeDocument) (localWriteTime : Timestamp) :
    ∃ r r', mutations.foldlM (fun doc mutation =>
        mutation.applyToLocalView doc baseDoc localWriteTime) doc = .ok r ∧
      mutations.foldlM (fun doc mutation =>
        mutation.applyToLocalView doc baseDoc' localWriteTime) doc' = .ok r' ∧
      SameUpTo key version version' r r' := by
  induction mutations generalizing doc doc' with
  | nil => exact ⟨doc, doc', rfl, rfl, h⟩
  | cons mutation mutations ih =>
    obtain ⟨⟨rfl, happ⟩, hkeys⟩ := List.forall_mem_cons.mp hkeys
    obtain ⟨⟨htransform, htime⟩, hplain⟩ := List.forall_mem_cons.mp hplain
    obtain ⟨r, r', hr, hr', hsame⟩ :=
      h.applyToLocalView happ htransform htime baseDoc baseDoc' localWriteTime
    rw [List.foldlM_cons, List.foldlM_cons, hr, hr']
    exact ih hsame hkeys hplain

/-- Without base mutations of the key, only the mutations of the key are applied. -/
theorem applyToLocalDocument_ofKey (hbase : ofKey key batch.baseMutations = [])
    (hkey : ∀ d ∈ doc, d.key = key) :
    batch.applyToLocalDocument doc key = (ofKey key batch.mutations).foldlM (fun d mutation =>
      mutation.applyToLocalView d doc batch.localWriteTime) doc := by
  have hall : doc.all (·.key = key) = true := by
    rw [Option.all_eq_true]
    exact fun d hd => decide_eq_true (hkey d hd)
  have hfilter (baseDoc : Option MaybeDocument → Option MaybeDocument) (mutations : List Mutation) :
      mutations.foldlM (fun d mutation => if mutation.key = key then
        mutation.applyToLocalView d (baseDoc d) batch.localWriteTime else .ok d) doc =
      (ofKey key mutations).foldlM (fun d mutation =>
        mutation.applyToLocalView d (baseDoc d) batch.localWriteTime) doc := by
    simp only [ofKey, List.foldlM_filter, decide_eq_true_eq]
    rfl
  have hnone := hfilter id batch.baseMutations
  rw [hbase] at hnone
  rw [applyToLocalDocument, hall, hardAssert_true, ok_bind]
  exact (congrArg (· >>= _) hnone).trans (hfilter (fun _ => doc) _)

/-- Applied to its own result, such a batch changes nothing. -/
theorem Overwrites.applyToLocalDocument_again (h : batch.Overwrites key)
    (happ : batch.Applicable) (hdoc : ∀ d ∈ doc, d.key = key)
    (hresult : batch.applyToLocalDocument doc key = .ok result) :
    batch.applyToLocalDocument result key = .ok result := by
  obtain ⟨hbase, first, rest, hmuts, hreplaces, hplain⟩ := h
  obtain ⟨r, hr, -, hrkey⟩ := applyToLocalDocument_eq happ hdoc
  obtain rfl := Except.ok.inj (hr.symm.trans hresult)
  have hkeys : ∀ mutation ∈ first :: rest, mutation.key = key ∧ mutation.Applicable := by
    intro mutation hmem
    rw [← hmuts] at hmem
    obtain ⟨hmem, hkey⟩ := List.mem_filter.mp hmem
    exact ⟨of_decide_eq_true hkey, happ.2 mutation hmem⟩
  obtain ⟨⟨rfl, hfirst⟩, hkeys⟩ := List.forall_mem_cons.mp hkeys
  -- The first mutation makes two versions of one document.
  obtain ⟨a, b, ha, hb, hsame⟩ : ∃ a b,
      first.applyToLocalView doc doc batch.localWriteTime = .ok a ∧
      first.applyToLocalView r r batch.localWriteTime = .ok b ∧
      SameUpTo first.key (Mutation.getPostMutationVersion doc) (Mutation.getPostMutationVersion r)
        a b := by
    rw [Mutation.applyToLocalView_eq_ite hfirst hdoc, Mutation.applyToLocalView_eq_ite hfirst hrkey]
    unfold Replaces at hreplaces
    split at hreplaces
    · exact ⟨_, _, rfl, rfl, .versions ⟨_, _, .none, .localMutations⟩ rfl⟩
    · exact ⟨_, _, rfl, rfl, .refl _ rfl⟩
    · cases hreplaces
  obtain ⟨r₁, r₂, hr₁, hr₂, -, -, hsame⟩ := hsame.foldlM hkeys hplain doc r batch.localWriteTime
  rw [applyToLocalDocument_ofKey hbase hdoc, hmuts, List.foldlM_cons, ha] at hr
  rw [applyToLocalDocument_ofKey hbase hrkey, hmuts, List.foldlM_cons, hb]
  obtain rfl := Except.ok.inj (hr₁.symm.trans hr)
  refine hr₂.trans (congrArg Except.ok ?_)
  obtain rfl | ⟨d, rfl, rfl⟩ := hsame <;> rfl

theorem applyTimes_eq (hagain : batch.applyToLocalDocument doc key = .ok doc) (times : Nat) :
    batch.applyTimes key times doc = .ok doc := by
  induction times with
  | zero => rfl
  | succ times ih => rw [applyTimes, hagain, ok_bind, ih]

/-- The set version applies the batch to a document once for each of its mutations of that
document.  That is a single application for the keys with one mutation, and for those whose document
is replaced first and then only changed in ways that do not depend on it. -/
theorem applyToLocalDocumentSet_once (happ : batch.Applicable)
    (hkeyed : ∀ key doc, docs.get? key = some doc → doc.key = key)
    (honce : ∀ key, batch.touches key →
      batch.mutations.countP (·.key = key) = 1 ∨ batch.Overwrites key) :
    ∃ mutatedDocs, batch.applyToLocalDocumentSet docs = .ok mutatedDocs ∧
      ∀ key, batch.touches key →
        batch.applyToLocalDocument (docs.get? key) key = .ok (mutatedDocs.get? key) := by
  obtain ⟨mutatedDocs, hall⟩ := applyToLocalDocumentSet_ok happ hkeyed
  refine ⟨mutatedDocs, hall, fun key htouches => ?_⟩
  have htimes := applyTimes_of_applyToLocalDocumentSet hall key
  rcases honce key htouches with hone | hoverwrites
  · rw [hone, applyTimes] at htimes
    obtain ⟨first, hfirst, hrest⟩ := bind_eq_ok.mp htimes
    exact hfirst.trans hrest
  · have hpos : 0 < batch.mutations.countP (·.key = key) :=
      List.countP_pos_iff.mpr (List.any_eq_true.mp htouches)
    rw [← Nat.sub_one_add_one hpos.ne'] at htimes
    obtain ⟨first, hfirst, hrest⟩ := bind_eq_ok.mp htimes
    have hagain := hoverwrites.applyToLocalDocument_again happ (hkeyed key) hfirst
    rw [hfirst, ← hrest, applyTimes_eq hagain]

namespace UpdateAndMerge

def room : DocumentKey := .inCollection (ascii "rooms") (ascii "a")

def updateAndMerge : MutationBatch where
  batchId := 1
  localWriteTime := SnapshotVersion.none.timestamp
  baseMutations := []
  mutations := [
    .patch room [(ascii "x", .boolean true)] (.ofPaths [[ascii "x"]]) (.exists_ true),
    .patch room [(ascii "y", .boolean true)] (.ofPaths [[ascii "y"]]) .none]
  nonempty := List.cons_ne_nil _ _

def hall : DocumentKey := .inCollection (ascii "halls") (ascii "b")

/-- A write of one document and an update of it, around an increment in another one. -/
def setAndUpdate : MutationBatch where
  batchId := 1
  localWriteTime := SnapshotVersion.none.timestamp
  baseMutations := []
  mutations := [
    .set room [(ascii "x", .boolean true)] .none,
    .transform hall [⟨[ascii "n"], .increment (.integer 2) rfl⟩],
    .patch room [(ascii "y", .boolean true)] (.ofPaths [[ascii "y"]]) (.exists_ true)]
  nonempty := List.cons_ne_nil _ _

def cached : OrdMap DocumentKey MaybeDocument :=
  OrdMap.empty.insert room (.document ⟨[], room, ⟨⟨7, 0, by decide⟩⟩, .synced⟩)

end UpdateAndMerge

open UpdateAndMerge in
theorem applyToLocalDocumentSet_once_setAndUpdate : ∃ mutatedDocs,
    setAndUpdate.applyToLocalDocumentSet cached = .ok mutatedDocs ∧
      ∀ key, setAndUpdate.touches key →
        setAndUpdate.applyToLocalDocument (cached.get? key) key = .ok (mutatedDocs.get? key) := by
  refine applyToLocalDocumentSet_once ⟨List.forall_mem_nil _, ?_⟩
    (OrdMap.forall_insert (fun _ _ h => by cases h) rfl) fun key htouches => ?_
  · simp [setAndUpdate, Mutation.Applicable]
  · obtain rfl | rfl : room = key ∨ hall = key := by
      obtain ⟨mutation, hmem, hkey⟩ := List.any_eq_true.mp htouches
      obtain rfl := of_decide_eq_true hkey
      obtain rfl | rfl | rfl : _ ∨ _ ∨ _ := by simpa [setAndUpdate] using hmem
      exacts [.inl rfl, .inr rfl, .inl rfl]
    · refine .inr ⟨rfl, _, _, rfl, rfl, fun mutation hmem => ?_⟩
      rw [List.mem_singleton.mp hmem]
      exact ⟨rfl, fun _ => nofun⟩
    · exact .inl rfl

open UpdateAndMerge in
/-- The second application of the batch finds the document that the first one has created, and
applies the update too. -/
theorem applyToLocalDocumentSet_update_merge : ∃ mutatedDocs doc,
    updateAndMerge.applyToLocalDocumentSet .empty = .ok mutatedDocs ∧
    updateAndMerge.applyToLocalDocument none room = .ok doc ∧
    (existing doc).map (·.data.length) = some 1 ∧
    (existing (mutatedDocs.get? room)).map (·.data.length) = some 2 :=
  ⟨_, _, rfl, rfl, rfl, rfl⟩

end MutationBatch

end Firebase.Firestore.Model
