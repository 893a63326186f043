import Firebase.Lib.OrdMap
import Firebase.Firestore.Local.LevelDbKey

/-!
# The order of the keys

The rows of the local store are scanned in the bytewise order of their keys, and a scan is told
where to start and where to end by a key prefix.

The codes of the components of a row combine to one code per table, over the lexicographic product
of the components (`LevelDbMutationKey.encode_orderCode` and its like).  Paths are the exception: a
path is not closed by anything of its own, but every label that can follow one is below the label of
a path segment.
-/

namespace Firebase.Firestore.Local

open Lib Util Model Writer List
open LinearOrder (lift')

/-! ## Components -/

theorem writeLabeledString_orderCode (label : ComponentLabel) :
    OrderCode (writeLabeledString label) :=
  OrderedCode.writeString_orderCode.append_left _

theorem writeTableName_orderCode : OrderCode writeTableName :=
  writeLabeledString_orderCode .tableName

theorem writeUserId_orderCode : OrderCode writeUserId := writeLabeledString_orderCode .userId

theorem writeCanonicalId_orderCode : OrderCode writeCanonicalId :=
  writeLabeledString_orderCode .canonicalId

theorem writeCollectionId_orderCode : OrderCode writeCollectionId :=
  writeLabeledString_orderCode .collectionId

theorem writeDocumentId_orderCode : OrderCode writeDocumentId :=
  writeLabeledString_orderCode .documentId

theorem toInt64_strictMono : StrictMono Int32.toInt64 := fun _ _ h => Int32.toInt64_lt.mpr h

theorem writeLabeledInt32_orderCode (label : ComponentLabel) :
    OrderCode (writeLabeledInt32 label) :=
  (OrderedCode.writeSignedNumIncreasing_orderCode.comp toInt64_strictMono).append_left _

theorem writeBatchId_orderCode : OrderCode writeBatchId := writeLabeledInt32_orderCode .batchId

theorem writeTargetId_orderCode : OrderCode writeTargetId := writeLabeledInt32_orderCode .targetId

theorem writeSnapshotVersion_orderCode : OrderCode writeSnapshotVersion := by
  have hnum := OrderedCode.writeSignedNumIncreasing_orderCode
  have hpair := (hnum.prod (hnum.comp toInt64_strictMono)).comp
    (Timestamp.components_strictMono.comp SnapshotVersion.timestamp_strictMono)
  exact hpair.append_left _

/-- The byte of `ComponentLabel::PathSegment`. -/
def pathByte : UInt8 := 0xbe

theorem writeComponentLabel_pathSegment : writeComponentLabel .pathSegment = [pathByte] := by
  decide

theorem writeResourcePath_eq (path : ResourcePath) :
    writeResourcePath path = segments pathByte OrderedCode.writeString path := by
  induction path with
  | nil => rfl
  | cons segment path ih =>
    rw [writeResourcePath_cons, ih, writeComponentLabel_pathSegment]
    simp

/-- A component with a label below the one of path segments ends a path. -/
theorem endsSegments_label {label : ComponentLabel}
    (h : label.value < ComponentLabel.pathSegment.value) (s : Bytes) :
    EndsSegments pathByte (writeComponentLabel label ++ s) := by
  rw [writeComponentLabel_eq]
  revert h
  cases label <;> simp [EndsSegments] <;> decide

theorem endsSegments_terminator : EndsSegments pathByte writeTerminator := by
  have h := @endsSegments_label .terminator (by decide) []
  rwa [append_nil] at h

theorem endsSegments_batchId (batchId : BatchId) : EndsSegments pathByte (writeBatchId batchId) :=
  endsSegments_label (by decide) _

theorem endsSegments_targetId (targetId : TargetId) :
    EndsSegments pathByte (writeTargetId targetId) :=
  endsSegments_label (by decide) _

theorem endsSegments_snapshotVersion (version : SnapshotVersion) :
    EndsSegments pathByte (writeSnapshotVersion version) :=
  endsSegments_label (by decide) _

/-- A path that ends its key. -/
theorem writeResourcePath_terminator_orderCode :
    OrderCode fun path : ResourcePath => writeResourcePath path ++ writeTerminator := by
  simpa only [writeResourcePath_eq] using
    OrderedCode.writeString_orderCode.segments_append endsSegments_terminator

/-- A path followed by a component that ends it. -/
theorem writeResourcePath_prod_orderCode {γ : Type} [LinearOrder γ] {enc : γ → Bytes}
    (h : OrderCode enc) (hend : ∀ c, EndsSegments pathByte (enc c)) :
    OrderCode fun c : ResourcePath ×ₗ γ => writeResourcePath (ofLex c).1 ++ enc (ofLex c).2 := by
  simpa only [writeResourcePath_eq] using OrderedCode.writeString_orderCode.segments_prod h hend

variable {p q : ResourcePath}

/-- A path is a byte prefix exactly of the paths that extend it. -/
theorem writeResourcePath_prefix_iff {t : Bytes}
    (ht : EndsSegments pathByte t) : writeResourcePath p <+: writeResourcePath q ++ t ↔
      p <+: q := by
  exact segments_prefix_iff OrderedCode.writeString_orderCode ht

/-! ## Keys

Each table is ordered by its components, in the order in which the key has them. -/

namespace LevelDbMutationKey

def components (k : LevelDbMutationKey) : Bytes ×ₗ BatchId :=
  toLex (k.userId, k.batchId)

theorem components_injective : Function.Injective components := by
  rintro ⟨u, b⟩ ⟨u', b'⟩ h
  simpa [components] using h

instance : LinearOrder LevelDbMutationKey := lift' components components_injective

def encode (k : LevelDbMutationKey) : Bytes := key k.userId k.batchId

theorem encode_orderCode : OrderCode encode := by
  intro a b hab
  have h := (writeUserId_orderCode.prod writeBatchId_orderCode).append_right writeTerminator
  simpa only [encode, key, components, ofLex_toLex, append_assoc] using
    h.append_left (writeTableName kMutationsTable) _ _ hab

end LevelDbMutationKey

namespace LevelDbDocumentMutationKey

def components (k : LevelDbDocumentMutationKey) : Bytes ×ₗ ResourcePath ×ₗ BatchId :=
  toLex (k.userId, toLex (k.documentKey.path, k.batchId))

theorem components_injective : Function.Injective components := by
  rintro ⟨u, d, b⟩ ⟨u', d', b'⟩ h
  simpa [components, DocumentKey.ext_iff] using h

instance : LinearOrder LevelDbDocumentMutationKey := lift' components components_injective

def encode (k : LevelDbDocumentMutationKey) : Bytes := key k.userId k.documentKey k.batchId

theorem encode_orderCode : OrderCode encode := by
  intro a b hab
  have hpath := writeResourcePath_prod_orderCode writeBatchId_orderCode endsSegments_batchId
  have h := (writeUserId_orderCode.prod hpath).append_right writeTerminator
  simpa only [encode, key, components, ofLex_toLex, append_assoc] using
    h.append_left (writeTableName kDocumentMutationsTable) _ _ hab

end LevelDbDocumentMutationKey

namespace LevelDbMutationQueueKey

def components (k : LevelDbMutationQueueKey) : Bytes :=
  k.userId

theorem components_injective : Function.Injective components := by
  rintro ⟨u⟩ ⟨u'⟩ h
  simpa [components] using h

instance : LinearOrder LevelDbMutationQueueKey := lift' components components_injective

def encode (k : LevelDbMutationQueueKey) : Bytes := key k.userId

theorem encode_orderCode : OrderCode encode := by
  intro a b hab
  have h := writeUserId_orderCode.append_right writeTerminator
  simpa only [encode, key, components, append_assoc] using
    h.append_left (writeTableName kMutationQueuesTable) _ _ hab

end LevelDbMutationQueueKey

namespace LevelDbTargetKey

def components (k : LevelDbTargetKey) : TargetId :=
  k.targetId

theorem components_injective : Function.Injective components := by
  rintro ⟨t⟩ ⟨t'⟩ h
  simpa [components] using h

instance : LinearOrder LevelDbTargetKey := lift' components components_injective

def encode (k : LevelDbTargetKey) : Bytes := key k.targetId

theorem encode_orderCode : OrderCode encode := by
  intro a b hab
  have h := writeTargetId_orderCode.append_right writeTerminator
  simpa only [encode, key, components, append_assoc] using
    h.append_left (writeTableName kTargetsTable) _ _ hab

end LevelDbTargetKey

namespace LevelDbQueryTargetKey

def components (k : LevelDbQueryTargetKey) : Bytes ×ₗ TargetId :=
  toLex (k.canonicalId, k.targetId)

theorem components_injective : Function.Injective components := by
  rintro ⟨c, t⟩ ⟨c', t'⟩ h
  simpa [components] using h

instance : LinearOrder LevelDbQueryTargetKey := lift' components components_injective

def encode (k : LevelDbQueryTargetKey) : Bytes := key k.canonicalId k.targetId

theorem encode_orderCode : OrderCode encode := by
  intro a b hab
  have h := (writeCanonicalId_orderCode.prod writeTargetId_orderCode).append_right writeTerminator
  simpa only [encode, key, components, ofLex_toLex, append_assoc] using
    h.append_left (writeTableName kQueryTargetsTable) _ _ hab

end LevelDbQueryTargetKey

namespace LevelDbTargetDocumentKey

def components (k : LevelDbTargetDocumentKey) : TargetId ×ₗ ResourcePath :=
  toLex (k.targetId, k.documentKey.path)

theorem components_injective : Function.Injective components := by
  rintro ⟨t, d⟩ ⟨t', d'⟩ h
  simpa [components, DocumentKey.ext_iff] using h

instance : LinearOrder LevelDbTargetDocumentKey := lift' components components_injective

def encode (k : LevelDbTargetDocumentKey) : Bytes := key k.targetId k.documentKey

theorem encode_orderCode : OrderCode encode := by
  intro a b hab
  have h := writeTargetId_orderCode.prod writeResourcePath_terminator_orderCode
  simpa only [encode, key, components, ofLex_toLex, append_assoc] using
    h.append_left (writeTableName kTargetDocumentsTable) _ _ hab

end LevelDbTargetDocumentKey

namespace LevelDbDocumentTargetKey

def components (k : LevelDbDocumentTargetKey) : ResourcePath ×ₗ TargetId :=
  toLex (k.documentKey.path, k.targetId)

theorem components_injective : Function.Injective components := by
  rintro ⟨d, t⟩ ⟨d', t'⟩ h
  simpa [components, DocumentKey.ext_iff] using h

instance : LinearOrder LevelDbDocumentTargetKey := lift' components components_injective

def encode (k : LevelDbDocumentTargetKey) : Bytes := key k.documentKey k.targetId

theorem encode_orderCode : OrderCode encode := by
  intro a b hab
  have hpath := writeResourcePath_prod_orderCode writeTargetId_orderCode endsSegments_targetId
  have h := hpath.append_right writeTerminator
  simpa only [encode, key, components, ofLex_toLex, append_assoc] using
    h.append_left (writeTableName kDocumentTargetsTable) _ _ hab

end LevelDbDocumentTargetKey

namespace LevelDbRemoteDocumentKey

def components (k : LevelDbRemoteDocumentKey) : ResourcePath :=
  k.documentKey.path

theorem components_injective : Function.Injective components := by
  rintro ⟨d⟩ ⟨d'⟩ h
  simpa [components, DocumentKey.ext_iff] using h

instance : LinearOrder LevelDbRemoteDocumentKey := lift' components components_injective

def encode (k : LevelDbRemoteDocumentKey) : Bytes := key k.documentKey

theorem encode_orderCode : OrderCode encode := by
  intro a b hab
  have h := writeResourcePath_terminator_orderCode
  simpa only [encode, key, components, append_assoc] using
    h.append_left (writeTableName kRemoteDocumentsTable) _ _ hab

end LevelDbRemoteDocumentKey

namespace LevelDbCollectionParentKey

def components (k : LevelDbCollectionParentKey) : Bytes ×ₗ ResourcePath :=
  toLex (k.collectionId, k.parent)

theorem components_injective : Function.Injective components := by
  rintro ⟨c, p⟩ ⟨c', p'⟩ h
  simpa [components] using h

instance : LinearOrder LevelDbCollectionParentKey := lift' components components_injective

def encode (k : LevelDbCollectionParentKey) : Bytes := key k.collectionId k.parent

theorem encode_orderCode : OrderCode encode := by
  intro a b hab
  have h := writeCollectionId_orderCode.prod writeResourcePath_terminator_orderCode
  simpa only [encode, key, components, ofLex_toLex, append_assoc] using
    h.append_left (writeTableName kCollectionParentsTable) _ _ hab

end LevelDbCollectionParentKey

namespace LevelDbRemoteDocumentReadTimeKey

def components (k : LevelDbRemoteDocumentReadTimeKey) : ResourcePath ×ₗ SnapshotVersion ×ₗ Bytes :=
  toLex (k.collectionPath, toLex (k.readTime, k.documentId))

theorem components_injective : Function.Injective components := by
  rintro ⟨p, v, d⟩ ⟨p', v', d'⟩ h
  simpa [components] using h

instance : LinearOrder LevelDbRemoteDocumentReadTimeKey := lift' components components_injective

def encode (k : LevelDbRemoteDocumentReadTimeKey) : Bytes :=
  key k.collectionPath k.readTime k.documentId

theorem encode_orderCode : OrderCode encode := by
  intro a b hab
  have hversion := writeSnapshotVersion_orderCode.prod writeDocumentId_orderCode
  have hpath := writeResourcePath_prod_orderCode hversion fun _ =>
    (endsSegments_snapshotVersion _).append _
  have h := hpath.append_right writeTerminator
  simpa only [encode, key, components, ofLex_toLex, append_assoc] using
    h.append_left (writeTableName kRemoteDocumentReadTimeTable) _ _ hab

end LevelDbRemoteDocumentReadTimeKey

/-! ## All tables together -/

inductive Table
  | version
  | mutation
  | documentMutation
  | mutationQueue
  | targetGlobal
  | target
  | queryTarget
  | targetDocument
  | documentTarget
  | remoteDocument
  | collectionParent
  | remoteDocumentReadTime
deriving DecidableEq

def Table.name : Table → Bytes
  | version => kVersionGlobalTable
  | mutation => kMutationsTable
  | documentMutation => kDocumentMutationsTable
  | mutationQueue => kMutationQueuesTable
  | targetGlobal => kTargetGlobalTable
  | target => kTargetsTable
  | queryTarget => kQueryTargetsTable
  | targetDocument => kTargetDocumentsTable
  | documentTarget => kDocumentTargetsTable
  | remoteDocument => kRemoteDocumentsTable
  | collectionParent => kCollectionParentsTable
  | remoteDocumentReadTime => kRemoteDocumentReadTimeTable

theorem Table.name_injective : Function.Injective Table.name := by
  intro a b h
  revert h
  cases a <;> cases b <;> decide

/-- A row of the local store, by its table and components. -/
inductive LevelDbKey
  | version
  | mutation (k : LevelDbMutationKey)
  | documentMutation (k : LevelDbDocumentMutationKey)
  | mutationQueue (k : LevelDbMutationQueueKey)
  | targetGlobal (k : LevelDbTargetGlobalKey)
  | target (k : LevelDbTargetKey)
  | queryTarget (k : LevelDbQueryTargetKey)
  | targetDocument (k : LevelDbTargetDocumentKey)
  | documentTarget (k : LevelDbDocumentTargetKey)
  | remoteDocument (k : LevelDbRemoteDocumentKey)
  | collectionParent (k : LevelDbCollectionParentKey)
  | remoteDocumentReadTime (k : LevelDbRemoteDocumentReadTimeKey)
deriving DecidableEq

namespace LevelDbKey

def table : LevelDbKey → Table
  | version => .version
  | mutation _ => .mutation
  | documentMutation _ => .documentMutation
  | mutationQueue _ => .mutationQueue
  | targetGlobal _ => .targetGlobal
  | target _ => .target
  | queryTarget _ => .queryTarget
  | targetDocument _ => .targetDocument
  | documentTarget _ => .documentTarget
  | remoteDocument _ => .remoteDocument
  | collectionParent _ => .collectionParent
  | remoteDocumentReadTime _ => .remoteDocumentReadTime

def encode : LevelDbKey → Bytes
  | version => LevelDbVersionKey.key
  | mutation k => k.encode
  | documentMutation k => k.encode
  | mutationQueue k => k.encode
  | targetGlobal _ => LevelDbTargetGlobalKey.key
  | target k => k.encode
  | queryTarget k => k.encode
  | targetDocument k => k.encode
  | documentTarget k => k.encode
  | remoteDocument k => k.encode
  | collectionParent k => k.encode
  | remoteDocumentReadTime k => k.encode

/-- The logical order of the rows of one table. -/
def Before : LevelDbKey → LevelDbKey → Prop
  | mutation a, mutation b => a < b
  | documentMutation a, documentMutation b => a < b
  | mutationQueue a, mutationQueue b => a < b
  | target a, target b => a < b
  | queryTarget a, queryTarget b => a < b
  | targetDocument a, targetDocument b => a < b
  | documentTarget a, documentTarget b => a < b
  | remoteDocument a, remoteDocument b => a < b
  | collectionParent a, collectionParent b => a < b
  | remoteDocumentReadTime a, remoteDocumentReadTime b => a < b
  | _, _ => False

variable {a b : LevelDbKey}

theorem encode_below (h : a.Before b) : Below a.encode b.encode := by
  match a, b, h with
  | mutation _, mutation _, h => exact LevelDbMutationKey.encode_orderCode _ _ h
  | documentMutation _, documentMutation _, h =>
    exact LevelDbDocumentMutationKey.encode_orderCode _ _ h
  | mutationQueue _, mutationQueue _, h => exact LevelDbMutationQueueKey.encode_orderCode _ _ h
  | target _, target _, h => exact LevelDbTargetKey.encode_orderCode _ _ h
  | queryTarget _, queryTarget _, h => exact LevelDbQueryTargetKey.encode_orderCode _ _ h
  | targetDocument _, targetDocument _, h => exact LevelDbTargetDocumentKey.encode_orderCode _ _ h
  | documentTarget _, documentTarget _, h => exact LevelDbDocumentTargetKey.encode_orderCode _ _ h
  | remoteDocument _, remoteDocument _, h => exact LevelDbRemoteDocumentKey.encode_orderCode _ _ h
  | collectionParent _, collectionParent _, h =>
    exact LevelDbCollectionParentKey.encode_orderCode _ _ h
  | remoteDocumentReadTime _, remoteDocumentReadTime _, h =>
    exact LevelDbRemoteDocumentReadTimeKey.encode_orderCode _ _ h

/-- Two different rows of one table are ordered one way or the other. -/
theorem before_or_before (htable : a.table = b.table) (hab : a ≠ b) : a.Before b ∨ b.Before a := by
  match a, b, htable with
  | version, version, _ | targetGlobal ⟨⟩, targetGlobal ⟨⟩, _ => exact absurd rfl hab
  | mutation _, mutation _, _ | documentMutation _, documentMutation _, _
  | mutationQueue _, mutationQueue _, _ | target _, target _, _ | queryTarget _, queryTarget _, _
  | targetDocument _, targetDocument _, _ | documentTarget _, documentTarget _, _
  | remoteDocument _, remoteDocument _, _ | collectionParent _, collectionParent _, _
  | remoteDocumentReadTime _, remoteDocumentReadTime _, _ =>
    exact lt_or_gt_of_ne fun h => hab (congrArg _ h)

theorem exists_encode_eq (k : LevelDbKey) : ∃ s, k.encode = writeTableName k.table.name ++ s := by
  cases k <;> simp only [encode] <;> exact ⟨_, rfl⟩

theorem tableName_isPrefixOf (k : LevelDbKey) : writeTableName k.table.name <+: k.encode := by
  obtain ⟨s, hs⟩ := k.exists_encode_eq
  exact ⟨s, hs.symm⟩

/-- Any two different keys have a first byte where they differ. -/
theorem encode_below_or_below (hab : a ≠ b) :
    Below a.encode b.encode ∨ Below b.encode a.encode := by
  by_cases htable : a.table = b.table
  · exact (before_or_before htable hab).imp encode_below encode_below
  · obtain ⟨s, hs⟩ := exists_encode_eq a
    obtain ⟨t, ht⟩ := exists_encode_eq b
    rw [hs, ht]
    exact (writeTableName_orderCode.below_or_below (Table.name_injective.ne htable)).imp
      (·.append s t) (·.append t s)

theorem encode_injective : Function.Injective encode := by
  intro a b h
  by_contra hab
  rcases encode_below_or_below hab with hlt | hlt
  · exact hlt.ne h
  · exact hlt.ne h.symm

/-- A key is a prefix of no other key. -/
theorem encode_prefix_iff : a.encode <+: b.encode ↔ a = b := by
  constructor
  · intro h
    by_contra hab
    rcases encode_below_or_below hab with hlt | hlt
    · exact hlt.not_isPrefixOf h
    · exact hlt.not_isPrefixOf_right h
  · rintro rfl
    exact prefix_rfl

theorem encode_lt_iff (htable : a.table = b.table) : a.encode < b.encode ↔ a.Before b := by
  constructor
  · intro hlt
    have hab : a ≠ b := fun h => hlt.ne (congrArg encode h)
    refine (before_or_before htable hab).resolve_right fun h => ?_
    exact lt_asymm hlt (encode_below h).lt
  · exact fun h => (encode_below h).lt

end LevelDbKey

/-- What a scan of the local store is limited to: a table, or the rows of a table with given
leading components. -/
inductive KeyPrefix
  | mutation
  | mutationForUser (userId : Bytes)
  | documentMutation
  | documentMutationForUser (userId : Bytes)
  | documentMutationForPath (userId : Bytes) (resourcePath : ResourcePath)
  | mutationQueue
  | target
  | queryTarget
  | queryTargetForCanonicalId (canonicalId : Bytes)
  | targetDocument
  | targetDocumentForTarget (targetId : TargetId)
  | documentTarget
  | documentTargetForPath (resourcePath : ResourcePath)
  | remoteDocument
  | remoteDocumentForPath (resourcePath : ResourcePath)
  | collectionParent
  | collectionParentForCollectionId (collectionId : Bytes)
  | remoteDocumentReadTime (collectionPath : ResourcePath) (readTime : SnapshotVersion)
deriving DecidableEq

variable {rows : List LevelDbKey}

namespace KeyPrefix

def encode : KeyPrefix → Bytes
  | mutation => LevelDbMutationKey.keyPrefix
  | mutationForUser userId => LevelDbMutationKey.keyPrefixForUser userId
  | documentMutation => LevelDbDocumentMutationKey.keyPrefix
  | documentMutationForUser userId => LevelDbDocumentMutationKey.keyPrefixForUser userId
  | documentMutationForPath userId resourcePath =>
    LevelDbDocumentMutationKey.keyPrefixForPath userId resourcePath
  | mutationQueue => LevelDbMutationQueueKey.keyPrefix
  | target => LevelDbTargetKey.keyPrefix
  | queryTarget => LevelDbQueryTargetKey.keyPrefix
  | queryTargetForCanonicalId canonicalId =>
    LevelDbQueryTargetKey.keyPrefixForCanonicalId canonicalId
  | targetDocument => LevelDbTargetDocumentKey.keyPrefix
  | targetDocumentForTarget targetId => LevelDbTargetDocumentKey.keyPrefixForTarget targetId
  | documentTarget => LevelDbDocumentTargetKey.keyPrefix
  | documentTargetForPath resourcePath => LevelDbDocumentTargetKey.keyPrefixForPath resourcePath
  | remoteDocument => LevelDbRemoteDocumentKey.keyPrefix
  | remoteDocumentForPath resourcePath => LevelDbRemoteDocumentKey.keyPrefixForPath resourcePath
  | collectionParent => LevelDbCollectionParentKey.keyPrefix
  | collectionParentForCollectionId collectionId =>
    LevelDbCollectionParentKey.keyPrefixForCollectionId collectionId
  | remoteDocumentReadTime collectionPath readTime =>
    LevelDbRemoteDocumentReadTimeKey.keyPrefix collectionPath readTime

/-- The rows that a prefix is meant to find. -/
def Matches : KeyPrefix → LevelDbKey → Prop
  | mutation, .mutation _ => True
  | mutationForUser userId, .mutation k => userId = k.userId
  | documentMutation, .documentMutation _ => True
  | documentMutationForUser userId, .documentMutation k => userId = k.userId
  | documentMutationForPath userId resourcePath, .documentMutation k =>
    userId = k.userId ∧ resourcePath <+: k.documentKey.path
  | mutationQueue, .mutationQueue _ => True
  | target, .target _ => True
  | queryTarget, .queryTarget _ => True
  | queryTargetForCanonicalId canonicalId, .queryTarget k => canonicalId = k.canonicalId
  | targetDocument, .targetDocument _ => True
  | targetDocumentForTarget targetId, .targetDocument k => targetId = k.targetId
  | documentTarget, .documentTarget _ => True
  | documentTargetForPath resourcePath, .documentTarget k => resourcePath <+: k.documentKey.path
  | remoteDocument, .remoteDocument _ => True
  | remoteDocumentForPath resourcePath, .remoteDocument k => resourcePath <+: k.documentKey.path
  | collectionParent, .collectionParent _ => True
  | collectionParentForCollectionId collectionId, .collectionParent k =>
    collectionId = k.collectionId
  | remoteDocumentReadTime collectionPath readTime, .remoteDocumentReadTime k =>
    collectionPath = k.collectionPath ∧ readTime = k.readTime
  | _, _ => False

def table : KeyPrefix → Table
  | mutation | mutationForUser _ => .mutation
  | documentMutation | documentMutationForUser _ | documentMutationForPath _ _ => .documentMutation
  | mutationQueue => .mutationQueue
  | target => .target
  | queryTarget | queryTargetForCanonicalId _ => .queryTarget
  | targetDocument | targetDocumentForTarget _ => .targetDocument
  | documentTarget | documentTargetForPath _ => .documentTarget
  | remoteDocument | remoteDocumentForPath _ => .remoteDocument
  | collectionParent | collectionParentForCollectionId _ => .collectionParent
  | remoteDocumentReadTime _ _ => .remoteDocumentReadTime

theorem table_eq_of_matches {p : KeyPrefix} {k : LevelDbKey} (h : p.Matches k) :
    p.table = k.table := by
  revert h
  cases p <;> cases k <;> simp [Matches, table, LevelDbKey.table]

theorem exists_encode_eq (p : KeyPrefix) : ∃ s, p.encode = writeTableName p.table.name ++ s := by
  cases p with
  | mutation | documentMutation | mutationQueue | target | queryTarget | targetDocument
  | documentTarget | remoteDocument | collectionParent => exact ⟨[], (append_nil _).symm⟩
  | documentMutationForPath _ _ | remoteDocumentReadTime _ _ => exact ⟨_, append_assoc _ _ _⟩
  | _ => exact ⟨_, rfl⟩

/-- A component after the table name. -/
theorem leading_iff {γ : Type} [LinearOrder γ] {enc : γ → Bytes} (h : OrderCode enc)
    {table s : Bytes} {c c' : γ} (hs : writeTableName table ++ enc c' <+: s) :
    writeTableName table ++ enc c <+: s ↔ c = c' := by
  obtain ⟨t, rfl⟩ := hs
  rw [append_assoc, writeTableName_orderCode.append_prefix_append_iff, h.prefix_append_iff]
  exact and_iff_right rfl

/-- A path after the table name. -/
theorem leadingPath_iff {table s t : Bytes} {path path' : ResourcePath}
    (ht : EndsSegments pathByte t)
    (hs : s = writeTableName table ++ (writeResourcePath path' ++ t)) :
    writeTableName table ++ writeResourcePath path <+: s ↔ path <+: path' := by
  rw [hs, writeTableName_orderCode.append_prefix_append_iff, writeResourcePath_prefix_iff ht]
  exact and_iff_right rfl

/-- A key starts with a key prefix exactly if its own leading components are the ones of the
prefix; for a path, if its own path extends it. -/
theorem encode_prefix_iff {p : KeyPrefix} {k : LevelDbKey} :
    p.encode <+: k.encode ↔ p.Matches k := by
  by_cases htable : p.table = k.table
  · match p, k, htable, k.tableName_isPrefixOf with
    | mutation, .mutation _, _, h | documentMutation, .documentMutation _, _, h
    | mutationQueue, .mutationQueue _, _, h | target, .target _, _, h
    | queryTarget, .queryTarget _, _, h | targetDocument, .targetDocument _, _, h
    | documentTarget, .documentTarget _, _, h | remoteDocument, .remoteDocument _, _, h
    | collectionParent, .collectionParent _, _, h => exact iff_of_true h trivial
    | mutationForUser _, .mutation _, _, _ =>
      exact leading_iff writeUserId_orderCode ((prefix_append _ _).trans (prefix_append _ _))
    | documentMutationForUser _, .documentMutation _, _, _ =>
      exact leading_iff writeUserId_orderCode
        ((prefix_append _ _).trans ((prefix_append _ _).trans (prefix_append _ _)))
    | documentMutationForPath userId resourcePath, .documentMutation k, _, _ =>
      simp only [encode, LevelDbKey.encode, LevelDbDocumentMutationKey.keyPrefixForPath,
        LevelDbDocumentMutationKey.encode, LevelDbDocumentMutationKey.key, append_assoc]
      rw [writeTableName_orderCode.append_prefix_append_iff,
        writeUserId_orderCode.append_prefix_append_iff,
        writeResourcePath_prefix_iff ((endsSegments_batchId _).append _)]
      exact and_iff_right rfl
    | queryTargetForCanonicalId _, .queryTarget _, _, _ =>
      exact leading_iff writeCanonicalId_orderCode ((prefix_append _ _).trans (prefix_append _ _))
    | targetDocumentForTarget _, .targetDocument _, _, _ =>
      exact leading_iff writeTargetId_orderCode ((prefix_append _ _).trans (prefix_append _ _))
    | documentTargetForPath _, .documentTarget k, _, _ =>
      refine leadingPath_iff ((endsSegments_targetId k.targetId).append writeTerminator)
        (?_ : LevelDbDocumentTargetKey.encode k = _)
      rw [LevelDbDocumentTargetKey.encode, LevelDbDocumentTargetKey.key, append_assoc, append_assoc]
    | remoteDocumentForPath _, .remoteDocument _, _, _ =>
      exact leadingPath_iff endsSegments_terminator (append_assoc _ _ _)
    | collectionParentForCollectionId _, .collectionParent _, _, _ =>
      exact leading_iff writeCollectionId_orderCode ((prefix_append _ _).trans (prefix_append _ _))
    | remoteDocumentReadTime collectionPath readTime, .remoteDocumentReadTime k, _, _ =>
      have hcode := writeResourcePath_prod_orderCode writeSnapshotVersion_orderCode
        endsSegments_snapshotVersion
      have hpair := @OrderCode.prefix_append_iff _ _ _ _ _ hcode
        (toLex (collectionPath, readTime)) (toLex (k.collectionPath, k.readTime))
        (writeDocumentId k.documentId ++ writeTerminator)
      simp only [encode, LevelDbKey.encode, LevelDbRemoteDocumentReadTimeKey.keyPrefix,
        LevelDbRemoteDocumentReadTimeKey.encode, LevelDbRemoteDocumentReadTimeKey.key,
        append_assoc, Matches]
      simpa using hpair
  · refine iff_of_false (fun h => htable ?_) fun h => htable (table_eq_of_matches h)
    obtain ⟨s, hs⟩ := exists_encode_eq p
    obtain ⟨t, ht⟩ := k.exists_encode_eq
    rw [hs, ht, writeTableName_orderCode.append_prefix_append_iff] at h
    exact Table.name_injective h.1

instance (p : KeyPrefix) (k : LevelDbKey) : Decidable (p.Matches k) :=
  decidable_of_iff _ encode_prefix_iff

/-- What the scans of the store do with a prefix: seek it, and step on while the keys have
it. -/
def scan (p : KeyPrefix) (rows : List LevelDbKey) : List LevelDbKey :=
  (rows.dropWhile fun k => k.encode < p.encode).takeWhile fun k => p.encode <+: k.encode

/-- A scan visits exactly the rows that its prefix is meant to find. -/
theorem scan_eq_filter (p : KeyPrefix) (hrows : rows.Pairwise fun a b => a.encode < b.encode) :
    p.scan rows = rows.filter fun k => p.Matches k := by
  have hsorted : (rows.map fun k => (k.encode, k)).Pairwise fun a b => a.1 < b.1 :=
    pairwise_map.mpr hrows
  have hwithin : ∀ a b, p.encode ≤ a → a ≤ b → p.encode <+: b → p.encode <+: a :=
    fun a b hstart hab hb => isPrefixOf_of_le_of_le hb hstart hab
  have hscan := OrdMap.takeWhile_filter_eq hwithin hsorted
  rw [← OrdMap.dropWhile_eq_filter (fun _ _ hab ha => ha.trans hab) hsorted, dropWhile_map,
    takeWhile_map, filter_map] at hscan
  have hinj : Function.Injective fun k : LevelDbKey => (k.encode, k) :=
    fun _ _ h => (Prod.mk.inj h).2
  have hfilter : p.scan rows =
      rows.filter fun k => p.encode ≤ k.encode ∧ p.encode <+: k.encode := by
    simpa [scan, Function.comp_def] using map_injective_iff.mpr hinj hscan
  rw [hfilter]
  refine filter_congr fun k _ => decide_eq_decide.mpr ?_
  rw [← encode_prefix_iff]
  exact and_iff_right_of_imp le_of_isPrefixOf

/-- All rows found by one prefix are in one table, and a scan visits them in logical order. -/
theorem scan_pairwise_before (p : KeyPrefix)
    (hrows : rows.Pairwise fun a b => a.encode < b.encode) :
    (p.scan rows).Pairwise LevelDbKey.Before := by
  rw [scan_eq_filter p hrows]
  refine (hrows.filter _).imp_of_mem fun {a b} ha hb hab => ?_
  have ha' : p.Matches a := by simpa using (mem_filter.mp ha).2
  have hb' : p.Matches b := by simpa using (mem_filter.mp hb).2
  have htable : a.table = b.table := (table_eq_of_matches ha').symm.trans (table_eq_of_matches hb')
  exact (LevelDbKey.encode_lt_iff htable).mp hab

end KeyPrefix

/-- A path comes before its proper extensions. -/
theorem lt_of_proper_extension (h : p <+: q) (hne : p ≠ q) : p < q :=
  lt_of_le_of_ne (le_of_isPrefixOf h) hne

/-- In every table the bytewise order of the keys is the logical order of their components, and a
key starts with a key prefix exactly if it has the leading components of the prefix.  In every table
of documents the rows of a document come before the rows of its subcollections. -/
theorem levelDbKey_order :
    (∀ a b : LevelDbKey, a.table = b.table → (a.encode < b.encode ↔ a.Before b)) ∧
    (∀ (p : KeyPrefix) (k : LevelDbKey), p.encode <+: k.encode ↔ p.Matches k) ∧
    (∀ (p : KeyPrefix) (rows : List LevelDbKey), (rows.Pairwise fun a b => a.encode < b.encode) →
        p.scan rows = rows.filter (fun k => p.Matches k) ∧
          (p.scan rows).Pairwise LevelDbKey.Before) ∧
    ∀ d d' : DocumentKey, d.path <+: d'.path → d ≠ d' →
      (∀ u b b', LevelDbDocumentMutationKey.key u d b < LevelDbDocumentMutationKey.key u d' b') ∧
      (∀ t, LevelDbTargetDocumentKey.key t d < LevelDbTargetDocumentKey.key t d') ∧
      (∀ t t', LevelDbDocumentTargetKey.key d t < LevelDbDocumentTargetKey.key d' t') ∧
      LevelDbRemoteDocumentKey.key d < LevelDbRemoteDocumentKey.key d' := by
  refine ⟨fun a b => LevelDbKey.encode_lt_iff, fun p k => KeyPrefix.encode_prefix_iff,
    fun p rows hrows => ⟨p.scan_eq_filter hrows, p.scan_pairwise_before hrows⟩, ?_⟩
  intro d d' hpre hne
  have hlt : d.path < d'.path :=
    lt_of_proper_extension hpre (DocumentKey.path_injective.ne hne)
  refine ⟨fun u b b' => ?_, fun t => ?_, fun t t' => ?_, ?_⟩
  · refine (LevelDbDocumentMutationKey.encode_orderCode ⟨u, d, b⟩ ⟨u, d', b'⟩ ?_).lt
    exact Prod.Lex.lt_iff.mpr (.inr ⟨rfl, Prod.Lex.lt_iff.mpr (.inl hlt)⟩)
  · refine (LevelDbTargetDocumentKey.encode_orderCode ⟨t, d⟩ ⟨t, d'⟩ ?_).lt
    exact Prod.Lex.lt_iff.mpr (.inr ⟨rfl, hlt⟩)
  · refine (LevelDbDocumentTargetKey.encode_orderCode ⟨d, t⟩ ⟨d', t'⟩ ?_).lt
    exact Prod.Lex.lt_iff.mpr (.inl hlt)
  · exact (LevelDbRemoteDocumentKey.encode_orderCode ⟨d⟩ ⟨d'⟩ hlt).lt

end Firebase.Firestore.Local
