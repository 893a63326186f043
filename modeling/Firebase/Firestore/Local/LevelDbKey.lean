import Firebase.Firestore.Model.DocumentKey
import Firebase.Firestore.Util.OrderedCodeNum

/-!
# Keys of the local store

Every row of the local store sits in one LevelDB database under a key made of
labelled components (`leveldb_key.cc`): the name of the table, the components of
the row, and a terminator.  Each table has a class with a writer `Key`, a reader
`Decode` and, for scans, the writers `KeyPrefix` of its leading components.

The reader `Reader` is a state machine over the unread bytes and a flag `ok` that is never raised
again once it has dropped: a failed reader answers every further read with a default.
-/

namespace Firebase.Firestore.Local

open Lib Util Model

/-! ## Tables and labels -/

def kVersionGlobalTable : Bytes := ascii "version"
def kMutationsTable : Bytes := ascii "mutation"
def kDocumentMutationsTable : Bytes := ascii "document_mutation"
def kMutationQueuesTable : Bytes := ascii "mutation_queue"
def kTargetGlobalTable : Bytes := ascii "target_global"
def kTargetsTable : Bytes := ascii "target"
def kQueryTargetsTable : Bytes := ascii "query_target"
def kTargetDocumentsTable : Bytes := ascii "target_document"
def kDocumentTargetsTable : Bytes := ascii "document_target"
def kRemoteDocumentsTable : Bytes := ascii "remote_document"
def kCollectionParentsTable : Bytes := ascii "collection_parent"
def kRemoteDocumentReadTimeTable : Bytes := ascii "remote_document_read_time"

abbrev BatchId := Int32

abbrev TargetId := Int32

abbrev ListenSequenceNumber := Int64

/-- `LevelDbDocumentTargetKey::kInvalidTargetId`, the target id of a sentinel row. -/
def kInvalidTargetId : TargetId := 0

/-- `ComponentLabel`: what a component of a key is. -/
inductive ComponentLabel
  | terminator
  | tableName
  | batchId
  | canonicalId
  | targetId
  | userId
  | collectionId
  | documentId
  | snapshotVersion
  | pathSegment
  | unknown
deriving DecidableEq

/-- The values of the enumeration.  `pathSegment` is above all labels that can follow
a path and `terminator` is below all of them. -/
def ComponentLabel.value : ComponentLabel → Int64
  | terminator => 0
  | tableName => 5
  | batchId => 10
  | canonicalId => 11
  | targetId => 12
  | userId => 13
  | collectionId => 14
  | documentId => 15
  | snapshotVersion => 16
  | pathSegment => 62
  | unknown => 63

/-! ## Writing -/

namespace Writer

variable (label : ComponentLabel)

def writeComponentLabel : Bytes :=
  OrderedCode.writeSignedNumIncreasing label.value

def writeLabeledInt32 (value : Int32) : Bytes :=
  writeComponentLabel label ++ OrderedCode.writeSignedNumIncreasing value.toInt64

def writeLabeledString (value : Bytes) : Bytes :=
  writeComponentLabel label ++ OrderedCode.writeString value

def writeTerminator : Bytes := writeComponentLabel .terminator

def writeTableName (tableName : Bytes) : Bytes := writeLabeledString .tableName tableName

def writeBatchId (batchId : BatchId) : Bytes := writeLabeledInt32 .batchId batchId

def writeCanonicalId (canonicalId : Bytes) : Bytes := writeLabeledString .canonicalId canonicalId

def writeTargetId (targetId : TargetId) : Bytes := writeLabeledInt32 .targetId targetId

def writeUserId (userId : Bytes) : Bytes := writeLabeledString .userId userId

def writeCollectionId (collectionId : Bytes) : Bytes :=
  writeLabeledString .collectionId collectionId

def writeDocumentId (documentId : Bytes) : Bytes := writeLabeledString .documentId documentId

def writeSnapshotVersion (version : SnapshotVersion) : Bytes :=
  writeComponentLabel .snapshotVersion ++
    (OrderedCode.writeSignedNumIncreasing version.timestamp.seconds ++
      OrderedCode.writeSignedNumIncreasing version.timestamp.nanoseconds.toInt64)

def writeResourcePath (path : ResourcePath) : Bytes :=
  path.flatMap fun segment =>
    writeComponentLabel .pathSegment ++ OrderedCode.writeString segment

/-- Every label takes one byte. -/
theorem writeComponentLabel_eq :
    writeComponentLabel label = [0x80 + label.value.toUInt64.toUInt8] := by
  cases label <;> decide

@[simp] theorem writeResourcePath_nil : writeResourcePath [] = [] := rfl

@[simp] theorem writeResourcePath_cons (segment : Bytes) (path : ResourcePath) :
    writeResourcePath (segment :: path) = writeComponentLabel .pathSegment ++
      (OrderedCode.writeString segment ++ writeResourcePath path) := by
  simp [writeResourcePath]

theorem length_le_writeResourcePath (path : ResourcePath) :
    path.length ≤ (writeResourcePath path).length := by
  induction path with
  | nil => simp
  | cons segment path ih =>
    simp [writeComponentLabel_eq]
    omega

end Writer

/-! ## Reading -/

/-- `Reader`: the unread bytes, and whether no error was met so far. -/
structure Reader where
  src : Bytes
  ok : Bool
deriving DecidableEq

abbrev ReaderM := StateT Reader Hard

namespace Reader

def empty (reader : Reader) : Bool := !reader.ok || reader.src.isEmpty

def fail : ReaderM Unit := modify fun reader => { reader with ok := false }

def failWith {α : Type} (default : α) : ReaderM α := do
  fail
  return default

def readSignedNumIncreasing : ReaderM Int64 := do
  let reader ← get
  if reader.ok then
    match ← OrderedCode.readSignedNumIncreasing reader.src with
    | some (result, src) =>
      set { reader with src := src }
      return result
    | none => failWith 0
  else failWith 0

def readString : ReaderM Bytes := do
  let reader ← get
  if reader.ok then
    match OrderedCode.readString reader.src with
    | some (result, src) =>
      set { reader with src := src }
      return result
    | none => failWith []
  else failWith []

variable (expectedLabel : ComponentLabel)

/-- A mismatch of the label is not a failure: it is a branch point of the parser. -/
def readComponentLabelMatching : ReaderM Bool := do
  if (← get).ok then
    let rawResult ← readSignedNumIncreasing
    if (← get).ok then return rawResult == expectedLabel.value
    else failWith false
  else failWith false

def readInt32 : ReaderM Int32 := do
  if (← get).ok then
    let rawResult ← readSignedNumIncreasing
    if (← get).ok ∧ Int32.minValue.toInt64 ≤ rawResult ∧ rawResult ≤ Int32.maxValue.toInt64 then
      return rawResult.toInt32
    else failWith 0
  else failWith 0

def expectLabel : ReaderM Unit := do
  if !(← readComponentLabelMatching expectedLabel) then fail

def readLabeledInt32 : ReaderM Int32 := do
  expectLabel expectedLabel
  readInt32

def readInt64 : ReaderM Int64 := readSignedNumIncreasing

def readLabeledString : ReaderM Bytes := do
  expectLabel expectedLabel
  readString

def readLabeledStringMatching (expectedValue : Bytes) : ReaderM Bool := do
  let value ← readLabeledString expectedLabel
  if (← get).ok then return value == expectedValue
  else failWith false

def readTableNameMatching (expectedTableName : Bytes) : ReaderM Unit := do
  if !(← readLabeledStringMatching .tableName expectedTableName) then fail

def readBatchId : ReaderM BatchId := readLabeledInt32 .batchId

def readCanonicalId : ReaderM Bytes := readLabeledString .canonicalId

def readTargetId : ReaderM TargetId := readLabeledInt32 .targetId

def readUserId : ReaderM Bytes := readLabeledString .userId

def readCollectionId : ReaderM Bytes := readLabeledString .collectionId

def readDocumentId : ReaderM Bytes := readLabeledString .documentId

def readTerminator : ReaderM Unit := expectLabel .terminator

/-- The loop of `ReadResourcePath`, with a bound on the number of iterations. -/
def readPathSegments : Nat → ResourcePath → ReaderM ResourcePath
  | 0, pathSegments => return pathSegments
  | bound + 1, pathSegments => do
    let reader ← get
    if reader.empty then return pathSegments
    else if !(← readComponentLabelMatching .pathSegment) then
      -- What was read belongs to the next component.
      modify fun r => { r with src := reader.src }
      return pathSegments
    else
      let segment ← readString
      if !(← get).ok then return pathSegments
      else readPathSegments bound (pathSegments ++ [segment])

/-- `Reader::ReadResourcePath`.  The number of unread bytes bounds the number of iterations. -/
def readResourcePath : ReaderM ResourcePath := do
  readPathSegments (← get).src.length []

def readDocumentKey : ReaderM DocumentKey := do
  let path ← readResourcePath
  if (← get).ok && !path.isEmpty then
    if h : path.length % 2 = 0 then return ⟨path, h⟩
    else failWith DocumentKey.empty
  else failWith DocumentKey.empty

/-- `Reader::ReadSnapshotVersion`.  The timestamp is built, and its bounds are
asserted, even if a read has failed. -/
def readSnapshotVersion : ReaderM SnapshotVersion := do
  expectLabel .snapshotVersion
  let seconds ← readInt64
  let nanos ← readInt32
  let timestamp ← Timestamp.make seconds nanos
  return ⟨timestamp⟩

/-- What every `Decode` does: read the fields from the key and report whether the reader
is still in order. -/
def decode {α : Type} (key : Bytes) (read : ReaderM α) : Hard (Bool × α) := do
  let (fields, reader) ← read.run ⟨key, true⟩
  return (reader.ok, fields)

end Reader

/-! ## The keys of each table -/

open Writer Reader

/-- `LevelDbVersionKey`: the schema version.  It is never decoded. -/
def LevelDbVersionKey.key : Bytes := writeTableName kVersionGlobalTable ++ writeTerminator

/-- `LevelDbMutationKey`: the mutation batches of each user. -/
structure LevelDbMutationKey where
  userId : Bytes
  batchId : BatchId
deriving DecidableEq

namespace LevelDbMutationKey

def keyPrefix : Bytes := writeTableName kMutationsTable

def keyPrefixForUser (userId : Bytes) : Bytes :=
  writeTableName kMutationsTable ++ writeUserId userId

def key (userId : Bytes) (batchId : BatchId) : Bytes :=
  writeTableName kMutationsTable ++ writeUserId userId ++ writeBatchId batchId ++ writeTerminator

def decode (key : Bytes) : Hard (Bool × LevelDbMutationKey) :=
  Reader.decode key do
    readTableNameMatching kMutationsTable
    let userId ← readUserId
    let batchId ← readBatchId
    readTerminator
    return { userId, batchId }

end LevelDbMutationKey

/-- `LevelDbDocumentMutationKey`: the batches that touch a document. -/
structure LevelDbDocumentMutationKey where
  userId : Bytes
  documentKey : DocumentKey
  batchId : BatchId
deriving DecidableEq

namespace LevelDbDocumentMutationKey

def keyPrefix : Bytes := writeTableName kDocumentMutationsTable

def keyPrefixForUser (userId : Bytes) : Bytes :=
  writeTableName kDocumentMutationsTable ++ writeUserId userId

def keyPrefixForPath (userId : Bytes) (resourcePath : ResourcePath) : Bytes :=
  writeTableName kDocumentMutationsTable ++ writeUserId userId ++ writeResourcePath resourcePath

def key (userId : Bytes) (documentKey : DocumentKey) (batchId : BatchId) : Bytes :=
  writeTableName kDocumentMutationsTable ++ writeUserId userId ++
    writeResourcePath documentKey.path ++ writeBatchId batchId ++ writeTerminator

def decode (key : Bytes) : Hard (Bool × LevelDbDocumentMutationKey) :=
  Reader.decode key do
    readTableNameMatching kDocumentMutationsTable
    let userId ← readUserId
    let documentKey ← readDocumentKey
    let batchId ← readBatchId
    readTerminator
    return { userId, documentKey, batchId }

end LevelDbDocumentMutationKey

/-- `LevelDbMutationQueueKey`: the metadata of each user's queue. -/
structure LevelDbMutationQueueKey where
  userId : Bytes
deriving DecidableEq

namespace LevelDbMutationQueueKey

def keyPrefix : Bytes := writeTableName kMutationQueuesTable

def key (userId : Bytes) : Bytes :=
  writeTableName kMutationQueuesTable ++ writeUserId userId ++ writeTerminator

def decode (key : Bytes) : Hard (Bool × LevelDbMutationQueueKey) :=
  Reader.decode key do
    readTableNameMatching kMutationQueuesTable
    let userId ← readUserId
    readTerminator
    return { userId }

end LevelDbMutationQueueKey

/-- `LevelDbTargetGlobalKey`: the one row of target metadata. -/
structure LevelDbTargetGlobalKey where
deriving DecidableEq

namespace LevelDbTargetGlobalKey

def key : Bytes := writeTableName kTargetGlobalTable ++ writeTerminator

def decode (key : Bytes) : Hard (Bool × LevelDbTargetGlobalKey) :=
  Reader.decode key do
    readTableNameMatching kTargetGlobalTable
    readTerminator
    return {}

end LevelDbTargetGlobalKey

structure LevelDbTargetKey where
  targetId : TargetId
deriving DecidableEq

namespace LevelDbTargetKey

def keyPrefix : Bytes := writeTableName kTargetsTable

def key (targetId : TargetId) : Bytes :=
  writeTableName kTargetsTable ++ writeTargetId targetId ++ writeTerminator

def decode (key : Bytes) : Hard (Bool × LevelDbTargetKey) :=
  Reader.decode key do
    readTableNameMatching kTargetsTable
    let targetId ← readTargetId
    readTerminator
    return { targetId }

end LevelDbTargetKey

structure LevelDbQueryTargetKey where
  canonicalId : Bytes
  targetId : TargetId
deriving DecidableEq

namespace LevelDbQueryTargetKey

def keyPrefix : Bytes := writeTableName kQueryTargetsTable

def keyPrefixForCanonicalId (canonicalId : Bytes) : Bytes :=
  writeTableName kQueryTargetsTable ++ writeCanonicalId canonicalId

def key (canonicalId : Bytes) (targetId : TargetId) : Bytes :=
  writeTableName kQueryTargetsTable ++ writeCanonicalId canonicalId ++ writeTargetId targetId ++
    writeTerminator

def decode (key : Bytes) : Hard (Bool × LevelDbQueryTargetKey) :=
  Reader.decode key do
    readTableNameMatching kQueryTargetsTable
    let canonicalId ← readCanonicalId
    let targetId ← readTargetId
    readTerminator
    return { canonicalId, targetId }

end LevelDbQueryTargetKey

structure LevelDbTargetDocumentKey where
  targetId : TargetId
  documentKey : DocumentKey
deriving DecidableEq

namespace LevelDbTargetDocumentKey

def keyPrefix : Bytes := writeTableName kTargetDocumentsTable

def keyPrefixForTarget (targetId : TargetId) : Bytes :=
  writeTableName kTargetDocumentsTable ++ writeTargetId targetId

def key (targetId : TargetId) (documentKey : DocumentKey) : Bytes :=
  writeTableName kTargetDocumentsTable ++ writeTargetId targetId ++
    writeResourcePath documentKey.path ++ writeTerminator

def decode (key : Bytes) : Hard (Bool × LevelDbTargetDocumentKey) :=
  Reader.decode key do
    readTableNameMatching kTargetDocumentsTable
    let targetId ← readTargetId
    let documentKey ← readDocumentKey
    readTerminator
    return { targetId, documentKey }

end LevelDbTargetDocumentKey

/-- `LevelDbDocumentTargetKey`: the targets of a document, and its sentinel row. -/
structure LevelDbDocumentTargetKey where
  documentKey : DocumentKey
  targetId : TargetId
deriving DecidableEq

namespace LevelDbDocumentTargetKey

def keyPrefix : Bytes := writeTableName kDocumentTargetsTable

def keyPrefixForPath (resourcePath : ResourcePath) : Bytes :=
  writeTableName kDocumentTargetsTable ++ writeResourcePath resourcePath

def key (documentKey : DocumentKey) (targetId : TargetId) : Bytes :=
  writeTableName kDocumentTargetsTable ++ writeResourcePath documentKey.path ++
    writeTargetId targetId ++ writeTerminator

/-- The sentinel row of a document is the row of a target id that no target has. -/
def sentinelKey (documentKey : DocumentKey) : Bytes := key documentKey kInvalidTargetId

def encodeSentinelValue (sequenceNumber : ListenSequenceNumber) : Bytes :=
  OrderedCode.writeSignedNumIncreasing sequenceNumber

def decodeSentinelValue (slice : Bytes) : Hard ListenSequenceNumber := do
  match ← OrderedCode.readSignedNumIncreasing slice with
  | some (decoded, _) => return decoded
  | none => .error ⟨"Failed to read sequence number from a sentinel row"⟩

def decode (key : Bytes) : Hard (Bool × LevelDbDocumentTargetKey) :=
  Reader.decode key do
    readTableNameMatching kDocumentTargetsTable
    let documentKey ← readDocumentKey
    let targetId ← readTargetId
    readTerminator
    return { documentKey, targetId }

end LevelDbDocumentTargetKey

structure LevelDbRemoteDocumentKey where
  documentKey : DocumentKey
deriving DecidableEq

namespace LevelDbRemoteDocumentKey

def keyPrefix : Bytes := writeTableName kRemoteDocumentsTable

def keyPrefixForPath (resourcePath : ResourcePath) : Bytes :=
  writeTableName kRemoteDocumentsTable ++ writeResourcePath resourcePath

def key (documentKey : DocumentKey) : Bytes :=
  writeTableName kRemoteDocumentsTable ++ writeResourcePath documentKey.path ++ writeTerminator

def decode (key : Bytes) : Hard (Bool × LevelDbRemoteDocumentKey) :=
  Reader.decode key do
    readTableNameMatching kRemoteDocumentsTable
    let documentKey ← readDocumentKey
    readTerminator
    return { documentKey }

end LevelDbRemoteDocumentKey

/-- `LevelDbCollectionParentKey`: the parents of the collections with one id. -/
structure LevelDbCollectionParentKey where
  collectionId : Bytes
  parent : ResourcePath
deriving DecidableEq

namespace LevelDbCollectionParentKey

def keyPrefix : Bytes := writeTableName kCollectionParentsTable

def keyPrefixForCollectionId (collectionId : Bytes) : Bytes :=
  writeTableName kCollectionParentsTable ++ writeCollectionId collectionId

def key (collectionId : Bytes) (parent : ResourcePath) : Bytes :=
  writeTableName kCollectionParentsTable ++ writeCollectionId collectionId ++
    writeResourcePath parent ++ writeTerminator

def decode (key : Bytes) : Hard (Bool × LevelDbCollectionParentKey) :=
  Reader.decode key do
    readTableNameMatching kCollectionParentsTable
    let collectionId ← readCollectionId
    let parent ← readResourcePath
    readTerminator
    return { collectionId, parent }

end LevelDbCollectionParentKey

/-- `LevelDbRemoteDocumentReadTimeKey`: the documents of a collection by read time. -/
structure LevelDbRemoteDocumentReadTimeKey where
  collectionPath : ResourcePath
  readTime : SnapshotVersion
  documentId : Bytes
deriving DecidableEq

namespace LevelDbRemoteDocumentReadTimeKey

def keyPrefix (collectionPath : ResourcePath) (readTime : SnapshotVersion) : Bytes :=
  writeTableName kRemoteDocumentReadTimeTable ++ writeResourcePath collectionPath ++
    writeSnapshotVersion readTime

def key (collectionPath : ResourcePath) (readTime : SnapshotVersion) (documentId : Bytes) : Bytes :=
  writeTableName kRemoteDocumentReadTimeTable ++ writeResourcePath collectionPath ++
    writeSnapshotVersion readTime ++ writeDocumentId documentId ++ writeTerminator

def decode (key : Bytes) : Hard (Bool × LevelDbRemoteDocumentReadTimeKey) :=
  Reader.decode key do
    readTableNameMatching kRemoteDocumentReadTimeTable
    let collectionPath ← readResourcePath
    let readTime ← readSnapshotVersion
    let documentId ← readDocumentId
    readTerminator
    return { collectionPath, readTime, documentId }

end LevelDbRemoteDocumentReadTimeKey

end Firebase.Firestore.Local
