import Firebase.Firestore.Core.Query

/-!
# Targets

`core::Target` (`target.cc`) is what the backend knows of a query, and `local::TargetData`
(`target_data.h`) what the client keeps about a target it listens to.
-/

namespace Firebase.Firestore.Core

open Lib Util Model

/-- `model::TargetId`.  The ids, which the source keeps in 32 bits, are integers here. -/
abbrev TargetId := Int

structure Target where
  path : ResourcePath
  collectionGroup : Option Bytes
  filters : List Filter
  orderBys : List OrderBy
  limit : Int32
  startAt : Option Bound
  endAt : Option Bound

namespace Target

/-- `Target::IsDocumentQuery`, with the key of the document. -/
def documentKey (target : Target) : Option DocumentKey :=
  if h : target.path.length % 2 = 0 then
    if target.collectionGroup.isNone && target.filters.isEmpty then some ⟨target.path, h⟩ else none
  else none

def isDocumentQuery (target : Target) : Bool := target.documentKey.isSome

end Target

def Direction.flip : Direction → Direction
  | descending => ascending
  | ascending => descending

def Bound.flip (bound : Bound) : Bound := { bound with before := !bound.before }

def Query.toTarget (query : Query) : Hard Target := do
  let orderBys ← query.orderBys
  if query.limitType = .last then
    return {
      path := query.path
      collectionGroup := query.collectionGroup
      filters := query.filters
      orderBys := orderBys.map fun orderBy => { orderBy with direction := orderBy.direction.flip }
      limit := query.limit
      startAt := query.endAt.map Bound.flip
      endAt := query.startAt.map Bound.flip }
  else
    return {
      path := query.path
      collectionGroup := query.collectionGroup
      filters := query.filters
      orderBys := orderBys
      limit := query.limit
      startAt := query.startAt
      endAt := query.endAt }

inductive QueryPurpose where
  | listen | existenceFilterMismatch | limboResolution
deriving DecidableEq

structure TargetData where
  target : Target
  targetId : TargetId
  sequenceNumber : Int
  purpose : QueryPurpose
  snapshotVersion : SnapshotVersion
  lastLimboFreeSnapshotVersion : SnapshotVersion
  resumeToken : Bytes

namespace TargetData

def create (target : Target) (targetId : TargetId) (sequenceNumber : Int)
    (purpose : QueryPurpose) : TargetData :=
  ⟨target, targetId, sequenceNumber, purpose, .none, .none, []⟩

def withResumeToken (targetData : TargetData) (resumeToken : Bytes)
    (snapshotVersion : SnapshotVersion) : TargetData :=
  { targetData with resumeToken, snapshotVersion }

end TargetData

end Firebase.Firestore.Core
