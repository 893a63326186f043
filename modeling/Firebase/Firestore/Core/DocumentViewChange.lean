import Firebase.Firestore.Model.Mutation

/-!
# Changes of the documents of a view

`DocumentViewChange` and `DocumentViewChangeSet` (`view_snapshot.cc`): at most one
change for each document, with later changes merged into earlier ones.
-/

namespace Firebase.Firestore.Core

open Lib Util Model

inductive ChangeType where
  | removed | added | modified | metadata
deriving DecidableEq

structure DocumentViewChange where
  document : Document
  type : ChangeType

structure DocumentViewChangeSet where
  changeMap : OrdMap DocumentKey DocumentViewChange

namespace DocumentViewChangeSet

def empty : DocumentViewChangeSet := ⟨.empty⟩

def addChange (set : DocumentViewChangeSet) (change : DocumentViewChange) :
    Hard DocumentViewChangeSet :=
  let key := change.document.key
  match set.changeMap.get? key with
  | none => .ok ⟨set.changeMap.insert key change⟩
  | some old =>
    if change.type ≠ .added ∧ old.type = .metadata then
      .ok ⟨set.changeMap.insert key change⟩
    else if change.type = .metadata ∧ old.type ≠ .removed then
      .ok ⟨set.changeMap.insert key ⟨change.document, old.type⟩⟩
    else if change.type = .modified ∧ old.type = .modified then
      .ok ⟨set.changeMap.insert key ⟨change.document, .modified⟩⟩
    else if change.type = .modified ∧ old.type = .added then
      .ok ⟨set.changeMap.insert key ⟨change.document, .added⟩⟩
    else if change.type = .removed ∧ old.type = .added then
      .ok ⟨set.changeMap.erase key⟩
    else if change.type = .removed ∧ old.type = .modified then
      .ok ⟨set.changeMap.insert key ⟨old.document, .removed⟩⟩
    else if change.type = .added ∧ old.type = .removed then
      .ok ⟨set.changeMap.insert key ⟨change.document, .modified⟩⟩
    else .error ⟨"Unsupported combination of changes"⟩

def getChanges (set : DocumentViewChangeSet) : List DocumentViewChange :=
  set.changeMap.entries.map Prod.snd

end DocumentViewChangeSet

end Firebase.Firestore.Core
