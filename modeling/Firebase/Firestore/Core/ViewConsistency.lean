import Firebase.Lib.Simulation
import Firebase.Firestore.Core.ViewSnapshots

/-!
# The key sets of a view

Beside its documents a view keeps the keys of the documents with local mutations and the keys in
limbo: documents that the server, which is current, does not say to match.  In every run they are
what the documents say (`View.Consistent`).
-/

namespace Firebase.Firestore.Core

open Lib Util Model Remote List

def LimboDocumentChange.applyTo (keys : DocumentKeySet) : LimboDocumentChange → DocumentKeySet
  | .added key => insert key keys
  | .removed key => keys.erase key

open LimboDocumentChange

theorem foldl_applyTo_removed (keys : DocumentKeySet) (removed : List DocumentKey) :
    (removed.map .removed).foldl applyTo keys = keys \ removed.toFinset := by
  induction removed generalizing keys with
  | nil => exact Finset.sdiff_empty.symm
  | cons key removed ih =>
    rw [map_cons, foldl_cons, ih, toFinset_cons, Finset.sdiff_insert,
      applyTo, Finset.erase_sdiff_comm]

theorem foldl_applyTo_added (keys : DocumentKeySet) (added : List DocumentKey) :
    (added.map .added).foldl applyTo keys = keys ∪ added.toFinset := by
  induction added generalizing keys with
  | nil => exact (Finset.union_empty keys).symm
  | cons key added ih =>
    rw [map_cons, foldl_cons, ih, toFinset_cons, Finset.union_insert,
      applyTo, Finset.insert_union]

/-- What happens to a view, with what a query of the local store gives if it has to be asked. -/
inductive ViewEvent where
  | documents (docChanges queryResult : OrdMap DocumentKey MaybeDocument)
      (targetChange : Option TargetChange)
  | onlineState (onlineState : OnlineState)

namespace View

def handle (view : View) : ViewEvent → Hard (View × ViewChange)
  | .documents docChanges queryResult targetChange => do
    view.applyChanges (← view.updateDocuments docChanges queryResult) targetChange
  | .onlineState onlineState => view.applyOnlineStateChange onlineState

/-- The keys in limbo are those of the documents without local mutations that are not synced. -/
def LimboExact (view : View) : Prop :=
  ∀ key, key ∈ view.limboDocuments ↔ key ∉ view.syncedDocuments ∧
    ∃ doc, view.documentSet.getDocument key = some doc ∧ ¬ doc.hasLocalMutations

/-- The key sets say what the documents say. -/
structure Consistent (view : View) : Prop where
  mutatedKeys : ViewDocumentChanges.MarksMutated view.documentSet view.mutatedKeys
  limboDocuments : view.current → view.LimboExact

variable {view view' : View} {ordering : List OrderBy} {changes : ViewDocumentChanges}
  {targetChange : Option TargetChange} {change : ViewChange}

theorem shouldBeInLimbo_iff {key : DocumentKey} : view.shouldBeInLimbo key ↔
    key ∉ view.syncedDocuments ∧
      ∃ doc, view.documentSet.getDocument key = some doc ∧ ¬ doc.hasLocalMutations := by
  unfold shouldBeInLimbo
  split_ifs with hsynced
  · simp [hsynced]
  · cases view.documentSet.getDocument key <;> simp [hsynced]

/-- The limbo changes lead to the new keys, which are exact if the view is current. -/
theorem updateLimboDocuments_spec
    (hsorted : view.documentSet.Sorted (order ordering) (HasFields ordering)) :
    (view.current → view.updateLimboDocuments.1.LimboExact) ∧
      view.updateLimboDocuments.2.foldl applyTo view.limboDocuments =
        view.updateLimboDocuments.1.limboDocuments ∧
      (view.current = false → view.updateLimboDocuments.2 = []) := by
  unfold updateLimboDocuments
  cases hcurrent : view.current with
  | false => exact ⟨nofun, rfl, fun _ => rfl⟩
  | true =>
    refine ⟨fun _ key => ?_, ?_, nofun⟩
    · change key ∈ List.toFinset _ ↔ _
      rw [mem_toFinset, mem_filter, ← shouldBeInLimbo_iff]
      refine and_iff_right_of_imp fun hlimbo => ?_
      obtain ⟨-, doc, hdoc, -⟩ := shouldBeInLimbo_iff.mp hlimbo
      exact mem_map.mpr ⟨doc, hsorted.mem_of_get? hdoc, hsorted.key_eq hdoc⟩
    · rw [if_neg (by simp), foldl_append, foldl_applyTo_removed, foldl_applyTo_added,
        Finset.sort_toFinset, Finset.sort_toFinset, sdiff_sdiff_right_self, inf_comm]
      exact sup_inf_sdiff _ _

/-- Applying changes. -/
theorem applyChanges_consistent (hview₀ : view.Consistent) (htracks : changes.Tracks ordering view)
    (h : view.applyChanges changes targetChange = .ok (view', change)) :
    view'.Consistent ∧ change.limboChanges.foldl applyTo view.limboDocuments =
      view'.limboDocuments ∧
      (view.current = false → targetChange = none → change.limboChanges = []) := by
  obtain ⟨_, -, h⟩ := bind_eq_ok.mp h
  obtain ⟨sorted, -, h⟩ := bind_eq_ok.mp h
  obtain ⟨view₁, htarget, h⟩ := bind_eq_ok.mp h
  obtain ⟨hview', hchange⟩ := ok_inj h
  obtain ⟨-, hset₁, hmarks₁, hlimbo₁⟩ := applyTargetChange_eq htarget
  obtain ⟨-, hset₂, hmarks₂, hcurrent₂⟩ := view₁.updateLimboDocuments_eq
  have hsorted : view₁.documentSet.Sorted (order ordering) (HasFields ordering) := by
    rw [hset₁]
    exact htracks.sorted
  obtain ⟨hexact, hlimbo, hnone⟩ := updateLimboDocuments_spec hsorted
  rw [hlimbo₁] at hlimbo
  rw [← hview', ← hchange]
  refine ⟨⟨?_, fun hcurrent => hexact (hcurrent₂.symm.trans hcurrent)⟩, hlimbo,
    fun hcurrent htarget' => ?_⟩
  · change ViewDocumentChanges.MarksMutated view₁.updateLimboDocuments.1.documentSet
      view₁.updateLimboDocuments.1.mutatedKeys
    rw [hset₂, hset₁, hmarks₂, hmarks₁]
    exact htracks.marksMutated hview₀.mutatedKeys
  · subst htarget'
    cases htarget
    exact hnone hcurrent

/-- An event. -/
theorem handle_consistent (hview : view.WellFormed ordering) (hview₀ : view.Consistent)
    {event : ViewEvent} (h : view.handle event = .ok (view', change)) :
    view'.WellFormed ordering ∧ view'.Consistent ∧
      change.limboChanges.foldl applyTo view.limboDocuments =
        view'.limboDocuments ∧
      ∀ onlineState, event = .onlineState onlineState → change.limboChanges = [] := by
  cases event with
  | documents docChanges queryResult targetChange =>
    obtain ⟨changes, hchanges, happly⟩ := bind_eq_ok.mp h
    have htracks := updateDocuments_tracks hview hchanges
    obtain ⟨hview', -⟩ := applyChanges_exactDiff hview htracks.toIsDiff happly
    obtain ⟨hconsistent, hlimbo, -⟩ := applyChanges_consistent hview₀ htracks happly
    exact ⟨hview', hconsistent, hlimbo, nofun⟩
  | onlineState onlineState =>
    rw [handle, applyOnlineStateChange] at h
    split_ifs at h
    · have hoffline : WellFormed { view with current := false } ordering :=
        { hview with }
      have hoffline₀ : Consistent { view with current := false } := ⟨hview₀.mutatedKeys, nofun⟩
      have htracks := ViewDocumentChanges.Tracks.refl hoffline.sorted false
      obtain ⟨hview', -⟩ := applyChanges_exactDiff hoffline htracks.toIsDiff h
      obtain ⟨hconsistent, hlimbo, hnone⟩ := applyChanges_consistent hoffline₀ htracks h
      exact ⟨hview', hconsistent, hlimbo, fun _ _ => hnone rfl rfl⟩
    · cases h
      exact ⟨hview, hview₀, rfl, fun _ _ => rfl⟩

/-- **The key sets of a view are exact.**  In every run of a view the keys with local mutations and
the keys in limbo are what its documents say, and the limbo changes that were told add up to the
keys in limbo. -/
theorem runAll_handle_consistent {query : Query} {remoteDocuments : DocumentKeySet}
    (hmake : View.make query remoteDocuments = .ok view) {events : List ViewEvent}
    {changes : List ViewChange} (hrun : runAll handle view events = .ok (view', changes)) :
    view'.Consistent ∧ (changes.flatMap (·.limboChanges)).foldl applyTo ∅ =
        view'.limboDocuments ∧
      List.Forall₂ (fun event change => ∀ onlineState, event = ViewEvent.onlineState onlineState →
        change.limboChanges = []) events changes := by
  obtain ⟨comparator, hcmp, -⟩ := bind_eq_ok.mp hmake
  obtain ⟨ordering, hordering, -⟩ := bind_eq_ok.mp hcmp
  have hview := make_wellFormed hordering hmake
  have hconsistent : view.Consistent ∧ view.limboDocuments = ∅ := by
    rw [make, hcmp] at hmake
    cases hmake
    refine ⟨⟨fun key => ⟨fun hmem => ?_, fun hmutated => ?_⟩, fun hcurrent => ?_⟩, rfl⟩
    · cases hmem
    · obtain ⟨doc, hget, -⟩ := hmutated
      cases hget
    · cases hcurrent
  obtain ⟨hconsistent, hempty⟩ := hconsistent
  rw [← hempty]
  clear hmake hempty
  induction events generalizing view changes with
  | nil =>
    cases hrun
    exact ⟨hconsistent, rfl, .nil⟩
  | cons event events ih =>
    obtain ⟨view₁, change, changes', hfirst, hrest, rfl⟩ := runAll_cons_eq_ok.mp hrun
    obtain ⟨hview₁, hconsistent₁, hlimbo₁, honline⟩ := handle_consistent hview hconsistent hfirst
    obtain ⟨hconsistent', hlimbo, hanswers⟩ := ih hrest hview₁ hconsistent₁
    refine ⟨hconsistent', ?_, .cons honline hanswers⟩
    rw [flatMap_cons, foldl_append, hlimbo₁, hlimbo]

namespace Limited

def current : TargetChange := ⟨[], true, ∅, ∅, ∅⟩

end Limited

theorem runAll_handle_consistent_limited : ∃ view changes,
    runAll handle Limited.emptyView [.documents Limited.docChanges Limited.docChanges
      (some Limited.current), .onlineState .offline] = .ok (view, changes) ∧ view.Consistent ∧
      (changes.flatMap (·.limboChanges)).foldl applyTo ∅ =
        view.limboDocuments := by
  have hrun : ∃ view changes, runAll handle Limited.emptyView [.documents Limited.docChanges
      Limited.docChanges (some Limited.current), .onlineState .offline] =
        .ok (view, changes) := ⟨_, _, rfl⟩
  obtain ⟨view, changes, hrun⟩ := hrun
  obtain ⟨hconsistent, hlimbo, -⟩ := runAll_handle_consistent
    (show View.make Limited.query ∅ = _ from rfl) hrun
  exact ⟨view, changes, hrun, hconsistent, hlimbo⟩

end View

end Firebase.Firestore.Core
