import Firebase.Lib.Simulation
import Firebase.Lib.Window
import Firebase.Firestore.Core.ViewSnapshots

/-!
# Listeners of a query

`core::QueryListener` (`query_listener.cc`) stands between a view and the user: it strips metadata
changes off, waits for the server, and does not raise every snapshot.

`ListenerSession` is a view, the part of `EventManager` that belongs to its query, and one listener.
-/

namespace Firebase.Firestore.Core

open Lib Util Model Remote

structure ListenOptions where
  includeQueryMetadataChanges : Bool
  includeDocumentMetadataChanges : Bool
  waitForSyncWhenOnline : Bool

structure QueryListener where
  query : Query
  options : ListenOptions
  raisedInitialEvent : Bool := false
  onlineState : OnlineState := .unknown
  snapshot : Option ViewSnapshot := none

inductive RaisedEvent where
  | initial (snapshot : ViewSnapshot)
  | later (snapshot : ViewSnapshot)

def RaisedEvent.snapshot : RaisedEvent → ViewSnapshot
  | initial snapshot | later snapshot => snapshot

def ViewSnapshot.hasPendingWrites (snapshot : ViewSnapshot) : Bool := snapshot.mutatedKeys ≠ ∅

namespace QueryListener

variable (listener : QueryListener)

section

variable (snapshot : ViewSnapshot)

def shouldRaiseInitialEvent (onlineState : OnlineState) : Hard Bool := do
  hardAssert (!listener.raisedInitialEvent)
    "Determining whether to raise initial event, but already had first event."
  if !snapshot.fromCache then return true
  else
    -- An unknown state counts as online.
    let maybeOnline : Bool := onlineState ≠ .offline
    if listener.options.waitForSyncWhenOnline && maybeOnline then
      hardAssert snapshot.fromCache "Waiting for sync, but snapshot is not from cache."
      return false
    else return snapshot.documents.size ≠ 0 || onlineState = .offline

def shouldRaiseEvent : Bool :=
  if !snapshot.documentChanges.isEmpty then true
  else
    let hasPendingWritesChanged :=
      listener.snapshot.any fun old => old.hasPendingWrites != snapshot.hasPendingWrites
    if snapshot.syncStateChanged || hasPendingWritesChanged then
      listener.options.includeQueryMetadataChanges
    else false

def raiseInitialEvent : Hard (QueryListener × RaisedEvent) := do
  hardAssert (!listener.raisedInitialEvent) "Trying to raise initial events for second time"
  let modifiedSnapshot ← ViewSnapshot.fromInitialDocuments snapshot.query snapshot.documents
    snapshot.mutatedKeys snapshot.fromCache snapshot.excludesMetadataChanges
  return ({ listener with raisedInitialEvent := true }, .initial modifiedSnapshot)

def stripMetadataChanges : ViewSnapshot :=
  if !listener.options.includeDocumentMetadataChanges then
    { snapshot with
      documentChanges := snapshot.documentChanges.filter (·.type ≠ .metadata)
      excludesMetadataChanges := true }
  else snapshot

def onViewSnapshot : Hard (QueryListener × Option RaisedEvent) := do
  hardAssert (!snapshot.documentChanges.isEmpty || snapshot.syncStateChanged)
    "We got a new snapshot with no changes?"
  let snapshot := listener.stripMetadataChanges snapshot
  if !listener.raisedInitialEvent then
    if ← listener.shouldRaiseInitialEvent snapshot listener.onlineState then
      let (listener, event) ← listener.raiseInitialEvent snapshot
      return ({ listener with snapshot }, some event)
    else return ({ listener with snapshot }, none)
  else if listener.shouldRaiseEvent snapshot then
    return ({ listener with snapshot }, some (.later snapshot))
  else return ({ listener with snapshot }, none)

end

def onOnlineStateChanged (onlineState : OnlineState) :
    Hard (QueryListener × Option RaisedEvent) := do
  let listener := { listener with onlineState }
  match listener.snapshot with
  | none => return (listener, none)
  | some snapshot =>
    if listener.raisedInitialEvent then return (listener, none)
    else if ← listener.shouldRaiseInitialEvent snapshot onlineState then
      let (listener, event) ← listener.raiseInitialEvent snapshot
      return (listener, some event)
    else return (listener, none)

end QueryListener

/-! ## A view with a listener -/

/-- A view, its last snapshot in the event manager, and a listener.  `lastRaised` remembers the last
event for the theorems. -/
structure ListenerSession where
  view : View
  viewSnapshot : Option ViewSnapshot := none
  onlineState : OnlineState := .unknown
  listener : Option QueryListener := none
  lastRaised : Option ViewSnapshot := none

/-- What happens to a view and its listener. -/
inductive ListenerEvent where
  | listen (options : ListenOptions)
  | update (docChanges queryResult : OrdMap DocumentKey MaybeDocument)
      (targetChange : Option TargetChange)
  | viewOnlineState (onlineState : OnlineState)
  | onlineState (onlineState : OnlineState)

namespace ListenerSession

variable (s : ListenerSession)

def emit : ListenerEvent → Hard (View × Option ViewSnapshot)
  | .update docChanges queryResult targetChange => do
    let viewDocChanges ← s.view.updateDocuments docChanges queryResult
    let (view, viewChange) ← s.view.applyChanges viewDocChanges targetChange
    return (view, viewChange.snapshot)
  | .viewOnlineState onlineState => do
    let (view, viewChange) ← s.view.applyOnlineStateChange onlineState
    return (view, viewChange.snapshot)
  | .listen _ | .onlineState _ => .ok (s.view, none)

def heard (listener : QueryListener) (raised : Option RaisedEvent) : ListenerSession :=
  { s with listener, lastRaised := (raised.map RaisedEvent.snapshot).or s.lastRaised }

def deliver (snapshot : ViewSnapshot) : Hard (ListenerSession × Option RaisedEvent) :=
  match s.listener with
  | none => .ok ({ s with viewSnapshot := snapshot }, none)
  | some listener => do
    let (listener, raised) ← listener.onViewSnapshot snapshot
    return ({ s.heard listener raised with viewSnapshot := snapshot }, raised)

def react (snapshot : Option ViewSnapshot) :
    ListenerEvent → Hard (ListenerSession × Option RaisedEvent)
  -- `EventManager::AddQueryListener`.
  | .listen options =>
    match s.listener with
    | some _ => .ok (s, none)
    | none => do
      let (listener, raised) ←
        QueryListener.onOnlineStateChanged { query := s.view.query, options } s.onlineState
      hardAssert raised.isNone
        "OnOnlineStateChanged() shouldn't raise an event for brand-new listeners."
      let s := { s with listener := some listener }
      match s.viewSnapshot with
      | none => return (s, none)
      | some snapshot => s.deliver snapshot
  -- `EventManager::HandleOnlineStateChange`.
  | .onlineState onlineState =>
    let s := { s with onlineState }
    match s.listener with
    | none => .ok (s, none)
    | some listener => do
      let (listener, raised) ← listener.onOnlineStateChanged onlineState
      return (s.heard listener raised, raised)
  | .update _ _ _ | .viewOnlineState _ =>
    match snapshot with
    | none => .ok (s, none)
    | some snapshot => s.deliver snapshot

def step (event : ListenerEvent) : Hard (ListenerSession × Option RaisedEvent) := do
  let (view, snapshot) ← s.emit event
  { s with view }.react snapshot event

end ListenerSession

/-! ## Documents up to metadata -/

/-- The same documents in the same order, up to versions and states. -/
def SameDocuments (lhs rhs : DocumentSet) : Prop :=
  List.Forall₂ SameData lhs.sortedSet rhs.sortedSet

/-- A copy of the documents: it is in order, and has the same document for each key. -/
structure IsCopy (ordering : List OrderBy) (copy set : DocumentSet) : Prop where
  sorted : copy.Sorted (order ordering) (HasFields ordering)
  comparator_eq : copy.comparator = set.comparator
  rel (key : DocumentKey) : Option.Rel SameData (copy.getDocument key) (set.getDocument key)

section Copies

variable {ordering : List OrderBy} {copy set : DocumentSet}

theorem IsCopy.refl (h : set.Sorted (order ordering) (HasFields ordering)) :
    IsCopy ordering set set :=
  ⟨h, rfl, fun _ => View.rel_sameData_refl _⟩

theorem IsCopy.sameDocuments (h : IsCopy ordering copy set)
    (hset : set.Sorted (order ordering) (HasFields ordering)) : SameDocuments copy set := by
  refine h.sorted.ascending.forall₂ hset.ascending order_congr (fun doc hdoc => ?_) fun doc
    hdoc => ?_
  · have hrel := h.rel doc.key
    rw [DocumentSet.getDocument, h.sorted.mem_iff.mp hdoc] at hrel
    generalize hget : set.getDocument doc.key = x at hrel
    cases hrel with
    | some hsame => exact ⟨_, hset.mem_of_get? hget, hsame⟩
  · have hrel := h.rel doc.key
    generalize hget : copy.getDocument doc.key = x at hrel
    rw [DocumentSet.getDocument, hset.mem_iff.mp hdoc] at hrel
    cases hrel with
    | some hsame => exact ⟨_, h.sorted.mem_of_get? hget, hsame⟩

/-- Making the changes in a copy gives a copy of the new documents, even if changes of metadata are
left out. -/
theorem IsCopy.replay {changes : ViewDocumentChanges} (h : IsCopy ordering copy set)
    (hdiff : changes.IsDiff ordering set) {sorted kept : List DocumentViewChange}
    (hperm : sorted.Perm changes.changeSet.getChanges) (hsublist : kept.Sublist sorted)
    (hkept : ∀ change ∈ sorted, change ∉ kept → change.type = .metadata) :
    ∃ copy', Core.replay kept copy = .ok copy' ∧ IsCopy ordering copy' changes.documentSet := by
  have hmem : ∀ {change}, change ∈ sorted ↔
      changes.changeSet.changeMap.get? change.document.key = some change := by
    intro change
    rw [hperm.mem_iff, hdiff.mem_getChanges]
  have hnodup : (kept.map (·.document.key)).Nodup :=
    ((hperm.map _).nodup_iff.mpr hdiff.nodup_getChanges).sublist (hsublist.map _)
  obtain ⟨copy', hok, hsorted, hcmp, hother, hresult⟩ := replay_ok h.sorted
    (fun change hchange => hdiff.hasFields (hmem.mp (hsublist.subset hchange))) hnodup
  refine ⟨copy', hok, hsorted,
    hcmp.trans (h.comparator_eq.trans hdiff.comparator_eq.symm), fun key => ?_⟩
  have hchangeOf := hdiff.changeOf key
  cases hget : changes.changeSet.changeMap.get? key with
  | none =>
    rw [hget] at hchangeOf
    rw [hother key, ← hchangeOf.eq_of_none]
    · exact h.rel key
    · rw [List.mem_map]
      rintro ⟨change, hchange, rfl⟩
      cases hget.symm.trans (hmem.mp (hsublist.subset hchange))
  | some change =>
    rw [hget] at hchangeOf
    obtain rfl := hdiff.key_eq hget
    by_cases hchange : change ∈ kept
    · rw [hresult change hchange, hchangeOf.result_eq]
      exact View.rel_sameData_refl _
    · have htype := hkept change (hmem.mpr hget) hchange
      rw [hother]
      · have hrel := h.rel change.document.key
        generalize set.getDocument change.document.key = old at hrel hchangeOf
        generalize changes.documentSet.getDocument change.document.key = new at hchangeOf
        generalize copy.getDocument change.document.key = mine at hrel
        cases hchangeOf with
        | added | removed | modified => cases htype
        | metadata hsame =>
          cases hrel with
          | some hmine => exact .some (hmine.trans hsame)
      · rw [List.mem_map]
        rintro ⟨change', hchange', hkey⟩
        have hget' := hmem.mp (hsublist.subset hchange')
        rw [hkey, hget] at hget'
        exact hchange (Option.some.inj hget' ▸ hchange')

end Copies

/-! ## The listener -/

namespace QueryListener

variable {listener : QueryListener} {snapshot : ViewSnapshot} {ordering : List OrderBy}

def told (listener : QueryListener) (snapshot : ViewSnapshot) : QueryListener :=
  { listener with snapshot := listener.stripMetadataChanges snapshot }

def AllAdded (event : ViewSnapshot) : Prop :=
  event.documentChanges = event.documents.sortedSet.map fun doc => ⟨doc, .added⟩

theorem stripMetadataChanges_eq (listener : QueryListener) (snapshot : ViewSnapshot) :
    (listener.stripMetadataChanges snapshot).documents = snapshot.documents ∧
      (listener.stripMetadataChanges snapshot).query = snapshot.query := by
  unfold stripMetadataChanges
  split_ifs <;> exact ⟨rfl, rfl⟩

theorem stripMetadataChanges_sublist (listener : QueryListener) (snapshot : ViewSnapshot) :
    (listener.stripMetadataChanges snapshot).documentChanges.Sublist snapshot.documentChanges := by
  unfold stripMetadataChanges
  split_ifs
  · exact List.filter_sublist
  · exact List.Sublist.refl _

theorem stripMetadataChanges_kept {change : DocumentViewChange}
    (hmem : change ∈ snapshot.documentChanges)
    (hnot : change ∉ (listener.stripMetadataChanges snapshot).documentChanges) :
    change.type = .metadata := by
  unfold stripMetadataChanges at hnot
  split_ifs at hnot
  · by_contra htype
    exact hnot (List.mem_filter.mpr ⟨hmem, decide_eq_true htype⟩)
  · exact absurd hmem hnot

theorem shouldRaiseInitialEvent_ok (snapshot : ViewSnapshot)
    (hraised : listener.raisedInitialEvent = false) (onlineState : OnlineState) :
    ∃ raise, listener.shouldRaiseInitialEvent snapshot onlineState = .ok raise := by
  unfold shouldRaiseInitialEvent
  rw [hraised, Bool.not_false, hardAssert_true]
  cases snapshot.fromCache with
  | false => exact ⟨true, rfl⟩
  | true =>
    rw [if_neg (by simp)]
    dsimp only
    split_ifs
    · exact ⟨false, rfl⟩
    · exact ⟨_, rfl⟩

/-- The initial event has all documents as added. -/
theorem raiseInitialEvent_ok (hraised : listener.raisedInitialEvent = false)
    (hordering : snapshot.query.orderBys = .ok ordering) :
    ∃ event, listener.raiseInitialEvent snapshot =
        .ok ({ listener with raisedInitialEvent := true }, .initial event) ∧
      event.documents = snapshot.documents ∧ AllAdded event := by
  unfold raiseInitialEvent ViewSnapshot.fromInitialDocuments
  rw [hraised, Bool.not_false, hardAssert_true, Query.comparator_eq hordering]
  exact ⟨_, rfl, rfl, rfl⟩

theorem documentChanges_of_not_shouldRaiseEvent (h : ¬ listener.shouldRaiseEvent snapshot) :
    snapshot.documentChanges = [] := by
  unfold shouldRaiseEvent at h
  split_ifs at h with hempty
  · exact absurd rfl h
  all_goals simpa using hempty

/-- Before the initial event, a snapshot raises it or nothing. -/
theorem onViewSnapshot_of_not_raised (hraised : listener.raisedInitialEvent = false)
    (hordering : snapshot.query.orderBys = .ok ordering)
    (hchanged : !snapshot.documentChanges.isEmpty || snapshot.syncStateChanged) :
    (∃ event, listener.onViewSnapshot snapshot =
          .ok ({ listener.told snapshot with raisedInitialEvent := true }, some (.initial event)) ∧
        event.documents = snapshot.documents ∧ AllAdded event) ∨
      listener.onViewSnapshot snapshot = .ok (listener.told snapshot, none) := by
  obtain ⟨hdocs, hquery⟩ := listener.stripMetadataChanges_eq snapshot
  obtain ⟨raise, hraise⟩ := shouldRaiseInitialEvent_ok
    (listener.stripMetadataChanges snapshot) hraised listener.onlineState
  unfold onViewSnapshot told
  rw [hchanged, hardAssert_true, ok_bind, hraised, Bool.not_false, if_pos rfl, hraise, ok_bind]
  cases raise with
  | false => exact .inr rfl
  | true =>
    obtain ⟨event, hevent, heq, hall⟩ := raiseInitialEvent_ok hraised (hquery ▸ hordering)
    rw [hevent]
    exact .inl ⟨event, rfl, heq.trans hdocs, hall⟩

/-- After the initial event, a snapshot is raised unless it has no changes left. -/
theorem onViewSnapshot_of_raised (hraised : listener.raisedInitialEvent = true)
    (hchanged : !snapshot.documentChanges.isEmpty || snapshot.syncStateChanged) :
    listener.onViewSnapshot snapshot =
        .ok (listener.told snapshot, some (.later (listener.stripMetadataChanges snapshot))) ∨
      (listener.stripMetadataChanges snapshot).documentChanges = [] ∧
        listener.onViewSnapshot snapshot = .ok (listener.told snapshot, none) := by
  unfold onViewSnapshot told
  rw [hchanged, hardAssert_true, hraised, Bool.not_true, if_neg Bool.false_ne_true]
  split_ifs with hraise
  · exact .inl rfl
  · exact .inr ⟨documentChanges_of_not_shouldRaiseEvent hraise, rfl⟩

/-- A change of the online state raises the initial event or nothing. -/
theorem onOnlineStateChanged_cases (onlineState : OnlineState)
    (hordering : ∀ {snapshot}, listener.snapshot = some snapshot →
      snapshot.query.orderBys = .ok ordering) :
    (∃ snapshot event, listener.snapshot = some snapshot ∧ listener.raisedInitialEvent = false ∧
        listener.onOnlineStateChanged onlineState = .ok ({ listener with
          onlineState, raisedInitialEvent := true }, some (.initial event)) ∧
        event.documents = snapshot.documents ∧ AllAdded event) ∨
      listener.onOnlineStateChanged onlineState = .ok ({ listener with onlineState }, none) := by
  unfold onOnlineStateChanged
  cases hsnapshot : listener.snapshot with
  | none => exact .inr rfl
  | some snapshot =>
    dsimp only
    by_cases hraised : listener.raisedInitialEvent
    · rw [if_pos hraised]
      exact .inr rfl
    · have hfalse : QueryListener.raisedInitialEvent { listener with
          onlineState, snapshot := some snapshot } = false := Bool.eq_false_iff.mpr hraised
      obtain ⟨raise, hraise⟩ := shouldRaiseInitialEvent_ok snapshot hfalse onlineState
      rw [if_neg hraised, hraise, ok_bind]
      cases raise with
      | false => exact .inr rfl
      | true =>
        obtain ⟨event, hevent, heq, hall⟩ := raiseInitialEvent_ok hfalse (hordering hsnapshot)
        rw [hevent]
        exact .inl ⟨snapshot, event, rfl, hfalse, rfl, heq, hall⟩

end QueryListener

/-! ## Steps -/

variable {view : View} {event : ListenerEvent}

namespace ListenerSession

variable {ordering : List OrderBy} {s : ListenerSession}

/-- What a step may tell the user: the first event has all documents as added, every later one the
changes since the event before. -/
structure Consistent (s s' : ListenerSession) (raised : Option RaisedEvent) : Prop where
  initial {event : ViewSnapshot} : raised = some (.initial event) →
    s.lastRaised = none ∧ event.documents = s'.view.documentSet ∧
      event.documentChanges = event.documents.sortedSet.map fun doc => ⟨doc, .added⟩
  later {event : ViewSnapshot} : raised = some (.later event) →
    ∃ previous, s.lastRaised = some previous ∧ event.documents = s'.view.documentSet ∧
      ∃ set, replay event.documentChanges previous.documents = .ok set ∧
        SameDocuments set event.documents
  lastRaised_eq : s'.lastRaised = (raised.map RaisedEvent.snapshot).or s.lastRaised
  shown {last : ViewSnapshot} : s'.lastRaised = some last →
    SameDocuments last.documents s'.view.documentSet

def IsCurrent (s : ListenerSession) (snapshot : ViewSnapshot) : Prop :=
  snapshot.documents = s.view.documentSet ∧ snapshot.query = s.view.query

structure Inv (ordering : List OrderBy) (s : ListenerSession) : Prop where
  wellFormed : s.view.WellFormed ordering
  viewSnapshot {snapshot : ViewSnapshot} : s.viewSnapshot = some snapshot →
    s.IsCurrent snapshot ∧ (!snapshot.documentChanges.isEmpty || snapshot.syncStateChanged)
  noListener : s.listener = none → s.lastRaised = none
  raisedInitialEvent {listener : QueryListener} : s.listener = some listener →
    listener.raisedInitialEvent = s.lastRaised.isSome
  snapshot {listener : QueryListener} {snapshot : ViewSnapshot} : s.listener = some listener →
    listener.snapshot = some snapshot → s.IsCurrent snapshot
  copy {last : ViewSnapshot} : s.lastRaised = some last →
    IsCopy ordering last.documents s.view.documentSet

theorem Inv.shown (h : s.Inv ordering) {last : ViewSnapshot} (hlast : s.lastRaised = some last) :
    SameDocuments last.documents s.view.documentSet :=
  (h.copy hlast).sameDocuments h.wellFormed.sorted

/-- A new snapshot, as the listener is to be told of it. -/
structure Due (ordering : List OrderBy) (s : ListenerSession) (snapshot : ViewSnapshot) : Prop where
  wellFormed : s.view.WellFormed ordering
  current : s.IsCurrent snapshot
  changed : !snapshot.documentChanges.isEmpty || snapshot.syncStateChanged
  noListener : s.listener = none → s.lastRaised = none
  raisedInitialEvent {listener : QueryListener} : s.listener = some listener →
    listener.raisedInitialEvent = s.lastRaised.isSome
  replay {last : ViewSnapshot} {kept : List DocumentViewChange} : s.lastRaised = some last →
    kept.Sublist snapshot.documentChanges →
    (∀ change ∈ snapshot.documentChanges, change ∉ kept → change.type = .metadata) →
    ∃ set, replay kept last.documents = .ok set ∧ IsCopy ordering set s.view.documentSet

def StepsTo (ordering : List OrderBy) (s : ListenerSession)
    (result : Hard (ListenerSession × Option RaisedEvent)) : Prop :=
  ∃ s' raised, result = .ok (s', raised) ∧ s'.Inv ordering ∧ Consistent s s' raised

/-- The session after the listener was told of a snapshot. -/
theorem Due.inv_heard {snapshot stripped : ViewSnapshot} (h : s.Due ordering snapshot)
    (listener : QueryListener) (raised : Option RaisedEvent)
    (hsnapshot : listener.snapshot = some stripped) (hstripped : s.IsCurrent stripped)
    (hraised : listener.raisedInitialEvent = (s.heard listener raised).lastRaised.isSome)
    (hcopy : ∀ {last}, (s.heard listener raised).lastRaised = some last →
      IsCopy ordering last.documents s.view.documentSet) :
    Inv ordering { s.heard listener raised with viewSnapshot := snapshot } := by
  refine ⟨h.wellFormed, ?_, nofun, ?_, ?_, hcopy⟩
  · intro snapshot' heq
    cases heq
    exact ⟨h.current, h.changed⟩
  · intro listener' heq
    cases heq
    exact hraised
  · intro listener' snapshot' heq hsnapshot'
    cases heq
    obtain rfl := Option.some.inj (hsnapshot.symm.trans hsnapshot')
    exact hstripped

/-- Telling the listener of a snapshot. -/
theorem Due.deliver_ok {snapshot : ViewSnapshot} (h : s.Due ordering snapshot) :
    s.StepsTo ordering (s.deliver snapshot) := by
  unfold deliver
  cases hlistener : s.listener with
  | none =>
    have hnone := h.noListener hlistener
    refine ⟨_, none, rfl, ⟨h.wellFormed, ?_, fun _ => hnone, nofun, nofun, ?_⟩,
      ⟨nofun, nofun, rfl, ?_⟩⟩
    · intro snapshot' heq
      cases heq
      exact ⟨h.current, h.changed⟩
    · exact fun heq => nomatch hnone.symm.trans heq
    · exact fun heq => nomatch hnone.symm.trans heq
  | some listener =>
    obtain ⟨hdocs, hquery⟩ := listener.stripMetadataChanges_eq snapshot
    have hcurrent : s.IsCurrent (listener.stripMetadataChanges snapshot) :=
      ⟨hdocs.trans h.current.1, hquery.trans h.current.2⟩
    have hcopy : ∀ {event : ViewSnapshot}, event.documents = s.view.documentSet →
        IsCopy ordering event.documents s.view.documentSet := by
      intro event heq
      rw [heq]
      exact .refl h.wellFormed.sorted
    have hraised := h.raisedInitialEvent hlistener
    dsimp only
    cases hlast : s.lastRaised with
    | none =>
      rw [hlast] at hraised
      rcases QueryListener.onViewSnapshot_of_not_raised hraised
        (h.current.2 ▸ h.wellFormed.orderBys_eq) h.changed with ⟨event, hok, heq, hall⟩ | hok
      · have hevent := heq.trans h.current.1
        rw [hok]
        have hinv := h.inv_heard { listener.told snapshot with raisedInitialEvent := true }
          (some (.initial event)) rfl hcurrent rfl fun {last} heq => by
            cases heq
            exact hcopy hevent
        refine ⟨_, _, rfl, hinv, fun heq => ?_, nofun, rfl, hinv.shown⟩
        cases heq
        exact ⟨hlast, hevent, hall⟩
      · rw [hok]
        have hinv := h.inv_heard (listener.told snapshot) none rfl hcurrent
          (hraised.trans (congrArg Option.isSome hlast).symm) fun {last} heq =>
            nomatch hlast.symm.trans heq
        exact ⟨_, _, rfl, hinv, nofun, nofun, rfl, hinv.shown⟩
    | some last =>
      rw [hlast] at hraised
      have hreplay := h.replay hlast (listener.stripMetadataChanges_sublist snapshot)
        fun change => QueryListener.stripMetadataChanges_kept
      rcases QueryListener.onViewSnapshot_of_raised hraised h.changed with hok | ⟨hnil, hok⟩
      · rw [hok]
        have hinv := h.inv_heard (listener.told snapshot)
          (some (.later (listener.stripMetadataChanges snapshot))) rfl hcurrent
          hraised fun {last} heq => by
            cases heq
            exact hcopy hcurrent.1
        refine ⟨_, _, rfl, hinv, nofun, fun heq => ?_, rfl, hinv.shown⟩
        cases heq
        obtain ⟨set, hset, hsame⟩ := hreplay
        refine ⟨last, hlast, hcurrent.1, set, hset, ?_⟩
        rw [hcurrent.1]
        exact hsame.sameDocuments h.wellFormed.sorted
      · rw [hok]
        have hinv := h.inv_heard (listener.told snapshot) none rfl hcurrent
          (hraised.trans (congrArg Option.isSome hlast).symm) fun {last'} heq => by
            obtain rfl := Option.some.inj (hlast.symm.trans heq)
            obtain ⟨set, hset, hsame⟩ := hreplay
            rw [hnil] at hset
            cases hset
            exact hsame
        exact ⟨_, _, rfl, hinv, nofun, nofun, rfl, hinv.shown⟩

variable {changes : ViewDocumentChanges}

/-- The documents do not change without a snapshot. -/
theorem eq_of_getChanges_nil {old : DocumentSet}
    (hdiff : changes.IsDiff ordering old) (hold : old.Sorted (order ordering) (HasFields ordering))
    (hnil : changes.changeSet.getChanges = []) : changes.documentSet = old := by
  have hnone : ∀ key, changes.changeSet.changeMap.get? key = none := by
    intro key
    cases hget : changes.changeSet.changeMap.get? key with
    | none => rfl
    | some change =>
      obtain rfl := hdiff.key_eq hget
      have hmem := hdiff.mem_getChanges.mpr hget
      rw [hnil] at hmem
      cases hmem
  refine hdiff.sorted.ext hold hdiff.comparator_eq (OrdMap.ext_get? fun key => ?_)
  have hchangeOf := hdiff.changeOf key
  rw [hnone] at hchangeOf
  exact hchangeOf.eq_of_none.symm

/-- The view has changed, and the listener is told. -/
theorem Inv.update_ok (h : s.Inv ordering)
    (hdiff : changes.IsDiff ordering s.view.documentSet) {targetChange : Option TargetChange}
    {change : ViewChange} (happly : s.view.applyChanges changes targetChange = .ok (view, change)) :
    (change.snapshot = none → Inv ordering { s with view } ∧ Consistent s { s with view } none) ∧
      ∀ snapshot ∈ change.snapshot, Due ordering { s with view } snapshot := by
  obtain ⟨hview, hquery, hset, sorted, hperm, -, hnone, htells⟩ :=
    View.applyChanges_spec h.wellFormed hdiff happly
  constructor
  · intro hsnapshot
    rw [hnone hsnapshot, List.nil_perm] at hperm
    have heq := hset.trans (eq_of_getChanges_nil hdiff h.wellFormed.sorted hperm)
    have hcurrent : ∀ {snapshot}, s.IsCurrent snapshot → IsCurrent { s with view } snapshot :=
      fun hcurrent => ⟨hcurrent.1.trans heq.symm, hcurrent.2.trans hquery.symm⟩
    have hinv : Inv ordering { s with view } := by
      refine ⟨hview, fun hsome => ?_, h.noListener, h.raisedInitialEvent, fun hlistener hsome => ?_,
        fun hlast => ?_⟩
      · obtain ⟨hviewSnapshot, hchanged⟩ := h.viewSnapshot hsome
        exact ⟨hcurrent hviewSnapshot, hchanged⟩
      · exact hcurrent (h.snapshot hlistener hsome)
      · rw [heq]
        exact h.copy hlast
    exact ⟨hinv, nofun, nofun, rfl, hinv.shown⟩
  · intro snapshot hsnapshot
    obtain ⟨hquery', hold, hdocs, hchanges, hchanged⟩ := htells snapshot hsnapshot
    refine ⟨hview, ⟨hdocs.trans hset.symm, hquery'.trans hquery.symm⟩, ?_, h.noListener,
      h.raisedInitialEvent, fun hlast hsublist hkept => ?_⟩
    · rw [Bool.or_eq_true, Bool.not_eq_true', List.isEmpty_eq_false_iff, hchanges]
      exact hchanged
    · rw [hchanges] at hsublist hkept
      obtain ⟨set, hok, hcopy⟩ := (h.copy hlast).replay hdiff hperm hsublist hkept
      exact ⟨set, hok, hset.symm ▸ hcopy⟩

theorem Inv.unchanged (h : s.Inv ordering) : Consistent s s none :=
  ⟨nofun, nofun, rfl, h.shown⟩

variable {snapshot : Option ViewSnapshot}

/-- The view has told of its changes, or has none. -/
theorem react_ok (hreact : { s with view }.react snapshot event = match snapshot with
      | none => .ok ({ s with view }, none)
      | some snapshot => deliver { s with view } snapshot)
    (hnone : snapshot = none →
      Inv ordering { s with view } ∧ Consistent s { s with view } none)
    (hsome : ∀ snapshot' ∈ snapshot, Due ordering { s with view } snapshot') :
    s.StepsTo ordering ({ s with view }.react snapshot event) := by
  rw [hreact]
  cases snapshot with
  | none =>
    obtain ⟨hinv, hconsistent⟩ := hnone rfl
    exact ⟨_, none, rfl, hinv, hconsistent⟩
  | some snapshot =>
    obtain ⟨s', raised, hok, hinv, hconsistent⟩ := (hsome snapshot rfl).deliver_ok
    exact ⟨s', raised, hok, hinv, { hconsistent with }⟩

/-- A listener is added. -/
theorem Inv.listen_ok (h : s.Inv ordering) (options : ListenOptions) :
    s.StepsTo ordering (s.react none (.listen options)) := by
  unfold react
  cases hlistener : s.listener with
  | some listener => exact ⟨s, none, rfl, h, h.unchanged⟩
  | none =>
    have hlast := h.noListener hlistener
    have hfalse : false = s.lastRaised.isSome := (congrArg Option.isSome hlast).symm
    have hraised : ∀ {listener : QueryListener},
        some { query := s.view.query, options, onlineState := s.onlineState } = some listener →
        listener.raisedInitialEvent = s.lastRaised.isSome := by
      intro listener heq
      cases heq
      exact hfalse
    cases hviewSnapshot : s.viewSnapshot with
    | none =>
      refine ⟨_, none, rfl, ⟨h.wellFormed, nofun, nofun, hraised, ?_, h.copy⟩,
        nofun, nofun, rfl, h.shown⟩
      intro listener snapshot heq hsnapshot
      cases heq
      cases hsnapshot
    | some snapshot =>
      obtain ⟨hcurrent, hchanged⟩ := h.viewSnapshot hviewSnapshot
      have hdue : Due ordering { s with
          listener := some { query := s.view.query, options, onlineState := s.onlineState }
          viewSnapshot := some snapshot } snapshot :=
        ⟨h.wellFormed, hcurrent, hchanged, nofun, hraised, fun heq => nomatch hlast.symm.trans heq⟩
      obtain ⟨s', raised, hok, hinv, hconsistent⟩ := hdue.deliver_ok
      exact ⟨s', raised, hok, hinv, { hconsistent with }⟩

/-- The online state changes. -/
theorem Inv.onlineState_ok (h : s.Inv ordering) (onlineState : OnlineState) :
    s.StepsTo ordering (s.react none (.onlineState onlineState)) := by
  unfold react
  cases hlistener : s.listener with
  | none =>
    exact ⟨_, none, rfl, ⟨h.wellFormed, h.viewSnapshot, fun _ => h.noListener hlistener, nofun,
      nofun, h.copy⟩, nofun, nofun, rfl, h.shown⟩
  | some listener =>
    have hcurrent : ∀ {snapshot}, listener.snapshot = some snapshot → s.IsCurrent snapshot :=
      h.snapshot hlistener
    have hflag := h.raisedInitialEvent hlistener
    dsimp only
    rcases QueryListener.onOnlineStateChanged_cases onlineState fun hsnapshot =>
        (hcurrent hsnapshot).2 ▸ h.wellFormed.orderBys_eq with
      ⟨snapshot, event, hsnapshot, hraised, hok, heq, hall⟩ | hok
    · rw [hok]
      have hevent := heq.trans (hcurrent hsnapshot).1
      have hlast : s.lastRaised = none := by
        rw [hflag] at hraised
        simpa using hraised
      have hinv : Inv ordering ({ s with onlineState, listener := some listener }.heard
          { listener with onlineState, raisedInitialEvent := true } (some (.initial event))) := by
        refine ⟨h.wellFormed, h.viewSnapshot, nofun, fun heq => ?_, fun heq => ?_, fun heq => ?_⟩
        · cases heq
          rfl
        · cases heq
          exact hcurrent
        · cases heq
          exact hevent ▸ .refl (hevent ▸ h.wellFormed.sorted)
      refine ⟨_, _, rfl, hinv, fun heq => ?_, nofun, rfl, hinv.shown⟩
      cases heq
      exact ⟨hlast, hevent, hall⟩
    · rw [hok]
      have hinv : Inv ordering ({ s with onlineState, listener := some listener }.heard
          { listener with onlineState } none) := by
        refine ⟨h.wellFormed, h.viewSnapshot, nofun, fun heq => ?_, fun heq => ?_, h.copy⟩
        · cases heq
          exact hflag
        · cases heq
          exact hcurrent
      exact ⟨_, _, rfl, hinv, nofun, nofun, rfl, hinv.shown⟩

/-- One step: if the view does not abort, the listener does not. -/
theorem Inv.step_ok (h : s.Inv ordering) (hemit : s.emit event = .ok (view, snapshot)) :
    s.StepsTo ordering (s.step event) := by
  rw [step, hemit, ok_bind]
  cases event with
  | update docChanges queryResult targetChange =>
    obtain ⟨changes, hchanges, hemit⟩ := bind_eq_ok.mp hemit
    obtain ⟨⟨view', change⟩, happly, hemit⟩ := bind_eq_ok.mp hemit
    cases hemit
    obtain ⟨hnone, hsome⟩ :=
      h.update_ok (View.updateDocuments_tracks h.wellFormed hchanges).toIsDiff happly
    exact react_ok (by rfl) hnone hsome
  | viewOnlineState onlineState =>
    obtain ⟨⟨view', change⟩, happly, hemit⟩ := bind_eq_ok.mp hemit
    cases hemit
    unfold View.applyOnlineStateChange at happly
    split_ifs at happly
    · have hoffline : Inv ordering { s with view := { s.view with current := false } } :=
        { h with wellFormed := { h.wellFormed with } }
      have htracks := ViewDocumentChanges.Tracks.refl hoffline.wellFormed.sorted false
      obtain ⟨hnone, hsome⟩ := hoffline.update_ok htracks.toIsDiff happly
      exact react_ok (by rfl) (fun hnone' => (hnone hnone').imp_right fun hconsistent =>
        ⟨nofun, nofun, rfl, hconsistent.shown⟩) hsome
    · cases happly
      exact ⟨s, none, rfl, h, h.unchanged⟩
  | listen options =>
    cases hemit
    exact h.listen_ok options
  | onlineState onlineState =>
    cases hemit
    exact h.onlineState_ok onlineState

end ListenerSession

end Firebase.Firestore.Core
