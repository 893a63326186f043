import Firebase.Firestore.Core.View
import Firebase.Firestore.Remote.Stream

/-!
# The online state

`OnlineStateTracker` (`online_state_tracker.cc`): whether the client is online, from how
the watch stream does.  Each operation also returns the states that it broadcasts.  The
warning in the log is left out.
-/

namespace Firebase.Firestore.Remote

open Lib Util Firestore.Core

def kMaxWatchStreamFailures : Nat := 1

/-- `OnlineStateTracker`, with whether its timer is scheduled. -/
structure OnlineStateTracker where
  state : OnlineState := .unknown
  watchStreamFailures : Nat := 0
  onlineStateTimer : Bool := false

namespace OnlineStateTracker

section

variable (t : OnlineStateTracker)

def setAndBroadcast (newState : OnlineState) : OnlineStateTracker × Option OnlineState :=
  if newState ≠ t.state then ({ t with state := newState }, some newState) else (t, none)

def handleWatchStreamStart : Streamed (OnlineStateTracker × Option OnlineState) :=
  if t.watchStreamFailures ≠ 0 then .ok (t, none)
  else do
    let r := t.setAndBroadcast .unknown
    lifecycleAssert (!r.1.onlineStateTimer) "online_state_timer_ shouldn't be started yet"
    return ({ r.1 with onlineStateTimer := true }, r.2)

/-- What `HandleWatchStreamStart` leaves to the timer. -/
def onlineStateTimeout : Streamed (OnlineStateTracker × Option OnlineState) := do
  lifecycleAssert (t.state = .unknown)
    "Timer should be canceled if we transitioned to a different state."
  return { t with onlineStateTimer := false }.setAndBroadcast .offline

def handleWatchStreamFailure : Streamed (OnlineStateTracker × Option OnlineState) :=
  if t.state = .online then do
    let r := t.setAndBroadcast .unknown
    lifecycleAssert (r.1.watchStreamFailures = 0) "watch_stream_failures_ must be 0"
    lifecycleAssert (!r.1.onlineStateTimer) "online_state_timer_ must not be set yet"
    return r
  else
    let t := { t with watchStreamFailures := t.watchStreamFailures + 1 }
    if t.watchStreamFailures ≥ kMaxWatchStreamFailures then
      .ok ({ t with onlineStateTimer := false }.setAndBroadcast .offline)
    else .ok (t, none)

def updateState (newState : OnlineState) : OnlineStateTracker × Option OnlineState :=
  { t with onlineStateTimer := false, watchStreamFailures := 0 }.setAndBroadcast newState

end

/-! ## What the timer and the failures tell -/

variable {t : OnlineStateTracker}

/-- The timer waits for an answer to the first attempt.  After a failure the state is `Offline`. -/
structure Sound (t : OnlineStateTracker) : Prop where
  timer : t.onlineStateTimer → t.state = .unknown ∧ t.watchStreamFailures = 0
  failures : t.watchStreamFailures ≠ 0 → t.state = .offline

theorem sound_initial : ({} : OnlineStateTracker).Sound := ⟨nofun, absurd rfl⟩

variable (newState : OnlineState)

@[simp] theorem state_setAndBroadcast : (t.setAndBroadcast newState).1.state = newState := by
  unfold setAndBroadcast
  split_ifs with h
  · rfl
  · exact (not_not.mp h).symm

@[simp] theorem onlineStateTimer_setAndBroadcast :
    (t.setAndBroadcast newState).1.onlineStateTimer = t.onlineStateTimer := by
  unfold setAndBroadcast
  split_ifs <;> rfl

@[simp] theorem watchStreamFailures_setAndBroadcast :
    (t.setAndBroadcast newState).1.watchStreamFailures = t.watchStreamFailures := by
  unfold setAndBroadcast
  split_ifs <;> rfl

/-- An attempt begins while no timer waits for another. -/
theorem runs_handleWatchStreamStart (h : t.Sound) (htimer : t.onlineStateTimer = false) :
    Runs (fun r : OnlineStateTracker × Option OnlineState => r.1.Sound)
      t.handleWatchStreamStart := by
  unfold handleWatchStreamStart
  split_ifs with hfailures
  · exact h
  · refine (runs_lifecycleAssert (by simp [htimer])).bind fun _ _ => ?_
    refine ⟨fun _ => ⟨state_setAndBroadcast _, ?_⟩, absurd ?_⟩ <;>
    simpa using hfailures

theorem runs_onlineStateTimeout (h : t.Sound) (htimer : t.onlineStateTimer) :
    Runs (fun r : OnlineStateTracker × Option OnlineState =>
      r.1.Sound ∧ r.1.onlineStateTimer = false) t.onlineStateTimeout := by
  refine (runs_lifecycleAssert (decide_eq_true (h.timer htimer).1)).bind fun _ _ => ?_
  exact ⟨⟨by simp, fun _ => state_setAndBroadcast _⟩, onlineStateTimer_setAndBroadcast _⟩

/-- After a failure no timer waits. -/
theorem runs_handleWatchStreamFailure (h : t.Sound) :
    Runs (fun r : OnlineStateTracker × Option OnlineState =>
      r.1.Sound ∧ r.1.onlineStateTimer = false) t.handleWatchStreamFailure := by
  unfold handleWatchStreamFailure
  split_ifs with honline
  · have htimer : t.onlineStateTimer = false :=
      Bool.eq_false_iff.mpr fun htimer => by simp [(h.timer htimer).1] at honline
    have hfailures : t.watchStreamFailures = 0 :=
      by_contra fun hne => by simp [h.failures hne] at honline
    refine (runs_lifecycleAssert (by simp [hfailures])).bind fun _ _ => ?_
    refine (runs_lifecycleAssert (by simp [htimer])).bind fun _ _ => ?_
    exact ⟨⟨by simp [htimer], by simp [hfailures]⟩, by simp [htimer]⟩
  · have hmax : t.watchStreamFailures + 1 ≥ kMaxWatchStreamFailures := Nat.le_add_left 1 _
    exact ⟨⟨by simp, fun _ => state_setAndBroadcast _⟩, onlineStateTimer_setAndBroadcast _⟩

theorem sound_updateState : (t.updateState newState).1.Sound :=
  ⟨by simp [updateState], by simp [updateState]⟩

@[simp] theorem onlineStateTimer_updateState :
    (t.updateState newState).1.onlineStateTimer = false := by
  simp [updateState]

end OnlineStateTracker

end Firebase.Firestore.Remote
