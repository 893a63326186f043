import Mathlib.Data.List.Perm.Basic
import Mathlib.Data.Nat.Basic
import Firebase.Lib.Outcome
import Firebase.Firestore.Util.HardAssert
import Firebase.Firestore.Util.Status

/-!
# Streams

`Stream` (`stream.cc`): a connection to the backend that is started and stopped, waits
after errors, and closes itself when it is idle.

A stream runs on the worker queue.  What it leaves to be run later is kept in its state: its two
timers as long as they are scheduled, the callbacks of `GetToken` that have not come back, with the
close count that they have seen, and whether there is a gRPC stream.  How long a timer waits is left
out; so are the delay of the backoff and the contents of tokens.

The last thing that `Close` and `ResumeStartWithCredentials` do is to notify the owner
of the stream; here they say so in what they return.
-/

namespace Firebase.Firestore.Remote

open Lib Util List

/-! ## Assertions about the lifecycle -/

/-- The process was aborted, by an assertion about the lifecycle of the streams or by any other. -/
inductive StreamFail where
  | lifecycle (message : String)
  | other (fail : HardFail)

abbrev Streamed (α : Type) := Except StreamFail α

/-- `HARD_ASSERT(condition, message)`, of the lifecycle of the streams. -/
def lifecycleAssert (condition : Bool) (message : String) : Streamed Unit :=
  if condition then .ok () else .error (.lifecycle message)

def ofHard {α : Type} (x : Hard α) : Streamed α := x.mapError .other

/-- The computation ends in a value with a property, if no assertion of another component fails. -/
abbrev Runs {α : Type} (post : α → Prop) (x : Streamed α) : Prop :=
  Meets (∃ fail, · = StreamFail.other fail) post x

theorem runs_lifecycleAssert {condition : Bool} {message : String} (h : condition = true) :
    Runs (fun _ => True) (lifecycleAssert condition message) := by
  rw [lifecycleAssert, if_pos h]
  trivial

theorem runs_ofHard {α : Type} (x : Hard α) : Runs (fun a => x = .ok a) (ofHard x) := by
  cases x with
  | error e => exact ⟨e, rfl⟩
  | ok a => exact rfl

/-! ## Streams -/

inductive StreamState where
  | initial | starting | opened | error | backoff
deriving DecidableEq

/-- The number of closes, which the source keeps in 32 bits, is a natural number here. -/
structure Stream where
  state : StreamState := .initial
  idlenessTimer : Bool := false
  backoffTimer : Bool := false
  closeCount : Nat := 0
  credentialRequests : List Nat := []
  hasGrpcStream : Bool := false
deriving DecidableEq

namespace Stream

section

variable (s : Stream)

def isOpen : Bool := s.state = .opened

def isStarted : Bool := s.state = .starting || s.state = .backoff || s.isOpen

def requestCredentials : Stream :=
  { s with credentialRequests := s.closeCount :: s.credentialRequests }

def backoffAndTryRestarting : Streamed Stream := do
  lifecycleAssert (s.state = .error) "Should only perform backoff in an error case"
  return { s with state := .backoff, backoffTimer := true }

def start : Streamed Stream :=
  if s.state = .error then s.backoffAndTryRestarting
  else do
    lifecycleAssert (s.state = .initial) "Already started"
    return { s with state := .starting }.requestCredentials

/-- What `BackoffAndTryRestarting` leaves to its timer. -/
def backoffElapsed : Streamed Stream := do
  lifecycleAssert (s.state = .backoff) "Backoff elapsed but state is now"
  let s ← { s with state := .initial, backoffTimer := false }.start
  lifecycleAssert s.isStarted "Stream should have started."
  return s

def inhibitBackoff : Streamed Stream := do
  lifecycleAssert (!s.isStarted) "Can only cancel backoff in a stopped state"
  return { s with state := .initial }

def markIdle : Stream :=
  if s.isOpen && !s.idlenessTimer then { s with idlenessTimer := true } else s

def cancelIdleCheck : Stream := { s with idlenessTimer := false }

def write (s : Stream) : Streamed Stream := do
  lifecycleAssert s.isOpen "Cannot write when the stream is not open."
  return s.cancelIdleCheck

/-- `Stream::Close`, with whether the owner is notified.  There is no status if it is OK. -/
def close (s : Stream) (status : Option Status) : Streamed (Stream × Bool) :=
  if status.isNone && !s.isStarted then .ok (s, false)
  else do
    lifecycleAssert s.isStarted "Trying to close a non-started stream"
    return ({ s.cancelIdleCheck with
      backoffTimer := false
      closeCount := s.closeCount + 1
      hasGrpcStream := false
      state := if status.isNone then .initial else .error }, true)

/-- What `Stream::ResumeStartWithCredentials` notifies the owner of. -/
inductive Resumed where
  | opened
  | closed (status : Status) (notify : Bool)

/-- `Stream::ResumeStartWithCredentials`.  `GrpcStream::Start` calls `OnStreamStart`. -/
def resumeStartWithCredentials (token : Except Status Unit) : Streamed (Stream × Resumed) := do
  lifecycleAssert (s.state = .starting) "State should still be 'Starting'"
  match token with
  | .error status =>
    let (s, notify) ← s.close (some status)
    return (s, .closed status notify)
  | .ok () => return ({ s with hasGrpcStream := true, state := .opened }, .opened)

end

/-! ## What the states stand for -/

variable {s : Stream}

/-- What a stream has left to be run later fits its state. -/
structure Sound (s : Stream) : Prop where
  backoffTimer : s.backoffTimer → s.state = .backoff
  idlenessTimer : s.idlenessTimer → s.state = .opened
  hasGrpcStream : s.hasGrpcStream → s.state = .opened
  seen : ∀ count ∈ s.credentialRequests, count ≤ s.closeCount
  requested : s.closeCount ∈ s.credentialRequests → s.state = .starting
  once : s.credentialRequests.count s.closeCount ≤ 1

theorem sound_initial : ({} : Stream).Sound :=
  ⟨nofun, nofun, nofun, nofun, nofun, Nat.zero_le _⟩

theorem isOpen_iff : s.isOpen = true ↔ s.state = .opened := decide_eq_true_iff

theorem isStarted_iff : s.isStarted = true ↔
    s.state = .starting ∨ s.state = .backoff ∨ s.state = .opened := by
  simp only [isStarted, isOpen, Bool.or_eq_true, decide_eq_true_iff, or_assoc]

theorem isStarted_eq_false_iff : s.isStarted = false ↔ s.state = .initial ∨ s.state = .error := by
  rw [Bool.eq_false_iff, ne_eq, isStarted_iff]
  cases s.state <;> decide

theorem isStarted_of_opened (h : s.state = .opened) : s.isStarted = true :=
  isStarted_iff.mpr (.inr (.inr h))

/-- Nothing is left of a stream that is not started. -/
structure Stopped (s : Stream) : Prop where
  isStarted : s.isStarted = false
  backoffTimer : s.backoffTimer = false
  idlenessTimer : s.idlenessTimer = false
  hasGrpcStream : s.hasGrpcStream = false
  seen : ∀ count ∈ s.credentialRequests, count < s.closeCount

theorem Stopped.sound (h : s.Stopped) : s.Sound where
  backoffTimer htimer := by simp [h.backoffTimer] at htimer
  idlenessTimer htimer := by simp [h.idlenessTimer] at htimer
  hasGrpcStream hgrpc := by simp [h.hasGrpcStream] at hgrpc
  seen count hcount := Nat.le_of_lt (h.seen count hcount)
  requested hrequest := absurd (h.seen _ hrequest) (lt_irrefl _)
  once := by
    rw [count_eq_zero.mpr fun hrequest => lt_irrefl _ (h.seen _ hrequest)]
    exact Nat.zero_le 1

theorem Sound.stopped (h : s.Sound) (hstarted : s.isStarted = false) : s.Stopped := by
  have hstate := isStarted_eq_false_iff.mp hstarted
  refine ⟨hstarted, ?_, ?_, ?_, fun count hcount => ?_⟩
  · exact Bool.eq_false_iff.mpr fun htimer => by simp [h.backoffTimer htimer] at hstate
  · exact Bool.eq_false_iff.mpr fun htimer => by simp [h.idlenessTimer htimer] at hstate
  · exact Bool.eq_false_iff.mpr fun hgrpc => by simp [h.hasGrpcStream hgrpc] at hstate
  · refine lt_of_le_of_ne (h.seen count hcount) ?_
    rintro rfl
    simp [h.requested hcount] at hstate

/-! ## The operations -/

theorem runs_start (h : s.Stopped) : Runs (fun s' : Stream => s'.Sound ∧ s'.isStarted = true ∧
    s'.state ≠ .opened) s.start := by
  unfold start
  split_ifs with hstate
  · refine (runs_lifecycleAssert (decide_eq_true hstate)).bind fun _ _ => ?_
    refine ⟨⟨fun _ => rfl, ?_, ?_, fun count hcount => Nat.le_of_lt (h.seen count hcount), ?_,
      h.sound.once⟩, rfl, nofun⟩
    · simp [h.idlenessTimer]
    · simp [h.hasGrpcStream]
    · exact fun hrequest => absurd (h.seen _ hrequest) (lt_irrefl _)
  · have hinitial := (isStarted_eq_false_iff.mp h.isStarted).resolve_right hstate
    refine (runs_lifecycleAssert (decide_eq_true hinitial)).bind fun _ _ => ?_
    refine ⟨⟨?_, ?_, ?_, ?_, fun _ => rfl, ?_⟩, rfl, nofun⟩
    · simp [requestCredentials, h.backoffTimer]
    · simp [requestCredentials, h.idlenessTimer]
    · simp [requestCredentials, h.hasGrpcStream]
    · rintro count (_ | ⟨_, hcount⟩)
      · exact le_rfl
      · exact Nat.le_of_lt (h.seen count hcount)
    · show (s.closeCount :: s.credentialRequests).count s.closeCount ≤ 1
      rw [count_cons_self, count_eq_zero.mpr fun hold => lt_irrefl _ (h.seen _ hold)]

theorem runs_backoffElapsed (h : s.Sound) (htimer : s.backoffTimer) :
    Runs (fun s' : Stream => s'.Sound ∧ s'.isStarted = true ∧ s'.state ≠ .opened)
      s.backoffElapsed := by
  have hstate := h.backoffTimer htimer
  refine (runs_lifecycleAssert (decide_eq_true hstate)).bind fun _ _ => ?_
  have hstopped : { s with state := .initial, backoffTimer := false : Stream }.Stopped := by
    refine ⟨rfl, rfl, ?_, ?_, fun count hcount => lt_of_le_of_ne (h.seen count hcount) ?_⟩
    · exact Bool.eq_false_iff.mpr fun hidle => by simp [h.idlenessTimer hidle] at hstate
    · exact Bool.eq_false_iff.mpr fun hgrpc => by simp [h.hasGrpcStream hgrpc] at hstate
    · rintro rfl
      simp [h.requested hcount] at hstate
  refine (runs_start hstopped).bind fun s' hs' => ?_
  exact (runs_lifecycleAssert hs'.2.1).bind fun _ _ => hs'

theorem runs_inhibitBackoff (h : s.Stopped) : Runs Stopped s.inhibitBackoff := by
  refine (runs_lifecycleAssert (by rw [h.isStarted]; rfl)).bind fun _ _ => ?_
  exact { h with isStarted := rfl }

/-- A stream is closed, unless it is stopped already. -/
theorem runs_close (h : s.Sound) {status : Option Status}
    (hstarted : status.isSome → s.isStarted = true) :
    Runs (fun r : Stream × Bool => r.1.Stopped ∧ r.2 = s.isStarted ∧
      (r.2 = false → r.1 = s)) (s.close status) := by
  unfold close
  by_cases hidempotent : (status.isNone && !s.isStarted) = true
  · rw [if_pos hidempotent]
    simp only [Bool.and_eq_true, Bool.not_eq_true'] at hidempotent
    exact ⟨h.stopped hidempotent.2, hidempotent.2.symm, fun _ => rfl⟩
  · have hs : s.isStarted = true := by
      cases status with
      | some status => exact hstarted rfl
      | none => simpa using hidempotent
    rw [if_neg hidempotent]
    refine (runs_lifecycleAssert hs).bind fun _ _ => ?_
    refine ⟨⟨?_, rfl, rfl, rfl, fun count hcount => Nat.lt_succ_of_le (h.seen count hcount)⟩,
      hs.symm, nofun⟩
    cases status <;> rfl

theorem Sound.markIdle (h : s.Sound) : s.markIdle.Sound := by
  unfold Stream.markIdle
  split_ifs with hopen
  · have hstate := isOpen_iff.mp (Bool.and_eq_true_iff.mp hopen).1
    exact { h with idlenessTimer := fun _ => hstate }
  · exact h

@[simp] theorem state_markIdle : s.markIdle.state = s.state := by
  unfold Stream.markIdle
  split_ifs <;> rfl

@[simp] theorem isStarted_markIdle : s.markIdle.isStarted = s.isStarted := by
  simp only [isStarted, isOpen, state_markIdle]

theorem runs_write (h : s.Sound) (hopen : s.state = .opened) :
    Runs (fun s' : Stream => s'.Sound ∧ s' = s.cancelIdleCheck) s.write := by
  refine (runs_lifecycleAssert (isOpen_iff.mpr hopen)).bind fun _ _ => ?_
  exact ⟨{ h with idlenessTimer := nofun }, rfl⟩

/-- A callback of `GetToken` has come back. -/
def dropRequest (s : Stream) (index : Nat) : Stream :=
  { s with credentialRequests := s.credentialRequests.eraseIdx index }

theorem Sound.dropRequest (h : s.Sound) (index : Nat) : (s.dropRequest index).Sound := by
  have hsub := eraseIdx_sublist s.credentialRequests index
  exact { h with
    seen := fun count hcount => h.seen count (hsub.subset hcount)
    requested := fun hrequest => h.requested (hsub.subset hrequest)
    once := Nat.le_trans (hsub.count_le _) h.once }

/-- Once the callback of the current start has come back there is no other. -/
theorem Sound.notMem_dropRequest (h : s.Sound) {index : Nat}
    (hindex : s.credentialRequests[index]? = some s.closeCount) :
    s.closeCount ∉ (s.dropRequest index).credentialRequests := by
  obtain ⟨hlt, hget⟩ := List.getElem?_eq_some_iff.mp hindex
  have hperm := getElem_cons_eraseIdx_perm hlt
  have hcount := hperm.count_eq s.closeCount
  rw [hget, count_cons_self] at hcount
  have honce := h.once
  refine count_eq_zero.mp ?_
  show (s.credentialRequests.eraseIdx index).count s.closeCount = 0
  omega

theorem runs_resumeStartWithCredentials (h : s.Sound) (hstate : s.state = .starting)
    (hrequest : s.closeCount ∉ s.credentialRequests) (token : Except Status Unit) :
    Runs (fun r : Stream × Resumed => r.1.Sound ∧
      match r.2 with
      | .opened => r.1.state = .opened ∧ r.1.idlenessTimer = false
      | .closed _ notify => r.1.Stopped ∧ notify = true)
      (s.resumeStartWithCredentials token) := by
  refine (runs_lifecycleAssert (decide_eq_true hstate)).bind fun _ _ => ?_
  have hidle : s.idlenessTimer = false :=
    Bool.eq_false_iff.mpr fun hidle => by simp [h.idlenessTimer hidle] at hstate
  have hbackoff : s.backoffTimer = false :=
    Bool.eq_false_iff.mpr fun htimer => by simp [h.backoffTimer htimer] at hstate
  cases token with
  | error status =>
    have hstarted : s.isStarted = true := isStarted_iff.mpr (.inl hstate)
    refine (runs_close h fun _ : (some status).isSome => hstarted).bind ?_
    rintro ⟨s', notify⟩ ⟨hstopped, hnotify, -⟩
    exact ⟨hstopped.sound, hstopped, hnotify.trans hstarted⟩
  | ok _ =>
    refine ⟨⟨?_, ?_, fun _ => rfl, h.seen, fun hnew => absurd hnew hrequest, h.once⟩, rfl, hidle⟩
    · simp [hbackoff]
    · simp

end Stream

end Firebase.Firestore.Remote
