import Mathlib.Data.List.Forall2

/-!
# Machines that answer calls, and simulations between them

A machine is a step function from a state and a call to a new state and an
answer; a step may also abort.  `runAll` feeds it a list of calls.

`Related R` compares two outcomes: both abort in the same way, or both answer the
same and end in states related by `R`.  Two machines whose single steps are
related from related states are related over every list of calls
(`runAll_related_along`): the answers of the one are the answers of the other.
-/

universe u v w x y

namespace Firebase.Lib

variable {σ : Type u} {τ : Type v} {ι : Type w} {ο : Type x} {ε : Type y}

/-- The outcome of a list of calls: the last state and the answers, or how it was aborted. -/
def runAll (step : σ → ι → Except ε (σ × ο)) : σ → List ι → Except ε (σ × List ο)
  | s, [] => .ok (s, [])
  | s, call :: calls =>
    match step s call with
    | .error e => .error e
    | .ok (s', answer) =>
      match runAll step s' calls with
      | .error e => .error e
      | .ok (s'', answers) => .ok (s'', answer :: answers)

variable {step : σ → ι → Except ε (σ × ο)} {calls : List ι} {answers : List ο}

/-- A run of one more call, taken apart. -/
theorem runAll_cons_eq_ok {s s'' : σ} {call : ι}
    : runAll step s (call :: calls) = .ok (s'', answers) ↔
      ∃ s' answer answers', step s call = .ok (s', answer) ∧
        runAll step s' calls = .ok (s'', answers') ∧ answers = answer :: answers' := by
  constructor
  · intro hrun
    rw [runAll] at hrun
    split at hrun
    · cases hrun
    · next s' answer hfirst =>
      split at hrun
      · cases hrun
      · next t answers' hlast =>
        cases hrun
        exact ⟨s', answer, answers', hfirst, hlast, rfl⟩
  · rintro ⟨s', answer, answers', hfirst, hlast, rfl⟩
    rw [runAll, hfirst]
    dsimp only
    rw [hlast]

/-- A run passes through a state after each of its calls. -/
theorem runAll_append_eq_ok {s s'' : σ} {calls calls' : List ι} :
    runAll step s (calls ++ calls') = .ok (s'', answers) ↔
      ∃ s' before after, runAll step s calls = .ok (s', before) ∧
        runAll step s' calls' = .ok (s'', after) ∧ answers = before ++ after := by
  induction calls generalizing s answers with
  | nil =>
    refine ⟨fun hrun => ⟨s, [], answers, rfl, hrun, rfl⟩, ?_⟩
    rintro ⟨s', before, after, hnil, hrun, rfl⟩
    cases hnil
    exact hrun
  | cons call calls ih =>
    constructor
    · intro hrun
      obtain ⟨s₁, answer, answers₁, hfirst, hrest, rfl⟩ := runAll_cons_eq_ok.mp hrun
      obtain ⟨s', before, after, hbefore, hafter, rfl⟩ := ih.mp hrest
      refine ⟨s', answer :: before, after, ?_, hafter, rfl⟩
      exact runAll_cons_eq_ok.mpr ⟨s₁, answer, before, hfirst, hbefore, rfl⟩
    · rintro ⟨s', before, after, hbefore, hafter, rfl⟩
      obtain ⟨s₁, answer, answers₁, hfirst, hrest, rfl⟩ := runAll_cons_eq_ok.mp hbefore
      exact runAll_cons_eq_ok.mpr ⟨s₁, answer, answers₁ ++ after, hfirst,
        ih.mpr ⟨s', answers₁, after, hrest, hafter, rfl⟩, rfl⟩

/-- A call that is made again and again, before others. -/
theorem runAll_replicate_append {f : Nat → σ} {call : ι} {answer : ο} {s : σ}
    (hstep : ∀ k, step (f k) call = .ok (f (k + 1), answer)) {n k : Nat}
    (hrun : runAll step (f (k + n)) calls = .ok (s, answers)) :
    runAll step (f k) (List.replicate n call ++ calls) =
      .ok (s, List.replicate n answer ++ answers) := by
  induction n generalizing k with
  | zero => exact hrun
  | succ n ih =>
    rw [Nat.add_succ, ← Nat.succ_add] at hrun
    exact runAll_cons_eq_ok.mpr ⟨f (k + 1), answer, _, hstep k, ih hrun, rfl⟩

/-- Two outcomes with the same answers and related states, or with the same error. -/
def Related (R : σ → τ → Prop) : Except ε (σ × ο) → Except ε (τ × ο) → Prop
  | .ok (s, a), .ok (t, b) => R s t ∧ a = b
  | .error e, .error f => e = f
  | _, _ => False

variable {x : Except ε (σ × ο)} {y : Except ε (τ × ο)}

theorem Related.mono {R S : σ → τ → Prop} (hRS : ∀ s t, R s t → S s t)
    (h : Related R x y) : Related S x y := by
  match x, y, h with
  | .ok _, .ok _, h => exact ⟨hRS _ _ h.1, h.2⟩
  | .error _, .error _, h => exact h

/-! ## Calls under conditions

Where two machines only agree on calls that meet a condition, the condition is asked for in every
state that the first machine comes to. -/

/-- Every call meets the condition in the state it is made in. -/
def Along (step : σ → ι → Except ε (σ × ο)) (p : σ → ι → Prop) : σ → List ι → Prop
  | _, [] => True
  | s, call :: calls =>
    p s call ∧ ∀ s' answer, step s call = .ok (s', answer) → Along step p s' calls

variable {p : σ → ι → Prop}

/-- What every call under the condition keeps, a list of such calls keeps. -/
theorem runAll_invariant_along (inv : σ → Prop)
    (hstep : ∀ s call s' answer, inv s → p s call → step s call = .ok (s', answer) → inv s')
    {s s' : σ} (hs : inv s) (hcalls : Along step p s calls)
    (hrun : runAll step s calls = .ok (s', answers)) : inv s' := by
  induction calls generalizing s answers with
  | nil =>
    cases hrun
    exact hs
  | cons call calls ih =>
    obtain ⟨hcall, hrest⟩ := hcalls
    obtain ⟨s₁, answer, answers₁, hfirst, hlast, rfl⟩ := runAll_cons_eq_ok.mp hrun
    exact ih (hstep s call s₁ answer hs hcall hfirst) (hrest s₁ answer hfirst) hlast

/-- What every call keeps, a list of calls keeps. -/
theorem runAll_invariant {p : ι → Prop} (inv : σ → Prop)
    (hstep : ∀ s call s' answer, inv s → p call → step s call = .ok (s', answer) → inv s')
    {s s' : σ} (hs : inv s) (hcalls : ∀ call ∈ calls, p call)
    (hrun : runAll step s calls = .ok (s', answers)) : inv s' := by
  have halong : ∀ s, Along step (fun _ call => p call) s calls := by
    clear hrun
    induction calls with
    | nil => exact fun _ => trivial
    | cons call calls ih =>
      obtain ⟨hcall, hcalls⟩ := List.forall_mem_cons.mp hcalls
      exact fun s => ⟨hcall, fun s' _ _ => ih hcalls s'⟩
  exact runAll_invariant_along inv hstep hs (halong s) hrun

/-- A condition on the calls gives another, as long as an invariant holds that the calls under the
condition keep. -/
theorem Along.imp {p q : σ → ι → Prop} (inv : σ → Prop)
    (himp : ∀ s call, inv s → p s call → q s call)
    (hstep : ∀ s call s' answer, inv s → p s call → step s call = .ok (s', answer) → inv s')
    {s : σ} (hs : inv s) (h : Along step p s calls) : Along step q s calls := by
  induction calls generalizing s with
  | nil => trivial
  | cons call calls ih =>
    obtain ⟨hcall, hrest⟩ := h
    refine ⟨himp s call hs hcall, fun s' answer hok => ?_⟩
    exact ih (hstep s call s' answer hs hcall hok) (hrest s' answer hok)

/-- Two conditions that say the same of every call, as long as an invariant holds that the calls
under the condition keep. -/
theorem along_iff_along {p q : σ → ι → Prop} (inv : σ → Prop)
    (hiff : ∀ s call, inv s → (p s call ↔ q s call))
    (hstep : ∀ s call s' answer, inv s → q s call → step s call = .ok (s', answer) → inv s')
    {s : σ} (hs : inv s) (calls : List ι) : Along step p s calls ↔ Along step q s calls := by
  constructor
  · refine Along.imp inv (fun s call hs => (hiff s call hs).mp)
      (fun s call s' answer hs hp => ?_) hs
    exact hstep s call s' answer hs ((hiff s call hs).mp hp)
  · exact Along.imp inv (fun s call hs => (hiff s call hs).mpr) hstep hs

/-- What an invariant of the calls says of every call. -/
theorem along_of_invariant (inv : σ → Prop) (hp : ∀ s call, inv s → p s call)
    (hstep : ∀ s call s' answer, inv s → step s call = .ok (s', answer) → inv s')
    {s : σ} (hs : inv s) (calls : List ι) : Along step p s calls := by
  induction calls generalizing s with
  | nil => trivial
  | cons call calls ih =>
    exact ⟨hp s call hs, fun s' answer hok => ih (hstep s call s' answer hs hok)⟩

/-- A measure that only some calls raise, and by one, stays below a bound that the number of these
calls respects. -/
theorem along_of_countP (measure : σ → Nat) (counts : ι → Bool) {bound : Nat}
    (hstep : ∀ s call s' answer, step s call = .ok (s', answer) →
      measure s' ≤ measure s + (counts call).toNat)
    (hp : ∀ s call, measure s + (counts call).toNat < bound → p s call)
    {s : σ} {calls : List ι} (h : measure s + calls.countP counts < bound) :
    Along step p s calls := by
  induction calls generalizing s with
  | nil => trivial
  | cons call calls ih =>
    have hcount : (call :: calls).countP counts = calls.countP counts + (counts call).toNat := by
      rw [List.countP_cons]
      cases counts call <;> rfl
    refine ⟨hp s call (by omega), fun s' answer hok => ih ?_⟩
    have hmeasure := hstep s call s' answer hok
    omega

variable {R : σ → τ → Prop} {step' : τ → ι → Except ε (τ × ο)}

/-- Steps that are related from related states stay related over every list of calls. -/
theorem runAll_related_along
    (hstep : ∀ s t call, R s t → p s call → Related R (step s call) (step' t call))
    {s : σ} {t : τ} (h : R s t) (hcalls : Along step p s calls) :
    Related R (runAll step s calls) (runAll step' t calls) := by
  induction calls generalizing s t with
  | nil => exact ⟨h, rfl⟩
  | cons call calls ih =>
    obtain ⟨hcall, hrest⟩ := hcalls
    have hone := hstep s t call h hcall
    rw [runAll, runAll]
    match hs : step s call, step' t call, hone with
    | .error _, .error _, hone => exact hone
    | .ok (s', _), .ok (t', _), ⟨hR, rfl⟩ =>
      have hrun := ih hR (hrest s' _ hs)
      dsimp only
      match runAll step s' calls, runAll step' t' calls, hrun with
      | .error _, .error _, hrun => exact hrun
      | .ok (_, _), .ok (_, _), ⟨hR', rfl⟩ => exact ⟨hR', rfl⟩

theorem Related.answers_eq (h : Related R x y) : x.map Prod.snd = y.map Prod.snd := by
  match x, y, h with
  | .ok _, .ok _, h => exact congrArg Except.ok h.2
  | .error _, .error _, h => exact congrArg Except.error h

/-! ## Families of components

A state often holds a list of components, each related to its counterpart. -/

theorem forall₂_set {α : Type u} {β : Type v} {R : α → β → Prop} {as : List α} {bs : List β}
    (h : List.Forall₂ R as bs) {a : α} {b : β} (hab : R a b) (i : Nat) :
    List.Forall₂ R (as.set i a) (bs.set i b) := by
  induction h generalizing i with
  | nil => exact .nil
  | cons hhead htail ih =>
    cases i with
    | zero => exact .cons hab htail
    | succ i => exact .cons hhead (ih i)

/-- Both lists have a component of a number, and the two are related, or neither has one. -/
theorem forall₂_getElem? {α : Type u} {β : Type v} {R : α → β → Prop} {as : List α} {bs : List β}
    (h : List.Forall₂ R as bs) (i : Nat) :
    (as[i]? = none ∧ bs[i]? = none) ∨ ∃ a b, as[i]? = some a ∧ bs[i]? = some b ∧ R a b := by
  induction h generalizing i with
  | nil => exact .inl ⟨rfl, rfl⟩
  | cons hhead htail ih =>
    cases i with
    | zero => exact .inr ⟨_, _, rfl, rfl, hhead⟩
    | succ i => exact ih i

end Firebase.Lib
