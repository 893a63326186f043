import Firebase.Lib.Simulation

/-!
# Outcomes of computations that may fail

`Meets allowed post x` says of a computation that it ends in a value with the property `post`, or in
an error that is allowed.  With no error allowed it says that the computation does not fail; with
every error allowed it is the partial statement.
-/

universe u v w x

namespace Firebase.Lib

variable {ε : Type u} {α : Type v} {β : Type v} {allowed : ε → Prop}

/-- The computation ends in a value with a property, or in an error that is allowed. -/
def Meets (allowed : ε → Prop) (post : α → Prop) : Except ε α → Prop
  | .ok a => post a
  | .error e => allowed e

theorem Meets.mono {post post' : α → Prop} {c : Except ε α} (h : Meets allowed post c)
    (hpost : ∀ a, post a → post' a) : Meets allowed post' c := by
  cases c with
  | error e => exact h
  | ok a => exact hpost a h

theorem Meets.bind {mid : α → Prop} {post : β → Prop} {c : Except ε α} {f : α → Except ε β}
    (h : Meets allowed mid c) (hf : ∀ a, mid a → Meets allowed post (f a)) :
    Meets allowed post (c >>= f) := by
  cases c with
  | error e => exact h
  | ok a => exact hf a h

/-- A loop keeps what every round keeps. -/
theorem meets_foldlM {ι : Type w} {f : α → ι → Except ε α} {is : List ι} (inv : α → Prop)
    (hstep : ∀ a, ∀ i ∈ is, inv a → Meets allowed inv (f a i)) {a : α} (ha : inv a) :
    Meets allowed inv (is.foldlM f a) := by
  induction is generalizing a with
  | nil => exact ha
  | cons i is ih =>
    refine (hstep a i List.mem_cons_self ha).bind fun b hb => ?_
    exact ih (fun a i hi => hstep a i (List.mem_cons_of_mem _ hi)) hb

/-- A run keeps what every step keeps. -/
theorem meets_runAll {σ : Type v} {ι : Type w} {ο : Type x} {step : σ → ι → Except ε (σ × ο)}
    (inv : σ → Prop) (hstep : ∀ s call, inv s → Meets allowed (fun r => inv r.1) (step s call))
    {s : σ} (hs : inv s) (calls : List ι) :
    Meets allowed (fun r => inv r.1) (runAll step s calls) := by
  induction calls generalizing s with
  | nil => exact hs
  | cons call calls ih =>
    rw [runAll]
    have hfirst := hstep s call hs
    generalize step s call = first at hfirst ⊢
    rcases first with e | ⟨s', answer⟩
    · exact hfirst
    · have hrest := ih hfirst
      dsimp only
      generalize runAll step s' calls = rest at hrest ⊢
      rcases rest with e | ⟨s'', answers⟩
      · exact hrest
      · exact hrest

end Firebase.Lib
