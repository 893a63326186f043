import Mathlib.Init

/-!
# Hard assertions

`HARD_ASSERT` and `HARD_FAIL` abort the process with a message.  A source
function that may abort returns a `Hard` value here.
-/

namespace Firebase.Firestore.Util

/-- The process was aborted by a failed assertion with this message. -/
structure HardFail where
  message : String
deriving DecidableEq, Repr

abbrev Hard (α : Type) := Except HardFail α

def hardAssert (condition : Bool) (message : String) : Hard Unit :=
  if condition then .ok () else .error ⟨message⟩

@[simp] theorem hardAssert_true (message : String) : hardAssert true message = .ok () := rfl

@[simp] theorem ok_bind {α β : Type} (a : α) (f : α → Hard β) : (Except.ok a >>= f) = f a := rfl

variable {α β : Type} {f : α → Hard β}

theorem bind_eq_ok {x : Hard α} {b : β} : x >>= f = .ok b ↔ ∃ a, x = .ok a ∧ f a = .ok b := by
  cases x with
  | error e => exact ⟨nofun, nofun⟩
  | ok a => exact ⟨fun h => ⟨a, rfl, h⟩, fun ⟨_, ha, h⟩ => Except.ok.inj ha ▸ h⟩

theorem bind_eq_error {x : Hard α} {e : HardFail} :
    x >>= f = .error e ↔ x = .error e ∨ ∃ a, x = .ok a ∧ f a = .error e := by
  cases x with
  | error e' => exact ⟨fun h => .inl (congrArg Except.error (Except.error.inj h)),
      fun h => h.elim (fun h => congrArg Except.error (Except.error.inj h)) nofun⟩
  | ok a => exact ⟨fun h => .inr ⟨a, rfl, h⟩,
      fun h => h.elim nofun fun ⟨_, ha, h⟩ => Except.ok.inj ha ▸ h⟩

theorem ok_inj {a a' : α} {b b' : β}
    (h : (.ok (a, b) : Hard (α × β)) = .ok (a', b')) : a = a' ∧ b = b' :=
  Prod.mk.inj (Except.ok.inj h)

/-- A computation on a state whose answer was replaced. -/
theorem ok_of_discard {x : Hard (α × β)} {γ : Type} {c d : γ} {s : α}
    (h : (x >>= fun r => .ok (r.1, c)) = .ok (s, d)) : ∃ b, x = .ok (s, b) := by
  obtain ⟨⟨s', b⟩, hx, h⟩ := bind_eq_ok.mp h
  cases h
  exact ⟨b, hx⟩

/-- Whether a computation comes to a result with some property is decided by running it. -/
instance {x : Hard α} {p : α → Prop} [DecidablePred p] : Decidable (∃ a, x = .ok a ∧ p a) :=
  match x with
  | .error _ => .isFalse nofun
  | .ok a => decidable_of_decidable_of_iff
      ⟨fun h => ⟨a, rfl, h⟩, fun ⟨_, ha, h⟩ => Except.ok.inj ha ▸ (h : p _)⟩

instance {x : Hard (α × β)} {p : α → β → Prop} [∀ a b, Decidable (p a b)] :
    Decidable (∃ a b, x = .ok (a, b) ∧ p a b) :=
  decidable_of_decidable_of_iff (p := ∃ r, x = .ok r ∧ p r.1 r.2)
    ⟨fun ⟨r, h, hp⟩ => ⟨r.1, r.2, h, hp⟩, fun ⟨a, b, h, hp⟩ => ⟨(a, b), h, hp⟩⟩

theorem foldlM_cons_eq_ok {f : β → α → Hard β} {a : α} {as : List α} {b b' : β} :
    (a :: as).foldlM f b = .ok b' ↔ ∃ b₁, f b a = .ok b₁ ∧ as.foldlM f b₁ = .ok b' := by
  rw [List.foldlM_cons, bind_eq_ok]

theorem hardAssert_eq_ok {condition : Bool} {message : String} {u : Unit} :
    hardAssert condition message = .ok u ↔ condition = true := by
  cases condition
  · exact ⟨nofun, nofun⟩
  · exact ⟨fun _ => rfl, fun _ => rfl⟩

theorem hardAssert_eq_error {condition : Bool} {message : String} {e : HardFail} :
    hardAssert condition message = .error e → e = ⟨message⟩ := by
  cases condition
  · exact fun h => (Except.error.inj h).symm
  · exact nofun

/-! ## Loops that do not abort -/

variable {as : List α}

theorem mapM_ok (h : ∀ a ∈ as, ∃ b, f a = .ok b) :
    ∃ bs, as.mapM f = .ok bs ∧ bs.length = as.length := by
  induction as with
  | nil => exact ⟨[], rfl, rfl⟩
  | cons a as ih =>
    obtain ⟨b, hb⟩ := h a (List.mem_cons_self)
    obtain ⟨bs, hbs, hlength⟩ := ih fun a' ha' => h a' (List.mem_cons_of_mem a ha')
    refine ⟨b :: bs, ?_, congrArg Nat.succ hlength⟩
    rw [List.mapM_cons, hb, hbs]
    rfl

/-- What holds of every result of a loop holds of all that it collects. -/
theorem mapM_forall {P : β → Prop} (hf : ∀ a b, f a = .ok b → P b)
    {bs : List β} (h : as.mapM f = .ok bs) : ∀ b ∈ bs, P b := by
  induction as generalizing bs with
  | nil =>
    cases h
    exact nofun
  | cons a as ih =>
    rw [List.mapM_cons] at h
    obtain ⟨b, hb, h⟩ := bind_eq_ok.mp h
    obtain ⟨bs', hbs', h⟩ := bind_eq_ok.mp h
    cases h
    exact List.forall_mem_cons.mpr ⟨hf a b hb, ih hbs'⟩

/-! ## What loops keep and reach -/

section Loop

variable {α β : Type} {f : β → α → Hard β} {as : List α} {b b' : β}

/-- What every round keeps, the loop keeps. -/
theorem foldlM_invariant (inv : β → Prop)
    (hstep : ∀ b, ∀ a ∈ as, ∀ b', inv b → f b a = .ok b' → inv b')
    (hb : inv b) (h : as.foldlM f b = .ok b') : inv b' := by
  induction as generalizing b with
  | nil =>
    cases h
    exact hb
  | cons a as ih =>
    obtain ⟨b₁, hfirst, hrest⟩ := foldlM_cons_eq_ok.mp h
    refine ih (fun b a' ha' => hstep b a' (List.mem_cons_of_mem a ha')) ?_ hrest
    exact hstep b a List.mem_cons_self b₁ hb hfirst

/-- A part of the state that no round changes is as it was. -/
theorem foldlM_keeps (get : β → γ) (hround : ∀ b, ∀ a ∈ as, ∀ b', f b a = .ok b' → get b' = get b)
    (h : as.foldlM f b = .ok b') : get b' = get b :=
  foldlM_invariant (fun b₁ => get b₁ = get b)
    (fun b₁ a ha b₂ hsame hok => (hround b₁ a ha b₂ hok).trans hsame) rfl h

/-- A loop does not abort if no round does as long as an invariant holds. -/
theorem foldlM_ok_invariant (inv : β → Prop)
    (hstep : ∀ b, ∀ a ∈ as, inv b → ∃ b', f b a = .ok b' ∧ inv b') (hb : inv b) :
    ∃ b', as.foldlM f b = .ok b' ∧ inv b' := by
  induction as generalizing b with
  | nil => exact ⟨b, rfl, hb⟩
  | cons a as ih =>
    obtain ⟨b₁, hfirst, hb₁⟩ := hstep b a List.mem_cons_self hb
    obtain ⟨b₂, hrest, hb₂⟩ := ih (fun b a' ha' => hstep b a' (List.mem_cons_of_mem a ha')) hb₁
    refine ⟨b₂, ?_, hb₂⟩
    rw [List.foldlM_cons, hfirst, ok_bind, hrest]

theorem foldlM_ok (h : ∀ b, ∀ a ∈ as, ∃ b', f b a = .ok b') (b : β) :
    ∃ b', as.foldlM f b = .ok b' := by
  obtain ⟨b', hb', -⟩ := foldlM_ok_invariant (fun _ => True)
    (fun b a ha _ => (h b a ha).imp fun _ hok => ⟨hok, trivial⟩) (trivial : (fun _ => True) b)
  exact ⟨b', hb'⟩

end Loop

end Firebase.Firestore.Util
