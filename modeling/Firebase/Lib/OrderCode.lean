import Mathlib.Data.List.Lex
import Mathlib.Data.Prod.Lex

/-!
# Order-preserving self-delimiting codes

A *code* here is a map from a linearly ordered type to words over a linearly ordered alphabet.
Comparing code words has to compare the coded values, no code word may be a prefix of another one,
and a concatenation of code words has to be readable from the left.

`Below u v` says that `u` and `v` have a first position where they differ, that both words reach it,
and that `u` has the smaller letter there.  Unlike the lexicographic order, `Below` survives
appending anything on either side (`Below.append`), which is what makes it compositional.
-/

universe u v w

namespace Firebase.Lib

open List

variable {β : Type u} [LinearOrder β]

/-- `Below u v`: the words `u` and `v` differ at a position that both reach, and
the letter of `u` at the first such position is the smaller one. -/
inductive Below : List β → List β → Prop
  | /-- The words differ at their first letter. -/
    head {x y : β} {s t : List β} : x < y → Below (x :: s) (y :: t)
  | /-- The words agree on their first letter. -/
    tail {x : β} {s t : List β} : Below s t → Below (x :: s) (x :: t)

namespace Below

variable {a b : List β}

/-- Whatever follows two words, the first difference stays the first difference. -/
theorem append (h : Below a b) (s t : List β) : Below (a ++ s) (b ++ t) := by
  induction h with
  | head hxy => exact .head hxy
  | tail _ ih => exact .tail ih

/-- A common prefix does not change the comparison. -/
theorem append_left (p : List β) (h : Below a b) : Below (p ++ a) (p ++ b) := by
  induction p with
  | nil => exact h
  | cons x p ih => exact .tail ih

/-- `Below` refines the lexicographic order. -/
theorem lt (h : Below a b) : a < b := by
  induction h with
  | head hxy => exact List.Lex.rel hxy
  | tail _ ih => exact List.Lex.cons ih

/-- A word is not a prefix of a word that it is below. -/
theorem not_isPrefixOf (h : Below a b) : ¬ a <+: b := by
  induction h with
  | head hxy =>
    intro hp
    exact hxy.ne (cons_prefix_cons.mp hp).1
  | tail _ ih =>
    intro hp
    exact ih (cons_prefix_cons.mp hp).2

/-- A word is not a prefix of a word that is below it. -/
theorem not_isPrefixOf_right (h : Below a b) : ¬ b <+: a := by
  induction h with
  | head hxy =>
    intro hp
    exact hxy.ne' (cons_prefix_cons.mp hp).1
  | tail _ ih =>
    intro hp
    exact ih (cons_prefix_cons.mp hp).2

theorem ne (h : Below a b) : a ≠ b := h.lt.ne

end Below

/-- A code that sends smaller values to words that are `Below`. -/
def OrderCode {α : Type v} [LinearOrder α] (enc : α → List β) : Prop :=
  ∀ a b, a < b → Below (enc a) (enc b)

namespace OrderCode

variable {α : Type v} [LinearOrder α] {γ : Type w} [LinearOrder γ]
variable {enc : α → List β}

/-- Two different values have words that are comparable by `Below`. -/
theorem below_or_below (h : OrderCode enc) {a b : α} (hab : a ≠ b) :
    Below (enc a) (enc b) ∨ Below (enc b) (enc a) :=
  (lt_or_gt_of_ne hab).imp (h a b) (h b a)

/-- A code word is found at the start of a word that begins with a code word
only if the two coded values are equal: the code is self-delimiting. -/
theorem prefix_append_iff (h : OrderCode enc) {a b : α} {t : List β} :
    enc a <+: enc b ++ t ↔ a = b := by
  constructor
  · intro hp
    by_contra hab
    rcases h.below_or_below hab with hlt | hlt
    · exact (by simpa using hlt.append [] t : Below (enc a) (enc b ++ t)).not_isPrefixOf hp
    · exact (by simpa using hlt.append t [] : Below (enc b ++ t) (enc a)).not_isPrefixOf_right hp
  · rintro rfl
    exact prefix_append _ _

/-- Prefixes of a concatenation are compared component by component. -/
theorem append_prefix_append_iff (h : OrderCode enc) {a b : α} {s t : List β} :
    enc a ++ s <+: enc b ++ t ↔ a = b ∧ s <+: t := by
  constructor
  · intro hp
    obtain rfl : a = b := h.prefix_append_iff.mp ((prefix_append _ _).trans hp)
    exact ⟨rfl, (prefix_append_right_inj _).mp hp⟩
  · rintro ⟨rfl, hp⟩
    exact (prefix_append_right_inj _).mpr hp

/-- Comparing code words compares the coded values. -/
theorem lt_iff (h : OrderCode enc) {a b : α} : enc a < enc b ↔ a < b := by
  constructor
  · intro hlt
    by_contra hab
    rcases (not_lt.mp hab).lt_or_eq with hba | rfl
    · exact lt_asymm hlt (h b a hba).lt
    · exact lt_irrefl _ hlt
  · exact fun hab => (h a b hab).lt

/-- A fixed word in front of every code word changes nothing. -/
theorem append_left (p : List β) (h : OrderCode enc) : OrderCode fun a => p ++ enc a :=
  fun a b hab => (h a b hab).append_left p

/-- A fixed word after every code word changes nothing. -/
theorem append_right (s : List β) (h : OrderCode enc) : OrderCode fun a => enc a ++ s :=
  fun a b hab => (h a b hab).append s s

/-- Recoding along a strictly monotone map. -/
theorem comp {f : γ → α} (hf : StrictMono f) (h : OrderCode enc) : OrderCode (enc ∘ f) :=
  fun _ _ hab => h _ _ (hf hab)

/-- The code of a pair, first component first, compares pairs lexicographically. -/
theorem prod {enc' : γ → List β} (h : OrderCode enc) (h' : OrderCode enc') :
    OrderCode fun p : α ×ₗ γ => enc (ofLex p).1 ++ enc' (ofLex p).2 := by
  intro p q hpq
  rcases Prod.Lex.lt_iff.mp hpq with hlt | ⟨heq, hlt⟩
  · exact (h _ _ hlt).append _ _
  · simp only [heq]
    exact (h' _ _ hlt).append_left _

end OrderCode

/-! ## Unbounded sequences of labelled segments

A list is coded as the concatenation of its elements' words, each behind one
label letter.  Such a word is not self-delimiting by itself: what ends the list
is that the next component starts with a letter below the label. -/

section Segments

/-- The word of a list of segments: a label in front of each segment's word. -/
def segments {α : Type v} {β : Type u} (label : β) (enc : α → List β) (path : List α) : List β :=
  path.flatMap fun a => label :: enc a

@[simp] theorem segments_nil {α : Type v} {β : Type u} (label : β) (enc : α → List β) :
    segments label enc [] = [] := rfl

@[simp] theorem segments_cons {α : Type v} {β : Type u} (label : β) (enc : α → List β) (a : α)
    (path : List α) :
    segments label enc (a :: path) = label :: enc a ++ segments label enc path := rfl

variable {α : Type v} [LinearOrder α]

/-- The word starts with a letter below `label`: it can end a list of segments. -/
def EndsSegments (label : β) : List β → Prop
  | [] => False
  | x :: _ => x < label

theorem EndsSegments.append {label : β} {s : List β} (h : EndsSegments label s) (t : List β) :
    EndsSegments label (s ++ t) := by
  cases s with
  | nil => exact h.elim
  | cons x s => exact h

variable {label : β} {enc : α → List β}

/-- A list comes before another one exactly as their segments compare, whatever
follows: a proper prefix is closed off by a letter below the label. -/
theorem segments_below (h : OrderCode enc) {p q : List α} {s t : List β}
    (hs : EndsSegments label s) (hpq : p < q) :
    Below (segments label enc p ++ s) (segments label enc q ++ t) := by
  induction p generalizing q with
  | nil =>
    cases q with
    | nil => exact absurd hpq (lt_irrefl _)
    | cons b q =>
      cases s with
      | nil => exact hs.elim
      | cons x s => exact .head hs
  | cons a p ih =>
    cases q with
    | nil => exact absurd hpq (not_lt_of_gt (nil_lt_cons a p))
    | cons b q =>
      simp only [segments_cons, append_assoc]
      apply Below.tail
      rcases cons_lt_cons_iff.mp hpq with hlt | ⟨rfl, hlt⟩
      · exact (h a b hlt).append _ _
      · exact (ih hlt).append_left _

/-- A list of segments is found at the start of a word that begins with a list
of segments exactly if it is a prefix of that list. -/
theorem segments_prefix_iff (h : OrderCode enc) {p q : List α} {t : List β}
    (ht : EndsSegments label t) : segments label enc p <+: segments label enc q ++ t ↔ p <+: q := by
  induction p generalizing q with
  | nil => simp
  | cons a p ih =>
    cases q with
    | nil =>
      cases t with
      | nil => exact ht.elim
      | cons x t =>
        have hx : label ≠ x := ne_of_gt ht
        simp [hx]
    | cons b q =>
      simp only [segments_cons, cons_append, append_assoc, cons_prefix_cons,
        true_and]
      rw [h.append_prefix_append_iff, ih]

/-- The code of a list of segments closed by a fixed word that ends it. -/
theorem OrderCode.segments_append (h : OrderCode enc) {s : List β} (hs : EndsSegments label s) :
    OrderCode fun p : List α => segments label enc p ++ s :=
  fun _ _ hpq => segments_below h hs hpq

/-- The code of a list of segments followed by a component that ends it. -/
theorem OrderCode.segments_prod {γ : Type w} [LinearOrder γ] {enc' : γ → List β}
    (h : OrderCode enc) (h' : OrderCode enc') (hend : ∀ c, EndsSegments label (enc' c)) :
    OrderCode fun p : List α ×ₗ γ =>
      segments label enc (ofLex p).1 ++ enc' (ofLex p).2 := by
  intro p q hpq
  rcases Prod.Lex.lt_iff.mp hpq with hlt | ⟨heq, hlt⟩
  · exact segments_below h (hend _) hlt
  · simp only [heq]
    exact (h' _ _ hlt).append_left _

end Segments

/-! ## Prefixes

The words that start with a given word are an interval of the order, so that a
scan of sorted words by a prefix finds them next to each other. -/

section Scan

theorem cons_le_cons {x y : β} {a b : List β} : x :: a ≤ y :: b ↔ x < y ∨ x = y ∧ a ≤ b := by
  rw [le_iff_lt_or_eq, cons_lt_cons_iff, le_iff_lt_or_eq, List.cons.injEq]
  tauto

theorem le_of_isPrefixOf {p w : List β} (h : p <+: w) : p ≤ w := by
  obtain ⟨t, rfl⟩ := h
  induction p with
  | nil => exact not_lt.mp (by simp)
  | cons x p ih =>
    rw [cons_append, cons_le_cons]
    exact .inr ⟨rfl, ih⟩

theorem append_le_append {a b : List β} (h : a ≤ b) (p : List β) : p ++ a ≤ p ++ b := by
  induction p with
  | nil => exact h
  | cons x p ih => exact cons_le_cons.mpr (.inr ⟨rfl, ih⟩)

/-- A word between a prefix and one of its extensions is an extension too. -/
theorem isPrefixOf_of_le_of_le {p w v : List β} (hp : p <+: v) (hpw : p ≤ w) (hwv : w ≤ v) :
    p <+: w := by
  induction p generalizing w v with
  | nil => exact nil_prefix
  | cons x p ih =>
    cases v with
    | nil => simp at hp
    | cons z v =>
      obtain ⟨rfl, hpv⟩ := cons_prefix_cons.mp hp
      cases w with
      | nil => exact absurd hpw (not_le_of_gt (nil_lt_cons x p))
      | cons y w =>
        rw [cons_le_cons] at hpw hwv
        rcases hpw with hlt | ⟨rfl, hpw⟩
        · rcases hwv with hlt' | ⟨rfl, -⟩
          · exact absurd hlt (lt_asymm hlt')
          · exact absurd hlt (lt_irrefl _)
        · rcases hwv with hlt | ⟨-, hwv⟩
          · exact absurd hlt (lt_irrefl _)
          · exact cons_prefix_cons.mpr ⟨rfl, ih hpv hpw hwv⟩

end Scan

end Firebase.Lib
