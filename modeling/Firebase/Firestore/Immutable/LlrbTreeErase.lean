import Firebase.Firestore.Immutable.LlrbTreeBalance

/-!
# Removal from left-leaning red-black trees

`InnerErase` keeps a red link at or just below the node it goes to, with `MoveRedLeft` and
`MoveRedRight`, so that the entry that goes away is in the end one of a red node.
-/

namespace Firebase.Firestore.Immutable

namespace LlrbTree

open Lib OrdMap List

variable {K V : Type}

/-! ## Shapes of trees -/

section Shapes

variable {c : Color} {n : Nat} {t : LlrbTree K V}

/-- What is left of a node of color `c` over two black children. -/
inductive Shrunk (c : Color) : LlrbTree K V → Nat → Prop
  | same {e : K × V} {l r : LlrbTree K V} {n : Nat} :
      Balanced l .black n → Balanced r .black n → Shrunk c (make e c l r) n
  | flipped {e : K × V} {l r : LlrbTree K V} {n : Nat} :
      Balanced l .red n → Balanced r .black n → Shrunk c (make e c.opposite l r) (n + 1)
  | gone : Shrunk c (.nil .black) 0

theorem Shrunk.of_red (h : Shrunk .red t n) : ∃ c, Balanced t c n := by
  cases h with
  | same hl hr => exact ⟨_, .red hl hr⟩
  | flipped hl hr => exact ⟨_, .black hl hr⟩
  | gone => exact ⟨_, .nil⟩

theorem Shrunk.loose (h : Shrunk .black t n) : ∃ m, Loose t m := by
  cases h with
  | same hl hr => exact ⟨_, .balanced (.black hl hr)⟩
  | flipped hl hr => exact ⟨_, .redRed hl hr⟩
  | gone => exact ⟨_, .balanced .nil⟩

/-- A black node with a red child to the left. -/
inductive LeftRed : LlrbTree K V → Nat → Prop
  | mk {e : K × V} {l r : LlrbTree K V} {n : Nat} :
      Balanced l .red n → Balanced r .black n → LeftRed (make e .black l r) (n + 1)

theorem LeftRed.balanced (h : LeftRed t n) : Balanced t .black n := by
  cases h with
  | mk hl hr => exact .black hl hr

theorem LeftRed.toList_ne_nil (h : LeftRed t n) : t.toList ≠ [] := by
  cases h
  simp

theorem Balanced.toList_ne_nil (h : Balanced t c n) (hne : c = .red ∨ n ≠ 0) : t.toList ≠ [] := by
  cases h with
  | nil => simp at hne
  | red | black => simp

theorem Balanced.empty_eq_false (h : Balanced t c n) (hsize : t.toList.length < sizeLimit)
    (hne : t.toList ≠ []) : t.empty = false := by
  rw [h.empty_eq hsize]
  simpa using hne

variable [LinearOrder K]

/-- The trees a call of `InnerErase` is made for: sorted, and small enough for the stored sizes and
for the bound on the depth. -/
structure Fits (t : LlrbTree K V) (depth : Nat) : Prop where
  sorted : t.Sorted
  size : t.toList.length < sizeLimit
  depth : t.toList.length < depth

/-- The subtrees of such a tree. -/
theorem Fits.split {t l r : LlrbTree K V} {x : K × V} {depth : Nat} (h : Fits t (depth + 1))
    (hlist : t.toList = l.toList ++ x :: r.toList) :
    Fits l depth ∧ Fits r depth ∧ (∀ y ∈ l.toList, y.1 < x.1) ∧ (∀ y ∈ r.toList, x.1 < y.1) := by
  obtain ⟨hsorted, hsize, hdepth⟩ := h
  rw [Sorted, hlist, ← toList_make x .black] at hsorted
  obtain ⟨hl, hr, hlx, hxr⟩ := sorted_node.mp hsorted
  rw [hlist, length_append, length_cons] at hsize hdepth
  exact ⟨⟨hl, by omega, by omega⟩, ⟨hr, by omega, by omega⟩, hlx, hxr⟩

theorem Fits.of_toList_eq {t' : LlrbTree K V} {depth : Nat} (h : Fits t depth)
    (hlist : t'.toList = t.toList) : Fits t' depth := by
  obtain ⟨hsorted, hsize, hdepth⟩ := h
  rw [Sorted, ← hlist] at hsorted
  rw [← hlist] at hsize hdepth
  exact ⟨hsorted, hsize, hdepth⟩

/-- The trees that `insert` and `erase` are called on. -/
structure WellFormed (t : LlrbTree K V) : Prop where
  balanced : ∃ n, Balanced t .black n
  sorted : t.Sorted
  small : t.toList.length < sizeLimit

theorem WellFormed.size_eq (h : WellFormed t) : t.size = t.toList.length := by
  obtain ⟨n, hbalanced⟩ := h.balanced
  rw [hbalanced.size_eq, Nat.mod_eq_of_lt h.small]

theorem WellFormed.fits (h : WellFormed t) : Fits t (t.size + 1) :=
  ⟨h.sorted, h.small, by rw [h.size_eq]; exact Nat.lt_succ_self _⟩

theorem wellFormed_nil : WellFormed (.nil .black : LlrbTree K V) :=
  ⟨⟨0, .nil⟩, .nil, by simp [toList, sizeLimit]⟩

end Shapes

section Mutators

variable [Inhabited K] [Inhabited V] {e er el : K × V} {c : Color} {s n : Nat}
  {t l r ll lr rl rr : LlrbTree K V}

/-! ## Moving red links down -/

theorem moveRedLeft_of_black (hrl : rl.red = false) :
    (make e c (make el .black ll lr) (make er .black rl rr)).moveRedLeft =
      make e c.opposite (make el .red ll lr) (make er .red rl rr) := by
  simp [moveRedLeft, flipColor_make, hrl]

theorem moveRedLeft_of_red {erl : K × V} {rll rlr : LlrbTree K V} :
    (make e c (make el .black ll lr) (make er .black (make erl .red rll rlr) rr)).moveRedLeft =
      make erl c (make e .black (make el .red ll lr) rll) (make er .black rlr rr) := by
  have hset : ∀ c l, (make e c l (make er .red (make erl .red rll rlr) rr)).setRight
      (make erl .red rll (make er .red rlr rr)) =
        make e c l (make erl .red rll (make er .red rlr rr)) := by
    intro c l
    have hsize : (make er .red (make erl .red rll rlr) rr).size =
        (make erl .red rll (make er .red rlr rr)).size := (sizeOver_rotate _ _ _ _ _ _ _).symm
    simp only [setRight, make, entry, color, left_node, size_node, sizeOver] at hsize ⊢
    rw [hsize]
  simp [moveRedLeft, flipColor_make, rotateRight_make, hset, rotateLeft_make]

theorem moveRedRight_of_black (hll : ll.red = false) :
    (make e c (make el .black ll lr) (make er .black rl rr)).moveRedRight =
      make e c.opposite (make el .red ll lr) (make er .red rl rr) := by
  simp [moveRedRight, flipColor_make, hll]

theorem moveRedRight_of_red {ell : K × V} {lll llr : LlrbTree K V} :
    (make e c (make el .black (make ell .red lll llr) lr) (make er .black rl rr)).moveRedRight =
      make el c (make ell .black lll llr) (make e .black lr (make er .red rl rr)) := by
  simp [moveRedRight, flipColor_make, rotateRight_make]

/-- A node over two black children, made ready for a removal from its left subtree: either that
subtree has a red node at its root or below, or it is red and so is the other one. -/
inductive ReadyLeft (c : Color) : LlrbTree K V → Nat → Prop
  | same {e : K × V} {l r : LlrbTree K V} {n : Nat} :
      LeftRed l n → Balanced r .black n → ReadyLeft c (make e c l r) n
  | flipped {e : K × V} {l r : LlrbTree K V} {n : Nat} :
      Balanced l .red n → Balanced r .red n → ReadyLeft c (make e c.opposite l r) (n + 1)

/-- What `MoveRedLeft` is for. -/
theorem readyLeft_of_black (hl : Balanced l .black (n + 1)) (hr : Balanced r .black (n + 1)) :
    ∃ t, (if !l.red && !l.left.red then (make e c l r).moveRedLeft else make e c l r) = t ∧
      ReadyLeft c t (n + 1) ∧ t.toList = l.toList ++ e :: r.toList ∧
      (t.entry = e ∨ t.entry ∈ r.toList) := by
  obtain ⟨el, ll, lr, cl, rfl, hll, hlr⟩ := hl.of_black_succ
  obtain ⟨er, rl, rr, cr, rfl, hrl, hrr⟩ := hr.of_black_succ
  refine ⟨_, rfl, ?_⟩
  cases cl with
  | red =>
    rw [if_neg (by simp [hll.red_eq])]
    exact ⟨.same (.mk hll hlr) hr, rfl, .inl rfl⟩
  | black =>
    rw [if_pos (by simp [hll.red_eq])]
    cases cr with
    | black =>
      rw [moveRedLeft_of_black hrl.red_eq]
      exact ⟨.flipped (.red hll hlr) (.red hrl hrr), rfl, .inl rfl⟩
    | red =>
      obtain ⟨erl, rll, rlr, rfl, hrll, hrlr⟩ := hrl.of_red
      rw [moveRedLeft_of_red]
      exact ⟨.same (.mk (.red hll hlr) hrll) (.black hrlr hrr), by simp,
        .inr (by simp [make, entry])⟩

/-- The repair after a removal from the left subtree. -/
theorem ReadyLeft.fixUp (h : ReadyLeft c t n) {l' : LlrbTree K V}
    (hred : ∀ m, Balanced t.left .red m → ∃ c', Balanced l' c' m)
    (hleftRed : ∀ m, LeftRed t.left m → Balanced l' .black m) : Shrunk c (t.setLeft l').fixUp n ∧
      (t.setLeft l').fixUp.toList = l'.toList ++ t.entry :: t.right.toList := by
  cases h with
  | @same e l r n hl hr =>
    have hset : (make e c l r).setLeft l' = .node e c (sizeOver l r) l' r := rfl
    have hl' := hleftRed _ hl
    rw [hset, fixUp_of_right_black hl' hr]
    exact ⟨.same hl' hr, rfl⟩
  | @flipped e l r n hl hr =>
    have hset : (make e c.opposite l r).setLeft l' = .node e c.opposite (sizeOver l r) l' r := rfl
    obtain ⟨er, rl, rr, rfl, hrl, hrr⟩ := hr.of_red
    obtain ⟨c', hl'⟩ := hred _ hl
    rw [hset]
    cases c' with
    | black =>
      rw [fixUp_of_right_red hl' hrr]
      exact ⟨.flipped (.red hl' hrl) hrr, by simp [make, entry]⟩
    | red =>
      obtain ⟨el, ll, lr, rfl, hll, hlr⟩ := hl'.of_red
      rw [fixUp_of_both_red hll, Color.opposite_opposite]
      exact ⟨.same (.black hll hlr) (.black hrl hrr), by simp [make, entry]⟩

theorem ReadyLeft.toList_eq (h : ReadyLeft c t n) :
    t.toList = t.left.toList ++ t.entry :: t.right.toList := by
  cases h <;> rfl

/-! ## Removing the least entry -/

variable {depth : Nat}

/-- The least entry is the one of `min`. -/
theorem Balanced.toList_eq_min (h : Balanced t c n)
    (hsize : t.toList.length < sizeLimit) (hne : t.toList ≠ []) (hdepth : t.toList.length < depth) :
    t.toList = (t.min depth).entry :: t.toList.tail := by
  induction h generalizing depth with
  | nil => exact absurd rfl hne
  | @red e l r n hl _ ihl _ | @black e l r _ n hl _ ihl _ =>
    obtain ⟨depth, rfl⟩ : ∃ d, depth = d + 1 := ⟨depth - 1, by omega⟩
    simp only [toList_make, length_append, length_cons] at hsize hdepth ⊢
    have hempty := hl.empty_eq (by omega)
    rw [LlrbTree.min, left_make]
    cases hlist : l.toList with
    | nil => simp [hempty, hlist, make, entry]
    | cons x xs =>
      have hmin := ihl (by omega) (by simp [hlist]) (show l.toList.length < depth by omega)
      simp only [hempty, hlist, isEmpty_cons, Bool.false_eq_true, if_false] at hmin ⊢
      rw [cons_append, tail_cons, (List.cons.inj hmin).1]

/-- What `RemoveMin` does to nodes it is called on. -/
structure RemovesMin (K V : Type) [Inhabited K] [Inhabited V] (depth : Nat) : Prop where
  twoNode {e : K × V} {c : Color} {l r : LlrbTree K V} {n : Nat} : Balanced l .black n →
    Balanced r .black n → (make e c l r).toList.length < sizeLimit →
    (make e c l r).toList.length < depth →
    Shrunk c ((make e c l r).removeMin depth) n ∧
      ((make e c l r).removeMin depth).toList = (make e c l r).toList.tail
  leftRed {t : LlrbTree K V} {n : Nat} : LeftRed t n → t.toList.length < sizeLimit →
    t.toList.length < depth →
    Balanced (t.removeMin depth) .black n ∧ (t.removeMin depth).toList = t.toList.tail

theorem RemovesMin.red (h : RemovesMin K V depth)
    (ht : Balanced t .red n) (hsize : t.toList.length < sizeLimit)
    (hdepth : t.toList.length < depth) :
    (∃ c', Balanced (t.removeMin depth) c' n) ∧ (t.removeMin depth).toList = t.toList.tail := by
  obtain ⟨e, l, r, rfl, hl, hr⟩ := ht.of_red
  obtain ⟨hshrunk, hlist⟩ := h.twoNode hl hr hsize hdepth
  exact ⟨hshrunk.of_red, hlist⟩

theorem removeMin_make {cl : Color} (hne : l.toList ≠ []) (hl : Balanced l cl n)
    (hsize : l.toList.length < sizeLimit) (depth : Nat) : (make e c l r).removeMin (depth + 1) =
      let t := if !l.red && !l.left.red then (make e c l r).moveRedLeft else make e c l r
      (t.setLeft (t.left.removeMin depth)).fixUp := by
  rw [removeMin, if_neg (by simp [hl.empty_eq_false hsize hne])]
  rfl

/-- The removal of the least entry from the left subtree. -/
theorem ReadyLeft.removeMin_left (ih : RemovesMin K V depth)
    (h : ReadyLeft c t n) (hsize : t.toList.length < sizeLimit)
    (hdepth : t.toList.length < depth + 1) : Shrunk c (t.setLeft (t.left.removeMin depth)).fixUp n ∧
      (t.setLeft (t.left.removeMin depth)).fixUp.toList = t.toList.tail := by
  have hlist := h.toList_eq
  have hlength := congrArg List.length hlist
  rw [length_append, length_cons] at hlength
  have hsmall : t.left.toList.length < sizeLimit := by omega
  have hdeep : t.left.toList.length < depth := by omega
  obtain ⟨hshrunk, hlist'⟩ := h.fixUp (fun m hm => (ih.red hm hsmall hdeep).1)
    (fun m hm => (ih.leftRed hm hsmall hdeep).1)
  refine ⟨hshrunk, ?_⟩
  have htail : (t.left.removeMin depth).toList = t.left.toList.tail ∧ t.left.toList ≠ [] := by
    cases h with
    | same hl _ => exact ⟨(ih.leftRed hl hsmall hdeep).2, hl.toList_ne_nil⟩
    | flipped hl _ => exact ⟨(ih.red hl hsmall hdeep).2, hl.toList_ne_nil (.inl rfl)⟩
  rw [hlist', hlist, htail.1, tail_append_of_ne_nil htail.2]

theorem removesMin (depth : Nat) : RemovesMin K V depth := by
  induction depth with
  | zero => exact ⟨fun _ _ _ h => absurd h (by simp), fun _ _ h => absurd h (by simp)⟩
  | succ depth ih =>
    constructor
    · intro e c l r n hl hr hsize hdepth
      cases n with
      | zero =>
        obtain rfl := hl.of_black_zero
        obtain rfl := hr.of_black_zero
        exact ⟨.gone, rfl⟩
      | succ n =>
        obtain ⟨t, ht, hready, hlist, -⟩ := readyLeft_of_black hl hr (e := e) (c := c)
        have hsmall : l.toList.length < sizeLimit := by
          rw [toList_make, length_append] at hsize
          omega
        rw [toList_make, ← hlist] at hsize hdepth ⊢
        rw [removeMin_make (hl.toList_ne_nil (.inr (by simp))) hl hsmall, ht]
        exact hready.removeMin_left ih hsize hdepth
    · rintro t n ⟨hl, hr⟩ hsize hdepth
      rename_i e l r n
      have hne : l.toList ≠ [] := hl.toList_ne_nil (.inl rfl)
      simp only [toList_make, length_append, length_cons] at hsize hdepth
      obtain ⟨⟨c', hl'⟩, hlist⟩ := ih.red hl (by omega) (show l.toList.length < depth by omega)
      have hfix := fixUp_of_right_black (e := e) (c := .black) (s := sizeOver l r) hl' hr
      have hremove : (make e .black l r).removeMin (depth + 1) =
          make e .black (l.removeMin depth) r := by
        rw [removeMin_make hne hl (by omega), if_neg (by simp [hl.red_eq])]
        exact hfix
      rw [hremove]
      refine ⟨.black hl' hr, ?_⟩
      rw [toList_make, toList_make, hlist, tail_append_of_ne_nil hne]

variable [LinearOrder K]

/-! ## Removal -/

/-- A black node with a red child to the right, which `MoveRedRight` leaves for the recursive call.
-/
inductive RightRed (key : K) : LlrbTree K V → Nat → Prop
  | mk {e : K × V} {l r : LlrbTree K V} {n : Nat} : e.1 ≤ key →
      Balanced l .black n → Balanced r .red n → RightRed key (make e .black l r) (n + 1)

/-- A node over two black children, made ready for a removal from its right subtree or of its own
entry. -/
inductive ReadyRight (key : K) (c : Color) : LlrbTree K V → Nat → Prop
  | same {e : K × V} {l r : LlrbTree K V} {n : Nat} :
      Balanced l .black n → LeftRed r n → ReadyRight key c (make e c l r) n
  | rotated {e : K × V} {l r : LlrbTree K V} {n : Nat} : e.1 < key →
      Balanced l .black n → RightRed key r n → ReadyRight key c (make e c l r) n
  | flipped {e : K × V} {l r : LlrbTree K V} {n : Nat} :
      Balanced l .red n → Balanced r .red n → ReadyRight key c (make e c.opposite l r) (n + 1)

theorem ReadyRight.toList_eq {key : K} (h : ReadyRight key c t n) :
    t.toList = t.left.toList ++ t.entry :: t.right.toList := by
  cases h <;> rfl

/-- What `MoveRedRight` is for. -/
theorem readyRight_of_black {key : K} (hkey : e.1 ≤ key) (hl : Balanced l .black (n + 1))
    (hr : Balanced r .black (n + 1)) (hlt : ∀ x ∈ l.toList, x.1 < e.1)
    (hsize : r.toList.length < sizeLimit) : ReadyRight key c (make e c l r).readyRight (n + 1) ∧
      (make e c l r).readyRight.toList = l.toList ++ e :: r.toList ∧
      (make e c l r).readyRight.entry.1 ≤ key := by
  have hempty := hr.empty_eq_false hsize (hr.toList_ne_nil (.inr (by simp)))
  have hready : (make e c l r).readyRight =
      if !r.red && !r.left.red then (make e c l r).moveRedRight else make e c l r := by
    simp [readyRight, hl.red_eq, hempty]
  rw [hready]
  obtain ⟨el, ll, lr, cl, rfl, hll, hlr⟩ := hl.of_black_succ
  obtain ⟨er, rl, rr, cr, rfl, hrl, hrr⟩ := hr.of_black_succ
  cases cr with
  | red =>
    rw [if_neg (by simp [hrl.red_eq])]
    exact ⟨.same hl (.mk hrl hrr), rfl, hkey⟩
  | black =>
    rw [if_pos (by simp [hrl.red_eq])]
    cases cl with
    | black =>
      rw [moveRedRight_of_black hll.red_eq]
      exact ⟨.flipped (.red hll hlr) (.red hrl hrr), rfl, hkey⟩
    | red =>
      obtain ⟨ell, lll, llr, rfl, hlll, hllr⟩ := hll.of_red
      rw [moveRedRight_of_red]
      have hlt' : el.1 < key := (hlt el (by simp)).trans_le hkey
      exact ⟨.rotated hlt' (.black hlll hllr) (.mk hkey hlr (.red hrl hrr)), by simp, hlt'.le⟩

/-- The repair after a removal from the right subtree, also if the entry was replaced. -/
theorem ReadyRight.fixUp {key : K} (h : ReadyRight key c t n) (x : K × V)
    {r' : LlrbTree K V} (hred : ∀ m, Balanced t.right .red m → ∃ c', Balanced r' c' m)
    (hleftRed : ∀ m, LeftRed t.right m → Balanced r' .black m)
    (hrightRed : t.entry.1 < key → ∀ m, RightRed key t.right m → Balanced r' .black m) :
    Shrunk c (LlrbTree.fixUp (.node x t.color t.size t.left r')) n ∧
      (LlrbTree.fixUp (.node x t.color t.size t.left r')).toList = t.left.toList ++ x ::
        r'.toList := by
  have hsame : ∀ l, Balanced l .black n → Balanced r' .black n →
      Shrunk c (LlrbTree.fixUp (.node x c t.size l r')) n ∧
        (LlrbTree.fixUp (.node x c t.size l r')).toList = l.toList ++ x :: r'.toList := by
    intro l hl hr'
    rw [fixUp_of_right_black hl hr']
    exact ⟨.same hl hr', rfl⟩
  cases h with
  | same hl hr => exact hsame _ hl (hleftRed _ hr)
  | rotated hlt hl hr => exact hsame _ hl (hrightRed hlt _ hr)
  | @flipped e l r n hl hr =>
    obtain ⟨el, ll, lr, rfl, hll, hlr⟩ := hl.of_red
    obtain ⟨c', hr'⟩ := hred _ hr
    simp only [left_make]
    have hcolor : (make e c.opposite (make el .red ll lr) r).color = c.opposite := rfl
    rw [hcolor]
    cases c' with
    | black =>
      rw [fixUp_of_right_black hl hr']
      exact ⟨.flipped hl hr', rfl⟩
    | red =>
      obtain ⟨er, rl, rr, rfl, hrl, hrr⟩ := hr'.of_red
      rw [fixUp_of_both_red hll, Color.opposite_opposite]
      exact ⟨.same (.black hll hlr) (.black hrl hrr), rfl⟩

/-- What `InnerErase` does to the nodes it is called on. -/
structure Erases (V : Type) [Inhabited V] (key : K) (depth : Nat) : Prop where
  nil : (LlrbTree.nil .black : LlrbTree K V).innerErase depth key = .nil .black
  twoNode {e : K × V} {c : Color} {l r : LlrbTree K V} {n : Nat} : Balanced l .black n →
    Balanced r .black n → Fits (make e c l r) depth →
    Shrunk c ((make e c l r).innerErase depth key) n ∧
      ((make e c l r).innerErase depth key).toList =
        (make e c l r).toList.filter fun e => e.1 ≠ key
  leftRed {t : LlrbTree K V} {n : Nat} : LeftRed t n → Fits t depth →
    Balanced (t.innerErase depth key) .black n ∧
      (t.innerErase depth key).toList = t.toList.filter fun e => e.1 ≠ key
  rightRed {t : LlrbTree K V} {n : Nat} : RightRed key t n → Fits t depth →
    Balanced (t.innerErase depth key) .black n ∧
      (t.innerErase depth key).toList = t.toList.filter fun e => e.1 ≠ key

theorem Erases.red {key : K} (h : Erases V key depth)
    (ht : Balanced t .red n) (hfits : Fits t depth) :
    (∃ c', Balanced (t.innerErase depth key) c' n) ∧
      (t.innerErase depth key).toList = t.toList.filter fun e => e.1 ≠ key := by
  obtain ⟨e, l, r, rfl, hl, hr⟩ := ht.of_red
  obtain ⟨hshrunk, hlist⟩ := h.twoNode hl hr hfits
  exact ⟨hshrunk.of_red, hlist⟩

/-- The end of `InnerErase` at a node that is ready for a removal to the right. -/
def eraseAt (depth : Nat) (n : LlrbTree K V) (key : K) : LlrbTree K V :=
  if compare key n.entry.1 = .eq then
    if n.right.empty then .nil .black
    else fixUp (.node (n.right.min depth).entry n.color n.size n.left (n.right.removeMin depth))
  else fixUp (.node n.entry n.color n.size n.left (n.right.innerErase depth key))

theorem innerErase_make (hempty : (make e c l r).empty = false) (depth : Nat) (key : K) :
    (make e c l r).innerErase (depth + 1) key =
      if key < e.1 then
        ((make e c l r).readyLeft.setLeft
          ((make e c l r).readyLeft.left.innerErase depth key)).fixUp
      else (make e c l r).readyRight.eraseAt depth key := by
  have hentry : (make e c l r).entry = e := rfl
  rw [innerErase, if_neg (by simp [hempty])]
  simp only [compare_lt_iff_lt]
  rfl

section Step

variable {key : K} {depth : Nat} (ih : Erases V key depth)

include ih

/-- The removal to the right of a node that is ready for it. -/
theorem ReadyRight.eraseAt (h : ReadyRight key c t n)
    (hfits : Fits t (depth + 1)) (hkey : t.entry.1 ≤ key) : Shrunk c (t.eraseAt depth key) n ∧
      (t.eraseAt depth key).toList = t.toList.filter fun e => e.1 ≠ key := by
  obtain ⟨-, hfitsR, hle, her⟩ := hfits.split h.toList_eq
  have hbalanced : t.entry.1 = key → ∃ c' m, Balanced t.right c' m ∧ (c' = .red ∨ m ≠ 0) := by
    intro heq
    cases h with
    | same _ hr => exact ⟨_, _, hr.balanced, .inr (by cases hr; simp)⟩
    | rotated hlt => exact absurd heq hlt.ne
    | flipped _ hr => exact ⟨_, _, hr, .inl rfl⟩
  rw [LlrbTree.eraseAt]
  rcases hkey.eq_or_lt with heq | hlt
  · obtain ⟨c', m, hr, hne⟩ := hbalanced heq
    have hlist := hr.toList_eq_min hfitsR.size (hr.toList_ne_nil hne) hfitsR.depth
    have hempty := hr.empty_eq_false hfitsR.size (hr.toList_ne_nil hne)
    have hremoves : RemovesMin K V depth := removesMin depth
    obtain ⟨hshrunk, hlist'⟩ := h.fixUp (t.right.min depth).entry
      (fun m hm => (hremoves.red hm hfitsR.size hfitsR.depth).1)
      (fun m hm => (hremoves.leftRed hm hfitsR.size hfitsR.depth).1)
      (fun hlt => absurd heq hlt.ne)
    have htail : (t.right.removeMin depth).toList = t.right.toList.tail := by
      cases h with
      | same _ hr' => exact (hremoves.leftRed hr' hfitsR.size hfitsR.depth).2
      | rotated hlt => exact absurd heq hlt.ne
      | flipped _ hr' => exact (hremoves.red hr' hfitsR.size hfitsR.depth).2
    rw [if_pos (compare_eq_iff_eq.mpr heq.symm), if_neg (by simp [hempty])]
    refine ⟨hshrunk, ?_⟩
    rw [hlist', htail, ← hlist, h.toList_eq, ← heq, filter_ne_append_of_eq hle her]
  · rw [if_neg (by simp [hlt.ne'])]
    obtain ⟨hshrunk, hlist'⟩ := h.fixUp t.entry (fun m hm => (ih.red hm hfitsR).1)
      (fun m hm => (ih.leftRed hm hfitsR).1) (fun _ m hm => (ih.rightRed hm hfitsR).1)
    refine ⟨hshrunk, ?_⟩
    have herased : (t.right.innerErase depth key).toList =
        t.right.toList.filter fun e => e.1 ≠ key := by
      cases h with
      | same _ hr => exact (ih.leftRed hr hfitsR).2
      | rotated _ _ hr => exact (ih.rightRed hr hfitsR).2
      | flipped _ hr => exact (ih.red hr hfitsR).2
    rw [hlist', herased, h.toList_eq, filter_ne_append_of_gt hle hlt]

/-- The removal to the right of a black node whose right child is red. -/
theorem eraseAt_of_right_red (hl : Balanced l .black n) (hr : Balanced r .red n)
    (hfits : Fits (make e .black l r) (depth + 1)) (hkey : e.1 ≤ key) :
    Balanced ((make e .black l r).eraseAt depth key) .black (n + 1) ∧
      ((make e .black l r).eraseAt depth key).toList =
        (make e .black l r).toList.filter fun e => e.1 ≠ key := by
  obtain ⟨-, hfitsR, hle, her⟩ := hfits.split (toList_make e .black l r)
  have hentry : (make e .black l r).entry = e := rfl
  have hcolor : (make e .black l r).color = .black := rfl
  rw [eraseAt, hentry, hcolor, left_make, right_make, toList_make]
  rcases hkey.eq_or_lt with heq | hlt
  · have hlist := hr.toList_eq_min hfitsR.size (hr.toList_ne_nil (.inl rfl)) hfitsR.depth
    have hempty := hr.empty_eq_false hfitsR.size (hr.toList_ne_nil (.inl rfl))
    obtain ⟨⟨c', hr'⟩, htail⟩ := (removesMin depth).red hr hfitsR.size hfitsR.depth
    rw [if_pos (compare_eq_iff_eq.mpr heq.symm), if_neg (by simp [hempty])]
    obtain ⟨hbal, hlist'⟩ := hl.fixUp_black_of_left_black hr'
    refine ⟨hbal, ?_⟩
    rw [hlist', htail, ← hlist, ← heq, filter_ne_append_of_eq hle her]
  · rw [if_neg (by simp [hlt.ne'])]
    obtain ⟨⟨c', hr'⟩, herased⟩ := ih.red hr hfitsR
    obtain ⟨hbal, hlist'⟩ := hl.fixUp_black_of_left_black hr'
    refine ⟨hbal, ?_⟩
    rw [hlist', herased, filter_ne_append_of_gt hle hlt]

/-- A node over two black children. -/
theorem erases_twoNode (hl : Balanced l .black n) (hr : Balanced r .black n)
    (hfits : Fits (make e c l r) (depth + 1)) :
    Shrunk c ((make e c l r).innerErase (depth + 1) key) n ∧
      ((make e c l r).innerErase (depth + 1) key).toList =
        (make e c l r).toList.filter fun e => e.1 ≠ key := by
  obtain ⟨hfitsL, hfitsR, hle, her⟩ := hfits.split (toList_make e c l r)
  rw [innerErase_make (empty_make hfits.size hl hr)]
  split_ifs with hlt
  · cases n with
    | zero =>
      obtain rfl := hl.of_black_zero
      obtain rfl := hr.of_black_zero
      have hready : (make e c (nil .black) (nil .black)).readyLeft =
          make e c (nil .black) (nil .black) := rfl
      have hset : (make e c (nil .black) (nil .black)).setLeft (nil .black) =
          .node e c (sizeOver (nil .black) (nil .black)) (nil .black) (nil .black) := rfl
      rw [hready, left_make, ih.nil, hset, fixUp_of_right_black .nil .nil]
      exact ⟨.same .nil .nil, by simp [toList, hlt.ne']⟩
    | succ n =>
      obtain ⟨t, ht, hready, hlist, hentry⟩ := readyLeft_of_black hl hr (e := e) (c := c)
      have hempty := hl.empty_eq_false hfitsL.size (hl.toList_ne_nil (.inr (by simp)))
      have hreadyEq : (make e c l r).readyLeft = t := by
        rw [← ht, readyLeft]
        simp [hempty]
      obtain ⟨hfitsTL, -, -, hafter⟩ := (hfits.of_toList_eq hlist).split hready.toList_eq
      have hlt' : key < t.entry.1 := by
        rcases hentry with heq | hmem
        · rwa [heq]
        · exact hlt.trans (her _ hmem)
      rw [hreadyEq, toList_make, ← hlist]
      obtain ⟨hshrunk, hlist'⟩ := hready.fixUp (fun m hm => (ih.red hm hfitsTL).1)
        (fun m hm => (ih.leftRed hm hfitsTL).1)
      refine ⟨hshrunk, ?_⟩
      have herased : (t.left.innerErase depth key).toList =
          t.left.toList.filter fun e => e.1 ≠ key := by
        cases hready with
        | same hl _ => exact (ih.leftRed hl hfitsTL).2
        | flipped hl _ => exact (ih.red hl hfitsTL).2
      rw [hlist', herased, hready.toList_eq, filter_ne_append_of_lt hafter hlt']
  · have hkey := not_lt.mp hlt
    cases n with
    | zero =>
      obtain rfl := hl.of_black_zero
      obtain rfl := hr.of_black_zero
      have hready : (make e c (nil .black) (nil .black)).readyRight =
          make e c (nil .black) (nil .black) := rfl
      have hentry : (make e c (nil .black) (nil .black)).entry = e := rfl
      rw [hready, eraseAt, hentry]
      rcases hkey.eq_or_lt with heq | hlt
      · rw [if_pos (compare_eq_iff_eq.mpr heq.symm), if_pos (by rfl)]
        exact ⟨.gone, by simp [toList, heq]⟩
      · rw [if_neg (by simp [hlt.ne']), right_make, ih.nil, left_make,
          fixUp_of_right_black .nil .nil]
        exact ⟨.same .nil .nil, by simp [toList, hlt.ne]⟩
    | succ n =>
      obtain ⟨hready, hlist, hentry⟩ :=
        readyRight_of_black (c := c) hkey hl hr hle hfitsR.size
      rw [toList_make, ← hlist]
      exact hready.eraseAt ih (hfits.of_toList_eq hlist) hentry

/-- A black node with a red child to the left. -/
theorem erases_leftRed (h : LeftRed t n) (hfits : Fits t (depth + 1)) :
    Balanced (t.innerErase (depth + 1) key) .black n ∧
      (t.innerErase (depth + 1) key).toList = t.toList.filter fun e => e.1 ≠ key := by
  obtain @⟨e, l, r, n, hl, hr⟩ := h
  obtain ⟨hfitsL, -, hle, her⟩ := hfits.split (toList_make e .black l r)
  rw [innerErase_make (empty_make hfits.size hl hr)]
  split_ifs with hlt
  · have hready : (make e .black l r).readyLeft = make e .black l r := by
      simp [readyLeft, hl.red_eq]
    obtain ⟨⟨c', hl'⟩, herased⟩ := ih.red hl hfitsL
    have hfix := fixUp_of_right_black (e := e) (c := .black) (s := sizeOver l r) hl' hr
    have herase : ((make e .black l r).readyLeft.setLeft
        ((make e .black l r).readyLeft.left.innerErase depth key)).fixUp =
          make e .black (l.innerErase depth key) r := by
      rw [hready]
      exact hfix
    rw [herase]
    refine ⟨.black hl' hr, ?_⟩
    rw [toList_make, toList_make, herased, filter_ne_append_of_lt her hlt]
  · obtain ⟨el, ll, lr, rfl, hll, hlr⟩ := hl.of_red
    have hready : (make e .black (make el .red ll lr) r).readyRight =
        make el .black ll (make e .red lr r) := by
      simp [readyRight, rotateRight_make]
    have hlist : (make e .black (make el .red ll lr) r).toList =
        (make el .black ll (make e .red lr r)).toList := by simp
    have hkey : el.1 ≤ key := (hle el (by simp)).le.trans (not_lt.mp hlt)
    rw [hready, hlist]
    exact eraseAt_of_right_red ih hll (.red hlr hr) (hfits.of_toList_eq hlist.symm) hkey

/-- A black node with a red child to the right. -/
theorem erases_rightRed (h : RightRed key t n) (hfits : Fits t (depth + 1)) :
    Balanced (t.innerErase (depth + 1) key) .black n ∧
      (t.innerErase (depth + 1) key).toList = t.toList.filter fun e => e.1 ≠ key := by
  obtain @⟨e, l, r, n, hkey, hl, hr⟩ := h
  have hready : (make e .black l r).readyRight = make e .black l r := by
    simp [readyRight, hl.red_eq, hr.red_eq]
  rw [innerErase_make (empty_make hfits.size hl hr), if_neg hkey.not_gt, hready]
  exact eraseAt_of_right_red ih hl hr hfits hkey

end Step

theorem erases (key : K) (depth : Nat) : Erases V key depth := by
  induction depth with
  | zero =>
    exact ⟨rfl, fun _ _ h => absurd h.depth (by simp), fun _ h => absurd h.depth (by simp),
      fun _ h => absurd h.depth (by simp)⟩
  | succ depth ih =>
    exact ⟨rfl, erases_twoNode ih, erases_leftRed ih, erases_rightRed ih⟩

/-! ## Trees between operations -/

/-- `insert` keeps the balance and inserts; the stored size of the result is only right if
it fits. -/
theorem WellFormed.insert (h : WellFormed t) (key : K) (value : V) :
    (∃ n, Balanced (t.insert key value) .black n) ∧
      (t.insert key value).toList = OrdMap.insertEntry key value t.toList := by
  obtain ⟨n, hbalanced⟩ := h.balanced
  obtain ⟨hloose, -, hlist⟩ := hbalanced.innerInsert h.sorted h.small h.fits.depth key value
  obtain ⟨hblack, hlist'⟩ := hloose.fixRootColor
  exact ⟨hblack, hlist'.trans hlist⟩

/-- `erase` keeps the tree well-formed and removes the key. -/
theorem WellFormed.erase (h : WellFormed t) (key : K) :
    WellFormed (t.erase key) ∧ (t.erase key).toList = t.toList.filter fun e => e.1 ≠ key := by
  obtain ⟨n, hbalanced⟩ := h.balanced
  obtain ⟨hloose, hlist⟩ : (∃ m, Loose (t.innerErase (t.size + 1) key) m) ∧
      (t.innerErase (t.size + 1) key).toList = t.toList.filter fun e => e.1 ≠ key := by
    have herases := erases (V := V) key (t.size + 1)
    cases hbalanced with
    | nil => exact ⟨⟨0, .balanced .nil⟩, rfl⟩
    | @black e l r c n hl hr =>
      cases c with
      | black =>
        obtain ⟨hshrunk, hlist⟩ := herases.twoNode hl hr h.fits
        exact ⟨hshrunk.loose, hlist⟩
      | red =>
        obtain ⟨hblack, hlist⟩ := herases.leftRed (.mk hl hr) h.fits
        exact ⟨⟨_, .balanced hblack⟩, hlist⟩
  obtain ⟨m, hloose⟩ := hloose
  obtain ⟨hblack, hlist'⟩ := hloose.fixRootColor
  have hfinal : (t.erase key).toList = t.toList.filter fun e => e.1 ≠ key := hlist'.trans hlist
  refine ⟨⟨hblack, ?_, ?_⟩, hfinal⟩
  · rw [Sorted, hfinal]
    exact h.sorted.filter _
  · rw [hfinal]
    exact (length_filter_le _ _).trans_lt h.small

end Mutators

end LlrbTree

end Firebase.Firestore.Immutable
