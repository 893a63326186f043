import Firebase.Firestore.Immutable.LlrbTree
import Firebase.Lib.OrdMap

/-!
# Balance of left-leaning red-black trees

The trees that the code keeps to (`LlrbTree.Balanced`), what `FixUp` makes of a node whose
subtrees have changed, and that `InnerInsert` keeps the balance and inserts.

Stored sizes are part of the balance: they have 31 bits, so that a balanced tree can be told from an
empty one by its size only as long as it has fewer than `2 ^ 31` entries.
-/

namespace Firebase.Firestore.Immutable

namespace LlrbTree

open Lib OrdMap List

variable {K V : Type}

section

variable (e : K × V) (c : Color) (s : Nat)

@[simp] theorem size_node (l r : LlrbTree K V) : (node e c s l r).size = s := rfl

@[simp] theorem red_node (l r : LlrbTree K V) : (node e c s l r).red = (c == .red) := rfl

@[simp] theorem left_node (l r : LlrbTree K V) : (node e c s l r).left = l := rfl

@[simp] theorem right_node (l r : LlrbTree K V) : (node e c s l r).right = r := rfl

@[simp] theorem toList_node (l r : LlrbTree K V) :
    (node e c s l r).toList = l.toList ++ e :: r.toList := rfl

variable (l r : LlrbTree K V)

@[simp] theorem red_make : (make e c l r).red = (c == .red) := rfl

@[simp] theorem left_make : (make e c l r).left = l := rfl

@[simp] theorem right_make : (make e c l r).right = r := rfl

@[simp] theorem toList_make : (make e c l r).toList = l.toList ++ e :: r.toList := rfl

@[simp] theorem setColor_make (c c' : Color) (l r : LlrbTree K V) :
    (make e c l r).setColor c' = make e c' l r := rfl

end

/-! ## Shapes -/

/-- The trees that the code keeps to, with the color of the root and the black height.  Red nodes
have black children, right children are black, all paths have the same number of
black nodes, and the stored sizes are the ones that `Rep` computes. -/
inductive Balanced : LlrbTree K V → Color → Nat → Prop
  | nil : Balanced (.nil .black) .black 0
  | red {e : K × V} {l r : LlrbTree K V} {n : Nat} :
      Balanced l .black n → Balanced r .black n → Balanced (make e .red l r) .red n
  | black {e : K × V} {l r : LlrbTree K V} {c : Color} {n : Nat} :
      Balanced l c n → Balanced r .black n → Balanced (make e .black l r) .black (n + 1)

variable {t : LlrbTree K V} {c : Color} {n : Nat}

theorem Balanced.color_eq (h : Balanced t c n) : t.color = c := by
  cases h <;> rfl

theorem Balanced.red_eq (h : Balanced t c n) : t.red = (c == .red) := by
  rw [LlrbTree.red, h.color_eq]

/-- The children of a red node are black. -/
theorem Balanced.of_red (h : Balanced t .red n) :
    ∃ e l r, t = make e .red l r ∧ Balanced l .black n ∧ Balanced r .black n := by
  cases h with
  | red hl hr => exact ⟨_, _, _, rfl, hl, hr⟩

/-- A black node with something below it. -/
theorem Balanced.of_black_succ (h : Balanced t .black (n + 1)) :
    ∃ e l r c, t = make e .black l r ∧ Balanced l c n ∧ Balanced r .black n := by
  cases h with
  | black hl hr => exact ⟨_, _, _, _, rfl, hl, hr⟩

theorem Balanced.of_black_zero (h : Balanced t .black 0) : t = .nil .black := by
  cases h
  rfl

theorem Balanced.left_black (h : Balanced t .red n) : t.left.red = false := by
  obtain ⟨e, l, r, rfl, hl, -⟩ := h.of_red
  exact hl.red_eq

/-- The stored size of a balanced tree. -/
theorem Balanced.size_eq (h : Balanced t c n) : t.size = t.toList.length % sizeLimit := by
  induction h with
  | nil => rfl
  | red _ _ ihl ihr | black _ _ ihl ihr =>
    simp only [make, size_node, sizeOver, toList_node, length_append, length_cons, ihl,
      ihr, sizeLimit]
    omega

theorem Balanced.empty_eq (h : Balanced t c n)
    (hsize : t.toList.length < sizeLimit) : t.empty = t.toList.isEmpty := by
  rw [LlrbTree.empty, h.size_eq, Nat.mod_eq_of_lt hsize]
  cases t.toList <;> rfl

/-- A tree that may have a red child under its red root, to the left. -/
inductive Loose : LlrbTree K V → Nat → Prop
  | balanced {t : LlrbTree K V} {c : Color} {n : Nat} : Balanced t c n → Loose t n
  | redRed {e : K × V} {l r : LlrbTree K V} {n : Nat} :
      Balanced l .red n → Balanced r .black n → Loose (make e .red l r) n

/-- Painting the root black repairs it. -/
theorem Loose.fixRootColor [Inhabited K] [Inhabited V] (h : Loose t n) :
    (∃ n', Balanced t.fixRootColor .black n') ∧ t.fixRootColor.toList = t.toList := by
  cases h with
  | balanced h =>
    cases h with
    | nil => exact ⟨⟨0, .nil⟩, rfl⟩
    | red hl hr => exact ⟨⟨_, .black hl hr⟩, rfl⟩
    | black hl hr => exact ⟨⟨_, .black hl hr⟩, rfl⟩
  | redRed hl hr => exact ⟨⟨_, .black hl hr⟩, rfl⟩

section Mutators

variable [Inhabited K] [Inhabited V]

/-! ## Repairs

What `FixUp` makes of a node with a stale size over two repaired subtrees, by the colors of the
subtrees. -/

variable {e er el : K × V} {c : Color} {s n : Nat} {l r ll lr rl rr : LlrbTree K V}

omit [Inhabited K] [Inhabited V] in
theorem sizeOver_rotate (e er : K × V) (c c' : Color) (l rl rr : LlrbTree K V) :
    sizeOver l (make er c rl rr) = sizeOver (make e c' l rl) rr := by
  simp only [sizeOver, make, size_node, sizeLimit]
  omega

theorem rotateLeft_make {c' : Color} : (make e c l (make er c' rl rr)).rotateLeft =
    make er c (make e .red l rl) rr :=
  congrArg (fun s => node er c s (make e .red l rl) rr) (sizeOver_rotate e er c' .red l rl rr)

theorem rotateRight_make {c' : Color} : (make e c (make el c' ll lr) r).rotateRight =
    make el c ll (make e .red lr r) :=
  congrArg (fun s => node el c s ll (make e .red lr r)) (sizeOver_rotate el e .red c' ll lr r).symm

variable {cl cr : Color}

theorem flipColor_make : (make e c (make el cl ll lr) (make er cr rl rr)).flipColor =
      make e c.opposite (make el cl.opposite ll lr) (make er cr.opposite rl rr) := rfl

theorem fixUp_node : fixUp (.node e c s l r) = (make e c l r).leanLeft.splitReds.liftReds := rfl

/-- Two black children, or a red one to the left: nothing but the size changes. -/
theorem fixUp_of_right_black {cl : Color} (hl : Balanced l cl n) (hr : Balanced r .black n) :
    fixUp (.node e c s l r) = make e c l r := by
  have hll : (l.red && l.left.red) = false := by
    cases cl with
    | black => simp [hl.red_eq]
    | red => simp [hl.left_black]
  simp [fixUp_node, leanLeft, splitReds, liftReds, hr.red_eq, hll]

/-- A red child to the right only: the node is rotated. -/
theorem fixUp_of_right_red (hl : Balanced l .black n) (hrr : Balanced rr .black n) :
    fixUp (.node e c s l (make er .red rl rr)) = make er c (make e .red l rl) rr := by
  have hlean : (make e c l (make er .red rl rr)).leanLeft = make er c (make e .red l rl) rr := by
    simp [leanLeft, hl.red_eq, rotateLeft_make]
  simp [fixUp_node, hlean, splitReds, liftReds, hl.red_eq, hrr.red_eq]

/-- Two red children: their color moves up. -/
theorem fixUp_of_both_red (hll : Balanced ll .black n) :
    fixUp (.node e c s (make el .red ll lr) (make er .red rl rr)) =
      make e c.opposite (make el .black ll lr) (make er .black rl rr) := by
  simp [fixUp_node, leanLeft, splitReds, liftReds, hll.red_eq, flipColor_make]

/-- Two red nodes in a row to the left: the node is rotated and the color moves up. -/
theorem fixUp_of_left_redRed {ell : K × V} {lll llr : LlrbTree K V} :
    fixUp (.node e c s (make el .red (make ell .red lll llr) lr) r) =
      make el c.opposite (make ell .black lll llr) (make e .black lr r) := by
  simp [fixUp_node, leanLeft, splitReds, liftReds, rotateRight_make, flipColor_make]

/-- A black node over a loose left subtree. -/
theorem Loose.fixUp_black_left (hl : Loose l n) (hr : Balanced r .black n) :
    (∃ c', Balanced (fixUp (.node e .black s l r)) c' (n + 1)) ∧
      (fixUp (.node e .black s l r)).toList = l.toList ++ e :: r.toList := by
  cases hl with
  | balanced hl =>
    rw [fixUp_of_right_black hl hr]
    exact ⟨⟨_, .black hl hr⟩, rfl⟩
  | redRed hll hlr =>
    obtain ⟨ell, lll, llr, rfl, hlll, hllr⟩ := hll.of_red
    rw [fixUp_of_left_redRed]
    exact ⟨⟨_, .red (.black hlll hllr) (.black hlr hr)⟩, by simp⟩

/-- A black node keeps its color and its balance if its left child is black. -/
theorem Balanced.fixUp_black_of_left_black {cr : Color} (hl : Balanced l .black n)
    (hr : Balanced r cr n) : Balanced (fixUp (.node e .black s l r)) .black (n + 1) ∧
      (fixUp (.node e .black s l r)).toList = l.toList ++ e :: r.toList := by
  cases cr with
  | black =>
    rw [fixUp_of_right_black hl hr]
    exact ⟨.black hl hr, rfl⟩
  | red =>
    obtain ⟨er, rl, rr, rfl, hrl, hrr⟩ := hr.of_red
    rw [fixUp_of_right_red hl hrr]
    exact ⟨.black (.red hl hrl) hrr, by simp⟩

/-- A node over a balanced right subtree that has become red. -/
theorem Balanced.fixUp_black_right (hl : Balanced l cl n) (hr : Balanced r cr n) :
    (∃ c', Balanced (fixUp (.node e .black s l r)) c' (n + 1)) ∧
      (fixUp (.node e .black s l r)).toList = l.toList ++ e :: r.toList := by
  cases cl with
  | black => exact (hl.fixUp_black_of_left_black hr).imp_left fun h => ⟨_, h⟩
  | red =>
    cases cr with
    | black =>
      rw [fixUp_of_right_black hl hr]
      exact ⟨⟨_, .black hl hr⟩, rfl⟩
    | red =>
      obtain ⟨er, rl, rr, rfl, hrl, hrr⟩ := hr.of_red
      obtain ⟨el, ll, lr, rfl, hll, hlr⟩ := hl.of_red
      rw [fixUp_of_both_red hll]
      exact ⟨⟨_, .red (.black hll hlr) (.black hrl hrr)⟩, by simp⟩

/-- A red node one of whose children may have become red. -/
theorem Balanced.fixUp_red (hl : Balanced l cl n) (hr : Balanced r cr n)
    (hblack : cl = .black ∨ cr = .black) : Loose (fixUp (.node e .red s l r)) n ∧
      (fixUp (.node e .red s l r)).toList = l.toList ++ e :: r.toList := by
  cases cr with
  | black =>
    rw [fixUp_of_right_black hl hr]
    cases cl with
    | black => exact ⟨.balanced (.red hl hr), rfl⟩
    | red => exact ⟨.redRed hl hr, rfl⟩
  | red =>
    obtain rfl : cl = .black := hblack.resolve_right (by simp)
    obtain ⟨er, rl, rr, rfl, hrl, hrr⟩ := hr.of_red
    rw [fixUp_of_right_red hl hrr]
    exact ⟨.redRed (.red hl hrl) hrr, by simp⟩

/-! ## Insertion -/

variable [LinearOrder K]

/-- Entries in strictly ascending order of keys. -/
def Sorted (t : LlrbTree K V) : Prop :=
  t.toList.Pairwise fun a b => a.1 < b.1

omit [Inhabited K] [Inhabited V] in
theorem sorted_node {s : Nat} : (node e c s l r).Sorted ↔ l.Sorted ∧ r.Sorted ∧
    (∀ x ∈ l.toList, x.1 < e.1) ∧ (∀ x ∈ r.toList, e.1 < x.1) := by
  rw [Sorted, toList_node, pairwise_append, pairwise_cons]
  constructor
  · rintro ⟨hl, ⟨her, hr⟩, hlr⟩
    exact ⟨hl, hr, fun x hx => hlr x hx e (by simp), her⟩
  · rintro ⟨hl, hr, hle, her⟩
    refine ⟨hl, ⟨her, hr⟩, fun x hx y hy => ?_⟩
    rcases mem_cons.mp hy with rfl | hy
    · exact hle x hx
    · exact (hle x hx).trans (her y hy)

omit [Inhabited K] [Inhabited V] [LinearOrder K] in
theorem empty_make (hsize : (make e c l r).toList.length < sizeLimit)
    {m : Nat} (hl : Balanced l cl n) (hr : Balanced r cr m) : (make e c l r).empty = false := by
  simp only [toList_make, length_append, length_cons, sizeLimit] at hsize
  simp only [LlrbTree.empty, make, size_node, sizeOver, hl.size_eq, hr.size_eq, sizeLimit,
    beq_eq_false_iff_ne]
  omega

/-- One step of `InnerInsert` at a node. -/
theorem innerInsert_make (hempty : (make e c l r).empty = false) (depth : Nat) (key : K)
    (value : V) : (make e c l r).innerInsert (depth + 1) key value =
      if key < e.1 then fixUp (.node e c (sizeOver l r) (l.innerInsert depth key value) r)
      else if e.1 < key then fixUp (.node e c (sizeOver l r) l (r.innerInsert depth key value))
      else make (e.1, value) c l r := by
  have hentry : (make e c l r).entry = e := rfl
  rw [LlrbTree.innerInsert, if_neg (by simp [hempty]), hentry]
  rcases lt_trichotomy key e.1 with hlt | heq | hlt
  · rw [compare_gt_iff_gt.mpr hlt, if_pos hlt]
    rfl
  · rw [compare_eq_iff_eq.mpr heq.symm, if_neg heq.not_lt, if_neg heq.symm.not_lt]
    rfl
  · rw [compare_lt_iff_lt.mpr hlt, if_neg hlt.not_gt, if_pos hlt]
    rfl

/-- Into a black node insertion keeps the black height and the balance; into a red one it may leave
two red nodes in a row for the node above. -/
theorem Balanced.innerInsert {t : LlrbTree K V} (h : Balanced t c n) (hsorted : t.Sorted)
    (hsize : t.toList.length < sizeLimit) {depth : Nat} (hdepth : t.toList.length < depth) (key : K)
    (value : V) : Loose (t.innerInsert depth key value) n ∧
      (c = .black → ∃ c', Balanced (t.innerInsert depth key value) c' n) ∧
      (t.innerInsert depth key value).toList = OrdMap.insertEntry key value t.toList := by
  induction h generalizing depth with
  | nil =>
    obtain ⟨depth, rfl⟩ : ∃ d, depth = d + 1 := ⟨depth - 1, by omega⟩
    exact ⟨.balanced (.red .nil .nil), fun _ => ⟨_, .red .nil .nil⟩, rfl⟩
  | @red e l r n hl hr ihl ihr =>
    obtain ⟨depth, rfl⟩ : ∃ d, depth = d + 1 := ⟨depth - 1, by omega⟩
    obtain ⟨hsl, hsr, hle, her⟩ := sorted_node.mp hsorted
    rw [innerInsert_make (empty_make hsize hl hr)]
    simp only [toList_make, length_append, length_cons] at hsize hdepth ⊢
    split_ifs with hlt hgt
    · obtain ⟨-, hbal, hlist⟩ := ihl hsl (by omega) (show l.toList.length < depth by omega)
      obtain ⟨c', hbal⟩ := hbal rfl
      obtain ⟨hloose, hlist'⟩ := hbal.fixUp_red hr (.inr rfl)
      refine ⟨hloose, nofun, ?_⟩
      rw [hlist', hlist, insertEntry_append_of_lt hlt]
    · obtain ⟨-, hbal, hlist⟩ := ihr hsr (by omega) (show r.toList.length < depth by omega)
      obtain ⟨c', hbal⟩ := hbal rfl
      obtain ⟨hloose, hlist'⟩ := hl.fixUp_red hbal (.inl rfl)
      refine ⟨hloose, nofun, ?_⟩
      rw [hlist', hlist, insertEntry_append_of_gt hle hgt]
    · obtain rfl : key = e.1 := le_antisymm (not_lt.mp hgt) (not_lt.mp hlt)
      refine ⟨.balanced (.red hl hr), nofun, ?_⟩
      rw [insertEntry_append_of_eq hle, toList_make]
  | @black e l r cl n hl hr ihl ihr =>
    obtain ⟨depth, rfl⟩ : ∃ d, depth = d + 1 := ⟨depth - 1, by omega⟩
    obtain ⟨hsl, hsr, hle, her⟩ := sorted_node.mp hsorted
    rw [innerInsert_make (empty_make hsize hl hr)]
    simp only [toList_make, length_append, length_cons] at hsize hdepth ⊢
    split_ifs with hlt hgt
    · obtain ⟨hloose, -, hlist⟩ := ihl hsl (by omega) (show l.toList.length < depth by omega)
      obtain ⟨⟨c', hbal⟩, hlist'⟩ := hloose.fixUp_black_left hr
      refine ⟨.balanced hbal, fun _ => ⟨c', hbal⟩, ?_⟩
      rw [hlist', hlist, insertEntry_append_of_lt hlt]
    · obtain ⟨-, hbal, hlist⟩ := ihr hsr (by omega) (show r.toList.length < depth by omega)
      obtain ⟨c', hbal⟩ := hbal rfl
      obtain ⟨⟨c', hbal⟩, hlist'⟩ := hl.fixUp_black_right hbal
      refine ⟨.balanced hbal, fun _ => ⟨c', hbal⟩, ?_⟩
      rw [hlist', hlist, insertEntry_append_of_gt hle hgt]
    · obtain rfl : key = e.1 := le_antisymm (not_lt.mp hgt) (not_lt.mp hlt)
      refine ⟨.balanced (.black hl hr), fun _ => ⟨_, .black hl hr⟩, ?_⟩
      rw [insertEntry_append_of_eq hle, toList_make]

end Mutators

end LlrbTree

end Firebase.Firestore.Immutable
