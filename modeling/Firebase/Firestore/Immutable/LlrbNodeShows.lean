import Firebase.Firestore.Immutable.LlrbNode

/-!
# Nodes and the trees they show

`Heap.Shows h o p t` says that the node at the address `p` shows the tree `t` when its links are
followed, and that no address in `o` is met on the way.  `Heap.Fresh` is a node that a running
method has made for itself.

Every method writes to fresh nodes only, and does to the tree they show what the function of the
same name in `LlrbTree` does.
-/

namespace Firebase.Firestore.Immutable

open Lib
open Set (empty_subset)

variable {K V : Type} [Inhabited K] [Inhabited V] {q : LlrbNode} {l r : LlrbTree K V}

namespace Heap

/-! ## What nodes show -/

/-- The node shows the tree, without any node whose address is in `o`. -/
inductive Shows (h : Heap K V) (o : Set Nat) : LlrbNode → LlrbTree K V → Prop
  | nil {p : LlrbNode} {c : Color} : p < h.next → p ∉ o →
      h.get p = ⟨default, c, 0, emptyNode, emptyNode⟩ → Shows h o p (.nil c)
  | node {p pl pr : LlrbNode} {e : K × V} {c : Color} {s : Nat} {l r : LlrbTree K V} :
      p < h.next → p ∉ o → h.get p = ⟨e, c, s, pl, pr⟩ → Shows h o pl l → Shows h o pr r →
      Shows h o p (.node e c s l r)

/-- The addresses in `o` are in use, and the empty node is not one of them. -/
structure Frame (h : Heap K V) (o : Set Nat) : Prop where
  pos : emptyNode < h.next
  rep : h.get emptyNode = emptyRep
  notMem : emptyNode ∉ o
  used : ∀ p ∈ o, p < h.next

variable {h h' h₀ : Heap K V} {o : Set Nat} {p : LlrbNode} {t : LlrbTree K V}

theorem frame_start : Frame (start : Heap K V) ∅ :=
  ⟨Nat.one_pos, rfl, by simp, by simp⟩

theorem Frame.shows_emptyNode (hf : Frame h o) : Shows h o emptyNode (.nil .black) :=
  .nil hf.pos hf.notMem hf.rep

theorem Frame.next_notMem (hf : Frame h o) : h.next ∉ o :=
  fun hmem => lt_irrefl _ (hf.used _ hmem)

theorem Frame.mono (hf : Frame h o) {w : Set Nat} (hext : h.Extends h' w) (hw : w ⊆ o) :
    Frame h' o := by
  refine ⟨hf.pos.trans_le hext.next_le, ?_, hf.notMem,
    fun p hmem => (hf.used p hmem).trans_le hext.next_le⟩
  rw [hext.get_eq _ hf.pos fun hmem => hf.notMem (hw hmem), hf.rep]

section

variable (hs : Shows h o p t)

include hs

theorem Shows.lt_next : p < h.next := by
  cases hs <;> assumption

/-- Writing to the addresses that are left out changes nothing. -/
theorem Shows.mono {w : Set Nat} (hext : h.Extends h' w) (hw : w ⊆ o) : Shows h' o p t := by
  induction hs with
  | nil hlt hp hrep =>
    exact .nil (hlt.trans_le hext.next_le) hp ((hext.get_eq _ hlt fun hmem => hp (hw hmem)).trans
      hrep)
  | node hlt hp hrep _ _ ihl ihr =>
    exact .node (hlt.trans_le hext.next_le) hp
      ((hext.get_eq _ hlt fun hmem => hp (hw hmem)).trans hrep) ihl ihr

theorem Shows.anti {o' : Set Nat} (ho : o' ⊆ o) : Shows h o' p t := by
  induction hs with
  | nil hlt hp hrep => exact .nil hlt (fun hmem => hp (ho hmem)) hrep
  | node hlt hp hrep _ _ ihl ihr => exact .node hlt (fun hmem => hp (ho hmem)) hrep ihl ihr

/-- An address that is not in use yet cannot occur. -/
theorem Shows.avoid (hq : h.next ≤ q) : Shows h (Insert.insert q o) p t := by
  have hne : ∀ {p}, p < h.next → p ∉ o → p ∉ Insert.insert q o := by
    rintro p hlt hp (rfl | hmem)
    · exact absurd hlt (not_lt.mpr hq)
    · exact hp hmem
  induction hs with
  | nil hlt hp hrep => exact .nil hlt (hne hlt hp) hrep
  | node hlt hp hrep _ _ ihl ihr => exact .node hlt (hne hlt hp) hrep ihl ihr

theorem Shows.entry_eq : (h.get p).entry = t.entry := by
  cases hs with
  | nil _ _ hrep | node _ _ hrep => rw [hrep]; rfl

theorem Shows.color_eq : (h.get p).color = t.color := by
  cases hs with
  | nil _ _ hrep | node _ _ hrep => rw [hrep]; rfl

theorem Shows.size_eq : h.size p = t.size := by
  cases hs with
  | nil _ _ hrep | node _ _ hrep => rw [size, hrep]; rfl

theorem Shows.red_eq : h.red p = t.red := by
  rw [red, hs.color_eq, LlrbTree.red]

theorem Shows.empty_eq : h.empty p = t.empty := by
  rw [empty, hs.size_eq, LlrbTree.empty]

theorem Shows.left (hf : Frame h o) : Shows h o (h.left p) t.left := by
  cases hs with
  | nil _ _ hrep => rw [Heap.left, hrep]; exact hf.shows_emptyNode
  | node _ _ hrep hl _ => rw [Heap.left, hrep]; exact hl

theorem Shows.right (hf : Frame h o) : Shows h o (h.right p) t.right := by
  cases hs with
  | nil _ _ hrep => rw [Heap.right, hrep]; exact hf.shows_emptyNode
  | node _ _ hrep _ hr => rw [Heap.right, hrep]; exact hr

end

/-! ## Nodes that have just been made -/

/-- The node was made after `h₀`, nothing that was there in `h₀` has been written to since, and it
shows the tree, itself not being part of its subtrees. -/
structure Fresh (h₀ h : Heap K V) (o : Set Nat) (p : LlrbNode) (t : LlrbTree K V) : Prop where
  ext : h₀.Extends h ∅
  le : h₀.next ≤ p
  lt : p < h.next
  frame : Frame h (Insert.insert p o)
  notMem : p ∉ o
  entry : (h.get p).entry = t.entry
  color : (h.get p).color = t.color
  size : (h.get p).size = t.size
  left : Shows h (Insert.insert p o) (h.left p) t.left
  right : Shows h (Insert.insert p o) (h.right p) t.right

/-- Other changes leave the node alone. -/
theorem Fresh.mono (hp : Fresh h₀ h o p t) (hext : h.Extends h' ∅) : Fresh h₀ h' o p t := by
  have hget : h'.get p = h.get p := hext.get_eq p hp.lt (by simp)
  refine ⟨hp.ext.trans hext (by simp), hp.le, hp.lt.trans_le hext.next_le,
    hp.frame.mono hext (empty_subset _), hp.notMem, ?_, ?_, ?_, ?_, ?_⟩
  · rw [hget, hp.entry]
  · rw [hget, hp.color]
  · rw [hget, hp.size]
  · rw [Heap.left, hget]
    exact hp.left.mono hext (empty_subset _)
  · rw [Heap.right, hget]
    exact hp.right.mono hext (empty_subset _)

/-- A change of the node itself. -/
theorem Fresh.modify (hp : Fresh h₀ h o p t) {f : Rep K V → Rep K V} {t' : LlrbTree K V}
    (hentry : (f (h.get p)).entry = t'.entry) (hcolor : (f (h.get p)).color = t'.color)
    (hsize : (f (h.get p)).size = t'.size)
    (hleft : Shows h (Insert.insert p o) (f (h.get p)).left t'.left)
    (hright : Shows h (Insert.insert p o) (f (h.get p)).right t'.right) :
    Fresh h₀ (h.modify p f) o p t' := by
  have hext := Cells.extends_modify h p f
  have hget := Cells.get_modify_self hp.lt f
  have hw : ({p}) ⊆ Insert.insert p o := by simp
  refine ⟨hp.ext.trans hext ?_, hp.le, by simpa using hp.lt, hp.frame.mono hext hw, hp.notMem,
    by rwa [hget], by rwa [hget], by rwa [hget], ?_, ?_⟩
  · rintro q hlt rfl
    exact absurd hp.le (not_le.mpr hlt)
  · rw [Heap.left, hget]
    exact hleft.mono hext hw
  · rw [Heap.right, hget]
    exact hright.mono hext hw

/-- In the end it is a node like the others. -/
theorem Fresh.shows {e : K × V} {c : Color} {s : Nat}
    (hp : Fresh h₀ h o p (.node e c s l r)) : Shows h o p (.node e c s l r) := by
  have hrep : h.get p = ⟨e, c, s, h.left p, h.right p⟩ := by
    rw [← show (h.get p).entry = e from hp.entry, ← show (h.get p).color = c from hp.color,
      ← show (h.get p).size = s from hp.size]
    rfl
  exact .node hp.lt hp.notMem hrep (hp.left.anti (Set.subset_insert _ _))
    (hp.right.anti (Set.subset_insert _ _))

/-- A node that has been made of two others. -/
theorem Frame.alloc (hf : Frame h o) {rep : Rep K V} (hentry : rep.entry = t.entry)
    (hcolor : rep.color = t.color) (hsize : rep.size = t.size) (hleft : Shows h o rep.left t.left)
    (hright : Shows h o rep.right t.right) :
    Fresh h (Cells.alloc h rep).2 o (Cells.alloc h rep).1 t := by
  have hext : h.Extends (Cells.alloc h rep).2 ∅ := Cells.extends_alloc h _ _
  have hget : (Cells.alloc h rep).2.get (Cells.alloc h rep).1 = rep := Cells.get_alloc_next h _
  have hframe := hf.mono hext (empty_subset _)
  have hlt : (Cells.alloc h rep).1 < (Cells.alloc h rep).2.next := by
    rw [Cells.next_alloc]
    exact Nat.lt_succ_self _
  refine ⟨hext, le_rfl, hlt, ⟨hframe.pos, hframe.rep, ?_, ?_⟩, hf.next_notMem, ?_, ?_, ?_, ?_, ?_⟩
  · rintro (heq | hmem)
    · exact absurd hf.pos (heq ▸ lt_irrefl _)
    · exact hf.notMem hmem
  · rintro q (rfl | hmem)
    · exact hlt
    · exact hframe.used q hmem
  · rw [hget, hentry]
  · rw [hget, hcolor]
  · rw [hget, hsize]
  · rw [Heap.left, hget]
    exact (hleft.avoid le_rfl).mono hext (empty_subset _)
  · rw [Heap.right, hget]
    exact (hright.avoid le_rfl).mono hext (empty_subset _)

/-- A copy of a node. -/
theorem Shows.clone (hs : Shows h o p t) (hf : Frame h o) :
    Fresh h (h.clone p).2 o (h.clone p).1 t :=
  hf.alloc hs.entry_eq hs.color_eq hs.size_eq (hs.left hf) (hs.right hf)

theorem Frame.newNode (hf : Frame h o) {pl pr : LlrbNode}
    (hl : Shows h o pl l) (hr : Shows h o pr r) (e : K × V) (c : Color) :
    Fresh h (h.newNode e c pl pr).2 o (h.newNode e c pl pr).1 (.make e c l r) := by
  refine hf.alloc rfl rfl ?_ hl hr
  rw [sizeOver, hl.size_eq, hr.size_eq]
  rfl

/-- A copy in the opposite color, also of the empty node. -/
theorem Shows.cloneOpposite (hs : Shows h o p t) (hf : Frame h o) :
    h.Extends (h.cloneOpposite p).2 ∅ ∧
      Shows (h.cloneOpposite p).2 o (h.cloneOpposite p).1 (t.setColor t.color.opposite) := by
  have hfresh := hs.clone hf
  have hext : (h.clone p).2.Extends (h.cloneOpposite p).2 {(h.clone p).1} :=
    Cells.extends_modify _ _ _
  have hlt : (h.clone p).1 < (h.cloneOpposite p).2.next := hfresh.lt.trans_le hext.next_le
  have hcopy : (h.clone p).2.get (h.clone p).1 = h.get p := Cells.get_alloc_next h _
  have hget : (h.cloneOpposite p).2.get (h.cloneOpposite p).1 =
      ⟨(h.get p).entry, (h.get p).color.opposite, (h.get p).size, (h.get p).left,
        (h.get p).right⟩ := by
    refine (Cells.get_modify_self hfresh.lt _).trans ?_
    rw [hcopy]
  have hext' : h.Extends (h.cloneOpposite p).2 ∅ := by
    refine hfresh.ext.trans hext ?_
    rintro q hlt rfl
    exact absurd hfresh.le (not_le.mpr hlt)
  refine ⟨hext', ?_⟩
  cases hs with
  | nil _ _ hrep => exact .nil hlt hfresh.notMem (by rw [hget, hrep]; rfl)
  | node _ _ hrep hl hr =>
    exact .node hlt hfresh.notMem (by rw [hget, hrep]; rfl) (hl.mono hext' (empty_subset _))
      (hr.mono hext' (empty_subset _))

/-! ## Methods that write to a node -/

section Mutators

variable (hp : Fresh h₀ h o p t)

include hp

theorem Fresh.setEntry (e : K × V) : Fresh h₀ (h.setEntry p e) o p (t.setEntry e) :=
  hp.modify rfl hp.color hp.size hp.left hp.right

theorem Fresh.setValue (v : V) : Fresh h₀ (h.setValue p v) o p (t.setValue v) :=
  hp.modify (by rw [hp.entry]; rfl) hp.color hp.size hp.left hp.right

theorem Fresh.setLeft {l : LlrbTree K V} (hl : Shows h (Insert.insert p o) q l) :
    Fresh h₀ (h.setLeft p q) o p (t.setLeft l) :=
  hp.modify hp.entry hp.color hp.size hl hp.right

theorem Fresh.setRight {r : LlrbTree K V} (hr : Shows h (Insert.insert p o) q r) :
    Fresh h₀ (h.setRight p q) o p (t.setRight r) :=
  hp.modify hp.entry hp.color hp.size hp.left hr

theorem Fresh.setColor (c : Color) :
    Fresh h₀ (h.setColor p c) o p (.node t.entry c t.size t.left t.right) :=
  hp.modify hp.entry rfl hp.size hp.left hp.right

theorem Fresh.setSize :
    Fresh h₀ (h.setSize p (h.sizeOver (h.left p) (h.right p))) o p t.setSize := by
  refine hp.modify hp.entry hp.color ?_ hp.left hp.right
  rw [sizeOver, hp.left.size_eq, hp.right.size_eq]
  rfl

omit hp in
/-- What other nodes show while the node is written to. -/
theorem Shows.modify {q : LlrbNode} {t' : LlrbTree K V} (hs : Shows h (Insert.insert p o) q t')
    (f : Rep K V → Rep K V) : Shows (Cells.modify h p f) (Insert.insert p o) q t' :=
  hs.mono (Cells.extends_modify h p f) (by simp)

theorem Fresh.rotateLeft : Fresh h₀ (h.rotateLeft p) o p t.rotateLeft := by
  have hnew := hp.frame.newNode hp.left (hp.right.left hp.frame) (h.get p).entry .red
  rw [Heap.rotateLeft, LlrbTree.rotateLeft, ← hp.entry]
  generalize h.newNode _ _ _ _ = new at hnew ⊢
  obtain ⟨q, h₁⟩ := new
  have hp₁ := hp.mono hnew.ext
  rw [← hp₁.right.entry_eq]
  have hp₂ := hp₁.setEntry (h₁.get (h₁.right p)).entry
  have hp₃ := hp₂.setLeft (hnew.shows.modify _)
  exact hp₃.setRight (hp₃.right.right hp₃.frame)

theorem Fresh.rotateRight : Fresh h₀ (h.rotateRight p) o p t.rotateRight := by
  have hnew := hp.frame.newNode (hp.left.right hp.frame) hp.right (h.get p).entry .red
  rw [Heap.rotateRight, LlrbTree.rotateRight, ← hp.entry]
  generalize h.newNode _ _ _ _ = new at hnew ⊢
  obtain ⟨q, h₁⟩ := new
  have hp₁ := hp.mono hnew.ext
  rw [← hp₁.left.entry_eq]
  have hp₂ := hp₁.setEntry (h₁.get (h₁.left p)).entry
  have hp₃ := hp₂.setLeft (hp₂.left.left hp₂.frame)
  exact hp₃.setRight ((hnew.shows.modify _).modify _)

theorem Fresh.flipColor : Fresh h₀ (h.flipColor p) o p t.flipColor := by
  obtain ⟨hext₁, hleft⟩ := hp.left.cloneOpposite hp.frame
  rw [Heap.flipColor, LlrbTree.flipColor]
  generalize h.cloneOpposite (h.left p) = new at hext₁ hleft ⊢
  obtain ⟨q, h₁⟩ := new
  have hp₁ := hp.mono hext₁
  obtain ⟨hext₂, hright⟩ := hp₁.right.cloneOpposite hp₁.frame
  simp only
  generalize h₁.cloneOpposite (h₁.right p) = new at hext₂ hright ⊢
  obtain ⟨q', h₂⟩ := new
  have hp₂ := hp₁.mono hext₂
  rw [← hp₂.color]
  have hp₃ := hp₂.setColor (h₂.get p).color.opposite
  have hp₄ := hp₃.setLeft ((hleft.mono hext₂ (empty_subset _)).modify _)
  exact hp₄.setRight ((hright.modify _).modify _)

theorem Fresh.leanLeft : Fresh h₀
    (if h.red (h.right p) && !h.red (h.left p) then h.rotateLeft p else h) o p t.leanLeft := by
  rw [hp.right.red_eq, hp.left.red_eq, LlrbTree.leanLeft]
  split_ifs
  · exact hp.rotateLeft
  · exact hp

theorem Fresh.splitReds : Fresh h₀
    (if h.red (h.left p) && h.red (h.left (h.left p)) then h.rotateRight p else h) o p
      t.splitReds := by
  rw [hp.left.red_eq, (hp.left.left hp.frame).red_eq, LlrbTree.splitReds]
  split_ifs
  · exact hp.rotateRight
  · exact hp

theorem Fresh.liftReds : Fresh h₀
    (if h.red (h.left p) && h.red (h.right p) then h.flipColor p else h) o p t.liftReds := by
  rw [hp.left.red_eq, hp.right.red_eq, LlrbTree.liftReds]
  split_ifs
  · exact hp.flipColor
  · exact hp

theorem Fresh.fixUp : Fresh h₀ (h.fixUp p) o p t.fixUp :=
  hp.setSize.leanLeft.splitReds.liftReds

theorem Fresh.moveRedLeft : Fresh h₀ (h.moveRedLeft p) o p t.moveRedLeft := by
  have hp₁ := hp.flipColor
  rw [Heap.moveRedLeft, LlrbTree.moveRedLeft]
  simp only [(hp₁.right.left hp₁.frame).red_eq]
  split_ifs
  · have hnew := (hp₁.right.clone hp₁.frame).rotateRight
    exact ((hp₁.mono hnew.ext).setRight hnew.shows).rotateLeft.flipColor
  · exact hp₁

theorem Fresh.moveRedRight : Fresh h₀ (h.moveRedRight p) o p t.moveRedRight := by
  have hp₁ := hp.flipColor
  rw [Heap.moveRedRight, LlrbTree.moveRedRight]
  simp only [(hp₁.left.left hp₁.frame).red_eq]
  split_ifs
  · exact hp₁.rotateRight.flipColor
  · exact hp₁

theorem Fresh.readyMin : Fresh h₀ (h.readyMin p) o p t.readyMin := by
  rw [Heap.readyMin, LlrbTree.readyMin, hp.left.red_eq, (hp.left.left hp.frame).red_eq]
  split_ifs
  · exact hp.moveRedLeft
  · exact hp

theorem Fresh.readyLeft : Fresh h₀ (h.readyLeft p) o p t.readyLeft := by
  rw [Heap.readyLeft, LlrbTree.readyLeft, hp.left.empty_eq, hp.left.red_eq,
    (hp.left.left hp.frame).red_eq]
  split_ifs
  · exact hp.moveRedLeft
  · exact hp

theorem Fresh.readyRight : Fresh h₀ (h.readyRight p) o p t.readyRight := by
  have hp₁ : Fresh h₀ (if h.red (h.left p) then h.rotateRight p else h) o p
      (if t.left.red then t.rotateRight else t) := by
    rw [hp.left.red_eq]
    split_ifs
    · exact hp.rotateRight
    · exact hp
  rw [Heap.readyRight, LlrbTree.readyRight]
  generalize (if h.red (h.left p) then h.rotateRight p else h) = h₁ at hp₁ ⊢
  generalize (if t.left.red then t.rotateRight else t) = t₁ at hp₁ ⊢
  simp only [hp₁.right.empty_eq, hp₁.right.red_eq, (hp₁.right.left hp₁.frame).red_eq]
  split_ifs
  · exact hp₁.moveRedRight
  · exact hp₁

end Mutators

/-! ## Insertion and removal -/

/-- What a method returns that makes nodes: the empty node, or one that it has made. -/
inductive Made (h₀ h : Heap K V) (o : Set Nat) : LlrbNode → LlrbTree K V → Prop
  | empty : h₀.Extends h ∅ → Made h₀ h o emptyNode (.nil .black)
  | fresh {p : LlrbNode} {e : K × V} {c : Color} {s : Nat} {l r : LlrbTree K V} :
      Fresh h₀ h o p (.node e c s l r) → Made h₀ h o p (.node e c s l r)

theorem Made.ext (hm : Made h₀ h o p t) : h₀.Extends h ∅ := by
  cases hm with
  | empty hext => exact hext
  | fresh hp => exact hp.ext

theorem Made.shows (hm : Made h₀ h o p t) (hf : Frame h₀ o) : Shows h o p t := by
  cases hm with
  | empty hext => exact (hf.mono hext (empty_subset _)).shows_emptyNode
  | fresh hp => exact hp.shows

theorem Fresh.made_fixUp (hp : Fresh h₀ h o p t) : Made h₀ (h.fixUp p) o p t.fixUp := by
  obtain ⟨e, c, s, l, r, heq⟩ := t.fixUp_eq_node
  have hfix := hp.fixUp
  rw [heq] at hfix ⊢
  exact .fresh hfix

/-- A method result in the place of a child. -/
theorem Fresh.setLeft_made {h₁ : Heap K V} (hp : Fresh h₀ h o p t) {l : LlrbTree K V}
    (hm : Made h h₁ (Insert.insert p o) q l) : Fresh h₀ (h₁.setLeft p q) o p (t.setLeft l) :=
  (hp.mono hm.ext).setLeft (hm.shows hp.frame)

theorem Fresh.setRight_made {h₁ : Heap K V} (hp : Fresh h₀ h o p t)
    {r : LlrbTree K V} (hm : Made h h₁ (Insert.insert p o) q r) :
    Fresh h₀ (h₁.setRight p q) o p (t.setRight r) :=
  (hp.mono hm.ext).setRight (hm.shows hp.frame)

theorem Shows.min (hs : Shows h o p t) (hf : Frame h o) (depth : Nat) :
    Shows h o (h.min depth p) (t.min depth) := by
  induction depth generalizing p t with
  | zero => exact hs
  | succ depth ih =>
    rw [Heap.min, LlrbTree.min, (hs.left hf).empty_eq]
    split_ifs
    · exact hs
    · exact ih (hs.left hf)

theorem Fresh.removeMin (hp : Fresh h₀ h o p t) (depth : Nat) :
    Made h₀ (removeMin depth h p).2 o (removeMin depth h p).1 (t.removeMin depth) := by
  induction depth generalizing h₀ h o p t with
  | zero => exact .empty hp.ext
  | succ depth ih =>
    rw [Heap.removeMin, LlrbTree.removeMin, hp.left.empty_eq]
    split_ifs
    · exact .empty hp.ext
    · have hready := hp.readyMin
      exact (hready.setLeft_made (ih (hready.left.clone hready.frame))).made_fixUp

/-- The root that `InnerInsert` or `InnerErase` has made is painted black. -/
theorem Made.fixRootColor (hm : Made h₀ h o p t) (hf : Frame h₀ o) :
    h₀.Extends (h.fixRootColor p) ∅ ∧ Shows (h.fixRootColor p) o p t.fixRootColor := by
  rw [Heap.fixRootColor, LlrbTree.fixRootColor, (hm.shows hf).red_eq]
  cases hm with
  | empty hext => exact ⟨hext, (hf.mono hext (empty_subset _)).shows_emptyNode⟩
  | fresh hp =>
    split_ifs
    · have hblack := hp.setColor .black
      exact ⟨hblack.ext, hblack.shows⟩
    · exact ⟨hp.ext, hp.shows⟩

variable [LinearOrder K]

section

variable (hs : Shows h o p t) (hf : Frame h o) (key : K)

include hs hf

theorem Shows.innerInsert (value : V) (depth : Nat) :
    Made h (innerInsert depth h p key value).2 o (innerInsert depth h p key value).1
      (t.innerInsert depth key value) := by
  induction depth generalizing h o p t with
  | zero => exact .empty (.refl h ∅)
  | succ depth ih =>
    rw [Heap.innerInsert, LlrbTree.innerInsert, hs.empty_eq]
    split_ifs
    · exact .fresh (hf.newNode hf.shows_emptyNode hf.shows_emptyNode _ _)
    · have hnew := hs.clone hf
      have hkey : (h.clone p).2.key p = t.entry.1 := by
        rw [Heap.key, hnew.ext.get_eq p hs.lt_next (by simp), hs.entry_eq]
      simp only [hkey]
      cases compare t.entry.1 key with
      | gt => exact (hnew.setLeft_made (ih hnew.left hnew.frame)).made_fixUp
      | lt => exact (hnew.setRight_made (ih hnew.right hnew.frame)).made_fixUp
      | eq => exact .fresh (hnew.setValue value)

/-- **`insert` on nodes is `insert` on trees.**  Nothing that was there before is written to. -/
theorem Shows.insert (value : V) : h.Extends (h.insert p key value).2 ∅ ∧
      Shows (h.insert p key value).2 o (h.insert p key value).1 (t.insert key value) := by
  rw [Heap.insert, hs.size_eq]
  exact (hs.innerInsert hf key value _).fixRootColor hf

theorem Shows.innerErase (depth : Nat) :
    Made h (innerErase depth h p key).2 o (innerErase depth h p key).1
      (t.innerErase depth key) := by
  induction depth generalizing h o p t with
  | zero => exact .empty (.refl h ∅)
  | succ depth ih =>
    rw [Heap.innerErase, LlrbTree.innerErase, hs.empty_eq]
    by_cases hempty : t.empty
    · rw [if_pos hempty, if_pos hempty]
      exact .empty (.refl h ∅)
    rw [if_neg hempty, if_neg hempty]
    have hn := hs.clone hf
    have hkey : (h.clone p).2.key (h.clone p).1 = t.entry.1 := congrArg Prod.fst hn.entry
    generalize h.clone p = new at hn hkey ⊢
    obtain ⟨n, h₁⟩ := new
    simp only [hkey]
    by_cases hlt : compare key t.entry.1 = .lt
    · rw [if_pos hlt, if_pos hlt]
      have hready := hn.readyLeft
      exact (hready.setLeft_made (ih hready.left hready.frame)).made_fixUp
    rw [if_neg hlt, if_neg hlt]
    have hready := hn.readyRight
    generalize h₁.readyRight n = h₂ at hready ⊢
    generalize t.readyRight = t₂ at hready ⊢
    have hkey₂ : h₂.key n = t₂.entry.1 := congrArg Prod.fst hready.entry
    rw [hkey₂, hready.right.empty_eq]
    by_cases heq : compare key t₂.entry.1 = .eq
    · rw [if_pos heq, if_pos heq]
      by_cases hright : t₂.right.empty
      · rw [if_pos hright, if_pos hright]
        exact .empty hready.ext
      · rw [if_neg hright, if_neg hright]
        have hmin := hready.right.min hready.frame depth
        have hremove := (hready.right.clone hready.frame).removeMin depth
        -- The least node is still there after it has been removed from the copies.
        have hentry := (hmin.mono hremove.ext (empty_subset _)).entry_eq
        rw [← hentry]
        exact Fresh.made_fixUp (.setRight (.setEntry (hready.mono hremove.ext) _)
          (.modify (hremove.shows hready.frame) _))
    · rw [if_neg heq, if_neg heq]
      exact (hready.setRight_made (ih hready.right hready.frame)).made_fixUp

/-- **`erase` on nodes is `erase` on trees.**  Nothing that was there before is written to. -/
theorem Shows.erase : h.Extends (h.erase p key).2 ∅ ∧
      Shows (h.erase p key).2 o (h.erase p key).1 (t.erase key) := by
  rw [Heap.erase, hs.size_eq]
  exact (hs.innerErase hf key _).fixRootColor hf

end

end Heap

end Firebase.Firestore.Immutable
