import Mathlib.Data.List.Basic
import Mathlib.Data.Nat.Log
import Mathlib.Tactic.Ring

/-!
# Red-black trees with a place in them

Trees with a label at each node, and a place in a tree as a subtree together with the frames from
its parent up to the root. A frame says on which side of its node the place is, so that what is done
on one side and its mirror image are one definition.

* `plug`: the tree around a place; `RbOk`: the invariants of a red-black tree; `FramesOk`: what the
  frames ask of the subtree at the place. `plug_ok` and `RbOk.split` go from one to the other.
* `insertFix`, `eraseFix`: the repair after a red node was put in and after a black node was taken
  out, from the place upwards. `insertFix_ok`, `eraseFix_ok`: the result meets the invariants;
  `inorder_insertFix`, `inorder_eraseFix`: the labels keep their order.
* `RbOk.height_le`: the height is at most twice the logarithm of the size.
-/

namespace RbTree

inductive Side where
  | left
  | right
  deriving DecidableEq, Repr

def Side.other : Side → Side
  | .left => .right
  | .right => .left

@[simp] theorem Side.other_other (d : Side) : d.other.other = d := by cases d <;> rfl

@[simp] theorem Side.other_ne (d : Side) : d.other ≠ d := by cases d <;> simp [other]

theorem Side.eq_other_of_ne {d d' : Side} (h : d ≠ d') : d = d'.other := by
  cases d <;> cases d' <;> simp_all [other]

inductive Color where
  | red
  | black
  deriving DecidableEq, Repr

/-- The black levels of a node in this color over subtrees with `n` of them. -/
def Color.lift : Color → ℕ → ℕ
  | .red, n => n
  | .black, n => n + 1

theorem Color.ne_red {c : Color} (h : c ≠ .red) : c = .black := by cases c <;> simp_all

theorem Color.ne_black {c : Color} (h : c ≠ .black) : c = .red := by cases c <;> simp_all

inductive Tree (α : Type*) where
  | nil
  | node (c : Color) (l : Tree α) (a : α) (r : Tree α)

variable {α : Type*}

namespace Tree

/-- The node with one subtree on the side `d` and the other one on the other side. -/
def mk : (d : Side) → Color → α → (near far : Tree α) → Tree α
  | .left, c, a, near, far => .node c near a far
  | .right, c, a, near, far => .node c far a near

theorem mk_other (d : Side) (c : Color) (a : α) (s t : Tree α) :
    mk d.other c a s t = mk d c a t s := by cases d <;> rfl

def child (d : Side) : Tree α → Tree α
  | .nil => .nil
  | .node _ l _ r => match d with
    | .left => l
    | .right => r

theorem node_eq_mk (d : Side) (c : Color) (l r : Tree α) (a : α) :
    node c l a r = mk d c a ((node c l a r).child d) ((node c l a r).child d.other) := by
  cases d <;> rfl

def root : Tree α → Option α
  | .nil => none
  | .node _ _ a _ => some a

@[simp] theorem root_mk (d : Side) (c : Color) (a : α) (s t : Tree α) :
    (mk d c a s t).root = some a := by cases d <;> rfl

theorem root_eq_none {t : Tree α} : t.root = none ↔ t = .nil := by cases t <;> simp [root]

/-- The color of the root; nothing is black. -/
def color : Tree α → Color
  | .nil => .black
  | .node c _ _ _ => c

@[simp] theorem color_mk (d : Side) (c : Color) (a : α) (s t : Tree α) :
    (mk d c a s t).color = c := by cases d <;> rfl

def recolor (c : Color) : Tree α → Tree α
  | .nil => .nil
  | .node _ l a r => .node c l a r

@[simp] theorem recolor_mk (d : Side) (c c' : Color) (a : α) (s t : Tree α) :
    (mk d c a s t).recolor c' = mk d c' a s t := by cases d <;> rfl

theorem recolor_self (t : Tree α) : t.recolor t.color = t := by cases t <;> rfl

def inorder : Tree α → List α
  | .nil => []
  | .node _ l a r => l.inorder ++ a :: r.inorder

@[simp] theorem inorder_recolor (c : Color) (t : Tree α) : (t.recolor c).inorder = t.inorder := by
  cases t <;> rfl

def height : Tree α → ℕ
  | .nil => 0
  | .node _ l _ r => max l.height r.height + 1

/-- The same number of black nodes on every way down, and no red node below a red one. -/
def Bal : Tree α → ℕ → Prop
  | .nil, n => n = 0
  | .node .red l _ r, n => (l.Bal n ∧ r.Bal n) ∧ l.color = .black ∧ r.color = .black
  | .node .black _ _ _, 0 => False
  | .node .black l _ r, n + 1 => l.Bal n ∧ r.Bal n

theorem bal_red {d : Side} {a : α} {s t : Tree α} {n : ℕ} :
    (mk d .red a s t).Bal n ↔ (s.Bal n ∧ t.Bal n) ∧ s.color = .black ∧ t.color = .black := by
  cases d
  · rfl
  · constructor <;> exact fun h => ⟨h.1.symm, h.2.symm⟩

theorem bal_black {d : Side} {a : α} {s t : Tree α} {n : ℕ} :
    (mk d .black a s t).Bal (n + 1) ↔ s.Bal n ∧ t.Bal n := by
  cases d
  · rfl
  · exact and_comm

theorem not_bal_black_zero {d : Side} {a : α} {s t : Tree α} : ¬ (mk d .black a s t).Bal 0 := by
  cases d <;> exact id

theorem Bal.mk {d : Side} {c : Color} {a : α} {s t : Tree α} {n : ℕ} (hs : s.Bal n) (ht : t.Bal n)
    (hsc : s.color = .black) (htc : t.color = .black) : (mk d c a s t).Bal (c.lift n) := by
  cases c
  · exact bal_red.mpr ⟨⟨hs, ht⟩, hsc, htc⟩
  · exact bal_black.mpr ⟨hs, ht⟩

/-- A red tree made black gains one level. -/
theorem Bal.blacken {t : Tree α} {n : ℕ} (h : t.Bal n) (hred : t.color = .red) :
    (t.recolor .black).Bal (n + 1) := by
  cases t with
  | nil => cases hred
  | node c l a r =>
    obtain rfl : c = .red := hred
    exact h.1

theorem recolor_of_color {t : Tree α} {c : Color} (h : t.color = c) : t.recolor c = t := by
  rw [← h, recolor_self]

theorem Bal.exists_blacken {t : Tree α} {n : ℕ} (h : t.Bal n) :
    ∃ k, (t.recolor .black).Bal k := by
  by_cases hc : t.color = .red
  · exact ⟨n + 1, h.blacken hc⟩
  · exact ⟨n, by rwa [recolor_of_color (Color.ne_red hc)]⟩

@[simp] theorem color_blacken (t : Tree α) : (t.recolor .black).color = .black := by
  cases t <;> rfl

/-- A tree with a black level is not empty. -/
theorem Bal.ne_nil {t : Tree α} {n : ℕ} (h : t.Bal (n + 1)) : t ≠ .nil := by
  rintro rfl
  cases h

end Tree

open Tree

/-- One node on the way from a place to the root: the side the place is on, the color and the label
of the node, and its other subtree. -/
structure Frame (α : Type*) where
  side : Side
  color : Color
  label : α
  sib : Tree α

namespace Frame

/-- The subtree of the frame's node, in a color, with a subtree in its place. -/
def put (f : Frame α) (c : Color) (t : Tree α) : Tree α :=
  Tree.mk f.side c f.label t f.sib

end Frame

/-- The whole tree around a place. -/
def plug : Tree α → List (Frame α) → Tree α
  | t, [] => t
  | t, f :: fs => plug (f.put f.color t) fs

theorem plug_append (t : Tree α) (fs gs : List (Frame α)) :
    plug t (fs ++ gs) = plug (plug t fs) gs := by
  induction fs generalizing t with
  | nil => rfl
  | cons f fs ih => exact ih _

/-- The order of the labels around a place depends on that at the place only. -/
theorem inorder_plug_congr {s t : Tree α} (h : s.inorder = t.inorder) (fs : List (Frame α)) :
    (plug s fs).inorder = (plug t fs).inorder := by
  induction fs generalizing s t with
  | nil => exact h
  | cons f fs ih =>
    refine ih ?_
    obtain ⟨d, c, a, u⟩ := f
    cases d <;> simp [Frame.put, Tree.mk, inorder, h]

/-! ## The invariants -/

/-- A black root and balance. -/
def RbOk (t : Tree α) : Prop := t.color = .black ∧ ∃ n, t.Bal n

/-- What the frames ask for: a subtree with `n` black levels, and black if `c` is. The color `c` is
red where the subtree may be of either color. -/
def FramesOk : List (Frame α) → ℕ → Color → Prop
  | [], _, c => c = .black
  | ⟨_, .black, _, s⟩ :: fs, n, _ => s.Bal n ∧ FramesOk fs (n + 1) .black
  | ⟨_, .red, _, s⟩ :: fs, n, c => c = .black ∧ s.Bal n ∧ s.color = .black ∧ FramesOk fs n .red

theorem framesOk_black {f : Frame α} {fs : List (Frame α)} {n : ℕ} {c : Color}
    (hf : f.color = .black) :
    FramesOk (f :: fs) n c ↔ f.sib.Bal n ∧ FramesOk fs (n + 1) .black := by
  obtain ⟨d, c', a, s⟩ := f
  obtain rfl : c' = .black := hf
  rfl

theorem framesOk_red {f : Frame α} {fs : List (Frame α)} {n : ℕ} {c : Color}
    (hf : f.color = .red) : FramesOk (f :: fs) n c ↔
      c = .black ∧ f.sib.Bal n ∧ f.sib.color = .black ∧ FramesOk fs n .red := by
  obtain ⟨d, c', a, s⟩ := f
  obtain rfl : c' = .red := hf
  rfl

/-- What the frames above ask of the node of a frame. -/
theorem FramesOk.up {f : Frame α} {fs : List (Frame α)} {n : ℕ} {c : Color}
    (h : FramesOk (f :: fs) n c) : FramesOk fs (f.color.lift n) f.color := by
  obtain ⟨d, c', a, s⟩ := f
  cases c'
  · exact h.2.2.2
  · exact h.2

theorem FramesOk.sib {f : Frame α} {fs : List (Frame α)} {n : ℕ} {c : Color}
    (h : FramesOk (f :: fs) n c) : f.sib.Bal n := by
  obtain ⟨d, c', a, s⟩ := f
  cases c'
  · exact h.2.1
  · exact h.1

/-- Around a place below a red node: the node above that is black. -/
theorem FramesOk.redRed {f g : Frame α} {fs : List (Frame α)} {n : ℕ} {c : Color}
    (h : FramesOk (f :: g :: fs) n c) (hf : f.color = .red) :
    f.sib.Bal n ∧ f.sib.color = .black ∧ g.color = .black ∧ g.sib.Bal n ∧
      FramesOk fs (n + 1) .black := by
  obtain ⟨-, hs, hsc, hrest⟩ := (framesOk_red hf).mp h
  have hg : g.color = .black := Color.ne_red fun hr => by
    cases ((framesOk_red hr).mp hrest).1
  exact ⟨hs, hsc, hg, (framesOk_black hg).mp hrest⟩

/-- Frames that take a red subtree take a black one. -/
theorem FramesOk.black {fs : List (Frame α)} {n : ℕ} {c : Color} (h : FramesOk fs n c) :
    FramesOk fs n .black := by
  cases fs with
  | nil => rfl
  | cons f fs =>
    by_cases hf : f.color = .red
    · rw [framesOk_red hf] at h ⊢
      exact ⟨rfl, h.2⟩
    · rw [framesOk_black (Color.ne_red hf)] at h ⊢
      exact h

theorem plug_ok {t : Tree α} {fs : List (Frame α)} {n : ℕ} (hfs : FramesOk fs n t.color)
    (ht : t.Bal n) : RbOk (plug t fs) := by
  induction fs generalizing t n with
  | nil => exact ⟨hfs, n, ht⟩
  | cons f fs ih =>
    by_cases hf : f.color = .red
    · obtain ⟨hc, hs, hsc, hrest⟩ := (framesOk_red hf).mp hfs
      refine ih (n := n) ?_ ?_ <;> rw [hf, Frame.put]
      · simpa using hrest
      · exact bal_red.mpr ⟨⟨ht, hs⟩, hc, hsc⟩
    · have hb := Color.ne_red hf
      obtain ⟨hs, hrest⟩ := (framesOk_black hb).mp hfs
      refine ih (n := n + 1) ?_ ?_ <;> rw [hb, Frame.put]
      · simpa using hrest
      · exact bal_black.mpr ⟨ht, hs⟩

/-- At every place of a red-black tree the subtree is balanced and fits its frames. -/
theorem RbOk.split {t : Tree α} {fs : List (Frame α)} (h : RbOk (plug t fs)) :
    ∃ n, t.Bal n ∧ FramesOk fs n t.color := by
  induction fs generalizing t with
  | nil =>
    obtain ⟨hc, n, hn⟩ := h
    exact ⟨n, hn, hc⟩
  | cons f fs ih =>
    obtain ⟨n, hbal, hfs⟩ := ih h
    by_cases hf : f.color = .red
    · rw [hf, Frame.put] at hbal
      rw [hf, Frame.put, color_mk] at hfs
      obtain ⟨⟨ht, hs⟩, htc, hsc⟩ := bal_red.mp hbal
      exact ⟨n, ht, (framesOk_red hf).mpr ⟨htc, hs, hsc, hfs⟩⟩
    · have hb := Color.ne_red hf
      rw [hb, Frame.put] at hbal
      rw [hb, Frame.put, color_mk] at hfs
      cases n with
      | zero => exact absurd hbal not_bal_black_zero
      | succ n =>
        obtain ⟨ht, hs⟩ := bal_black.mp hbal
        exact ⟨n, ht, (framesOk_black hb).mpr ⟨hs, hfs⟩⟩

/-! ## The height -/

/-- A balanced tree has at least `2^n - 1` nodes, and it is at most twice as high as `n`, or one
more where its root is red. -/
theorem Tree.Bal.bounds {t : Tree α} {n : ℕ} (h : t.Bal n) :
    2 ^ n ≤ t.inorder.length + 1 ∧ t.height ≤ 2 * n + (if t.color = .red then 1 else 0) := by
  induction t generalizing n with
  | nil =>
    obtain rfl : n = 0 := h
    simp [inorder, height]
  | node c l a r ihl ihr =>
    cases c with
    | red =>
      obtain ⟨⟨hl, hr⟩, hlc, hrc⟩ := h
      obtain ⟨hl1, hl2⟩ := ihl hl
      obtain ⟨hr1, hr2⟩ := ihr hr
      simp only [hlc, hrc, reduceCtorEq, if_false] at hl2 hr2
      simp only [inorder, height, color, List.length_append, List.length_cons, if_true]
      omega
    | black =>
      cases n with
      | zero => exact absurd h id
      | succ n =>
        obtain ⟨hl, hr⟩ := h
        obtain ⟨hl1, hl2⟩ := ihl hl
        obtain ⟨hr1, hr2⟩ := ihr hr
        have hl3 : l.height ≤ 2 * n + 1 := hl2.trans (by split <;> omega)
        have hr3 : r.height ≤ 2 * n + 1 := hr2.trans (by split <;> omega)
        simp only [inorder, height, color, List.length_append, List.length_cons, reduceCtorEq,
          if_false, pow_succ]
        omega

/-- **The height** of a red-black tree with `n` nodes is at most `2 * log2 (n + 1)`. -/
theorem RbOk.height_le {t : Tree α} (h : RbOk t) :
    t.height ≤ 2 * Nat.log 2 (t.inorder.length + 1) := by
  obtain ⟨hc, n, hn⟩ := h
  obtain ⟨hsize, hheight⟩ := hn.bounds
  simp only [hc, reduceCtorEq, if_false] at hheight
  have : n ≤ Nat.log 2 (t.inorder.length + 1) := Nat.le_log_of_pow_le (by norm_num) hsize
  omega

/-! ## After a red node was put in -/

/-- The subtree of a red node `f` with a red subtree `t` in its place, below a node `g` whose other
subtree is black: one or two rotations bring the middle label to the top. -/
def insertTurn (t : Tree α) (f g : Frame α) : Tree α :=
  if f.side = g.side then mk g.side .black f.label t (g.put .red f.sib)
  else
    match t with
    | .nil => .nil
    | .node c l a r =>
      mk g.side .black a (mk g.side .red f.label f.sib ((node c l a r).child g.side))
        (g.put .red ((node c l a r).child g.side.other))

/-- The tree around a red place: two red nodes in a row are recolored and the search goes on two
levels up, or they are turned. -/
def insertFix : Tree α → List (Frame α) → Tree α
  | t, [] => t.recolor .black
  | t, [f] => (plug t [f]).recolor .black
  | t, f :: g :: fs =>
    if f.color = .black then (plug t (f :: g :: fs)).recolor .black
    else if g.sib.color = .red then
      insertFix (mk g.side .red g.label (f.put .black t) (g.sib.recolor .black)) fs
    else (plug (insertTurn t f g) fs).recolor .black

theorem RbOk.recolor {t : Tree α} (h : RbOk t) : RbOk (t.recolor .black) :=
  ⟨color_blacken t, h.2.choose_spec.exists_blacken⟩

theorem insertTurn_ok {t : Tree α} {f g : Frame α} {n : ℕ} (ht : t.Bal n) (htc : t.color = .red)
    (hf : f.sib.Bal n) (hfc : f.sib.color = .black) (hg : g.sib.Bal n)
    (hgc : g.sib.color = .black) : (insertTurn t f g).Bal (n + 1) ∧
      (insertTurn t f g).color = .black := by
  unfold insertTurn
  split
  · exact ⟨bal_black.mpr ⟨ht, bal_red.mpr ⟨⟨hf, hg⟩, hfc, hgc⟩⟩, color_mk ..⟩
  · cases t with
    | nil => cases htc
    | node c l a r =>
      obtain rfl : c = .red := htc
      rw [node_eq_mk g.side, bal_red] at ht
      obtain ⟨⟨h1, h2⟩, hc1, hc2⟩ := ht
      exact ⟨bal_black.mpr ⟨bal_red.mpr ⟨⟨hf, h1⟩, hfc, hc1⟩, bal_red.mpr ⟨⟨h2, hg⟩, hc2, hgc⟩⟩,
        color_mk ..⟩

/-- **Repair after an insertion.** Where the frames take a black subtree of its height in the place
of the red one, the result is a red-black tree. -/
theorem insertFix_ok {t : Tree α} {fs : List (Frame α)} {n : ℕ} (ht : t.Bal n)
    (htc : t.color = .red) (hfs : FramesOk fs n .black) : RbOk (insertFix t fs) := by
  induction t, fs using insertFix.induct generalizing n with
  | case1 t => exact ⟨color_blacken t, ht.exists_blacken⟩
  | case2 t f =>
    rw [insertFix]
    by_cases hf : f.color = .red
    · exact absurd ((framesOk_red hf).mp hfs).2.2.2 (by simp [FramesOk])
    · refine RbOk.recolor (plug_ok (n := n) ?_ ht)
      rw [framesOk_black (Color.ne_red hf)] at hfs ⊢
      exact hfs
  | case3 t f g fs hf =>
    rw [insertFix, if_pos hf]
    refine RbOk.recolor (plug_ok (n := n) ?_ ht)
    rw [framesOk_black hf] at hfs ⊢
    exact hfs
  | case4 t f g fs hf hg ih =>
    rw [insertFix, if_neg hf, if_pos hg]
    obtain ⟨hs, hsc, -, hu, hrest⟩ := hfs.redRed (Color.ne_black hf)
    refine ih (n := n + 1) ?_ (color_mk ..) hrest
    exact bal_red.mpr ⟨⟨bal_black.mpr ⟨ht, hs⟩, hu.blacken hg⟩, color_mk .., color_blacken _⟩
  | case5 t f g fs hf hg =>
    rw [insertFix, if_neg hf, if_neg hg]
    obtain ⟨hs, hsc, -, hu, hrest⟩ := hfs.redRed (Color.ne_black hf)
    obtain ⟨hbal, hcol⟩ := insertTurn_ok (g := g) ht htc hs hsc hu (Color.ne_red hg)
    exact RbOk.recolor (plug_ok (n := n + 1) (hcol ▸ hrest) hbal)

theorem inorder_insertTurn {t : Tree α} {f g : Frame α} (htc : t.color = .red) :
    (insertTurn t f g).inorder = (plug t [f, g]).inorder := by
  unfold insertTurn
  obtain ⟨df, cf, af, sf⟩ := f
  obtain ⟨dg, cg, ag, sg⟩ := g
  dsimp only
  split
  · rename_i hd
    obtain rfl : df = dg := hd
    cases df <;> simp [plug, Frame.put, Tree.mk, inorder]
  · rename_i hd
    cases t with
    | nil => cases htc
    | node c l a r =>
      cases df <;> cases dg <;>
        simp_all [plug, Frame.put, Tree.mk, inorder, child, Side.other]

theorem inorder_insertFix {t : Tree α} {fs : List (Frame α)} (htc : t.color = .red) :
    (insertFix t fs).inorder = (plug t fs).inorder := by
  induction t, fs using insertFix.induct with
  | case1 t => simp [insertFix, plug]
  | case2 t f => simp [insertFix]
  | case3 t f g fs hf => simp [insertFix, hf]
  | case4 t f g fs hf hg ih =>
    rw [insertFix, if_neg hf, if_pos hg, ih (color_mk ..)]
    refine inorder_plug_congr (t := plug t [f, g]) ?_ fs
    obtain ⟨df, cf, af, sf⟩ := f
    obtain ⟨dg, cg, ag, sg⟩ := g
    cases df <;> cases dg <;> simp [plug, Frame.put, Tree.mk, inorder]
  | case5 t f g fs hf hg =>
    rw [insertFix, if_neg hf, if_neg hg, inorder_recolor]
    exact inorder_plug_congr (t := plug t [f, g]) (inorder_insertTurn htc) fs

/-! ## After a black node was taken out -/

/-- The subtree of a node whose place lacks a black level, where the sibling is black and has a red
subtree; none where it has no red subtree. -/
def eraseTurn (x : Tree α) (f : Frame α) : Option (Tree α) :=
  match f.sib with
  | .nil => none
  | .node c l w r =>
    let near := (node c l w r).child f.side
    let far := (node c l w r).child f.side.other
    if far.color = .red then
      some (mk f.side f.color w (mk f.side .black f.label x near) (far.recolor .black))
    else
      match near with
      | .nil => none
      | .node c' l' v r' =>
        if c' = .red then
          some (mk f.side f.color v
            (mk f.side .black f.label x ((node c' l' v r').child f.side))
            (mk f.side .black w ((node c' l' v r').child f.side.other) far))
        else none

/-- The tree around a place that lacks a black level. A red root is made black; a red sibling is
turned over the place first; a black one is turned if it has a red subtree, and made red if not, and
then the node above lacks the level. -/
def eraseFix : Tree α → List (Frame α) → Tree α
  | x, [] => x.recolor .black
  | x, f :: fs =>
    if x.color = .red then plug (x.recolor .black) (f :: fs)
    else
      match f.sib with
      | .nil => plug x (f :: fs)
      | .node .red l w r =>
        let f' : Frame α := { f with color := .red, sib := (node .red l w r).child f.side }
        let g : Frame α := ⟨f.side, .black, w, (node .red l w r).child f.side.other⟩
        match eraseTurn x f' with
        | some t => plug t (g :: fs)
        | none => plug (mk f.side .black f.label x (f'.sib.recolor .red)) (g :: fs)
      | .node .black _ _ _ =>
        match eraseTurn x f with
        | some t => plug t fs
        | none => eraseFix (mk f.side f.color f.label x (f.sib.recolor .red)) fs

/-- A red node is made black. -/
theorem eraseFix_red {x : Tree α} (h : x.color = .red) (fs : List (Frame α)) :
    eraseFix x fs = plug (x.recolor .black) fs := by
  cases fs with
  | nil => rfl
  | cons f fs => rw [eraseFix, if_pos h]

section
variable {x near far : Tree α} {d : Side} {c cw : Color} {q w : α}

theorem eraseTurn_far (hfar : far.color = .red) :
    eraseTurn x ⟨d, c, q, mk d cw w near far⟩ =
      some (mk d c w (mk d .black q x near) (far.recolor .black)) := by
  cases d <;> exact if_pos hfar

theorem eraseTurn_near {v : α} {a b : Tree α} (hfar : far.color ≠ .red) :
    eraseTurn x ⟨d, c, q, mk d cw w (mk d .red v a b) far⟩ =
      some (mk d c v (mk d .black q x a) (mk d .black w b far)) := by
  cases d <;> exact if_neg hfar

theorem eraseTurn_black (hnear : near.color ≠ .red) (hfar : far.color ≠ .red) :
    eraseTurn x ⟨d, c, q, mk d cw w near far⟩ = none := by
  cases near with
  | nil => cases d <;> exact if_neg hfar
  | node c' l v r => cases d <;> exact (if_neg hfar).trans (if_neg hnear)

end

/-- A turn makes up for the missing level. -/
theorem eraseTurn_ok {x t : Tree α} {f : Frame α} {n : ℕ} (hx : x.Bal n) (hs : f.sib.Bal (n + 1))
    (hsc : f.sib.color = .black) (ht : eraseTurn x f = some t) :
    t.color = f.color ∧ t.Bal (f.color.lift (n + 1)) := by
  unfold eraseTurn at ht
  split at ht
  · cases ht
  · rename_i c l w r hw
    rw [hw] at hs hsc
    obtain rfl : c = .black := hsc
    rw [node_eq_mk f.side, bal_black] at hs
    obtain ⟨hnear, hfar⟩ := hs
    dsimp only at ht
    revert ht hnear hfar
    generalize (node .black l w r).child f.side = near
    generalize (node .black l w r).child f.side.other = far
    intro ht hnear hfar
    split at ht
    · rename_i hred
      cases ht
      exact ⟨color_mk .., (bal_black.mpr ⟨hx, hnear⟩).mk (hfar.blacken hred) (color_mk ..)
        (color_blacken _)⟩
    · split at ht
      · cases ht
      · rename_i c' l' v r'
        split at ht
        · rename_i hred
          cases ht
          subst hred
          rw [node_eq_mk f.side, bal_red] at hnear
          obtain ⟨⟨h1, h2⟩, -, -⟩ := hnear
          exact ⟨color_mk .., (bal_black.mpr ⟨hx, h1⟩).mk (bal_black.mpr ⟨h2, hfar⟩) (color_mk ..)
            (color_mk ..)⟩
        · cases ht

/-- Without a turn both subtrees of the sibling are black, and it can be made red. -/
theorem eraseTurn_none {x : Tree α} {f : Frame α} {n : ℕ} (hs : f.sib.Bal (n + 1))
    (hsc : f.sib.color = .black) (ht : eraseTurn x f = none) : (f.sib.recolor .red).Bal n := by
  unfold eraseTurn at ht
  split at ht
  · rename_i hnil
    exact absurd hnil hs.ne_nil
  · rename_i c l w r hw
    rw [hw] at hs hsc ⊢
    obtain rfl : c = .black := hsc
    rw [node_eq_mk f.side, bal_black] at hs
    rw [node_eq_mk f.side, recolor_mk]
    dsimp only at ht
    revert ht hs
    generalize (node .black l w r).child f.side = near
    generalize (node .black l w r).child f.side.other = far
    rintro ⟨hnear, hfar⟩ ht
    by_cases hfc : far.color = .red
    · simp [hfc] at ht
    · rw [if_neg hfc] at ht
      refine bal_red.mpr ⟨⟨hnear, hfar⟩, ?_, Color.ne_red hfc⟩
      split at ht
      · rfl
      · split at ht
        · cases ht
        · rename_i hc
          exact Color.ne_red hc

/-- **Repair after a removal.** Where the frames ask for a black level more than the place has, the
result is a red-black tree. -/
theorem eraseFix_ok {x : Tree α} {fs : List (Frame α)} {n : ℕ} (hx : x.Bal n)
    (hfs : FramesOk fs (n + 1) .black) : RbOk (eraseFix x fs) := by
  induction fs generalizing x n with
  | nil => exact ⟨color_blacken x, hx.exists_blacken⟩
  | cons f fs ih =>
    unfold eraseFix
    split
    case isTrue hred => exact plug_ok (by rwa [color_blacken]) (hx.blacken hred)
    case isFalse hxc =>
      split
      case h_1 hnil => exact absurd hnil hfs.sib.ne_nil
      case h_2 l w r hw =>
        have hc : f.color = .black := Color.ne_red fun hr => by
          have hsc := ((framesOk_red hr).mp hfs).2.2.1
          rw [hw] at hsc
          cases hsc
        have hs := hfs.sib
        rw [hw, node_eq_mk f.side, bal_red] at hs
        obtain ⟨⟨hnear, hfar⟩, hnc, hfc⟩ := hs
        have hrest := hfs.up
        rw [hc] at hrest
        -- the node above is red now, below the black sibling
        have hg : FramesOk (⟨f.side, .black, w, (node .red l w r).child f.side.other⟩ :: fs) (n + 1)
            .red := ⟨hfar, hrest⟩
        dsimp only
        split
        · rename_i t ht
          obtain ⟨htc, htb⟩ := eraseTurn_ok hx hnear hnc ht
          exact plug_ok (by rw [htc]; exact hg) htb
        · rename_i ht
          exact plug_ok (by rw [color_mk]; exact hg.black)
            (bal_black.mpr ⟨hx, eraseTurn_none hnear hnc ht⟩)
      case h_3 l w r hw =>
        have hsc : f.sib.color = .black := by rw [hw]; rfl
        split
        · rename_i t ht
          obtain ⟨htc, htb⟩ := eraseTurn_ok hx hfs.sib hsc ht
          exact plug_ok (htc ▸ hfs.up) htb
        · rename_i ht
          have hw' := eraseTurn_none hfs.sib hsc ht
          by_cases hc : f.color = .red
          · -- a red node above is made black, which makes up for the level
            have hrest := hfs.up
            rw [hc] at hrest ⊢
            cases fs with
            | nil => cases hrest
            | cons g fs =>
              rw [eraseFix, if_pos (color_mk ..), recolor_mk]
              exact plug_ok (by rw [color_mk]; exact hrest.black) (bal_black.mpr ⟨hx, hw'⟩)
          · rw [Color.ne_red hc]
            have hrest := hfs.up
            rw [Color.ne_red hc] at hrest
            exact ih (n := n + 1) (bal_black.mpr ⟨hx, hw'⟩) hrest

theorem inorder_eraseTurn {x t : Tree α} {f : Frame α} (ht : eraseTurn x f = some t) (c : Color) :
    t.inorder = (f.put c x).inorder := by
  obtain ⟨d, cf, af, sf⟩ := f
  unfold eraseTurn at ht
  dsimp only at ht
  split at ht
  · cases ht
  · rename_i c' l w r
    split at ht
    · cases ht
      cases d <;> simp [Frame.put, Tree.mk, inorder, child, Side.other]
    · split at ht
      · cases ht
      · rename_i c'' l' v r' hnear
        split at ht
        · cases ht
          cases d <;> simp only [child] at hnear <;> subst hnear <;>
            simp [Frame.put, Tree.mk, inorder, child, Side.other]
        · cases ht

theorem inorder_eraseFix {x : Tree α} {fs : List (Frame α)} :
    (eraseFix x fs).inorder = (plug x fs).inorder := by
  induction fs generalizing x with
  | nil => simp [eraseFix, plug]
  | cons f fs ih =>
    unfold eraseFix
    split
    · exact inorder_plug_congr (inorder_recolor ..) _
    · split
      · rfl
      · rename_i l w r hw
        obtain ⟨d, c, a, s⟩ := f
        obtain rfl : s = node .red l w r := hw
        dsimp only
        split
        · rename_i t ht
          refine inorder_plug_congr ?_ fs
          have := inorder_eraseTurn ht .black
          cases d <;> simp_all [Frame.put, Tree.mk, inorder, child, Side.other]
        · refine inorder_plug_congr ?_ fs
          cases d <;> simp [Frame.put, Tree.mk, inorder, child, Side.other]
      · rename_i l w r hw
        split
        · rename_i t ht
          exact inorder_plug_congr (inorder_eraseTurn ht f.color) fs
        · rw [ih]
          refine inorder_plug_congr ?_ fs
          obtain ⟨d, c, a, s⟩ := f
          cases d <;> simp [Frame.put, Tree.mk, inorder]

/-! ## Taking a node out -/

/-- The labels before and after a place. -/
def labelsBefore : List (Frame α) → List α
  | [] => []
  | ⟨.left, _, _, _⟩ :: fs => labelsBefore fs
  | ⟨.right, _, a, s⟩ :: fs => labelsBefore fs ++ (s.inorder ++ [a])

def labelsAfter : List (Frame α) → List α
  | [] => []
  | ⟨.left, _, a, s⟩ :: fs => (a :: s.inorder) ++ labelsAfter fs
  | ⟨.right, _, _, _⟩ :: fs => labelsAfter fs

theorem inorder_plug (t : Tree α) (fs : List (Frame α)) :
    (plug t fs).inorder = labelsBefore fs ++ (t.inorder ++ labelsAfter fs) := by
  induction fs generalizing t with
  | nil => simp [plug, labelsBefore, labelsAfter]
  | cons f fs ih =>
    obtain ⟨d, c, a, s⟩ := f
    rw [plug, ih]
    cases d <;> simp [Frame.put, Tree.mk, inorder, labelsBefore, labelsAfter]

theorem length_le_plug (t : Tree α) (fs : List (Frame α)) :
    fs.length + t.inorder.length ≤ (plug t fs).inorder.length := by
  induction fs generalizing t with
  | nil => simp [plug]
  | cons f fs ih =>
    have h := ih (f.put f.color t)
    have : t.inorder.length + 1 ≤ (f.put f.color t).inorder.length := by
      obtain ⟨d, c, a, s⟩ := f
      cases d <;> simp [Frame.put, Tree.mk, inorder]
    rw [plug, List.length_cons]
    omega

/-- The first node of a tree: its color, its label, its right subtree, and the frames around it. -/
def firstNode : Tree α → List (Frame α) → Option (Color × α × Tree α × List (Frame α))
  | .nil, _ => none
  | .node c .nil a r, fs => some (c, a, r, fs)
  | .node c (.node c' l' a' r') a r, fs => firstNode (.node c' l' a' r') (⟨.left, c, a, r⟩ :: fs)

/-- The place from which a node over `l` and `r` is missing after it was taken out, its frames, and
the color that was lost. With two subtrees the next node takes its place and its color. -/
def takeOut (c : Color) (l r : Tree α) (fs : List (Frame α)) :
    Tree α × List (Frame α) × Color :=
  match l, r with
  | .nil, r => (r, fs, c)
  | l, .nil => (l, fs, c)
  | l, r =>
    match firstNode r [] with
    | some (c', a, x, path) => (x, path ++ ⟨.right, c, a, l⟩ :: fs, c')
    | none => (.nil, fs, c)

/-- The tree without the node over `l` and `r`. -/
def eraseAt (c : Color) (l r : Tree α) (fs : List (Frame α)) : Tree α :=
  let (x, gs, c') := takeOut c l r fs
  if c' = .red then plug x gs else eraseFix x gs

theorem firstNode_plug {t : Tree α} {fs gs : List (Frame α)} {c : Color} {a : α} {x : Tree α}
    (h : firstNode t fs = some (c, a, x, gs)) : plug (.node c .nil a x) gs = plug t fs := by
  induction t, fs using firstNode.induct with
  | case1 => cases h
  | case2 fs c' a' r' => cases h; rfl
  | case3 fs c' c'' l a'' r a' r' ih => exact (ih h).trans rfl

/-- Nothing of the tree comes before its first node. -/
theorem labelsBefore_firstNode {t : Tree α} {fs gs : List (Frame α)} {c : Color} {a : α}
    {x : Tree α} (h : firstNode t fs = some (c, a, x, gs)) : labelsBefore gs = labelsBefore fs := by
  induction t, fs using firstNode.induct with
  | case1 => cases h
  | case2 => cases h; rfl
  | case3 _ _ _ _ _ _ _ _ ih => exact ih h

theorem exists_firstNode {t : Tree α} (h : t ≠ .nil) (fs : List (Frame α)) :
    ∃ c a x gs, firstNode t fs = some (c, a, x, gs) := by
  induction t, fs using firstNode.induct with
  | case1 => exact absurd rfl h
  | case2 => exact ⟨_, _, _, _, rfl⟩
  | case3 _ _ _ _ _ _ _ _ ih => exact ih (by simp)

/-- The labels in the frames do not matter to the balance. -/
theorem FramesOk.relabel {path fs : List (Frame α)} {d : Side} {c c' : Color} {a b : α}
    {s : Tree α} {n : ℕ} (h : FramesOk (path ++ ⟨d, c, a, s⟩ :: fs) n c') :
    FramesOk (path ++ ⟨d, c, b, s⟩ :: fs) n c' := by
  induction path generalizing n c' with
  | nil => cases c <;> exact h
  | cons f path ih =>
    obtain ⟨d', c'', a', s'⟩ := f
    cases c''
    · exact ⟨h.1, h.2.1, h.2.2.1, ih h.2.2.2⟩
    · exact ⟨h.1, ih h.2⟩

/-- What the place is like: it fits its frames, or lacks the black level that was lost. -/
theorem takeOut_ok {c : Color} {l r : Tree α} {z : α} {fs : List (Frame α)}
    (h : RbOk (plug (.node c l z r) fs)) :
    ∃ n, (takeOut c l r fs).1.Bal n ∧
      FramesOk (takeOut c l r fs).2.1 ((takeOut c l r fs).2.2.lift n) .black ∧
      ((takeOut c l r fs).2.2 = .red →
        FramesOk (takeOut c l r fs).2.1 n (takeOut c l r fs).1.color) := by
  -- a node over `s` and nothing, of color `c`, at a place that fits
  have hone : ∀ {c : Color} {s : Tree α} {gs : List (Frame α)} {n : ℕ}, (mk .left c z s .nil).Bal n →
      FramesOk gs n c → ∃ n, s.Bal n ∧ FramesOk gs (c.lift n) .black ∧
        (c = .red → FramesOk gs n s.color) := by
    intro c s gs n hbal hgs
    cases c with
    | red =>
      obtain ⟨⟨hs, -⟩, hsc, -⟩ := bal_red.mp hbal
      exact ⟨n, hs, hgs.black, fun _ => by rw [hsc]; exact hgs.black⟩
    | black =>
      cases n with
      | zero => exact absurd hbal not_bal_black_zero
      | succ n => exact ⟨n, (bal_black.mp hbal).1, hgs, by simp⟩
  obtain ⟨n, hbal, hfs⟩ := h.split
  have hmk : ∀ {c : Color} {s t : Tree α} {a b : α} {n : ℕ}, (Tree.node c s a t).Bal n →
      (Tree.mk .left c b s t).Bal n ∧ (Tree.mk .left c b t s).Bal n := by
    intro c s t a b n hb
    cases c with
    | red => exact ⟨hb, hb.1.symm, hb.2.symm⟩
    | black =>
      cases n with
      | zero => exact absurd hb id
      | succ n => exact ⟨hb, hb.symm⟩
  cases l with
  | nil => exact hone (hmk hbal).2 hfs
  | node cl ll al rl =>
    cases r with
    | nil => exact hone (hmk hbal).1 hfs
    | node cr lr ar rr =>
      obtain ⟨c', a, x, path, hfirst⟩ := exists_firstNode (t := .node cr lr ar rr) (by simp) []
      simp only [takeOut, hfirst]
      have hplug : plug (.node c' .nil a x)
          (path ++ ⟨.right, c, z, .node cl ll al rl⟩ :: fs) =
          plug (.node c (.node cl ll al rl) z (.node cr lr ar rr)) fs := by
        rw [plug_append, firstNode_plug hfirst]
        rfl
      obtain ⟨m, hbal', hfs'⟩ := RbOk.split (hplug ▸ h)
      exact hone (hmk hbal').2 hfs'.relabel

/-- **Taking a node out** of a red-black tree leaves a red-black tree. -/
theorem eraseAt_ok {c : Color} {l r : Tree α} {z : α} {fs : List (Frame α)}
    (h : RbOk (plug (.node c l z r) fs)) : RbOk (eraseAt c l r fs) := by
  obtain ⟨n, hbal, hfs, hred⟩ := takeOut_ok h
  unfold eraseAt
  revert hbal hfs hred
  generalize takeOut c l r fs = out
  obtain ⟨x, gs, c'⟩ := out
  dsimp only
  intro hbal hfs hred
  split
  · rename_i hc
    exact plug_ok (hred hc) hbal
  · rename_i hc
    rw [Color.ne_red hc] at hfs
    exact eraseFix_ok hbal hfs

theorem inorder_takeOut (c : Color) (l r : Tree α) (fs : List (Frame α)) :
    (plug (takeOut c l r fs).1 (takeOut c l r fs).2.1).inorder =
      labelsBefore fs ++ (l.inorder ++ (r.inorder ++ labelsAfter fs)) := by
  cases l with
  | nil => simp [takeOut, inorder_plug, inorder]
  | node cl ll al rl =>
    cases r with
    | nil => simp [takeOut, inorder_plug, inorder]
    | node cr lr ar rr =>
      obtain ⟨c', a, x, path, hfirst⟩ := exists_firstNode (t := .node cr lr ar rr) (by simp) []
      have hin := congrArg inorder (firstNode_plug hfirst)
      have hbefore : labelsBefore path = [] := labelsBefore_firstNode hfirst
      simp only [inorder_plug, inorder, plug, hbefore, List.nil_append] at hin
      simp only [takeOut, hfirst, plug_append, inorder_plug, plug, Frame.put, Tree.mk, inorder,
        hbefore, ← hin, List.append_assoc, List.cons_append, List.nil_append]

theorem inorder_eraseAt (c : Color) (l r : Tree α) (fs : List (Frame α)) :
    (eraseAt c l r fs).inorder =
      labelsBefore fs ++ (l.inorder ++ (r.inorder ++ labelsAfter fs)) := by
  have h := inorder_takeOut c l r fs
  unfold eraseAt
  dsimp only
  split
  · exact h
  · rw [inorder_eraseFix, h]

end RbTree
