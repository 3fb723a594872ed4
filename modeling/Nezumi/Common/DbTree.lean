import Nezumi.Common.Db

/-!
# The trees of a table in the memory (`common/db.c`)

* `Linked`: the nodes of a tree are in the memory, each with its pointers and its color. `LinkedUp`: so
  are the nodes of the frames around a place.
* `At`: a bucket has a tree around a place. The tree can be entered and left (`At.down`, `At.up`), and
  what the functions do to a node is what is done to the subtree at the place (`At.setColor`,
  `At.rotate`, `At.unlink`).
* `rebalanceLoop_spec`, `eraseLoop_spec`: the loops compute `insertFix` and `eraseFix`.
-/

namespace Nezumi

open RbTree RbTree.Tree

/-! ## Nodes -/

/-- The links of a node with the child `near` on the side `d`. -/
def mkLinks (d : Side) (parent near far : Option Nat) (c : Color) : Links :=
  match d with
  | .left => ⟨parent, near, far, c⟩
  | .right => ⟨parent, far, near, c⟩

section
variable (d : Side) (p p' x y z : Option Nat) (c c' : Color)

theorem mkLinks_other : mkLinks d.other p x y c = mkLinks d p y x c := by cases d <;> rfl

@[simp] theorem mkLinks_parent : (mkLinks d p x y c).parent = p := by cases d <;> rfl

@[simp] theorem mkLinks_color : (mkLinks d p x y c).color = c := by cases d <;> rfl

@[simp] theorem mkLinks_child : (mkLinks d p x y c).child d = x := by cases d <;> rfl

@[simp] theorem mkLinks_child_other : (mkLinks d p x y c).child d.other = y := by cases d <;> rfl

@[simp] theorem mkLinks_setChild :
    (mkLinks d p x y c).setChild d z = mkLinks d p z y c := by cases d <;> rfl

@[simp] theorem mkLinks_setChild_other :
    (mkLinks d p x y c).setChild d.other z = mkLinks d p x z c := by cases d <;> rfl

theorem mkLinks_setParent :
    { mkLinks d p x y c with parent := p' } = mkLinks d p' x y c := by cases d <;> rfl

theorem mkLinks_setColor :
    { mkLinks d p x y c with color := c' } = mkLinks d p x y c' := by cases d <;> rfl

end

/-! ## Trees -/

/-- The nodes of a tree below `p` are in the memory. -/
def Linked (m : Nat → Links) : (p : Option Nat) → RbTree.Tree Nat → Prop
  | _, .nil => True
  | p, .node c l i r => m i = ⟨p, l.root, r.root, c⟩ ∧ Linked m (some i) l ∧ Linked m (some i) r

section
variable {m m' : Nat → Links} {p p' : Option Nat} {t : RbTree.Tree Nat}

theorem linked_mk {d : Side} {c : Color} {i : Nat} {s t : RbTree.Tree Nat} :
    Linked m p (mk d c i s t) ↔
      m i = mkLinks d p s.root t.root c ∧ Linked m (some i) s ∧ Linked m (some i) t := by
  cases d
  · rfl
  · exact and_congr_right fun _ => and_comm

theorem mem_of_root {i : Nat} (h : t.root = some i) : i ∈ t.inorder := by
  cases t with
  | nil => cases h
  | node c l j r =>
    cases h
    simp [inorder]

theorem mem_inorder_mk {d : Side} {c : Color} {i j : Nat} {s t : RbTree.Tree Nat} :
    j ∈ (mk d c i s t).inorder ↔ j = i ∨ j ∈ s.inorder ∨ j ∈ t.inorder := by
  cases d <;> simp only [RbTree.Tree.mk, inorder, List.mem_append, List.mem_cons] <;> grind

theorem nodup_mk {d : Side} {c : Color} {i : Nat} {s t : RbTree.Tree Nat} :
    (mk d c i s t).inorder.Nodup ↔ i ∉ s.inorder ∧ i ∉ t.inorder ∧ s.inorder.Nodup ∧
      t.inorder.Nodup ∧ ∀ j ∈ s.inorder, j ∉ t.inorder := by
  cases d <;>
    simp only [RbTree.Tree.mk, inorder, List.nodup_append, List.nodup_cons, List.mem_cons] <;> grind

theorem Linked.congr (h : Linked m p t) (hm : ∀ i ∈ t.inorder, m' i = m i) : Linked m' p t := by
  induction t generalizing p with
  | nil => trivial
  | node c l i r ihl ihr =>
    simp only [inorder, List.mem_append, List.mem_cons] at hm
    obtain ⟨hi, hl, hr⟩ := h
    exact ⟨(hm i (by simp)).trans hi, ihl hl fun j hj => hm j (.inl hj),
      ihr hr fun j hj => hm j (.inr (.inr hj))⟩

/-- The root of a tree is put below another node. -/
theorem Linked.reparent (h : Linked m p t) (hnd : t.inorder.Nodup)
    (hm : ∀ i ∈ t.inorder, m' i = if t.root = some i then { m i with parent := p' } else m i) :
    Linked m' p' t := by
  cases t with
  | nil => trivial
  | node c l i r =>
    simp only [inorder, List.mem_append, List.mem_cons, root, Option.some.injEq] at hm
    simp only [inorder, List.nodup_append, List.nodup_cons, List.mem_cons] at hnd
    obtain ⟨hi, hl, hr⟩ := h
    refine ⟨by rw [hm i (by simp), if_pos rfl, hi], hl.congr fun j hj => ?_,
      hr.congr fun j hj => ?_⟩
    · have : j ≠ i := hnd.2.2 j hj i (.inl rfl)
      rw [hm j (.inl hj), if_neg this.symm]
    · have : j ≠ i := fun h => hnd.2.1.1 (h ▸ hj)
      rw [hm j (.inr (.inr hj)), if_neg this.symm]

end

/-! ## Frames -/

/-- The labels in the frames. -/
def labels (fs : List (Frame Nat)) : List Nat := fs.flatMap fun f => f.label :: f.sib.inorder

/-- The node above a place. -/
def above : List (Frame Nat) → Option Nat
  | [] => none
  | f :: _ => some f.label

/-- The nodes of the frames around the place `hole` are in the memory, below the pointer `top`. -/
def LinkedUp (m : Nat → Links) (top : Option Nat) : (fs : List (Frame Nat)) → (hole : Option Nat) →
    Prop
  | [], hole => top = hole
  | f :: fs, hole => m f.label = mkLinks f.side (above fs) hole f.sib.root f.color ∧
    Linked m (some f.label) f.sib ∧ LinkedUp m top fs (some f.label)

section
variable {m m' : Nat → Links} {top hole hole' : Option Nat} {f : Frame Nat} {fs : List (Frame Nat)}

theorem mem_labels_cons {i : Nat} :
    i ∈ labels (f :: fs) ↔ i = f.label ∨ i ∈ f.sib.inorder ∨ i ∈ labels fs := by
  simp [labels]

theorem LinkedUp.congr (h : LinkedUp m top fs hole) (hm : ∀ i ∈ labels fs, m' i = m i) :
    LinkedUp m' top fs hole := by
  induction fs generalizing hole with
  | nil => exact h
  | cons f fs ih =>
    simp only [mem_labels_cons] at hm
    obtain ⟨hf, hs, hup⟩ := h
    exact ⟨(hm _ (.inl rfl)).trans hf, hs.congr fun j hj => hm j (.inr (.inl hj)),
      ih hup fun j hj => hm j (.inr (.inr hj))⟩

variable (hole') in
/-- The pointer to the place is changed. -/
theorem LinkedUp.rehole (h : LinkedUp m top fs hole) (hnd : (labels fs).Nodup)
    (hm : ∀ f ∈ fs.head?, ∀ i ∈ labels fs,
      m' i = if i = f.label then (m i).setChild f.side hole' else m i) :
    LinkedUp m' (if fs = [] then hole' else top) fs hole' := by
  cases fs with
  | nil => rfl
  | cons f fs =>
    simp only [List.head?_cons, Option.mem_def, Option.some.injEq, forall_eq', mem_labels_cons] at hm
    simp only [labels, List.flatMap_cons, List.cons_append, List.nodup_cons, List.mem_append,
      not_or] at hnd
    obtain ⟨hf, hs, hup⟩ := h
    refine ⟨by rw [hm _ (.inl rfl), if_pos rfl, hf, mkLinks_setChild], hs.congr fun j hj => ?_,
      hup.congr fun j hj => ?_⟩
    · have : j ≠ f.label := fun h => hnd.1.1 (h ▸ hj)
      rw [hm j (.inr (.inl hj)), if_neg this]
    · have : j ≠ f.label := fun h => hnd.1.2 (h ▸ hj)
      rw [hm j (.inr (.inr hj)), if_neg this]

/-- The pointer to the root of the tree is one to a node of the tree. -/
theorem LinkedUp.top_mem (h : LinkedUp m top fs hole) (hfs : fs ≠ []) : ∃ i ∈ labels fs, top = some i := by
  induction fs generalizing hole with
  | nil => exact absurd rfl hfs
  | cons f fs ih =>
    cases fs with
    | nil => exact ⟨f.label, by simp [labels], h.2.2⟩
    | cons g fs =>
      obtain ⟨i, hi, htop⟩ := ih h.2.2 (by simp)
      exact ⟨i, mem_labels_cons.mpr (.inr (.inr hi)), htop⟩

end

/-! ## A place in a bucket -/

/-- A bucket has the tree around a place. The memory of the other nodes is as in `m`. -/
structure At (m : Nat → Links) (s : Bucket) (t : RbTree.Tree Nat) (fs : List (Frame Nat)) : Prop where
  sub : Linked s.links (above fs) t
  up : LinkedUp s.links s.root fs t.root
  nodup : (t.inorder ++ labels fs).Nodup
  other : ∀ i, i ∉ t.inorder → i ∉ labels fs → s.links i = m i

namespace At

variable {m : Nat → Links} {s : Bucket} {t : RbTree.Tree Nat} {f : Frame Nat} {fs : List (Frame Nat)}
variable {d : Side} {c : Color} {i : Nat} {near far : RbTree.Tree Nat}

theorem up_iff : At m s (f.put f.color t) fs ↔ At m s t (f :: fs) := by
  have hperm : ((f.put f.color t).inorder ++ labels fs).Perm (t.inorder ++ labels (f :: fs)) := by
    obtain ⟨d, c, i, u⟩ := f
    cases d
    · simp [Frame.put, RbTree.Tree.mk, inorder, labels]
    · refine List.perm_iff_count.mpr fun j => ?_
      simp [Frame.put, RbTree.Tree.mk, inorder, labels, List.count_cons]
      omega
  have hmem : ∀ i, i ∉ (f.put f.color t).inorder ∧ i ∉ labels fs ↔
      i ∉ t.inorder ∧ i ∉ labels (f :: fs) := fun i => by
    simp only [Frame.put, mem_inorder_mk, mem_labels_cons]
    grind
  constructor
  · rintro ⟨hsub, hup, hnd, hother⟩
    obtain ⟨hi, ht, hu⟩ := linked_mk.mp hsub
    rw [Frame.put, root_mk] at hup
    exact ⟨ht, ⟨hi, hu, hup⟩, hperm.nodup_iff.mp hnd,
      fun i h1 h2 => ((hmem i).mpr ⟨h1, h2⟩).elim (hother i)⟩
  · rintro ⟨ht, ⟨hi, hu, hup⟩, hnd, hother⟩
    exact ⟨linked_mk.mpr ⟨hi, ht, hu⟩, by rwa [Frame.put, root_mk], hperm.nodup_iff.mpr hnd,
      fun i h1 h2 => ((hmem i).mp ⟨h1, h2⟩).elim (hother i)⟩

theorem down_iff : At m s near (⟨d, c, i, far⟩ :: fs) ↔ At m s (RbTree.Tree.mk d c i near far) fs :=
  up_iff.symm

theorem plug_iff {gs : List (Frame Nat)} : At m s (plug t gs) fs ↔ At m s t (gs ++ fs) := by
  induction gs generalizing t with
  | nil => rfl
  | cons g gs ih => exact ih.trans up_iff

/-- From one subtree of a node to the other one. -/
theorem sibling (h : At m s near (⟨d, c, i, far⟩ :: fs)) :
    At m s far (⟨d.other, c, i, near⟩ :: fs) := by
  rw [down_iff] at h ⊢
  rwa [mk_other]

/-! ### What the memory tells -/

theorem links_root (h : At m s (RbTree.Tree.mk d c i near far) fs) :
    s.links i = mkLinks d (above fs) near.root far.root c := (linked_mk.mp h.sub).1

theorem links_up (h : At m s t (f :: fs)) :
    s.links f.label = mkLinks f.side (above fs) t.root f.sib.root f.color := h.up.1

theorem parent (h : At m s t fs) (ht : t.root = some i) : (s.links i).parent = above fs := by
  cases t with
  | nil => cases ht
  | node c l j r =>
    cases ht
    rw [h.sub.1]

theorem color (h : At m s t fs) (ht : t.root = some i) : (s.links i).color = t.color := by
  cases t with
  | nil => cases ht
  | node c l j r =>
    cases ht
    rw [h.sub.1]
    rfl

theorem isBlack (h : At m s t fs) : s.isBlack t.root = decide (t.color = .black) := by
  cases t with
  | nil => rfl
  | node c l j r =>
    rw [Bucket.isBlack, root, Option.all_some, h.sub.1]
    rfl

theorem notMem_labels (h : At m s t fs) (hi : i ∈ t.inorder) : i ∉ labels fs :=
  fun hi' => (List.nodup_append.mp h.nodup).2.2 i hi i hi' rfl

theorem root_eq_iff (h : At m s t fs) (ht : t.root = some i) : s.root = some i ↔ fs = [] := by
  constructor
  · intro hroot
    by_contra hfs
    obtain ⟨j, hj, htop⟩ := LinkedUp.top_mem h.up hfs
    obtain rfl : i = j := Option.some.inj (hroot.symm.trans htop)
    exact h.notMem_labels (mem_of_root ht) hj
  · rintro rfl
    exact h.up.trans ht

/-! ### What is done to a node -/

theorem setColor (h : At m s t fs) (ht : t.root = some i) (c : Color) :
    At m (s.setColor i c) (t.recolor c) fs := by
  cases t with
  | nil => cases ht
  | node c' l j r =>
    cases ht
    have hne : ∀ k, k ≠ i → (s.setColor i c).links k = s.links k := fun k hk =>
      Function.update_of_ne hk ..
    have hnd := h.nodup
    simp only [inorder, List.nodup_append, List.nodup_cons, List.mem_append, List.mem_cons] at hnd
    obtain ⟨hi, hl, hr⟩ := h.sub
    refine ⟨⟨?_, hl.congr fun k hk => hne k ?_, hr.congr fun k hk => hne k ?_⟩,
      h.up.congr fun k hk => hne k ?_, h.nodup, fun k h1 h2 => ?_⟩
    · simp [Bucket.setColor, Bucket.set, hi]
    · exact hnd.1.2.2 k hk i (.inl rfl)
    · exact fun h => hnd.1.2.1.1 (h ▸ hk)
    · exact fun h => hnd.2.2 i (.inr (.inl rfl)) k hk h.symm
    · have hk : k ≠ i := fun h => h1 (by simp [recolor, inorder, h])
      rw [hne k hk]
      exact h.other k h1 h2

theorem setColorOpt (h : At m s t fs) (c : Color) :
    At m (s.setColorOpt t.root c) (t.recolor c) fs := by
  cases t with
  | nil => exact h
  | node c' l j r => exact h.setColor rfl c

end At

/-! ### Turning a node -/

theorem relink_cons {s : Bucket} {f : Frame Nat} {fs : List (Frame Nat)} {p : Nat}
    (hup : LinkedUp s.links s.root (f :: fs) (some p)) (hp : (s.links p).parent = some f.label)
    (hpfs : p ∉ labels (f :: fs)) (d : Side) (y : Option Nat) :
    s.relink d p y = some (s.setChild f.label f.side y) := by
  have hroot : s.root ≠ some p := fun h => by
    obtain ⟨i, hi, htop⟩ := hup.top_mem (by simp)
    cases h.symm.trans htop
    exact hpfs hi
  rw [Bucket.relink, if_neg hroot, hp]
  dsimp only [Option.bind_eq_bind, Option.bind_some]
  rw [hup.1]
  by_cases hd : f.side = d
  · subst hd
    simp
  · obtain rfl : d = f.side.other := by rw [Side.eq_other_of_ne hd, Side.other_other]
    have : f.sib.root ≠ some p := fun h =>
      hpfs (mem_labels_cons.mpr (.inr (.inl (mem_of_root h))))
    simp [this]

/-- What points to `p` points to `y`, and no other pointer is changed. -/
theorem relink_spec {s : Bucket} {fs : List (Frame Nat)} {p : Nat}
    (hup : LinkedUp s.links s.root fs (some p)) (hp : (s.links p).parent = above fs)
    (hnd : (labels fs).Nodup) (hpfs : p ∉ labels fs) (d : Side) (y : Option Nat) :
    ∃ s', s.relink d p y = some s' ∧ LinkedUp s'.links s'.root fs y ∧
      (∀ i, i ∉ labels fs → s'.links i = s.links i) ∧
      ∀ f ∈ fs.head?, s' = s.setChild f.label f.side y := by
  cases fs with
  | nil =>
    have hroot : s.root = some p := hup
    exact ⟨{ s with root := y }, by simp [Bucket.relink, hroot], rfl, fun _ _ => rfl, by simp⟩
  | cons f fs =>
    refine ⟨_, relink_cons hup hp hpfs d y, ?_, fun i hi => Function.update_of_ne ?_ .., ?_⟩
    · refine hup.rehole y hnd fun g hg i hi => ?_
      cases hg
      by_cases hi : i = f.label
      · simp [Bucket.setChild, Bucket.set, hi]
      · simp [Bucket.setChild, Bucket.set, hi]
    · rintro rfl
      exact hi (mem_labels_cons.mpr (.inl rfl))
    · simp

section
variable {s : Bucket} {i j : Nat} {d : Side}

theorem Bucket.links_setParent_self {p : Option Nat} :
    (s.setParent i p).links i = { s.links i with parent := p } := Function.update_self ..

theorem Bucket.links_setChild_self {k : Option Nat} :
    (s.setChild i d k).links i = (s.links i).setChild d k := Function.update_self ..

theorem Bucket.links_setParent_of_ne {p : Option Nat} (h : j ≠ i) :
    (s.setParent i p).links j = s.links j := Function.update_of_ne h ..

theorem Bucket.links_setChild_of_ne {k : Option Nat} (h : j ≠ i) :
    (s.setChild i d k).links j = s.links j := Function.update_of_ne h ..

theorem Bucket.links_setParentOpt {x p : Option Nat} :
    (s.setParentOpt x p).links j =
      if x = some j then { s.links j with parent := p } else s.links j := by
  cases x with
  | none => rfl
  | some k =>
    by_cases hk : k = j
    · simp [Bucket.setParentOpt, Bucket.setParent, Bucket.set, hk]
    · simp [Bucket.setParentOpt, Bucket.setParent, Bucket.set, hk, Ne.symm hk]

@[simp] theorem Bucket.root_setParentOpt {x p : Option Nat} :
    (s.setParentOpt x p).root = s.root := by cases x <;> rfl

end

/-- **A rotation** brings the child `y` of `p` to the place of `p`. -/
theorem At.rotate {m : Nat → Links} {s : Bucket} {fs : List (Frame Nat)} {d : Side} {c c' : Color}
    {p y : Nat} {a b e : RbTree.Tree Nat} (h : At m s (RbTree.Tree.mk d c p a (RbTree.Tree.mk d c' y b e)) fs) :
    ∃ s', s.rotate d p = some s' ∧ At m s' (RbTree.Tree.mk d c' y (RbTree.Tree.mk d c p a b) e) fs := by
  obtain ⟨hp, ha, hy⟩ := linked_mk.mp h.sub
  obtain ⟨hy, hb, he⟩ := linked_mk.mp hy
  rw [root_mk] at hp
  have hnd := h.nodup
  simp only [List.nodup_append, nodup_mk, mem_inorder_mk, not_or] at hnd
  obtain ⟨⟨hpa, ⟨hpy, hpb, hpe⟩, hand, ⟨hyb, hye, hbnd, hend, hbe⟩, haybe⟩, hfs, htfs⟩ := hnd
  let s₁ := (s.setChild p d.other b.root).setParentOpt b.root (some p)
  let s₂ := s₁.setParent y (above fs)
  have hbroot : ∀ j, j ∉ b.inorder → b.root ≠ some j := fun j hj hr => hj (mem_of_root hr)
  have hp₁ : s₁.links p = mkLinks d (above fs) a.root b.root c := by
    rw [Bucket.links_setParentOpt, if_neg (hbroot p hpb), Bucket.links_setChild_self, hp,
      mkLinks_setChild_other]
  have hne₂ : ∀ j, j ≠ p → j ≠ y → j ∉ b.inorder → s₂.links j = s.links j := fun j h1 h2 h3 => by
    rw [Bucket.links_setParent_of_ne h2, Bucket.links_setParentOpt, if_neg (hbroot j h3),
      Bucket.links_setChild_of_ne h1]
  have hpfs : p ∉ labels fs := fun hj => htfs p (.inl rfl) p hj rfl
  have hyfs : y ∉ labels fs := fun hj => htfs y (.inr (.inr (.inl rfl))) y hj rfl
  have hbfs : ∀ j ∈ labels fs, j ∉ b.inorder := fun j hj hjb =>
    htfs j (.inr (.inr (.inr (.inl hjb)))) j hj rfl
  have hup₂ : LinkedUp s₂.links s₂.root fs (some p) := by
    have hup := h.up
    rw [root_mk] at hup
    rw [show s₂.root = s.root by simp [s₂, s₁, Bucket.setParent, Bucket.setChild, Bucket.set]]
    refine hup.congr fun j hj => hne₂ j ?_ ?_ (hbfs j hj) <;> rintro rfl
    · exact hpfs hj
    · exact hyfs hj
  have hp₂ : s₂.links p = mkLinks d (above fs) a.root b.root c := by
    rw [Bucket.links_setParent_of_ne hpy, hp₁]
  have hy₂ : s₂.links y = mkLinks d (above fs) b.root e.root c' := by
    have : s₁.links y = s.links y := by
      rw [Bucket.links_setParentOpt, if_neg (hbroot y hyb),
        Bucket.links_setChild_of_ne (Ne.symm hpy)]
    rw [Bucket.links_setParent_self, this, hy, mkLinks_setParent]
  obtain ⟨s₃, hs₃, hup₃, hne₃, -⟩ := relink_spec hup₂ (by rw [hp₂, mkLinks_parent]) hfs hpfs d (some y)
  let s₄ := (s₃.setChild y d (some p)).setParent p (some y)
  have hne₄ : ∀ j, j ≠ p → j ≠ y → s₄.links j = s₃.links j := fun j h1 h2 => by
    rw [Bucket.links_setParent_of_ne h1, Bucket.links_setChild_of_ne h2]
  have hne : ∀ j, j ≠ p → j ≠ y → j ∉ b.inorder → j ∉ labels fs → s₄.links j = s.links j :=
    fun j h1 h2 h3 h4 => (hne₄ j h1 h2).trans ((hne₃ j h4).trans (hne₂ j h1 h2 h3))
  have hy₁ : (s₁.links p).parent = above fs := by rw [hp₁, mkLinks_parent]
  have hrun : s.rotate d p = some s₄ := by
    simp only [Bucket.rotate, hp, hy, mkLinks_child, mkLinks_child_other, Option.bind_eq_bind,
      Option.bind_some]
    rw [show s₁.setParent y (s₁.links p).parent = s₂ by rw [hy₁], hs₃, Option.bind_some]
  have hp₄ : s₄.links p = mkLinks d (some y) a.root b.root c := by
    rw [Bucket.links_setParent_self, Bucket.links_setChild_of_ne hpy, hne₃ p hpfs, hp₂,
      mkLinks_setParent]
  have hy₄ : s₄.links y = mkLinks d (above fs) (some p) e.root c' := by
    rw [Bucket.links_setParent_of_ne (Ne.symm hpy), Bucket.links_setChild_self, hne₃ y hyfs, hy₂,
      mkLinks_setChild]
  refine ⟨s₄, hrun, ?_, ?_, ?_, ?_⟩
  · rw [linked_mk, linked_mk, root_mk]
    refine ⟨hy₄, ⟨hp₄, ha.congr fun j hj => ?_, hb.reparent hbnd fun j hj => ?_⟩,
      he.congr fun j hj => ?_⟩
    · exact hne j (fun h => hpa (h ▸ hj)) (haybe j hj).1 (haybe j hj).2.1
        fun h => htfs j (.inr (.inl hj)) j h rfl
    · have hjp : j ≠ p := fun h => hpb (h ▸ hj)
      have hjy : j ≠ y := fun h => hyb (h ▸ hj)
      rw [hne₄ j hjp hjy, hne₃ j fun h => hbfs j h hj, Bucket.links_setParent_of_ne hjy,
        Bucket.links_setParentOpt, Bucket.links_setChild_of_ne hjp]
    · exact hne j (fun h => hpe (h ▸ hj)) (fun h => hye (h ▸ hj)) (fun h => hbe j h hj)
        fun h => htfs j (.inr (.inr (.inr (.inr hj)))) j h rfl
  · rw [root_mk]
    refine hup₃.congr fun j hj => hne₄ j ?_ ?_ <;> rintro rfl
    · exact hpfs hj
    · exact hyfs hj
  · refine (List.Perm.append_right _ ?_).nodup_iff.mp h.nodup
    refine List.perm_iff_count.mpr fun j => ?_
    cases d <;> simp [RbTree.Tree.mk, inorder, List.count_cons]
  · intro j h1 h2
    simp only [mem_inorder_mk, not_or] at h1
    obtain ⟨hjy, ⟨hjp, hja, hjb⟩, hje⟩ := h1
    rw [hne j hjp hjy hjb h2]
    exact h.other j (by simp only [mem_inorder_mk]; grind) h2

/-! ## After an insertion -/

section
variable {m : Nat → Links} {s : Bucket} {t : RbTree.Tree Nat} {f g : Frame Nat} {fs : List (Frame Nat)}
variable {p n : Nat}

/-- A red sibling of the parent: both are made black and their parent red. -/
theorem rebalanceSide_red (h : At m s t (f :: g :: fs)) (hg : g.sib.color = .red) :
    ∃ s', s.rebalanceSide g.side p f.label g.label = some (s', g.label) ∧
      At m s' (RbTree.Tree.mk g.side .red g.label (f.put .black t) (g.sib.recolor .black)) fs := by
  have h₁ := At.up_iff.mpr h
  have hy : (s.links g.label).child g.side.other = g.sib.root := by
    rw [h₁.links_up, mkLinks_child_other]
  have hblack := h₁.sibling.isBlack
  have h₂ := (h₁.setColor (root_mk ..) .black).sibling.setColorOpt .black
  rw [At.down_iff, mk_other, Frame.put, recolor_mk] at h₂
  have h₃ := h₂.setColor (root_mk ..) .red
  rw [recolor_mk] at h₃
  refine ⟨_, ?_, h₃⟩
  rw [Bucket.rebalanceSide, hy, hblack]
  simp [hg]

/-- The parent on the same side of its own parent, which is turned to the other side. -/
theorem rebalanceTurn_spec (h : At m s t (f :: g :: fs)) (hp : t.root = some p)
    (hd : f.side = g.side) :
    ∃ s', s.rebalanceTurn g.side p = some (s', p) ∧
      At m s' (RbTree.Tree.mk g.side .black f.label t (g.put .red f.sib)) fs := by
  have h₁ := (At.up_iff.mpr h).setColor (root_mk ..) .black
  rw [Frame.put, recolor_mk] at h₁
  have hq := h₁.parent (root_mk ..)
  have h₂ := (At.up_iff.mpr h₁).setColor (root_mk ..) .red
  rw [Frame.put, recolor_mk, hd, ← mk_other, ← mk_other g.side] at h₂
  obtain ⟨s', hrot, h₃⟩ := h₂.rotate
  rw [mk_other, mk_other] at h₃
  refine ⟨s', ?_, h₃⟩
  simp only [Bucket.rebalanceTurn, h.parent hp, above, Option.bind_eq_bind, Option.bind_some, hq,
    hrot]

/-- A black sibling of the parent: one or two rotations, after which the node is below a black
one. -/
theorem rebalanceSide_black (h : At m s t (f :: g :: fs)) (hp : t.root = some p)
    (hf : f.color = .red) (hg : g.sib.color ≠ .red) :
    ∃ s' p' x u v, s.rebalanceSide g.side p f.label g.label = some (s', p') ∧
      insertTurn t f g = RbTree.Tree.mk g.side .black x u v ∧ u.root = some p' ∧
      At m s' (insertTurn t f g) fs := by
  have h₁ := At.up_iff.mpr h
  have hy : (s.links g.label).child g.side.other = g.sib.root := by
    rw [h₁.links_up, mkLinks_child_other]
  have hblack : s.isBlack g.sib.root = true := by
    rw [h₁.sibling.isBlack, Color.ne_red hg]
    rfl
  unfold Bucket.rebalanceSide insertTurn
  dsimp only
  rw [hy, hblack, Bool.not_true, if_neg Bool.false_ne_true]
  by_cases hd : f.side = g.side
  · have hne : (s.links f.label).child g.side.other ≠ some p := by
      rw [h.links_up, ← hd, mkLinks_child_other]
      intro hr
      exact h.notMem_labels (mem_of_root hp) (mem_labels_cons.mpr (.inr (.inl (mem_of_root hr))))
    obtain ⟨s', hs', h'⟩ := rebalanceTurn_spec h hp hd
    exact ⟨s', p, f.label, t, g.put .red f.sib, by rw [if_neg hne]; exact hs', if_pos hd, hp,
      by rwa [if_pos hd]⟩
  · have hd' : f.side = g.side.other := Side.eq_other_of_ne hd
    have heq : (s.links f.label).child g.side.other = some p := by
      rw [h.links_up, ← hd', mkLinks_child, hp]
    rw [if_pos heq, if_neg hd]
    cases t with
    | nil => cases hp
    | node c l i r =>
      cases hp
      rw [Frame.put, hd', mk_other, node_eq_mk g.side] at h₁
      obtain ⟨s₂, hrot, h₂⟩ := h₁.rotate
      rw [← At.down_iff] at h₂
      obtain ⟨s', hs', h'⟩ := rebalanceTurn_spec h₂ (root_mk ..) rfl
      refine ⟨s', f.label, p, _, _, ?_, rfl, root_mk .., by rwa [hf] at h'⟩
      rw [hrot, Option.bind_some, hs']

/-- The loop is left below a black node. -/
theorem rebalanceLoop_exit (h : At m s t fs) (hp : t.root = some p)
    (hfs : ∀ f ∈ fs.head?, f.color = .black) {fuel : Nat} (hfuel : 0 < fuel) :
    Bucket.rebalanceLoop fuel s p = some s := by
  obtain ⟨fuel, rfl⟩ := Nat.exists_eq_add_one_of_ne_zero hfuel.ne'
  rw [Bucket.rebalanceLoop]
  cases fs with
  | nil => rw [if_pos ((h.root_eq_iff hp).mpr rfl)]
  | cons f fs =>
    have hq := h.parent hp
    have hc : (s.links f.label).color ≠ .red := by
      rw [h.links_up, mkLinks_color, hfs f rfl]
      decide
    rw [if_neg fun hroot => List.cons_ne_nil _ _ ((h.root_eq_iff hp).mp hroot)]
    simp only [hq, above, Option.bind_eq_bind, Option.bind_some, if_pos hc]

/-- The side of its parent on which a node is. -/
theorem At.side (h : At m s t (g :: fs)) (hp : t.root = some p) :
    (if (s.links g.label).left = some p then Side.left else Side.right) = g.side := by
  have hne : g.sib.root ≠ some p := fun hr =>
    h.notMem_labels (mem_of_root hp) (mem_labels_cons.mpr (.inr (.inl (mem_of_root hr))))
  rw [h.links_up, hp]
  cases g.side
  · exact if_pos rfl
  · exact if_neg hne

/-- One round below a red node. -/
theorem rebalanceLoop_round (h : At m s t (f :: g :: fs)) (hp : t.root = some p)
    (hf : f.color = .red) (fuel : Nat) : Bucket.rebalanceLoop (fuel + 1) s p =
      (s.rebalanceSide g.side p f.label g.label).bind fun r =>
        Bucket.rebalanceLoop fuel r.1 r.2 := by
  have h₁ := At.up_iff.mpr h
  have hq : (s.links f.label).parent = some g.label := h₁.parent (root_mk ..)
  have hc : ¬ (s.links f.label).color ≠ .red := by rw [h.links_up, mkLinks_color, hf]; simp
  rw [Bucket.rebalanceLoop,
    if_neg fun hroot => List.cons_ne_nil _ _ ((h.root_eq_iff hp).mp hroot), h.parent hp]
  simp only [above, Option.bind_eq_bind, Option.bind_some, if_neg hc, hq, h₁.side (root_mk ..)]

/-- **The loop of `db_rebalance`** repairs the tree up to the color of the root. -/
theorem rebalanceLoop_spec (h : At m s t fs) (hp : t.root = some p) (hfs : FramesOk fs n .black)
    {fuel : Nat} (hfuel : fs.length < fuel) :
    ∃ s' u, Bucket.rebalanceLoop fuel s p = some s' ∧ At m s' u [] ∧
      u.recolor .black = insertFix t fs := by
  induction t, fs using insertFix.induct generalizing s p n fuel with
  | case1 t => exact ⟨s, t, rebalanceLoop_exit h hp (by simp) (by omega), h, by rw [insertFix]⟩
  | case2 t f =>
    have hf : f.color = .black := Color.ne_red fun hr => by
      cases ((framesOk_red hr).mp hfs).2.2.2
    exact ⟨s, _, rebalanceLoop_exit h hp (by simpa using hf) (by omega), At.plug_iff.mpr h,
      by rw [insertFix]⟩
  | case3 t f g fs hf =>
    exact ⟨s, _, rebalanceLoop_exit h hp (by simpa using hf) (by omega),
      At.plug_iff.mpr (by simpa using h), by rw [insertFix, if_pos hf]⟩
  | case4 t f g fs hf hg ih =>
    rw [insertFix, if_neg hf, if_pos hg]
    obtain ⟨fuel, rfl⟩ := Nat.exists_eq_add_one_of_ne_zero (Nat.ne_zero_of_lt hfuel)
    obtain ⟨-, -, -, -, hrest⟩ := hfs.redRed (Color.ne_black hf)
    obtain ⟨s₁, hs₁, h₁⟩ := rebalanceSide_red (p := p) h hg
    rw [rebalanceLoop_round h hp (Color.ne_black hf), hs₁]
    simp only [List.length_cons] at hfuel
    exact ih h₁ (root_mk ..) hrest (by omega)
  | case5 t f g fs hf hg =>
    rw [insertFix, if_neg hf, if_neg hg]
    obtain ⟨fuel, rfl⟩ := Nat.exists_eq_add_one_of_ne_zero (Nat.ne_zero_of_lt hfuel)
    obtain ⟨s₁, p', x, u, v, hs₁, hturn, hu, h₁⟩ :=
      rebalanceSide_black h hp (Color.ne_black hf) hg
    rw [rebalanceLoop_round h hp (Color.ne_black hf), hs₁]
    have h₂ := h₁
    rw [hturn, ← At.down_iff] at h₂
    simp only [List.length_cons] at hfuel
    exact ⟨s₁, _, rebalanceLoop_exit h₂ hu (by simp) (by omega),
      At.plug_iff.mpr (by simpa using h₁), rfl⟩

/-- **`db_rebalance`** for a red node. -/
theorem dbRebalance_spec (h : At m s t fs) (hp : t.root = some p) (hc : t.color = .red)
    (hfs : FramesOk fs n .black) {fuel : Nat} (hfuel : fs.length < fuel) :
    ∃ s', s.dbRebalance fuel p = some s' ∧ At m s' (insertFix t fs) [] := by
  have h₁ := h.setColor hp .red
  rw [recolor_of_color hc] at h₁
  obtain ⟨s₂, u, hs₂, h₂, hu⟩ := rebalanceLoop_spec h₁ hp hfs hfuel
  have hne : u ≠ .nil := by
    rintro rfl
    have hin : (plug t fs).inorder = [] := by rw [← inorder_insertFix hc, ← hu]; rfl
    rw [inorder_plug] at hin
    have : t.inorder = [] := by simp_all
    exact absurd (mem_of_root hp) (by simp [this])
  obtain ⟨r, hr⟩ : ∃ r, u.root = some r := Option.ne_none_iff_exists'.mp (mt root_eq_none.mp hne)
  refine ⟨_, ?_, hu ▸ h₂.setColor hr .black⟩
  have hroot : s₂.root = some r := h₂.up.trans hr
  simp only [Bucket.dbRebalance, hs₂, hroot, Option.bind_eq_bind, Option.bind_some]

/-- The first node of a tree. -/
theorem addLeaf_root {q : Nat} (h : At m s .nil []) (fuel : Nat) :
    ∃ s', s.addLeaf fuel q none = some s' ∧ At m s' (.node .black .nil q .nil) [] := by
  refine ⟨_, rfl, ⟨?_, trivial, trivial⟩, rfl, by simp [inorder, labels], fun i h1 _ => ?_⟩
  · simp [Bucket.setColor, Bucket.set, above, root]
  · have hi : i ≠ q := fun h => h1 (by simp [inorder, h])
    simp only [Bucket.setColor, Bucket.set, Function.update_of_ne hi]
    exact h.other i (by simp [inorder]) (by simp [labels])

/-- **A new node** at a place of a red-black tree. -/
theorem addLeaf_spec {q : Nat} {k : Int} (h : At m s .nil (f :: fs)) (hq : q ∉ labels (f :: fs))
    (hok : RbOk (plug .nil (f :: fs))) (hside : f.side = if k < 0 then .left else .right) {fuel : Nat}
    (hfuel : (f :: fs).length < fuel) :
    ∃ s' u, s.addLeaf fuel q (some (f.label, k)) = some s' ∧ At m s' u [] ∧ RbOk u ∧
      u.inorder = labelsBefore (f :: fs) ++ q :: labelsAfter (f :: fs) := by
  have hat : At m (((s.set q {}).setChild f.label f.side (some q)).setParent q (some f.label))
      (.node .red .nil q .nil) (f :: fs) := by
    have hqf : q ≠ f.label := fun h => hq (mem_labels_cons.mpr (.inl h))
    refine ⟨⟨?_, trivial, trivial⟩, ?_, ?_, fun i h1 h2 => ?_⟩
    · rw [Bucket.links_setParent_self, Bucket.links_setChild_of_ne hqf]
      simp [Bucket.set, above, root]
    · have hnd := (List.nodup_append.mp h.nodup).2.1
      refine h.up.rehole (some q) hnd fun g hg i hi => ?_
      cases hg
      have hiq : i ≠ q := fun h => hq (h ▸ hi)
      rw [Bucket.links_setParent_of_ne hiq]
      by_cases hif : i = f.label
      · rw [if_pos hif, hif, Bucket.links_setChild_self]
        simp [Bucket.set, Ne.symm hqf]
      · rw [if_neg hif, Bucket.links_setChild_of_ne hif]
        simp [Bucket.set, hiq]
    · have hnd := h.nodup
      simp only [inorder, List.nil_append, List.singleton_append, List.nodup_cons] at hnd ⊢
      exact ⟨hq, hnd⟩
    · have hiq : i ≠ q := fun h => h1 (by simp [inorder, h])
      have hif : i ≠ f.label := fun h => h2 (mem_labels_cons.mpr (.inl h))
      rw [Bucket.links_setParent_of_ne hiq, Bucket.links_setChild_of_ne hif]
      simp only [Bucket.set, Function.update_of_ne hiq]
      exact h.other i (by simp [inorder]) h2
  obtain ⟨n, hn, hfs⟩ := hok.split
  obtain rfl : n = 0 := hn
  have hin : (plug (.node .red .nil q .nil) (f :: fs)).inorder =
      labelsBefore (f :: fs) ++ q :: labelsAfter (f :: fs) := by
    rw [inorder_plug]
    rfl
  have hbal : (RbTree.Tree.node .red .nil q .nil).Bal 0 := ⟨⟨rfl, rfl⟩, rfl, rfl⟩
  unfold Bucket.addLeaf
  dsimp only
  rw [← hside, hat.links_up, mkLinks_color]
  by_cases hc : f.color = .red
  · obtain ⟨s', hs', h'⟩ := dbRebalance_spec hat rfl rfl hfs hfuel
    exact ⟨s', _, by rw [if_pos hc, hs'], h', insertFix_ok hbal rfl hfs,
      by rw [inorder_insertFix rfl, hin]⟩
  · refine ⟨_, _, if_neg hc, At.plug_iff.mpr (by simpa using hat), plug_ok (n := 0) ?_ hbal, hin⟩
    rw [framesOk_black (Color.ne_red hc)] at hfs ⊢
    exact hfs

end

/-! ## Removal -/

section
variable {m : Nat → Links} {s : Bucket} {t x : RbTree.Tree Nat} {f : Frame Nat} {fs : List (Frame Nat)}
variable {d : Side} {c : Color} {z : Nat}

/-- A node with one subtree is taken out: the subtree comes in its place. -/
theorem At.splice (h : At m s (RbTree.Tree.mk d c z x .nil) fs) :
    ∃ s' m', (s.setParentOpt x.root (above fs)).relink .left z x.root = some s' ∧
      (∀ i, i ≠ z → m' i = m i) ∧ At m' s' x fs ∧ s'.links z = s.links z ∧
      ∀ f ∈ fs.head?, s' = (s.setParentOpt x.root (above fs)).setChild f.label f.side x.root := by
  obtain ⟨hz, hx, -⟩ := linked_mk.mp h.sub
  have hnd := h.nodup
  simp only [List.nodup_append, nodup_mk, mem_inorder_mk] at hnd
  obtain ⟨⟨hzx, -, hxnd, -, -⟩, hfs, htfs⟩ := hnd
  have hzfs : z ∉ labels fs := fun hj => htfs z (.inl rfl) z hj rfl
  have hxfs : ∀ j ∈ x.inorder, j ∉ labels fs := fun j hj hj' => htfs j (.inr (.inl hj)) j hj' rfl
  have hxroot : ∀ j, j ∉ x.inorder → x.root ≠ some j := fun j hj hr => hj (mem_of_root hr)
  let s₁ := s.setParentOpt x.root (above fs)
  have hne₁ : ∀ j, j ∉ x.inorder → s₁.links j = s.links j := fun j hj => by
    rw [Bucket.links_setParentOpt, if_neg (hxroot j hj)]
  have hup₁ : LinkedUp s₁.links s₁.root fs (some z) := by
    have hup := h.up
    rw [root_mk] at hup
    rw [Bucket.root_setParentOpt]
    exact hup.congr fun j hj => hne₁ j fun hj' => hxfs j hj' hj
  obtain ⟨s₂, hs₂, hup₂, hne₂, hhead⟩ := relink_spec hup₁
    (by rw [hne₁ z hzx, hz, mkLinks_parent]) hfs hzfs .left x.root
  refine ⟨s₂, Function.update m z (s₂.links z), hs₂, fun i hi => Function.update_of_ne hi ..,
    ⟨?_, hup₂, ?_, fun j h1 h2 => ?_⟩, ?_, hhead⟩
  · refine hx.reparent hxnd fun j hj => ?_
    rw [hne₂ j (hxfs j hj), Bucket.links_setParentOpt]
  · exact List.nodup_append.mpr ⟨hxnd, hfs, fun j hj => htfs j (.inr (.inl hj))⟩
  · by_cases hj : j = z
    · rw [hj, Function.update_self]
    · rw [Function.update_of_ne hj, hne₂ j h2, hne₁ j h1]
      exact h.other j (by simp [mem_inorder_mk, hj, h1, inorder]) h2
  · rw [hne₂ z hzfs, hne₁ z hzx]

/-- The node on the far left of a tree. -/
theorem leftmost_spec {p : Option Nat} {i y : Nat} {gs : List (Frame Nat)} (h : Linked s.links p t)
    (hi : t.root = some i) (hy : firstNode t fs = some (c, y, x, gs)) {fuel : Nat}
    (hfuel : t.inorder.length < fuel) : s.leftmost fuel i = some y := by
  induction t, fs using firstNode.induct generalizing p i fuel with
  | case1 => cases hi
  | case2 =>
    cases hi
    cases hy
    obtain ⟨fuel, rfl⟩ := Nat.exists_eq_add_one_of_ne_zero (Nat.ne_zero_of_lt hfuel)
    rw [Bucket.leftmost, h.1]
    rfl
  | case3 _ _ _ _ _ _ _ _ ih =>
    cases hi
    obtain ⟨fuel, rfl⟩ := Nat.exists_eq_add_one_of_ne_zero (Nat.ne_zero_of_lt hfuel)
    rw [Bucket.leftmost, h.1]
    refine ih h.2.1 rfl hy ?_
    simp only [inorder, List.length_append, List.length_cons] at hfuel ⊢
    omega

/-- The node `y`, which has the subtrees of `z` already, comes in the place and the color of `z`. -/
theorem settle {y : Nat} {py : Option Nat} {cy : Color} {l r : RbTree.Tree Nat}
    (hup : LinkedUp s.links s.root fs (some z)) (hz : (s.links z).parent = above fs)
    (hzc : (s.links z).color = c) (hy : s.links y = ⟨py, l.root, r.root, cy⟩)
    (hl : Linked s.links (some y) l) (hr : Linked s.links (some y) r)
    (hnd : ((RbTree.Tree.node c l y r).inorder ++ labels fs).Nodup)
    (hzt : z ∉ (RbTree.Tree.node c l y r).inorder) (hzfs : z ∉ labels fs) :
    ∃ s', s.exchange z y = some s' ∧ At s'.links s' (RbTree.Tree.node c l y r) fs ∧ (s'.links z).color = cy ∧
      ∀ j, j ≠ z → j ∉ (RbTree.Tree.node c l y r).inorder → j ∉ labels fs → s'.links j = s.links j := by
  have hnd' := hnd
  simp only [List.nodup_append, inorder, List.nodup_cons, List.mem_append, List.mem_cons] at hnd'
  obtain ⟨⟨-, ⟨hyr, -⟩, hlyr⟩, hfs, htfs⟩ := hnd'
  simp only [inorder, List.mem_append, List.mem_cons, not_or] at hzt
  obtain ⟨hzl, hzy, hzr⟩ := hzt
  have hyl : y ∉ l.inorder := fun h => hlyr y h y (.inl rfl) rfl
  have hyfs : y ∉ labels fs := fun h => htfs y (.inr (.inl rfl)) y h rfl
  obtain ⟨s₁, hs₁, hup₁, hne₁, -⟩ := relink_spec hup hz hfs hzfs .left (some y)
  let s' := ((s₁.setParent y (above fs)).setColor y c).setColor z cy
  have hne' : ∀ j, j ≠ z → j ≠ y → s'.links j = s₁.links j := fun j h1 h2 => by
    simp only [s', Bucket.setParent, Bucket.setColor, Bucket.set, Function.update_of_ne h1,
      Function.update_of_ne h2]
  have hne : ∀ j, j ≠ z → j ≠ y → j ∉ labels fs → s'.links j = s.links j := fun j h1 h2 h3 =>
    (hne' j h1 h2).trans (hne₁ j h3)
  have hyz : y ≠ z := Ne.symm hzy
  refine ⟨s', ?_, ⟨⟨?_, hl.congr fun j hj => ?_, hr.congr fun j hj => ?_⟩, ?_, hnd,
    fun _ _ _ => rfl⟩, ?_, fun j h1 h2 h3 => hne j h1 ?_ h3⟩
  · have hz₁ : s₁.links z = s.links z := hne₁ z hzfs
    have hy₁ : (s₁.links y).color = cy := by rw [hne₁ y hyfs, hy]
    have hz₂ : ((s₁.setParent y (above fs)).links z).color = c := by
      rw [Bucket.links_setParent_of_ne hzy, hz₁, hzc]
    have hy₂ : ((s₁.setParent y (above fs)).links y).color = cy := by
      rw [Bucket.links_setParent_self, hy₁]
    simp only [Bucket.exchange, hs₁, Option.bind_eq_bind, Option.bind_some, hz₁, hz, hz₂, hy₂]
    rfl
  · simp [s', Bucket.setParent, Bucket.setColor, Bucket.set, hyz, hne₁ y hyfs, hy]
  · exact hne j (fun h => hzl (h ▸ hj)) (fun h => hyl (h ▸ hj)) fun h => htfs j (.inl hj) j h rfl
  · exact hne j (fun h => hzr (h ▸ hj)) (fun h => hyr (h ▸ hj))
      fun h => htfs j (.inr (.inr hj)) j h rfl
  · refine LinkedUp.congr (m := s₁.links) ?_ fun j hj => hne' j ?_ ?_
    · exact hup₁
    · rintro rfl
      exact hzfs hj
    · rintro rfl
      exact hyfs hj
  · simp [s', Bucket.setColor, Bucket.set]
  · rintro rfl
    exact h2 (by simp [inorder])

/-- What `takeOut` makes of a place is what `unlink` makes of the memory. The memory of `z` itself is
not that of before. -/
def Unlinked (m : Nat → Links) (z : Nat) (out : RbTree.Tree Nat × List (Frame Nat) × Color)
    (run : Option (Bucket × Option Nat × Option Nat)) : Prop :=
  ∃ s' m', run = some (s', out.1.root, above out.2.1) ∧ (∀ i, i ≠ z → m' i = m i) ∧
    At m' s' out.1 out.2.1 ∧ (s'.links z).color = out.2.2

theorem unlink_left {r : RbTree.Tree Nat} (h : At m s (.node c .nil z r) fs) (fuel : Nat) :
    Unlinked m z (takeOut c .nil r fs) (s.unlink fuel z) := by
  have hz := h.sub.1
  obtain ⟨s', m', hs', hm', h', hz', -⟩ := At.splice (d := .right) h
  refine ⟨s', m', ?_, hm', h', by rw [hz', hz]; rfl⟩
  rw [Bucket.unlink, hz]
  have hnil : (nil : RbTree.Tree Nat).root = none := rfl
  simp only [hnil, if_true, hs', Option.bind_eq_bind, Option.bind_some, hz', hz]
  rfl

theorem unlink_right {l : RbTree.Tree Nat} (h : At m s (.node c l z .nil) fs) (fuel : Nat) :
    Unlinked m z (takeOut c l .nil fs) (s.unlink fuel z) := by
  cases l with
  | nil => exact unlink_left h fuel
  | node cl ll i rl =>
    have hz := h.sub.1
    obtain ⟨s', m', hs', hm', h', hz', -⟩ := At.splice (d := .left) h
    refine ⟨s', m', ?_, hm', h', by rw [hz', hz]; rfl⟩
    rw [Bucket.unlink, hz]
    simp only [root] at hs' ⊢
    simp [hs', hz', hz, takeOut, root]

theorem At.change_memory {m m' : Nat → Links} (h : At m s t fs)
    (hm : ∀ j, j ∉ t.inorder → j ∉ labels fs → m' j = m j) : At m' s t fs :=
  ⟨h.sub, h.up, h.nodup, fun j h1 h2 => (h.other j h1 h2).trans (hm j h1 h2).symm⟩

/-- The next node is the right child. -/
theorem unlink_child {l : RbTree.Tree Nat} {i y : Nat} {c' : Color} (hl : l.root = some i)
    (h : At m s (.node c l z (.node c' .nil y x)) fs) {fuel : Nat}
    (hy : s.leftmost fuel y = some y) :
    Unlinked m z (x, ⟨.right, c, y, l⟩ :: fs, c') (s.unlink fuel z) := by
  obtain ⟨hz, hlz, hyz, -, hxz⟩ := h.sub
  have hnd := h.nodup
  simp only [List.nodup_append, inorder, List.nodup_cons, List.mem_append, List.mem_cons,
    List.nil_append, not_or] at hnd
  obtain ⟨⟨hlnd, ⟨⟨hzy, hzx⟩, hyx, hxnd⟩, hlr⟩, hfs, htfs⟩ := hnd
  have hil : i ∈ l.inorder := mem_of_root hl
  have hiz : i ≠ z := hlr i hil z (.inl rfl)
  have hiy : i ≠ y := hlr i hil y (.inr (.inl rfl))
  let s₁ := (s.setParent i (some y)).setChild y .left (some i)
  have hne : ∀ j, j ≠ i → j ≠ y → s₁.links j = s.links j := fun j h1 h2 => by
    rw [Bucket.links_setChild_of_ne h2, Bucket.links_setParent_of_ne h1]
  have hz₁ : s₁.links z = ⟨above fs, some i, some y, c⟩ := by
    rw [hne z (Ne.symm hiz) hzy, hz, hl]
    rfl
  have hup₁ : LinkedUp s₁.links s₁.root fs (some z) := by
    refine h.up.congr fun j hj => hne j ?_ ?_ <;> rintro rfl
    · exact htfs j (.inl hil) j hj rfl
    · exact htfs j (.inr (.inr (.inl rfl))) j hj rfl
  have hy₁ : s₁.links y = ⟨some z, l.root, x.root, c'⟩ := by
    rw [Bucket.links_setChild_self, Bucket.links_setParent_of_ne (Ne.symm hiy), hyz, hl]
    rfl
  have hl₁ : Linked s₁.links (some y) l := by
    refine hlz.reparent hlnd fun j hj => ?_
    rw [Bucket.links_setChild_of_ne (hlr j hj y (.inr (.inl rfl))), hl]
    by_cases hji : i = j
    · rw [if_pos (by rw [hji]), hji, Bucket.links_setParent_self]
    · rw [if_neg (by simpa using hji), Bucket.links_setParent_of_ne (Ne.symm hji)]
  have hx₁ : Linked s₁.links (some y) x :=
    hxz.congr fun j hj => hne j (fun h => hlr i hil j (.inr (.inr hj)) h.symm)
      fun h => hyx (h ▸ hj)
  obtain ⟨s', hs', h', hzc, hother⟩ := settle (c := c) hup₁ (by rw [hz₁]) (by rw [hz₁]) hy₁ hl₁ hx₁
    (by simp only [List.nodup_append, inorder, List.nodup_cons, List.mem_append, List.mem_cons]
        exact ⟨⟨hlnd, ⟨hyx, hxnd⟩, fun a ha b hb => hlr a ha b (.inr hb)⟩, hfs,
          fun a ha => htfs a (by grind)⟩)
    (by simp only [inorder, List.mem_append, List.mem_cons, not_or]
        exact ⟨fun h => hlr z h z (.inl rfl) rfl, hzy, hzx⟩)
    (fun hj => htfs z (.inr (.inl rfl)) z hj rfl)
  refine ⟨s', Function.update m z (s'.links z), ?_, fun j hj => Function.update_of_ne hj .., ?_, hzc⟩
  · have hyr : (s.links y).right = x.root := by rw [hyz]
    have hzr : (((s.setParent i (some y)).setChild y .left (some i)).links z).right = some y :=
      congrArg Links.right hz₁
    have hroot : (RbTree.Tree.node c' .nil y x).root = some y := rfl
    rw [Bucket.unlink, hz, hl, hroot]
    simp only [hy, hyr, hzr, Option.bind_eq_bind, Option.bind_some, ne_eq, not_true, if_false]
    rw [hs']
    rfl
  · refine (@At.down_iff _ _ _ .right _ _ x _).mpr (h'.change_memory fun j h1 h2 => ?_)
    by_cases hj : j = z
    · rw [hj, Function.update_self]
    · rw [Function.update_of_ne hj, hother j hj h1 h2]
      simp only [inorder, List.mem_append, List.mem_cons, not_or] at h1
      rw [hne j (fun h => h1.1 (h ▸ hil)) h1.2.1]
      exact (h.other j (by simp only [inorder, List.mem_append, List.mem_cons]; grind) h2).symm

theorem labels_append (gs fs : List (Frame Nat)) : labels (gs ++ fs) = labels gs ++ labels fs :=
  List.flatMap_append

theorem mem_inorder_plug {j : Nat} {gs : List (Frame Nat)} :
    j ∈ (plug t gs).inorder ↔ j ∈ t.inorder ∨ j ∈ labels gs := by
  induction gs generalizing t with
  | nil => simp [plug, labels]
  | cons g gs ih =>
    rw [plug, ih, Frame.put, mem_inorder_mk, mem_labels_cons]
    grind

theorem root_plug_cons {u : RbTree.Tree Nat} {gs : List (Frame Nat)} :
    (plug t (f :: gs)).root = (plug u (f :: gs)).root := by
  induction gs generalizing t u f with
  | nil => simp [plug, Frame.put]
  | cons g gs ih => exact ih (t := f.put f.color t) (u := f.put f.color u)

theorem side_firstNode {y : Nat} {gs : List (Frame Nat)} (h : firstNode t fs = some (c, y, x, gs))
    (hfs : ∀ f ∈ fs.head?, f.side = .left) : ∀ f ∈ gs.head?, f.side = .left := by
  induction t, fs using firstNode.induct with
  | case1 => cases h
  | case2 => cases h; exact hfs
  | case3 _ _ _ _ _ _ _ _ ih => exact ih h (by simp)

/-- What is done to two nodes that are not the same can be done in either order. -/
theorem Bucket.set_comm {i j : Nat} (h : i ≠ j) (u v : Links → Links) :
    (s.set i (u (s.links i))).set j (v ((s.set i (u (s.links i))).links j)) =
      (s.set j (v (s.links j))).set i (u ((s.set j (v (s.links j))).links i)) := by
  simp only [Bucket.set, Function.update_of_ne h, Function.update_of_ne h.symm, Bucket.mk.injEq,
    and_true]
  exact Function.update_comm h ..

theorem Bucket.setParentOpt_comm {i : Nat} {k p : Option Nat} (h : k ≠ some i)
    (u : Links → Links) : (s.set i (u (s.links i))).setParentOpt k p =
      (s.setParentOpt k p).set i (u ((s.setParentOpt k p).links i)) := by
  cases k with
  | none => rfl
  | some j => exact Bucket.set_comm (by rintro rfl; exact h rfl) u fun n => { n with parent := p }

/-- A node `y` that is in no tree comes in the place of `z`, over its two subtrees. -/
theorem swapIn {S : Bucket} {l R : RbTree.Tree Nat} {i k y : Nat} {c' : Color} {py : Option Nat}
    (hl : l.root = some i) (hr : R.root = some k) (h : At m S (.node c l z R) fs)
    (hy : y ∉ (RbTree.Tree.node c l z R).inorder) (hyfs : y ∉ labels fs) {yl yr : Option Nat}
    (hyS : S.links y = ⟨py, yl, yr, c'⟩) :
    ∃ s' m', ((((S.setParent i (some y)).setChild y .left (some i)).setChild y .right
        (some k)).setParent k (some y)).exchange z y = some s' ∧
      (∀ j, j ≠ y → j ≠ z → m' j = m j) ∧ At m' s' (.node c l y R) fs ∧
      (s'.links z).color = c' := by
  obtain ⟨hz, hlz, hRz⟩ := h.sub
  have hnd := h.nodup
  simp only [List.nodup_append, inorder, List.nodup_cons, List.mem_append, List.mem_cons] at hnd
  obtain ⟨⟨hlnd, ⟨hzR, hRnd⟩, hlR⟩, hfs, htfs⟩ := hnd
  simp only [inorder, List.mem_append, List.mem_cons, not_or] at hy
  obtain ⟨hyl, hyz, hyR⟩ := hy
  have hil : i ∈ l.inorder := mem_of_root hl
  have hkR : k ∈ R.inorder := mem_of_root hr
  have hzi : z ≠ i := fun h => hlR i hil z (.inl rfl) h.symm
  have hzk : z ≠ k := fun h => hzR (h ▸ hkR)
  have hyi : y ≠ i := fun h => hyl (h ▸ hil)
  have hyk : y ≠ k := fun h => hyR (h ▸ hkR)
  have hik : i ≠ k := hlR i hil k (.inr hkR)
  let S₂ := (((S.setParent i (some y)).setChild y .left (some i)).setChild y .right
    (some k)).setParent k (some y)
  have hne : ∀ j, j ≠ i → j ≠ y → j ≠ k → S₂.links j = S.links j := fun j h1 h2 h3 => by
    rw [Bucket.links_setParent_of_ne h3, Bucket.links_setChild_of_ne h2,
      Bucket.links_setChild_of_ne h2, Bucket.links_setParent_of_ne h1]
  have hz₂ : S₂.links z = ⟨above fs, l.root, R.root, c⟩ :=
    (hne z hzi (Ne.symm hyz) hzk).trans hz
  have hup₂ : LinkedUp S₂.links S₂.root fs (some z) := by
    refine h.up.congr fun j hj => hne j ?_ ?_ ?_ <;> rintro rfl
    · exact htfs j (.inl hil) j hj rfl
    · exact hyfs hj
    · exact htfs j (.inr (.inr hkR)) j hj rfl
  have hy₂ : S₂.links y = ⟨py, l.root, R.root, c'⟩ := by
    rw [Bucket.links_setParent_of_ne hyk, Bucket.links_setChild_self, Bucket.links_setChild_self,
      Bucket.links_setParent_of_ne hyi, hyS, hl, hr]
    rfl
  have hl₂ : Linked S₂.links (some y) l := by
    refine hlz.reparent hlnd fun j hj => ?_
    have hjy : j ≠ y := fun h => hyl (h ▸ hj)
    rw [Bucket.links_setParent_of_ne (hlR j hj k (.inr hkR)), Bucket.links_setChild_of_ne hjy,
      Bucket.links_setChild_of_ne hjy, hl]
    by_cases hji : i = j
    · rw [if_pos (by rw [hji]), hji, Bucket.links_setParent_self]
    · rw [if_neg (by simpa using hji), Bucket.links_setParent_of_ne (Ne.symm hji)]
  have hR₂ : Linked S₂.links (some y) R := by
    refine hRz.reparent hRnd fun j hj => ?_
    have hjy : j ≠ y := fun h => hyR (h ▸ hj)
    have hji : j ≠ i := fun h => hlR i hil j (.inr hj) h.symm
    have hS : ((((S.setParent i (some y)).setChild y .left (some i)).setChild y .right
        (some k)).links j) = S.links j := by
      rw [Bucket.links_setChild_of_ne hjy, Bucket.links_setChild_of_ne hjy,
        Bucket.links_setParent_of_ne hji]
    rw [hr]
    by_cases hjk : k = j
    · subst hjk
      rw [if_pos rfl, Bucket.links_setParent_self, hS]
    · rw [if_neg (by simpa using hjk), Bucket.links_setParent_of_ne (Ne.symm hjk), hS]
  obtain ⟨s', hs', h', hzc, hother⟩ := settle (c := c) hup₂ (by rw [hz₂]) (by rw [hz₂]) hy₂ hl₂ hR₂
    (by simp only [List.nodup_append, inorder, List.nodup_cons, List.mem_append, List.mem_cons]
        refine ⟨⟨hlnd, ⟨hyR, hRnd⟩, ?_⟩, hfs, ?_⟩
        · rintro a ha b (rfl | hb)
          · exact fun h => hyl (h ▸ ha)
          · exact hlR a ha b (.inr hb)
        · rintro a (ha | rfl | ha) b hb
          · exact htfs a (.inl ha) b hb
          · exact fun h => hyfs (h ▸ hb)
          · exact htfs a (.inr (.inr ha)) b hb)
    (by simp only [inorder, List.mem_append, List.mem_cons, not_or]
        exact ⟨fun h => hlR z h z (.inl rfl) rfl, Ne.symm hyz, hzR⟩)
    (fun hj => htfs z (.inr (.inl rfl)) z hj rfl)
  refine ⟨s', Function.update (Function.update m y (s'.links y)) z (s'.links z), hs',
    fun j h1 h2 => by rw [Function.update_of_ne h2, Function.update_of_ne h1],
    h'.change_memory fun j h1 h2 => ?_, hzc⟩
  by_cases hj : j = z
  · rw [hj, Function.update_self]
  · have h1' := h1
    simp only [inorder, List.mem_append, List.mem_cons, not_or] at h1'
    rw [Function.update_of_ne hj, Function.update_of_ne h1'.2.1, hother j hj h1 h2,
      hne j (fun h => h1'.1 (h ▸ hil)) h1'.2.1 fun h => h1'.2.2 (h ▸ hkR)]
    exact (h.other j (by simp only [inorder, List.mem_append, List.mem_cons]; grind) h2).symm

/-- The next node is further down: its right subtree `x` comes in its place first. -/
theorem unlink_deep {l r : RbTree.Tree Nat} {i k y : Nat} {c' : Color} {path : List (Frame Nat)}
    (hl : l.root = some i) (hr : r.root = some k) (h : At m s (.node c l z r) fs)
    (hfirst : firstNode r [] = some (c', y, x, f :: path)) {fuel : Nat}
    (hy : s.leftmost fuel k = some y) :
    Unlinked m z (x, f :: path ++ ⟨.right, c, y, l⟩ :: fs, c') (s.unlink fuel z) := by
  have hF : At m s (RbTree.Tree.mk .right c' y x .nil) (f :: path ++ ⟨.right, c, z, l⟩ :: fs) := by
    rw [← At.plug_iff]
    exact (firstNode_plug hfirst).symm ▸ At.down_iff.mpr h
  obtain ⟨S, m₁, -, hm₁, hx, hyS, hS⟩ := hF.splice
  obtain rfl : _ = S := (hS f rfl).symm
  have hside : f.side = .left := side_firstNode hfirst (by simp) f rfl
  rw [hside] at hx hyS
  have hR := At.down_iff.mp (At.plug_iff.mpr hx)
  have hrr : (plug x (f :: path)).root = some k := by
    rw [← hr, show r = plug r [] from rfl, ← firstNode_plug hfirst]
    exact root_plug_cons
  have hnd := hF.nodup
  simp only [List.nodup_append, nodup_mk, mem_inorder_mk, labels_append, List.mem_append,
    mem_labels_cons] at hnd
  obtain ⟨⟨hyx, -⟩, -, hylab⟩ := hnd
  have hymem : y ∉ (RbTree.Tree.node c l z (plug x (f :: path))).inorder := by
    simp only [inorder, List.mem_append, List.mem_cons, mem_inorder_plug, mem_labels_cons]
    rintro (hj | hj | hj | hj)
    · exact hylab y (.inl rfl) y (.inr (.inr (.inl hj))) rfl
    · exact hylab y (.inl rfl) y (.inr (.inl hj)) rfl
    · exact hyx hj
    · exact hylab y (.inl rfl) y (.inl hj) rfl
  have hyfs : y ∉ labels fs := fun hj => hylab y (.inl rfl) y (.inr (.inr (.inr hj))) rfl
  obtain ⟨s', m', hs', hm', h', hzc⟩ := swapIn hl hrr hR hymem hyfs (hyS.trans hF.links_root)
  refine ⟨s', Function.update m z (m' z), ?_, fun j hj => Function.update_of_ne hj .., ?_, hzc⟩
  · have hyF := hF.links_root
    have hil : i ∈ l.inorder := mem_of_root hl
    simp only [inorder, List.mem_append, List.mem_cons, not_or] at hymem
    have hyi : y ≠ i := fun h => hymem.1 (h ▸ hil)
    have hyk : some y ≠ some k := fun h => hymem.2.2 (mem_of_root (h ▸ hrr))
    have hndR := hR.nodup
    rw [List.nodup_append, nodup_mk] at hndR
    have hiz : i ≠ z := fun h => hndR.1.2.1 (h ▸ hil)
    have hRi : ∀ j ∈ (plug x (f :: path)).inorder, j ≠ i := fun j hj hji =>
      hndR.1.2.2.2.2 j hj (hji ▸ hil)
    have hif : i ≠ f.label := (hRi _ (mem_inorder_plug.mpr (.inr (by simp [labels])))).symm
    have hyf : y ≠ f.label := hylab y (.inl rfl) _ (.inl (.inl rfl))
    have hxi : x.root ≠ some i := fun h => hRi i (mem_inorder_plug.mpr (.inl (mem_of_root h))) rfl
    have hxy : x.root ≠ some y := fun h => hyx (mem_of_root h)
    have hzr : (((s.setParent i (some y)).setChild y .left (some i)).links z).right = some k := by
      rw [Bucket.links_setChild_of_ne (Ne.symm hymem.2.1),
        Bucket.links_setParent_of_ne (Ne.symm hiz), h.sub.1, hr]
    have hyp : (((s.setParent i (some y)).setChild y .left (some i)).links y).parent =
        some f.label := by
      rw [Bucket.links_setChild_self, Bucket.links_setParent_of_ne hyi, hyF]
      rfl
    have hyr : (s.links y).right = x.root := by rw [hyF]; rfl
    have hcomm : (((s.setParent i (some y)).setChild y .left (some i)).setParentOpt x.root
        (some f.label)).setChild f.label .left x.root = (((s.setParentOpt x.root
        (some f.label)).setChild f.label .left x.root).setParent i (some y)).setChild y .left
        (some i) := by
      have h1 := Bucket.setParentOpt_comm (s := s) (p := some f.label) hxi
        fun n => { n with parent := some y }
      have h2 := Bucket.setParentOpt_comm (s := s.setParent i (some y)) (p := some f.label) hxy
        fun n => n.setChild .left (some i)
      have h3 := Bucket.set_comm (s := s.setParentOpt x.root (some f.label)) hif
        (fun n => { n with parent := some y }) fun n => n.setChild .left x.root
      have h4 := Bucket.set_comm
        (s := (s.setParentOpt x.root (some f.label)).setParent i (some y)) hyf
        (fun n => n.setChild .left (some i)) fun n => n.setChild .left x.root
      calc _ = ((((s.setParent i (some y)).setParentOpt x.root (some f.label)).setChild y .left
            (some i)).setChild f.label .left x.root)   :=
          congrArg (fun s => s.setChild f.label .left x.root) h2
        _ = ((((s.setParentOpt x.root (some f.label)).setParent i (some y)).setChild y .left
            (some i)).setChild f.label .left x.root) :=
          congrArg (fun s => (s.setChild y .left (some i)).setChild f.label .left x.root) h1
        _ = ((((s.setParentOpt x.root (some f.label)).setParent i (some y)).setChild f.label .left
            x.root).setChild y .left (some i)) := h4
        _ = _ := congrArg (fun s => s.setChild y .left (some i)) h3
    rw [Bucket.unlink, h.sub.1, hl, hr]
    simp only [hy, hyr, hzr, hyp, Option.bind_eq_bind, Option.bind_some, ne_eq, hyk,
      not_false_iff, if_true, hcomm]
    exact congrArg (fun o => o.bind fun s => some (s, x.root, some f.label)) hs'
  · refine At.plug_iff.mp (At.down_iff.mpr (h'.change_memory fun j h1 h2 => ?_))
    simp only [inorder, List.mem_append, List.mem_cons, not_or] at h1
    by_cases hj : j = z
    · rw [hj, Function.update_self]
    · rw [Function.update_of_ne hj, hm' j h1.2.1 hj, hm₁ j h1.2.1]

/-- **Taking a node out of its tree.** -/
theorem unlink_spec {l r : RbTree.Tree Nat} (h : At m s (.node c l z r) fs) {fuel : Nat}
    (hfuel : r.inorder.length < fuel) : Unlinked m z (takeOut c l r fs) (s.unlink fuel z) := by
  cases l with
  | nil => exact unlink_left h fuel
  | node cl ll i rl =>
    cases r with
    | nil => exact unlink_right h fuel
    | node cr lr k rr =>
      obtain ⟨c', y, x, path, hfirst⟩ := exists_firstNode (t := .node cr lr k rr) (by simp) []
      have hy := leftmost_spec (s := s) h.sub.2.2 rfl hfirst hfuel
      simp only [takeOut, hfirst]
      cases path with
      | nil =>
        have := firstNode_plug hfirst
        cases this
        exact unlink_child rfl h hy
      | cons f path => exact unlink_deep rfl rfl h hfirst hy

section
variable {near far : RbTree.Tree Nat} {cw : Color} {q w : Nat}

theorem At.links_sib (h : At m s x (⟨d, c, q, RbTree.Tree.mk d cw w near far⟩ :: fs)) :
    s.links w = mkLinks d (some q) near.root far.root cw := h.sibling.links_root

theorem At.isBlack_near (h : At m s x (⟨d, c, q, RbTree.Tree.mk d cw w near far⟩ :: fs)) :
    s.isBlack near.root = decide (near.color = .black) := (At.down_iff.mpr h.sibling).isBlack

theorem At.isBlack_far (h : At m s x (⟨d, c, q, RbTree.Tree.mk d cw w near far⟩ :: fs)) :
    s.isBlack far.root = decide (far.color = .black) := (At.down_iff.mpr h.sibling).sibling.isBlack

/-- The sibling gets the color of the parent, the parent and the far child of the sibling are made
black, and the parent is turned. -/
theorem erase_rotate (h : At m s x (⟨d, c, q, RbTree.Tree.mk d cw w near far⟩ :: fs))
    (hxc : x.color = .black) :
    (((s.setColor w c).setColor q .black).links w).child d.other = far.root ∧
    ∃ s', (((s.setColor w c).setColor q .black).setColorOpt far.root .black).rotate d q = some s' ∧
      At m s' (RbTree.Tree.mk d c w (RbTree.Tree.mk d .black q x near) (far.recolor .black)) fs ∧
      s'.isBlack x.root = true := by
  have h₁ := h.sibling.setColor (root_mk ..) c
  rw [recolor_mk, At.down_iff] at h₁
  have h₂ := h₁.setColor (root_mk ..) .black
  rw [recolor_mk, ← At.down_iff] at h₂
  have hw := h₂.links_root
  rw [← At.down_iff] at h₂
  have h₃ := h₂.sibling.setColorOpt .black
  rw [At.down_iff, At.down_iff, mk_other, mk_other] at h₃
  obtain ⟨s', hs', h'⟩ := h₃.rotate
  refine ⟨by rw [hw, mkLinks_child_other], s', hs', h', ?_⟩
  rw [← At.down_iff, ← At.down_iff] at h'
  rw [h'.isBlack, hxc]
  rfl

/-- A black sibling with a red far child. -/
theorem eraseBlack_far (h : At m s x (⟨d, c, q, RbTree.Tree.mk d .black w near far⟩ :: fs))
    (hxc : x.color = .black) (hfar : far.color = .red) :
    ∃ s', s.eraseBlack d q w = some (s', false) ∧
      At m s' (RbTree.Tree.mk d c w (RbTree.Tree.mk d .black q x near) (far.recolor .black)) fs ∧
      s'.isBlack x.root = true := by
  obtain ⟨hw, s', hs', h'⟩ := erase_rotate h hxc
  refine ⟨s', ?_, h'⟩
  have hqc : (s.links q).color = c := by rw [h.links_up, mkLinks_color]
  simp only [Bucket.eraseBlack, h.links_sib, mkLinks_child, mkLinks_child_other, h.isBlack_near,
    h.isBlack_far, hfar, reduceCtorEq, decide_false, Bool.and_false, Bool.false_eq_true, if_false,
    Option.bind_eq_bind, Option.bind_some, hqc, hw, hs']

/-- A black sibling with a red near child only, which is turned over the sibling first. -/
theorem eraseBlack_near {v : Nat} {a b : RbTree.Tree Nat}
    (h : At m s x (⟨d, c, q, RbTree.Tree.mk d .black w (RbTree.Tree.mk d .red v a b) far⟩ :: fs))
    (hxc : x.color = .black) (hfar : far.color ≠ .red) :
    ∃ s', s.eraseBlack d q w = some (s', false) ∧
      At m s' (RbTree.Tree.mk d c v (RbTree.Tree.mk d .black q x a) (RbTree.Tree.mk d .black w b far)) fs ∧
      s'.isBlack x.root = true := by
  have h₁ := (At.down_iff.mpr h.sibling).setColorOpt .black
  rw [recolor_mk, root_mk, At.down_iff] at h₁
  have h₂ := h₁.setColor (root_mk ..) .red
  rw [recolor_mk, ← mk_other d, ← mk_other d] at h₂
  obtain ⟨s₁, hs₁, h₃⟩ := h₂.rotate
  rw [mk_other, mk_other] at h₃
  have h₄ := h₃.sibling
  rw [Side.other_other] at h₄
  obtain ⟨hv, s', hs', h'⟩ := erase_rotate h₄ hxc
  rw [recolor_mk] at h'
  rw [root_mk] at hv hs'
  refine ⟨s', ?_, h'⟩
  have hvc : s.isBlack (some v) = false := by
    have hnear := h.isBlack_near
    rw [root_mk, color_mk] at hnear
    rw [hnear]
    rfl
  have hqc : (s₁.links q).color = c := by rw [h₄.links_up, mkLinks_color]
  have hqv : (s₁.links q).child d.other = some v := by
    rw [h₄.links_up, mkLinks_child_other, root_mk]
  have hfar' : decide (far.color = .black) = true := by simp [Color.ne_red hfar]
  simp only [Bucket.eraseBlack, h.links_sib, mkLinks_child, mkLinks_child_other, h.isBlack_far,
    hvc, Bool.false_and, Bool.false_eq_true, if_false, hfar', if_true, root_mk, hs₁, hqv,
    Option.bind_eq_bind, Option.bind_some, hqc, hv, hs']

/-- A black sibling without a red child is made red, and the loop goes on. -/
theorem eraseBlack_black (h : At m s x (⟨d, c, q, RbTree.Tree.mk d .black w near far⟩ :: fs))
    (hnear : near.color ≠ .red) (hfar : far.color ≠ .red) :
    s.eraseBlack d q w = some (s.setColor w .red, true) ∧
      At m (s.setColor w .red) (RbTree.Tree.mk d c q x (RbTree.Tree.mk d .red w near far)) fs := by
  have h₁ := h.sibling.setColor (root_mk ..) .red
  rw [recolor_mk, At.down_iff, mk_other] at h₁
  refine ⟨?_, h₁⟩
  simp only [Bucket.eraseBlack, h.links_sib, mkLinks_child, mkLinks_child_other, h.isBlack_near,
    h.isBlack_far, Color.ne_red hnear, Color.ne_red hfar, decide_true, Bool.and_true, if_true]

/-- A black sibling: a turn, or the level is missing one node up. -/
theorem eraseBlack_spec (h : At m s x (f :: fs)) (hxc : x.color = .black)
    (hsc : f.sib.color = .black) (hw : f.sib.root = some w) :
    (∀ u, eraseTurn x f = some u → ∃ s', s.eraseBlack f.side f.label w = some (s', false) ∧
      At m s' u fs ∧ s'.isBlack x.root = true) ∧
    (eraseTurn x f = none → ∃ s', s.eraseBlack f.side f.label w = some (s', true) ∧
      At m s' (RbTree.Tree.mk f.side f.color f.label x (f.sib.recolor .red)) fs) := by
  obtain ⟨d, c, q, sib⟩ := f
  cases sib with
  | nil => cases hw
  | node cw l i r =>
    cases hw
    obtain rfl : cw = .black := hsc
    rw [node_eq_mk d] at h ⊢
    revert h
    generalize (RbTree.Tree.node .black l w r).child d = near
    generalize (RbTree.Tree.node .black l w r).child d.other = far
    intro h
    rw [recolor_mk]
    by_cases hfar : far.color = .red
    · rw [eraseTurn_far hfar]
      exact ⟨fun u hu => Option.some.inj hu ▸ eraseBlack_far h hxc hfar, nofun⟩
    · by_cases hnear : near.color = .red
      · cases near with
        | nil => cases hnear
        | node c' a v b =>
          obtain rfl : c' = .red := hnear
          rw [node_eq_mk d .red] at h ⊢
          rw [eraseTurn_near hfar]
          exact ⟨fun u hu => Option.some.inj hu ▸ eraseBlack_near h hxc hfar, nofun⟩
      · rw [eraseTurn_black hnear hfar]
        exact ⟨nofun, fun _ => ⟨_, eraseBlack_black h hnear hfar⟩⟩

theorem eraseSide_black (h : At m s x (f :: fs)) (hsc : f.sib.color = .black)
    (hw : f.sib.root = some w) : s.eraseSide f.side f.label = s.eraseBlack f.side f.label w := by
  have hwc : (s.links w).color = .black := (h.sibling.color hw).trans hsc
  simp only [Bucket.eraseSide, h.links_up, mkLinks_child_other, hw, Option.bind_eq_bind,
    Option.bind_some, hwc, reduceCtorEq, if_false]

/-- A red sibling is turned over the parent, whose other child is black then. -/
theorem eraseSide_red {w' : Nat} (h : At m s x (⟨d, c, q, RbTree.Tree.mk d .red w near far⟩ :: fs))
    (hw' : near.root = some w') :
    ∃ s', s.eraseSide d q = s'.eraseBlack d q w' ∧
      At m s' x (⟨d, .red, q, near⟩ :: ⟨d, .black, w, far⟩ :: fs) := by
  have h₁ := h.sibling.setColor (root_mk ..) .black
  rw [recolor_mk, At.down_iff] at h₁
  have h₂ := h₁.setColor (root_mk ..) .red
  rw [recolor_mk, mk_other] at h₂
  obtain ⟨s', hs', h'⟩ := h₂.rotate
  rw [← At.down_iff, ← At.down_iff] at h'
  refine ⟨s', ?_, h'⟩
  have hwc : (s.links w).color = .red := by rw [h.links_sib, mkLinks_color]
  simp only [Bucket.eraseSide, h.links_up, mkLinks_child_other, root_mk, Option.bind_eq_bind,
    Option.bind_some, hwc, if_true, hs', h'.links_up, hw']

end

/-! ### The loop -/

theorem eraseLoop_exit {y p : Option Nat} (h : s.root = y ∨ s.isBlack y = false) {fuel : Nat}
    (hfuel : 0 < fuel) : Bucket.eraseLoop fuel s y p = some (s, y) := by
  obtain ⟨fuel, rfl⟩ := Nat.exists_eq_add_one_of_ne_zero hfuel.ne'
  rw [Bucket.eraseLoop, if_neg]
  rcases h with h | h <;> simp [h]

/-- At a red node the loop is left, and the node is made black. -/
theorem eraseLoop_red (h : At m s x fs) (hxc : x.color = .red) (fuel : Nat) (hfuel : 0 < fuel)
    (p : Option Nat) : Bucket.eraseLoop fuel s x.root p = some (s, x.root) ∧
      At m (s.setColorOpt x.root .black) (eraseFix x fs) [] := by
  refine ⟨eraseLoop_exit (.inr (by rw [h.isBlack, hxc]; rfl)) hfuel, ?_⟩
  rw [eraseFix_red hxc]
  exact At.plug_iff.mpr (by simpa using h.setColorOpt .black)

/-- One round at a black place. -/
theorem eraseLoop_round (h : At m s x (f :: fs)) (hxc : x.color = .black) (hs : f.sib ≠ .nil)
    (fuel : Nat) : Bucket.eraseLoop (fuel + 1) s x.root (some f.label) =
      (s.eraseSide f.side f.label).bind fun r =>
        if r.2 then Bucket.eraseLoop fuel r.1 (some f.label) (r.1.links f.label).parent
        else some (r.1, x.root) := by
  obtain ⟨w, hw⟩ : ∃ w, f.sib.root = some w :=
    Option.ne_none_iff_exists'.mp (mt root_eq_none.mp hs)
  have hroot : s.root ≠ x.root := fun hr => by
    obtain ⟨i, -, htop⟩ := h.up.top_mem (by simp)
    exact List.cons_ne_nil _ _ ((h.root_eq_iff (hr ▸ htop)).mp htop)
  have hne : x.root ≠ f.sib.root := fun hr => by
    have hx := mem_of_root (hr.trans hw)
    exact h.notMem_labels hx (mem_labels_cons.mpr (.inr (.inl (mem_of_root hw))))
  have hd : (if x.root = (s.links f.label).left then Side.left else Side.right) = f.side := by
    rw [h.links_up]
    cases f.side
    · exact if_pos rfl
    · exact if_neg hne
  rw [Bucket.eraseLoop, if_pos ⟨hroot, by rw [h.isBlack, hxc]; rfl⟩]
  simp only [Option.bind_eq_bind, Option.bind_some, hd]

theorem setColorOpt_self {y : Option Nat} (h : s.isBlack y = true) :
    s.setColorOpt y .black = s := by
  cases y with
  | none => rfl
  | some i =>
    have hc : (s.links i).color = .black := by simpa [Bucket.isBlack] using h
    have : { s.links i with color := .black } = s.links i := by rw [← hc]
    simp [Bucket.setColorOpt, Bucket.setColor, Bucket.set, this]

/-- **The loop of `db_rebalance_erase`** repairs the tree up to the color of the node it ends at. -/
theorem eraseLoop_spec {n : Nat} (h : At m s x fs) (hx : x.Bal n) (hfs : FramesOk fs (n + 1) .black)
    (fuel : Nat) (hfuel : fs.length + 1 < fuel) :
    ∃ s' y, Bucket.eraseLoop fuel s x.root (above fs) = some (s', y) ∧
      At m (s'.setColorOpt y .black) (eraseFix x fs) [] := by
  induction fs generalizing s x n fuel with
  | nil =>
    exact ⟨s, x.root, eraseLoop_exit (.inl h.up) (by omega), h.setColorOpt .black⟩
  | cons f fs ih =>
    by_cases hxr : x.color = .red
    · exact ⟨s, x.root, eraseLoop_red h hxr _ (by omega) _⟩
    have hxc := Color.ne_red hxr
    obtain ⟨fuel, rfl⟩ := Nat.exists_eq_add_one_of_ne_zero (Nat.ne_zero_of_lt hfuel)
    simp only [List.length_cons] at hfuel
    have hbal := hfs.sib
    rw [above, eraseLoop_round h hxc hbal.ne_nil, eraseFix, if_neg hxr]
    split
    case h_1 hnil => exact absurd hnil hbal.ne_nil
    case h_2 l w r hw =>
      obtain ⟨d, c, q, sib⟩ := f
      obtain rfl : sib = .node .red l w r := hw
      dsimp only at hbal ⊢
      rw [node_eq_mk d] at h hbal
      obtain ⟨⟨hnear, -⟩, hnc, -⟩ := bal_red.mp hbal
      obtain ⟨w', hw'⟩ : ∃ w', ((RbTree.Tree.node .red l w r).child d).root = some w' :=
        Option.ne_none_iff_exists'.mp (mt root_eq_none.mp hnear.ne_nil)
      obtain ⟨s₁, hs₁, h₁⟩ := eraseSide_red h hw'
      obtain ⟨hsome, hnone⟩ := eraseBlack_spec h₁ hxc hnc hw'
      rw [hs₁]
      split
      · rename_i u hu
        obtain ⟨s', hs', h', hb⟩ := hsome u hu
        exact ⟨s', x.root, by rw [hs']; rfl,
          by rw [setColorOpt_self hb]; exact At.plug_iff.mpr (by simpa using h')⟩
      · rename_i hu
        obtain ⟨s', hs', h'⟩ := hnone hu
        rw [hs', Option.bind_some, if_pos rfl]
        have hred := eraseLoop_red h' (color_mk ..) fuel (by omega) (s'.links q).parent
        rw [root_mk, eraseFix_red (color_mk ..), recolor_mk] at hred
        exact ⟨s', some q, hred⟩
    case h_3 l w r hw =>
      have hsc : f.sib.color = .black := by rw [hw]; rfl
      have hsw : f.sib.root = some w := by rw [hw]; rfl
      obtain ⟨hsome, hnone⟩ := eraseBlack_spec h hxc hsc hsw
      rw [eraseSide_black h hsc hsw]
      split
      · rename_i u hu
        obtain ⟨s', hs', h', hb⟩ := hsome u hu
        exact ⟨s', x.root, by rw [hs']; rfl,
          by rw [setColorOpt_self hb]; exact At.plug_iff.mpr (by simpa using h')⟩
      · rename_i hu
        obtain ⟨s', hs', h'⟩ := hnone hu
        rw [hs', Option.bind_some, if_pos rfl]
        by_cases hc : f.color = .red
        · have hred := eraseLoop_red h' (by rw [color_mk, hc]) fuel (by omega)
            (s'.links f.label).parent
          rw [root_mk] at hred
          exact ⟨s', some f.label, hred⟩
        · have hb := Color.ne_red hc
          have hrest := hfs.up
          rw [hb] at hrest
          have hloop := ih (n := n + 1) h'
            (by rw [hb]; exact bal_black.mpr ⟨hx, eraseTurn_none hbal hsc hu⟩) hrest fuel
            (by omega)
          rw [root_mk] at hloop
          rwa [h'.parent (root_mk ..)]

/-- **`db_rebalance_erase`** takes a node out of a red-black tree. -/
theorem dbRebalanceErase_spec {l r : RbTree.Tree Nat} (h : At m s (.node c l z r) fs)
    (hok : RbOk (plug (.node c l z r) fs)) {fuel : Nat}
    (hfuel : (plug (.node c l z r) fs).inorder.length < fuel) :
    ∃ s' m', s.dbRebalanceErase fuel z = some s' ∧ (∀ i, i ≠ z → m' i = m i) ∧
      At m' s' (eraseAt c l r fs) [] := by
  have hsize : (plug (.node c l z r) fs).inorder.length =
      (plug (takeOut c l r fs).1 (takeOut c l r fs).2.1).inorder.length + 1 := by
    rw [inorder_takeOut, inorder_plug]
    simp only [inorder, List.length_append, List.length_cons]
    omega
  have hr : r.inorder.length < fuel := by
    have := length_le_plug (.node c l z r) fs
    simp only [inorder, List.length_append, List.length_cons] at this
    omega
  obtain ⟨s₁, m', hs₁, hm', h₁, hc⟩ := unlink_spec h hr
  obtain ⟨n, hbal, hfs, -⟩ := takeOut_ok hok
  have hgs := length_le_plug (takeOut c l r fs).1 (takeOut c l r fs).2.1
  unfold eraseAt
  revert hs₁ h₁ hc hbal hfs hgs hsize
  generalize takeOut c l r fs = out
  obtain ⟨x, gs, c'⟩ := out
  dsimp only
  intro hsize hs₁ h₁ hc hbal hfs hgs
  simp only [Bucket.dbRebalanceErase, hs₁, hc, Option.bind_eq_bind, Option.bind_some]
  by_cases hred : c' = .red
  · rw [if_pos hred, if_neg (by simp [hred])]
    exact ⟨s₁, m', rfl, hm', At.plug_iff.mpr (by simpa using h₁)⟩
  · rw [Color.ne_red hred] at hfs
    obtain ⟨s₂, y, hs₂, h₂⟩ := eraseLoop_spec h₁ hbal hfs fuel (by omega)
    rw [if_neg hred, if_pos hred, hs₂]
    exact ⟨_, m', rfl, hm', h₂⟩

end

end Nezumi
