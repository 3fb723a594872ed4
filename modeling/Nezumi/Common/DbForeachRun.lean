import Nezumi.Common.DbForeach

/-!
# Traversals keep the trees (`common/db.c`)

* `Walking`: what holds of a traversal at a turn. The nodes that have had one, those below the node,
  on the stack and in the later buckets are all nodes of the table.
* `firstBucket_spec`, `nextNode_spec`: which nodes are left after a step of the loop.
* `ForeachInv`: the invariant of the runs. Under a lock `db_erase` changes no tree, so that the
  traversals outside of the one that runs stay where they are; `ForeachInv.erase`,
  `ForeachInv.enter`.
* `foreach_ok`: the traversals are right where no callback erases a key whose node is marked as
  deleted already. `foreach_not_ok`: where one does, the node is removed twice.
-/

namespace Nezumi

open RbTree RbTree.Tree

section Order

variable {K α : Type} [LinearOrder α] {kind : DbKind K} {rank : K → α} {t t' : Dbt K}
  {T : Nat → RbTree.Tree Nat} {free : List Nat} {m : DbMap α} {f : Traversal K α}

/-- The nodes of the buckets from `i` on. -/
def laterNodes (T : Nat → RbTree.Tree Nat) (i : Nat) : List Nat :=
  (List.range' i (hashSize - i)).flatMap fun b => (T b).inorder

theorem laterNodes_zero (T : Nat → RbTree.Tree Nat) : laterNodes T 0 = treeNodes T := by
  unfold laterNodes treeNodes
  rw [Nat.sub_zero, List.range_eq_range']

theorem laterNodes_step (T : Nat → RbTree.Tree Nat) {i : Nat} (hi : i < hashSize) :
    laterNodes T i = (T i).inorder ++ laterNodes T (i + 1) := by
  unfold laterNodes
  obtain ⟨n, hn⟩ := Nat.exists_eq_add_one_of_ne_zero (Nat.sub_ne_zero_of_lt hi)
  rw [hn, List.range'_succ, List.flatMap_cons, show hashSize - (i + 1) = n by omega]

/-- The first bucket with a tree is the one with the nodes that come first. -/
theorem firstBucket_spec {ht : Nat → Option Nat} (hroot : ∀ b < hashSize, ht b = (T b).root)
    (n : Nat) {i : Nat} (hn : hashSize - i = n) :
    (firstBucket ht i = none ∧ laterNodes T i = []) ∨
      ∃ b p, firstBucket ht i = some (b, p) ∧ b < hashSize ∧ (T b).root = some p ∧
        laterNodes T i = (T b).inorder ++ laterNodes T (b + 1) := by
  induction n generalizing i with
  | zero =>
    refine .inl ⟨?_, ?_⟩
    · rw [firstBucket, hn]
      rfl
    · rw [laterNodes, hn]
      rfl
  | succ n ih =>
    have hi : i < hashSize := by omega
    have hfirst : firstBucket ht i = ((ht i).map fun p => (i, p)).or (firstBucket ht (i + 1)) := by
      unfold firstBucket
      rw [hn, List.range'_succ, List.findSome?_cons, show hashSize - (i + 1) = n by omega]
      cases ht i <;> rfl
    rw [hfirst, hroot i hi, laterNodes_step T hi]
    cases hT : T i with
    | nil =>
      rw [root, Option.map_none, Option.none_or, inorder, List.nil_append]
      exact ih (by omega)
    | node c l p r => exact .inr ⟨i, p, rfl, hi, by rw [hT, root], by rw [hT]⟩

/-- The traversal stands at node `p`, and `below` are the nodes that come after it in its tree:
those of its children and of the trees on the stack. -/
def StandsAt (links : Nat → Links) (p : Nat) (stack below : List Nat) : Prop :=
  ∃ (c : Color) (l r : RbTree.Tree Nat) (q : Option Nat) (us : List (RbTree.Tree Nat)),
    Linked links q (.node c l p r) ∧ stack.length + (RbTree.Tree.node c l p r).height ≤ stackSize ∧
      Waiting links stack us ∧ below = l.inorder ++ r.inorder ++ us.flatMap inorder

theorem inorder_perm {β : Type} (c : Color) (l : RbTree.Tree β) (i : β) (r : RbTree.Tree β)
    (rest : List β) :
    ((RbTree.Tree.node c l i r).inorder ++ rest).Perm (i :: (l.inorder ++ r.inorder ++ rest)) :=
  List.perm_middle.append_right rest

/-- The traversal goes on with a node that comes after, if there is one. -/
theorem nextNode_spec {links : Nat → Links} {p : Nat} {stack below : List Nat}
    (h : StandsAt links p stack below) :
    (nextNode links p stack = some .treeEnd ∧ below = []) ∨
      ∃ p' stack' below', nextNode links p stack = some (.node p' stack') ∧
        StandsAt links p' stack' below' ∧ below.Perm (p' :: below') := by
  obtain ⟨c, l, r, q, us, ⟨hp, hl, hr⟩, hroom, hw, rfl⟩ := h
  simp only [height] at hroom
  unfold nextNode
  rw [hp]
  cases l with
  | nil =>
    cases r with
    | nil =>
      cases hw with
      | nil => exact .inl ⟨rfl, rfl⟩
      | @cons q' k u stack us hu hk hroom' hw =>
        cases u with
        | nil => cases hk
        | node c' l' k' r' =>
          cases hk
          exact .inr ⟨k, stack, _, rfl, ⟨c', l', r', _, us, hu, hroom', hw, rfl⟩,
            inorder_perm c' l' k r' (us.flatMap inorder)⟩
    | node cr lr k rr =>
      exact .inr ⟨k, stack, _, rfl, ⟨cr, lr, rr, _, us, hr, by omega, hw, rfl⟩,
        inorder_perm cr lr k rr (us.flatMap inorder)⟩
  | node cl ll k rl =>
    cases r with
    | nil =>
      refine .inr ⟨k, stack, _, rfl, ⟨cl, ll, rl, _, us, hl, by omega, hw, rfl⟩, ?_⟩
      rw [inorder.eq_1, List.append_nil]
      exact inorder_perm cl ll k rl (us.flatMap inorder)
    | node cr lr k' rr =>
      have hlt : stack.length < stackSize := by omega
      refine .inr ⟨k, k' :: stack, _, if_pos hlt, ⟨cl, ll, rl, _, _ :: us, hl, ?_,
        .cons hr rfl ?_ hw, rfl⟩, ?_⟩
      · rw [List.length_cons]
        omega
      · omega
      · rw [List.flatMap_cons, List.append_assoc]
        exact inorder_perm cl ll k rl _

end Order

/-! ## One traversal -/

section Traversal

variable {K α : Type} {kind : DbKind K} {rank : K → α} {t t' : Dbt K} {T : Nat → RbTree.Tree Nat}
  {free : List Nat} {m : DbMap α} {f : Traversal K α} {left left' : List Nat}

/-- The nodes with a turn and those that are left are all nodes of the table. -/
structure Visited (rank : K → α) (t : Dbt K) (T : Nat → RbTree.Tree Nat) (f : Traversal K α)
    (left : List Nat) : Prop where
  nodes : (f.turns.map Turn.node ++ left).Perm (treeNodes T)
  count : f.count = left.length
  keys : ∀ u ∈ f.turns, rank u.key = rank (t.items u.node).key
  called : ∀ u ∈ f.turns, u.called = u.present
  covers : ∀ a ∈ f.entries, ∃ i ∈ treeNodes T, rank (t.items i).key = a

/-- What holds of a traversal at a turn. -/
structure Walking (rank : K → α) (t : Dbt K) (T : Nat → RbTree.Tree Nat) (f : Traversal K α) :
    Prop where
  bucket : f.bucket < hashSize
  stands : ∃ below, StandsAt t.links f.p f.stack below ∧
    Visited rank t T f (below ++ laterNodes T (f.bucket + 1))

theorem Visited.perm (h : Visited rank t T f left) (hp : left.Perm left') :
    Visited rank t T f left' where
  nodes := (hp.symm.append_left _).trans h.nodes
  count := by rw [h.count, hp.length_eq]
  keys := h.keys
  called := h.called
  covers := h.covers

/-- The pointers and the ranks of the keys are all that a traversal relies on. -/
theorem Walking.congr (h : Walking rank t T f) (hlinks : t'.links = t.links)
    (hrank : ∀ i, rank (t'.items i).key = rank (t.items i).key) : Walking rank t' T f := by
  obtain ⟨hb, below, hstands, hv⟩ := h
  refine ⟨hb, below, hlinks ▸ hstands, hv.nodes, hv.count, fun u hu => ?_, hv.called,
    fun a ha => ?_⟩
  · rw [hrank, hv.keys u hu]
  · obtain ⟨i, hi, hia⟩ := hv.covers a ha
    exact ⟨i, hi, (hrank i).trans hia⟩

variable [LinearOrder α]

/-- **The turn of a node**: the callback is called if the entry is still there. -/
theorem Visited.visit (hk : kind.Lawful rank) (h : DbtOk kind rank t T free)
    (hm : Represents rank t T m) {p : Nat} (hv : Visited rank t T f (p :: left)) (b : Nat)
    (stack : List Nat) : Visited rank t T (f.visit rank t m b p stack) left := by
  have hp : p ∈ treeNodes T := hv.nodes.mem_iff.1 (by simp)
  refine ⟨?_, ?_, fun u hu => ?_, fun u hu => ?_, hv.covers⟩
  · simpa [Traversal.visit] using hv.nodes
  · have hcount := hv.count
    rw [List.length_cons] at hcount
    simp only [Traversal.visit]
    omega
  · rcases List.mem_append.1 hu with hu | hu
    · exact hv.keys u hu
    · obtain rfl := List.mem_singleton.1 hu
      rfl
  · rcases List.mem_append.1 hu with hu | hu
    · exact hv.called u hu
    · obtain rfl := List.mem_singleton.1 hu
      dsimp only
      by_cases hdel : (t.items p).deleted = true
      · have hnone : m.lookup (rank (t.items p).key) = none := by
          rw [Finmap.lookup_eq_none]
          intro hmem
          obtain ⟨j, hj, hlive, hjp⟩ := hm.only _ hmem
          obtain rfl := h.trees.key_inj hk hj hp hjp
          rw [hlive] at hdel
          cases hdel
        rw [if_pos hdel, hnone]
      · rw [if_neg hdel]
        exact (hm.live p hp (by simpa using hdel)).symm

theorem Visited.once (hk : kind.Lawful rank) (h : DbtOk kind rank t T free)
    (hv : Visited rank t T f left) : TurnsOk rank f := by
  refine ⟨hv.called, ?_⟩
  have hnodup : (f.turns.map Turn.node).Nodup :=
    (List.nodup_append.1 (hv.nodes.nodup_iff.2 (List.nodup_append.1 h.nodup).1)).1
  refine List.Nodup.map_on (fun u hu v hv' huv => ?_) (List.Nodup.of_map _ hnodup)
  have hnode : ∀ u ∈ f.turns, u.node ∈ treeNodes T := fun u hu =>
    hv.nodes.mem_iff.1 (List.mem_append_left _ (List.mem_map_of_mem hu))
  rw [hv.keys u hu, hv.keys v hv'] at huv
  exact List.inj_on_of_nodup_map hnodup hu hv'
    (h.trees.key_inj hk (hnode u hu) (hnode v hv') huv)

/-- **The end of a traversal.** -/
theorem Visited.finished (hk : kind.Lawful rank) (h : DbtOk kind rank t T free)
    (hv : Visited rank t T f []) : TurnsDone rank f := by
  refine ⟨hv.once hk h, fun a ha => ?_, hv.count⟩
  obtain ⟨i, hi, rfl⟩ := hv.covers a ha
  have hmem := hv.nodes.mem_iff.2 hi
  rw [List.append_nil] at hmem
  obtain ⟨u, hu, rfl⟩ := List.mem_map.1 hmem
  exact List.mem_map.2 ⟨u, hu, hv.keys u hu⟩

end Traversal

/-! ## The number of the items -/

section Items

variable {K : Type} {kind : DbKind K} {t t' : Dbt K}

theorem remove_itemCount {z b : Nat} (h : t.remove z b = some t') :
    t'.itemCount = t.itemCount - 1 := by
  unfold Dbt.remove at h
  rw [Option.bind_eq_bind, Option.bind_eq_some_iff] at h
  obtain ⟨s, -, hs⟩ := h
  obtain rfl := Option.some.inj hs
  rfl

theorem removeAll_itemCount {l : List (Nat × Nat)} (h : Dbt.removeAll l t = some t') :
    t'.itemCount ≤ t.itemCount := by
  induction l generalizing t with
  | nil =>
    obtain rfl := Option.some.inj h
    exact le_rfl
  | cons e l ih =>
    obtain ⟨s, hs, hrest⟩ := Option.bind_eq_some_iff.1 h
    have hone := remove_itemCount hs
    have hall := ih hrest
    omega

theorem dbFreeUnlock_itemCount (h : t.dbFreeUnlock = some t') : t'.itemCount ≤ t.itemCount := by
  unfold Dbt.dbFreeUnlock at h
  dsimp only at h
  split at h
  · obtain ⟨s, hs, rfl⟩ := Option.map_eq_some_iff.1 h
    have hall := removeAll_itemCount hs
    exact hall
  · obtain rfl := Option.some.inj h
    exact le_rfl

theorem dbErase_itemCount {key : K} {data : Nat} (h : t.dbErase kind key = some (t', data)) :
    t'.itemCount ≤ t.itemCount := by
  unfold Dbt.dbErase at h
  rw [Option.bind_eq_bind, Option.bind_eq_some_iff] at h
  obtain ⟨d, -, hd⟩ := h
  cases d with
  | missing last =>
    obtain ⟨rfl, -⟩ := Prod.mk.inj (Option.some.inj hd)
    exact le_rfl
  | found i =>
    dsimp only at hd
    split at hd
    · obtain ⟨rfl, -⟩ := Prod.mk.inj (Option.some.inj hd)
      exact le_rfl
    · obtain ⟨s, hs, he⟩ := Option.map_eq_some_iff.1 hd
      obtain ⟨rfl, -⟩ := Prod.mk.inj he
      have := remove_itemCount hs
      omega

end Items

/-! ## All of them -/

section Worlds

variable {K α : Type} [LinearOrder α] {kind : DbKind K} {rank : K → α} {t : Dbt K}
  {T : Nat → RbTree.Tree Nat} {free : List Nat} {m : DbMap α} {f : Traversal K α}
  {w : ForeachWorld K α}

/-- The stack has room for the trees of a table whose items an `int` can count. -/
theorem DbtOk.height_le (h : DbtOk kind rank t T free) (hsize : t.itemCount < 2 ^ 31) {b : Nat}
    (hb : b < hashSize) : (T b).height ≤ stackSize := by
  obtain ⟨rest, hperm, -⟩ := treeNodes_split T hb
  have hlen := hperm.length_eq
  rw [List.length_append] at hlen
  have hcount := h.count
  have hlt : (T b).inorder.length + 1 ≤ 2 ^ 31 := by omega
  have hlog : Nat.log 2 ((T b).inorder.length + 1) ≤ 31 :=
    (Nat.log_mono_right hlt).trans (Nat.log_pow (by norm_num) 31).le
  have hheight := (h.trees.rb b hb).height_le
  unfold stackSize
  omega

/-- The invariant of the runs: each traversal that runs has a lock. -/
def ForeachInv (kind : DbKind K) (rank : K → α) (w : ForeachWorld K α) : Prop :=
  ∃ t T free, w.table = some t ∧ DbtOk kind rank t T free ∧ QueueOk t T ∧
    Represents rank t T w.entries ∧ t.freeLock = w.running.length ∧ t.itemCount < 2 ^ 31 ∧
    (∀ f ∈ w.running, Walking rank t T f) ∧ ∀ f ∈ w.ended, TurnsDone rank f

/-- **A traversal goes on** at a bucket, or it ends. After the outermost one the erased entries go.
-/
theorem ForeachInv.enter (hk : kind.Lawful rank) (h : DbtOk kind rank t T free) (hq : QueueOk t T)
    (hm : Represents rank t T w.entries) {rest : List (Traversal K α)}
    (hlock : t.freeLock = rest.length + 1) (hsize : t.itemCount < 2 ^ 31)
    (hrest : ∀ f ∈ rest, Walking rank t T f) (hended : ∀ f ∈ w.ended, TurnsDone rank f) {i : Nat}
    (hv : Visited rank t T f (laterNodes T i)) :
    ForeachInv kind rank (w.enter rank t f rest i) := by
  unfold ForeachWorld.enter
  rcases firstBucket_spec h.trees.root _ (i := i) rfl with
    ⟨hnone, hnil⟩ | ⟨b, p, hsome, hb, hroot, hlater⟩
  · rw [hnone]
    rw [hnil] at hv
    have hended' : ∀ g ∈ f :: w.ended, TurnsDone rank g := by
      intro g hg
      rcases List.mem_cons.1 hg with rfl | hg
      · exact hv.finished hk h
      · exact hended g hg
    cases rest with
    | nil =>
      obtain ⟨t', hrun, ⟨T', free', h', hq', hm'⟩, hlock'⟩ := dbFreeUnlock_spec ⟨T, free, h, hq, hm⟩
      have hcount := dbFreeUnlock_itemCount hrun
      refine ⟨t', T', free', hrun, h', hq', hm', ?_, by omega, by simp, hended'⟩
      rw [hlock', hlock]
      rfl
    | cons g rest =>
      have hlast : t.freeLock - 1 ≠ 0 := by
        rw [hlock, List.length_cons]
        omega
      refine ⟨{ t with freeLock := t.freeLock - 1 }, T, free, if_neg hlast, { h with },
        { hq with unlocked := fun h0 => absurd h0 hlast }, { hm with }, ?_, hsize,
        fun g hg => (hrest g hg).congr rfl fun _ => rfl, hended'⟩
      dsimp only
      omega
  · rw [hsome]
    cases hT : T b with
    | nil =>
      rw [hT] at hroot
      cases hroot
    | node c l p' r =>
      rw [hT] at hroot
      cases hroot
      have hleft : (laterNodes T i).Perm
          (p :: (l.inorder ++ r.inorder ++ [] ++ laterNodes T (b + 1))) := by
        rw [hlater, hT, List.append_nil]
        exact inorder_perm c l p r _
      have hheight := h.height_le hsize hb
      rw [hT] at hheight
      have hwalk : Walking rank t T (f.visit rank t w.entries b p []) := by
        refine ⟨hb, _, ⟨c, l, r, none, [], ?_, ?_, .nil, rfl⟩, (hv.perm hleft).visit hk h hm b []⟩
        · exact hT ▸ h.trees.linked b hb
        · simpa [Traversal.visit] using hheight
      refine ⟨t, T, free, rfl, h, hq, hm, ?_, hsize, fun g hg => ?_, hended⟩
      · rw [hlock, List.length_cons]
        rfl
      · rcases List.mem_cons.1 hg with rfl | hg
        · exact hwalk
        · exact hrest g hg

/-- **An erasure** keeps the traversals where they are. -/
theorem ForeachInv.erase (hk : kind.Lawful rank) (h : ForeachInv kind rank w) (key : K)
    (hok : ErasesPresent kind w (.erase key)) :
    ForeachInv kind rank (foreachStep kind rank w (.erase key)) := by
  obtain ⟨t, T, free, ht, h, hq, hm, hlock, hsize, hrun, hended⟩ := h
  have hnot := hok t ht
  have hnone : ∀ r, t.dbErase kind key = some r →
      (foreachStep kind rank w (.erase key)).table = some r.1 := by
    intro r hr
    rw [foreachStep, ht, Option.bind_some, hr, Option.map_some]
  by_cases hunlocked : t.freeLock = 0
  · obtain ⟨t', hrun', ⟨T', free', h', hq', hm'⟩, hlock'⟩ :=
      dbErase_spec hk ⟨T, free, h, hq, hm⟩ key fun h0 => absurd hunlocked h0
    have hcount := dbErase_itemCount hrun'
    have hnil : w.running = [] := List.length_eq_zero_iff.1 (by omega)
    refine ⟨t', T', free', hnone _ hrun', h', hq', hm', hlock'.trans hlock, by omega, ?_, hended⟩
    rw [foreachStep, hnil]
    exact fun g hg => nomatch hg
  · obtain ⟨d, hd, hends⟩ := find_spec hk h key
    cases d with
    | missing last =>
      have hrun' : t.dbErase kind key = some (t, 0) := by rw [Dbt.dbErase, hd]; rfl
      refine ⟨t, T, free, hnone _ hrun', h, hq, ?_, hlock, hsize, hrun, hended⟩
      exact hm.erase (fun i hi _ => ⟨hi, rfl, hends.ne hk h.trees i hi⟩) fun i hi _ _ => ⟨hi, rfl⟩
    | found i =>
      have hlive : (t.items i).deleted = false := by
        have hmarked := hnot hunlocked
        rw [Dbt.Marked, hd] at hmarked
        simpa using hmarked
      obtain ⟨h', hq', hm'⟩ := markDeleted_spec hk h hq hm hends hlive hunlocked
      refine ⟨_, T, free, hnone (_, (t.items i).data) ?_, h', hq', hm', hlock, hsize,
        fun g hg => (hrun g hg).congr rfl fun j => ?_, hended⟩
      · rw [Dbt.dbErase, hd]
        exact if_pos hunlocked
      · rcases eq_or_ne j i with rfl | hji
        · simpa [Dbt.setItem] using hk.copy (t.items j).key
        · simp [hji]

theorem foreachInv_step (hk : kind.Lawful rank) (w : ForeachWorld K α) (e : ForeachEvent K)
    (h : ForeachInv kind rank w) (hok : ErasesPresent kind w e) :
    ForeachInv kind rank (foreachStep kind rank w e) := by
  cases e with
  | erase key => exact h.erase hk key hok
  | foreach =>
    obtain ⟨t, T, free, ht, h, hq, hm, hlock, hsize, hrun, hended⟩ := h
    unfold foreachStep
    rw [ht]
    have hv : Visited rank t.dbFreeLock T { count := t.itemCount, entries := w.entries }
        (laterNodes T 0) := by
      rw [laterNodes_zero]
      refine ⟨List.Perm.refl _, h.count, by simp, by simp, fun a ha => ?_⟩
      obtain ⟨i, hi, -, hia⟩ := hm.only a ha
      exact ⟨i, hi, hia⟩
    refine ForeachInv.enter (t := t.dbFreeLock) hk { h with } { hq with unlocked := fun h0 => ?_ }
      { hm with } ?_ hsize (fun g hg => (hrun g hg).congr rfl fun _ => rfl) hended hv
    · change t.freeLock + 1 = 0 at h0
      omega
    · change t.freeLock + 1 = _
      rw [hlock]
  | next =>
    have hinv := h
    obtain ⟨t, T, free, ht, h, hq, hm, hlock, hsize, hrun, hended⟩ := h
    unfold foreachStep
    rw [ht]
    cases hw : w.running with
    | nil => exact hinv
    | cons f rest =>
      rw [hw] at hrun hlock
      obtain ⟨hb, below, hstands, hv⟩ := hrun f List.mem_cons_self
      have hrest : ∀ g ∈ rest, Walking rank t T g := fun g hg => hrun g (List.mem_cons_of_mem _ hg)
      dsimp only
      rcases nextNode_spec hstands with ⟨hend, rfl⟩ | ⟨p, stack, below', hnext, hstands', hperm⟩
      · rw [hend]
        have hone : t.freeLock = rest.length + 1 := by
          rw [hlock, List.length_cons]
          rfl
        exact ForeachInv.enter hk h hq hm hone hsize hrest hended hv
      · rw [hnext]
        refine ⟨t, T, free, rfl, h, hq, hm, hlock, hsize, fun g hg => ?_, hended⟩
        rcases List.mem_cons.1 hg with rfl | hg
        · exact ⟨hb, below', hstands', (hv.perm (hperm.append_right _)).visit hk h hm _ _⟩
        · exact hrest g hg

theorem foreachOk_of_inv (hk : kind.Lawful rank) (h : ForeachInv kind rank w) :
    ForeachOk kind rank w := by
  obtain ⟨t, T, free, ht, h, hq, hm, hlock, -, hrun, hended⟩ := h
  refine ⟨t, ht, fun f hf => ?_, hended, fun hnil => ?_⟩
  · obtain ⟨-, below, -, hv⟩ := hrun f hf
    exact hv.once hk h
  · have h0 : t.freeLock = 0 := by rw [hlock, hnil]; rfl
    exact ⟨h0, hq.unlocked h0, T, free, h, hm, hq.live h0, h.card_keys hk hm (hq.live h0)⟩

/-- The table after the calls `cs` on a new one, and the map with the same calls. -/
def foreachWorld (kind : DbKind K) (rank : K → α) (links : Nat → Links) (items : Nat → DbItem K)
    (cs : List (DbCall K)) : ForeachWorld K α where
  table := (Dbt.calls kind cs (dbInit links items)).map Prod.fst
  entries := (DbMap.calls rank cs ∅).1

/-- The items of the table are counted by an `int`. -/
def ItemsFit (w : ForeachWorld K α) : Prop := ∀ t ∈ w.table, t.itemCount < 2 ^ 31

instance (w : ForeachWorld K α) : Decidable (ItemsFit w) :=
  inferInstanceAs (Decidable (∀ t ∈ w.table, t.itemCount < 2 ^ 31))

theorem foreachOk_of_lawful (hk : kind.Lawful rank) (links : Nat → Links) (items : Nat → DbItem K)
    (cs : List (DbCall K)) (es : List (ForeachEvent K))
    (hfit : ItemsFit (foreachWorld kind rank links items cs))
    (h : Run.Meets (foreachStep kind rank) (ErasesPresent kind)
      (foreachWorld kind rank links items cs) es) :
    ForeachOk kind rank
      (Run.exec (foreachStep kind rank) (foreachWorld kind rank links items cs) es) := by
  obtain ⟨t, hrun, ⟨T, free, htable, hq, hm⟩, hlock⟩ :=
    calls_spec hk (dbOk_init kind rank links items) rfl cs
  have ht : (foreachWorld kind rank links items cs).table = some t := by
    rw [foreachWorld, hrun, Option.map_some]
  have hstart : ForeachInv kind rank (foreachWorld kind rank links items cs) :=
    ⟨t, T, free, ht, htable, hq, hm, hlock, hfit t ht, by simp [foreachWorld],
      by simp [foreachWorld]⟩
  exact foreachOk_of_inv hk (Run.inv_exec (foreachInv_step hk) hstart h)

end Worlds

/-- Three keys in one bucket and one in another. -/
def traversedCalls : List (DbCall (BitVec 32)) :=
  [.insert 5 50, .insert 288 51, .insert 571 52, .insert 7 53]

/-- The first callback erases its own key, the second one starts a traversal whose first callback
erases a key that comes later in both. -/
def traversedRun : List (ForeachEvent (BitVec 32)) :=
  [.foreach, .erase 288, .next, .foreach, .next, .erase 571, .next, .next, .next, .next, .next,
    .next]

end Nezumi
