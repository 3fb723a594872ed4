import Nezumi.Common.DbTree
import Nezumi.Common.DbKeys
import Mathlib.Data.Finmap

/-!
# The operations of a table (`common/db.c`)

* `TreesOk`: the trees of the buckets are search trees and red-black trees, each key is in the bucket
  of its hash. `DbtOk`: beside it, each node ever used is in a tree or in the chain of the free
  nodes, once, and `item_count` is the number of the nodes in the trees.
* `QueueOk`: the nodes that are marked as deleted are the ones in the queue. `Represents`: the other
  nodes hold the entries of a finite map.
* `dbSearch_spec`, `dbInsert_spec`, `dbErase_spec`, `dbFreeUnlock_spec`: what the functions do to all
  of this.
-/

namespace Nezumi

open RbTree RbTree.Tree

/-! ## The nodes of the trees -/

/-- The nodes of the trees, bucket after bucket. -/
def treeNodes (T : Nat → RbTree.Tree Nat) : List Nat :=
  (List.range hashSize).flatMap fun b => (T b).inorder

theorem mem_treeNodes {T : Nat → RbTree.Tree Nat} {i : Nat} :
    i ∈ treeNodes T ↔ ∃ b < hashSize, i ∈ (T b).inorder := by
  simp [treeNodes]

/-- The nodes of one tree, and those of the others. -/
theorem treeNodes_split (T : Nat → RbTree.Tree Nat) {b : Nat} (hb : b < hashSize) :
    ∃ rest, (treeNodes T).Perm ((T b).inorder ++ rest) ∧
      ∀ u, (treeNodes (Function.update T b u)).Perm (u.inorder ++ rest) := by
  have hperm := List.perm_cons_erase (List.mem_range.mpr hb)
  refine ⟨((List.range hashSize).erase b).flatMap fun c => (T c).inorder, ?_, fun u => ?_⟩
  · exact hperm.flatMap_right _
  · refine (hperm.flatMap_right _).trans ?_
    rw [List.flatMap_cons, Function.update_self]
    refine List.Perm.append_left _ (List.Perm.of_eq (List.flatMap_congr fun c hc => ?_))
    rw [Function.update_of_ne ((List.nodup_range.mem_erase_iff).mp hc).1]

theorem treeNodes_remove {T : Nat → RbTree.Tree Nat} {b z : Nat} {u : RbTree.Tree Nat} (hb : b < hashSize)
    (hperm : (T b).inorder.Perm (z :: u.inorder)) :
    (treeNodes T).Perm (z :: treeNodes (Function.update T b u)) := by
  obtain ⟨rest, hT, hT'⟩ := treeNodes_split T hb
  exact hT.trans ((hperm.append_right rest).trans ((hT' u).symm.cons z))

theorem treeNodes_add {T : Nat → RbTree.Tree Nat} {b p : Nat} {u : RbTree.Tree Nat} (hb : b < hashSize)
    (hperm : u.inorder.Perm (p :: (T b).inorder)) :
    (treeNodes (Function.update T b u)).Perm (p :: treeNodes T) := by
  obtain ⟨rest, hT, hT'⟩ := treeNodes_split T hb
  exact (hT' u).trans ((hperm.append_right rest).trans (hT.symm.cons p))

/-- The chain of the free nodes, through their parent pointers. -/
def FreeChain (m : Nat → Links) : (top : Option Nat) → List Nat → Prop
  | top, [] => top = none
  | top, i :: l => top = some i ∧ FreeChain m (m i).parent l

theorem FreeChain.congr {m m' : Nat → Links} {top : Option Nat} {l : List Nat}
    (h : FreeChain m top l) (hm : ∀ i ∈ l, m' i = m i) : FreeChain m' top l := by
  induction l generalizing top with
  | nil => exact h
  | cons i l ih =>
    refine ⟨h.1, ?_⟩
    rw [hm i List.mem_cons_self]
    exact ih h.2 fun j hj => hm j (List.mem_cons_of_mem _ hj)

/-! ## The invariant -/

section
variable {K α : Type} [LinearOrder α]

/-- The trees of the buckets. -/
structure TreesOk (kind : DbKind K) (rank : K → α) (links : Nat → Links) (ht : Nat → Option Nat)
    (items : Nat → DbItem K) (T : Nat → RbTree.Tree Nat) : Prop where
  linked : ∀ b < hashSize, Linked links none (T b)
  root : ∀ b < hashSize, ht b = (T b).root
  rb : ∀ b < hashSize, RbOk (T b)
  sorted : ∀ b < hashSize,
    (T b).inorder.Pairwise fun i j => rank (items i).key < rank (items j).key
  hash : ∀ b < hashSize, ∀ i ∈ (T b).inorder, Dbt.hashOf kind (items i).key = b

structure DbtOk (kind : DbKind K) (rank : K → α) (t : Dbt K) (T : Nat → RbTree.Tree Nat)
    (free : List Nat) : Prop where
  trees : TreesOk kind rank t.links t.ht t.items T
  chain : FreeChain t.links t.dbnFree free
  used : (treeNodes T ++ free).Perm (List.range t.dbnNext)
  count : t.itemCount = (treeNodes T).length

/-- The queue of the nodes that are marked as deleted. -/
structure QueueOk (t : Dbt K) (T : Nat → RbTree.Tree Nat) : Prop where
  nodup : (t.freeList.map Prod.fst).Nodup
  mem : ∀ e ∈ t.freeList, e.2 < hashSize ∧ e.1 ∈ (T e.2).inorder ∧ (t.items e.1).deleted = true
  queued : ∀ i ∈ treeNodes T, (t.items i).deleted = true → i ∈ t.freeList.map Prod.fst
  null : ∀ i ∈ treeNodes T, (t.items i).deleted = true → (t.items i).data = 0
  unlocked : t.freeLock = 0 → t.freeList = []

/-- A finite map from the ranks of the keys to the data. -/
abbrev DbMap (α : Type) : Type := Finmap fun _ : α => Nat

/-- The nodes that are not marked as deleted are the entries of the map. -/
structure Represents (rank : K → α) (t : Dbt K) (T : Nat → RbTree.Tree Nat) (m : DbMap α) : Prop where
  live : ∀ i ∈ treeNodes T, (t.items i).deleted = false →
    m.lookup (rank (t.items i).key) = some (t.items i).data
  only : ∀ a ∈ m, ∃ i ∈ treeNodes T, (t.items i).deleted = false ∧ rank (t.items i).key = a

end

section Ops
variable {K α : Type} [LinearOrder α] {kind : DbKind K} {rank : K → α}
variable {t : Dbt K} {T : Nat → RbTree.Tree Nat} {free : List Nat} {m : DbMap α} {b : Nat}

variable (kind) in
theorem hashOf_lt (key : K) : Dbt.hashOf kind key < hashSize :=
  Nat.mod_lt _ (by decide)

theorem DbtOk.nodup (h : DbtOk kind rank t T free) : (treeNodes T ++ free).Nodup :=
  h.used.nodup_iff.mpr List.nodup_range

theorem DbtOk.nodup_tree (h : DbtOk kind rank t T free) (hb : b < hashSize) :
    (T b).inorder.Nodup := by
  obtain ⟨rest, hperm, -⟩ := treeNodes_split T hb
  exact (List.nodup_append.mp (hperm.nodup_iff.mp (List.nodup_append.mp h.nodup).1)).1

/-- A node is in one tree only. -/
theorem TreesOk.bucket_unique (h : TreesOk kind rank t.links t.ht t.items T) {i c : Nat}
    (hb : b < hashSize) (hc : c < hashSize) (hi : i ∈ (T b).inorder) (hi' : i ∈ (T c).inorder) :
    b = c := (h.hash b hb i hi).symm.trans (h.hash c hc i hi')

theorem DbtOk.placed (h : DbtOk kind rank t T free) (hb : b < hashSize) :
    At t.links (t.bucket b) (T b) [] :=
  ⟨h.trees.linked b hb, h.trees.root b hb, by simpa [labels] using h.nodup_tree hb,
    fun _ _ _ => rfl⟩

theorem DbtOk.length_lt_fuel (h : DbtOk kind rank t T free) (hb : b < hashSize) :
    (T b).inorder.length + 1 < t.fuel := by
  obtain ⟨rest, hperm, -⟩ := treeNodes_split T hb
  have := hperm.length_eq
  rw [List.length_append] at this
  have hcount := h.count
  unfold Dbt.fuel
  omega

/-- Nodes with keys of one rank are the same. -/
theorem TreesOk.key_inj (hk : kind.Lawful rank) (h : TreesOk kind rank t.links t.ht t.items T)
    {i j : Nat} (hi : i ∈ treeNodes T) (hj : j ∈ treeNodes T)
    (hij : rank (t.items i).key = rank (t.items j).key) : i = j := by
  obtain ⟨b, hb, hi⟩ := mem_treeNodes.mp hi
  obtain ⟨c, hc, hj⟩ := mem_treeNodes.mp hj
  have hbc : b = c := by
    rw [← h.hash b hb i hi, ← h.hash c hc j hj, Dbt.hashOf, Dbt.hashOf, hk.hash _ _ hij]
  subst hbc
  have hsymm : Std.Symm fun i j => rank (t.items i).key ≠ rank (t.items j).key :=
    ⟨fun _ _ h => h.symm⟩
  by_contra hne
  exact ((h.sorted b hb).imp fun hlt => hlt.ne).forall hi hj hne hij

/-! ## The way down -/

/-- Where the way down for a key ends in a tree. -/
def Ends (kind : DbKind K) (rank : K → α) (t : Dbt K) (key : K) (u : RbTree.Tree Nat) : Descent → Prop
  | .found i => (∃ c l r fs, plug (.node c l i r) fs = u) ∧ rank key = rank (t.items i).key
  | .missing last => ∃ fs, plug .nil fs = u ∧
      last = fs.head?.map (fun f => (f.label, kind.cmp key (t.items f.label).key)) ∧
      (∀ f ∈ fs.head?, f.side =
        if kind.cmp key (t.items f.label).key < 0 then Side.left else Side.right) ∧
      (∀ j ∈ labelsBefore fs, rank (t.items j).key < rank key) ∧
      ∀ j ∈ labelsAfter fs, rank key < rank (t.items j).key

theorem descend_spec (hk : kind.Lawful rank) (key : K) {p : Option Nat} {u : RbTree.Tree Nat}
    {fs : List (Frame Nat)} (hu : Linked t.links p u)
    (hsorted : (plug u fs).inorder.Pairwise fun i j => rank (t.items i).key < rank (t.items j).key)
    (hside : ∀ f ∈ fs.head?, f.side =
      if kind.cmp key (t.items f.label).key < 0 then Side.left else Side.right)
    (hbefore : ∀ j ∈ labelsBefore fs, rank (t.items j).key < rank key)
    (hafter : ∀ j ∈ labelsAfter fs, rank key < rank (t.items j).key) {fuel : Nat}
    (hfuel : u.inorder.length < fuel) :
    ∃ d, t.descend kind key fuel
      (fs.head?.map fun f => (f.label, kind.cmp key (t.items f.label).key)) u.root = some d ∧
      Ends kind rank t key (plug u fs) d := by
  induction u generalizing p fs fuel with
  | nil =>
    obtain ⟨fuel, rfl⟩ := Nat.exists_eq_add_one_of_ne_zero (Nat.ne_zero_of_lt hfuel)
    exact ⟨_, rfl, fs, rfl, rfl, hside, hbefore, hafter⟩
  | node c l i r ihl ihr =>
    obtain ⟨fuel, rfl⟩ := Nat.exists_eq_add_one_of_ne_zero (Nat.ne_zero_of_lt hfuel)
    obtain ⟨hi, hl, hr⟩ := hu
    have hs := hsorted
    rw [inorder_plug] at hs
    simp only [inorder, List.length_append, List.length_cons] at hfuel
    simp only [inorder, List.pairwise_append, List.pairwise_cons, List.mem_append,
      List.mem_cons] at hs
    obtain ⟨-, ⟨⟨-, ⟨hir, -⟩, hli⟩, -, -⟩, -⟩ := hs
    rw [root, Dbt.descend]
    by_cases h0 : kind.cmp key (t.items i).key = 0
    · rw [if_pos h0]
      exact ⟨_, rfl, ⟨c, l, r, fs, rfl⟩, (hk.cmp_zero _ _).mp h0⟩
    · rw [if_neg h0, hi]
      by_cases hneg : kind.cmp key (t.items i).key < 0
      · rw [if_pos hneg]
        have hlt := (hk.cmp_neg _ _).mp hneg
        refine @ihl _ (⟨.left, c, i, r⟩ :: fs) hl hsorted ?_ hbefore ?_ _ (by omega)
        · simp [hneg]
        · simp only [labelsAfter, List.mem_append, List.mem_cons]
          rintro j ((rfl | hj) | hj)
          · exact hlt
          · exact hlt.trans (hir j hj)
          · exact hafter j hj
      · rw [if_neg hneg]
        have hlt : rank (t.items i).key < rank key :=
          lt_of_le_of_ne (not_lt.mp (mt (hk.cmp_neg _ _).mpr hneg))
            fun h => h0 ((hk.cmp_zero _ _).mpr h.symm)
        refine @ihr _ (⟨.right, c, i, l⟩ :: fs) hr hsorted ?_ ?_ hafter _ (by omega)
        · simp [hneg]
        · simp only [labelsBefore, List.mem_append, List.mem_singleton]
          rintro j (hj | hj | rfl)
          · exact hbefore j hj
          · exact (hli j hj i (.inl rfl)).trans hlt
          · exact hlt

theorem find_spec (hk : kind.Lawful rank) (h : DbtOk kind rank t T free) (key : K) :
    ∃ d, t.find kind key = some d ∧
      Ends kind rank t key (T (Dbt.hashOf kind key)) d := by
  have hb := hashOf_lt kind key
  have := h.length_lt_fuel hb
  rw [Dbt.find, h.trees.root _ hb]
  have hsorted : (plug (T (Dbt.hashOf kind key)) []).inorder.Pairwise fun i j =>
      rank (t.items i).key < rank (t.items j).key := h.trees.sorted _ hb
  exact descend_spec hk key (h.trees.linked _ hb) hsorted (by simp)
    (by simp [labelsBefore]) (by simp [labelsAfter]) (by omega)

theorem mem_of_plug {u : RbTree.Tree Nat} {c : Color} {l r : RbTree.Tree Nat} {i : Nat} {fs : List (Frame Nat)}
    (h : plug (.node c l i r) fs = u) : i ∈ u.inorder := by
  rw [← h, mem_inorder_plug]
  exact .inl (by simp [inorder])

/-- A node that was found. -/
theorem Ends.mem {key : K} {i : Nat}
    (h : Ends kind rank t key (T (Dbt.hashOf kind key)) (.found i)) : i ∈ treeNodes T := by
  obtain ⟨⟨c, l, r, fs, hfs⟩, -⟩ := h
  exact mem_treeNodes.mpr ⟨_, hashOf_lt kind key, mem_of_plug hfs⟩

/-- Where no node was found, there is none with an equal key. -/
theorem Ends.ne (hk : kind.Lawful rank) (h : TreesOk kind rank t.links t.ht t.items T) {key : K}
    {last : Option (Nat × Int)}
    (hd : Ends kind rank t key (T (Dbt.hashOf kind key)) (.missing last)) :
    ∀ i ∈ treeNodes T, rank (t.items i).key ≠ rank key := by
  intro i hi heq
  obtain ⟨b, hb, hi⟩ := mem_treeNodes.mp hi
  obtain rfl : b = Dbt.hashOf kind key := by
    rw [← h.hash b hb i hi, Dbt.hashOf, Dbt.hashOf, hk.hash _ _ heq]
  obtain ⟨fs, hfs, -, -, hbefore, hafter⟩ := hd
  rw [← hfs, inorder_plug] at hi
  simp only [inorder, List.nil_append, List.mem_append] at hi
  rcases hi with hi | hi
  · exact (hbefore i hi).ne heq
  · exact (hafter i hi).ne heq.symm

/-- The data of the node that was found are what the map has. -/
theorem Ends.data (hk : kind.Lawful rank) (h : TreesOk kind rank t.links t.ht t.items T)
    (hq : QueueOk t T) (hm : Represents rank t T m) {key : K} {i : Nat}
    (hd : Ends kind rank t key (T (Dbt.hashOf kind key)) (.found i)) :
    (t.items i).data = (m.lookup (rank key)).getD 0 := by
  have hi := hd.mem
  by_cases hdel : (t.items i).deleted = true
  · have hnone : m.lookup (rank key) = none := by
      rw [Finmap.lookup_eq_none]
      intro hmem
      obtain ⟨j, hj, hlive, hjk⟩ := hm.only _ hmem
      obtain rfl := h.key_inj hk hi hj (hd.2.symm.trans hjk.symm)
      rw [hlive] at hdel
      cases hdel
    rw [hnone, hq.null i hi hdel]
    rfl
  · rw [hd.2, hm.live i hi (by simpa using hdel)]
    rfl

/-- The map has no key that was not found. -/
theorem Ends.notMem (hk : kind.Lawful rank) (h : TreesOk kind rank t.links t.ht t.items T)
    (hm : Represents rank t T m) {key : K} {last : Option (Nat × Int)}
    (hd : Ends kind rank t key (T (Dbt.hashOf kind key)) (.missing last)) : rank key ∉ m := by
  intro hmem
  obtain ⟨j, hj, -, hjk⟩ := hm.only _ hmem
  exact hd.ne hk h j hj hjk

/-- **`db_search`** looks the key up in the map. -/
theorem dbSearch_spec (hk : kind.Lawful rank) (h : DbtOk kind rank t T free) (hq : QueueOk t T)
    (hm : Represents rank t T m) (key : K) :
    t.dbSearch kind key = some ((m.lookup (rank key)).getD 0) := by
  obtain ⟨d, hd, hends⟩ := find_spec hk h key
  rw [Dbt.dbSearch, hd, Option.map_some]
  cases d with
  | found i => rw [← hends.data hk h.trees hq hm]
  | missing last => rw [Finmap.lookup_eq_none.mpr (hends.notMem hk h.trees hm)]; rfl

/-! ## Changes to one tree -/

/-- A tree has been changed, and the memory of its nodes. -/
theorem TreesOk.update {links : Nat → Links} {ht : Nat → Option Nat} {items items' : Nat → DbItem K}
    {mem : Nat → Links} {s : Bucket} {u : RbTree.Tree Nat} (h : TreesOk kind rank links ht items T)
    (hat : At mem s u [])
    (hlinks : ∀ c < hashSize, c ≠ b → ∀ i ∈ (T c).inorder, s.links i = links i)
    (hitems : ∀ c < hashSize, c ≠ b → ∀ i ∈ (T c).inorder, items' i = items i)
    (hrb : RbOk u)
    (hsorted : u.inorder.Pairwise fun i j => rank (items' i).key < rank (items' j).key)
    (hhash : ∀ i ∈ u.inorder, Dbt.hashOf kind (items' i).key = b) :
    TreesOk kind rank s.links (Function.update ht b s.root) items' (Function.update T b u) := by
  refine ⟨fun c hc => ?_, fun c hc => ?_, fun c hc => ?_, fun c hc => ?_, fun c hc => ?_⟩ <;>
    by_cases hcb : c = b
  · subst hcb
    rw [Function.update_self]
    exact hat.sub
  · rw [Function.update_of_ne hcb]
    exact (h.linked c hc).congr (hlinks c hc hcb)
  · subst hcb
    rw [Function.update_self, Function.update_self]
    exact hat.up
  · rw [Function.update_of_ne hcb, Function.update_of_ne hcb]
    exact h.root c hc
  · subst hcb
    rwa [Function.update_self]
  · rw [Function.update_of_ne hcb]
    exact h.rb c hc
  · subst hcb
    rwa [Function.update_self]
  · rw [Function.update_of_ne hcb]
    refine (h.sorted c hc).imp_of_mem fun {i j} hi hj hij => ?_
    rwa [hitems c hc hcb i hi, hitems c hc hcb j hj]
  · subst hcb
    rwa [Function.update_self]
  · rw [Function.update_of_ne hcb]
    intro i hi
    rw [hitems c hc hcb i hi]
    exact h.hash c hc i hi

theorem TreesOk.congr_links {links links' : Nat → Links} {ht : Nat → Option Nat}
    {items : Nat → DbItem K} (h : TreesOk kind rank links ht items T)
    (hlinks : ∀ i ∈ treeNodes T, links' i = links i) : TreesOk kind rank links' ht items T :=
  { h with
    linked := fun c hc => (h.linked c hc).congr fun i hi =>
      hlinks i (mem_treeNodes.mpr ⟨c, hc, hi⟩) }

/-- A node gets a key of the same rank. -/
theorem DbtOk.setItem (hk : kind.Lawful rank) (h : DbtOk kind rank t T free) {i : Nat}
    (item : DbItem K) (hitem : rank item.key = rank (t.items i).key) :
    DbtOk kind rank (t.setItem i item) T free := by
  have hrank : ∀ j, rank ((t.setItem i item).items j).key = rank (t.items j).key := fun j => by
    by_cases hj : j = i
    · subst hj
      simpa [Dbt.setItem] using hitem
    · simp [Dbt.setItem, hj]
  refine ⟨⟨h.trees.linked, h.trees.root, h.trees.rb, fun c hc => ?_, fun c hc j hj => ?_⟩, h.chain,
    h.used, h.count⟩
  · exact (h.trees.sorted c hc).imp fun {i j} hij => by rwa [hrank, hrank]
  · rw [Dbt.hashOf, hk.hash _ _ (hrank j)]
    exact h.trees.hash c hc j hj

/-- Every node of a tree is at a place of it. -/
theorem exists_plug {u : RbTree.Tree Nat} {i : Nat} (hi : i ∈ u.inorder) (gs : List (Frame Nat)) :
    ∃ c l r fs, plug (.node c l i r) fs = plug u gs := by
  induction u generalizing gs with
  | nil => cases hi
  | node c l j r ihl ihr =>
    simp only [inorder, List.mem_append, List.mem_cons] at hi
    rcases hi with hi | rfl | hi
    · exact ihl hi (⟨.left, c, j, r⟩ :: gs)
    · exact ⟨c, l, r, gs, rfl⟩
    · exact ihr hi (⟨.right, c, j, l⟩ :: gs)

/-- **A node is removed** from its tree and freed. -/
theorem remove_spec (h : DbtOk kind rank t T free) (hb : b < hashSize) {z : Nat}
    (hz : z ∈ (T b).inorder) :
    ∃ t' u, t.remove z b = some t' ∧ DbtOk kind rank t' (Function.update T b u) (z :: free) ∧
      (T b).inorder.Perm (z :: u.inorder) ∧ t'.items = t.items ∧ t'.freeList = t.freeList ∧
      t'.freeLock = t.freeLock := by
  obtain ⟨c, l, r, fs, hfs⟩ := exists_plug hz []
  rw [plug] at hfs
  have hat : At t.links (t.bucket b) (.node c l z r) fs := by
    have := h.placed hb
    rw [← hfs, At.plug_iff] at this
    simpa using this
  have hfuel := h.length_lt_fuel hb
  obtain ⟨s, mem, hs, hmem, hat'⟩ := dbRebalanceErase_spec hat (hfs ▸ h.trees.rb b hb)
    (show _ < t.fuel by rw [hfs]; omega)
  have hin : (T b).inorder = labelsBefore fs ++ (l.inorder ++ z :: (r.inorder ++ labelsAfter fs)) := by
    rw [← hfs, inorder_plug]
    simp [inorder]
  have hout := inorder_eraseAt c l r fs
  have hperm : (T b).inorder.Perm (z :: (eraseAt c l r fs).inorder) := by
    rw [hin, hout, ← List.append_assoc, ← List.append_assoc]
    exact List.perm_middle
  have hsub : (eraseAt c l r fs).inorder.Sublist (T b).inorder := by
    rw [hin, hout]
    exact ((List.sublist_cons_self ..).append_left _).append_left _
  have hall : (treeNodes T ++ free).Perm
      (z :: (treeNodes (Function.update T b (eraseAt c l r fs)) ++ free)) :=
    (treeNodes_remove hb hperm).append_right free
  have hzall := (List.nodup_cons.mp (hall.nodup_iff.mp h.nodup)).1
  have hdisj := (List.nodup_append.mp h.nodup).2.2
  have hother : ∀ i, i ≠ z → i ∉ (eraseAt c l r fs).inorder → s.links i = t.links i :=
    fun i h1 h2 => (hat'.other i h2 (by simp [labels])).trans (hmem i h1)
  have htrees := h.trees.update hat'
    (fun c hc hcb i hi => hother i
      (fun hiz => hcb (h.trees.bucket_unique hc hb (hiz ▸ hi) hz))
      fun hiu => hcb (h.trees.bucket_unique hc hb hi (hsub.mem hiu)))
    (fun _ _ _ _ _ => rfl) (eraseAt_ok (hfs ▸ h.trees.rb b hb)) ((h.trees.sorted b hb).sublist hsub)
    (fun i hi => h.trees.hash b hb i (hsub.mem hi))
  refine ⟨{ (t.setBucket b s).freeDbn z with itemCount := t.itemCount - 1 }, eraseAt c l r fs,
    by rw [Dbt.remove, hs]; rfl,
    ⟨htrees.congr_links fun i hi => ?_, ⟨rfl, ?_⟩, ?_, ?_⟩, hperm, rfl, rfl, rfl⟩
  · refine Function.update_of_ne ?_ ..
    rintro rfl
    exact hzall (List.mem_append_left _ hi)
  · have hz' : (Function.update s.links z { s.links z with parent := t.dbnFree } z).parent =
        t.dbnFree := by rw [Function.update_self]
    refine FreeChain.congr (m := t.links) ?_ fun i hi => ?_
    · exact hz'.symm ▸ h.chain
    · have hiz : i ≠ z := by
        rintro rfl
        exact hzall (List.mem_append_right _ hi)
      refine (Function.update_of_ne hiz ..).trans (hother i hiz fun hiu => ?_)
      exact hdisj i (mem_treeNodes.mpr ⟨b, hb, hsub.mem hiu⟩) i hi rfl
  · exact (List.perm_middle.trans hall.symm).trans h.used
  · have hlen := hall.length_eq
    simp only [List.length_append, List.length_cons] at hlen
    have hcount := h.count
    change t.itemCount - 1 = _
    omega

/-! ## Insertion -/

/-- The node that `malloc_dbn` gives is in no tree. -/
theorem mallocDbn_spec (h : DbtOk kind rank t T free) :
    ∃ free', FreeChain t.links t.mallocDbn.1.dbnFree free' ∧
      (t.mallocDbn.2 :: (treeNodes T ++ free')).Perm (List.range t.mallocDbn.1.dbnNext) := by
  unfold Dbt.mallocDbn
  cases free with
  | nil =>
    have htop : t.dbnFree = none := h.chain
    rw [htop]
    refine ⟨[], rfl, ?_⟩
    rw [List.range_succ]
    exact (h.used.cons _).trans (List.perm_append_singleton ..).symm
  | cons i free =>
    obtain ⟨htop, hchain⟩ := h.chain
    rw [htop]
    exact ⟨free, hchain, List.perm_middle.symm.trans h.used⟩

/-- The table with a new node in place of the last one of a way down. -/
theorem attach_spec (h : DbtOk kind rank t T free) {key : K} (data : Nat)
    {last : Option (Nat × Int)}
    (hd : Ends kind rank t key (T (Dbt.hashOf kind key)) (.missing last)) :
    ∃ t' p u free', t.attach kind key data last = some (t', p) ∧
      DbtOk kind rank t' (Function.update T (Dbt.hashOf kind key) u) free' ∧
      u.inorder.Perm (p :: (T (Dbt.hashOf kind key)).inorder) ∧ p ∉ treeNodes T ∧
      t'.items = Function.update t.items p { key, data } ∧ t'.freeList = t.freeList ∧
      t'.freeLock = t.freeLock := by
  have hb := hashOf_lt kind key
  set b := Dbt.hashOf kind key with hbdef
  obtain ⟨free', hchain, hused⟩ := mallocDbn_spec h
  obtain ⟨fs, hfs, hlast, hside, hbefore, hafter⟩ := hd
  have hmalloc : t.mallocDbn.1.links = t.links ∧ t.mallocDbn.1.ht = t.ht ∧
      t.mallocDbn.1.items = t.items ∧ t.mallocDbn.1.itemCount = t.itemCount ∧
      t.mallocDbn.1.freeList = t.freeList ∧ t.mallocDbn.1.freeLock = t.freeLock := by
    unfold Dbt.mallocDbn
    split <;> exact ⟨rfl, rfl, rfl, rfl, rfl, rfl⟩
  revert hmalloc hchain hused
  generalize hm : t.mallocDbn = out
  obtain ⟨t₁, p⟩ := out
  dsimp only
  rintro hchain hused ⟨hlinks, hht, hitems, hcount, hlist, hlock⟩
  have hp : p ∉ treeNodes T ++ free' :=
    (List.nodup_cons.mp (hused.nodup_iff.mpr List.nodup_range)).1
  have hpT : p ∉ (T b).inorder := fun hp' =>
    hp (List.mem_append_left _ (mem_treeNodes.mpr ⟨b, hb, hp'⟩))
  have hat : At t.links (t.bucket b) .nil fs := by
    have := h.placed hb
    rw [← hfs, At.plug_iff] at this
    simpa using this
  have hfuel := h.length_lt_fuel hb
  have hin : (T b).inorder = labelsBefore fs ++ labelsAfter fs := by
    rw [← hfs, inorder_plug]
    rfl
  obtain ⟨s, u, hs, hat', hrb, hu⟩ : ∃ s u, (t.bucket b).addLeaf t.fuel p last = some s ∧
      At t.links s u [] ∧ RbOk u ∧ u.inorder = labelsBefore fs ++ p :: labelsAfter fs := by
    cases fs with
    | nil =>
      obtain ⟨s, hs, hat'⟩ := addLeaf_root (q := p) hat t.fuel
      exact ⟨s, _, by rw [hlast]; exact hs, hat', ⟨rfl, 1, rfl, rfl⟩, rfl⟩
    | cons f fs =>
      rw [hlast]
      refine addLeaf_spec hat (fun hp' => hpT ?_) (hfs ▸ h.trees.rb b hb) (hside f rfl) ?_
      · rw [← hfs, mem_inorder_plug]
        exact .inr hp'
      · have := length_le_plug .nil (f :: fs)
        rw [hfs] at this
        omega
  have hperm : u.inorder.Perm (p :: (T b).inorder) := by
    rw [hu, hin]
    exact List.perm_middle
  have hnodes := treeNodes_add hb hperm
  have hmem : ∀ i ∈ u.inorder, i ≠ p → i ∈ (T b).inorder := fun i hi hip =>
    (List.mem_cons.mp (hperm.mem_iff.mp hi)).resolve_left hip
  have hother : ∀ i, i ∉ u.inorder → s.links i = t.links i := fun i hi =>
    hat'.other i hi (by simp [labels])
  let items' := Function.update t.items p { key, data }
  have hitems' : ∀ i, i ≠ p → items' i = t.items i := fun i hi => Function.update_of_ne hi ..
  have hkey : (items' p).key = key := by simp [items']
  have hsorted : u.inorder.Pairwise fun i j => rank (items' i).key < rank (items' j).key := by
    have hold := h.trees.sorted b hb
    have hpin : p ∉ labelsBefore fs ++ labelsAfter fs := hin ▸ hpT
    rw [hin, List.pairwise_append] at hold
    rw [List.mem_append, not_or] at hpin
    have hne : ∀ {l : List Nat}, p ∉ l → ∀ i ∈ l, items' i = t.items i := fun hl i hi =>
      hitems' i fun hip => hl (hip ▸ hi)
    rw [hu, List.pairwise_append, List.pairwise_cons]
    refine ⟨hold.1.imp_of_mem fun {i j} hi hj hij => ?_, ⟨fun j hj => ?_,
      hold.2.1.imp_of_mem fun {i j} hi hj hij => ?_⟩, fun i hi j hj => ?_⟩
    · rwa [hne hpin.1 i hi, hne hpin.1 j hj]
    · rw [hkey, hne hpin.2 j hj]
      exact hafter j hj
    · rwa [hne hpin.2 i hi, hne hpin.2 j hj]
    · rw [hne hpin.1 i hi]
      rcases List.mem_cons.mp hj with rfl | hj
      · rw [hkey]
        exact hbefore i hi
      · rw [hne hpin.2 j hj]
        exact hold.2.2 i hi j hj
  have hhash : ∀ i ∈ u.inorder, Dbt.hashOf kind (items' i).key = b := fun i hi => by
    by_cases hip : i = p
    · rw [hip, hkey]
    · rw [hitems' i hip]
      exact h.trees.hash b hb i (hmem i hi hip)
  have hfar : ∀ c < hashSize, c ≠ b → ∀ i ∈ (T c).inorder, i ∉ u.inorder ∧ i ≠ p := by
    intro c hc hcb i hi
    have hip : i ≠ p := by
      rintro rfl
      exact hp (List.mem_append_left _ (mem_treeNodes.mpr ⟨c, hc, hi⟩))
    exact ⟨fun hiu => hcb (h.trees.bucket_unique hc hb hi (hmem i hiu hip)), hip⟩
  have htrees := h.trees.update hat'
    (fun c hc hcb i hi => hother i (hfar c hc hcb i hi).1)
    (fun c hc hcb i hi => hitems' i (hfar c hc hcb i hi).2) hrb hsorted hhash
  have hrun : t.attach kind key data last = some ({ (t₁.setItem p { key, data }).setBucket b s with
      itemCount := t₁.itemCount + 1 }, p) := by
    have hbucket : (t₁.setItem p { key, data }).bucket b = t.bucket b := by
      rw [Dbt.bucket, Dbt.bucket, ← hlinks, ← hht]
      rfl
    have hfuel' : (t₁.setItem p { key, data }).fuel = t.fuel := by
      rw [Dbt.fuel, Dbt.fuel, ← hcount]
      rfl
    simp only [Dbt.attach, hm, ← hbdef, hbucket, hfuel', hs, Option.bind_eq_bind, Option.bind_some]
    rfl
  refine ⟨_, p, u, free', hrun, ⟨?_, ?_, ?_, ?_⟩, hperm,
    fun hp' => hp (List.mem_append_left _ hp'), ?_, hlist, hlock⟩
  · change TreesOk kind rank s.links (Function.update t₁.ht b s.root)
      (Function.update t₁.items p { key, data }) _
    rw [hht, hitems]
    exact htrees
  · refine hchain.congr fun i hi => hother i fun hiu => ?_
    have hip : i ≠ p := by
      rintro rfl
      exact hp (List.mem_append_right _ hi)
    have hnd := (List.nodup_cons.mp (hused.nodup_iff.mpr List.nodup_range)).2
    exact (List.nodup_append.mp hnd).2.2 i (mem_treeNodes.mpr ⟨b, hb, hmem i hiu hip⟩) i hi rfl
  · exact (hnodes.append_right free').trans hused
  · have hlen := hnodes.length_eq
    have hcount' := h.count
    rw [List.length_cons] at hlen
    change t₁.itemCount + 1 = _
    omega
  · change Function.update t₁.items p _ = _
    rw [hitems]

/-! ## The operations on the map -/

theorem mem_eraseP_fst {l : List (Nat × Nat)} (h : (l.map Prod.fst).Nodup) {i : Nat}
    {e : Nat × Nat} : e ∈ l.eraseP (fun e => e.1 = i) ↔ e ∈ l ∧ e.1 ≠ i := by
  induction l with
  | nil => simp
  | cons x l ih =>
    rw [List.map_cons, List.nodup_cons] at h
    by_cases hx : x.1 = i
    · rw [List.eraseP_cons_of_pos (by simpa using hx), List.mem_cons]
      constructor
      · intro he
        refine ⟨.inr he, fun hei => h.1 ?_⟩
        rw [hx, ← hei]
        exact List.mem_map_of_mem he
      · rintro ⟨rfl | he, hne⟩
        · exact absurd hx hne
        · exact he
    · rw [List.eraseP_cons_of_neg (by simpa using hx), List.mem_cons, List.mem_cons, ih h.2]
      constructor
      · rintro (rfl | ⟨he, hne⟩)
        · exact ⟨.inl rfl, hx⟩
        · exact ⟨.inr he, hne⟩
      · rintro ⟨rfl | he, hne⟩
        · exact .inl rfl
        · exact .inr ⟨he, hne⟩

/-- A table that holds the entries of a map, with the nodes that are marked as deleted. -/
def DbOk (kind : DbKind K) (rank : K → α) (t : Dbt K) (m : DbMap α) : Prop :=
  ∃ T free, DbtOk kind rank t T free ∧ QueueOk t T ∧ Represents rank t T m

/-- The queue after a node was given new data. -/
theorem replace_freeList (hq : QueueOk t T) {i : Nat} (key : K) (data : Nat) :
    ((t.replace i key data).freeList.map Prod.fst).Nodup ∧
      ∀ e, e ∈ (t.replace i key data).freeList ↔ e ∈ t.freeList ∧ e.1 ≠ i := by
  unfold Dbt.replace
  by_cases hdel : (t.items i).deleted = true
  · simp only [hdel, if_true]
    exact ⟨hq.nodup.sublist (List.eraseP_sublist.map _), fun e => mem_eraseP_fst hq.nodup⟩
  · rw [if_neg hdel]
    refine ⟨hq.nodup, fun e => ⟨fun he => ⟨he, ?_⟩, fun he => he.1⟩⟩
    rintro rfl
    exact hdel (hq.mem e he).2.2

/-- A node gets the key and the data of an insertion. -/
theorem replace_spec (hk : kind.Lawful rank) (h : DbtOk kind rank t T free) (hq : QueueOk t T)
    (hm : Represents rank t T m) {key : K} {i : Nat}
    (hd : Ends kind rank t key (T (Dbt.hashOf kind key)) (.found i)) (data : Nat) :
    DbtOk kind rank (t.replace i key data) T free ∧ QueueOk (t.replace i key data) T ∧
      Represents rank (t.replace i key data) T (m.insert (rank key) data) := by
  have hi := hd.mem
  have hitems : (t.replace i key data).items =
      Function.update t.items i { key, data, deleted := false } := by
    unfold Dbt.replace
    split <;> rfl
  have hne : ∀ j, j ≠ i → (t.replace i key data).items j = t.items j := fun j hj => by
    rw [hitems, Function.update_of_ne hj]
  have hself : (t.replace i key data).items i = { key, data, deleted := false } := by
    rw [hitems, Function.update_self]
  obtain ⟨hnodup, hmem⟩ := replace_freeList hq (i := i) key data
  refine ⟨?_, ⟨hnodup, fun e he => ?_, fun j hj hdel => ?_, fun j hj hdel => ?_, fun hlock => ?_⟩,
    fun j hj hlive => ?_, fun a ha => ?_⟩
  · have hset := h.setItem hk { key, data, deleted := false } hd.2
    unfold Dbt.replace
    dsimp only
    split
    · exact { hset with }
    · exact hset
  · obtain ⟨he, hei⟩ := (hmem e).mp he
    rw [hne _ hei]
    exact hq.mem e he
  · have hji : j ≠ i := by
      rintro rfl
      rw [hself] at hdel
      cases hdel
    rw [hne j hji] at hdel
    obtain ⟨e, he, rfl⟩ := List.mem_map.mp (hq.queued j hj hdel)
    exact List.mem_map_of_mem ((hmem e).mpr ⟨he, hji⟩)
  · have hji : j ≠ i := by
      rintro rfl
      rw [hself] at hdel
      cases hdel
    rw [hne j hji] at hdel ⊢
    exact hq.null j hj hdel
  · have hlock' : t.freeLock = 0 := by
      unfold Dbt.replace at hlock
      dsimp only at hlock
      split at hlock <;> exact hlock
    refine List.eq_nil_iff_forall_not_mem.mpr fun e he => ?_
    have := ((hmem e).mp he).1
    rw [hq.unlocked hlock'] at this
    cases this
  · by_cases hji : j = i
    · rw [hji, hself, Finmap.lookup_insert]
    · rw [hne j hji] at hlive ⊢
      have hkey : rank (t.items j).key ≠ rank key := fun hjk =>
        hji (h.trees.key_inj hk hj hi (hjk.trans hd.2))
      rw [Finmap.lookup_insert_of_ne _ hkey]
      exact hm.live j hj hlive
  · by_cases hak : a = rank key
    · exact ⟨i, hi, by rw [hself], by rw [hself, hak]⟩
    · obtain ⟨j, hj, hlive, hja⟩ := hm.only a ((Finmap.mem_insert.mp ha).resolve_left hak)
      have hji : j ≠ i := by
        rintro rfl
        exact hak (hja.symm.trans hd.2.symm)
      exact ⟨j, hj, by rw [hne j hji]; exact hlive, by rw [hne j hji]; exact hja⟩

/-- **`db_insert`** enters the key and the data in the map. -/
theorem dbInsert_spec (hk : kind.Lawful rank) (h : DbOk kind rank t m) (key : K) (data : Nat) :
    ∃ t' i, t.dbInsert kind key data = some (t', i) ∧
      DbOk kind rank t' (m.insert (rank key) data) ∧ t'.freeLock = t.freeLock := by
  obtain ⟨T, free, h, hq, hm⟩ := h
  obtain ⟨d, hd, hends⟩ := find_spec hk h key
  cases d with
  | found i =>
    refine ⟨_, i, by rw [Dbt.dbInsert, hd]; rfl, ⟨T, free, replace_spec hk h hq hm hends data⟩, ?_⟩
    unfold Dbt.replace
    dsimp only
    split <;> rfl
  | missing last =>
    obtain ⟨t', p, u, free', hrun, h', hperm, hp, hitems, hlist, hlock⟩ :=
      attach_spec h data hends
    have hb := hashOf_lt kind key
    have hnodes := treeNodes_add hb hperm
    have hne : ∀ i ∈ treeNodes T, t'.items i = t.items i := fun i hi => by
      have hip : i ≠ p := fun hip => hp (hip ▸ hi)
      rw [hitems, Function.update_of_ne hip]
    have hself : t'.items p = { key, data } := by rw [hitems, Function.update_self]
    have hcases : ∀ i ∈ treeNodes (Function.update T (Dbt.hashOf kind key) u),
        i = p ∨ i ∈ treeNodes T := fun i hi => List.mem_cons.mp (hnodes.mem_iff.mp hi)
    have hold : ∀ i ∈ treeNodes T, i ∈ treeNodes (Function.update T (Dbt.hashOf kind key) u) :=
      fun i hi => hnodes.mem_iff.mpr (List.mem_cons_of_mem _ hi)
    refine ⟨t', p, by rw [Dbt.dbInsert, hd]; exact hrun, ⟨_, free', h', ⟨?_, ?_, ?_, ?_, ?_⟩,
      ⟨?_, ?_⟩⟩, hlock⟩
    · rw [hlist]
      exact hq.nodup
    · rw [hlist]
      intro e he
      obtain ⟨heb, hei, hdel⟩ := hq.mem e he
      have hmem := mem_treeNodes.mpr ⟨e.2, heb, hei⟩
      refine ⟨heb, ?_, by rw [hne _ hmem]; exact hdel⟩
      by_cases hbe : e.2 = Dbt.hashOf kind key
      · rw [hbe, Function.update_self]
        exact hperm.mem_iff.mpr (List.mem_cons_of_mem _ (hbe ▸ hei))
      · rw [Function.update_of_ne hbe]
        exact hei
    · intro i hi hdel
      rcases hcases i hi with rfl | hi
      · rw [hself] at hdel
        cases hdel
      · rw [hne i hi] at hdel
        rw [hlist]
        exact hq.queued i hi hdel
    · intro i hi hdel
      rcases hcases i hi with rfl | hi
      · rw [hself] at hdel
        cases hdel
      · rw [hne i hi] at hdel ⊢
        exact hq.null i hi hdel
    · rw [hlock, hlist]
      exact hq.unlocked
    · intro i hi hlive
      rcases hcases i hi with rfl | hi
      · rw [hself, Finmap.lookup_insert]
      · rw [hne i hi] at hlive ⊢
        rw [Finmap.lookup_insert_of_ne _ (hends.ne hk h.trees i hi)]
        exact hm.live i hi hlive
    · intro a ha
      rcases Finmap.mem_insert.mp ha with rfl | ha
      · exact ⟨p, hnodes.mem_iff.mpr List.mem_cons_self, by rw [hself], by rw [hself]⟩
      · obtain ⟨i, hi, hlive, hia⟩ := hm.only a ha
        exact ⟨i, hold i hi, by rw [hne i hi]; exact hlive, by rw [hne i hi]; exact hia⟩

/-- The map without a key, where no other node has it. -/
theorem Represents.erase (hm : Represents rank t T m) {t' : Dbt K} {T' : Nat → RbTree.Tree Nat} {a : α}
    (hsub : ∀ i ∈ treeNodes T', (t'.items i).deleted = false → i ∈ treeNodes T ∧
      t'.items i = t.items i ∧ rank (t.items i).key ≠ a)
    (hsup : ∀ i ∈ treeNodes T, (t.items i).deleted = false → rank (t.items i).key ≠ a →
      i ∈ treeNodes T' ∧ t'.items i = t.items i) : Represents rank t' T' (m.erase a) := by
  refine ⟨fun i hi hlive => ?_, fun a' ha' => ?_⟩
  · obtain ⟨hi', heq, hne⟩ := hsub i hi hlive
    rw [heq] at hlive ⊢
    rw [Finmap.lookup_erase_ne hne]
    exact hm.live i hi' hlive
  · obtain ⟨hne, ha'⟩ := Finmap.mem_erase.mp ha'
    obtain ⟨i, hi, hlive, rfl⟩ := hm.only a' ha'
    obtain ⟨hi', heq⟩ := hsup i hi hlive hne
    exact ⟨i, hi', by rw [heq]; exact hlive, by rw [heq]⟩

/-- Under a lock a node is marked and queued. The trees stay. -/
theorem markDeleted_spec (hk : kind.Lawful rank) (h : DbtOk kind rank t T free) (hq : QueueOk t T)
    (hm : Represents rank t T m) {key : K} {i : Nat}
    (hd : Ends kind rank t key (T (Dbt.hashOf kind key)) (.found i))
    (hlive : (t.items i).deleted = false) (hlock : t.freeLock ≠ 0) :
    let t' := { t with freeList := t.freeList ++ [(i, Dbt.hashOf kind key)] }.setItem i
      { key := kind.copy (t.items i).key, deleted := true }
    DbtOk kind rank t' T free ∧ QueueOk t' T ∧ Represents rank t' T (m.erase (rank key)) := by
  have hi := hd.mem
  have hset := h.setItem hk (i := i)
    { key := kind.copy (t.items i).key, deleted := true } (hk.copy _)
  have hne : ∀ j, j ≠ i → (Function.update t.items i
      { key := kind.copy (t.items i).key, deleted := true }) j = t.items j := fun j hj =>
    Function.update_of_ne hj ..
  have hself : (Function.update t.items i { key := kind.copy (t.items i).key, deleted := true }) i =
      { key := kind.copy (t.items i).key, deleted := true } := Function.update_self ..
  have hiq : i ∉ t.freeList.map Prod.fst := by
    intro hiq
    obtain ⟨e, he, rfl⟩ := List.mem_map.mp hiq
    rw [(hq.mem e he).2.2] at hlive
    cases hlive
  refine ⟨{ hset with }, ⟨?_, ?_, fun j hj hdel => ?_, fun j hj hdel => ?_,
    fun h0 => absurd h0 hlock⟩, hm.erase (fun j hj hlive' => ?_) fun j hj hlive' hjk => ⟨hj, ?_⟩⟩
  · change ((t.freeList ++ [(i, Dbt.hashOf kind key)]).map Prod.fst).Nodup
    rw [List.map_append, List.nodup_append]
    refine ⟨hq.nodup, List.nodup_singleton _, ?_⟩
    rintro a ha b hb rfl
    obtain rfl : a = i := List.mem_singleton.mp hb
    exact hiq ha
  · intro e he
    rcases List.mem_append.mp he with he | he
    · have hei : e.1 ≠ i := fun hei => hiq (hei ▸ List.mem_map_of_mem he)
      change _ ∧ _ ∧ (Function.update t.items i _ e.1).deleted = true
      rw [Function.update_of_ne hei]
      exact hq.mem e he
    · obtain rfl : e = (i, Dbt.hashOf kind key) := List.mem_singleton.mp he
      obtain ⟨⟨c, l, r, fs, hfs⟩, -⟩ := hd
      exact ⟨hashOf_lt kind key, mem_of_plug hfs, congrArg DbItem.deleted hself⟩
  · change j ∈ (t.freeList ++ [(i, Dbt.hashOf kind key)]).map Prod.fst
    rw [List.map_append, List.mem_append]
    by_cases hji : j = i
    · exact .inr (by simp [hji])
    · exact .inl (hq.queued j hj (by rw [← hne j hji]; exact hdel))
  · by_cases hji : j = i
    · rw [hji]
      exact congrArg DbItem.data hself
    · change (Function.update t.items i _ j).data = 0
      rw [hne j hji]
      exact hq.null j hj (by rw [← hne j hji]; exact hdel)
  · have hji : j ≠ i := by
      rintro rfl
      cases (congrArg DbItem.deleted hself).symm.trans hlive'
    exact ⟨hj, hne j hji, fun hjk => hji (h.trees.key_inj hk hj hi (hjk.trans hd.2))⟩
  · exact hne j fun hji => hjk (hji ▸ hd.2.symm)

/-- A node that is removed takes its entry along. -/
theorem erase_remove_spec (hk : kind.Lawful rank) (h : DbtOk kind rank t T free)
    (hq : QueueOk t T) (hm : Represents rank t T m) {key : K} {i : Nat}
    (hd : Ends kind rank t key (T (Dbt.hashOf kind key)) (.found i)) (hlock : t.freeLock = 0) :
    ∃ t', t.remove i (Dbt.hashOf kind key) = some t' ∧ DbOk kind rank t' (m.erase (rank key)) ∧
      t'.freeLock = t.freeLock := by
  have hi := hd.mem
  have hb := hashOf_lt kind key
  obtain ⟨t', u, hrun, h', hperm, hitems, hlist, hlock'⟩ := remove_spec h hb (z := i) (by
    obtain ⟨⟨c, l, r, fs, hfs⟩, -⟩ := hd
    exact mem_of_plug hfs)
  have hnodes := treeNodes_remove hb hperm
  have hinot : i ∉ treeNodes (Function.update T (Dbt.hashOf kind key) u) :=
    (List.nodup_cons.mp (hnodes.nodup_iff.mp (List.nodup_append.mp h.nodup).1)).1
  have hsub : ∀ j ∈ treeNodes (Function.update T (Dbt.hashOf kind key) u), j ∈ treeNodes T :=
    fun j hj => hnodes.mem_iff.mpr (List.mem_cons_of_mem _ hj)
  have hnil := hq.unlocked hlock
  have hlive : ∀ j ∈ treeNodes T, (t.items j).deleted ≠ true := fun j hj hdel => by
    have := hq.queued j hj hdel
    rw [hnil] at this
    cases this
  refine ⟨t', hrun, ⟨_, _, h', ⟨by simp [hlist, hnil], by simp [hlist, hnil], fun j hj hdel => ?_,
    fun j hj hdel => ?_, fun _ => hlist.trans hnil⟩, hm.erase (fun j hj _ => ?_)
    fun j hj _ hjk => ?_⟩, hlock'⟩
  · rw [hitems] at hdel
    exact absurd hdel (hlive j (hsub j hj))
  · rw [hitems] at hdel
    exact absurd hdel (hlive j (hsub j hj))
  · refine ⟨hsub j hj, by rw [hitems], fun hjk => hinot ?_⟩
    exact h.trees.key_inj hk (hsub j hj) hi (hjk.trans hd.2) ▸ hj
  · refine ⟨(List.mem_cons.mp (hnodes.mem_iff.mp hj)).resolve_left ?_, by rw [hitems]⟩
    rintro rfl
    exact hjk hd.2.symm

/-- **`db_erase`** takes the key out of the map. Under a lock it does so where it does not find a node
that is marked as deleted already. -/
theorem dbErase_spec (hk : kind.Lawful rank) (h : DbOk kind rank t m) (key : K)
    (hlive : t.freeLock ≠ 0 → ∀ i, t.find kind key = some (.found i) →
      (t.items i).deleted = false) :
    ∃ t', t.dbErase kind key = some (t', (m.lookup (rank key)).getD 0) ∧
      DbOk kind rank t' (m.erase (rank key)) ∧ t'.freeLock = t.freeLock := by
  obtain ⟨T, free, h, hq, hm⟩ := h
  obtain ⟨d, hd, hends⟩ := find_spec hk h key
  cases d with
  | found i =>
    have hdata := hends.data hk h.trees hq hm
    by_cases hlock : t.freeLock = 0
    · obtain ⟨t', hrun, h', hlock'⟩ := erase_remove_spec hk h hq hm hends hlock
      refine ⟨t', ?_, h', hlock'⟩
      simp [Dbt.dbErase, hd, hlock, hrun, hdata]
    · refine ⟨_, ?_, ⟨T, free, markDeleted_spec hk h hq hm hends (hlive hlock i hd) hlock⟩, rfl⟩
      simp [Dbt.dbErase, hd, hlock, hdata]
  | missing last =>
    have hnot := hends.notMem hk h.trees hm
    refine ⟨t, ?_, ⟨T, free, h, hq, hm.erase (fun i hi _ => ⟨hi, rfl, hends.ne hk h.trees i hi⟩)
      fun i hi _ _ => ⟨hi, rfl⟩⟩, rfl⟩
    rw [Dbt.dbErase, hd, Finmap.lookup_eq_none.mpr hnot]
    rfl

/-! ## The end of a lock -/

/-- The nodes of a queue are removed. What is left are the other nodes, with their entries. -/
theorem removeAll_spec {l : List (Nat × Nat)} (h : DbtOk kind rank t T free)
    (hnodup : (l.map Prod.fst).Nodup) (hl : ∀ e ∈ l, e.2 < hashSize ∧ e.1 ∈ (T e.2).inorder) :
    ∃ t' T' free', Dbt.removeAll l t = some t' ∧ DbtOk kind rank t' T' free' ∧
      (∀ i, i ∈ treeNodes T' ↔ i ∈ treeNodes T ∧ i ∉ l.map Prod.fst) ∧ t'.items = t.items ∧
      t'.freeLock = t.freeLock := by
  induction l generalizing t T free with
  | nil => exact ⟨t, T, free, rfl, h, by simp, rfl, rfl⟩
  | cons e l ih =>
    obtain ⟨z, b⟩ := e
    rw [List.map_cons, List.nodup_cons] at hnodup
    obtain ⟨hb, hz⟩ := hl (z, b) List.mem_cons_self
    obtain ⟨t₁, u, hrun₁, h₁, hperm, hitems₁, -, hlock₁⟩ := remove_spec h hb hz
    have hnodes := treeNodes_remove hb hperm
    have hznot : z ∉ treeNodes (Function.update T b u) :=
      (List.nodup_cons.mp (hnodes.nodup_iff.mp (List.nodup_append.mp h.nodup).1)).1
    have hl₁ : ∀ e ∈ l, e.2 < hashSize ∧ e.1 ∈ (Function.update T b u e.2).inorder := by
      intro e he
      obtain ⟨heb, hei⟩ := hl e (List.mem_cons_of_mem _ he)
      refine ⟨heb, ?_⟩
      by_cases hbe : e.2 = b
      · have hez : e.1 ≠ z := by
          rintro rfl
          exact hnodup.1 (List.mem_map.mpr ⟨e, he, rfl⟩)
        rw [hbe, Function.update_self]
        exact (List.mem_cons.mp (hperm.mem_iff.mp (hbe ▸ hei))).resolve_left hez
      · rwa [Function.update_of_ne hbe]
    obtain ⟨t', T', free', hrun, h', hmem, hitems, hlock⟩ := ih h₁ hnodup.2 hl₁
    refine ⟨t', T', free', by rw [Dbt.removeAll, hrun₁]; exact hrun, h', fun i => ?_,
      hitems.trans hitems₁, hlock.trans hlock₁⟩
    rw [hmem i, hnodes.mem_iff, List.map_cons, List.mem_cons, List.mem_cons, not_or]
    constructor
    · rintro ⟨hi, hil⟩
      have hiz : i ≠ z := fun hiz => hznot (hiz ▸ hi)
      exact ⟨.inr hi, hiz, hil⟩
    · rintro ⟨hi, hiz, hil⟩
      exact ⟨hi.resolve_left hiz, hil⟩

/-- **`db_free_unlock`** removes the nodes that are marked as deleted, at the end of the last lock. -/
theorem dbFreeUnlock_spec (h : DbOk kind rank t m) :
    ∃ t', t.dbFreeUnlock = some t' ∧ DbOk kind rank t' m ∧ t'.freeLock = t.freeLock - 1 := by
  obtain ⟨T, free, h, hq, hm⟩ := h
  have h₁ : DbtOk kind rank { t with freeLock := t.freeLock - 1 } T free := { h with }
  unfold Dbt.dbFreeUnlock
  dsimp only
  by_cases hlast : t.freeLock - 1 = 0
  · obtain ⟨t', T', free', hrun, h', hmem, hitems, hlock'⟩ := removeAll_spec h₁ hq.nodup
      fun e he => ⟨(hq.mem e he).1, (hq.mem e he).2.1⟩
    have hlive : ∀ i ∈ treeNodes T', (t'.items i).deleted ≠ true := fun i hi hdel => by
      rw [hitems] at hdel
      exact ((hmem i).mp hi).2 (hq.queued i ((hmem i).mp hi).1 hdel)
    rw [if_pos hlast, hrun]
    refine ⟨_, rfl, ⟨T', free', { h' with }, ⟨by simp, by simp, fun i hi hdel => ?_,
      fun i hi hdel => ?_, fun _ => rfl⟩, fun i hi hd => ?_, fun a ha => ?_⟩, hlock'⟩
    · exact absurd hdel (hlive i hi)
    · exact absurd hdel (hlive i hi)
    · change (t'.items i).deleted = false at hd
      change m.lookup (rank (t'.items i).key) = some (t'.items i).data
      rw [hitems] at hd ⊢
      exact hm.live i ((hmem i).mp hi).1 hd
    · obtain ⟨i, hi, hd, hia⟩ := hm.only a ha
      have hnot : i ∉ t.freeList.map Prod.fst := fun hiq => by
        obtain ⟨e, he, rfl⟩ := List.mem_map.mp hiq
        rw [(hq.mem e he).2.2] at hd
        cases hd
      exact ⟨i, (hmem i).mpr ⟨hi, hnot⟩, (congrArg (fun f => (f i).deleted) hitems).trans hd,
        (congrArg (fun f => rank (f i).key) hitems).trans hia⟩
  · rw [if_neg hlast]
    exact ⟨_, rfl, ⟨T, free, h₁, { hq with unlocked := fun h0 => absurd h0 hlast }, { hm with }⟩,
      rfl⟩

theorem dbFreeLock_spec (h : DbOk kind rank t m) (hlock : 0 ≤ t.freeLock) :
    DbOk kind rank t.dbFreeLock m := by
  obtain ⟨T, free, h, hq, hm⟩ := h
  refine ⟨T, free, { h with }, { hq with unlocked := fun h0 => ?_ }, { hm with }⟩
  change t.freeLock + 1 = 0 at h0
  omega

/-- Without a node that is marked as deleted, the table has as many items as the map has keys. -/
theorem DbtOk.card_keys (hk : kind.Lawful rank) (h : DbtOk kind rank t T free)
    (hm : Represents rank t T m) (hlive : ∀ i ∈ treeNodes T, (t.items i).deleted = false) :
    t.itemCount = m.keys.card := by
  have hkeys : m.keys = (treeNodes T).toFinset.image fun i => rank (t.items i).key := by
    ext a
    simp only [Finmap.mem_keys, Finset.mem_image, List.mem_toFinset]
    constructor
    · intro ha
      obtain ⟨i, hi, -, hia⟩ := hm.only a ha
      exact ⟨i, hi, hia⟩
    · rintro ⟨i, hi, rfl⟩
      exact Finmap.mem_of_lookup_eq_some (hm.live i hi (hlive i hi))
  rw [h.count, hkeys, Finset.card_image_of_injOn, List.toFinset_card_of_nodup]
  · exact (List.nodup_append.mp h.nodup).1
  · intro i hi j hj hij
    exact h.trees.key_inj hk (List.mem_toFinset.mp hi) (List.mem_toFinset.mp hj) hij

theorem QueueOk.live (hq : QueueOk t T) (hlock : t.freeLock = 0) :
    ∀ i ∈ treeNodes T, (t.items i).deleted = false := by
  intro i hi
  by_contra hdel
  have := hq.queued i hi (by simpa using hdel)
  rw [hq.unlocked hlock] at this
  cases this

end Ops

end Nezumi
