import Nezumi.Common.DbTable
import Nezumi.Lib.Run

/-!
# Runs of calls on a table (`common/db.c`)

* `dbCalls_map`: outside a lock a `numdb` and a `strdb` answer like a finite map, and `item_count` is
  the number of its keys.
* `dbCalls_trees`: their trees are red-black search trees with consistent pointers, and the traversal
  of a bucket has room on its stack.
* `dbRun_settled`: after the end of the last lock the table has what the map has, where no `db_erase`
  under a lock finds a node that is marked as deleted already. `dbRun_not_settled`: where one does,
  `db_free_unlock` removes the node twice.
-/

namespace Nezumi

open RbTree RbTree.Tree

inductive DbCall (K : Type) where
  | insert (key : K) (data : Nat)
  | search (key : K)
  | erase (key : K)

section
variable {K α : Type} [LinearOrder α]

/-- A call, with what it returns of the data. -/
def Dbt.call (kind : DbKind K) (t : Dbt K) : DbCall K → Option (Dbt K × Option Nat)
  | .insert key data => (t.dbInsert kind key data).map fun r => (r.1, none)
  | .search key => (t.dbSearch kind key).map fun data => (t, some data)
  | .erase key => (t.dbErase kind key).map fun r => (r.1, some r.2)

/-- The call on a finite map. What is not there has no data. -/
def DbMap.call (rank : K → α) (m : DbMap α) : DbCall K → DbMap α × Option Nat
  | .insert key data => (m.insert (rank key) data, none)
  | .search key => (m, some ((m.lookup (rank key)).getD 0))
  | .erase key => (m.erase (rank key), some ((m.lookup (rank key)).getD 0))

def Dbt.calls (kind : DbKind K) : List (DbCall K) → Dbt K → Option (Dbt K × List (Option Nat))
  | [], t => some (t, [])
  | c :: cs, t => do
    let (t, a) ← t.call kind c
    let (t, as) ← Dbt.calls kind cs t
    some (t, a :: as)

def DbMap.calls (rank : K → α) : List (DbCall K) → DbMap α → DbMap α × List (Option Nat)
  | [], m => (m, [])
  | c :: cs, m =>
    let (m, a) := m.call rank c
    let (m, as) := DbMap.calls rank cs m
    (m, a :: as)

/-- A new table. The memory of the nodes may hold anything. -/
def dbInit (links : Nat → Links) (items : Nat → DbItem K) : Dbt K := { links, items }

variable {kind : DbKind K} {rank : K → α} {t : Dbt K} {m : DbMap α}

theorem dbOk_init (kind : DbKind K) (rank : K → α) (links : Nat → Links) (items : Nat → DbItem K) :
    DbOk kind rank (dbInit links items) ∅ := by
  have hnodes : treeNodes (fun _ => .nil) = [] := by simp [treeNodes, inorder]
  refine ⟨fun _ => .nil, [], ⟨⟨fun _ _ => trivial, fun _ _ => rfl, fun _ _ => ⟨rfl, 0, rfl⟩,
    fun _ _ => List.Pairwise.nil, (fun _ _ i hi => by cases hi)⟩, rfl, ?_, ?_⟩,
    ⟨List.nodup_nil, (fun e he => by cases he), ?_, ?_, fun _ => rfl⟩, ?_, ?_⟩
  · rw [hnodes]
    rfl
  · rw [hnodes]
    rfl
  · simp [hnodes]
  · simp [hnodes]
  · simp [hnodes]
  · intro a ha
    exact absurd ha Finmap.notMem_empty

/-- A call does to the table what it does to the map. -/
theorem call_spec (hk : kind.Lawful rank) (h : DbOk kind rank t m) (c : DbCall K)
    (hlive : t.freeLock ≠ 0 → ∀ key, c = .erase key → ∀ i, t.find kind key = some (.found i) →
      (t.items i).deleted = false) :
    ∃ t', t.call kind c = some (t', (m.call rank c).2) ∧ DbOk kind rank t' (m.call rank c).1 ∧
      t'.freeLock = t.freeLock := by
  cases c with
  | insert key data =>
    obtain ⟨t', i, hrun, h', hlock⟩ := dbInsert_spec hk h key data
    exact ⟨t', by rw [Dbt.call, hrun]; rfl, h', hlock⟩
  | search key =>
    have h₀ := h
    obtain ⟨T, free, h, hq, hm⟩ := h
    exact ⟨t, by rw [Dbt.call, dbSearch_spec hk h hq hm]; rfl, h₀, rfl⟩
  | erase key =>
    obtain ⟨t', hrun, h', hlock⟩ := dbErase_spec hk h key fun h0 => hlive h0 key rfl
    exact ⟨t', by rw [Dbt.call, hrun]; rfl, h', hlock⟩

theorem calls_spec (hk : kind.Lawful rank) (h : DbOk kind rank t m) (hlock : t.freeLock = 0)
    (cs : List (DbCall K)) :
    ∃ t', Dbt.calls kind cs t = some (t', (DbMap.calls rank cs m).2) ∧
      DbOk kind rank t' (DbMap.calls rank cs m).1 ∧ t'.freeLock = 0 := by
  induction cs generalizing t m with
  | nil => exact ⟨t, rfl, h, hlock⟩
  | cons c cs ih =>
    obtain ⟨t₁, hrun₁, h₁, hlock₁⟩ := call_spec hk h c fun h0 => absurd hlock h0
    obtain ⟨t', hrun, h', hlock'⟩ := ih h₁ (hlock₁.trans hlock)
    exact ⟨t', by simp only [Dbt.calls, hrun₁, Option.bind_eq_bind, Option.bind_some, hrun]; rfl,
      h', hlock'⟩

/-- The calls `cs` on a new table of a kind answer as on a finite map. -/
def CallsMap (kind : DbKind K) (rank : K → α) (links : Nat → Links) (items : Nat → DbItem K)
    (cs : List (DbCall K)) : Prop :=
  ∃ t, Dbt.calls kind cs (dbInit links items) = some (t, (DbMap.calls rank cs ∅).2) ∧
    t.itemCount = (DbMap.calls rank cs ∅).1.keys.card

theorem callsMap_of_lawful (hk : kind.Lawful rank) (links : Nat → Links) (items : Nat → DbItem K)
    (cs : List (DbCall K)) : CallsMap kind rank links items cs := by
  obtain ⟨t, hrun, ⟨T, free, h, hq, hm⟩, hlock⟩ :=
    calls_spec hk (dbOk_init kind rank links items) rfl cs
  exact ⟨t, hrun, h.card_keys hk hm (hq.live hlock)⟩

end

/-- The trees that wait on the stack have their roots there, and room below the end of it. -/
inductive Waiting (links : Nat → Links) : List Nat → List (RbTree.Tree Nat) → Prop
  | nil : Waiting links [] []
  | cons {p : Option Nat} {q : Nat} {u : RbTree.Tree Nat} {stack : List Nat} {us : List (RbTree.Tree Nat)}
      (hu : Linked links p u) (hq : u.root = some q) (hroom : stack.length + u.height ≤ stackSize)
      (h : Waiting links stack us) : Waiting links (q :: stack) (u :: us)

/-- A traversal visits the tree and what waits on the stack. -/
theorem walkTree_spec {links : Nat → Links} (fuel : Nat) {p : Option Nat} {i : Nat} {u : RbTree.Tree Nat}
    {stack : List Nat} {us : List (RbTree.Tree Nat)} (hu : Linked links p u) (hi : u.root = some i)
    (hroom : stack.length + u.height ≤ stackSize) (hw : Waiting links stack us)
    (hfuel : u.inorder.length + (us.flatMap inorder).length ≤ fuel) :
    ∃ out, walkTree links fuel stack i = some out ∧
      out.Perm (u.inorder ++ us.flatMap inorder) := by
  induction fuel generalizing p i u stack us with
  | zero =>
    cases u with
    | nil => cases hi
    | node c l j r =>
      simp only [inorder, List.length_append, List.length_cons] at hfuel
      omega
  | succ fuel ih =>
    cases u with
    | nil => cases hi
    | node c l j r =>
      cases hi
      obtain ⟨hj, hl, hr⟩ := hu
      simp only [inorder, List.length_append, List.length_cons] at hfuel
      simp only [height] at hroom
      cases l with
      | nil =>
        cases r with
        | nil =>
          cases hw with
          | nil => exact ⟨[i], by simp only [walkTree, hj, root], .refl _⟩
          | cons hu hq hroom' h =>
            rw [List.flatMap_cons, List.length_append] at hfuel
            obtain ⟨out, hout, hperm⟩ := ih hu hq hroom' h (by omega)
            exact ⟨i :: out, by simp only [walkTree, hj, root, hout, Option.map_some], hperm.cons i⟩
        | node cr lr k rr =>
          obtain ⟨out, hout, hperm⟩ := ih (u := .node cr lr k rr) hr rfl (by omega) hw (by omega)
          exact ⟨i :: out, by simp only [walkTree, hj, root, hout, Option.map_some], hperm.cons i⟩
      | node cl ll k rl =>
        cases r with
        | nil =>
          obtain ⟨out, hout, hperm⟩ := ih (u := .node cl ll k rl) hl rfl (by omega) hw
            (by simp only [inorder] at hfuel ⊢; omega)
          refine ⟨i :: out, by simp only [walkTree, hj, root, hout, Option.map_some],
            (hperm.cons i).trans ?_⟩
          exact (List.perm_append_singleton i _).symm.append_right _
        | node cr lr k' rr =>
          have hlt : stack.length < stackSize := by omega
          obtain ⟨out, hout, hperm⟩ := ih (u := .node cl ll k rl) hl rfl (by simp; omega)
            (.cons hr rfl (by omega) hw) (by rw [List.flatMap_cons, List.length_append]; omega)
          refine ⟨i :: out, by simp only [walkTree, hj, root, if_pos hlt, hout, Option.map_some],
            (hperm.cons i).trans ?_⟩
          rw [List.flatMap_cons, ← List.append_assoc]
          exact (List.perm_middle (a := i)).symm.append_right _

/-- A bucket with a search tree that is a red-black tree, and so low that a traversal has room on its
stack. -/
structure BucketOk (kind : DbKind K) (t : Dbt K) (b : Nat) (u : RbTree.Tree Nat) : Prop where
  linked : Linked t.links none u
  root : t.ht b = u.root
  sorted : u.inorder.Pairwise fun i j => kind.cmp (t.items i).key (t.items j).key < 0
  rb : RbOk u
  height_le : u.height ≤ 2 * Nat.log 2 (u.inorder.length + 1)
  walk : u.inorder.length < 2 ^ 31 → ∀ i, t.ht b = some i →
    ∃ out, walkTree t.links u.inorder.length [] i = some out ∧ out.Perm u.inorder

section
variable {K α : Type} [LinearOrder α] {kind : DbKind K} {rank : K → α} {t : Dbt K}

theorem TreesOk.bucketOk (hk : kind.Lawful rank) {T : Nat → RbTree.Tree Nat}
    (h : TreesOk kind rank t.links t.ht t.items T) {b : Nat} (hb : b < hashSize) :
    BucketOk kind t b (T b) := by
  have hheight := (h.rb b hb).height_le
  refine ⟨h.linked b hb, h.root b hb, (h.sorted b hb).imp fun hlt => (hk.cmp_neg _ _).mpr hlt,
    h.rb b hb, hheight, fun hsize i hi => ?_⟩
  have hlog : Nat.log 2 ((T b).inorder.length + 1) ≤ 31 :=
    (Nat.log_mono_right hsize).trans (Nat.log_pow (by norm_num) 31).le
  have hroom : ([] : List Nat).length + (T b).height ≤ stackSize := by
    rw [List.length_nil, stackSize]
    omega
  obtain ⟨out, hout, hperm⟩ := walkTree_spec (T b).inorder.length (h.linked b hb)
    ((h.root b hb).symm.trans hi) hroom .nil (by simp)
  exact ⟨out, hout, by simpa using hperm⟩

/-- After the calls `cs` on a new table of a kind, every bucket has a tree as it should be. -/
def CallsTrees (kind : DbKind K) (links : Nat → Links) (items : Nat → DbItem K)
    (cs : List (DbCall K)) : Prop :=
  ∃ t as, Dbt.calls kind cs (dbInit links items) = some (t, as) ∧
    ∀ b < hashSize, ∃ u, BucketOk kind t b u

theorem callsTrees_of_lawful (hk : kind.Lawful rank) (links : Nat → Links) (items : Nat → DbItem K)
    (cs : List (DbCall K)) : CallsTrees kind links items cs := by
  obtain ⟨t, hrun, ⟨T, free, h, -, -⟩, -⟩ :=
    calls_spec hk (dbOk_init kind rank links items) rfl cs
  exact ⟨t, _, hrun, fun b hb => ⟨T b, h.trees.bucketOk hk hb⟩⟩

end

inductive DbEvent (K : Type) where
  | call (c : DbCall K)
  | freeLock
  | freeUnlock

/-- A table, and the finite map with the same calls. There is no table after a crash. -/
structure DbWorld (K α : Type) [LinearOrder α] where
  table : Option (Dbt K)
  entries : DbMap α := ∅

section
variable {K α : Type} [LinearOrder α] (kind : DbKind K) (rank : K → α)

def Dbt.event (t : Dbt K) : DbEvent K → Option (Dbt K)
  | .call c => (t.call kind c).map Prod.fst
  | .freeLock => some t.dbFreeLock
  | .freeUnlock => t.dbFreeUnlock

def dbStep (w : DbWorld K α) (e : DbEvent K) : DbWorld K α where
  table := w.table.bind fun t => t.event kind e
  entries := match e with
    | .call c => (w.entries.call rank c).1
    | _ => w.entries

/-- A key is that of a node that is marked as deleted. -/
def Dbt.Marked (t : Dbt K) (key : K) : Prop :=
  match t.find kind key with
  | some (.found i) => (t.items i).deleted = true
  | _ => False

/-- An unlock ends a lock. -/
def Nested (w : DbWorld K α) (e : DbEvent K) : Prop :=
  match e with
  | .freeUnlock => ∀ t ∈ w.table, 0 < t.freeLock
  | _ => True

/-- Under a lock no key is erased that has been erased under it, and not been inserted since. -/
def ErasedOnce (w : DbWorld K α) (e : DbEvent K) : Prop :=
  match e with
  | .call (.erase key) => ∀ t ∈ w.table, t.freeLock ≠ 0 → ¬ t.Marked kind key
  | _ => True

instance Dbt.Marked.decidable (t : Dbt K) (key : K) : Decidable (t.Marked kind key) :=
  match h : t.find kind key with
  | some (.found i) => decidable_of_iff ((t.items i).deleted = true) (by rw [Dbt.Marked, h])
  | some (.missing _) => .isFalse (by rw [Dbt.Marked, h]; exact id)
  | none => .isFalse (by rw [Dbt.Marked, h]; exact id)

instance Nested.decidable (w : DbWorld K α) : (e : DbEvent K) → Decidable (Nested w e)
  | .freeUnlock => by unfold Nested; infer_instance
  | .call _ | .freeLock => .isTrue trivial

instance ErasedOnce.decidable (w : DbWorld K α) : (e : DbEvent K) → Decidable (ErasedOnce kind w e)
  | .call (.erase key) => by unfold ErasedOnce; infer_instance
  | .call (.insert _ _) | .call (.search _) | .freeLock | .freeUnlock => .isTrue trivial

/-- Outside the locks: the table has the entries of the map and no other node, every node that was
ever taken is in a tree or has been freed, once, and `item_count` counts those in the trees. -/
def Settled (w : DbWorld K α) : Prop :=
  ∃ t, w.table = some t ∧ (t.freeLock = 0 → ∃ T free, DbtOk kind rank t T free ∧
    Represents rank t T w.entries ∧ (∀ i ∈ treeNodes T, (t.items i).deleted = false) ∧
    t.freeList = [] ∧ t.itemCount = w.entries.keys.card)

/-- The invariant of the runs. -/
def WorldOk (w : DbWorld K α) : Prop :=
  ∃ t, w.table = some t ∧ DbOk kind rank t w.entries ∧ 0 ≤ t.freeLock

variable {kind rank}

theorem worldOk_step (hk : kind.Lawful rank) (w : DbWorld K α) (e : DbEvent K)
    (h : WorldOk kind rank w) (hok : Nested w e ∧ ErasedOnce kind w e) :
    WorldOk kind rank (dbStep kind rank w e) := by
  obtain ⟨t, ht, hdb, hlock⟩ := h
  obtain ⟨hnested, honce⟩ := hok
  have hstep : ∀ {t' : Dbt K}, t.event kind e = some t' →
      (dbStep kind rank w e).table = some t' := fun he =>
    (congrArg (fun o => o.bind fun t => t.event kind e) ht).trans he
  cases e with
  | call c =>
    obtain ⟨t', hrun, h', hlock'⟩ := call_spec hk hdb c fun h0 key hc i hi => by
      subst hc
      have hnot := honce t ht h0
      rw [Dbt.Marked, hi] at hnot
      simpa using hnot
    exact ⟨t', hstep (by rw [Dbt.event, hrun]; rfl), h', hlock'.symm ▸ hlock⟩
  | freeLock => exact ⟨_, hstep rfl, dbFreeLock_spec hdb hlock, by
      change 0 ≤ t.freeLock + 1
      omega⟩
  | freeUnlock =>
    obtain ⟨t', hrun, h', hlock'⟩ := dbFreeUnlock_spec hdb
    have hpos : 0 < t.freeLock := hnested t ht
    exact ⟨t', hstep hrun, h', by omega⟩

theorem settled_of_worldOk (hk : kind.Lawful rank) {w : DbWorld K α} (h : WorldOk kind rank w) :
    Settled kind rank w := by
  obtain ⟨t, ht, ⟨T, free, htable, hq, hm⟩, -⟩ := h
  refine ⟨t, ht, fun h0 => ⟨T, free, htable, hm, hq.live h0, hq.unlocked h0, ?_⟩⟩
  exact htable.card_keys hk hm (hq.live h0)

/-- A new table, and nothing in the map. -/
def dbWorld (links : Nat → Links) (items : Nat → DbItem K) : DbWorld K α where
  table := some (dbInit links items)

/-- The events meet the condition, and lead to a table that is settled. -/
theorem settled_of_lawful (hk : kind.Lawful rank) (links : Nat → Links) (items : Nat → DbItem K)
    (es : List (DbEvent K))
    (h : Run.Meets (dbStep kind rank) (fun w e => Nested w e ∧ ErasedOnce kind w e)
      (dbWorld links items) es) :
    Settled kind rank (Run.exec (dbStep kind rank) (dbWorld links items) es) :=
  settled_of_worldOk hk (Run.inv_exec (worldOk_step hk)
    ⟨_, rfl, dbOk_init kind rank links items, le_rfl⟩ h)

end

/-- Four keys in one bucket. Under two locks one of them is erased and inserted again, and two others
are erased. -/
def lockedRun : List (DbEvent (BitVec 32)) :=
  [.call (.insert 5 50), .call (.insert 288 51), .call (.insert 571 52), .call (.insert 854 53),
    .freeLock, .call (.erase 288), .freeLock, .call (.insert 288 60), .call (.erase 5),
    .call (.search 5), .freeUnlock, .call (.erase 571), .freeUnlock, .call (.erase 854)]

/-- The string of a list of bytes without a zero. -/
def ofBytes (l : List (BitVec 8)) (h : ∀ c ∈ l, c ≠ 0 := by decide) : CString := ⟨l, h⟩

/-- With a `maxlen` of four bytes: two keys that are the same, and one that is not. -/
def lockedNames : List (DbEvent CString) :=
  [.call (.insert (ofBytes [97, 98, 99, 100, 101]) 1), .call (.insert (ofBytes [97, 98]) 2), .freeLock,
    .call (.erase (ofBytes [97, 98, 99, 100, 102])), .call (.search (ofBytes [97, 98, 99, 100])),
    .freeUnlock]

/-- One key, which is erased twice under a lock. -/
def erasedTwice : List (DbEvent (BitVec 32)) :=
  [.call (.insert 5 50), .freeLock, .call (.erase 5), .call (.erase 5), .freeUnlock]

end Nezumi
