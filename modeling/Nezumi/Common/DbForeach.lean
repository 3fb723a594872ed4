import Nezumi.Common.DbRun

/-!
# Traversals that erase what they visit (`common/db.c`)

A callback of `db_foreach` may erase keys of the table and start another `db_foreach` on it. What
runs are the traversals, each inside a callback of the one before it.

* `Traversal` are the variables of a `db_foreach`, with the turns it has given to the nodes so far.
* `ForeachEvent`: a key is erased, a traversal is started, or the callback that runs comes back.
  `foreachStep` is what happens then, up to the next turn of a node.
* `Turn.called` and `Turn.present`: what the callback was called with, and what a finite map had for
  the key at that time.
* `TurnsOk`, `TurnsDone`, `ForeachOk`: what traversals should do.
-/

namespace Nezumi

/-- The turn of a node: the data with which the callback was called, if it was, and what the map
had. -/
structure Turn (K : Type) where
  node : Nat
  key : K
  called : Option Nat
  present : Option Nat
  deriving DecidableEq

/-- The variables of a `db_foreach` at the turn of the node `p` of the bucket `bucket`, the turns up
to now, and the entries of the map at its beginning. -/
structure Traversal (K α : Type) where
  bucket : Nat := 0
  p : Nat := 0
  stack : List Nat := []
  count : Int
  turns : List (Turn K) := []
  entries : DbMap α

/-- The table, the map with the same erasures, the traversals that run (the innermost first) and
those that have ended. -/
structure ForeachWorld (K α : Type) where
  table : Option (Dbt K)
  entries : DbMap α
  running : List (Traversal K α) := []
  ended : List (Traversal K α) := []

inductive ForeachEvent (K : Type) where
  | erase (key : K)
  | foreach
  /-- The innermost callback returns. -/
  | next

/-- The node after `p` in its tree, with the stack, or the end of the tree. -/
inductive NextNode where
  | node (p : Nat) (stack : List Nat)
  | treeEnd
  deriving DecidableEq

/-- It comes to nothing where the stack overflows. -/
def nextNode (links : Nat → Links) (p : Nat) (stack : List Nat) : Option NextNode :=
  match (links p).left, (links p).right with
  | some l, some r => if stack.length < stackSize then some (.node l (r :: stack)) else none
  | some l, none => some (.node l stack)
  | none, some r => some (.node r stack)
  | none, none =>
    match stack with
    | [] => some .treeEnd
    | q :: stack => some (.node q stack)

/-- The first bucket from `i` on that has a tree, with its root. -/
def firstBucket (ht : Nat → Option Nat) (i : Nat) : Option (Nat × Nat) :=
  (List.range' i (hashSize - i)).findSome? fun b => (ht b).map fun p => (b, p)

section Step

variable {K α : Type} [LinearOrder α] (kind : DbKind K) (rank : K → α)

/-- It is the turn of node `p`. -/
def Traversal.visit (f : Traversal K α) (t : Dbt K) (m : DbMap α) (b p : Nat) (stack : List Nat) :
    Traversal K α :=
  let item := t.items p
  let called := if item.deleted then none else some item.data
  let turn : Turn K := { node := p, key := item.key, called, present := m.lookup (rank item.key) }
  { f with bucket := b, p, stack, count := f.count - 1, turns := f.turns ++ [turn] }

/-- A traversal inside of `rest` goes on at the bucket `i`, or it ends with the lock that it has. -/
def ForeachWorld.enter (w : ForeachWorld K α) (t : Dbt K) (f : Traversal K α)
    (rest : List (Traversal K α)) (i : Nat) : ForeachWorld K α :=
  match firstBucket t.ht i with
  | some (b, p) => { w with table := some t, running := f.visit rank t w.entries b p [] :: rest }
  | none => { w with table := t.dbFreeUnlock, running := rest, ended := f :: w.ended }

def foreachStep (w : ForeachWorld K α) : ForeachEvent K → ForeachWorld K α
  | .erase key =>
    { w with
      table := w.table.bind fun t => (t.dbErase kind key).map Prod.fst
      entries := w.entries.erase (rank key) }
  | .foreach =>
    match w.table with
    | none => w
    | some t =>
      w.enter rank t.dbFreeLock { count := t.itemCount, entries := w.entries } w.running 0
  | .next =>
    match w.table, w.running with
    | some t, f :: rest =>
      match nextNode t.links f.p f.stack with
      | none => { w with table := none }
      | some (.node p stack) =>
        { w with running := f.visit rank t w.entries f.bucket p stack :: rest }
      | some .treeEnd => w.enter rank t f rest (f.bucket + 1)
    | _, _ => w

/-- While a traversal runs, no key is erased whose node is marked as deleted already. -/
def ErasesPresent (w : ForeachWorld K α) (e : ForeachEvent K) : Prop :=
  match e with
  | .erase key => ∀ t ∈ w.table, t.freeLock ≠ 0 → ¬ t.Marked kind key
  | _ => True

instance ErasesPresent.decidable (w : ForeachWorld K α) :
    (e : ForeachEvent K) → Decidable (ErasesPresent kind w e)
  | .erase _ => by unfold ErasesPresent; infer_instance
  | .foreach | .next => .isTrue trivial

/-! ## What it should do -/

/-- The callback has been called at the turns of the entries that were in the map then, with their
data, and at no others, and no entry has had two turns. -/
structure TurnsOk (f : Traversal K α) : Prop where
  called : ∀ u ∈ f.turns, u.called = u.present
  once : (f.turns.map fun u => rank u.key).Nodup

/-- At its end, every entry that the map had at its beginning has had a turn, and `count` is zero.
-/
structure TurnsDone (f : Traversal K α) : Prop extends TurnsOk rank f where
  all : ∀ a ∈ f.entries, a ∈ f.turns.map fun u => rank u.key
  count : f.count = 0

/-- The traversals do so, and after the outermost one the table has the entries of the map and no
other node. -/
def ForeachOk (w : ForeachWorld K α) : Prop :=
  ∃ t, w.table = some t ∧ (∀ f ∈ w.running, TurnsOk rank f) ∧ (∀ f ∈ w.ended, TurnsDone rank f) ∧
    (w.running = [] → t.freeLock = 0 ∧ t.freeList = [] ∧ ∃ T free, DbtOk kind rank t T free ∧
      Represents rank t T w.entries ∧ (∀ i ∈ treeNodes T, (t.items i).deleted = false) ∧
      t.itemCount = w.entries.keys.card)

end Step

end Nezumi
