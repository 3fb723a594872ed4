import Nezumi.Lib.RbTree

/-!
# Tables (`common/db.c`)

* `Links` is what the tree functions use of `struct dbn`: the pointers and the color. A node is known
  by its address; `none` is `NULL`.
* `Bucket` is the memory of the nodes together with the root pointer that the functions are given.
  `rotate`, `dbRebalance` and `dbRebalanceErase` are the functions of those names; what they do on the
  left and on the right is one definition with the side as a parameter. They come to nothing where
  the program follows a `NULL`.
* `numdb` and `strdb` are the two kinds of tables, `Dbt` is a table. `dbSearch`, `dbInsert`, `dbErase`,
  `dbFreeLock` and `dbFreeUnlock` are the functions of the same names.
* `walkTree` is the traversal of a bucket by `db_foreach` and `db_final`, with its stack.

A loop over a tree gets as many rounds as the table has items, and two more.
-/

namespace Nezumi

open RbTree

/-- The pointers and the color of a `struct dbn`. -/
structure Links where
  parent : Option Nat := none
  left : Option Nat := none
  right : Option Nat := none
  color : Color := .red
  deriving DecidableEq

namespace Links

def child (n : Links) : Side → Option Nat
  | .left => n.left
  | .right => n.right

def setChild (n : Links) (d : Side) (i : Option Nat) : Links :=
  match d with
  | .left => { n with left := i }
  | .right => { n with right := i }

end Links

/-- The memory of the nodes and the root of a tree. -/
structure Bucket where
  links : Nat → Links
  root : Option Nat

namespace Bucket

variable (s : Bucket)

def set (i : Nat) (n : Links) : Bucket := { s with links := Function.update s.links i n }

def setParent (i : Nat) (p : Option Nat) : Bucket := s.set i { s.links i with parent := p }

def setColor (i : Nat) (c : Color) : Bucket := s.set i { s.links i with color := c }

def setChild (i : Nat) (d : Side) (j : Option Nat) : Bucket := s.set i ((s.links i).setChild d j)

/-- `if (i) i->parent = p`. -/
def setParentOpt (i : Option Nat) (p : Option Nat) : Bucket := i.elim s fun i => s.setParent i p

/-- `if (i) i->color = c`. -/
def setColorOpt (i : Option Nat) (c : Color) : Bucket := i.elim s fun i => s.setColor i c

/-- `i == NULL || i->color == BLACK`. -/
def isBlack (i : Option Nat) : Bool := i.all fun i => (s.links i).color = .black

/-- Whatever points down to `p`, the root or its parent, points to `y`. The side is the one on which
the parent is looked at first. -/
def relink (d : Side) (p : Nat) (y : Option Nat) : Option Bucket :=
  if s.root = some p then some { s with root := y }
  else do
    let q ← (s.links p).parent
    if (s.links q).child d = some p then s.setChild q d y else s.setChild q d.other y

/-- `db_rotate_left` for the left side, `db_rotate_right` for the right side. -/
def rotate (d : Side) (p : Nat) : Option Bucket := do
  let y ← (s.links p).child d.other
  let b := (s.links y).child d
  let s := (s.setChild p d.other b).setParentOpt b (some p)
  let s := s.setParent y (s.links p).parent
  let s ← s.relink d p (some y)
  (s.setChild y d (some p)).setParent p (some y)

def dbRotateLeft (p : Nat) : Option Bucket := s.rotate .left p

def dbRotateRight (p : Nat) : Option Bucket := s.rotate .right p

/-! ## After an insertion -/

/-- The parent of `p` is made black, and its own parent red and turned to the other side. -/
def rebalanceTurn (d : Side) (p : Nat) : Option (Bucket × Nat) := do
  let q ← (s.links p).parent
  let s := s.setColor q .black
  let g ← (s.links q).parent
  let s ← (s.setColor g .red).rotate d.other g
  some (s, p)

/-- The loop of `db_rebalance` for a red parent `q` that is on the side `d` of its parent `g`. The
node to go on with comes with the memory. -/
def rebalanceSide (d : Side) (p q g : Nat) : Option (Bucket × Nat) :=
  let y := (s.links g).child d.other
  if !s.isBlack y then
    some (((s.setColor q .black).setColorOpt y .black).setColor g .red, g)
  else if (s.links q).child d.other = some p then
    (s.rotate d q).bind fun s => s.rebalanceTurn d q
  else s.rebalanceTurn d p

def rebalanceLoop : (fuel : Nat) → Bucket → Nat → Option Bucket
  | 0, _, _ => none
  | fuel + 1, s, p =>
    if s.root = some p then some s
    else do
      let q ← (s.links p).parent
      if (s.links q).color ≠ .red then some s
      else do
        let g ← (s.links q).parent
        let d := if (s.links g).left = some q then Side.left else Side.right
        let (s, p) ← s.rebalanceSide d p q g
        rebalanceLoop fuel s p

def dbRebalance (fuel : Nat) (p : Nat) : Option Bucket := do
  let s ← rebalanceLoop fuel (s.setColor p .red) p
  let r ← s.root
  some (s.setColor r .black)

/-- The new node `p` gets its place below the last node of the way down, on the side that the
comparison with it says. -/
def addLeaf (fuel : Nat) (p : Nat) (last : Option (Nat × Int)) : Option Bucket :=
  let s := s.set p {}
  match last with
  | none => some ({ s with root := some p }.setColor p .black)
  | some (priv, c) =>
    let s := (s.setChild priv (if c < 0 then .left else .right) (some p)).setParent p (some priv)
    if (s.links priv).color = .red then s.dbRebalance fuel p else some s

/-! ## Removal -/

/-- `while (y->left != NULL) y = y->left`. -/
def leftmost : (fuel : Nat) → Nat → Option Nat
  | 0, _ => none
  | fuel + 1, y => (s.links y).left.elim (some y) fun l => leftmost fuel l

/-- The node `y` comes in the place and in the color of `z`, and `z` gets the color of `y`. -/
def exchange (z y : Nat) : Option Bucket := do
  let s ← s.relink .left z (some y)
  let s := s.setParent y (s.links z).parent
  let c := (s.links y).color
  let s := s.setColor y (s.links z).color
  some (s.setColor z c)

/-- The node `z` is taken out of the tree. If it has two children, the next node `y` comes in its
place and in its color, and `z` gets the color of `y`. What has moved up comes with the memory, and
its parent. -/
def unlink (fuel : Nat) (z : Nat) : Option (Bucket × Option Nat × Option Nat) :=
  match (s.links z).left, (s.links z).right with
  | some l, some r => do
    let y ← s.leftmost fuel r
    let x := (s.links y).right
    let s := (s.setParent l (some y)).setChild y .left (some l)
    let (s, xParent) ←
      if some y ≠ (s.links z).right then do
        let yp ← (s.links y).parent
        let s := (s.setParentOpt x (some yp)).setChild yp .left x
        some ((s.setChild y .right (some r)).setParent r (some y), some yp)
      else some (s, some y)
    let s ← s.exchange z y
    some (s, x, xParent)
  | l, r => do
    let x := if l = none then r else l
    let s := s.setParentOpt x (s.links z).parent
    let s ← s.relink .left z x
    some (s, x, (s.links z).parent)

/-- The loop of `db_rebalance_erase` for a node on the side `d` of its parent `q` whose sibling `w` is
black. The loop goes on at the parent, or it is left. -/
def eraseBlack (d : Side) (q w : Nat) : Option (Bucket × Bool) :=
  if s.isBlack ((s.links w).child d) && s.isBlack ((s.links w).child d.other) then
    some (s.setColor w .red, true)
  else do
    let (s, w) ←
      if s.isBlack ((s.links w).child d.other) then do
        let s := s.setColorOpt ((s.links w).child d) .black
        let s ← (s.setColor w .red).rotate d.other w
        let w ← (s.links q).child d.other
        some (s, w)
      else some (s, w)
    let s := s.setColor w (s.links q).color
    let s := s.setColor q .black
    let s := s.setColorOpt ((s.links w).child d.other) .black
    let s ← s.rotate d q
    some (s, false)

/-- The loop of `db_rebalance_erase` for a node on the side `d` of its parent `q`: a red sibling is
turned over the parent first. -/
def eraseSide (d : Side) (q : Nat) : Option (Bucket × Bool) := do
  let w ← (s.links q).child d.other
  if (s.links w).color = .red then do
    let s ← ((s.setColor w .black).setColor q .red).rotate d q
    let w ← (s.links q).child d.other
    s.eraseBlack d q w
  else s.eraseBlack d q w

def eraseLoop : (fuel : Nat) → Bucket → (x xParent : Option Nat) → Option (Bucket × Option Nat)
  | 0, _, _, _ => none
  | fuel + 1, s, x, xParent =>
    if s.root ≠ x ∧ s.isBlack x then do
      let q ← xParent
      let d := if x = (s.links q).left then Side.left else Side.right
      let (s, goOn) ← s.eraseSide d q
      if goOn then eraseLoop fuel s (some q) (s.links q).parent else some (s, x)
    else some (s, x)

def dbRebalanceErase (fuel : Nat) (z : Nat) : Option Bucket := do
  let (s, x, xParent) ← s.unlink fuel z
  if (s.links z).color ≠ .red then do
    let (s, x) ← eraseLoop fuel s x xParent
    some (s.setColorOpt x .black)
  else some s

end Bucket

/-! ## The table -/

def hashSize : Nat := 256 + 27

/-- What `strdb` and `numdb` differ in: the functions of the table, and the copy of the key that
`db_erase` makes under a lock. -/
structure DbKind (K : Type) where
  cmp : K → K → Int
  hash : K → Nat
  copy : K → K

/-! ### Numbers

The keys of a `numdb` are of type `int`, and so are those that its callers give it, as an
`intptr_t` of 64 bits. -/

def numdbCmp (a b : BitVec 32) : Int :=
  let ia := a.signExtend 64
  let ib := b.signExtend 64
  if (ia ^^^ ib) &&& 0x80000000 ≠ 0 then if ia.toInt < 0 then -1 else 1
  else ((ia - ib).setWidth 32).toInt

def numdbHash (a : BitVec 32) : Nat := (a.signExtend 64).toNat

def numdb : DbKind (BitVec 32) := { cmp := numdbCmp, hash := numdbHash, copy := id }

/-! ### Strings -/

/-- The bytes of a string, without the `NUL` at its end. -/
structure CString where
  bytes : List (BitVec 8)
  nonzero : ∀ c ∈ bytes, c ≠ 0
  deriving DecidableEq

/-- The first bytes of a string. -/
def CString.take (n : Nat) (s : CString) : CString :=
  ⟨s.bytes.take n, fun c hc => s.nonzero c (List.mem_of_mem_take hc)⟩

def strcmp : List (BitVec 8) → List (BitVec 8) → Int
  | [], [] => 0
  | [], b :: _ => - b.toNat
  | a :: _, [] => a.toNat
  | a :: as, b :: bs => if a = b then strcmp as bs else a.toNat - b.toNat

def strncmp : Nat → List (BitVec 8) → List (BitVec 8) → Int
  | 0, _, _ => 0
  | _ + 1, [], [] => 0
  | _ + 1, [], b :: _ => - b.toNat
  | _ + 1, a :: _, [] => a.toNat
  | n + 1, a :: as, b :: bs => if a = b then strncmp n as bs else a.toNat - b.toNat

/-- `maxlen` as the `size_t` that `strncmp` and `memcpy` get. -/
def sizeT (maxlen : BitVec 32) : Nat := (maxlen.signExtend 64).toNat

def strdbCmp (maxlen : BitVec 32) (a b : CString) : Int :=
  if maxlen ≠ 0 then strncmp (sizeT maxlen) a.bytes b.bytes else strcmp a.bytes b.bytes

def strdbHashLoop : (i : Int) → (h : BitVec 64) → List (BitVec 8) → BitVec 64
  | _, h, [] => h
  | i, h, p :: ps =>
    if i - 1 ≥ 0 then strdbHashLoop (i - 1) ((h * 33 + p.setWidth 64) ^^^ (h >>> 24)) ps else h

def strdbHash (maxlen : BitVec 32) (a : CString) : Nat :=
  (strdbHashLoop (if maxlen = 0 then 0x7fffffff else maxlen.toInt) 0 a.bytes).toNat

def strdb (maxlen : BitVec 32) : DbKind CString where
  cmp := strdbCmp maxlen
  hash := strdbHash maxlen
  copy := fun s => if maxlen ≠ 0 then s.take (sizeT maxlen) else s

/-! ### Nodes and tables -/

/-- The key, the data and the mark of a `struct dbn`. The data are an address; `0` is `NULL`. -/
structure DbItem (K : Type) where
  key : K
  data : Nat := 0
  deleted : Bool := false

/-- `struct dbt`, with the memory of the nodes. `dbnFree` is the chain of the free nodes, through
their parent pointers; the nodes from `dbnNext` on have never been used. -/
structure Dbt (K : Type) where
  links : Nat → Links := fun _ => {}
  items : Nat → DbItem K
  ht : Nat → Option Nat := fun _ => none
  itemCount : Int := 0
  /-- The queue: the node and the bucket of its tree. -/
  freeList : List (Nat × Nat) := []
  freeLock : Int := 0
  dbnFree : Option Nat := none
  dbnNext : Nat := 0

/-- Where the way down from the root for a key ends. -/
inductive Descent where
  | found (i : Nat)
  /-- The last node and the comparison with its key; none in an empty tree. -/
  | missing (last : Option (Nat × Int))
  deriving DecidableEq

namespace Dbt

variable {K : Type} (kind : DbKind K) (t : Dbt K)

def bucket (b : Nat) : Bucket := ⟨t.links, t.ht b⟩

/-- The tree of a bucket and the memory have been changed. -/
def setBucket (b : Nat) (s : Bucket) : Dbt K :=
  { t with links := s.links, ht := Function.update t.ht b s.root }

def fuel : Nat := t.itemCount.toNat + 2

def hashOf (key : K) : Nat := kind.hash key % hashSize

def descend (key : K) : (fuel : Nat) → (last : Option (Nat × Int)) → Option Nat → Option Descent
  | 0, _, _ => none
  | _ + 1, last, none => some (.missing last)
  | fuel + 1, _, some i =>
    let c := kind.cmp key (t.items i).key
    if c = 0 then some (.found i)
    else
      descend key fuel (some (i, c)) (if c < 0 then (t.links i).left else (t.links i).right)

/-- The way down from the root of the bucket of a key. -/
def find (key : K) : Option Descent := t.descend kind key t.fuel none (t.ht (hashOf kind key))

def dbSearch (key : K) : Option Nat :=
  (t.find kind key).map fun
    | .found i => (t.items i).data
    | .missing _ => 0

/-- `malloc_dbn`: the top of the free nodes, or a node that was never used. -/
def mallocDbn : Dbt K × Nat :=
  match t.dbnFree with
  | none => ({ t with dbnNext := t.dbnNext + 1 }, t.dbnNext)
  | some i => ({ t with dbnFree := (t.links i).parent }, i)

def freeDbn (i : Nat) : Dbt K :=
  { t with
    links := Function.update t.links i { t.links i with parent := t.dbnFree }
    dbnFree := some i }

def setItem (i : Nat) (item : DbItem K) : Dbt K :=
  { t with items := Function.update t.items i item }

/-- The node of an equal key gets the new key and the new data. If it was marked as deleted, its
place in the queue is given up. -/
def replace (i : Nat) (key : K) (data : Nat) : Dbt K :=
  let t :=
    if (t.items i).deleted then { t with freeList := t.freeList.eraseP fun e => e.1 = i } else t
  t.setItem i { key, data, deleted := false }

/-- A new node below the last one of the way down. -/
def attach (key : K) (data : Nat) (last : Option (Nat × Int)) : Option (Dbt K × Nat) := do
  let b := hashOf kind key
  let (t, p) := t.mallocDbn
  let t := t.setItem p { key, data }
  let s ← (t.bucket b).addLeaf t.fuel p last
  let t := t.setBucket b s
  some ({ t with itemCount := t.itemCount + 1 }, p)

def dbInsert (key : K) (data : Nat) : Option (Dbt K × Nat) := do
  match ← t.find kind key with
  | .found i => some (t.replace i key data, i)
  | .missing last => t.attach kind key data last

/-- The node `z` of a bucket is removed and freed. -/
def remove (z b : Nat) : Option (Dbt K) := do
  let s ← (t.bucket b).dbRebalanceErase t.fuel z
  let t := (t.setBucket b s).freeDbn z
  some { t with itemCount := t.itemCount - 1 }

/-- Under a lock the node stays in its tree: it is marked and goes into the queue. -/
def dbErase (key : K) : Option (Dbt K × Nat) := do
  match ← t.find kind key with
  | .missing _ => some (t, 0)
  | .found i =>
    let item := t.items i
    let b := hashOf kind key
    if t.freeLock ≠ 0 then
      let t := { t with freeList := t.freeList ++ [(i, b)] }
      some (t.setItem i { key := kind.copy item.key, deleted := true }, item.data)
    else (t.remove i b).map fun t => (t, item.data)

def dbFreeLock : Dbt K := { t with freeLock := t.freeLock + 1 }

/-- The queue is worked off. -/
def removeAll : List (Nat × Nat) → Dbt K → Option (Dbt K)
  | [], t => some t
  | (z, b) :: rest, t => (t.remove z b).bind (removeAll rest)

def dbFreeUnlock : Option (Dbt K) :=
  let t := { t with freeLock := t.freeLock - 1 }
  if t.freeLock = 0 then (removeAll t.freeList t).map fun t => { t with freeList := [] } else some t

end Dbt

/-! ## The traversal -/

/-- The size of the stack of `db_foreach` and of `db_final`. -/
def stackSize : Nat := 64

/-- The nodes of a tree in the order of the traversal: a right child waits on the stack while the
left one is visited. It comes to nothing where the stack overflows. -/
def walkTree (links : Nat → Links) : (fuel : Nat) → (stack : List Nat) → Nat → Option (List Nat)
  | 0, _, _ => none
  | fuel + 1, stack, p =>
    match (links p).left, (links p).right with
    | some l, some r =>
      if stack.length < stackSize then (walkTree links fuel (r :: stack) l).map (p :: ·) else none
    | some l, none => (walkTree links fuel stack l).map (p :: ·)
    | none, some r => (walkTree links fuel stack r).map (p :: ·)
    | none, none =>
      match stack with
      | [] => some [p]
      | q :: stack => (walkTree links fuel stack q).map (p :: ·)

end Nezumi
