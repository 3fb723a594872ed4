import Mathlib.Data.BitVec
import Mathlib.Data.Int.Init
import Mathlib.Logic.Function.Basic

/-!
# Walking paths (`map/path.c`)

* `MapData` is what the path functions read of `struct map_data`, `mapGetcellp` the two checks of
  `map_getcellp` that they use.
* `TmpPath` is an entry of the table of `path_search`. The table and the heap are functions, of the
  indexes of the arrays `tp` and `heap`; `heap 0` is the number of entries.
* `pushHeapPath`, `updateHeapPath`, `popHeapPath`, `addPath`, `canMove` and `pathSearch` are the
  functions of the same names. The search is cut into the straight walk (`easyPath`), the loop up to
  the goal (`searchGoal`) and the way back (`rebuild`).
* `pathBlownpos` is where a blow leads, `blownPath` the way there.
-/

namespace Nezumi

def maxWalkpath : Nat := 32

def maxHeap : Nat := 150

/-- The value of an `int` stored in a `short`. -/
def toShort (n : Int) : Int := n.bmod (2 ^ 16)

/-- `calc_index`: the entry of the table for a cell. -/
def calcIndex (x y : Int) : Nat := ((x + y * maxWalkpath) % (maxWalkpath * maxWalkpath)).toNat

/-- What the path functions read of a map. A map of another server has no `gat`. -/
structure MapData where
  gat : Option (Int → BitVec 8)
  xs : Int
  ys : Int
  xs_lt : xs < 2 ^ 15
  ys_lt : ys < 2 ^ 15

/-- The checks of `map_getcellp` that are used here. -/
inductive CellCheck where
  | chkNoPass
  | getType
  deriving DecidableEq

/-- The last row and the last column count as outside. -/
def mapGetcellp (m : MapData) (x y : Int) (cellchk : CellCheck) : Nat :=
  if x < 0 ∨ m.xs - 1 ≤ x ∨ y < 0 ∨ m.ys - 1 ≤ y then
    match cellchk with
    | .chkNoPass => 1
    | .getType => 0
  else
    let type := ((m.gat.getD fun _ => 0) (x + y * m.xs) &&& 0x0f).toNat
    match cellchk with
    | .chkNoPass => if type = 1 ∨ type = 5 then 1 else 0
    | .getType => type

/-- A wall stops everything, a cliff stops a walk but not a shot (`0x10000`). -/
def canPlace (m : MapData) (x y : Int) (flag : BitVec 32) : Bool :=
  let c := mapGetcellp m x y .getType
  if c = 1 then false else if flag &&& 0x10000 = 0 ∧ c = 5 then false else true

def canMove (m : MapData) (x0 y0 x1 y1 : Int) (flag : BitVec 32) : Bool :=
  if x0 - x1 < -1 ∨ 1 < x0 - x1 ∨ y0 - y1 < -1 ∨ 1 < y0 - y1 then false
  else if x1 < 0 ∨ y1 < 0 ∨ m.xs ≤ x1 ∨ m.ys ≤ y1 then false
  else if !canPlace m x0 y0 flag then false
  else if !canPlace m x1 y1 flag then false
  else if x0 = x1 ∨ y0 = y1 then true
  else canPlace m x0 y1 flag && canPlace m x1 y0 flag

/-- The step of a direction, `dirx` and `diry`. -/
def dirx : Nat → Int
  | 1 | 2 | 3 => -1
  | 5 | 6 | 7 => 1
  | _ => 0

def diry : Nat → Int
  | 0 | 1 | 7 => 1
  | 3 | 4 | 5 => -1
  | _ => 0

/-- `struct tmp_path`. -/
structure TmpPath where
  x : Int := 0
  y : Int := 0
  dist : Int := 0
  before : Nat := 0
  cost : Int := 0
  dir : Nat := 0
  flag : Bool := false
  deriving DecidableEq

/-- What `path_search` works on. -/
structure PathState where
  tp : Nat → TmpPath
  heap : Nat → Nat

/-! ## The heap -/

/-- Entries that cost more than `idx` move down from the parents of place `h`, and `idx` goes where
they stop. -/
def siftUp (cost : Nat → Int) (idx : Nat) : (fuel : Nat) → (heap : Nat → Nat) → (h : Nat) → Nat → Nat
  | 0, heap, h => Function.update heap (h + 1) idx
  | fuel + 1, heap, h =>
    let i := (h - 1) / 2
    if 0 < h ∧ cost idx < cost (heap (i + 1)) then
      siftUp cost idx fuel (Function.update heap (h + 1) (heap (i + 1))) i
    else Function.update heap (h + 1) idx

def pushHeapPath (heap : Nat → Nat) (tp : Nat → TmpPath) (idx : Nat) : Nat → Nat :=
  let heap := Function.update heap 0 (heap 0 + 1)
  let h := heap 0 - 1
  siftUp (fun i => (tp i).cost) idx h heap h

/-- The place of `idx` in the heap, from `h` on. -/
def findHeap (heap : Nat → Nat) (idx : Nat) : (fuel : Nat) → (h : Nat) → Nat
  | 0, h => h
  | fuel + 1, h => if heap (h + 1) = idx then h else findHeap heap idx fuel (h + 1)

/-- None where the program exits: the entry is not in the heap. -/
def updateHeapPath (heap : Nat → Nat) (tp : Nat → TmpPath) (idx : Nat) : Option (Nat → Nat) :=
  let h := findHeap heap idx (heap 0) 0
  if h = heap 0 then none else some (siftUp (fun i => (tp i).cost) idx h heap h)

/-- The hole at place `h` moves down, the cheaper child up; `k` is the right child of the hole. -/
def siftDown (cost : Nat → Int) :
    (fuel : Nat) → (heap : Nat → Nat) → (h k : Nat) → (Nat → Nat) × Nat × Nat
  | 0, heap, h, k => (heap, h, k)
  | fuel + 1, heap, h, k =>
    if k < heap 0 then
      let k := if cost (heap k) < cost (heap (k + 1)) then k - 1 else k
      siftDown cost fuel (Function.update heap (h + 1) (heap (k + 1))) k (k * 2 + 2)
    else (heap, h, k)

def popHeapPath (heap : Nat → Nat) (tp : Nat → TmpPath) : Nat × (Nat → Nat) :=
  let cost := fun i => (tp i).cost
  let ret := heap 1
  let last := heap (heap 0)
  let heap := Function.update heap 0 (heap 0 - 1)
  let (heap, h, k) := siftDown cost (heap 0) heap 0 2
  let (heap, h) :=
    if k = heap 0 then (Function.update heap (h + 1) (heap k), k - 1) else (heap, h)
  (ret, siftUp cost last h heap h)

/-! ## The search -/

def calcCost (p : TmpPath) (x1 y1 : Int) : Int := (|x1 - p.x| + |y1 - p.y|) * 10 + p.dist

/-- An entry that is reached at a distance, by a direction from the entry `before`. -/
def TmpPath.reached (p : TmpPath) (dist : Int) (dir before : Nat) (x1 y1 : Int) : TmpPath :=
  let p := { p with dist := toShort dist, dir, before }
  { p with cost := toShort (calcCost p x1 y1) }

/-- What comes of a cell in the table: it counts as an error when another cell has its entry. None
where the program exits. -/
def addPath (s : PathState) (x y dist : Int) (dir before : Nat) (x1 y1 : Int) :
    Option (PathState × Nat) :=
  let i := calcIndex x y
  let p := s.tp i
  if p.x = x ∧ p.y = y then
    if dist < p.dist then
      let tp := Function.update s.tp i (p.reached dist dir before x1 y1)
      let heap := if p.flag then some (pushHeapPath s.heap tp i) else updateHeapPath s.heap tp i
      heap.map fun heap => ({ tp := Function.update tp i { tp i with flag := false }, heap }, 0)
    else some (s, 0)
  else if p.x ≠ 0 ∨ p.y ≠ 0 then some (s, 1)
  else
    let p := { p with x := toShort x, y := toShort y }
    let tp := Function.update s.tp i { p.reached dist dir before x1 y1 with flag := false }
    some ({ tp, heap := pushHeapPath s.heap tp i }, 0)

/-- The neighbours in the order in which they are looked at: the direction and the distance. -/
def neighbours : List (Nat × Int) :=
  [(5, 14), (6, 10), (7, 14), (0, 10), (1, 14), (2, 10), (3, 14), (4, 10)]

/-- The neighbours of the cell of entry `rp` that can be walked to are added. -/
def addNeighbours (m : MapData) (flag : BitVec 32) (x1 y1 : Int) (rp : Nat) (x y : Int) :
    List (Nat × Int) → PathState × Nat → Option (PathState × Nat)
  | [], s => some s
  | (dir, len) :: rest, (s, e) =>
    if canMove m x y (x + dirx dir) (y + diry dir) flag then
      (addPath s (x + dirx dir) (y + diry dir) ((s.tp rp).dist + len) dir rp x1 y1).bind
        fun (s, e') => addNeighbours m flag x1 y1 rp x y rest (s, e + e')
    else addNeighbours m flag x1 y1 rp x y rest (s, e)

/-- How the search ends. -/
inductive SearchEnd where
  /-- The straight walk has led to the goal. -/
  | easy (path : List Nat)
  /-- The entry of the goal has been taken from the heap. -/
  | goal (tp : Nat → TmpPath) (rp : Nat)
  | noPath
  /-- The program exits. -/
  | exits
  /-- The rounds given did not suffice. -/
  | outOfFuel

/-- The loop of the search up to the goal. -/
def searchGoal (m : MapData) (x1 y1 : Int) (flag : BitVec 32) : (fuel : Nat) → PathState → SearchEnd
  | 0, _ => .outOfFuel
  | fuel + 1, s =>
    if s.heap 0 = 0 then .noPath
    else
      let (rp, heap) := popHeapPath s.heap s.tp
      let s := { s with heap }
      if (s.tp rp).x = x1 ∧ (s.tp rp).y = y1 then .goal s.tp rp
      else
        match addNeighbours m flag x1 y1 rp (s.tp rp).x (s.tp rp).y neighbours (s, 0) with
        | none => .exits
        | some (s, e) =>
          let s := { s with tp := Function.update s.tp rp { s.tp rp with flag := true } }
          if e ≠ 0 ∨ maxHeap - 5 ≤ s.heap 0 then .noPath else searchGoal m x1 y1 flag fuel s

/-- The table with only the start. -/
def searchStart (x0 y0 x1 y1 : Int) : PathState :=
  let i := calcIndex x0 y0
  let p : TmpPath := { x := toShort x0, y := toShort y0 }
  let tp := Function.update (fun _ => {}) i { p with cost := toShort (calcCost p x1 y1) }
  { tp, heap := pushHeapPath (fun _ => 0) tp i }

/-- The number of links from entry `i` back to the entry `start`, at most the bound. -/
def countBack (tp : Nat → TmpPath) (start : Nat) : (bound : Nat) → (i : Nat) → Nat
  | 0, _ => 0
  | bound + 1, i => if i = start then 0 else countBack tp start bound (tp i).before + 1

/-- The directions of the last `len` links to entry `i`, in front of `path`. -/
def rebuild (tp : Nat → TmpPath) : (len : Nat) → (i : Nat) → (path : List Nat) → List Nat
  | 0, _, path => path
  | len + 1, i, path => rebuild tp len (tp i).before ((tp i).dir :: path)

/-- How the straight walk ends. -/
inductive EasyEnd where
  | reached (path : List Nat)
  /-- The path is too long. -/
  | tooLong
  /-- A step cannot be made, or there is no way to go. -/
  | blocked
  deriving DecidableEq

/-- The direction of a step by `dx` and `dy`, each `-1`, `0` or `1`. -/
def easyDir (dx dy : Int) : Nat :=
  if dx < 0 then if dy > 0 then 1 else if dy < 0 then 3 else 2
  else if dx > 0 then if dy < 0 then 5 else if dy > 0 then 7 else 6
  else if dy > 0 then 0 else 4

/-- The straight walk: diagonally while both coordinates differ, then along the other one. `i` steps
have been made. -/
def easyPath (m : MapData) (x1 y1 : Int) (flag : BitVec 32) (dx dy : Int) :
    (room : Nat) → (x y : Int) → EasyEnd
  | 0, x, y => if x = x1 ∧ y = y1 then .blocked else .tooLong
  | room + 1, x, y =>
    if x = x1 ∧ y = y1 then .blocked
    else
      let sx := if x = x1 then 0 else dx
      let sy := if y = y1 then 0 else dy
      if !canMove m x y (x + sx) (y + sy) flag then .blocked
      else if x + sx = x1 ∧ y + sy = y1 then .reached [easyDir sx sy]
      else
        match easyPath m x1 y1 flag dx dy room (x + sx) (y + sy) with
        | .reached path => .reached (easyDir sx sy :: path)
        | e => e

/-- `path_search` up to the way back from the goal. -/
def findPath (m : MapData) (fuel : Nat) (x0 y0 x1 y1 : Int) (flag : BitVec 32) : SearchEnd :=
  if m.gat.isNone then .noPath
  else if x1 < 0 ∨ y1 < 0 ∨ m.xs ≤ x1 ∨ m.ys ≤ y1 ∨ mapGetcellp m x1 y1 .chkNoPass ≠ 0 then .noPath
  else
    let dx := if x1 - x0 < 0 then -1 else 1
    let dy := if y1 - y0 < 0 then -1 else 1
    match easyPath m x1 y1 flag dx dy maxWalkpath x0 y0 with
    | .reached path => .easy path
    | .tooLong => .noPath
    | .blocked =>
      if flag &&& 1 ≠ 0 then .noPath
      else searchGoal m x1 y1 flag fuel (searchStart x0 y0 x1 y1)

/-- What `path_search` returns: `0` with the path, or `-1`. -/
inductive PathResult where
  | path (path : List Nat)
  | noPath
  | exits
  | outOfFuel
  deriving DecidableEq

/-- The way from the start to the goal that has been found. -/
def pathBack (tp : Nat → TmpPath) (rp : Nat) (x0 y0 : Int) : PathResult :=
  let len := countBack tp (calcIndex x0 y0) 100 rp
  if len = 100 ∨ maxWalkpath ≤ len then .noPath else .path (rebuild tp len rp [])

def pathSearch (m : MapData) (fuel : Nat) (x0 y0 x1 y1 : Int) (flag : BitVec 32) : PathResult :=
  match findPath m fuel x0 y0 x1 y1 flag with
  | .easy path => .path path
  | .goal tp rp => pathBack tp rp x0 y0
  | .noPath => .noPath
  | .exits => .exits
  | .outOfFuel => .outOfFuel

/-! ## Being blown away -/

/-- The directions that the loop of `path_blownpos` goes on with: a step that cannot be made is
made along one axis, if that can be done; `coin` is what `rand() & 1` decides between the two. -/
def blownDir (m : MapData) (coin : Bool) (x y dx dy : Int) : Int × Int :=
  if canMove m x y (x + dx) (y + dy) 0 then (dx, dy)
  else
    let fx := decide (dx ≠ 0) && canMove m x y (x + dx) y 0
    let fy := decide (dy ≠ 0) && canMove m x y x (y + dy) 0
    (if !fx || fy && coin then 0 else dx, if !fy || fx && !coin then 0 else dy)

/-- The loop of `path_blownpos`: where each of its rounds leads. -/
def blownCells (m : MapData) (coin : Nat → Bool) : (count : Nat) → (x y dx dy : Int) →
    List (Int × Int)
  | 0, _, _, _, _ => []
  | count + 1, x, y, dx, dy =>
    if dx = 0 ∧ dy = 0 then []
    else
      let d := blownDir m (coin count) x y dx dy
      (x + d.1, y + d.2) :: blownCells m coin count (x + d.1) (y + d.2) d.1 d.2

/-- The direction that `path_blownpos` makes of an illegal one. -/
def blownStart (dx dy : Int) : Int × Int :=
  if 1 < dx ∨ dx < -1 ∨ 1 < dy ∨ dy < -1 then
    (if 0 ≤ dx then 1 else -1, if 0 ≤ dy then 1 else -1)
  else (dx, dy)

/-- The cells that a displacement leads over. -/
def blownPath (m : MapData) (coin : Nat → Bool) (x0 y0 dx dy count : Int) : List (Int × Int) :=
  let d := blownStart dx dy
  blownCells m coin (min count 15).toNat x0 y0 d.1 d.2

/-- `path_blownpos`: the cell where the displacement ends, none on a map of another server. -/
def pathBlownpos (m : MapData) (coin : Nat → Bool) (x0 y0 dx dy count : Int) : Option (Int × Int) :=
  if m.gat.isNone then none
  else some ((blownPath m coin x0 y0 dx dy count).getLastD (x0, y0))

end Nezumi
