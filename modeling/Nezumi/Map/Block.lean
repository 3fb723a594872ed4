import Nezumi.Lib.Chain

/-!
# The objects on the maps (`map/map.c`)

Every map is cut into blocks of `BLOCK_SIZE` by `BLOCK_SIZE` cells, and every block has a list of the
monsters in it and one of all other objects. The links of the lists are in the objects; the first one
of a list points back to `bl_head`.

* `mapAddblock`, `mapDelblock` and `mapForeachinarea` are the functions of the same names.

`map_freeblock_lock` and the messages are left out.
-/

namespace Nezumi

open Chain

def blockSize : Int := 8

/-- `BL_LIST_MAX` -/
def blListMax : Nat := 1048576

/-- `BL_NUL`, which stands for all of them in a search, and the types of objects. -/
inductive BlType
  | nul
  | pc
  | npc
  | mob
  | item
  | chat
  | skill
  | pet
deriving DecidableEq

/-- `struct block_list`, without the links. -/
structure BlockList where
  m : Int := 0
  x : Int := 0
  y : Int := 0
  type : BlType := .nul

/-- The number of maps, and the cells of each. -/
structure MapSizes where
  mapNum : Int
  xs : Int → Int
  ys : Int → Int

/-- The number of blocks of a map in a row. -/
def MapSizes.bxs (md : MapSizes) (m : Int) : Int := (md.xs m + blockSize - 1).tdiv blockSize

/-- The objects, and the lists and numbers of players of the maps. -/
structure Blocks where
  bl : Nat → BlockList
  links : Chain.Links Nat := { next := fun _ => none, prev := fun _ => .null }
  block : Int → Int → Option Nat := fun _ _ => none
  blockMob : Int → Int → Option Nat := fun _ _ => none
  users : Int → Int := fun _ => 0

/-- Whether an object is in a list. -/
def Blocks.linked (s : Blocks) (o : Nat) : Bool := s.links.prev o ≠ .null

variable (md : MapSizes)

/-- The object is on a map. -/
def MapSizes.has (bl : BlockList) : Bool :=
  0 ≤ bl.m && bl.m < md.mapNum && 0 ≤ bl.x && bl.x < md.xs bl.m && 0 ≤ bl.y && bl.y < md.ys bl.m

/-- The number of the block of a cell. -/
def MapSizes.blockOf (m x y : Int) : Int :=
  x.tdiv blockSize + y.tdiv blockSize * md.bxs m

/-- `map_addblock` -/
def mapAddblock (s : Blocks) (o : Nat) : Int × Blocks :=
  if s.links.prev o ≠ .null then (0, s)
  else
    let bl := s.bl o
    if !md.has bl then (1, s)
    else
      let b := md.blockOf bl.m bl.x bl.y
      if bl.type = .mob then
        (0, { s with
          links := pushFront s.links (s.blockMob bl.m b) o
          blockMob := Function.update s.blockMob bl.m
            (Function.update (s.blockMob bl.m) b (some o)) })
      else
        (0, { s with
          links := pushFront s.links (s.block bl.m b) o
          block := Function.update s.block bl.m (Function.update (s.block bl.m) b (some o))
          users := if bl.type = .pc then Function.update s.users bl.m (s.users bl.m + 1)
            else s.users })

/-- `map_delblock` -/
def mapDelblock (s : Blocks) (o : Nat) : Blocks :=
  if s.links.prev o = .null then s
  else
    let bl := s.bl o
    let b := md.blockOf bl.m bl.x bl.y
    { s with
      users := if bl.type = .pc then Function.update s.users bl.m (s.users bl.m - 1) else s.users
      links := unlink s.links o
      blockMob := if s.links.prev o = .head ∧ bl.type = .mob then
          Function.update s.blockMob bl.m
            (Function.update (s.blockMob bl.m) b (s.links.next o))
        else s.blockMob
      block := if s.links.prev o = .head ∧ bl.type ≠ .mob then
          Function.update s.block bl.m (Function.update (s.block bl.m) b (s.links.next o))
        else s.block }

/-- From `a` to `b`. -/
def intRange (a b : Int) : List Int := (List.range (b - a + 1).toNat).map fun (i : Nat) => a + i

/-- A rectangle of cells. -/
structure Rect where
  x0 : Int
  y0 : Int
  x1 : Int
  y1 : Int

/-- The part of a rectangle on the map. -/
def Rect.clamp (r : Rect) (m : Int) : Rect where
  x0 := if r.x0 < 0 then 0 else r.x0
  y0 := if r.y0 < 0 then 0 else r.y0
  x1 := if r.x1 ≥ md.xs m then md.xs m - 1 else r.x1
  y1 := if r.y1 ≥ md.ys m then md.ys m - 1 else r.y1

def Rect.holds (r : Rect) (bl : BlockList) : Bool :=
  bl.x ≥ r.x0 && bl.x ≤ r.x1 && bl.y ≥ r.y0 && bl.y ≤ r.y1

/-- The type an object must have for a search that leaves the monsters out. -/
def typeWanted (type : BlType) (bl : BlockList) : Bool := type = .nul || bl.type = type

/-- One loop over a list: the objects that are wanted are noted in `bl_list`, if it has room. -/
def noteObjects (s : Blocks) (blockcount : Nat) (r : Rect) (type : BlType) (acc objs : List Nat) :
    List Nat :=
  objs.foldl (fun acc o =>
    if typeWanted type (s.bl o) && r.holds (s.bl o) && decide (blockcount + acc.length < blListMax)
      then acc ++ [o] else acc) acc

/-- What `map_foreachinarea` notes of one block. -/
def noteBlock (s : Blocks) (fuel blockcount : Nat) (m : Int) (r : Rect) (type : BlType)
    (acc : List Nat) (b : Int) : List Nat :=
  let list start := walk s.links.next fuel start
  match type with
  | .nul => noteObjects s blockcount r .nul
      (noteObjects s blockcount r .nul acc (list (s.block m b))) (list (s.blockMob m b))
  | .mob => noteObjects s blockcount r .nul acc (list (s.blockMob m b))
  | type => noteObjects s blockcount r type acc (list (s.block m b))

/-- The blocks that `map_foreachinarea` goes through. -/
def areaBlocks (m : Int) (r : Rect) : List Int :=
  (intRange (r.y0.tdiv blockSize) (r.y1.tdiv blockSize)).flatMap fun by' =>
    (intRange (r.x0.tdiv blockSize) (r.x1.tdiv blockSize)).map fun bx => bx + by' * md.bxs m

/-- The objects that `map_foreachinarea` notes behind the first `blockcount` ones of `bl_list`. -/
def noteArea (s : Blocks) (fuel blockcount : Nat) (m : Int) (r : Rect) (type : BlType) : List Nat :=
  (areaBlocks md m (r.clamp md m)).foldl (noteBlock s fuel blockcount m (r.clamp md m) type) []

/-- The calls of `func`, each unless an earlier one has taken the object off its list. Next to the
state after them stand the objects that were called. -/
def callObjects {σ : Type} (view : σ → Blocks) (func : σ → Nat → σ) (st : σ) :
    List Nat → σ × List Nat
  | [] => (st, [])
  | o :: objs =>
    if (view st).linked o then
      let r := callObjects view func (func st o) objs
      (r.1, o :: r.2)
    else callObjects view func st objs

/-- `map_foreachinarea`, on any state that the maps are a part of. -/
def mapForeachinarea {σ : Type} (view : σ → Blocks) (func : σ → Nat → σ) (fuel blockcount : Nat)
    (st : σ) (m : Int) (r : Rect) (type : BlType) : σ × List Nat :=
  if m < 0 then (st, [])
  else callObjects view func st (noteArea md (view st) fuel blockcount m r type)

end Nezumi
