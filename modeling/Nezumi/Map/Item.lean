import Mathlib.Logic.Function.Basic
import Mathlib.Data.Fintype.Pi
import Mathlib.Data.Fintype.Vector
import Nezumi.Lib.Sizes
import Nezumi.Lib.Slots

/-!
# Items, the item database and the player's session data (`include/mmo.h`, `map/map.h`,
`map/itemdb.c`)

`short` fields are `Int16`; C promotes them to `int` in every expression, which is `Int16.toInt`
here, and narrows a result that it stores back, which is `Int16.ofInt`. An `int` is an `Int`.

An item's `Identity` is what distinguishes it from other items: everything except the row id, the
amount and the equip position.
-/

namespace Nezumi

def maxInventory : Nat := 100
def maxCart : Nat := 100
def maxStorage : Nat := 300
def maxGuildStorage : Nat := 1000
def maxVending : Nat := 12

instance (priority := 2000) neZeroVending : NeZero (maxVending + 1) := ⟨Nat.succ_ne_zero _⟩

def maxAmount : Int := 30000
def maxZeny : Int := 1000000000

/-- `struct item`. -/
structure Item where
  id : Int := 0
  nameid : Int16 := 0
  amount : Int16 := 0
  equip : UInt16 := 0
  identify : Bool := false
  refine : Fin 16 := 0
  attrib : Int8 := 0
  card : Vector Int16 4 := Vector.replicate 4 0
  deriving DecidableEq, Repr

/-- A slot after `memset(…, 0, sizeof(struct item))`. -/
def Item.zero : Item := {}

/-- What makes two items the same item: `pc_additem` stacks items that agree on all of it. -/
structure Identity where
  nameid : Int16
  identify : Bool
  refine : Fin 16
  attrib : Int8
  card : Vector Int16 4
  deriving DecidableEq, Repr

def Item.identity (it : Item) : Identity :=
  { nameid := it.nameid, identify := it.identify, refine := it.refine,
    attrib := it.attrib, card := it.card }

/-- The item with another amount, narrowed to a `short`. -/
def Item.withAmount (it : Item) (amount : Int) : Item := { it with amount := Int16.ofInt amount }

@[simp] theorem Item.withAmount_nameid (it : Item) (amount : Int) :
    (it.withAmount amount).nameid = it.nameid := rfl

@[simp] theorem Item.withAmount_identity (it : Item) (amount : Int) :
    (it.withAmount amount).identity = it.identity := rfl

@[simp] theorem Item.withAmount_amount (it : Item) (amount : Int) :
    (it.withAmount amount).amount = Int16.ofInt amount := rfl

/-- `struct item_data`: the fields that buying, selling, trading and stacking read. -/
structure ItemData where
  nameid : Int
  valueBuy : Int
  valueSell : Int
  type : Int
  weight : Int
  valueNotdc : Bool := false
  valueNotoc : Bool := false
  noTrade : Fin 4 := 0
  deriving DecidableEq, Repr

/-- The item database: the entries read from the files. -/
abbrev ItemDb := Int → Option ItemData

/-- The type that `itemdb_search` gives an id it does not know. -/
def dummyType (nameid : Int) : Int :=
  if 500 < nameid ∧ nameid < 600 then 0
  else if 600 < nameid ∧ nameid < 700 then 2
  else if 700 < nameid ∧ nameid < 1100 ∨ 7000 < nameid ∧ nameid < 8000 then 3
  else if 1750 ≤ nameid ∧ nameid < 1771 then 10
  else if 1100 < nameid ∧ nameid < 2000 then 4
  else if 2100 < nameid ∧ nameid < 3000 ∨ 5000 < nameid ∧ nameid < 6000 then 5
  else if 4000 < nameid ∧ nameid < 5000 then 6
  else if 9000 < nameid ∧ nameid < 10000 then 7
  else if 10000 < nameid then 8
  else 0

/-- `itemdb_search`: never fails, an unknown id gets an entry of its own. -/
def itemdbSearch (db : ItemDb) (nameid : Int) : ItemData :=
  (db nameid).getD
    { nameid := nameid, valueBuy := 10, valueSell := 10 / 2, type := dummyType nameid,
      weight := 10 }

/-- `itemdb_isequip2`. -/
def itemdbIsequip2 (data : ItemData) : Bool :=
  !(data.type == 0 || data.type == 2 || data.type == 3 || data.type == 6 || data.type == 10)

/-- `itemdb_isequip`. -/
def itemdbIsequip (db : ItemDb) (nameid : Int) : Bool := itemdbIsequip2 (itemdbSearch db nameid)

/-- `itemdb_isequip3`. -/
def itemdbIsequip3 (db : ItemDb) (nameid : Int) : Bool :=
  let type := (itemdbSearch db nameid).type
  type == 4 || type == 5 || type == 8

/-- `itemdb_weight`. -/
def itemdbWeight (db : ItemDb) (nameid : Int) : Int := (itemdbSearch db nameid).weight

/-- `struct vending`: an offer of a shop, by cart index. -/
structure Vending where
  index : Int16 := 0
  amount : UInt16 := 0
  value : UInt32 := 0
  deriving DecidableEq, Repr

/-- `struct skill`. -/
structure Skill where
  id : Nat := 0
  lv : Nat := 0
  deriving DecidableEq, Repr

abbrev Inventory := Fin maxInventory → Item
abbrev Cart := Fin maxCart → Item

/-- A table that holds the items of a list in its first slots. -/
def slotsOf {n : Nat} (items : List Item) (i : Fin n) : Item := items[i.val]?.getD Item.zero

/-- `struct map_session_data`: the fields that the item, shop, vending, trade and storage code
reads. -/
structure MapSessionData where
  id : Int
  m : Int := 0
  x : Int := 0
  y : Int := 0
  zeny : Int := 0
  guildId : Int := 0
  partnerId : Int := 0
  inventory : Inventory
  inventoryData : Fin maxInventory → Option ItemData
  weight : Int := 0
  maxWeight : Int := 0
  cart : Cart := fun _ => Item.zero
  cartWeight : Int := 0
  cartNum : Int := 0
  skill : Nat → Skill := fun _ => {}
  partyInvite : Int := 0
  guildInvite : Int := 0
  npcShopid : Int := 0
  venderId : Int := 0
  vendNum : Fin (maxVending + 1) := 0
  vending : Fin maxVending → Vending := fun _ => {}
  tradePartner : Int := 0
  dealItemIndex : Fin 10 → Int := fun _ => 0
  dealItemAmount : Fin 10 → Int := fun _ => 0
  dealZeny : Int := 0
  dealLocked : Int := 0
  gmLevel : Int := 0
  npcId : Int := 0
  cartMaxWeight : Int := 0
  storageFlag : Bool := false

end Nezumi
