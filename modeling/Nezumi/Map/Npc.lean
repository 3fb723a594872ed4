import Nezumi.Map.Pc

/-!
# Buying from and selling to an NPC shop (`map/npc.c`)

Both functions check a list line by line and then execute it in a second pass. A refused list
returns the error code of the reply packet and the session data as it was.

The `double` sums are exact integers here: no product or sum reaches `2^53`. Merchant experience,
the pet database and the messages to game masters are left out.
-/

namespace Nezumi

def mcDiscount : Nat := 37
def mcOvercharge : Nat := 38
def rgCompulsion : Nat := 224

/-- `struct npc_item_list`: what a shop sells, and for how much. -/
structure NpcItem where
  nameid : Int
  value : Int
  deriving DecidableEq, Repr

/-- `bl.subtype` of an npc. -/
inductive NpcSubtype where
  | warp
  | shop
  | script
  | mons
  deriving DecidableEq, Repr

/-- `struct npc_data`. `shopItem` is the array up to its closing entry. -/
structure NpcData where
  subtype : NpcSubtype
  npcClass : Int := 0
  m : Int := 0
  x : Int := 0
  y : Int := 0
  shopItem : List NpcItem := []
  deriving DecidableEq, Repr

/-- What the shop functions read beside the player: the configured view distance and the npcs. -/
structure NpcWorld where
  areaSize : Int := 14
  /-- `map_id2bl`, for blocks of type `BL_NPC`. -/
  mapId2nd : Int → Option NpcData

/-- `npc_checknear` for an npc that exists: `true` when the player is too far away. -/
def npcChecknear (world : NpcWorld) (sd : MapSessionData) (nd : NpcData) : Bool :=
  if nd.npcClass < 0 then false
  else
    nd.m ≠ sd.m || nd.x < sd.x - world.areaSize - 1 || nd.x > sd.x + world.areaSize + 1 ||
      nd.y < sd.y - world.areaSize - 1 || nd.y > sd.y + world.areaSize + 1

/-- The npc a shop packet is about, once it passed the checks both functions start with. -/
def npcShop (world : NpcWorld) (sd : MapSessionData) : Option NpcData :=
  match world.mapId2nd sd.npcShopid with
  | none => none
  | some nd =>
    if npcChecknear world sd nd then none
    else if nd.subtype ≠ .shop then none
    else some nd

/-- `pc_modifybuyvalue`. -/
def pcModifybuyvalue (sd : MapSessionData) (origValue : Int) : Int :=
  let skill := pcCheckskill sd mcDiscount
  let rate1 : Int := if skill > 0 then 5 + skill * 2 - (if skill = 10 then 1 else 0) else 0
  let skill := pcCheckskill sd rgCompulsion
  let rate2 : Int := if skill > 0 then 5 + skill * 4 else 0
  let rate1 := if rate1 < rate2 then rate2 else rate1
  let val := if rate1 ≠ 0 then (origValue * (100 - rate1)).tdiv 100 else origValue
  let val := if val < 0 then 0 else val
  if origValue > 0 ∧ val < 1 then 1 else val

/-- `pc_modifysellvalue`. -/
def pcModifysellvalue (sd : MapSessionData) (origValue : Int) : Int :=
  let skill := pcCheckskill sd mcOvercharge
  let rate : Int := if skill > 0 then 5 + skill * 2 - (if skill = 10 then 1 else 0) else 0
  let val := if rate ≠ 0 then (origValue * (100 + rate)).tdiv 100 else origValue
  let val := if val < 0 then 0 else val
  if origValue > 0 ∧ val < 1 then 1 else val

/-! ## Buying -/

/-- A line of a purchase list (`0x00c8`). -/
structure BuyLine where
  amount : UInt16
  nameid : UInt16
  deriving DecidableEq, Repr

/-- The entry of a shop for an item id. -/
def shopSearch (shopItem : List NpcItem) (nameid : Int) : Option NpcItem :=
  shopItem.find? fun entry => entry.nameid = nameid

/-- The price of one unit: some items are sold without the discount. -/
def buyPrice (db : ItemDb) (sd : MapSessionData) (entry : NpcItem) : Int :=
  if (itemdbSearch db entry.nameid).valueNotdc then entry.value
  else pcModifybuyvalue sd entry.value

/-- The checking pass of `npc_buylist`: the total and the number of new stacks, or the error. -/
def npcBuylistCheck (db : ItemDb) (sd : MapSessionData) (shopItem : List NpcItem) :
    Int → Int → Nat → List BuyLine → Except Nat (Int × Nat)
  | z, _, new, [] => .ok (z, new)
  | z, w, new, l :: ls =>
    let amount : Int := l.amount.toNat
    let nameid : Int := l.nameid.toNat
    if amount ≤ 0 then .error 3
    else if nameid ≤ 0 then .error 3
    else
      match shopSearch shopItem nameid with
      | none => .error 3
      | some entry =>
        if itemdbIsequip3 db entry.nameid ∧ amount > 1 then .error 3
        else
          let z := z + buyPrice db sd entry * amount
          if z < 0 ∨ z > sd.zeny then .error 1
          else if pcCheckadditem db sd nameid amount = .overamount then .error 2
          else
            let new := if pcCheckadditem db sd nameid amount = .new then new + 1 else new
            let w := w + itemdbWeight db nameid * amount
            if w + sd.weight > sd.maxWeight then .error 2
            else npcBuylistCheck db sd shopItem z w new ls

/-- The item a shop hands out: identified, its id stored as a `short`. -/
def npcItem (l : BuyLine) : Item := { nameid := Int16.ofInt l.nameid.toNat, identify := true }

/-- `npc_buylist`. -/
def npcBuylist (world : NpcWorld) (db : ItemDb) (sd : MapSessionData) (itemList : List BuyLine) :
    Nat × MapSessionData :=
  match npcShop world sd with
  | none => (3, sd)
  | some nd =>
    match npcBuylistCheck db sd nd.shopItem 0 0 0 itemList with
    | .error fail => (fail, sd)
    | .ok (z, new) =>
      if pcInventoryblank sd < new then (3, sd)
      else
        (0, itemList.foldl (fun sd l => (pcAdditem db sd (npcItem l) l.amount.toNat).2)
          (pcPayzeny sd z).2)

/-! ## Selling -/

/-- A line of a sale list (`0x00c9`). The client's indexes start at 2. -/
structure SellLine where
  index : UInt16
  amount : UInt16
  deriving DecidableEq, Repr

/-- The inventory slot of a line, if there is one. -/
def SellLine.idx (l : SellLine) : Option (Fin maxInventory) :=
  if h : 2 ≤ l.index.toNat ∧ l.index.toNat - 2 < maxInventory then some ⟨l.index.toNat - 2, h.2⟩
  else none

/-- The price a shop pays for one unit: some items are bought without the overcharge. -/
def sellPrice (db : ItemDb) (sd : MapSessionData) (nameid : Int) : Int :=
  let data := itemdbSearch db nameid
  if data.valueNotoc then data.valueSell else pcModifysellvalue sd data.valueSell

/-- The checking pass of `npc_selllist`, over a copy of the inventory: the total, or the error. -/
def npcSelllistCheck (db : ItemDb) (sd : MapSessionData) :
    Inventory → Int → List SellLine → Except Nat Int
  | _, z, [] => .ok z
  | inventory, z, l :: ls =>
    match l.idx with
    | none => .error 1
    | some idx =>
      let amount : Int := l.amount.toNat
      if amount ≤ 0 ∨ (inventory idx).amount.toInt < amount then .error 1
      else
        let inventory := Function.update inventory idx
          ((inventory idx).withAmount ((inventory idx).amount.toInt - amount))
        let nameid := (inventory idx).nameid.toInt
        if nameid ≤ 0 then .error 1
        else
          let z := z + sellPrice db sd nameid * amount
          if z < 0 then .error 1
          else if z > maxZeny - sd.zeny then .error 1
          else npcSelllistCheck db sd inventory z ls

/-- `npc_selllist`. -/
def npcSelllist (world : NpcWorld) (db : ItemDb) (sd : MapSessionData) (itemList : List SellLine) :
    Nat × MapSessionData :=
  match npcShop world sd with
  | none => (1, sd)
  | some _ =>
    match npcSelllistCheck db sd sd.inventory 0 itemList with
    | .error fail => (fail, sd)
    | .ok z =>
      (0, itemList.foldl (fun sd l => l.idx.elim sd fun idx => pcDelitem sd idx l.amount.toNat)
        (pcGetzeny sd z))

/-- `clif_parse_NpcSellListSend`: the reply code, when there is a reply. -/
def clifParseNpcSellListSend (world : NpcWorld) (db : ItemDb) (sd : MapSessionData)
    (itemList : List SellLine) : Option Nat × MapSessionData :=
  if itemList.length ≤ 0 ∨ itemList.length > maxInventory then (none, sd)
  else
    let (fail, sd) := npcSelllist world db sd itemList
    (some fail, sd)

end Nezumi
