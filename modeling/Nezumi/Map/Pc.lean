import Nezumi.Map.Item

/-!
# Inventory, cart and zeny operations (`map/pc.c`)

The functions return the new session data; packets to the client are left out. The status
recalculation and the item scripts that `pc_unequipitem` runs (the ones in `db/` only heal or end
a status) do not touch what is modelled here.
-/

namespace Nezumi

/-- The result of `pc_checkadditem`. -/
inductive Additem where
  | exist
  | new
  | overamount
  deriving DecidableEq, Repr

/-- `pc_checkskill` for skills below 10000. -/
def pcCheckskill (sd : MapSessionData) (skillId : Nat) : Nat :=
  if (sd.skill skillId).id = skillId then (sd.skill skillId).lv else 0

/-- `pc_checkadditem`: looks at the first slot with the item's id. -/
def pcCheckadditem (db : ItemDb) (sd : MapSessionData) (nameid amount : Int) : Additem :=
  if itemdbIsequip db nameid then .new
  else
    match Slots.first (fun it => it.nameid.toInt == nameid) sd.inventory with
    | some i =>
      if (sd.inventory i).amount.toInt + amount > maxAmount then .overamount else .exist
    | none => if amount > maxAmount then .overamount else .new

/-- `pc_inventoryblank`. -/
def pcInventoryblank (sd : MapSessionData) : Nat :=
  Slots.card (fun it => it.nameid == 0) sd.inventory

/-- `pc_payzeny`: `1` when the player cannot pay. -/
def pcPayzeny (sd : MapSessionData) (zeny : Int) : Nat × MapSessionData :=
  if sd.zeny < zeny ∨ sd.zeny - zeny > maxZeny then (1, sd)
  else (0, { sd with zeny := sd.zeny - zeny })

/-- `pc_getzeny`: what passes `MAX_ZENY` is lost. -/
def pcGetzeny (sd : MapSessionData) (zeny : Int) : MapSessionData :=
  if sd.zeny + zeny > maxZeny then { sd with zeny := maxZeny }
  else { sd with zeny := sd.zeny + zeny }

/-- `pc_search_inventory`. -/
def pcSearchInventory (sd : MapSessionData) (itemId : Int) : Option (Fin maxInventory) :=
  Slots.first (fun it => it.nameid.toInt == itemId && (it.amount.toInt > 0 || itemId == 0))
    sd.inventory

/-- The stacking test of `pc_additem`. -/
def sameItem (item slot : Item) : Bool :=
  slot.nameid == item.nameid && slot.identify == item.identify && slot.refine == item.refine &&
    slot.attrib == item.attrib && slot.card == item.card

/-- `pc_additem`: `0` when the item was added, otherwise why it was not (`1` bad item or amount,
`2` too heavy, `4` no free slot, `5` the stack is full). -/
def pcAdditem (db : ItemDb) (sd : MapSessionData) (item : Item) (amount : Int) :
    Nat × MapSessionData :=
  if item.nameid.toInt ≤ 0 ∨ amount ≤ 0 then (1, sd)
  else
    let data := itemdbSearch db item.nameid.toInt
    let w := data.weight * amount
    if w + sd.weight > sd.maxWeight then (2, sd)
    else
      match if itemdbIsequip2 data then none else Slots.first (sameItem item) sd.inventory with
      | some i =>
        let slot := sd.inventory i
        if slot.amount.toInt + amount > maxAmount then (5, sd)
        else
          (0, { sd with
            inventory := Function.update sd.inventory i
              (slot.withAmount (slot.amount.toInt + amount))
            weight := sd.weight + w })
      | none =>
        match pcSearchInventory sd 0 with
        | some i =>
          (0, { sd with
            inventory := Function.update sd.inventory i (item.withAmount amount)
            inventoryData := Function.update sd.inventoryData i (some data)
            weight := sd.weight + w })
        | none => (4, sd)

/-- `pc_unequipitem`, its effect on the slot. -/
def pcUnequipitem (sd : MapSessionData) (n : Fin maxInventory) : MapSessionData :=
  { sd with inventory := Function.update sd.inventory n { sd.inventory n with equip := 0 } }

/-- `pc_delitem`: does nothing unless the slot holds the amount. -/
def pcDelitem (sd : MapSessionData) (n : Fin maxInventory) (amount : Int) : MapSessionData :=
  match sd.inventoryData n with
  | none => sd
  | some data =>
    let slot := sd.inventory n
    if slot.nameid = 0 ∨ amount ≤ 0 ∨ slot.amount.toInt < amount then sd
    else
      let left := slot.withAmount (slot.amount.toInt - amount)
      let sd := { sd with
        inventory := Function.update sd.inventory n left
        weight := sd.weight - data.weight * amount }
      if left.amount.toInt ≤ 0 then
        let sd := if left.equip ≠ 0 then pcUnequipitem sd n else sd
        { sd with
          inventory := Function.update sd.inventory n Item.zero
          inventoryData := Function.update sd.inventoryData n none }
      else sd

/-- `pc_cart_delitem`: does nothing unless the slot holds the amount. -/
def pcCartDelitem (db : ItemDb) (sd : MapSessionData) (n : Fin maxCart) (amount : Int) :
    MapSessionData :=
  let slot := sd.cart n
  if slot.nameid = 0 ∨ slot.amount.toInt < amount then sd
  else
    let left := slot.withAmount (slot.amount.toInt - amount)
    let sd := { sd with
      cart := Function.update sd.cart n left
      cartWeight := sd.cartWeight - itemdbWeight db slot.nameid.toInt * amount }
    if left.amount.toInt ≤ 0 then
      { sd with cart := Function.update sd.cart n Item.zero, cartNum := sd.cartNum - 1 }
    else sd

end Nezumi
