import Nezumi.Map.Trade

/-!
# Carts and storages (`map/storage.c`, `map/pc.c`, `map/clif.c`)

An account has a storage of `MAX_STORAGE` slots, a guild one of `MAX_GUILD_STORAGE`; `account2storage`
and `guild2storage` make an empty one where there is none. `storage_flag` says which of the two a
player has opened.

* `itemAdditem`: the insertion into a table of items that carts and storages share.
* `pcCartAdditem`, `storageAdditem`, `storageDelitem` and their guild variants are the functions of
  the same names, as are the moves from `pcPutitemtocart` to `storageGuildStoragegettocart`.
* `clifParsePutItemToCart` to `clifParseMoveFromKafraToCart`: what the packets of a client do.

The flags that say what has to be saved, and the packets to the client, are left out.
-/

namespace Nezumi

/-- `struct storage` and `struct guild_storage`. -/
structure Storage (n : Nat) where
  slots : Fin n → Item := fun _ => Item.zero
  storageAmount : Int := 0
  storageStatus : Nat := 0

/-- What the storage code reads of the configuration. -/
structure StorageConf where
  gmCanDropLv : Int := 0

/-- Everything that holds items. `guild` is what `guild_search` finds. -/
structure StorageWorld where
  players : Players
  storage : Int → Storage maxStorage := fun _ => {}
  guildStorage : Int → Storage maxGuildStorage := fun _ => {}
  guild : Int → Bool := fun _ => false

section Operations

variable {n : Nat} (conf : StorageConf) (db : ItemDb)

/-- `itemdb_isdropable`: not the wedding rings. -/
def itemdbIsdropable (nameid : Int) : Bool := !(nameid == 2634 || nameid == 2635)

/-- `pc_candrop`: `true` when the player cannot. -/
def pcCandrop (sd : MapSessionData) (itemId : Int) : Bool :=
  if sd.gmLevel > 0 ∧ sd.gmLevel < conf.gmCanDropLv then true
  else if sd.gmLevel = 0 ∧ (itemId = 2634 ∨ itemId = 2635) then true
  else !itemdbIsdropable itemId

/-- The table after an amount of an item is added, and whether it took a free slot. None if there is
no room. -/
def itemAdditem (t : Fin n → Item) (item : Item) (amount : Int) : Option ((Fin n → Item) × Bool) :=
  if item.nameid.toInt ≤ 0 ∨ amount ≤ 0 then none
  else
    match if itemdbIsequip2 (itemdbSearch db item.nameid.toInt) then none
        else Slots.first (sameItem item) t with
    | some i =>
      if (t i).amount.toInt + amount > maxAmount then none
      else some (Function.update t i ((t i).withAmount ((t i).amount.toInt + amount)), false)
    | none =>
      match Slots.first (fun it => it.nameid == 0) t with
      | some i => some (Function.update t i (item.withAmount amount), true)
      | none => none

/-- `pc_cart_additem` -/
def pcCartAdditem (sd : MapSessionData) (item : Item) (amount : Int) : Nat × MapSessionData :=
  let w := itemdbWeight db item.nameid.toInt * amount
  if w + sd.cartWeight > sd.cartMaxWeight then (1, sd)
  else
    match itemAdditem db sd.cart item amount with
    | none => (1, sd)
    | some (cart, fresh) =>
      (0, { sd with
        cart := cart
        cartNum := if fresh then sd.cartNum + 1 else sd.cartNum
        cartWeight := sd.cartWeight + w })

/-- The insertion of `storage_additem` and `guild_storage_additem`. -/
def storAdditem (stor : Storage n) (item : Item) (amount : Int) : Nat × Storage n :=
  match itemAdditem db stor.slots item amount with
  | none => (1, stor)
  | some (slots, fresh) =>
    (0, { stor with
      slots := slots
      storageAmount := if fresh then stor.storageAmount + 1 else stor.storageAmount })

/-- The removal of `storage_delitem` and `guild_storage_delitem`. -/
def storDelitem (stor : Storage n) (i : Fin n) (amount : Int) : Nat × Storage n :=
  let slot := stor.slots i
  if slot.nameid = 0 ∨ slot.amount.toInt < amount then (1, stor)
  else
    let left := slot.withAmount (slot.amount.toInt - amount)
    if left.amount.toInt = 0 then
      (0, { stor with
        slots := Function.update stor.slots i Item.zero
        storageAmount := stor.storageAmount - 1 })
    else (0, { stor with slots := Function.update stor.slots i left })

/-- `storage_additem` -/
def storageAdditem : Storage maxStorage → Item → Int → Nat × Storage maxStorage := storAdditem db

/-- `storage_delitem` -/
def storageDelitem : Storage maxStorage → Fin maxStorage → Int → Nat × Storage maxStorage :=
  storDelitem

/-- `guild_storage_additem` -/
def guildStorageAdditem : Storage maxGuildStorage → Item → Int → Nat × Storage maxGuildStorage :=
  storAdditem db

/-- `guild_storage_delitem` -/
def guildStorageDelitem :
    Storage maxGuildStorage → Fin maxGuildStorage → Int → Nat × Storage maxGuildStorage :=
  storDelitem

/-- A client's index, when it is one of the table. -/
def slotAt (n : Nat) (idx : Int) : Option (Fin n) :=
  if h : 0 ≤ idx ∧ idx < n then some ⟨idx.toNat, by omega⟩ else none

/-! ## Between inventory and cart -/

/-- `pc_putitemtocart` -/
def pcPutitemtocart (sd : MapSessionData) (idx amount : Int) : MapSessionData :=
  match slotAt maxInventory idx with
  | none => sd
  | some i =>
    let item := sd.inventory i
    if item.nameid = 0 ∨ item.amount.toInt < amount then sd
    else if pcCandrop conf sd item.nameid.toInt then sd
    else
      let r := pcCartAdditem db sd item amount
      if r.1 = 0 then pcDelitem r.2 i amount else r.2

/-- `pc_getitemfromcart` -/
def pcGetitemfromcart (sd : MapSessionData) (idx amount : Int) : MapSessionData :=
  match slotAt maxCart idx with
  | none => sd
  | some i =>
    let item := sd.cart i
    if item.nameid = 0 ∨ item.amount.toInt < amount then sd
    else
      let r := pcAdditem db sd item amount
      if r.1 = 0 then pcCartDelitem db r.2 i amount else r.2

/-! ## Into and out of a storage -/

/-- The storage is open and not too full. -/
def storTakes (n : Nat) (stor : Storage n) : Bool :=
  stor.storageAmount ≤ n && stor.storageStatus = 1

/-- The body of `storage_storageadd` and `storage_guild_storageadd`. The callers have checked the
index and the amount. -/
def storAdd (stor : Storage n) (sd : MapSessionData) (i : Fin maxInventory) (amount : Int) :
    Storage n × MapSessionData :=
  if storTakes n stor then
    let r := storAdditem db stor (sd.inventory i) amount
    if r.1 = 0 then (r.2, pcDelitem sd i amount) else (r.2, sd)
  else (stor, sd)

/-- The body of `storage_storageget` and `storage_guild_storageget`. The callers have checked the
index and that the amount is positive. -/
def storGet (stor : Storage n) (sd : MapSessionData) (i : Fin n) (amount : Int) :
    Storage n × MapSessionData :=
  if stor.storageStatus = 1 ∧ amount ≤ (stor.slots i).amount.toInt then
    let r := pcAdditem db sd (stor.slots i) amount
    if r.1 = 0 then ((storDelitem stor i amount).2, r.2) else (stor, r.2)
  else (stor, sd)

/-- The body of `storage_storageaddfromcart` and `storage_guild_storageaddfromcart`. -/
def storAddfromcart (stor : Storage n) (sd : MapSessionData) (idx amount : Int) :
    Storage n × MapSessionData :=
  if storTakes n stor then
    match slotAt maxCart idx with
    | none => (stor, sd)
    | some i =>
      if amount ≤ (sd.cart i).amount.toInt ∧ amount > 0 then
        let r := storAdditem db stor (sd.cart i) amount
        if r.1 = 0 then (r.2, pcCartDelitem db sd i amount) else (r.2, sd)
      else (stor, sd)
  else (stor, sd)

/-- The body of `storage_storagegettocart` and `storage_guild_storagegettocart`. -/
def storGettocart (stor : Storage n) (sd : MapSessionData) (idx amount : Int) :
    Storage n × MapSessionData :=
  if stor.storageStatus = 1 then
    match slotAt n idx with
    | none => (stor, sd)
    | some i =>
      if amount ≤ (stor.slots i).amount.toInt ∧ amount > 0 then
        let r := pcCartAdditem db sd (stor.slots i) amount
        if r.1 = 0 then ((storDelitem stor i amount).2, r.2) else (stor, r.2)
      else (stor, sd)
  else (stor, sd)

/-- A move between a player and its storage. -/
def withStorage (w : StorageWorld) (sd : MapSessionData)
    (f : Storage maxStorage → MapSessionData → Storage maxStorage × MapSessionData) :
    StorageWorld :=
  let r := f (w.storage sd.id) sd
  { w with players := w.players.set r.2, storage := Function.update w.storage sd.id r.1 }

/-- A move between a player and the storage of its guild, if there is a guild. -/
def withGuildStorage (w : StorageWorld) (sd : MapSessionData)
    (f : Storage maxGuildStorage → MapSessionData → Storage maxGuildStorage × MapSessionData) :
    StorageWorld :=
  if w.guild sd.guildId then
    let r := f (w.guildStorage sd.guildId) sd
    { w with
      players := w.players.set r.2
      guildStorage := Function.update w.guildStorage sd.guildId r.1 }
  else w

/-- `storage_storageadd` -/
def storageStorageadd (w : StorageWorld) (sd : MapSessionData) (i : Fin maxInventory)
    (amount : Int) : StorageWorld :=
  withStorage w sd fun stor sd => storAdd db stor sd i amount

/-- `storage_storageget` -/
def storageStorageget (w : StorageWorld) (sd : MapSessionData) (i : Fin maxStorage)
    (amount : Int) : StorageWorld :=
  withStorage w sd fun stor sd => storGet db stor sd i amount

/-- `storage_storageaddfromcart` -/
def storageStorageaddfromcart (w : StorageWorld) (sd : MapSessionData) (idx amount : Int) :
    StorageWorld :=
  withStorage w sd fun stor sd => storAddfromcart db stor sd idx amount

/-- `storage_storagegettocart` -/
def storageStoragegettocart (w : StorageWorld) (sd : MapSessionData) (idx amount : Int) :
    StorageWorld :=
  withStorage w sd fun stor sd => storGettocart db stor sd idx amount

/-- `storage_guild_storageadd` -/
def storageGuildStorageadd (w : StorageWorld) (sd : MapSessionData) (i : Fin maxInventory)
    (amount : Int) : StorageWorld :=
  withGuildStorage w sd fun stor sd => storAdd db stor sd i amount

/-- `storage_guild_storageget` -/
def storageGuildStorageget (w : StorageWorld) (sd : MapSessionData) (i : Fin maxGuildStorage)
    (amount : Int) : StorageWorld :=
  withGuildStorage w sd fun stor sd => storGet db stor sd i amount

/-- `storage_guild_storageaddfromcart` -/
def storageGuildStorageaddfromcart (w : StorageWorld) (sd : MapSessionData) (idx amount : Int) :
    StorageWorld :=
  withGuildStorage w sd fun stor sd => storAddfromcart db stor sd idx amount

/-- `storage_guild_storagegettocart` -/
def storageGuildStoragegettocart (w : StorageWorld) (sd : MapSessionData) (idx amount : Int) :
    StorageWorld :=
  withGuildStorage w sd fun stor sd => storGettocart db stor sd idx amount

/-! ## The packets -/

/-- The index of a packet, from `base` on, as a `short`. -/
def packetIndex (word : UInt16) (base : Int) : Int := (Int16.ofInt (word.toNat - base)).toInt

/-- The player talks to an NPC or has a shop of its own. -/
def busy (sd : MapSessionData) : Bool := sd.npcId ≠ 0 || sd.venderId ≠ 0

/-- `clif_parse_PutItemToCart` -/
def clifParsePutItemToCart (w : StorageWorld) (sd : MapSessionData) (index : UInt16)
    (amount : Int32) : StorageWorld :=
  if busy sd then w
  else
    { w with
      players := w.players.set (pcPutitemtocart conf db sd (packetIndex index 2) amount.toInt) }

/-- `clif_parse_GetItemFromCart` -/
def clifParseGetItemFromCart (w : StorageWorld) (sd : MapSessionData) (index : UInt16)
    (amount : Int32) : StorageWorld :=
  if busy sd then w
  else
    { w with players := w.players.set (pcGetitemfromcart db sd (packetIndex index 2) amount.toInt) }

/-- `clif_parse_MoveToKafra`. The packet version says where the index and the amount stand. -/
def clifParseMoveToKafra (w : StorageWorld) (sd : MapSessionData) (index : UInt16)
    (amount : Int32) : StorageWorld :=
  if busy sd then w
  else
    match slotAt maxInventory (packetIndex index 2) with
    | none => w
    | some i =>
      if amount.toInt ≤ 0 ∨ amount.toInt > (sd.inventory i).amount.toInt then w
      else if !itemdbIsdropable (sd.inventory i).nameid.toInt then w
      else if sd.storageFlag then storageGuildStorageadd db w sd i amount.toInt
      else storageStorageadd db w sd i amount.toInt

/-- `clif_parse_MoveFromKafra` -/
def clifParseMoveFromKafra (w : StorageWorld) (sd : MapSessionData) (index : UInt16)
    (amount : Int32) : StorageWorld :=
  if busy sd then w
  else if sd.storageFlag then
    match slotAt maxGuildStorage (packetIndex index 1) with
    | none => w
    | some i => if amount.toInt ≤ 0 then w else storageGuildStorageget db w sd i amount.toInt
  else
    match slotAt maxStorage (packetIndex index 1) with
    | none => w
    | some i => if amount.toInt ≤ 0 then w else storageStorageget db w sd i amount.toInt

/-- `clif_parse_MoveToKafraFromCart` -/
def clifParseMoveToKafraFromCart (w : StorageWorld) (sd : MapSessionData) (index : UInt16)
    (amount : Int32) : StorageWorld :=
  if busy sd || sd.tradePartner ≠ 0 then w
  else if sd.storageFlag then
    storageGuildStorageaddfromcart db w sd (packetIndex index 2) amount.toInt
  else storageStorageaddfromcart db w sd (packetIndex index 2) amount.toInt

/-- `clif_parse_MoveFromKafraToCart` -/
def clifParseMoveFromKafraToCart (w : StorageWorld) (sd : MapSessionData) (index : UInt16)
    (amount : Int32) : StorageWorld :=
  if busy sd then w
  else if sd.storageFlag then
    storageGuildStoragegettocart db w sd (packetIndex index 1) amount.toInt
  else storageStoragegettocart db w sd (packetIndex index 1) amount.toInt

end Operations

end Nezumi
