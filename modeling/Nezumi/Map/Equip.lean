import Nezumi.Lib.Run
import Nezumi.Lib.Occupancy
import Nezumi.Map.Pc

/-!
# Worn items (`map/pc.c`, `map/itemdb.h`)

What a player wears is kept twice: as the bits of `equip` of each item of the inventory, and as the
table `equip_index` of the items at the eleven places.

* `EquipSession` is the session data with the table, the looks that follow from it, and what the
  code asks of the player and of the map.
* `pcEquipitem`, `pcUnequipitem`, `pcDelitem`, `pcCheckitem` and `pcSetequipindex` are the functions
  that write either of them.
* The scripts of items and cards, the packets and the recalculation of the status are left out.
-/

namespace Nezumi

/-- `equip_pos` -/
def equipPos : Fin 11 → UInt16 :=
  ![0x0080, 0x0008, 0x0040, 0x0004, 0x0001, 0x0200, 0x0100, 0x0010, 0x0020, 0x0002, 0x8000]

/-- The bits of a position contain a place. -/
def HasPlace (equip : UInt16) (i : Fin 11) : Prop := equip &&& equipPos i ≠ 0

instance (equip : UInt16) : DecidablePred (HasPlace equip) := fun _ =>
  inferInstanceAs (Decidable (_ ≠ _))

/-- The fields of `struct item_data` that only worn items need. -/
structure EquipData where
  equip : UInt32 := 0
  look : Int := 0
  sex : Int := 2
  elv : Int := 0
  classBase : Vector UInt32 3 := Vector.replicate 3 0xff
  classUpper : UInt32 := 5
  noEquip : UInt32 := 0
  available : Bool := false

/-- What the player is, and the states that keep an item off or on. -/
structure Wearer where
  cls : Int := 0
  mapClass : UInt32 := 0
  sex : Int := 0
  baseLevel : Int := 1
  berserk : Bool := false
  bladestop : Bool := false
  stripweapon : Bool := false
  stripshield : Bool := false
  striparmor : Bool := false
  striphelm : Bool := false

/-- The item database, the map's flags and the configuration. -/
structure EquipWorld where
  db : ItemDb := fun _ => none
  data : Int → EquipData := fun _ => {}
  pvp : Bool := false
  gvg : Bool := false
  gmAllequip : Int := 0
  itemSexCheck : Bool := false
  itemCheck : Bool := false
  checkInvalidSlot : Bool := false

/-- What others see of the worn items. -/
structure Looks where
  weapontype1 : Int := 0
  weapontype2 : Int := 0
  weapon : Int := 0
  shield : Int := 0
  headBottom : Int := 0
  headMid : Int := 0
  headTop : Int := 0

structure EquipSession where
  sd : MapSessionData
  equipIndex : Fin 11 → Option (Fin maxInventory) := fun _ => none
  looks : Looks := {}
  wearer : Wearer := {}
  world : EquipWorld := {}

/-- `pc_calcweapontype` -/
def Looks.calcweapontype (l : Looks) : Looks :=
  { l with weapon :=
    if l.weapontype1 = 0 ∧ l.weapontype2 ≠ 0 then l.weapontype2
    else if l.weapontype1 = 1 ∧ l.weapontype2 = 1 then 0x11
    else if l.weapontype1 = 2 ∧ l.weapontype2 = 2 then 0x12
    else if l.weapontype1 = 6 ∧ l.weapontype2 = 6 then 0x13
    else if (l.weapontype1 = 1 ∧ l.weapontype2 = 2) ∨ (l.weapontype1 = 2 ∧ l.weapontype2 = 1) then
      0x14
    else if (l.weapontype1 = 1 ∧ l.weapontype2 = 6) ∨ (l.weapontype1 = 6 ∧ l.weapontype2 = 1) then
      0x15
    else if (l.weapontype1 = 2 ∧ l.weapontype2 = 6) ∨ (l.weapontype1 = 6 ∧ l.weapontype2 = 2) then
      0x16
    else l.weapontype1 }

/-- `MAPID_ASSASSIN` -/
def mapidAssassin : UInt32 := 0x106

/-- `AS_LEFT` -/
def asLeft : Nat := 133

/-- `pc_calc_base_job2` -/
def pcCalcBaseJob2 (cls : Int) : Int :=
  if cls < 4001 then cls
  else if cls < 4023 then cls - 4001
  else if cls = 4045 then 23
  else cls - 4023

/-- The branch of the class tree: `JOBL_2_1`, `JOBL_2_2` or neither. -/
def Wearer.branch (w : Wearer) : Fin 3 :=
  if w.mapClass &&& 0x100 ≠ 0 then 1 else if w.mapClass &&& 0x200 ≠ 0 then 2 else 0

/-- `JOBL_UPPER`, `JOBL_BABY` or neither. -/
def Wearer.upper (w : Wearer) : UInt32 :=
  if w.mapClass &&& 0x1000 ≠ 0 then 1 else if w.mapClass &&& 0x2000 ≠ 0 then 2 else 0

namespace EquipSession

variable (s : EquipSession) (n : Fin maxInventory)

/-- `sd->status.inventory[n].equip` -/
def equip : UInt16 := (s.sd.inventory n).equip

/-- The item at `n` as the database has it, if the slot points to it. -/
def data : Option EquipData := (s.sd.inventoryData n).map fun d => s.world.data d.nameid

/-- The item's look, `0` for a slot that points to nothing. -/
def look : Int := (s.data n).elim 0 EquipData.look

/-- The item's type. -/
def type : Option Int := (s.sd.inventoryData n).map ItemData.type

/-- The session with another `equip` of an item. -/
def setEquip (e : UInt16) : EquipSession :=
  { s with sd := { s.sd with
      inventory := Function.update s.sd.inventory n { s.sd.inventory n with equip := e } } }

/-- `pc_equippoint` -/
def pcEquippoint : UInt32 :=
  match s.data n with
  | none => 0
  | some d =>
    if (d.look = 1 ∨ d.look = 2 ∨ d.look = 6) ∧ d.equip = 2 ∧
        (0 < pcCheckskill s.sd asLeft ∨ s.wearer.mapClass &&& 0x0fff = mapidAssassin) then 34
    else d.equip

/-- `pc_isequip` -/
def pcIsequip : Bool :=
  if 0 < s.world.gmAllequip ∧ s.world.gmAllequip ≤ s.sd.gmLevel then true
  else
    match s.data n with
    | none => false
    | some d =>
      !(s.world.itemSexCheck && d.sex ≠ 2 && s.wearer.sex ≠ d.sex) &&
      !(0 < d.elv && s.wearer.baseLevel < d.elv) &&
      (1 <<< (s.wearer.mapClass &&& 0xff) &&& d.classBase[s.wearer.branch] ≠ 0) &&
      (1 <<< s.wearer.upper &&& d.classUpper ≠ 0) &&
      !(s.world.pvp && d.noEquip &&& 1 ≠ 0) &&
      !(s.world.gvg && d.noEquip &&& 2 ≠ 0) &&
      !(d.equip &&& 0x0002 ≠ 0 && s.wearer.stripweapon) &&
      !(d.equip &&& 0x0020 ≠ 0 && s.wearer.stripshield) &&
      !(d.equip &&& 0x0010 ≠ 0 && s.wearer.striparmor) &&
      !(d.equip &&& 0x0100 ≠ 0 && s.wearer.striphelm)

/-- `pc_checkequip`: who is at the first place of a position. -/
def pcCheckequip (pos : UInt16) : Option (Fin maxInventory) :=
  match (List.finRange 11).find? fun i => HasPlace pos i with
  | some i => s.equipIndex i
  | none => none

/-- `pc_search_inventory`, for what `pc_checkequip` answers. -/
def searchIndex (index : Option (Fin maxInventory)) : Option (Fin maxInventory) :=
  pcSearchInventory s.sd (index.elim (-1) fun k => k.val)

/-! ## Taking off -/

/-- The looks without an item. -/
def looksWithout (equip : UInt16) (l : Looks) : Looks :=
  let l := if equip &&& 0x0002 ≠ 0 then
    ({ l with weapontype1 := 0, weapon := l.weapontype2 } : Looks).calcweapontype else l
  let l := if equip &&& 0x0020 ≠ 0 then
    ({ l with shield := 0, weapontype2 := 0 } : Looks).calcweapontype else l
  let l := if equip &&& 0x0001 ≠ 0 then { l with headBottom := 0 } else l
  let l := if equip &&& 0x0100 ≠ 0 then { l with headTop := 0 } else l
  if equip &&& 0x0200 ≠ 0 then { l with headMid := 0 } else l

/-- What `pc_unequipitem` does to a worn item. -/
def takeOff : EquipSession :=
  { s.setEquip n 0 with
    equipIndex := Occupancy.release s.equipIndex (HasPlace (s.equip n))
    looks := looksWithout (s.equip n) s.looks }

/-- `pc_unequipitem` -/
def pcUnequipitem (flag : Nat) : EquipSession :=
  if flag < 2 ∧ (s.wearer.bladestop ∨ s.wearer.berserk) then s
  else if s.equip n ≠ 0 then s.takeOff n
  else s

/-! ## Putting on -/

/-- Where an item goes: an accessory and a weapon of a player with two hands go to the other place
when one is taken. -/
def equipPosition (pos : UInt32) : UInt32 :=
  let worn (i : Fin 11) : UInt16 := (s.equipIndex i).elim 0 s.equip
  let pos := if pos = 0x88 then
    if (worn 0 ||| worn 1) &&& 0x88 = 0x08 then 0x80 else 0x08 else pos
  if pos = 0x22 ∧ (s.data n).elim 0 EquipData.equip = 2 ∧
      (0 < pcCheckskill s.sd asLeft ∨ pcCalcBaseJob2 s.wearer.cls = 12) then
    if (worn 8 ||| worn 9) &&& 0x02 = 0x02 then 0x20 else 0x02
  else pos

/-- The item at a place is taken off if it is in the way. -/
def clearPlace (pos : UInt32) (s : EquipSession) (i : Fin 11) : EquipSession :=
  match s.equipIndex i with
  | some k => if (s.equip k).toUInt32 &&& pos ≠ 0 then s.pcUnequipitem k 2 else s
  | none => s

/-- The looks with an item. -/
def looksWith (look : Int) (type : Option Int) (equip : UInt16) (l : Looks) : Looks :=
  let l := if equip &&& 0x0002 ≠ 0 then
    ({ l with weapontype1 := look } : Looks).calcweapontype else l
  let l := if equip &&& 0x0020 ≠ 0 then
    (match type with
      | some 4 => { l with shield := 0, weapontype2 := if equip = 0x0020 then look else 0 }
      | some 5 => { l with shield := look, weapontype2 := 0 }
      | some _ => l
      | none => { l with shield := 0, weapontype2 := 0 } : Looks).calcweapontype
    else l
  let l := if equip &&& 0x0001 ≠ 0 then { l with headBottom := look } else l
  let l := if equip &&& 0x0100 ≠ 0 then { l with headTop := look } else l
  if equip &&& 0x0200 ≠ 0 then { l with headMid := look } else l

/-- An item is put on at a position. -/
def putOn (pos : UInt16) : EquipSession :=
  { s.setEquip n pos with
    equipIndex := Occupancy.occupy s.equipIndex n (HasPlace pos)
    looks := looksWith (s.look n) (s.type n) pos s.looks }

/-- The request is refused. -/
def refuses : Bool :=
  s.wearer.berserk || !s.pcIsequip n || s.pcEquippoint n = 0 || (s.sd.inventory n).attrib = 1

/-- `pc_equipitem`. The position that the client asks for is not read. -/
def pcEquipitem : EquipSession :=
  if s.refuses n then s
  else
    let pos := s.equipPosition n (s.pcEquippoint n)
    let arrow := s.searchIndex (s.pcCheckequip 9)
    let s := (List.finRange 11).foldl (clearPlace pos) s
    let s := s.putOn n pos.toUInt16
    match arrow with
    | some k =>
      if (s.world.data (s.sd.inventory n).nameid.toInt).look = 11 then s.setEquip k 32768 else s
    | none => s

/-! ## The inventory -/

/-- `pc_additem` -/
def pcAdditem (item : Item) (amount : Int) : EquipSession :=
  { s with sd := (Nezumi.pcAdditem s.world.db s.sd item amount).2 }

/-- `pc_delitem`: does nothing unless the slot holds the amount. -/
def pcDelitem (amount : Int) : EquipSession :=
  match s.sd.inventoryData n with
  | none => s
  | some data =>
    let slot := s.sd.inventory n
    if slot.nameid = 0 ∨ amount ≤ 0 ∨ slot.amount.toInt < amount then s
    else
      let left := slot.withAmount (slot.amount.toInt - amount)
      let s := { s with sd := { s.sd with
        inventory := Function.update s.sd.inventory n left
        weight := s.sd.weight - data.weight * amount } }
      if left.amount.toInt ≤ 0 then
        let s := if left.equip ≠ 0 then s.pcUnequipitem n 3 else s
        { s with sd := { s.sd with
          inventory := Function.update s.sd.inventory n Item.zero
          inventoryData := Function.update s.sd.inventoryData n none } }
      else s

/-- `pc_setequipindex` -/
def pcSetequipindex : EquipSession :=
  let worn := (List.finRange maxInventory).filter fun i =>
    0 < (s.sd.inventory i).nameid.toInt ∧ s.equip i ≠ 0
  { s with
    equipIndex :=
      worn.foldl (fun idx i => Occupancy.occupy idx i (HasPlace (s.equip i))) fun _ => none
    looks := (worn.foldl (fun l i =>
      let l := if s.equip i &&& 0x0002 ≠ 0 then { l with weapontype1 := s.look i } else l
      if s.equip i &&& 0x0020 ≠ 0 then
        { l with weapontype2 := if s.type i = some 4 ∧ s.equip i = 0x0020 then s.look i else 0 }
      else l) s.looks).calcweapontype }

/-! ## Checking -/

/-- One round of the compaction of a table: an item that stays moves to the next free place. -/
def compactStep {σ : Type} {m : Nat} (entry : σ → Fin m → Item) (illegal : Item → Bool)
    (delete : σ → Fin m → σ) (move : σ → Nat → Fin m → σ) (r : σ × Nat) (i : Fin m) : σ × Nat :=
  if (entry r.1 i).nameid = 0 then r
  else if illegal (entry r.1 i) then (delete r.1 i, r.2)
  else (if r.2 < i then move r.1 r.2 i else r.1, r.2 + 1)

/-- The item is not in the database, as far as that is checked. -/
def illegalItem (item : Item) : Bool :=
  s.world.itemCheck &&
    !((s.world.db item.nameid.toInt).isSome && (s.world.data item.nameid.toInt).available)

/-- The item at `i` is copied to `j`, with its database entry. -/
def copyItem (s : EquipSession) (j : Nat) (i : Fin maxInventory) : EquipSession :=
  { s with sd := { s.sd with
      inventory := fun k => if k.val = j then s.sd.inventory i else s.sd.inventory k
      inventoryData := fun k => if k.val = j then s.sd.inventoryData i else s.sd.inventoryData k } }

/-- The inventory without gaps and illegal items. -/
def compactInventory : EquipSession :=
  let r := (List.finRange maxInventory).foldl
    (compactStep (fun s => s.sd.inventory) s.illegalItem
      (fun s i => s.pcDelitem i (s.sd.inventory i).amount.toInt) copyItem) (s, 0)
  { r.1 with sd := { r.1.sd with
      inventory := fun k => if r.2 ≤ k then Item.zero else r.1.sd.inventory k
      inventoryData := fun k => if r.2 ≤ k then none else r.1.sd.inventoryData k } }

/-- The item at `i` of the cart is copied to `j`. -/
def copyCart (s : EquipSession) (j : Nat) (i : Fin maxCart) : EquipSession :=
  { s with sd := { s.sd with cart := fun k => if k.val = j then s.sd.cart i else s.sd.cart k } }

/-- The cart without gaps and illegal items. -/
def compactCart : EquipSession :=
  let r := (List.finRange maxCart).foldl
    (compactStep (fun s => s.sd.cart) s.illegalItem
      (fun s i => { s with sd := pcCartDelitem s.world.db s.sd i (s.sd.cart i).amount.toInt })
      copyCart) (s, 0)
  { r.1 with sd := { r.1.sd with
      cart := fun k => if r.2 ≤ k then Item.zero else r.1.sd.cart k } }

theorem cards_pos : 0 < 4 := by decide

/-- An item with something that is no card in a slot is deleted. -/
def checkCards (s : EquipSession) (i : Fin maxInventory) : EquipSession :=
  let item := s.sd.inventory i
  have hcard : 0 < 4 := cards_pos
  if item.nameid = 0 ∨ item.card[0] = 0x00ff ∨ item.card[0] = -256 ∨ item.card[0] = 0x00fe then s
  else if ∃ j : Fin 4, item.card[j] ≠ 0 ∧ (itemdbSearch s.world.db item.card[j].toInt).type ≠ 6 then
    s.pcDelitem i item.amount.toInt
  else s

/-- An item is not worn where it may not be, or on a map where it may not be. -/
def checkPosition (s : EquipSession) (i : Fin maxInventory) : EquipSession :=
  if (s.sd.inventory i).nameid = 0 then s
  else
    let s := if (s.equip i).toUInt32 &&& ~~~s.pcEquippoint i ≠ 0 then s.setEquip i 0 else s
    let noEquip := (s.data i).elim 0 EquipData.noEquip
    if s.equip i ≠ 0 ∧ s.world.pvp ∧ noEquip &&& 1 ≠ 0 then s.setEquip i 0
    else if s.equip i ≠ 0 ∧ s.world.gvg ∧ noEquip &&& 2 ≠ 0 then s.setEquip i 0
    else s

/-- `pc_checkitem` -/
def pcCheckitem : EquipSession :=
  let s := s.compactInventory.compactCart
  let s := if s.world.checkInvalidSlot then (List.finRange maxInventory).foldl checkCards s else s
  ((List.finRange maxInventory).foldl checkPosition s).pcSetequipindex

end EquipSession

/-! ## Runs -/

/-- What happens to a player's items. An item that is added is not worn. Between two events anything
about the player, the map and the database may change. -/
inductive EquipEvent where
  | equipitem (n : Fin maxInventory)
  | unequipitem (n : Fin maxInventory) (flag : Nat)
  | additem (item : { item : Item // item.equip = 0 }) (amount : Int)
  | delitem (n : Fin maxInventory) (amount : Int)
  | checkitem
  | change (skill : Nat → Skill) (wearer : Wearer) (world : EquipWorld) (gmLevel maxWeight : Int)

def EquipSession.step (s : EquipSession) : EquipEvent → EquipSession
  | .equipitem n => s.pcEquipitem n
  | .unequipitem n flag => s.pcUnequipitem n flag
  | .additem item amount => s.pcAdditem item amount
  | .delitem n amount => s.pcDelitem n amount
  | .checkitem => s.pcCheckitem
  | .change skill wearer world gmLevel maxWeight =>
    { s with
      sd := { s.sd with skill := skill, gmLevel := gmLevel, maxWeight := maxWeight }
      wearer := wearer
      world := world }

end Nezumi
