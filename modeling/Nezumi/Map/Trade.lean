import Nezumi.Map.Pc

/-!
# Trading between two players (`map/trade.c`)

The players are a map from account ids to session data, as `map_id2sd` sees it. A trade is a pair
of players that name each other as `trade_partner`; each offers up to ten lines of its inventory,
by client index (which starts at 2) and amount, and some zeny. When both have pressed `ok` and
`trade`, `trade_tradecommit` checks the offers and exchanges them.

Logs, packets, saves and the messages to game masters are left out.
-/

namespace Nezumi

/-- The players, by account id. -/
abbrev Players := Int → Option MapSessionData

def Players.set (w : Players) (sd : MapSessionData) : Players := Function.update w sd.id (some sd)

/-- What the trade code reads of the configuration and the maps. -/
structure TradeConf where
  inviteRequestCheck : Bool := false
  gvg : Int → Bool := fun _ => false

/-- The inventory slot a line of an offer designates. The trade code uses an index only after it
was checked, or with an amount that was stored together with it. -/
def dealSlot (index : Int) : Option (Fin maxInventory) :=
  if h : 2 ≤ index ∧ index - 2 < maxInventory then some ⟨(index - 2).toNat, by omega⟩ else none

/-- A line of an offer: the slot and the amount, if it is used. -/
def dealLine (sd : MapSessionData) (k : Fin 10) : Option (Fin maxInventory × Int) :=
  if sd.dealItemAmount k > 0 then
    (dealSlot (sd.dealItemIndex k)).map fun n => (n, sd.dealItemAmount k)
  else none

/-- `impossible_trade_check`: `true` when a line is negative or the lines offer more of a slot
than it holds. -/
def impossibleTradeCheck (sd : MapSessionData) : Bool :=
  go sd.inventory (List.finRange 10)
where
  go (inventory : Inventory) : List (Fin 10) → Bool
    | [] => false
    | i :: is =>
      if sd.dealItemAmount i < 0 then true
      else
        match dealLine sd i with
        | none => go inventory is
        | some (idx, amount) =>
          let left := (inventory idx).withAmount ((inventory idx).amount.toInt - amount)
          if left.amount.toInt < 0 then true else go (Function.update inventory idx left) is

/-- The stacking test of `trade_check`. -/
def sameNameidCards (item slot : Item) : Bool :=
  slot.nameid == item.nameid && slot.card == item.card

/-- One line of `trade_check`, from one inventory to the other, with a stacking test as a
parameter: the inventories after it, unless the other one has no room. -/
def tradeCheckLine (same : Item → Item → Bool) (db : ItemDb) (inventory inventory2 : Inventory)
    (line : Option (Fin maxInventory × Int)) : Option (Inventory × Inventory) :=
  match line with
  | none => some (inventory, inventory2)
  | some (n, amount) =>
    let item := inventory n
    let amount := if amount > item.amount.toInt then item.amount.toInt else amount
    if amount > 0 then
      let left := item.withAmount (item.amount.toInt - amount)
      let left := if left.amount.toInt ≤ 0 then Item.zero else left
      let data := itemdbSearch db item.nameid.toInt
      match if itemdbIsequip2 data then none else Slots.first (same item) inventory2 with
      | some i =>
        let slot := inventory2 i
        if slot.amount.toInt + amount > maxAmount then none
        else
          some (Function.update inventory n left,
            Function.update inventory2 i (slot.withAmount (slot.amount.toInt + amount)))
      | none =>
        match Slots.first (fun it => it.nameid == 0) inventory2 with
        | some i =>
          some (Function.update inventory n left,
            Function.update inventory2 i (item.withAmount amount))
        | none => none
    else some (inventory, inventory2)

/-- `trade_check` with a stacking test as a parameter: both inventories after the exchange, line by
line in turns, when there is room for every line. -/
def tradeCheckBy (same : Item → Item → Bool) (db : ItemDb) (sd targetSd : MapSessionData) :
    Inventory → Inventory → List (Fin 10) → Option (Inventory × Inventory)
  | inventory, inventory2, [] => some (inventory, inventory2)
  | inventory, inventory2, k :: ks =>
    (tradeCheckLine same db inventory inventory2 (dealLine sd k)).bind fun p =>
      (tradeCheckLine same db p.2 p.1 (dealLine targetSd k)).bind fun q =>
        tradeCheckBy same db sd targetSd q.2 q.1 ks

/-- `trade_check`. -/
def tradeCheck (db : ItemDb) (sd targetSd : MapSessionData) : Bool :=
  (tradeCheckBy sameNameidCards db sd targetSd sd.inventory targetSd.inventory
    (List.finRange 10)).isSome

/-- `trade_restrictions`: the loop over the lines runs while its counter is `10`, so never. -/
def tradeRestrictions (_sd : MapSessionData) : Bool := false

/-- The end of a trade for one player: the offer, the lock and the partner are cleared. -/
def clearDeal (sd : MapSessionData) : MapSessionData :=
  { sd with
    dealItemIndex := fun k => if sd.dealItemAmount k ≠ 0 then 0 else sd.dealItemIndex k
    dealItemAmount := fun _ => 0
    dealZeny := 0
    dealLocked := 0
    tradePartner := 0 }

/-- `trade_tradecancel`. -/
def tradeTradecancel (w : Players) (sd : MapSessionData) : Players :=
  match w sd.tradePartner with
  | none => w
  | some targetSd => (w.set (clearDeal sd)).set (clearDeal targetSd)

/-- `trade_traderequest`. -/
def tradeTraderequest (conf : TradeConf) (w : Players) (sd : MapSessionData) (targetId : Int)
    (nearCheck : Bool) : Players :=
  match w targetId with
  | none => w
  | some targetSd =>
    if !conf.inviteRequestCheck && (targetSd.guildInvite > 0 || targetSd.partyInvite > 0 ||
        sd.guildInvite > 0 || sd.partyInvite > 0) then w
    else if targetSd.tradePartner ≠ 0 then w
    else if sd.tradePartner ≠ 0 then tradeTradecancel w sd
    else if nearCheck && (sd.m ≠ targetSd.m || sd.x - targetSd.x ≤ -5 || sd.x - targetSd.x ≥ 5 ||
        sd.y - targetSd.y ≤ -5 || sd.y - targetSd.y ≥ 5) then w
    else if conf.gvg sd.m && sd.guildId ≠ targetSd.guildId then w
    else if sd.id = targetSd.id then w
    else
      (w.set { targetSd with tradePartner := sd.id }).set { sd with tradePartner := targetSd.id }

/-- `trade_tradeack`. -/
def tradeTradeack (w : Players) (sd : MapSessionData) (type : Nat) : Players :=
  if type ≠ 3 ∧ type ≠ 4 then w
  else
    match w sd.tradePartner with
    | none => w
    | some targetSd =>
      if type = 4 then
        (w.set { sd with dealLocked := 0, tradePartner := 0 }).set
          { targetSd with dealLocked := 0, tradePartner := 0 }
      else w

/-- What a slot weighs in an offer. An offered slot has an entry in `inventory_data`. -/
def dealWeight (sd : MapSessionData) (index amount : Int) : Int :=
  (((dealSlot index).bind sd.inventoryData).elim 0 ItemData.weight) * amount

/-- `trade_tradeadditem`. Index `0` offers zeny; an item goes into the first unused line. -/
def tradeTradeadditem (w : Players) (sd : MapSessionData) (idx amount : Int) : Players :=
  match w sd.tradePartner with
  | none => w
  | some targetSd =>
    if sd.dealLocked ≥ 1 then w
    else
      match dealSlot idx with
      | none =>
        if idx = 0 then
          if amount > 0 ∧ amount ≤ maxZeny ∧ amount ≤ sd.zeny ∧
              targetSd.zeny + amount ≤ maxZeny then
            w.set { sd with dealZeny := amount }
          else if amount ≠ 0 then tradeTradecancel w sd
          else w
        else w
      | some n =>
        if amount > 0 ∧ amount ≤ (sd.inventory n).amount.toInt then
          match (List.finRange 10).find? fun k => sd.dealItemAmount k = 0 with
          | none => w
          | some k =>
            let tradeWeight :=
              (((List.finRange 10).filter (· < k)).map fun j =>
                dealWeight sd (sd.dealItemIndex j) (sd.dealItemAmount j)).sum +
              dealWeight sd idx amount
            if targetSd.weight + tradeWeight > targetSd.maxWeight then w
            -- The loop against repeated indexes runs for the second line only.
            else if k.val = 1 ∧ sd.dealItemIndex 0 = idx then tradeTradecancel w sd
            else
              let sd := { sd with
                dealItemIndex := Function.update sd.dealItemIndex k idx
                dealItemAmount := Function.update sd.dealItemAmount k amount }
              if impossibleTradeCheck sd then tradeTradecancel w sd
              else w.set sd
        else w

/-- `trade_tradeok`. -/
def tradeTradeok (w : Players) (sd : MapSessionData) : Players :=
  if ∃ k, (∃ n, dealSlot (sd.dealItemIndex k) = some n ∧
      sd.dealItemAmount k > (sd.inventory n).amount.toInt) ∨ sd.dealItemAmount k < 0 then
    tradeTradecancel w sd
  else if impossibleTradeCheck sd then tradeTradecancel w sd
  else if sd.dealZeny < 0 ∨ sd.dealZeny > maxZeny ∨ sd.dealZeny > sd.zeny then tradeTradecancel w sd
  else
    match w sd.tradePartner with
    | none => w
    | some _ => w.set { sd with dealLocked := 1 }

/-- One line of the transfer, from `p.1` to `p.2`. -/
def tradeGive (db : ItemDb) (p : MapSessionData × MapSessionData) (k : Fin 10) :
    MapSessionData × MapSessionData :=
  let (sd, targetSd) := p
  match dealLine sd k with
  | none => (sd, targetSd)
  | some (n, amount) =>
    let amount := if (sd.inventory n).amount.toInt < amount then (sd.inventory n).amount.toInt
      else amount
    if amount > 0 then
      let r := pcAdditem db targetSd (sd.inventory n) amount
      let sd := if r.1 = 0 then pcDelitem sd n amount else sd
      ({ sd with
          dealItemIndex := Function.update sd.dealItemIndex k 0
          dealItemAmount := Function.update sd.dealItemAmount k 0 }, r.2)
    else ({ sd with dealItemAmount := Function.update sd.dealItemAmount k amount }, targetSd)

/-- A line of the transfer both ways: `sd` gives first. -/
def tradeGiveBoth (db : ItemDb) (p : MapSessionData × MapSessionData) (k : Fin 10) :
    MapSessionData × MapSessionData :=
  (tradeGive db (tradeGive db p k).swap k).swap

/-- The transfer phase of `trade_tradecommit`: the items, the zeny, and the end of the trade. -/
def tradeTransfer (db : ItemDb) (sd targetSd : MapSessionData) : MapSessionData × MapSessionData :=
  let p := (List.finRange 10).foldl (tradeGiveBoth db) (sd, targetSd)
  ({ p.1 with
      zeny := p.1.zeny - p.1.dealZeny + p.2.dealZeny
      dealZeny := 0
      dealLocked := 0
      tradePartner := 0 },
    { p.2 with
      zeny := p.2.zeny + p.1.dealZeny - p.2.dealZeny
      dealZeny := 0
      dealLocked := 0
      tradePartner := 0 })

/-- The zeny checks of `trade_tradecommit`. -/
def tradeZenyOk (sd targetSd : MapSessionData) : Bool :=
  sd.dealZeny ≥ 0 && sd.dealZeny ≤ maxZeny && sd.dealZeny ≤ sd.zeny &&
    targetSd.zeny + sd.dealZeny ≤ maxZeny && targetSd.dealZeny ≥ 0 &&
    targetSd.dealZeny ≤ maxZeny && targetSd.dealZeny ≤ targetSd.zeny &&
    sd.zeny + targetSd.dealZeny ≤ maxZeny

/-- `trade_tradecommit`. -/
def tradeTradecommit (db : ItemDb) (w : Players) (sd : MapSessionData) : Players :=
  match w sd.tradePartner with
  | none => w
  | some targetSd =>
    if sd.dealLocked > 0 ∧ targetSd.dealLocked > 0 then
      let sd := { sd with dealLocked := 2 }
      let w := w.set sd
      if targetSd.dealLocked = 2 then
        if impossibleTradeCheck sd then tradeTradecancel w sd
        else if tradeRestrictions sd then tradeTradecancel w sd
        else if impossibleTradeCheck targetSd then tradeTradecancel w targetSd
        else if tradeZenyOk sd targetSd then
          if !tradeCheck db sd targetSd then tradeTradecancel w sd
          else
            let p := tradeTransfer db sd targetSd
            (w.set p.1).set p.2
        else tradeTradecancel w sd
      else w
    else w

end Nezumi
