import Nezumi.Map.Pc

/-!
# Buying from a player's shop (`map/vending.c`)

A request is a list of amounts and cart indexes. It is checked against a copy of the shop's
offers, whose amounts are used up line by line, and then executed: the buyer pays, gets each line
from the vendor's cart, and the offers and the cart shrink. The log and the packets are left out.
-/

namespace Nezumi

/-- A line of a purchase request (`0x0134`). The client's indexes start at 2. -/
structure VendLine where
  amount : UInt16
  index : Int16
  deriving DecidableEq, Repr

/-- The cart slot of a line, if there is one. -/
def VendLine.idx (l : VendLine) : Option (Fin maxCart) :=
  if h : 2 ≤ l.index.toInt ∧ l.index.toInt - 2 < maxCart then
    some ⟨(l.index.toInt - 2).toNat, by omega⟩
  else none

/-- The offer for a cart slot: the first one among the offers that are set. -/
def vendSearch (vsd : MapSessionData) (idx : Fin maxCart) : Option (Fin maxVending) :=
  (List.finRange maxVending).find? fun j =>
    j.val < vsd.vendNum.val && (vsd.vending j).index.toInt == idx.val

/-- A line once its cart slot and its offer are found. -/
structure VendSale where
  idx : Fin maxCart
  offer : Fin maxVending
  amount : Int
  deriving DecidableEq, Repr

def VendLine.sale (vsd : MapSessionData) (l : VendLine) : Option VendSale :=
  match l.idx with
  | none => none
  | some idx =>
    match vendSearch vsd idx with
    | none => none
    | some j => some { idx := idx, offer := j, amount := l.amount.toNat }

/-- The checking loop of `vending_purchasereq`: the total and the lines with their offers, when
every line passes. `vending` is the copy of the offers. -/
def vendingCheck (db : ItemDb) (sd vsd : MapSessionData) (blank : Nat) :
    (Fin maxVending → Int) → Int → Int → Nat → List VendLine → Option (Int × List VendSale)
  | _, z, _, _, [] => some (z, [])
  | vending, z, w, new, l :: ls =>
    if l.amount.toNat ≤ 0 then none
    else
      match l.sale vsd with
      | none => none
      | some s =>
        let z := z + (vsd.vending s.offer).value.toNat * s.amount
        if z > sd.zeny ∨ z < 0 ∨ z > maxZeny then none
        else if z + vsd.zeny > maxZeny then none
        else
          let nameid := (vsd.cart s.idx).nameid.toInt
          let w := w + itemdbWeight db nameid * s.amount
          if w + sd.weight > sd.maxWeight then none
          else if vending s.offer < s.amount then none
          else
            let vending := Function.update vending s.offer (vending s.offer - s.amount)
            let check := pcCheckadditem db sd nameid s.amount
            let new := if check = .new then new + 1 else new
            if check = .overamount ∨ check = .new ∧ new > blank then none
            else
              (vendingCheck db sd vsd blank vending z w new ls).map fun r => (r.1, s :: r.2)

/-- One line of the executing loop: buyer and vendor after it. -/
def vendingSell (db : ItemDb) (p : MapSessionData × MapSessionData) (s : VendSale) :
    MapSessionData × MapSessionData :=
  let (sd, vsd) := p
  let sd := (pcAdditem db sd (vsd.cart s.idx) s.amount).2
  let offer := vsd.vending s.offer
  let vsd := { vsd with
    vending := Function.update vsd.vending s.offer
      { offer with amount := offer.amount - UInt16.ofInt s.amount } }
  (sd, pcCartDelitem db vsd s.idx s.amount)

/-- `vending_purchasereq`, for a vendor that `map_id2sd` finds: buyer and vendor after it. -/
def vendingPurchasereq (db : ItemDb) (sd vsd : MapSessionData) (lines : List VendLine) :
    MapSessionData × MapSessionData :=
  if vsd.venderId = 0 then (sd, vsd)
  else if vsd.venderId = sd.id then (sd, vsd)
  else if lines.length < 1 ∨ lines.length > maxVending then (sd, vsd)
  else
    match vendingCheck db sd vsd (pcInventoryblank sd)
      (fun j => (vsd.vending j).amount.toNat) 0 0 0 lines with
    | none => (sd, vsd)
    | some (z, sales) => sales.foldl (vendingSell db) ((pcPayzeny sd z).2, pcGetzeny vsd z)

end Nezumi
