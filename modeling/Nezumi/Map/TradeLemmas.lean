import Nezumi.Map.PcLemmas
import Nezumi.Map.Trade

/-!
# What the transfer of a trade does (`map/trade.c`)

`trade_check` simulates the insertions on copies of the inventories. With `pc_additem`'s own
stacking test (`sameItem`) in place of its own (`sameNameidCards`), the simulation is exact: the
transfer then makes the same writes, line by line, as long as the weights fit.

* `SlotsOk`: an inventory as the server keeps it. `Side`: one side of a running transfer, whose
  remaining lines are backed by its slots.
* `tradeGive_side`: one line of the transfer keeps both sides.
* `tradeTransfer_moved`: the whole transfer moves every offer.
-/

namespace Nezumi

variable {M : Type*} [AddCommGroup M]

/-- A line of an offer: a slot and an amount. -/
abbrev Line := Fin maxInventory × Int

/-- A slot as the server keeps it: `inventory_data` is set when it holds an item, and it is cleared
otherwise. -/
structure SlotOk (db : ItemDb) (it : Item) (data : Option ItemData) : Prop where
  data : data = if it.nameid = 0 then none else some (itemdbSearch db it.nameid.toInt)
  nameid : 0 ≤ it.nameid.toInt
  amount : 0 ≤ it.amount.toInt
  empty : it.nameid = 0 → it.amount = 0

instance (db : ItemDb) (it : Item) (data : Option ItemData) : Decidable (SlotOk db it data) :=
  decidable_of_iff (_ ∧ _ ∧ _ ∧ _) ⟨fun h => ⟨h.1, h.2.1, h.2.2.1, h.2.2.2⟩,
    fun h => ⟨h.data, h.nameid, h.amount, h.empty⟩⟩

/-- An inventory as the server keeps it. -/
def SlotsOk (db : ItemDb) (sd : MapSessionData) : Prop :=
  ∀ i, SlotOk db (sd.inventory i) (sd.inventoryData i)

instance (db : ItemDb) (sd : MapSessionData) : Decidable (SlotsOk db sd) :=
  inferInstanceAs (Decidable (∀ i, SlotOk db (sd.inventory i) (sd.inventoryData i)))

section SlotsOk

variable {db : ItemDb} {sd : MapSessionData} {it : Item} {data : Option ItemData} {amount : Int}

theorem SlotOk.nameid_pos (h : SlotOk db it data) (ha : 0 < it.amount.toInt) :
    0 < it.nameid.toInt := by
  have hn := h.nameid
  by_contra hneg
  have h0 : it.nameid = 0 := Int16.toInt_inj.mp (by rw [Int16.toInt_zero]; omega)
  rw [h.empty h0] at ha
  exact absurd ha (by decide)

theorem slotOk_zero : SlotOk db Item.zero none := ⟨rfl, by decide, by decide, fun _ => rfl⟩

/-- The same item with another amount. -/
theorem SlotOk.withAmount (h : SlotOk db it data) (hne : it.nameid ≠ 0)
    (ha : 0 ≤ (it.withAmount amount).amount.toInt) : SlotOk db (it.withAmount amount) data :=
  ⟨h.data, h.nameid, ha, fun h0 => absurd h0 hne⟩

/-- A new item in a slot. -/
theorem slotOk_withAmount (hn : 0 < it.nameid.toInt) (ha : 0 ≤ (it.withAmount amount).amount.toInt) :
    SlotOk db (it.withAmount amount) (some (itemdbSearch db it.nameid.toInt)) :=
  ⟨(if_neg (nameid_ne_zero hn)).symm, hn.le, ha, fun h0 => absurd h0 (nameid_ne_zero hn)⟩

theorem SlotsOk.pcAdditem {item : Item} (h : SlotsOk db sd) (hlt : amount < 2 ^ 15) :
    SlotsOk db (pcAdditem db sd item amount).2 := by
  obtain ⟨-, hs, -⟩ | ⟨-, i, hk, hle, ha, hs⟩ | ⟨hn, i, -, -, ha, hs⟩ :=
    pcAdditem_cases db sd item amount
  · rw [hs]; exact h
  · obtain ⟨hne, -⟩ := slot_of_stackOf hk
    have hold := (h i).amount
    rw [hs]
    intro j
    dsimp only
    rcases eq_or_ne j i with rfl | hj
    · rw [Function.update_self]
      exact (h j).withAmount hne (by rw [toInt_topUp ha hle]; omega)
    · rw [Function.update_of_ne hj]
      exact h j
  · rw [hs]
    intro j
    dsimp only
    rcases eq_or_ne j i with rfl | hj
    · rw [Function.update_self, Function.update_self]
      exact slotOk_withAmount hn (by rw [Item.withAmount_amount, toInt_ofInt (by omega) hlt]; omega)
    · rw [Function.update_of_ne hj, Function.update_of_ne hj]
      exact h j

/-- `pc_delitem` on a slot that holds the amount. -/
theorem SlotsOk.pcDelitem_eq (h : SlotsOk db sd) {n : Fin maxInventory} (ha : 0 < amount)
    (hle : amount ≤ (sd.inventory n).amount.toInt) :
    pcDelitem sd n amount = { sd with
      inventory := Function.update sd.inventory n ((sd.inventory n).takeAway amount)
      inventoryData := if (sd.inventory n).amount.toInt = amount then
        Function.update sd.inventoryData n none else sd.inventoryData
      weight := sd.weight - itemWeight db (sd.inventory n) amount } := by
  have hne := nameid_ne_zero ((h n).nameid_pos (by omega))
  exact Nezumi.pcDelitem_eq hne (by rw [(h n).data, if_neg hne]) ha hle

theorem SlotsOk.pcDelitem (h : SlotsOk db sd) {n : Fin maxInventory} (ha : 0 < amount)
    (hle : amount ≤ (sd.inventory n).amount.toInt) : SlotsOk db (pcDelitem sd n amount) := by
  rw [h.pcDelitem_eq ha hle]
  intro j
  dsimp only
  rcases eq_or_ne (sd.inventory n).amount.toInt amount with hall | hpart
  · rw [if_pos hall, Item.takeAway_all ha hall]
    rcases eq_or_ne j n with rfl | hj
    · rw [Function.update_self, Function.update_self]
      exact slotOk_zero
    · rw [Function.update_of_ne hj, Function.update_of_ne hj]
      exact h j
  · rw [if_neg hpart, Item.takeAway_of_lt ha (by omega)]
    rcases eq_or_ne j n with rfl | hj
    · rw [Function.update_self]
      exact (h j).withAmount (nameid_ne_zero ((h j).nameid_pos (by omega)))
        (by rw [Item.withAmount_left _ ha.le hle]; omega)
    · rw [Function.update_of_ne hj]
      exact h j

end SlotsOk

/-! ## One line of the transfer -/

section Give

variable {db : ItemDb} {sd targetSd : MapSessionData}

/-- The lines that are left are backed: each slot holds the item it held at the start, and all
that the lines take from it. -/
structure Backed (orig inventory : Inventory) (ls : List Line) : Prop where
  pos : ∀ l ∈ ls, 0 < l.2
  identity : ∀ l ∈ ls, (inventory l.1).identity = (orig l.1).identity
  room : ∀ n, Sums.tally ls n ≤ (inventory n).amount.toInt

/-- One side of a running transfer that began at `orig`, with the lines `ls` to go. -/
structure Side (db : ItemDb) (orig sd : MapSessionData) (ls : List Line) : Prop where
  slots : SlotsOk db sd
  backed : Backed orig.inventory sd.inventory ls

theorem Backed.line {orig inventory : Inventory} {l : Line} {ls : List Line}
    (h : Backed orig inventory (l :: ls)) : 0 < l.2 ∧ l.2 ≤ (inventory l.1).amount.toInt := by
  have hroom := h.room l.1
  have hrest : 0 ≤ Sums.tally ls l.1 :=
    Sums.tally_nonneg (fun x hx => (h.pos x (by simp [hx])).le) l.1
  rw [Sums.tally_cons, if_pos rfl] at hroom
  exact ⟨h.pos l (by simp), by omega⟩

/-- A line that is taken leaves the others backed. -/
theorem Backed.take {orig inventory : Inventory} {l : Line} {ls : List Line}
    (h : Backed orig inventory (l :: ls)) :
    Backed orig (Function.update inventory l.1 ((inventory l.1).takeAway l.2)) ls := by
  obtain ⟨hpos, hle⟩ := h.line
  have hls : ∀ x ∈ ls, 0 < x.2 := fun x hx => h.pos x (by simp [hx])
  refine ⟨hls, fun x hx => ?_, fun n => ?_⟩
  · have hid := h.identity x (by simp [hx])
    rcases eq_or_ne x.1 l.1 with he | hne
    · have hmore := Sums.tally_pos hls hx
      have hroom := h.room l.1
      rw [Sums.tally_cons, if_pos rfl, ← he] at hroom
      rw [he, Function.update_self, ← he,
        Item.takeAway_of_lt hpos (by omega), Item.withAmount_identity]
      exact hid
    · rw [Function.update_of_ne hne]
      exact hid
  · have hroom := h.room n
    rw [Sums.tally_cons] at hroom
    rcases eq_or_ne n l.1 with rfl | hne
    · rw [if_pos rfl] at hroom
      rw [Function.update_self]
      rcases eq_or_ne (inventory l.1).amount.toInt l.2 with hall | hpart
      · rw [Item.takeAway_all hpos hall]
        change _ ≤ (0 : Int)
        omega
      · rw [Item.takeAway_of_lt hpos (by omega), Item.withAmount_left _ hpos.le hle]
        omega
    · rw [if_neg hne.symm, zero_add] at hroom
      rw [Function.update_of_ne hne]
      exact hroom

/-- What arrives leaves the lines backed. -/
theorem Side.receive {orig sd : MapSessionData} {ls : List Line} {item : Item} {amount : Int}
    (h : Side db orig sd ls) (hlt : amount < 2 ^ 15) :
    Side db orig (pcAdditem db sd item amount).2 ls := by
  refine ⟨h.slots.pcAdditem hlt, ?_⟩
  obtain ⟨-, hs, -⟩ | ⟨-, i, hk, hle, ha, hs⟩ | ⟨hn, i, -, hfree, ha, hs⟩ :=
    pcAdditem_cases db sd item amount
  · rw [hs]; exact h.backed
  · rw [hs]
    refine ⟨h.backed.pos, fun x hx => ?_, fun n => ?_⟩ <;> dsimp only
    · rcases eq_or_ne x.1 i with he | hne
      · rw [he, Function.update_self, Item.withAmount_identity, ← he]
        exact h.backed.identity x hx
      · rw [Function.update_of_ne hne]
        exact h.backed.identity x hx
    · have hroom := h.backed.room n
      rcases eq_or_ne n i with rfl | hne
      · rw [Function.update_self, toInt_topUp ha hle]
        omega
      · rw [Function.update_of_ne hne]
        exact hroom
  · -- No line is left for a free slot.
    have hzero : (sd.inventory i).amount.toInt = 0 := by
      rw [(h.slots i).empty (slot_of_free hfree)]
      rfl
    have hno : ∀ x ∈ ls, x.1 ≠ i := by
      rintro x hx rfl
      have := Sums.tally_pos h.backed.pos hx
      have := h.backed.room x.1
      omega
    rw [hs]
    refine ⟨h.backed.pos, fun x hx => ?_, fun n => ?_⟩ <;> dsimp only
    · rw [Function.update_of_ne (hno x hx)]
      exact h.backed.identity x hx
    · rcases eq_or_ne n i with rfl | hne
      · rw [Function.update_self, Sums.tally_eq_zero hno, Item.withAmount_amount,
          toInt_ofInt (by omega) hlt]
        omega
      · rw [Function.update_of_ne hne]
        exact h.backed.room n

/-- What a line counts. -/
def lineWorth (f : Identity → M) (inventory : Inventory) (line : Option Line) : M :=
  line.elim 0 fun l => l.2 • f (inventory l.1).identity

/-- What a line weighs. -/
def lineWeight (db : ItemDb) (inventory : Inventory) (line : Option Line) : Int :=
  line.elim 0 fun l => itemWeight db (inventory l.1) l.2

theorem itemWeight_congr {it it' : Item} (h : it.identity = it'.identity) (q : Int) :
    itemWeight db it q = itemWeight db it' q := by
  unfold itemWeight
  rw [show it.nameid = it'.nameid from congrArg Identity.nameid h]

/-- With the stacking test of `pc_additem`, a line that `trade_check` accepts is one that
`pc_additem` adds, with the same writes. -/
theorem pcAdditem_of_check {inventory : Inventory} {n : Fin maxInventory} {q : Int}
    {r : Inventory × Inventory} (hn : 0 < (inventory n).nameid.toInt) (hq : 0 < q)
    (hle : q ≤ (inventory n).amount.toInt)
    (hw : itemWeight db (inventory n) q + targetSd.weight ≤ targetSd.maxWeight)
    (hcheck : tradeCheckLine sameItem db inventory targetSd.inventory (some (n, q)) = some r) :
    r.1 = Function.update inventory n ((inventory n).takeAway q) ∧
      (pcAdditem db targetSd (inventory n) q).1 = 0 ∧
      (pcAdditem db targetSd (inventory n) q).2.inventory = r.2 ∧
      (pcAdditem db targetSd (inventory n) q).2.weight =
        targetSd.weight + itemWeight db (inventory n) q := by
  have hleft : (if ((inventory n).withAmount ((inventory n).amount.toInt - q)).amount.toInt ≤ 0
      then Item.zero else (inventory n).withAmount ((inventory n).amount.toInt - q)) =
      (inventory n).takeAway q := by
    rw [Item.withAmount_left _ hq.le hle]
    rcases eq_or_ne (inventory n).amount.toInt q with hall | hpart
    · rw [if_pos (by omega), Item.takeAway_all hq hall]
    · rw [if_neg (by omega), Item.takeAway_of_lt hq (by omega)]
  have hw' : ¬(itemdbSearch db (inventory n).nameid.toInt).weight * q + targetSd.weight >
      targetSd.maxWeight := not_lt.mpr hw
  unfold tradeCheckLine at hcheck
  unfold pcAdditem
  dsimp only at hcheck ⊢
  rw [if_neg (show ¬q > (inventory n).amount.toInt by omega), if_pos hq, hleft] at hcheck
  rw [if_neg (by omega), if_neg hw', pcSearchInventory_free]
  generalize (if itemdbIsequip2 (itemdbSearch db (inventory n).nameid.toInt) = true then none
    else Slots.first (sameItem (inventory n)) targetSd.inventory) = found at hcheck ⊢
  cases found with
  | some i =>
    dsimp only at hcheck ⊢
    split at hcheck
    · cases hcheck
    · rename_i hover
      obtain rfl := Option.some.inj hcheck
      rw [if_neg hover]
      exact ⟨rfl, rfl, rfl, rfl⟩
  | none =>
    dsimp only at hcheck ⊢
    generalize Slots.first (fun it => it.nameid == 0) targetSd.inventory = free at hcheck ⊢
    cases free with
    | some i =>
      obtain rfl := Option.some.inj hcheck
      exact ⟨rfl, rfl, rfl, rfl⟩
    | none => cases hcheck

/-- Whatever a line does, only the slots and weights of both change, and the giver's line, which
is used up unless there was none. -/
theorem tradeGive_frame (db : ItemDb) (p : MapSessionData × MapSessionData) (k : Fin 10) :
    (∃ inv data w index amount, (amount ≤ 0 ∨
        index = p.1.dealItemIndex k ∧ amount = p.1.dealItemAmount k) ∧
      (tradeGive db p k).1 = { p.1 with
        inventory := inv
        inventoryData := data
        weight := w
        dealItemIndex := Function.update p.1.dealItemIndex k index
        dealItemAmount := Function.update p.1.dealItemAmount k amount }) ∧
      ∃ inv data w, (tradeGive db p k).2 =
        { p.2 with inventory := inv, inventoryData := data, weight := w } := by
  unfold tradeGive
  obtain ⟨sd, targetSd⟩ := p
  dsimp only
  cases hline : dealLine sd k with
  | none =>
    dsimp only
    refine ⟨⟨sd.inventory, sd.inventoryData, sd.weight, sd.dealItemIndex k, sd.dealItemAmount k,
      .inr ⟨rfl, rfl⟩, ?_⟩, _, _, _, rfl⟩
    rw [Function.update_eq_self, Function.update_eq_self]
  | some l =>
    obtain ⟨n, amount⟩ := l
    dsimp only
    generalize (if (sd.inventory n).amount.toInt < amount then (sd.inventory n).amount.toInt
      else amount) = q
    split
    · obtain ⟨inv, data, w, hadd⟩ := pcAdditem_frame db targetSd (sd.inventory n) q
      refine ⟨?_, inv, data, w, hadd⟩
      split
      · obtain ⟨inv', data', w', hdel⟩ := pcDelitem_frame sd n q
        rw [hdel]
        exact ⟨_, _, _, 0, 0, .inl le_rfl, rfl⟩
      · exact ⟨_, _, _, 0, 0, .inl le_rfl, rfl⟩
    · rename_i hq
      refine ⟨⟨sd.inventory, sd.inventoryData, sd.weight, sd.dealItemIndex k, q,
        .inl (not_lt.mp hq), ?_⟩, _, _, _, rfl⟩
      rw [Function.update_eq_self]

theorem dealLine_congr {sd sd' : MapSessionData} {k : Fin 10}
    (hi : sd'.dealItemIndex k = sd.dealItemIndex k)
    (ha : sd'.dealItemAmount k = sd.dealItemAmount k) : dealLine sd' k = dealLine sd k := by
  unfold dealLine
  simp only [hi, ha]

theorem tradeGive_dealLine (db : ItemDb) (p : MapSessionData × MapSessionData) {k j : Fin 10}
    (hj : j ≠ k) : dealLine (tradeGive db p k).1 j = dealLine p.1 j := by
  obtain ⟨_, _, _, _, _, -, h⟩ := (tradeGive_frame db p k).1
  rw [h]
  exact dealLine_congr (Function.update_of_ne hj _ _) (Function.update_of_ne hj _ _)

theorem tradeGive_dealLine_other (db : ItemDb) (p : MapSessionData × MapSessionData) (k j : Fin 10) :
    dealLine (tradeGive db p k).2 j = dealLine p.2 j := by
  obtain ⟨_, _, _, h⟩ := (tradeGive_frame db p k).2
  rw [h]
  exact dealLine_congr rfl rfl

/-- What one line of the transfer does, when it is backed and there is room for it. -/
structure Given (db : ItemDb) (orig origT : MapSessionData) (ls lsT : List Line)
    (line : Option Line) (r : Inventory × Inventory) (p p' : MapSessionData × MapSessionData) :
    Prop where
  side : Side db orig p'.1 ls
  sideT : Side db origT p'.2 lsT
  inventory : p'.1.inventory = r.1
  inventoryT : p'.2.inventory = r.2
  weight : p'.1.weight = p.1.weight - lineWeight db orig.inventory line
  weightT : p'.2.weight = p.2.weight + lineWeight db orig.inventory line
  worth : ∀ f : Identity → ℤ, worth f p'.1.inventory =
    worth f p.1.inventory - lineWorth f orig.inventory line
  worthT : ∀ f : Identity → ℤ, Nezumi.worth f p'.2.inventory =
    Nezumi.worth f p.2.inventory + lineWorth f orig.inventory line

/-- **One line of the transfer.** -/
theorem tradeGive_given {orig origT : MapSessionData} {ls lsT : List Line} {line : Option Line}
    {k : Fin 10} {r : Inventory × Inventory} {p : MapSessionData × MapSessionData}
    (hs : Side db orig p.1 (line.toList ++ ls)) (ht : Side db origT p.2 lsT)
    (hline : dealLine p.1 k = line)
    (hcheck : tradeCheckLine sameItem db p.1.inventory p.2.inventory line = some r)
    (hw : line ≠ none → p.2.weight + lineWeight db orig.inventory line ≤ p.2.maxWeight) :
    Given db orig origT ls lsT line r p (tradeGive db p k) := by
  obtain ⟨sd, targetSd⟩ := p
  unfold tradeGive
  dsimp only at hs ht hline hcheck hw ⊢
  rw [hline]
  cases line with
  | none =>
    obtain rfl := Option.some.inj hcheck
    exact ⟨hs, ht, rfl, rfl, by simp [lineWeight], by simp [lineWeight],
      fun f => by simp [lineWorth], fun f => by simp [lineWorth]⟩
  | some l =>
    obtain ⟨n, q⟩ := l
    have hback : Backed orig.inventory sd.inventory ((n, q) :: ls) := hs.backed
    obtain ⟨hq, hle⟩ := hback.line
    have hid := hback.identity (n, q) (by simp)
    dsimp only at hq hle hid
    have hlt : q < 2 ^ 15 := by have := (sd.inventory n).amount.toInt_lt; omega
    have hn := (hs.slots n).nameid_pos (by omega)
    have hweight : lineWeight db orig.inventory (some (n, q)) = itemWeight db (sd.inventory n) q :=
      (itemWeight_congr hid q).symm
    obtain ⟨hr1, hret, hr2, hwT⟩ := pcAdditem_of_check hn hq hle
      (by have := hw (by simp); omega) hcheck
    have hdel := hs.slots.pcDelitem_eq hq hle
    have hdelInv : (pcDelitem sd n q).inventory = r.1 := by rw [hdel, hr1]
    have hdelWeight : (pcDelitem sd n q).weight = sd.weight - itemWeight db (sd.inventory n) q := by
      rw [hdel]
    dsimp only
    rw [if_neg (show ¬(sd.inventory n).amount.toInt < q by omega), if_pos hq, if_pos hret]
    refine ⟨⟨?_, ?_⟩, ht.receive hlt, hdelInv, hr2, ?_, ?_, fun f => ?_, fun f => ?_⟩
    · exact hs.slots.pcDelitem hq hle
    · have htake := hback.take
      dsimp only at htake ⊢
      rw [hdelInv, hr1]
      exact htake
    · dsimp only
      rw [hweight, hdelWeight]
    · rw [hweight, hwT]
    · dsimp only
      rw [hdelInv, hr1, worth_update, Item.worth_takeAway f (nameid_ne_zero hn) hq hle, lineWorth,
        Option.elim_some, hid]
      abel
    · rw [pcAdditem_worth_of_ok f hret hlt, lineWorth, Option.elim_some, hid]

end Give

/-! ## The whole transfer -/

section Transfer

variable {db : ItemDb} {sd targetSd : MapSessionData}

/-- The used lines of an offer. -/
def linesOf (sd : MapSessionData) (ks : List (Fin 10)) : List Line := ks.filterMap (dealLine sd)

/-- What an offer holds of an item identity. -/
def offered (sd : MapSessionData) (k : Identity) : Int :=
  Sums.tally ((linesOf sd (List.finRange 10)).map fun l => ((sd.inventory l.1).identity, l.2)) k

/-- What the lines of an offer count. -/
def linesWorth (f : Identity → M) (sd : MapSessionData) (ks : List (Fin 10)) : M :=
  (ks.map fun k => lineWorth f sd.inventory (dealLine sd k)).sum

/-- The weights of both sides while the lines are exchanged: what arrives must always fit. -/
def TradeWeights (db : ItemDb) (sd targetSd : MapSessionData) : Int → Int → List (Fin 10) → Prop
  | _, _, [] => True
  | w, wT, k :: ks =>
    let a := lineWeight db sd.inventory (dealLine sd k)
    let b := lineWeight db targetSd.inventory (dealLine targetSd k)
    (dealLine sd k ≠ none → wT + a ≤ targetSd.maxWeight) ∧
      (dealLine targetSd k ≠ none → w - a + b ≤ sd.maxWeight) ∧
      TradeWeights db sd targetSd (w - a + b) (wT + a - b) ks

instance TradeWeights.decidable (db : ItemDb) (sd targetSd : MapSessionData) :
    (w wT : Int) → (ks : List (Fin 10)) → Decidable (TradeWeights db sd targetSd w wT ks)
  | _, _, [] => .isTrue trivial
  | w, wT, k :: ks =>
    haveI := TradeWeights.decidable db sd targetSd
      (w - lineWeight db sd.inventory (dealLine sd k) +
        lineWeight db targetSd.inventory (dealLine targetSd k))
      (wT + lineWeight db sd.inventory (dealLine sd k) -
        lineWeight db targetSd.inventory (dealLine targetSd k)) ks
    inferInstanceAs (Decidable (_ ∧ _ ∧ _))

/-- Both sides have room for what they get: the simulation of `trade_check` finds it with the
stacking test of `pc_additem` too, and the weights fit. -/
structure TradeRoom (db : ItemDb) (sd targetSd : MapSessionData) : Prop where
  check : (tradeCheckBy sameItem db sd targetSd sd.inventory targetSd.inventory
    (List.finRange 10)).isSome
  weights : TradeWeights db sd targetSd sd.weight targetSd.weight (List.finRange 10)

instance (db : ItemDb) (sd targetSd : MapSessionData) : Decidable (TradeRoom db sd targetSd) :=
  decidable_of_iff (_ ∧ _) ⟨fun h => ⟨h.1, h.2⟩, fun h => ⟨h.check, h.weights⟩⟩

/-- Everything of a player but the slots, the weight and the lines of the offer. -/
def apart (sd : MapSessionData) : MapSessionData :=
  { sd with
    inventory := fun _ => Item.zero
    inventoryData := fun _ => none
    weight := 0
    dealItemIndex := fun _ => 0
    dealItemAmount := fun _ => 0 }

theorem tradeGive_apart (db : ItemDb) (p : MapSessionData × MapSessionData) (k : Fin 10) :
    apart (tradeGive db p k).1 = apart p.1 ∧ apart (tradeGive db p k).2 = apart p.2 := by
  obtain ⟨⟨_, _, _, _, _, -, h1⟩, _, _, _, h2⟩ := tradeGive_frame db p k
  rw [h1, h2]
  exact ⟨rfl, rfl⟩

theorem tradeGiveBoth_apart (db : ItemDb) (p : MapSessionData × MapSessionData) (k : Fin 10) :
    apart (tradeGiveBoth db p k).1 = apart p.1 ∧ apart (tradeGiveBoth db p k).2 = apart p.2 := by
  have h1 := tradeGive_apart db p k
  have h2 := tradeGive_apart db (tradeGive db p k).swap k
  exact ⟨h2.2.trans h1.1, h2.1.trans h1.2⟩

theorem foldl_tradeGiveBoth_apart (db : ItemDb) (p : MapSessionData × MapSessionData)
    (ks : List (Fin 10)) :
    apart (ks.foldl (tradeGiveBoth db) p).1 = apart p.1 ∧
      apart (ks.foldl (tradeGiveBoth db) p).2 = apart p.2 := by
  induction ks generalizing p with
  | nil => exact ⟨rfl, rfl⟩
  | cons k ks ih =>
    have h := tradeGiveBoth_apart db p k
    rw [List.foldl_cons, (ih _).1, (ih _).2]
    exact h

theorem linesOf_cons (sd : MapSessionData) (k : Fin 10) (ks : List (Fin 10)) :
    linesOf sd (k :: ks) = (dealLine sd k).toList ++ linesOf sd ks := by
  unfold linesOf
  cases h : dealLine sd k <;> simp [h]

/-- A running transfer: both sides, what it counts and weighs, and what `trade_check` simulates. -/
structure Exchanging (db : ItemDb) (sd targetSd : MapSessionData) (ks : List (Fin 10))
    (p : MapSessionData × MapSessionData) : Prop where
  side : Side db sd p.1 (linesOf sd ks)
  sideT : Side db targetSd p.2 (linesOf targetSd ks)
  line : ∀ k ∈ ks, dealLine p.1 k = dealLine sd k
  lineT : ∀ k ∈ ks, dealLine p.2 k = dealLine targetSd k
  max : p.1.maxWeight = sd.maxWeight
  maxT : p.2.maxWeight = targetSd.maxWeight
  check : (tradeCheckBy sameItem db sd targetSd p.1.inventory p.2.inventory ks).isSome
  weights : TradeWeights db sd targetSd p.1.weight p.2.weight ks

/-- **A line both ways.** -/
theorem tradeGiveBoth_exchanging {k : Fin 10} {ks : List (Fin 10)}
    {p : MapSessionData × MapSessionData} (hk : k ∉ ks)
    (h : Exchanging db sd targetSd (k :: ks) p) :
    Exchanging db sd targetSd ks (tradeGiveBoth db p k) ∧
      ∀ f : Identity → ℤ,
        worth f (tradeGiveBoth db p k).1.inventory = worth f p.1.inventory -
          lineWorth f sd.inventory (dealLine sd k) +
          lineWorth f targetSd.inventory (dealLine targetSd k) ∧
        worth f (tradeGiveBoth db p k).2.inventory = worth f p.2.inventory +
          lineWorth f sd.inventory (dealLine sd k) -
          lineWorth f targetSd.inventory (dealLine targetSd k) := by
  obtain ⟨hw1, hw2, hw3⟩ := h.weights
  obtain ⟨_, hfinal⟩ := Option.isSome_iff_exists.mp h.check
  obtain ⟨r, hr, hfinal⟩ := Option.bind_eq_some_iff.mp hfinal
  obtain ⟨r', hr', hfinal⟩ := Option.bind_eq_some_iff.mp hfinal
  have hside := h.side
  have hsideT := h.sideT
  rw [linesOf_cons] at hside hsideT
  have h1 := tradeGive_given hside hsideT (h.line k (by simp)) hr
    (fun hne => by rw [h.maxT]; exact hw1 hne)
  set p1 := tradeGive db p k with hp1
  have hline : dealLine p1.swap.1 k = dealLine targetSd k := by
    rw [Prod.fst_swap, hp1, tradeGive_dealLine_other]
    exact h.lineT k (by simp)
  have hmax1 : p1.1.maxWeight = sd.maxWeight := by
    have := congrArg MapSessionData.maxWeight (tradeGive_apart db p k).1
    exact this.trans h.max
  have h2 := tradeGive_given (p := p1.swap) h1.sideT h1.side hline
    (by rw [Prod.fst_swap, Prod.snd_swap, h1.inventory, h1.inventoryT]; exact hr')
    (fun hne => by rw [Prod.snd_swap, h1.weight, hmax1]; exact hw2 hne)
  set p2 := tradeGive db p1.swap k with hp2
  have hboth : tradeGiveBoth db p k = p2.swap := rfl
  have hne : ∀ j ∈ ks, j ≠ k := by rintro j hj rfl; exact hk hj
  have hapart := tradeGiveBoth_apart db p k
  rw [hboth] at hapart ⊢
  refine ⟨⟨h2.sideT, h2.side, fun j hj => ?_, fun j hj => ?_, ?_, ?_, ?_, ?_⟩, fun f => ⟨?_, ?_⟩⟩
  · rw [Prod.fst_swap, hp2, tradeGive_dealLine_other, Prod.snd_swap, hp1,
      tradeGive_dealLine db p (hne j hj)]
    exact h.line j (by simp [hj])
  · rw [Prod.snd_swap, hp2, tradeGive_dealLine db _ (hne j hj), Prod.fst_swap, hp1,
      tradeGive_dealLine_other]
    exact h.lineT j (by simp [hj])
  · exact (congrArg MapSessionData.maxWeight hapart.1).trans h.max
  · exact (congrArg MapSessionData.maxWeight hapart.2).trans h.maxT
  · rw [Prod.fst_swap, Prod.snd_swap, h2.inventory, h2.inventoryT]
    exact Option.isSome_iff_exists.mpr ⟨_, hfinal⟩
  · rw [Prod.fst_swap, Prod.snd_swap, h2.weight, h2.weightT, Prod.fst_swap, Prod.snd_swap,
      h1.weight, h1.weightT]
    exact hw3
  · rw [Prod.fst_swap, h2.worthT, Prod.snd_swap, h1.worth]
  · rw [Prod.snd_swap, h2.worth, Prod.fst_swap, h1.worthT]

theorem exchange_worth {ks : List (Fin 10)} {p : MapSessionData × MapSessionData}
    (hks : ks.Nodup) (h : Exchanging db sd targetSd ks p) :
    SlotsOk db (ks.foldl (tradeGiveBoth db) p).1 ∧ SlotsOk db (ks.foldl (tradeGiveBoth db) p).2 ∧
      ∀ f : Identity → ℤ,
        worth f (ks.foldl (tradeGiveBoth db) p).1.inventory =
          worth f p.1.inventory - linesWorth f sd ks + linesWorth f targetSd ks ∧
        worth f (ks.foldl (tradeGiveBoth db) p).2.inventory =
          worth f p.2.inventory + linesWorth f sd ks - linesWorth f targetSd ks := by
  induction ks generalizing p with
  | nil => exact ⟨h.side.slots, h.sideT.slots, fun f => by simp [linesWorth]⟩
  | cons k ks ih =>
    obtain ⟨hk, hks⟩ := List.nodup_cons.mp hks
    obtain ⟨hnext, hworth⟩ := tradeGiveBoth_exchanging hk h
    obtain ⟨hok, hokT, hrest⟩ := ih hks hnext
    refine ⟨hok, hokT, fun f => ?_⟩
    have h1 := hworth f
    have h2 := hrest f
    simp only [linesWorth, List.map_cons, List.sum_cons] at h2 ⊢
    rw [List.foldl_cons]
    omega

theorem linesWorth_ofIdentity (sd : MapSessionData) (k : Identity) :
    linesWorth (ofIdentity k) sd (List.finRange 10) = offered sd k := by
  unfold linesWorth offered linesOf
  generalize List.finRange 10 = ks
  induction ks with
  | nil => rfl
  | cons j ks ih =>
    rw [List.map_cons, List.sum_cons, ih]
    cases hj : dealLine sd j with
    | none => simp [lineWorth, hj]
    | some l =>
      rw [List.filterMap_cons_some hj, List.map_cons, Sums.tally_cons]
      simp [lineWorth, ofIdentity]

/-- Every offered item, with its identity, and all offered zeny have changed sides. -/
structure Moved (sd targetSd sd' targetSd' : MapSessionData) : Prop where
  items : ∀ k, stock sd'.inventory k = stock sd.inventory k - offered sd k + offered targetSd k
  itemsT : ∀ k, stock targetSd'.inventory k =
    stock targetSd.inventory k + offered sd k - offered targetSd k
  zeny : sd'.zeny = sd.zeny - sd.dealZeny + targetSd.dealZeny
  zenyT : targetSd'.zeny = targetSd.zeny + sd.dealZeny - targetSd.dealZeny

/-- The zeny changes sides as offered, whatever happens to the items. -/
theorem tradeTransfer_zeny (db : ItemDb) (sd targetSd : MapSessionData) :
    (tradeTransfer db sd targetSd).1.zeny = sd.zeny - sd.dealZeny + targetSd.dealZeny ∧
      (tradeTransfer db sd targetSd).2.zeny =
        targetSd.zeny + sd.dealZeny - targetSd.dealZeny := by
  have hapart := foldl_tradeGiveBoth_apart db (sd, targetSd) (List.finRange 10)
  have hz := congrArg MapSessionData.zeny hapart.1
  have hzT := congrArg MapSessionData.zeny hapart.2
  have hdz := congrArg MapSessionData.dealZeny hapart.1
  have hdzT := congrArg MapSessionData.dealZeny hapart.2
  simp only [apart] at hz hzT hdz hdzT
  simp only [tradeTransfer, hz, hzT, hdz, hdzT, and_self]

/-- **The transfer** moves every offer when the lines are backed and there is room. -/
theorem tradeTransfer_moved (hs : Side db sd sd (linesOf sd (List.finRange 10)))
    (ht : Side db targetSd targetSd (linesOf targetSd (List.finRange 10)))
    (hroom : TradeRoom db sd targetSd) :
    Moved sd targetSd (tradeTransfer db sd targetSd).1 (tradeTransfer db sd targetSd).2 ∧
      SlotsOk db (tradeTransfer db sd targetSd).1 ∧
      SlotsOk db (tradeTransfer db sd targetSd).2 := by
  have hstart : Exchanging db sd targetSd (List.finRange 10) (sd, targetSd) :=
    ⟨hs, ht, fun _ _ => rfl, fun _ _ => rfl, rfl, rfl, hroom.check, hroom.weights⟩
  obtain ⟨hok, hokT, hworth⟩ := exchange_worth (List.nodup_finRange 10) hstart
  obtain ⟨hz, hzT⟩ := tradeTransfer_zeny db sd targetSd
  refine ⟨⟨fun k => ?_, fun k => ?_, hz, hzT⟩, hok, hokT⟩
  · have := (hworth (ofIdentity k)).1
    rw [linesWorth_ofIdentity, linesWorth_ofIdentity] at this
    exact this
  · have := (hworth (ofIdentity k)).2
    rw [linesWorth_ofIdentity, linesWorth_ofIdentity] at this
    exact this

end Transfer

end Nezumi
