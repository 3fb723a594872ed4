import Nezumi.Map.Npc
import Nezumi.Map.PcLemmas

/-!
# What a purchase and a sale do (`map/npc.c`)

* `npcBuylistCheck_ok_iff`: what the checking pass of a purchase accepts, `Buyable`.
* `npcBuylist_allOrNothing_iff`: exactly when a purchase is all or nothing. The checks look at one
  line at a time, so an accepted list can ask for more than `pc_additem` has room for.
* `npcSelllist_spec`: a sale always is: what is paid for is what is removed.
-/

namespace Nezumi

/-- The count of the units of an item id. -/
def ofId (x : Int) (k : Identity) : Int := if k.nameid.toInt = x then 1 else 0

/-- The units of an item id in a table of items. -/
def held {n : ℕ} (t : Fin n → Item) (x : Int) : Int := worth (ofId x) t

/-- An item id is a `short`. -/
theorem held_eq_zero {n : ℕ} (t : Fin n → Item) {x : Int} (hx : 2 ^ 15 ≤ x) : held t x = 0 := by
  unfold held worth Slots.total
  apply Finset.sum_eq_zero
  intro i _
  unfold Item.worth ofId
  have := (t i).nameid.toInt_lt
  rw [if_neg (show ¬(t i).identity.nameid.toInt = x by simp only [Item.identity]; omega)]
  simp

/-! ## Buying -/

section Buy

variable (world : NpcWorld) (db : ItemDb) (sd : MapSessionData) (shopItem : List NpcItem)

/-- What a line costs. -/
def BuyLine.cost (l : BuyLine) : Int :=
  (shopSearch shopItem l.nameid.toNat).elim 0 fun entry => buyPrice db sd entry * l.amount.toNat

/-- What a line weighs. -/
def BuyLine.weight (l : BuyLine) : Int := itemdbWeight db l.nameid.toNat * l.amount.toNat

/-- The announced total of a list. -/
def buyTotal (ls : List BuyLine) : Int := (ls.map (BuyLine.cost db sd shopItem)).sum

/-- The number of lines that `pc_checkadditem` wants a new slot for. -/
def buyNew (ls : List BuyLine) : Nat :=
  ls.countP fun l => pcCheckadditem db sd l.nameid.toNat l.amount.toNat = .new

/-- The units of an item id that a list asks for. -/
def buyAsked (ls : List BuyLine) (x : Int) : Int :=
  Sums.tally (ls.map fun l => ((l.nameid.toNat : Int), (l.amount.toNat : Int))) x

/-- What a list hands to `pc_additem`. -/
def buyItems (ls : List BuyLine) : List (Item × Int) :=
  ls.map fun l => (npcItem l, (l.amount.toNat : Int))

/-- The shop sells what a line asks for, in that amount, and the first stack of the item takes
it. -/
structure BuyLine.Sold (l : BuyLine) : Prop where
  amount : 0 < l.amount.toNat
  nameid : 0 < l.nameid.toNat
  entry : ∃ entry, shopSearch shopItem l.nameid.toNat = some entry ∧
    ¬(itemdbIsequip3 db entry.nameid ∧ 1 < l.amount.toNat)
  stack : pcCheckadditem db sd l.nameid.toNat l.amount.toNat ≠ .overamount

/-- What `npc_buylist` requires of a list, line by line against the unchanged inventory. -/
structure Buyable (ls : List BuyLine) : Prop where
  sold : ∀ l ∈ ls, l.Sold db sd shopItem
  zeny : Sums.Running (fun z => 0 ≤ z ∧ z ≤ sd.zeny) (BuyLine.cost db sd shopItem) 0 ls
  weight : Sums.Running (· + sd.weight ≤ sd.maxWeight) (BuyLine.weight db) 0 ls
  slots : buyNew db sd ls ≤ pcInventoryblank sd

/-- The purchase as the client asked for it, or none of it. -/
def BuyAllOrNothing (ls : List BuyLine) : Prop :=
  let r := npcBuylist world db sd ls
  (r.1 ≠ 0 → r.2 = sd) ∧
    (r.1 = 0 → ∃ nd, npcShop world sd = some nd ∧
      (0 ≤ buyTotal db sd nd.shopItem ls ∧ buyTotal db sd nd.shopItem ls ≤ max 0 sd.zeny) ∧
      r.2.zeny = sd.zeny - buyTotal db sd nd.shopItem ls ∧
      ∀ x, held r.2.inventory x = held sd.inventory x + buyAsked ls x)

/-- There is room for the whole list, not only for each of its lines. -/
structure BuyRoom (shopItem : List NpcItem) (ls : List BuyLine) : Prop where
  /-- The ids are those of items: a `short`. -/
  ids : ∀ l ∈ ls, l.nameid.toNat < 2 ^ 15
  /-- The stacks have room for the totals and the slots for the new stacks. -/
  fits : Bins.Fits (stackRule db) (cells sd.inventory)
    (requests (buyItems ls))
  /-- `pc_payzeny` refuses to leave a player with more than `MAX_ZENY`. -/
  zeny : buyTotal db sd shopItem ls = 0 ∨ sd.zeny - buyTotal db sd shopItem ls ≤ maxZeny

variable {world db sd shopItem}

/-- One line of the checking pass. -/
theorem npcBuylistCheck_cons {z w : Int} {new : Nat} {l : BuyLine} {ls : List BuyLine}
    {r : Int × Nat} :
    npcBuylistCheck db sd shopItem z w new (l :: ls) = .ok r ↔
      l.Sold db sd shopItem ∧
      (0 ≤ z + l.cost db sd shopItem ∧ z + l.cost db sd shopItem ≤ sd.zeny) ∧
      w + l.weight db + sd.weight ≤ sd.maxWeight ∧
      npcBuylistCheck db sd shopItem (z + l.cost db sd shopItem) (w + l.weight db)
        (new + buyNew db sd [l]) ls = .ok r := by
  rw [npcBuylistCheck]
  dsimp only
  by_cases hamount : (l.amount.toNat : Int) ≤ 0
  · rw [if_pos hamount]
    have : ¬l.Sold db sd shopItem := fun h => by have := h.amount; omega
    simp [this]
  by_cases hnameid : (l.nameid.toNat : Int) ≤ 0
  · rw [if_neg hamount, if_pos hnameid]
    have : ¬l.Sold db sd shopItem := fun h => by have := h.nameid; omega
    simp [this]
  rw [if_neg hamount, if_neg hnameid]
  cases hentry : shopSearch shopItem l.nameid.toNat with
  | none =>
    have : ¬l.Sold db sd shopItem := fun h => by
      obtain ⟨_, he, -⟩ := h.entry
      rw [hentry] at he
      cases he
    simp [this]
  | some entry =>
    have hcost : l.cost db sd shopItem = buyPrice db sd entry * l.amount.toNat := by
      simp [BuyLine.cost, hentry]
    have hsold : l.Sold db sd shopItem ↔
        ¬(itemdbIsequip3 db entry.nameid ∧ (l.amount.toNat : Int) > 1) ∧
        pcCheckadditem db sd l.nameid.toNat l.amount.toNat ≠ .overamount := by
      constructor
      · rintro ⟨-, -, ⟨_, he, hone⟩, hstack⟩
        rw [hentry] at he
        obtain rfl := Option.some.inj he
        exact ⟨fun h => hone ⟨h.1, by omega⟩, hstack⟩
      · rintro ⟨hone, hstack⟩
        exact ⟨by omega, by omega, ⟨entry, hentry, fun h => hone ⟨h.1, by omega⟩⟩, hstack⟩
    have hnew : buyNew db sd [l] =
        if pcCheckadditem db sd l.nameid.toNat l.amount.toNat = .new then 1 else 0 := by
      simp [buyNew, List.countP_singleton]
    have hcount : (if pcCheckadditem db sd l.nameid.toNat l.amount.toNat = .new then new + 1
        else new) = new + buyNew db sd [l] := by
      rw [hnew]
      split <;> rfl
    dsimp only
    rw [hcount, hsold, hcost, BuyLine.weight]
    by_cases hone : itemdbIsequip3 db entry.nameid ∧ (l.amount.toNat : Int) > 1
    · rw [if_pos hone]
      simp [hone]
    rw [if_neg hone]
    by_cases hz : z + buyPrice db sd entry * l.amount.toNat < 0 ∨
        z + buyPrice db sd entry * l.amount.toNat > sd.zeny
    · rw [if_pos hz]
      simp only [reduceCtorEq, false_iff]
      rintro ⟨-, ⟨h1, h2⟩, -⟩
      omega
    rw [if_neg hz]
    by_cases hover : pcCheckadditem db sd l.nameid.toNat l.amount.toNat = .overamount
    · rw [if_pos hover]
      simp [hover]
    rw [if_neg hover]
    by_cases hw : w + itemdbWeight db l.nameid.toNat * l.amount.toNat + sd.weight > sd.maxWeight
    · rw [if_pos hw]
      simp only [reduceCtorEq, false_iff]
      rintro ⟨-, -, h, -⟩
      omega
    rw [if_neg hw]
    constructor
    · intro h
      exact ⟨⟨hone, hover⟩, by omega, by omega, h⟩
    · exact fun h => h.2.2.2

/-- **The checking pass.** -/
theorem npcBuylistCheck_ok_iff {z w : Int} {new : Nat} {ls : List BuyLine} {r : Int × Nat} :
    npcBuylistCheck db sd shopItem z w new ls = .ok r ↔
      (∀ l ∈ ls, l.Sold db sd shopItem) ∧
      Sums.Running (fun z => 0 ≤ z ∧ z ≤ sd.zeny) (BuyLine.cost db sd shopItem) z ls ∧
      Sums.Running (· + sd.weight ≤ sd.maxWeight) (BuyLine.weight db) w ls ∧
      r = (z + buyTotal db sd shopItem ls, new + buyNew db sd ls) := by
  induction ls generalizing z w new with
  | nil => simp [npcBuylistCheck, buyTotal, buyNew, eq_comm]
  | cons l ls ih =>
    have htotal : buyTotal db sd shopItem (l :: ls) =
        l.cost db sd shopItem + buyTotal db sd shopItem ls := by simp [buyTotal]
    have hnew : buyNew db sd (l :: ls) = buyNew db sd [l] + buyNew db sd ls := by
      simp [buyNew, List.countP_cons, Nat.add_comm]
    rw [npcBuylistCheck_cons, ih]
    simp only [List.forall_mem_cons, Sums.running_cons, htotal, hnew, add_assoc]
    grind

theorem npcBuylistCheck_error {z w : Int} {new : Nat} {ls : List BuyLine} {fail : Nat}
    (h : npcBuylistCheck db sd shopItem z w new ls = .error fail) : fail ≠ 0 := by
  induction ls generalizing z w new with
  | nil => simp [npcBuylistCheck] at h
  | cons l ls ih =>
    rw [npcBuylistCheck] at h
    dsimp only at h
    repeat' split at h
    all_goals first
      | exact ih h
      | (obtain rfl := Except.error.inj h; decide)

/-- A list that is not accepted changes nothing. -/
theorem npcBuylist_of_refused {ls : List BuyLine}
    (h : ∀ nd, npcShop world sd = some nd → ¬Buyable db sd nd.shopItem ls) :
    (npcBuylist world db sd ls).1 ≠ 0 ∧ (npcBuylist world db sd ls).2 = sd := by
  unfold npcBuylist
  cases hshop : npcShop world sd with
  | none => simp
  | some nd =>
    dsimp only
    cases hcheck : npcBuylistCheck db sd nd.shopItem 0 0 0 ls with
    | error fail => exact ⟨npcBuylistCheck_error hcheck, rfl⟩
    | ok r =>
      obtain ⟨hsold, hzeny, hweight, rfl⟩ := npcBuylistCheck_ok_iff.mp hcheck
      have hslots : pcInventoryblank sd < 0 + buyNew db sd ls := by
        by_contra hle
        exact h nd hshop ⟨hsold, hzeny, hweight, by omega⟩
      dsimp only
      rw [if_pos hslots]
      exact ⟨by simp, rfl⟩

/-- An accepted list is paid for and handed to `pc_additem`, line by line. -/
theorem npcBuylist_of_buyable {nd : NpcData} {ls : List BuyLine}
    (hshop : npcShop world sd = some nd) (h : Buyable db sd nd.shopItem ls) :
    npcBuylist world db sd ls =
      (0, pcAdditems db (pcPayzeny sd (buyTotal db sd nd.shopItem ls)).2 (buyItems ls)) := by
  have hcheck : npcBuylistCheck db sd nd.shopItem 0 0 0 ls =
      .ok (0 + buyTotal db sd nd.shopItem ls, 0 + buyNew db sd ls) :=
    npcBuylistCheck_ok_iff.mpr ⟨h.sold, h.zeny, h.weight, rfl⟩
  unfold npcBuylist
  rw [hshop]
  dsimp only
  rw [hcheck]
  dsimp only
  rw [if_neg (by have := h.slots; omega), zero_add, pcAdditems, buyItems, List.foldl_map]

theorem buyTotal_bounds {ls : List BuyLine} (h : Buyable db sd shopItem ls) :
    0 ≤ buyTotal db sd shopItem ls ∧
      (buyTotal db sd shopItem ls ≤ sd.zeny ∨ buyTotal db sd shopItem ls = 0) := by
  rcases eq_or_ne ls [] with rfl | hne
  · simp [buyTotal]
  · have := h.zeny.total hne
    simp only [zero_add] at this
    exact ⟨this.1, .inl this.2⟩

theorem npcItem_nameid {l : BuyLine} (h : l.nameid.toNat < 2 ^ 15) :
    (npcItem l).nameid.toInt = l.nameid.toNat := toInt_ofInt (by omega) (by omega)

theorem askedFor_buyItems {ls : List BuyLine} (h : ∀ l ∈ ls, l.nameid.toNat < 2 ^ 15) (x : Int) :
    askedFor (ofId x) (buyItems ls) = buyAsked ls x := by
  unfold askedFor buyItems buyAsked Sums.tally
  rw [List.map_map, List.map_map]
  congr 1
  apply List.map_congr_left
  intro l hl
  have : (npcItem l).identity.nameid.toInt = l.nameid.toNat := npcItem_nameid (h l hl)
  simp only [Function.comp_apply, ofId, this, smul_eq_mul, mul_ite, mul_one, mul_zero]

theorem buyAsked_pos {ls : List BuyLine} (h : ∀ l ∈ ls, 0 < l.amount.toNat) {l : BuyLine}
    (hl : l ∈ ls) : 0 < buyAsked ls l.nameid.toNat :=
  Sums.tally_pos (x := ((l.nameid.toNat : Int), (l.amount.toNat : Int)))
    (by simpa using h) (List.mem_map.mpr ⟨l, hl, rfl⟩)

/-- The weight check of a list is the one of its items. -/
theorem weightsFit_buyItems {ls : List BuyLine} (hids : ∀ l ∈ ls, l.nameid.toNat < 2 ^ 15)
    (h : Sums.Running (· + sd.weight ≤ sd.maxWeight) (BuyLine.weight db) 0 ls) :
    WeightsFit db sd.maxWeight sd.weight (buyItems ls) := by
  unfold WeightsFit buyItems
  rw [Sums.running_map, ← zero_add sd.weight, Sums.running_shift]
  refine (Sums.running_congr fun l hl => ?_).mpr h
  simp only [itemWeight, BuyLine.weight, npcItem_nameid (hids l hl)]

/-- The items of an accepted list arrive, by item id, exactly when there is room for them. -/
theorem held_buyItems_iff {ls : List BuyLine} (sd' : MapSessionData)
    (h : Buyable db sd shopItem ls) (hinv : sd'.inventory = sd.inventory)
    (hw : sd'.weight = sd.weight) (hmax : sd'.maxWeight = sd.maxWeight) :
    (∀ x, held (pcAdditems db sd' (buyItems ls)).inventory x =
      held sd.inventory x + buyAsked ls x) ↔
      (∀ l ∈ ls, l.nameid.toNat < 2 ^ 15) ∧
        Bins.Fits (stackRule db) (cells sd.inventory) (requests (buyItems ls)) := by
  by_cases hids : ∀ l ∈ ls, l.nameid.toNat < 2 ^ 15
  · have hn : ∀ l ∈ buyItems ls, 0 < l.1.nameid.toInt := by
      intro i hi
      obtain ⟨l, hl, rfl⟩ := List.mem_map.mp hi
      have := (h.sold l hl).nameid
      simp only [npcItem_nameid (hids l hl)]
      omega
    have ha : ∀ l ∈ buyItems ls, 0 < l.2 := by
      intro i hi
      obtain ⟨l, hl, rfl⟩ := List.mem_map.mp hi
      have := (h.sold l hl).amount
      simpa using this
    have hF : ∀ f ∈ Set.range ofId, ∀ k, 0 ≤ f k := by
      rintro _ ⟨x, rfl⟩ k
      unfold ofId
      split <;> decide
    have hiff := pcAdditems_worth_iff db sd' hF ha
      (fun i _ => ⟨ofId i.1.identity.nameid.toInt, ⟨_, rfl⟩, by simp [ofId]⟩)
      (by rw [hw, hmax]; exact weightsFit_buyItems hids h.weight)
    rw [and_iff_right hn, Set.forall_mem_range, hinv] at hiff
    rw [and_iff_right hids, ← hiff]
    simp only [held, askedFor_buyItems hids]
  · refine iff_of_false ?_ fun hr => hids hr.1
    simp only [not_forall, not_lt] at hids
    obtain ⟨l, hl, hbig⟩ := hids
    intro hall
    have hx := hall l.nameid.toNat
    rw [held_eq_zero _ (by omega), held_eq_zero _ (by omega)] at hx
    have := buyAsked_pos (fun l hl => (h.sold l hl).amount) hl
    omega

/-- **A purchase is all or nothing exactly when an accepted list has room as a whole.** -/
theorem npcBuylist_allOrNothing_iff (world : NpcWorld) (db : ItemDb) (sd : MapSessionData)
    (ls : List BuyLine) :
    BuyAllOrNothing world db sd ls ↔
      ∀ nd, npcShop world sd = some nd → Buyable db sd nd.shopItem ls →
        BuyRoom db sd nd.shopItem ls := by
  unfold BuyAllOrNothing
  dsimp only
  by_cases hacc : ∃ nd, npcShop world sd = some nd ∧ Buyable db sd nd.shopItem ls
  · obtain ⟨nd, hshop, hbuy⟩ := hacc
    have hbounds := buyTotal_bounds hbuy
    have hheld := held_buyItems_iff (pcPayzeny sd (buyTotal db sd nd.shopItem ls)).2 hbuy
      (by simp) (by simp) (by simp)
    have hpay := pcPayzeny_zeny_iff hbounds.2
    rw [npcBuylist_of_buyable hshop hbuy]
    simp only [hshop, Option.some.injEq, exists_eq_left', forall_eq', hbuy, true_implies,
      ne_eq, not_true_eq_false, false_implies, true_and, pcAdditems_zeny, hheld, hpay]
    constructor
    · rintro ⟨-, hz, hids, hfits⟩
      exact ⟨hids, hfits, hz⟩
    · rintro ⟨hids, hfits, hz⟩
      exact ⟨⟨hbounds.1, by omega⟩, hz, hids, hfits⟩
  · simp only [not_exists, not_and] at hacc
    obtain ⟨hret, hsd⟩ := npcBuylist_of_refused hacc
    refine iff_of_true ⟨fun _ => hsd, fun h0 => absurd h0 hret⟩ ?_
    exact fun nd hshop hbuy => absurd hbuy (hacc nd hshop)

/-- A shop that sells red potions. -/
def potionShop : NpcWorld where
  mapId2nd _ := some { subtype := .shop, shopItem := [{ nameid := 501, value := 50 }] }

/-- A player whose stack of red potions is nearly full. -/
def potionBuyer : MapSessionData where
  id := 1
  zeny := 5000
  maxWeight := 20000
  inventory := slotsOf [{ nameid := 501, amount := 29995, identify := true }]
  inventoryData i := if i.val = 0 then some (itemdbSearch (fun _ => none) 501) else none

/-- Two lines that each top the stack up to the limit: the second is paid for and not added. -/
theorem npcBuylist_not_allOrNothing :
    ¬∀ world db sd ls, BuyAllOrNothing world db sd ls := by
  intro h
  obtain ⟨_, -, -, -, hheld⟩ :=
    (h potionShop (fun _ => none) potionBuyer [⟨5, 501⟩, ⟨5, 501⟩]).2 (by decide)
  have := hheld 501
  revert this
  decide +kernel

end Buy

/-! ## Selling -/

section Sell

variable (world : NpcWorld) (db : ItemDb) (sd : MapSessionData)

/-- The units that a list takes from a slot. -/
def sellListed (ls : List SellLine) (i : Fin maxInventory) : Int :=
  Sums.tally (ls.map fun l => (l.idx, (l.amount.toNat : Int))) (some i)

/-- The sum over the slots of what is removed times its price. -/
def sellTotal (ls : List SellLine) : Int :=
  ∑ i, sellPrice db sd (sd.inventory i).nameid.toInt * sellListed ls i

/-- The sale as the client asked for it, or none of it. -/
def SellExact (ls : List SellLine) (r : Option Nat × MapSessionData) : Prop :=
  (r.1 ≠ some 0 ∧ r.2 = sd) ∨
    (r.1 = some 0 ∧
      (∀ i, sellListed ls i = 0 ∨ sellListed ls i ≤ (sd.inventory i).amount.toInt) ∧
      (∀ i, r.2.inventory i = (sd.inventory i).takeAway (sellListed ls i)) ∧
      r.2.zeny = sd.zeny + sellTotal db sd ls ∧ r.2.zeny ≤ maxZeny)

/-- What the checking pass of a sale accepts. -/
structure Sellable (inventory : Inventory) (ls : List SellLine) : Prop where
  idx : ∀ l ∈ ls, ∃ i, l.idx = some i ∧ 0 < l.amount.toNat
  listed : ∀ i, sellListed ls i ≠ 0 →
    0 < (inventory i).nameid.toInt ∧ sellListed ls i ≤ (inventory i).amount.toInt

variable {world db sd}

theorem sellListed_cons (l : SellLine) (ls : List SellLine) (i : Fin maxInventory) :
    sellListed (l :: ls) i =
      (if l.idx = some i then (l.amount.toNat : Int) else 0) + sellListed ls i :=
  Sums.tally_cons _ _ _

theorem sellListed_nonneg (ls : List SellLine) (i : Fin maxInventory) : 0 ≤ sellListed ls i :=
  Sums.tally_nonneg (by simp) _

theorem npcSelllistCheck_error {inventory : Inventory} {z : Int} {ls : List SellLine} {fail : Nat}
    (h : npcSelllistCheck db sd inventory z ls = .error fail) : fail ≠ 0 := by
  induction ls generalizing inventory z with
  | nil => simp [npcSelllistCheck] at h
  | cons l ls ih =>
    rw [npcSelllistCheck] at h
    dsimp only at h
    repeat' split at h
    all_goals first
      | exact ih h
      | (obtain rfl := Except.error.inj h; decide)

/-- **The checking pass.** What it accepts can be taken from the slots, and the total is the sum
over the slots. -/
theorem npcSelllistCheck_ok {inventory : Inventory} {z total : Int} {ls : List SellLine}
    (h : npcSelllistCheck db sd inventory z ls = .ok total) :
    Sellable inventory ls ∧
      total = z + ∑ i, sellPrice db sd (inventory i).nameid.toInt * sellListed ls i ∧
      (ls ≠ [] → 0 ≤ total ∧ sd.zeny + total ≤ maxZeny) := by
  induction ls generalizing inventory z with
  | nil =>
    obtain rfl : z = total := by simpa [npcSelllistCheck] using h
    exact ⟨⟨by simp, by simp [sellListed]⟩, by simp [sellListed], by simp⟩
  | cons l ls ih =>
    rw [npcSelllistCheck] at h
    cases hidx : l.idx with
    | none => simp [hidx] at h
    | some idx =>
      simp only [hidx] at h
      split at h
      · cases h
      rename_i hamount
      split at h
      · cases h
      rename_i hnameid
      split at h
      · cases h
      rename_i hz
      split at h
      · cases h
      rename_i hmax
      simp only [Function.update_self, Item.withAmount_nameid] at hnameid hz hmax h
      set inventory' := Function.update inventory idx
        ((inventory idx).withAmount ((inventory idx).amount.toInt - l.amount.toNat)) with hinv
      have hname : ∀ i, (inventory' i).nameid = (inventory i).nameid := by
        intro i
        rcases eq_or_ne i idx with rfl | hi
        · simp [hinv]
        · simp [hinv, hi]
      obtain ⟨hsell, htotal, hbounds⟩ := ih h
      refine ⟨⟨?_, ?_⟩, ?_, ?_⟩
      · rw [List.forall_mem_cons]
        exact ⟨⟨idx, hidx, by omega⟩, hsell.idx⟩
      · intro i hi
        rw [sellListed_cons, hidx] at hi ⊢
        have hrest := hsell.listed i
        rw [hname] at hrest
        rcases eq_or_ne i idx with rfl | hne
        · have hlt := (inventory i).amount.toInt_lt
          have hleft : (inventory' i).amount.toInt =
              (inventory i).amount.toInt - l.amount.toNat := by
            simp only [hinv, Function.update_self, Item.withAmount_amount]
            exact toInt_ofInt (by omega) (by omega)
          rw [if_pos rfl]
          refine ⟨by omega, ?_⟩
          by_cases h0 : sellListed ls i = 0
          · omega
          · have := (hrest h0).2
            omega
        · rw [if_neg (by simpa using hne.symm), zero_add] at hi ⊢
          have hsame : inventory' i = inventory i := by simp [hinv, hne]
          rw [hsame] at hrest
          exact hrest hi
      · simp only [sellListed_cons, hidx, mul_add, Finset.sum_add_distrib, Option.some.injEq,
          mul_ite, mul_zero, Finset.sum_ite_eq, Finset.mem_univ, if_true]
        rw [htotal]
        simp only [hname, add_assoc]
      · intro _
        rcases eq_or_ne ls [] with rfl | hls
        · rw [npcSelllistCheck] at h
          obtain rfl := Except.ok.inj h
          omega
        · exact hbounds hls

/-- The executing pass, on a list that can be taken from the slots. -/
theorem pcDelitems_takeAway {sd : MapSessionData} {ls : List SellLine}
    (hsell : Sellable sd.inventory ls)
    (hdata : ∀ i, (sd.inventory i).nameid ≠ 0 → sd.inventoryData i ≠ none) (i : Fin maxInventory) :
    (ls.foldl (fun sd l => l.idx.elim sd fun idx => pcDelitem sd idx l.amount.toNat)
      sd).inventory i = (sd.inventory i).takeAway (sellListed ls i) := by
  induction ls generalizing sd with
  | nil => simp [sellListed, Item.takeAway]
  | cons l ls ih =>
    obtain ⟨idx, hidx, hpos⟩ := hsell.idx l (by simp)
    have hrest := sellListed_nonneg ls
    have hall := hsell.listed idx (by rw [sellListed_cons, if_pos hidx]; have := hrest idx; omega)
    rw [sellListed_cons, if_pos hidx] at hall
    have hne : (sd.inventory idx).nameid ≠ 0 := by
      intro h0
      rw [h0] at hall
      exact absurd hall.1 (by decide)
    obtain ⟨data, hsome⟩ := Option.ne_none_iff_exists'.mp (hdata idx hne)
    have hdel := pcDelitem_eq hne hsome (by omega : (0 : Int) < l.amount.toNat)
      (by have := hrest idx; omega)
    have hinv : (pcDelitem sd idx l.amount.toNat).inventory = Function.update sd.inventory idx
        ((sd.inventory idx).takeAway l.amount.toNat) := by rw [hdel]
    rw [List.foldl_cons, hidx, Option.elim_some, ih]
    · rw [hinv, sellListed_cons, hidx]
      rcases eq_or_ne i idx with rfl | hi
      · rw [if_pos rfl, Function.update_self, Item.takeAway_add (by omega) (hrest i) hall.2]
      · rw [if_neg (by simpa using hi.symm), zero_add, Function.update_of_ne hi]
    · refine ⟨fun l' hl' => hsell.idx l' (by simp [hl']), fun j hj => ?_⟩
      rw [hinv]
      rcases eq_or_ne j idx with rfl | hji
      · rw [Function.update_self]
        have := hrest j
        obtain ⟨hname, hleft⟩ := Item.takeAway_left (by omega) (by omega) hall.2
        rw [hname, hleft]
        exact ⟨hall.1, by omega⟩
      · rw [Function.update_of_ne hji]
        have := hsell.listed j (by rw [sellListed_cons, hidx]; simpa [hji.symm] using hj)
        rw [sellListed_cons, hidx, if_neg (by simpa using hji.symm), zero_add] at this
        exact this
    · intro j hj
      rw [hinv] at hj
      rw [hdel]
      dsimp only
      rcases eq_or_ne j idx with rfl | hji
      · have hpart : (sd.inventory j).amount.toInt ≠ l.amount.toNat := by
          intro hempty
          rw [Function.update_self, Item.takeAway_all (by omega) hempty] at hj
          exact hj rfl
        rw [if_neg hpart, hsome]
        simp
      · rw [Function.update_of_ne hji] at hj
        split
        · rw [Function.update_of_ne hji]
          exact hdata j hj
        · exact hdata j hj

theorem pcDelitems_zeny (sd : MapSessionData) (ls : List SellLine) :
    (ls.foldl (fun sd l => l.idx.elim sd fun idx => pcDelitem sd idx l.amount.toNat)
      sd).zeny = sd.zeny := by
  induction ls generalizing sd with
  | nil => rfl
  | cons l ls ih =>
    rw [List.foldl_cons, ih]
    cases l.idx with
    | none => rfl
    | some idx => exact pcDelitem_zeny

/-- **A sale pays exactly for what it removes**, whatever indexes and amounts the client sends. -/
theorem npcSelllist_exact (world : NpcWorld) (db : ItemDb) (sd : MapSessionData)
    (ls : List SellLine)
    (hdata : ∀ i, (sd.inventory i).nameid ≠ 0 → sd.inventoryData i ≠ none) :
    SellExact db sd ls (clifParseNpcSellListSend world db sd ls) := by
  unfold clifParseNpcSellListSend
  split
  · exact .inl ⟨by simp, rfl⟩
  rename_i hlen
  have hls : ls ≠ [] := by rintro rfl; simp at hlen
  dsimp only
  unfold npcSelllist
  cases hshop : npcShop world sd with
  | none => exact .inl ⟨by simp, rfl⟩
  | some nd =>
    dsimp only
    cases hcheck : npcSelllistCheck db sd sd.inventory 0 ls with
    | error fail =>
      exact .inl ⟨fun h0 => npcSelllistCheck_error hcheck (Option.some.inj h0), rfl⟩
    | ok total =>
      obtain ⟨hsell, htotal, hbounds⟩ := npcSelllistCheck_ok hcheck
      have hmax := (hbounds hls).2
      rw [zero_add] at htotal
      refine .inr ⟨rfl, fun i => ?_, fun i => ?_, ?_, ?_⟩
      · rcases eq_or_ne (sellListed ls i) 0 with h0 | h0
        · exact .inl h0
        · exact .inr (hsell.listed i h0).2
      · have hget := pcGetzeny_frame sd total
        dsimp only
        rw [pcDelitems_takeAway (by rw [hget]; exact hsell) (by rw [hget]; exact hdata), hget]
      · dsimp only
        rw [pcDelitems_zeny, pcGetzeny_zeny hmax, htotal]
        rfl
      · dsimp only
        rw [pcDelitems_zeny, pcGetzeny_zeny hmax]
        exact hmax

/-- Selling seven potions in two lines of the same slot. -/
theorem npcSelllist_exact_potions :
    (clifParseNpcSellListSend potionShop (fun _ => none) potionBuyer [⟨2, 3⟩, ⟨2, 4⟩]).1 = some 0 ∧
      SellExact (fun _ => none) potionBuyer [⟨2, 3⟩, ⟨2, 4⟩]
        (clifParseNpcSellListSend potionShop (fun _ => none) potionBuyer [⟨2, 3⟩, ⟨2, 4⟩]) :=
  ⟨by decide, npcSelllist_exact _ _ _ _ (by decide)⟩

end Sell

end Nezumi
