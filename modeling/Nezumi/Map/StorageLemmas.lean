import Nezumi.Map.Storage
import Nezumi.Map.TradeLemmas
import Mathlib.Tactic.Ring

/-!
# What the moves between containers do (`map/storage.c`, `map/pc.c`)

* `StoreShifted t t' k q`: the table `t'` holds `q` units of `k` more than `t`, by every count.
* `itemAdditem_puts`, `pcAdditem_puts`: an insertion is one of two writes, `Puts`.
* `PlayerStock`, `StorageOk`: the amounts of the slots are in range, and the weights and the numbers
  of used slots are those of the slots.
* `pcAdditem_stock`, `pcDelitem_stock`, `pcCartAdditem_stock`, `pcCartDelitem_stock`,
  `storAdditem_stock`, `storDelitem_stock`: each operation keeps these, and shifts one table.
* `storAdd_moves` to `storGettocart_moves`, `pcPutitemtocart_moves` and `pcGetitemfromcart_moves`:
  every move does nothing, or shifts one table up and one down by the same.
-/

namespace Nezumi

variable {n : ℕ}

/-- A slot is empty, or holds between one and `MAX_AMOUNT` of an item. -/
def SlotFine (it : Item) : Prop :=
  it.nameid = 0 ∧ it.amount = 0 ∨
    0 < it.nameid.toInt ∧ 1 ≤ it.amount.toInt ∧ it.amount.toInt ≤ maxAmount

instance (it : Item) : Decidable (SlotFine it) := inferInstanceAs (Decidable (_ ∨ _))

def TableFine (t : Fin n → Item) : Prop := ∀ i, SlotFine (t i)

instance (t : Fin n → Item) : Decidable (TableFine t) :=
  inferInstanceAs (Decidable (∀ i, SlotFine (t i)))

/-- The number of slots that hold something. -/
def used (t : Fin n → Item) : Int := Slots.card (fun it => it.nameid != 0) t

/-- What a unit of an item weighs. -/
def unitWeight (db : ItemDb) (k : Identity) : Int := itemdbWeight db k.nameid.toInt

/-- The second table holds `q` units of `k` more, whatever units count. -/
def StoreShifted (t t' : Fin n → Item) (k : Identity) (q : Int) : Prop :=
  ∀ f : Identity → ℤ, worth f t' = worth f t + q * f k

/-- An amount of an item is added to a table: onto a slot that holds the same item, or into an empty
one. -/
def Puts (t t' : Fin n → Item) (item : Item) (q : Int) (fresh : Bool) : Prop :=
  0 < q ∧ 0 < item.nameid.toInt ∧
    ((fresh = false ∧ ∃ i, (t i).nameid ≠ 0 ∧ (t i).identity = item.identity ∧
        (t i).amount.toInt + q ≤ maxAmount ∧
        t' = Function.update t i ((t i).withAmount ((t i).amount.toInt + q))) ∨
      fresh = true ∧ ∃ i, (t i).nameid = 0 ∧ t' = Function.update t i (item.withAmount q))

section Tables

variable {db : ItemDb} {t t' : Fin n → Item} {item : Item} {q : Int} {fresh : Bool}

theorem Puts.shifted (h : Puts t t' item q fresh) (hq : q ≤ maxAmount) :
    StoreShifted t t' item.identity q := by
  have hmax : maxAmount = 30000 := rfl
  obtain ⟨hpos, hn, ⟨-, i, hi, hid, hle, rfl⟩ | ⟨-, i, hi, rfl⟩⟩ := h
  · intro f
    rw [worth_update, Item.worth, Item.worth, if_neg hi, Item.withAmount_nameid, if_neg hi,
      toInt_topUp hpos hle, Item.withAmount_identity, hid]
    simp only [smul_eq_mul]
    ring
  · intro f
    rw [worth_update, Item.worth, Item.worth, if_pos hi, Item.withAmount_nameid,
      if_neg (nameid_ne_zero hn), Item.withAmount_amount, toInt_ofInt (by omega) (by omega),
      Item.withAmount_identity]
    simp only [smul_eq_mul]
    ring

theorem Puts.fine (h : Puts t t' item q fresh) (hq : q ≤ maxAmount) (ht : TableFine t) :
    TableFine t' := by
  have hmax : maxAmount = 30000 := rfl
  obtain ⟨hpos, hn, ⟨-, i, hi, hid, hle, rfl⟩ | ⟨-, i, hi, rfl⟩⟩ := h
  all_goals
    intro j
    rcases eq_or_ne j i with rfl | hj
    swap
    · rw [Function.update_of_ne hj]
      exact ht j
    rw [Function.update_self]
  · obtain ⟨h0, -⟩ | ⟨h1, h2, -⟩ := ht j
    · exact absurd h0 hi
    · exact .inr ⟨h1, by rw [toInt_topUp hpos hle]; omega, by rw [toInt_topUp hpos hle]; exact hle⟩
  · refine .inr ⟨hn, ?_, ?_⟩ <;> rw [Item.withAmount_amount, toInt_ofInt (by omega) (by omega)] <;>
      omega

theorem Puts.used (h : Puts t t' item q fresh) :
    used t' = used t + if fresh then 1 else 0 := by
  obtain ⟨-, hn, ⟨rfl, i, hi, -, -, rfl⟩ | ⟨rfl, i, hi, rfl⟩⟩ := h
  · unfold Nezumi.used
    rw [Slots.card_update]
    simp [hi]
  · unfold Nezumi.used
    rw [Slots.card_update]
    simp [hi, nameid_ne_zero hn]

theorem itemAdditem_puts (h : itemAdditem db t item q = some (t', fresh)) :
    Puts t t' item q fresh := by
  unfold itemAdditem at h
  split at h
  · cases h
  rename_i hbad
  have hn : item.nameid ≠ 0 := nameid_ne_zero (by omega)
  refine ⟨by omega, by omega, ?_⟩
  split at h
  · rename_i i hi
    split at h
    · cases h
    · rename_i hle
      cases h
      have hsame : sameItem item (t i) = true := by
        split at hi
        · cases hi
        · exact Slots.first_some hi
      have hid := sameItem_iff.mp hsame
      refine .inl ⟨rfl, i, ?_, hid, by omega, rfl⟩
      rw [show (t i).nameid = item.nameid from congrArg Identity.nameid hid]
      exact hn
  · split at h
    · rename_i i hi
      cases h
      exact .inr ⟨rfl, i, by simpa using Slots.first_some hi, rfl⟩
    · cases h

/-- A successful `pc_additem` inserts as the other containers do. -/
theorem pcAdditem_puts {sd : MapSessionData} (h : (pcAdditem db sd item q).1 = 0) :
    ∃ fresh, Puts sd.inventory (pcAdditem db sd item q).2.inventory item q fresh := by
  obtain ⟨hret, -⟩ | ⟨hn, i, hk, hle, ha, hs⟩ | ⟨hn, i, -, hfree, ha, hs⟩ :=
    pcAdditem_cases db sd item q
  · exact absurd h hret
  · rw [hs]
    obtain ⟨hne, hid⟩ := slot_of_stackOf hk
    exact ⟨false, ha, hn, .inl ⟨rfl, i, hne, hid, hle, rfl⟩⟩
  · rw [hs]
    exact ⟨true, ha, hn, .inr ⟨rfl, i, slot_of_free hfree, rfl⟩⟩

/-! ## Removals -/

variable {i : Fin n}

theorem shifted_takeAway (hn : (t i).nameid ≠ 0) (h0 : 0 < q) (hle : q ≤ (t i).amount.toInt) :
    StoreShifted t (Function.update t i ((t i).takeAway q)) (t i).identity (-q) := by
  intro f
  rw [worth_update, Item.worth_takeAway f hn h0 hle]
  simp only [smul_eq_mul]
  ring

theorem fine_takeAway (ht : TableFine t) (h0 : 0 < q) (hle : q ≤ (t i).amount.toInt) :
    TableFine (Function.update t i ((t i).takeAway q)) := by
  intro j
  rcases eq_or_ne j i with rfl | hj
  · rw [Function.update_self]
    rcases eq_or_ne (t j).amount.toInt q with hall | hpart
    · rw [Item.takeAway_all h0 hall]
      exact .inl ⟨rfl, rfl⟩
    · rw [Item.takeAway_of_lt h0 (by omega)]
      have hleft := Item.withAmount_left (t j) h0.le hle
      obtain ⟨-, hz⟩ | ⟨h1, -, h3⟩ := ht j
      · rw [hz] at hle
        exact absurd hle (by rw [Int16.toInt_zero]; omega)
      · exact .inr ⟨h1, by rw [hleft]; omega, by rw [hleft]; omega⟩
  · rw [Function.update_of_ne hj]
    exact ht j

theorem used_takeAway (hn : (t i).nameid ≠ 0) (h0 : 0 < q) (hle : q ≤ (t i).amount.toInt) :
    used (Function.update t i ((t i).takeAway q)) =
      used t - if (t i).amount.toInt = q then 1 else 0 := by
  unfold used
  rw [Slots.card_update]
  rcases eq_or_ne (t i).amount.toInt q with hall | hpart
  · rw [Item.takeAway_all h0 hall, if_pos hall]
    simp [hn, Item.zero]
  · rw [Item.takeAway_of_lt h0 (by omega), if_neg hpart]
    simp [hn]

/-- A slot of a well-formed table that holds an amount holds an item. -/
theorem TableFine.nameid_ne (ht : TableFine t) (h : 0 < (t i).amount.toInt) : (t i).nameid ≠ 0 := by
  obtain ⟨-, hz⟩ | ⟨h1, -⟩ := ht i
  · rw [hz, Int16.toInt_zero] at h
    omega
  · exact nameid_ne_zero h1

theorem TableFine.le_max (ht : TableFine t) : (t i).amount.toInt ≤ maxAmount := by
  obtain ⟨-, hz⟩ | ⟨-, -, h3⟩ := ht i
  · rw [hz]
    decide
  · exact h3

end Tables

/-! ## Players and storages -/

/-- The belongings of a player, and what is kept about them. -/
structure PlayerStock (db : ItemDb) (sd : MapSessionData) : Prop where
  slots : SlotsOk db sd
  inventory : TableFine sd.inventory
  cart : TableFine sd.cart
  weight : sd.weight = worth (unitWeight db) sd.inventory
  cartWeight : sd.cartWeight = worth (unitWeight db) sd.cart
  cartNum : sd.cartNum = used sd.cart

/-- A storage, and what is kept about it. -/
structure StorageOk (stor : Storage n) : Prop where
  slots : TableFine stor.slots
  storageAmount : stor.storageAmount = used stor.slots

/-- Whose the belongings are. -/
structure SamePlayer (sd sd' : MapSessionData) : Prop where
  id : sd'.id = sd.id
  guildId : sd'.guildId = sd.guildId

section Stock

variable {db : ItemDb} {sd : MapSessionData} {stor : Storage n} {item : Item} {q : Int}

theorem SamePlayer.trans {sd' sd'' : MapSessionData} (h : SamePlayer sd sd')
    (h' : SamePlayer sd' sd'') : SamePlayer sd sd'' :=
  ⟨h'.id.trans h.id, h'.guildId.trans h.guildId⟩

theorem itemWeight_eq (db : ItemDb) (item : Item) (q : Int) :
    itemWeight db item q = q * unitWeight db item.identity := mul_comm _ _

/-- **`pc_additem`** -/
theorem pcAdditem_stock (h : PlayerStock db sd) (hret : (pcAdditem db sd item q).1 = 0)
    (hq : q ≤ maxAmount) :
    PlayerStock db (pcAdditem db sd item q).2 ∧ SamePlayer sd (pcAdditem db sd item q).2 ∧
      StoreShifted sd.inventory (pcAdditem db sd item q).2.inventory item.identity q ∧
      (pcAdditem db sd item q).2.cart = sd.cart := by
  have hmax : maxAmount = 30000 := rfl
  obtain ⟨fresh, hputs⟩ := pcAdditem_puts hret
  have hshift := hputs.shifted hq
  have hweight : (pcAdditem db sd item q).2.weight = sd.weight + itemWeight db item q := by
    obtain ⟨h0, -⟩ | ⟨-, i, -, -, -, hs⟩ | ⟨-, i, -, -, -, hs⟩ := pcAdditem_cases db sd item q
    · exact absurd hret h0
    · rw [hs]
    · rw [hs]
  have hslots : SlotsOk db (pcAdditem db sd item q).2 :=
    h.slots.pcAdditem (show q < 2 ^ 15 by omega)
  obtain ⟨inv, data, wt, hframe⟩ := pcAdditem_frame db sd item q
  have hcart : (pcAdditem db sd item q).2.cart = sd.cart := by rw [hframe]
  refine ⟨⟨hslots, hputs.fine hq h.inventory, ?_, ?_, ?_, ?_⟩, ?_, hshift, hcart⟩
  · rw [hcart]
    exact h.cart
  · rw [hweight, hshift, h.weight, itemWeight_eq]
  · rw [hcart, hframe]
    exact h.cartWeight
  · rw [hcart, hframe]
    exact h.cartNum
  · rw [hframe]
    exact ⟨rfl, rfl⟩

/-- **`pc_delitem`** -/
theorem pcDelitem_stock (h : PlayerStock db sd) {i : Fin maxInventory} (h0 : 0 < q)
    (hle : q ≤ (sd.inventory i).amount.toInt) :
    PlayerStock db (pcDelitem sd i q) ∧ SamePlayer sd (pcDelitem sd i q) ∧
      StoreShifted sd.inventory (pcDelitem sd i q).inventory (sd.inventory i).identity (-q) ∧
      (pcDelitem sd i q).cart = sd.cart := by
  have hn := h.inventory.nameid_ne (i := i) (by omega)
  have hshift := shifted_takeAway hn h0 hle
  have hslots := h.slots.pcDelitem h0 hle
  rw [h.slots.pcDelitem_eq h0 hle] at hslots ⊢
  refine ⟨⟨hslots, fine_takeAway h.inventory h0 hle, h.cart, ?_, h.cartWeight, h.cartNum⟩,
    ⟨rfl, rfl⟩, hshift, rfl⟩
  dsimp only
  rw [hshift, h.weight, itemWeight_eq]
  ring

/-- **`pc_cart_additem`** -/
theorem pcCartAdditem_stock (h : PlayerStock db sd) (hret : (pcCartAdditem db sd item q).1 = 0)
    (hq : q ≤ maxAmount) :
    PlayerStock db (pcCartAdditem db sd item q).2 ∧ SamePlayer sd (pcCartAdditem db sd item q).2 ∧
      StoreShifted sd.cart (pcCartAdditem db sd item q).2.cart item.identity q ∧
      (pcCartAdditem db sd item q).2.inventory = sd.inventory := by
  unfold pcCartAdditem at hret ⊢
  dsimp only at hret ⊢
  split
  · rw [if_pos (by assumption)] at hret
    cases hret
  rename_i hroom
  rw [if_neg hroom] at hret
  cases hadd : itemAdditem db sd.cart item q with
  | none =>
    rw [hadd] at hret
    cases hret
  | some r =>
    obtain ⟨cart, fresh⟩ := r
    have hputs := itemAdditem_puts hadd
    have hshift := hputs.shifted hq
    refine ⟨⟨h.slots, h.inventory, hputs.fine hq h.cart, h.weight, ?_, ?_⟩, ⟨rfl, rfl⟩, hshift, rfl⟩
    · dsimp only
      rw [hshift, h.cartWeight]
      change worth (unitWeight db) sd.cart + itemWeight db item q = _
      rw [itemWeight_eq]
    · dsimp only
      rw [hputs.used, h.cartNum]
      cases fresh <;> simp

theorem pcCartAdditem_of_ne_zero (h : (pcCartAdditem db sd item q).1 ≠ 0) :
    (pcCartAdditem db sd item q).2 = sd := by
  unfold pcCartAdditem at h ⊢
  dsimp only at h ⊢
  split
  · rfl
  · rename_i hroom
    rw [if_neg hroom] at h
    cases hadd : itemAdditem db sd.cart item q with
    | none => rfl
    | some r =>
      rw [hadd] at h
      exact absurd rfl h

/-- **`pc_cart_delitem`** -/
theorem pcCartDelitem_stock (h : PlayerStock db sd) {i : Fin maxCart} (h0 : 0 < q)
    (hle : q ≤ (sd.cart i).amount.toInt) :
    PlayerStock db (pcCartDelitem db sd i q) ∧ SamePlayer sd (pcCartDelitem db sd i q) ∧
      StoreShifted sd.cart (pcCartDelitem db sd i q).cart (sd.cart i).identity (-q) ∧
      (pcCartDelitem db sd i q).inventory = sd.inventory := by
  have hn := h.cart.nameid_ne (i := i) (by omega)
  have hshift := shifted_takeAway hn h0 hle
  have hleft := Item.withAmount_left (sd.cart i) h0.le hle
  have heq : pcCartDelitem db sd i q = { sd with
      cart := Function.update sd.cart i ((sd.cart i).takeAway q)
      cartWeight := sd.cartWeight - itemWeight db (sd.cart i) q
      cartNum := sd.cartNum - if (sd.cart i).amount.toInt = q then 1 else 0 } := by
    unfold pcCartDelitem
    dsimp only
    rw [if_neg (by rintro (h1 | h1); exacts [hn h1, by omega]), hleft]
    rcases eq_or_ne (sd.cart i).amount.toInt q with hall | hpart
    · rw [if_pos (by omega), if_pos hall, Item.takeAway_all h0 hall]
      simp [itemWeight]
    · rw [if_neg (by omega), if_neg hpart, Item.takeAway_of_lt h0 (by omega)]
      simp [itemWeight]
  rw [heq]
  refine ⟨⟨h.slots, h.inventory, fine_takeAway h.cart h0 hle, h.weight, ?_, ?_⟩, ⟨rfl, rfl⟩, hshift,
    rfl⟩
  · dsimp only
    rw [hshift, h.cartWeight, itemWeight_eq]
    ring
  · dsimp only
    rw [used_takeAway hn h0 hle, h.cartNum]

/-- **`storage_additem`**, **`guild_storage_additem`** -/
theorem storAdditem_stock (h : StorageOk stor) (hret : (storAdditem db stor item q).1 = 0)
    (hq : q ≤ maxAmount) :
    StorageOk (storAdditem db stor item q).2 ∧
      StoreShifted stor.slots (storAdditem db stor item q).2.slots item.identity q := by
  unfold storAdditem at hret ⊢
  cases hadd : itemAdditem db stor.slots item q with
  | none =>
    rw [hadd] at hret
    cases hret
  | some r =>
    obtain ⟨slots, fresh⟩ := r
    have hputs := itemAdditem_puts hadd
    refine ⟨⟨hputs.fine hq h.slots, ?_⟩, hputs.shifted hq⟩
    dsimp only
    rw [hputs.used, h.storageAmount]
    cases fresh <;> simp

theorem storAdditem_of_ne_zero (h : (storAdditem db stor item q).1 ≠ 0) :
    (storAdditem db stor item q).2 = stor := by
  unfold storAdditem at h ⊢
  cases hadd : itemAdditem db stor.slots item q with
  | none => rfl
  | some r =>
    rw [hadd] at h
    exact absurd rfl h

/-- **`storage_delitem`**, **`guild_storage_delitem`** -/
theorem storDelitem_stock (h : StorageOk stor) {i : Fin n} (h0 : 0 < q)
    (hle : q ≤ (stor.slots i).amount.toInt) :
    StorageOk (storDelitem stor i q).2 ∧
      StoreShifted stor.slots (storDelitem stor i q).2.slots (stor.slots i).identity (-q) := by
  have hn := h.slots.nameid_ne (i := i) (by omega)
  have hshift := shifted_takeAway hn h0 hle
  have hleft := Item.withAmount_left (stor.slots i) h0.le hle
  have heq : (storDelitem stor i q).2 = { stor with
      slots := Function.update stor.slots i ((stor.slots i).takeAway q)
      storageAmount := stor.storageAmount - if (stor.slots i).amount.toInt = q then 1 else 0 } := by
    unfold storDelitem
    dsimp only
    rw [if_neg (by rintro (h1 | h1); exacts [hn h1, by omega]), hleft]
    rcases eq_or_ne (stor.slots i).amount.toInt q with hall | hpart
    · rw [if_pos (by omega), if_pos hall, Item.takeAway_all h0 hall]
    · rw [if_neg (by omega), if_neg hpart, Item.takeAway_of_lt h0 (by omega)]
      simp
  rw [heq]
  refine ⟨⟨fine_takeAway h.slots h0 hle, ?_⟩, hshift⟩
  dsimp only
  rw [used_takeAway hn h0 hle, h.storageAmount]

/-! ## The moves -/

/-- The two tables of a player. -/
inductive Part
  | inventory
  | cart
deriving DecidableEq

/-- What a part of a player holds. -/
def partWorth (f : Identity → ℤ) (sd : MapSessionData) : Part → ℤ
  | .inventory => worth f sd.inventory
  | .cart => worth f sd.cart

/-- A part of a player holds `q` units of `k` more, the other part what it held. -/
def PartShifted (sd sd' : MapSessionData) (p : Part) (k : Identity) (q : Int) : Prop :=
  ∀ f p', partWorth f sd' p' = partWorth f sd p' + if p' = p then q * f k else 0

theorem partShifted_inventory {sd' : MapSessionData} {k : Identity}
    (h : StoreShifted sd.inventory sd'.inventory k q) (hcart : sd'.cart = sd.cart) :
    PartShifted sd sd' .inventory k q := by
  intro f p
  cases p with
  | inventory => exact h f
  | cart => simp [partWorth, hcart]

theorem partShifted_cart {sd' : MapSessionData} {k : Identity}
    (h : StoreShifted sd.cart sd'.cart k q) (hinv : sd'.inventory = sd.inventory) :
    PartShifted sd sd' .cart k q := by
  intro f p
  cases p with
  | inventory => simp [partWorth, hinv]
  | cart => exact h f

/-- Between the parts of a player: `q` units of `k` go from `src` to the other part. -/
structure Carried (db : ItemDb) (sd sd' : MapSessionData) (src dst : Part) (k : Identity)
    (q : Int) : Prop where
  pos : 1 ≤ q
  player : PlayerStock db sd'
  same : SamePlayer sd sd'
  worth : ∀ f p, partWorth f sd' p =
    partWorth f sd p + (if p = dst then q * f k else 0) - if p = src then q * f k else 0

/-- Between a storage and a part of a player: the storage has `q` units of `k` more, the part as
many less. -/
structure Stored (db : ItemDb) (stor : Storage n) (sd : MapSessionData)
    (r : Storage n × MapSessionData) (p : Part) (k : Identity) (q : Int) : Prop where
  storage : StorageOk r.1
  player : PlayerStock db r.2
  same : SamePlayer sd r.2
  shift : StoreShifted stor.slots r.1.slots k q
  part : PartShifted sd r.2 p k (-q)

theorem PartShifted.carried {sd₁ sd₂ : MapSessionData} {src dst : Part} {k : Identity}
    (hq : 1 ≤ q) (hstock : PlayerStock db sd₂) (h₁ : SamePlayer sd sd₁) (h₂ : SamePlayer sd₁ sd₂)
    (hdst : PartShifted sd sd₁ dst k q) (hsrc : PartShifted sd₁ sd₂ src k (-q)) :
    Carried db sd sd₂ src dst k q := by
  refine ⟨hq, hstock, h₁.trans h₂, fun f p => ?_⟩
  rw [hsrc f p, hdst f p]
  split <;> split <;> ring

/-- An amount that a slot of a well-formed table has, and that is not zero or less. -/
theorem TableFine.amount_pos {t : Fin n → Item} (ht : TableFine t) {i : Fin n}
    (hn : (t i).nameid ≠ 0) : 1 ≤ (t i).amount.toInt := by
  obtain ⟨h0, -⟩ | ⟨-, h1, -⟩ := ht i
  · exact absurd h0 hn
  · exact h1

/-- An insertion of nothing, or of less, is refused. -/
theorem pcCartAdditem_pos (h : (pcCartAdditem db sd item q).1 = 0) : 0 < q := by
  by_contra hq
  unfold pcCartAdditem itemAdditem at h
  dsimp only at h
  rw [if_pos (Or.inr (not_lt.mp hq) : item.nameid.toInt ≤ 0 ∨ q ≤ 0)] at h
  split at h <;> cases h

theorem pcAdditem_pos (h : (pcAdditem db sd item q).1 = 0) : 0 < q := by
  obtain ⟨fresh, hputs⟩ := pcAdditem_puts h
  exact hputs.1

theorem storAdditem_pos (h : (storAdditem db stor item q).1 = 0) : 0 < q := by
  by_contra hq
  unfold storAdditem itemAdditem at h
  rw [if_pos (Or.inr (not_lt.mp hq) : item.nameid.toInt ≤ 0 ∨ q ≤ 0)] at h
  cases h

/-- **`pc_putitemtocart`** -/
theorem pcPutitemtocart_moves (conf : StorageConf) (h : PlayerStock db sd) (idx amount : Int) :
    pcPutitemtocart conf db sd idx amount = sd ∨
      ∃ k q, Carried db sd (pcPutitemtocart conf db sd idx amount) .inventory .cart k q := by
  unfold pcPutitemtocart
  cases hslot : slotAt maxInventory idx with
  | none => exact .inl rfl
  | some i =>
    dsimp only
    split
    · exact .inl rfl
    rename_i hbad
    split
    · exact .inl rfl
    by_cases hret : (pcCartAdditem db sd (sd.inventory i) amount).1 = 0
    · rw [if_pos hret]
      have hpos := pcCartAdditem_pos hret
      have hle : amount ≤ (sd.inventory i).amount.toInt := by omega
      have hmax := h.inventory.le_max (i := i)
      obtain ⟨h₁, hsame₁, hshift₁, hinv⟩ := pcCartAdditem_stock h hret (by omega)
      obtain ⟨h₂, hsame₂, hshift₂, hcart⟩ :=
        pcDelitem_stock h₁ (i := i) hpos (by rw [hinv]; exact hle)
      rw [hinv] at hshift₂
      exact .inr ⟨_, amount, PartShifted.carried (by omega) h₂ hsame₁ hsame₂
        (partShifted_cart hshift₁ hinv)
        (partShifted_inventory (by rw [hinv]; exact hshift₂) hcart)⟩
    · rw [if_neg hret]
      exact .inl (pcCartAdditem_of_ne_zero hret)

/-- **`pc_getitemfromcart`** -/
theorem pcGetitemfromcart_moves (h : PlayerStock db sd) (idx amount : Int) :
    pcGetitemfromcart db sd idx amount = sd ∨
      ∃ k q, Carried db sd (pcGetitemfromcart db sd idx amount) .cart .inventory k q := by
  unfold pcGetitemfromcart
  cases hslot : slotAt maxCart idx with
  | none => exact .inl rfl
  | some i =>
    dsimp only
    split
    · exact .inl rfl
    rename_i hbad
    by_cases hret : (pcAdditem db sd (sd.cart i) amount).1 = 0
    · rw [if_pos hret]
      have hpos := pcAdditem_pos hret
      have hle : amount ≤ (sd.cart i).amount.toInt := by omega
      have hmax := h.cart.le_max (i := i)
      obtain ⟨h₁, hsame₁, hshift₁, hcart⟩ := pcAdditem_stock h hret (by omega)
      obtain ⟨h₂, hsame₂, hshift₂, hinv⟩ :=
        pcCartDelitem_stock h₁ (i := i) hpos (by rw [hcart]; exact hle)
      rw [hcart] at hshift₂
      exact .inr ⟨_, amount, PartShifted.carried (by omega) h₂ hsame₁ hsame₂
        (partShifted_inventory hshift₁ hcart)
        (partShifted_cart (by rw [hcart]; exact hshift₂) hinv)⟩
    · rw [if_neg hret]
      exact .inl (pcAdditem_of_ne_zero hret)

/-- **`storage_storageadd`**, **`storage_guild_storageadd`** -/
theorem storAdd_moves (hstor : StorageOk stor) (h : PlayerStock db sd) (i : Fin maxInventory)
    {amount : Int} (hle : amount ≤ (sd.inventory i).amount.toInt) :
    storAdd db stor sd i amount = (stor, sd) ∨
      ∃ k q, 1 ≤ q ∧ Stored db stor sd (storAdd db stor sd i amount) .inventory k q := by
  unfold storAdd
  split
  swap
  · exact .inl rfl
  dsimp only
  by_cases hret : (storAdditem db stor (sd.inventory i) amount).1 = 0
  · rw [if_pos hret]
    have hpos := storAdditem_pos hret
    have hmax := h.inventory.le_max (i := i)
    obtain ⟨hstor₁, hshift₁⟩ := storAdditem_stock hstor hret (by omega)
    obtain ⟨h₂, hsame₂, hshift₂, hcart⟩ := pcDelitem_stock h hpos hle
    exact .inr ⟨_, amount, by omega, hstor₁, h₂, hsame₂, hshift₁,
      partShifted_inventory hshift₂ hcart⟩
  · rw [if_neg hret, storAdditem_of_ne_zero hret]
    exact .inl rfl

/-- **`storage_storageaddfromcart`**, **`storage_guild_storageaddfromcart`** -/
theorem storAddfromcart_moves (hstor : StorageOk stor) (h : PlayerStock db sd) (idx amount : Int) :
    storAddfromcart db stor sd idx amount = (stor, sd) ∨
      ∃ k q, 1 ≤ q ∧ Stored db stor sd (storAddfromcart db stor sd idx amount) .cart k q := by
  unfold storAddfromcart
  split
  swap
  · exact .inl rfl
  cases hslot : slotAt maxCart idx with
  | none => exact .inl rfl
  | some i =>
    dsimp only
    split
    swap
    · exact .inl rfl
    rename_i hamount
    by_cases hret : (storAdditem db stor (sd.cart i) amount).1 = 0
    · rw [if_pos hret]
      have hmax := h.cart.le_max (i := i)
      obtain ⟨hstor₁, hshift₁⟩ := storAdditem_stock hstor hret (by omega)
      obtain ⟨h₂, hsame₂, hshift₂, hinv⟩ := pcCartDelitem_stock h hamount.2 hamount.1
      exact .inr ⟨_, amount, hamount.2, hstor₁, h₂, hsame₂, hshift₁, partShifted_cart hshift₂ hinv⟩
    · rw [if_neg hret, storAdditem_of_ne_zero hret]
      exact .inl rfl

/-- **`storage_storageget`**, **`storage_guild_storageget`** -/
theorem storGet_moves (hstor : StorageOk stor) (h : PlayerStock db sd) (i : Fin n) (amount : Int) :
    storGet db stor sd i amount = (stor, sd) ∨
      ∃ k q, 1 ≤ q ∧ Stored db stor sd (storGet db stor sd i amount) .inventory k (-q) := by
  unfold storGet
  split
  swap
  · exact .inl rfl
  rename_i hamount
  dsimp only
  by_cases hret : (pcAdditem db sd (stor.slots i) amount).1 = 0
  · rw [if_pos hret]
    have hpos := pcAdditem_pos hret
    have hmax := hstor.slots.le_max (i := i)
    obtain ⟨h₁, hsame₁, hshift₁, hcart⟩ := pcAdditem_stock h hret (by omega)
    obtain ⟨hstor₂, hshift₂⟩ := storDelitem_stock hstor hpos hamount.2
    exact .inr ⟨_, amount, by omega, hstor₂, h₁, hsame₁, hshift₂,
      partShifted_inventory (by rw [neg_neg]; exact hshift₁) hcart⟩
  · rw [if_neg hret, pcAdditem_of_ne_zero hret]
    exact .inl rfl

/-- **`storage_storagegettocart`**, **`storage_guild_storagegettocart`** -/
theorem storGettocart_moves (hstor : StorageOk stor) (h : PlayerStock db sd) (idx amount : Int) :
    storGettocart db stor sd idx amount = (stor, sd) ∨
      ∃ k q, 1 ≤ q ∧ Stored db stor sd (storGettocart db stor sd idx amount) .cart k (-q) := by
  unfold storGettocart
  split
  swap
  · exact .inl rfl
  cases hslot : slotAt n idx with
  | none => exact .inl rfl
  | some i =>
    dsimp only
    split
    swap
    · exact .inl rfl
    rename_i hamount
    by_cases hret : (pcCartAdditem db sd (stor.slots i) amount).1 = 0
    · rw [if_pos hret]
      have hmax := hstor.slots.le_max (i := i)
      obtain ⟨h₁, hsame₁, hshift₁, hinv⟩ := pcCartAdditem_stock h hret (by omega)
      obtain ⟨hstor₂, hshift₂⟩ := storDelitem_stock hstor hamount.2 hamount.1
      exact .inr ⟨_, amount, hamount.2, hstor₂, h₁, hsame₁, hshift₂,
        partShifted_cart (by rw [neg_neg]; exact hshift₁) hinv⟩
    · rw [if_neg hret, pcCartAdditem_of_ne_zero hret]
      exact .inl rfl

end Stock

end Nezumi
