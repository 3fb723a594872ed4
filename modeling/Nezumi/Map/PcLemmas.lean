import Nezumi.Lib.Bins
import Nezumi.Lib.Sums
import Nezumi.Map.Pc

/-!
# What the inventory operations do (`map/pc.c`)

* `worth f t`: what a table of items holds, each unit of an item counted as `f` of its identity.
  Different `f` give the number of units of one identity, of one item id, or the whole stock.
* `cells`: the table of stacks an inventory is. `pcAdditem` is `Bins.put` on it, under `stackRule`:
  `pcAdditem_of_put` when there is room, `pcAdditem_worth_lt` when there is none.
* `pcDelitem_eq`, `pcCartDelitem_eq`: what a removal does, and when it does nothing.
-/

namespace Nezumi

variable {M : Type*} [AddCommGroup M] {n : ℕ}

/-- What a slot holds, each unit counted as `f` of the identity. -/
def Item.worth (f : Identity → M) (it : Item) : M :=
  if it.nameid = 0 then 0 else it.amount.toInt • f it.identity

/-- What a table of slots holds. -/
def worth (f : Identity → M) (t : Fin n → Item) : M := Slots.total (Item.worth f) t

/-- The count of the units of one item identity. -/
def ofIdentity (k k' : Identity) : Int := if k' = k then 1 else 0

/-- The units of an item identity in a table of items. -/
def stock {n : ℕ} (t : Fin n → Item) (k : Identity) : Int := worth (ofIdentity k) t

/-- A slot as a stack: free, or an amount of an identity. -/
def Item.cell (it : Item) : Option (Identity × ℤ) :=
  if it.nameid = 0 then none else some (it.identity, it.amount.toInt)

/-- An inventory as a table of stacks. -/
def cells (t : Fin n → Item) : Bins.Table n Identity := fun i => (t i).cell

/-- How `pc_additem` stacks: equipment never, everything else up to `MAX_AMOUNT`; a new stack is
not checked, but its amount is a `short`. -/
def stackRule (db : ItemDb) : Bins.Rule Identity where
  stackable k := !itemdbIsequip2 (itemdbSearch db k.nameid.toInt)
  limit := maxAmount
  width := 2 ^ 15
  limit_lt := by decide

section Cells

variable {item it : Item} {t : Fin n → Item}

theorem worth_eq_value (f : Identity → M) (t : Fin n → Item) :
    worth f t = Bins.value f (cells t) := by
  apply Slots.total_congr
  intro i
  unfold Item.worth cells Item.cell
  split <;> rfl

theorem worth_update (f : Identity → M) (t : Fin n → Item) (i : Fin n) (it : Item) :
    worth f (Function.update t i it) = worth f t - (t i).worth f + it.worth f :=
  Slots.total_update _ t i it

@[simp] theorem worth_zero (f : Identity → M) : Item.zero.worth f = 0 := rfl

theorem cells_update (t : Fin n → Item) (i : Fin n) (it : Item) :
    cells (Function.update t i it) = Function.update (cells t) i it.cell := by
  funext j
  rcases eq_or_ne j i with rfl | hj
  · simp [cells]
  · simp [cells, hj]

theorem sameItem_iff : sameItem item it = true ↔ it.identity = item.identity := by
  simp [sameItem, Item.identity, and_assoc]

/-- `pc_additem` looks for the stack of the item's identity. -/
theorem sameItem_eq_holds (hn : item.nameid ≠ 0) :
    sameItem item it = Bins.holds item.identity it.cell := by
  rw [Bool.eq_iff_iff, sameItem_iff]
  unfold Item.cell
  split
  · rename_i h0
    simp only [Bins.holds_none, Bool.false_eq_true, iff_false]
    intro h
    exact hn (by rw [← h0]; exact (congrArg Identity.nameid h).symm)
  · simp

theorem first_sameItem (hn : item.nameid ≠ 0) :
    Slots.first (sameItem item) t = Slots.first (Bins.holds item.identity) (cells t) :=
  Slots.first_congr fun _ => sameItem_eq_holds hn

theorem isNone_cell : it.cell.isNone = (it.nameid == 0) := by
  unfold Item.cell
  split <;> simp [*]

/-- `pc_search_inventory` for id `0` looks for the first free slot. -/
theorem pcSearchInventory_zero (sd : MapSessionData) :
    pcSearchInventory sd 0 = Slots.first Option.isNone (cells sd.inventory) := by
  apply Slots.first_congr
  intro i
  simp only [cells, isNone_cell]
  rw [Bool.eq_iff_iff]
  simp [← Int16.toInt_inj]

theorem pcSearchInventory_free (sd : MapSessionData) :
    pcSearchInventory sd 0 = Slots.first (fun it => it.nameid == 0) sd.inventory := by
  rw [pcSearchInventory_zero]
  exact Slots.first_congr fun _ => isNone_cell

theorem pcInventoryblank_eq (sd : MapSessionData) :
    pcInventoryblank sd = Slots.card Option.isNone (cells sd.inventory) := by
  unfold pcInventoryblank Slots.card
  simp only [cells, isNone_cell]

end Cells

/-! ## Zeny -/

section Zeny

variable {sd : MapSessionData} {zeny : Int}

theorem pcPayzeny_frame (sd : MapSessionData) (zeny : Int) :
    (pcPayzeny sd zeny).2 = { sd with zeny := (pcPayzeny sd zeny).2.zeny } := by
  unfold pcPayzeny
  split <;> rfl

theorem pcGetzeny_frame (sd : MapSessionData) (zeny : Int) :
    pcGetzeny sd zeny = { sd with zeny := (pcGetzeny sd zeny).zeny } := by
  unfold pcGetzeny
  split <;> rfl

@[simp] theorem pcPayzeny_inventory : (pcPayzeny sd zeny).2.inventory = sd.inventory := by
  rw [pcPayzeny_frame]

@[simp] theorem pcPayzeny_weight : (pcPayzeny sd zeny).2.weight = sd.weight := by
  rw [pcPayzeny_frame]

@[simp] theorem pcPayzeny_maxWeight : (pcPayzeny sd zeny).2.maxWeight = sd.maxWeight := by
  rw [pcPayzeny_frame]

/-- A player who has the zeny pays it, unless what is left passes `MAX_ZENY`. -/
theorem pcPayzeny_zeny_iff (h : zeny ≤ sd.zeny ∨ zeny = 0) :
    (pcPayzeny sd zeny).2.zeny = sd.zeny - zeny ↔ zeny = 0 ∨ sd.zeny - zeny ≤ maxZeny := by
  unfold pcPayzeny
  split
  · constructor
    · intro h0
      have h1 : sd.zeny = sd.zeny - zeny := h0
      left
      omega
    · intro h0
      obtain rfl : zeny = 0 := by omega
      simp
  · exact iff_of_true rfl (by omega)

theorem pcGetzeny_zeny (h : sd.zeny + zeny ≤ maxZeny) :
    (pcGetzeny sd zeny).zeny = sd.zeny + zeny := by
  unfold pcGetzeny
  rw [if_neg (by omega)]

end Zeny

/-! ## Adding an item -/

section Additem

variable {db : ItemDb} {sd : MapSessionData} {item : Item} {amount : Int}

/-- The weight that an amount of an item adds. -/
def itemWeight (db : ItemDb) (item : Item) (amount : Int) : Int :=
  itemdbWeight db item.nameid.toInt * amount

/-- The stack `pc_additem` looks for. -/
theorem pcAdditem_stack (hn : item.nameid ≠ 0) :
    (if itemdbIsequip2 (itemdbSearch db item.nameid.toInt) = true then none
      else Slots.first (sameItem item) sd.inventory) =
      Bins.stackOf (stackRule db) (cells sd.inventory) item.identity := by
  rw [first_sameItem hn]
  unfold Bins.stackOf stackRule
  simp only [Item.identity]
  split <;> simp [*]

theorem toInt_ofInt {x : Int} (h1 : -2 ^ 15 ≤ x) (h2 : x < 2 ^ 15) : (Int16.ofInt x).toInt = x :=
  Int16.toInt_ofInt_of_le h1 h2

/-- A `short` that is too narrow for an amount holds less. -/
theorem ofInt_toInt_le {x : Int} (h : 0 ≤ x) : (Int16.ofInt x).toInt ≤ x := by
  rcases lt_or_ge x (2 ^ 15) with hx | hx
  · exact (toInt_ofInt (by omega) hx).le
  · have := (Int16.ofInt x).toInt_lt
    omega

/-- The stack `pc_additem` finds is a slot with the same item. -/
theorem slot_of_stackOf {t : Fin n → Item} {k : Identity} {i : Fin n}
    (h : Bins.stackOf (stackRule db) (cells t) k = some i) :
    (t i).nameid ≠ 0 ∧ (t i).identity = k := by
  have hh := (Bins.stackOf_some h).2
  unfold cells Item.cell at hh
  split at hh
  · simp at hh
  · rename_i hne
    exact ⟨hne, by simpa using hh⟩

theorem cell_of_nameid_ne {it : Item} (h : it.nameid ≠ 0) :
    it.cell = some (it.identity, it.amount.toInt) := if_neg h

theorem cell_of_stackOf {t : Fin n → Item} {k : Identity} {i : Fin n}
    (h : Bins.stackOf (stackRule db) (cells t) k = some i) :
    cells t i = some (k, (t i).amount.toInt) := by
  obtain ⟨hne, rfl⟩ := slot_of_stackOf h
  exact cell_of_nameid_ne hne

/-- A free slot is one without an item. -/
theorem slot_of_free {t : Fin n → Item} {i : Fin n}
    (h : Slots.first Option.isNone (cells t) = some i) : (t i).nameid = 0 := by
  have := Bins.first_free h
  unfold cells Item.cell at this
  split at this
  · assumption
  · cases this

/-- The amount of a stack that is topped up. -/
theorem toInt_topUp {it : Item} (ha : 0 < amount) (hle : it.amount.toInt + amount ≤ maxAmount) :
    (it.withAmount (it.amount.toInt + amount)).amount.toInt = it.amount.toInt + amount := by
  have := it.amount.le_toInt
  exact toInt_ofInt (by omega) (by simp only [maxAmount] at hle; omega)

theorem nameid_ne_zero {it : Item} (h : 0 < it.nameid.toInt) : it.nameid ≠ 0 := by
  intro h0
  rw [h0] at h
  exact absurd h (by decide)

/-- `pc_additem` past its first checks, on the table of stacks. -/
theorem pcAdditem_eq (hn : 0 < item.nameid.toInt) (ha : 0 < amount)
    (hw : itemWeight db item amount + sd.weight ≤ sd.maxWeight) :
    pcAdditem db sd item amount =
      match Bins.stackOf (stackRule db) (cells sd.inventory) item.identity with
      | some i =>
        if (sd.inventory i).amount.toInt + amount > maxAmount then (5, sd)
        else
          (0, { sd with
            inventory := Function.update sd.inventory i
              ((sd.inventory i).withAmount ((sd.inventory i).amount.toInt + amount))
            weight := sd.weight + itemWeight db item amount })
      | none =>
        match Slots.first Option.isNone (cells sd.inventory) with
        | some i =>
          (0, { sd with
            inventory := Function.update sd.inventory i (item.withAmount amount)
            inventoryData := Function.update sd.inventoryData i
              (some (itemdbSearch db item.nameid.toInt))
            weight := sd.weight + itemWeight db item amount })
        | none => (4, sd) := by
  unfold pcAdditem
  rw [if_neg (by omega)]
  dsimp only
  have hw' : ¬(itemdbSearch db item.nameid.toInt).weight * amount + sd.weight > sd.maxWeight :=
    not_lt.mpr hw
  rw [if_neg hw', pcAdditem_stack (nameid_ne_zero hn), pcSearchInventory_zero]
  rfl

/-- **`pc_additem`.** It fails for a reason and changes nothing, or it adds to the stack of the
item's identity, or, when there is none, it fills the first free slot. -/
theorem pcAdditem_cases (db : ItemDb) (sd : MapSessionData) (item : Item) (amount : Int) :
    ((pcAdditem db sd item amount).1 ≠ 0 ∧ (pcAdditem db sd item amount).2 = sd ∧
      (item.nameid.toInt ≤ 0 ∨ amount ≤ 0 ∨
        sd.maxWeight < itemWeight db item amount + sd.weight ∨
        Bins.put (stackRule db) (cells sd.inventory) item.identity amount = none)) ∨
    (0 < item.nameid.toInt ∧ ∃ i,
      Bins.stackOf (stackRule db) (cells sd.inventory) item.identity = some i ∧
      (sd.inventory i).amount.toInt + amount ≤ maxAmount ∧ 0 < amount ∧
      pcAdditem db sd item amount = (0, { sd with
        inventory := Function.update sd.inventory i
          ((sd.inventory i).withAmount ((sd.inventory i).amount.toInt + amount))
        weight := sd.weight + itemWeight db item amount })) ∨
    (0 < item.nameid.toInt ∧ ∃ i,
      Bins.stackOf (stackRule db) (cells sd.inventory) item.identity = none ∧
      Slots.first Option.isNone (cells sd.inventory) = some i ∧ 0 < amount ∧
      pcAdditem db sd item amount = (0, { sd with
        inventory := Function.update sd.inventory i (item.withAmount amount)
        inventoryData := Function.update sd.inventoryData i
          (some (itemdbSearch db item.nameid.toInt))
        weight := sd.weight + itemWeight db item amount })) := by
  by_cases hbad : item.nameid.toInt ≤ 0 ∨ amount ≤ 0
  · left
    have hret : pcAdditem db sd item amount = (1, sd) := by unfold pcAdditem; rw [if_pos hbad]
    rw [hret]
    exact ⟨by simp, rfl, by grind⟩
  obtain ⟨hn, ha⟩ := not_or.mp hbad
  by_cases hw : itemWeight db item amount + sd.weight > sd.maxWeight
  · left
    have hret : pcAdditem db sd item amount = (2, sd) := by
      unfold pcAdditem
      rw [if_neg hbad]
      exact if_pos hw
    rw [hret]
    exact ⟨by simp, rfl, .inr (.inr (.inl hw))⟩
  have hbody := pcAdditem_eq (not_le.mp hn) (not_le.mp ha) (not_lt.mp hw)
  cases hk : Bins.stackOf (stackRule db) (cells sd.inventory) item.identity with
  | some i =>
    simp only [hk] at hbody
    split at hbody
    · rename_i hover
      left
      rw [hbody]
      refine ⟨by simp, rfl, .inr (.inr (.inr ?_))⟩
      unfold Bins.put
      simp only [hk]
      rw [if_neg]
      rw [cell_of_stackOf hk]
      exact not_le.mpr hover
    · exact .inr (.inl ⟨not_le.mp hn, i, rfl, by omega, by omega, hbody⟩)
  | none =>
    simp only [hk] at hbody
    cases hfr : Slots.first Option.isNone (cells sd.inventory) with
    | some i =>
      simp only [hfr] at hbody
      exact .inr (.inr ⟨not_le.mp hn, i, rfl, rfl, by omega, hbody⟩)
    | none =>
      simp only [hfr] at hbody
      left
      rw [hbody]
      refine ⟨by simp, rfl, .inr (.inr (.inr ?_))⟩
      unfold Bins.put
      simp [hk, hfr]

/-- A failing `pc_additem` changes nothing. -/
theorem pcAdditem_of_ne_zero (h : (pcAdditem db sd item amount).1 ≠ 0) :
    (pcAdditem db sd item amount).2 = sd := by
  obtain ⟨-, hs, -⟩ | ⟨-, i, -, -, -, hs⟩ | ⟨-, i, -, -, -, hs⟩ :=
    pcAdditem_cases db sd item amount
  · exact hs
  · rw [hs] at h; exact absurd rfl h
  · rw [hs] at h; exact absurd rfl h

/-- Only the inventory and the weight change. -/
theorem pcAdditem_frame (db : ItemDb) (sd : MapSessionData) (item : Item) (amount : Int) :
    ∃ inv data w, (pcAdditem db sd item amount).2 =
      { sd with inventory := inv, inventoryData := data, weight := w } := by
  obtain ⟨-, h, -⟩ | ⟨-, i, -, -, -, h⟩ | ⟨-, i, -, -, -, h⟩ := pcAdditem_cases db sd item amount
  · exact ⟨_, _, _, h⟩
  · rw [h]; exact ⟨_, _, _, rfl⟩
  · rw [h]; exact ⟨_, _, _, rfl⟩

@[simp] theorem pcAdditem_zeny : (pcAdditem db sd item amount).2.zeny = sd.zeny := by
  obtain ⟨_, _, _, h⟩ := pcAdditem_frame db sd item amount
  rw [h]

@[simp] theorem pcAdditem_maxWeight :
    (pcAdditem db sd item amount).2.maxWeight = sd.maxWeight := by
  obtain ⟨_, _, _, h⟩ := pcAdditem_frame db sd item amount
  rw [h]

/-- With room in the table of stacks, `pc_additem` succeeds and places the item there. -/
theorem pcAdditem_of_put {t' : Bins.Table maxInventory Identity} (hn : 0 < item.nameid.toInt)
    (ha : 0 < amount) (hw : itemWeight db item amount + sd.weight ≤ sd.maxWeight)
    (hput : Bins.put (stackRule db) (cells sd.inventory) item.identity amount = some t') :
    (pcAdditem db sd item amount).1 = 0 ∧
      cells (pcAdditem db sd item amount).2.inventory = t' ∧
      (pcAdditem db sd item amount).2.weight = sd.weight + itemWeight db item amount := by
  have hn0 := nameid_ne_zero hn
  obtain ⟨-, -, hbad⟩ | ⟨-, i, hk, hle, -, h⟩ | ⟨-, i, hk, hfree, -, h⟩ :=
    pcAdditem_cases db sd item amount
  · rw [hput] at hbad
    simp only [reduceCtorEq, or_false] at hbad
    omega
  · rw [h]
    refine ⟨rfl, ?_, rfl⟩
    obtain ⟨hne, hid⟩ := slot_of_stackOf hk
    rw [Bins.put_topUp hk (by rw [cell_of_stackOf hk]; exact hle), Option.some.injEq] at hput
    rw [← hput, cells_update, cell_of_stackOf hk, Bins.qty_some,
      cell_of_nameid_ne (show ((sd.inventory i).withAmount _).nameid ≠ 0 from hne),
      toInt_topUp ha hle, Item.withAmount_identity, hid]
  · rw [h]
    refine ⟨rfl, ?_, rfl⟩
    obtain ⟨j, hj, -⟩ | ⟨j, -, hlt, hj, rfl⟩ := Bins.put_cases hput
    · rw [hk] at hj; cases hj
    · obtain rfl : i = j := Option.some.inj (hfree.symm.trans hj)
      have hlt' : amount < 2 ^ 15 := hlt
      rw [cells_update, cell_of_nameid_ne (show (item.withAmount _).nameid ≠ 0 from hn0),
        Item.withAmount_amount, toInt_ofInt (by omega) hlt']
      rfl

/-- What `pc_additem` does to a count of the inventory: it adds nothing, or the amount, or the
amount as a `short` in a slot of its own. -/
theorem pcAdditem_worth (db : ItemDb) (sd : MapSessionData) (item : Item) (amount : Int)
    (f : Identity → M) :
    (pcAdditem db sd item amount).1 ≠ 0 ∧
        worth f (pcAdditem db sd item amount).2.inventory = worth f sd.inventory ∨
      0 < item.nameid.toInt ∧ 0 < amount ∧ (
      Bins.put (stackRule db) (cells sd.inventory) item.identity amount ≠ none ∧
        worth f (pcAdditem db sd item amount).2.inventory =
          worth f sd.inventory + amount • f item.identity ∨
      Bins.stackOf (stackRule db) (cells sd.inventory) item.identity = none ∧
        Slots.first Option.isNone (cells sd.inventory) ≠ none ∧
        worth f (pcAdditem db sd item amount).2.inventory =
          worth f sd.inventory + (Int16.ofInt amount).toInt • f item.identity) := by
  obtain ⟨hret, h, -⟩ | ⟨hn, i, hk, hle, ha, h⟩ | ⟨hn, i, hk, hfree, ha, h⟩ :=
    pcAdditem_cases db sd item amount
  · exact .inl ⟨hret, by rw [h]⟩
  · obtain ⟨hne, hid⟩ := slot_of_stackOf hk
    refine .inr ⟨hn, ha, .inl ⟨?_, ?_⟩⟩
    · rw [Bins.put_topUp hk (by rw [cell_of_stackOf hk]; exact hle)]
      simp
    · rw [h, worth_update]
      simp only [Item.worth, toInt_topUp ha hle, Item.withAmount_nameid, Item.withAmount_identity,
        if_neg hne, hid, add_zsmul]
      abel
  · have hempty : (sd.inventory i).worth f = 0 := if_pos (slot_of_free hfree)
    refine .inr ⟨hn, ha, .inr ⟨hk, by rw [hfree]; simp, ?_⟩⟩
    rw [h, worth_update, hempty, sub_zero]
    simp [Item.worth, nameid_ne_zero hn]

/-- What `pc_additem` adds is at most what it is asked to. -/
theorem pcAdditem_worth_le (db : ItemDb) (sd : MapSessionData) {f : Identity → ℤ}
    (hf : 0 ≤ f item.identity) (ha : 0 ≤ amount) :
    worth f (pcAdditem db sd item amount).2.inventory ≤
      worth f sd.inventory + amount * f item.identity := by
  obtain ⟨-, h⟩ | ⟨-, -, ⟨-, h⟩ | ⟨-, -, h⟩⟩ := pcAdditem_worth db sd item amount f
  · rw [h]
    have := mul_nonneg ha hf
    omega
  · rw [h, smul_eq_mul]
  · rw [h, smul_eq_mul]
    have := mul_le_mul_of_nonneg_right (ofInt_toInt_le ha) hf
    omega

/-- Without an item, or without room in the table of stacks, `pc_additem` adds less than it is
asked to. -/
theorem pcAdditem_worth_lt {f : Identity → ℤ} (hf : 0 < f item.identity) (ha : 0 < amount)
    (hbad : ¬0 < item.nameid.toInt ∨
      Bins.put (stackRule db) (cells sd.inventory) item.identity amount = none) :
    worth f (pcAdditem db sd item amount).2.inventory <
      worth f sd.inventory + amount * f item.identity := by
  obtain ⟨-, h⟩ | ⟨hn, -, hroom⟩ := pcAdditem_worth db sd item amount f
  · rw [h]
    have := mul_pos ha hf
    omega
  have hput := hbad.resolve_left (not_not.mpr hn)
  obtain ⟨hsome, -⟩ | ⟨hk, hfree, h⟩ := hroom
  · exact absurd hput hsome
  · have hwide : ¬amount < 2 ^ 15 := by
      intro hlt
      obtain ⟨i, hi⟩ := Option.ne_none_iff_exists'.mp hfree
      rw [Bins.put_fill hk hlt hi] at hput
      cases hput
    have hshort := (Int16.ofInt amount).toInt_lt
    rw [h, smul_eq_mul]
    have := mul_lt_mul_of_pos_right (show (Int16.ofInt amount).toInt < amount by omega) hf
    omega

/-- `pc_additem` does not read the item's own amount. -/
theorem pcAdditem_withAmount (db : ItemDb) (sd : MapSessionData) (item : Item) (a amount : Int) :
    pcAdditem db sd (item.withAmount a) amount = pcAdditem db sd item amount := rfl

theorem Item.withAmount_self (it : Item) : it.withAmount it.amount.toInt = it := by
  unfold Item.withAmount
  rw [Int16.ofInt_toInt]

/-- When `pc_additem` succeeds, with an amount that is a `short`, all of it arrives. -/
theorem pcAdditem_worth_of_ok (f : Identity → M) (h : (pcAdditem db sd item amount).1 = 0)
    (hlt : amount < 2 ^ 15) :
    worth f (pcAdditem db sd item amount).2.inventory =
      worth f sd.inventory + amount • f item.identity := by
  obtain ⟨hret, -⟩ | ⟨-, ha, ⟨-, hw⟩ | ⟨-, -, hw⟩⟩ := pcAdditem_worth db sd item amount f
  · exact absurd h hret
  · exact hw
  · rw [hw, toInt_ofInt (by omega) hlt]

/-- `pc_additem` for each item of a list, whatever it answers. -/
def pcAdditems (db : ItemDb) (sd : MapSessionData) (items : List (Item × Int)) : MapSessionData :=
  items.foldl (fun sd l => (pcAdditem db sd l.1 l.2).2) sd

/-- What a list of items asks for, each unit counted as `f` of its identity. -/
def askedFor (f : Identity → M) (items : List (Item × Int)) : M :=
  (items.map fun l => l.2 • f l.1.identity).sum

/-- The items of a list, as requests to the table of stacks. -/
def requests (items : List (Item × Int)) : List (Identity × ℤ) :=
  items.map fun l => (l.1.identity, l.2)

/-- Each prefix of the list stays within the weight limit. -/
def WeightsFit (db : ItemDb) (limit : Int) : Int → List (Item × Int) → Prop :=
  Sums.Running (· ≤ limit) fun l => itemWeight db l.1 l.2

variable {items : List (Item × Int)}

theorem weightsFit_cons {limit w : Int} {l : Item × Int} {ls : List (Item × Int)} :
    WeightsFit db limit w (l :: ls) ↔ w + itemWeight db l.1 l.2 ≤ limit ∧
      WeightsFit db limit (w + itemWeight db l.1 l.2) ls := Iff.rfl

theorem requests_pos (ha : ∀ l ∈ items, 0 < l.2) : ∀ r ∈ requests items, 0 < r.2 := by
  intro r hr
  obtain ⟨l, hl, rfl⟩ := List.mem_map.mp hr
  exact ha l hl

theorem pcAdditems_frame (db : ItemDb) (sd : MapSessionData) (items : List (Item × Int)) :
    ∃ inv data w, pcAdditems db sd items =
      { sd with inventory := inv, inventoryData := data, weight := w } := by
  induction items generalizing sd with
  | nil => exact ⟨_, _, _, rfl⟩
  | cons l ls ih =>
    obtain ⟨_, _, _, h⟩ := pcAdditem_frame db sd l.1 l.2
    obtain ⟨inv, data, w, h'⟩ := ih (pcAdditem db sd l.1 l.2).2
    refine ⟨inv, data, w, ?_⟩
    rw [pcAdditems, List.foldl_cons, ← pcAdditems, h', h]

theorem pcAdditems_zeny : (pcAdditems db sd items).zeny = sd.zeny := by
  obtain ⟨_, _, _, h⟩ := pcAdditems_frame db sd items
  rw [h]

theorem pcAdditems_worth_le (db : ItemDb) (sd : MapSessionData) {f : Identity → ℤ}
    (hf : ∀ k, 0 ≤ f k) (ha : ∀ l ∈ items, 0 < l.2) :
    worth f (pcAdditems db sd items).inventory ≤ worth f sd.inventory + askedFor f items := by
  induction items generalizing sd with
  | nil => simp [pcAdditems, askedFor]
  | cons l ls ih =>
    have hstep := pcAdditem_worth_le db sd (hf l.1.identity) (ha l (by simp)).le
    have hrest := ih (pcAdditem db sd l.1 l.2).2 fun l hl => ha l (by simp [hl])
    simp only [pcAdditems, List.foldl_cons, askedFor, List.map_cons, List.sum_cons,
      smul_eq_mul] at hrest ⊢
    omega

/-- **Adding a list of items.** Within the weight limit, all of it arrives, by every count of a
family that sees each identity, exactly when it is all items and fits the table of stacks. -/
theorem pcAdditems_worth_iff (db : ItemDb) (sd : MapSessionData) {F : Set (Identity → ℤ)}
    (hF : ∀ f ∈ F, ∀ k, 0 ≤ f k) (ha : ∀ l ∈ items, 0 < l.2)
    (hsee : ∀ l ∈ items, ∃ f ∈ F, 0 < f l.1.identity)
    (hw : WeightsFit db sd.maxWeight sd.weight items) :
    (∀ f ∈ F, worth f (pcAdditems db sd items).inventory =
      worth f sd.inventory + askedFor f items) ↔
      (∀ l ∈ items, 0 < l.1.nameid.toInt) ∧
        Bins.Fits (stackRule db) (cells sd.inventory) (requests items) := by
  induction items generalizing sd with
  | nil => simp [pcAdditems, askedFor, requests, Bins.fits_nil]
  | cons l ls ih =>
    have ha' : ∀ l ∈ ls, 0 < l.2 := fun l hl => ha l (by simp [hl])
    have hreq : requests (l :: ls) = (l.1.identity, l.2) :: requests ls := rfl
    rw [hreq, Bins.fits_cons (requests_pos ha'), List.forall_mem_cons]
    by_cases hbad : ¬0 < l.1.nameid.toInt ∨
        Bins.put (stackRule db) (cells sd.inventory) l.1.identity l.2 = none
    · -- What this item does not add, the rest does not make up for.
      refine iff_of_false (fun h => ?_) ?_
      · obtain ⟨f, hf, hpos⟩ := hsee l (by simp)
        have hall := h f hf
        have hstep := pcAdditem_worth_lt hpos (ha l (by simp)) hbad
        have hrest := pcAdditems_worth_le db (pcAdditem db sd l.1 l.2).2 (hF f hf) ha'
        simp only [pcAdditems, List.foldl_cons, askedFor, List.map_cons, List.sum_cons,
          smul_eq_mul] at hrest hall
        omega
      · rintro ⟨⟨hn, -⟩, t', hput, -⟩
        rw [hput] at hbad
        simp [hn] at hbad
    · obtain ⟨hn, hput⟩ := not_or.mp hbad
      rw [not_not] at hn
      obtain ⟨t', hput⟩ := Option.ne_none_iff_exists'.mp hput
      obtain ⟨-, hcells, hweight⟩ := pcAdditem_of_put hn (ha l (by simp))
        (by have := (weightsFit_cons.mp hw).1; omega) hput
      have hvalue : ∀ f : Identity → ℤ, worth f (pcAdditem db sd l.1 l.2).2.inventory =
          worth f sd.inventory + l.2 * f l.1.identity := by
        intro f
        rw [worth_eq_value, hcells, Bins.put_value f hput, worth_eq_value, smul_eq_mul]
      have hih := ih (pcAdditem db sd l.1 l.2).2 ha' (fun l hl => hsee l (by simp [hl]))
        (by rw [hweight, pcAdditem_maxWeight]; exact (weightsFit_cons.mp hw).2)
      rw [hcells] at hih
      simp only [hn, true_and, hput, Option.some.injEq, exists_eq_left', ← hih]
      refine forall₂_congr fun f _ => ?_
      have := hvalue f
      simp only [pcAdditems, List.foldl_cons, askedFor, List.map_cons, List.sum_cons,
        smul_eq_mul] at this ⊢
      omega

end Additem

/-! ## Removing an item -/

section Delitem

variable {it : Item} {p q : Int}

/-- A slot after `q` units of it are removed. -/
def Item.takeAway (it : Item) (q : Int) : Item :=
  if q = 0 then it
  else if it.amount.toInt = q then Item.zero
  else it.withAmount (it.amount.toInt - q)

theorem Item.takeAway_of_lt (h0 : 0 < q) (hlt : q < it.amount.toInt) :
    it.takeAway q = it.withAmount (it.amount.toInt - q) := by
  unfold Item.takeAway
  rw [if_neg (by omega), if_neg (by omega)]

theorem Item.takeAway_all (h0 : 0 < q) (h : it.amount.toInt = q) : it.takeAway q = Item.zero := by
  unfold Item.takeAway
  rw [if_neg (by omega), if_pos h]

/-- The amount left in a slot. -/
theorem Item.withAmount_left (it : Item) (h0 : 0 ≤ q) (hle : q ≤ it.amount.toInt) :
    (it.withAmount (it.amount.toInt - q)).amount.toInt = it.amount.toInt - q := by
  have := it.amount.toInt_lt
  exact toInt_ofInt (by omega) (by omega)

/-- A slot that is not emptied keeps its item. -/
theorem Item.takeAway_left (hp : 0 < p) (hq : 0 < q) (h : p + q ≤ it.amount.toInt) :
    (it.takeAway p).nameid = it.nameid ∧ (it.takeAway p).amount.toInt = it.amount.toInt - p := by
  rw [Item.takeAway_of_lt hp (by omega)]
  exact ⟨rfl, Item.withAmount_left it hp.le (by omega)⟩

/-- Units can be removed in two steps. -/
theorem Item.takeAway_add (hp : 0 < p) (hq : 0 ≤ q) (h : p + q ≤ it.amount.toInt) :
    (it.takeAway p).takeAway q = it.takeAway (p + q) := by
  rcases eq_or_ne q 0 with rfl | hq0
  · simp [Item.takeAway]
  have hleft := Item.withAmount_left it hp.le (by omega)
  rw [Item.takeAway_of_lt hp (by omega)]
  rcases eq_or_ne (p + q) it.amount.toInt with hall | hlt
  · rw [Item.takeAway_all (by omega) (by omega), Item.takeAway_all (by omega) hall.symm]
  · rw [Item.takeAway_of_lt (by omega) (by omega), Item.takeAway_of_lt (by omega) (by omega), hleft,
      sub_sub]
    rfl

/-- What is removed from a slot no longer counts. -/
theorem Item.worth_takeAway (f : Identity → M) (hn : it.nameid ≠ 0) (h0 : 0 < q)
    (hle : q ≤ it.amount.toInt) : (it.takeAway q).worth f = it.worth f - q • f it.identity := by
  rcases eq_or_ne it.amount.toInt q with hall | hlt
  · rw [Item.takeAway_all h0 hall, worth_zero, Item.worth, if_neg hn, hall, sub_self]
  · rw [Item.takeAway_of_lt h0 (by omega), Item.worth, Item.worth, Item.withAmount_left it h0.le hle]
    simp only [Item.withAmount_nameid, Item.withAmount_identity, if_neg hn, sub_zsmul]
    exact (sub_eq_add_neg _ _).symm

variable {sd : MapSessionData} {n : Fin maxInventory} {amount : Int}

/-- **`pc_delitem`**, on a slot that holds the amount. -/
theorem pcDelitem_eq {data : ItemData} (hn : (sd.inventory n).nameid ≠ 0)
    (hdata : sd.inventoryData n = some data) (ha : 0 < amount)
    (hle : amount ≤ (sd.inventory n).amount.toInt) :
    pcDelitem sd n amount = { sd with
      inventory := Function.update sd.inventory n ((sd.inventory n).takeAway amount)
      inventoryData := if (sd.inventory n).amount.toInt = amount then
        Function.update sd.inventoryData n none else sd.inventoryData
      weight := sd.weight - data.weight * amount } := by
  have hleft := Item.withAmount_left (sd.inventory n) ha.le hle
  unfold pcDelitem
  rw [hdata]
  dsimp only
  rw [if_neg (by rintro (h | h | h); exacts [hn h, by omega, by omega]), hleft]
  rcases eq_or_ne (sd.inventory n).amount.toInt amount with hall | hlt
  · rw [if_pos (by omega), if_pos hall, Item.takeAway_all ha hall]
    split <;> simp [pcUnequipitem]
  · rw [if_neg (by omega), if_neg hlt, Item.takeAway_of_lt ha (by omega)]

/-- **`pc_cart_delitem`**, its effect on the cart. -/
theorem pcCartDelitem_cart {db : ItemDb} {i : Fin maxCart} (ha : 0 < amount) :
    (pcCartDelitem db sd i amount).cart =
      if (sd.cart i).nameid = 0 ∨ (sd.cart i).amount.toInt < amount then sd.cart
      else Function.update sd.cart i ((sd.cart i).takeAway amount) := by
  unfold pcCartDelitem
  dsimp only
  split
  · rfl
  · rename_i hroom
    have hleft := Item.withAmount_left (sd.cart i) ha.le (by omega)
    rw [hleft]
    rcases eq_or_ne (sd.cart i).amount.toInt amount with hall | hlt
    · rw [if_pos (by omega), Item.takeAway_all ha hall]
      simp
    · rw [if_neg (by omega), Item.takeAway_of_lt ha (by omega)]

@[simp] theorem pcCartDelitem_zeny {db : ItemDb} {i : Fin maxCart} :
    (pcCartDelitem db sd i amount).zeny = sd.zeny := by
  unfold pcCartDelitem
  dsimp only
  split
  · rfl
  · split <;> rfl

/-- Only the inventory and the weight change. -/
theorem pcDelitem_frame (sd : MapSessionData) (n : Fin maxInventory) (amount : Int) :
    ∃ inv data w, pcDelitem sd n amount =
      { sd with inventory := inv, inventoryData := data, weight := w } := by
  unfold pcDelitem
  split
  · exact ⟨_, _, _, rfl⟩
  · dsimp only
    split
    · exact ⟨_, _, _, rfl⟩
    · split
      · split <;> exact ⟨_, _, _, rfl⟩
      · exact ⟨_, _, _, rfl⟩

@[simp] theorem pcDelitem_zeny : (pcDelitem sd n amount).zeny = sd.zeny := by
  obtain ⟨_, _, _, h⟩ := pcDelitem_frame sd n amount
  rw [h]

end Delitem

end Nezumi
