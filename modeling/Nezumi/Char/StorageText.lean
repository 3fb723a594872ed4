import Nezumi.Common.Text

/-!
# The lines of the storage files (`char/int_storage.c`)

A storage is a line: the id of its account (or guild), the number of its items, and the items in the
places that are used.

* `storageTostr` and `storageFromstr`, `guildStorageTostr` and `guildStorageFromstr` are the
  functions of the same names. Both pairs have the same text but for the number of places.
* `fromText_text`: a written line reads as the same items packed to the front.
* `storage_restored_iff`: except where the least `int` is among the ids.
-/

namespace Nezumi

open Decimal Scanf

/-- The fields of `struct storage` and of `struct guild_storage` that are saved. `ownerId` is the
`account_id` of the one and the `guild_id` of the other. -/
structure StorageRecord (n : ℕ) where
  ownerId : Int32 := 0
  storageAmount : Int16 := 0
  storage : Fin n → Item := fun _ => Item.zero

namespace StorageRecord

variable {n : ℕ}

/-- The items in their order. -/
def items (p : StorageRecord n) : List Item := (List.ofFn p.storage).filter fun it => it.nameid ≠ 0

/-- The text of both writers. -/
def text (p : StorageRecord n) : List UInt8 :=
  int2string p.ownerId ++ 44 :: (int2string (Int32.ofInt p.storageAmount.toInt) ++ 9 ::
    (List.ofFn p.storage).flatMap fun it => if it.nameid ≠ 0 then itemText it else [])

/-- The loop of both readers over the items. Each round reads a part of the text. -/
def fromItems : (fuel : ℕ) → (str : List UInt8) → (i : ℕ) → StorageRecord n → StorageRecord n
  | 0, _, _, p => p
  | fuel + 1, str, i, p =>
    if hi : str = [] ∨ str.head? = some 9 ∨ n ≤ i then { p with storageAmount := Int16.ofNat i }
    else
      match sscanf itemFormat str with
      | (.int id :: .int nameid :: vs, some rest) =>
        let rest := if rest.head? = some 32 then rest.tail else rest
        match itemOfInts (.int id :: .int nameid :: vs) with
        | none => p
        | some it =>
          if 0 < nameid then
            have hi : i < n := not_le.mp fun h => hi (.inr (.inr h))
            fromItems fuel rest (i + 1)
              { p with storage := Function.update p.storage ⟨i, hi⟩ it }
          else fromItems fuel rest i p
      | _ => p

/-- Both readers, of a text and what the storage was before. -/
def fromText (str : List UInt8) (p : StorageRecord n) : StorageRecord n :=
  let p := { p with storageAmount := 0 }
  match sscanf (ints 2) str with
  | ([.int id, .int _], some rest) =>
    let p := { p with ownerId := id }
    if rest.head? = some 10 ∨ rest.head? = some 13 then p
    else fromItems (rest.length + 1) rest.tail 0 p
  | _ => p

end StorageRecord

/-- `storage_tostr` -/
def storageTostr (p : StorageRecord maxStorage) : List UInt8 := p.text

/-- `storage_fromstr` -/
def storageFromstr (str : List UInt8) (p : StorageRecord maxStorage) : StorageRecord maxStorage :=
  p.fromText str

/-- `guild_storage_tostr` -/
def guildStorageTostr (p : StorageRecord maxGuildStorage) : List UInt8 := p.text

/-- `guild_storage_fromstr` -/
def guildStorageFromstr (str : List UInt8) (p : StorageRecord maxGuildStorage) :
    StorageRecord maxGuildStorage :=
  p.fromText str

/-! ## What reads back -/

/-- The items of the used places are such as the servers make: `id` is an `int`. -/
def Item.Sound (it : Item) : Prop :=
  IsInt it.id ∧ 0 < it.nameid ∧ 0 < it.amount ∧ it.refine.val ≤ 10

instance (it : Item) : Decidable it.Sound := inferInstanceAs (Decidable (_ ∧ _))

namespace StorageRecord

variable {n : ℕ} {p : StorageRecord n} {its : List Item} {i fuel : ℕ}

/-- A round of the loop over an item. -/
theorem fromItems_item {it : Item} {r : List UInt8} (h : it.Sound) (hne : it.id ≠ -2 ^ 31)
    (hi : i < n) :
    fromItems (fuel + 1) (itemText it ++ r) i p =
      fromItems fuel r (i + 1) { p with storage := Function.update p.storage ⟨i, hi⟩ it } := by
  obtain ⟨b, s, heq, hb⟩ := itemText_head it
  have hcont : ¬((itemText it ++ r) = [] ∨ (itemText it ++ r).head? = some 9 ∨ n ≤ i) := by
    rw [heq, List.cons_append, List.head?_cons]
    rintro (h | h | h)
    · cases h
    · obtain rfl := Option.some.inj h
      cases hb
    · omega
  have hnameid : 0 < Int32.ofInt it.nameid.toInt := by
    have hpos : 0 < it.nameid.toInt := Int16.lt_iff_toInt_lt.mp h.2.1
    have hlt := it.nameid.toInt_lt
    rw [Int32.lt_iff_toInt_lt, Int32.toInt_ofInt_of_le (by omega) (by omega)]
    exact hpos
  have hitem := itemOfInts_fields h.1 h.2.2.2
  unfold itemFields at hitem
  rw [fromItems, dif_neg hcont, sscanf_itemText h.1 hne]
  unfold itemFields
  simp only [List.map_cons] at hitem ⊢
  rw [hitem]
  dsimp only
  rw [if_pos hnameid]
  rfl

/-- A round of the loop over an item with the least id ends it. -/
theorem fromItems_itemMin {it : Item} {r : List UInt8} (hid : it.id = -2 ^ 31) (hi : i < n) :
    (fromItems (fuel + 1) (itemText it ++ r) i p).storageAmount = p.storageAmount := by
  obtain ⟨b, s, heq, hb⟩ := itemText_head it
  have hcont : ¬((itemText it ++ r) = [] ∨ (itemText it ++ r).head? = some 9 ∨ n ≤ i) := by
    rw [heq, List.cons_append, List.head?_cons]
    rintro (h | h | h)
    · cases h
    · obtain rfl := Option.some.inj h
      cases hb
    · omega
  rw [fromItems, dif_neg hcont, sscanf_itemText_min hid]

/-- The places after an item has been put into one of them, before the items that follow. -/
theorem getD_update {s : Fin n → Item} {it : Item} (hi : i < n) (j : Fin n) :
    (if j < i + 1 then Function.update s ⟨i, hi⟩ it j
      else its.getD (j - (i + 1)) (Function.update s ⟨i, hi⟩ it j)) =
    if j < i then s j else (it :: its).getD (j - i) (s j) := by
  rcases Nat.lt_trichotomy j.val i with hlt | heq | hgt
  · have hne : j ≠ ⟨i, hi⟩ := fun h => by simp [h] at hlt
    rw [if_pos (by omega), if_pos hlt, Function.update_of_ne hne]
  · subst heq
    simp
  · have hne : j ≠ ⟨i, hi⟩ := fun h => by simp [h] at hgt
    obtain ⟨k, hk⟩ := Nat.exists_eq_add_of_lt hgt
    rw [if_neg (by omega), if_neg (by omega), Function.update_of_ne hne, hk,
      show i + k + 1 - (i + 1) = k by omega, show i + k + 1 - i = k + 1 by omega,
      List.getD_cons_succ]

/-- **The loop puts the items in their places.** -/
theorem fromItems_items (h : ∀ it ∈ its, it.Sound ∧ it.id ≠ -2 ^ 31) (hi : i + its.length ≤ n)
    (hfuel : its.length < fuel) :
    fromItems fuel (its.flatMap itemText) i p =
      { p with
        storageAmount := Int16.ofNat (i + its.length)
        storage := fun j => if j < i then p.storage j else its.getD (j - i) (p.storage j) } := by
  induction its generalizing i fuel p with
  | nil =>
    cases fuel with
    | zero => cases hfuel
    | succ fuel =>
      rw [List.flatMap_nil, fromItems, dif_pos (.inl rfl)]
      simp
  | cons it its ih =>
    cases fuel with
    | zero => cases hfuel
    | succ fuel =>
      obtain ⟨hsound, hne⟩ := h it List.mem_cons_self
      rw [List.length_cons] at hi hfuel
      have hi' : i < n := by omega
      rw [List.flatMap_cons, fromItems_item hsound hne hi',
        ih (fun it hit => h it (List.mem_cons_of_mem _ hit)) (by omega) (by omega)]
      rw [show i + 1 + its.length = i + (it :: its).length by rw [List.length_cons]; omega]
      congr 1
      funext j
      exact getD_update hi' j

/-- **The loop gives up** at an item with the least id. -/
theorem fromItems_min (h : ∀ it ∈ its, it.Sound) (hmin : ∃ it ∈ its, it.id = -2 ^ 31)
    (hi : i + its.length ≤ n) :
    (fromItems fuel (its.flatMap itemText) i p).storageAmount = p.storageAmount := by
  induction its generalizing i fuel p with
  | nil => simp at hmin
  | cons it its ih =>
    cases fuel with
    | zero => rfl
    | succ fuel =>
      rw [List.length_cons] at hi
      rw [List.flatMap_cons]
      by_cases hid : it.id = -2 ^ 31
      · exact fromItems_itemMin hid (by omega)
      · rw [fromItems_item (h it List.mem_cons_self) hid (by omega),
          ih (fun it hit => h it (List.mem_cons_of_mem _ hit)) ?_ (by omega)]
        obtain ⟨it', hmem, hit'⟩ := hmin
        refine ⟨it', (List.mem_cons.mp hmem).resolve_left ?_, hit'⟩
        rintro rfl
        exact hid hit'

theorem flatMap_items (p : StorageRecord n) :
    ((List.ofFn p.storage).flatMap fun it => if it.nameid ≠ 0 then itemText it else []) =
      p.items.flatMap itemText := by
  unfold items
  induction List.ofFn p.storage with
  | nil => rfl
  | cons it its ih =>
    rw [List.flatMap_cons, ih, List.filter_cons]
    by_cases h : it.nameid = 0 <;> simp [h]

theorem length_items_le (p : StorageRecord n) : p.items.length ≤ n := by
  unfold items
  simpa using List.length_filter_le (fun it : Item => decide (it.nameid ≠ 0)) (List.ofFn p.storage)

theorem length_le_flatMap (its : List Item) : its.length ≤ (its.flatMap itemText).length := by
  induction its with
  | nil => exact le_rfl
  | cons it its ih =>
    obtain ⟨b, s, heq, -⟩ := itemText_head it
    rw [List.flatMap_cons, List.length_append, heq, List.length_cons, List.length_cons]
    omega

theorem isInt_amount (p : StorageRecord n) : IsInt p.storageAmount.toInt := by
  have h := toInt16_bounds p.storageAmount
  unfold IsInt
  omega

/-- What both readers do with a written line. -/
theorem fromText_text (p q : StorageRecord n) (hid : p.ownerId ≠ Int32.minValue) :
    q.fromText p.text = fromItems ((p.items.flatMap itemText).length + 2)
      (p.items.flatMap itemText) 0 { q with ownerId := p.ownerId, storageAmount := 0 } := by
  have h := toInt16_bounds p.storageAmount
  have hhead : sscanf (ints 2) p.text =
      ([.int p.ownerId, .int (Int32.ofInt p.storageAmount.toInt)],
        some (9 :: p.items.flatMap itemText)) := by
    have hz : ∀ z ∈ [p.ownerId.toInt, p.storageAmount.toInt], IsInt z := by
      simp [isInt_toInt, isInt_amount]
    have hread := sscanf_ints (f := []) hz (r := 9 :: p.items.flatMap itemText)
      (noDigit_cons.mpr rfl)
    unfold text
    rw [flatMap_items, int2string_of_ne hid, int2string_ofInt p.isInt_amount (by omega)]
    simpa [printInts, commas] using hread
  unfold fromText
  rw [hhead]
  rfl

/-- Where the least number is the id of the owner, nothing is read. -/
theorem fromText_min (p q : StorageRecord n) (hid : p.ownerId = Int32.minValue) :
    q.fromText p.text = { q with storageAmount := 0 } := by
  unfold fromText text
  rw [hid, int2string_minValue]
  rfl

/-! ## The round trip -/

/-- The places that are used have items as the servers make them. -/
def Sound (p : StorageRecord n) : Prop := ∀ i, (p.storage i).nameid ≠ 0 → (p.storage i).Sound

/-- `q` has the items of `p`, packed to the front, and their number. -/
def Packed (p q : StorageRecord n) : Prop :=
  (∀ i, q.storage i = p.items.getD i Item.zero) ∧ q.storageAmount.toInt = p.items.length

/-- The least `int` is not among the ids, if there are items. -/
def Numbered (p : StorageRecord n) : Prop :=
  p.items = [] ∨ p.ownerId ≠ Int32.minValue ∧ ∀ it ∈ p.items, it.id ≠ -2 ^ 31

theorem Sound.items (h : p.Sound) : ∀ it ∈ p.items, it.Sound := by
  intro it hit
  obtain ⟨hmem, hne⟩ := List.mem_filter.mp hit
  obtain ⟨i, rfl⟩ := List.mem_ofFn.mp hmem
  exact h i (by simpa using hne)

/-- The items packed to the front. -/
def packed (ownerId : Int32) (its : List Item) : StorageRecord n where
  ownerId
  storageAmount := Int16.ofNat its.length
  storage i := its.getD i Item.zero

/-- **What a written line reads as.** -/
theorem fromText_text_eq (h : p.Sound) (hid : p.ownerId ≠ Int32.minValue)
    (hne : ∀ it ∈ p.items, it.id ≠ -2 ^ 31) :
    ({} : StorageRecord n).fromText p.text = packed p.ownerId p.items := by
  have hlen := length_le_flatMap p.items
  have hn := p.length_items_le
  rw [fromText_text p {} hid, fromItems_items (fun it hit => ⟨h.items it hit, hne it hit⟩)
    (by omega) (by omega)]
  simp [packed]

theorem ofFn_packed {its : List Item} (hlen : its.length ≤ n) :
    (List.ofFn fun i : Fin n => its.getD i Item.zero) =
      its ++ List.replicate (n - its.length) Item.zero := by
  refine List.ext_getElem (by simp; omega) fun i h1 h2 => ?_
  rw [List.getElem_ofFn, List.getElem_append]
  split
  · simp [*]
  · rename_i hge
    simp [List.getElem?_eq_none (not_lt.mp hge)]

theorem items_packed {o : Int32} (h : ∀ it ∈ its, it.Sound) (hlen : its.length ≤ n) :
    (packed o its : StorageRecord n).items = its := by
  unfold items packed
  rw [ofFn_packed hlen, List.filter_append, List.filter_eq_self.mpr, List.filter_eq_nil_iff.mpr,
    List.append_nil]
  · intro it hit
    rw [List.eq_of_mem_replicate hit]
    decide
  · intro it hit
    have hpos : 0 < it.nameid := (h it hit).2.1
    have hne : it.nameid ≠ 0 := fun h0 => by
      rw [h0] at hpos
      exact absurd hpos (by decide)
    simpa using hne

theorem sound_packed {o : Int32} (h : ∀ it ∈ its, it.Sound) :
    (packed o its : StorageRecord n).Sound := by
  intro i hne
  change (its.getD i Item.zero).nameid ≠ 0 at hne
  change (its.getD i Item.zero).Sound
  rcases Nat.lt_or_ge i.val its.length with hlt | hge
  · rw [List.getD, List.getElem?_eq_getElem hlt]
    exact h _ (List.getElem_mem hlt)
  · rw [List.getD, List.getElem?_eq_none hge] at hne
    exact absurd rfl hne

theorem packed_packed (hn : n < 2 ^ 15) (p : StorageRecord n) (o : Int32) :
    p.Packed (packed o p.items) := by
  have hlen := p.length_items_le
  refine ⟨fun _ => rfl, ?_⟩
  change (Int16.ofNat p.items.length).toInt = _
  rw [Int16.toInt_ofNat_of_lt (by omega)]

/-- A written line reads as the items packed to the front, and so does what is written of them. -/
def Restored (p : StorageRecord n) : Prop :=
  p.Packed (({} : StorageRecord n).fromText p.text) ∧
    ({} : StorageRecord n).fromText (({} : StorageRecord n).fromText p.text).text =
      ({} : StorageRecord n).fromText p.text

theorem restored_of_numbered (hn : n < 2 ^ 15) (h : p.Sound) (hid : p.ownerId ≠ Int32.minValue)
    (hne : ∀ it ∈ p.items, it.id ≠ -2 ^ 31) : p.Restored := by
  unfold Restored
  rw [fromText_text_eq h hid hne]
  refine ⟨packed_packed hn p _, ?_⟩
  have hitems := items_packed (o := p.ownerId) h.items p.length_items_le
  rw [fromText_text_eq (sound_packed h.items) hid (by rw [hitems]; exact hne), hitems]
  rfl

/-- **A storage reads back** if and only if it has no items or the least number is not among its
ids. -/
theorem restored_iff (hn : n < 2 ^ 15) (h : p.Sound) : p.Restored ↔ p.Numbered := by
  constructor
  · rintro ⟨⟨-, hamount⟩, -⟩
    by_contra hnum
    unfold Numbered at hnum
    push Not at hnum
    obtain ⟨hitems, hmin⟩ := hnum
    have hzero : (({} : StorageRecord n).fromText p.text).storageAmount = 0 := by
      by_cases hid : p.ownerId = Int32.minValue
      · rw [fromText_min p {} hid]
      · have hlen := p.length_items_le
        rw [fromText_text p {} hid, fromItems_min h.items (hmin hid) (by omega)]
    rw [hzero] at hamount
    have hpos := List.length_pos_iff.mpr hitems
    have h0 : (0 : Int16).toInt = 0 := rfl
    omega
  · intro hnum
    rcases eq_or_ne p.ownerId Int32.minValue with hid | hid
    · obtain hitems | ⟨hne, -⟩ := hnum
      · have hempty : ({} : StorageRecord n).items = [] := by
          unfold items
          rw [List.filter_eq_nil_iff]
          intro it hit
          obtain ⟨i, rfl⟩ := List.mem_ofFn.mp hit
          exact Bool.false_ne_true
        have hread : ({} : StorageRecord n).fromText p.text = {} := fromText_min p {} hid
        have hagain := fromText_text_eq (p := ({} : StorageRecord n)) (fun _ h => absurd rfl h)
          (show (0 : Int32) ≠ Int32.minValue by decide) (by simp [hempty])
        unfold Restored
        rw [hread, hagain, hempty]
        exact ⟨⟨fun i => by rw [hitems]; rfl, by rw [hitems]; rfl⟩, rfl⟩
      · exact absurd hid hne
    · refine restored_of_numbered hn h hid fun it hit => ?_
      obtain hitems | ⟨-, hne⟩ := hnum
      · rw [hitems] at hit
        cases hit
      · exact hne it hit

end StorageRecord

/-- A storage reads back by the functions for storages. -/
def StorageRestored (p : StorageRecord maxStorage) : Prop :=
  p.Packed (storageFromstr (storageTostr p) {}) ∧
    storageFromstr (storageTostr (storageFromstr (storageTostr p) {})) {} =
      storageFromstr (storageTostr p) {}

/-- A guild storage reads back by the functions for guild storages. -/
def GuildStorageRestored (p : StorageRecord maxGuildStorage) : Prop :=
  p.Packed (guildStorageFromstr (guildStorageTostr p) {}) ∧
    guildStorageFromstr (guildStorageTostr (guildStorageFromstr (guildStorageTostr p) {})) {} =
      guildStorageFromstr (guildStorageTostr p) {}

/-- **Storages and guild storages read back** if and only if they have no items or the least number
is not among their ids. -/
theorem storage_restored_iff (p : StorageRecord maxStorage) (g : StorageRecord maxGuildStorage)
    (hp : p.Sound) (hg : g.Sound) :
    (StorageRestored p ↔ p.Numbered) ∧ (GuildStorageRestored g ↔ g.Numbered) :=
  ⟨StorageRecord.restored_iff (by decide) hp, StorageRecord.restored_iff (by decide) hg⟩

/-- One item, with the given id. -/
def storageOf (n : ℕ) (ownerId : Int32) (id : Int) : StorageRecord n where
  ownerId
  storageAmount := 1
  storage i := if i.val = 1 then { id, nameid := 501, amount := 3, refine := 7, attrib := -1 }
    else Item.zero

theorem sound_storageOf {n : ℕ} {o : Int32} {id : Int} (h : IsInt id) : (storageOf n o id).Sound := by
  intro i hne
  by_cases hi : i.val = 1
  · simp only [storageOf, if_pos hi]
    exact ⟨h, show (0 : Int16) < 501 by decide, show (0 : Int16) < 3 by decide,
      show (7 : Fin 16).val ≤ 10 by decide⟩
  · simp [storageOf, hi, Item.zero] at hne

theorem numbered_storageOf {n : ℕ} {o : Int32} {id : Int} (ho : o ≠ Int32.minValue)
    (hid : id ≠ -2 ^ 31) : (storageOf n o id).Numbered := by
  refine .inr ⟨ho, fun it hit => ?_⟩
  obtain ⟨i, rfl⟩ := List.mem_ofFn.mp (List.mem_of_mem_filter hit)
  unfold storageOf
  dsimp only
  split
  · exact hid
  · decide

theorem mem_items_storageOf (n : ℕ) (o : Int32) (id : Int) (hn : 1 < n) :
    (storageOf n o id).storage ⟨1, hn⟩ ∈ (storageOf n o id).items :=
  List.mem_filter.mpr ⟨List.mem_ofFn.mpr ⟨⟨1, hn⟩, rfl⟩, rfl⟩

/-- A storage and a guild storage with an item behind an empty place. -/
theorem storage_restored_iff_storageOf :
    StorageRestored (storageOf maxStorage 2000000 (-5)) ∧
      GuildStorageRestored (storageOf maxGuildStorage 10000 7) := by
  have hiff := storage_restored_iff (storageOf maxStorage 2000000 (-5))
    (storageOf maxGuildStorage 10000 7) (sound_storageOf (by decide)) (sound_storageOf (by decide))
  exact ⟨hiff.1.mpr (numbered_storageOf (by decide) (by decide)),
    hiff.2.mpr (numbered_storageOf (by decide) (by decide))⟩

/-- **An item whose id is the least `int`** is written as no number, and the storage is empty after
it has been read. -/
theorem storage_not_restored :
    ¬ ∀ (p : StorageRecord maxStorage) (g : StorageRecord maxGuildStorage), p.Sound → g.Sound →
      StorageRestored p ∧ GuildStorageRestored g := by
  intro h
  have hsound : (storageOf maxStorage 2000000 (-2 ^ 31)).Sound := sound_storageOf (by decide)
  have hread := (h (storageOf maxStorage 2000000 (-2 ^ 31)) {} hsound fun _ hne => absurd rfl hne).1
  have hmem := mem_items_storageOf maxStorage 2000000 (-2 ^ 31) (by decide)
  obtain hnil | ⟨-, hne⟩ := (StorageRecord.restored_iff (by decide) hsound).mp hread
  · rw [hnil] at hmem
    cases hmem
  · exact hne _ hmem rfl

end Nezumi
