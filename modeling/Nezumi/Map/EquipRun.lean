import Nezumi.Map.Equip
import Nezumi.Map.PcLemmas

/-!
# What is worn where (`map/pc.c`)

* `WellWorn`: no two items of an inventory are worn at one place, and the empty slots are empty.
  Every operation on the slots keeps it.
* `EquipSession.Fine`: besides, `equip_index` names the item at each place.
* `EquipSession.clearPlaces_spec`: the items in the way of a new one are taken off.
* `EquipSession.Fits`: the new position of an item is one where the code can put it.
* `equipped_run`: in every run in which each item that is put on fits, the items and the table
  agree.
-/

namespace Nezumi

open Occupancy

/-! ## Bits -/

section Bits

variable {a b : UInt16} {i : Fin 11}

/-- The bit of a place. -/
def placeBit : Fin 11 → ℕ := ![7, 3, 6, 2, 0, 9, 8, 4, 5, 1, 15]

theorem hasPlace_iff : HasPlace a i ↔ a.toBitVec.getLsbD (placeBit i) = true := by
  have hpos : (equipPos i).toBitVec = BitVec.twoPow 16 (placeBit i) := by
    revert i
    decide
  have hne : BitVec.twoPow 16 (placeBit i) ≠ 0#16 := by
    revert i
    decide
  unfold HasPlace
  rw [ne_eq, ← UInt16.toBitVec_inj, UInt16.toBitVec_and, hpos, BitVec.and_twoPow]
  split
  · simp [*]
  · simp [*]

/-- Two positions with a place in common have a bit in common. -/
theorem and_ne_zero_of_hasPlace (ha : HasPlace a i) (hb : HasPlace b i) : a &&& b ≠ 0 := by
  intro h
  have hbit := congrArg (fun e : UInt16 => e.toBitVec.getLsbD (placeBit i)) h
  rw [hasPlace_iff] at ha hb
  simp [ha, hb] at hbit

@[simp] theorem not_hasPlace_zero : ¬ HasPlace 0 i := by simp [HasPlace]

/-- Only the low half of a position matters to an item. -/
theorem and_toUInt16 (p : UInt32) : a.toUInt32 &&& p = 0 ↔ a &&& p.toUInt16 = 0 := by
  have hlow : a.toUInt32 &&& p = (a &&& p.toUInt16).toUInt32 := by
    apply UInt32.toBitVec_inj.mp
    apply BitVec.eq_of_getLsbD_eq
    intro k hk
    simp only [UInt32.toBitVec_and, UInt16.toBitVec_toUInt32, UInt16.toBitVec_and,
      UInt32.toBitVec_toUInt16, BitVec.getLsbD_and, BitVec.getLsbD_setWidth]
    by_cases h : k < 16
    · simp [h, hk]
    · simp [BitVec.getLsbD_of_ge a.toBitVec k (by omega)]
  rw [hlow]
  exact ⟨fun h => UInt16.toUInt32_inj.mp h, fun h => by rw [h]; rfl⟩

end Bits

/-! ## The slots -/

/-- The items are worn at different places, and nothing is left in an empty slot. -/
structure WellWorn (inv : Inventory) (data : Fin maxInventory → Option ItemData) : Prop where
  disjoint : ∀ m n, m ≠ n → (inv m).equip &&& (inv n).equip = 0
  empty : ∀ n, (inv n).nameid = 0 → (inv n).equip = 0 ∧ data n = none
  ids : ∀ n, 0 ≤ (inv n).nameid.toInt

section WellWorn

variable {inv : Inventory} {data : Fin maxInventory → Option ItemData} {n : Fin maxInventory}
  {it : Item}

/-- A slot is written. -/
theorem WellWorn.update (h : WellWorn inv data) {d : Option ItemData}
    (hfree : ∀ m ≠ n, (inv m).equip &&& it.equip = 0)
    (hempty : it.nameid = 0 → it.equip = 0 ∧ d = none) (hid : 0 ≤ it.nameid.toInt) :
    WellWorn (Function.update inv n it) (Function.update data n d) where
  disjoint k l hkl := by
    rcases eq_or_ne k n with rfl | hk
    · rw [Function.update_self, Function.update_of_ne hkl.symm, UInt16.and_comm]
      exact hfree l hkl.symm
    · rw [Function.update_of_ne hk]
      rcases eq_or_ne l n with rfl | hl
      · rw [Function.update_self]
        exact hfree k hk
      · rw [Function.update_of_ne hl]
        exact h.disjoint k l hkl
  empty k hk := by
    rcases eq_or_ne k n with rfl | hne
    · rw [Function.update_self] at hk ⊢
      rw [Function.update_self]
      exact hempty hk
    · rw [Function.update_of_ne hne] at hk ⊢
      rw [Function.update_of_ne hne]
      exact h.empty k hk
  ids k := by
    rcases eq_or_ne k n with rfl | hne
    · rw [Function.update_self]
      exact hid
    · rw [Function.update_of_ne hne]
      exact h.ids k

/-- A slot is written, with the same database entry. -/
theorem WellWorn.update_item (h : WellWorn inv data)
    (hfree : ∀ m ≠ n, (inv m).equip &&& it.equip = 0)
    (hempty : it.nameid = 0 → it.equip = 0 ∧ data n = none) (hid : 0 ≤ it.nameid.toInt) :
    WellWorn (Function.update inv n it) data := by
  have hupdate := h.update (d := data n) hfree hempty hid
  rwa [Function.update_eq_self] at hupdate

/-- A slot is emptied. -/
theorem WellWorn.clear (h : WellWorn inv data) (n : Fin maxInventory) :
    WellWorn (Function.update inv n Item.zero) (Function.update data n none) :=
  h.update (fun m _ => by simp [Item.zero]) (fun _ => ⟨rfl, rfl⟩) (le_refl 0)

/-- A slot's item is kept, with another amount. -/
theorem WellWorn.withAmount (h : WellWorn inv data) (n : Fin maxInventory) (amount : Int) :
    WellWorn (Function.update inv n ((inv n).withAmount amount)) data :=
  h.update_item (fun m hm => h.disjoint m n hm) (h.empty n) (h.ids n)

/-- A slot's item is worn elsewhere. -/
theorem WellWorn.wear (h : WellWorn inv data) {e : UInt16}
    (hfree : ∀ m ≠ n, (inv m).equip &&& e = 0) (hne : (inv n).nameid = 0 → e = 0) :
    WellWorn (Function.update inv n { inv n with equip := e }) data :=
  h.update_item hfree (fun hn => ⟨hne hn, (h.empty n hn).2⟩) (h.ids n)

end WellWorn

namespace EquipSession

/-- The places that an item is worn at. -/
def places (s : EquipSession) (n : Fin maxInventory) : Set (Fin 11) := {i | HasPlace (s.equip n) i}

/-- The items of the session are worn at different places. -/
def Sound (s : EquipSession) : Prop := WellWorn s.sd.inventory s.sd.inventoryData

/-- The items and the table agree. -/
structure Fine (s : EquipSession) : Prop where
  worn : s.Sound
  index : Indexes s.equipIndex s.places

/-- **The equipment is in order**: the table names the item at each place, no two items have a bit
in common, and an empty slot is worn nowhere. -/
structure Equipped (s : EquipSession) : Prop where
  index : ∀ i n, s.equipIndex i = some n ↔ HasPlace (s.equip n) i
  disjoint : ∀ m n, m ≠ n → s.equip m &&& s.equip n = 0
  empty : ∀ n, (s.sd.inventory n).nameid = 0 → s.equip n = 0 ∧ ∀ i, s.equipIndex i ≠ some n

theorem Fine.equipped {s : EquipSession} (h : s.Fine) : s.Equipped where
  index := h.index
  disjoint := h.worn.disjoint
  empty n hn := by
    have hzero := (h.worn.empty n hn).1
    refine ⟨hzero, fun i hi => ?_⟩
    have hplace : HasPlace (s.sd.inventory n).equip i := (h.index i n).mp hi
    rw [hzero] at hplace
    exact not_hasPlace_zero hplace

section Operations

variable {s : EquipSession} {n k : Fin maxInventory} {e : UInt16} {pos : UInt32}

/-! ## Taking off -/

theorem inventory_setEquip : (s.setEquip n e).sd.inventory =
    Function.update s.sd.inventory n { s.sd.inventory n with equip := e } := rfl

theorem equip_setEquip : (s.setEquip n e).equip = Function.update s.equip n e := by
  funext m
  unfold equip
  rw [inventory_setEquip]
  rcases eq_or_ne m n with rfl | hm
  · rw [Function.update_self, Function.update_self]
  · rw [Function.update_of_ne hm, Function.update_of_ne hm]

theorem nameid_setEquip (m : Fin maxInventory) :
    ((s.setEquip n e).sd.inventory m).nameid = (s.sd.inventory m).nameid := by
  rw [inventory_setEquip]
  rcases eq_or_ne m n with rfl | hm
  · rw [Function.update_self]
  · rw [Function.update_of_ne hm]

theorem places_setEquip :
    (s.setEquip n e).places = Function.update s.places n {i | HasPlace e i} := by
  funext m
  unfold places
  rw [equip_setEquip]
  rcases eq_or_ne m n with rfl | hm
  · rw [Function.update_self, Function.update_self]
  · rw [Function.update_of_ne hm, Function.update_of_ne hm]

theorem places_zero : {i | HasPlace 0 i} = (∅ : Set (Fin 11)) :=
  Set.eq_empty_of_forall_notMem fun _ h => not_hasPlace_zero h

/-- An item that is taken off leaves its places. -/
theorem Fine.takeOff (h : s.Fine) (n : Fin maxInventory) : (s.takeOff n).Fine where
  worn := h.worn.wear (fun m _ => by simp) fun _ => rfl
  index := by
    have hrelease := indexes_release h.index n (HasPlace (s.equip n)) fun i => Iff.rfl
    rw [← places_zero, ← places_setEquip] at hrelease
    exact hrelease

theorem pcUnequipitem_cases (n : Fin maxInventory) (flag : Nat) :
    s.pcUnequipitem n flag = s ∨ s.pcUnequipitem n flag = s.takeOff n := by
  unfold pcUnequipitem
  split
  · exact .inl rfl
  · split
    · exact .inr rfl
    · exact .inl rfl

theorem Fine.pcUnequipitem (h : s.Fine) (n : Fin maxInventory) (flag : Nat) :
    (s.pcUnequipitem n flag).Fine := by
  obtain hs | hs := s.pcUnequipitem_cases n flag
  · rw [hs]
    exact h
  · rw [hs]
    exact h.takeOff n

/-- `s'` is `s` without some of the items that are in the way at a position. -/
structure Without (s : EquipSession) (pos : UInt16) (s' : EquipSession) : Prop where
  fine : s'.Fine
  equip : ∀ k, s'.equip k = s.equip k ∨ (s'.equip k = 0 ∧ s.equip k &&& pos ≠ 0)
  nameid : ∀ k, (s'.sd.inventory k).nameid = (s.sd.inventory k).nameid
  world : s'.world = s.world

/-- What is still worn is worn as before. -/
theorem Without.equip_eq {s' : EquipSession} {pos : UInt16} (h : s.Without pos s')
    (hk : s'.equip k ≠ 0) : s'.equip k = s.equip k := by
  obtain hsame | ⟨hzero, -⟩ := h.equip k
  · exact hsame
  · exact absurd hzero hk

theorem Without.takeOff {s' : EquipSession} {pos : UInt16} (h : s.Without pos s')
    (hk : s'.equip k &&& pos ≠ 0) : s.Without pos (s'.takeOff k) where
  fine := h.fine.takeOff k
  equip m := by
    have hequip : (s'.takeOff k).equip = Function.update s'.equip k 0 := equip_setEquip
    rw [hequip]
    rcases eq_or_ne m k with rfl | hm
    · have hne : s'.equip m ≠ 0 := by
        intro hzero
        rw [hzero] at hk
        simp at hk
      rw [Function.update_self, ← h.equip_eq hne]
      exact .inr ⟨rfl, hk⟩
    · rw [Function.update_of_ne hm]
      exact h.equip m
  nameid m := (nameid_setEquip m).trans (h.nameid m)
  world := h.world

/-- A place after what was in the way there has been taken off. -/
theorem clearPlace_cases (s : EquipSession) (pos : UInt32) (i : Fin 11) :
    (clearPlace pos s i = s ∧ ∀ k, s.equipIndex i = some k → s.equip k &&& pos.toUInt16 = 0) ∨
    ∃ k, s.equipIndex i = some k ∧ s.equip k &&& pos.toUInt16 ≠ 0 ∧
      clearPlace pos s i = s.takeOff k := by
  unfold clearPlace
  cases hi : s.equipIndex i with
  | none => exact .inl ⟨rfl, fun k hk => by cases hk⟩
  | some k =>
    dsimp only
    split
    · rename_i hover
      refine .inr ⟨k, rfl, fun h => hover ((and_toUInt16 pos).mpr h), ?_⟩
      have hne : s.equip k ≠ 0 := by
        intro hzero
        rw [hzero] at hover
        simp at hover
      unfold pcUnequipitem
      rw [if_neg (by simp), if_pos hne]
    · rename_i hover
      refine .inl ⟨rfl, fun l hl => ?_⟩
      obtain rfl := Option.some.inj hl
      exact (and_toUInt16 pos).mp (not_not.mp hover)

/-- **The loop before an item is put on**: nothing that is worn at a place is in the way. -/
theorem clearPlaces_spec (h : s.Fine) (pos : UInt32) (is : List (Fin 11)) :
    s.Without pos.toUInt16 (is.foldl (clearPlace pos) s) ∧
      ∀ i ∈ is, ∀ k, (is.foldl (clearPlace pos) s).equipIndex i = some k →
        (is.foldl (clearPlace pos) s).equip k &&& pos.toUInt16 = 0 := by
  induction is using List.reverseRecOn with
  | nil => exact ⟨⟨h, fun k => .inl rfl, fun k => rfl, rfl⟩, fun i hi => by cases hi⟩
  | append_singleton is i ih =>
    obtain ⟨hwithout, hclear⟩ := ih
    rw [List.foldl_append, List.foldl_cons, List.foldl_nil]
    set s' := is.foldl (clearPlace pos) s
    obtain ⟨hsame, hi⟩ | ⟨k, hk, hover, hoff⟩ := clearPlace_cases s' pos i
    · rw [hsame]
      refine ⟨hwithout, fun j hj => ?_⟩
      obtain hj | hj := List.mem_append.mp hj
      · exact hclear j hj
      · obtain rfl := List.mem_singleton.mp hj
        exact hi
    · rw [hoff]
      refine ⟨hwithout.takeOff hover, fun j hj l hl => ?_⟩
      have hequip : (s'.takeOff k).equip = Function.update s'.equip k 0 := equip_setEquip
      have hindex : (s'.takeOff k).equipIndex = release s'.equipIndex (HasPlace (s'.equip k)) := rfl
      rw [hindex, release] at hl
      split at hl
      · cases hl
      · rw [hequip]
        rcases eq_or_ne l k with rfl | hlk
        · simp
        · rw [Function.update_of_ne hlk]
          obtain hj | hj := List.mem_append.mp hj
          · exact hclear j hj l hl
          · obtain rfl := List.mem_singleton.mp hj
            rw [hk] at hl
            exact absurd (Option.some.inj hl).symm hlk

/-! ## Putting on -/

/-- An item is put on where nobody is in the way, and leaves no place. -/
theorem Fine.putOn {pos : UInt16} (h : s.Fine) (hname : (s.sd.inventory n).nameid ≠ 0)
    (hold : ∀ i, HasPlace (s.equip n) i → HasPlace pos i)
    (hfree : ∀ m ≠ n, s.equip m &&& pos = 0) : (s.putOn n pos).Fine where
  worn := h.worn.wear hfree fun hn => absurd hn hname
  index := by
    have hoccupy := (indexes_occupy_iff h.index n (HasPlace pos)).mpr
      ⟨hold, fun m hm i hi hpos => and_ne_zero_of_hasPlace hi hpos (hfree m hm)⟩
    rw [← places_setEquip] at hoccupy
    exact hoccupy

theorem setEquip_self : s.setEquip n (s.equip n) = s := by
  unfold setEquip equip
  rw [Function.update_eq_self]

/-- The position that an item is put on at. -/
def newPosition (s : EquipSession) (n : Fin maxInventory) : UInt16 :=
  (s.equipPosition n (s.pcEquippoint n)).toUInt16

/-- **An item fits**, unless it is refused: where it is worn already it is in its own way, no item
is in the way that is worn at none of the eleven places, and what a bow makes the arrows is worn as
the arrows. -/
def Fits (s : EquipSession) (n : Fin maxInventory) : Prop :=
  s.refuses n = false →
    ((∃ i, HasPlace (s.equip n) i) → s.equip n &&& s.newPosition n ≠ 0) ∧
    (∀ m, m ≠ n → s.equip m &&& s.newPosition n ≠ 0 → ∃ i, HasPlace (s.equip m) i) ∧
    ((s.world.data (s.sd.inventory n).nameid.toInt).look = 11 →
      ∀ k ∈ s.searchIndex (s.pcCheckequip 9),
        s.equip k = 0x8000 ∧ s.equip k &&& s.newPosition n = 0)

instance (s : EquipSession) (n : Fin maxInventory) : Decidable (s.Fits n) :=
  inferInstanceAs (Decidable (_ → _ ∧ _ ∧ (_ → ∀ k ∈ s.searchIndex _, _)))

/-- An item that is not refused is in its slot. -/
theorem nameid_ne_zero_of_refuses (h : s.Fine) (hn : s.refuses n = false) :
    (s.sd.inventory n).nameid ≠ 0 := by
  intro hname
  have hdata := (h.worn.empty n hname).2
  have hpoint : s.pcEquippoint n = 0 := by
    unfold pcEquippoint data
    rw [hdata]
    rfl
  unfold refuses at hn
  simp [hpoint] at hn

/-- **`pc_equipitem`** on an item that fits. -/
theorem Fine.pcEquipitem (h : s.Fine) (hfits : s.Fits n) : (s.pcEquipitem n).Fine := by
  cases hn : s.refuses n with
  | true =>
    unfold EquipSession.pcEquipitem
    rw [if_pos hn]
    exact h
  | false =>
    obtain ⟨hself, hplaces, hbow⟩ := hfits hn
    unfold newPosition at hself hplaces hbow
    unfold EquipSession.pcEquipitem
    rw [if_neg (by rw [hn]; exact Bool.false_ne_true)]
    dsimp only
    set pos := s.equipPosition n (s.pcEquippoint n)
    obtain ⟨hwithout, hclear⟩ := clearPlaces_spec h pos (List.finRange 11)
    set s' := (List.finRange 11).foldl (clearPlace pos) s
    have hdone {k : Fin maxInventory} {i : Fin 11} (hi : HasPlace (s'.equip k) i) :
        s'.equip k &&& pos.toUInt16 = 0 :=
      hclear i (List.mem_finRange i) k ((hwithout.fine.index i k).mpr hi)
    have hname : (s'.sd.inventory n).nameid ≠ 0 := by
      rw [hwithout.nameid]
      exact nameid_ne_zero_of_refuses h hn
    have hold : ∀ i, HasPlace (s'.equip n) i → HasPlace pos.toUInt16 i := by
      intro i hi
      have hsame := hwithout.equip_eq fun hzero => not_hasPlace_zero (hzero ▸ hi)
      have hclear := hdone hi
      rw [hsame] at hi hclear
      exact absurd hclear (hself ⟨i, hi⟩)
    have hfree : ∀ m ≠ n, s'.equip m &&& pos.toUInt16 = 0 := by
      intro m hm
      by_contra hover
      have hsame := hwithout.equip_eq (k := m) fun hzero => hover (by rw [hzero]; simp)
      rw [hsame] at hover
      obtain ⟨i, hi⟩ := hplaces m hm hover
      rw [← hsame] at hi hover
      exact hover (hdone hi)
    have hput : (s'.putOn n pos.toUInt16).Fine := hwithout.fine.putOn hname hold hfree
    cases harrow : s.searchIndex (s.pcCheckequip 9) with
    | none => exact hput
    | some k =>
      dsimp only
      split
      · rename_i hlook
        have hworld : (s'.putOn n pos.toUInt16).world = s.world := hwithout.world
        have hslot : ((s'.putOn n pos.toUInt16).sd.inventory n).nameid =
            (s.sd.inventory n).nameid :=
          (nameid_setEquip n).trans (hwithout.nameid n)
        rw [hworld, hslot] at hlook
        obtain ⟨harrows, hapart⟩ := hbow hlook k harrow
        -- the arrows stay where they are
        have hkn : k ≠ n := by
          rintro rfl
          refine hself ⟨10, ?_⟩ hapart
          rw [harrows]
          decide
        have hkeep : (s'.putOn n pos.toUInt16).equip k = 32768 := by
          have hequip : (s'.putOn n pos.toUInt16).equip =
            Function.update s'.equip n pos.toUInt16 := equip_setEquip
          rw [hequip, Function.update_of_ne hkn]
          obtain hsame | ⟨-, hover⟩ := hwithout.equip k
          · rw [hsame, harrows]
          · exact absurd hapart hover
        rw [← hkeep, setEquip_self]
        exact hput
      · exact hput

/-! ## The inventory -/

/-- The slots change, and each item is worn as before. -/
theorem Fine.of_slots {s' : EquipSession} (h : s.Fine)
    (hworn : s'.Sound) (hindex : s'.equipIndex = s.equipIndex)
    (hequip : s'.equip = s.equip) : s'.Fine :=
  ⟨hworn, by rw [hindex]; unfold places; rw [hequip]; exact h.index⟩

theorem equip_update {it : Item} (hn : it.equip = s.equip n) :
    (fun k => (Function.update s.sd.inventory n it k).equip) = s.equip := by
  funext k
  rcases eq_or_ne k n with rfl | hk
  · rw [Function.update_self]
    exact hn
  · rw [Function.update_of_ne hk]
    rfl

/-- **`pc_additem`** of an item that is not worn. -/
theorem Fine.pcAdditem {item : Item} (h : s.Fine) (hitem : item.equip = 0) (amount : Int) :
    (s.pcAdditem item amount).Fine := by
  unfold EquipSession.pcAdditem
  obtain ⟨-, hs, -⟩ | ⟨-, i, -, -, -, hs⟩ | ⟨hpos, i, -, hfirst, -, hs⟩ :=
    pcAdditem_cases s.world.db s.sd item amount
  · rw [hs]
    exact h
  · rw [hs]
    exact h.of_slots (h.worn.withAmount i _) rfl (equip_update rfl)
  · rw [hs]
    have hfree : (s.sd.inventory i).nameid = 0 := by
      have hnone := Slots.first_some hfirst
      by_contra hne
      simp [cells, Item.cell, hne] at hnone
    have hzero : (item.withAmount amount).equip = s.equip i :=
      hitem.trans (h.worn.empty i hfree).1.symm
    refine h.of_slots (h.worn.update (fun m hm => ?_) (fun hn => ?_) hpos.le) rfl
      (equip_update hzero)
    · rw [hzero]
      exact h.worn.disjoint m i hm
    · rw [Item.withAmount_nameid] at hn
      rw [hn] at hpos
      exact absurd hpos (by decide)

/-- What the removal of an item from its slot leaves. -/
structure Removed (s : EquipSession) (n : Fin maxInventory) (s' : EquipSession) : Prop where
  inventory : s'.sd.inventory = Function.update s.sd.inventory n Item.zero
  inventoryData : s'.sd.inventoryData = Function.update s.sd.inventoryData n none
  equipIndex : s'.equipIndex = release s.equipIndex (HasPlace (s.equip n))
  world : s'.world = s.world

theorem equip_of_inventory {s' : EquipSession} {it : Item}
    (h : s'.sd.inventory = Function.update s.sd.inventory n it) : s'.equip n = it.equip := by
  unfold equip
  rw [h, Function.update_self]

/-- **`pc_delitem`.** It does nothing, or it changes the amount, or it empties the slot and takes
the item off. -/
theorem pcDelitem_cases (s : EquipSession) (n : Fin maxInventory) (amount : Int) :
    s.pcDelitem n amount = s ∨
    (∃ a w, s.pcDelitem n amount = { s with sd := { s.sd with
      inventory := Function.update s.sd.inventory n ((s.sd.inventory n).withAmount a)
      weight := w } }) ∨
    s.Removed n (s.pcDelitem n amount) := by
  unfold pcDelitem
  split
  · exact .inl rfl
  · dsimp only
    split
    · exact .inl rfl
    · split
      · refine .inr (.inr ?_)
        split
        · rename_i hworn
          have hzero (inv : Inventory) (it jt : Item) :
              Function.update (Function.update (Function.update inv n it) n jt) n Item.zero =
                Function.update inv n Item.zero := by
            rw [Function.update_idem, Function.update_idem]
          have hleft (a : Int) : ((s.sd.inventory n).withAmount a).equip = s.equip n := rfl
          unfold pcUnequipitem
          rw [if_neg (by simp), if_pos ((equip_of_inventory rfl).trans_ne hworn)]
          refine ⟨hzero .., rfl, ?_, rfl⟩
          funext i
          exact congrArg (fun e => if HasPlace e i then none else s.equipIndex i)
            ((equip_of_inventory rfl).trans (hleft _))
        · rename_i hworn
          have hnone : s.equip n = 0 := not_not.mp hworn
          refine ⟨Function.update_idem .., rfl, ?_, rfl⟩
          funext i
          rw [release, if_neg (by rw [hnone]; exact not_hasPlace_zero)]
      · exact .inr (.inl ⟨_, _, rfl⟩)

/-- The session data are those of the functions that do not look at the table. -/
theorem pcDelitem_sd (s : EquipSession) (n : Fin maxInventory) (amount : Int) :
    (s.pcDelitem n amount).sd = Nezumi.pcDelitem s.sd n amount := by
  unfold pcDelitem Nezumi.pcDelitem
  cases s.sd.inventoryData n with
  | none => rfl
  | some data =>
    dsimp only
    split_ifs with hleft hempty hworn
    · rfl
    · unfold pcUnequipitem
      rw [if_neg (by simp), if_pos ((equip_of_inventory rfl).trans_ne hworn)]
      rfl
    · rfl
    · rfl

theorem Sound.pcDelitem (h : s.Sound) (n : Fin maxInventory) (amount : Int) :
    (s.pcDelitem n amount).Sound := by
  unfold Sound
  obtain hs | ⟨a, w, hs⟩ | hs := s.pcDelitem_cases n amount
  · rw [hs]
    exact h
  · rw [hs]
    exact h.withAmount n a
  · rw [hs.inventory, hs.inventoryData]
    exact h.clear n

/-- **`pc_delitem`** -/
theorem Fine.pcDelitem (h : s.Fine) (n : Fin maxInventory) (amount : Int) :
    (s.pcDelitem n amount).Fine := by
  have hworn := Sound.pcDelitem h.worn n amount
  obtain hs | ⟨a, w, hs⟩ | hs := s.pcDelitem_cases n amount
  · rw [hs]
    exact h
  · rw [hs] at hworn ⊢
    exact h.of_slots hworn rfl (equip_update rfl)
  · refine ⟨hworn, ?_⟩
    have hplaces : (s.pcDelitem n amount).places = Function.update s.places n ∅ := by
      funext k
      unfold places equip
      rw [hs.inventory]
      rcases eq_or_ne k n with rfl | hk
      · rw [Function.update_self, Function.update_self]
        exact places_zero
      · rw [Function.update_of_ne hk, Function.update_of_ne hk]
    rw [hs.equipIndex, hplaces]
    exact indexes_release h.index n _ fun i => Iff.rfl

/-- The table that `pc_setequipindex` writes. -/
theorem fine_pcSetequipindex (h : s.Sound) :
    s.pcSetequipindex.Fine := by
  refine ⟨h, ?_⟩
  have hunique : ∀ k l i, HasPlace (s.equip k) i → HasPlace (s.equip l) i → k = l := by
    intro k l i hk hl
    by_contra hne
    exact and_ne_zero_of_hasPlace hk hl (h.disjoint k l hne)
  intro i k
  have hindex := indexes_foldl (fun k => HasPlace (s.equip k)) hunique
    ((List.finRange maxInventory).filter fun i =>
      0 < (s.sd.inventory i).nameid.toInt ∧ s.equip i ≠ 0) i k
  refine hindex.trans ⟨fun hk => hk.2, fun hk => ⟨?_, hk⟩⟩
  have hplace : HasPlace (s.equip k) i := hk
  have hne : s.equip k ≠ 0 := fun hzero => not_hasPlace_zero (hzero ▸ hplace)
  have hname : (s.sd.inventory k).nameid ≠ 0 := fun hn => hne (h.empty k hn).1
  have hpos : (s.sd.inventory k).nameid.toInt ≠ 0 := fun hzero => hname (Int16.toInt_inj.mp hzero)
  have hid := h.ids k
  simp only [List.mem_filter, List.mem_finRange, decide_eq_true_eq, true_and]
  exact ⟨by omega, hne⟩

/-! ## Checking -/

/-- The compaction of an inventory, of which the first `i` slots are done: what has been kept and
what is still to come is worn apart. -/
structure Compacting (s : EquipSession) (i : ℕ) (r : EquipSession × ℕ) : Prop where
  le : r.2 ≤ i
  rest : ∀ k : Fin maxInventory, i ≤ k → r.1.sd.inventory k = s.sd.inventory k
  kept : ∀ k : Fin maxInventory, k < r.2 →
    (r.1.sd.inventory k).nameid ≠ 0 ∧ 0 ≤ (r.1.sd.inventory k).nameid.toInt
  disjoint : ∀ k l : Fin maxInventory, k ≠ l → (k < r.2 ∨ i ≤ k) → (l < r.2 ∨ i ≤ l) →
    r.1.equip k &&& r.1.equip l = 0

/-- An item that is deleted makes no other place empty. -/
theorem pcDelitem_inventory (hk : k ≠ n) (amount : Int) :
    (s.pcDelitem n amount).sd.inventory k = s.sd.inventory k := by
  obtain hs | ⟨a, w, hs⟩ | hs := s.pcDelitem_cases n amount
  · rw [hs]
  · rw [hs]
    exact Function.update_of_ne hk ..
  · rw [hs.inventory]
    exact Function.update_of_ne hk ..

theorem inventory_copyItem (s : EquipSession) (j : ℕ) (i k : Fin maxInventory) :
    (s.copyItem j i).sd.inventory k =
      if k.val = j then s.sd.inventory i else s.sd.inventory k := rfl

theorem equip_copyItem (s : EquipSession) (j : ℕ) (i k : Fin maxInventory) :
    (s.copyItem j i).equip k = if k.val = j then s.equip i else s.equip k := by
  unfold equip
  rw [inventory_copyItem]
  split <;> rfl

/-- One round: a slot that is left out. -/
theorem Compacting.skip {r : EquipSession × ℕ} {s' : EquipSession} {i : Fin maxInventory}
    (h : s.Compacting i r) (hs : ∀ k ≠ i, s'.sd.inventory k = r.1.sd.inventory k) :
    s.Compacting (i + 1) (s', r.2) where
  le := h.le.trans (Nat.le_succ _)
  rest k hk := by
    rw [hs k (by rintro rfl; omega)]
    exact h.rest k (by omega)
  kept k hk := by
    have hle := h.le
    rw [hs k (by rintro rfl; dsimp only at hk; omega)]
    exact h.kept k hk
  disjoint k l hkl hk hl := by
    have hle := h.le
    dsimp only at hk hl
    have hki : k ≠ i := by rintro rfl; omega
    have hli : l ≠ i := by rintro rfl; omega
    unfold equip
    rw [hs k hki, hs l hli]
    exact h.disjoint k l hkl (by omega) (by omega)

/-- One round: a slot that is kept. -/
theorem Compacting.keep {r : EquipSession × ℕ} {i : Fin maxInventory} (h : s.Compacting i r)
    (hid : 0 ≤ (s.sd.inventory i).nameid.toInt) (hname : (r.1.sd.inventory i).nameid ≠ 0) :
    s.Compacting (i + 1) (if r.2 < i then r.1.copyItem r.2 i else r.1, r.2 + 1) := by
  have hle := h.le
  have hi := h.rest i (le_refl _)
  rcases hle.lt_or_eq with hlt | heq
  · rw [if_pos hlt]
    refine ⟨Nat.succ_le_succ hle, fun k hk => ?_, fun k hk => ?_, fun k l hkl hk hl => ?_⟩
    · rw [inventory_copyItem, if_neg (by omega)]
      exact h.rest k (by omega)
    · rw [inventory_copyItem]
      split
      · rw [hi] at hname ⊢
        exact ⟨hname, hid⟩
      · dsimp only at hk
        exact h.kept k (by omega)
    · dsimp only at hk hl
      rw [equip_copyItem, equip_copyItem]
      have hki : k.val ≠ i.val := by omega
      have hli : l.val ≠ i.val := by omega
      split
      · split
        · exact absurd (Fin.ext (by omega)) hkl
        · exact h.disjoint i l (fun hil => hli (by rw [hil])) (.inr (le_refl _)) (by omega)
      · split
        · exact h.disjoint k i (fun hkl => hki (by rw [hkl])) (by omega) (.inr (le_refl _))
        · exact h.disjoint k l hkl (by omega) (by omega)
  · rw [if_neg (by omega)]
    refine ⟨by dsimp only; omega, fun k hk => h.rest k (by omega), fun k hk => ?_,
      fun k l hkl hk hl => h.disjoint k l hkl (by omega) (by omega)⟩
    dsimp only at hk
    by_cases hki : k.val = i.val
    · obtain rfl := Fin.ext hki
      rw [hi] at hname ⊢
      exact ⟨hname, hid⟩
    · exact h.kept k (by omega)

theorem Sound.compactInventory (h : s.Sound) : s.compactInventory.Sound := by
  unfold EquipSession.compactInventory Sound
  dsimp only
  have hloop : s.Compacting maxInventory ((List.finRange maxInventory).foldl
      (compactStep (fun s => s.sd.inventory) s.illegalItem
        (fun s i => s.pcDelitem i (s.sd.inventory i).amount.toInt) copyItem) (s, 0)) := by
    refine @Slots.foldl_finRange _ _ s.Compacting _ _ ⟨le_refl 0, fun k _ => rfl,
      fun k hk => absurd hk (Nat.not_lt_zero _), fun k l hkl _ _ => h.disjoint k l hkl⟩ ?_
    intro i r hr
    unfold compactStep
    split
    · exact hr.skip fun k _ => rfl
    · split
      · exact hr.skip fun k hk => pcDelitem_inventory hk _
      · rename_i hname _
        exact hr.keep (h.ids i) hname
  set r := (List.finRange maxInventory).foldl
    (compactStep (fun s => s.sd.inventory) s.illegalItem
      (fun s i => s.pcDelitem i (s.sd.inventory i).amount.toInt) copyItem) (s, 0)
  refine ⟨fun k l hkl => ?_, fun k hk => ?_, fun k => ?_⟩
  · split
    · simp [Item.zero]
    · split
      · simp [Item.zero]
      · exact hloop.disjoint k l hkl (by omega) (by omega)
  · split at hk
    · rename_i hr
      rw [if_pos hr, if_pos hr]
      exact ⟨rfl, rfl⟩
    · exact absurd hk (hloop.kept k (by omega)).1
  · split
    · exact le_refl 0
    · exact (hloop.kept k (by omega)).2

theorem pcCartDelitem_inventory (db : ItemDb) (sd : MapSessionData) (i : Fin maxCart)
    (amount : Int) : (pcCartDelitem db sd i amount).inventory = sd.inventory ∧
      (pcCartDelitem db sd i amount).inventoryData = sd.inventoryData := by
  unfold pcCartDelitem
  dsimp only
  split
  · exact ⟨rfl, rfl⟩
  · split <;> exact ⟨rfl, rfl⟩

/-- The cart does not matter to what is worn. -/
theorem Sound.compactCart (h : s.Sound) : s.compactCart.Sound := by
  unfold EquipSession.compactCart Sound
  dsimp only
  refine @Slots.foldl_finRange maxCart _
    (fun _ (r : EquipSession × ℕ) => WellWorn r.1.sd.inventory r.1.sd.inventoryData) _ _ h ?_
  intro i r hr
  unfold compactStep
  split
  · exact hr
  · split
    · dsimp only
      obtain ⟨hinv, hdata⟩ := pcCartDelitem_inventory r.1.world.db r.1.sd i
        (r.1.sd.cart i).amount.toInt
      rw [hinv, hdata]
      exact hr
    · dsimp only
      split <;> exact hr

theorem Sound.checkCards (h : s.Sound) (i : Fin maxInventory) : (checkCards s i).Sound := by
  unfold EquipSession.checkCards
  dsimp only
  split
  · exact h
  · split
    · exact h.pcDelitem i _
    · exact h

theorem Sound.setEquip_zero (h : s.Sound) (i : Fin maxInventory) : (s.setEquip i 0).Sound :=
  h.wear (fun _ _ => UInt16.and_zero) fun _ => rfl

theorem sound_ite {c : Prop} [Decidable c] {s' : EquipSession} (h : s.Sound) (h' : s'.Sound) :
    (if c then s else s').Sound := by
  split
  · exact h
  · exact h'

theorem Sound.checkPosition (h : s.Sound) (i : Fin maxInventory) : (checkPosition s i).Sound := by
  have hoff := sound_ite (c := (s.equip i).toUInt32 &&& ~~~s.pcEquippoint i ≠ 0)
    (h.setEquip_zero i) h
  exact sound_ite h (sound_ite (hoff.setEquip_zero i) (sound_ite (hoff.setEquip_zero i) hoff))

/-- **`pc_checkitem`** leaves the table right, whatever it was before. -/
theorem fine_pcCheckitem (h : s.Sound) : s.pcCheckitem.Fine := by
  have hcards := sound_ite (c := s.compactInventory.compactCart.world.checkInvalidSlot)
    (@Slots.foldl_finRange _ _ (fun _ s => Sound s) _ _ h.compactInventory.compactCart
      fun i s hs => hs.checkCards i) h.compactInventory.compactCart
  exact fine_pcSetequipindex (@Slots.foldl_finRange _ _ (fun _ s => Sound s) _ _ hcards
    fun i s hs => hs.checkPosition i)

end Operations

/-! ## Runs -/

/-- What is put on fits. -/
def StepFits (s : EquipSession) : EquipEvent → Prop
  | .equipitem n => s.Fits n
  | _ => True

instance (s : EquipSession) : (e : EquipEvent) → Decidable (s.StepFits e)
  | .equipitem n => inferInstanceAs (Decidable (s.Fits n))
  | .unequipitem _ _ | .additem _ _ | .delitem _ _ | .checkitem | .change _ _ _ _ _ =>
    .isTrue trivial

/-- **One step.** -/
theorem Fine.step {s : EquipSession} (h : s.Fine) {e : EquipEvent} (he : s.StepFits e) :
    (s.step e).Fine := by
  cases e with
  | equipitem n => exact h.pcEquipitem he
  | unequipitem n flag => exact h.pcUnequipitem n flag
  | additem item amount => exact h.pcAdditem item.2 amount
  | delitem n amount => exact h.pcDelitem n amount
  | checkitem => exact fine_pcCheckitem h.worn
  | change skill wearer world gmLevel maxWeight => exact ⟨h.worn, h.index⟩

end EquipSession

open EquipSession

/-- **The equipment is in order after every run** from the table that `pc_setequipindex` writes, if
the items of the inventory are worn apart and every item that is put on fits. -/
theorem equipped_run (s : EquipSession) (es : List EquipEvent)
    (hs : s.Sound)
    (hfits : Run.Meets EquipSession.step StepFits s.pcSetequipindex es) :
    (Run.exec EquipSession.step s.pcSetequipindex es).Equipped :=
  (Run.inv_exec (I := Fine) (fun _ _ h he => h.step he) (fine_pcSetequipindex hs) hfits).equipped

/-- A player with two rings and a sword, of which nothing is worn. -/
def ringSession : EquipSession where
  sd := {
    id := 1
    inventory := slotsOf [{ nameid := 2601, amount := 1, identify := true },
      { nameid := 2601, amount := 1, identify := true },
      { nameid := 1101, amount := 1, identify := true }]
    inventoryData := fun n => if n.val < 2 then some (itemdbSearch (fun _ => none) 2601)
      else if n.val = 2 then some (itemdbSearch (fun _ => none) 1101) else none
    maxWeight := 1000 }
  world := { data := fun nameid =>
    if nameid = 2601 then { equip := 0x88, available := true }
    else if nameid = 1101 then { equip := 2, look := 2, available := true }
    else {} }

theorem ringSession_sound : ringSession.Sound := by
  have hzero : ∀ n, (ringSession.sd.inventory n).equip = 0 := by decide
  refine ⟨fun m n _ => ?_, by decide, by decide⟩
  rw [hzero, hzero]
  rfl

/-- The slots of the rings and of the sword. -/
def ringSlot : Fin maxInventory := ⟨0, by decide⟩
def otherSlot : Fin maxInventory := ⟨1, by decide⟩
def swordSlot : Fin maxInventory := ⟨2, by decide⟩

theorem equipped_rings :
    (Run.exec EquipSession.step ringSession.pcSetequipindex
      [.equipitem ringSlot, .equipitem otherSlot, .equipitem swordSlot, .unequipitem ringSlot 1,
        .delitem otherSlot 1, .additem ⟨{ nameid := 2601, identify := true }, rfl⟩ 1, .checkitem,
        .equipitem ringSlot]).Equipped :=
  equipped_run ringSession _ ringSession_sound (by decide +kernel)

/-- A ring that is put on again counts at both places. -/
theorem ring_counts_twice :
    ¬ ∀ (s : EquipSession) (es : List EquipEvent), s.Sound →
      (Run.exec EquipSession.step s.pcSetequipindex es).Equipped := by
  intro h
  have hindex := (h ringSession [.equipitem ringSlot, .equipitem ringSlot] ringSession_sound).index
    1 ringSlot
  have htwice : ¬ ((Run.exec EquipSession.step ringSession.pcSetequipindex
      [.equipitem ringSlot, .equipitem ringSlot]).equipIndex 1 = some ringSlot ↔
      HasPlace ((Run.exec EquipSession.step ringSession.pcSetequipindex
        [.equipitem ringSlot, .equipitem ringSlot]).equip ringSlot) 1) := by decide
  exact htwice hindex

end Nezumi
