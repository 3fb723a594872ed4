import Nezumi.Map.Block
import Mathlib.Data.Finset.Card
import Mathlib.Data.List.Flatten

/-!
# What the block lists hold (`map/map.c`)

* `BlocksOk`: the lists of the blocks are linked as they should be, and the numbers of players are
  right.
* `BlocksOk.addblock`, `BlocksOk.delblock`, `BlocksOk.place`: the operations keep this.
* `noteArea_eq`: the loops of `map_foreachinarea` note the first `BL_LIST_MAX` objects of
  `areaWanted`.
* `areaWanted_nodup`, `mem_areaWanted`: these are the objects in the area, each once.
* `callObjects_sublist`, `callObjects_of_kept`, `mem_callObjects`: which of them are called.
-/

namespace Nezumi

open Chain

/-- A list: the monsters or the other objects of a block of a map. -/
abbrev Slot := Bool × Int × Int

/-- The list for an object of a type and a place. -/
def MapSizes.slotOf (md : MapSizes) (bl : BlockList) : Slot :=
  (bl.type = .mob, bl.m, md.blockOf bl.m bl.x bl.y)

/-- The list an object belongs into. -/
def Blocks.slot (md : MapSizes) (s : Blocks) (o : Nat) : Slot := md.slotOf (s.bl o)

/-- Where a list starts. -/
def Blocks.starts (s : Blocks) (k : Slot) : Option Nat :=
  if k.1 then s.blockMob k.2.1 k.2.2 else s.block k.2.1 k.2.2

/-- The players of a map. -/
def IsPlayerOn (s : Blocks) (m : Int) (o : Nat) : Prop := (s.bl o).type = .pc ∧ (s.bl o).m = m

instance (s : Blocks) (m : Int) (o : Nat) : Decidable (IsPlayerOn s m o) :=
  inferInstanceAs (Decidable (_ ∧ _))

/-- The index is in order: `lists` are its lists and `linked` are the objects in them. -/
structure BlocksOk (md : MapSizes) (s : Blocks) (lists : Slot → List Nat) (linked : Finset Nat) :
    Prop where
  shelves : Shelves s.links s.starts (s.slot md) lists
  mem : ∀ o, o ∈ linked ↔ s.linked o
  has : ∀ o ∈ linked, md.has (s.bl o)
  users : ∀ m, s.users m = (linked.filter (IsPlayerOn s m)).card

section Operations

variable {md : MapSizes} {s : Blocks} {lists : Slot → List Nat} {linked : Finset Nat} {o : Nat}

theorem linked_iff : s.linked o ↔ s.links.prev o ≠ .null := by simp [Blocks.linked]

/-- One list of a grid starts anew. -/
theorem grid_update (g : Int → Int → Option Nat) (m b m' b' : Int) (v : Option Nat) :
    Function.update g m (Function.update (g m) b v) m' b' =
      if m' = m ∧ b' = b then v else g m' b' := by
  rcases eq_or_ne m' m with rfl | hm
  · rw [Function.update_self, Function.update_apply]
    simp
  · rw [Function.update_of_ne hm, if_neg fun h => hm h.1]

theorem starts_update {s s' : Blocks} (md : MapSizes) (v : Option Nat)
    (hmob : s'.blockMob = if (s.slot md o).1 then
      Function.update s.blockMob (s.slot md o).2.1
        (Function.update (s.blockMob (s.slot md o).2.1) (s.slot md o).2.2 v) else s.blockMob)
    (hblock : s'.block = if (s.slot md o).1 then s.block else
      Function.update s.block (s.slot md o).2.1
        (Function.update (s.block (s.slot md o).2.1) (s.slot md o).2.2 v)) :
    s'.starts = Function.update s.starts (s.slot md o) v := by
  funext k
  obtain ⟨mob, m, b⟩ := k
  unfold Blocks.starts
  rw [hmob, hblock, Function.update_apply]
  obtain ⟨mob', m', b'⟩ := s.slot md o
  dsimp only
  cases mob <;> cases mob' <;> simp [grid_update]

/-- The number of players of a map, with one object more. -/
theorem users_insert (ho : o ∉ linked) (m : Int) :
    (((insert o linked).filter (IsPlayerOn s m)).card : Int) =
      (linked.filter (IsPlayerOn s m)).card + if IsPlayerOn s m o then 1 else 0 := by
  rw [Finset.filter_insert]
  split
  · rw [Finset.card_insert_of_notMem (by simp [ho])]
    simp
  · simp

/-- The number of players of a map, with one object less. -/
theorem users_erase (ho : o ∈ linked) (m : Int) :
    (((linked.erase o).filter (IsPlayerOn s m)).card : Int) =
      (linked.filter (IsPlayerOn s m)).card - if IsPlayerOn s m o then 1 else 0 := by
  have h := users_insert (s := s) (Finset.notMem_erase o linked) m
  rw [Finset.insert_erase ho] at h
  omega

theorem slot_congr {s' : Blocks} (h : s'.bl = s.bl) : s'.slot md = s.slot md := by
  funext o
  unfold Blocks.slot
  rw [h]

/-- What changes when an object becomes the first one of its list. -/
theorem BlocksOk.added {s' : Blocks} (h : BlocksOk md s lists linked)
    (hnull : s.links.prev o = .null) (hhas : md.has (s.bl o)) (hbl : s'.bl = s.bl)
    (hlinks : s'.links = pushFront s.links (s.starts (s.slot md o)) o)
    (hstarts : s'.starts = Function.update s.starts (s.slot md o) (some o))
    (husers : ∀ m, s'.users m = s.users m + if IsPlayerOn s m o then 1 else 0) :
    BlocksOk md s' (Function.update lists (s.slot md o) (o :: lists (s.slot md o)))
      (insert o linked) := by
  have ho : o ∉ linked := by
    rw [h.mem, linked_iff, hnull]
    exact fun hne => hne rfl
  have hpush := h.shelves.push hnull
  rw [← hlinks, ← hstarts] at hpush
  refine ⟨by rw [slot_congr hbl]; exact hpush, fun o' => ?_, fun o' ho' => ?_, fun m => ?_⟩
  · have hall := hpush.mem (s.slot md o') o'
    rw [and_iff_left rfl] at hall
    rw [Finset.mem_insert, h.mem, linked_iff, linked_iff, ← hall]
    rcases eq_or_ne (s.slot md o') (s.slot md o) with heq | hne
    · rw [heq, Function.update_self, List.mem_cons, h.shelves.mem, and_iff_left heq]
    · rw [Function.update_of_ne hne, h.shelves.mem, and_iff_left rfl]
      exact or_iff_right fun heq => hne (by rw [heq])
  · rw [hbl]
    rcases Finset.mem_insert.mp ho' with rfl | ho'
    · exact hhas
    · exact h.has o' ho'
  · have hplayer (o' : Nat) : IsPlayerOn s' m o' ↔ IsPlayerOn s m o' := by
      unfold IsPlayerOn
      rw [hbl]
    rw [husers, h.users, Finset.filter_congr fun o' _ => hplayer o']
    exact (users_insert ho m).symm

/-- **`map_addblock`** -/
theorem BlocksOk.addblock (h : BlocksOk md s lists linked) (o : Nat) :
    ∃ lists' linked', BlocksOk md (mapAddblock md s o).2 lists' linked' ∧
      linked'.card ≤ linked.card + 1 := by
  unfold mapAddblock
  split
  · exact ⟨lists, linked, h, Nat.le_succ _⟩
  rename_i hnull
  rw [not_not] at hnull
  dsimp only
  split
  · exact ⟨lists, linked, h, Nat.le_succ _⟩
  rename_i hhas
  have hhas : md.has (s.bl o) := by simpa using hhas
  have hcard := Finset.card_insert_le o linked
  split
  · rename_i htype
    refine ⟨_, _, h.added hnull hhas rfl ?_ ?_ fun m => ?_, hcard⟩
    · simp [Blocks.starts, Blocks.slot, MapSizes.slotOf, htype]
    · refine starts_update (s := s) (o := o) md (some o) ?_ ?_ <;> simp [Blocks.slot, MapSizes.slotOf, htype]
    · simp [IsPlayerOn, htype]
  · rename_i htype
    refine ⟨_, _, h.added hnull hhas rfl ?_ ?_ fun m => ?_, hcard⟩
    · simp [Blocks.starts, Blocks.slot, MapSizes.slotOf, htype]
    · refine starts_update (s := s) (o := o) md (some o) ?_ ?_ <;> simp [Blocks.slot, MapSizes.slotOf, htype]
    · dsimp only
      unfold IsPlayerOn
      rcases eq_or_ne (s.bl o).type .pc with hpc | hpc
      · rw [if_pos hpc, Function.update_apply]
        rcases eq_or_ne m (s.bl o).m with rfl | hm
        · simp [hpc]
        · simp [hpc, hm, hm.symm]
      · simp [hpc]

/-- **`map_delblock`** -/
theorem BlocksOk.delblock (h : BlocksOk md s lists linked) (o : Nat) :
    ∃ lists' linked', BlocksOk md (mapDelblock md s o) lists' linked' ∧
      linked'.card ≤ linked.card := by
  unfold mapDelblock
  split
  · exact ⟨lists, linked, h, le_rfl⟩
  rename_i hne
  have ho : o ∈ linked := by rw [h.mem, linked_iff]; exact hne
  have hunlink := h.shelves.unlink hne
  refine ⟨Function.update lists (s.slot md o) ((lists (s.slot md o)).erase o), linked.erase o,
    ⟨?_, fun o' => ?_, fun o' ho' => ?_, fun m => ?_⟩, Finset.card_erase_le⟩
  rotate_left
  · rw [Finset.mem_erase, h.mem, linked_iff, linked_iff]
    have hall := hunlink.mem (s.slot md o') o'
    simp only [and_true] at hall
    refine Iff.trans ?_ hall
    rcases eq_or_ne (s.slot md o') (s.slot md o) with heq | hslot
    · rw [heq, Function.update_self, (h.shelves.nodup _).mem_erase_iff, h.shelves.mem,
        and_iff_left heq]
    · rw [Function.update_of_ne hslot, h.shelves.mem, and_iff_left rfl]
      exact and_iff_right fun heq => hslot (by rw [heq])
  · exact h.has o' (Finset.mem_of_mem_erase ho')
  · dsimp only
    refine Eq.trans ?_ (users_erase (s := s) ho m).symm
    rw [← h.users]
    unfold IsPlayerOn
    rcases eq_or_ne (s.bl o).type .pc with hpc | hpc
    · rw [if_pos hpc, Function.update_apply]
      rcases eq_or_ne m (s.bl o).m with rfl | hm
      · simp [hpc]
      · simp [hpc, hm, hm.symm]
    · simp [hpc]
  convert hunlink using 1
  swap
  · rfl
  split
  · rename_i hhead
    refine starts_update (s := s) (o := o) md (s.links.next o) ?_ ?_
    · rcases eq_or_ne (s.bl o).type .mob with htype | htype <;>
        simp [Blocks.slot, MapSizes.slotOf, htype, hhead]
    · rcases eq_or_ne (s.bl o).type .mob with htype | htype <;>
        simp [Blocks.slot, MapSizes.slotOf, htype, hhead]
  · rename_i hhead
    simp only [hhead, false_and, if_false]
    rfl

/-- **New coordinates**, of an object in no list, or within its block. -/
theorem BlocksOk.place (h : BlocksOk md s lists linked) {bl : BlockList}
    (htype : bl.type = (s.bl o).type)
    (hmove : s.links.prev o = .null ∨ bl.m = (s.bl o).m ∧ md.has bl ∧
      md.blockOf bl.m bl.x bl.y = md.blockOf (s.bl o).m (s.bl o).x (s.bl o).y) :
    BlocksOk md { s with bl := Function.update s.bl o bl } lists linked := by
  have hother (o' : Nat) (ho' : o' ∈ linked) : o' ≠ o ∨ bl.m = (s.bl o).m ∧ md.has bl ∧
      md.blockOf bl.m bl.x bl.y = md.blockOf (s.bl o).m (s.bl o).x (s.bl o).y := by
    rw [h.mem, linked_iff] at ho'
    refine hmove.imp (fun hnull => ?_) id
    rintro rfl
    exact ho' hnull
  refine ⟨h.shelves.rekey fun o' ho' => ?_, h.mem, fun o' ho' => ?_, fun m => ?_⟩
  · unfold Blocks.slot
    dsimp only
    rcases eq_or_ne o' o with rfl | hne
    · obtain ⟨hm, -, hb⟩ :=
        (hother o' ((h.mem o').mpr (linked_iff.mpr ho'))).resolve_left (not_not_intro rfl)
      rw [hm] at hb
      rw [Function.update_self]
      unfold MapSizes.slotOf
      simp only [htype, hm, hb]
    · rw [Function.update_of_ne hne]
  · rcases eq_or_ne o' o with rfl | hne
    · dsimp only
      rw [Function.update_self]
      exact ((hother o' ho').resolve_left (not_not_intro rfl)).2.1
    · dsimp only
      rw [Function.update_of_ne hne]
      exact h.has o' ho'
  · have hplayer : ∀ o' ∈ linked,
        (IsPlayerOn { s with bl := Function.update s.bl o bl } m o' ↔ IsPlayerOn s m o') := by
      intro o' ho'
      unfold IsPlayerOn
      dsimp only
      rcases eq_or_ne o' o with rfl | hne
      · rw [Function.update_self, htype,
          ((hother o' ho').resolve_left (not_not_intro rfl)).1]
      · rw [Function.update_of_ne hne]
    rw [Finset.filter_congr hplayer]
    exact h.users m

end Operations

/-! ## Searches -/

section Searches

variable {md : MapSizes} {s : Blocks} {lists : Slot → List Nat} {linked : Finset Nat}
  {fuel blockcount : Nat} {m : Int} {r : Rect} {type : BlType}

/-- Whether a search is about an object. -/
def wanted (s : Blocks) (r : Rect) (type : BlType) (o : Nat) : Bool :=
  typeWanted type (s.bl o) && r.holds (s.bl o)

/-- The objects of a block that a search is about. -/
def blockWanted (s : Blocks) (fuel : Nat) (m : Int) (r : Rect) (type : BlType) (b : Int) :
    List Nat :=
  let list start := walk s.links.next fuel start
  match type with
  | .nul => (list (s.block m b)).filter (wanted s r .nul) ++
      (list (s.blockMob m b)).filter (wanted s r .nul)
  | .mob => (list (s.blockMob m b)).filter (wanted s r .nul)
  | type => (list (s.block m b)).filter (wanted s r type)

/-- The objects that a search is about. -/
def areaWanted (md : MapSizes) (s : Blocks) (fuel : Nat) (m : Int) (r : Rect) (type : BlType) :
    List Nat :=
  (areaBlocks md m (r.clamp md m)).flatMap (blockWanted s fuel m (r.clamp md m) type)

/-- A loop notes what there is room for. -/
theorem noteObjects_take (acc objs : List Nat) :
    noteObjects s blockcount r type (acc.take (blListMax - blockcount)) objs =
      (acc ++ objs.filter (wanted s r type)).take (blListMax - blockcount) := by
  induction objs generalizing acc with
  | nil => simp [noteObjects]
  | cons o objs ih =>
    have hstep : (if typeWanted type (s.bl o) && r.holds (s.bl o) &&
          decide (blockcount + (acc.take (blListMax - blockcount)).length < blListMax) then
        acc.take (blListMax - blockcount) ++ [o] else acc.take (blListMax - blockcount)) =
        (acc ++ [o].filter (wanted s r type)).take (blListMax - blockcount) := by
      change (if (wanted s r type o && decide _) = true then _ else _) = _
      by_cases hw : wanted s r type o
      · rw [hw, Bool.true_and, List.filter_singleton, hw, cond_true, List.length_take]
        rcases lt_or_ge acc.length (blListMax - blockcount) with hlt | hge
        · rw [if_pos (by simp; omega), List.take_of_length_le (by omega),
            List.take_of_length_le (by simp; omega)]
        · rw [if_neg (by simp; omega), List.take_append_of_le_length hge]
      · rw [Bool.not_eq_true] at hw
        rw [hw, Bool.false_and, List.filter_singleton, hw, cond_false, List.append_nil]
        rfl
    unfold noteObjects at ih ⊢
    rw [List.foldl_cons, hstep, ih, List.append_assoc, ← List.filter_append]
    rfl

theorem noteBlock_take (acc : List Nat) (b : Int) :
    noteBlock s fuel blockcount m r type (acc.take (blListMax - blockcount)) b =
      (acc ++ blockWanted s fuel m r type b).take (blListMax - blockcount) := by
  unfold noteBlock blockWanted
  cases type <;> dsimp only
  case nul => rw [noteObjects_take, noteObjects_take, List.append_assoc]
  all_goals exact noteObjects_take _ _

/-- **The loops of a search** note what there is room for. -/
theorem noteArea_eq : noteArea md s fuel blockcount m r type =
    (areaWanted md s fuel m r type).take (blListMax - blockcount) := by
  have hfold (bs : List Int) (acc : List Nat) :
      bs.foldl (noteBlock s fuel blockcount m (r.clamp md m) type)
        (acc.take (blListMax - blockcount)) =
      (acc ++ bs.flatMap (blockWanted s fuel m (r.clamp md m) type)).take
        (blListMax - blockcount) := by
    induction bs generalizing acc with
    | nil => simp
    | cons b bs ih =>
      rw [List.foldl_cons, noteBlock_take, ih, List.flatMap_cons, List.append_assoc]
  have h := hfold (areaBlocks md m (r.clamp md m)) []
  rw [List.take_nil, List.nil_append] at h
  exact h

/-- An object of a linked list is one of its slot. -/
theorem BlocksOk.mem_list (h : BlocksOk md s lists linked) {k : Slot} {o : Nat} :
    o ∈ lists k ↔ o ∈ linked ∧ s.slot md o = k := by
  rw [h.shelves.mem, h.mem, linked_iff]

/-- A loop over a list finds all of it. -/
theorem BlocksOk.walk_eq (h : BlocksOk md s lists linked) (hfuel : linked.card ≤ fuel) (k : Slot) :
    walk s.links.next fuel (s.starts k) = lists k := by
  refine (h.shelves.seg k).walk_eq (le_trans ?_ hfuel)
  rw [← List.toFinset_card_of_nodup (h.shelves.nodup k)]
  refine Finset.card_le_card fun o ho => ?_
  exact (h.mem_list.mp (List.mem_toFinset.mp ho)).1

theorem BlocksOk.blockWanted_eq (h : BlocksOk md s lists linked) (hfuel : linked.card ≤ fuel)
    (b : Int) : blockWanted s fuel m r type b =
      (if type = .mob then [] else (lists (false, m, b)).filter (wanted s r type)) ++
        if type = .nul ∨ type = .mob then (lists (true, m, b)).filter (wanted s r .nul) else [] := by
  have hblock : walk s.links.next fuel (s.block m b) = lists (false, m, b) :=
    h.walk_eq hfuel (false, m, b)
  have hmob : walk s.links.next fuel (s.blockMob m b) = lists (true, m, b) :=
    h.walk_eq hfuel (true, m, b)
  unfold blockWanted
  dsimp only
  rw [hblock, hmob]
  cases type <;> simp

/-- **What a search finds in a block.** -/
theorem BlocksOk.mem_blockWanted (h : BlocksOk md s lists linked) (hfuel : linked.card ≤ fuel)
    {b : Int} {o : Nat} : o ∈ blockWanted s fuel m r type b ↔
      o ∈ linked ∧ (s.bl o).m = m ∧ md.blockOf m (s.bl o).x (s.bl o).y = b ∧
        typeWanted type (s.bl o) ∧ r.holds (s.bl o) := by
  rw [h.blockWanted_eq hfuel]
  unfold wanted
  have hslot (mob : Bool) : s.slot md o = (mob, m, b) ↔
      ((s.bl o).type = .mob ↔ mob = true) ∧ (s.bl o).m = m ∧
        md.blockOf m (s.bl o).x (s.bl o).y = b := by
    unfold Blocks.slot MapSizes.slotOf
    rw [Prod.mk.injEq, Prod.mk.injEq]
    refine and_congr (by cases mob <;> simp) (and_congr_right fun hm => by rw [hm])
  have hmob : typeWanted .nul (s.bl o) = true := rfl
  have htype : typeWanted type (s.bl o) = true ↔ type = .nul ∨ (s.bl o).type = type := by
    simp [typeWanted]
  by_cases hnul : type = .nul
  · subst hnul
    simp only [reduceCtorEq, if_false, true_or, if_true, List.mem_append, List.mem_filter,
      h.mem_list, hslot, hmob, Bool.true_and]
    grind
  by_cases hm : type = .mob
  · subst hm
    simp only [or_true, if_true, List.nil_append, List.mem_filter, h.mem_list, hslot, hmob, htype,
      reduceCtorEq, false_or, Bool.true_and, iff_true]
    grind
  · simp only [hnul, hm, if_false, or_self, List.append_nil, List.mem_filter, h.mem_list, hslot,
      Bool.and_eq_true, htype, false_or, Bool.false_eq_true, iff_false]
    constructor
    · grind
    · rintro ⟨ho, hmap, hb, rfl, hr⟩
      exact ⟨⟨ho, hm, hmap, hb⟩, rfl, hr⟩

theorem BlocksOk.blockWanted_nodup (h : BlocksOk md s lists linked) (hfuel : linked.card ≤ fuel)
    (b : Int) : (blockWanted s fuel m r type b).Nodup := by
  rw [h.blockWanted_eq hfuel, List.nodup_append']
  refine ⟨?_, ?_, ?_⟩
  · split
    · exact List.nodup_nil
    · exact (h.shelves.nodup _).filter _
  · split
    · exact (h.shelves.nodup _).filter _
    · exact List.nodup_nil
  · intro o ho ho'
    split at ho
    · cases ho
    split at ho'
    · have := h.shelves.disjoint (List.mem_of_mem_filter ho) (List.mem_of_mem_filter ho')
      simp at this
    · cases ho'

theorem mem_intRange {a b z : Int} : z ∈ intRange a b ↔ a ≤ z ∧ z ≤ b := by
  unfold intRange
  rw [List.mem_map]
  constructor
  · rintro ⟨i, hi, rfl⟩
    rw [List.mem_range] at hi
    omega
  · rintro ⟨ha, hb⟩
    exact ⟨(z - a).toNat, by rw [List.mem_range]; omega, by omega⟩

theorem intRange_nodup (a b : Int) : (intRange a b).Nodup := by
  refine List.Nodup.map (fun i j hij => ?_) List.nodup_range
  have hij : a + (i : Int) = a + j := hij
  omega

/-- Where the blocks of a map begin, in its numbering, no two coincide. -/
theorem blockNumber_inj {w bx bx' by₀ by₁ : Int} (h0 : 0 ≤ bx) (h1 : bx < w) (h0' : 0 ≤ bx')
    (h1' : bx' < w) (h : bx + by₀ * w = bx' + by₁ * w) : bx = bx' ∧ by₀ = by₁ := by
  have hmod : (bx + by₀ * w) % w = (bx' + by₁ * w) % w := by rw [h]
  rw [Int.add_mul_emod_self_right, Int.add_mul_emod_self_right, Int.emod_eq_of_lt h0 h1,
    Int.emod_eq_of_lt h0' h1'] at hmod
  subst hmod
  exact ⟨rfl, Int.eq_of_mul_eq_mul_right (by omega) (by omega : by₀ * w = by₁ * w)⟩

theorem areaBlocks_nodup (hx0 : 0 ≤ r.x0) (hx1 : 0 ≤ r.x1) (hx : r.x1 < md.xs m) :
    (areaBlocks md m r).Nodup := by
  have hw : ∀ bx ∈ intRange (r.x0.tdiv blockSize) (r.x1.tdiv blockSize), 0 ≤ bx ∧ bx < md.bxs m := by
    intro bx hbx
    have hsize : blockSize = 8 := rfl
    rw [mem_intRange, Int.tdiv_eq_ediv_of_nonneg hx0, Int.tdiv_eq_ediv_of_nonneg hx1, hsize] at hbx
    unfold MapSizes.bxs
    rw [Int.tdiv_eq_ediv_of_nonneg (by omega), hsize]
    omega
  unfold areaBlocks
  rw [List.nodup_flatMap]
  refine ⟨fun by' _ => ?_, ?_⟩
  · refine (intRange_nodup _ _).map_on fun bx hbx bx' hbx' heq => ?_
    omega
  · refine (intRange_nodup _ _).imp fun hne => ?_
    intro b hb hb'
    obtain ⟨bx, hbx, rfl⟩ := List.mem_map.mp hb
    obtain ⟨bx', hbx', heq⟩ := List.mem_map.mp hb'
    exact hne (blockNumber_inj (hw bx hbx).1 (hw bx hbx).2 (hw bx' hbx').1 (hw bx' hbx').2
      heq.symm).2

/-- **A search finds each object in the area once.** -/
theorem BlocksOk.areaWanted_nodup (h : BlocksOk md s lists linked) (hfuel : linked.card ≤ fuel) :
    (areaWanted md s fuel m r type).Nodup := by
  unfold areaWanted
  rcases lt_or_ge (r.clamp md m).x1 0 with hneg | hx1
  · have hempty : ∀ b, blockWanted s fuel m (r.clamp md m) type b = [] := by
      intro b
      refine List.eq_nil_iff_forall_not_mem.mpr fun o ho => ?_
      obtain ⟨ho, -, -, -, hr⟩ := (h.mem_blockWanted hfuel).mp ho
      have hhas := h.has o ho
      simp only [MapSizes.has, Rect.holds, Bool.and_eq_true, decide_eq_true_eq] at hhas hr
      omega
    rw [List.flatMap_eq_nil_iff.mpr fun b _ => hempty b]
    exact List.nodup_nil
  · have hx0 : 0 ≤ (r.clamp md m).x0 := by
      unfold Rect.clamp
      dsimp only
      split <;> omega
    have hx : (r.clamp md m).x1 < md.xs m := by
      unfold Rect.clamp
      dsimp only
      split <;> omega
    rw [List.nodup_flatMap]
    refine ⟨fun b _ => h.blockWanted_nodup hfuel b, ?_⟩
    refine (areaBlocks_nodup hx0 hx1 hx).imp fun hne => ?_
    intro o ho ho'
    exact hne (((h.mem_blockWanted hfuel).mp ho).2.2.1.symm.trans
      ((h.mem_blockWanted hfuel).mp ho').2.2.1)

/-- **What a search finds**: the objects of the type on the map in the rectangle. -/
theorem BlocksOk.mem_areaWanted (h : BlocksOk md s lists linked) (hfuel : linked.card ≤ fuel)
    {o : Nat} : o ∈ areaWanted md s fuel m r type ↔
      o ∈ linked ∧ (s.bl o).m = m ∧ typeWanted type (s.bl o) ∧
        (r.clamp md m).holds (s.bl o) := by
  unfold areaWanted
  rw [List.mem_flatMap]
  constructor
  · rintro ⟨b, -, ho⟩
    obtain ⟨h1, h2, -, h4, h5⟩ := (h.mem_blockWanted hfuel).mp ho
    exact ⟨h1, h2, h4, h5⟩
  · rintro ⟨ho, hm, htype, hr⟩
    refine ⟨md.blockOf m (s.bl o).x (s.bl o).y, ?_, (h.mem_blockWanted hfuel).mpr
      ⟨ho, hm, rfl, htype, hr⟩⟩
    have hhas := h.has o ho
    simp only [MapSizes.has, Rect.holds, Bool.and_eq_true, decide_eq_true_eq] at hhas hr
    have hx0 : 0 ≤ (r.clamp md m).x0 ∧ 0 ≤ (r.clamp md m).y0 := by
      unfold Rect.clamp
      dsimp only
      constructor <;> split <;> omega
    have hsize : blockSize = 8 := rfl
    refine List.mem_flatMap.mpr ⟨(s.bl o).y.tdiv blockSize, ?_, List.mem_map.mpr
      ⟨(s.bl o).x.tdiv blockSize, ?_, rfl⟩⟩
    · rw [mem_intRange, Int.tdiv_eq_ediv_of_nonneg hx0.2, Int.tdiv_eq_ediv_of_nonneg (by omega),
        Int.tdiv_eq_ediv_of_nonneg (by omega), hsize]
      omega
    · rw [mem_intRange, Int.tdiv_eq_ediv_of_nonneg hx0.1, Int.tdiv_eq_ediv_of_nonneg (by omega),
        Int.tdiv_eq_ediv_of_nonneg (by omega), hsize]
      omega

/-! ## Calls -/

variable {σ : Type} {view : σ → Blocks} {func : σ → Nat → σ} {st : σ} {objs : List Nat}

/-- Every object is called at most once. -/
theorem callObjects_sublist : (callObjects view func st objs).2.Sublist objs := by
  induction objs generalizing st with
  | nil => exact .slnil
  | cons o objs ih =>
    unfold callObjects
    split
    · exact ih.cons_cons o
    · exact ih.cons o

/-- All are called, if no call takes an object off its list. -/
theorem callObjects_of_kept (hlinked : ∀ o ∈ objs, (view st).linked o)
    (hfunc : ∀ st o o', (view st).linked o' → (view (func st o)).linked o') :
    (callObjects view func st objs).2 = objs := by
  induction objs generalizing st with
  | nil => rfl
  | cons o objs ih =>
    unfold callObjects
    rw [if_pos (hlinked o (by simp))]
    dsimp only
    rw [ih fun o' ho' => hfunc st o o' (hlinked o' (List.mem_cons_of_mem o ho'))]

/-- An object is called if it is still in its list when its turn comes. -/
theorem mem_callObjects {before after : List Nat} {o : Nat}
    (hnodup : (before ++ o :: after).Nodup) :
    o ∈ (callObjects view func st (before ++ o :: after)).2 ↔
      (view (callObjects view func st before).1).linked o := by
  induction before generalizing st with
  | nil =>
    have ho : o ∉ after := (List.nodup_cons.mp hnodup).1
    rw [List.nil_append]
    unfold callObjects
    split
    · rename_i hlinked
      simpa using hlinked
    · rename_i hlinked
      exact iff_of_false (fun hmem => ho (callObjects_sublist.subset hmem)) hlinked
  | cons c before ih =>
    obtain ⟨hc, hnodup⟩ := List.nodup_cons.mp hnodup
    have hoc : o ≠ c := by
      rintro rfl
      exact hc (by simp)
    rw [List.cons_append]
    unfold callObjects
    split
    · dsimp only
      rw [List.mem_cons, or_iff_right hoc]
      exact ih hnodup
    · exact ih hnodup

end Searches

end Nezumi
