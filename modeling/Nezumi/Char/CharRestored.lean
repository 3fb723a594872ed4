import Nezumi.Char.CharText

/-!
# Characters that come back from their file

* `CharRecord.Held` says which characters can be read again.
* `CharRecord.restored` is what a character becomes: the lists are packed to the front, and what the
  servers do not save or do not accept is left out or cut down.
* `sscanf_headText`: the fields read back. `readEntries_flatMap` says the same of a list.
* `mmoChar_restored`: a held character reads back as `restored` says.
-/

namespace Nezumi

open Decimal Scanf

/-! ## What a character becomes -/

/-- An item whose `refine` is cut down to 10. -/
def Item.refined (it : Item) : Item :=
  { it with refine := Fin.ofNat 16 (min it.refine.val 10) }

/-- The items in the slots that are used. -/
def usedItems {n : ℕ} (items : Fin n → Item) : List Item :=
  (List.ofFn items).filter fun it => it.nameid ≠ 0

/-- The memo points that are used. -/
def usedPoints (memo : Fin maxPortalMemo → MapPoint) : List MapPoint :=
  (List.ofFn memo).filter fun point => point.map.bytes ≠ []

/-- The level of a skill that a card does not add to. -/
def baseLevel (s : SkillSlot) : UInt8 := if s.flag = 0 then s.lv else s.flag - 2

/-- A skill with its own level, in its place. -/
def restoredSkill (i : Fin maxSkill) (s : SkillSlot) : SkillSlot :=
  if savedSkill i s ∧ baseLevel s ≠ 0 then { id := UInt16.ofNat i.val, lv := baseLevel s } else {}

/-- A variable with a name and a value. -/
def GlobalReg.set (r : GlobalReg) : Bool := r.str.bytes ≠ [] && r.value ≠ 0

namespace CharRecord

/-- What is read of the line of a character. -/
def restored (maxHairStyle maxHairColor : Int32) (p : CharRecord) : CharRecord :=
  { p with
    hair := atMost maxHairStyle p.hair
    hairColor := atMost maxHairColor p.hairColor
    lastPoint := p.savedPoint
    memoPoint := Slots.fill (fun _ => {}) 0 (usedPoints p.memoPoint)
    inventory := Slots.fill (fun _ => Item.zero) 0 ((usedItems p.inventory).map Item.refined)
    cart := Slots.fill (fun _ => Item.zero) 0 ((usedItems p.cart).map Item.refined)
    skill := fun i => restoredSkill i (p.skill i)
    globalReg := p.globalReg.filter GlobalReg.set }

/-- The numbers that may be as low as an `int` can be. -/
def wide (p : CharRecord) : List Int32 :=
  [p.charId, p.accountId, p.baseExp, p.jobExp, p.zeny, p.hp, p.maxHp, p.sp, p.maxSp, p.partyId,
    p.guildId, p.petId, p.partnerId]

end CharRecord

/-- The name of a map that stands behind a tab. -/
def MapNamed (point : MapPoint) : Prop := Readable point.map.bytes ∧ (44 : UInt8) ∉ point.map.bytes

instance (point : MapPoint) : Decidable (MapNamed point) := inferInstanceAs (Decidable (_ ∧ _))

/-- A text that can follow a number, where a blank is skipped. -/
def FollowsNumber (s : List UInt8) : Prop := NoDigit s ∧ s.head? ≠ some 32

instance (s : List UInt8) : Decidable (FollowsNumber s) :=
  inferInstanceAs (Decidable ((∀ b ∈ s.head?, isDigit b = false) ∧ _))

/-- **A character that can be read again**: no number is the least `int`, names have no delimiters
and do not start with a blank, and the variables are as many as can be held. -/
structure CharRecord.Held (p : CharRecord) : Prop where
  wide : ∀ v ∈ p.wide, v ≠ Int32.minValue
  name : Readable p.name.bytes ∧ (9 : UInt8) ∉ p.name.bytes
  lastPoint : p.lastPoint.map.bytes = [] ∨ MapNamed p.lastPoint
  savePoint : MapNamed p.savePoint
  memoPoint : ∀ point ∈ usedPoints p.memoPoint,
    (44 : UInt8) ∉ point.map.bytes ∧ point.map.bytes.head? ≠ some 9
  /-- nothing stands between two memo points -/
  memoNext : ∀ point ∈ (usedPoints p.memoPoint).tail, FollowsNumber point.map.bytes
  inventory : ∀ it ∈ usedItems p.inventory, IsInt it.id ∧ it.id ≠ -2 ^ 31
  cart : ∀ it ∈ usedItems p.cart, IsInt it.id ∧ it.id ≠ -2 ^ 31
  /-- a skill stands in its place of the table -/
  skill : ∀ i, (p.skill i).id ≠ 0 → (p.skill i).id = UInt16.ofNat i.val
  regs : p.globalReg.length ≤ globalRegNum
  reg : ∀ r ∈ p.globalReg, (44 : UInt8) ∉ r.str.bytes ∧ r.value ≠ BitVec.intMin 32 ∧
    r.str.bytes.head? ≠ some 9 ∧ r.str.bytes.head? ≠ some 10 ∧ r.str.bytes.head? ≠ some 13
  /-- no variable is held twice -/
  nodup : (p.globalReg.map GlobalReg.str).Nodup

/-- **A character of which nothing is left out or cut down**: the lists stand at the front, and all
that is in them is saved. -/
structure CharRecord.Kept (maxHairStyle maxHairColor : Int32) (p : CharRecord) : Prop where
  hair : ¬ maxHairStyle < p.hair.toInt32
  hairColor : ¬ maxHairColor < p.hairColor.toInt32
  lastPoint : p.lastPoint.map.bytes ≠ []
  memoPoint : Slots.Packed (fun point : MapPoint => point.map.bytes ≠ []) p.memoPoint
  memoUnused : ∀ i, (p.memoPoint i).map.bytes = [] → p.memoPoint i = {}
  inventory : Slots.Packed (fun it : Item => it.nameid ≠ 0) p.inventory
  inventoryUnused : ∀ i, (p.inventory i).nameid = 0 → p.inventory i = Item.zero
  cart : Slots.Packed (fun it : Item => it.nameid ≠ 0) p.cart
  cartUnused : ∀ i, (p.cart i).nameid = 0 → p.cart i = Item.zero
  refine : ∀ it ∈ usedItems p.inventory ++ usedItems p.cart, it.refine.val ≤ 10
  skill : ∀ i, p.skill i = {} ∨
    (p.skill i).id ≠ 0 ∧ (p.skill i).lv ≠ 0 ∧ (p.skill i).flag = 0
  reg : ∀ r ∈ p.globalReg, r.set

/-! ## The fields -/

section Head

variable {f : List Directive} {r : List UInt8} {vs : List Int32} {k : ℕ}

theorem numbersText_eq (h : ∀ v ∈ vs, v ≠ Int32.minValue) :
    numbersText vs = printInts (vs.map Int32.toInt) := by
  unfold numbersText printInts
  rw [List.map_map]
  congr 1
  exact List.map_congr_left fun v hv => int2string_of_ne (h v hv)

/-- **Numbers read back**, if none is the least one. -/
theorem sscanf_numbers (hk : vs.length = k) (h : ∀ v ∈ vs, v ≠ Int32.minValue) (hr : NoDigit r) :
    sscanf (Scanf.ints k ++ f) (numbersText vs ++ r) =
      (vs.map Value.int ++ (sscanf f r).1, (sscanf f r).2) := by
  have hints : ∀ z ∈ vs.map Int32.toInt, IsInt z := by
    intro z hz
    obtain ⟨v, -, rfl⟩ := List.mem_map.mp hz
    exact isInt_toInt v
  have hread := sscanf_ints (f := f) hints hr
  rw [List.length_map, hk] at hread
  rw [numbersText_eq h, hread, List.map_map]
  congr 2
  exact List.map_congr_left fun v _ => congrArg Value.int (Int32.ofInt_toInt v)

theorem noSpace_numbersText {v : Int32} : NoSpace (numbersText (v :: vs) ++ r) := by
  obtain ⟨b, s, heq, hb⟩ := int2string_head v
  unfold numbersText
  rw [List.map_cons, heq]
  cases vs with
  | nil => exact noSpace_cons.mpr hb
  | cons v' vs => exact noSpace_cons.mpr hb

theorem toInt32_ne (x : Int16) : x.toInt32 ≠ Int32.minValue := by
  intro h
  have hx := toInt16_bounds x
  have hval := congrArg Int32.toInt h
  rw [Int16.toInt_toInt32] at hval
  rw [hval] at hx
  exact absurd hx.1 (by decide)

theorem byteInt_ne (b : UInt8) : byteInt b ≠ Int32.minValue := by
  intro h
  have hb := b.toNat_lt
  have hval := congrArg Int32.toInt h
  unfold byteInt at hval
  rw [Int32.toInt_ofNat_of_lt (by omega)] at hval
  have hmin : Int32.minValue.toInt = -2147483648 := rfl
  omega

/-- A text and the numbers behind it. -/
theorem sscanf_point {s : List UInt8} (hne : s ≠ []) (h : (44 : UInt8) ∉ s)
    (hvs : ∀ v ∈ vs, v ≠ Int32.minValue) (hr : NoDigit r) :
    sscanf (.upto 44 :: .lit 44 :: (Scanf.ints vs.length ++ f)) (s ++ 44 :: numbersText vs ++ r) =
      (.text s :: vs.map Value.int ++ (sscanf f r).1, (sscanf f r).2) := by
  rw [List.append_assoc, List.cons_append, sscanf_upto hne h, sscanf_lit,
    sscanf_numbers rfl hvs hr]
  rfl

/-- Some fields of a line: numbers, a text, or a text and numbers. -/
inductive Field where
  | numbers (vs : List Int32)
  | text (s : List UInt8)
  | point (s : List UInt8) (vs : List Int32)

namespace Field

def format : Field → List Directive
  | numbers vs => Scanf.ints vs.length
  | text _ => [.upto 9]
  | point _ vs => .upto 44 :: .lit 44 :: Scanf.ints vs.length

def written : Field → List UInt8
  | numbers vs => numbersText vs
  | text s => s
  | point s vs => s ++ 44 :: numbersText vs

def values : Field → List Value
  | numbers vs => vs.map Value.int
  | text s => [.text s]
  | point s vs => .text s :: vs.map Value.int

/-- A field that reads back behind a tab. -/
def Readable : Field → Prop
  | numbers vs => vs ≠ [] ∧ ∀ v ∈ vs, v ≠ Int32.minValue
  | text s => Scanf.Readable s ∧ (9 : UInt8) ∉ s
  | point s vs => Scanf.Readable s ∧ (44 : UInt8) ∉ s ∧ ∀ v ∈ vs, v ≠ Int32.minValue

/-- Fields with tabs between them. -/
def row : List Field → List UInt8
  | [] => []
  | [f] => f.written
  | f :: g :: fs => f.written ++ 9 :: row (g :: fs)

def rowFormat : List Field → List Directive
  | [] => []
  | [f] => f.format
  | f :: g :: fs => f.format ++ .space :: rowFormat (g :: fs)

theorem noSpace_written {f : Field} (hf : f.Readable) : NoSpace (f.written ++ r) := by
  cases f with
  | numbers vs =>
    obtain ⟨v, vs, rfl⟩ := List.exists_cons_of_ne_nil hf.1
    exact noSpace_numbersText
  | text s => exact hf.1.2.append hf.1.1
  | point s vs =>
    unfold written
    rw [List.append_assoc]
    exact hf.1.2.append hf.1.1

/-- **A field reads back** in front of a tab. -/
theorem sscanf_field {f : Field} (hf : f.Readable) {fmt : List Directive} :
    sscanf (f.format ++ fmt) (f.written ++ 9 :: r) =
      (f.values ++ (sscanf fmt (9 :: r)).1, (sscanf fmt (9 :: r)).2) := by
  have htab : NoDigit (9 :: r) := noDigit_cons.mpr rfl
  cases f with
  | numbers vs => exact sscanf_numbers rfl hf.2 htab
  | text s => exact sscanf_upto hf.1.1 hf.2
  | point s vs => exact sscanf_point hf.1.1 hf.2.1 hf.2.2 htab

theorem noSpace_row {f : Field} {fs : List Field} (hf : f.Readable) :
    NoSpace (row (f :: fs) ++ r) := by
  cases fs with
  | nil => exact noSpace_written hf
  | cons g fs =>
    rw [row, List.append_assoc]
    exact noSpace_written hf

/-- **A row of fields reads back.** -/
theorem sscanf_row {fs : List Field} (hfs : ∀ f ∈ fs, f.Readable) :
    sscanf (rowFormat fs) (row fs ++ 9 :: r) = (fs.flatMap values, some (9 :: r)) := by
  induction fs with
  | nil => rfl
  | cons f fs ih =>
    have hf := hfs f List.mem_cons_self
    cases fs with
    | nil =>
      have hfield := @sscanf_field r f hf []
      rw [List.append_nil] at hfield
      rw [rowFormat, row, hfield]
      simp
    | cons g fs =>
      have hg : NoSpace (row (g :: fs) ++ 9 :: r) := noSpace_row (hfs g (by simp))
      rw [rowFormat, row, List.append_assoc, List.cons_append, sscanf_field hf, sscanf_space rfl hg,
        ih fun h hh => hfs h (List.mem_cons_of_mem _ hh)]
      simp

end Field

end Head

section Lists

variable {σ ν α : Type} {code : Int} {stop : σ → List UInt8 → Bool}
  {entry : List UInt8 → Option (ν × List UInt8)} {store : σ → ν → σ} {text : α → List UInt8}
  {val : α → ν} {xs : List α} {s : σ} {r : List UInt8} {fuel : ℕ}

/-- **A list reads back** up to its tab, if each of its entries does in front of the others. -/
theorem readEntries_flatMap (hfuel : xs.length < fuel)
    (h : ∀ ys x zs, ys ++ x :: zs = xs →
      (text x ++ (zs.flatMap text ++ 9 :: r)).head? ≠ some 9 ∧
      stop ((ys.map val).foldl store s) (text x ++ (zs.flatMap text ++ 9 :: r)) = false ∧
      ∃ rest, entry (text x ++ (zs.flatMap text ++ 9 :: r)) = some (val x, rest) ∧
        skipBlank rest = zs.flatMap text ++ 9 :: r) :
    readEntries code stop entry store fuel (xs.flatMap text ++ 9 :: r) s =
      .ok ((xs.map val).foldl store s, 9 :: r) := by
  induction xs generalizing s fuel with
  | nil =>
    cases fuel with
    | zero => cases hfuel
    | succ fuel => exact if_pos (.inr (.inl rfl))
  | cons x xs ih =>
    cases fuel with
    | zero => cases hfuel
    | succ fuel =>
      obtain ⟨hhead, hstop, rest, hentry, hskip⟩ := h [] x xs rfl
      have hgo : ¬ (text x ++ (xs.flatMap text ++ 9 :: r) = [] ∨
          (text x ++ (xs.flatMap text ++ 9 :: r)).head? = some 9 ∨
          stop s (text x ++ (xs.flatMap text ++ 9 :: r)) = true) := by
        rintro (hnil | hnine | htrue)
        · simp at hnil
        · exact hhead hnine
        · exact Bool.false_ne_true (hstop.symm.trans htrue)
      rw [List.flatMap_cons, List.append_assoc, readEntries, if_neg hgo, hentry]
      dsimp only
      rw [hskip, ih (by simpa using hfuel) fun ys y zs hys => ?_]
      · rfl
      · exact h (x :: ys) y zs (by rw [List.cons_append, hys])

/-- A text without a blank at its front is not the end of a list. -/
theorem head_ne_tab {s : List UInt8} (h : NoSpace s) : s.head? ≠ some 9 := fun h9 =>
  absurd (h 9 h9) (by decide)

theorem skipBlank_blank : skipBlank (32 :: r) = r := if_pos rfl

theorem skipBlank_of_ne (h : r.head? ≠ some 32) : skipBlank r = r := if_neg h

theorem flatMap_if {c : α → Bool} :
    (xs.flatMap fun x => if c x then text x else []) = (xs.filter c).flatMap text := by
  induction xs with
  | nil => rfl
  | cons x xs ih =>
    rw [List.flatMap_cons, ih, List.filter_cons]
    split
    · rw [List.flatMap_cons]
    · rw [List.nil_append]

theorem foldl_storeNext {n : ℕ} {t : Fin n → α} {i : ℕ} :
    xs.foldl storeNext (i, t) = (i + xs.length, Slots.fill t i xs) := by
  induction xs generalizing i t with
  | nil => simp
  | cons x xs ih =>
    rw [List.foldl_cons]
    change xs.foldl storeNext (i + 1, Slots.putAt t i x) = _
    rw [ih, Slots.fill_putAt, List.length_cons, Nat.add_right_comm, Nat.add_assoc]

end Lists

/-! ### The memo points -/

section Memo

variable {p : CharRecord} {point : MapPoint} {r : List UInt8}

theorem memoPointsText_eq (memo : Fin maxPortalMemo → MapPoint) :
    memoPointsText memo = (usedPoints memo).flatMap fun point => pointText point [] := by
  unfold memoPointsText usedPoints
  rw [← flatMap_if]
  simp

theorem memoEntry_pointText (hne : point.map.bytes ≠ []) (h : (44 : UInt8) ∉ point.map.bytes)
    (hr : NoDigit r) : memoEntry (pointText point [] ++ r) = some (point, r) := by
  have hread : sscanf (.upto 44 :: .lit 44 :: Scanf.ints 2) (pointText point [] ++ r) =
      ([.text point.map.bytes, .int point.x.toInt32, .int point.y.toInt32], some r) := by
    have h := @sscanf_point [] r [point.x.toInt32, point.y.toInt32] _ hne h
      (by simp [toInt32_ne]) hr
    rwa [List.append_nil, sscanf_nil] at h
  unfold memoEntry
  rw [hread]
  simp [CStr.ofField_self]

/-- What stands behind a memo point does not change its last number. -/
theorem followsNumber_points {points : List MapPoint}
    (hused : ∀ point ∈ points, point.map.bytes ≠ [])
    (h : ∀ point ∈ points, FollowsNumber point.map.bytes) :
    FollowsNumber ((points.flatMap fun point => pointText point []) ++ 9 :: r) := by
  cases points with
  | nil => exact ⟨noDigit_cons.mpr rfl, by simp⟩
  | cons point points =>
    obtain ⟨b, s, hbytes⟩ := List.exists_cons_of_ne_nil (hused point List.mem_cons_self)
    have hfollows := h point List.mem_cons_self
    rw [hbytes] at hfollows
    rw [List.flatMap_cons, pointText, hbytes]
    exact ⟨noDigit_cons.mpr (noDigit_cons.mp hfollows.1), hfollows.2⟩

/-- **The memo points read back.** -/
theorem readEntries_memo (hp : p.Held) {fuel : ℕ}
    (hfuel : (usedPoints p.memoPoint).length < fuel) :
    readEntries (-3) (fun s _ => maxPortalMemo ≤ s.1) memoEntry storeNext fuel
        (memoPointsText p.memoPoint ++ 9 :: r) (0, fun _ : Fin maxPortalMemo => {}) =
      .ok ((usedPoints p.memoPoint).foldl storeNext (0, fun _ => {}), 9 :: r) := by
  have hlen : (usedPoints p.memoPoint).length ≤ maxPortalMemo := length_saved_le _ _
  have hused : ∀ point ∈ usedPoints p.memoPoint, point.map.bytes ≠ [] := fun point hpoint => by
    simpa using (List.mem_filter.mp hpoint).2
  rw [memoPointsText_eq, readEntries_flatMap hfuel fun ys point zs heq => ?_,
    List.map_id]
  have hmem : point ∈ usedPoints p.memoPoint := heq ▸ by simp
  have hzs : ∀ point ∈ zs, point ∈ (usedPoints p.memoPoint).tail := fun q hq => by
    rw [← heq]
    cases ys with
    | nil => exact hq
    | cons y ys => simp [hq]
  obtain ⟨hcomma, htab⟩ := hp.memoPoint point hmem
  obtain ⟨hdigit, hblank⟩ := followsNumber_points (r := r)
    (fun q hq => hused q (List.mem_of_mem_tail (hzs q hq))) fun q hq => hp.memoNext q (hzs q hq)
  refine ⟨?_, ?_, _, memoEntry_pointText (hused point hmem) hcomma hdigit, skipBlank_of_ne hblank⟩
  · obtain ⟨b, s, hbytes⟩ := List.exists_cons_of_ne_nil (hused point hmem)
    rw [hbytes] at htab
    rw [pointText, hbytes]
    exact htab
  · have hys := congrArg List.length heq
    rw [List.length_append, List.length_cons] at hys
    rw [List.map_id, foldl_storeNext]
    simp only [decide_eq_false_iff_not]
    omega

end Memo

/-! ### The items -/

section Items

variable {n : ℕ} {items : Fin n → Item} {it : Item} {r : List UInt8}

theorem itemsText_eq : itemsText items = (usedItems items).flatMap itemText := by
  unfold itemsText usedItems
  rw [← flatMap_if]
  simp

theorem itemEntry_itemText (hid : IsInt it.id) (hne : it.id ≠ -2 ^ 31) :
    itemEntry (itemText it ++ r) = some (it.refined, 32 :: r) := by
  unfold itemEntry
  rw [sscanf_itemText hid hne]
  dsimp only
  rw [itemOfInts_refined hid]
  rfl

/-- **Items read back**, with what they are refined to. -/
theorem readEntries_items {code : Int} {fuel : ℕ} (hfuel : (usedItems items).length < fuel)
    (h : ∀ it ∈ usedItems items, IsInt it.id ∧ it.id ≠ -2 ^ 31) :
    readEntries code (fun _ _ => false) itemEntry storeNext fuel (itemsText items ++ 9 :: r)
        (0, fun _ : Fin n => Item.zero) =
      .ok (((usedItems items).map Item.refined).foldl storeNext (0, fun _ => Item.zero),
        9 :: r) := by
  rw [itemsText_eq, readEntries_flatMap hfuel fun ys it zs heq => ?_]
  obtain ⟨hid, hne⟩ := h it (heq ▸ by simp)
  obtain ⟨b, s, hbytes, hb⟩ := itemText_head it
  refine ⟨?_, rfl, _, itemEntry_itemText hid hne, skipBlank_blank⟩
  rw [hbytes]
  exact head_ne_tab (noSpace_cons.mpr hb)

end Items

/-! ### The skills -/

section Skills

variable {i : Fin maxSkill} {s : SkillSlot} {p : CharRecord} {r : List UInt8}

/-- The skills that are saved. -/
def savedSkills (skill : Fin maxSkill → SkillSlot) : List (Fin maxSkill) :=
  (List.finRange maxSkill).filter fun i => savedSkill i (skill i)

/-- The two numbers of a skill. -/
def skillPair (skill : Fin maxSkill → SkillSlot) (i : Fin maxSkill) : Int32 × Int32 :=
  (Int32.ofNat (fixedId i (skill i)).toNat, savedLevel (skill i))

theorem skillsText_eq (skill : Fin maxSkill → SkillSlot) :
    skillsText skill = (savedSkills skill).flatMap fun i =>
      numbersText [(skillPair skill i).1, (skillPair skill i).2] ++ [32] :=
  flatMap_if

theorem toInt_byteInt (b : UInt8) : (byteInt b).toInt = b.toNat := by
  have hb := b.toNat_lt
  unfold byteInt
  exact Int32.toInt_ofNat_of_lt (by omega)

theorem savedLevel_eq (h : s.flag ≠ 1) : savedLevel s = byteInt (baseLevel s) := by
  unfold savedLevel baseLevel
  split
  · rfl
  · rename_i h0
    have hlt := s.flag.toNat_lt
    have hne0 : s.flag.toNat ≠ 0 := fun h' => h0 (UInt8.toNat.inj h')
    have hne1 : s.flag.toNat ≠ 1 := fun h' => h (UInt8.toNat.inj h')
    have h2 : (2 : Int32).toInt = 2 := rfl
    have hsub : (s.flag - 2).toNat = s.flag.toNat - 2 :=
      UInt8.toNat_sub_of_le _ _ (UInt8.le_iff_toNat_le.mpr (by
        have : (2 : UInt8).toNat = 2 := rfl
        omega))
    refine Int32.toInt.inj ?_
    rw [Int32.toInt_sub, toInt_byteInt, toInt_byteInt, hsub, h2,
      Int.bmod_eq_of_le (by omega) (by omega)]
    omega

theorem toInt_skillId (i : UInt16) : (Int32.ofNat i.toNat).toInt = i.toNat := by
  have hi := i.toNat_lt
  exact Int32.toInt_ofNat_of_lt (by omega)

/-- A skill that is saved has the id of its place, and its own level. -/
theorem skillPair_saved (hp : p.Held) (h : savedSkill i (p.skill i)) :
    (skillPair p.skill i).1.toInt = i.val ∧ 0 < i.val ∧
      (skillPair p.skill i).2 = byteInt (baseLevel (p.skill i)) := by
  simp only [savedSkill, Bool.and_eq_true, decide_eq_true_eq] at h
  obtain ⟨⟨hid, hflag⟩, -⟩ := h
  have hfixed : fixedId i (p.skill i) = UInt16.ofNat i.val := by
    unfold fixedId at hid ⊢
    split
    · rfl
    · rename_i hold
      rw [if_neg hold] at hid
      exact hp.skill i hid
  have hlt : i.val < 1100 := i.isLt
  have hnat : (UInt16.ofNat i.val).toNat = i.val := UInt16.toNat_ofNat_of_lt' (by
    have : UInt16.size = 65536 := rfl
    omega)
  refine ⟨?_, Nat.pos_of_ne_zero fun h0 => hid ?_, savedLevel_eq hflag⟩
  · unfold skillPair
    rw [toInt_skillId, hfixed, hnat]
  · rw [hfixed, h0]
    rfl

theorem skillEntry_text {v : Int32 × Int32} (h1 : v.1 ≠ Int32.minValue)
    (h2 : v.2 ≠ Int32.minValue) :
    skillEntry (numbersText [v.1, v.2] ++ [32] ++ r) = some (v, 32 :: r) := by
  have hread := @sscanf_numbers [] (32 :: r) [v.1, v.2] 2 rfl (by simp [h1, h2])
    (noDigit_cons.mpr rfl)
  rw [List.append_nil, sscanf_nil] at hread
  unfold skillEntry
  rw [List.append_assoc, List.singleton_append, hread]
  rfl

/-- **The skills read back** as they are stored one by one. -/
theorem readEntries_skills (hp : p.Held) {fuel : ℕ}
    (hfuel : (savedSkills p.skill).length < fuel) :
    readEntries (-6) (fun _ _ => false) skillEntry storeSkill fuel
        (skillsText p.skill ++ 9 :: r) (fun _ => {}) =
      .ok (((savedSkills p.skill).map (skillPair p.skill)).foldl storeSkill fun _ => {},
        9 :: r) := by
  rw [skillsText_eq, readEntries_flatMap hfuel fun ys i zs heq => ?_]
  have hi : i ∈ savedSkills p.skill := heq ▸ by simp
  obtain ⟨hid, -, hlv⟩ := skillPair_saved hp (List.mem_filter.mp hi).2
  have hne : (skillPair p.skill i).1 ≠ Int32.minValue := fun h => by
    rw [h] at hid
    have hmin : Int32.minValue.toInt = -2147483648 := rfl
    omega
  refine ⟨?_, rfl, _, skillEntry_text hne (hlv ▸ byteInt_ne _), skipBlank_blank⟩
  rw [List.append_assoc]
  exact head_ne_tab noSpace_numbersText

/-- What storing some skills makes of a table. -/
theorem foldl_storeSkill {is : List (Fin maxSkill)} {v : Fin maxSkill → Int32 × Int32}
    {t : Fin maxSkill → SkillSlot} (h : ∀ i ∈ is, (v i).1.toInt = i.val ∧ 0 < (v i).1) :
    (is.map v).foldl storeSkill t = fun i =>
      if i ∈ is ∧ 0 < (v i).2 then
        { id := (v i).1.toUInt32.toUInt16, lv := (v i).2.toUInt32.toUInt8 }
      else t i := by
  induction is generalizing t with
  | nil => simp
  | cons a is ih =>
    obtain ⟨hval, hpos⟩ := h a List.mem_cons_self
    rw [List.map_cons, List.foldl_cons, ih fun i hi => h i (List.mem_cons_of_mem _ hi)]
    funext i
    have hstore : storeSkill t (v a) i =
        if a = i ∧ 0 < (v i).2 then
          { id := (v i).1.toUInt32.toUInt16, lv := (v i).2.toUInt32.toUInt8 } else t i := by
      unfold storeSkill
      by_cases hai : a = i
      · subst hai
        simp [hval, hpos]
      · have hne : (v a).1.toInt ≠ i.val := fun h' => hai (Fin.ext (by omega))
        rw [if_neg fun h' => hne h'.2.1, if_neg fun h' => hai h'.1]
    rw [hstore]
    by_cases hi : i ∈ is
    · by_cases hlv : 0 < (v i).2 <;> simp [hi, hlv]
    · by_cases hai : a = i
      · subst hai
        simp [hi]
      · simp [hi, hai, Ne.symm hai]

/-- **The skills are restored.** -/
theorem foldl_savedSkills (hp : p.Held) :
    ((savedSkills p.skill).map (skillPair p.skill)).foldl storeSkill (fun _ => {}) =
      fun i => restoredSkill i (p.skill i) := by
  rw [foldl_storeSkill]
  · funext i
    have hmem : i ∈ savedSkills p.skill ↔ savedSkill i (p.skill i) := by simp [savedSkills]
    unfold restoredSkill
    by_cases hsaved : savedSkill i (p.skill i)
    · obtain ⟨hid, -, hlv⟩ := skillPair_saved hp hsaved
      have hpos : 0 < (skillPair p.skill i).2 ↔ baseLevel (p.skill i) ≠ 0 := by
        rw [hlv, Int32.lt_iff_toInt_lt, toInt_byteInt]
        refine Int.natCast_pos.trans (Nat.pos_iff_ne_zero.trans (not_congr ?_))
        exact UInt8.toNat_inj (b := 0)
      have hskill : (skillPair p.skill i).1 = Int32.ofInt i.val := by
        rw [← hid, Int32.ofInt_toInt]
      simp only [hmem, hsaved, hpos, true_and]
      rw [hskill, hlv]
      simp [byteInt, toUInt32_ofInt]
    · rw [if_neg fun h => hsaved (hmem.mp h.1), if_neg fun h => hsaved h.1]
  · intro i hi
    obtain ⟨hid, hpos, -⟩ := skillPair_saved hp (List.mem_filter.mp hi).2
    refine ⟨hid, Int32.lt_iff_toInt_lt.mpr ?_⟩
    rw [hid]
    exact Int.natCast_pos.mpr hpos

end Skills

/-! ### The variables -/

section Regs

variable {p : CharRecord} {reg : GlobalReg} {r : List UInt8}

/-- What is read of a variable. -/
def regPair (reg : GlobalReg) : List UInt8 × Int32 := (reg.str.bytes, Int32.ofBitVec reg.value)

theorem regEntry_regText (hcomma : (44 : UInt8) ∉ reg.str.bytes)
    (hvalue : reg.value ≠ BitVec.intMin 32) :
    regEntry (regText reg ++ r) = some (regPair reg, 32 :: r) := by
  have hne : Int32.ofBitVec reg.value ≠ Int32.minValue := fun h =>
    hvalue (congrArg Int32.toBitVec h)
  have hint := @sscanf_numbers [] (32 :: r) [Int32.ofBitVec reg.value] 1 rfl (by simpa using hne)
    (noDigit_cons.mpr rfl)
  rw [List.append_nil, sscanf_nil] at hint
  change sscanf [.int] (int2string _ ++ 32 :: r) = _ at hint
  have htext : regText reg ++ r =
      reg.str.bytes ++ 44 :: (int2string (Int32.ofBitVec reg.value) ++ 32 :: r) := by
    simp [regText]
  unfold regEntry
  rw [htext]
  by_cases hname : reg.str.bytes = []
  · rw [hname, List.nil_append]
    have hnone : sscanf [.upto 44, .lit 44, .int]
        (44 :: (int2string (Int32.ofBitVec reg.value) ++ 32 :: r)) = ([], none) := rfl
    rw [hnone]
    dsimp only
    rw [if_pos List.head?_cons, sscanf_lit, hint]
    unfold regPair
    rw [hname]
    rfl
  · rw [sscanf_upto hname hcomma, sscanf_lit, hint]
    rfl

/-- What storing some variables makes of those that are there. -/
theorem foldl_storeReg {regs acc : List GlobalReg} (hacc : acc.filter GlobalReg.set = acc)
    (h : ((acc ++ regs).map GlobalReg.str).Nodup) :
    (regs.map regPair).foldl storeReg acc = acc ++ regs.filter GlobalReg.set := by
  induction regs generalizing acc with
  | nil => simp
  | cons reg regs ih =>
    have hnew : ∀ r ∈ acc, r.str.bytes ≠ reg.str.bytes := by
      intro r hr heq
      rw [List.map_append, List.map_cons] at h
      exact (List.nodup_append.mp h).2.2 _ (List.mem_map_of_mem hr) _ List.mem_cons_self
        (CStr.ext heq)
    have hstore : storeReg acc (regPair reg) = if reg.set then acc ++ [reg] else acc := by
      have hvalue : Int32.ofBitVec reg.value ≠ 0 ↔ reg.value ≠ 0 :=
        not_congr ⟨fun h => congrArg Int32.toBitVec h, fun h => congrArg Int32.ofBitVec h⟩
      unfold storeReg regPair GlobalReg.set
      simp only [hvalue, and_iff_left hnew, CStr.ofField_self, Bool.and_eq_true,
        decide_eq_true_eq]
      rfl
    rw [List.map_cons, List.foldl_cons, hstore, List.filter_cons]
    split
    · rename_i hset
      have hfilter : (acc ++ [reg]).filter GlobalReg.set = acc ++ [reg] := by
        simp [List.filter_append, hacc, hset]
      rw [ih hfilter (by simpa using h), List.append_assoc, List.singleton_append]
    · refine ih hacc (h.sublist ?_)
      simp

/-- **The variables read back.** -/
theorem readEntries_regs (hp : p.Held) {fuel : ℕ} (hfuel : p.globalReg.length < fuel) :
    readEntries (-7)
        (fun s str => str.head? = some 10 ∨ str.head? = some 13 ∨ globalRegNum ≤ s.length) regEntry
        storeReg fuel (p.globalReg.flatMap regText ++ 9 :: r) [] =
      .ok (p.globalReg.filter GlobalReg.set, 9 :: r) := by
  have hlen := hp.regs
  rw [readEntries_flatMap hfuel fun ys reg zs heq => ?_,
    foldl_storeReg rfl (by simpa using hp.nodup), List.nil_append]
  obtain ⟨hcomma, hvalue, htab, hnl, hcr⟩ := hp.reg reg (heq ▸ by simp)
  have hhead : ∀ b : UInt8, b ≠ 44 → reg.str.bytes.head? ≠ some b →
      (regText reg ++ (zs.flatMap regText ++ 9 :: r)).head? ≠ some b := by
    intro b hb hne
    unfold regText
    cases hname : reg.str.bytes with
    | nil => simpa using Ne.symm hb
    | cons c cs => simpa [hname] using hne
  have hys : (((ys.map regPair).foldl storeReg []).length : ℕ) < globalRegNum := by
    have hnodup : ((ys ++ reg :: zs).map GlobalReg.str).Nodup := heq ▸ hp.nodup
    rw [List.map_append] at hnodup
    rw [foldl_storeReg rfl (by simpa using (List.nodup_append.mp hnodup).1), List.nil_append]
    have hle := List.length_filter_le GlobalReg.set ys
    have hlength := congrArg List.length heq
    rw [List.length_append, List.length_cons] at hlength
    omega
  refine ⟨hhead 9 (by decide) htab, ?_, _, regEntry_regText hcomma hvalue, skipBlank_blank⟩
  simp only [decide_eq_false_iff_not, not_or, not_le]
  exact ⟨hhead 10 (by decide) hnl, hhead 13 (by decide) hcr, hys⟩

end Regs

/-! ## The whole line -/

section Line

variable {maxHairStyle maxHairColor : Int32} {p : CharRecord} {r : List UInt8}

namespace CharRecord

/-- The fields of a line before the lists. -/
def fields (p : CharRecord) : List Field :=
  [.numbers [p.charId],
    .numbers [p.accountId, Int32.ofNat p.charNum.val],
    .text p.name.bytes,
    .numbers [p.cls.toInt32, byteInt p.baseLevel, byteInt p.jobLevel],
    .numbers [p.baseExp, p.jobExp, p.zeny],
    .numbers [p.hp, p.maxHp, p.sp, p.maxSp],
    .numbers [p.str.toInt32, p.agi.toInt32, p.vit.toInt32, p.int.toInt32, p.dex.toInt32,
      p.luk.toInt32],
    .numbers [p.statusPoint.toInt32, p.skillPoint.toInt32],
    .numbers [p.option.toInt32, p.karma.toInt32, p.manner.toInt32],
    .numbers [p.partyId, p.guildId, p.petId],
    .numbers [p.hair.toInt32, p.hairColor.toInt32, p.clothesColor.toInt32],
    .numbers [p.weapon.toInt32, p.shield.toInt32, p.headTop.toInt32, p.headMid.toInt32,
      p.headBottom.toInt32],
    .point p.savedPoint.map.bytes [p.savedPoint.x.toInt32, p.savedPoint.y.toInt32],
    .point p.savePoint.map.bytes
      [p.savePoint.x.toInt32, p.savePoint.y.toInt32, p.partnerId]]

theorem headText_eq (p : CharRecord) : p.headText = Field.row p.fields := rfl

theorem Held.savedPoint (hp : p.Held) : MapNamed p.savedPoint := by
  unfold CharRecord.savedPoint
  split
  · decide
  · rename_i hne
    exact hp.lastPoint.resolve_left hne

/-- Every field of a held character reads back. -/
theorem Held.fields (hp : p.Held) : ∀ f ∈ p.fields, f.Readable := by
  have hwide := hp.wide
  have hnum : Int32.ofNat p.charNum.val ≠ Int32.minValue := by
    intro h
    have hlt := p.charNum.isLt
    have hval := congrArg Int32.toInt h
    rw [Int32.toInt_ofNat_of_lt (by omega)] at hval
    have hmin : Int32.minValue.toInt = -2147483648 := rfl
    omega
  simp only [CharRecord.wide, List.forall_mem_cons, List.not_mem_nil, false_imp_iff, implies_true,
    and_true] at hwide
  obtain ⟨hchar, hacc, hbase, hjob, hzeny, hhp, hmaxHp, hsp, hmaxSp, hparty, hguild, hpet,
    hpartner⟩ := hwide
  simp [CharRecord.fields, Field.Readable, toInt32_ne, byteInt_ne, hnum, hchar, hacc, hbase, hjob,
    hzeny, hhp, hmaxHp, hsp, hmaxSp, hparty, hguild, hpet, hpartner, hp.name, hp.savedPoint.1,
    hp.savedPoint.2, hp.savePoint.1, hp.savePoint.2]

/-- The values of the fields, numbers and texts. -/
theorem numbersOf_fields (p : CharRecord) : numbersOf (p.fields.flatMap Field.values) =
    [p.charId, p.accountId, Int32.ofNat p.charNum.val, p.cls.toInt32, byteInt p.baseLevel,
      byteInt p.jobLevel, p.baseExp, p.jobExp, p.zeny, p.hp, p.maxHp, p.sp, p.maxSp, p.str.toInt32,
      p.agi.toInt32, p.vit.toInt32, p.int.toInt32, p.dex.toInt32, p.luk.toInt32,
      p.statusPoint.toInt32, p.skillPoint.toInt32, p.option.toInt32, p.karma.toInt32,
      p.manner.toInt32, p.partyId, p.guildId, p.petId, p.hair.toInt32, p.hairColor.toInt32,
      p.clothesColor.toInt32, p.weapon.toInt32, p.shield.toInt32, p.headTop.toInt32,
      p.headMid.toInt32, p.headBottom.toInt32, p.savedPoint.x.toInt32, p.savedPoint.y.toInt32,
      p.savePoint.x.toInt32, p.savePoint.y.toInt32, p.partnerId] := rfl

theorem textsOf_fields (p : CharRecord) : textsOf (p.fields.flatMap Field.values) =
    [p.name.bytes, p.savedPoint.map.bytes, p.savePoint.map.bytes] := rfl

/-- **The fields are read**, by the newest layout. -/
theorem charValues_line (hp : p.Held) : charValues (p.headText ++ 9 :: r) =
    some (numbersOf (p.fields.flatMap Field.values), textsOf (p.fields.flatMap Field.values),
      9 :: r) := by
  have hformat : charFormat 3 3 = Field.rowFormat p.fields := rfl
  unfold charValues
  rw [hformat, headText_eq, Field.sscanf_row hp.fields]

/-- The character without the lists. -/
def restoredHead (maxHairStyle maxHairColor : Int32) (p : CharRecord) : CharRecord :=
  { p with
    hair := atMost maxHairStyle p.hair
    hairColor := atMost maxHairColor p.hairColor
    lastPoint := p.savedPoint
    memoPoint := fun _ => {}
    inventory := fun _ => Item.zero
    cart := fun _ => Item.zero
    skill := fun _ => {}
    globalReg := [] }

theorem charOfValues_fields (p : CharRecord) :
    charOfValues maxHairStyle maxHairColor
        (fun i => (numbersOf (p.fields.flatMap Field.values)).getD i 0)
        (fun i => (textsOf (p.fields.flatMap Field.values)).getD i []) =
      p.restoredHead maxHairStyle maxHairColor := by
  have hbyte (b : UInt8) : (byteInt b).toUInt32.toUInt8 = b := by simp [byteInt]
  have hnum : Fin.ofNat 32 (p.charNum.val % 4294967296) = p.charNum := by
    have hlt := p.charNum.isLt
    rw [Nat.mod_eq_of_lt (by omega)]
    exact Fin.ofNat_val_eq_self p.charNum
  rw [numbersOf_fields, textsOf_fields]
  simp [charOfValues, restoredHead, hbyte, hnum, CStr.ofField_self, -Fin.ofNat_eq_cast]

end CharRecord

/-- **The lists are read.** -/
theorem readLists_line (hp : p.Held) :
    readLists (p.restoredHead maxHairStyle maxHairColor)
        (memoPointsText p.memoPoint ++ 9 :: (itemsText p.inventory ++ 9 :: (itemsText p.cart ++ 9 ::
          (skillsText p.skill ++ 9 :: (p.globalReg.flatMap regText ++ [9]))))) =
      .ok (p.restored maxHairStyle maxHairColor) := by
  have hmemo := @length_le_flatMap _ (fun point : MapPoint => pointText point []) []
    (usedPoints p.memoPoint) fun point _ => by simp [pointText]
  have hitems (n : ℕ) (items : Fin n → Item) := @length_le_flatMap _ itemText [] (usedItems items)
    fun it _ => by simp [itemText]
  have hskills := @length_le_flatMap _ (fun i => numbersText
    [(skillPair p.skill i).1, (skillPair p.skill i).2] ++ [32]) [] (savedSkills p.skill)
    fun i _ => by simp
  have hregs := @length_le_flatMap _ regText [] p.globalReg fun reg _ => by simp [regText]
  rw [← memoPointsText_eq, List.append_nil] at hmemo
  rw [← skillsText_eq, List.append_nil] at hskills
  simp only [← itemsText_eq, List.append_nil] at hitems
  rw [List.append_nil] at hregs
  have hinventory := hitems _ p.inventory
  have hcart := hitems _ p.cart
  unfold readLists
  simp only [List.length_append, List.length_cons, List.length_nil]
  rw [readEntries_memo hp (by omega)]
  simp only [bind, Except.bind, List.tail_cons]
  rw [readEntries_items (by omega) hp.inventory]
  simp only [List.tail_cons]
  rw [readEntries_items (by omega) hp.cart]
  simp only [List.tail_cons]
  rw [readEntries_skills hp (by omega)]
  simp only [List.tail_cons]
  rw [readEntries_regs hp (by omega)]
  simp only [foldl_storeNext, foldl_savedSkills hp]
  rfl

/-- **What is read of the line of a character**, if it is a new one. -/
theorem mmoCharFromstr_tostr {charDat : List CharRecord} (hp : p.Held)
    (hnew : ∀ q ∈ charDat, q.charId ≠ p.charId ∧ q.name ≠ p.name) :
    mmoCharFromstr maxHairStyle maxHairColor charDat (mmoCharTostr p) =
      .ok (p.restored maxHairStyle maxHairColor) := by
  have hdup : duplicate charDat (p.restoredHead maxHairStyle maxHairColor) = none := by
    unfold duplicate
    rw [List.findSome?_eq_none_iff]
    intro q hq
    exact (if_neg (hnew q hq).1).trans (if_neg (hnew q hq).2)
  unfold mmoCharFromstr mmoCharTostr
  rw [CharRecord.charValues_line hp]
  dsimp only
  rw [CharRecord.charOfValues_fields, hdup]
  dsimp only
  rw [if_neg (by simp), List.tail_cons]
  exact readLists_line hp

end Line

/-! ## What is kept -/

section Kept

variable {maxHairStyle maxHairColor : Int32} {p : CharRecord}

theorem refined_of_le {it : Item} (h : it.refine.val ≤ 10) : it.refined = it := by
  have hr : Fin.ofNat 16 (min it.refine.val 10) = it.refine := by
    rw [min_eq_left h]
    exact Fin.ofNat_val_eq_self it.refine
  unfold Item.refined
  rw [hr]

/-- Items at the front come back where they were. -/
theorem fill_usedItems {n : ℕ} {items : Fin n → Item}
    (hpacked : Slots.Packed (fun it : Item => it.nameid ≠ 0) items)
    (hunused : ∀ i, (items i).nameid = 0 → items i = Item.zero)
    (hrefine : ∀ it ∈ usedItems items, it.refine.val ≤ 10) :
    Slots.fill (fun _ => Item.zero) 0 ((usedItems items).map Item.refined) = items := by
  have hmap : (usedItems items).map Item.refined = usedItems items :=
    (List.map_congr_left fun it hit => refined_of_le (hrefine it hit)).trans (List.map_id _)
  funext i
  rw [hmap, usedItems, Slots.fill_filter hpacked]
  by_cases h : (items i).nameid = 0
  · simp [hunused i h]
  · simp [h]

theorem atMost_of_not_lt {limit : Int32} {v : Int16} (h : ¬ limit < v.toInt32) :
    atMost limit v = v := if_neg h

/-- **Such a character comes back as it was.** -/
theorem restored_of_kept (hp : p.Held) (h : p.Kept maxHairStyle maxHairColor) :
    p.restored maxHairStyle maxHairColor = p := by
  have hmemo : Slots.fill (fun _ => {}) 0 (usedPoints p.memoPoint) = p.memoPoint := by
    funext i
    rw [usedPoints, Slots.fill_filter h.memoPoint]
    by_cases hi : (p.memoPoint i).map.bytes = []
    · simp [h.memoUnused i hi]
    · simp [hi]
  have hskill : (fun i => restoredSkill i (p.skill i)) = p.skill := by
    funext i
    rcases h.skill i with hempty | ⟨hid, hlv, hflag⟩
    · simp [hempty, restoredSkill, savedSkill, fixedId]
    · have hown := hp.skill i hid
      have hsaved : savedSkill i (p.skill i) := by simp [savedSkill, fixedId, hid, hflag]
      unfold restoredSkill baseLevel
      rw [if_pos hflag, if_pos ⟨hsaved, hlv⟩, ← hown, ← hflag]
  have hreg : p.globalReg.filter GlobalReg.set = p.globalReg := List.filter_eq_self.mpr h.reg
  have hlast : p.savedPoint = p.lastPoint := if_neg h.lastPoint
  unfold CharRecord.restored
  rw [hmemo, hskill, hreg, hlast, atMost_of_not_lt h.hair, atMost_of_not_lt h.hairColor,
    fill_usedItems h.inventory h.inventoryUnused
      fun it hit => h.refine it (List.mem_append_left _ hit),
    fill_usedItems h.cart h.cartUnused fun it hit => h.refine it (List.mem_append_right _ hit)]

end Kept

/-- **A character is restored.** Its line is accepted and read as what the servers save of it, and a
character of which nothing is left out or cut down comes back as it was. -/
theorem mmoChar_restored (maxHairStyle maxHairColor : Int32) (charDat : List CharRecord)
    (p : CharRecord) (hp : p.Held)
    (hnew : ∀ q ∈ charDat, q.charId ≠ p.charId ∧ q.name ≠ p.name) :
    mmoCharFromstr maxHairStyle maxHairColor charDat (mmoCharTostr p) =
        .ok (p.restored maxHairStyle maxHairColor) ∧
      (p.Kept maxHairStyle maxHairColor → p.restored maxHairStyle maxHairColor = p) :=
  ⟨mmoCharFromstr_tostr hp hnew, restored_of_kept hp⟩

/-- Alice, with two memo points, two items, a skill and two variables. -/
def alice : CharRecord where
  charId := 150000
  accountId := 2000000
  charNum := 3
  name := cstr 24 "Alice of Prontera"
  cls := 4008
  baseLevel := 99
  jobLevel := 70
  zeny := 1000000000
  karma := -5
  hair := 11
  lastPoint := { map := cstr 16 "geffen.gat", x := 120, y := 39 }
  savePoint := { map := cstr 16 "prontera.gat", x := 156, y := 191 }
  memoPoint i := if i.val = 0 then { map := cstr 16 "aldebaran.gat", x := 1, y := 2 }
    else if i.val = 1 then { map := cstr 16 "payon.gat", x := 3, y := 4 } else {}
  inventory i := if i.val = 0 then { id := 1, nameid := 1201, amount := 1, refine := 10 }
    else if i.val = 1 then { id := 0, nameid := 501, amount := 30 } else Item.zero
  skill i := if i.val = 1 then { id := 1, lv := 9 } else {}
  globalReg := [{ str := cstr 32 "nov_1_2_cos_c", value := 1 },
    { str := cstr 32 "job quest", value := -7 }]

/-- The test of the numbers, as it can be run. -/
theorem wide_of_all {p : CharRecord} (h : p.wide.all (· ≠ Int32.minValue) = true) :
    ∀ v ∈ p.wide, v ≠ Int32.minValue :=
  fun v hv => of_decide_eq_true (List.all_eq_true.mp h v hv)

theorem alice_skill (i : Fin maxSkill) :
    alice.skill i = {} ∨ i.val = 1 ∧ alice.skill i = { id := 1, lv := 9 } := by
  by_cases h : i.val = 1
  · exact .inr ⟨h, if_pos h⟩
  · exact .inl (if_neg h)

theorem alice_inventory (i : Fin maxInventory) :
    i.val < 2 ∧ (alice.inventory i).nameid ≠ 0 ∨ ¬ i.val < 2 ∧ alice.inventory i = Item.zero := by
  by_cases h0 : i.val = 0
  · refine .inl ⟨by omega, ?_⟩
    rw [show alice.inventory i = _ from if_pos h0]
    decide
  · by_cases h1 : i.val = 1
    · refine .inl ⟨by omega, ?_⟩
      rw [show alice.inventory i = _ from (if_neg h0).trans (if_pos h1)]
      decide
    · exact .inr ⟨by omega, (if_neg h0).trans (if_neg h1)⟩

theorem held_alice : alice.Held where
  wide := wide_of_all (by decide)
  name := by decide
  lastPoint := .inr (by decide)
  savePoint := by decide
  memoPoint := by decide
  memoNext := by decide +kernel
  inventory := by decide +kernel
  cart := by decide +kernel
  skill i hi := by
    rcases alice_skill i with hskill | ⟨hval, hskill⟩
    · rw [hskill] at hi
      exact absurd rfl hi
    · rw [hskill, hval]
      rfl
  regs := by decide
  reg := by decide
  nodup := by decide

theorem mmoChar_restored_alice : mmoCharFromstr 24 9 [] (mmoCharTostr alice) = .ok alice := by
  obtain ⟨hread, hkept⟩ := mmoChar_restored 24 9 [] alice held_alice (by simp)
  rw [hread, hkept]
  exact {
    hair := by decide
    hairColor := by decide
    lastPoint := by decide
    memoPoint := by decide
    memoUnused := by decide
    inventory := Slots.packed_of_lt fun i => by
      rcases alice_inventory i with ⟨hlt, hne⟩ | ⟨hlt, hzero⟩
      · exact iff_of_true (decide_eq_true hne) hlt
      · rw [hzero]
        exact iff_of_false (by decide) hlt
    inventoryUnused := fun i hi =>
      (alice_inventory i).elim (fun h => absurd hi h.2) fun h => h.2
    cart := fun _ _ _ hj => hj
    cartUnused := fun _ _ => rfl
    refine := by decide
    skill := fun i => by
      rcases alice_skill i with hskill | ⟨-, hskill⟩
      · exact .inl hskill
      · rw [hskill]
        exact .inr (by decide)
    reg := by decide }

/-- Bob, with a hair that there is not, in no place, with an item refined to 12, a skill of a card
and a variable without a value. -/
def bob : CharRecord where
  charId := 150001
  accountId := 2000001
  name := cstr 24 "Bob"
  hair := 30
  savePoint := { map := cstr 16 "prontera.gat", x := 156, y := 191 }
  inventory i := if i.val = 0 then { id := 1, nameid := 1201, amount := 1, refine := 12 }
    else Item.zero
  skill i := if i.val = 28 then { id := 28, lv := 1, flag := 1 } else {}
  globalReg := [{ str := cstr 32 "visits", value := 0 }]

/-- **Not everything comes back**: hair is cut down to the limit and what an item is refined to is
cut down to 10, a character in no place comes to Prontera, and a skill of a card and a variable
without a value are not there. -/
theorem mmoChar_not_restored : ∃ q, mmoCharFromstr 24 9 [] (mmoCharTostr bob) = .ok q ∧
    q.hair ≠ bob.hair ∧ q.lastPoint ≠ bob.lastPoint ∧
      q.inventory ⟨0, by decide⟩ ≠ bob.inventory ⟨0, by decide⟩ ∧
      q.skill ⟨28, by decide⟩ ≠ bob.skill ⟨28, by decide⟩ ∧ q.globalReg ≠ bob.globalReg := by
  have hheld : bob.Held := {
    wide := wide_of_all (by decide)
    name := by decide
    lastPoint := by decide
    savePoint := by decide
    memoPoint := by decide
    memoNext := by decide
    inventory := by decide
    cart := by decide
    skill := fun i hi => by
      have hskill : bob.skill i = if i.val = 28 then { id := 28, lv := 1, flag := 1 } else {} := rfl
      rw [hskill] at hi ⊢
      by_cases hval : i.val = 28
      · rw [if_pos hval, hval]
        rfl
      · rw [if_neg hval] at hi
        exact absurd rfl hi
    regs := by decide
    reg := by decide
    nodup := by decide }
  exact ⟨_, mmoCharFromstr_tostr hheld (by simp), by decide, by decide,
    by decide, by decide, by decide⟩

end Nezumi
