import Nezumi.Lib.Bytes
import Nezumi.Lib.Scanf
import Nezumi.Map.Item

/-!
# Numbers and items in the files of the servers (`common/utils.c`, `char/`)

* `int2string` is the function of the same name: the digits are written from the last one on and
  turned round afterwards.
* `int2string_ofInt`: it writes every number but the least one as `printf` does.
  `int2string_minValue` says what it writes for that one.
* `lint2string` is the same for a `long`.
* `itemText` and `itemFormat` are the fields of an item as three files write and read them.
  `sscanf_itemText` says when they read back.
-/

namespace Nezumi

open Decimal Scanf

/-- A text without control characters. -/
def Printable (s : List UInt8) : Prop := ∀ b ∈ s, 32 ≤ b ∧ b ≠ 127

instance (s : List UInt8) : Decidable (Printable s) :=
  List.decidableBAll (fun b => 32 ≤ b ∧ b ≠ 127) s

theorem tab_notMem {s : List UInt8} (h : Printable s) : (9 : UInt8) ∉ s := fun hmem =>
  absurd (h 9 hmem).1 (by decide)

/-- A text that has been read stays readable when it is stored. -/
theorem readable_ofField {s : List UInt8} (h : Readable s) (hzero : (0 : UInt8) ∉ s) :
    Readable (CStr.ofField 24 s).bytes := by
  obtain ⟨b, s, rfl⟩ := List.exists_cons_of_ne_nil h.1
  have hb : b ≠ 0 := fun h0 => hzero (h0 ▸ List.mem_cons_self)
  rw [CStr.bytes_ofField, List.take_succ_cons, List.takeWhile_cons_of_pos (by simpa using hb)]
  exact ⟨List.cons_ne_nil _ _, noSpace_cons.mpr (noSpace_cons.mp h.2)⟩

/-! ## `int2string` -/

/-- The digits that the loop of `int2string` writes, the last one first. -/
def int2stringLoop : ℕ → Int32 → List UInt8
  | 0, _ => []
  | f + 1, val =>
    (val % 10 + 48).toUInt32.toUInt8 :: if val / 10 = 0 then [] else int2stringLoop f (val / 10)

/-- `int2string`. Ten digits are enough for an `int`. -/
def int2string (val : Int32) : List UInt8 :=
  if val = 0 then [48]
  else if val < 0 then (int2stringLoop 10 (-val) ++ [45]).reverse
  else (int2stringLoop 10 val).reverse

theorem toUInt32_ofInt (n : ℕ) : (Int32.ofInt n).toUInt32 = UInt32.ofNat n := rfl

section Digits

variable {val : Int32} {n : ℕ}

/-- The last digit of a number. -/
theorem lastDigit_eq (hval : val.toInt = n) :
    (val % 10 + 48).toUInt32.toUInt8 = digit (n % 10) := by
  have h10 : (10 : Int32).toInt = 10 := rfl
  have hsum : val % 10 + 48 = Int32.ofInt ((48 + n % 10 : ℕ) : ℤ) := by
    rw [← Int32.ofInt_toInt (val % 10), Int32.toInt_mod, hval,
      Int.tmod_eq_emod_of_nonneg (by omega), h10, show (48 : Int32) = Int32.ofInt 48 from rfl,
      ← Int32.ofInt_add]
    congr 1
    omega
  rw [hsum, toUInt32_ofInt]
  simp [digit]

/-- The number without its last digit. -/
theorem toInt_div_ten (hval : val.toInt = n) : (val / 10).toInt = (n / 10 : ℕ) := by
  have h10 : (10 : Int32).toInt = 10 := rfl
  have hint := val.toInt_lt
  rw [Int32.toInt_div, hval, h10, Int.tdiv_eq_ediv_of_nonneg (by omega),
    Int.bmod_eq_of_le (by omega) (by omega)]
  rfl

theorem int2stringLoop_eq {f : ℕ} (hval : val.toInt = n) (hlt : n < 10 ^ f) (hf : 0 < f) :
    int2stringLoop f val = (ofNat n).reverse := by
  induction f generalizing n val with
  | zero => omega
  | succ f ih =>
    have hdiv := toInt_div_ten hval
    rw [int2stringLoop, lastDigit_eq hval]
    rcases Nat.lt_or_ge n 10 with hn | hn
    · have hzero : val / 10 = 0 := Int32.toInt.inj (by rw [hdiv, Nat.div_eq_of_lt hn]; rfl)
      rw [if_pos hzero, ofNat_of_lt hn, Nat.mod_eq_of_lt hn]
      rfl
    · have hne : val / 10 ≠ 0 := fun h => by
        rw [h, show (0 : Int32).toInt = 0 from rfl] at hdiv
        omega
      have hf' : 0 < f := by
        rcases Nat.eq_zero_or_pos f with rfl | hf'
        · omega
        · exact hf'
      rw [if_neg hne, ih hdiv (by rw [pow_succ] at hlt; omega) hf', ofNat_of_ge hn,
        List.reverse_append]
      rfl

end Digits

/-- **`int2string` writes what `printf` does**, for every number but the least one. -/
theorem int2string_of_ne {val : Int32} (hne : val ≠ Int32.minValue) :
    int2string val = ofInt val.toInt := by
  obtain ⟨hlo, hhi⟩ := isInt_toInt val
  unfold int2string
  split
  · rename_i hzero
    rw [hzero]
    rfl
  · rename_i hzero
    split
    · rename_i hneg
      have hlt : val.toInt < 0 := Int32.lt_iff_toInt_lt.mp hneg
      have hmin : val.toInt ≠ -2 ^ 31 := fun h => hne (Int32.toInt.inj h)
      have hval : (-val).toInt = val.toInt.natAbs := by
        rw [Int32.toInt_neg, Int.bmod_eq_of_le (by omega) (by omega)]
        omega
      rw [int2stringLoop_eq hval (by omega) (by omega), List.reverse_append, List.reverse_reverse]
      unfold ofInt
      rw [if_pos hlt]
      rfl
    · rename_i hneg
      have hnonneg : 0 ≤ val.toInt := not_lt.mp fun h => hneg (Int32.lt_iff_toInt_lt.mpr h)
      rw [int2stringLoop_eq (n := val.toInt.natAbs) (by omega) (by omega) (by omega),
        List.reverse_reverse]
      unfold ofInt
      rw [if_neg (by omega)]

/-- The least number stays negative when it is negated, and what is written are no digits. -/
theorem int2string_minValue :
    int2string Int32.minValue = [45, 46, 47, 44, 41, 44, 40, 45, 42, 44, 40] := by decide

theorem int2string_ofInt {z : ℤ} (h : IsInt z) (hne : z ≠ -2 ^ 31) :
    int2string (Int32.ofInt z) = ofInt z := by
  have hz : (Int32.ofInt z).toInt = z := Int32.toInt_ofInt_of_le h.1 h.2
  rw [int2string_of_ne, hz]
  rintro heq
  rw [heq] at hz
  exact hne hz.symm

/-! ## `lint2string` -/

/-- The digits that the loop of `lint2string` writes, the last one first. -/
def lint2stringLoop : ℕ → Int64 → List UInt8
  | 0, _ => []
  | f + 1, val =>
    (val % 10 + 48).toUInt64.toUInt8 :: if val / 10 = 0 then [] else lint2stringLoop f (val / 10)

/-- `lint2string`. Nineteen digits are enough for a `long`. -/
def lint2string (val : Int64) : List UInt8 :=
  if val = 0 then [48]
  else if val < 0 then (lint2stringLoop 19 (-val) ++ [45]).reverse
  else (lint2stringLoop 19 val).reverse

theorem toUInt64_ofInt (n : ℕ) : (Int64.ofInt n).toUInt64 = UInt64.ofNat n := rfl

theorem lint2stringLoop_eq {f n : ℕ} {val : Int64} (hval : val.toInt = n) (hlt : n < 10 ^ f)
    (hf : 0 < f) : lint2stringLoop f val = (ofNat n).reverse := by
  induction f generalizing n val with
  | zero => omega
  | succ f ih =>
    have h10 : (10 : Int64).toInt = 10 := rfl
    have hint := val.toInt_lt
    have hsum : val % 10 + 48 = Int64.ofInt ((48 + n % 10 : ℕ) : ℤ) := by
      rw [← Int64.ofInt_toInt (val % 10), Int64.toInt_mod, hval,
        Int.tmod_eq_emod_of_nonneg (by omega), h10, show (48 : Int64) = Int64.ofInt 48 from rfl,
        ← Int64.ofInt_add]
      congr 1
      omega
    have hlast : (val % 10 + 48).toUInt64.toUInt8 = digit (n % 10) := by
      rw [hsum, toUInt64_ofInt]
      simp [digit]
    have hdiv : (val / 10).toInt = (n / 10 : ℕ) := by
      rw [Int64.toInt_div, hval, h10, Int.tdiv_eq_ediv_of_nonneg (by omega),
        Int.bmod_eq_of_le (by omega) (by omega)]
      rfl
    rw [lint2stringLoop, hlast]
    rcases Nat.lt_or_ge n 10 with hn | hn
    · have hzero : val / 10 = 0 := Int64.toInt.inj (by rw [hdiv, Nat.div_eq_of_lt hn]; rfl)
      rw [if_pos hzero, ofNat_of_lt hn, Nat.mod_eq_of_lt hn]
      rfl
    · have hne : val / 10 ≠ 0 := fun h => by
        rw [h, show (0 : Int64).toInt = 0 from rfl] at hdiv
        omega
      have hf' : 0 < f := by
        rcases Nat.eq_zero_or_pos f with rfl | hf'
        · omega
        · exact hf'
      rw [if_neg hne, ih hdiv (by rw [pow_succ] at hlt; omega) hf', ofNat_of_ge hn,
        List.reverse_append]
      rfl

/-- **`lint2string` writes what `printf` does**, for every number but the least one. -/
theorem lint2string_of_ne {val : Int64} (hne : val ≠ Int64.minValue) :
    lint2string val = ofInt val.toInt := by
  obtain ⟨hlo, hhi⟩ := isLong_toInt val
  unfold lint2string
  split
  · rename_i hzero
    rw [hzero]
    rfl
  · rename_i hzero
    split
    · rename_i hneg
      have hlt : val.toInt < 0 := Int64.lt_iff_toInt_lt.mp hneg
      have hmin : val.toInt ≠ -2 ^ 63 := fun h => hne (Int64.toInt.inj h)
      have hval : (-val).toInt = val.toInt.natAbs := by
        rw [Int64.toInt_neg, Int.bmod_eq_of_le (by omega) (by omega)]
        omega
      rw [lint2stringLoop_eq hval (by omega) (by omega), List.reverse_append, List.reverse_reverse]
      unfold ofInt
      rw [if_pos hlt]
      rfl
    · rename_i hneg
      have hnonneg : 0 ≤ val.toInt := not_lt.mp fun h => hneg (Int64.lt_iff_toInt_lt.mpr h)
      rw [lint2stringLoop_eq (n := val.toInt.natAbs) (by omega) (by omega) (by omega),
        List.reverse_reverse]
      unfold ofInt
      rw [if_neg (by omega)]

/-! ## Items -/

/-- The fields of an item in the order in which they are written. -/
def itemFields (it : Item) : List ℤ :=
  [it.id, it.nameid.toInt, it.amount.toInt, it.equip.toNat, it.identify.toInt, it.refine,
    it.attrib.toInt, it.card[0].toInt, it.card[1].toInt, it.card[2].toInt, it.card[3].toInt]

/-- An item as `storage_tostr`, `guild_storage_tostr` and `mmo_char_tostr` write it. -/
def itemText (it : Item) : List UInt8 :=
  commas ((itemFields it).map fun z => int2string (Int32.ofInt z)) ++ [32]

/-- `"%d,%d,%d,%d,%d,%d,%d,%d,%d,%d,%d%n"` -/
def itemFormat : List Directive := ints 11

/-- The item of eleven numbers. A `refine` above 10 is cut down. -/
def itemOfInts : List Value → Option Item
  | [.int id, .int nameid, .int amount, .int equip, .int identify, .int refine, .int attrib,
      .int card0, .int card1, .int card2, .int card3] =>
    some {
      id := id.toInt
      nameid := nameid.toInt16
      amount := amount.toInt16
      equip := equip.toUInt32.toUInt16
      identify := identify.toUInt32 % 2 = 1
      refine := Fin.ofNat 16 (min (refine.toUInt32.toNat % 16) 10)
      attrib := attrib.toInt8
      card := #v[card0.toInt16, card1.toInt16, card2.toInt16, card3.toInt16] }
  | _ => none

section Items

variable {it : Item} {r : List UInt8}

theorem toInt16_bounds (x : Int16) : -2 ^ 15 ≤ x.toInt ∧ x.toInt < 2 ^ 15 :=
  ⟨x.minValue_le_toInt, x.toInt_lt⟩

/-- Every field but the id is far from the least `int`. -/
theorem itemFields_bounds (it : Item) :
    ∀ z ∈ (itemFields it).tail, -2 ^ 15 ≤ z ∧ z < 2 ^ 16 := by
  have hequip := it.equip.toNat_lt
  have hrefine := it.refine.isLt
  have hattrib : -2 ^ 7 ≤ it.attrib.toInt ∧ it.attrib.toInt < 2 ^ 7 :=
    ⟨it.attrib.minValue_le_toInt, it.attrib.toInt_lt⟩
  have hident : 0 ≤ it.identify.toInt ∧ it.identify.toInt ≤ 1 := by cases it.identify <;> decide
  have hshort (x : Int16) : -2 ^ 15 ≤ x.toInt ∧ x.toInt < 2 ^ 16 := by
    have hx := toInt16_bounds x
    omega
  simp only [itemFields, List.tail_cons, List.forall_mem_cons, List.not_mem_nil, false_imp_iff,
    implies_true, and_true]
  refine ⟨hshort _, hshort _, ?_, ?_, ?_, ?_, hshort _, hshort _, hshort _, hshort _⟩ <;> omega

theorem isInt_itemFields (hid : IsInt it.id) : ∀ z ∈ itemFields it, IsInt z := by
  rintro z (- | ⟨-, hz⟩)
  · exact hid
  · have hz' := itemFields_bounds it z hz
    unfold IsInt
    omega

/-- An item whose id is not the least number is written as `printf` does. -/
theorem itemText_eq (hid : IsInt it.id) (hne : it.id ≠ -2 ^ 31) :
    itemText it = printInts (itemFields it) ++ [32] := by
  unfold itemText printInts
  congr 2
  refine List.map_congr_left fun z hz => int2string_ofInt (isInt_itemFields hid z hz) ?_
  obtain - | ⟨-, hz⟩ := hz
  · exact hne
  · have hz' := itemFields_bounds it z hz
    omega

/-- **What is made of the numbers of an item**: the item, refined to 10 at most. -/
theorem itemOfInts_refined (hid : IsInt it.id) :
    itemOfInts ((itemFields it).map fun z => .int (Int32.ofInt z)) =
      some { it with refine := Fin.ofNat 16 (min it.refine.val 10) } := by
  have hident : ((Int32.ofInt it.identify.toInt).toUInt32 % 2 = 1 : Bool) = it.identify := by
    cases it.identify <;> rfl
  have hr : (Int32.ofInt (it.refine.val : ℤ)).toUInt32.toNat % 16 = it.refine.val := by
    rw [toUInt32_ofInt]
    simp
  have hcard : #v[it.card[0], it.card[1], it.card[2], it.card[3]] = it.card := by
    ext i hi
    obtain rfl | rfl | rfl | rfl : i = 0 ∨ i = 1 ∨ i = 2 ∨ i = 3 := by omega
    all_goals rfl
  have hequip : (Int32.ofInt (it.equip.toNat : ℤ)).toUInt32.toUInt16 = it.equip := by
    rw [toUInt32_ofInt]
    simp
  simp only [itemFields, List.map_cons, List.map_nil, itemOfInts, Int32.toInt16_ofInt,
    Int32.toInt8_ofInt, Int16.ofInt_toInt, Int8.ofInt_toInt, hident, hr, hcard, hequip,
    Int32.toInt_ofInt_of_le hid.1 hid.2]

theorem itemOfInts_fields (hid : IsInt it.id) (hrefine : it.refine.val ≤ 10) :
    itemOfInts ((itemFields it).map fun z => .int (Int32.ofInt z)) = some it := by
  have hr : Fin.ofNat 16 (min it.refine.val 10) = it.refine := by
    rw [min_eq_left hrefine]
    exact Fin.ofNat_val_eq_self it.refine
  rw [itemOfInts_refined hid, hr]

theorem int2string_head (val : Int32) :
    ∃ b s, int2string val = b :: s ∧ isSpace b = false := by
  by_cases hmin : val = Int32.minValue
  · rw [hmin, int2string_minValue]
    exact ⟨_, _, rfl, rfl⟩
  · have hspace := noSpace_ofInt (r := []) val.toInt
    rw [int2string_of_ne hmin]
    obtain ⟨b, s, heq⟩ := List.exists_cons_of_ne_nil (ofInt_ne_nil val.toInt)
    rw [List.append_nil, heq] at hspace
    exact ⟨b, s, heq, noSpace_cons.mp hspace⟩

/-- The text of an item starts with no blank. -/
theorem itemText_head (it : Item) : ∃ b s, itemText it = b :: s ∧ isSpace b = false := by
  obtain ⟨b, s, heq, hb⟩ := int2string_head (Int32.ofInt it.id)
  refine ⟨b, ?_, ?_, hb⟩
  · exact (itemText it).tail
  · unfold itemText itemFields
    rw [List.map_cons, heq]
    rfl

/-- **An item reads back**, unless its id is the least number. -/
theorem sscanf_itemText (hid : IsInt it.id) (hne : it.id ≠ -2 ^ 31) :
    sscanf itemFormat (itemText it ++ r) =
      ((itemFields it).map fun z => .int (Int32.ofInt z), some (32 :: r)) := by
  have hblank : NoDigit (32 :: r) := noDigit_cons.mpr rfl
  have h := sscanf_ints (f := []) (isInt_itemFields hid) hblank
  rw [List.append_nil, sscanf_nil, List.append_nil] at h
  rw [itemText_eq hid hne, List.append_assoc]
  exact h

/-- The least id is no number. -/
theorem sscanf_itemText_min (hmin : it.id = -2 ^ 31) :
    sscanf itemFormat (itemText it ++ r) = ([], none) := by
  unfold itemText itemFields
  rw [hmin]
  rfl

end Items

/-! ## Lists -/

/-- The entries of a kind are no more than the slots. -/
theorem length_saved_le {α : Type} {n : ℕ} (t : Fin n → α) (p : α → Bool) :
    ((List.ofFn t).filter p).length ≤ n := by
  simpa using List.length_filter_le p (List.ofFn t)

/-- No entry of a list has an empty text. -/
theorem length_le_flatMap {α : Type} {text : α → List UInt8} {r : List UInt8} (l : List α)
    (h : ∀ x ∈ l, text x ≠ []) : l.length ≤ (l.flatMap text ++ r).length := by
  induction l with
  | nil => simp
  | cons x l ih =>
    have hx := List.length_pos_iff.mpr (h x List.mem_cons_self)
    have hl := ih fun y hy => h y (List.mem_cons_of_mem _ hy)
    simp only [List.flatMap_cons, List.length_append, List.length_cons] at hl ⊢
    omega

/-! ## Lines -/

/-- A line without its end. -/
def trimEnd (line : List UInt8) : List UInt8 := line.rdropWhile fun b => b = 10 || b = 13

theorem trimEnd_line {line : List UInt8} (h : ∀ b ∈ line, b ≠ 10 ∧ b ≠ 13) :
    trimEnd (line ++ [10]) = line := by
  unfold trimEnd
  rw [List.rdropWhile_concat_pos _ _ _ rfl, List.rdropWhile_eq_self_iff]
  intro hne
  simp [h _ (List.getLast_mem hne)]

/-! ## The next id -/

/-- `"%d\t%%newid%%\n%n"`, the line of the next id in a file of guilds or parties. White space is
skipped before each `%%`. -/
def newidFormat : List Directive :=
  [.int, .space, .lit 37, .lit 110, .lit 101, .lit 119, .lit 105, .lit 100, .space, .lit 37, .space]

end Nezumi
