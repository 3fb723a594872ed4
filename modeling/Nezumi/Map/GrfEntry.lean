import Nezumi.Common.Mmo
import Nezumi.Lib.Decimal

/-!
# The file table of a GRF archive (`map/grfio.c`)

`grfio_entryread` makes an entry of the file list from each item of the table of an archive. How a
file is decrypted later depends on `cycle`, the number of digits of its compressed size.

* `GrfItem` are the numbers of an item, `getlong` is the function of the same name.
* `readEntry0100` and `readEntry0200` make the entry in the two versions of the table.
* `digitLoop` is the loop in both that counts digits. Its bound is an `int`, which wraps round.
* `digitLoop_some`, `digitLoop_of_lt`: it stops at the first bound above the size, if there is one.
* `countsDigits_iff`: it counts the digits of the sizes above -10 and below 1410065408, which is
  the eleventh power of ten as an `int`.
-/

namespace Nezumi

open Bytes

/-- `FILELIST`, but for its link to the next entry. -/
structure FileEntry where
  srclen : Int32 := 0
  srclenAligned : Int32 := 0
  declen : Int32 := 0
  srcpos : Int32 := 0
  cycle : Int8 := 0
  type : UInt8 := 0
  fn : CStr 107 := default
  gentry : Int8 := 0
  deriving DecidableEq

/-- `getlong` -/
def getlong (p : Buf) (off : ℕ) : UInt32 :=
  (p off).toUInt32 + ((p (off + 1)).toUInt32 <<< 8) + ((p (off + 2)).toUInt32 <<< 16) +
    ((p (off + 3)).toUInt32 <<< 24)

/-- The numbers of an item, which stand behind its name. -/
structure GrfItem where
  compressedLength : UInt32
  compressedLengthAligned : UInt32
  uncompressedLength : UInt32
  flags : UInt8
  offset : UInt32

def grfItem (grfFilelist : Buf) (ofs2 : ℕ) : GrfItem where
  compressedLength := getlong grfFilelist ofs2
  compressedLengthAligned := getlong grfFilelist (ofs2 + 4)
  uncompressedLength := getlong grfFilelist (ofs2 + 8)
  flags := grfFilelist (ofs2 + 12)
  offset := getlong grfFilelist (ofs2 + 13)

/-- `for(lop = 10, srccount = 1; srclen >= lop; lop = lop * 10, srccount++);` -/
def digitLoop : (fuel : ℕ) → (srclen lop srccount : Int32) → Option Int32
  | 0, _, _, _ => none
  | fuel + 1, srclen, lop, srccount =>
    if lop ≤ srclen then digitLoop fuel srclen (lop * 10) (srccount + 1) else some srccount

/-- The name from its last point on (`strrchr`). -/
def periodPtr (fname : List UInt8) : Option (List UInt8) :=
  match fname.reverse.findIdx? fun c => c = 46 with
  | none => none
  | some i => some (fname.drop (fname.length - 1 - i))

/-- `".gnd"`, `".gat"`, `".act"` and `".str"`: the kinds of files that are encrypted throughout. -/
def plainExtensions : List (List UInt8) :=
  [[46, 103, 110, 100], [46, 103, 97, 116], [46, 97, 99, 116], [46, 115, 116, 114]]

/-- `srclen` of an item of version 01xx. -/
def srclen0100 (it : GrfItem) : Int32 :=
  (it.compressedLength - it.uncompressedLength - 715).toInt32

/-- The entry of an item of version 01xx, which is not a directory. -/
def readEntry0100 (fuel : ℕ) (gentry : Int8) (fname : List UInt8) (it : GrfItem) :
    Option FileEntry := do
  let (srclen, srccount) ←
    match periodPtr fname with
    | none => some ((0 : Int32), (0 : Int32))
    | some period =>
      if plainExtensions.any fun e => e == period.map tolower then some (srclen0100 it, 0)
      else (digitLoop fuel (srclen0100 it) 10 1).map fun n => (srclen0100 it, n)
  return {
    srclen
    srclenAligned := (it.compressedLengthAligned - 37579).toInt32
    declen := it.uncompressedLength.toInt32
    srcpos := (it.offset + 0x2e).toInt32
    cycle := srccount.toInt8
    type := it.flags
    fn := CStr.ofField 107 fname
    gentry := gentry + 1 }

/-- The entry of an item of version 02xx, which is a file. -/
def readEntry0200 (fuel : ℕ) (gentry : Int8) (fname : List UInt8) (it : GrfItem) :
    Option FileEntry := do
  let srclen := it.compressedLength.toInt32
  let srccount ←
    if it.flags = 3 then digitLoop fuel srclen 10 1
    else if it.flags = 5 then some 0
    else some (-1)
  return {
    srclen
    srclenAligned := it.compressedLengthAligned.toInt32
    declen := it.uncompressedLength.toInt32
    srcpos := (it.offset + 0x2e).toInt32
    cycle := srccount.toInt8
    type := it.flags
    fn := CStr.ofField 107 fname
    gentry := gentry + 1 }

/-! ## The loop -/

/-- `lop` when `srccount` is a number. -/
def lopAt (k : ℕ) : Int32 := Int32.ofInt (10 ^ k)

/-- The number of decimal digits of a number, without its sign. -/
def decimalDigits (z : ℤ) : ℕ := (Decimal.ofNat z.natAbs).length

/-- The loop ends, and what it has counted are the digits of the size. -/
def CountsDigits (srclen : Int32) : Prop :=
  ∃ fuel srccount, digitLoop fuel srclen 10 1 = some srccount ∧
    srccount.toInt = decimalDigits srclen.toInt

section Loop

variable {fuel k j : ℕ} {srclen srccount : Int32}

theorem lopAt_succ (k : ℕ) : lopAt k * 10 = lopAt (k + 1) := by
  unfold lopAt
  rw [pow_succ, Int32.ofInt_mul]
  rfl

theorem srccount_succ (k : ℕ) : Int32.ofNat k + 1 = Int32.ofNat (k + 1) := by
  rw [Int32.ofNat_add]
  rfl

theorem digitLoop_succ : digitLoop (fuel + 1) srclen (lopAt k) (Int32.ofNat k) =
    if lopAt k ≤ srclen then digitLoop fuel srclen (lopAt (k + 1)) (Int32.ofNat (k + 1))
    else some (Int32.ofNat k) := by
  rw [digitLoop, lopAt_succ, srccount_succ]

/-- Where the loop has stopped. -/
theorem digitLoop_some (h : digitLoop fuel srclen (lopAt k) (Int32.ofNat k) = some srccount) :
    ∃ j, k ≤ j ∧ srccount = Int32.ofNat j ∧ srclen < lopAt j ∧
      ∀ i, k ≤ i → i < j → lopAt i ≤ srclen := by
  induction fuel generalizing k with
  | zero => cases h
  | succ fuel ih =>
    rw [digitLoop_succ] at h
    split at h
    · rename_i hle
      obtain ⟨j, hkj, heq, hlt, hbelow⟩ := ih h
      refine ⟨j, by omega, heq, hlt, fun i hi hij => ?_⟩
      rcases Nat.eq_or_lt_of_le hi with rfl | hi
      · exact hle
      · exact hbelow i hi hij
    · rename_i hlt
      exact ⟨k, le_refl k, (Option.some.inj h).symm, Int32.not_le.mp hlt,
        fun i hi hik => by omega⟩

/-- The loop stops at the first bound above the size. -/
theorem digitLoop_of_lt (hkj : k ≤ j) (hlt : srclen < lopAt j)
    (hbelow : ∀ i, k ≤ i → i < j → lopAt i ≤ srclen) (hfuel : j < k + fuel) :
    digitLoop fuel srclen (lopAt k) (Int32.ofNat k) = some (Int32.ofNat j) := by
  induction fuel generalizing k with
  | zero => omega
  | succ fuel ih =>
    rw [digitLoop_succ]
    rcases Nat.eq_or_lt_of_le hkj with rfl | hkj
    · rw [if_neg (Int32.not_le.mpr hlt)]
    · rw [if_pos (hbelow k (le_refl k) hkj)]
      exact ih hkj (fun i hi hij => hbelow i (by omega) hij) (by omega)

/-- The bounds that an `int` holds. -/
theorem toInt_lopAt (hk : k ≤ 9) : (lopAt k).toInt = 10 ^ k := by
  have hle : (10 : ℤ) ^ k ≤ 10 ^ 9 := pow_le_pow_right₀ (by decide) hk
  have hpos : (0 : ℤ) < 10 ^ k := pow_pos (by decide) k
  exact Int32.toInt_ofInt_of_le (by omega) (by omega)

/-- The first bound that is too large for an `int`. -/
theorem toInt_lopAt_ten : (lopAt 10).toInt = 1410065408 := by decide

/-- From the thirty-second power of ten on the bound is 0. -/
theorem lopAt_eq_zero (hk : 32 ≤ k) : lopAt k = 0 := by
  obtain ⟨i, rfl⟩ := Nat.exists_eq_add_of_le hk
  unfold lopAt
  rw [pow_add, Int32.ofInt_mul, show Int32.ofInt (10 ^ 32) = 0 by decide, Int32.zero_mul]

theorem lt_pow_decimalDigits (z : ℤ) : z.natAbs < 10 ^ decimalDigits z := by
  have h : Decimal.valueOf (Decimal.ofNat z.natAbs) < _ :=
    Decimal.valueOf_lt fun d => Decimal.isDigit_of_mem_ofNat
  rwa [Decimal.valueOf_ofNat] at h

theorem decimalDigits_pos (z : ℤ) : 0 < decimalDigits z :=
  List.length_pos_iff.mpr (Decimal.ofNat_ne_nil z.natAbs)

/-- The digits of a size are ten at most. -/
theorem decimalDigits_le_ten (srclen : Int32) : decimalDigits srclen.toInt ≤ 10 := by
  have hlo := srclen.le_toInt
  have hhi := srclen.toInt_lt
  exact Decimal.length_ofNat_le_of_lt (by decide) (by omega)

/-- A size that is counted is one that the bounds pass in time. -/
theorem bounds_of_countsDigits (h : CountsDigits srclen) :
    -10 < srclen.toInt ∧ srclen.toInt < 1410065408 := by
  obtain ⟨fuel, srccount, hloop, hcount⟩ := h
  obtain ⟨j, hj, rfl, hlt, hbelow⟩ := digitLoop_some (k := 1) hloop
  rw [Int32.lt_iff_toInt_lt] at hlt
  constructor
  · by_contra hneg
    -- the first bound is above a negative size, which is counted as one digit
    have hone : j = 1 := by
      by_contra hne
      have hten := Int32.le_iff_toInt_le.mp (hbelow 1 (le_refl 1) (by omega))
      rw [toInt_lopAt (by decide)] at hten
      omega
    subst hone
    have hdigits := lt_pow_decimalDigits srclen.toInt
    have hcount' : decimalDigits srclen.toInt = 1 :=
      Int.ofNat.inj (hcount.symm.trans (Int32.toInt_ofNat_of_lt (by decide)))
    rw [hcount'] at hdigits
    omega
  · by_contra hbig
    -- no bound that an `int` holds is above the size, and those that have wrapped come too late
    have hlate : 10 < j := by
      by_contra hle
      rcases Nat.eq_or_lt_of_le (not_lt.mp hle) with rfl | hle
      · rw [toInt_lopAt_ten] at hlt
        omega
      · have hpow : (10 : ℤ) ^ j ≤ 10 ^ 9 := pow_le_pow_right₀ (by decide) (by omega)
        rw [toInt_lopAt (by omega)] at hlt
        omega
    have hearly : j < 32 := by
      by_contra hge
      rw [lopAt_eq_zero (not_lt.mp hge)] at hlt
      have hzero : (0 : Int32).toInt = 0 := rfl
      omega
    have hten := decimalDigits_le_ten srclen
    rw [Int32.toInt_ofNat_of_lt (by omega)] at hcount
    omega

/-- Between the bounds the loop stops after as many rounds as there are digits. -/
theorem countsDigits_of_bounds (hlo : -10 < srclen.toInt) (hhi : srclen.toInt < 1410065408) :
    CountsDigits srclen := by
  have hten := decimalDigits_le_ten srclen
  have hpos := decimalDigits_pos srclen.toInt
  have hlt := lt_pow_decimalDigits srclen.toInt
  refine ⟨11, Int32.ofNat (decimalDigits srclen.toInt), ?_,
    Int32.toInt_ofNat_of_lt (by omega)⟩
  apply digitLoop_of_lt (k := 1) hpos
  · rw [Int32.lt_iff_toInt_lt]
    rcases Nat.eq_or_lt_of_le hten with heq | hnine
    · rw [heq, toInt_lopAt_ten]
      exact hhi
    · rw [toInt_lopAt (by omega)]
      have hcast : (srclen.toInt.natAbs : ℤ) < 10 ^ decimalDigits srclen.toInt := by
        exact_mod_cast hlt
      omega
  · intro i hi hid
    have hpow : 10 ^ i ≤ 10 ^ (decimalDigits srclen.toInt - 1) :=
      Nat.pow_le_pow_right (by decide) (by omega)
    have hten : 10 ^ 1 ≤ 10 ^ i := Nat.pow_le_pow_right (by decide) hi
    have hnat : 0 < srclen.toInt.natAbs := by
      rcases Nat.eq_zero_or_pos srclen.toInt.natAbs with h0 | h0
      · unfold decimalDigits at hid
        rw [h0, Decimal.ofNat_of_lt (by decide), List.length_singleton] at hid
        omega
      · exact h0
    have hge : 10 ^ (decimalDigits srclen.toInt - 1) ≤ srclen.toInt.natAbs :=
      Decimal.pow_length_ofNat_le hnat
    have hcast : (10 : ℤ) ^ i ≤ srclen.toInt.natAbs := by exact_mod_cast hpow.trans hge
    rw [Int32.le_iff_toInt_le, toInt_lopAt (by omega)]
    omega
  · omega

end Loop

/-- **What the loop counts.** It ends with the number of decimal digits for the sizes above -10 and
below 1410065408, and for no others: a smaller size counts as one digit, and for a larger one the
bound wraps round before it is above the size. -/
theorem countsDigits_iff (srclen : Int32) :
    CountsDigits srclen ↔ -10 < srclen.toInt ∧ srclen.toInt < 1410065408 :=
  ⟨bounds_of_countsDigits, fun h => countsDigits_of_bounds h.1 h.2⟩

/-- For the largest size the loop does not end at all. -/
theorem digitLoop_maxValue_none : ¬CountsDigits 2147483647 ∧
    ∀ fuel, digitLoop fuel 2147483647 10 1 = none := by
  have hnone (fuel : ℕ) : digitLoop fuel 2147483647 10 1 = none := by
    by_contra hsome
    obtain ⟨srccount, h⟩ := Option.ne_none_iff_exists'.mp hsome
    obtain ⟨j, -, -, hlt, -⟩ := digitLoop_some (k := 1) h
    have hmax := (lopAt j).toInt_lt
    rw [Int32.lt_iff_toInt_lt, show (2147483647 : Int32).toInt = 2147483647 from rfl] at hlt
    omega
  refine ⟨fun ⟨fuel, srccount, h, _⟩ => ?_, hnone⟩
  rw [hnone fuel] at h
  cases h

end Nezumi
