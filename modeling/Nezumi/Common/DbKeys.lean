import Nezumi.Common.Db
import Mathlib.Data.List.Lex
import Mathlib.Data.BitVec

/-!
# The keys of a table (`common/db.c`)

A kind of table is lawful for a linear order in which its keys have a rank: the comparison is that of
the ranks, and keys of one rank have one hash. The rank of a number is its value, and that of a
string are its first `maxlen` bytes.
-/

namespace Nezumi

/-- The comparison is a linear order, up to the keys of one rank, which the hash does not tell
apart. -/
structure DbKind.Lawful {K α : Type} [LinearOrder α] (kind : DbKind K) (rank : K → α) : Prop where
  cmp_neg : ∀ a b, kind.cmp a b < 0 ↔ rank a < rank b
  cmp_zero : ∀ a b, kind.cmp a b = 0 ↔ rank a = rank b
  hash : ∀ a b, rank a = rank b → kind.hash a = kind.hash b
  copy : ∀ a, rank (kind.copy a) = rank a

/-! ## Numbers -/

/-- The bit 31 of the 64 bits tells whether two numbers have the same sign. -/
theorem numdb_sign (a b : BitVec 32) :
    (a.signExtend 64 ^^^ b.signExtend 64) &&& 0x80000000 ≠ 0 ↔ a.msb ≠ b.msb := by
  have hmask : (0x80000000 : BitVec 64) = BitVec.twoPow 64 31 := rfl
  rw [hmask, BitVec.and_twoPow, BitVec.msb_eq_getLsbD_last, BitVec.msb_eq_getLsbD_last]
  simp only [BitVec.getLsbD_xor, BitVec.getLsbD_signExtend]
  have hne : BitVec.twoPow 64 31 ≠ 0#64 := by decide
  cases a.getLsbD 31 <;> cases b.getLsbD 31 <;> simp
  all_goals exact hne

theorem numdbCmp_eq (a b : BitVec 32) : numdbCmp a b =
    if a.msb = b.msb then a.toInt - b.toInt else if a.toInt < 0 then -1 else 1 := by
  unfold numdbCmp
  dsimp only
  rw [BitVec.toInt_signExtend_of_le (by decide)]
  by_cases h : a.msb = b.msb
  · rw [if_neg (by rw [numdb_sign]; simpa using h), if_pos h,
      ← BitVec.signExtend_eq_setWidth_of_le _ (by decide),
      BitVec.toInt_signExtend_eq_toInt_bmod_of_le _ (by decide), BitVec.toInt_sub,
      BitVec.toInt_signExtend_of_le (by decide), BitVec.toInt_signExtend_of_le (by decide)]
    -- both are negative, or none is
    have ha := BitVec.msb_eq_toInt (x := a)
    have hb := BitVec.msb_eq_toInt (x := b)
    have hab : a.toInt < 0 ↔ b.toInt < 0 := by
      rw [ha, hb] at h
      exact decide_eq_decide.mp h
    have h1 := a.toInt_lt
    have h2 := a.le_toInt
    have h3 := b.toInt_lt
    have h4 := b.le_toInt
    rw [Int.bmod_eq_of_le (n := a.toInt - b.toInt) (by omega) (by omega),
      Int.bmod_eq_of_le (by omega) (by omega)]
  · rw [if_pos ((numdb_sign a b).mpr h), if_neg h]

theorem numdb_lawful : numdb.Lawful BitVec.toInt where
  cmp_neg a b := by
    change numdbCmp a b < 0 ↔ _
    rw [numdbCmp_eq]
    split
    · exact sub_neg
    · rename_i h
      rw [BitVec.msb_eq_toInt, BitVec.msb_eq_toInt, decide_eq_decide] at h
      split <;> omega
  cmp_zero a b := by
    change numdbCmp a b = 0 ↔ _
    rw [numdbCmp_eq]
    split
    · exact sub_eq_zero
    · rename_i h
      rw [BitVec.msb_eq_toInt, BitVec.msb_eq_toInt, decide_eq_decide] at h
      split <;> omega
  hash a b h := by rw [BitVec.toInt_inj.mp h]
  copy _ := rfl

/-! ## Strings -/

/-- The values of the bytes, which are compared one after the other. -/
def values (s : List (BitVec 8)) : List ℕ := s.map BitVec.toNat

theorem values_inj {s t : List (BitVec 8)} : values s = values t ↔ s = t :=
  List.map_inj_right fun _ _ => BitVec.eq_of_toNat_eq

theorem strcmp_zero {s t : List (BitVec 8)} (hs : ∀ c ∈ s, c ≠ 0) (ht : ∀ c ∈ t, c ≠ 0) :
    strcmp s t = 0 ↔ s = t := by
  have hpos : ∀ c : BitVec 8, c ≠ 0 → c.toNat ≠ 0 := fun c hc h => hc (BitVec.eq_of_toNat_eq h)
  induction s generalizing t with
  | nil =>
    cases t with
    | nil => simp [strcmp]
    | cons b t => simpa [strcmp] using hpos b (ht b List.mem_cons_self)
  | cons a s ih =>
    cases t with
    | nil => simpa [strcmp] using hpos a (hs a List.mem_cons_self)
    | cons b t =>
      rw [strcmp]
      split
      · rename_i hab
        have hrest : strcmp s t = 0 ↔ s = t :=
          ih (fun c hc => hs c (List.mem_cons_of_mem _ hc)) fun c hc =>
            ht c (List.mem_cons_of_mem _ hc)
        simp [hrest, hab]
      · rename_i hab
        have : a.toNat ≠ b.toNat := fun h => hab (BitVec.eq_of_toNat_eq h)
        simp only [List.cons.injEq, hab, false_and, iff_false]
        omega

theorem strcmp_neg {s t : List (BitVec 8)} (ht : ∀ c ∈ t, c ≠ 0) :
    strcmp s t < 0 ↔ values s < values t := by
  have hpos : ∀ c : BitVec 8, c ≠ 0 → 0 < c.toNat := fun c hc =>
    Nat.pos_of_ne_zero fun h => hc (BitVec.eq_of_toNat_eq h)
  induction s generalizing t with
  | nil =>
    cases t with
    | nil => simp [strcmp, values]
    | cons b t => simpa [strcmp, values] using hpos b (ht b List.mem_cons_self)
  | cons a s ih =>
    cases t with
    | nil => simp [strcmp, values]
    | cons b t =>
      rw [strcmp, values, values, List.map_cons, List.map_cons, List.cons_lt_cons_iff]
      split
      · rename_i hab
        have hrest : strcmp s t < 0 ↔ values s < values t :=
          ih fun c hc => ht c (List.mem_cons_of_mem _ hc)
        simp [hrest, hab, values]
      · rename_i hab
        have : a.toNat ≠ b.toNat := fun h => hab (BitVec.eq_of_toNat_eq h)
        simp only [this, false_and, or_false]
        omega

theorem strncmp_eq (n : ℕ) (s t : List (BitVec 8)) :
    strncmp n s t = strcmp (s.take n) (t.take n) := by
  induction n generalizing s t with
  | zero => simp [strncmp, strcmp]
  | succ n ih => cases s <;> cases t <;> simp [strncmp, strcmp, ih]

/-- Only the first bytes matter to the hash. -/
theorem strdbHashLoop_take (n : ℕ) (h : BitVec 64) (s : List (BitVec 8)) :
    strdbHashLoop n h (s.take n) = strdbHashLoop n h s := by
  induction s generalizing n h with
  | nil => rw [List.take_nil]
  | cons p s ih =>
    cases n with
    | zero => simp [strdbHashLoop]
    | succ n =>
      have hn : ((n + 1 : ℕ) : ℤ) - 1 = n := by omega
      rw [List.take_succ_cons, strdbHashLoop, strdbHashLoop, hn, ih]

/-- The bytes of a string that a table with `maxlen` looks at. -/
def strdbPart (maxlen : BitVec 32) (s : List (BitVec 8)) : List (BitVec 8) :=
  if maxlen ≠ 0 then s.take (sizeT maxlen) else s

theorem strdbPart_nonzero (maxlen : BitVec 32) (s : CString) :
    ∀ c ∈ strdbPart maxlen s.bytes, c ≠ 0 := by
  intro c hc
  unfold strdbPart at hc
  split at hc
  · exact s.nonzero c (List.mem_of_mem_take hc)
  · exact s.nonzero c hc

theorem strdbCmp_eq (maxlen : BitVec 32) (a b : CString) :
    strdbCmp maxlen a b = strcmp (strdbPart maxlen a.bytes) (strdbPart maxlen b.bytes) := by
  unfold strdbCmp strdbPart
  split
  · exact strncmp_eq ..
  · rfl

theorem strdbHash_eq (maxlen : BitVec 32) {a b : CString}
    (h : strdbPart maxlen a.bytes = strdbPart maxlen b.bytes) :
    strdbHash maxlen a = strdbHash maxlen b := by
  unfold strdbPart at h
  unfold strdbHash
  by_cases h0 : maxlen = 0
  · rw [if_neg (not_not.mpr h0), if_neg (not_not.mpr h0)] at h
    rw [h]
  · rw [if_pos h0, if_pos h0] at h
    rw [if_neg h0]
    by_cases hneg : maxlen.toInt < 0
    · -- not a byte is looked at
      have hloop : ∀ s, strdbHashLoop maxlen.toInt 0 s = 0 := fun s => by
        cases s with
        | nil => rfl
        | cons p s => rw [strdbHashLoop, if_neg (by omega)]
      rw [hloop, hloop]
    · have hsize : maxlen.toInt = (sizeT maxlen : ℤ) := by
        have h64 := BitVec.toInt_signExtend_of_le (x := maxlen) (v := 64) (by decide)
        rw [← h64, BitVec.toInt_eq_toNat_of_msb]
        · rfl
        · rw [BitVec.msb_eq_toInt, h64, decide_eq_false hneg]
      rw [hsize, ← strdbHashLoop_take, h, strdbHashLoop_take]

/-- The rank of a string in a table with `maxlen`. -/
def strdbKey (maxlen : BitVec 32) (s : CString) : List ℕ := values (strdbPart maxlen s.bytes)

theorem strdb_lawful (maxlen : BitVec 32) : (strdb maxlen).Lawful (strdbKey maxlen) where
  cmp_neg a b := by
    change strdbCmp maxlen a b < 0 ↔ _
    rw [strdbCmp_eq, strdbKey, strdbKey, strcmp_neg (strdbPart_nonzero maxlen b)]
  cmp_zero a b := by
    change strdbCmp maxlen a b = 0 ↔ _
    rw [strdbCmp_eq, strdbKey, strdbKey, strcmp_zero (strdbPart_nonzero maxlen a) (strdbPart_nonzero maxlen b),
      values_inj]
  hash a b h := strdbHash_eq maxlen (values_inj.mp h)
  copy a := by
    change strdbKey maxlen (if maxlen ≠ 0 then a.take (sizeT maxlen) else a) = _
    unfold strdbKey strdbPart
    split
    · simp [CString.take, List.take_take]
    · rfl

end Nezumi
