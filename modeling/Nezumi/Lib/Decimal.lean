import Mathlib.Data.List.DropRight
import Mathlib.Data.List.Induction
import Mathlib.Data.List.TakeWhile
import Mathlib.Algebra.Order.Ring.Nat
import Mathlib.Algebra.Order.Ring.Int
import Mathlib.Tactic.Common

/-!
# Decimal numbers as bytes

Numbers as `printf` writes them and as `scanf` reads them.

* `ofNat`, `ofInt`: the digits of a number, behind a sign if it is negative.
* `scanInt`: blanks, a sign and digits at the front of some bytes.
* `Canonical`: what a decimal representation is. `canonical_ofInt`: `ofInt` writes one.
* `scanInt_ofInt`: what is written reads back, whatever stands behind it but a digit.
* `valueOf_lt`, `length_ofNat_le`: a number has no more digits than any text of it.
* `scanInt_take_ofInt`: a number that is cut short reads as another one.
* `scanInt_isSome_append`: whether there is a number does not depend on a blank at the end.
-/

namespace Decimal

/-- `isspace` -/
def isSpace (b : UInt8) : Bool := b = 32 || (9 ≤ b && b ≤ 13)

/-- `isdigit` -/
def isDigit (b : UInt8) : Bool := 48 ≤ b && b ≤ 57

/-- The digit of a number below ten. -/
def digit (n : ℕ) : UInt8 := UInt8.ofNat (48 + n)

/-- The digits of a number, by a bound of their number. -/
def digitsOf : ℕ → ℕ → List UInt8
  | 0, _ => []
  | f + 1, n => if n < 10 then [digit n] else digitsOf f (n / 10) ++ [digit (n % 10)]

def ofNat (n : ℕ) : List UInt8 := digitsOf (n + 1) n

def ofInt (z : ℤ) : List UInt8 := if z < 0 then 45 :: ofNat z.natAbs else ofNat z.natAbs

/-- The number that some digits are. -/
def valueOf (ds : List UInt8) : ℕ := ds.foldl (fun v d => 10 * v + (d.toNat - 48)) 0

/-- The decimal representation of a number: digits behind a sign, with no zero before them. -/
def Canonical (z : ℤ) (s : List UInt8) : Prop :=
  ∃ ds, ds ≠ [] ∧ (∀ d ∈ ds, isDigit d) ∧ (ds.head? = some (digit 0) → ds = [digit 0]) ∧
    valueOf ds = z.natAbs ∧ s = if z < 0 then 45 :: ds else ds

/-- Digits at the front, and what stands behind them. -/
def scanNat (bs : List UInt8) : Option (ℕ × List UInt8) :=
  if bs.takeWhile isDigit = [] then none
  else some (valueOf (bs.takeWhile isDigit), bs.dropWhile isDigit)

/-- A number at the front, behind blanks, and what stands behind it. -/
def scanInt (bs : List UInt8) : Option (ℤ × List UInt8) :=
  match bs.dropWhile isSpace with
  | 45 :: r => (scanNat r).map fun p => (-p.1, p.2)
  | 43 :: r => (scanNat r).map fun p => ((p.1 : ℤ), p.2)
  | r => (scanNat r).map fun p => ((p.1 : ℤ), p.2)

section Digits

variable {n : ℕ} {ds : List UInt8}

theorem digit_toNat (h : n < 10) : (digit n).toNat = 48 + n := by
  unfold digit
  rw [UInt8.toNat_ofNat']
  omega

theorem isDigit_iff {b : UInt8} : isDigit b ↔ 48 ≤ b.toNat ∧ b.toNat ≤ 57 := by
  simp [isDigit, UInt8.le_iff_toNat_le]

theorem isDigit_digit (h : n < 10) : isDigit (digit n) := by
  rw [isDigit_iff, digit_toNat h]
  omega

theorem digitsOf_congr {f g : ℕ} (hf : n < f) (hg : n < g) : digitsOf f n = digitsOf g n := by
  induction f generalizing n g with
  | zero => omega
  | succ f ih =>
    cases g with
    | zero => omega
    | succ g =>
      unfold digitsOf
      split
      · rfl
      · rw [ih (show n / 10 < f by omega) (show n / 10 < g by omega)]

theorem ofNat_of_lt (h : n < 10) : ofNat n = [digit n] := by
  unfold ofNat digitsOf
  rw [if_pos h]

theorem ofNat_of_ge (h : 10 ≤ n) : ofNat n = ofNat (n / 10) ++ [digit (n % 10)] := by
  conv_lhs => unfold ofNat digitsOf
  rw [if_neg (by omega)]
  congr 1
  exact digitsOf_congr (by omega) (by omega)

theorem ofNat_ne_nil (n : ℕ) : ofNat n ≠ [] := by
  rcases Nat.lt_or_ge n 10 with h | h
  · rw [ofNat_of_lt h]
    simp
  · rw [ofNat_of_ge h]
    simp

theorem isDigit_of_mem_ofNat {b : UInt8} (h : b ∈ ofNat n) : isDigit b := by
  induction n using Nat.strong_induction_on with
  | _ n ih =>
    rcases Nat.lt_or_ge n 10 with hn | hn
    · rw [ofNat_of_lt hn, List.mem_singleton] at h
      rw [h]
      exact isDigit_digit hn
    · rw [ofNat_of_ge hn, List.mem_append, List.mem_singleton] at h
      rcases h with h | rfl
      · exact ih (n / 10) (by omega) h
      · exact isDigit_digit (Nat.mod_lt n (by omega))

theorem valueOf_append (ds : List UInt8) (d : UInt8) :
    valueOf (ds ++ [d]) = 10 * valueOf ds + (d.toNat - 48) := by
  simp [valueOf]

theorem valueOf_ofNat (n : ℕ) : valueOf (ofNat n) = n := by
  induction n using Nat.strong_induction_on with
  | _ n ih =>
    rcases Nat.lt_or_ge n 10 with hn | hn
    · rw [ofNat_of_lt hn]
      simp [valueOf, digit_toNat hn]
    · rw [ofNat_of_ge hn, valueOf_append, ih _ (by omega), digit_toNat (Nat.mod_lt n (by omega))]
      omega

/-- No number but zero starts with a zero. -/
theorem head_ofNat_ne (hpos : 0 < n) : (ofNat n).head? ≠ some (digit 0) := by
  induction n using Nat.strong_induction_on with
  | _ n ih =>
    rcases Nat.lt_or_ge n 10 with hn | hn
    · rw [ofNat_of_lt hn]
      intro h
      have heq := congrArg UInt8.toNat (Option.some.inj h)
      rw [digit_toNat hn, digit_toNat (by omega)] at heq
      omega
    · rw [ofNat_of_ge hn, List.head?_append_of_ne_nil _ (ofNat_ne_nil _)]
      exact ih (n / 10) (by omega) (by omega)

theorem valueOf_lt (h : ∀ d ∈ ds, isDigit d) : valueOf ds < 10 ^ ds.length := by
  induction ds using List.reverseRecOn with
  | nil => simp [valueOf]
  | append_singleton ds d ih =>
    have hd := isDigit_iff.mp (h d (by simp))
    have hds := ih fun d hd => h d (by simp [hd])
    rw [valueOf_append, List.length_append, List.length_singleton, pow_succ]
    omega

theorem canonical_ofInt (z : ℤ) : Canonical z (ofInt z) := by
  refine ⟨ofNat z.natAbs, ofNat_ne_nil _, fun d hd => isDigit_of_mem_ofNat hd, fun hhead => ?_,
    valueOf_ofNat _, rfl⟩
  rcases Nat.eq_zero_or_pos z.natAbs with h | h
  · rw [h]
    rfl
  · exact absurd hhead (head_ofNat_ne h)

theorem pow_length_ofNat_le (h : 0 < n) : 10 ^ ((ofNat n).length - 1) ≤ n := by
  induction n using Nat.strong_induction_on with
  | _ n ih =>
    rcases Nat.lt_or_ge n 10 with hn | hn
    · rw [ofNat_of_lt hn]
      simpa using Nat.one_le_iff_ne_zero.mpr (by omega)
    · have hlen := List.length_pos_iff.mpr (ofNat_ne_nil (n / 10))
      have hrec := ih (n / 10) (by omega) (by omega)
      rw [ofNat_of_ge hn, List.length_append, List.length_singleton, Nat.add_sub_cancel,
        show (ofNat (n / 10)).length = (ofNat (n / 10)).length - 1 + 1 by omega, pow_succ]
      omega

theorem length_ofNat_le_of_lt {k : ℕ} (hk : 0 < k) (h : n < 10 ^ k) : (ofNat n).length ≤ k := by
  rcases Nat.eq_zero_or_pos n with rfl | hpos
  · rw [ofNat_of_lt (by omega)]
    exact hk
  · by_contra hlt
    have hpow := pow_length_ofNat_le hpos
    have hle : 10 ^ k ≤ 10 ^ ((ofNat n).length - 1) := Nat.pow_le_pow_right (by omega) (by omega)
    omega

/-- **A number has the shortest digits.** -/
theorem length_ofNat_le (h : ∀ d ∈ ds, isDigit d) (hne : ds ≠ []) :
    (ofNat (valueOf ds)).length ≤ ds.length := by
  have hds := List.length_pos_iff.mpr hne
  rcases Nat.eq_zero_or_pos (valueOf ds) with h0 | hpos
  · rw [h0]
    exact hds
  · by_contra hlt
    have h1 := pow_length_ofNat_le hpos
    have h2 := valueOf_lt h
    have h3 : 10 ^ ds.length ≤ 10 ^ ((ofNat (valueOf ds)).length - 1) :=
      Nat.pow_le_pow_right (by omega) (by omega)
    omega

/-! ## Reading back -/

variable {r : List UInt8}

/-- Nothing that is a digit stands at the front. -/
def NoDigit (r : List UInt8) : Prop := ∀ b ∈ r.head?, isDigit b = false

theorem scanNat_append (h : ∀ d ∈ ds, isDigit d) (hne : ds ≠ []) (hr : NoDigit r) :
    scanNat (ds ++ r) = some (valueOf ds, r) := by
  have htake : (ds ++ r).takeWhile isDigit = ds := by
    rw [List.takeWhile_append_of_pos h]
    cases r with
    | nil => simp
    | cons b r => simp [hr b (by simp)]
  have hdrop : (ds ++ r).dropWhile isDigit = r := by
    rw [List.dropWhile_append_of_pos h]
    cases r with
    | nil => simp
    | cons b r => simp [hr b (by simp)]
  unfold scanNat
  rw [htake, hdrop, if_neg hne]

theorem scanNat_ofNat (n : ℕ) (hr : NoDigit r) : scanNat (ofNat n ++ r) = some (n, r) := by
  rw [scanNat_append (fun _ => isDigit_of_mem_ofNat) (ofNat_ne_nil n) hr, valueOf_ofNat]

/-- A digit is no blank and no sign. -/
theorem digit_cases {b : UInt8} (h : isDigit b) : isSpace b = false ∧ b ≠ 45 ∧ b ≠ 43 := by
  rw [isDigit_iff] at h
  refine ⟨?_, ?_, ?_⟩
  · simp only [isSpace, Bool.or_eq_false_iff, decide_eq_false_iff_not, Bool.and_eq_false_iff,
      UInt8.le_iff_toNat_le]
    refine ⟨?_, .inr (by rw [show (13 : UInt8).toNat = 13 from rfl]; omega)⟩
    rintro rfl
    revert h
    decide
  · rintro rfl
    revert h
    decide
  · rintro rfl
    revert h
    decide

/-- Digits at the front are read as they are. -/
theorem scanInt_digits (h : ∀ d ∈ ds, isDigit d) (hne : ds ≠ []) (hr : NoDigit r) :
    scanInt (ds ++ r) = some ((valueOf ds : ℤ), r) := by
  obtain ⟨d, ds', rfl⟩ := List.exists_cons_of_ne_nil hne
  obtain ⟨hspace, hminus, hplus⟩ := digit_cases (h d (by simp))
  unfold scanInt
  rw [List.cons_append, List.dropWhile_cons_of_neg (by simp [hspace])]
  split
  · rename_i heq
    exact absurd (List.cons.inj heq).1 hminus
  · rename_i heq
    exact absurd (List.cons.inj heq).1 hplus
  · rw [← List.cons_append, scanNat_append h hne hr]
    rfl

theorem scanInt_minus (h : ∀ d ∈ ds, isDigit d) (hne : ds ≠ []) (hr : NoDigit r) :
    scanInt (45 :: ds ++ r) = some (-(valueOf ds : ℤ), r) := by
  unfold scanInt
  rw [List.cons_append, List.dropWhile_cons_of_neg (by decide)]
  change (scanNat (ds ++ r)).map _ = _
  rw [scanNat_append h hne hr]
  rfl

/-- **What is written reads back.** -/
theorem scanInt_ofInt (z : ℤ) (hr : NoDigit r) : scanInt (ofInt z ++ r) = some (z, r) := by
  unfold ofInt
  split
  · rw [scanInt_minus (fun _ => isDigit_of_mem_ofNat) (ofNat_ne_nil _) hr, valueOf_ofNat]
    congr 2
    omega
  · rw [scanInt_digits (fun _ => isDigit_of_mem_ofNat) (ofNat_ne_nil _) hr, valueOf_ofNat]
    congr 2
    omega

/-- Digits alone read as a number, if there are any. -/
theorem scanNat_digits (h : ∀ d ∈ ds, isDigit d) {n : ℕ} (hscan : scanNat ds = some (n, r)) :
    ds ≠ [] ∧ n = valueOf ds := by
  unfold scanNat at hscan
  rw [List.takeWhile_eq_self_iff.mpr h] at hscan
  split at hscan
  · cases hscan
  · rename_i hne
    exact ⟨hne, (Prod.mk.inj (Option.some.inj hscan)).1.symm⟩

/-- A number cut short has a smaller value. -/
theorem valueOf_take_ofNat {k : ℕ} (hk : k < (ofNat n).length) (hpos : 0 < n) :
    valueOf ((ofNat n).take k) < n := by
  have h1 : valueOf ((ofNat n).take k) < 10 ^ ((ofNat n).take k).length := valueOf_lt fun d hd =>
    isDigit_of_mem_ofNat (List.mem_of_mem_take hd)
  have h2 := pow_length_ofNat_le hpos
  have h3 : 10 ^ ((ofNat n).take k).length ≤ 10 ^ ((ofNat n).length - 1) :=
    Nat.pow_le_pow_right (by omega) (by rw [List.length_take]; omega)
  omega

/-- **A number that is cut short reads as a smaller one**, or not at all. -/
theorem scanInt_take_ofInt {z w : ℤ} {k : ℕ} (hz : z ≠ 0) (hk : k < (ofInt z).length)
    (h : scanInt ((ofInt z).take k) = some (w, r)) : w.natAbs < z.natAbs := by
  have hdigits (k : ℕ) : ∀ d ∈ (ofNat z.natAbs).take k, isDigit d := fun d hd =>
    isDigit_of_mem_ofNat (List.mem_of_mem_take hd)
  unfold ofInt at hk h
  split at h
  · rename_i hneg
    rw [if_pos hneg, List.length_cons] at hk
    cases k with
    | zero => cases h
    | succ k =>
      rw [List.take_succ_cons] at h
      unfold scanInt at h
      rw [List.dropWhile_cons_of_neg (by decide)] at h
      obtain ⟨p, hp, heq⟩ := Option.map_eq_some_iff.mp h
      obtain ⟨-, hval⟩ := scanNat_digits (hdigits k) (n := p.1) (r := p.2) hp
      have hlt := valueOf_take_ofNat (n := z.natAbs) (k := k) (by omega) (by omega)
      have hw := (Prod.mk.inj heq).1
      omega
  · rename_i hneg
    rw [if_neg hneg] at hk
    rcases List.eq_nil_or_concat ((ofNat z.natAbs).take k) with hnil | ⟨_, _, hconcat⟩
    · rw [hnil] at h
      cases h
    · have hne : (ofNat z.natAbs).take k ≠ [] := by
        rw [hconcat]
        simp
      have hscan := scanInt_digits (r := []) (hdigits k) hne (by simp [NoDigit])
      rw [List.append_nil] at hscan
      rw [hscan] at h
      have hw := (Prod.mk.inj (Option.some.inj h)).1
      have hlt := valueOf_take_ofNat (n := z.natAbs) (k := k) hk (by omega)
      omega

theorem ofInt_natCast (n : ℕ) : ofInt n = ofNat n := by
  unfold ofInt
  rw [if_neg (by omega), Int.natAbs_natCast]

/-- Blanks in front do not matter. -/
theorem scanInt_dropWhile (bs : List UInt8) : scanInt (bs.dropWhile isSpace) = scanInt bs := by
  unfold scanInt
  rw [List.dropWhile_idempotent]

theorem scanNat_isSome (bs : List UInt8) : (scanNat bs).isSome = bs.head?.any isDigit := by
  unfold scanNat
  cases bs with
  | nil => rfl
  | cons b bs =>
    rw [List.takeWhile_cons]
    by_cases hb : isDigit b <;> simp [hb]

/-- Whether a number stands at the front, without the blanks before it. -/
def startsInt : List UInt8 → Bool
  | 45 :: r => r.head?.any isDigit
  | 43 :: r => r.head?.any isDigit
  | r => r.head?.any isDigit

theorem scanInt_isSome (bs : List UInt8) :
    (scanInt bs).isSome = startsInt (bs.dropWhile isSpace) := by
  unfold scanInt startsInt
  split <;> rw [Option.isSome_map, scanNat_isSome]

/-- A blank at the end makes no number and hides none. -/
theorem scanInt_isSome_append {b : UInt8} (hspace : isSpace b) (hdigit : isDigit b = false)
    (bs : List UInt8) : (scanInt (bs ++ [b])).isSome = (scanInt bs).isSome := by
  have hhead (l : List UInt8) : (l ++ [b]).head?.any isDigit = l.head?.any isDigit := by
    cases l <;> simp [hdigit]
  rw [scanInt_isSome, scanInt_isSome, List.dropWhile_append]
  rcases hdrop : bs.dropWhile isSpace with _ | ⟨c, r⟩
  · simp [hspace]
  · simp only [List.isEmpty_cons, Bool.false_eq_true, if_false]
    unfold startsInt
    split
    · rename_i heq
      obtain ⟨rfl, rfl⟩ := List.cons.inj heq
      exact hhead r
    · rename_i heq
      obtain ⟨rfl, rfl⟩ := List.cons.inj heq
      exact hhead r
    · rename_i hminus hplus
      split
      · rename_i heq
        obtain ⟨rfl, rfl⟩ := List.cons.inj heq
        exact absurd rfl (hminus (r ++ [b]))
      · rename_i heq
        obtain ⟨rfl, rfl⟩ := List.cons.inj heq
        exact absurd rfl (hplus (r ++ [b]))
      · rfl

end Digits

end Decimal
