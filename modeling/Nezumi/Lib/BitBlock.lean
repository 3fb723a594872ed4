import Mathlib.Data.Fin.VecNotation
import Mathlib.Logic.Function.Basic
import Mathlib.Tactic.Common

/-!
# Blocks of bits in bytes

A block is some bytes. A place in it is a byte and a bit of that byte, counted from the highest one.

* `bit`, `setBit`: the bit of a place. `gather`: the block whose bits a loop sets one by one.
* `ext_bit`: a block is its bits.
* `bit_gather`, `bit_xor`: the bits of what a loop makes, and of a sum.
* `permute_permute`: two loops that move bits undo each other when their tables do.
-/

namespace BitBlock

abbrev Block (n : ℕ) := Fin n → UInt8

/-- A byte of a block, and a bit of it. -/
abbrev Place (n : ℕ) := Fin n × Fin 8

/-- The byte with one bit. -/
def mask : Fin 8 → UInt8 := ![0x80, 0x40, 0x20, 0x10, 0x08, 0x04, 0x02, 0x01]

def bit {n : ℕ} (x : Block n) (p : Place n) : Bool := x p.1 &&& mask p.2 ≠ 0

def setBit {n : ℕ} (x : Block n) (p : Place n) : Block n :=
  Function.update x p.1 (x p.1 ||| mask p.2)

/-- A loop over places that sets the bits of a block, which are all clear at first. -/
def gather {n : ℕ} (l : List (Place n)) (c : Place n → Bool) : Block n :=
  l.foldl (fun x p => if c p then setBit x p else x) fun _ => 0

/-- A loop over the places of a block that takes each bit from the place its table says. -/
def permute {m n : ℕ} (l : List (Place n)) (table : Place n → Place m) (x : Block m) : Block n :=
  gather l fun p => bit x (table p)

section Bits

variable {n : ℕ} {x y : Block n} {p q : Place n} {l : List (Place n)} {c : Place n → Bool}

theorem toBitVec_mask (b : Fin 8) : (mask b).toBitVec = BitVec.twoPow 8 (7 - b) := by
  revert b
  decide

theorem bit_eq_getLsbD (x : Block n) (p : Place n) :
    bit x p = (x p.1).toBitVec.getLsbD (7 - p.2) := by
  unfold bit
  rw [Bool.eq_iff_iff, decide_eq_true_iff, ne_eq, ← UInt8.toBitVec_inj, UInt8.toBitVec_and,
    toBitVec_mask, BitVec.and_twoPow]
  split
  · rename_i hbit
    have hone : ¬BitVec.twoPow 8 (7 - p.2) = 0#8 := by
      generalize p.2 = b
      revert b
      decide
    simpa [hbit] using hone
  · rename_i hbit
    simp [hbit]

/-- **A block is its bits.** -/
theorem ext_bit (h : ∀ p, bit x p = bit y p) : x = y := by
  funext k
  apply UInt8.toBitVec_inj.mp
  apply BitVec.eq_of_getLsbD_eq
  intro i hi
  have hp := h (k, ⟨7 - i, by omega⟩)
  rw [bit_eq_getLsbD, bit_eq_getLsbD] at hp
  simpa [show 7 - (7 - i) = i by omega] using hp

theorem bit_congr {k : Fin n} (h : x k = y k) (b : Fin 8) : bit x (k, b) = bit y (k, b) := by
  unfold bit
  rw [h]

/-- A byte is its bits. -/
theorem byte_ext {k : Fin n} (h : ∀ b, bit x (k, b) = bit y (k, b)) : x k = y k := by
  have hone : (fun _ : Fin 1 => x k) = fun _ => y k := ext_bit fun p => h p.2
  exact congrFun hone 0

theorem bit_zero : bit (fun _ => 0 : Block n) p = false := by
  simp [bit]

theorem bit_setBit : bit (setBit x p) q = (bit x q || decide (p = q)) := by
  rw [bit_eq_getLsbD, bit_eq_getLsbD]
  unfold setBit
  rcases eq_or_ne q.1 p.1 with hk | hk
  · rw [hk, Function.update_self, UInt8.toBitVec_or, BitVec.getLsbD_or, toBitVec_mask,
      BitVec.getLsbD_twoPow]
    congr 1
    have hp := p.2.isLt
    have hq := q.2.isLt
    rw [Bool.eq_iff_iff, Bool.and_eq_true, decide_eq_true_iff, decide_eq_true_iff,
      decide_eq_true_iff]
    constructor
    · rintro ⟨-, heq⟩
      exact Prod.ext hk.symm (Fin.ext (by omega))
    · rintro rfl
      exact ⟨by omega, rfl⟩
  · rw [Function.update_of_ne hk, decide_eq_false (fun heq : p = q => hk (heq ▸ rfl)), Bool.or_false]

theorem bit_foldl (l : List (Place n)) (c : Place n → Bool) (x : Block n) (q : Place n) :
    bit (l.foldl (fun x p => if c p then setBit x p else x) x) q =
      (bit x q || (decide (q ∈ l) && c q)) := by
  induction l generalizing x with
  | nil => simp
  | cons p l ih =>
    rw [List.foldl_cons, ih]
    by_cases hc : c p
    · rw [if_pos hc, bit_setBit]
      rcases eq_or_ne p q with rfl | hne
      · simp [hc]
      · simp [hne, Ne.symm hne]
    · rw [if_neg hc]
      rcases eq_or_ne p q with rfl | hne
      · simp [hc]
      · simp [Ne.symm hne]

/-- **The bits that a loop sets.** -/
theorem bit_gather (hq : q ∈ l) : bit (gather l c) q = c q := by
  unfold gather
  rw [bit_foldl, bit_zero]
  simp [hq]

theorem bit_permute {m : ℕ} {table : Place n → Place m} {x : Block m} (hq : q ∈ l) :
    bit (permute l table x) q = bit x (table q) := bit_gather hq

/-- **Tables that undo each other.** -/
theorem permute_permute {m : ℕ} {l' : List (Place m)} {table : Place n → Place m}
    {table' : Place m → Place n} (hl : ∀ p, p ∈ l) (hl' : ∀ p, p ∈ l')
    (h : ∀ p, table' (table p) = p) (x : Block n) :
    permute l table (permute l' table' x) = x := by
  apply ext_bit
  intro p
  rw [bit_permute (hl p), bit_permute (hl' _), h]

theorem bit_xor : bit (fun k => x k ^^^ y k) p = (bit x p ^^ bit y p) := by
  rw [bit_eq_getLsbD, bit_eq_getLsbD, bit_eq_getLsbD, UInt8.toBitVec_xor, BitVec.getLsbD_xor]

end Bits

end BitBlock
