import Mathlib.Data.List.Pairwise
import Mathlib.Logic.Function.Basic
import Mathlib.Tactic.Common
import Mathlib.Algebra.Order.Ring.Int

/-!
# Chains of references inside code

A reference to a place that is not known yet has an operand of three bytes, which leads to the
reference before it. When the place is known the chain is followed and every operand is written.

* `write`, `read`: an operand.
* `Threaded m head sites`: the chain that starts at `head` runs through the operands at `sites`.
* `patch`: the loop that writes a value along a chain, and the code byte in front of each operand.
* `patch_spec`: it writes the operands of the chain, and nothing else.
-/

namespace BackPatch

/-- The bytes of some code. -/
abbrev Mem := ℕ → UInt8

/-- Byte `k` of a number. -/
def byteOf (z : ℤ) (k : ℕ) : UInt8 := UInt8.ofNat (z / 256 ^ k % 256).toNat

/-- An operand of three bytes. -/
def write (m : Mem) (i : ℕ) (z : ℤ) : Mem :=
  Function.update (Function.update (Function.update m i (byteOf z 0)) (i + 1) (byteOf z 1))
    (i + 2) (byteOf z 2)

def read (m : Mem) (i : ℕ) : ℕ := (m i).toNat + 256 * (m (i + 1)).toNat + 65536 * (m (i + 2)).toNat

/-- What ends a chain. -/
def chainEnd : ℕ := 0xffffff

/-- One step of a patch: the operand at `i`, and a code byte in front of it if there is one. -/
def patchAt (op : Option UInt8) (z : ℤ) (m : Mem) (i : ℕ) : Mem :=
  write (op.elim m (Function.update m (i - 1))) i z

/-- The loop that follows a chain. -/
def patch (op : Option UInt8) (z : ℤ) : ℕ → ℤ → Mem → Mem
  | 0, _, m => m
  | f + 1, i, m =>
    if 0 ≤ i ∧ i ≠ chainEnd then patch op z f (read m i.toNat) (patchAt op z m i.toNat) else m

/-- The chain that starts at `head` runs through the operands at `sites`. -/
def Threaded (m : Mem) : ℤ → List ℕ → Prop
  | head, [] => head = -1 ∨ head = chainEnd
  | head, s :: sites => head = s ∧ s < chainEnd ∧ Threaded m (read m s) sites

/-- Operands that do not overlap, each with its code byte. -/
def Apart (i j : ℕ) : Prop := i + 4 ≤ j ∨ j + 4 ≤ i

section Operands

variable {m m' : Mem} {i j : ℕ} {z : ℤ}

theorem byteOf_toNat (z : ℤ) (k : ℕ) : ((byteOf z k).toNat : ℤ) = z / 256 ^ k % 256 := by
  unfold byteOf
  rw [UInt8.toNat_ofNat', Nat.mod_eq_of_lt (by omega)]
  omega

theorem write_of_ne {t : ℕ} (h : t < i ∨ i + 3 ≤ t) : write m i z t = m t := by
  unfold write
  rw [Function.update_of_ne (by omega), Function.update_of_ne (by omega),
    Function.update_of_ne (by omega)]

theorem write_zero (m : Mem) (i : ℕ) (z : ℤ) : write m i z i = byteOf z 0 := by
  unfold write
  rw [Function.update_of_ne (by omega), Function.update_of_ne (by omega), Function.update_self]

theorem write_one (m : Mem) (i : ℕ) (z : ℤ) : write m i z (i + 1) = byteOf z 1 := by
  unfold write
  rw [Function.update_of_ne (by omega), Function.update_self]

theorem write_two (m : Mem) (i : ℕ) (z : ℤ) : write m i z (i + 2) = byteOf z 2 := by
  unfold write
  rw [Function.update_self]

/-- **What is written is read back**, as far as it has three bytes. -/
theorem read_write (m : Mem) (i : ℕ) (z : ℤ) : (read (write m i z) i : ℤ) = z % 2 ^ 24 := by
  have h0 := byteOf_toNat z 0
  have h1 := byteOf_toNat z 1
  have h2 := byteOf_toNat z 2
  unfold read
  rw [write_zero, write_one, write_two]
  push_cast
  rw [h0, h1, h2]
  omega

theorem read_congr (h : ∀ t, i ≤ t → t < i + 3 → m' t = m t) : read m' i = read m i := by
  unfold read
  rw [h i (by omega) (by omega), h (i + 1) (by omega) (by omega), h (i + 2) (by omega) (by omega)]

theorem patchAt_of_ne {op : Option UInt8} {t : ℕ} (h : t + 1 < i ∨ i + 3 ≤ t) :
    patchAt op z m i t = m t := by
  unfold patchAt
  rw [write_of_ne (by omega)]
  cases op with
  | none => rfl
  | some b => exact Function.update_of_ne (by omega) _ _

theorem read_patchAt (op : Option UInt8) (m : Mem) (i : ℕ) (z : ℤ) :
    (read (patchAt op z m i) i : ℤ) = z % 2 ^ 24 := read_write _ _ _

theorem read_patchAt_of_apart {op : Option UInt8} (h : Apart i j) :
    read (patchAt op z m i) j = read m j := by
  unfold Apart at h
  exact read_congr fun t _ _ => patchAt_of_ne (by omega)

/-- The code byte in front of an operand, after a patch. -/
theorem patchAt_code {op : Option UInt8} (hi : 0 < i) :
    patchAt op z m i (i - 1) = op.getD (m (i - 1)) := by
  unfold patchAt
  rw [write_of_ne (by omega)]
  cases op with
  | none => rfl
  | some b => exact Function.update_self _ _ _

end Operands

section Chains

variable {m m' : Mem} {head z : ℤ} {sites : List ℕ} {op : Option UInt8} {f : ℕ}

theorem Threaded.congr (h : Threaded m head sites) (hm : ∀ s ∈ sites, read m' s = read m s) :
    Threaded m' head sites := by
  induction sites generalizing head with
  | nil => exact h
  | cons s sites ih =>
    obtain ⟨hs, hlt, htail⟩ := h
    refine ⟨hs, hlt, ?_⟩
    rw [hm s (by simp)]
    exact ih htail fun t ht => hm t (by simp [ht])

/-- A new reference in front of a chain. -/
theorem Threaded.push {i : ℕ} (h : Threaded m head sites) (hhead : read m' i = head % 2 ^ 24)
    (hi : i < chainEnd) (hm : ∀ s ∈ sites, read m' s = read m s) :
    Threaded m' i (i :: sites) := by
  refine ⟨rfl, hi, ?_⟩
  have htail := h.congr hm
  cases sites with
  | nil =>
    right
    rcases h with rfl | rfl <;> simpa [chainEnd] using hhead
  | cons s sites =>
    obtain ⟨rfl, hlt, htail⟩ := htail
    refine ⟨?_, hlt, htail⟩
    rw [hhead]
    unfold chainEnd at hlt
    omega

theorem patch_of_end (h : head = -1 ∨ head = chainEnd) (f : ℕ) : patch op z f head m = m := by
  cases f with
  | zero => rfl
  | succ f =>
    unfold patch
    rw [if_neg]
    rintro ⟨h0, hne⟩
    rcases h with rfl | rfl
    · omega
    · exact hne rfl

/-- **A patch writes the operands of the chain, and nothing else.** -/
theorem patch_spec (op : Option UInt8) (z : ℤ) (h : Threaded m head sites) (hf : sites.length ≤ f)
    (hapart : sites.Pairwise Apart) (hpos : ∀ s ∈ sites, 0 < s) :
    (∀ s ∈ sites, (read (patch op z f head m) s : ℤ) = z % 2 ^ 24 ∧
      patch op z f head m (s - 1) = op.getD (m (s - 1))) ∧
    ∀ t, (∀ s ∈ sites, t + 1 < s ∨ s + 3 ≤ t) → patch op z f head m t = m t := by
  induction sites generalizing f head m with
  | nil =>
    refine ⟨fun s hs => (by cases hs), fun t _ => ?_⟩
    rw [patch_of_end h]
  | cons s sites ih =>
    obtain ⟨rfl, hlt, htail⟩ := h
    rw [List.pairwise_cons] at hapart
    cases f with
    | zero => simp at hf
    | succ f =>
      have hstep : patch op z (f + 1) s m = patch op z f (read m s) (patchAt op z m s) := by
        conv_lhs => unfold patch
        rw [if_pos ⟨by omega, by omega⟩, Int.toNat_natCast]
      have hrest : Threaded (patchAt op z m s) (read m s) sites :=
        htail.congr fun t ht => read_patchAt_of_apart (hapart.1 t ht)
      have hs := hpos s (by simp)
      obtain ⟨hin, hout⟩ := ih hrest (by simpa using hf) hapart.2 fun t ht => hpos t (by simp [ht])
      have hfar (t : ℕ) (ht : s ≤ t + 1 ∧ t < s + 3) :
          ∀ s' ∈ sites, t + 1 < s' ∨ s' + 3 ≤ t := by
        intro s' hs'
        have := hapart.1 s' hs'
        unfold Apart at this
        omega
      rw [hstep]
      refine ⟨fun t ht => ?_, fun t ht => ?_⟩
      · rcases List.mem_cons.mp ht with rfl | ht
        · refine ⟨?_, ?_⟩
          · rw [read_congr (m := patchAt op z m t) fun u hu1 hu2 => hout u (hfar u (by omega)),
              read_patchAt]
          · rw [hout _ (hfar _ (by omega)), patchAt_code hs]
        · refine ⟨(hin t ht).1, ?_⟩
          have hst := hapart.1 t ht
          have ht0 := hpos t (by simp [ht])
          unfold Apart at hst
          rw [(hin t ht).2, patchAt_of_ne (by omega)]
      · have hs' := ht s (by simp)
        rw [hout t fun s' hs' => ht s' (by simp [hs']), patchAt_of_ne (by omega)]

end Chains

end BackPatch
