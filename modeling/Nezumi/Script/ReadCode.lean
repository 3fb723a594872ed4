import Mathlib.Tactic.Ring
import Nezumi.Script.ParseLemmas

/-!
# Reading the code of a script (`map/script.c`)

`run_script_main` reads the commands and the numbers that `parse_script` has written. A byte from
`0x80` on starts a number, of which each byte has six bits.

* `getCom`, `getNum`: `get_com`, and `get_num`, which reads the number in front of which `get_com`
  has stopped. Each has the place after it. `unget_com` has no caller, so nothing is ever pushed
  back.
* `ReadsBack a`: the number that `add_scripti` writes is read again.
* `readsBack_iff`: it is if it is not negative. Of a negative number only one byte is written, and
  `get_num` goes on into the code behind it if the bit below the sign is set there.
-/

namespace Nezumi

open BackPatch

/-- The groups of six bits that an `int` can be shifted by: `j` is below `32`. -/
def shiftGroups : ℕ := 6

/-- The loop of `get_com`, and the byte that ends it. -/
def getComLoop (script : Mem) : ℕ → ℕ → ℕ → ℕ → Option (ℕ × ℕ)
  | 0, _, _, _ => none
  | f + 1, i, j, pos =>
    if 0x40 ≤ script pos then getComLoop script f ((script pos).toNat <<< j) (j + 6) (pos + 1)
    else some (i + (script pos).toNat <<< j, pos + 1)

/-- `get_com` -/
def getCom (script : Mem) (pos : ℕ) : Option (ℕ × ℕ) :=
  if 0x80 ≤ script pos then some (Code.int.num, pos)
  else getComLoop script shiftGroups 0 0 pos

/-- The loop of `get_num`, and the byte that ends it. -/
def getNumLoop (script : Mem) : ℕ → ℕ → ℕ → ℕ → Option (ℕ × ℕ)
  | 0, _, _, _ => none
  | f + 1, i, j, pos =>
    let group := (script pos &&& 0x7f).toNat <<< j
    if 0xc0 ≤ script pos then getNumLoop script f (i + group) (j + 6) (pos + 1)
    else some (i + group, pos + 1)

/-- `get_num` -/
def getNum (script : Mem) (pos : ℕ) : Option (Int32 × ℕ) :=
  (getNumLoop script shiftGroups 0 0 pos).map fun (i, pos) => (Int32.ofNat i, pos)

/-- Wherever `add_scripti` has written the number, and whatever is written behind it later,
`get_com` finds a number there and `get_num` reads it, up to the end of its bytes. -/
def ReadsBack (a : Int32) : Prop :=
  ∀ c c' : Compiler, addScripti a c = some ((), c') →
    ∀ script : Mem, (∀ i, c.scriptPos ≤ i → i < c'.scriptPos → script i = c'.scriptBuf i) →
      getCom script c.scriptPos = some (Code.int.num, c.scriptPos) ∧
        getNum script c.scriptPos = some (a, c'.scriptPos)

section Reading

variable {script : Mem} {f i j n pos : ℕ}

theorem group_toNat (b : UInt8) : (b &&& 0x7f).toNat = b.toNat % 128 := by
  rw [UInt8.toNat_and]
  exact Nat.and_two_pow_sub_one_eq_mod _ 7

/-- What is read is at least one byte. -/
theorem lt_of_getNumLoop {r : ℕ × ℕ} (h : getNumLoop script f i j pos = some r) : pos < r.2 := by
  induction f generalizing i j pos with
  | zero => cases h
  | succ f ih =>
    unfold getNumLoop at h
    split at h
    · exact (Nat.lt_succ_self pos).trans (ih h)
    · cases h
      exact Nat.lt_succ_self pos

/-- The bytes of a number that is not negative are that number. -/
theorem getNumLoop_intBytes {g : ℕ} (hf : n < f) (hg : n < 64 ^ (g + 1))
    (hbytes : ∀ t (h : t < (intBytes f n).length), script (pos + t) = (intBytes f n)[t]) :
    getNumLoop script (g + 1) i j pos = some (i + n * 2 ^ j, pos + (intBytes f n).length) := by
  induction f generalizing g n i j pos with
  | zero => cases hf
  | succ f ih =>
    unfold getNumLoop
    by_cases hn : 0x40 ≤ n
    · have heq : intBytes (f + 1) n =
          UInt8.ofNat (n % 0x40 + 0xc0) :: intBytes f ((n - 0x40) / 64) := if_pos hn
      rw [heq] at hbytes ⊢
      have hb : (script pos).toNat = n % 64 + 192 := by
        rw [show script pos = _ from hbytes 0 (Nat.succ_pos _), List.getElem_cons_zero,
          UInt8.toNat_ofNat']
        omega
      have hgroup : (script pos &&& 0x7f).toNat = n % 64 + 64 := by
        rw [group_toNat, hb]
        omega
      have hmore : 0xc0 ≤ script pos := by
        rw [UInt8.le_iff_toNat_le, hb]
        exact Nat.le_add_left _ _
      obtain _ | g := g
      · omega
      have hrest : (n - 64) / 64 < 64 ^ (g + 1) := by
        rw [pow_succ] at hg
        omega
      have htail : ∀ t (h : t < (intBytes f ((n - 64) / 64)).length),
          script (pos + 1 + t) = (intBytes f ((n - 64) / 64))[t] := by
        intro t ht
        have h := hbytes (t + 1) (Nat.succ_lt_succ ht)
        rw [List.getElem_cons_succ] at h
        rw [← h, Nat.add_assoc, Nat.add_comm 1 t]
      have hn' : n = n % 64 + 64 + (n - 64) / 64 * 64 := by omega
      have hvalue : (n % 64 + 64) * 2 ^ j + (n - 64) / 64 * 2 ^ (j + 6) = n * 2 ^ j := by
        calc (n % 64 + 64) * 2 ^ j + (n - 64) / 64 * 2 ^ (j + 6)
            = (n % 64 + 64 + (n - 64) / 64 * 64) * 2 ^ j := by ring
          _ = n * 2 ^ j := by rw [← hn']
      rw [if_pos hmore, ih (by omega) hrest htail, hgroup, Nat.shiftLeft_eq, Nat.add_assoc i,
        hvalue, List.length_cons]
      congr 2
      omega
    · have heq : intBytes (f + 1) n = [UInt8.ofNat (n + 0x80)] := if_neg hn
      rw [heq] at hbytes ⊢
      have hb : (script pos).toNat = n + 128 := by
        rw [show script pos = _ from hbytes 0 Nat.one_pos, List.getElem_cons_zero,
          UInt8.toNat_ofNat']
        omega
      have hlast : ¬ 0xc0 ≤ script pos := by
        rw [UInt8.le_iff_toNat_le, hb]
        change ¬ 192 ≤ n + 128
        omega
      rw [if_neg hlast, group_toNat, hb, Nat.shiftLeft_eq, show (n + 128) % 128 = n by omega]
      rfl

end Reading

section Numbers

variable {a : Int32} {c c' : Compiler} {script : Mem}

/-- A number that is not negative is read. -/
theorem getNum_scriptiBytes (ha : 0 ≤ a)
    (hscript : ∀ t (h : t < (scriptiBytes a).length),
      script (c.scriptPos + t) = (scriptiBytes a)[t]) :
    getNum script c.scriptPos = some (a, c.scriptPos + (scriptiBytes a).length) := by
  have hnonneg : 0 ≤ a.toInt := Int32.le_iff_toInt_le.mp ha
  have hlt : a.toInt < 2 ^ 31 := a.toInt_lt
  have heq : scriptiBytes a = intBytes (a.toInt.toNat + 1) a.toInt.toNat :=
    if_neg (Int32.not_lt.mpr ha)
  rw [heq] at hscript ⊢
  unfold getNum
  rw [shiftGroups, getNumLoop_intBytes (Nat.lt_succ_self _) (by omega) hscript]
  have hvalue : Int32.ofNat (0 + a.toInt.toNat * 2 ^ 0) = a := by
    rw [Nat.zero_add, pow_zero, Nat.mul_one]
    apply Int32.toInt_inj.mp
    rw [Int32.toInt_ofNat_of_lt (by omega)]
    omega
  exact congrArg (fun v => some (v, _)) hvalue

/-- A negative number is not read from its one byte. -/
theorem getNum_negative (ha : a < 0) :
    getNum script c.scriptPos ≠ some (a, c.scriptPos + 1) := by
  intro h
  obtain ⟨⟨i, pos⟩, hloop, hpair⟩ := Option.map_eq_some_iff.mp h
  obtain ⟨rfl, rfl⟩ := Prod.mk.inj hpair
  change getNumLoop script (5 + 1) 0 0 c.scriptPos = _ at hloop
  unfold getNumLoop at hloop
  split at hloop
  · -- the byte says that the number goes on
    exact absurd (lt_of_getNumLoop hloop) (lt_irrefl _)
  · obtain rfl : _ = i := congrArg Prod.fst (Option.some.inj hloop)
    rw [group_toNat, Nat.zero_add, Nat.shiftLeft_zero, Int32.lt_iff_toInt_lt,
      Int32.toInt_ofNat_of_lt (by omega)] at ha
    exact absurd ha (Int.not_lt.mpr (Int.natCast_nonneg _))

/-- A negative number is not read again. -/
theorem not_readsBack (ha : a < 0) : ¬ ReadsBack a := by
  intro h
  have hbytes : scriptiBytes a = [byteOf a.toInt 0 ||| 0x80] := if_pos ha
  have hread := (h {} _ (addScripti_eq a {}) (Compiler.emit {} (scriptiBytes a)).scriptBuf
    fun _ _ _ => rfl).2
  rw [emit_scriptPos, hbytes] at hread
  exact getNum_negative ha hread

/-- A number is read again if and only if it is not negative. -/
theorem readsBack_iff (a : Int32) : ReadsBack a ↔ 0 ≤ a := by
  constructor
  · intro h
    by_contra hneg
    exact not_readsBack (Int32.not_le.mp hneg) h
  · intro ha c c' hrun script hscript
    rw [addScripti_eq] at hrun
    obtain ⟨-, rfl⟩ := Prod.mk.inj (Option.some.inj hrun)
    rw [emit_scriptPos] at hscript ⊢
    have hbytes : ∀ t (h : t < (scriptiBytes a).length),
        script (c.scriptPos + t) = (scriptiBytes a)[t] := by
      intro t ht
      rw [hscript _ (Nat.le_add_right _ _) (Nat.add_lt_add_left ht _), emit_at ht]
    refine ⟨?_, getNum_scriptiBytes ha hbytes⟩
    obtain ⟨b, bs, heq, hb⟩ := scriptiBytes_head a
    have hfirst : script c.scriptPos = b := by
      rw [show script c.scriptPos = _ from hbytes 0 (by rw [heq]; exact Nat.succ_pos _)]
      simp only [heq, List.getElem_cons_zero]
    exact if_pos (by rwa [hfirst, UInt8.le_iff_toNat_le])

/-- The literal `4294967295` is `-1`. Its byte is `0xff`, with which `get_num` does not stop. -/
theorem literal_not_readsBack :
    ¬ ReadsBack (strtoul [52, 50, 57, 52, 57, 54, 55, 50, 57, 53]).1 :=
  not_readsBack (by decide)

end Numbers

end Nezumi
