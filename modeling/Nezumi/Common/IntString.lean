import Nezumi.Common.Text
import Mathlib.Logic.Function.Basic

/-!
# Numbers written into a buffer (`common/utils.c`)

`int2string` of `Common/Text` is the text alone. Here it is the function with its buffer: the digits
are stored from the last one on, the sign behind them, and then the ends change places until they
meet.

* `int2stringBuffer` is the function, `int2stringDigits` and `int2stringSwap` its two loops.
* `int2stringDigits_eq`, `int2stringSwap_apply`: what the loops leave in the buffer.
* `int2stringBuffer_eq`: the buffer has the text and a zero behind it, and nothing else is written.
* `int2stringBuffer_right_iff`: a number is written as its decimal representation, and reads back,
  if and only if it is not the least one.
-/

namespace Nezumi

open Decimal Scanf

/-- The bytes of a buffer, by their place. -/
abbrev CharBuffer := ℕ → UInt8

/-- `do ... while(val)`: the digits are stored from place `i` on. There is no result where the loop
has not ended after `fuel` rounds. -/
def int2stringDigits : (fuel : ℕ) → CharBuffer → (i : ℕ) → (val : Int32) → Option (CharBuffer × ℕ)
  | 0, _, _, _ => none
  | fuel + 1, pointer, i, val =>
    let pointer := Function.update pointer i (val % 10 + 48).toUInt32.toUInt8
    let val := val / 10
    if val = 0 then some (pointer, i + 1) else int2stringDigits fuel pointer (i + 1) val

/-- `while(buffer < (pointer + (--i)))`: the bytes at both ends change places. -/
def int2stringSwap (pointer : CharBuffer) (buffer : ℕ) : (i : ℕ) → CharBuffer
  | 0 => pointer
  | i + 1 =>
    if buffer < i then
      let tmp := pointer buffer
      let pointer := Function.update pointer buffer (pointer i)
      let pointer := Function.update pointer i tmp
      int2stringSwap pointer (buffer + 1) i
    else pointer

/-- `int2string`: the buffer and the length. -/
def int2stringBuffer (buffer : CharBuffer) (val : Int32) : Option (CharBuffer × ℕ) :=
  if val = 0 then some (Function.update (Function.update buffer 0 48) 1 0, 1)
  else
    let tmp := val < 0
    let val := if tmp then -val else val
    (int2stringDigits 10 buffer 0 val).map fun (pointer, i) =>
      let (pointer, i) := if tmp then (Function.update pointer i 45, i + 1) else (pointer, i)
      let pointer := Function.update pointer i 0
      let len := i
      (int2stringSwap pointer 0 i, len)

/-- Bytes are stored one behind the other. -/
def storeBytes (buffer : CharBuffer) (i : ℕ) : List UInt8 → CharBuffer
  | [] => buffer
  | b :: bs => storeBytes (Function.update buffer i b) (i + 1) bs

/-- The first bytes of a buffer. -/
def bufferText (buffer : CharBuffer) (len : ℕ) : List UInt8 := (List.range len).map buffer

section Buffer

variable {buffer : CharBuffer} {bs : List UInt8} {i j : ℕ}

theorem storeBytes_of_lt (h : j < i) : storeBytes buffer i bs j = buffer j := by
  induction bs generalizing buffer i with
  | nil => rfl
  | cons b bs ih =>
    unfold storeBytes
    rw [ih (by omega), Function.update_of_ne (by omega)]

theorem storeBytes_of_ge (h : i + bs.length ≤ j) : storeBytes buffer i bs j = buffer j := by
  induction bs generalizing buffer i with
  | nil => rfl
  | cons b bs ih =>
    rw [List.length_cons] at h
    unfold storeBytes
    rw [ih (by omega), Function.update_of_ne (by omega)]

theorem storeBytes_add (h : j < bs.length) :
    storeBytes buffer i bs (i + j) = bs.get ⟨j, h⟩ := by
  induction bs generalizing buffer i j with
  | nil => exact absurd h (Nat.not_lt_zero _)
  | cons b bs ih =>
    unfold storeBytes
    cases j with
    | zero => rw [storeBytes_of_lt (by omega), Nat.add_zero, Function.update_self]; rfl
    | succ j =>
      rw [show i + (j + 1) = i + 1 + j by omega, ih (Nat.lt_of_succ_lt_succ h)]
      rfl

theorem storeBytes_append (buffer : CharBuffer) (i : ℕ) (bs : List UInt8) (b : UInt8) :
    storeBytes buffer i (bs ++ [b]) =
      Function.update (storeBytes buffer i bs) (i + bs.length) b := by
  induction bs generalizing buffer i with
  | nil => rfl
  | cons c bs ih =>
    rw [List.cons_append, storeBytes, ih, storeBytes, List.length_cons]
    congr 1
    omega

theorem bufferText_storeBytes (buffer : CharBuffer) (bs : List UInt8) :
    bufferText (storeBytes buffer 0 bs) bs.length = bs := by
  apply List.ext_get
  · simp [bufferText]
  · intro k hk hk'
    have hget : storeBytes buffer 0 bs (0 + k) = bs.get ⟨k, hk'⟩ := storeBytes_add hk'
    rw [Nat.zero_add] at hget
    simpa [bufferText] using hget

/-- **The second loop** turns the bytes from `buffer` up to `i` round. -/
theorem int2stringSwap_apply (pointer : CharBuffer) {b : ℕ} (h : b ≤ i) (k : ℕ) :
    int2stringSwap pointer b i k =
      if b ≤ k ∧ k < i then pointer (b + i - 1 - k) else pointer k := by
  induction i generalizing pointer b with
  | zero => rw [if_neg (by omega)]; rfl
  | succ i ih =>
    unfold int2stringSwap
    by_cases hlt : b < i
    · rw [if_pos hlt, ih _ (by omega)]
      rcases Nat.lt_trichotomy k b with hk | rfl | hk
      · rw [if_neg (by omega), if_neg (by omega), Function.update_of_ne (by omega),
          Function.update_of_ne (by omega)]
      · rw [if_neg (by omega), if_pos (by omega), Function.update_of_ne (by omega),
          Function.update_self, show k + (i + 1) - 1 - k = i by omega]
      · rcases Nat.lt_trichotomy k i with hk' | rfl | hk'
        · rw [if_pos (by omega), if_pos (by omega),
            show b + 1 + i - 1 - k = b + (i + 1) - 1 - k by omega,
            Function.update_of_ne (by omega), Function.update_of_ne (by omega)]
        · rw [if_neg (by omega), if_pos (by omega), Function.update_self,
            show b + (k + 1) - 1 - k = b by omega]
        · rw [if_neg (by omega), if_neg (by omega), Function.update_of_ne (by omega),
            Function.update_of_ne (by omega)]
    · rw [if_neg hlt]
      split_ifs with hk
      · -- One byte is left, which stays.
        rw [show b + (i + 1) - 1 - k = k by omega]
      · rfl

theorem bufferText_swap (pointer : CharBuffer) (len : ℕ) :
    bufferText (int2stringSwap pointer 0 len) len = (bufferText pointer len).reverse := by
  apply List.ext_get
  · simp [bufferText]
  · intro k hk hk'
    have hlen : k < len := by simpa [bufferText] using hk
    simp [bufferText, int2stringSwap_apply pointer (Nat.zero_le len), hlen]

theorem bufferText_update (buffer : CharBuffer) (len : ℕ) (b : UInt8) :
    bufferText (Function.update buffer len b) len = bufferText buffer len := by
  apply List.map_congr_left
  intro k hk
  rw [List.mem_range] at hk
  rw [Function.update_of_ne (by omega)]

end Buffer

/-! ## The function -/

/-- A buffer holds a text with a zero behind it, and behind that what another one holds. -/
structure BufferHolds (buffer : CharBuffer) (s : List UInt8) (r : CharBuffer) : Prop where
  text : bufferText r s.length = s
  zero : r s.length = 0
  rest : ∀ k, s.length < k → r k = buffer k

/-- Bytes that are stored, ended and turned round. -/
theorem written_swap (buffer : CharBuffer) (bs : List UInt8) :
    BufferHolds buffer bs.reverse
      (int2stringSwap (Function.update (storeBytes buffer 0 bs) bs.length 0) 0 bs.length) := by
  refine ⟨?_, ?_, fun k hk => ?_⟩
  · rw [List.length_reverse, bufferText_swap, bufferText_update, bufferText_storeBytes]
  · rw [List.length_reverse, int2stringSwap_apply _ (Nat.zero_le _), if_neg (by omega),
      Function.update_self]
  · rw [List.length_reverse] at hk
    rw [int2stringSwap_apply _ (Nat.zero_le _), if_neg (by omega), Function.update_of_ne (by omega),
      storeBytes_of_ge (by omega)]

section Int2string

variable {buffer : CharBuffer} {val : Int32} {i : ℕ}

theorem natAbs_div_ten (val : Int32) : (val / 10).toInt.natAbs = val.toInt.natAbs / 10 := by
  have h10 : (10 : Int32).toInt = 10 := rfl
  have hdiv : (val.toInt.tdiv 10).natAbs = val.toInt.natAbs / 10 := Int.natAbs_tdiv _ _
  obtain ⟨hlo, hhi⟩ := isInt_toInt val
  rw [Int32.toInt_div, h10, Int.bmod_eq_of_le (by omega) (by omega), hdiv]

/-- **The first loop** stores the digits. -/
theorem int2stringDigits_eq {f : ℕ} (hf : 0 < f) (hlt : val.toInt.natAbs < 10 ^ f) :
    int2stringDigits f buffer i val =
      some (storeBytes buffer i (int2stringLoop f val), i + (int2stringLoop f val).length) := by
  induction f generalizing buffer i val with
  | zero => exact absurd hf (Nat.lt_irrefl 0)
  | succ f ih =>
    have hdiv := natAbs_div_ten val
    unfold int2stringDigits int2stringLoop
    dsimp only
    by_cases hzero : val / 10 = 0
    · rw [if_pos hzero, if_pos hzero]
      rfl
    · have hne : (val / 10).toInt.natAbs ≠ 0 := fun h =>
        hzero (Int32.toInt.inj (Int.natAbs_eq_zero.mp h))
      have hf' : 0 < f := by
        rcases Nat.eq_zero_or_pos f with rfl | hf'
        · omega
        · exact hf'
      rw [if_neg hzero, if_neg hzero, ih hf' (by rw [pow_succ] at hlt; omega), storeBytes,
        List.length_cons]
      congr 2
      omega

theorem natAbs_lt_pow (val : Int32) : val.toInt.natAbs < 10 ^ 10 := by
  obtain ⟨hlo, hhi⟩ := isInt_toInt val
  omega

/-- **The buffer has the text**, and the length is returned. -/
theorem int2stringBuffer_eq (buffer : CharBuffer) (val : Int32) :
    ∃ r, int2stringBuffer buffer val = some (r, (int2string val).length) ∧
      BufferHolds buffer (int2string val) r := by
  unfold int2stringBuffer int2string
  by_cases hzero : val = 0
  · rw [if_pos hzero, if_pos hzero]
    refine ⟨_, rfl, rfl, rfl, fun k hk => ?_⟩
    rw [List.length_singleton] at hk
    rw [Function.update_of_ne (by omega), Function.update_of_ne (by omega)]
  · rw [if_neg hzero, if_neg hzero]
    by_cases hneg : val < 0
    · simp only [if_pos hneg]
      have hswap := written_swap buffer (int2stringLoop 10 (-val) ++ [45])
      rw [storeBytes_append, Nat.zero_add, List.length_append, List.length_singleton] at hswap
      rw [int2stringDigits_eq (by decide) (natAbs_lt_pow _), Nat.zero_add, List.length_reverse,
        List.length_append, List.length_singleton]
      exact ⟨_, rfl, hswap⟩
    · simp only [if_neg hneg]
      rw [int2stringDigits_eq (by decide) (natAbs_lt_pow _), Nat.zero_add, List.length_reverse]
      exact ⟨_, rfl, written_swap buffer (int2stringLoop 10 val)⟩

end Int2string

/-! ## The decimal representation -/

/-- What `int2string` is to do: it ends, returns the length of a text that is the decimal
representation of the number, leaves the text in the buffer, and `sscanf` reads the number back. -/
def WritesDecimal (buffer : CharBuffer) (val : Int32) : Prop :=
  ∃ r len, int2stringBuffer buffer val = some (r, len) ∧
    Canonical val.toInt (bufferText r len) ∧ r len = 0 ∧ (∀ k, len < k → r k = buffer k) ∧
    sscanf [.int] (bufferText r len) = ([.int val], some [])

/-- The text of the least number has a byte that is no digit. -/
theorem not_writesDecimal_minValue (buffer : CharBuffer) :
    ¬ WritesDecimal buffer Int32.minValue := by
  rintro ⟨r', len, heq', hcanon, -, -, -⟩
  obtain ⟨r, heq, hw⟩ := int2stringBuffer_eq buffer Int32.minValue
  obtain ⟨rfl, rfl⟩ := Prod.mk.inj (Option.some.inj (heq'.symm.trans heq))
  rw [hw.text, int2string_minValue] at hcanon
  obtain ⟨ds, -, hdigit, -, -, htext⟩ := hcanon
  rw [if_pos (by decide)] at htext
  obtain rfl := (List.cons.inj htext).2
  exact absurd (hdigit 46 List.mem_cons_self) (by decide)

/-- **`int2string` writes the decimal representation** if and only if the number is not the least
one. -/
theorem int2stringBuffer_right_iff (buffer : CharBuffer) (val : Int32) :
    WritesDecimal buffer val ↔ val ≠ Int32.minValue := by
  constructor
  · rintro h rfl
    exact not_writesDecimal_minValue buffer h
  · intro hne
    obtain ⟨r, heq, hw⟩ := int2stringBuffer_eq buffer val
    have htext := hw.text
    have hread := sscanf_int (f := []) (r := []) (isInt_toInt val) noDigit_nil
    rw [List.append_nil, Int32.ofInt_toInt] at hread
    refine ⟨r, _, heq, ?_, hw.zero, hw.rest, ?_⟩
    · rw [htext, int2string_of_ne hne]
      exact canonical_ofInt _
    · rw [htext, int2string_of_ne hne, hread]
      rfl

/-- **The least number is not written in digits.** -/
theorem int2stringBuffer_wrong : ¬ ∀ buffer val, WritesDecimal buffer val := fun h =>
  not_writesDecimal_minValue (fun _ => 0) (h _ _)

end Nezumi
