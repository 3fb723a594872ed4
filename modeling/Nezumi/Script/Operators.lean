import Nezumi.Script.Parse

/-!
# Operators on the stack of a script (`map/script.c`)

* `ScriptStack` is `struct script_stack` with `st->state == END`. What is above `sp` stays in the
  memory. `u.num` is wider than an `int`, and no sum of a script leaves it.
* `read` is what `get_val` finds for the name of a variable.
* `opAdd`, `op2str`, `op2num`, `op2` are the functions of the source. An operation of C that is
  undefined has no result. `-` and `*` of `int` wrap around.
* `Arithmetic.Computes`: an arithmetic operator on two operands leaves the exact result, if it fits.
* `computes_iff`: `*` does not for most pairs with a negative factor, since the guards of the
  overflow are those of positive factors, and `/` and `%` are undefined for `INT_MIN` and `-1`.
-/

namespace Nezumi

open Decimal

/-! ## The stack -/

/-- `struct script_data`. `none` is cleared memory. -/
inductive ScriptData
  | none
  | int (num : ℤ)
  | pos (num : ℤ)
  | name (num : ℤ)
  | arg
  | str (s : List UInt8)
  | constStr (s : List UInt8)
  | retInfo (num : ℤ)
deriving DecidableEq

namespace ScriptData

/-- `get_val` -/
def getVal (read : ℤ → RegValue) : ScriptData → ScriptData
  | .name n =>
    match read n with
    | .int v => .int v.toInt
    | .str s => .constStr s
  | d => d

def isStr : ScriptData → Bool
  | .str _ | .constStr _ => true
  | _ => false

/-- What `u.str` points to. -/
def chars : ScriptData → List UInt8
  | .str s | .constStr s => s
  | _ => []

/-- `conv_str`, in place. -/
def convStr (read : ℤ → RegValue) (d : ScriptData) : ScriptData :=
  match d.getVal read with
  | .int n => .str (ofInt (Int32.ofInt n).toInt)
  | d => d

end ScriptData

structure ScriptStack where
  stackData : ℤ → ScriptData
  sp : ℤ
  ended : Bool := false

section Operators

variable (read : ℤ → RegValue)

/-- `push_val` -/
def ScriptStack.pushVal (st : ScriptStack) (v : Int32) : ScriptStack :=
  { st with stackData := Function.update st.stackData st.sp (.int v.toInt), sp := st.sp + 1 }

/-- `pop_val`. The value stays in the memory. -/
def ScriptStack.popVal (st : ScriptStack) : Int32 × ScriptStack :=
  if st.sp ≤ 0 then (0, st)
  else
    let d := (st.stackData (st.sp - 1)).getVal read
    (match d with
      | .int n => Int32.ofInt n
      | _ => 0,
      { st with stackData := Function.update st.stackData (st.sp - 1) d, sp := st.sp - 1 })

/-! ## Operators -/

/-- The sum of two values, or the two strings one behind the other. -/
def addData (a b : ScriptData) : ScriptData :=
  let b := b.getVal read
  let a := a.getVal read
  if b.isStr || a.isStr then .str ((a.convStr read).chars ++ (b.convStr read).chars)
  else
    match b, a with
    | .int n, .int m => .int (m + n)
    | .int n, .pos m => .pos (m + n)
    | .int n, .retInfo m => .retInfo (m + n)
    | .int _, d => d
    | _, _ => .str []

/-- `op_add` -/
def opAdd (st : ScriptStack) : ScriptStack :=
  let sp := st.sp - 1
  { st with
    stackData := Function.update
      (Function.update st.stackData sp ((st.stackData sp).getVal read))
      (sp - 1) (addData read (st.stackData (sp - 1)) (st.stackData sp))
    sp }

/-- The value of a comparison. -/
def truth (p : Bool) : Int32 := if p then 1 else 0

/-- The value of `op_2str`. `strcmp` compares bytes. -/
def op2str (op : Code) (s1 s2 : List UInt8) : Int32 :=
  match op with
  | .eq => truth (s1 = s2)
  | .ne => truth (s1 ≠ s2)
  | .gt => truth (s2 < s1)
  | .ge => truth (s2 ≤ s1)
  | .lt => truth (s1 < s2)
  | .le => truth (s1 ≤ s2)
  | _ => 0

/-- The test of an overflow in `op_2num`. -/
def MulOverflow (i1 i2 : Int32) : Prop :=
  (i2 ≠ 0 ∧ 2147483647 / i2 < i1) ∨ (i1 ≠ 0 ∧ 2147483647 / i1 < i2)

instance (i1 i2 : Int32) : Decidable (MulOverflow i1 i2) := inferInstanceAs (Decidable (_ ∨ _))

/-- A quotient of C is undefined. -/
def NoQuotient (i1 i2 : Int32) : Prop := i1 = Int32.minValue ∧ i2 = -1

instance (i1 i2 : Int32) : Decidable (NoQuotient i1 i2) := inferInstanceAs (Decidable (_ ∧ _))

/-- `int` can be shifted by `i2`. -/
def Shifts (i2 : Int32) : Prop := 0 ≤ i2 ∧ i2 < 32

instance (i2 : Int32) : Decidable (Shifts i2) := inferInstanceAs (Decidable (_ ∧ _))

/-- The value that `op_2num` pushes, and whether the script ends there. -/
def op2num (op : Code) (i1 i2 : Int32) : Option (Int32 × Bool) :=
  match op with
  | .sub => some (i1 - i2, false)
  | .mul => if MulOverflow i1 i2 then some (2147483647, false) else some (i1 * i2, false)
  | .div =>
    if i2 = 0 then some (i1, true)
    else if NoQuotient i1 i2 then none else some (i1 / i2, false)
  | .mod =>
    if i2 = 0 then some (i1, true)
    else if NoQuotient i1 i2 then none else some (i1 % i2, false)
  | .and => some (i1 &&& i2, false)
  | .or => some (i1 ||| i2, false)
  | .xor => some (i1 ^^^ i2, false)
  | .land => some (truth (i1 ≠ 0 ∧ i2 ≠ 0), false)
  | .lor => some (truth (i1 ≠ 0 ∨ i2 ≠ 0), false)
  | .eq => some (truth (i1 = i2), false)
  | .ne => some (truth (i1 ≠ i2), false)
  | .gt => some (truth (i2 < i1), false)
  | .ge => some (truth (i2 ≤ i1), false)
  | .lt => some (truth (i1 < i2), false)
  | .le => some (truth (i1 ≤ i2), false)
  | .rShift => if Shifts i2 then some (i1 >>> i2, false) else none
  | .lShift => if Shifts i2 then some (i1 <<< i2, false) else none
  | _ => some (i1, false)

/-- `op_2` -/
def op2 (op : Code) (st : ScriptStack) : Option ScriptStack :=
  let r2 := st.popVal read
  let d2 := r2.2.stackData r2.2.sp
  let r1 := r2.2.popVal read
  let d1 := r1.2.stackData r1.2.sp
  if d1.isStr && d2.isStr then some (r1.2.pushVal (op2str op d1.chars d2.chars))
  else if !d1.isStr && !d2.isStr then
    (op2num op r1.1 r2.1).map fun (v, ended) =>
      ({ r1.2 with ended := r1.2.ended || ended }).pushVal v
  else some (r1.2.pushVal 0)

/-- What `run_script_main` does at an operator with two operands. -/
def runOperator (op : Code) (st : ScriptStack) : Option ScriptStack :=
  if op = .add then some (opAdd read st) else op2 read op st

end Operators

/-! ## Arithmetic -/

inductive Arithmetic
  | add | sub | mul | div | mod
deriving DecidableEq

namespace Arithmetic

def code : Arithmetic → Code
  | add => .add | sub => .sub | mul => .mul | div => .div | mod => .mod

/-- The exact result. A quotient is rounded towards zero. -/
def exact (op : Arithmetic) (a b : ℤ) : Option ℤ :=
  match op with
  | add => some (a + b)
  | sub => some (a - b)
  | mul => some (a * b)
  | div => if b = 0 then none else some (a.tdiv b)
  | mod => if b = 0 then none else some (a.tmod b)

/-- A number is an `int`. -/
def Fits (z : ℤ) : Prop := -2 ^ 31 ≤ z ∧ z < 2 ^ 31

/-- With the operands on the stack the operator is defined. It leaves one value instead of them, the
exact result if that fits, and another one only if it does not. -/
def Computes (op : Arithmetic) (i1 i2 : Int32) : Prop :=
  ∀ (read : ℤ → RegValue) (st : ScriptStack), 2 ≤ st.sp →
    st.stackData (st.sp - 2) = .int i1.toInt → st.stackData (st.sp - 1) = .int i2.toInt →
    ∃ st', runOperator read op.code st = some st' ∧ st'.sp = st.sp - 1 ∧
      ∀ z, op.exact i1.toInt i2.toInt = some z → Fits z →
        st'.stackData (st'.sp - 1) = .int z

/-- The factors for which the guards of the multiplication do not stand in the way. -/
def Guarded (a b : ℤ) : Prop :=
  (0 ≤ a ∧ 0 ≤ b) ∨ ¬ Fits (a * b) ∨ (a * b = 0 ∧ (a = -2 ^ 31 ∨ b = -2 ^ 31)) ∨
    (a < 0 ∧ b < 0 ∧ -a = (2 ^ 31 - 1) / -b ∧ -b = (2 ^ 31 - 1) / -a)

/-- The operands for which an operator is right. -/
def Domain (op : Arithmetic) (i1 i2 : Int32) : Prop :=
  match op with
  | add | sub => True
  | mul => Guarded i1.toInt i2.toInt
  | div | mod => ¬ NoQuotient i1 i2

section Factors

variable {a b : ℤ}

/-- The test of an overflow, on numbers. -/
def Exceeds (a b : ℤ) : Prop :=
  (b ≠ 0 ∧ (2 ^ 31 - 1) / b < a) ∨ (a ≠ 0 ∧ (2 ^ 31 - 1) / a < b)

theorem exceeds_comm : Exceeds a b ↔ Exceeds b a := or_comm

theorem guarded_comm : Guarded a b ↔ Guarded b a := by
  unfold Guarded
  rw [mul_comm b a]
  constructor
  · rintro (⟨h1, h2⟩ | h | ⟨h, h'⟩ | ⟨h1, h2, h3, h4⟩)
    · exact .inl ⟨h2, h1⟩
    · exact .inr (.inl h)
    · exact .inr (.inr (.inl ⟨h, h'.symm⟩))
    · exact .inr (.inr (.inr ⟨h2, h1, h4, h3⟩))
  · rintro (⟨h1, h2⟩ | h | ⟨h, h'⟩ | ⟨h1, h2, h3, h4⟩)
    · exact .inl ⟨h2, h1⟩
    · exact .inr (.inl h)
    · exact .inr (.inr (.inl ⟨h, h'.symm⟩))
    · exact .inr (.inr (.inr ⟨h2, h1, h4, h3⟩))

/-- Of factors that are not negative the test is right. -/
theorem lt_mul_of_exceeds (ha : 0 ≤ a) (hb : 0 ≤ b) (h : Exceeds a b) : 2 ^ 31 - 1 < a * b := by
  rcases h with ⟨hne, h⟩ | ⟨hne, h⟩
  · exact (Int.ediv_lt_iff_lt_mul (by omega)).mp h
  · rw [mul_comm]
    exact (Int.ediv_lt_iff_lt_mul (by omega)).mp h

theorem ediv_neg_neg (b : ℤ) : (2 ^ 31 - 1) / b = -((2 ^ 31 - 1) / -b) := by
  rw [Int.ediv_neg, neg_neg]

/-- A positive and a negative factor meet the test. -/
theorem exceeds_of_neg (ha : 0 < a) (hb : b < 0) : Exceeds a b := by
  have hpos : 0 ≤ (2 ^ 31 - 1) / -b := Int.ediv_nonneg (by decide) (by omega)
  have heq := ediv_neg_neg b
  exact .inl ⟨hb.ne, by omega⟩

theorem exceeds_zero_iff (hb : b < 0) (hle : -2 ^ 31 ≤ b) : Exceeds 0 b ↔ b ≠ -2 ^ 31 := by
  have heq := ediv_neg_neg b
  have hquot : 1 ≤ (2 ^ 31 - 1) / -b ↔ 1 * -b ≤ 2 ^ 31 - 1 := Int.le_ediv_iff_mul_le (by omega)
  constructor
  · rintro (⟨-, h⟩ | ⟨h, -⟩)
    · omega
    · exact absurd rfl h
  · intro h
    exact .inl ⟨hb.ne, by omega⟩

theorem exceeds_iff_of_neg (ha : a < 0) (hb : b < 0) :
    Exceeds a b ↔ -a < (2 ^ 31 - 1) / -b ∨ -b < (2 ^ 31 - 1) / -a := by
  have heq := ediv_neg_neg a
  have heq' := ediv_neg_neg b
  unfold Exceeds
  constructor
  · rintro (⟨-, h⟩ | ⟨-, h⟩)
    · exact .inl (by omega)
    · exact .inr (by omega)
  · rintro (h | h)
    · exact .inl ⟨hb.ne, by omega⟩
    · exact .inr ⟨ha.ne, by omega⟩

/-- Two positive numbers whose product fits are at most each other's quotients, and they are the
quotients if the product is the greatest number. -/
theorem le_quotient {x y : ℤ} (hy : 0 < y) (h : x * y ≤ 2 ^ 31 - 1) : x ≤ (2 ^ 31 - 1) / y :=
  (Int.le_ediv_iff_mul_le hy).mpr h

theorem eq_quotient {x y : ℤ} (hy : 0 < y) (h : x * y = 2 ^ 31 - 1) : x = (2 ^ 31 - 1) / y :=
  (Int.ediv_eq_of_eq_mul_left hy.ne' h.symm).symm

/-- Negative factors. -/
theorem guarded_iff_of_neg (ha : a < 0) (hb : b < 0) :
    (Fits (a * b) → Exceeds a b → a * b = 2 ^ 31 - 1) ↔ Guarded a b := by
  have hmul : -a * -b = a * b := neg_mul_neg a b
  have hpos : 0 < a * b := mul_pos_of_neg_of_neg ha hb
  have hother : Guarded a b ↔ ¬ Fits (a * b) ∨
      (-a = (2 ^ 31 - 1) / -b ∧ -b = (2 ^ 31 - 1) / -a) := by
    unfold Guarded
    constructor
    · rintro (⟨h, -⟩ | h | ⟨h, -⟩ | ⟨-, -, h⟩)
      · omega
      · exact .inl h
      · omega
      · exact .inr h
    · rintro (h | h)
      · exact .inr (.inl h)
      · exact .inr (.inr (.inr ⟨ha, hb, h⟩))
  rw [hother, exceeds_iff_of_neg ha hb]
  by_cases hfits : Fits (a * b)
  · have hle : a * b ≤ 2 ^ 31 - 1 := by
      have := hfits.2
      omega
    have h1 : -a ≤ (2 ^ 31 - 1) / -b := le_quotient (by omega) (hmul ▸ hle)
    have h2 : -b ≤ (2 ^ 31 - 1) / -a := le_quotient (by omega) (mul_comm (-a) (-b) ▸ hmul ▸ hle)
    constructor
    · intro h
      by_cases heq : a * b = 2 ^ 31 - 1
      · exact .inr ⟨eq_quotient (by omega) (hmul.trans heq),
          eq_quotient (by omega) ((mul_comm (-b) (-a)).trans (hmul.trans heq))⟩
      · have hnot := mt (h hfits) heq
        exact .inr (by omega)
    · rintro (h | ⟨h, h'⟩) - hexc
      · exact absurd hfits h
      · omega
  · exact iff_of_true (fun h => absurd h hfits) (.inl hfits)

/-- A factor that is not negative and one that is. -/
theorem guarded_iff_of_mixed (ha : 0 ≤ a) (hb : b < 0) (hle : -2 ^ 31 ≤ b) (ha' : a < 2 ^ 31) :
    (Fits (a * b) → Exceeds a b → a * b = 2 ^ 31 - 1) ↔ Guarded a b := by
  rcases ha.eq_or_lt with rfl | hpos
  · have hother : Guarded 0 b ↔ b = -2 ^ 31 := by
      unfold Guarded Fits
      rw [zero_mul]
      omega
    rw [hother, exceeds_zero_iff hb hle, zero_mul]
    constructor
    · intro h
      by_contra hne
      exact absurd (h ⟨by decide, by decide⟩ hne) (by decide)
    · exact fun h _ hne => absurd h hne
  · have hmul : a * b < 0 := mul_neg_of_pos_of_neg hpos hb
    have hother : Guarded a b ↔ ¬ Fits (a * b) := by
      unfold Guarded
      constructor
      · rintro (⟨-, h⟩ | h | ⟨h, -⟩ | ⟨h, -⟩)
        · omega
        · exact h
        · omega
        · omega
      · exact fun h => .inr (.inl h)
    rw [hother]
    constructor
    · intro h hfits
      have := h hfits (exceeds_of_neg hpos hb)
      omega
    · exact fun h hfits => absurd hfits h

/-- The test meets only products that do not fit, or it is one of the factors for which it does. -/
theorem guarded_iff (ha : Fits a) (hb : Fits b) :
    (Fits (a * b) → Exceeds a b → a * b = 2 ^ 31 - 1) ↔ Guarded a b := by
  rcases lt_or_ge a 0 with hneg | hnonneg <;> rcases lt_or_ge b 0 with hneg' | hnonneg'
  · exact guarded_iff_of_neg hneg hneg'
  · rw [mul_comm, exceeds_comm, guarded_comm]
    exact guarded_iff_of_mixed hnonneg' hneg ha.1 hb.2
  · exact guarded_iff_of_mixed hnonneg hneg' hb.1 ha.2
  · refine iff_of_true (fun hfits hexc => ?_) (.inl ⟨hnonneg, hnonneg'⟩)
    have := lt_mul_of_exceeds hnonneg hnonneg' hexc
    have := hfits.2
    omega

end Factors

/-! ## The operators -/

section Values

variable {i1 i2 : Int32}

theorem fits_toInt (i : Int32) : Fits i.toInt := ⟨i.le_toInt, i.toInt_lt⟩

theorem toInt_of_fits {z : ℤ} (h : Fits z) : z.bmod (2 ^ 32) = z :=
  Int.bmod_eq_of_le (by have := h.1; omega) (by have := h.2; omega)

/-- The quotient of the test. -/
theorem toInt_quotient (i : Int32) : (2147483647 / i : Int32).toInt = (2 ^ 31 - 1) / i.toInt := by
  have hle := Int.natAbs_ediv_le_natAbs (2 ^ 31 - 1) i.toInt
  have hfits : Fits ((2 ^ 31 - 1) / i.toInt) := by
    unfold Fits
    omega
  have hmax : (2147483647 : Int32).toInt = 2 ^ 31 - 1 := by decide
  rw [Int32.toInt_div, hmax, Int.tdiv_eq_ediv_of_nonneg (by decide)]
  exact toInt_of_fits hfits

theorem ne_zero_iff_toInt (i : Int32) : i ≠ 0 ↔ i.toInt ≠ 0 := by
  rw [Ne, ← Int32.toInt_inj]
  rfl

theorem mulOverflow_iff : MulOverflow i1 i2 ↔ Exceeds i1.toInt i2.toInt := by
  unfold MulOverflow Exceeds
  rw [Int32.lt_iff_toInt_lt, Int32.lt_iff_toInt_lt, toInt_quotient, toInt_quotient,
    ne_zero_iff_toInt, ne_zero_iff_toInt]

end Values

section Stack

variable {read : ℤ → RegValue} {st : ScriptStack} {i1 i2 : Int32} {op : Arithmetic}

theorem popVal_int {i : Int32} (hsp : 0 < st.sp) (h : st.stackData (st.sp - 1) = .int i.toInt) :
    st.popVal read = (i, { st with sp := st.sp - 1 }) := by
  unfold ScriptStack.popVal
  rw [if_neg (not_le.mpr hsp), h]
  have hdata : Function.update st.stackData (st.sp - 1) (.int i.toInt) = st.stackData :=
    h ▸ Function.update_eq_self _ _
  simp only [ScriptData.getVal, Int32.ofInt_toInt, hdata]

/-- The two values at the top are replaced by one. -/
def replaceTop (st : ScriptStack) (r : Int32 × Bool) : ScriptStack :=
  { stackData := Function.update st.stackData (st.sp - 2) (.int r.1.toInt)
    sp := st.sp - 1
    ended := st.ended || r.2 }

theorem replaceTop_top (st : ScriptStack) (r : Int32 × Bool) :
    (replaceTop st r).stackData ((replaceTop st r).sp - 1) = .int r.1.toInt := by
  unfold replaceTop
  dsimp only
  rw [show st.sp - 1 - 1 = st.sp - 2 by omega, Function.update_self]

/-- With two numbers on the stack `op_2` takes them and pushes what `op_2num` says. -/
theorem op2_ints (code : Code) (hsp : 2 ≤ st.sp) (h1 : st.stackData (st.sp - 2) = .int i1.toInt)
    (h2 : st.stackData (st.sp - 1) = .int i2.toInt) :
    op2 read code st = (op2num code i1 i2).map (replaceTop st) := by
  have hpop2 : st.popVal read = (i2, { st with sp := st.sp - 1 }) := popVal_int (by omega) h2
  have hpop1 : ({ st with sp := st.sp - 1 } : ScriptStack).popVal read =
      (i1, { st with sp := st.sp - 2 }) := by
    rw [popVal_int (i := i1) (by dsimp only; omega) ?_]
    · dsimp only
      rw [show st.sp - 1 - 1 = st.sp - 2 by omega]
    · dsimp only
      rw [show st.sp - 1 - 1 = st.sp - 2 by omega, h1]
  unfold op2
  simp only [hpop2, hpop1, h1, h2, ScriptData.isStr, Bool.and_self, Bool.not_false, if_true,
    Bool.false_eq_true, if_false]
  unfold ScriptStack.pushVal replaceTop
  dsimp only
  rw [show st.sp - 2 + 1 = st.sp - 1 by omega]

theorem opAdd_ints (h1 : st.stackData (st.sp - 2) = .int i1.toInt)
    (h2 : st.stackData (st.sp - 1) = .int i2.toInt) :
    (opAdd read st).stackData ((opAdd read st).sp - 1) = .int (i1.toInt + i2.toInt) := by
  unfold opAdd
  dsimp only
  rw [Function.update_self, show st.sp - 1 - 1 = st.sp - 2 by omega, h1, h2]
  rfl

/-- Two operands on an empty stack. -/
def operands (i1 i2 : Int32) : ScriptStack :=
  { stackData := fun k => if k = 0 then .int i1.toInt else .int i2.toInt, sp := 2 }

/-- What the operators but `+` compute is what `op_2num` does. -/
theorem computes_iff_op2num (hop : op ≠ .add) : op.Computes i1 i2 ↔
    ∃ r, op2num op.code i1 i2 = some r ∧
      ∀ z, op.exact i1.toInt i2.toInt = some z → Fits z → r.1.toInt = z := by
  have hrun (read : ℤ → RegValue) (st : ScriptStack) :
      runOperator read op.code st = op2 read op.code st := by
    refine if_neg ?_
    cases op with
    | add => exact absurd rfl hop
    | _ => decide
  constructor
  · intro h
    obtain ⟨st', hst', hsp, hexact⟩ := h (fun _ => .int 0) (operands i1 i2) le_rfl rfl rfl
    have h1 : (operands i1 i2).stackData 0 = .int i1.toInt := rfl
    have h2 : (operands i1 i2).stackData 1 = .int i2.toInt := rfl
    rw [hrun, op2_ints op.code le_rfl h1 h2] at hst'
    obtain ⟨r, hr, rfl⟩ := Option.map_eq_some_iff.mp hst'
    refine ⟨r, hr, fun z hz hfits => ?_⟩
    have hdata := hexact z hz hfits
    rw [replaceTop_top] at hdata
    exact ScriptData.int.inj hdata
  · rintro ⟨r, hr, hexact⟩ read st hsp h1 h2
    refine ⟨replaceTop st r, ?_, rfl, fun z hz hfits => ?_⟩
    · rw [hrun, op2_ints op.code hsp h1 h2, hr, Option.map_some]
    · rw [replaceTop_top, hexact z hz hfits]

end Stack

/-- What holds of `/` holds of `%`: there is no exact result without a divisor, and what C does not
define is not run. -/
theorem quotient_iff {i1 i2 : Int32} {f : Int32 → Int32 → Int32} {g : ℤ → ℤ → ℤ}
    (hf : ∀ z, Fits z → g i1.toInt i2.toInt = z → (f i1 i2).toInt = z) :
    (∃ r, (if i2 = 0 then some (i1, true)
      else if NoQuotient i1 i2 then none else some (f i1 i2, false)) = some r ∧
      ∀ z, (if i2.toInt = 0 then none else some (g i1.toInt i2.toInt)) = some z → Fits z →
        r.1.toInt = z) ↔ ¬ NoQuotient i1 i2 := by
  by_cases hzero : i2 = 0
  · subst hzero
    refine iff_of_true ⟨_, if_pos rfl, fun z hz => ?_⟩ fun h => absurd h.2 (by decide)
    cases hz
  · have hzero' : i2.toInt ≠ 0 := (ne_zero_iff_toInt i2).mp hzero
    rw [if_neg hzero]
    by_cases hundefined : NoQuotient i1 i2
    · rw [if_pos hundefined]
      exact iff_of_false (fun ⟨_, h, _⟩ => nomatch h) fun h => h hundefined
    · rw [if_neg hundefined]
      refine iff_of_true ⟨_, rfl, fun z hz hfits => ?_⟩ hundefined
      rw [if_neg hzero'] at hz
      exact hf z hfits (Option.some.inj hz)

/-- **An arithmetic operator is right** on the operands of its domain and on no others. -/
theorem computes_iff (op : Arithmetic) (i1 i2 : Int32) : op.Computes i1 i2 ↔ op.Domain i1 i2 := by
  cases op with
  | add =>
    refine iff_of_true (fun read st hsp h1 h2 => ?_) trivial
    refine ⟨opAdd read st, rfl, rfl, fun z hz _ => ?_⟩
    obtain rfl := Option.some.inj hz
    exact opAdd_ints h1 h2
  | sub =>
    rw [computes_iff_op2num (by decide)]
    refine iff_of_true ⟨_, rfl, fun z hz hfits => ?_⟩ trivial
    obtain rfl := Option.some.inj hz
    exact (Int32.toInt_sub ..).trans (toInt_of_fits hfits)
  | mul =>
    rw [computes_iff_op2num (by decide)]
    change _ ↔ Guarded _ _
    rw [← guarded_iff (fits_toInt i1) (fits_toInt i2), ← mulOverflow_iff]
    unfold code op2num
    by_cases hover : MulOverflow i1 i2
    · rw [if_pos hover]
      constructor
      · rintro ⟨r, hr, hexact⟩ hfits -
        obtain rfl := Option.some.inj hr
        exact (hexact _ rfl hfits).symm
      · intro h
        refine ⟨_, rfl, fun z hz hfits => ?_⟩
        obtain rfl := Option.some.inj hz
        exact (h hfits hover).symm
    · rw [if_neg hover]
      refine iff_of_true ⟨_, rfl, fun z hz hfits => ?_⟩ fun _ h => absurd h hover
      obtain rfl := Option.some.inj hz
      exact (Int32.toInt_mul ..).trans (toInt_of_fits hfits)
  | div =>
    rw [computes_iff_op2num (by decide)]
    refine quotient_iff fun z hfits hz => ?_
    rw [Int32.toInt_div, hz]
    exact toInt_of_fits hfits
  | mod =>
    rw [computes_iff_op2num (by decide)]
    exact quotient_iff fun z _ hz => (Int32.toInt_mod ..).trans hz

/-- `5 * -1` is the greatest number, since it is greater than `2147483647 / -1`. -/
theorem mul_not_computes : ¬ Arithmetic.mul.Computes 5 (-1) := by
  intro h
  obtain ⟨r, hr, hexact⟩ := (computes_iff_op2num (by decide)).mp h
  have hr' : r = (2147483647, false) := Option.some.inj (hr.symm.trans (by decide))
  have hval := hexact (-5) (by decide) ⟨by decide, by decide⟩
  rw [hr'] at hval
  exact absurd hval (by decide)

end Arithmetic

end Nezumi
