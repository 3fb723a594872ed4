import Mathlib.Algebra.Order.Ring.Nat
import Mathlib.Data.List.TakeWhile
import Mathlib.Tactic.Common

/-!
# Byte buffers and C strings

A buffer is a function from offsets to bytes. Words are stored with the low byte first, strings in
fields of fixed width that are filled up with zeros.

* `leVal_leBytes`: a stored word reads back, modulo its width.
* `read_write`/`read_write_of_disjoint`: what a read finds after a write.
* `move`, `realloc`: `memmove` and `realloc`. `read_write_end`, `read_move` and `read_realloc` say
  what a queue of bytes in a buffer is after each.
* `CStr n`: a C string of at most `n` bytes. `CStr.ofField_pad`: a stored string reads back.
-/

namespace Bytes

/-- The low `n` bytes of a word, low byte first. -/
def leBytes : ℕ → ℕ → List UInt8
  | 0, _ => []
  | n + 1, v => UInt8.ofNat v :: leBytes n (v / 256)

/-- The word of some bytes, low byte first. -/
def leVal : List UInt8 → ℕ
  | [] => 0
  | b :: bs => b.toNat + 256 * leVal bs

@[simp] theorem length_leBytes (n v : ℕ) : (leBytes n v).length = n := by
  induction n generalizing v with
  | zero => rfl
  | succ n ih => simp [leBytes, ih]

theorem leVal_leBytes (n v : ℕ) : leVal (leBytes n v) = v % 256 ^ n := by
  induction n generalizing v with
  | zero => simp [leBytes, leVal, Nat.mod_one]
  | succ n ih =>
    have hb : (UInt8.ofNat v).toNat = v % 256 := by simp
    rw [leBytes, leVal, ih, hb, pow_succ', Nat.mod_mul]

theorem leVal_leBytes_toNat {n : ℕ} (v : BitVec (8 * n)) : leVal (leBytes n v.toNat) = v.toNat := by
  have hv := v.isLt
  rw [leVal_leBytes, Nat.mod_eq_of_lt]
  calc v.toNat < 2 ^ (8 * n) := hv
    _ = 256 ^ n := by rw [pow_mul]; rfl

abbrev Buf := ℕ → UInt8

/-- The `n` bytes from an offset on. -/
def read (b : Buf) (off n : ℕ) : List UInt8 := (List.range n).map fun i => b (off + i)

/-- The bytes `bs` stored from an offset on. -/
def write (b : Buf) (off : ℕ) (bs : List UInt8) : Buf := fun p =>
  if off ≤ p then bs[p - off]?.getD (b p) else b p

@[simp] theorem length_read (b : Buf) (off n : ℕ) : (read b off n).length = n := by simp [read]

theorem read_congr {b b' : Buf} {off n : ℕ} (h : ∀ p, off ≤ p → p < off + n → b p = b' p) :
    read b off n = read b' off n := by
  unfold read
  apply List.map_congr_left
  intro i hi
  rw [List.mem_range] at hi
  exact h _ (by omega) (by omega)

theorem write_of_lt {b : Buf} {off p : ℕ} {bs : List UInt8} (h : p < off) :
    write b off bs p = b p := by
  unfold write
  rw [if_neg (by omega)]

theorem write_of_ge {b : Buf} {off p : ℕ} {bs : List UInt8} (h : off + bs.length ≤ p) :
    write b off bs p = b p := by
  unfold write
  rw [if_pos (by omega), List.getElem?_eq_none (by omega)]
  rfl

theorem read_write (b : Buf) (off : ℕ) (bs : List UInt8) :
    read (write b off bs) off bs.length = bs := by
  apply List.ext_getElem (by simp)
  intro i h₁ h₂
  simp only [read, List.getElem_map, List.getElem_range, write]
  rw [if_pos (by omega), Nat.add_sub_cancel_left, List.getElem?_eq_getElem h₂]
  rfl

/-- A field of width `n` reads back. -/
theorem read_write_of_length {b : Buf} {off n : ℕ} {bs : List UInt8} (h : bs.length = n) :
    read (write b off bs) off n = bs := by
  subst h
  exact read_write b off bs

/-- A write leaves the bytes before and behind it. -/
theorem read_write_of_disjoint {b : Buf} {off n w : ℕ} {bs : List UInt8}
    (h : off + n ≤ w ∨ w + bs.length ≤ off) : read (write b w bs) off n = read b off n := by
  apply read_congr
  intro p hp hpn
  rcases h with h | h
  · exact write_of_lt (by omega)
  · exact write_of_ge (by omega)

/-- Two reads, one behind the other. -/
theorem read_add (b : Buf) (off n m : ℕ) : read b off (n + m) = read b off n ++ read b (off + n) m := by
  simp [read, List.range_add, add_assoc]

/-- A write at the end of a queue of `n` bytes appends. -/
theorem read_write_end (b : Buf) (n : ℕ) (bs : List UInt8) :
    read (write b n bs) 0 (n + bs.length) = read b 0 n ++ bs := by
  rw [read_add, read_write_of_disjoint (.inl (by omega)), zero_add, read_write]

/-- `memmove` of `n` bytes from `src` to `dst`. -/
def move (b : Buf) (dst src n : ℕ) : Buf := write b dst (read b src n)

theorem read_move (b : Buf) (dst src n : ℕ) : read (move b dst src n) dst n = read b src n :=
  read_write_of_length (length_read b src n)

/-- `realloc`: the first `n` bytes stay, behind them are others. -/
def realloc (b fresh : Buf) (n : ℕ) : Buf := fun p => if p < n then b p else fresh p

theorem read_realloc {b fresh : Buf} {n off m : ℕ} (h : off + m ≤ n) :
    read (realloc b fresh n) off m = read b off m := by
  apply read_congr
  intro p _ hp
  unfold realloc
  rw [if_pos (by omega)]

/-- The first `n` bytes of a read. -/
theorem take_read (b : Buf) (off n m : ℕ) : (read b off m).take n = read b off (min n m) := by
  simp [read, ← List.map_take, List.take_range]

end Bytes

/-- A C string in a field of `n` bytes and a terminating zero. -/
structure CStr (n : ℕ) where
  bytes : List UInt8
  le : bytes.length ≤ n
  ne : ∀ c ∈ bytes, c ≠ 0
  deriving DecidableEq

namespace CStr

variable {n : ℕ}

@[ext] theorem ext {s t : CStr n} (h : s.bytes = t.bytes) : s = t := by
  cases s
  cases t
  simpa using h

def empty : CStr n := ⟨[], by simp, by simp⟩

instance : Inhabited (CStr n) := ⟨empty⟩

/-- The string that ends at the first zero of some bytes, cut to `n` bytes (`strncpy`). -/
def ofField (n : ℕ) (bs : List UInt8) : CStr n where
  bytes := (bs.take n).takeWhile (· ≠ 0)
  le := le_trans (List.takeWhile_sublist _).length_le (by simp)
  ne c hc := by simpa using List.mem_takeWhile_imp hc

/-- The field of a string, filled up with zeros. -/
def pad (s : CStr n) : List UInt8 := s.bytes ++ List.replicate (n - s.bytes.length) 0

@[simp] theorem length_pad (s : CStr n) : s.pad.length = n := by
  have := s.le
  simp only [pad, List.length_append, List.length_replicate]
  omega

@[simp] theorem bytes_ofField (n : ℕ) (bs : List UInt8) :
    (ofField n bs).bytes = (bs.take n).takeWhile (· ≠ 0) := rfl

theorem ofField_pad (s : CStr n) : ofField n s.pad = s := by
  have hne : ∀ c ∈ s.bytes, (decide (c ≠ 0)) = true := fun c hc => by simpa using s.ne c hc
  ext1
  rw [bytes_ofField, List.take_of_length_le (by simp), pad, List.takeWhile_append_of_pos hne]
  cases n - s.bytes.length <;> simp [List.replicate_succ]

theorem ofField_bytes {m : ℕ} (s : CStr m) (h : m ≤ n) : (ofField n s.bytes).bytes = s.bytes := by
  rw [bytes_ofField, List.take_of_length_le (le_trans s.le h), List.takeWhile_eq_self_iff]
  intro c hc
  simpa using s.ne c hc

@[simp] theorem ofField_self (s : CStr n) : ofField n s.bytes = s := ext (ofField_bytes s le_rfl)

end CStr
