import Nezumi.Lib.BitBlock
import Nezumi.Lib.Bytes
import Nezumi.Lib.Sizes

/-!
# The cipher of a GRF archive (`map/grfio.c`)

The data of a file are blocks of eight bytes. Some are encrypted, by one round between a permutation
of their bits and the inverse one; of the others every eighth may be shuffled.

* `bitConvert` and `bitConvert4` are `BitConvert` and `BitConvert4`, `decodeBlock` is the step that
  `decode_des_etc` and `decode_filename` make of them. A `DWORD` has four bytes.
* `decodeDesEtc` is `decode_des_etc`, which works on whole blocks in place. The buffer has 1024 bytes
  more than the length says, so that the length is far from the end of an `int`.
* `decodeBlock_decodeBlock`: the step undoes itself.
* `decodeDesEtc_eq`: each block is mapped by itself, and by which map does not depend on the data.
* `decodeDesEtc_tells`: what becomes of the bytes within the length alone tells them, unless
  the length ends within a block that is shuffled.
-/

namespace Nezumi

open BitBlock Bytes

/-! ## The step -/

def bitSwapTable1 : List ℕ :=
  [58, 50, 42, 34, 26, 18, 10, 2, 60, 52, 44, 36, 28, 20, 12, 4,
    62, 54, 46, 38, 30, 22, 14, 6, 64, 56, 48, 40, 32, 24, 16, 8,
    57, 49, 41, 33, 25, 17, 9, 1, 59, 51, 43, 35, 27, 19, 11, 3,
    61, 53, 45, 37, 29, 21, 13, 5, 63, 55, 47, 39, 31, 23, 15, 7]

def bitSwapTable2 : List ℕ :=
  [40, 8, 48, 16, 56, 24, 64, 32, 39, 7, 47, 15, 55, 23, 63, 31,
    38, 6, 46, 14, 54, 22, 62, 30, 37, 5, 45, 13, 53, 21, 61, 29,
    36, 4, 44, 12, 52, 20, 60, 28, 35, 3, 43, 11, 51, 19, 59, 27,
    34, 2, 42, 10, 50, 18, 58, 26, 33, 1, 41, 9, 49, 17, 57, 25]

def bitSwapTable3 : List ℕ :=
  [16, 7, 20, 21, 29, 12, 28, 17, 1, 15, 23, 26, 5, 18, 31, 10,
    2, 8, 24, 14, 32, 27, 3, 9, 19, 13, 30, 6, 22, 11, 4, 25]

def nibbleData : List (List UInt8) :=
  [[0xef, 0x03, 0x41, 0xfd, 0xd8, 0x74, 0x1e, 0x47, 0x26, 0xef, 0xfb, 0x22, 0xb3, 0xd8, 0x84, 0x1e,
    0x39, 0xac, 0xa7, 0x60, 0x62, 0xc1, 0xcd, 0xba, 0x5c, 0x96, 0x90, 0x59, 0x05, 0x3b, 0x7a, 0x85,
    0x40, 0xfd, 0x1e, 0xc8, 0xe7, 0x8a, 0x8b, 0x21, 0xda, 0x43, 0x64, 0x9f, 0x2d, 0x14, 0xb1, 0x72,
    0xf5, 0x5b, 0xc8, 0xb6, 0x9c, 0x37, 0x76, 0xec, 0x39, 0xa0, 0xa3, 0x05, 0x52, 0x6e, 0x0f, 0xd9],
   [0xa7, 0xdd, 0x0d, 0x78, 0x9e, 0x0b, 0xe3, 0x95, 0x60, 0x36, 0x36, 0x4f, 0xf9, 0x60, 0x5a, 0xa3,
    0x11, 0x24, 0xd2, 0x87, 0xc8, 0x52, 0x75, 0xec, 0xbb, 0xc1, 0x4c, 0xba, 0x24, 0xfe, 0x8f, 0x19,
    0xda, 0x13, 0x66, 0xaf, 0x49, 0xd0, 0x90, 0x06, 0x8c, 0x6a, 0xfb, 0x91, 0x37, 0x8d, 0x0d, 0x78,
    0xbf, 0x49, 0x11, 0xf4, 0x23, 0xe5, 0xce, 0x3b, 0x55, 0xbc, 0xa2, 0x57, 0xe8, 0x22, 0x74, 0xce],
   [0x2c, 0xea, 0xc1, 0xbf, 0x4a, 0x24, 0x1f, 0xc2, 0x79, 0x47, 0xa2, 0x7c, 0xb6, 0xd9, 0x68, 0x15,
    0x80, 0x56, 0x5d, 0x01, 0x33, 0xfd, 0xf4, 0xae, 0xde, 0x30, 0x07, 0x9b, 0xe5, 0x83, 0x9b, 0x68,
    0x49, 0xb4, 0x2e, 0x83, 0x1f, 0xc2, 0xb5, 0x7c, 0xa2, 0x19, 0xd8, 0xe5, 0x7c, 0x2f, 0x83, 0xda,
    0xf7, 0x6b, 0x90, 0xfe, 0xc4, 0x01, 0x5a, 0x97, 0x61, 0xa6, 0x3d, 0x40, 0x0b, 0x58, 0xe6, 0x3d],
   [0x4d, 0xd1, 0xb2, 0x0f, 0x28, 0xbd, 0xe4, 0x78, 0xf6, 0x4a, 0x0f, 0x93, 0x8b, 0x17, 0xd1, 0xa4,
    0x3a, 0xec, 0xc9, 0x35, 0x93, 0x56, 0x7e, 0xcb, 0x55, 0x20, 0xa0, 0xfe, 0x6c, 0x89, 0x17, 0x62,
    0x17, 0x62, 0x4b, 0xb1, 0xb4, 0xde, 0xd1, 0x87, 0xc9, 0x14, 0x3c, 0x4a, 0x7e, 0xa8, 0xe2, 0x7d,
    0xa0, 0x9f, 0xf6, 0x5c, 0x6a, 0x09, 0x8d, 0xf0, 0x0f, 0xe3, 0x53, 0x25, 0x95, 0x36, 0x28, 0xcb]]

/-- The places that the loops go over, in their order. -/
def places (n : ℕ) : List (Place n) := (List.finRange n).flatMap fun k =>
  (List.finRange 8).map fun b => (k, b)

/-- The place that `prm` is, for the entry of a table at a place. -/
def prm {n : ℕ} [NeZero n] (table : List ℕ) (p : Place n) : Place n :=
  let prm := table.getD (8 * p.1 + p.2) 0 - 1
  (Fin.ofNat n (prm / 8), Fin.ofNat 8 prm)

/-- `BitConvert` -/
def bitConvert (table : List ℕ) (src : Block 8) : Block 8 := permute (places 8) (prm table) src

/-- `tmp` at the start of `BitConvert4`: eight times six bits. -/
def sixBits (src : Block 8) : Block 8 :=
  ![((src 7 <<< 5) ||| (src 4 >>> 3)) &&& 0x3f, ((src 4 <<< 1) ||| (src 5 >>> 7)) &&& 0x3f,
    ((src 4 <<< 5) ||| (src 5 >>> 3)) &&& 0x3f, ((src 5 <<< 1) ||| (src 6 >>> 7)) &&& 0x3f,
    ((src 5 <<< 5) ||| (src 6 >>> 3)) &&& 0x3f, ((src 6 <<< 1) ||| (src 7 >>> 7)) &&& 0x3f,
    ((src 6 <<< 5) ||| (src 7 >>> 3)) &&& 0x3f, ((src 7 <<< 1) ||| (src 4 >>> 7)) &&& 0x3f]

def nibble (lop : ℕ) (i : UInt8) : UInt8 := (nibbleData.getD lop []).getD i.toNat 0

/-- The first four bytes of `tmp` after its boxes. -/
def boxes (tmp : Block 8) : Block 4 := fun lop =>
  (nibble lop (tmp (Fin.ofNat 8 (2 * lop))) &&& 0xf0) |||
    (nibble lop (tmp (Fin.ofNat 8 (2 * lop + 1))) &&& 0x0f)

/-- What `BitConvert4` adds to the first half of a block. -/
def roundSum (src : Block 8) : Block 4 :=
  permute (places 4) (prm bitSwapTable3) (boxes (sixBits src))

/-- `BitConvert4` -/
def bitConvert4 (src : Block 8) : Block 8 := fun k =>
  if h : k.val < 4 then src k ^^^ roundSum src ⟨k, h⟩ else src k

/-- The block cipher step. -/
def decodeBlock (buf : Block 8) : Block 8 :=
  bitConvert bitSwapTable2 (bitConvert4 (bitConvert bitSwapTable1 buf))

/-! ## The buffer -/

/-- What becomes of the last byte of a block that is shuffled. -/
def swapByte (a : UInt8) : UInt8 :=
  if a = 0x00 then 0x2b
  else if a = 0x2b then 0x00
  else if a = 0x01 then 0x68
  else if a = 0x68 then 0x01
  else if a = 0x48 then 0x77
  else if a = 0x77 then 0x48
  else if a = 0x60 then 0xff
  else if a = 0xff then 0x60
  else if a = 0x6c then 0x80
  else if a = 0x80 then 0x6c
  else if a = 0xb9 then 0xc0
  else if a = 0xc0 then 0xb9
  else if a = 0xeb then 0xfe
  else if a = 0xfe then 0xeb
  else a

def shuffle (tmp : Block 8) : Block 8 :=
  ![tmp 3, tmp 4, tmp 6, tmp 0, tmp 1, tmp 2, tmp 5, swapByte (tmp 7)]

/-- `cycle` as the loop uses it. -/
def cycleOf (cycle : Int32) : Int32 :=
  if cycle < 3 then 3
  else if cycle < 5 then cycle + 1
  else if cycle < 7 then cycle + 9
  else cycle + 15

/-- `buf` at a round of the loop. -/
def blockAt (buf : Buf) (lop : ℕ) : Block 8 := fun k => buf (8 * lop + k)

def writeBlock (buf : Buf) (lop : ℕ) (b : Block 8) : Buf := fun p =>
  if p / 8 = lop then b (Fin.ofNat 8 p) else buf p

/-- A block that is encrypted. -/
def Des (type cycle : Int32) (lop : ℕ) : Prop :=
  lop < 20 ∨ (type = 0 ∧ (lop : ℤ).tmod (cycleOf cycle).toInt = 0)

instance (type cycle : Int32) (lop : ℕ) : Decidable (Des type cycle lop) :=
  inferInstanceAs (Decidable (_ ∨ _))

/-- A round of the loop, which has counted `cnt` blocks. -/
def decodeRound (type cycle : Int32) (s : ℕ × Buf) (lop : ℕ) : ℕ × Buf :=
  if Des type cycle lop then (s.1, writeBlock s.2 lop (decodeBlock (blockAt s.2 lop)))
  else if s.1 = 7 ∧ type = 0 then (0 + 1, writeBlock s.2 lop (shuffle (blockAt s.2 lop)))
  else (s.1 + 1, s.2)

/-- `decode_des_etc`, which goes on while `lop * 8 < len`. -/
def decodeDesEtc (buf : Buf) (len : ℕ) (type cycle : Int32) : Buf :=
  ((List.range ((len + 7) / 8)).foldl (decodeRound type cycle) (0, buf)).2

/-! ## Halves of a block -/

section Step

variable {n : ℕ} {x y : Block 8} {p : Place 8} {k : Fin 8}

theorem mem_places (p : Place n) : p ∈ places n := by
  obtain ⟨k, b⟩ := p
  unfold places
  rw [List.mem_flatMap]
  exact ⟨k, List.mem_finRange k, List.mem_map.mpr ⟨b, List.mem_finRange b, rfl⟩⟩

theorem prm_one_two (p : Place 8) : prm bitSwapTable1 (prm bitSwapTable2 p) = p := by
  obtain ⟨k, b⟩ := p
  revert k b
  decide

theorem prm_two_one (p : Place 8) : prm bitSwapTable2 (prm bitSwapTable1 p) = p := by
  obtain ⟨k, b⟩ := p
  revert k b
  decide

theorem bit_bitConvert (table : List ℕ) (x : Block 8) (p : Place 8) :
    bit (bitConvert table x) p = bit x (prm table p) := bit_permute (mem_places p)

/-- The two permutations undo each other. -/
theorem bitConvert_one_two (x : Block 8) :
    bitConvert bitSwapTable1 (bitConvert bitSwapTable2 x) = x :=
  permute_permute mem_places mem_places prm_two_one x

theorem bitConvert_two_one (x : Block 8) :
    bitConvert bitSwapTable2 (bitConvert bitSwapTable1 x) = x :=
  permute_permute mem_places mem_places prm_one_two x

/-- The sum depends on the second half of the block only. -/
theorem roundSum_congr (h : ∀ k : Fin 8, 4 ≤ k.val → x k = y k) : roundSum x = roundSum y := by
  unfold roundSum sixBits
  rw [h 4 (by decide), h 5 (by decide), h 6 (by decide), h 7 (by decide)]

theorem bitConvert4_of_ge (h : 4 ≤ k.val) : bitConvert4 x k = x k := dif_neg (by omega)

theorem bitConvert4_of_lt (h : k.val < 4) : bitConvert4 x k = x k ^^^ roundSum x ⟨k, h⟩ := dif_pos h

/-- The round undoes itself, since the sum stays. -/
theorem bitConvert4_bitConvert4 (x : Block 8) : bitConvert4 (bitConvert4 x) = x := by
  have hsum : roundSum (bitConvert4 x) = roundSum x :=
    roundSum_congr fun k hk => bitConvert4_of_ge hk
  funext k
  rcases lt_or_ge k.val 4 with hk | hk
  · rw [bitConvert4_of_lt hk, hsum, bitConvert4_of_lt hk, UInt8.xor_assoc, UInt8.xor_self,
      UInt8.xor_zero]
  · rw [bitConvert4_of_ge hk, bitConvert4_of_ge hk]

/-- **The step undoes itself.** -/
theorem decodeBlock_decodeBlock (x : Block 8) : decodeBlock (decodeBlock x) = x := by
  unfold decodeBlock
  rw [bitConvert_one_two, bitConvert4_bitConvert4, bitConvert_two_one]

theorem decodeBlock_injective : Function.Injective decodeBlock :=
  Function.Involutive.injective decodeBlock_decodeBlock

/-- The bits that the round does not change. -/
theorem bit_decodeBlock_of_ge (h : 4 ≤ (prm bitSwapTable2 p).1.val) :
    bit (decodeBlock x) p = bit x p := by
  unfold decodeBlock
  rw [bit_bitConvert]
  have hround := bitConvert4_of_ge (x := bitConvert bitSwapTable1 x) h
  rw [← Prod.mk.eta (p := prm bitSwapTable2 p), bit_congr hround, Prod.mk.eta, bit_bitConvert,
    prm_one_two]

/-- The bits that it changes. -/
theorem bit_decodeBlock_of_lt (h : (prm bitSwapTable2 p).1.val < 4) :
    bit (decodeBlock x) p = (bit x p ^^
      bit (roundSum (bitConvert bitSwapTable1 x)) (⟨_, h⟩, (prm bitSwapTable2 p).2)) := by
  have hself : bit (bitConvert bitSwapTable1 x) (prm bitSwapTable2 p) = bit x p := by
    rw [bit_bitConvert, prm_one_two]
  unfold decodeBlock
  rw [bit_bitConvert, ← hself]
  simp only [bit_eq_getLsbD, bitConvert4_of_lt h, UInt8.toBitVec_xor, BitVec.getLsbD_xor]

/-- **The step on the front of a block** tells that front, if what is behind it is known. -/
theorem eq_of_decodeBlock_front {r : ℕ} (hback : ∀ k : Fin 8, r ≤ k.val → x k = y k)
    (hfront : ∀ k : Fin 8, k.val < r → decodeBlock x k = decodeBlock y k) : x = y := by
  -- the bits that the round leaves as they are
  have hkept (p : Place 8) (hp : 4 ≤ (prm bitSwapTable2 p).1.val) : bit x p = bit y p := by
    rcases lt_or_ge p.1.val r with hr | hr
    · have h := bit_congr (hfront p.1 hr) p.2
      rwa [bit_decodeBlock_of_ge hp, bit_decodeBlock_of_ge hp] at h
    · exact bit_congr (hback p.1 hr) p.2
  have hsum : roundSum (bitConvert bitSwapTable1 x) = roundSum (bitConvert bitSwapTable1 y) := by
    refine roundSum_congr fun k hk => byte_ext fun b => ?_
    rw [bit_bitConvert, bit_bitConvert]
    apply hkept
    rw [prm_two_one]
    exact hk
  apply ext_bit
  intro p
  rcases lt_or_ge (prm bitSwapTable2 p).1.val 4 with hp | hp
  · rcases lt_or_ge p.1.val r with hr | hr
    · have h := bit_congr (hfront p.1 hr) p.2
      rw [bit_decodeBlock_of_lt hp, bit_decodeBlock_of_lt hp, hsum] at h
      simpa using h
    · exact bit_congr (hback p.1 hr) p.2
  · exact hkept p hp

end Step

/-! ## The schedule -/

section Schedule

variable {type cycle : Int32} {buf buf' : Buf} {len lop n p : ℕ} {b x y : Block 8} {k : Fin 8}

/-- `cnt` at a round. -/
def cntAt (type cycle : Int32) : ℕ → ℕ
  | 0 => 0
  | lop + 1 =>
    if Des type cycle lop then cntAt type cycle lop
    else if cntAt type cycle lop = 7 ∧ type = 0 then 1
    else cntAt type cycle lop + 1

/-- A block that is shuffled. -/
def Shuffled (type cycle : Int32) (lop : ℕ) : Prop :=
  ¬Des type cycle lop ∧ cntAt type cycle lop = 7 ∧ type = 0

instance (type cycle : Int32) (lop : ℕ) : Decidable (Shuffled type cycle lop) :=
  inferInstanceAs (Decidable (_ ∧ _))

/-- What a round does with its block. -/
def blockMap (type cycle : Int32) (lop : ℕ) : Block 8 → Block 8 :=
  if Des type cycle lop then decodeBlock else if Shuffled type cycle lop then shuffle else id

theorem ofNat_mod_eight (p : ℕ) (h : p / 8 = lop) : 8 * lop + (Fin.ofNat 8 p).val = p := by
  show 8 * lop + p % 8 = p
  omega

theorem writeBlock_self : writeBlock buf lop (blockAt buf lop) = buf := by
  funext p
  unfold writeBlock blockAt
  split
  · rename_i h
    rw [ofNat_mod_eight p h]
  · rfl

theorem blockAt_congr (h : ∀ p, p / 8 = lop → buf p = buf' p) :
    blockAt buf lop = blockAt buf' lop := by
  funext k
  have hk := k.isLt
  exact h _ (by omega)

/-- **A round maps its block**, by what the schedule says. -/
theorem decodeRound_eq : decodeRound type cycle (cntAt type cycle lop, buf) lop =
    (cntAt type cycle (lop + 1),
      writeBlock buf lop (blockMap type cycle lop (blockAt buf lop))) := by
  unfold decodeRound blockMap
  rw [cntAt]
  dsimp only
  split
  · rfl
  · rename_i hdes
    split
    · rename_i hcnt
      rw [if_pos ⟨hdes, hcnt⟩]
    · rename_i hcnt
      rw [if_neg fun h => hcnt h.2, id, writeBlock_self]

/-- The loop up to a round. -/
theorem foldl_decodeRound (type cycle : Int32) (buf : Buf) (n : ℕ) :
    (List.range n).foldl (decodeRound type cycle) (0, buf) = (cntAt type cycle n, fun p =>
      if p / 8 < n then blockMap type cycle (p / 8) (blockAt buf (p / 8)) (Fin.ofNat 8 p)
      else buf p) := by
  induction n with
  | zero => rfl
  | succ n ih =>
    rw [List.range_succ, List.foldl_append, ih, List.foldl_cons, List.foldl_nil, decodeRound_eq]
    congr 1
    funext p
    have hsame : blockAt (fun p => if p / 8 < n then
        blockMap type cycle (p / 8) (blockAt buf (p / 8)) (Fin.ofNat 8 p) else buf p) n =
        blockAt buf n := blockAt_congr fun p hp => by rw [if_neg (by omega)]
    rw [writeBlock, hsame]
    rcases Nat.lt_trichotomy (p / 8) n with h | h | h
    · rw [if_neg (by omega), if_pos h, if_pos (by omega)]
    · rw [if_pos h, if_pos (by omega), h]
    · rw [if_neg (by omega), if_neg (by omega), if_neg (by omega)]

/-- **`decode_des_etc` maps each block by itself.** -/
theorem decodeDesEtc_eq (buf : Buf) (len : ℕ) (type cycle : Int32) (p : ℕ) :
    decodeDesEtc buf len type cycle p = if p / 8 < (len + 7) / 8 then
      blockMap type cycle (p / 8) (blockAt buf (p / 8)) (Fin.ofNat 8 p) else buf p := by
  unfold decodeDesEtc
  rw [foldl_decodeRound]

/-- A block of the result. -/
theorem blockAt_decodeDesEtc (h : lop < (len + 7) / 8) :
    blockAt (decodeDesEtc buf len type cycle) lop = blockMap type cycle lop (blockAt buf lop) := by
  funext k
  have hk := k.isLt
  have hdiv : (8 * lop + k.val) / 8 = lop := by omega
  unfold blockAt
  rw [decodeDesEtc_eq, hdiv, if_pos h]
  congr 1
  apply Fin.ext
  show (8 * lop + k.val) % 8 = k.val
  omega

end Schedule

/-! ## Injectivity -/

section Injectivity

variable {type cycle : Int32} {buf buf' : Buf} {len lop : ℕ} {x y : Block 8}

theorem swapByte_swapByte (a : UInt8) : swapByte (swapByte a) = a := by
  have hall : ((List.range 256).all fun n =>
      swapByte (swapByte (UInt8.ofNat n)) = UInt8.ofNat n) = true := by decide +kernel
  have ha := List.all_eq_true.mp hall a.toNat (List.mem_range.mpr a.toNat_lt)
  simpa using ha

/-- The first seven bytes of a shuffled block tell those of the block. -/
theorem eq_of_shuffle_front (h : ∀ k : Fin 8, k.val < 7 → shuffle x k = shuffle y k) :
    ∀ k : Fin 8, k.val < 7 → x k = y k
  | 0, _ => h 3 (by decide)
  | 1, _ => h 4 (by decide)
  | 2, _ => h 5 (by decide)
  | 3, _ => h 0 (by decide)
  | 4, _ => h 1 (by decide)
  | 5, _ => h 6 (by decide)
  | 6, _ => h 2 (by decide)
  | 7, hk => absurd hk (by decide)

theorem shuffle_injective : Function.Injective shuffle := by
  intro x y h
  funext k
  rcases lt_or_ge k.val 7 with hk | hk
  · exact eq_of_shuffle_front (fun k _ => congrFun h k) k hk
  · have hlast : k = 7 := Fin.ext (by have := k.isLt; omega)
    have h7 : swapByte (x 7) = swapByte (y 7) := congrFun h 7
    have hself := congrArg swapByte h7
    rw [swapByte_swapByte, swapByte_swapByte] at hself
    rw [hlast]
    exact hself

theorem blockMap_injective : Function.Injective (blockMap type cycle lop) := by
  unfold blockMap
  split
  · exact decodeBlock_injective
  · split
    · exact shuffle_injective
    · exact Function.injective_id

/-- **On the whole buffer** the function is injective. -/
theorem decodeDesEtc_injective (len : ℕ) (type cycle : Int32) :
    Function.Injective fun buf => decodeDesEtc buf len type cycle := by
  intro buf buf' h
  funext p
  have hp : decodeDesEtc buf len type cycle p = decodeDesEtc buf' len type cycle p := congrFun h p
  by_cases hin : p / 8 < (len + 7) / 8
  · have hblock := congrArg (fun b => blockAt b (p / 8)) h
    dsimp only at hblock
    rw [blockAt_decodeDesEtc hin, blockAt_decodeDesEtc hin] at hblock
    have hsame := congrFun (blockMap_injective hblock) (Fin.ofNat 8 p)
    unfold blockAt at hsame
    rwa [ofNat_mod_eight p rfl] at hsame
  · rw [decodeDesEtc_eq, decodeDesEtc_eq, if_neg hin, if_neg hin] at hp
    exact hp

/-! ## The bytes within the length -/

/-- A buffer of some bytes and what stands behind them. -/
def bufferOf {len : ℕ} (data : Fin len → UInt8) (behind : Buf) : Buf := fun p =>
  if h : p < len then data ⟨p, h⟩ else behind p

/-- What `decode_des_etc` makes of the bytes within the length. -/
def decodeData (behind : Buf) (len : ℕ) (type cycle : Int32) (data : Fin len → UInt8) :
    Fin len → UInt8 := fun p => decodeDesEtc (bufferOf data behind) len type cycle p

/-- The length ends within a block that is shuffled, so that one to six bytes of it are within. -/
def CutShuffled (len : ℕ) (type cycle : Int32) : Prop :=
  0 < len % 8 ∧ len % 8 < 7 ∧ Shuffled type cycle (len / 8)

instance (len : ℕ) (type cycle : Int32) : Decidable (CutShuffled len type cycle) :=
  inferInstanceAs (Decidable (_ ∧ _))

/-- The byte of a shuffled block that its first `r` bytes do not tell. -/
def lostByte (r : ℕ) : Fin 8 :=
  match r with
  | 1 => 0
  | 2 => 1
  | 6 => 5
  | _ => 2

theorem lostByte_spec {r : ℕ} (hr : 0 < r) (hr7 : r < 7) : (lostByte r).val < r ∧
    ∀ x y : Block 8, (∀ k, k ≠ lostByte r → x k = y k) →
      ∀ k : Fin 8, k.val < r → shuffle x k = shuffle y k := by
  have hcases : r = 1 ∨ r = 2 ∨ r = 3 ∨ r = 4 ∨ r = 5 ∨ r = 6 := by omega
  rcases hcases with rfl | rfl | rfl | rfl | rfl | rfl
  all_goals
    refine ⟨by decide, fun x y h k hk => ?_⟩
    match k, hk with
    | 0, _ => exact h 3 (by decide)
    | 1, _ => exact h 4 (by decide)
    | 2, _ => exact h 6 (by decide)
    | 3, _ => first | exact h 0 (by decide) | omega
    | 4, _ => first | exact h 1 (by decide) | omega
    | 5, _ => first | exact h 2 (by decide) | omega
    | 6, _ => omega
    | 7, _ => omega

section Data

variable {behind : Buf} {data data' : Fin len → UInt8}

theorem bufferOf_of_lt {p : ℕ} (h : p < len) : bufferOf data behind p = data ⟨p, h⟩ := dif_pos h

theorem bufferOf_of_ge {p : ℕ} (h : len ≤ p) : bufferOf data behind p = behind p :=
  dif_neg (by omega)

/-- Equal results within the length, in the block of a place. -/
theorem blockMap_front (h : decodeData behind len type cycle data =
      decodeData behind len type cycle data') {k : Fin 8} (hk : 8 * lop + k.val < len) :
    blockMap type cycle lop (blockAt (bufferOf data behind) lop) k =
      blockMap type cycle lop (blockAt (bufferOf data' behind) lop) k := by
  have hk' := k.isLt
  have hlop : lop < (len + 7) / 8 := by omega
  rw [← blockAt_decodeDesEtc hlop, ← blockAt_decodeDesEtc hlop]
  exact congrFun h ⟨8 * lop + k.val, hk⟩

/-- Behind the length there is the same for all data. -/
theorem blockAt_behind {k : Fin 8} (hk : len ≤ 8 * lop + k.val) :
    blockAt (bufferOf data behind) lop k = blockAt (bufferOf data' behind) lop k := by
  unfold blockAt
  rw [bufferOf_of_ge hk, bufferOf_of_ge hk]

/-- A block of the data is told by the bytes of its result within the length. -/
theorem blockAt_eq_of_decodeData (hcut : ¬CutShuffled len type cycle)
    (h : decodeData behind len type cycle data = decodeData behind len type cycle data')
    (hlop : 8 * lop < len) :
    blockAt (bufferOf data behind) lop = blockAt (bufferOf data' behind) lop := by
  have hfront {k : Fin 8} (hk : 8 * lop + k.val < len) := blockMap_front h hk
  have hback {k : Fin 8} (hk : len ≤ 8 * lop + k.val) :
      blockAt (bufferOf data behind) lop k = blockAt (bufferOf data' behind) lop k :=
    blockAt_behind hk
  unfold blockMap at hfront
  split at hfront
  · exact eq_of_decodeBlock_front (r := len - 8 * lop) (fun k hk => hback (by omega))
      fun k hk => hfront (by omega)
  · split at hfront
    · rename_i hshuffled
      have hseven (h7 : 7 ≤ len - 8 * lop) :
          ∀ k : Fin 8, k.val < 7 → blockAt (bufferOf data behind) lop k =
            blockAt (bufferOf data' behind) lop k :=
        eq_of_shuffle_front fun k hk => hfront (by omega)
      rcases lt_or_ge (8 * lop + 7) len with hall | hpart
      · exact shuffle_injective (funext fun k => hfront (by have := k.isLt; omega))
      · -- a block that is cut has seven bytes within the length
        have h7 : 7 ≤ len - 8 * lop := by
          by_contra hlt
          refine hcut ⟨by omega, by omega, ?_⟩
          rwa [show len / 8 = lop by omega]
        funext k
        rcases lt_or_ge k.val 7 with hk | hk
        · exact hseven h7 k hk
        · exact hback (by omega)
    · funext k
      rcases lt_or_ge (8 * lop + k.val) len with hk | hk
      · exact hfront hk
      · exact hback hk

/-- Where the length cuts no shuffled block, the bytes within it are told by the result. -/
theorem decodeData_injective (hcut : ¬CutShuffled len type cycle) :
    Function.Injective (decodeData behind len type cycle) := by
  intro data data' h
  funext p
  have hp := p.isLt
  have hblock : blockAt _ (p / 8) = _ := blockAt_eq_of_decodeData hcut h (by omega)
  have hbyte := congrFun hblock (Fin.ofNat 8 p)
  unfold blockAt at hbyte
  rw [ofNat_mod_eight _ rfl, bufferOf_of_lt hp, bufferOf_of_lt hp] at hbyte
  exact hbyte

/-- Where it cuts one, two data have one result. -/
theorem decodeData_not_injective (hcut : CutShuffled len type cycle) :
    ¬Function.Injective (decodeData behind len type cycle) := by
  obtain ⟨hpos, hlt, hshuffled⟩ := hcut
  obtain ⟨hlost, hsame⟩ := lostByte_spec hpos hlt
  have hin : 8 * (len / 8) + (lostByte (len % 8)).val < len := by omega
  intro hinj
  have hne : (fun _ : Fin len => (0 : UInt8)) ≠
      Function.update (fun _ => 0) ⟨_, hin⟩ 1 := by
    intro heq
    have h := congrFun heq ⟨_, hin⟩
    rw [Function.update_self] at h
    exact absurd h (by decide)
  refine hne (hinj (funext fun p => ?_))
  have hp := p.isLt
  unfold decodeData
  have hblock : p.val / 8 < (len + 7) / 8 := by omega
  rw [decodeDesEtc_eq, decodeDesEtc_eq, if_pos hblock, if_pos hblock]
  have hbuf (q : ℕ) (hq : q ≠ 8 * (len / 8) + (lostByte (len % 8)).val) :
      bufferOf (fun _ : Fin len => (0 : UInt8)) behind q =
        bufferOf (Function.update (fun _ => 0) ⟨_, hin⟩ 1) behind q := by
    unfold bufferOf
    split
    · rw [Function.update_of_ne fun heq => hq (congrArg Fin.val heq)]
    · rfl
  rcases Nat.eq_or_lt_of_le (show p.val / 8 ≤ len / 8 by omega) with heq | hlt'
  · rw [heq]
    unfold blockMap
    rw [if_neg hshuffled.1, if_pos hshuffled]
    have hk : (Fin.ofNat 8 p.val).val < len % 8 := by
      show p.val % 8 < len % 8
      omega
    refine hsame _ _ (fun k hk => hbuf _ ?_) _ hk
    have hval : k.val ≠ (lostByte (len % 8)).val := fun h => hk (Fin.ext h)
    omega
  · rw [blockAt_congr fun q hq => hbuf q (by omega)]

end Data

end Injectivity

/-- **The cipher of an archive.** Its step undoes itself; `decode_des_etc` is injective on buffers,
and on their bytes within the length, whatever stands behind them, if and only if the length does not
end within the first six bytes of a block that is shuffled. -/
theorem decodeDesEtc_tells :
    (∀ b, decodeBlock (decodeBlock b) = b) ∧ ∀ len type cycle,
      (Function.Injective fun buf => decodeDesEtc buf len type cycle) ∧
        ∀ behind, Function.Injective (decodeData behind len type cycle) ↔
          ¬CutShuffled len type cycle := by
  refine ⟨decodeBlock_decodeBlock, fun len type cycle => ⟨decodeDesEtc_injective len type cycle,
    fun behind => ⟨fun h hcut => ?_, decodeData_injective⟩⟩⟩
  exact decodeData_not_injective hcut h

/-- With 249 bytes the last one is lost: of the eleven blocks behind the first twenty four are
encrypted, and the eighth of the others is shuffled. -/
theorem decodeData_249_not_injective :
    ¬Function.Injective (decodeData (fun _ => 0) 249 0 1) :=
  decodeData_not_injective (by decide)

end Nezumi
