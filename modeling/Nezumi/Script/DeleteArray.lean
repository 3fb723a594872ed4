import Mathlib.Data.List.Range
import Mathlib.Data.Nat.Find
import Mathlib.Logic.Function.Basic
import Mathlib.Order.Nat
import Mathlib.Tactic.Common

/-!
# Deleting elements of an array (`map/script.c`)

The elements of an array variable are variables of their own. Their keys have the index in the top
byte, so a key that is moved by `256` elements is the same.

* `ArrayVar` are the elements of one variable. No function touches another one.
* `getarraysize` and `deletearray` are the functions of the same names, `arrayBase` is what
  `getelementofarray` makes of an index. A copy
  that reads a string which has been freed has no result.
* `Deletes`: what `deletearray @a[b],n` should do.
* `deletes_iff`: it does so unless an element that stays is not copied, since `getarraysize` adds
  the base twice, or an index wraps around.
-/

namespace Nezumi

/-- Where a variable is kept: `$` is a variable of the server, `@` of a player. -/
inductive ArrayScope
  | map
  | player
deriving DecidableEq

/-- The elements by the top byte of their keys, and whether there is an entry of them. The default
is `0` or the empty string. -/
structure ArrayVar (α : Type) where
  value : ℕ → α
  stored : ℕ → Bool

section Model

variable {α : Type} [DecidableEq α] [Inhabited α]

/-- The base of `@a[i]` in `getelementofarray`. -/
def arrayBase (i : ℤ) : Option (Fin 128) :=
  if h : 127 < i ∨ i < 0 then none else some ⟨i.toNat, by omega⟩

/-- The element whose index is `i` above the base, as it is in the key. -/
def wrapped (b : ℕ) (i : ℤ) : ℕ := ((b + i) % 256).toNat

/-- `getarraysize` of a key with the base `b`. The loop starts at the base and adds it again. -/
def getarraysize (v : ArrayVar α) (b : ℕ) : ℕ :=
  (List.range' b (128 - b)).foldl
    (fun c (i : ℕ) => if v.value (wrapped b i) ≠ default then i else c) b + 1

/-- `set_reg` of an element. A variable of the server that gets the default loses its entry. -/
def setElement (scope : ArrayScope) (v : ArrayVar α) (i : ℕ) (x : α) : ArrayVar α where
  value := Function.update v.value i x
  stored := Function.update v.stored i (scope = .player ∨ x ≠ default)

/-- `set_reg` of what `get_val2` finds. It is a pointer if the variable is a string. The old string
of the server is freed first, and a new entry of a player moves all the others. -/
def copyElement (scope : ArrayScope) (isStr : Bool) (v : ArrayVar α) (dst src : ℕ) :
    Option (ArrayVar α) :=
  if isStr ∧ scope = .map ∧ src = dst ∧ v.value src ≠ default then none
  else if isStr ∧ scope = .player ∧ v.stored src ∧ ¬ v.stored dst then none
  else some (setElement scope v dst (v.value src))

/-- `deletearray`. Only these two scopes are legal. -/
def deletearray (scope : ArrayScope) (isStr : Bool) (v : ArrayVar α) (b : Fin 128)
    (arg : Option ℤ) : Option (ArrayVar α) :=
  let sz := getarraysize v b - b - 1 + 1
  let count := arg.getD 1
  ((List.range sz).foldlM
    (fun v (i : ℕ) => copyElement scope isStr v (wrapped b i) (wrapped b (i + count))) v).map
      fun v => (List.range' sz (128 - b - sz)).foldl
        (fun v (i : ℕ) => setElement scope v (wrapped b i) default) v

/-! ## What it should do -/

/-- The elements before the base stay, those behind the `n` deleted ones move down, and what becomes
free at the end gets the default. -/
def Deletes (scope : ArrayScope) (isStr : Bool) (v : ArrayVar α) (b : Fin 128) (n : ℕ) : Prop :=
  ∃ v', deletearray scope isStr v b (some n) = some v' ∧
    (∀ j < b.val, v'.value j = v.value j) ∧
    ∀ j, b.val ≤ j → j < 128 → v'.value j = if j + n < 128 then v.value (j + n) else default

/-- The last element up to `m` that is not the default, or `0`. -/
def lastElement (v : ArrayVar α) (m : ℕ) : ℕ := Nat.findGreatest (fun j => v.value j ≠ default) m

/-- The last place to which `deletearray` copies. With a base of `0` it is the end of the array. -/
def lastPlace (v : ArrayVar α) (b : Fin 128) : ℕ := max (2 * b.val) (lastElement v (b + 127)) - b

/-- The condition under which it does: no element behind the places to which it copies is left over,
no index that is too large leads to an element, and no string is freed before it is copied. -/
structure Deletable (scope : ArrayScope) (isStr : Bool) (v : ArrayVar α) (b : Fin 128) (n : ℕ) :
    Prop where
  kept : ∀ j, lastPlace v b + n < j → j < 128 → v.value j = default
  wraps : ∀ p, b.val ≤ p → p ≤ lastPlace v b → 128 ≤ p + n →
    v.value ((p + n) % 256) = default ∨ b.val ≤ (p + n) % 256 ∧ (p + n) % 256 < p
  freed : isStr → scope = .map → n % 256 = 0 →
    ∀ p, b.val ≤ p → p ≤ lastPlace v b → v.value p = default
  moved : isStr → scope = .player → ∀ p, b.val ≤ p → p ≤ lastPlace v b →
    (v.stored ((p + n) % 256) ∨ b.val ≤ (p + n) % 256 ∧ (p + n) % 256 < p) → v.stored p

end Model

/-! ## The size -/

section Size

variable {α : Type} [DecidableEq α] [Inhabited α] {v : ArrayVar α} {b n k : ℕ}

theorem wrapped_eq (b i : ℕ) : wrapped b i = (b + i) % 256 := by
  unfold wrapped
  omega

theorem wrapped_of_lt (h : b + k < 256) : wrapped b k = b + k := by
  rw [wrapped_eq, Nat.mod_eq_of_lt h]

/-- The loop of `getarraysize` ends with the last element at which it looks that is not the default,
seen from the base, or where it began. -/
theorem sizeLoop_eq (v : ArrayVar α) (hn : b + b + n ≤ 256) :
    ∃ c, (List.range' b n).foldl
        (fun c (i : ℕ) => if v.value (wrapped b i) ≠ default then i else c) b = c ∧
      (∀ i, c < i → i < b + n → v.value (b + i) = default) ∧
      (c = b ∨ b ≤ c ∧ c < b + n ∧ v.value (b + c) ≠ default) := by
  induction n with
  | zero => exact ⟨b, rfl, fun i h h' => by omega, .inl rfl⟩
  | succ n ih =>
    obtain ⟨c, hc, hrest, hlast⟩ := ih (by omega)
    rw [List.range'_concat, List.foldl_append, List.foldl_cons, List.foldl_nil, Nat.one_mul,
      wrapped_of_lt (by omega), hc]
    by_cases hb : v.value (b + (b + n)) ≠ default
    · rw [if_pos hb]
      exact ⟨_, rfl, fun i h h' => by omega, .inr ⟨by omega, by omega, hb⟩⟩
    · rw [if_neg hb]
      refine ⟨c, rfl, fun i h h' => ?_, hlast.imp_right fun ⟨h₁, h₂, h₃⟩ => ⟨h₁, by omega, h₃⟩⟩
      rcases (Nat.lt_succ_iff.mp h').eq_or_lt with rfl | hlt
      · exact not_not.mp hb
      · exact hrest i h hlt

theorem getarraysize_eq (v : ArrayVar α) (b : Fin 128) :
    getarraysize v b = lastPlace v b + 1 := by
  have hb := b.isLt
  obtain ⟨c, hc, hrest, hlast⟩ := sizeLoop_eq v (b := b) (n := 128 - b) (by omega)
  have hle : lastElement v (b + 127) ≤ b + 127 := Nat.findGreatest_le _
  have hbound : lastElement v (b + 127) ≤ b + c := by
    by_contra hlt
    have hpos : lastElement v (b + 127) ≠ 0 := by omega
    have hne : v.value (lastElement v (b + 127)) ≠ default := Nat.findGreatest_of_ne_zero rfl hpos
    have h := hrest (lastElement v (b + 127) - b) (by omega) (by omega)
    rw [Nat.add_sub_cancel' (by omega)] at h
    exact hne h
  unfold getarraysize lastPlace
  rw [hc]
  rcases hlast with hcb | ⟨h₁, h₂, h₃⟩
  · omega
  · have hge : b + c ≤ lastElement v (b + 127) := Nat.le_findGreatest (by omega) h₃
    omega

theorem lastPlace_bounds (v : ArrayVar α) (b : Fin 128) :
    b ≤ lastPlace v b ∧ lastPlace v b < 128 := by
  have hb := b.isLt
  have hle : lastElement v (b + 127) ≤ b + 127 := Nat.findGreatest_le _
  unfold lastPlace
  omega

end Size

/-! ## The two loops -/

section Loops

variable {α : Type} {scope : ArrayScope} {isStr : Bool} {v v' w : ArrayVar α} {b n e k s j : ℕ}

/-- The element copied to `p` has been overwritten before. -/
def Overwritten (b n p : ℕ) : Prop := b ≤ (p + n) % 256 ∧ (p + n) % 256 < p

instance (b n p : ℕ) : Decidable (Overwritten b n p) := inferInstanceAs (Decidable (_ ∧ _))

/-- What the copies to the places from `b` to `e` have done. -/
structure CopiedTo (scope : ArrayScope) (v v' : ArrayVar α) (b n e : ℕ) : Prop where
  same : ∀ j, j < b ∨ e ≤ j → v'.value j = v.value j ∧ v'.stored j = v.stored j
  value : ∀ p, b ≤ p → p < e →
    v'.value p = if Overwritten b n p then v'.value ((p + n) % 256) else v.value ((p + n) % 256)
  stored : scope = .player → ∀ p, b ≤ p → p < e → v'.stored p

theorem CopiedTo.refl (scope : ArrayScope) (v : ArrayVar α) (b n : ℕ) : CopiedTo scope v v b n b :=
  ⟨fun _ _ => ⟨rfl, rfl⟩, fun _ h h' => absurd h' (by omega), fun _ _ h h' => absurd h' (by omega)⟩

/-- What is stored where the next copy reads. -/
theorem CopiedTo.stored_src (h : CopiedTo scope v v' b n e) (hs : scope = .player) :
    v'.stored ((e + n) % 256) ↔ v.stored ((e + n) % 256) ∨ Overwritten b n e := by
  by_cases ho : Overwritten b n e
  · simp [h.stored hs _ ho.1 ho.2, ho]
  · have hsame := (h.same ((e + n) % 256) (by unfold Overwritten at ho; omega)).2
    simp [hsame, ho]

variable [DecidableEq α] [Inhabited α]

/-- A string is not freed before it is copied to `p`. -/
def Readable (scope : ArrayScope) (isStr : Bool) (v : ArrayVar α) (b n p : ℕ) : Prop :=
  (isStr → scope = .map → n % 256 = 0 → v.value p = default) ∧
    (isStr → scope = .player → v.stored ((p + n) % 256) ∨ Overwritten b n p → v.stored p)

instance (v : ArrayVar α) (b n p : ℕ) : Decidable (Readable scope isStr v b n p) :=
  inferInstanceAs (Decidable (_ ∧ _))

/-- One more copy. -/
theorem CopiedTo.set (h : CopiedTo scope v v' b n e) (hb : b ≤ e) :
    CopiedTo scope v (setElement scope v' e (v'.value ((e + n) % 256))) b n (e + 1) := by
  refine ⟨fun j hj => ?_, fun p hp hpe => ?_, fun hs p hp hpe => ?_⟩
  · have hne : j ≠ e := by omega
    simp only [setElement, Function.update_of_ne hne]
    exact h.same j (by omega)
  · rcases (Nat.lt_succ_iff.mp hpe).eq_or_lt with rfl | hlt
    · simp only [setElement, Function.update_self]
      split_ifs with ho
      · rw [Function.update_of_ne (by have := ho.2; omega)]
      · refine (h.same _ ?_).1
        unfold Overwritten at ho
        omega
    · have hne : p ≠ e := by omega
      simp only [setElement, Function.update_of_ne hne]
      rw [h.value p hp hlt]
      split_ifs with ho
      · rw [Function.update_of_ne (by have := ho.2; omega)]
      · rfl
  · rcases (Nat.lt_succ_iff.mp hpe).eq_or_lt with rfl | hlt
    · simp [setElement, hs]
    · have hne : p ≠ e := by omega
      simp only [setElement, Function.update_of_ne hne]
      exact h.stored hs p hp hlt

/-- The next copy has a result exactly if what it reads is not freed. -/
theorem CopiedTo.copyElement_eq (h : CopiedTo scope v v' b n e) (he : e < 128) :
    copyElement scope isStr v' e ((e + n) % 256) =
      if Readable scope isStr v b n e then
        some (setElement scope v' e (v'.value ((e + n) % 256))) else none := by
  have hsrc : (e + n) % 256 = e ↔ n % 256 = 0 := by omega
  obtain ⟨hval, hst⟩ := h.same e (.inr le_rfl)
  unfold copyElement
  cases scope with
  | map =>
    have hfreed : (isStr ∧ (e + n) % 256 = e ∧ v'.value ((e + n) % 256) ≠ default) ↔
        ¬ Readable .map isStr v b n e := by
      simp only [Readable, reduceCtorEq, forall_const, false_implies, implies_true, and_true,
        Classical.not_imp, hsrc]
      refine and_congr_right fun _ => and_congr_right fun h0 => ?_
      rw [hsrc.2 h0, hval]
    by_cases hr : Readable .map isStr v b n e
    · rw [if_pos hr, if_neg (by simpa using fun hf => hfreed.1 hf hr), if_neg (by simp)]
    · rw [if_neg hr, if_pos (by simpa using hfreed.2 hr)]
  | player =>
    have hmoved : (isStr ∧ v'.stored ((e + n) % 256) ∧ ¬ v'.stored e) ↔
        ¬ Readable .player isStr v b n e := by
      simp only [Readable, reduceCtorEq, forall_const, false_implies, implies_true, true_and,
        Classical.not_imp, h.stored_src rfl, hst]
    by_cases hr : Readable .player isStr v b n e
    · rw [if_pos hr, if_neg (by simp), if_neg (by simpa using fun hf => hmoved.1 hf hr)]
    · rw [if_neg hr, if_neg (by simp), if_pos (by simpa using hmoved.2 hr)]

/-- The first loop ends if every copy has a result. -/
theorem copyLoop_of_readable (hk : b + k ≤ 128)
    (h : ∀ p, b ≤ p → p < b + k → Readable scope isStr v b n p) :
    ∃ v', (List.range k).foldlM (fun v (i : ℕ) =>
        copyElement scope isStr v (wrapped b i) (wrapped b (i + (n : ℤ)))) v = some v' ∧
      CopiedTo scope v v' b n (b + k) := by
  induction k with
  | zero => exact ⟨v, rfl, CopiedTo.refl scope v b n⟩
  | succ k ih =>
    obtain ⟨w, hw, hcop⟩ := ih (by omega) fun p hp hpk => h p hp (by omega)
    refine ⟨_, ?_, hcop.set (by omega)⟩
    rw [List.range_succ, List.foldlM_append, hw, Option.bind_eq_bind, Option.bind_some,
      List.foldlM_cons, wrapped_of_lt (by omega), ← Int.natCast_add, wrapped_eq, ← Nat.add_assoc,
      hcop.copyElement_eq (by omega), if_pos (h _ (by omega) (by omega))]
    rfl

/-- If it ends, every copy had a result. -/
theorem copyLoop_readable (hk : b + k ≤ 128)
    (h : (List.range k).foldlM (fun v (i : ℕ) =>
        copyElement scope isStr v (wrapped b i) (wrapped b (i + (n : ℤ)))) v = some v') :
    CopiedTo scope v v' b n (b + k) ∧ ∀ p, b ≤ p → p < b + k → Readable scope isStr v b n p := by
  induction k generalizing v' with
  | zero =>
    obtain rfl : v = v' := by simpa using h
    exact ⟨CopiedTo.refl scope v b n, fun p hp hpk => absurd hpk (by omega)⟩
  | succ k ih =>
    rw [List.range_succ, List.foldlM_append, Option.bind_eq_bind, Option.bind_eq_some_iff] at h
    obtain ⟨w, hw, hlast⟩ := h
    obtain ⟨hcop, hread⟩ := ih (by omega) hw
    rw [List.foldlM_cons, wrapped_of_lt (by omega), ← Int.natCast_add, wrapped_eq, ← Nat.add_assoc,
      hcop.copyElement_eq (by omega)] at hlast
    split_ifs at hlast with hr
    · obtain rfl := Option.some.inj hlast
      refine ⟨hcop.set (by omega), fun p hp hpk => ?_⟩
      rcases (Nat.lt_succ_iff.mp hpk).eq_or_lt with rfl | hlt
      · exact hr
      · exact hread p hp hlt
    · simp at hlast

/-- The second loop. -/
theorem clearLoop_value (hk : b + s + k ≤ 128) :
    ((List.range' s k).foldl
        (fun v (i : ℕ) => setElement scope v (wrapped b i) default) v).value j =
      if b + s ≤ j ∧ j < b + s + k then default else v.value j := by
  induction k with
  | zero => exact (if_neg (by omega)).symm
  | succ k ih =>
    rw [List.range'_concat, List.foldl_append, List.foldl_cons, List.foldl_nil, Nat.one_mul,
      wrapped_of_lt (by omega)]
    by_cases hj : j = b + (s + k)
    · subst hj
      rw [if_pos (by omega)]
      exact Function.update_self ..
    · refine (Function.update_of_ne hj ..).trans ?_
      rw [ih (by omega)]
      exact if_congr (by omega) rfl rfl

end Loops

/-! ## The whole function -/

section Whole

variable {α : Type} [Inhabited α] {scope : ArrayScope} {isStr : Bool} {v v' w : ArrayVar α}
  {b : Fin 128} {n : ℕ}

/-- What has to be at `j` after `n` elements are gone. -/
def deletedValue (v : ArrayVar α) (n j : ℕ) : α := if j + n < 128 then v.value (j + n) else default

/-- A place whose source has been overwritten is so far behind it that it has to get the default. -/
theorem deletedValue_of_overwritten {p : ℕ} (hp : p < 128) (ho : Overwritten b n p) :
    deletedValue v n p = default ∧ deletedValue v n ((p + n) % 256) = default := by
  unfold Overwritten at ho
  constructor <;> exact if_neg (by omega)

/-- The cleared places are right exactly if no element is left over. -/
theorem kept_iff {e : ℕ} :
    (∀ p, e < p → p < 128 → deletedValue v n p = default) ↔
      ∀ j, e + n < j → j < 128 → v.value j = default := by
  constructor
  · intro h j hj hlt
    have hp := h (j - n) (by omega) (by omega)
    rwa [deletedValue, if_pos (by omega), Nat.sub_add_cancel (by omega)] at hp
  · intro h p hp hlt
    unfold deletedValue
    split_ifs with hn
    · exact h _ (by omega) hn
    · rfl

/-- The copied places are right exactly if no index that is too large leads to an element. -/
theorem CopiedTo.deleted_iff {e : ℕ} (h : CopiedTo scope v w b n e) (he : e ≤ 128) :
    (∀ p, b.val ≤ p → p < e → w.value p = deletedValue v n p) ↔
      ∀ p, b.val ≤ p → p < e → 128 ≤ p + n →
        v.value ((p + n) % 256) = default ∨ Overwritten b n p := by
  constructor
  · intro hw p hp hpe hn
    by_cases ho : Overwritten b n p
    · exact .inr ho
    · have hval := h.value p hp hpe
      rw [if_neg ho, hw p hp hpe, deletedValue, if_neg (by omega)] at hval
      exact .inl hval.symm
  · intro hv p
    induction p using Nat.strong_induction_on with
    | _ p ih =>
      intro hp hpe
      rw [h.value p hp hpe]
      split_ifs with ho
      · obtain ⟨hdst, hsrc⟩ := deletedValue_of_overwritten (v := v) (by omega) ho
        rw [ih _ ho.2 ho.1 (by have := ho.2; omega), hsrc, hdst]
      · unfold deletedValue
        split_ifs with hn
        · rw [Nat.mod_eq_of_lt (by omega)]
        · exact (hv p hp hpe (by omega)).resolve_right ho

variable [DecidableEq α]

/-- The elements that the second loop leaves when the first one has left `w`. -/
theorem cleared_value (scope : ArrayScope) (w : ArrayVar α) {e : ℕ} (hbe : b ≤ e) (he : e < 128)
    (j : ℕ) :
    ((List.range' (e + 1 - b) (128 - b - (e + 1 - b))).foldl
        (fun v (i : ℕ) => setElement scope v (wrapped b i) default) w).value j =
      if e < j ∧ j < 128 then default else w.value j := by
  rw [clearLoop_value (by omega)]
  exact if_congr (by omega) rfl rfl

/-- `deletearray` has a result if no string is freed before it is copied. -/
theorem deletearray_of_readable
    (h : ∀ p, b.val ≤ p → p < lastPlace v b + 1 → Readable scope isStr v b n p) :
    ∃ w v', deletearray scope isStr v b (some n) = some v' ∧
      CopiedTo scope v w b n (lastPlace v b + 1) ∧
      ∀ j, v'.value j = if lastPlace v b < j ∧ j < 128 then default else w.value j := by
  have hb := b.isLt
  obtain ⟨hbe, he⟩ := lastPlace_bounds v b
  have hsz : lastPlace v b + 1 - b - 1 + 1 = lastPlace v b + 1 - b := by omega
  have hend : b + (lastPlace v b + 1 - b) = lastPlace v b + 1 := by omega
  obtain ⟨w, hw, hcop⟩ := copyLoop_of_readable (k := lastPlace v b + 1 - b) (by omega) (hend ▸ h)
  rw [hend] at hcop
  refine ⟨w, _, ?_, hcop, cleared_value scope w hbe he⟩
  unfold deletearray
  dsimp only
  rw [getarraysize_eq, hsz, Option.getD_some, hw, Option.map_some]

/-- And only then. -/
theorem deletearray_readable (hv' : deletearray scope isStr v b (some n) = some v') :
    (∀ p, b.val ≤ p → p < lastPlace v b + 1 → Readable scope isStr v b n p) ∧
    ∃ w, CopiedTo scope v w b n (lastPlace v b + 1) ∧
      ∀ j, v'.value j = if lastPlace v b < j ∧ j < 128 then default else w.value j := by
  have hb := b.isLt
  obtain ⟨hbe, he⟩ := lastPlace_bounds v b
  have hsz : lastPlace v b + 1 - b - 1 + 1 = lastPlace v b + 1 - b := by omega
  have hend : b + (lastPlace v b + 1 - b) = lastPlace v b + 1 := by omega
  unfold deletearray at hv'
  rw [getarraysize_eq, hsz, Option.getD_some, Option.map_eq_some_iff] at hv'
  obtain ⟨w, hw, rfl⟩ := hv'
  obtain ⟨hcop, hread⟩ := copyLoop_readable (by omega) hw
  rw [hend] at hcop hread
  exact ⟨hread, w, hcop, cleared_value scope w hbe he⟩

/-- The condition in the terms of the two loops. -/
theorem deletable_iff : Deletable scope isStr v b n ↔
    (∀ p, b.val ≤ p → p < lastPlace v b + 1 → Readable scope isStr v b n p) ∧
      (∀ p, b.val ≤ p → p < lastPlace v b + 1 → 128 ≤ p + n →
        v.value ((p + n) % 256) = default ∨ Overwritten b n p) ∧
      ∀ p, lastPlace v b < p → p < 128 → deletedValue v n p = default := by
  rw [kept_iff]
  constructor
  · rintro ⟨hkept, hwraps, hfreed, hmoved⟩
    refine ⟨fun p hp hpe => ⟨fun hi hs h0 => ?_, fun hi hs => ?_⟩, fun p hp hpe => ?_, hkept⟩
    · exact hfreed hi hs h0 p hp (Nat.le_of_lt_succ hpe)
    · exact hmoved hi hs p hp (Nat.le_of_lt_succ hpe)
    · exact hwraps p hp (Nat.le_of_lt_succ hpe)
  · rintro ⟨hread, hwraps, hkept⟩
    refine ⟨hkept, fun p hp hpe => hwraps p hp (Nat.lt_succ_of_le hpe), fun hi hs h0 p hp hpe => ?_,
      fun hi hs p hp hpe => ?_⟩
    · exact (hread p hp (Nat.lt_succ_of_le hpe)).1 hi hs h0
    · exact (hread p hp (Nat.lt_succ_of_le hpe)).2 hi hs

/-- `deletearray` deletes exactly these elements if and only if none is left over, no index that is
too large leads to an element and no string is freed before it is copied. -/
theorem deletes_iff : Deletes scope isStr v b n ↔ Deletable scope isStr v b n := by
  obtain ⟨hbe, he⟩ := lastPlace_bounds v b
  rw [deletable_iff]
  constructor
  · rintro ⟨v', hv', -, hdel⟩
    obtain ⟨hread, w, hcop, hval⟩ := deletearray_readable hv'
    refine ⟨hread, (hcop.deleted_iff (by omega)).1 fun p hp hpe => ?_, fun p hp hlt => ?_⟩
    · rw [deletedValue, ← hdel p hp (by omega), hval, if_neg (by omega)]
    · rw [deletedValue, ← hdel p (by omega) hlt, hval, if_pos ⟨hp, hlt⟩]
  · rintro ⟨hread, hwraps, hkept⟩
    obtain ⟨w, v', hv', hcop, hval⟩ := deletearray_of_readable hread
    have hw := (hcop.deleted_iff (by omega)).2 hwraps
    refine ⟨v', hv', fun j hj => ?_, fun j hj hlt => ?_⟩
    · rw [hval, if_neg (by omega)]
      exact (hcop.same j (.inl hj)).1
    · rw [hval]
      by_cases hlast : lastPlace v b < j ∧ j < 128
      · rw [if_pos hlast]
        exact (hkept j hlast.1 hlt).symm
      · rw [if_neg hlast]
        exact hw j hj (by omega)

/-- Five elements. -/
def fiveElements : ArrayVar ℤ where
  value i := if i < 5 then i + 1 else 0
  stored i := i < 5

/-- When the third is deleted, the last one is lost. -/
theorem fiveElements_not_deletes : ¬ Deletes .player false fiveElements 2 1 := by
  rintro ⟨v', hv', -, hdel⟩
  have hlost : (deletearray .player false fiveElements 2 (some (1 : ℕ))).map (fun v => v.value 3) =
      some 0 := by decide +kernel
  have hfive : v'.value 3 = 5 := hdel 3 (by decide) (by decide)
  rw [hv', Option.map_some, hfive] at hlost
  exact absurd hlost (by decide)

end Whole

end Nezumi
