import Nezumi.Lib.Decimal

/-!
# Reading text by formats

`sscanf` with the directives `%d`, `%ld`, `%c`, `%[^c]`, white space and ordinary bytes. A format is
a list of directives; a `%n` at its end stands for what is left of the text.

* `sscanf`: the values that are assigned, and what is left if the whole format matched.
* `sscanf_int`, `sscanf_long`, `sscanf_char`, `sscanf_upto`, `sscanf_outside`, `sscanf_space`,
  `sscanf_lit`: what each directive reads of a text that starts as it asks.
* `sscanf_word`: a text behind white space, which may start with blanks.
* `ints`, `printInts`: numbers with commas between them. `sscanf_ints` says that they read back.
* `sscanf_reads`: what each value of a result is. A text that is read behind white space is never
  empty and does not start with a blank.
* `subset_of_sscanf`, `suffix_of_sscanf`: what is read, and what is left, stood in the text.
* `strchr`, `next`: the part of a text from a byte on.
-/

namespace Scanf

open Decimal

/-- A directive of a format. -/
inductive Directive
  /-- an ordinary byte -/
  | lit (b : UInt8)
  /-- white space: any number of blanks -/
  | space
  /-- `%d` -/
  | int
  /-- `%[^c]` -/
  | upto (c : UInt8)
  /-- `%ld` -/
  | long
  /-- `%c` -/
  | char
  /-- `%[^...]`: any bytes but some -/
  | outside (cs : List UInt8)
deriving DecidableEq

/-- A value that is assigned. -/
inductive Value
  | int (v : Int32)
  | text (s : List UInt8)
  | long (v : Int64)
  | char (b : UInt8)
deriving DecidableEq

/-- The values that are assigned, and what is left if the whole format matched. -/
abbrev Result := List Value × Option (List UInt8)

/-- A value before the others. -/
def Result.add (v : Value) (r : Result) : Result := (v :: r.1, r.2)

/-- `%d` keeps to the range of a `long`, of which an `int` takes the low half. -/
def toInt32 (z : ℤ) : Int32 := Int32.ofInt (max (-2 ^ 63) (min z (2 ^ 63 - 1)))

/-- `%ld` keeps to the range of a `long`. -/
def toInt64 (z : ℤ) : Int64 := Int64.ofInt (max (-2 ^ 63) (min z (2 ^ 63 - 1)))

/-- `sscanf` -/
def sscanf : List Directive → List UInt8 → Result
  | [], bs => ([], some bs)
  | .lit b :: f, bs => if bs.head? = some b then sscanf f bs.tail else ([], none)
  | .space :: f, bs => sscanf f (bs.dropWhile isSpace)
  | .int :: f, bs =>
    match scanInt bs with
    | none => ([], none)
    | some (z, r) => (sscanf f r).add (.int (toInt32 z))
  | .upto c :: f, bs =>
    if bs.takeWhile (· ≠ c) = [] then ([], none)
    else (sscanf f (bs.dropWhile (· ≠ c))).add (.text (bs.takeWhile (· ≠ c)))
  | .long :: f, bs =>
    match scanInt bs with
    | none => ([], none)
    | some (z, r) => (sscanf f r).add (.long (toInt64 z))
  | .char :: f, bs =>
    match bs with
    | [] => ([], none)
    | b :: r => (sscanf f r).add (.char b)
  | .outside cs :: f, bs =>
    if bs.takeWhile (· ∉ cs) = [] then ([], none)
    else (sscanf f (bs.dropWhile (· ∉ cs))).add (.text (bs.takeWhile (· ∉ cs)))

/-- `strchr` -/
def strchr (s : List UInt8) (c : UInt8) : Option (List UInt8) :=
  if c ∈ s then some (s.dropWhile (· ≠ c)) else none

/-- `strchr(s + 1, c)`, of no text if there is none. -/
def next (c : UInt8) (s : Option (List UInt8)) : Option (List UInt8) :=
  s.bind fun s => strchr s.tail c

/-- `"%d,%d,..."`, of some numbers. -/
def ints : ℕ → List Directive
  | 0 => []
  | 1 => [.int]
  | n + 2 => .int :: .lit 44 :: ints (n + 1)

/-- Texts with commas between them. -/
def commas : List (List UInt8) → List UInt8
  | [] => []
  | [s] => s
  | s :: s' :: ss => s ++ 44 :: commas (s' :: ss)

/-- Numbers with commas between them. -/
def printInts (zs : List ℤ) : List UInt8 := commas (zs.map ofInt)

/-- The numbers that an `int` holds. -/
def IsInt (z : ℤ) : Prop := -2 ^ 31 ≤ z ∧ z < 2 ^ 31

instance (z : ℤ) : Decidable (IsInt z) := inferInstanceAs (Decidable (_ ∧ _))

section Directives

variable {f : List Directive} {r s : List UInt8} {b c : UInt8}

/-- No blank stands at the front. -/
def NoSpace (s : List UInt8) : Prop := ∀ b ∈ s.head?, isSpace b = false

@[simp] theorem noSpace_nil : NoSpace [] := by simp [NoSpace]

@[simp] theorem noSpace_cons : NoSpace (b :: s) ↔ isSpace b = false := by simp [NoSpace]

@[simp] theorem noDigit_nil : NoDigit [] := by simp [NoDigit]

@[simp] theorem noDigit_cons : NoDigit (b :: s) ↔ isDigit b = false := by simp [NoDigit]

instance : (s : List UInt8) → Decidable (NoSpace s)
  | [] => isTrue noSpace_nil
  | _ :: _ => decidable_of_iff _ noSpace_cons.symm

theorem NoSpace.dropWhile (h : NoSpace s) : s.dropWhile isSpace = s := by
  cases s with
  | nil => rfl
  | cons b s => exact List.dropWhile_cons_of_neg (by simp [noSpace_cons.mp h])

theorem noSpace_dropWhile (s : List UInt8) : NoSpace (s.dropWhile isSpace) := by
  intro b hb
  have hne : s.dropWhile isSpace ≠ [] := by
    rintro h
    rw [h] at hb
    cases hb
  have hhead := List.head_dropWhile_not isSpace hne
  rw [List.head?_eq_some_head hne] at hb
  obtain rfl := Option.some.inj hb
  exact hhead

theorem NoSpace.append (h : NoSpace s) (hne : s ≠ []) : NoSpace (s ++ r) := by
  cases s with
  | nil => exact absurd rfl hne
  | cons b s => exact noSpace_cons.mpr (noSpace_cons.mp h)

theorem ofInt_ne_nil (z : ℤ) : ofInt z ≠ [] := by
  unfold ofInt
  split
  · simp
  · exact ofNat_ne_nil _

theorem noSpace_ofInt (z : ℤ) : NoSpace (ofInt z ++ r) := by
  refine NoSpace.append (fun b hb => ?_) (ofInt_ne_nil z)
  unfold ofInt at hb
  split at hb
  · obtain rfl := Option.some.inj hb
    rfl
  · exact (digit_cases (isDigit_of_mem_ofNat (List.mem_of_mem_head? hb))).1

/-- Only digits and a sign are in a number. -/
theorem notMem_ofInt {z : ℤ} (hdigit : isDigit c = false) (hsign : c ≠ 45) : c ∉ ofInt z := by
  have hnat : c ∉ ofNat z.natAbs := fun h => by simp [isDigit_of_mem_ofNat h] at hdigit
  unfold ofInt
  split
  · exact List.not_mem_cons_of_ne_of_not_mem hsign hnat
  · exact hnat

/-- Only digits, signs and commas are in a list of numbers. -/
theorem notMem_printInts {c : UInt8} {zs : List ℤ} (hdigit : isDigit c = false) (hsign : c ≠ 45)
    (hcomma : c ≠ 44) : c ∉ printInts zs := by
  induction zs with
  | nil => simp [printInts, commas]
  | cons z zs ih =>
    cases zs with
    | nil => exact notMem_ofInt hdigit hsign
    | cons z' zs =>
      change c ∉ ofInt z ++ 44 :: printInts (z' :: zs)
      simp only [List.mem_append, List.mem_cons, not_or]
      exact ⟨notMem_ofInt hdigit hsign, hcomma, ih⟩

theorem scanNat_suffix {n : ℕ} (h : scanNat s = some (n, r)) : r <:+ s := by
  unfold scanNat at h
  split at h
  · cases h
  · obtain ⟨-, rfl⟩ := Prod.mk.inj (Option.some.inj h)
    exact List.dropWhile_suffix _

theorem scanInt_suffix {z : ℤ} (h : scanInt s = some (z, r)) : r <:+ s := by
  have hdrop : s.dropWhile isSpace <:+ s := List.dropWhile_suffix _
  unfold scanInt at h
  split at h <;> obtain ⟨⟨n, r'⟩, hscan, heq⟩ := Option.map_eq_some_iff.mp h <;>
    obtain ⟨-, rfl⟩ := Prod.mk.inj heq
  · rename_i hs
    rw [hs] at hdrop
    exact ((scanNat_suffix hscan).trans (List.suffix_cons _ _)).trans hdrop
  · rename_i hs
    rw [hs] at hdrop
    exact ((scanNat_suffix hscan).trans (List.suffix_cons _ _)).trans hdrop
  · exact (scanNat_suffix hscan).trans hdrop

/-! ## What each directive reads -/

theorem sscanf_cons_lit : sscanf (.lit b :: f) s =
    if s.head? = some b then sscanf f s.tail else ([], none) := rfl

theorem sscanf_cons_space : sscanf (.space :: f) s = sscanf f (s.dropWhile isSpace) := rfl

theorem sscanf_cons_int : sscanf (.int :: f) s =
    match scanInt s with
    | none => ([], none)
    | some (z, r) => (sscanf f r).add (.int (toInt32 z)) := rfl

theorem sscanf_cons_upto : sscanf (.upto c :: f) s =
    if s.takeWhile (· ≠ c) = [] then ([], none)
    else (sscanf f (s.dropWhile (· ≠ c))).add (.text (s.takeWhile (· ≠ c))) := rfl

theorem sscanf_cons_long : sscanf (.long :: f) s =
    match scanInt s with
    | none => ([], none)
    | some (z, r) => (sscanf f r).add (.long (toInt64 z)) := rfl

theorem sscanf_cons_outside {cs : List UInt8} : sscanf (.outside cs :: f) s =
    if s.takeWhile (· ∉ cs) = [] then ([], none)
    else (sscanf f (s.dropWhile (· ∉ cs))).add (.text (s.takeWhile (· ∉ cs))) := rfl

@[simp] theorem sscanf_nil : sscanf [] r = ([], some r) := rfl

theorem sscanf_skip : sscanf [.space] r = ([], some (r.dropWhile isSpace)) := rfl

@[simp] theorem sscanf_lit : sscanf (.lit b :: f) (b :: r) = sscanf f r := by
  rw [sscanf_cons_lit, if_pos List.head?_cons, List.tail_cons]

/-- One blank is read, where no other follows. -/
theorem sscanf_space (hb : isSpace b) (hr : NoSpace r) :
    sscanf (.space :: f) (b :: r) = sscanf f r := by
  rw [sscanf_cons_space, List.dropWhile_cons_of_pos hb, hr.dropWhile]

theorem isInt_toInt (v : Int32) : IsInt v.toInt := ⟨v.minValue_le_toInt, v.toInt_lt⟩

theorem toInt32_of_isInt {z : ℤ} (h : IsInt z) : toInt32 z = Int32.ofInt z := by
  obtain ⟨hlo, hhi⟩ := h
  unfold toInt32
  rw [min_eq_left (by omega), max_eq_right (by omega)]

/-- **A number that an `int` holds reads back**, whatever stands behind it but a digit. -/
theorem sscanf_int {z : ℤ} (h : IsInt z) (hr : NoDigit r) :
    sscanf (.int :: f) (ofInt z ++ r) = (sscanf f r).add (.int (Int32.ofInt z)) := by
  rw [sscanf_cons_int, scanInt_ofInt z hr]
  dsimp only
  rw [toInt32_of_isInt h]

/-- The numbers that a `long` holds. -/
def IsLong (z : ℤ) : Prop := -2 ^ 63 ≤ z ∧ z < 2 ^ 63

theorem isLong_toInt (v : Int64) : IsLong v.toInt := ⟨v.minValue_le_toInt, v.toInt_lt⟩

theorem toInt64_of_isLong {z : ℤ} (h : IsLong z) : toInt64 z = Int64.ofInt z := by
  obtain ⟨hlo, hhi⟩ := h
  unfold toInt64
  rw [min_eq_left (by omega), max_eq_right (by omega)]

/-- **A number that a `long` holds reads back**, whatever stands behind it but a digit. -/
theorem sscanf_long {z : ℤ} (h : IsLong z) (hr : NoDigit r) :
    sscanf (.long :: f) (ofInt z ++ r) = (sscanf f r).add (.long (Int64.ofInt z)) := by
  rw [sscanf_cons_long, scanInt_ofInt z hr]
  dsimp only
  rw [toInt64_of_isLong h]

theorem sscanf_char : sscanf (.char :: f) (b :: r) = (sscanf f r).add (.char b) := rfl

/-- **Numbers between commas read back.** -/
theorem sscanf_ints {zs : List ℤ} (h : ∀ z ∈ zs, IsInt z) (hr : NoDigit r) :
    sscanf (ints zs.length ++ f) (printInts zs ++ r) =
      ((zs.map fun z => Value.int (Int32.ofInt z)) ++ (sscanf f r).1, (sscanf f r).2) := by
  induction zs with
  | nil => rfl
  | cons z zs ih =>
    cases zs with
    | nil => exact sscanf_int (h z (by simp)) hr
    | cons z' zs =>
      have hcomma : NoDigit (44 :: (printInts (z' :: zs) ++ r)) := noDigit_cons.mpr rfl
      change sscanf (.int :: .lit 44 :: (ints (z' :: zs).length ++ f))
        (ofInt z ++ 44 :: printInts (z' :: zs) ++ r) = _
      rw [List.append_assoc, List.cons_append, sscanf_int (h z (by simp)) hcomma, sscanf_lit,
        ih fun z hz => h z (List.mem_cons_of_mem _ hz)]
      rfl

theorem takeWhile_upto (h : c ∉ s) : (s ++ c :: r).takeWhile (· ≠ c) = s := by
  rw [List.takeWhile_append_of_pos fun x hx => by simpa using ne_of_mem_of_not_mem hx h]
  simp

theorem dropWhile_upto (h : c ∉ s) : (s ++ c :: r).dropWhile (· ≠ c) = c :: r := by
  rw [List.dropWhile_append_of_pos fun x hx => by simpa using ne_of_mem_of_not_mem hx h]
  simp

/-- **A text reads back** up to its delimiter. -/
theorem sscanf_upto (hne : s ≠ []) (h : c ∉ s) :
    sscanf (.upto c :: f) (s ++ c :: r) = (sscanf f (c :: r)).add (.text s) := by
  rw [sscanf_cons_upto, takeWhile_upto h, dropWhile_upto h, if_neg hne]

/-- **A text reads back** up to one of some delimiters. -/
theorem sscanf_outside {cs : List UInt8} (hne : s ≠ []) (h : ∀ b ∈ s, b ∉ cs) (hc : c ∈ cs) :
    sscanf (.outside cs :: f) (s ++ c :: r) = (sscanf f (c :: r)).add (.text s) := by
  have htake : (s ++ c :: r).takeWhile (· ∉ cs) = s := by
    rw [List.takeWhile_append_of_pos fun b hb => by simpa using h b hb]
    simp [hc]
  have hdrop : (s ++ c :: r).dropWhile (· ∉ cs) = c :: r := by
    rw [List.dropWhile_append_of_pos fun b hb => by simpa using h b hb]
    simp [hc]
  rw [sscanf_cons_outside, htake, hdrop, if_neg hne]

/-- **A text behind blanks reads back** without those at its front. -/
theorem sscanf_word (hb : isSpace b) (hne : s.dropWhile isSpace ≠ []) (h : c ∉ s) :
    sscanf (.space :: .upto c :: f) (b :: (s ++ c :: r)) =
      (sscanf f (c :: r)).add (.text (s.dropWhile isSpace)) := by
  have hdrop : (b :: (s ++ c :: r)).dropWhile isSpace = s.dropWhile isSpace ++ c :: r := by
    rw [List.dropWhile_cons_of_pos hb, List.dropWhile_append]
    simp [hne]
  rw [sscanf_cons_space, hdrop,
    sscanf_upto hne fun hc => h ((List.dropWhile_suffix _).subset hc)]

theorem strchr_append (h : c ∉ s) : strchr (s ++ c :: r) c = some (c :: r) := by
  unfold strchr
  rw [if_pos (by simp), dropWhile_upto h]

theorem next_append (hne : s ≠ []) (h : c ∉ s.tail) :
    next c (some (s ++ c :: r)) = some (c :: r) := by
  cases s with
  | nil => exact absurd rfl hne
  | cons b s => exact strchr_append h

/-- From one delimiter to the next one. -/
theorem next_cons (h : c ∉ s) : next c (some (b :: (s ++ c :: r))) = some (c :: r) := strchr_append h

/-! ## What has been read -/

/-- A text that can be read behind white space. -/
def Readable (s : List UInt8) : Prop := s ≠ [] ∧ NoSpace s

instance : Decidable (Readable s) := inferInstanceAs (Decidable (_ ∧ _))

/-- The values are such as a format reads, the first ones of its directives. `blank` says that the
blanks in front of the text have been skipped. -/
def Reads : (blank : Bool) → List Directive → List Value → Prop
  | _, [], vs => vs = []
  | _, .lit _ :: f, vs => Reads false f vs
  | _, .space :: f, vs => Reads true f vs
  | _, .int :: f, vs => vs = [] ∨ ∃ v vs', vs = .int v :: vs' ∧ Reads false f vs'
  | blank, .upto c :: f, vs =>
    vs = [] ∨ ∃ s vs', vs = .text s :: vs' ∧ (c ∉ s ∧ (blank → Readable s)) ∧
      Reads false f vs'
  | _, .long :: f, vs => vs = [] ∨ ∃ v vs', vs = .long v :: vs' ∧ Reads false f vs'
  | _, .char :: f, vs => vs = [] ∨ ∃ b vs', vs = .char b :: vs' ∧ Reads false f vs'
  | blank, .outside cs :: f, vs =>
    vs = [] ∨ ∃ s vs', vs = .text s :: vs' ∧ ((∀ c ∈ cs, c ∉ s) ∧ (blank → Readable s)) ∧
      Reads false f vs'

theorem reads_nil (blank : Bool) (f : List Directive) : Reads blank f [] := by
  induction f generalizing blank with
  | nil => rfl
  | cons d f ih =>
    cases d with
    | lit => exact ih false
    | space => exact ih true
    | int => exact .inl rfl
    | upto => exact .inl rfl
    | long => exact .inl rfl
    | char => exact .inl rfl
    | outside => exact .inl rfl

theorem reads_lit {blank : Bool} {vs : List Value} :
    Reads blank (.lit b :: f) vs ↔ Reads false f vs := Iff.rfl

theorem reads_space {blank : Bool} {vs : List Value} :
    Reads blank (.space :: f) vs ↔ Reads true f vs := Iff.rfl

theorem reads_int {blank : Bool} {v : Int32} {vs : List Value} :
    Reads blank (.int :: f) (.int v :: vs) ↔ Reads false f vs := by
  simp [Reads]

theorem reads_upto {blank : Bool} {vs : List Value} :
    Reads blank (.upto c :: f) (.text s :: vs) ↔
      (c ∉ s ∧ (blank → Readable s)) ∧ Reads false f vs := by
  simp [Reads]

theorem noSpace_takeWhile {g : UInt8 → Bool} (h : NoSpace r) : NoSpace (r.takeWhile g) := by
  cases r with
  | nil => exact h
  | cons b r =>
    rw [List.takeWhile_cons]
    split
    · exact noSpace_cons.mpr (noSpace_cons.mp h)
    · exact noSpace_nil

/-- **What a format reads**, of any text. -/
theorem sscanf_reads (f : List Directive) (bs : List UInt8) {blank : Bool}
    (hblank : blank → NoSpace bs) : Reads blank f (sscanf f bs).1 := by
  induction f generalizing bs blank with
  | nil => rfl
  | cons d f ih =>
    cases d with
    | lit b =>
      rw [sscanf_cons_lit]
      split
      · exact ih bs.tail (by simp)
      · exact reads_nil false f
    | space => exact ih (bs.dropWhile isSpace) fun _ => noSpace_dropWhile bs
    | int =>
      rw [sscanf_cons_int]
      split
      · exact .inl rfl
      · rename_i z r _
        exact .inr ⟨_, _, rfl, ih r (by simp)⟩
    | upto c =>
      rw [sscanf_cons_upto]
      split
      · exact .inl rfl
      · rename_i hne
        refine .inr ⟨_, _, rfl, ⟨fun hc => ?_, fun h => ⟨hne, noSpace_takeWhile (hblank h)⟩⟩,
          ih _ (by simp)⟩
        simpa using List.mem_takeWhile_imp hc
    | long =>
      rw [sscanf_cons_long]
      split
      · exact .inl rfl
      · rename_i z r _
        exact .inr ⟨_, _, rfl, ih r (by simp)⟩
    | char =>
      cases bs with
      | nil => exact .inl rfl
      | cons b r => exact .inr ⟨_, _, rfl, ih r (by simp)⟩
    | outside cs =>
      rw [sscanf_cons_outside]
      split
      · exact .inl rfl
      · rename_i hne
        refine .inr ⟨_, _, rfl, ⟨fun c hc hmem => ?_, fun h => ⟨hne, noSpace_takeWhile (hblank h)⟩⟩,
          ih _ (by simp)⟩
        have hnot : c ∉ cs := by simpa using List.mem_takeWhile_imp hmem
        exact hnot hc

/-- A text that has been read stood in the text. -/
theorem subset_of_sscanf {f : List Directive} {bs : List UInt8}
    (h : Value.text s ∈ (sscanf f bs).1) : s ⊆ bs := by
  induction f generalizing bs with
  | nil => simp at h
  | cons d f ih =>
    cases d with
    | lit b =>
      rw [sscanf_cons_lit] at h
      split at h
      · exact List.Subset.trans (ih h) (List.tail_suffix bs).subset
      · cases h
    | space => exact List.Subset.trans (ih h) (List.dropWhile_suffix _).subset
    | int =>
      rw [sscanf_cons_int] at h
      split at h
      · cases h
      · rename_i z r hscan
        obtain - | ⟨-, h⟩ := h
        exact List.Subset.trans (ih h) (scanInt_suffix hscan).subset
    | upto c =>
      rw [sscanf_cons_upto] at h
      split at h
      · cases h
      · obtain - | ⟨-, h⟩ := h
        · exact (List.takeWhile_prefix _).subset
        · exact List.Subset.trans (ih h) (List.dropWhile_suffix _).subset
    | long =>
      rw [sscanf_cons_long] at h
      split at h
      · cases h
      · rename_i z r hscan
        obtain - | ⟨-, h⟩ := h
        exact List.Subset.trans (ih h) (scanInt_suffix hscan).subset
    | char =>
      cases bs with
      | nil => cases h
      | cons b r =>
        obtain - | ⟨-, h⟩ := h
        exact List.Subset.trans (ih h) (List.subset_cons_self b r)
    | outside cs =>
      rw [sscanf_cons_outside] at h
      split at h
      · cases h
      · obtain - | ⟨-, h⟩ := h
        · exact (List.takeWhile_prefix _).subset
        · exact List.Subset.trans (ih h) (List.dropWhile_suffix _).subset

/-- What is left of a text is its end. -/
theorem suffix_of_sscanf {f : List Directive} {bs : List UInt8} {vs : List Value}
    (h : sscanf f bs = (vs, some r)) : r <:+ bs := by
  induction f generalizing bs vs with
  | nil =>
    obtain rfl := Option.some.inj (Prod.mk.inj h).2
    exact List.suffix_rfl
  | cons d f ih =>
    cases d with
    | lit b =>
      rw [sscanf_cons_lit] at h
      split at h
      · exact (ih h).trans (List.tail_suffix bs)
      · cases h
    | space => exact (ih h).trans (List.dropWhile_suffix _)
    | int =>
      rw [sscanf_cons_int] at h
      split at h
      · cases h
      · rename_i z r' hscan
        obtain ⟨-, h⟩ := Prod.mk.inj h
        exact (ih (Prod.ext rfl h)).trans (scanInt_suffix hscan)
    | upto c =>
      rw [sscanf_cons_upto] at h
      split at h
      · cases h
      · obtain ⟨-, h⟩ := Prod.mk.inj h
        exact (ih (Prod.ext rfl h)).trans (List.dropWhile_suffix _)
    | long =>
      rw [sscanf_cons_long] at h
      split at h
      · cases h
      · rename_i z r' hscan
        obtain ⟨-, h⟩ := Prod.mk.inj h
        exact (ih (Prod.ext rfl h)).trans (scanInt_suffix hscan)
    | char =>
      cases bs with
      | nil => cases h
      | cons b r' =>
        obtain ⟨-, h⟩ := Prod.mk.inj h
        exact (ih (Prod.ext rfl h)).trans (List.suffix_cons b r')
    | outside cs =>
      rw [sscanf_cons_outside] at h
      split at h
      · cases h
      · obtain ⟨-, h⟩ := Prod.mk.inj h
        exact (ih (Prod.ext rfl h)).trans (List.dropWhile_suffix _)

theorem subset_of_next {s' : List UInt8} (h : next c (some s) = some s') : s' ⊆ s := by
  change strchr s.tail c = some s' at h
  unfold strchr at h
  split at h
  · obtain rfl := Option.some.inj h
    exact List.Subset.trans (List.dropWhile_suffix _).subset (List.tail_suffix s).subset
  · cases h

end Directives

end Scanf
