import Nezumi.Script.Parse

/-!
# What a parser does to the compiler (`map/script.c`)

* `addScriptl_eq` and its like: each operation as a function of the state.
* `Parser.Extends R m`: every run of `m` is in the relation `R`, with lemmas for `>>=` and `pure`.
* `Primitive R`: each operation by which an expression changes the state is in `R`.
* `parse_extends`: then every parser of an expression or a line is in `R`.
-/

namespace Nezumi

open Decimal BackPatch

/-! ## Operations -/

section Operations

variable {c : Compiler} {bs : List UInt8} {l : ℕ} {z : ℤ}

/-- Bytes at the end of the code. -/
def Compiler.emit (c : Compiler) : List UInt8 → Compiler
  | [] => c
  | b :: bs =>
    ({ c with scriptBuf := Function.update c.scriptBuf c.scriptPos b,
              scriptPos := c.scriptPos + 1 } : Compiler).emit bs

theorem addScriptb_eq (b : UInt8) (c : Compiler) : addScriptb b c = some ((), c.emit [b]) := rfl

theorem forM_addScriptb (bs : List UInt8) (c : Compiler) :
    (bs.forM addScriptb) c = some ((), c.emit bs) := by
  induction bs generalizing c with
  | nil => rfl
  | cons b bs ih => exact ih _

@[simp] theorem emit_strData : (c.emit bs).strData = c.strData := by
  induction bs generalizing c with
  | nil => rfl
  | cons b bs ih => exact ih

@[simp] theorem emit_strNum : (c.emit bs).strNum = c.strNum := by
  induction bs generalizing c with
  | nil => rfl
  | cons b bs ih => exact ih

@[simp] theorem emit_words : (c.emit bs).words = c.words := by
  induction bs generalizing c with
  | nil => rfl
  | cons b bs ih => exact ih

@[simp] theorem emit_lines : (c.emit bs).lines = c.lines := by
  induction bs generalizing c with
  | nil => rfl
  | cons b bs ih => exact ih

@[simp] theorem emit_parseCmd : (c.emit bs).parseCmd = c.parseCmd := by
  induction bs generalizing c with
  | nil => rfl
  | cons b bs ih => exact ih

@[simp] theorem emit_first : (c.emit bs).first = c.first := by
  induction bs generalizing c with
  | nil => rfl
  | cons b bs ih => exact ih

@[simp] theorem emit_scriptPos : (c.emit bs).scriptPos = c.scriptPos + bs.length := by
  induction bs generalizing c with
  | nil => rfl
  | cons b bs ih =>
    rw [Compiler.emit, ih, List.length_cons]
    dsimp only
    omega

/-- The code that is there stays. -/
theorem emit_of_lt {t : ℕ} (h : t < c.scriptPos) : (c.emit bs).scriptBuf t = c.scriptBuf t := by
  induction bs generalizing c with
  | nil => rfl
  | cons b bs ih =>
    rw [Compiler.emit, ih (by dsimp only; omega)]
    exact Function.update_of_ne (by omega) _ _

theorem emit_at {i : ℕ} (h : i < bs.length) :
    (c.emit bs).scriptBuf (c.scriptPos + i) = bs[i] := by
  induction bs generalizing c i with
  | nil => cases h
  | cons b bs ih =>
    cases i with
    | zero =>
      rw [Compiler.emit, emit_of_lt (by dsimp only; omega)]
      exact Function.update_self _ _ _
    | succ i =>
      rw [List.length_cons] at h
      rw [Compiler.emit, show c.scriptPos + (i + 1) = c.scriptPos + 1 + i by omega]
      exact ih (by omega)

theorem emit_append (bs bs' : List UInt8) : c.emit (bs ++ bs') = (c.emit bs).emit bs' := by
  induction bs generalizing c with
  | nil => rfl
  | cons b bs ih => exact ih

/-- The three bytes of an operand. -/
def operand (z : ℤ) : List UInt8 := [byteOf z 0, byteOf z 1, byteOf z 2]

theorem read_operand (code : UInt8) (z : ℤ) :
    (BackPatch.read (c.emit (code :: operand z)).scriptBuf (c.scriptPos + 1) : ℤ) =
      z % 2 ^ 24 := by
  have h0 := byteOf_toNat z 0
  have h1 := byteOf_toNat z 1
  have h2 := byteOf_toNat z 2
  unfold BackPatch.read
  rw [emit_at (i := 1) (by simp [operand]),
    show c.scriptPos + 1 + 1 = c.scriptPos + 2 by omega, emit_at (i := 2) (by simp [operand]),
    show c.scriptPos + 1 + 2 = c.scriptPos + 3 by omega, emit_at (i := 3) (by simp [operand])]
  simp only [operand, List.getElem_cons_succ, List.getElem_cons_zero]
  push_cast
  omega

theorem addScriptc_eq (a : Code) (c : Compiler) :
    addScriptc a c = some ((), c.emit [UInt8.ofNat a.num]) := by
  unfold addScriptc
  rw [forM_addScriptb]
  cases a <;> rfl

theorem addOperand_eq (z : ℤ) (c : Compiler) : addOperand z c = some ((), c.emit (operand z)) := rfl

/-- The bytes of `add_scripti`. -/
def scriptiBytes (a : Int32) : List UInt8 :=
  if a < 0 then [byteOf a.toInt 0 ||| 0x80] else intBytes (a.toInt.toNat + 1) a.toInt.toNat

theorem addScripti_eq (a : Int32) (c : Compiler) :
    addScripti a c = some ((), c.emit (scriptiBytes a)) := by
  unfold addScripti scriptiBytes
  split
  · rfl
  · exact forM_addScriptb _ _

/-- The first byte of a number has its highest bit set. -/
theorem scriptiBytes_head (a : Int32) : ∃ b bs, scriptiBytes a = b :: bs ∧ 0x80 ≤ b.toNat := by
  unfold scriptiBytes
  split
  · refine ⟨_, [], rfl, ?_⟩
    rw [UInt8.toNat_or]
    exact Nat.right_le_or
  · unfold intBytes
    split
    · refine ⟨_, _, rfl, ?_⟩
      rw [UInt8.toNat_ofNat']
      omega
    · refine ⟨_, [], rfl, ?_⟩
      rw [UInt8.toNat_ofNat']
      omega

/-- The code of a reference. -/
def refBytes (d : StrData) (l : ℕ) : List UInt8 :=
  match d.type with
  | .pos => 1 :: operand d.label
  | .nop => 8 :: operand d.backpatch
  | .int => scriptiBytes d.val
  | _ => 8 :: operand l

/-- A reference to an entry. One that is still open becomes the head of its chain. -/
def Compiler.ref (c : Compiler) (l : ℕ) : Compiler :=
  let c' := c.emit (refBytes (c.strData l) l)
  if (c.strData l).type = .nop then
    c'.setStr l fun d => { d with backpatch := c.scriptPos + 1 }
  else c'

theorem emit_setStr (f : StrData → StrData) : (c.setStr l f).emit bs = (c.emit bs).setStr l f := by
  induction bs generalizing c with
  | nil => rfl
  | cons b bs ih =>
    exact ih (c := { c with
      scriptBuf := Function.update c.scriptBuf c.scriptPos b, scriptPos := c.scriptPos + 1 })

theorem addScriptl_eq (l : ℕ) (c : Compiler) : addScriptl l c = some ((), c.ref l) := by
  unfold addScriptl Compiler.ref refBytes
  change (match (c.strData l).type with
    | .pos => _
    | .nop => _
    | .int => _
    | _ => _ : Parser Unit) c = _
  cases htype : (c.strData l).type
  case nop =>
    change addOperand _ ((c.emit [8]).setStr l _) = _
    rw [addOperand_eq, if_pos rfl, emit_setStr]
    rfl
  case pos => rfl
  case int => exact addScripti_eq _ _
  all_goals rfl

@[simp] theorem ref_strNum : (c.ref l).strNum = c.strNum := by
  unfold Compiler.ref
  dsimp only
  split <;> simp [Compiler.setStr]

@[simp] theorem ref_words : (c.ref l).words = c.words := by
  unfold Compiler.ref
  dsimp only
  split <;> simp [Compiler.setStr]

@[simp] theorem ref_lines : (c.ref l).lines = c.lines := by
  unfold Compiler.ref
  dsimp only
  split <;> simp [Compiler.setStr]

@[simp] theorem ref_scriptBuf :
    (c.ref l).scriptBuf = (c.emit (refBytes (c.strData l) l)).scriptBuf := by
  unfold Compiler.ref
  dsimp only
  split <;> simp [Compiler.setStr]

@[simp] theorem ref_scriptPos :
    (c.ref l).scriptPos = c.scriptPos + (refBytes (c.strData l) l).length := by
  unfold Compiler.ref
  dsimp only
  split <;> simp [Compiler.setStr]

theorem refBytes_length_pos (d : StrData) (l : ℕ) : 0 < (refBytes d l).length := by
  unfold refBytes
  split
  · simp
  · simp
  · obtain ⟨b, bs, heq, -⟩ := scriptiBytes_head d.val
    rw [heq]
    simp
  · simp

def Compiler.addRef (c : Compiler) (name : VarName) (l : ℕ) : Compiler :=
  { c.ref l with words := c.words ++ [Word.ref name l c.scriptPos (c.ref l).scriptPos] }

theorem addRef_eq (name : VarName) (l : ℕ) (c : Compiler) :
    addRef name l c = some ((), c.addRef name l) := by
  change (do addScriptl l; noteWord _ : Parser Unit) c = _
  change (addScriptl l c).bind _ = _
  rw [addScriptl_eq]
  unfold Compiler.addRef
  rw [← ref_words (c := c) (l := l)]
  rfl

def Compiler.addNext (c : Compiler) : Compiler :=
  { c.ref labelNextline with
    words := c.words ++ [Word.next c.scriptPos (c.ref labelNextline).scriptPos] }

theorem addNext_eq (c : Compiler) : addNext c = some ((), c.addNext) := by
  change (addScriptl labelNextline c).bind _ = _
  rw [addScriptl_eq]
  unfold Compiler.addNext
  rw [← ref_words (c := c) (l := labelNextline)]
  rfl

/-! ## The string table -/

theorem searchStr_range {p : VarName} {i : ℕ} (h : searchStr c p = some i) :
    labelStart ≤ i ∧ i < c.strNum := by
  have hmem := List.mem_of_find?_eq_some h
  rw [List.mem_range'_1] at hmem
  omega

/-- The entry of a name is in the table. -/
theorem addStr_range (h : labelStart ≤ c.strNum) (p : VarName) :
    labelStart ≤ (c.addStr p).1 ∧ (c.addStr p).1 < (c.addStr p).2.strNum := by
  unfold Compiler.addStr
  split
  · rename_i i hi
    exact searchStr_range hi
  · split
    · rename_i i hi
      exact searchStr_range hi
    · exact ⟨h, Nat.lt_succ_self _⟩

/-- A name has an entry, or gets one. -/
theorem addStr_cases' (c : Compiler) (p : VarName) :
    ((c.addStr p).2 = c ∧ (c.addStr p).1 < c.strNum) ∨ c.addStr p = (c.strNum, c.newStr p) := by
  unfold Compiler.addStr
  split
  · rename_i i hi
    exact .inl ⟨rfl, (searchStr_range hi).2⟩
  · split
    · rename_i i hi
      exact .inl ⟨rfl, (searchStr_range hi).2⟩
    · exact .inr rfl

end Operations

/-! ## Relations that parsers keep -/

section Extends

variable {α β : Type} {R : Compiler → Compiler → Prop}

/-- Every run of the parser is in the relation, and drops no entry of the string table. -/
def Parser.Extends (R : Compiler → Compiler → Prop) (m : Parser α) : Prop :=
  ∀ c a c', labelStart ≤ c.strNum → m c = some (a, c') → R c c' ∧ c.strNum ≤ c'.strNum

/-- Each operation of an expression is in the relation. -/
structure Primitive (R : Compiler → Compiler → Prop) : Prop where
  refl : ∀ c, R c c
  trans : ∀ {c c' c''}, R c c' → R c' c'' → R c c''
  emit : ∀ c bs, labelStart ≤ c.strNum → R c (Compiler.emit c bs)
  enter : ∀ c p, labelStart ≤ c.strNum → R c (Compiler.enter c p).2
  cmd : ∀ c l, R c { c with parseCmd := l }
  addRef : ∀ c name l, labelStart ≤ l → l < c.strNum → R c (Compiler.addRef c name l)
  addNext : ∀ c, labelStart ≤ c.strNum → R c (Compiler.addNext c)
  call : ∀ c, R c { c with words := c.words ++ [Word.call] }

theorem Parser.bind_eq {m : Parser α} {k : α → Parser β} {c c'' : Compiler} {b : β}
    (h : (m >>= k) c = some (b, c'')) : ∃ a c', m c = some (a, c') ∧ k a c' = some (b, c'') := by
  obtain ⟨⟨a, c'⟩, hm, hk⟩ := Option.bind_eq_some_iff.mp h
  exact ⟨a, c', hm, hk⟩

theorem Parser.pure_eq {a b : α} {c c' : Compiler} (h : (pure a : Parser α) c = some (b, c')) :
    a = b ∧ c = c' := Prod.mk.inj (Option.some.inj h)

section Rules

variable {m : Parser α} {k : α → Parser β}

theorem extends_pure (hR : Primitive R) (a : α) : (pure a : Parser α).Extends R := by
  intro c b c' _ h
  obtain ⟨-, rfl⟩ := Parser.pure_eq h
  exact ⟨hR.refl c, le_rfl⟩

theorem extends_failure : (failure : Parser α).Extends R := by
  intro c b c' _ h
  cases h

theorem Parser.Extends.bind (hR : Primitive R) (hm : m.Extends R) (hk : ∀ a, (k a).Extends R) :
    (m >>= k).Extends R := by
  intro c b c'' hc h
  obtain ⟨a, c', hm', hk'⟩ := Parser.bind_eq h
  obtain ⟨h1, hle⟩ := hm c a c' hc hm'
  obtain ⟨h2, hle'⟩ := hk a c' b c'' (hc.trans hle) hk'
  exact ⟨hR.trans h1 h2, hle.trans hle'⟩

theorem Parser.Extends.ite {p : Prop} [Decidable p] {m m' : Parser α} (hm : m.Extends R)
    (hm' : m'.Extends R) : (if p then m else m').Extends R := by
  split
  · exact hm
  · exact hm'

theorem extends_addScriptc (hR : Primitive R) (a : Code) : (addScriptc a).Extends R := by
  intro c _ c' hc h
  rw [addScriptc_eq] at h
  obtain ⟨-, rfl⟩ := Prod.mk.inj (Option.some.inj h)
  exact ⟨hR.emit c _ hc, emit_strNum.ge⟩

theorem extends_addScripti (hR : Primitive R) (a : Int32) : (addScripti a).Extends R := by
  intro c _ c' hc h
  rw [addScripti_eq] at h
  obtain ⟨-, rfl⟩ := Prod.mk.inj (Option.some.inj h)
  exact ⟨hR.emit c _ hc, emit_strNum.ge⟩

theorem extends_addScriptb (hR : Primitive R) (b : UInt8) : (addScriptb b).Extends R := by
  intro c _ c' hc h
  rw [addScriptb_eq] at h
  obtain ⟨-, rfl⟩ := Prod.mk.inj (Option.some.inj h)
  exact ⟨hR.emit c _ hc, emit_strNum.ge⟩

theorem extends_forM (hR : Primitive R) (bs : List UInt8) : (bs.forM addScriptb).Extends R := by
  intro c _ c' hc h
  rw [forM_addScriptb] at h
  obtain ⟨-, rfl⟩ := Prod.mk.inj (Option.some.inj h)
  exact ⟨hR.emit c _ hc, emit_strNum.ge⟩

theorem extends_addNext (hR : Primitive R) : addNext.Extends R := by
  intro c _ c' hc h
  rw [addNext_eq] at h
  obtain ⟨-, rfl⟩ := Prod.mk.inj (Option.some.inj h)
  exact ⟨hR.addNext c hc, ref_strNum.ge⟩

theorem extends_call (hR : Primitive R) : (noteWord fun _ => .call).Extends R := by
  intro c _ c' _ h
  obtain ⟨-, rfl⟩ := Prod.mk.inj (Option.some.inj h)
  exact ⟨hR.call c, le_rfl⟩

theorem extends_get {k : Compiler → Parser α} (hk : ∀ c, (k c).Extends R) :
    (do let c ← get; k c : Parser α).Extends R := fun c => hk c c

end Rules

theorem addStr_strNum (c : Compiler) (p : VarName) : c.strNum ≤ (c.addStr p).2.strNum := by
  rcases addStr_cases' c p with ⟨h, -⟩ | h
  · rw [h]
  · rw [h]
    exact Nat.le_succ _

/-! ## The parsers -/

variable {f : ℕ}

/-- What `parse_simpleexpr` does with a name `w` of the entry `l`, with `r` behind it. -/
def parseName (f : ℕ) (w : VarName) (r : List UInt8) (l : ℕ) : Parser (List UInt8) := do
  let c ← get
  if (c.strData l).type ≠ .func ∧ r.head? = some 91 then
    match searchStr c getelementofarray with
    | none => failure
    | some g =>
      addRef getelementofarray g
      addScriptc .arg
      addRef w l
      let p ← parseSubexpr f r.tail (-1)
      let p := skipSpace p
      if p.head? = some 93 then
        addScriptc .func
        return p.tail
      else failure
  else
    addRef w l
    return r

/-- A name with what follows it. -/
theorem extends_name (hR : Primitive R) (hsub : ∀ p limit, (parseSubexpr f p limit).Extends R)
    (w : VarName) (r : List UInt8) {c c' : Compiler} {l : ℕ} {q : List UInt8}
    (hl : labelStart ≤ l) (hlt : l < c.strNum) (h : parseName f w r l c = some (q, c')) :
    R c c' ∧ c.strNum ≤ c'.strNum := by
  have hrest : (do
      let p ← parseSubexpr f r.tail (-1)
      let p := skipSpace p
      if p.head? = some 93 then
        addScriptc .func
        return p.tail
      else failure : Parser (List UInt8)).Extends R :=
    (hsub _ _).bind hR fun _ =>
      ((extends_addScriptc hR _).bind hR fun _ => extends_pure hR _).ite extends_failure
  unfold parseName at h
  obtain ⟨_, _, hget, h⟩ := Parser.bind_eq h
  obtain ⟨rfl, rfl⟩ := Prod.mk.inj (Option.some.inj hget)
  split at h
  · rcases hg : searchStr c getelementofarray with _ | g
    · rw [hg] at h
      cases h
    · rw [hg] at h
      obtain ⟨hg1, hg2⟩ := searchStr_range hg
      obtain ⟨_, c1, h1, h⟩ := Parser.bind_eq h
      rw [addRef_eq] at h1
      obtain ⟨-, rfl⟩ := Prod.mk.inj (Option.some.inj h1)
      obtain ⟨_, c2, h2, h⟩ := Parser.bind_eq h
      rw [addScriptc_eq] at h2
      obtain ⟨-, rfl⟩ := Prod.mk.inj (Option.some.inj h2)
      obtain ⟨_, c3, h3, h⟩ := Parser.bind_eq h
      rw [addRef_eq] at h3
      obtain ⟨-, rfl⟩ := Prod.mk.inj (Option.some.inj h3)
      have hnum : (c.addRef getelementofarray g).strNum = c.strNum := ref_strNum
      have hnum' : (((c.addRef getelementofarray g).emit [UInt8.ofNat Code.arg.num]).addRef
          w l).strNum = c.strNum := ref_strNum.trans (emit_strNum.trans hnum)
      obtain ⟨hr, hle⟩ := hrest _ _ _ (by omega) h
      have hstep : R c ((c.addRef getelementofarray g).emit [UInt8.ofNat Code.arg.num]) :=
        hR.trans (hR.addRef c _ g hg1 hg2) (hR.emit _ _ (by omega))
      have hstep' := hR.addRef ((c.addRef getelementofarray g).emit [UInt8.ofNat Code.arg.num]) w l
        hl (by rw [emit_strNum, hnum]; exact hlt)
      exact ⟨hR.trans (hR.trans hstep hstep') hr, by omega⟩
  · obtain ⟨_, c1, h1, h⟩ := Parser.bind_eq h
    rw [addRef_eq] at h1
    obtain ⟨-, rfl⟩ := Prod.mk.inj (Option.some.inj h1)
    obtain ⟨-, rfl⟩ := Parser.pure_eq h
    exact ⟨hR.addRef c w l hl hlt, ref_strNum.ge⟩

/-- What `parse_simpleexpr` does with a name. -/
def parseWord (f : ℕ) (w : VarName) (r : List UInt8) : Parser (List UInt8) := do
  let l ← Parser.addStr w
  modify fun c => { c with parseCmd := l }
  parseName f w r l

theorem parseWord_eq (f : ℕ) (w : VarName) (r : List UInt8) (c : Compiler) : parseWord f w r c =
    parseName f w r (c.enter w).1 { (c.enter w).2 with parseCmd := (c.enter w).1 } := rfl

theorem extends_word (hR : Primitive R) (hsub : ∀ p limit, (parseSubexpr f p limit).Extends R)
    (w : VarName) (r : List UInt8) : (parseWord f w r).Extends R := by
  intro c q c' hc h
  rw [parseWord_eq] at h
  obtain ⟨hl, hlt⟩ := addStr_range hc w
  have hle := addStr_strNum c w
  obtain ⟨hr, hle'⟩ := extends_name
    (c := { (c.enter w).2 with parseCmd := (c.enter w).1 }) hR hsub w r hl hlt h
  exact ⟨hR.trans (hR.enter c _ hc) (hR.trans (hR.cmd _ _) hr), hle.trans hle'⟩

theorem extends_simpleexpr (hR : Primitive R)
    (hsub : ∀ p limit, (parseSubexpr f p limit).Extends R) (p : List UInt8) :
    (parseSimpleexpr (f + 1) p).Extends R := by
  unfold parseSimpleexpr
  dsimp only
  refine extends_failure.ite ?_
  refine ((hsub _ _).bind hR fun _ => (extends_pure hR _).ite extends_failure).ite ?_
  refine ((extends_addScripti hR _).bind hR fun _ => extends_pure hR _).ite ?_
  refine ((extends_addScriptc hR _).bind hR fun _ => ?_).ite ?_
  · split
    · exact extends_failure
    · exact (extends_forM hR _).bind hR fun _ => (extends_addScriptb hR _).bind hR fun _ =>
        extends_pure hR _
  · exact extends_word hR hsub _ _

theorem extends_subexpr (hR : Primitive R) (hsimple : ∀ p, (parseSimpleexpr f p).Extends R)
    (hsub : ∀ p limit, (parseSubexpr f p limit).Extends R)
    (hops : ∀ p limit, (parseOperators f p limit).Extends R) (p : List UInt8) (limit : ℤ) :
    (parseSubexpr (f + 1) p limit).Extends R := by
  unfold parseSubexpr
  dsimp only
  refine ((extends_addNext hR).bind hR fun _ => extends_pure hR _).ite ?_
  split
  · exact (hsub _ _).bind hR fun _ => (extends_addScriptc hR _).bind hR fun _ =>
      (extends_pure hR _).bind hR fun _ => hops _ _
  · exact (hsimple _).bind hR fun _ => hops _ _

theorem extends_operators (hR : Primitive R)
    (hsub : ∀ p limit, (parseSubexpr f p limit).Extends R)
    (hops : ∀ p limit, (parseOperators f p limit).Extends R)
    (hargs : ∀ n p, (parseArgs f n p).Extends R) (p : List UInt8) (limit : ℤ) :
    (parseOperators (f + 1) p limit).Extends R := by
  unfold parseOperators
  split
  · exact extends_pure hR _
  · rename_i op opl len _
    have hrest (q : List UInt8) : (do
        addScriptc op
        parseOperators f (skipSpace q) limit : Parser (List UInt8)).Extends R :=
      (extends_addScriptc hR _).bind hR fun _ => hops _ _
    dsimp only
    refine Parser.Extends.ite ?_ ((hsub _ _).bind hR fun _ => hrest _)
    exact extends_get fun c => extends_failure.ite
      ((extends_call hR).bind hR fun _ => (extends_addScriptc hR _).bind hR fun _ =>
        (hargs _ _).bind hR fun _ => hrest _)

theorem extends_args (hR : Primitive R) (hsub : ∀ p limit, (parseSubexpr f p limit).Extends R)
    (hargs : ∀ n p, (parseArgs f n p).Extends R) (n : ℕ) (p : List UInt8) :
    (parseArgs (f + 1) n p).Extends R := by
  unfold parseArgs
  exact (hsub _ _).bind hR fun _ => (hargs _ _).ite ((extends_pure hR _).ite extends_failure)

/-- **Every parser of an expression is in the relation**, if each operation is. -/
theorem parse_extends (hR : Primitive R) (f : ℕ) :
    (∀ p, (parseSimpleexpr f p).Extends R) ∧ (∀ p limit, (parseSubexpr f p limit).Extends R) ∧
      (∀ p limit, (parseOperators f p limit).Extends R) ∧
      ∀ n p, (parseArgs f n p).Extends R := by
  induction f with
  | zero =>
    exact ⟨fun _ => extends_failure, fun _ _ => extends_failure, fun _ _ => extends_failure,
      fun _ _ => extends_failure⟩
  | succ f ih =>
    obtain ⟨hsimple, hsub, hops, hargs⟩ := ih
    exact ⟨extends_simpleexpr hR hsub, extends_subexpr hR hsimple hsub hops,
      extends_operators hR hsub hops hargs, extends_args hR hsub hargs⟩

theorem extends_expr (hR : Primitive R) (f : ℕ) (p : List UInt8) : (parseExpr f p).Extends R := by
  unfold parseExpr
  split
  all_goals first
    | exact extends_failure
    | exact (parse_extends hR f).2.1 _ _

theorem extends_params (hR : Primitive R) (f n : ℕ) (p : List UInt8) :
    (parseParams f n p).Extends R := by
  induction n generalizing p with
  | zero => exact extends_pure hR _
  | succ n ih =>
    unfold parseParams
    exact ((extends_expr hR f p).bind hR fun _ => ih _).ite (extends_pure hR _)

theorem extends_line (hR : Primitive R) (f : ℕ) (p : List UInt8) : (parseLine f p).Extends R := by
  unfold parseLine
  dsimp only
  refine (extends_pure hR _).ite ?_
  refine ((parse_extends hR f).1 _).bind hR fun _ => ?_
  refine (extends_addScriptc hR _).bind hR fun _ => ?_
  refine (extends_params hR f _ _).bind hR fun _ => ?_
  exact ((extends_addScriptc hR _).bind hR fun _ => extends_pure hR _).ite extends_failure

end Extends

end Nezumi
