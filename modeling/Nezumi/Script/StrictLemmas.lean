import Nezumi.Lib.Ensures
import Nezumi.Script.Strict
import Nezumi.Script.ParseLemmas

/-!
# How far an iteration gets

* `skipSpace_suffix`, `skipWord_suffix`, `stringEnd_suffix`, `strtoul_suffix`: what is left of a
  text is its end.
* `NothingAt`: no expression starts at a text. `Iteration.Idle` is what an iteration starts with
  that does not advance.
* `Iteration.Exact`: an iteration advances if and only if it is not idle. `Logs`: the iterations
  that are written down are exact.
* `subexpr_spec`, `params_spec`, `line_spec`: what the parsers leave of a text. They are never
  out of fuel.
-/

namespace Nezumi

namespace Strict

/-! ## Texts -/

section Texts

variable {p q : List UInt8}

theorem skipBlock_suffix (prev : UInt8) (p : List UInt8) : skipBlock prev p <:+ p := by
  induction p generalizing prev with
  | nil => exact List.suffix_rfl
  | cons b t ih =>
    unfold skipBlock
    split
    · exact List.suffix_cons b t
    · exact (ih b).trans (List.suffix_cons b t)

theorem skipSpaceLoop_suffix (f : ℕ) (p : List UInt8) : skipSpaceLoop f p <:+ p := by
  induction f generalizing p with
  | zero => exact List.suffix_rfl
  | succ f ih =>
    have hdrop : p.dropWhile Decimal.isSpace <:+ p := List.dropWhile_suffix _
    unfold skipSpaceLoop
    split
    · rename_i t ht
      rw [ht] at hdrop
      refine (ih _).trans ((List.dropWhile_suffix _).trans (List.IsSuffix.trans ?_ hdrop))
      exact (List.suffix_cons 47 t).trans (List.suffix_cons 47 _)
    · rename_i t ht
      rw [ht] at hdrop
      exact (ih _).trans ((skipBlock_suffix _ _).trans ((List.suffix_cons 47 _).trans hdrop))
    · exact hdrop

theorem skipSpace_suffix (p : List UInt8) : skipSpace p <:+ p := skipSpaceLoop_suffix _ p

theorem skipByte_suffix (b : UInt8) (p : List UInt8) : skipByte b p <:+ p := by
  unfold skipByte
  split
  · exact List.suffix_rfl
  · split
    · exact List.suffix_cons _ _
    · exact List.suffix_rfl

theorem skipWordBytes_suffix (p : List UInt8) : skipWordBytes p <:+ p := by
  induction p using skipWordBytes.induct with
  | case1 => exact List.suffix_rfl
  | case2 b h =>
    rw [skipWordBytes, if_pos h]
    exact List.nil_suffix
  | case3 b h =>
    rw [skipWordBytes, if_neg h]
  | case4 b b' t h ih =>
    rw [skipWordBytes, if_pos h]
    exact ih.trans ((List.suffix_cons b' t).trans (List.suffix_cons b _))
  | case5 b b' t h h' ih =>
    rw [skipWordBytes, if_neg h, if_pos h']
    exact ih.trans (List.suffix_cons b _)
  | case6 b b' t h h' =>
    rw [skipWordBytes, if_neg h, if_neg h']

theorem skipWord_suffix (p : List UInt8) : skipWord p <:+ p :=
  (skipByte_suffix _ _).trans ((skipWordBytes_suffix _).trans ((skipByte_suffix _ _).trans
    ((skipByte_suffix _ _).trans ((skipByte_suffix _ _).trans (skipByte_suffix _ _)))))

/-- An answer of the rest of a string, with one more byte. -/
theorem map_cons_ok {b : UInt8} {r : Except Stop (List UInt8 × List UInt8)} {s : List UInt8}
    (h : (r.map fun a => (b :: a.1, a.2)) = .ok (s, q)) : ∃ s', r = .ok (s', q) := by
  cases r with
  | error e => cases h
  | ok a =>
    obtain ⟨-, rfl⟩ := Prod.mk.inj (Except.ok.inj h)
    exact ⟨a.1, rfl⟩

theorem stringEnd_suffix {prev : UInt8} {s : List UInt8} (h : stringEnd prev p = .ok (s, q)) :
    q <:+ p := by
  fun_induction stringEnd prev p generalizing s with
  | case1 => cases h
  | case2 prev t =>
    obtain ⟨-, rfl⟩ := Prod.mk.inj (Except.ok.inj h)
    exact List.suffix_cons 34 t
  | case3 => cases h
  | case4 prev b hb hesc b' t ih =>
    obtain ⟨s', hs⟩ := map_cons_ok h
    exact (ih hs).trans ((List.suffix_cons b' t).trans (List.suffix_cons b _))
  | case5 => cases h
  | case6 prev b t hb hesc hline ih =>
    obtain ⟨s', hs⟩ := map_cons_ok h
    exact (ih hs).trans (List.suffix_cons b t)

theorem stringEnd_error {prev : UInt8} {e : Stop} (h : stringEnd prev p = .error e) :
    e ≠ .fuel := by
  have hmap {b : UInt8} {r : Except Stop (List UInt8 × List UInt8)}
      (h : (r.map fun a => (b :: a.1, a.2)) = .error e) : r = .error e := by
    cases r with
    | error e => exact congrArg Except.error (Except.error.inj h)
    | ok a => cases h
  fun_induction stringEnd prev p with
  | case1 | case3 | case5 =>
    obtain rfl := Except.error.inj h
    exact Stop.noConfusion
  | case2 => cases h
  | case4 prev b hb hesc b' t ih => exact ih (hmap h)
  | case6 prev b t hb hesc hline ih => exact ih (hmap h)

/-- The digits of a number that has one are shorter without it. -/
theorem dropWhile_digit {f : UInt8 → Bool} {b : UInt8} {t : List UInt8} (h : f b = true) :
    (b :: t).dropWhile f <:+ t := by
  rw [List.dropWhile_cons_of_pos h]
  exact List.dropWhile_suffix _

theorem numberBase_suffix {b : UInt8} {t : List UInt8} (h : Decimal.isDigit b = true) :
    (numberBase (b :: t)).2.dropWhile (isDigitOf (numberBase (b :: t)).1) <:+ t := by
  have hten : isDigitOf 10 b = true := by
    unfold isDigitOf digitVal
    rw [if_pos h]
    unfold Decimal.isDigit at h
    simp at h ⊢
    have := h.2
    have := UInt8.le_iff_toNat_le.mp h.1
    have := UInt8.le_iff_toNat_le.mp h.2
    simp at *
    omega
  have hzero : isDigitOf 8 48 = true := by decide
  unfold numberBase
  split
  · rename_i x d t' heq
    obtain ⟨rfl, rfl⟩ := List.cons.inj heq
    split
    · rename_i hhex
      refine (dropWhile_digit ?_).trans ((List.suffix_cons d t').trans (List.suffix_cons x _))
      exact (Bool.and_eq_true_iff.mp hhex).2
    · exact dropWhile_digit hzero
  · rename_i t' _ heq
    obtain ⟨rfl, rfl⟩ := List.cons.inj heq
    exact dropWhile_digit hzero
  · exact dropWhile_digit hten

/-- A number has a digit. -/
theorem strtoul_suffix (h : isNumber p = true) :
    (strtoul p).2 <:+ p ∧ (strtoul p).2.length < p.length := by
  have hshorter {b : UInt8} {q t : List UInt8} (hq : q <:+ t) :
      q <:+ b :: t ∧ q.length < (b :: t).length :=
    ⟨hq.trans (List.suffix_cons b t), Nat.lt_succ_of_le hq.length_le⟩
  unfold isNumber at h
  unfold strtoul
  dsimp only
  cases p with
  | nil => simp at h
  | cons b t =>
    by_cases hsign : b = 45 ∨ b = 43
    · rw [if_pos (by simpa using hsign), List.tail_cons]
      cases t with
      | nil => 
        obtain rfl | rfl := hsign <;> simp [Decimal.isDigit] at h
      | cons d t =>
        have hd : Decimal.isDigit d = true := by
          obtain rfl | rfl := hsign <;> simpa [Decimal.isDigit] using h
        exact hshorter ((numberBase_suffix hd).trans (List.suffix_cons d t))
    · rw [if_neg (by simpa using hsign)]
      have hb : Decimal.isDigit b = true := by
        rw [not_or] at hsign
        simpa [hsign.1, hsign.2] using h
      exact hshorter (numberBase_suffix hb)

theorem prefixOperator_ne_nil (h : prefixOperator p ≠ none) : p ≠ [] := by
  rintro rfl
  exact h rfl

theorem operator_length {op : Code} {opl : ℤ} {len : ℕ} (h : operator p = some (op, opl, len)) :
    0 < len ∧ p ≠ [] ∧ 0 ≤ opl := by
  unfold operator at h
  split at h <;> cases h <;> simp

theorem operatorAbove_eq_none {limit : ℤ} (h : limit < 0) :
    operatorAbove limit p = none ↔ operator p = none := by
  unfold operatorAbove
  rw [Option.filter_eq_none_iff]
  constructor
  · intro hnone
    by_contra hne
    obtain ⟨⟨op, opl, len⟩, hop⟩ := Option.ne_none_iff_exists'.mp hne
    have hpos := (operator_length hop).2.2
    have := hnone (op, opl, len) hop
    simp at this
    omega
  · intro hnone a ha
    rw [hnone] at ha
    cases ha

end Texts

end Strict

/-! ## Iterations -/

/-- No operand starts at a text: `parse_simpleexpr` reads nothing. -/
def NoOperandAt (c : Compiler) (p : List UInt8) : Prop :=
  skipSpace p = p ∧ isNumber p = false ∧ p.head? ∉ [some 59, some 44, some 40, some 34] ∧
    skipWord p = p ∧
    (p.head? = some 91 → ((c.addStr []).2.strData (c.addStr []).1).type = .func)

/-- No expression starts at a text: `parse_subexpr` reads nothing. -/
def NothingAt (c : Compiler) (p : List UInt8) : Prop :=
  NoOperandAt c p ∧ prefixOperator p = none ∧ operator p = none

/-- What an iteration starts with that does not advance. -/
def Iteration.Idle (it : Iteration) : Prop :=
  match it.loop with
  | .script => it.start.head? = some 59
  | .params | .args => NothingAt it.compiler it.start
  | .operators => False

def Iteration.Advances (it : Iteration) : Prop := it.stop.length < it.start.length

/-- An iteration advances if and only if it is not idle. -/
def Iteration.Exact (it : Iteration) : Prop := it.Advances ↔ ¬ it.Idle

/-- Iterations inside a statement are written down, and they are exact. -/
def Logs (s s' : Reader) : Prop :=
  ∃ its, s'.iterations = s.iterations ++ its ∧ ∀ it ∈ its, it.loop ≠ .script ∧ it.Exact

instance : IsPreorder Reader Logs where
  refl s := ⟨[], (List.append_nil _).symm, by simp⟩
  trans s s' s'' := by
    rintro ⟨its, heq, hits⟩ ⟨its', heq', hits'⟩
    refine ⟨its ++ its', by rw [heq', heq, List.append_assoc], fun it hit => ?_⟩
    obtain hit | hit := List.mem_append.mp hit
    · exact hits it hit
    · exact hits' it hit

namespace Strict

/-- A reading is out of fuel only if something holds. -/
def FuelIf (q : Prop) (e : Stop) : Prop := e = .fuel → q

section Rules

variable {α : Type} {q q' : Prop} {s : Reader} {p r : List UInt8}

theorem FuelIf.mono (h : q → q') : ∀ e, FuelIf q e → FuelIf q' e := fun _ he hfuel => h (he hfuel)

theorem raise_message {mes : String} {pos : List UInt8} {P : α → Reader → Prop} :
    Ensures Logs (FuelIf q) (throw (.message mes pos) : M α) s P := .raise fun h => by cases h

theorem raise_behind {P : α → Reader → Prop} :
    Ensures Logs (FuelIf q) (throw .behind : M α) s P := .raise fun h => by cases h

theorem compile_run (m : Parser α) (s : Reader) : (compile m).run.run s = match m s.compiler with
    | some (a, c) => (.ok a, { s with compiler := c })
    | none => (.error .behind, s) := rfl

/-- A step of the compiler. -/
theorem compile_spec (m : Parser α) : Ensures Logs (FuelIf q) (compile m) s fun a s' =>
    ∃ c, m s.compiler = some (a, c) ∧ s' = { s with compiler := c } := by
  have hrun := compile_run m s
  cases hm : m s.compiler with
  | none =>
    rw [hm] at hrun
    exact .of_error hrun (refl s) fun h => by cases h
  | some r =>
    rw [hm] at hrun
    exact .of_answer hrun ⟨[], (List.append_nil _).symm, by simp⟩ ⟨r.2, rfl, rfl⟩

/-- An iteration is written down when it ends. -/
theorem iteration_run (loop : Loop) (p : List UInt8) (m : M (List UInt8)) (s : Reader) :
    (iteration loop p m).run.run s = match m.run.run s with
      | (.ok r, s') =>
        (.ok r, { s' with iterations := s'.iterations ++ [⟨loop, s.compiler, p, r⟩] })
      | (.error e, s') => (.error e, s') := by
  change (m >>= fun r => modify (fun s' =>
    { s' with iterations := s'.iterations ++ [⟨loop, s.compiler, p, r⟩] }) >>= fun _ =>
      pure r : M (List UInt8)).run.run s = _
  rw [run_bind]
  generalize m.run.run s = r
  obtain ⟨a | e, s'⟩ := r <;> rfl

/-- An iteration, with what it leaves. -/
theorem iteration_spec {loop : Loop} {m : M (List UInt8)} {P : List UInt8 → Prop}
    (hloop : loop ≠ .script) (h : Ensures Logs (FuelIf q) m s fun r _ =>
      P r ∧ Iteration.Exact ⟨loop, s.compiler, p, r⟩) :
    Ensures Logs (FuelIf q) (iteration loop p m) s fun r _ => P r := by
  obtain ⟨⟨its, heq, hits⟩, hanswer, herror⟩ := h
  have hrun := iteration_run loop p m s
  generalize m.run.run s = a at heq hanswer herror hrun
  obtain ⟨e | r, s'⟩ := a
  · exact .of_error hrun ⟨its, heq, hits⟩ (herror e rfl)
  · obtain ⟨hr, hexact⟩ := hanswer r rfl
    refine .of_answer hrun ⟨its ++ [⟨loop, s.compiler, p, r⟩], ?_, fun it hit => ?_⟩ hr
    · rw [← List.append_assoc, ← heq]
    · obtain hit | hit := List.mem_append.mp hit
      · exact hits it hit
      · obtain rfl := List.mem_singleton.mp hit
        exact ⟨hloop, hexact⟩

end Rules

/-! ## Expressions -/

section Expressions

variable {conf : ScriptConf} {warn : ScriptWarnings} {f : ℕ} {p q r : List UInt8} {s : Reader}

/-- What is left of a text is its end, and shorter unless the reading is idle. -/
structure Leaves (idle : Prop) (p r : List UInt8) : Prop where
  suffix : r <:+ p
  shorter : r.length < p.length ↔ ¬ idle

theorem leaves_tail {idle : Prop} (hp : p ≠ []) (hr : r <:+ p.tail) (hidle : ¬ idle) :
    Leaves idle p r := by
  obtain ⟨b, t, rfl⟩ := List.exists_cons_of_ne_nil hp
  exact ⟨hr.trans (List.suffix_cons b t), iff_of_true (Nat.lt_succ_of_le hr.length_le) hidle⟩

/-- Blanks are read, too. -/
theorem Leaves.skipSpace {idle idle' : Prop} (h : Leaves idle (skipSpace p) r)
    (hidle : idle' ↔ skipSpace p = p ∧ idle) : Leaves idle' p r := by
  have hsuffix := skipSpace_suffix p
  refine ⟨h.suffix.trans hsuffix, ?_⟩
  rw [hidle]
  by_cases hp : Nezumi.skipSpace p = p
  · rw [hp] at h
    rw [h.shorter]
    simp [hp]
  · have hlt := hsuffix.length_le.lt_of_ne fun hlen => hp (hsuffix.eq_of_length hlen)
    exact iff_of_true (h.suffix.length_le.trans_lt hlt) fun hidle => hp hidle.1

/-- What the parsers leave of a text, up to a depth that is enough. -/
structure Specs (conf : ScriptConf) (warn : ScriptWarnings) (f : ℕ) : Prop where
  simple : ∀ p s, Ensures Logs (FuelIf (f ≤ 140 * p.length)) (parseSimpleexpr conf warn f p) s
    fun r _ => Leaves (NoOperandAt s.compiler p) p r
  sub : ∀ p limit s, Ensures Logs (FuelIf (f ≤ 140 * p.length + 3))
    (parseSubexpr conf warn f p limit) s fun r _ =>
      r <:+ p ∧ (limit < 0 → Leaves (NothingAt s.compiler p) p r)
  operators : ∀ tmpp p limit s, Ensures Logs (FuelIf (f ≤ 140 * p.length))
    (parseOperators conf warn f tmpp p limit) s fun r _ =>
      Leaves (operatorAbove limit p = none) p r
  call : ∀ tmpp p s, Ensures Logs (FuelIf (f ≤ 140 * p.length + 132))
    (parseCall conf warn f tmpp p) s fun r _ => r <:+ p
  args : ∀ n plist p s, 0 < n → Ensures Logs (FuelIf (f ≤ 140 * p.length + 3 + n))
    (parseArgs conf warn f n plist p) s fun r _ => r.2 <:+ p

theorem specs_zero : Specs conf warn 0 :=
  ⟨fun _ _ => .raise fun _ => Nat.zero_le _, fun _ _ _ => .raise fun _ => Nat.zero_le _,
    fun _ _ _ _ => .raise fun _ => Nat.zero_le _, fun _ _ _ => .raise fun _ => Nat.zero_le _,
    fun _ _ _ _ _ => .raise fun _ => Nat.zero_le _⟩

/-- A bracket, and what is behind its expression. -/
theorem length_tail_lt (hp : p ≠ []) : p.tail.length < p.length := by
  obtain ⟨b, t, rfl⟩ := List.exists_cons_of_ne_nil hp
  exact Nat.lt_succ_self _

theorem simple_spec (h : Specs conf warn f) (p : List UInt8) (s : Reader) :
    Ensures Logs (FuelIf (f + 1 ≤ 140 * p.length)) (parseSimpleexpr conf warn (f + 1) p) s
      fun r _ => Leaves (NoOperandAt s.compiler p) p r := by
  have hspace := skipSpace_suffix p
  rw [parseSimpleexpr]
  dsimp only
  suffices hq : Ensures Logs (FuelIf (f + 1 ≤ 140 * p.length)) _ s fun r _ =>
      Leaves (isNumber (skipSpace p) = false ∧
        (skipSpace p).head? ∉ [some 59, some 44, some 40, some 34] ∧
        skipWord (skipSpace p) = skipSpace p ∧ ((skipSpace p).head? = some 91 →
          ((s.compiler.addStr []).2.strData (s.compiler.addStr []).1).type = .func))
        (skipSpace p) r from
    hq.conseq (fun _ he => he) fun r _ _ hr => hr.skipSpace (by
      unfold NoOperandAt
      constructor
      · rintro ⟨hp, hrest⟩
        rw [hp]
        exact ⟨rfl, hrest⟩
      · rintro ⟨hp, hrest⟩
        rw [hp] at hrest
        exact ⟨hp, hrest⟩)
  have hlen := hspace.length_le
  generalize skipSpace p = t at hlen ⊢
  refine .ite (fun _ => raise_message) fun hend => .ite (fun hopen => ?_) fun hopen =>
    .ite (fun hnum => ?_) fun hnum => .ite (fun hquote => ?_) fun hquote => ?_
  · have hne : t ≠ [] := fun hnil => by simp [hnil] at hopen
    have hshort := length_tail_lt hne
    refine .bind ((h.sub t.tail (-1) s).conseq (FuelIf.mono (by omega)) fun _ _ _ hr => hr.1)
      fun r s' _ hr => .ite (fun _ => .ret ?_) fun _ => raise_message
    refine leaves_tail hne ?_ (by simp [hopen])
    exact (List.tail_suffix _).trans ((skipSpace_suffix r).trans hr)
  · refine .bind (compile_spec _) fun _ _ _ _ => .ret ?_
    obtain ⟨hsuffix, hlt⟩ := strtoul_suffix hnum
    exact ⟨hsuffix, iff_of_true hlt (by simp [hnum])⟩
  · have hne : t ≠ [] := fun hnil => by simp [hnil] at hquote
    refine .bind (compile_spec _) fun _ _ _ _ => ?_
    split
    · rename_i e herror
      exact .raise fun he => absurd he (stringEnd_error herror)
    · rename_i str r hstr
      refine .bind (compile_spec _) fun _ _ _ _ => .bind (compile_spec _) fun _ _ _ _ => .ret ?_
      exact leaves_tail hne (stringEnd_suffix hstr) (by simp [hquote])
  · have hword := skipWord_suffix t
    have hempty (ht : skipWord t = t) : wordOf t = [] := by
      unfold wordOf
      rw [ht, Nat.sub_self, List.take_zero]
    refine .bind (compile_spec _) fun l s₁ _ hl => .bind (compile_spec _) fun _ s₂ _ hs₂ =>
      .bind (.change (P := fun _ s' => s'.compiler = s₂.compiler) ?_ ?_) fun _ s₃ _ hs₃ =>
      .bind (.read (P := fun s₀ _ => s₀ = s₃) rfl) fun s₀ s₄ _ hs₀ => ?_
    · exact ⟨[], by split <;> exact (List.append_nil _).symm, by simp⟩
    · split <;> rfl
    subst hs₀
    obtain ⟨c₁, haddStr, rfl⟩ := hl
    obtain ⟨c₂, hcmd, rfl⟩ := hs₂
    have hfound : l = (s.compiler.enter (wordOf t)).1 ∧
        s₀.compiler.strData = (s.compiler.addStr (wordOf t)).2.strData := by
      obtain ⟨rfl, rfl⟩ := Prod.mk.inj (Option.some.inj haddStr)
      obtain ⟨-, rfl⟩ := Prod.mk.inj (Option.some.inj hcmd)
      exact ⟨rfl, (congrArg Compiler.strData hs₃).trans rfl⟩
    obtain ⟨rfl, hdata⟩ := hfound
    rw [hdata]
    refine .ite (fun ⟨htype, harray⟩ => ?_) fun hname => ?_
    · split
      · exact raise_behind
      · have hne : skipWord t ≠ [] := fun hnil => by simp [hnil] at harray
        have htail := length_tail_lt hne
        have hlen' := hword.length_le
        refine .bind (compile_spec _) fun _ _ _ _ => .bind (compile_spec _) fun _ _ _ _ =>
          .bind (compile_spec _) fun _ s₅ _ _ => .bind ((h.sub (skipWord t).tail (-1) s₅).conseq
            (FuelIf.mono (by omega)) fun _ _ _ hr => hr.1) fun r _ _ hr => .ite (fun _ =>
            .bind (compile_spec _) fun _ _ _ _ => .ret ?_) fun _ => raise_message
        have hr' : r <:+ (skipWord t).tail := hr
        have hsuffix := ((List.tail_suffix _).trans (skipSpace_suffix r)).trans hr'
        have hlt := hsuffix.length_le
        refine ⟨hsuffix.trans ((List.tail_suffix _).trans hword), iff_of_true (by omega) ?_⟩
        rintro ⟨-, -, ht, hfunc⟩
        rw [hempty ht] at htype
        exact htype (hfunc (ht ▸ harray))
    · refine .bind (compile_spec _) fun _ _ _ _ => .ret ⟨hword, ?_⟩
      by_cases ht : skipWord t = t
      · rw [ht, hempty ht] at hname
        rw [ht]
        refine iff_of_false (lt_irrefl _)
          (not_not.mpr ⟨by simpa using hnum, ?_, rfl, fun hhead => ?_⟩)
        · rw [not_or] at hend
          simp [hend, hopen, hquote]
        · by_contra htype
          exact hname ⟨htype, hhead⟩
      · have hlt := hword.length_le.lt_of_ne fun hlen => ht (hword.eq_of_length hlen)
        exact iff_of_true hlt fun hidle => ht hidle.2.2.1

theorem sub_spec (h : Specs conf warn f) (p : List UInt8) (limit : ℤ) (s : Reader) :
    Ensures Logs (FuelIf (f + 1 ≤ 140 * p.length + 3)) (parseSubexpr conf warn (f + 1) p limit) s
      fun r _ => r <:+ p ∧ (limit < 0 → Leaves (NothingAt s.compiler p) p r) := by
  have hspace := skipSpace_suffix p
  have hlen := hspace.length_le
  rw [parseSubexpr]
  dsimp only
  suffices hq : Ensures Logs (FuelIf (f + 1 ≤ 140 * p.length + 3)) _ s fun r _ =>
      r <:+ skipSpace p ∧
        (limit < 0 → Leaves (NothingAt s.compiler (skipSpace p)) (skipSpace p) r) from
    hq.conseq (fun _ he => he) fun r _ _ hr => ⟨hr.1.trans hspace, fun hlimit =>
      (hr.2 hlimit).skipSpace ⟨fun hnothing => ⟨hnothing.1.1, hnothing.1.1.symm ▸ hnothing⟩,
        fun ⟨hp, hnothing⟩ => hp ▸ hnothing⟩⟩
  generalize skipSpace p = t at hlen ⊢
  refine .ite (fun hnext => ?_) fun hnext => ?_
  · have hprefix : prefixOperator t ≠ none := by
      unfold isNextline at hnext
      cases t with
      | nil => simp at hnext
      | cons b t =>
        obtain rfl : b = 45 := by
          rw [Bool.and_eq_true] at hnext
          simpa using hnext.1
        simp [prefixOperator]
    refine .bind (compile_spec _) fun _ _ _ _ => .ret ⟨List.tail_suffix t, fun _ => ?_⟩
    exact leaves_tail (prefixOperator_ne_nil hprefix) List.suffix_rfl fun h => hprefix h.2.1
  · split
    · rename_i op hop
      have hprefix : prefixOperator t ≠ none := by
        rw [hop]
        exact Option.some_ne_none op
      have hne := prefixOperator_ne_nil hprefix
      have htail := length_tail_lt hne
      refine .bind ((h.sub t.tail 100 s).conseq (FuelIf.mono (by omega)) fun _ _ _ hr => hr.1)
        fun r₁ _ _ hr₁ => .bind (compile_spec _) fun _ _ _ _ =>
          .bind (.ret (P := fun r _ => r = r₁) rfl) fun r₂ s₂ _ hr₂ => ?_
      subst hr₂
      have hr₂ := (skipSpace_suffix r₂).trans hr₁
      have hlen₂ := hr₂.length_le
      refine (h.operators t (skipSpace r₂) limit s₂).conseq (FuelIf.mono (by omega))
        fun r _ _ hr => ?_
      have hsuffix := hr.suffix.trans hr₂
      exact ⟨hsuffix.trans (List.tail_suffix t), fun _ =>
        leaves_tail hne hsuffix fun hnothing => hprefix hnothing.2.1⟩
    · rename_i hprefix
      refine .bind ((h.simple t s).conseq (FuelIf.mono (by omega)) fun _ _ _ hr => hr)
        fun r₁ s₁ _ hr₁ => ?_
      have hr₂ := (skipSpace_suffix r₁).trans hr₁.suffix
      have hlen₁ := (skipSpace_suffix r₁).length_le
      have hlen₂ := hr₂.length_le
      refine (h.operators t (skipSpace r₁) limit s₁).conseq (FuelIf.mono (by omega))
        fun r _ _ hr => ⟨hr.suffix.trans hr₂, fun hlimit => ⟨hr.suffix.trans hr₂, ?_⟩⟩
      have hlen := hr.suffix.length_le
      by_cases hoperand : NoOperandAt s.compiler t
      · have hsame : r₁ = t := hr₁.suffix.eq_of_length
          (hr₁.suffix.length_le.antisymm (not_lt.mp fun hlt => hr₁.shorter.mp hlt hoperand))
        subst hsame
        rw [hoperand.1] at hr
        rw [hr.shorter, operatorAbove_eq_none hlimit]
        unfold NothingAt
        simp [hoperand, hprefix]
      · have hlt := hr₁.shorter.mpr hoperand
        exact iff_of_true (by omega) fun hnothing => hoperand hnothing.1

theorem operators_spec (h : Specs conf warn f) (tmpp p : List UInt8) (limit : ℤ) (s : Reader) :
    Ensures Logs (FuelIf (f + 1 ≤ 140 * p.length)) (parseOperators conf warn (f + 1) tmpp p limit) s
      fun r _ => Leaves (operatorAbove limit p = none) p r := by
  rw [parseOperators]
  split
  · rename_i hop
    exact .ret ⟨List.suffix_rfl, iff_of_false (lt_irrefl _) (not_not.mpr hop)⟩
  · rename_i op opl len hop
    have hlength := operator_length (Option.mem_filter_iff.mp hop).1
    have hdrop : p.drop len <:+ p := List.drop_suffix len p
    have hlt : (p.drop len).length < p.length := by
      have hpos := List.length_pos_iff.mpr hlength.2.1
      rw [List.length_drop]
      omega
    have hnone : operatorAbove limit p ≠ none := by
      rw [hop]
      exact Option.some_ne_none _
    refine .bind (iteration_spec (P := fun r => r <:+ p.drop len) (by decide) ?_)
      fun r₁ s₁ _ hr₁ => ?_
    · have hend (r : List UInt8) (s' : Reader) (hr : r <:+ p.drop len) :
          Ensures Logs (FuelIf (f + 1 ≤ 140 * p.length)) (do
            compile (addScriptc op)
            pure (skipSpace r)) s' fun r _ => r <:+ p.drop len ∧
              Iteration.Exact ⟨.operators, s.compiler, p, r⟩ := by
        refine .bind (compile_spec _) fun _ _ _ _ => .ret ?_
        have hsuffix := (skipSpace_suffix r).trans hr
        have hlen := hsuffix.length_le
        exact ⟨hsuffix, iff_of_true (lt_of_le_of_lt hlen hlt) id⟩
      refine .ite (fun _ => ?_) fun _ => ?_
      · exact .bind ((h.call tmpp (p.drop len) s).conseq (FuelIf.mono (by omega))
          fun _ _ _ hr => hr) fun r s' _ hr => hend r s' hr
      · exact .bind ((h.sub (p.drop len) opl s).conseq (FuelIf.mono (by omega))
          fun _ _ _ hr => hr.1) fun r s' _ hr => hend r s' hr
    · have hlen₁ := hr₁.length_le
      refine (h.operators tmpp r₁ limit s₁).conseq (FuelIf.mono (by omega)) fun r _ _ hr => ?_
      have hsuffix := hr.suffix.trans hr₁
      have hlen := hsuffix.length_le
      exact ⟨hsuffix.trans hdrop, iff_of_true (by omega) hnone⟩

theorem checkParamnum_spec {b : Bool} {func : ℕ} {plist : List (List UInt8)} {a : Prop} :
    Ensures Logs (FuelIf a) (checkParamnum conf b func plist) s fun _ _ => True := by
  refine .bind (.read (P := fun _ _ => True) trivial) fun s' _ _ _ => .ite (fun _ => ?_)
    fun _ => .ret trivial
  split
  · exact raise_behind
  · split
    · exact .ret trivial
    · exact raise_message

theorem call_spec (h : Specs conf warn f) (tmpp p : List UInt8) (s : Reader) :
    Ensures Logs (FuelIf (f + 1 ≤ 140 * p.length + 132)) (parseCall conf warn (f + 1) tmpp p) s
      fun r _ => r <:+ p := by
  rw [parseCall]
  refine .bind (.read (P := fun _ _ => True) trivial) fun s₀ s₁ _ _ =>
    .ite (fun _ => raise_message) fun _ =>
    .bind (compile_spec _) fun _ _ _ _ => .bind (compile_spec _) fun _ s₂ _ _ =>
    .bind ((h.args 128 [] p s₂ (by decide)).conseq (FuelIf.mono (by omega)) fun _ _ _ hr => hr)
      fun r _ _ hr => .ite (fun _ => .bind checkParamnum_spec fun _ _ _ _ => .ret ?_)
        fun _ => raise_message
  exact (List.tail_suffix r.2).trans hr

/-- What an iteration over arguments leaves, of what its expression has left. -/
theorem Leaves.argument {c : Compiler} (h : Leaves (NothingAt c p) p r) :
    Leaves (NothingAt c p) p (if (Nezumi.skipSpace r).head? = some 44 then
      Nezumi.skipSpace (Nezumi.skipSpace r).tail else Nezumi.skipSpace (Nezumi.skipSpace r)) := by
  have hspace := skipSpace_suffix r
  by_cases hnothing : NothingAt c p
  · have hsame : r = p := h.suffix.eq_of_length
      (h.suffix.length_le.antisymm (not_lt.mp fun hlt => h.shorter.mp hlt hnothing))
    subst hsame
    have hcomma : r.head? ≠ some 44 := fun hcomma => hnothing.1.2.2.1 (by simp [hcomma])
    rw [hnothing.1.1, if_neg hcomma, hnothing.1.1]
    exact ⟨List.suffix_rfl, iff_of_false (lt_irrefl _) (not_not.mpr hnothing)⟩
  · have hend : (if (Nezumi.skipSpace r).head? = some 44 then
        Nezumi.skipSpace (Nezumi.skipSpace r).tail
          else Nezumi.skipSpace (Nezumi.skipSpace r)) <:+ r := by
      split
      · exact (skipSpace_suffix _).trans ((List.tail_suffix _).trans hspace)
      · exact (skipSpace_suffix _).trans hspace
    have hlt := h.shorter.mpr hnothing
    exact ⟨hend.trans h.suffix, iff_of_true (hend.length_le.trans_lt hlt) hnothing⟩

theorem args_spec (h : Specs conf warn f) (n : ℕ) (plist : List (List UInt8)) (p : List UInt8)
    (s : Reader) (hn : 0 < n) : Ensures Logs (FuelIf (f + 1 ≤ 140 * p.length + 3 + n))
      (parseArgs conf warn (f + 1) n plist p) s fun r _ => r.2 <:+ p := by
  rw [parseArgs]
  refine .bind (iteration_spec (P := fun r => r <:+ p) (by decide) ?_) fun r₁ s₁ _ hr₁ => ?_
  · refine .bind ((h.sub p (-1) s).conseq (FuelIf.mono (by omega)) fun _ _ _ hr => hr.2 (by decide))
      fun r _ _ hr => .ite (fun hcomma => .ret ?_) fun hcomma =>
        .ite (fun _ => raise_message) fun _ => .ret ?_
    · have hend := hr.argument
      rw [if_pos hcomma] at hend
      exact ⟨hend.suffix, hend.shorter⟩
    · have hend := hr.argument
      rw [if_neg hcomma] at hend
      exact ⟨hend.suffix, hend.shorter⟩
  · have hlen := hr₁.length_le
    refine .ite (fun hmore => ?_) fun _ => .ret hr₁
    refine (h.args (n - 1) _ r₁ s₁ (by omega)).conseq (FuelIf.mono (by omega)) fun _ _ _ hr => ?_
    exact hr.trans hr₁

theorem specs (f : ℕ) : Specs conf warn f := by
  induction f with
  | zero => exact specs_zero
  | succ f ih =>
    exact ⟨simple_spec ih, sub_spec ih, operators_spec ih, call_spec ih, args_spec ih⟩

end Expressions

/-! ## Lines -/

section Lines

variable {conf : ScriptConf} {warn : ScriptWarnings} {p q r : List UInt8} {s : Reader}

theorem expr_spec (p : List UInt8) (s : Reader) : Ensures Logs (FuelIf False)
    (parseExpr conf warn p) s fun r _ => Leaves (NothingAt s.compiler p) p r := by
  unfold parseExpr
  split
  iterate 6 exact raise_message
  refine ((specs (depth p)).sub p (-1) s).conseq (FuelIf.mono fun h => ?_) fun _ _ _ hr =>
    hr.2 (by decide)
  unfold depth at h
  omega

theorem params_spec (n : ℕ) (plist : List (List UInt8)) (p : List UInt8) (s : Reader) :
    Ensures Logs (FuelIf False) (parseParams conf warn n plist p) s fun r _ => r.2 <:+ p := by
  induction n generalizing plist p s with
  | zero => exact .ret List.suffix_rfl
  | succ n ih =>
    rw [parseParams]
    refine .ite (fun _ => .bind (iteration_spec (P := fun r => r <:+ p) (by decide) ?_)
      fun r₁ s₁ _ hr₁ => (ih (plist ++ [p]) r₁ s₁).conseq (FuelIf.mono id)
        fun _ _ _ hr => hr.trans hr₁) fun _ => .ret List.suffix_rfl
    refine .bind (expr_spec p s) fun r _ _ hr => .ite (fun hcomma => .ret ?_) fun hcomma =>
      .bind (.read (P := fun _ _ => True) trivial) fun _ _ _ _ =>
        .ite (fun _ => raise_message) fun _ => .ret ?_
    · have hend := hr.argument
      rw [if_pos hcomma] at hend
      exact ⟨hend.suffix, hend.shorter⟩
    · have hend := hr.argument
      rw [if_neg hcomma] at hend
      exact ⟨hend.suffix, hend.shorter⟩

/-- A line leaves its text as it is if it is empty. -/
theorem line_spec (p : List UInt8) (s : Reader) : Ensures Logs (FuelIf False)
    (parseLine conf warn p) s fun r _ =>
      r <:+ skipSpace p ∧ (r.length < (skipSpace p).length ↔ (skipSpace p).head? ≠ some 59) := by
  unfold parseLine
  dsimp only
  generalize skipSpace p = t
  refine .ite (fun hempty => .ret ⟨List.suffix_rfl, iff_of_false (lt_irrefl _)
    (not_not.mpr hempty)⟩) fun hempty =>
    .bind (.change (P := fun _ _ => True) ?_ trivial) fun _ s₁ _ _ =>
    .bind (((specs (depth t)).simple t s₁).conseq (FuelIf.mono ?_) fun _ _ _ hr => hr.suffix)
      fun r₁ s₂ _ hr₁ => .bind (.read (P := fun _ _ => True) trivial) fun s₃ _ _ _ =>
      .ite (fun _ => raise_message) fun _ => .bind (compile_spec _) fun _ s₄ _ _ =>
      .bind (params_spec 128 [] _ s₄) fun r₂ _ _ hr₂ => .ite (fun hend =>
        .bind (compile_spec _) fun _ _ _ _ => .bind checkParamnum_spec fun _ _ _ _ => .ret ?_)
        fun _ => raise_message
  · exact ⟨[], (List.append_nil _).symm, by simp⟩
  · intro h
    unfold depth at h
    omega
  · have hr₃ : r₂.2 <:+ t := hr₂.trans ((skipSpace_suffix r₁).trans hr₁)
    have hne : r₂.2 ≠ [] := fun hnil => by simp [hnil] at hend
    have hlt := length_tail_lt hne
    have hlen := hr₃.length_le
    exact ⟨(List.tail_suffix _).trans hr₃, iff_of_true (by omega) hempty⟩

end Lines

end Strict

end Nezumi
