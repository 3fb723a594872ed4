import Nezumi.Script.TwoRuns

/-!
# Parsers in two runs (`map/script.c`)

* `Grows`: a parser only adds names and words.
* `Parser.Simulates`: what a parser does in the first run, it does in the second, if the names are
  good; with a lemma for `>>=`, `pure` and each operation.
* `parse_simulates`: so does every parser of an expression or a line.
* `simulates_lines`: so does the loop of `parse_script`.
-/

namespace Nezumi

open Decimal BackPatch

section Simulates

variable {α β : Type} {R : TwoRuns} {c c' d d' : Compiler}

/-! ## Names and words -/

/-- Names and words are only added. -/
def Grows (c d : Compiler) : Prop := c.names <+: d.names ∧ c.words <+: d.words

theorem Grows.trans {e : Compiler} (h : Grows c d) (h' : Grows d e) : Grows c e :=
  ⟨h.1.trans h'.1, h.2.trans h'.2⟩

theorem grows_primitive : Primitive Grows where
  refl _ := ⟨List.prefix_refl _, List.prefix_refl _⟩
  trans h h' := h.trans h'
  emit c bs _ := by
    unfold Grows
    rw [emit_names, emit_words]
    exact ⟨List.prefix_refl _, List.prefix_refl _⟩
  enter c p _ := ⟨List.prefix_append _ _, by
    rw [show (c.enter p).2.words = c.words from (addStr_words c p).1]⟩
  cmd _ _ := ⟨List.prefix_refl _, List.prefix_refl _⟩
  addRef c name l _ _ := ⟨by
    rw [show (c.addRef name l).names = c.names from ref_names c l], List.prefix_append _ _⟩
  addNext c _ := ⟨by
    rw [show c.addNext.names = c.names from ref_names c _], List.prefix_append _ _⟩
  call _ := ⟨List.prefix_refl _, List.prefix_append _ _⟩

theorem grows_define (c : Compiler) (name : VarName) (l : ℕ) : Grows c (c.define name l) :=
  ⟨List.prefix_refl _, List.prefix_append _ _⟩

theorem grows_endLine (c : Compiler) : Grows c c.endLine :=
  ⟨by
    rw [show c.endLine.names = c.names from emit_names [9]], List.prefix_append _ _⟩

theorem namedCalls_of_le {ws ms : List Word} (h : ws <+: ms) (hcalls : NamedCalls ms = true) :
    NamedCalls ws = true := by
  obtain ⟨ks, rfl⟩ := h
  induction ws with
  | nil => rfl
  | cons w ws ih =>
    cases w with
    | ref n l s e => rfl
    | call => cases hcalls
    | _ => exact ih hcalls

theorem namedCalls_call {ws : List Word} (h : ∀ n l s e, .ref n l s e ∉ ws) :
    NamedCalls (ws ++ [Word.call]) = false := by
  induction ws with
  | nil => rfl
  | cons w ws ih =>
    have hws := ih fun n l s e hmem => h n l s e (List.mem_cons_of_mem _ hmem)
    cases w with
    | ref n l s e => exact absurd List.mem_cons_self (h n l s e)
    | call => rfl
    | _ => exact hws

/-- What is good at the end has been good before. -/
theorem TwoRuns.Good.before (hgood : R.Good d) (h : Grows c d) : R.Good c := by
  refine ⟨fun a ha => ?_, hgood.calls.imp (namedCalls_of_le h.2) fun ⟨ht, hle, hlt, hnone⟩ => ?_⟩
  · obtain ⟨h1, h2⟩ := hgood.names a (namePairs_subset h.1 ha)
    exact ⟨h1, fun b hb => h2 b (namePairs_subset h.1 hb)⟩
  · exact ⟨ht, hle, hlt, fun n k p hmem => hnone n k p (h.2.subset hmem)⟩

/-! ## Rules -/

/-- What a parser does in the first run, it does in the second. -/
structure Parser.Simulates (R : TwoRuns) (m : Parser α) : Prop where
  grows : m.Extends Grows
  run : ∀ c c' a d, Sim R c c' → m c = some (a, d) → R.Good d →
    ∃ d', m c' = some (a, d') ∧ Sim R d d'

theorem Sim.start (h : Sim R c c') : labelStart ≤ c.strNum := R.labelStart_le.trans h.num

section Rules

variable {m : Parser α} {k : α → Parser β}

theorem Parser.bind_of_eq {a : α} (h : m c = some (a, c')) : (m >>= k) c = k a c' := by
  change (m c).bind _ = _
  rw [h]
  rfl

theorem simulates_pure (a : α) : (pure a : Parser α).Simulates R := by
  refine ⟨extends_pure grows_primitive a, fun c c' b d hsim h _ => ?_⟩
  obtain ⟨rfl, rfl⟩ := Parser.pure_eq h
  exact ⟨c', rfl, hsim⟩

theorem simulates_failure : (failure : Parser α).Simulates R :=
  ⟨extends_failure, fun _ _ _ _ _ h => by cases h⟩

theorem Parser.Simulates.bind (hm : m.Simulates R) (hk : ∀ a, (k a).Simulates R) :
    (m >>= k).Simulates R := by
  refine ⟨hm.grows.bind grows_primitive fun a => (hk a).grows, fun c c' b d hsim h hgood => ?_⟩
  obtain ⟨a, c₁, h1, h2⟩ := Parser.bind_eq h
  have hle := (hm.grows c a c₁ hsim.start h1).2
  have hgood₁ := hgood.before ((hk a).grows c₁ b d (hsim.start.trans hle) h2).1
  obtain ⟨c₁', h1', hsim₁⟩ := hm.run c c' a c₁ hsim h1 hgood₁
  obtain ⟨d', h2', hsim₂⟩ := (hk a).run c₁ c₁' b d hsim₁ h2 hgood
  exact ⟨d', (Parser.bind_of_eq h1').trans h2', hsim₂⟩

theorem Parser.Simulates.ite {p : Prop} [Decidable p] {m m' : Parser α} (hm : m.Simulates R)
    (hm' : m'.Simulates R) : (if p then m else m').Simulates R := by
  split
  · exact hm
  · exact hm'

/-- An operation that always succeeds. -/
theorem simulates_of_eq {m : Parser Unit} {g : Compiler → Compiler} (hm : ∀ c, m c = some ((), g c))
    (hgrows : m.Extends Grows) (hsim : ∀ c c', Sim R c c' → Sim R (g c) (g c')) : m.Simulates R := by
  refine ⟨hgrows, fun c c' _ d h hrun _ => ⟨g c', hm c', ?_⟩⟩
  rw [hm c] at hrun
  obtain ⟨-, rfl⟩ := Prod.mk.inj (Option.some.inj hrun)
  exact hsim c c' h

theorem simulates_addScriptc (a : Code) : (addScriptc a).Simulates R :=
  simulates_of_eq (addScriptc_eq a) (extends_addScriptc grows_primitive a) fun _ _ h => h.emit _

theorem simulates_addScripti (a : Int32) : (addScripti a).Simulates R :=
  simulates_of_eq (addScripti_eq a) (extends_addScripti grows_primitive a) fun _ _ h => h.emit _

theorem simulates_addScriptb (b : UInt8) : (addScriptb b).Simulates R :=
  simulates_of_eq (addScriptb_eq b) (extends_addScriptb grows_primitive b) fun _ _ h => h.emit _

theorem simulates_forM (bs : List UInt8) : (bs.forM addScriptb).Simulates R :=
  simulates_of_eq (forM_addScriptb bs) (extends_forM grows_primitive bs) fun _ _ h => h.emit _

theorem simulates_addNext : addNext.Simulates R :=
  simulates_of_eq addNext_eq (extends_addNext grows_primitive) fun _ _ h => h.addNext

end Rules

/-! ## Expressions -/

variable {f : ℕ}

/-- The entry for arrays is the same in both runs. -/
theorem Sim.array (h : Sim R c c') : ∃ g, searchStr c getelementofarray = some g ∧
    searchStr c' getelementofarray = some g ∧ R.Pair c.names g g := by
  have hmem (ns : List VarName) {T : StrTable} (hT : R.base <+: T) : getelementofarray ∈ enterAll T ns ∧
      (enterAll T ns).idxOf getelementofarray = R.base.idxOf getelementofarray := by
    obtain ⟨ks, hks⟩ := hT.trans (prefix_enterAll T ns)
    rw [← hks]
    exact ⟨List.mem_append_left _ R.array, List.idxOf_append_of_mem R.array⟩
  obtain ⟨hin, hidx⟩ := hmem c.names R.before
  obtain ⟨hin', hidx'⟩ := hmem c.names R.before'
  refine ⟨labelStart + R.base.idxOf getelementofarray, ?_, ?_, .inr ⟨rfl, Nat.le_add_right _ _, ?_⟩⟩
  · rw [searchStr_eq, h.tab, if_pos hin, hidx]
  · rw [searchStr_eq, h.tab', if_pos hin', hidx']
  · exact Nat.add_lt_add_left (List.idxOf_lt_length_of_mem R.array) _

/-- A name with what follows it. -/
theorem simulates_name (hsub : ∀ p limit, (parseSubexpr f p limit).Simulates R) (w : VarName)
    (r : List UInt8) {l l' : ℕ} {q : List UInt8} (hsim : Sim R c c') (hpair : R.Pair c.names l l')
    (hcmd : R.Pair c.names c.parseCmd c'.parseCmd) (hgood : R.Good d)
    (hrun : parseName f w r l c = some (q, d)) :
    ∃ d', parseName f w r l' c' = some (q, d') ∧ Sim R d d' := by
  have hrest : (do
      let p ← parseSubexpr f r.tail (-1)
      let p := skipSpace p
      if p.head? = some 93 then
        addScriptc .func
        return p.tail
      else failure : Parser (List UInt8)).Simulates R :=
    (hsub _ _).bind fun _ => ((simulates_addScriptc _).bind fun _ => simulates_pure _).ite
      simulates_failure
  have htype := (hsim.data.sameEntry hpair).type
  have hgrows : Grows c d := (extends_name grows_primitive (fun p limit => (hsub p limit).grows) w r
    (hpair.le hsim rfl).1 (hpair.le hsim rfl).2.2.1 hrun).1
  have hnames := (hgood.before hgrows).names
  unfold parseName at hrun ⊢
  obtain ⟨_, _, hget, hrun⟩ := Parser.bind_eq hrun
  obtain ⟨rfl, rfl⟩ := Prod.mk.inj (Option.some.inj hget)
  change ∃ d', (if (c'.strData l').type ≠ .func ∧ r.head? = some 91 then _ else _ :
    Parser (List UInt8)) c' = some (q, d') ∧ Sim R d d'
  rw [htype]
  split at hrun
  · rename_i hcond
    obtain ⟨g, hg, hg', hgpair⟩ := hsim.array
    rw [hg] at hrun
    rw [if_pos hcond, hg']
    obtain ⟨_, c₁, h1, hrun⟩ := Parser.bind_eq hrun
    rw [addRef_eq] at h1
    obtain ⟨-, rfl⟩ := Prod.mk.inj (Option.some.inj h1)
    obtain ⟨_, c₂, h2, hrun⟩ := Parser.bind_eq hrun
    rw [addScriptc_eq] at h2
    obtain ⟨-, rfl⟩ := Prod.mk.inj (Option.some.inj h2)
    obtain ⟨_, c₃, h3, hrun⟩ := Parser.bind_eq hrun
    rw [addRef_eq] at h3
    obtain ⟨-, rfl⟩ := Prod.mk.inj (Option.some.inj h3)
    have hsim₁ := (hsim.addRef getelementofarray hgpair hnames hcmd).emit [UInt8.ofNat Code.arg.num]
    have hkeep : ((c.addRef getelementofarray g).emit [UInt8.ofNat Code.arg.num]).names = c.names :=
      (emit_names _).trans (ref_names c g)
    have hkeep' : ((c.addRef getelementofarray g).emit [UInt8.ofNat Code.arg.num]).parseCmd =
        c.parseCmd := emit_parseCmd.trans (ref_parseCmd c g)
    have hkeep'' : ((c'.addRef getelementofarray g).emit [UInt8.ofNat Code.arg.num]).parseCmd =
        c'.parseCmd := emit_parseCmd.trans (ref_parseCmd c' g)
    have hpair₁ : R.Pair ((c.addRef getelementofarray g).emit [UInt8.ofNat Code.arg.num]).names
        l l' := by
      rw [hkeep]
      exact hpair
    have hsim₂ := hsim₁.addRef w hpair₁ (by rw [hkeep]; exact hnames)
      (by rw [hkeep, hkeep', hkeep'']; exact hcmd)
    obtain ⟨d', hd', hsim₃⟩ := hrest.run _ _ q d hsim₂ hrun hgood
    refine ⟨d', ?_, hsim₃⟩
    dsimp only
    rw [Parser.bind_of_eq (addRef_eq _ _ _), Parser.bind_of_eq (addScriptc_eq _ _),
      Parser.bind_of_eq (addRef_eq _ _ _)]
    exact hd'
  · rename_i hcond
    rw [if_neg hcond]
    obtain ⟨_, c₁, h1, hrun⟩ := Parser.bind_eq hrun
    rw [addRef_eq] at h1
    obtain ⟨-, rfl⟩ := Prod.mk.inj (Option.some.inj h1)
    obtain ⟨rfl, rfl⟩ := Parser.pure_eq hrun
    refine ⟨c'.addRef w l', ?_, hsim.addRef w hpair hnames hcmd⟩
    rw [Parser.bind_of_eq (addRef_eq _ _ _)]
    rfl

/-- A name is read. -/
theorem simulates_word (hsub : ∀ p limit, (parseSubexpr f p limit).Simulates R) (w : VarName)
    (r : List UInt8) : (parseWord f w r).Simulates R := by
  refine ⟨extends_word grows_primitive (fun p limit => (hsub p limit).grows) w r,
    fun c c' q d hsim hrun hgood => ?_⟩
  rw [parseWord_eq] at hrun ⊢
  obtain ⟨hl, hlt⟩ := addStr_range hsim.start w
  have hgrows : Grows (c.enter w).2 d := (extends_name
    (c := { (c.enter w).2 with parseCmd := (c.enter w).1 }) grows_primitive
    (fun p limit => (hsub p limit).grows) w r hl hlt hrun).1
  obtain ⟨hsim₁, hpair⟩ := hsim.enter w (hgood.before hgrows).names
  exact simulates_name hsub w r (hsim₁.setCmd hpair) hpair hpair hgood hrun

/-- A function is called: in both runs it is one. -/
theorem simulates_call {k : Parser α} (hk : k.Simulates R) :
    (do
      let c ← get
      if (c.strData c.parseCmd).type ≠ .func then failure
      else
        noteWord fun _ => .call
        k : Parser α).Simulates R := by
  refine ⟨extends_get fun c => extends_failure.ite ((extends_call grows_primitive).bind
    grows_primitive fun _ => hk.grows), fun c c' q d hsim hrun hgood => ?_⟩
  obtain ⟨_, _, hget, hrun⟩ := Parser.bind_eq hrun
  obtain ⟨rfl, rfl⟩ := Prod.mk.inj (Option.some.inj hget)
  split at hrun
  · cases hrun
  rename_i hfunc
  obtain ⟨_, c₁, h1, hrun⟩ := Parser.bind_eq hrun
  obtain ⟨-, rfl⟩ := Prod.mk.inj (Option.some.inj h1)
  have hgood₁ : R.Good { c with words := c.words ++ [Word.call] } :=
    hgood.before (hk.grows { c with words := c.words ++ [Word.call] } q d hsim.start hrun).1
  have hfunc' : (c'.strData c'.parseCmd).type = .func := by
    rcases hsim.cmd with hpair | ⟨href, hq, ht⟩
    · rw [(hsim.data.sameEntry hpair).type]
      exact not_not.mp hfunc
    · rw [hq]
      rcases hgood₁.calls with hcalls | ⟨htype, hle, hlt, hnone⟩
      · rw [namedCalls_call href] at hcalls
        cases hcalls
      · rw [ht ⟨hle, hlt, fun n k p hmem => hnone n k p (List.mem_append_left _ hmem)⟩, htype]
  obtain ⟨d', hd', hsim'⟩ := hk.run _ _ q d hsim.call hrun hgood
  refine ⟨d', ?_, hsim'⟩
  change (if (c'.strData c'.parseCmd).type ≠ .func then _ else _ : Parser α) c' = _
  rw [if_neg (not_not.mpr hfunc')]
  exact hd'

theorem simulates_simpleexpr (hsub : ∀ p limit, (parseSubexpr f p limit).Simulates R)
    (p : List UInt8) : (parseSimpleexpr (f + 1) p).Simulates R := by
  unfold parseSimpleexpr
  dsimp only
  refine simulates_failure.ite ?_
  refine ((hsub _ _).bind fun _ => (simulates_pure _).ite simulates_failure).ite ?_
  refine ((simulates_addScripti _).bind fun _ => simulates_pure _).ite ?_
  refine ((simulates_addScriptc _).bind fun _ => ?_).ite ?_
  · split
    · exact simulates_failure
    · exact (simulates_forM _).bind fun _ => (simulates_addScriptb _).bind fun _ => simulates_pure _
  · exact simulates_word hsub _ _

theorem simulates_subexpr (hsimple : ∀ p, (parseSimpleexpr f p).Simulates R)
    (hsub : ∀ p limit, (parseSubexpr f p limit).Simulates R)
    (hops : ∀ p limit, (parseOperators f p limit).Simulates R) (p : List UInt8) (limit : ℤ) :
    (parseSubexpr (f + 1) p limit).Simulates R := by
  unfold parseSubexpr
  dsimp only
  refine (simulates_addNext.bind fun _ => simulates_pure _).ite ?_
  split
  · exact (hsub _ _).bind fun _ => (simulates_addScriptc _).bind fun _ =>
      (simulates_pure _).bind fun _ => hops _ _
  · exact (hsimple _).bind fun _ => hops _ _

theorem simulates_operators (hsub : ∀ p limit, (parseSubexpr f p limit).Simulates R)
    (hops : ∀ p limit, (parseOperators f p limit).Simulates R)
    (hargs : ∀ n p, (parseArgs f n p).Simulates R) (p : List UInt8) (limit : ℤ) :
    (parseOperators (f + 1) p limit).Simulates R := by
  unfold parseOperators
  split
  · exact simulates_pure _
  · rename_i op opl len _
    have hrest (q : List UInt8) : (do
        addScriptc op
        parseOperators f (skipSpace q) limit : Parser (List UInt8)).Simulates R :=
      (simulates_addScriptc _).bind fun _ => hops _ _
    dsimp only
    exact (simulates_call ((simulates_addScriptc _).bind fun _ =>
      (hargs _ _).bind fun _ => hrest _)).ite ((hsub _ _).bind fun _ => hrest _)

theorem simulates_args (hsub : ∀ p limit, (parseSubexpr f p limit).Simulates R)
    (hargs : ∀ n p, (parseArgs f n p).Simulates R) (n : ℕ) (p : List UInt8) :
    (parseArgs (f + 1) n p).Simulates R := by
  unfold parseArgs
  exact (hsub _ _).bind fun _ => (hargs _ _).ite ((simulates_pure _).ite simulates_failure)

/-- **What a parser of an expression does in the first run, it does in the second.** -/
theorem parse_simulates (f : ℕ) : (∀ p, (parseSimpleexpr f p).Simulates R) ∧
    (∀ p limit, (parseSubexpr f p limit).Simulates R) ∧
    (∀ p limit, (parseOperators f p limit).Simulates R) ∧
    ∀ n p, (parseArgs f n p).Simulates R := by
  induction f with
  | zero =>
    exact ⟨fun _ => simulates_failure, fun _ _ => simulates_failure, fun _ _ => simulates_failure,
      fun _ _ => simulates_failure⟩
  | succ f ih =>
    obtain ⟨hsimple, hsub, hops, hargs⟩ := ih
    exact ⟨simulates_simpleexpr hsub, simulates_subexpr hsimple hsub hops,
      simulates_operators hsub hops hargs, simulates_args hsub hargs⟩

theorem simulates_expr (f : ℕ) (p : List UInt8) : (parseExpr f p).Simulates R := by
  unfold parseExpr
  split
  all_goals first
    | exact simulates_failure
    | exact (parse_simulates f).2.1 _ _

theorem simulates_params (f n : ℕ) (p : List UInt8) : (parseParams f n p).Simulates R := by
  induction n generalizing p with
  | zero => exact simulates_pure _
  | succ n ih =>
    unfold parseParams
    exact ((simulates_expr f p).bind fun _ => ih _).ite (simulates_pure _)

theorem simulates_line (f : ℕ) (p : List UInt8) : (parseLine f p).Simulates R := by
  unfold parseLine
  dsimp only
  refine (simulates_pure _).ite ?_
  refine ((parse_simulates f).1 _).bind fun _ => ?_
  refine (simulates_addScriptc _).bind fun _ => ?_
  refine (simulates_params f _ _).bind fun _ => ?_
  exact ((simulates_addScriptc _).bind fun _ => simulates_pure _).ite simulates_failure

/-! ## Lines -/

theorem parseLines_grows {f n : ℕ} {p : List UInt8} {a : Unit}
    (hrun : parseLines f n p c = some (a, d)) (hc : labelStart ≤ c.strNum) : Grows c d := by
  induction n generalizing p c with
  | zero => cases hrun
  | succ n ih =>
    unfold parseLines at hrun
    dsimp only at hrun
    split at hrun
    · obtain ⟨-, rfl⟩ := Parser.pure_eq hrun
      exact ⟨List.prefix_refl _, List.prefix_refl _⟩
    split at hrun
    · obtain ⟨_, c₁, hdef, hrun⟩ := Parser.bind_eq hrun
      obtain ⟨-, rfl⟩ := defineLabel_eq _ hdef
      have hnum := addStr_strNum c (wordOf (skipSpace p))
      exact ((grows_primitive.enter c _ hc).trans (grows_define _ _ _)).trans
        (ih hrun (hc.trans hnum))
    · obtain ⟨q, c₁, hline, hrun⟩ := Parser.bind_eq hrun
      obtain ⟨_, c₂, hend, hrun⟩ := Parser.bind_eq hrun
      rw [endLine_eq] at hend
      obtain ⟨-, rfl⟩ := Prod.mk.inj (Option.some.inj hend)
      obtain ⟨hgrows, hnum⟩ := extends_line grows_primitive f _ c q c₁ hc hline
      exact (hgrows.trans (grows_endLine c₁)).trans (ih hrun (hc.trans hnum))

/-- A label is found in both runs. -/
theorem defineLabel_of_eq (name : VarName)
    (h : ((c.enter name).2.strData (c.enter name).1).label = -1) :
    defineLabel name c = some ((), (c.enter name).2.define name (c.enter name).1) := by
  change (if ((c.enter name).2.strData (c.enter name).1).label ≠ -1 then failure
    else _ : Parser Unit) (c.enter name).2 = _
  rw [if_neg (not_not.mpr h)]
  rfl

/-- **What the loop of `parse_script` does in the first run, it does in the second.** -/
theorem simulates_lines {f n : ℕ} {p : List UInt8} {a : Unit} (hsim : Sim R c c')
    (hrun : parseLines f n p c = some (a, d)) (hgood : R.Good d) :
    ∃ d', parseLines f n p c' = some (a, d') ∧ Sim R d d' := by
  induction n generalizing p c c' with
  | zero => cases hrun
  | succ n ih =>
    unfold parseLines at hrun ⊢
    dsimp only at hrun ⊢
    split at hrun
    · rename_i hend
      obtain ⟨-, rfl⟩ := Parser.pure_eq hrun
      rw [if_pos hend]
      exact ⟨c', rfl, hsim⟩
    rename_i hend
    rw [if_neg hend]
    split at hrun
    · rename_i hlabel
      rw [if_pos hlabel]
      obtain ⟨_, c₁, hdef, hrun⟩ := Parser.bind_eq hrun
      obtain ⟨hfree, rfl⟩ := defineLabel_eq _ hdef
      have hnum := addStr_strNum c (wordOf (skipSpace p))
      have hgood₁ := hgood.before (parseLines_grows hrun (hsim.start.trans hnum))
      have hgood₂ := hgood₁.before (grows_define _ _ _)
      obtain ⟨hsim₁, hpair⟩ := hsim.enter _ hgood₂.names
      have hfree' := (hsim₁.data.sameEntry hpair).label.trans hfree
      obtain ⟨d', hd', hsim₂⟩ := ih (hsim₁.define _ hpair hgood₂.names) hrun
      exact ⟨d', (Parser.bind_of_eq (defineLabel_of_eq _ hfree')).trans hd', hsim₂⟩
    · rename_i hlabel
      rw [if_neg hlabel]
      obtain ⟨q, c₁, hline, hrun⟩ := Parser.bind_eq hrun
      obtain ⟨_, c₂, hendLine, hrun⟩ := Parser.bind_eq hrun
      rw [endLine_eq] at hendLine
      obtain ⟨-, rfl⟩ := Prod.mk.inj (Option.some.inj hendLine)
      obtain ⟨-, hnum⟩ := extends_line grows_primitive f _ c q c₁ hsim.start hline
      have hgood₁ := hgood.before (parseLines_grows hrun (hsim.start.trans hnum))
      obtain ⟨c₁', hline', hsim₁⟩ := (simulates_line f _).run c c' q c₁ hsim hline
        (hgood₁.before (grows_endLine c₁))
      obtain ⟨d', hd', hsim₂⟩ := ih hsim₁.endLine hrun
      refine ⟨d', ?_, hsim₂⟩
      rw [Parser.bind_of_eq hline', Parser.bind_of_eq (endLine_eq c₁')]
      exact hd'

end Simulates

end Nezumi
