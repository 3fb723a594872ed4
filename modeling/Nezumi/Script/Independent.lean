import Nezumi.Script.Entries

/-!
# Scripts are compiled independently (`map/script.c`)

* `finish_frame`, `finish_type`: the last loop of `parse_script` only writes the operands of names that
  have no label.
* `SameCode`: the code of a script in two runs, up to the numbers of new names.
* `sim_start`: two runs that have kept their tables are alike at the start of a script.
* `scripts_independent`: runs whose labels are free keep the entries of builtin functions and
  constants, and a script that fits both gets the same code in both.
-/

namespace Nezumi

open Decimal BackPatch

/-! ## The end of a script -/

section Finish

variable {B : ℕ → Prop} {c c' : Compiler} {l : ℕ}

theorem finishStr_type (c : Compiler) (i l : ℕ) : ((finishStr c i).strData l).type =
    if l = i ∧ (c.strData l).type = .nop then .name else (c.strData l).type := by
  by_cases htype : (c.strData i).type = .nop
  · rw [finishStr_eq htype]
    dsimp only
    rw [Function.update_apply]
    by_cases hl : l = i
    · subst hl
      rw [if_pos rfl, if_pos ⟨rfl, htype⟩]
    · rw [if_neg hl, if_neg fun h => hl h.1]
  · rw [finishStr_of_ne htype, if_neg]
    rintro ⟨rfl, h⟩
    exact htype h

/-- After the last loop an open entry has the type of a name. -/
theorem finish_type (is : List ℕ) (c : Compiler) (l : ℕ) :
    ((is.foldl finishStr c).strData l).type =
      if l ∈ is ∧ (c.strData l).type = .nop then .name else (c.strData l).type := by
  induction is generalizing c with
  | nil => simp
  | cons i is ih =>
    have hstep := finishStr_type c i l
    rw [List.foldl_cons, ih]
    by_cases htype : (c.strData l).type = .nop
    · by_cases hi : l = i
      · rw [if_pos ⟨hi, htype⟩] at hstep
        rw [hstep, ite_self, if_pos ⟨by simp [hi], htype⟩]
      · rw [if_neg fun h => hi h.1] at hstep
        rw [hstep]
        simp [hi]
    · rw [if_neg fun h => htype h.2] at hstep
      rw [hstep, if_neg fun h => htype h.2, if_neg fun h => htype h.2]

/-- **The last loop leaves the code alone** but for the references to open entries. -/
theorem finish_frame (is : List ℕ) (h : LabelInv B c)
    (hrange : ∀ i ∈ is, labelStart ≤ i ∧ i < c.strNum) {t : ℕ}
    (ht : ∀ n l s e, .ref n l s e ∈ c.words → (c.strData l).type = .nop → t < s ∨ e ≤ t) :
    (is.foldl finishStr c).scriptBuf t = c.scriptBuf t := by
  induction is generalizing c with
  | nil => rfl
  | cons i is ih =>
    obtain ⟨hi, hlt⟩ := hrange i (by simp)
    obtain ⟨hnum, hwords, -, -, -⟩ := finishStr_frame c i
    have hrest := ih (labelInv_finishStr h hi hlt).1 (fun j hj => by
      rw [hnum]
      exact hrange j (by simp [hj])) fun n l s e hmem htype => by
        rw [hwords] at hmem
        refine ht n l s e hmem ?_
        rw [finishStr_type] at htype
        split at htype
        · cases htype
        · exact htype
    rw [List.foldl_cons, hrest]
    by_cases htype : (c.strData i).type = .nop
    swap
    · rw [finishStr_of_ne htype]
    rw [finishStr_eq htype]
    rcases h.entries i hi hlt with hentry | hentry | hentry | hentry
    · exact (h.patch_chain none i hentry).2 t fun n s e hmem => ht n i s e hmem htype
    · rw [hentry.type] at htype
      cases htype
    · exact absurd htype hentry.type.1
    · rw [hentry.type] at htype
      cases htype

/-- The end of a script: `C_NOP`, and the names. -/
def Compiler.finish (c : Compiler) : Compiler :=
  (strIndices (c.emit [0])).foldl finishStr (c.emit [0])

theorem finish_scriptPos (c : Compiler) : c.finish.scriptPos = c.scriptPos + 1 := by
  have hpos (is : List ℕ) (c : Compiler) : (is.foldl finishStr c).scriptPos = c.scriptPos := by
    induction is generalizing c with
    | nil => rfl
    | cons i is ih => exact (ih _).trans (finishStr_frame c i).2.2.1
  exact hpos _ _

/-- The code of the references to a name without a label. -/
theorem finish_ref (h : LabelInv B c) {n : VarName} {s e : ℕ} (hmem : .ref n l s e ∈ c.words)
    (htype : (c.strData l).type = .nop) :
    ¬ B l ∧ CodedName c.finish.scriptBuf s e l ∧ e ≤ c.scriptPos := by
  have hemit := labelInv_emit h [0]
  obtain ⟨hl, hlt⟩ := h.range _ hmem l rfl
  have hmemIs : l ∈ strIndices (c.emit [0]) := mem_strIndices.mpr ⟨hl, by rwa [emit_strNum]⟩
  obtain ⟨hinv, hnum, hwords, -, -, -, hclosed⟩ := labelInv_finish (strIndices (c.emit [0])) hemit
    (fun i hi => mem_strIndices.mp hi) List.nodup_range'
  have hname : (c.finish.strData l).type = .name := by
    unfold Compiler.finish
    rw [finish_type, emit_strData, if_pos ⟨hmemIs, htype⟩]
  have hmem' : .ref n l s e ∈ c.finish.words := by
    unfold Compiler.finish
    rw [hwords, emit_words]
    exact hmem
  have hentry := hinv.entries l hl (by rw [hnum, emit_strNum]; exact hlt)
  change StrEntryOk B c.finish.scriptBuf c.finish.words l (c.finish.strData l) at hentry
  rcases hentry with hentry | hentry | hentry | hentry
  · rw [hentry.type] at hname
    cases hname
  · rw [hentry.type] at hname
    cases hname
  · exact absurd hname hentry.type.2.2
  · exact ⟨hentry.own, hentry.refs n s e hmem', (h.lt_of_ref hmem).2⟩

end Finish

/-! ## The code of two scripts -/

section SameCode

/-- Two codes of one script. `refs` are the references to names without a label, each with its place
and its entry in either run: what the entries before `N` are is the same, and names have one entry in
one run if and only if they do in the other. All other bytes are the same. -/
structure SameCodeAt (N : ℕ) (code code' : List UInt8) (refs : Set (ℕ × ℕ × ℕ)) : Prop where
  length : code'.length = code.length
  coded : ∀ a ∈ refs, CodeAt code a.1 (8 :: operand a.2.1) ∧ CodeAt code' a.1 (8 :: operand a.2.2)
  old : ∀ a ∈ refs, a.2.1 < N ∨ a.2.2 < N → a.2.1 = a.2.2
  numbers : ∀ a ∈ refs, ∀ b ∈ refs, a.2.1 = b.2.1 ↔ a.2.2 = b.2.2
  others : ∀ t, (∀ a ∈ refs, t < a.1 ∨ a.1 + 4 ≤ t) → code'[t]? = code[t]?

/-- The same code, up to the numbers of new names. -/
def SameCode (N : ℕ) (code code' : List UInt8) : Prop := ∃ refs, SameCodeAt N code code' refs

variable {R : TwoRuns} {B B' : ℕ → Prop} {c c' : Compiler}

/-- The code that is written. -/
def Compiler.code (c : Compiler) : List UInt8 := (List.range c.scriptPos).map c.scriptBuf

theorem forall₂_mem_left {α β : Type} {P : α → β → Prop} {as : List α} {bs : List β}
    (h : List.Forall₂ P as bs) {a : α} (ha : a ∈ as) : ∃ b ∈ bs, P a b := by
  induction h with
  | nil => cases ha
  | cons hab _ ih =>
    rcases List.mem_cons.mp ha with rfl | ha
    · exact ⟨_, List.mem_cons_self, hab⟩
    · obtain ⟨b, hb, hp⟩ := ih ha
      exact ⟨b, List.mem_cons_of_mem _ hb, hp⟩

/-- A reference in one run is one in the other. -/
theorem Sim.ref_right (h : Sim R c c') {n : VarName} {l s e : ℕ} (hmem : .ref n l s e ∈ c.words) :
    ∃ l', .ref n l' s e ∈ c'.words ∧ R.Pair c.names l l' := by
  obtain ⟨w, hw, hsame⟩ := forall₂_mem_left h.words hmem
  cases hsame with
  | ref hpair => exact ⟨_, hw, hpair⟩

theorem Sim.ref_left (h : Sim R c c') {n : VarName} {l' s e : ℕ} (hmem : .ref n l' s e ∈ c'.words) :
    ∃ l, .ref n l s e ∈ c.words ∧ R.Pair c.names l l' := by
  obtain ⟨w, hw, hsame⟩ := forall₂_mem_left h.words.flip hmem
  cases hsame with
  | ref hpair => exact ⟨_, hw, hpair⟩

/-- Two names have one entry in one run if and only if they do in the other. -/
theorem TwoRuns.Pair.same {ns : List VarName} {l l' m m' : ℕ} (h : R.Pair ns l l')
    (hgood : SameNames R.N (namePairs R.T R.T' ns)) (h' : R.Pair ns m m') : l = m ↔ l' = m' := by
  rcases h with hmem | ⟨rfl, hl, hlt⟩
  · exact h'.iff hgood hmem
  · rcases h' with hmem' | ⟨rfl, -⟩
    · rw [eq_comm, eq_comm (b := m')]
      exact TwoRuns.Pair.iff (.inr ⟨rfl, hl, hlt⟩) hgood hmem'
    · rfl

/-- **At the end of a script the code is the same.** -/
theorem Sim.sameCode (h : Sim R c c') (hgood : R.Good c) (hinv : LabelInv B c)
    (hinv' : LabelInv B' c') : SameCode R.N c.finish.code c'.finish.code := by
  have hpos : c'.finish.scriptPos = c.finish.scriptPos := by
    rw [finish_scriptPos, finish_scriptPos, h.pos]
  refine ⟨{a | ∃ n e, .ref n a.2.1 a.1 e ∈ c.words ∧ .ref n a.2.2 a.1 e ∈ c'.words ∧
    R.Pair c.names a.2.1 a.2.2 ∧ (c.strData a.2.1).type = .nop}, ?_, ?_, ?_, ?_, ?_⟩
  · unfold Compiler.code
    rw [List.length_map, List.length_map, List.length_range, List.length_range, hpos]
  · rintro ⟨s, l, l'⟩ ⟨n, e, hmem, hmem', hp, htype⟩
    have htype' : (c'.strData l').type = .nop := (h.data.sameEntry hp).type.trans htype
    obtain ⟨-, ⟨rfl, hcode, hread⟩, he⟩ := finish_ref hinv hmem htype
    obtain ⟨-, ⟨-, hcode', hread'⟩, he'⟩ := finish_ref hinv' hmem' htype'
    have hend := finish_scriptPos c
    have hend' := finish_scriptPos c'
    dsimp only at hread hread' he he' ⊢
    exact ⟨(codeAt_iff 8).mpr ⟨by omega, hcode, by omega⟩,
      (codeAt_iff 8).mpr ⟨by omega, hcode', by omega⟩⟩
  · rintro a ⟨n, e, -, -, hp, -⟩ hlt
    exact hp.base hgood.names hlt
  · rintro a ⟨n, e, -, -, hp, -⟩ b ⟨n', e', -, -, hp', -⟩
    exact hp.same hgood.names hp'
  · intro t ht
    have hbuf : c'.finish.scriptBuf t = c.finish.scriptBuf t := by
      have hfar {n : VarName} {l s e : ℕ} (hmem : .ref n l s e ∈ c.words)
          (htype : (c.strData l).type = .nop) : t < s ∨ e ≤ t := by
        obtain ⟨l', hmem', hp⟩ := h.ref_right hmem
        obtain ⟨-, ⟨rfl, -⟩, -⟩ := finish_ref hinv hmem htype
        exact ht (s, l, l') ⟨n, _, hmem, hmem', hp, htype⟩
      unfold Compiler.finish
      rw [finish_frame _ (labelInv_emit hinv [0]) (fun i hi => mem_strIndices.mp hi),
        finish_frame _ (labelInv_emit hinv' [0]) (fun i hi => mem_strIndices.mp hi),
        emit_buf_congr [0] h.pos h.buf]
      · intro n l' s e hmem htype
        rw [emit_words] at hmem
        rw [emit_strData] at htype
        obtain ⟨l, hmem', hp⟩ := h.ref_left hmem
        exact hfar hmem' ((h.data.sameEntry hp).type.symm.trans htype)
      · intro n l s e hmem htype
        rw [emit_words] at hmem
        rw [emit_strData] at htype
        exact hfar hmem htype
    unfold Compiler.code
    rw [List.getElem?_map, List.getElem?_map, hpos]
    by_cases hlt : t < c.finish.scriptPos
    · rw [List.getElem?_range hlt, Option.map_some, Option.map_some, hbuf]
    · rw [List.getElem?_eq_none (by rw [List.length_range]; omega), Option.map_none, Option.map_none]

end SameCode

/-! ## Two histories -/

section Runs

variable {conf : ScriptConf} {b c c' d : Compiler} {f : ℕ} {src code : List UInt8}

/-- What the names `ns` and the words `ws` of a script have to be, for the states `c` and `c'` of two
histories. -/
structure NamesFit (b c c' : Compiler) (ns : List VarName) (ws : List Word) : Prop where
  names : SameNames b.strNum (namePairs (strNames c) (strNames c') ns)
  calls : NamedCalls ws = true ∨ ((b.strData c'.parseCmd).type = .func ∧
    labelStart ≤ c'.parseCmd ∧ c'.parseCmd < b.strNum ∧ NoLabel c'.parseCmd ws)

/-- The runs of one script behind two histories. -/
def Based.runs (h : Based b c) (h' : Based b c') (harray : getelementofarray ∈ strNames b) :
    TwoRuns where
  base := strNames b
  T := strNames c
  T' := strNames c'
  q := c'.parseCmd
  t := ((startScript c').strData c'.parseCmd).type
  before := h.names
  before' := h'.names
  array := harray

theorem startScript_parseCmd (c : Compiler) : (startScript c).parseCmd = c.parseCmd := by
  have hresets (is : List ℕ) (c : Compiler) :
      (is.foldl (fun c i => c.setStr i StrData.reset) c).parseCmd = c.parseCmd := by
    induction is generalizing c with
    | nil => rfl
    | cons i is ih => exact ih _
  exact hresets _ _

theorem startScript_nextLabel (c : Compiler) :
    ((startScript c).strData labelNextline).label = -1 := by
  unfold startScript
  dsimp only
  rw [setStr_strData, if_pos rfl]

/-- An entry that no builtin function and no constant has is free at the start of a script. -/
theorem Based.freshEntry (hb : labelStart ≤ b.strNum) (h : Based b c) {l : ℕ} (hl : b.strNum ≤ l) :
    FreshEntry ((startScript c).strData l) := by
  by_cases hlt : l < c.strNum
  · rw [startScript_strData (hb.trans hl) hlt,
      reset_of_open (h.kind l hl) (h.ready.entries l (hb.trans hl) hlt)]
    exact ⟨rfl, rfl, rfl⟩
  · rcases startScript_entry c (hb.trans hl) with heq | ⟨-, heq⟩ <;>
      rw [heq, h.beyond l (not_lt.mp hlt)]
    · exact ⟨rfl, rfl, rfl⟩
    · exact ⟨rfl, rfl, rfl⟩

/-- **At the start of a script two runs are alike**, if both have kept their tables. -/
theorem sim_start (hb : labelStart ≤ b.strNum) (h : Based b c) (h' : Based b c')
    (harray : getelementofarray ∈ strNames b) :
    Sim (h.runs h' harray) (startScript c) (startScript c') := by
  have hN : (h.runs h' harray).N = b.strNum := length_strNames hb
  have hnext := startScript_next c
  have hnext' := startScript_next c'
  refine ⟨rfl, startScript_strNames c, startScript_strNames c', ?_, ?_, rfl, rfl, rfl, .nil,
    fun a ha => (by cases ha), ⟨⟨hnext.1, ?_⟩, fun l hl hlt => ?_, fun a ha => (by cases ha),
    fun l hl _ => ?_, fun l hl _ => ?_, fun l hl => ?_⟩, ?_⟩
  · rw [hN, startScript_strNum]
    exact h.num
  · rw [hN, startScript_strNum]
    exact h'.num
  · exact ⟨hnext'.1.trans hnext.1.symm, hnext'.2.trans hnext.2.symm,
      (startScript_nextLabel c').trans (startScript_nextLabel c).symm⟩
  · rw [hN] at hlt
    rw [startScript_strData hl (hlt.trans_le h.num), startScript_strData hl (hlt.trans_le h'.num),
      h.same l hl hlt, h'.same l hl hlt]
  · exact h.freshEntry hb (hN ▸ hl)
  · exact h'.freshEntry hb (hN ▸ hl)
  · exact .inl (h.freshEntry hb (hN ▸ hl)).type
  · exact .inr ⟨fun _ _ _ _ hmem => (by cases hmem), startScript_parseCmd c', fun _ => rfl⟩

/-- Where the commands of a script start. -/
theorem parseScript_head (h : parseScript conf f src c = some (some code, d)) :
    (skipSpace src).head? = some 123 ∧ (skipSpace (skipSpace src).tail).head? ≠ some 125 := by
  unfold parseScript at h
  obtain ⟨_, c₀, h0, h⟩ := Parser.bind_eq h
  obtain ⟨-, rfl⟩ := Prod.mk.inj (Option.some.inj h0)
  dsimp only at h
  split at h
  · obtain ⟨heq, -⟩ := Parser.pure_eq h
    cases heq
  rename_i hopen
  split at h
  · obtain ⟨heq, -⟩ := Parser.pure_eq h
    cases heq
  rename_i hempty
  exact ⟨not_not.mp hopen, hempty⟩

/-- What `parse_script` does when it has read the lines. -/
theorem parseScript_of_lines (hopen : (skipSpace src).head? = some 123)
    (hempty : (skipSpace (skipSpace src).tail).head? ≠ some 125)
    (hlines : parseLines f f (skipSpace src).tail (startScript (firstScript conf c)) =
      some ((), d)) : parseScript conf f src c = some (some d.finish.code, d.finish) := by
  unfold parseScript
  change (if (skipSpace src).head? ≠ some 123 then _ else _ : Parser _) (firstScript conf c) = _
  rw [if_neg (not_not.mpr hopen), if_neg hempty]
  have hstart : (modify startScript : Parser Unit) (firstScript conf c) =
      some ((), startScript (firstScript conf c)) := rfl
  rw [Parser.bind_of_eq hstart, Parser.bind_of_eq hlines, Parser.bind_of_eq (addScriptc_eq _ _)]
  rfl

theorem finish_names (c : Compiler) : c.finish.names = c.names ∧ c.finish.words = c.words := by
  have hfinish (is : List ℕ) (c : Compiler) :
      (is.foldl finishStr c).names = c.names ∧ (is.foldl finishStr c).words = c.words := by
    induction is generalizing c with
    | nil => exact ⟨rfl, rfl⟩
    | cons i is ih =>
      obtain ⟨h1, h2⟩ := ih (finishStr c i)
      refine ⟨h1.trans ?_, h2.trans (finishStr_frame c i).2.1⟩
      unfold finishStr
      split
      · rfl
      · rfl
  obtain ⟨h1, h2⟩ := hfinish (strIndices (c.emit [0])) (c.emit [0])
  exact ⟨h1.trans (emit_names [0]), h2.trans emit_words⟩

/-- **One script behind two histories.** -/
theorem Based.sameCode (hb : labelStart ≤ b.strNum) (h : Based b c) (h' : Based b c')
    (harray : getelementofarray ∈ strNames b)
    (hrun : parseScript conf f src c = some (some code, d)) (hsize : code.length < 2 ^ 24)
    (hfit : NamesFit b c c' d.names d.words) :
    ∃ code' d', parseScript conf f src c' = some (some code', d') ∧
      SameCode b.strNum code code' := by
  have hN : (h.runs h' harray).N = b.strNum := length_strNames hb
  obtain ⟨hopen, hempty⟩ := parseScript_head hrun
  obtain ⟨c₁, hlines, rfl, rfl⟩ := parseScript_eq hrun
  rw [firstScript_of_first h.first] at hlines
  rw [List.length_map, List.length_range] at hsize
  obtain ⟨hnames, hwords⟩ := finish_names c₁
  have hgood : (h.runs h' harray).Good c₁ := by
    refine ⟨?_, hfit.calls.imp (fun hcalls => ?_) fun ⟨htype, hle, hlt, hnone⟩ => ?_⟩
    · rw [hN, ← hnames]
      exact hfit.names
    · rw [← hwords]
      exact hcalls
    · refine ⟨?_, hle, by rw [hN]; exact hlt, ?_⟩
      · change ((startScript c').strData c'.parseCmd).type = .func
        rw [startScript_strData hle (hlt.trans_le h'.num), h'.same _ hle hlt]
        unfold StrData.reset
        rw [if_neg, htype]
        rw [htype]
        rintro (⟨⟨⟩⟩ | ⟨⟨⟩⟩)
      · rw [← hwords]
        exact hnone
  obtain ⟨c₁', hlines', hsim⟩ := simulates_lines (sim_start hb h h' harray) hlines hgood
  have hpos := finish_scriptPos c₁
  have hline {c c₁ : Compiler} (h : Based b c)
      (hlines : parseLines f f (skipSpace src).tail (startScript c) = some ((), c₁))
      (hsize : c₁.scriptPos < 2 ^ 24) : LineStart (BuildinEntry c) c₁ :=
    (lineStart_lines hlines (by rw [startScript_strNum]; exact h.ready.start)).2.2
      (lineStart_start h.ready) hsize
  have hsize' : c₁.scriptPos < 2 ^ 24 := by
    change c₁.finish.scriptPos < _ at hsize
    omega
  refine ⟨c₁'.finish.code, c₁'.finish, parseScript_of_lines hopen hempty ?_, ?_⟩
  · rw [firstScript_of_first h'.first]
    exact hlines'
  · rw [← hN]
    exact hsim.sameCode hgood (hline h hlines hsize').labels
      (hline h' hlines' (by rw [hsim.pos]; exact hsize')).labels

/-- **Scripts are compiled independently**: if no script before has defined a label on the entry of a
builtin function or a constant, those entries are what they were, and every script whose names fit gets
the same code behind either history. -/
theorem scripts_independent (conf : ScriptConf) (names : List VarName) (es es' : List CompilerEvent)
    (h : Run.Meets (compilerStep conf) (LabelsFree conf (loaded conf names)) (loaded conf names) es)
    (h' : Run.Meets (compilerStep conf) (LabelsFree conf (loaded conf names)) (loaded conf names)
      es') :
    KeepsBuildin (loaded conf names) (Run.exec (compilerStep conf) (loaded conf names) es) ∧
      ∀ f src code d,
        parseScript conf f src (Run.exec (compilerStep conf) (loaded conf names) es) =
          some (some code, d) →
        code.length < 2 ^ 24 →
        NamesFit (loaded conf names) (Run.exec (compilerStep conf) (loaded conf names) es)
          (Run.exec (compilerStep conf) (loaded conf names) es') d.names d.words →
        ∃ code' d',
          parseScript conf f src (Run.exec (compilerStep conf) (loaded conf names) es') =
            some (some code', d') ∧
          SameCode (loaded conf names).strNum code code' := by
  obtain ⟨hvacant, -, -, harray⟩ := vacant_loaded conf names
  have hbased := based_exec h
  exact ⟨hbased.keeps, fun f src code d hrun hsize hfit =>
    hbased.sameCode hvacant.start (based_exec h') harray hrun hsize hfit⟩

/-- The code of a script behind some others, with its names and its words. -/
def compiledAfter (conf : ScriptConf) (es : List CompilerEvent) (f : ℕ) (src : List UInt8) :
    Option (List UInt8 × List VarName × List Word) :=
  (parseScript conf f src (Run.exec (compilerStep conf) (loaded conf []) es)).bind fun (code, d) =>
    code.map fun code => (code, d.names, d.words)

theorem compiledAfter_eq {es : List CompilerEvent} {ns : List VarName} {ws : List Word}
    (h : compiledAfter conf es f src = some (code, ns, ws)) :
    ∃ d, parseScript conf f src (Run.exec (compilerStep conf) (loaded conf []) es) =
      some (some code, d) ∧ d.names = ns ∧ d.words = ws := by
  obtain ⟨⟨code', d⟩, hparse, hcode⟩ := Option.bind_eq_some_iff.mp h
  obtain ⟨code'', hcode', heq⟩ := Option.map_eq_some_iff.mp hcode
  obtain ⟨rfl, hread⟩ := Prod.mk.inj heq
  obtain ⟨rfl, rfl⟩ := Prod.mk.inj hread
  exact ⟨d, by rw [hparse, ← hcode'], rfl, rfl⟩

/-- `{goto L_B;L_B:end;}` -/
def labelScript : List UInt8 :=
  [123, 103, 111, 116, 111, 32, 76, 95, 66, 59, 76, 95, 66, 58, 101, 110, 100, 59, 125]

/-- `{goto foo;}` -/
def nameScript : List UInt8 := [123, 103, 111, 116, 111, 32, 102, 111, 111, 59, 125]

/-- Behind another script, `foo` has the entry 6. -/
theorem scripts_independent_name :
    KeepsBuildin (loaded gotoConf [])
      (Run.exec (compilerStep gotoConf) (loaded gotoConf []) [.script 9 labelScript]) ∧
    ∃ code' d', parseScript gotoConf 9 nameScript
        (Run.exec (compilerStep gotoConf) (loaded gotoConf []) []) = some (some code', d') ∧
      SameCode (loaded gotoConf []).strNum [8, 3, 0, 0, 7, 8, 6, 0, 0, 4, 9, 0] code' := by
  have hcompiled : compiledAfter gotoConf [.script 9 labelScript] 9 nameScript =
      some ([8, 3, 0, 0, 7, 8, 6, 0, 0, 4, 9, 0], [[103, 111, 116, 111], [102, 111, 111]],
        [.ref [103, 111, 116, 111] 3 0 4, .ref [102, 111, 111] 6 5 9, .line 11]) := by
    decide +kernel
  obtain ⟨d, hparse, hnames, hwords⟩ := compiledAfter_eq hcompiled
  obtain ⟨hkeep, hcode⟩ := scripts_independent gotoConf [] [.script 9 labelScript] []
    (by decide +kernel) trivial
  refine ⟨hkeep, hcode 9 nameScript _ d hparse (by decide) ⟨?_, ?_⟩⟩
  · rw [hnames]
    decide +kernel
  · rw [hwords]
    exact .inl rfl

/-- `{end:goto end;}` -/
def endScript : List UInt8 := [123, 101, 110, 100, 58, 103, 111, 116, 111, 32, 101, 110, 100, 59, 125]

/-- `{goto end(0);}` -/
def callScript : List UInt8 := [123, 103, 111, 116, 111, 32, 101, 110, 100, 40, 48, 41, 59, 125]

/-- A label `end` takes the entry of the builtin function, and scripts that call it are no longer
compiled. -/
theorem scripts_dependent :
    (¬ ∀ (conf : ScriptConf) (names : List VarName) (es : List CompilerEvent),
      KeepsBuildin (loaded conf names) (Run.exec (compilerStep conf) (loaded conf names) es)) ∧
    ¬ ∀ (conf : ScriptConf) (names : List VarName) (es es' : List CompilerEvent) (f : ℕ)
      (src code : List UInt8) (d : Compiler),
      parseScript conf f src (Run.exec (compilerStep conf) (loaded conf names) es) =
        some (some code, d) →
      ∃ code' d', parseScript conf f src (Run.exec (compilerStep conf) (loaded conf names) es') =
        some (some code', d') ∧ SameCode (loaded conf names).strNum code code' := by
  constructor
  · intro h
    have hkeep := h gotoConf [] [.script 9 endScript] 4 (by decide +kernel)
    revert hkeep
    decide +kernel
  · intro h
    have hcompiled : compiledAfter gotoConf [] 9 callScript =
        some ([8, 3, 0, 0, 7, 8, 4, 0, 0, 7, 128, 4, 4, 9, 0],
          [[103, 111, 116, 111], [101, 110, 100]],
          [.ref [103, 111, 116, 111] 3 0 4, .ref [101, 110, 100] 4 5 9, .call, .line 14]) := by
      decide +kernel
    obtain ⟨d, hparse, -, -⟩ := compiledAfter_eq hcompiled
    obtain ⟨code', d', hparse', -⟩ := h gotoConf [] [] [.script 9 endScript] 9 callScript _ d hparse
    have hnone : (parseScript gotoConf 9 callScript (Run.exec (compilerStep gotoConf)
        (loaded gotoConf []) [.script 9 endScript])).isNone = true := by
      decide +kernel
    rw [hparse'] at hnone
    cases hnone

end Runs

end Nezumi
