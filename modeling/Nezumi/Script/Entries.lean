import Nezumi.Script.Simulates

/-!
# The entries of the string table over many scripts (`map/script.c`)

* `KeepsEntries`: what a part of a script does to the entries. Those of builtin functions and constants
  only change by a label.
* `loaded`: the string table with which the first script is compiled.
* `LabelsFree`: no label of a script has the name of a builtin function or a constant.
* `Based`, `based_exec`: then their entries are what they were, and the others are free again.
-/

namespace Nezumi

open Decimal BackPatch

/-! ## A script -/

section Keeps

variable {c c' c'' : Compiler} {l : ℕ}

/-- An entry without its label and its references. -/
def StrData.plain (d : StrData) : StrData := { d with type := .nop, backpatch := -1, label := -1 }

/-- An entry of a name that is no builtin function and no constant. -/
def StrData.Open (d : StrData) : Prop := d.type = .nop ∨ d.type = .pos ∨ d.type = .name

/-- What a part of a script does to the entries. -/
structure KeepsEntries (c c' : Compiler) : Prop where
  num : c.strNum ≤ c'.strNum
  words : c.words <+: c'.words
  names : strNames c <+: strNames c'
  plain : ∀ l, labelStart ≤ l → l < c.strNum → (c'.strData l).plain = (c.strData l).plain
  fixed : ∀ l, labelStart ≤ l → l < c.strNum → (c.strData l).type ≠ .nop → NoLabel l c'.words →
    c'.strData l = c.strData l
  kind : ∀ l, labelStart ≤ l → (c.strData l).Open → (c'.strData l).Open
  beyond : (∀ l, c.strNum ≤ l → c.strData l = {}) → ∀ l, c'.strNum ≤ l → c'.strData l = {}

theorem KeepsEntries.refl (c : Compiler) : KeepsEntries c c :=
  ⟨le_rfl, List.prefix_refl _, List.prefix_refl _, fun _ _ _ => rfl, fun _ _ _ _ _ => rfl,
    fun _ _ h => h, fun h => h⟩

theorem KeepsEntries.trans (h : KeepsEntries c c') (h' : KeepsEntries c' c'') :
    KeepsEntries c c'' where
  num := h.num.trans h'.num
  words := h.words.trans h'.words
  names := h.names.trans h'.names
  plain l hl hlt := (h'.plain l hl (hlt.trans_le h.num)).trans (h.plain l hl hlt)
  fixed l hl hlt htype hnone := by
    have hsame := h.fixed l hl hlt htype fun n k p hmem => hnone n k p (h'.words.subset hmem)
    rw [h'.fixed l hl (hlt.trans_le h.num) (by rw [hsame]; exact htype) hnone, hsame]
  kind l hl ho := h'.kind l hl (h.kind l hl ho)
  beyond hb := h'.beyond (h.beyond hb)

/-- The entries are the same. -/
theorem keepsEntries_of_eq (hdata : c'.strData = c.strData) (hnum : c'.strNum = c.strNum)
    (hwords : c.words <+: c'.words) : KeepsEntries c c' := by
  have hnames : strNames c' = strNames c := strNames_congr hnum fun l => by rw [hdata]
  refine ⟨hnum.ge, hwords, by rw [hnames], ?_, ?_, ?_, ?_⟩
  · intro l _ _
    rw [hdata]
  · intro l _ _ _ _
    rw [hdata]
  · intro l _ ho
    rw [hdata]
    exact ho
  · rw [hdata, hnum]
    exact fun h => h

/-- One entry changes: its references if it is open, or its label. -/
theorem keepsEntries_update {d : StrData} (hdata : c'.strData = Function.update c.strData l d)
    (hnum : c'.strNum = c.strNum) (hwords : c.words <+: c'.words) (hlt : l < c.strNum)
    (hplain : d.plain = (c.strData l).plain) (hopen : d.Open)
    (hlabel : (c.strData l).type ≠ .nop → ∃ n k p, .label n l k p ∈ c'.words) :
    KeepsEntries c c' := by
  have hstr : d.plain.str = (c.strData l).plain.str := congrArg StrData.str hplain
  have hnames : strNames c' = strNames c := strNames_update hnum hdata hstr
  refine ⟨hnum.ge, hwords, by rw [hnames], ?_, ?_, ?_, ?_⟩
  · intro l' _ _
    rw [hdata, Function.update_apply]
    split
    · rename_i heq
      rw [heq, hplain]
    · rfl
  · intro l' _ _ htype hnone
    rw [hdata]
    refine Function.update_of_ne ?_ _ _
    rintro rfl
    obtain ⟨n, k, p, hmem⟩ := hlabel htype
    exact hnone n k p hmem
  · intro l' _ ho
    rw [hdata, Function.update_apply]
    split
    · exact hopen
    · exact ho
  · intro hb l' hl'
    rw [hdata, Function.update_of_ne (by omega)]
    exact hb l' (by omega)

theorem keepsEntries_ref (hlt : l < c.strNum) : KeepsEntries c (c.ref l) := by
  have hdata := ref_strData c l
  have hwords : c.words <+: (c.ref l).words := by
    rw [ref_words]
  split at hdata
  · rename_i htype
    exact keepsEntries_update hdata ref_strNum hwords hlt rfl (.inl htype) fun h => absurd htype h
  · exact keepsEntries_of_eq hdata ref_strNum hwords

theorem keepsEntries_enter (hc : labelStart ≤ c.strNum) (p : VarName) :
    KeepsEntries c (c.enter p).2 := by
  have hdata (l : ℕ) : (c.enter p).2.strData l = (c.addStr p).2.strData l := rfl
  have hold {l : ℕ} (hl : l < c.strNum) : (c.enter p).2.strData l = c.strData l :=
    addStr_strData_of_lt hl
  have hnames : strNames (c.enter p).2 = (Nezumi.addStr (strNames c) p).2 := (addStr_strNames hc p).2
  refine ⟨addStr_strNum c p, ?_, ?_, ?_, ?_, ?_, ?_⟩
  · rw [show (c.enter p).2.words = c.words from (addStr_words c p).1]
  · rw [hnames]
    exact prefix_addStr _ _
  · intro l _ hlt
    rw [hold hlt]
  · intro l _ hlt _ _
    exact hold hlt
  · intro l _ ho
    rcases addStr_strData c p l with heq | ⟨-, hfresh⟩
    · rw [hdata, heq]
      exact ho
    · exact .inl hfresh.type
  · intro hb l hl
    have hle := addStr_strNum c p
    have hl' : (c.addStr p).2.strNum ≤ l := hl
    rw [hdata]
    rcases addStr_cases' c p with ⟨heq, -⟩ | heq <;> rw [heq] at hl' ⊢
    · exact hb l hl'
    · have hlt : c.strNum < l := hl'
      unfold Compiler.newStr
      dsimp only
      rw [Function.update_of_ne (by omega)]
      exact hb l (by omega)

theorem keepsEntries_primitive : Primitive KeepsEntries where
  refl := KeepsEntries.refl
  trans h h' := h.trans h'
  emit c bs _ := keepsEntries_of_eq emit_strData emit_strNum (by
    rw [emit_words])
  enter c p hc := keepsEntries_enter hc p
  cmd c l := keepsEntries_of_eq rfl rfl (List.prefix_refl _)
  addRef c name l _ hlt := (keepsEntries_ref hlt).trans (keepsEntries_of_eq rfl rfl (by
    rw [ref_words]
    exact List.prefix_append _ _))
  addNext c hc := (keepsEntries_ref (by unfold labelNextline labelStart at *; omega)).trans
    (keepsEntries_of_eq rfl rfl (by
      rw [ref_words]
      exact List.prefix_append _ _))
  call c := keepsEntries_of_eq rfl rfl (List.prefix_append _ _)

theorem keepsEntries_define (hlt : l < c.strNum) (name : VarName) :
    KeepsEntries c (c.define name l) :=
  keepsEntries_update (l := l) rfl rfl (List.prefix_append _ _) hlt rfl (.inr (.inl rfl))
    fun _ => ⟨name, c.lines, c.scriptPos, List.mem_append_right _ List.mem_cons_self⟩

theorem keepsEntries_endLine (hc : labelStart ≤ c.strNum) : KeepsEntries c c.endLine := by
  have hne {l : ℕ} (hl : labelStart ≤ l) : c.endLine.strData l = c.strData l :=
    Function.update_of_ne (by unfold labelNextline labelStart at *; omega) _ _
  have hnum : c.endLine.strNum = c.strNum := rfl
  have hnames : strNames c.endLine = strNames c := strNames_update rfl rfl rfl
  refine ⟨hnum.ge, List.prefix_append _ _, by rw [hnames], ?_, ?_, ?_, ?_⟩
  · intro l hl _
    rw [hne hl]
  · intro l hl _ _ _
    exact hne hl
  · intro l hl ho
    rw [hne hl]
    exact ho
  · intro hb l hl
    rw [hnum] at hl
    rw [hne (hc.trans hl)]
    exact hb l hl

theorem keepsEntries_lines {f n : ℕ} {p : List UInt8} {a : Unit}
    (hrun : parseLines f n p c = some (a, c')) (hc : labelStart ≤ c.strNum) : KeepsEntries c c' := by
  induction n generalizing p c with
  | zero => cases hrun
  | succ n ih =>
    unfold parseLines at hrun
    dsimp only at hrun
    split at hrun
    · obtain ⟨-, rfl⟩ := Parser.pure_eq hrun
      exact KeepsEntries.refl _
    split at hrun
    · obtain ⟨_, c₁, hdef, hrun⟩ := Parser.bind_eq hrun
      obtain ⟨-, rfl⟩ := defineLabel_eq _ hdef
      have hnum := addStr_strNum c (wordOf (skipSpace p))
      have hdefine := keepsEntries_define (c := (c.enter (wordOf (skipSpace p))).2)
        (addStr_range hc _).2 (wordOf (skipSpace p))
      exact ((keepsEntries_enter hc _).trans hdefine).trans (ih hrun (hc.trans hnum))
    · obtain ⟨q, c₁, hline, hrun⟩ := Parser.bind_eq hrun
      obtain ⟨_, c₂, hend, hrun⟩ := Parser.bind_eq hrun
      rw [endLine_eq] at hend
      obtain ⟨-, rfl⟩ := Prod.mk.inj (Option.some.inj hend)
      obtain ⟨hkeep, hnum⟩ := extends_line keepsEntries_primitive f _ c q c₁ hc hline
      exact (hkeep.trans (keepsEntries_endLine (hc.trans hnum))).trans (ih hrun (hc.trans hnum))

theorem keepsEntries_finish (is : List ℕ) (c : Compiler) (his : ∀ i ∈ is, i < c.strNum) :
    KeepsEntries c (is.foldl finishStr c) := by
  induction is generalizing c with
  | nil => exact KeepsEntries.refl c
  | cons i is ih =>
    have hstep : KeepsEntries c (finishStr c i) := by
      by_cases htype : (c.strData i).type = .nop
      · rw [finishStr_eq htype]
        exact keepsEntries_update (l := i) rfl rfl (List.prefix_refl _) (his i (by simp)) rfl
          (.inr (.inr rfl)) fun h => absurd htype h
      · rw [finishStr_of_ne htype]
        exact KeepsEntries.refl c
    refine hstep.trans (ih _ fun j hj => ?_)
    rw [(finishStr_frame c i).1]
    exact his j (by simp [hj])

end Keeps

/-! ## The tables at the first script -/

section Loaded

variable {c : Compiler} {conf : ScriptConf}

/-- The string table with which the first script is compiled, after some names, those of the server's
variables, have been entered. -/
def loaded (conf : ScriptConf) (names : List VarName) : Compiler :=
  firstScript conf (names.foldl (fun c p => (c.addStr p).2) {})

/-- The entries behind the last one are empty. -/
structure Vacant (c : Compiler) : Prop where
  start : labelStart ≤ c.strNum
  beyond : ∀ l, c.strNum ≤ l → c.strData l = {}

theorem Vacant.addStr (h : Vacant c) (p : VarName) : Vacant (c.addStr p).2 := by
  refine ⟨h.start.trans (addStr_strNum c p), fun l hl => ?_⟩
  exact (keepsEntries_enter h.start p).beyond h.beyond l hl

/-- A name with its value. -/
def Compiler.put (c : Compiler) (p : VarName) (f : StrData → StrData) : Compiler :=
  (c.addStr p).2.setStr (c.addStr p).1 f

theorem Vacant.put (h : Vacant c) (p : VarName) (f : StrData → StrData) : Vacant (c.put p f) := by
  refine ⟨(h.addStr p).start, fun l hl => ?_⟩
  have hlt := (addStr_range h.start p).2
  have hl' : (c.addStr p).2.strNum ≤ l := hl
  unfold Compiler.put
  rw [setStr_strData, if_neg (by omega)]
  exact (h.addStr p).beyond l hl'

theorem put_strNames (hc : labelStart ≤ c.strNum) (p : VarName) {f : StrData → StrData}
    (hf : ∀ d, (f d).str = d.str) : strNames (c.put p f) = (addStr (strNames c) p).2 := by
  rw [← (addStr_strNames hc p).2]
  exact strNames_update rfl rfl (hf _)

/-- A name in lower case is in the table when it has been entered. -/
theorem mem_addStr_self {T : StrTable} {a : VarName} (ha : a.map toLower = a) :
    a ∈ (addStr T a).2 := by
  refine mem_addStr.mpr (.inr ?_)
  unfold resolve
  rw [ha, ite_self]

theorem vacant_addBuildinFunc (h : Vacant c) (fs : List ((VarName × List UInt8) × ℕ)) :
    Vacant (fs.foldl (fun c fi => c.put fi.1.1 fun d =>
      { d with type := .func, val := Int32.ofNat fi.2, func := some fi.2 }) c) ∧
    ∀ a, a.map toLower = a → (a ∈ strNames c ∨ a ∈ fs.map fun fi => fi.1.1) →
      a ∈ strNames (fs.foldl (fun c fi => c.put fi.1.1 fun d =>
        { d with type := .func, val := Int32.ofNat fi.2, func := some fi.2 }) c) := by
  induction fs generalizing c with
  | nil => exact ⟨h, fun a _ ha => ha.resolve_right (by simp)⟩
  | cons fi fs ih =>
    obtain ⟨hvacant, hmem⟩ := ih (h.put fi.1.1 fun d =>
      { d with type := .func, val := Int32.ofNat fi.2, func := some fi.2 })
    refine ⟨hvacant, fun a hlow ha => hmem a hlow ?_⟩
    have hnames : strNames (c.put fi.1.1 fun d =>
        { d with type := .func, val := Int32.ofNat fi.2, func := some fi.2 }) =
      (addStr (strNames c) fi.1.1).2 := put_strNames h.start _ fun _ => rfl
    rw [hnames]
    rcases ha with ha | ha
    · exact .inl ((prefix_addStr _ _).subset ha)
    · rw [List.map_cons] at ha
      rcases List.mem_cons.mp ha with rfl | ha
      · exact .inl (mem_addStr_self hlow)
      · exact .inr ha

theorem vacant_readConst (h : Vacant c) (line : List UInt8) :
    Vacant (readConst c line) ∧ strNames c <+: strNames (readConst c line) := by
  unfold readConst
  split
  · exact ⟨h, List.prefix_refl _⟩
  split
  · exact ⟨h, List.prefix_refl _⟩
  · rename_i name val type _
    refine ⟨h.put (name.map toLower) _, ?_⟩
    have hnames := put_strNames h.start (name.map toLower)
      (f := fun d => { d with type := if type = 0 then .int else .param, val := val }) fun _ => rfl
    change _ <+: strNames (c.put (name.map toLower) _)
    rw [hnames]
    exact prefix_addStr _ _

theorem vacant_readConstdb (h : Vacant c) (lines : List (List UInt8)) :
    Vacant (lines.foldl readConst c) ∧ strNames c <+: strNames (lines.foldl readConst c) := by
  induction lines generalizing c with
  | nil => exact ⟨h, List.prefix_refl _⟩
  | cons line lines ih =>
    obtain ⟨h1, h2⟩ := vacant_readConst h line
    obtain ⟨h3, h4⟩ := ih h1
    exact ⟨h3, h2.trans h4⟩

theorem strNames_first (c : Compiler) (b : Bool) : strNames { c with first := b } = strNames c := rfl

/-- **The tables at the first script**: nothing is behind the last entry, and arrays have one. -/
theorem vacant_loaded (conf : ScriptConf) (names : List VarName) :
    Vacant (loaded conf names) ∧ (loaded conf names).first = false ∧
      Ready (loaded conf names) ∧ getelementofarray ∈ strNames (loaded conf names) := by
  have hnames (names : List VarName) (c : Compiler) (h : Vacant c) (hw : StrWaiting c)
      (hf : c.first = true) : Vacant (names.foldl (fun c p => (c.addStr p).2) c) ∧
        StrWaiting (names.foldl (fun c p => (c.addStr p).2) c) ∧
        (names.foldl (fun c p => (c.addStr p).2) c).first = true := by
    induction names generalizing c with
    | nil => exact ⟨h, hw, hf⟩
    | cons p names ih => exact ih _ (h.addStr p) (hw.addStr p) ((addStr_first c p).trans hf)
  obtain ⟨h, hw, hf⟩ := hnames names {} ⟨le_rfl, fun _ _ => rfl⟩
    ⟨le_rfl, fun l hl hlt => absurd hl (not_le.mpr hlt)⟩ rfl
  obtain ⟨hready, hfirst⟩ := firstScript_ready ⟨hw.ready, fun _ => hw⟩ conf
  obtain ⟨h1, h2⟩ := vacant_addBuildinFunc h conf.buildinFunc.zipIdx
  obtain ⟨h3, h4⟩ := vacant_readConstdb h1 (fgetsLines conf.constTxt.length conf.constTxt)
  have hload : loaded conf names = { readConstdb conf (addBuildinFunc conf
      (names.foldl (fun c p => (c.addStr p).2) {})) with first := false } := by
    unfold loaded firstScript
    rw [if_pos hf]
  refine ⟨?_, hfirst, hready, ?_⟩
  · rw [hload]
    exact ⟨h3.start, h3.beyond⟩
  · rw [hload, strNames_first]
    refine h4.subset (h2 _ rfl (.inr ?_))
    have harray := conf.array
    rw [← List.zipIdx_map_fst 0 conf.buildinFunc, List.map_map] at harray
    exact harray

end Loaded

/-! ## Many scripts -/

section Based

variable {b c c' : Compiler} {conf : ScriptConf} {l : ℕ} {d : StrData}

theorem reset_plain (d : StrData) : d.reset.plain = d.plain := by
  unfold StrData.reset
  split
  · rfl
  · rfl

/-- At the start of a script an open entry is as if it was new. -/
theorem reset_of_open (ho : d.Open)
    (h : d.type = .pos ∨ d.type = .name ∨ (d.label = -1 ∧ d.backpatch = -1)) :
    d.reset = d.plain := by
  unfold StrData.reset StrData.plain
  split
  · rfl
  · rename_i hreset
    have htype := ho.resolve_right hreset
    obtain ⟨hlabel, hback⟩ := (h.resolve_left fun h => hreset (.inl h)).resolve_left
      fun h => hreset (.inr h)
    obtain ⟨str, type, backpatch, label, func, val⟩ := d
    dsimp only at htype hlabel hback
    rw [htype, hlabel, hback]

/-- An entry of a builtin function or a constant is not touched at the start of a script. -/
theorem eq_of_reset (h : d.reset.type ≠ .nop) : d.reset = d := by
  unfold StrData.reset at h ⊢
  split
  · rename_i hreset
    rw [if_pos hreset] at h
    exact absurd rfl h
  · rfl

theorem open_of_reset (h : d.reset.type = .nop) : d.Open := by
  unfold StrData.reset at h
  split at h
  · rename_i hreset
    exact .inr hreset
  · exact .inl h

theorem reset_open (h : d.Open) : d.reset.Open := by
  unfold StrData.reset
  split
  · exact .inl rfl
  · exact h

/-- The entries of `b`, those at the first script, when some scripts have been compiled. -/
structure Based (b c : Compiler) : Prop where
  first : c.first = false
  ready : Ready c
  names : strNames b <+: strNames c
  num : b.strNum ≤ c.strNum
  same : ∀ l, labelStart ≤ l → l < b.strNum → (c.strData l).reset = (b.strData l).reset
  kind : ∀ l, b.strNum ≤ l → (c.strData l).Open
  beyond : ∀ l, c.strNum ≤ l → c.strData l = {}

/-- The tables keep the entries of builtin functions and constants. -/
def KeepsBuildin (b c : Compiler) : Prop := ∀ l, BuildinEntry b l → c.strData l = b.strData l

theorem Based.keeps (h : Based b c) : KeepsBuildin b c := by
  rintro l ⟨hl, hlt, htype⟩
  rw [startScript_strData hl hlt] at htype
  have hsame := h.same l hl hlt
  rw [eq_of_reset htype] at hsame
  rw [← hsame]
  refine (eq_of_reset ?_).symm
  rw [hsame, ← eq_of_reset htype]
  exact htype

theorem based_loaded (conf : ScriptConf) (names : List VarName) :
    Based (loaded conf names) (loaded conf names) := by
  obtain ⟨hvacant, hfirst, hready, -⟩ := vacant_loaded conf names
  refine ⟨hfirst, hready, List.prefix_refl _, le_rfl, fun _ _ _ => rfl, fun l hl => ?_,
    hvacant.beyond⟩
  rw [hvacant.beyond l hl]
  exact .inl rfl

theorem Based.addStr (h : Based b c) (p : VarName) : Based b (c.addStr p).2 := by
  have hkeep := keepsEntries_enter h.ready.start p
  have hold {l : ℕ} (hl : l < c.strNum) : (c.addStr p).2.strData l = c.strData l :=
    addStr_strData_of_lt hl
  refine ⟨(addStr_first c p).trans h.first, h.ready.addStr p, h.names.trans hkeep.names,
    h.num.trans hkeep.num, fun l hl hlt => ?_, fun l hl => ?_, hkeep.beyond h.beyond⟩
  · rw [hold (hlt.trans_le h.num)]
    exact h.same l hl hlt
  · rcases addStr_strData c p l with heq | ⟨-, hfresh⟩
    · rw [heq]
      exact h.kind l hl
    · exact .inl hfresh.type

/-- A word that is no label of a builtin function or a constant. -/
def Word.OffBuildin (b : Compiler) : Word → Prop
  | .label _ l _ _ => ¬ BuildinEntry b l
  | _ => True

instance (b : Compiler) : DecidablePred (Word.OffBuildin b)
  | .label _ _ _ _ => inferInstanceAs (Decidable (¬ _))
  | .ref _ _ _ _ | .next _ _ | .line _ | .call => .isTrue trivial

/-- No label of a script has the entry of a builtin function or a constant. -/
def LabelsFree (conf : ScriptConf) (b c : Compiler) : CompilerEvent → Prop
  | .script f src =>
    ∀ r ∈ parseScript conf f src c, r.1.isSome = true → ∀ w ∈ r.2.words, w.OffBuildin b
  | .name _ => True

instance (conf : ScriptConf) (b c : Compiler) : DecidablePred (LabelsFree conf b c)
  | .script f src => inferInstanceAs (Decidable (∀ r ∈ parseScript conf f src c,
      r.1.isSome = true → ∀ w ∈ r.2.words, w.OffBuildin b))
  | .name _ => .isTrue trivial

theorem firstScript_of_first (h : c.first = false) (conf : ScriptConf) : firstScript conf c = c := by
  unfold firstScript
  rw [h]
  rfl

/-- The first script is compiled as if the tables had been read before. -/
theorem parseScript_loaded (conf : ScriptConf) (names : List VarName) (f : ℕ) (src : List UInt8) :
    parseScript conf f src (loaded conf names) =
      parseScript conf f src (Run.exec (compilerStep conf) {} (names.map .name)) := by
  have hexec (names : List VarName) (c : Compiler) : Run.exec (compilerStep conf) c
      (names.map .name) = names.foldl (fun c p => (c.addStr p).2) c := by
    induction names generalizing c with
    | nil => rfl
    | cons p names ih => exact ih _
  have hmodify (c : Compiler) : (modify (firstScript conf) : Parser Unit) c =
      some ((), firstScript conf c) := rfl
  rw [hexec]
  unfold parseScript
  rw [Parser.bind_of_eq (hmodify _), Parser.bind_of_eq (hmodify _),
    firstScript_of_first (vacant_loaded conf names).2.1]
  rfl

/-- What starting a script does to the entries of names. -/
theorem startScript_entry (c : Compiler) (hl : labelStart ≤ l) :
    (startScript c).strData l = (c.strData l).reset ∨
      (c.strNum ≤ l ∧ (startScript c).strData l = c.strData l) := by
  by_cases hlt : l < c.strNum
  · exact .inl (startScript_strData hl hlt)
  · refine .inr ⟨not_lt.mp hlt, ?_⟩
    have hne : l ≠ labelNextline := by
      unfold labelNextline labelStart at *
      omega
    unfold startScript
    dsimp only
    rw [setStr_strData, if_neg hne, resets_strData, if_neg fun h => hlt (mem_strIndices.mp h).2]

theorem startScript_strNames (c : Compiler) : strNames (startScript c) = strNames c := by
  refine strNames_congr (startScript_strNum c) fun l => ?_
  unfold startScript
  dsimp only
  rw [setStr_strData]
  have hreset (d : StrData) : d.reset.str = d.str := by
    unfold StrData.reset
    split
    · rfl
    · rfl
  split
  · dsimp only
    rw [resets_strData]
    split
    · exact hreset _
    · rfl
  · rw [resets_strData]
    split
    · exact hreset _
    · rfl

/-- What a script does to the entries. -/
theorem keepsEntries_script {f : ℕ} {src code : List UInt8} (hfirst : c.first = false)
    (hready : Ready c) (hrun : parseScript conf f src c = some (some code, c')) :
    KeepsEntries (startScript c) c' := by
  obtain ⟨c₁, hlines, rfl, -⟩ := parseScript_eq hrun
  rw [firstScript_of_first hfirst] at hlines
  have hstart : labelStart ≤ (startScript c).strNum := by
    rw [startScript_strNum]
    exact hready.start
  have hkeep := keepsEntries_lines hlines hstart
  have hemit := keepsEntries_primitive.emit c₁ [0] (hstart.trans hkeep.num)
  exact (hkeep.trans hemit).trans (keepsEntries_finish _ _ fun i hi => (mem_strIndices.mp hi).2)

/-- **A script whose labels are free keeps the tables.** -/
theorem based_script (hb : labelStart ≤ b.strNum) (h : Based b c) {f : ℕ} {src code : List UInt8}
    (hrun : parseScript conf f src c = some (some code, c'))
    (hfree : ∀ w ∈ c'.words, w.OffBuildin b) : Based b c' := by
  have hkeep := keepsEntries_script h.first h.ready hrun
  have hrunReady : RunReady c := ⟨h.ready, fun hf => by
    rw [h.first] at hf
    cases hf⟩
  have hready := runReady_script hrunReady hrun
  have hnum := startScript_strNum c
  refine ⟨script_first hrunReady hrun, hready.ready, ?_, ?_, fun l hl hlt => ?_, fun l hl => ?_,
    hkeep.beyond fun l hl => ?_⟩
  · have hnames := hkeep.names
    rw [startScript_strNames] at hnames
    exact h.names.trans hnames
  · have hle := hkeep.num
    rw [hnum] at hle
    exact h.num.trans hle
  · have hlt' : l < c.strNum := hlt.trans_le h.num
    have hstart := startScript_strData hl hlt'
    have hplain := hkeep.plain l hl (by rw [hnum]; exact hlt')
    have hrange : l < c'.strNum := by
      have hle := hkeep.num
      omega
    rw [← h.same l hl hlt]
    by_cases htype : ((startScript c).strData l).type = .nop
    · -- A name: it is open before the script and behind it.
      have hopen := hkeep.kind l hl (.inl htype)
      rw [hstart] at htype hplain
      rw [reset_of_open hopen (hready.ready.entries l hl hrange), hplain, reset_plain,
        reset_of_open (open_of_reset htype) (h.ready.entries l hl hlt')]
    · have hbuildin : BuildinEntry b l := by
        refine ⟨hl, hlt, ?_⟩
        rw [startScript_strData hl hlt, ← h.same l hl hlt, ← hstart]
        exact htype
      rw [hkeep.fixed l hl (by rw [hnum]; exact hlt') htype fun n k p hmem =>
        hfree _ hmem hbuildin, hstart, reset_reset]
  · have hl' : labelStart ≤ l := hb.trans hl
    refine hkeep.kind l hl' ?_
    rcases startScript_entry c hl' with heq | ⟨-, heq⟩ <;> rw [heq]
    · exact reset_open (h.kind l hl)
    · exact h.kind l hl
  · rw [hnum] at hl
    rcases startScript_entry c (h.ready.start.trans hl) with heq | ⟨-, heq⟩ <;>
      rw [heq, h.beyond l hl]
    rfl

theorem based_step (hb : labelStart ≤ b.strNum) (h : Based b c) {e : CompilerEvent}
    (hfree : LabelsFree conf b c e) : Based b (compilerStep conf c e) := by
  cases e with
  | script f src =>
    unfold compilerStep
    dsimp only
    split
    · rename_i code c' hrun
      rcases code with _ | code
      · rw [parseScript_none hrun, firstScript_of_first h.first]
        exact h
      · exact based_script hb h hrun (hfree _ hrun rfl)
    · exact h
  | name p => exact h.addStr p

/-- **Scripts whose labels are free keep the tables.** -/
theorem based_exec {names : List VarName} {es : List CompilerEvent}
    (h : Run.Meets (compilerStep conf) (LabelsFree conf (loaded conf names)) (loaded conf names) es) :
    Based (loaded conf names) (Run.exec (compilerStep conf) (loaded conf names) es) :=
  Run.inv_exec (I := Based (loaded conf names))
    (fun _ _ hc hfree => based_step (vacant_loaded conf names).1.start hc hfree)
    (based_loaded conf names) h

end Based

end Nezumi
