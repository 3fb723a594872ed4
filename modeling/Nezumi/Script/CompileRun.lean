import Nezumi.Lib.Run
import Nezumi.Script.LabelsRun

/-!
# Runs of the compiler (`map/script.c`)

The server compiles one script after another, and enters names while it runs scripts.

* `Ready`: the string table between two scripts; `ready_exec`: it always is.
* `lineStart_start`, `finished`: the invariant at the start of a script, and what it says at the end.
* `LabelsResolved`, `LabelsFit`: what the code has to be, and what the names in a script have to be.
* `labels_resolved`: the one holds if and only if the other does.
-/

namespace Nezumi

open Decimal BackPatch

/-! ## The start of a script -/

section Start

variable {c : Compiler} {l : ℕ}

theorem mem_strIndices : l ∈ strIndices c ↔ labelStart ≤ l ∧ l < c.strNum := by
  unfold strIndices
  rw [List.mem_range'_1]
  omega

theorem reset_reset (d : StrData) : d.reset.reset = d.reset := by
  unfold StrData.reset
  split
  · rw [if_neg]
    rintro (h | h) <;> cases h
  · rfl

theorem setStr_strData (c : Compiler) (i : ℕ) (f : StrData → StrData) (l : ℕ) :
    (c.setStr i f).strData l = if l = i then f (c.strData l) else c.strData l := by
  unfold Compiler.setStr
  dsimp only
  rw [Function.update_apply]
  split
  · rename_i h
    rw [h]
  · rfl

theorem resets_strData (is : List ℕ) (c : Compiler) (l : ℕ) :
    (is.foldl (fun c i => c.setStr i StrData.reset) c).strData l =
      if l ∈ is then (c.strData l).reset else c.strData l := by
  induction is generalizing c with
  | nil => rfl
  | cons i is ih =>
    rw [List.foldl_cons, ih, setStr_strData]
    by_cases hi : l = i
    · subst hi
      simp [reset_reset]
    · simp [hi]

theorem resets_strNum (is : List ℕ) (c : Compiler) :
    (is.foldl (fun c i => c.setStr i StrData.reset) c).strNum = c.strNum := by
  induction is generalizing c with
  | nil => rfl
  | cons i is ih => exact ih _

theorem resets_first (is : List ℕ) (c : Compiler) :
    (is.foldl (fun c i => c.setStr i StrData.reset) c).first = c.first := by
  induction is generalizing c with
  | nil => rfl
  | cons i is ih => exact ih _

theorem startScript_strNum (c : Compiler) : (startScript c).strNum = c.strNum :=
  resets_strNum (strIndices c) c

theorem startScript_strData (hl : labelStart ≤ l) (hlt : l < c.strNum) :
    (startScript c).strData l = (c.strData l).reset := by
  have hne : l ≠ labelNextline := by
    unfold labelNextline labelStart at *
    omega
  unfold startScript
  dsimp only
  rw [setStr_strData, if_neg hne, resets_strData, if_pos (mem_strIndices.mpr ⟨hl, hlt⟩)]

theorem startScript_next (c : Compiler) :
    ((startScript c).strData labelNextline).type = .nop ∧
      ((startScript c).strData labelNextline).backpatch = -1 := by
  unfold startScript
  dsimp only
  rw [setStr_strData, if_pos rfl]
  exact ⟨rfl, rfl⟩

/-- The string table between two scripts: an entry that has no label and no name of its own waits for
nothing. -/
structure Ready (c : Compiler) : Prop where
  start : labelStart ≤ c.strNum
  entries : ∀ l, labelStart ≤ l → l < c.strNum → (c.strData l).type = .pos ∨
    (c.strData l).type = .name ∨ ((c.strData l).label = -1 ∧ (c.strData l).backpatch = -1)

/-- Builtin functions and constants: the entries with a type when a script starts. -/
def BuildinEntry (c : Compiler) (l : ℕ) : Prop :=
  labelStart ≤ l ∧ l < c.strNum ∧ ((startScript c).strData l).type ≠ .nop

instance (c : Compiler) : DecidablePred (BuildinEntry c) := fun _ =>
  inferInstanceAs (Decidable (_ ∧ _))

/-- **At the start of a script the invariant holds.** -/
theorem lineStart_start (h : Ready c) : LineStart (BuildinEntry c) (startScript c) := by
  have hnum := startScript_strNum c
  have hnone (l : ℕ) : NoLabel l (startScript c).words := fun _ _ _ hmem => by cases hmem
  refine ⟨⟨fun w hw => (by cases hw), List.Pairwise.nil, fun a ha => (by cases ha),
    fun _ _ _ _ hmem => (by cases hmem), fun l hl hlt => ?_, fun l hl => ?_, ?_⟩, ⟨?_, ?_⟩, rfl⟩
  · rw [hnum] at hlt
    have hdata := startScript_strData hl hlt
    by_cases htype : ((startScript c).strData l).type = .nop
    · left
      refine ⟨htype, fun hb => hb.2.2 htype, ?_, hnone l, ?_, fun _ _ _ hmem => by cases hmem⟩
      · rw [hdata] at htype ⊢
        unfold StrData.reset at htype ⊢
        split
        · rfl
        · rename_i hreset
          rcases h.entries l hl hlt with hpos | hname | hwait
          · exact absurd (.inl hpos) hreset
          · exact absurd (.inr hname) hreset
          · exact hwait.1
      · rw [hdata] at htype ⊢
        unfold StrData.reset at htype ⊢
        split
        · exact .inl rfl
        · rename_i hreset
          rcases h.entries l hl hlt with hpos | hname | hwait
          · exact absurd (.inl hpos) hreset
          · exact absurd (.inr hname) hreset
          · exact .inl hwait.2
    · right
      right
      left
      have hreset : ¬ ((c.strData l).type = .pos ∨ (c.strData l).type = .name) := fun hreset => by
        rw [hdata] at htype
        unfold StrData.reset at htype
        rw [if_pos hreset] at htype
        exact htype rfl
      have hsame : (startScript c).strData l = c.strData l := by
        rw [hdata]
        unfold StrData.reset
        rw [if_neg hreset]
      obtain ⟨hlabel, hback⟩ := ((h.entries l hl hlt).resolve_left fun h => hreset (.inl h)).resolve_left
        fun h => hreset (.inr h)
      refine ⟨⟨htype, ?_, ?_⟩, ⟨hl, hlt, htype⟩, ?_, ?_, hnone l, fun _ _ _ hmem => by cases hmem⟩
      · rw [hsame]
        exact fun h => hreset (.inl h)
      · rw [hsame]
        exact fun h => hreset (.inr h)
      · rw [hsame, hlabel]
      · rw [hsame, hback]
  · rw [hnum]
    exact hl.2.1
  · refine ⟨(startScript_next c).1, .inl (startScript_next c).2, fun _ _ hmem => (by cases hmem),
      fun ws1 s e ws2 p hws => ?_⟩
    · have hlen := congrArg List.length hws
      rw [List.length_append, List.length_cons] at hlen
      cases hlen
  · exact fun _ _ _ _ hmem => by cases hmem
  · exact fun _ _ _ _ _ _ _ _ hmem => by cases hmem

end Start

/-! ## The end of a script -/

section Finish

variable {B : ℕ → Prop} {c : Compiler} {l : ℕ}

theorem finishStr_frame (c : Compiler) (i : ℕ) : (finishStr c i).strNum = c.strNum ∧
    (finishStr c i).words = c.words ∧ (finishStr c i).scriptPos = c.scriptPos ∧
    (finishStr c i).first = c.first ∧ ∀ l, l ≠ i → (finishStr c i).strData l = c.strData l := by
  unfold finishStr
  split
  · exact ⟨rfl, rfl, rfl, rfl, fun l hl => Function.update_of_ne hl _ _⟩
  · exact ⟨rfl, rfl, rfl, rfl, fun _ _ => rfl⟩

/-- **After the last loop no entry is open.** -/
theorem labelInv_finish (is : List ℕ) (h : LabelInv B c)
    (hrange : ∀ i ∈ is, labelStart ≤ i ∧ i < c.strNum) (hnodup : is.Nodup) :
    LabelInv B (is.foldl finishStr c) ∧ (is.foldl finishStr c).strNum = c.strNum ∧
      (is.foldl finishStr c).words = c.words ∧ (is.foldl finishStr c).scriptPos = c.scriptPos ∧
      (is.foldl finishStr c).first = c.first ∧
      (∀ l, l ∉ is → (is.foldl finishStr c).strData l = c.strData l) ∧
      ∀ i ∈ is, ((is.foldl finishStr c).strData i).type ≠ .nop := by
  induction is generalizing c with
  | nil => exact ⟨h, rfl, rfl, rfl, rfl, fun _ _ => rfl, fun _ hi => (by cases hi)⟩
  | cons i is ih =>
    obtain ⟨hi, hlt⟩ := hrange i (by simp)
    obtain ⟨hnum, hwords, hpos, hfirst, hother⟩ := finishStr_frame c i
    obtain ⟨hinv, htype⟩ := labelInv_finishStr h hi hlt
    rw [List.nodup_cons] at hnodup
    obtain ⟨h1, h2, h3, h4, h5, h6, h7⟩ := ih hinv (fun j hj => by
      rw [hnum]
      exact hrange j (by simp [hj])) hnodup.2
    refine ⟨h1, h2.trans hnum, h3.trans hwords, h4.trans hpos, h5.trans hfirst,
      fun l hl => ?_, fun j hj => ?_⟩
    · rw [List.mem_cons, not_or] at hl
      exact (h6 l hl.2).trans (hother l hl.1)
    · rcases List.mem_cons.mp hj with rfl | hj
      · rw [List.foldl_cons, h6 j hnodup.1]
        exact htype
      · exact h7 j hj

/-- The state at the end of a script. -/
structure Finished (B : ℕ → Prop) (c : Compiler) : Prop where
  labels : LabelInv B c
  same : ∀ n l k p n' l' k' p', .label n l k p ∈ c.words → .label n' l' k' p' ∈ c.words →
    (k = k' ↔ p = p')
  next : nextSites c.words = []
  closed : ∀ l, labelStart ≤ l → l < c.strNum → (c.strData l).type ≠ .nop

theorem finished_of_lineStart (h : LineStart B c) :
    Finished B ((strIndices (c.emit [0])).foldl finishStr (c.emit [0])) := by
  obtain ⟨hinv, hnum, hwords, -, -, -, hclosed⟩ := labelInv_finish
    (strIndices (c.emit [0])) (labelInv_emit h.labels [0]) (fun i hi => mem_strIndices.mp hi)
    List.nodup_range'
  refine ⟨hinv, ?_, ?_, fun l hl hlt => hclosed l (mem_strIndices.mpr ⟨hl, hnum ▸ hlt⟩)⟩
  · rw [hwords]
    exact h.lines.same
  · rw [hwords]
    exact h.next

end Finish

/-! ## The first script -/

section First

variable {c c' : Compiler} {l : ℕ}

/-- Every entry waits for nothing and has no label. -/
structure StrWaiting (c : Compiler) : Prop where
  start : labelStart ≤ c.strNum
  entries : ∀ l, labelStart ≤ l → l < c.strNum →
    (c.strData l).label = -1 ∧ (c.strData l).backpatch = -1

theorem StrWaiting.ready (h : StrWaiting c) : Ready c :=
  ⟨h.start, fun l hl hlt => .inr (.inr (h.entries l hl hlt))⟩

theorem StrWaiting.addStr (h : StrWaiting c) (p : VarName) : StrWaiting (c.addStr p).2 := by
  refine ⟨h.start.trans (addStr_strNum c p), fun l hl hlt => ?_⟩
  rcases addStr_cases' c p with ⟨heq, -⟩ | heq <;> rw [heq] at hlt ⊢
  · exact h.entries l hl hlt
  · unfold Compiler.newStr
    dsimp only
    rcases Nat.lt_succ_iff_lt_or_eq.mp hlt with hlt | rfl
    · rw [Function.update_of_ne (by omega)]
      exact h.entries l hl hlt
    · rw [Function.update_self]
      exact ⟨rfl, rfl⟩

theorem StrWaiting.setStr (h : StrWaiting c) (i : ℕ) {f : StrData → StrData}
    (hf : ∀ d, (f d).label = d.label ∧ (f d).backpatch = d.backpatch) :
    StrWaiting (c.setStr i f) := by
  refine ⟨h.start, fun l hl hlt => ?_⟩
  rw [setStr_strData]
  split
  · rw [(hf _).1, (hf _).2]
    exact h.entries l hl hlt
  · exact h.entries l hl hlt

theorem StrWaiting.addBuildinFunc (h : StrWaiting c) (conf : ScriptConf) :
    StrWaiting (addBuildinFunc conf c) := by
  unfold Nezumi.addBuildinFunc
  induction conf.buildinFunc.zipIdx generalizing c with
  | nil => exact h
  | cons fi fs ih => exact ih ((h.addStr fi.1.1).setStr _ fun d => ⟨rfl, rfl⟩)

theorem StrWaiting.readConst (h : StrWaiting c) (line : List UInt8) : StrWaiting (readConst c line) := by
  unfold Nezumi.readConst
  split
  · exact h
  · split
    · exact h
    · exact (h.addStr _).setStr _ fun d => ⟨rfl, rfl⟩

theorem StrWaiting.readConstdb (h : StrWaiting c) (conf : ScriptConf) :
    StrWaiting (readConstdb conf c) := by
  unfold Nezumi.readConstdb
  induction fgetsLines conf.constTxt.length conf.constTxt generalizing c with
  | nil => exact h
  | cons line lines ih => exact ih (h.readConst line)

/-- The state between two scripts. -/
structure RunReady (c : Compiler) : Prop where
  ready : Ready c
  first : c.first = true → StrWaiting c

theorem firstScript_ready (h : RunReady c) (conf : ScriptConf) :
    Ready (firstScript conf c) ∧ (firstScript conf c).first = false := by
  unfold firstScript
  split
  · rename_i hfirst
    have hwait := ((h.first hfirst).addBuildinFunc conf).readConstdb conf
    exact ⟨⟨hwait.start, fun l hl hlt => .inr (.inr (hwait.entries l hl hlt))⟩, rfl⟩
  · rename_i hfirst
    exact ⟨h.ready, by simpa using hfirst⟩

theorem Ready.addStr (h : Ready c) (p : VarName) : Ready (c.addStr p).2 := by
  refine ⟨h.start.trans (addStr_strNum c p), fun l hl hlt => ?_⟩
  rcases addStr_cases' c p with ⟨heq, -⟩ | heq <;> rw [heq] at hlt ⊢
  · exact h.entries l hl hlt
  · unfold Compiler.newStr
    dsimp only
    rcases Nat.lt_succ_iff_lt_or_eq.mp hlt with hlt | rfl
    · rw [Function.update_of_ne (by omega)]
      exact h.entries l hl hlt
    · rw [Function.update_self]
      exact .inr (.inr ⟨rfl, rfl⟩)

theorem addStr_first (c : Compiler) (p : VarName) : (c.addStr p).2.first = c.first := by
  rcases addStr_cases' c p with ⟨h, -⟩ | h <;> rw [h]
  rfl

@[simp] theorem ref_first : (c.ref l).first = c.first := by
  unfold Compiler.ref
  dsimp only
  split <;> simp [Compiler.setStr]

/-- An entry that is not open and has no label waits for nothing. -/
def StrSettled (c : Compiler) : Prop :=
  ∀ l, labelStart ≤ l → l < c.strNum → (c.strData l).type = .nop ∨ (c.strData l).type = .pos ∨
    (c.strData l).type = .name ∨ ((c.strData l).label = -1 ∧ (c.strData l).backpatch = -1)

theorem StrSettled.addStr (h : StrSettled c) (p : VarName) : StrSettled (c.addStr p).2 := by
  intro l hl hlt
  rcases addStr_cases' c p with ⟨heq, -⟩ | heq <;> rw [heq] at hlt ⊢
  · exact h l hl hlt
  · unfold Compiler.newStr
    dsimp only
    rcases Nat.lt_succ_iff_lt_or_eq.mp hlt with hlt | rfl
    · rw [Function.update_of_ne (by omega)]
      exact h l hl hlt
    · rw [Function.update_self]
      exact .inl rfl

/-- An entry that changes keeps its type, or is no longer open. -/
theorem StrSettled.setStr (h : StrSettled c) {i : ℕ} {f : StrData → StrData}
    (hf : (f (c.strData i)).type = .nop ∨ (f (c.strData i)).type = .pos ∨
      (f (c.strData i)).type = .name) : StrSettled (c.setStr i f) := by
  intro l hl hlt
  rw [setStr_strData]
  split
  · rename_i heq
    subst heq
    exact hf.imp_right fun hf => hf.imp_right .inl
  · exact h l hl hlt

theorem StrSettled.emit (h : StrSettled c) (bs : List UInt8) : StrSettled (c.emit bs) := by
  intro l hl hlt
  rw [emit_strNum] at hlt
  rw [emit_strData]
  exact h l hl hlt

theorem StrSettled.ref (h : StrSettled c) (l : ℕ) : StrSettled (c.ref l) := by
  unfold Compiler.ref
  dsimp only
  split
  · rename_i htype
    refine (h.emit _).setStr (.inl ?_)
    rw [emit_strData]
    exact htype
  · exact h.emit _

/-- The state of the server's tables stays what it is. -/
def KeepsTable (c c' : Compiler) : Prop := c'.first = c.first ∧ (StrSettled c → StrSettled c')

theorem keepsTable_primitive : Primitive KeepsTable where
  refl _ := ⟨rfl, id⟩
  trans h h' := ⟨h'.1.trans h.1, h'.2 ∘ h.2⟩
  emit _ bs _ := ⟨emit_first, fun h => h.emit bs⟩
  enter c p _ := ⟨addStr_first c p, fun h => h.addStr p⟩
  cmd _ _ := ⟨rfl, id⟩
  addRef _ _ l _ _ := ⟨ref_first, fun h => h.ref l⟩
  addNext _ _ := ⟨ref_first, fun h => h.ref labelNextline⟩
  call _ := ⟨rfl, id⟩

theorem keepsTable_define (c : Compiler) (name : VarName) (l : ℕ) :
    KeepsTable c (c.define name l) :=
  ⟨rfl, fun h => h.setStr (i := l) (f := fun d => { d with type := .pos, label := c.scriptPos })
    (.inr (.inl rfl))⟩

theorem keepsTable_endLine (c : Compiler) : KeepsTable c c.endLine :=
  ⟨emit_first, fun h l hl hlt => by
    have hne : l ≠ labelNextline := by
      unfold labelNextline labelStart at *
      omega
    have hdata : c.endLine.strData l = c.strData l := Function.update_of_ne hne _ _
    rw [hdata]
    exact h l hl hlt⟩

theorem keepsTable_lines {f n : ℕ} {p : List UInt8} {a : Unit}
    (hrun : parseLines f n p c = some (a, c')) (hc : labelStart ≤ c.strNum) :
    KeepsTable c c' := by
  have htrans {c c' c'' : Compiler} (h : KeepsTable c c') (h' : KeepsTable c' c'') :
      KeepsTable c c'' := keepsTable_primitive.trans h h'
  induction n generalizing p c with
  | zero => cases hrun
  | succ n ih =>
    unfold parseLines at hrun
    dsimp only at hrun
    split at hrun
    · obtain ⟨-, rfl⟩ := Parser.pure_eq hrun
      exact ⟨rfl, id⟩
    split at hrun
    · obtain ⟨_, c₁, hdef, hrun⟩ := Parser.bind_eq hrun
      obtain ⟨-, rfl⟩ := defineLabel_eq _ hdef
      have hnum := addStr_strNum c (wordOf (skipSpace p))
      exact htrans (htrans (keepsTable_primitive.enter c _ hc) (keepsTable_define _ _ _))
        (ih hrun (hc.trans hnum))
    · obtain ⟨q, c₁, hline, hrun⟩ := Parser.bind_eq hrun
      obtain ⟨_, c₂, hend, hrun⟩ := Parser.bind_eq hrun
      rw [endLine_eq] at hend
      obtain ⟨-, rfl⟩ := Prod.mk.inj (Option.some.inj hend)
      obtain ⟨hkeep, hnum⟩ := extends_line keepsTable_primitive f _ c q c₁ hc hline
      exact htrans (htrans hkeep (keepsTable_endLine c₁)) (ih hrun (hc.trans hnum))

theorem keepsTable_finish (is : List ℕ) (c : Compiler) :
    KeepsTable c (is.foldl finishStr c) ∧ (is.foldl finishStr c).strNum = c.strNum ∧
      ∀ l, (c.strData l).type ≠ .nop ∨ l ∈ is → ((is.foldl finishStr c).strData l).type ≠ .nop := by
  induction is generalizing c with
  | nil => exact ⟨⟨rfl, id⟩, rfl, fun l hl => hl.resolve_right (by simp)⟩
  | cons i is ih =>
    obtain ⟨hnum, -, -, hfirst, hother⟩ := finishStr_frame c i
    have hself : ((finishStr c i).strData i).type ≠ .nop := by
      unfold finishStr
      split
      · change ((c.setStr i fun d => { d with type := .name, label := i }).strData i).type ≠ _
        rw [setStr_strData, if_pos rfl]
        rintro ⟨⟩
      · assumption
    have hstep : KeepsTable c (finishStr c i) := by
      refine ⟨hfirst, fun h => ?_⟩
      unfold finishStr
      split
      · exact h.setStr (i := i) (f := fun d => { d with type := .name, label := i })
          (.inr (.inr rfl))
      · exact h
    obtain ⟨hkeep, hnum', hclosed⟩ := ih (finishStr c i)
    refine ⟨keepsTable_primitive.trans hstep hkeep, hnum'.trans hnum, fun l hl => hclosed l ?_⟩
    by_cases hi : l = i
    · subst hi
      exact .inl hself
    · rw [hother l hi]
      exact hl.imp_right fun hl => (List.mem_cons.mp hl).resolve_left hi

end First

/-! ## Runs -/

section Runs

variable {conf : ScriptConf} {c c' : Compiler} {f : ℕ} {src code : List UInt8}

/-- What `parse_script` does with a script that it compiles. -/
theorem parseScript_eq (h : parseScript conf f src c = some (some code, c')) :
    ∃ c₁, parseLines f f (skipSpace src).tail (startScript (firstScript conf c)) = some ((), c₁) ∧
      c' = (strIndices (c₁.emit [0])).foldl finishStr (c₁.emit [0]) ∧
      code = (List.range c'.scriptPos).map c'.scriptBuf := by
  unfold parseScript at h
  obtain ⟨_, c₀, h0, h⟩ := Parser.bind_eq h
  obtain ⟨-, rfl⟩ := Prod.mk.inj (Option.some.inj h0)
  dsimp only at h
  split at h
  · obtain ⟨heq, -⟩ := Parser.pure_eq h
    cases heq
  split at h
  · obtain ⟨heq, -⟩ := Parser.pure_eq h
    cases heq
  obtain ⟨_, c₁, h1, h⟩ := Parser.bind_eq h
  obtain ⟨-, rfl⟩ := Prod.mk.inj (Option.some.inj h1)
  obtain ⟨_, c₂, h2, h⟩ := Parser.bind_eq h
  obtain ⟨_, c₃, h3, h⟩ := Parser.bind_eq h
  rw [addScriptc_eq] at h3
  obtain ⟨-, rfl⟩ := Prod.mk.inj (Option.some.inj h3)
  obtain ⟨_, c₄, h4, h⟩ := Parser.bind_eq h
  obtain ⟨-, rfl⟩ := Prod.mk.inj (Option.some.inj h4)
  obtain ⟨_, c₅, h5, h⟩ := Parser.bind_eq h
  obtain ⟨rfl, rfl⟩ := Prod.mk.inj (Option.some.inj h5)
  obtain ⟨hcode, rfl⟩ := Parser.pure_eq h
  exact ⟨c₂, h2, rfl, (Option.some.inj hcode).symm⟩

/-- What it does with one that is empty. -/
theorem parseScript_none (h : parseScript conf f src c = some (none, c')) :
    c' = firstScript conf c := by
  unfold parseScript at h
  obtain ⟨_, c₀, h0, h⟩ := Parser.bind_eq h
  obtain ⟨-, rfl⟩ := Prod.mk.inj (Option.some.inj h0)
  dsimp only at h
  split at h
  · exact (Parser.pure_eq h).2.symm
  split at h
  · exact (Parser.pure_eq h).2.symm
  obtain ⟨_, c₁, -, h⟩ := Parser.bind_eq h
  obtain ⟨_, c₂, -, h⟩ := Parser.bind_eq h
  obtain ⟨_, c₃, -, h⟩ := Parser.bind_eq h
  obtain ⟨_, c₄, -, h⟩ := Parser.bind_eq h
  obtain ⟨_, c₅, -, h⟩ := Parser.bind_eq h
  obtain ⟨heq, -⟩ := Parser.pure_eq h
  cases heq

/-- What happens to the string table: a script is compiled, or a name is entered. -/
inductive CompilerEvent
  | script (f : ℕ) (src : List UInt8)
  | name (p : VarName)

/-- One event. After an error there are no more. -/
def compilerStep (conf : ScriptConf) (c : Compiler) : CompilerEvent → Compiler
  | .script f src =>
    match parseScript conf f src c with
    | some (_, c') => c'
    | none => c
  | .name p => (c.addStr p).2

theorem startScript_settled (h : Ready c) : StrSettled (startScript c) := by
  intro l hl hlt
  rw [startScript_strNum] at hlt
  rw [startScript_strData hl hlt]
  unfold StrData.reset
  split
  · exact .inl rfl
  · exact .inr (h.entries l hl hlt)

/-- After a script the tables have been read. -/
theorem script_first (h : RunReady c) (hrun : parseScript conf f src c = some (some code, c')) :
    c'.first = false := by
  obtain ⟨hready, hfirst⟩ := firstScript_ready h conf
  obtain ⟨c₁, hlines, rfl, -⟩ := parseScript_eq hrun
  have hstart : labelStart ≤ (startScript (firstScript conf c)).strNum := by
    rw [startScript_strNum]
    exact hready.start
  have hkeep := keepsTable_lines hlines hstart
  obtain ⟨hfinish, -⟩ := keepsTable_finish (strIndices (c₁.emit [0])) (c₁.emit [0])
  have hfirst' : (startScript (firstScript conf c)).first = (firstScript conf c).first := by
    unfold startScript
    exact resets_first _ _
  rw [hfinish.1, emit_first, hkeep.1, hfirst', hfirst]

/-- **A script leaves the string table ready for the next one.** -/
theorem runReady_script (h : RunReady c) (hrun : parseScript conf f src c = some (some code, c')) :
    RunReady c' := by
  obtain ⟨hready, -⟩ := firstScript_ready h conf
  have hfalse := script_first h hrun
  obtain ⟨c₁, hlines, rfl, -⟩ := parseScript_eq hrun
  have hstart : labelStart ≤ (startScript (firstScript conf c)).strNum := by
    rw [startScript_strNum]
    exact hready.start
  have hnum := (lineStart_lines (B := fun _ => False) hlines hstart).2.1
  have hkeep := keepsTable_lines hlines hstart
  obtain ⟨hfinish, hnum', hclosed⟩ := keepsTable_finish (strIndices (c₁.emit [0])) (c₁.emit [0])
  have hsettled := hfinish.2 ((hkeep.2 (startScript_settled hready)).emit [0])
  refine ⟨⟨?_, fun l hl hlt => ?_⟩, fun h => ?_⟩
  · rw [hnum', emit_strNum]
    omega
  · rw [hnum'] at hlt
    exact (hsettled l hl (hnum' ▸ hlt)).resolve_left
      (hclosed l (.inr (mem_strIndices.mpr ⟨hl, hlt⟩)))
  · rw [hfalse] at h
    cases h

theorem runReady_step (h : RunReady c) (e : CompilerEvent) : RunReady (compilerStep conf c e) := by
  cases e with
  | script f src =>
    unfold compilerStep
    dsimp only
    split
    · rename_i code c' hrun
      rcases code with _ | code
      · rw [parseScript_none hrun]
        obtain ⟨hready, hfirst⟩ := firstScript_ready h conf
        exact ⟨hready, fun h => by
          rw [hfirst] at h
          cases h⟩
      · exact runReady_script h hrun
    · exact h
  | name p =>
    refine ⟨h.ready.addStr p, fun hfirst => (h.first ?_).addStr p⟩
    exact (addStr_first c p).symm.trans hfirst

/-- **Between two scripts the string table is ready**, whatever has been compiled before. -/
theorem runReady_exec (conf : ScriptConf) (es : List CompilerEvent) :
    RunReady (Run.exec (compilerStep conf) {} es) := by
  have hwait : StrWaiting {} := ⟨le_rfl, fun l hl hlt => absurd hl (not_le.mpr hlt)⟩
  have hall : Run.Meets (compilerStep conf) (fun _ _ => True) {} es :=
    Run.meets_of_forall (fun _ _ => trivial) _ _
  exact Run.inv_exec (I := RunReady) (fun c e h _ => runReady_step h e)
    ⟨hwait.ready, fun _ => hwait⟩ hall

end Runs

/-! ## Labels and references -/

/-- The bytes at a place of the code. -/
def CodeAt (code : List UInt8) (s : ℕ) (bs : List UInt8) : Prop := bs <+: code.drop s

instance (code : List UInt8) (s : ℕ) (bs : List UInt8) : Decidable (CodeAt code s bs) :=
  inferInstanceAs (Decidable (bs <+: _))

/-- What the code has to be, by the words `ws` of the script: a reference to a label, which has the
name or the entry of the reference, is `C_POS` with its place; one to another name that is no builtin
function and no constant is `C_NAME` with its entry; and one to the next line is `C_POS` with the
place where that starts. -/
structure LabelsResolved (code : List UInt8) (B : ℕ → Prop) (ws : List Word) : Prop where
  labels : ∀ n l s e, .ref n l s e ∈ ws → ∀ (m : VarName) (l' k p : ℕ), .label m l' k p ∈ ws →
    n = m ∨ l = l' → CodeAt code s (1 :: operand p)
  names : ∀ n l s e, .ref n l s e ∈ ws → (∀ m l' k p, .label m l' k p ∈ ws → ¬ (n = m ∨ l = l')) →
    ¬ B l → CodeAt code s (8 :: operand l)
  next : ∀ ws1 s e ws2, ws = ws1 ++ .next s e :: ws2 →
    ∃ p, firstLine ws2 = some p ∧ CodeAt code s (1 :: operand p)

/-- A label of the entry `l` behind `k` commands. -/
def Word.IsLabelAt (l k : ℕ) : Word → Prop
  | .label _ l' k' _ => l' = l ∧ k' = k
  | _ => False

instance (l k : ℕ) : DecidablePred (Word.IsLabelAt l k)
  | .label _ _ _ _ => inferInstanceAs (Decidable (_ ∧ _))
  | .ref _ _ _ _ | .next _ _ | .line _ | .call => .isFalse id

/-- A label that is spelled like a reference stands where the label of the reference's entry does. -/
def Word.Spelled (ws : List Word) : Word → Word → Prop
  | .ref n l _ _, .label m _ k _ => n = m → ∃ w ∈ ws, w.IsLabelAt l k
  | _, _ => True

instance (ws : List Word) : (w w' : Word) → Decidable (Word.Spelled ws w w')
  | .ref _ _ _ _, .label _ _ _ _ => inferInstanceAs (Decidable (_ → _))
  | .ref _ _ _ _, .ref _ _ _ _ | .ref _ _ _ _, .next _ _ | .ref _ _ _ _, .line _
  | .ref _ _ _ _, .call | .label _ _ _ _, _ | .next _ _, _ | .line _, _ | .call, _ => .isTrue trivial

/-- Only a reference to an entry that is no builtin function and no constant comes before a label of
that entry. -/
def Word.Fresh (B : ℕ → Prop) : Word → Word → Prop
  | .ref _ l _ _, .label _ l' _ _ => l = l' → ¬ B l
  | _, _ => True

instance (B : ℕ → Prop) [DecidablePred B] : (w w' : Word) → Decidable (Word.Fresh B w w')
  | .ref _ _ _ _, .label _ _ _ _ => inferInstanceAs (Decidable (_ → _))
  | .ref _ _ _ _, .ref _ _ _ _ | .ref _ _ _ _, .next _ _ | .ref _ _ _ _, .line _
  | .ref _ _ _ _, .call | .label _ _ _ _, _ | .next _ _, _ | .line _, _ | .call, _ => .isTrue trivial

/-- What the names in a script have to be. -/
def LabelsFit (B : ℕ → Prop) (ws : List Word) : Prop :=
  (∀ w ∈ ws, ∀ w' ∈ ws, w.Spelled ws w') ∧ ws.Pairwise (Word.Fresh B)

instance (B : ℕ → Prop) [DecidablePred B] (ws : List Word) : Decidable (LabelsFit B ws) :=
  inferInstanceAs (Decidable (_ ∧ _))

section Resolved

variable {m : Mem} {n s l : ℕ} {z : ℤ} {B : ℕ → Prop} {c : Compiler}

/-- Four bytes of the code. -/
theorem codeAt_iff (b : UInt8) : CodeAt ((List.range n).map m) s (b :: operand z) ↔
    s + 4 ≤ n ∧ m s = b ∧ (BackPatch.read m (s + 1) : ℤ) = z % 2 ^ 24 := by
  have h0 := byteOf_toNat z 0
  have h1 := byteOf_toNat z 1
  have h2 := byteOf_toNat z 2
  have hget (i : ℕ) (hi : s + i < n) : (((List.range n).map m).drop s)[i]? = some (m (s + i)) := by
    rw [List.getElem?_drop, List.getElem?_map, List.getElem?_range hi]
    rfl
  have hlen : (((List.range n).map m).drop s).length = n - s := by simp
  unfold CodeAt
  rw [List.prefix_iff_getElem?]
  constructor
  · intro h
    have hn : s + 4 ≤ n := by
      have := (List.getElem?_eq_some_iff.mp (h 3 (by simp [operand]))).1
      omega
    have hb := h 0 (by simp [operand])
    have hb0 := h 1 (by simp [operand])
    have hb1 := h 2 (by simp [operand])
    have hb2 := h 3 (by simp [operand])
    rw [hget _ (by omega)] at hb hb0 hb1 hb2
    have e := Option.some.inj hb
    have e0 := Option.some.inj hb0
    have e1 := Option.some.inj hb1
    have e2 := Option.some.inj hb2
    simp only [operand, List.getElem_cons_zero, List.getElem_cons_succ, Nat.add_zero] at e e0 e1 e2
    refine ⟨hn, e, ?_⟩
    unfold BackPatch.read
    rw [show s + 1 + 1 = s + 2 from rfl, show s + 1 + 2 = s + 3 from rfl, e0, e1, e2]
    push_cast
    omega
  · rintro ⟨hn, hb, hread⟩ i hi
    have hi4 : i < 4 := by simpa [operand] using hi
    rw [hget i (by omega)]
    congr 1
    have t1 := (m (s + 1)).toNat_lt
    have t2 := (m (s + 2)).toNat_lt
    have t3 := (m (s + 3)).toNat_lt
    unfold BackPatch.read at hread
    rw [show s + 1 + 1 = s + 2 from rfl, show s + 1 + 2 = s + 3 from rfl] at hread
    push_cast at hread
    obtain rfl | rfl | rfl | rfl : i = 0 ∨ i = 1 ∨ i = 2 ∨ i = 3 := by omega
    · exact hb
    all_goals
      apply UInt8.toNat_inj.mp
      simp only [operand, List.getElem_cons_zero, List.getElem_cons_succ]
      omega

theorem codeAt_pos {p : ℕ} (hp : p < 2 ^ 24) : CodeAt ((List.range n).map m) s (1 :: operand p) ↔
    s + 4 ≤ n ∧ CodedPos m s (s + 4) p := by
  rw [codeAt_iff]
  unfold CodedPos
  constructor
  · rintro ⟨h1, h2, h3⟩
    exact ⟨h1, rfl, h2, by omega⟩
  · rintro ⟨h1, -, h2, h3⟩
    exact ⟨h1, h2, by omega⟩

theorem codeAt_of_coded {e p : ℕ} (h : CodedPos m s e p) (he : e ≤ n) :
    CodeAt ((List.range n).map m) s (1 :: operand p) := by
  obtain ⟨rfl, hcode, hread⟩ := h
  have t1 := (m (s + 1)).toNat_lt
  have t2 := (m (s + 2)).toNat_lt
  have t3 := (m (s + 3)).toNat_lt
  refine (codeAt_pos ?_).mpr ⟨he, rfl, hcode, hread⟩
  rw [← hread]
  unfold BackPatch.read
  rw [show s + 1 + 1 = s + 2 from rfl, show s + 1 + 2 = s + 3 from rfl]
  omega

/-- The label of an entry is the only one. -/
theorem LabelEntry.unique {ws : List Word} {d : StrData} (h : LabelEntry B m ws l d) {n : VarName}
    {k p : ℕ} (hmem : .label n l k p ∈ ws) : ∃ ws1 ws2, ws = ws1 ++ .label n l k p :: ws2 ∧
      .label n l k p ∉ ws1 ∧ .label n l k p ∉ ws2 ∧
      EachRef l ws1 (fun s e => (B l → m s ≠ 1) ∧ (¬ B l → CodedPos m s e p)) ∧
      EachRef l ws2 fun s e => CodedPos m s e p := by
  obtain ⟨n', k', p', ws1, ws2, rfl, -, h1, h2, hrefs1, hrefs2⟩ := h.place
  rcases List.mem_append.mp hmem with hmem | hmem
  · exact absurd hmem (h1 n k p)
  · rcases List.mem_cons.mp hmem with heq | hmem
    · cases heq
      exact ⟨ws1, ws2, rfl, h1 n k p, h2 n k p, hrefs1, hrefs2⟩
    · exact absurd hmem (h2 n k p)

/-- What stands before a word that occurs once. -/
theorem mem_of_sublist {ws1 ws2 : List Word} {w w' : Word} (h : [w, w'].Sublist (ws1 ++ w' :: ws2))
    (hne : w ≠ w') (h1 : w' ∉ ws1) (h2 : w' ∉ ws2) : w ∈ ws1 := by
  obtain ⟨a, b, hab, ha, hb⟩ := List.sublist_append_iff.mp h
  rcases a with _ | ⟨x, a⟩
  · rw [List.nil_append] at hab
    subst hab
    cases hb with
    | cons _ hb => exact absurd (hb.subset (by simp)) h2
    | cons_cons _ _ => exact absurd rfl hne
  · rw [List.cons_append] at hab
    obtain ⟨rfl, -⟩ := List.cons.inj hab
    exact ha.subset (by simp)

/-- **The references of a script that is compiled**: what each entry says of the code. -/
theorem Finished.resolved_iff (h : Finished B c) (hsize : c.scriptPos < 2 ^ 24) :
    LabelsResolved ((List.range c.scriptPos).map c.scriptBuf) B c.words ↔
      LabelsFit B c.words := by
  have hplace {n : VarName} {l k p : ℕ} (hmem : .label n l k p ∈ c.words) : p < 2 ^ 24 :=
    (h.labels.places n l k p hmem).trans_lt hsize
  have hentry {w : Word} {l : ℕ} (hw : w ∈ c.words) (hl : w.entry = some l) :=
    h.labels.entries l (h.labels.range w hw l hl).1 (h.labels.range w hw l hl).2
  have hclosed {w : Word} {l : ℕ} (hw : w ∈ c.words) (hl : w.entry = some l) :=
    h.closed l (h.labels.range w hw l hl).1 (h.labels.range w hw l hl).2
  -- The entry of a label is in the state of a label.
  have hlabel {n : VarName} {l k p : ℕ} (hmem : .label n l k p ∈ c.words) :
      LabelEntry B c.scriptBuf c.words l (c.strData l) := by
    rcases hentry hmem rfl with hentry | hentry | hentry | hentry
    · exact absurd hmem (hentry.none n k p)
    · exact hentry
    · exact absurd hmem (hentry.none n k p)
    · exact absurd hmem (hentry.none n k p)
  constructor
  · intro hres
    refine ⟨fun w hw w' hw' => ?_, ?_⟩
    · cases w with
      | ref n l s e =>
        cases w' with
        | label m l' k p =>
          rintro rfl
          have hcode := hres.labels n l s e hw n l' k p hw' (.inl rfl)
          rw [codeAt_pos (hplace hw')] at hcode
          obtain ⟨-, -, hcode, hread⟩ := hcode
          rcases hentry hw rfl with hentry | hentry | hentry | hentry
          · exact absurd hentry.type (hclosed hw rfl)
          · obtain ⟨m, k', p', ws1, ws2, hws, -⟩ := hentry.place
            have hmem : .label m l k' p' ∈ c.words := by
              rw [hws]
              simp
            obtain ⟨ws1, ws2, hws, -, -, hrefs1, hrefs2⟩ := hentry.unique hmem
            have hp : p = p' := by
              rw [hws] at hw
              rcases List.mem_append.mp hw with hw | hw
              · by_cases hb : B l
                · exact absurd hcode ((hrefs1 n s e hw).1 hb)
                · exact hread.symm.trans ((hrefs1 n s e hw).2 hb).2.2
              · rcases List.mem_cons.mp hw with heq | hw
                · cases heq
                · exact hread.symm.trans (hrefs2 n s e hw).2.2
            exact ⟨_, hmem, rfl, (h.same m l k' p' n l' k p hmem hw').mpr hp.symm⟩
          · exact absurd hcode (hentry.refs n s e hw)
          · rw [(hentry.refs n s e hw).2.1] at hcode
            cases hcode
        | _ => trivial
      | _ => trivial
    · rw [List.pairwise_iff_forall_sublist]
      intro w w' hsub
      cases w with
      | ref n l s e =>
        cases w' with
        | label m l' k p =>
          rintro rfl hb
          have hw : .ref n l s e ∈ c.words := hsub.subset (by simp)
          have hw' : .label m l k p ∈ c.words := hsub.subset (by simp)
          have hcode := hres.labels n l s e hw m l k p hw' (.inr rfl)
          obtain ⟨-, -, hcode, -⟩ := (codeAt_pos (hplace hw')).mp hcode
          obtain ⟨ws1, ws2, hws, h1, h2, hrefs1, -⟩ := (hlabel hw').unique hw'
          rw [hws] at hsub
          exact (hrefs1 n s e (mem_of_sublist hsub (by rintro ⟨⟩) h1 h2)).1 hb hcode
        | _ => trivial
      | _ => trivial
  · rintro ⟨hspelled, hfresh⟩
    have hfin {n : VarName} {l s e : ℕ} (hw : .ref n l s e ∈ c.words) : e ≤ c.scriptPos :=
      (h.labels.lt_of_ref hw).2
    refine ⟨fun n l s e hw m l' k p hw' hsame => ?_, fun n l s e hw hnone hb => ?_,
      fun ws1 s e ws2 hws => ?_⟩
    · -- The entry of the reference has a label at the place.
      obtain ⟨m', hmem⟩ : ∃ m', .label m' l k p ∈ c.words := by
        rcases hsame with rfl | rfl
        · obtain ⟨w, hw₁, hat⟩ := hspelled _ hw _ hw' rfl
          cases w with
          | label m' l₁ k₁ p₁ =>
            obtain ⟨rfl, rfl⟩ := hat
            exact ⟨m', (h.same m' l₁ k₁ p₁ n l' k₁ p hw₁ hw').mp rfl ▸ hw₁⟩
          | _ => exact hat.elim
        · exact ⟨m, hw'⟩
      obtain ⟨ws1, ws2, hws, -, -, hrefs1, hrefs2⟩ := (hlabel hmem).unique hmem
      have hcoded : CodedPos c.scriptBuf s e p := by
        have hw₁ := hw
        rw [hws] at hw₁
        rcases List.mem_append.mp hw₁ with hw₁ | hw₁
        · rw [hws, List.pairwise_append] at hfresh
          have hown : Word.Fresh B (.ref n l s e) (.label m' l k p) :=
            hfresh.2.2 _ hw₁ _ (by simp)
          exact (hrefs1 n s e hw₁).2 (hown rfl)
        · rcases List.mem_cons.mp hw₁ with heq | hw₁
          · cases heq
          · exact hrefs2 n s e hw₁
      exact codeAt_of_coded hcoded (hfin hw)
    · rcases hentry hw rfl with hentry | hentry | hentry | hentry
      · exact absurd hentry.type (hclosed hw rfl)
      · obtain ⟨m, k, p, ws1, ws2, hws, -⟩ := hentry.place
        exact absurd (.inr rfl) (hnone m l k p (by rw [hws]; simp))
      · exact absurd hentry.own hb
      · obtain ⟨rfl, hcode, hread⟩ := hentry.refs n s e hw
        exact (codeAt_iff 8).mpr ⟨hfin hw, hcode, by omega⟩
    · rcases hfirst : firstLine ws2 with _ | p
      · have hopen := mem_nextSites.mpr ⟨ws1, s, e, ws2, hws, hfirst, rfl⟩
        rw [h.next] at hopen
        cases hopen
      · have hmem : .next s e ∈ c.words := by
          rw [hws]
          simp
        exact ⟨p, rfl, codeAt_of_coded (h.labels.next.lines ws1 s e ws2 p hws hfirst)
          (h.labels.inside _ (mem_spans_next hmem)).2⟩

end Resolved

/-- **Every reference gets the place of its label**, in every script that is compiled after any
others, if and only if its names fit. -/
theorem labels_resolved (conf : ScriptConf) (es : List CompilerEvent) (f : ℕ) (src code : List UInt8)
    (c' : Compiler)
    (h : parseScript conf f src (Run.exec (compilerStep conf) {} es) = some (some code, c'))
    (hsize : code.length < 2 ^ 24) :
    LabelsResolved code (BuildinEntry (firstScript conf (Run.exec (compilerStep conf) {} es)))
        c'.words ↔
      LabelsFit (BuildinEntry (firstScript conf (Run.exec (compilerStep conf) {} es))) c'.words := by
  obtain ⟨hready, -⟩ := firstScript_ready (runReady_exec conf es) conf
  obtain ⟨c₁, hlines, rfl, rfl⟩ := parseScript_eq h
  rw [List.length_map, List.length_range] at hsize
  have hpos : ((strIndices (c₁.emit [0])).foldl finishStr (c₁.emit [0])).scriptPos =
      c₁.scriptPos + 1 := by
    have hpos (is : List ℕ) (c : Compiler) : (is.foldl finishStr c).scriptPos = c.scriptPos := by
      induction is generalizing c with
      | nil => rfl
      | cons i is ih => exact (ih _).trans (finishStr_frame c i).2.2.1
    exact hpos _ _
  have hstart : labelStart ≤
      (startScript (firstScript conf (Run.exec (compilerStep conf) {} es))).strNum := by
    rw [startScript_strNum]
    exact hready.start
  have hline := (lineStart_lines hlines hstart).2.2 (lineStart_start hready) (by omega)
  exact (finished_of_lineStart hline).resolved_iff hsize

/-! ## Two scripts -/

/-- The code of a script that is the first one, and its words. -/
def compiled (conf : ScriptConf) (f : ℕ) (src : List UInt8) : Option (List UInt8 × List Word) :=
  (parseScript conf f src {}).bind fun (code, c) => code.map fun code => (code, c.words)

theorem compiled_eq {conf : ScriptConf} {f : ℕ} {src code : List UInt8} {ws : List Word}
    (h : compiled conf f src = some (code, ws)) :
    ∃ c', parseScript conf f src {} = some (some code, c') ∧ c'.words = ws := by
  obtain ⟨⟨code', c'⟩, hparse, hcode⟩ := Option.bind_eq_some_iff.mp h
  obtain ⟨code, rfl, heq⟩ := Option.map_eq_some_iff.mp hcode
  obtain ⟨rfl, rfl⟩ := Prod.mk.inj heq
  exact ⟨c', hparse, rfl⟩

/-- `goto` and `end`. -/
def gotoConf : ScriptConf where
  buildinFunc := [(getelementofarray, [105, 105]), ([103, 111, 116, 111], [115]), ([101, 110, 100], [])]
  constTxt := []
  array := List.mem_cons_self

/-- `{goto L_A;end;L_A:end;}` -/
def forwardScript : List UInt8 :=
  [123, 103, 111, 116, 111, 32, 76, 95, 65, 59, 101, 110, 100, 59, 76, 95, 65, 58, 101, 110, 100, 59,
    125]

/-- The reference before the label gets its place. -/
theorem labels_resolved_forward : ∃ code c', parseScript gotoConf 9 forwardScript
    (Run.exec (compilerStep gotoConf) {} []) = some (some code, c') ∧
      LabelsResolved code
        (BuildinEntry (firstScript gotoConf (Run.exec (compilerStep gotoConf) {} []))) c'.words := by
  have hcompiled : compiled gotoConf 9 forwardScript = some
      ([8, 3, 0, 0, 7, 1, 18, 0, 0, 4, 9, 8, 4, 0, 0, 7, 4, 9, 8, 4, 0, 0, 7, 4, 9, 0],
      [.ref [103, 111, 116, 111] 3 0 4, .ref [76, 95, 65] 5 5 9, .line 11,
        .ref [101, 110, 100] 4 11 15, .line 18, .label [76, 95, 65] 5 2 18,
        .ref [101, 110, 100] 4 18 22, .line 25]) := by decide +kernel
  obtain ⟨c', hparse, hwords⟩ := compiled_eq hcompiled
  have hfit : LabelsFit (BuildinEntry (firstScript gotoConf {})) c'.words := by
    rw [hwords]
    decide +kernel
  exact ⟨_, c', hparse,
    (labels_resolved gotoConf [] 9 forwardScript _ c' hparse (by decide)).mpr hfit⟩

/-- `{goto L_A;goto l_a;L_A:end;}` -/
def spellingScript : List UInt8 :=
  [123, 103, 111, 116, 111, 32, 76, 95, 65, 59, 103, 111, 116, 111, 32, 108, 95, 97, 59, 76, 95, 65,
    58, 101, 110, 100, 59, 125]

/-- The label `L_A` gets the entry of `l_a`, and the reference to `L_A` stays a name. -/
theorem labels_unresolved : ¬ ∀ (conf : ScriptConf) (f : ℕ) (src code : List UInt8) (c' : Compiler),
    parseScript conf f src {} = some (some code, c') → code.length < 2 ^ 24 →
      LabelsResolved code (BuildinEntry (firstScript conf {})) c'.words := by
  intro h
  have hcompiled : compiled gotoConf 9 spellingScript = some
      ([8, 3, 0, 0, 7, 8, 5, 0, 0, 4, 9, 8, 3, 0, 0, 7, 1, 22, 0, 0, 4, 9, 8, 4, 0, 0, 7, 4, 9, 0],
      [.ref [103, 111, 116, 111] 3 0 4, .ref [76, 95, 65] 5 5 9, .line 11,
        .ref [103, 111, 116, 111] 3 11 15, .ref [108, 95, 97] 6 16 20, .line 22,
        .label [76, 95, 65] 6 2 22, .ref [101, 110, 100] 4 22 26, .line 29]) := by decide +kernel
  obtain ⟨c', hparse, hwords⟩ := compiled_eq hcompiled
  have hres := h _ _ _ _ c' hparse (by decide)
  rw [hwords] at hres
  have hcode := hres.labels [76, 95, 65] 5 5 9 (by decide) [76, 95, 65] 6 2 22 (by decide) (.inl rfl)
  revert hcode
  decide

end Nezumi
