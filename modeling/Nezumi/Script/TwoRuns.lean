import Nezumi.Script.CompileRun
import Nezumi.Script.MapregRun

/-!
# A script after different histories (`map/script.c`)

Two runs of the compiler over the same text, whose string tables were different before.

* `strNames`, `addStr_strNames`: the string table as a list of names, in which `add_str` enters names.
* `namePairs`: the entries that the names of a text get in two tables.
* `Sim`: two states with the same code; only the numbers of fresh names differ.
* `Parser.Simulates`: what the first run does, the second does; with a lemma for each parser.
-/

namespace Nezumi

open Decimal BackPatch

/-! ## The string table as a list of names -/

section Table

variable {c : Compiler} {p : VarName} {T T' : StrTable}

/-- The names in the string table. -/
def strNames (c : Compiler) : StrTable := (strIndices c).map fun i => (c.strData i).str

theorem find_range' (g : ℕ → VarName) (a : VarName) (s n : ℕ) :
    (List.range' s n).find? (fun i => g i = a) =
      if a ∈ (List.range' s n).map g then some (s + ((List.range' s n).map g).idxOf a) else none := by
  induction n generalizing s with
  | zero => rfl
  | succ n ih =>
    rw [List.range'_succ, List.find?_cons, List.map_cons]
    by_cases h : g s = a
    · subst h
      simp
    · simp only [h, decide_false, List.mem_cons, ih (s + 1)]
      have h' : ¬ a = g s := fun heq => h heq.symm
      rw [List.idxOf_cons_ne _ h]
      simp only [h', false_or]
      split
      · congr 1
        omega
      · rfl

theorem searchStr_eq (c : Compiler) (p : VarName) : searchStr c p =
    if p ∈ strNames c then some (labelStart + (strNames c).idxOf p) else none :=
  find_range' _ _ _ _

theorem length_strNames (h : labelStart ≤ c.strNum) :
    labelStart + (strNames c).length = c.strNum := by
  unfold strNames strIndices
  rw [List.length_map, List.length_range']
  omega

theorem strNames_newStr (h : labelStart ≤ c.strNum) (p : VarName) :
    strNames (c.newStr p) = strNames c ++ [p] := by
  have hold (l : ℕ) (hl : l < c.strNum) : (c.newStr p).strData l = c.strData l :=
    Function.update_of_ne (by omega) _ _
  have hnew : ((c.newStr p).strData c.strNum).str = p := by
    unfold Compiler.newStr
    dsimp only
    rw [Function.update_self]
  unfold strNames strIndices
  rw [show (c.newStr p).strNum - labelStart = c.strNum - labelStart + 1 from by
      change c.strNum + 1 - labelStart = _
      omega,
    List.range'_concat, List.map_append, List.map_singleton,
    show labelStart + 1 * (c.strNum - labelStart) = c.strNum by omega, hnew]
  congr 1
  refine List.map_congr_left fun l hl => ?_
  rw [List.mem_range'_1] at hl
  rw [hold l (by omega)]

/-- **`add_str` enters a name into the list of names.** -/
theorem addStr_strNames (h : labelStart ≤ c.strNum) (p : VarName) :
    (c.addStr p).1 = labelStart + (addStr (strNames c) p).1 ∧
      strNames (c.addStr p).2 = (addStr (strNames c) p).2 := by
  have hlen := length_strNames h
  unfold Compiler.addStr addStr
  rw [searchStr_eq, searchStr_eq]
  by_cases hlow : p.map toLower ∈ strNames c
  · simp only [if_pos hlow]
    exact ⟨trivial, trivial⟩
  · simp only [if_neg hlow]
    by_cases hp : p ∈ strNames c
    · simp only [if_pos hp]
      exact ⟨trivial, trivial⟩
    · simp only [if_neg hp]
      exact ⟨hlen.symm, strNames_newStr h p⟩

/-- The table after some names have been entered. -/
def enterAll (T : StrTable) (ns : List VarName) : StrTable :=
  ns.foldl (fun T n => (addStr T n).2) T

/-- The entries of some names in two tables. -/
def namePairs : StrTable → StrTable → List VarName → List (ℕ × ℕ)
  | _, _, [] => []
  | T, T', n :: ns => (labelStart + (addStr T n).1, labelStart + (addStr T' n).1) ::
    namePairs (addStr T n).2 (addStr T' n).2 ns

theorem namePairs_append (T T' : StrTable) (ns : List VarName) (n : VarName) :
    namePairs T T' (ns ++ [n]) = namePairs T T' ns ++
      [(labelStart + (addStr (enterAll T ns) n).1, labelStart + (addStr (enterAll T' ns) n).1)] := by
  induction ns generalizing T T' with
  | nil => rfl
  | cons m ns ih =>
    rw [List.cons_append, namePairs, ih, namePairs, List.cons_append]
    rfl

theorem enterAll_append (T : StrTable) (ns : List VarName) (n : VarName) :
    enterAll T (ns ++ [n]) = (addStr (enterAll T ns) n).2 := by
  unfold enterAll
  rw [List.foldl_append]
  rfl

theorem namePairs_subset {ns ms : List VarName} (h : ns <+: ms) :
    namePairs T T' ns ⊆ namePairs T T' ms := by
  obtain ⟨ks, rfl⟩ := h
  induction ks using List.reverseRecOn with
  | nil => simp
  | append_singleton ks k ih =>
    rw [← List.append_assoc, namePairs_append]
    exact fun a ha => List.mem_append_left _ (ih ha)

theorem prefix_enterAll (T : StrTable) (ns : List VarName) : T <+: enterAll T ns := by
  induction ns using List.reverseRecOn with
  | nil => exact List.prefix_refl _
  | append_singleton ns n ih =>
    rw [enterAll_append]
    exact ih.trans (prefix_addStr _ _)

end Table

/-! ## Two states -/

section Sim

/-- What two runs start with: the names of the builtin functions and constants, which both string
tables begin with, and the last name that the second has read before, with its type. -/
structure TwoRuns where
  base : StrTable
  T : StrTable
  T' : StrTable
  q : ℕ
  t : Code
  before : base <+: T
  before' : base <+: T'
  array : getelementofarray ∈ base

variable {R : TwoRuns} {c c' d d' : Compiler}

/-- The entries below are the same in both runs. -/
def TwoRuns.N (R : TwoRuns) : ℕ := labelStart + R.base.length

theorem TwoRuns.labelStart_le (R : TwoRuns) : labelStart ≤ R.N := Nat.le_add_right _ _

/-- The entries of a name in the two runs. -/
def TwoRuns.Pair (R : TwoRuns) (ns : List VarName) (l l' : ℕ) : Prop :=
  (l, l') ∈ namePairs R.T R.T' ns ∨ (l = l' ∧ labelStart ≤ l ∧ l < R.N)

/-- Names get one entry in one table if and only if they do in the other, and those of builtin
functions and constants are the same. -/
def SameNames (N : ℕ) (ps : List (ℕ × ℕ)) : Prop :=
  ∀ a ∈ ps, (a.1 < N ∨ a.2 < N → a.1 = a.2) ∧ ∀ b ∈ ps, (a.1 = b.1 ↔ a.2 = b.2)

instance (N : ℕ) (ps : List (ℕ × ℕ)) : Decidable (SameNames N ps) :=
  inferInstanceAs (Decidable (∀ a ∈ ps, _ ∧ ∀ b ∈ ps, _))

/-- A name is read before a function is called. -/
def NamedCalls : List Word → Bool
  | [] => true
  | .ref _ _ _ _ :: _ => true
  | .call :: _ => false
  | _ :: ws => NamedCalls ws

/-- The last name that has been read before is a builtin function or a constant, and no label. -/
def TwoRuns.Kept (R : TwoRuns) (ws : List Word) : Prop :=
  labelStart ≤ R.q ∧ R.q < R.N ∧ NoLabel R.q ws

/-- What the names of a text have to be, for two runs. -/
structure TwoRuns.Good (R : TwoRuns) (c : Compiler) : Prop where
  names : SameNames R.N (namePairs R.T R.T' c.names)
  calls : NamedCalls c.words = true ∨ (R.t = .func ∧ R.Kept c.words)

/-- An entry that no name of the text has. -/
structure FreshEntry (d : StrData) : Prop where
  type : d.type = .nop
  backpatch : d.backpatch = -1
  label : d.label = -1

/-- Two entries of a name. -/
structure SameEntry (d d' : StrData) : Prop where
  type : d'.type = d.type
  backpatch : d'.backpatch = d.backpatch
  label : d'.label = d.label

/-- A word in two runs. -/
inductive Word.Same (P : ℕ → ℕ → Prop) : Word → Word → Prop
  | ref {n l l' s e} (h : P l l') : Word.Same P (.ref n l s e) (.ref n l' s e)
  | label {n l l' k p} (h : P l l') : Word.Same P (.label n l k p) (.label n l' k p)
  | next {s e} : Word.Same P (.next s e) (.next s e)
  | line {p} : Word.Same P (.line p) (.line p)
  | call : Word.Same P .call .call

/-- The entries of two states after the names `ns`. -/
structure SimData (R : TwoRuns) (ns : List VarName) (D D' : ℕ → StrData) : Prop where
  next : (D labelNextline).type = .nop ∧ SameEntry (D labelNextline) (D' labelNextline)
  same : ∀ l, labelStart ≤ l → l < R.N → D' l = D l
  pairs : ∀ a ∈ namePairs R.T R.T' ns, SameEntry (D a.1) (D' a.2)
  fresh : ∀ l, R.N ≤ l → (∀ a ∈ namePairs R.T R.T' ns, a.1 ≠ l) → FreshEntry (D l)
  fresh' : ∀ l, R.N ≤ l → (∀ a ∈ namePairs R.T R.T' ns, a.2 ≠ l) → FreshEntry (D' l)
  kind : ∀ l, R.N ≤ l → (D l).type = .nop ∨ (D l).type = .pos

/-- `parse_cmd` is the entry of one name, or what it was before the text. -/
def TwoRuns.Cmd (R : TwoRuns) (ns : List VarName) (ws : List Word) (cmd cmd' : ℕ)
    (D' : ℕ → StrData) : Prop :=
  R.Pair ns cmd cmd' ∨ ((∀ n l s e, .ref n l s e ∉ ws) ∧ cmd' = R.q ∧
    (R.Kept ws → (D' R.q).type = R.t))

/-- Two states with the same code. -/
structure Sim (R : TwoRuns) (c c' : Compiler) : Prop where
  names : c'.names = c.names
  tab : strNames c = enterAll R.T c.names
  tab' : strNames c' = enterAll R.T' c.names
  num : R.N ≤ c.strNum
  num' : R.N ≤ c'.strNum
  pos : c'.scriptPos = c.scriptPos
  buf : c'.scriptBuf = c.scriptBuf
  lines : c'.lines = c.lines
  words : List.Forall₂ (Word.Same (R.Pair c.names)) c.words c'.words
  range : ∀ a ∈ namePairs R.T R.T' c.names,
    labelStart ≤ a.1 ∧ labelStart ≤ a.2 ∧ a.1 < c.strNum ∧ a.2 < c'.strNum
  data : SimData R c.names c.strData c'.strData
  cmd : R.Cmd c.names c.words c.parseCmd c'.parseCmd c'.strData

/-! ## Entries -/

section Data

variable {ns : List VarName} {D D' : ℕ → StrData} {l l' : ℕ}

theorem SameEntry.refl (d : StrData) : SameEntry d d := ⟨rfl, rfl, rfl⟩

theorem FreshEntry.same {d d' : StrData} (h : FreshEntry d) (h' : FreshEntry d') : SameEntry d d' :=
  ⟨h'.type.trans h.type.symm, h'.backpatch.trans h.backpatch.symm, h'.label.trans h.label.symm⟩

theorem TwoRuns.Pair.mono {ns ms : List VarName} (h : R.Pair ns l l') (hns : ns <+: ms) :
    R.Pair ms l l' := h.imp_left fun h => namePairs_subset hns h

/-- The entries of a name are the same ones in both runs. -/
theorem TwoRuns.Pair.iff (h : R.Pair ns l l') (hgood : SameNames R.N (namePairs R.T R.T' ns))
    {a : ℕ × ℕ} (ha : a ∈ namePairs R.T R.T' ns) : a.1 = l ↔ a.2 = l' := by
  rcases h with h | ⟨rfl, -, hlt⟩
  · exact (hgood a ha).2 (l, l') h
  · constructor
    · intro heq
      rw [← (hgood a ha).1 (.inl (by omega)), heq]
    · intro heq
      rw [(hgood a ha).1 (.inr (by omega)), heq]

theorem TwoRuns.Pair.base (h : R.Pair ns l l') (hgood : SameNames R.N (namePairs R.T R.T' ns))
    (hlt : l < R.N ∨ l' < R.N) : l = l' := by
  rcases h with h | ⟨heq, -⟩
  · exact (hgood (l, l') h).1 hlt
  · exact heq

theorem SimData.sameEntry (h : SimData R ns D D') (hpair : R.Pair ns l l') :
    SameEntry (D l) (D' l') := by
  rcases hpair with hpair | ⟨rfl, hl, hlt⟩
  · exact h.pairs (l, l') hpair
  · rw [h.same l hl hlt]
    exact SameEntry.refl _

/-- **The same change of the entries of one name.** -/
theorem SimData.update (h : SimData R ns D D') (hpair : R.Pair ns l l') (hl : labelStart ≤ l)
    (hl' : labelStart ≤ l')
    (hgood : SameNames R.N (namePairs R.T R.T' ns)) {d d' : StrData} (hd : SameEntry d d')
    (heq : l = l' → l < R.N → d' = d) (hkind : d.type = .nop ∨ d.type = .pos) :
    SimData R ns (Function.update D l d) (Function.update D' l' d') := by
  have hnext : labelNextline ≠ l ∧ labelNextline ≠ l' := by
    unfold labelNextline labelStart at *
    omega
  refine ⟨?_, fun x hx hlt => ?_, fun a ha => ?_, fun x hx hfree => ?_, fun x hx hfree => ?_,
    fun x hx => ?_⟩
  · rw [Function.update_of_ne hnext.1, Function.update_of_ne hnext.2]
    exact h.next
  · by_cases hxl : x = l
    · subst hxl
      obtain rfl := hpair.base hgood (.inl hlt)
      rw [Function.update_self, Function.update_self]
      exact heq rfl hlt
    · have hxl' : x ≠ l' := by
        rintro rfl
        exact hxl (hpair.base hgood (.inr hlt)).symm
      rw [Function.update_of_ne hxl, Function.update_of_ne hxl']
      exact h.same x hx hlt
  · by_cases hal : a.1 = l
    · rw [hal, (hpair.iff hgood ha).mp hal, Function.update_self, Function.update_self]
      exact hd
    · rw [Function.update_of_ne hal, Function.update_of_ne fun h => hal ((hpair.iff hgood ha).mpr h)]
      exact h.pairs a ha
  · have hxl : x ≠ l := by
      rintro rfl
      rcases hpair with hpair | ⟨-, -, hlt⟩
      · exact hfree _ hpair rfl
      · omega
    rw [Function.update_of_ne hxl]
    exact h.fresh x hx hfree
  · have hxl : x ≠ l' := by
      rintro rfl
      rcases hpair with hpair | ⟨heq, -, hlt⟩
      · exact hfree _ hpair rfl
      · omega
    rw [Function.update_of_ne hxl]
    exact h.fresh' x hx hfree
  · by_cases hxl : x = l
    · rw [hxl, Function.update_self]
      exact hkind
    · rw [Function.update_of_ne hxl]
      exact h.kind x hx

/-- A reference has the same code in both runs. -/
theorem SimData.refBytes (h : SimData R ns D D') (hpair : R.Pair ns l l') (hl : labelStart ≤ l)
    (hgood : SameNames R.N (namePairs R.T R.T' ns)) :
    refBytes (D' l') l' = refBytes (D l) l := by
  have hsame := h.sameEntry hpair
  by_cases hopen : (D l).type = .nop ∨ (D l).type = .pos
  · unfold Nezumi.refBytes
    rw [hsame.type]
    rcases hopen with hopen | hopen <;> rw [hopen]
    · dsimp only
      rw [hsame.backpatch]
    · dsimp only
      rw [hsame.label]
  · have hlt : l < R.N := by
      by_contra hge
      exact hopen (h.kind l (not_lt.mp hge))
    obtain rfl := hpair.base hgood (.inl hlt)
    rw [h.same l hl hlt]

end Data

/-! ## Operations -/

section Operations

theorem strNames_congr (hnum : d.strNum = c.strNum) (h : ∀ l, (d.strData l).str = (c.strData l).str) :
    strNames d = strNames c := by
  unfold strNames strIndices
  rw [hnum]
  exact List.map_congr_left fun l _ => h l

theorem emit_buf_congr (bs : List UInt8) (hpos : c'.scriptPos = c.scriptPos)
    (hbuf : c'.scriptBuf = c.scriptBuf) : (c'.emit bs).scriptBuf = (c.emit bs).scriptBuf := by
  induction bs generalizing c c' with
  | nil => exact hbuf
  | cons b bs ih =>
    refine ih (by rw [hpos]) ?_
    rw [hbuf, hpos]

theorem emit_names (bs : List UInt8) : (c.emit bs).names = c.names := by
  induction bs generalizing c with
  | nil => rfl
  | cons b bs ih => exact ih

theorem Sim.emit (h : Sim R c c') (bs : List UInt8) : Sim R (c.emit bs) (c'.emit bs) where
  names := by rw [emit_names, emit_names, h.names]
  tab := by
    rw [emit_names, ← h.tab]
    exact strNames_congr emit_strNum fun l => by rw [emit_strData]
  tab' := by
    rw [emit_names, ← h.tab']
    exact strNames_congr emit_strNum fun l => by rw [emit_strData]
  num := by rw [emit_strNum]; exact h.num
  num' := by rw [emit_strNum]; exact h.num'
  pos := by rw [emit_scriptPos, emit_scriptPos, h.pos]
  buf := emit_buf_congr bs h.pos h.buf
  lines := by rw [emit_lines, emit_lines, h.lines]
  words := by rw [emit_words, emit_words, emit_names]; exact h.words
  range := by rw [emit_names, emit_strNum, emit_strNum]; exact h.range
  data := by rw [emit_names, emit_strData, emit_strData]; exact h.data
  cmd := by rw [emit_names, emit_words, emit_parseCmd, emit_parseCmd, emit_strData]; exact h.cmd

/-- What `add_str` does to the entries. -/
theorem addStr_strData (c : Compiler) (p : VarName) (l : ℕ) :
    (c.addStr p).2.strData l = c.strData l ∨
      (l = c.strNum ∧ FreshEntry ((c.addStr p).2.strData l)) := by
  rcases addStr_cases' c p with ⟨h, -⟩ | h <;> rw [h]
  · exact .inl rfl
  · unfold Compiler.newStr
    dsimp only
    rw [Function.update_apply]
    split
    · rename_i heq
      exact .inr ⟨heq, rfl, rfl, rfl⟩
    · exact .inl rfl

theorem addStr_strData_of_lt {p : VarName} {l : ℕ} (hl : l < c.strNum) :
    (c.addStr p).2.strData l = c.strData l :=
  (addStr_strData c p l).resolve_right fun h => by omega

theorem enter_parseCmd (c : Compiler) (p : VarName) : (c.enter p).2.parseCmd = c.parseCmd := by
  change (c.addStr p).2.parseCmd = _
  rcases addStr_cases' c p with ⟨heq, -⟩ | heq <;> rw [heq]
  rfl

theorem FreshEntry.addStr {l : ℕ} (h : FreshEntry (c.strData l)) (p : VarName) :
    FreshEntry ((c.addStr p).2.strData l) := by
  rcases addStr_strData c p l with heq | ⟨-, hfresh⟩
  · rw [heq]
    exact h
  · exact hfresh

/-- The entries that a new name gets. -/
theorem Sim.new_pair (h : Sim R c c') (p : VarName) :
    namePairs R.T R.T' (c.names ++ [p]) =
      namePairs R.T R.T' c.names ++ [((c.enter p).1, (c'.enter p).1)] := by
  have hc : labelStart ≤ c.strNum := R.labelStart_le.trans h.num
  have hc' : labelStart ≤ c'.strNum := R.labelStart_le.trans h.num'
  rw [namePairs_append, ← h.tab, ← h.tab']
  congr 3
  · exact (addStr_strNames hc p).1.symm
  · exact (addStr_strNames hc' p).1.symm

/-- **A name is entered in both runs.** -/
theorem Sim.enter (h : Sim R c c') (p : VarName)
    (hgood : SameNames R.N (namePairs R.T R.T' (c.names ++ [p]))) :
    Sim R (c.enter p).2 (c'.enter p).2 ∧
      R.Pair (c.names ++ [p]) (c.enter p).1 (c'.enter p).1 := by
  have hc : labelStart ≤ c.strNum := R.labelStart_le.trans h.num
  have hc' : labelStart ≤ c'.strNum := R.labelStart_le.trans h.num'
  have hpairs := h.new_pair p
  have hpair : R.Pair (c.names ++ [p]) (c.enter p).1 (c'.enter p).1 := by
    left
    rw [hpairs]
    simp
  have hnum := addStr_strNum c p
  have hnum' := addStr_strNum c' p
  have hprefix : c.names <+: c.names ++ [p] := List.prefix_append _ _
  have hrange : labelStart ≤ (c.enter p).1 ∧ (c.enter p).1 < (c.enter p).2.strNum :=
    addStr_range hc p
  have hrange' : labelStart ≤ (c'.enter p).1 ∧ (c'.enter p).1 < (c'.enter p).2.strNum :=
    addStr_range hc' p
  have hnext : labelNextline < c.strNum ∧ labelNextline < c'.strNum := by
    unfold labelNextline labelStart at *
    omega
  have hdata (l : ℕ) : (c.enter p).2.strData l = (c.addStr p).2.strData l := rfl
  have hdata' (l : ℕ) : (c'.enter p).2.strData l = (c'.addStr p).2.strData l := rfl
  have hold {l : ℕ} (hl : l < c.strNum) : (c.enter p).2.strData l = c.strData l :=
    addStr_strData_of_lt hl
  have hold' {l : ℕ} (hl : l < c'.strNum) : (c'.enter p).2.strData l = c'.strData l :=
    addStr_strData_of_lt hl
  refine ⟨⟨?_, ?_, ?_, h.num.trans hnum, h.num'.trans hnum', ?_, ?_, ?_, ?_, ?_, ?_, ?_⟩,
    hpair⟩
  · change c'.names ++ [p] = c.names ++ [p]
    rw [h.names]
  · change strNames (c.addStr p).2 = enterAll R.T (c.names ++ [p])
    rw [enterAll_append, ← h.tab, (addStr_strNames hc p).2]
  · change strNames (c'.addStr p).2 = enterAll R.T' (c.names ++ [p])
    rw [enterAll_append, ← h.tab', (addStr_strNames hc' p).2]
  · change (c'.addStr p).2.scriptPos = (c.addStr p).2.scriptPos
    rw [addStr_scriptPos, addStr_scriptPos, h.pos]
  · rcases addStr_cases' c p with ⟨heq, -⟩ | heq <;>
      rcases addStr_cases' c' p with ⟨heq', -⟩ | heq' <;>
      simp only [Compiler.enter, heq, heq', Compiler.newStr, h.buf]
  · change (c'.addStr p).2.lines = (c.addStr p).2.lines
    rw [(addStr_words c p).2, (addStr_words c' p).2, h.lines]
  · change List.Forall₂ _ (c.addStr p).2.words (c'.addStr p).2.words
    rw [(addStr_words c p).1, (addStr_words c' p).1]
    refine h.words.imp fun w w' hw => ?_
    cases hw with
    | ref hl => exact .ref (hl.mono hprefix)
    | label hl => exact .label (hl.mono hprefix)
    | next => exact .next
    | line => exact .line
    | call => exact .call
  · change ∀ a ∈ namePairs R.T R.T' (c.names ++ [p]), _
    rw [hpairs]
    intro a ha
    rcases List.mem_append.mp ha with ha | ha
    · obtain ⟨h1, h2, h3, h4⟩ := h.range a ha
      exact ⟨h1, h2, h3.trans_le hnum, h4.trans_le hnum'⟩
    · rw [List.mem_singleton.mp ha]
      exact ⟨hrange.1, hrange'.1, hrange.2, hrange'.2⟩
  · change SimData R (c.names ++ [p]) _ _
    refine ⟨?_, fun l hl hlt => ?_, fun a ha => ?_, fun l hl hfree => ?_, fun l hl hfree => ?_,
      fun l hl => ?_⟩
    · rw [hold hnext.1, hold' hnext.2]
      exact h.data.next
    · rw [hold (hlt.trans_le h.num), hold' (hlt.trans_le h.num')]
      exact h.data.same l hl hlt
    · have hkeep (a : ℕ × ℕ) (ha : a ∈ namePairs R.T R.T' c.names) :
          SameEntry ((c.enter p).2.strData a.1) ((c'.enter p).2.strData a.2) := by
        obtain ⟨-, -, h3, h4⟩ := h.range a ha
        rw [hold h3, hold' h4]
        exact h.data.pairs a ha
      have hmem := ha
      rw [hpairs] at ha
      rcases List.mem_append.mp ha with ha | ha
      · exact hkeep a ha
      · rw [List.mem_singleton.mp ha] at hmem ⊢
        by_cases hlt : (c.enter p).1 < R.N ∨ (c'.enter p).1 < R.N
        · -- A builtin function or a constant.
          have heq := (hgood _ hmem).1 hlt
          have hN := h.num
          have hN' := h.num'
          dsimp only at heq ⊢
          rw [← heq, hold (by omega), hold' (by omega), h.data.same _ hrange.1 (by omega)]
          exact SameEntry.refl _
        · rw [not_or, not_lt, not_lt] at hlt
          by_cases hused : ∃ b ∈ namePairs R.T R.T' c.names, b.1 = (c.enter p).1
          · obtain ⟨b, hb, hb1⟩ := hused
            have hb2 := (hpair.iff hgood (namePairs_subset hprefix hb)).mp hb1
            dsimp only
            rw [← hb1, ← hb2]
            exact hkeep b hb
          · -- A name that is new in both.
            have hfree : ∀ b ∈ namePairs R.T R.T' c.names, b.1 ≠ (c.enter p).1 :=
              fun b hb heq => hused ⟨b, hb, heq⟩
            have hfree' : ∀ b ∈ namePairs R.T R.T' c.names, b.2 ≠ (c'.enter p).1 :=
              fun b hb heq => hfree b hb
                ((hpair.iff hgood (namePairs_subset hprefix hb)).mpr heq)
            exact ((h.data.fresh _ hlt.1 hfree).addStr p).same
              ((h.data.fresh' _ hlt.2 hfree').addStr p)
    · exact (h.data.fresh l hl fun a ha => hfree a (namePairs_subset hprefix ha)).addStr p
    · exact (h.data.fresh' l hl fun a ha => hfree a (namePairs_subset hprefix ha)).addStr p
    · rcases addStr_strData c p l with heq | ⟨-, hfresh⟩
      · rw [hdata, heq]
        exact h.data.kind l hl
      · exact .inl hfresh.type
  · have hwords : (c.enter p).2.words = c.words := (addStr_words c p).1
    rw [enter_parseCmd, enter_parseCmd, hwords]
    refine h.cmd.imp (fun hpair => hpair.mono hprefix) fun ⟨href, hq, ht⟩ => ⟨href, hq, ?_⟩
    intro hkept
    rw [hold' (hkept.2.1.trans_le h.num')]
    exact ht hkept

/-- `parse_cmd` is set to the same name. -/
theorem Sim.setCmd (h : Sim R c c') {l l' : ℕ} (hpair : R.Pair c.names l l') :
    Sim R { c with parseCmd := l } { c' with parseCmd := l' } :=
  ⟨h.names, h.tab, h.tab', h.num, h.num', h.pos, h.buf, h.lines, h.words, h.range, h.data,
    .inl hpair⟩

theorem TwoRuns.Pair.le {ns : List VarName} {l l' : ℕ} (h : Sim R c c') (hns : c.names = ns)
    (hpair : R.Pair ns l l') : labelStart ≤ l ∧ labelStart ≤ l' ∧ l < c.strNum ∧ l' < c'.strNum := by
  subst hns
  rcases hpair with hpair | ⟨rfl, hl, hlt⟩
  · exact h.range _ hpair
  · exact ⟨hl, hl, hlt.trans_le h.num, hlt.trans_le h.num'⟩

theorem ref_strData (c : Compiler) (l : ℕ) : (c.ref l).strData =
    if (c.strData l).type = .nop then
      Function.update c.strData l { c.strData l with backpatch := (c.scriptPos + 1 : ℕ) }
    else c.strData := by
  unfold Compiler.ref
  dsimp only
  split <;> simp [Compiler.setStr]

theorem ref_names (c : Compiler) (l : ℕ) : (c.ref l).names = c.names := by
  unfold Compiler.ref
  dsimp only
  split
  · exact emit_names _
  · exact emit_names _

theorem ref_parseCmd (c : Compiler) (l : ℕ) : (c.ref l).parseCmd = c.parseCmd := by
  unfold Compiler.ref
  dsimp only
  split
  · exact emit_parseCmd
  · exact emit_parseCmd

theorem ref_strNames (c : Compiler) (l : ℕ) : strNames (c.ref l) = strNames c := by
  refine strNames_congr ref_strNum fun l' => ?_
  rw [ref_strData]
  split
  · rw [Function.update_apply]
    split
    · rename_i heq
      rw [heq]
    · rfl
  · rfl

/-- **A reference to the same name.** -/
theorem Sim.addRef (h : Sim R c c') (name : VarName) {l l' : ℕ} (hpair : R.Pair c.names l l')
    (hgood : SameNames R.N (namePairs R.T R.T' c.names))
    (hcmd : R.Pair c.names c.parseCmd c'.parseCmd) :
    Sim R (c.addRef name l) (c'.addRef name l') := by
  obtain ⟨hl, hl', -, -⟩ := hpair.le h rfl
  have hbytes := h.data.refBytes hpair hl hgood
  have hsame := h.data.sameEntry hpair
  have hpos : (c'.ref l').scriptPos = (c.ref l).scriptPos := by
    rw [ref_scriptPos, ref_scriptPos, h.pos, hbytes]
  have hword : (c'.addRef name l').words =
      c'.words ++ [Word.ref name l' c.scriptPos (c.ref l).scriptPos] := by
    rw [← h.pos, ← hpos]
    rfl
  have hdata : SimData R c.names (c.ref l).strData (c'.ref l').strData := by
    rw [ref_strData, ref_strData, hsame.type]
    split
    · rename_i htype
      refine h.data.update hpair hl hl' hgood ⟨hsame.type, ?_, hsame.label⟩ (fun heq hlt => ?_)
        (.inl htype)
      · dsimp only
        rw [h.pos]
      · rw [← heq, h.data.same l hl hlt, h.pos]
    · exact h.data
  have hnames : (c.addRef name l).names = c.names := ref_names c l
  have hnames' : (c'.addRef name l').names = c'.names := ref_names c' l'
  refine ⟨?_, ?_, ?_, ?_, ?_, hpos, ?_, ?_, ?_, ?_, ?_, ?_⟩
  · rw [hnames, hnames', h.names]
  · rw [hnames, ← h.tab]
    exact ref_strNames c l
  · rw [hnames, ← h.tab']
    exact ref_strNames c' l'
  · exact h.num.trans ref_strNum.ge
  · exact h.num'.trans ref_strNum.ge
  · change (c'.ref l').scriptBuf = (c.ref l).scriptBuf
    rw [ref_scriptBuf, ref_scriptBuf, hbytes]
    exact emit_buf_congr _ h.pos h.buf
  · change (c'.ref l').lines = (c.ref l).lines
    rw [ref_lines, ref_lines, h.lines]
  · rw [hword, hnames]
    exact List.rel_append h.words (.cons (.ref hpair) .nil)
  · rw [hnames]
    change ∀ a ∈ _, _ ∧ _ ∧ _ < (c.ref l).strNum ∧ _ < (c'.ref l').strNum
    rw [ref_strNum, ref_strNum]
    exact h.range
  · rw [hnames]
    exact hdata
  · left
    change R.Pair (c.ref l).names (c.ref l).parseCmd (c'.ref l').parseCmd
    rw [ref_names, ref_parseCmd, ref_parseCmd]
    exact hcmd

/-- The same change of the entry of the next line. -/
theorem SimData.updateNext {ns : List VarName} {D D' : ℕ → StrData} (h : SimData R ns D D')
    (hpairs : ∀ a ∈ namePairs R.T R.T' ns, labelStart ≤ a.1 ∧ labelStart ≤ a.2) {d d' : StrData}
    (hd : SameEntry d d') (htype : d.type = .nop) :
    SimData R ns (Function.update D labelNextline d) (Function.update D' labelNextline d') := by
  have hne {l : ℕ} (hl : labelStart ≤ l) : l ≠ labelNextline := by
    unfold labelNextline labelStart at *
    omega
  have hN := R.labelStart_le
  refine ⟨?_, fun l hl hlt => ?_, fun a ha => ?_, fun l hl => ?_, fun l hl => ?_, fun l hl => ?_⟩
  · rw [Function.update_self, Function.update_self]
    exact ⟨htype, hd⟩
  · rw [Function.update_of_ne (hne hl), Function.update_of_ne (hne hl)]
    exact h.same l hl hlt
  · rw [Function.update_of_ne (hne (hpairs a ha).1), Function.update_of_ne (hne (hpairs a ha).2)]
    exact h.pairs a ha
  · rw [Function.update_of_ne (hne (hN.trans hl))]
    exact h.fresh l hl
  · rw [Function.update_of_ne (hne (hN.trans hl))]
    exact h.fresh' l hl
  · rw [Function.update_of_ne (hne (hN.trans hl))]
    exact h.kind l hl

theorem strNames_update {l : ℕ} {e : StrData} (hnum : d.strNum = c.strNum)
    (hdata : d.strData = Function.update c.strData l e) (hstr : e.str = (c.strData l).str) :
    strNames d = strNames c := by
  refine strNames_congr hnum fun l' => ?_
  rw [hdata, Function.update_apply]
  split
  · rename_i heq
    rw [heq, hstr]
  · rfl

/-- What is said of `parse_cmd` stays, when a word is read that is no name, and entries of builtin
functions and constants change only by labels. -/
theorem TwoRuns.Cmd.append {ns ms : List VarName} {ws : List Word} {w : Word} {cmd cmd' : ℕ}
    {D' E' : ℕ → StrData} (h : R.Cmd ns ws cmd cmd' D') (hns : ns <+: ms)
    (hw : ∀ n l s e, w ≠ .ref n l s e)
    (hdata : ∀ l, labelStart ≤ l → l < R.N → (∀ n k p, w ≠ .label n l k p) →
      (E' l).type = (D' l).type) : R.Cmd ms (ws ++ [w]) cmd cmd' E' := by
  refine h.imp (fun h => h.mono hns) fun ⟨href, hq, ht⟩ => ⟨fun n l s e hmem => ?_, hq, ?_⟩
  · rcases List.mem_append.mp hmem with hmem | hmem
    · exact href n l s e hmem
    · exact hw n l s e (List.mem_singleton.mp hmem).symm
  · rintro ⟨hle, hlt, hnone⟩
    rw [hdata _ hle hlt fun n k p heq => hnone n k p (by rw [heq]; simp)]
    exact ht ⟨hle, hlt, fun n k p hmem => hnone n k p (List.mem_append_left _ hmem)⟩

/-- A reference to the next line. -/
theorem Sim.addNext (h : Sim R c c') : Sim R c.addNext c'.addNext := by
  obtain ⟨htype, hsame⟩ := h.data.next
  have htype' : (c'.strData labelNextline).type = .nop := hsame.type.trans htype
  have hdata : (c.ref labelNextline).strData = _ := (ref_strData c labelNextline).trans (if_pos htype)
  have hdata' : (c'.ref labelNextline).strData = _ :=
    (ref_strData c' labelNextline).trans (if_pos htype')
  have hbytes : refBytes (c'.strData labelNextline) labelNextline =
      refBytes (c.strData labelNextline) labelNextline := by
    unfold refBytes
    rw [htype, htype', hsame.backpatch]
  have hpos : (c'.ref labelNextline).scriptPos = (c.ref labelNextline).scriptPos := by
    rw [ref_scriptPos, ref_scriptPos, h.pos, hbytes]
  have hword : c'.addNext.words = c'.words ++ [Word.next c.scriptPos (c.ref labelNextline).scriptPos] := by
    rw [← h.pos, ← hpos]
    rfl
  have hnames : c.addNext.names = c.names := ref_names c _
  have hnames' : c'.addNext.names = c'.names := ref_names c' _
  refine ⟨?_, ?_, ?_, ?_, ?_, hpos, ?_, ?_, ?_, ?_, ?_, ?_⟩
  · rw [hnames, hnames', h.names]
  · rw [hnames, ← h.tab]
    exact ref_strNames c _
  · rw [hnames, ← h.tab']
    exact ref_strNames c' _
  · exact h.num.trans ref_strNum.ge
  · exact h.num'.trans ref_strNum.ge
  · change (c'.ref labelNextline).scriptBuf = (c.ref labelNextline).scriptBuf
    rw [ref_scriptBuf, ref_scriptBuf, hbytes]
    exact emit_buf_congr _ h.pos h.buf
  · change (c'.ref labelNextline).lines = (c.ref labelNextline).lines
    rw [ref_lines, ref_lines, h.lines]
  · rw [hword, hnames]
    exact List.rel_append h.words (.cons .next .nil)
  · rw [hnames]
    change ∀ a ∈ _, _ ∧ _ ∧ _ < (c.ref labelNextline).strNum ∧ _ < (c'.ref labelNextline).strNum
    rw [ref_strNum, ref_strNum]
    exact h.range
  · rw [hnames]
    change SimData R c.names (c.ref labelNextline).strData (c'.ref labelNextline).strData
    rw [hdata, hdata']
    refine h.data.updateNext (fun a ha => ?_) ⟨hsame.type, ?_, hsame.label⟩ htype
    · obtain ⟨h1, h2, -⟩ := h.range a ha
      exact ⟨h1, h2⟩
    · dsimp only
      rw [h.pos]
  · rw [hnames, show c.addNext.parseCmd = c.parseCmd from ref_parseCmd c _,
      show c'.addNext.parseCmd = c'.parseCmd from ref_parseCmd c' _,
      show c'.addNext.strData = _ from hdata']
    refine h.cmd.append (List.prefix_refl _) (by rintro _ _ _ _ ⟨⟩) fun l hl _ _ => ?_
    rw [Function.update_of_ne]
    unfold labelNextline labelStart at *
    omega

/-- A call of a function. -/
theorem Sim.call (h : Sim R c c') :
    Sim R { c with words := c.words ++ [Word.call] } { c' with words := c'.words ++ [Word.call] } where
  names := h.names
  tab := h.tab
  tab' := h.tab'
  num := h.num
  num' := h.num'
  pos := h.pos
  buf := h.buf
  lines := h.lines
  words := List.rel_append h.words (.cons .call .nil)
  range := h.range
  data := h.data
  cmd := h.cmd.append (List.prefix_refl _) (by rintro _ _ _ _ ⟨⟩) fun _ _ _ _ => rfl

/-- **A label of the same name.** -/
theorem Sim.define (h : Sim R c c') (name : VarName) {l l' : ℕ} (hpair : R.Pair c.names l l')
    (hgood : SameNames R.N (namePairs R.T R.T' c.names)) :
    Sim R (c.define name l) (c'.define name l') := by
  obtain ⟨hl, hl', -, -⟩ := hpair.le h rfl
  have hsame := h.data.sameEntry hpair
  have hword : (c'.define name l').words = c'.words ++ [Word.label name l' c.lines c.scriptPos] := by
    rw [← h.pos, ← h.lines]
    rfl
  refine ⟨h.names, ?_, ?_, h.num, h.num', h.pos, ?_, h.lines, ?_, h.range, ?_, ?_⟩
  · change strNames (c.define name l) = enterAll R.T c.names
    rw [← h.tab]
    exact strNames_update rfl rfl rfl
  · change strNames (c'.define name l') = enterAll R.T' c.names
    rw [← h.tab']
    exact strNames_update rfl rfl rfl
  · change patch (some 1) c'.scriptPos (c'.scriptPos + 1) (c'.strData l').backpatch c'.scriptBuf = _
    rw [h.pos, h.buf, hsame.backpatch]
    rfl
  · rw [hword]
    exact List.rel_append h.words (.cons (.label hpair) .nil)
  · refine h.data.update hpair hl hl' hgood ⟨rfl, hsame.backpatch, ?_⟩ (fun heq hlt => ?_)
      (.inr rfl)
    · dsimp only
      rw [h.pos]
    · rw [← heq, h.data.same l hl hlt, h.pos]
  · refine h.cmd.append (w := .label name l c.lines c.scriptPos) (List.prefix_refl _)
      (by rintro _ _ _ _ ⟨⟩) fun x _ hlt hno => ?_
    have hne : x ≠ l' := by
      rintro rfl
      exact hno name c.lines c.scriptPos (by rw [hpair.base hgood (.inr hlt)])
    exact congrArg StrData.type (Function.update_of_ne hne _ _)

/-- **The end of a line.** -/
theorem Sim.endLine (h : Sim R c c') : Sim R c.endLine c'.endLine := by
  obtain ⟨htype, hsame⟩ := h.data.next
  have hnames : c.endLine.names = c.names := emit_names [9]
  have hnames' : c'.endLine.names = c'.names := emit_names [9]
  have hpos : c'.endLine.scriptPos = c.endLine.scriptPos := by
    change c'.scriptPos + 1 = c.scriptPos + 1
    rw [h.pos]
  have hword : c'.endLine.words = c'.words ++ [Word.line (c.scriptPos + 1)] := by
    rw [← h.pos]
    rfl
  refine ⟨?_, ?_, ?_, h.num, h.num', hpos, ?_, ?_, ?_, ?_, ?_, ?_⟩
  · rw [hnames, hnames', h.names]
  · rw [hnames, ← h.tab]
    exact strNames_update rfl rfl rfl
  · rw [hnames, ← h.tab']
    exact strNames_update rfl rfl rfl
  · change patch (some 1) (c'.scriptPos + 1 : ℕ) (c'.scriptPos + 1 + 1) _ (c'.emit [9]).scriptBuf = _
    rw [emit_buf_congr [9] h.pos h.buf, hsame.backpatch, h.pos]
    rfl
  · change c'.lines + 1 = c.lines + 1
    rw [h.lines]
  · rw [hword, hnames]
    exact List.rel_append h.words (.cons .line .nil)
  · rw [hnames]
    exact h.range
  · rw [hnames]
    refine h.data.updateNext (fun a ha => ?_) ⟨rfl, rfl, rfl⟩ rfl
    obtain ⟨h1, h2, -⟩ := h.range a ha
    exact ⟨h1, h2⟩
  · rw [hnames]
    refine h.cmd.append (w := .line (c.scriptPos + 1)) (List.prefix_refl _)
      (by rintro _ _ _ _ ⟨⟩) fun l hl _ _ => ?_
    refine congrArg StrData.type (Function.update_of_ne ?_ _ _)
    unfold labelNextline labelStart at *
    omega

end Operations

end Sim

end Nezumi
