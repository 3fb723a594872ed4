import Nezumi.Script.ParseLemmas

/-!
# Labels of a script (`map/script.c`)

While a script is compiled, each entry of the string table is in one of four states.

* `OpenEntry`: the name has no label yet; its references are a chain.
* `LabelEntry`: the label has been found; its references have its place.
* `FixedEntry`: a builtin function or a constant, whose references do not wait for a label.
* `NamedEntry`: there is no label; the references have the number of the entry.

`LabelInv` says so of all entries, and that the chain of the next line is whole. Every operation of an
expression keeps it (`labelInv_primitive`).
-/

namespace Nezumi

open Decimal BackPatch

/-! ## Words -/

section Words

variable {ws ws' : List Word} {w : Word} {l : ℕ}

/-- The entry that a word is about. -/
def Word.entry : Word → Option ℕ
  | .ref _ l _ _ | .label _ l _ _ => some l
  | _ => none

/-- Where the code of a reference starts and ends. -/
def Word.span : Word → Option (ℕ × ℕ)
  | .ref _ _ s e | .next s e => some (s, e)
  | _ => none

def spans (ws : List Word) : List (ℕ × ℕ) := ws.filterMap Word.span

/-- The operands of the references to an entry, the newest first. -/
def refSites (l : ℕ) (ws : List Word) : List ℕ :=
  ws.foldl (fun sites w => match w with
    | .ref _ l' s _ => if l' = l then (s + 1) :: sites else sites
    | _ => sites) []

/-- The operands of the references to the next line in the line that is read, the newest first. -/
def nextSites (ws : List Word) : List ℕ :=
  ws.foldl (fun sites w => match w with
    | .next s _ => (s + 1) :: sites
    | .line _ => []
    | _ => sites) []

theorem refSites_append (l : ℕ) (ws : List Word) (w : Word) :
    refSites l (ws ++ [w]) = match w with
      | .ref _ l' s _ => if l' = l then (s + 1) :: refSites l ws else refSites l ws
      | _ => refSites l ws := by
  unfold refSites
  rw [List.foldl_append]
  rfl

theorem nextSites_append (ws : List Word) (w : Word) :
    nextSites (ws ++ [w]) = match w with
      | .next s _ => (s + 1) :: nextSites ws
      | .line _ => []
      | _ => nextSites ws := by
  unfold nextSites
  rw [List.foldl_append]
  rfl

theorem mem_refSites {t : ℕ} :
    t ∈ refSites l ws ↔ ∃ n s e, .ref n l s e ∈ ws ∧ t = s + 1 := by
  induction ws using List.reverseRecOn with
  | nil => simp [refSites]
  | append_singleton ws w ih =>
    rw [refSites_append]
    cases w with
    | ref n l' s e =>
      dsimp only
      split
      · rename_i heq
        subst heq
        rw [List.mem_cons, ih]
        constructor
        · rintro (rfl | ⟨n', s', e', hmem, rfl⟩)
          · exact ⟨n, s, e, by simp, rfl⟩
          · exact ⟨n', s', e', by simp [hmem], rfl⟩
        · rintro ⟨n', s', e', hmem, rfl⟩
          rcases List.mem_append.mp hmem with hmem | hmem
          · exact .inr ⟨n', s', e', hmem, rfl⟩
          · cases List.mem_singleton.mp hmem
            exact .inl rfl
      · rename_i hne
        rw [ih]
        constructor
        · rintro ⟨n', s', e', hmem, rfl⟩
          exact ⟨n', s', e', by simp [hmem], rfl⟩
        · rintro ⟨n', s', e', hmem, rfl⟩
          rcases List.mem_append.mp hmem with hmem | hmem
          · exact ⟨n', s', e', hmem, rfl⟩
          · cases List.mem_singleton.mp hmem
            exact absurd rfl hne
    | _ => simp [ih]

/-- Where the next line starts. -/
def firstLine (ws : List Word) : Option ℕ :=
  ws.findSome? fun w => match w with
    | .line p => some p
    | _ => none

/-- The parts before and behind a word, when one more is read. -/
theorem append_eq_split {ws1 ws2 : List Word} {w w' : Word} (h : ws ++ [w] = ws1 ++ w' :: ws2) :
    (ws2 = [] ∧ w' = w ∧ ws1 = ws) ∨ ∃ ws3, ws2 = ws3 ++ [w] ∧ ws = ws1 ++ w' :: ws3 := by
  rcases List.eq_nil_or_concat ws2 with rfl | ⟨ws3, w'', rfl⟩
  · obtain ⟨rfl, hw⟩ := List.append_inj' h rfl
    exact .inl ⟨rfl, (List.cons.inj hw).1.symm, rfl⟩
  · rw [List.concat_eq_append, ← List.cons_append, ← List.append_assoc] at h
    obtain ⟨rfl, hw⟩ := List.append_inj' h rfl
    rw [List.concat_eq_append, (List.cons.inj hw).1]
    exact .inr ⟨ws3, rfl, rfl⟩

theorem firstLine_append (ws : List Word) (w : Word) :
    firstLine (ws ++ [w]) = (firstLine ws).or (firstLine [w]) := List.findSome?_append

/-- A reference waits for the next line until one starts. -/
theorem mem_nextSites {t : ℕ} : t ∈ nextSites ws ↔
    ∃ ws1 s e ws2, ws = ws1 ++ .next s e :: ws2 ∧ firstLine ws2 = none ∧ t = s + 1 := by
  induction ws using List.reverseRecOn with
  | nil => simp [nextSites]
  | append_singleton ws w ih =>
    rw [nextSites_append]
    have hkeep (hw : firstLine [w] = none) (h : t ∈ nextSites ws) : ∃ ws1 s e ws2,
        ws ++ [w] = ws1 ++ .next s e :: ws2 ∧ firstLine ws2 = none ∧ t = s + 1 := by
      obtain ⟨ws1, s, e, ws2, rfl, hnone, ht⟩ := ih.mp h
      exact ⟨ws1, s, e, ws2 ++ [w], by simp, by rw [firstLine_append, hnone, hw]; rfl, ht⟩
    have hback {ws1 ws2 : List Word} {s e : ℕ} (h : ws = ws1 ++ .next s e :: ws2)
        (hnone : firstLine (ws2 ++ [w]) = none) (ht : t = s + 1) : t ∈ nextSites ws := by
      rw [firstLine_append, Option.or_eq_none_iff] at hnone
      exact ih.mpr ⟨ws1, s, e, ws2, h, hnone.1, ht⟩
    constructor
    · intro h
      cases w with
      | next s e =>
        rcases List.mem_cons.mp h with rfl | h
        · exact ⟨ws, s, e, [], rfl, rfl, rfl⟩
        · exact hkeep rfl h
      | line p => cases h
      | _ => exact hkeep rfl h
    · rintro ⟨ws1, s, e, ws2, heq, hnone, ht⟩
      rcases append_eq_split heq with ⟨-, rfl, rfl⟩ | ⟨ws3, rfl, hws⟩
      · rw [ht]
        exact List.mem_cons_self
      · have hold := hback hws hnone ht
        cases w with
        | line p =>
          rw [firstLine_append] at hnone
          cases h : firstLine ws3 <;> rw [h] at hnone <;> cases hnone
        | next s' e' => exact List.mem_cons_of_mem _ hold
        | _ => exact hold

theorem mem_spans_ref {n : VarName} {s e : ℕ} (h : .ref n l s e ∈ ws) : (s, e) ∈ spans ws :=
  List.mem_filterMap.mpr ⟨_, h, rfl⟩

theorem mem_spans_next {s e : ℕ} (h : .next s e ∈ ws) : (s, e) ∈ spans ws :=
  List.mem_filterMap.mpr ⟨_, h, rfl⟩

theorem spans_append : spans (ws ++ ws') = spans ws ++ spans ws' := List.filterMap_append

end Words

/-! ## Entries -/

section Entries

variable {m m' : Mem} {ws ws' : List Word} {l : ℕ} {d : StrData} {B : ℕ → Prop}

/-- The code at `s` is `C_POS` with the place `p`. -/
def CodedPos (m : Mem) (s e p : ℕ) : Prop := e = s + 4 ∧ m s = 1 ∧ BackPatch.read m (s + 1) = p

/-- The code at `s` is `C_NAME` with three bytes of the entry `l`. -/
def CodedName (m : Mem) (s e l : ℕ) : Prop :=
  e = s + 4 ∧ m s = 8 ∧ BackPatch.read m (s + 1) = l % 2 ^ 24

def NoLabel (l : ℕ) (ws : List Word) : Prop := ∀ n k p, .label n l k p ∉ ws

/-- Every reference to the entry is as `P` says. -/
def EachRef (l : ℕ) (ws : List Word) (P : ℕ → ℕ → Prop) : Prop :=
  ∀ n s e, .ref n l s e ∈ ws → P s e

structure OpenEntry (B : ℕ → Prop) (m : Mem) (ws : List Word) (l : ℕ) (d : StrData) : Prop where
  type : d.type = .nop
  own : ¬ B l
  label : d.label = -1
  none : NoLabel l ws
  chain : Threaded m d.backpatch (refSites l ws)
  refs : EachRef l ws fun s e => e = s + 4 ∧ m s = 8

structure LabelEntry (B : ℕ → Prop) (m : Mem) (ws : List Word) (l : ℕ) (d : StrData) : Prop where
  type : d.type = .pos
  place : ∃ (n : VarName) (k p : ℕ) (ws1 ws2 : List Word), ws = ws1 ++ .label n l k p :: ws2 ∧
    d.label = p ∧ NoLabel l ws1 ∧ NoLabel l ws2 ∧
    EachRef l ws1 (fun s e => (B l → m s ≠ 1) ∧ (¬ B l → CodedPos m s e p)) ∧
    EachRef l ws2 fun s e => CodedPos m s e p

structure FixedEntry (B : ℕ → Prop) (m : Mem) (ws : List Word) (l : ℕ) (d : StrData) : Prop where
  type : d.type ≠ .nop ∧ d.type ≠ .pos ∧ d.type ≠ .name
  own : B l
  label : d.label = -1
  backpatch : d.backpatch = -1
  none : NoLabel l ws
  refs : EachRef l ws fun s _ => m s ≠ 1

structure NamedEntry (B : ℕ → Prop) (m : Mem) (ws : List Word) (l : ℕ) (d : StrData) : Prop where
  type : d.type = .name
  own : ¬ B l
  label : d.label ≠ -1
  none : NoLabel l ws
  refs : EachRef l ws fun s e => CodedName m s e l

/-- The states of an entry. -/
def StrEntryOk (B : ℕ → Prop) (m : Mem) (ws : List Word) (l : ℕ) (d : StrData) : Prop :=
  OpenEntry B m ws l d ∨ LabelEntry B m ws l d ∨ FixedEntry B m ws l d ∨ NamedEntry B m ws l d

/-- The code of the references to an entry is the same. -/
def SameRefs (l : ℕ) (ws : List Word) (m m' : Mem) : Prop :=
  ∀ n s e, .ref n l s e ∈ ws → ∀ t, s ≤ t → t < e → m' t = m t

theorem CodedPos.congr {s e p : ℕ} (h : CodedPos m s e p)
    (hm : ∀ t, s ≤ t → t < e → m' t = m t) : CodedPos m' s e p := by
  obtain ⟨rfl, hcode, hread⟩ := h
  refine ⟨rfl, ?_, ?_⟩
  · rw [hm s (by omega) (by omega), hcode]
  · rw [read_congr fun t _ _ => hm t (by omega) (by omega), hread]

theorem CodedName.congr {s e p : ℕ} (h : CodedName m s e p)
    (hm : ∀ t, s ≤ t → t < e → m' t = m t) : CodedName m' s e p := by
  obtain ⟨rfl, hcode, hread⟩ := h
  refine ⟨rfl, ?_, ?_⟩
  · rw [hm s (by omega) (by omega), hcode]
  · rw [read_congr fun t _ _ => hm t (by omega) (by omega), hread]

/-- **An entry stays what it is**, if the code of its references does. -/
theorem StrEntryOk.congr (h : StrEntryOk B m ws l d) (hm : SameRefs l ws m m')
    (hlt : ∀ n s e, .ref n l s e ∈ ws → s < e) : StrEntryOk B m' ws l d := by
  rcases h with h | h | h | h
  · refine .inl ⟨h.type, h.own, h.label, h.none, ?_, ?_⟩
    · refine h.chain.congr fun t ht => ?_
      obtain ⟨n, s, e, hmem, rfl⟩ := mem_refSites.mp ht
      obtain ⟨rfl, -⟩ := h.refs n s e hmem
      exact read_congr fun t _ _ => hm n s _ hmem t (by omega) (by omega)
    · intro n s e hmem
      obtain ⟨rfl, hcode⟩ := h.refs n s e hmem
      exact ⟨rfl, by rw [hm n s _ hmem s le_rfl (by omega), hcode]⟩
  · obtain ⟨n, k, p, ws1, ws2, rfl, hlabel, h1, h2, hrefs1, hrefs2⟩ := h.place
    refine .inr (.inl ⟨h.type, n, k, p, ws1, ws2, rfl, hlabel, h1, h2, ?_, ?_⟩)
    · intro n' s e hmem
      have hmem' : .ref n' l s e ∈ ws1 ++ .label n l k p :: ws2 := by simp [hmem]
      obtain ⟨hb, hnb⟩ := hrefs1 n' s e hmem
      refine ⟨fun h => ?_, fun h => (hnb h).congr (hm n' s e hmem')⟩
      rw [hm n' s e hmem' s le_rfl (hlt n' s e hmem')]
      exact hb h
    · intro n' s e hmem
      exact (hrefs2 n' s e hmem).congr (hm n' s e (by simp [hmem]))
  · refine .inr (.inr (.inl ⟨h.type, h.own, h.label, h.backpatch, h.none, ?_⟩))
    intro n s e hmem
    rw [hm n s e hmem s le_rfl (hlt n s e hmem)]
    exact h.refs n s e hmem
  · refine .inr (.inr (.inr ⟨h.type, h.own, h.label, h.none, ?_⟩))
    intro n s e hmem
    exact (h.refs n s e hmem).congr (hm n s e hmem)

/-- A word about something else does not matter to an entry. -/
theorem StrEntryOk.append {w : Word} (h : StrEntryOk B m ws l d) (hw : w.entry ≠ some l) :
    StrEntryOk B m (ws ++ [w]) l d := by
  have hnone {ws : List Word} (hn : NoLabel l ws) : NoLabel l (ws ++ [w]) := by
    intro n k p hmem
    rcases List.mem_append.mp hmem with hmem | hmem
    · exact hn n k p hmem
    · rw [← List.mem_singleton.mp hmem] at hw
      exact hw rfl
  have heach {ws : List Word} {P : ℕ → ℕ → Prop} (hp : EachRef l ws P) :
      EachRef l (ws ++ [w]) P := by
    intro n s e hmem
    rcases List.mem_append.mp hmem with hmem | hmem
    · exact hp n s e hmem
    · rw [← List.mem_singleton.mp hmem] at hw
      exact absurd rfl hw
  have hsites : refSites l (ws ++ [w]) = refSites l ws := by
    rw [refSites_append]
    cases w with
    | ref n l' s e =>
      dsimp only
      rw [if_neg]
      rintro rfl
      exact hw rfl
    | _ => rfl
  rcases h with h | h | h | h
  · refine .inl ⟨h.type, h.own, h.label, hnone h.none, ?_, heach h.refs⟩
    rw [hsites]
    exact h.chain
  · obtain ⟨n, k, p, ws1, ws2, rfl, hlabel, h1, h2, hrefs1, hrefs2⟩ := h.place
    exact .inr (.inl ⟨h.type, n, k, p, ws1, ws2 ++ [w], by simp, hlabel, h1, hnone h2, hrefs1,
      heach hrefs2⟩)
  · exact .inr (.inr (.inl ⟨h.type, h.own, h.label, h.backpatch, hnone h.none, heach h.refs⟩))
  · exact .inr (.inr (.inr ⟨h.type, h.own, h.label, hnone h.none, heach h.refs⟩))

end Entries

/-! ## The invariant -/

/-- The references to the next line: the open ones are a chain, the others have its place. -/
structure NextOk (m : Mem) (ws : List Word) (d : StrData) : Prop where
  type : d.type = .nop
  chain : Threaded m d.backpatch (nextSites ws)
  refs : ∀ s e, .next s e ∈ ws → e = s + 4
  lines : ∀ ws1 s e ws2 p, ws = ws1 ++ .next s e :: ws2 → firstLine ws2 = some p →
    CodedPos m s e p

/-- `B` are the builtin functions and constants. -/
structure LabelInv (B : ℕ → Prop) (c : Compiler) : Prop where
  range : ∀ w ∈ c.words, ∀ l, w.entry = some l → labelStart ≤ l ∧ l < c.strNum
  apart : (spans c.words).Pairwise fun a b => a.2 ≤ b.1
  inside : ∀ a ∈ spans c.words, a.1 < a.2 ∧ a.2 ≤ c.scriptPos
  places : ∀ n l k p, .label n l k p ∈ c.words → p ≤ c.scriptPos
  entries : ∀ l, labelStart ≤ l → l < c.strNum → StrEntryOk B c.scriptBuf c.words l (c.strData l)
  fixed : ∀ l, B l → l < c.strNum
  next : NextOk c.scriptBuf c.words (c.strData labelNextline)

section Invariant

variable {B : ℕ → Prop} {c c' : Compiler} {m m' : Mem} {ws : List Word} {l : ℕ} {d : StrData}

theorem NextOk.congr (h : NextOk m ws d)
    (hm : ∀ s e, .next s e ∈ ws → ∀ t, s ≤ t → t < e → m' t = m t) : NextOk m' ws d := by
  refine ⟨h.type, h.chain.congr fun t ht => ?_, h.refs, fun ws1 s e ws2 p hws hp => ?_⟩
  · obtain ⟨ws1, s, e, ws2, rfl, -, rfl⟩ := mem_nextSites.mp ht
    have hmem : Word.next s e ∈ ws1 ++ .next s e :: ws2 := by simp
    obtain rfl := h.refs s e hmem
    exact read_congr fun t _ _ => hm s _ hmem t (by omega) (by omega)
  · exact (h.lines ws1 s e ws2 p hws hp).congr (hm s e (by rw [hws]; simp))

/-- A name or a label is no reference to the next line. -/
theorem NextOk.append {w : Word} (h : NextOk m ws d) (hw : w.entry ≠ none) :
    NextOk m (ws ++ [w]) d := by
  have hsites : nextSites (ws ++ [w]) = nextSites ws := by
    rw [nextSites_append]
    cases w with
    | next s e => exact absurd rfl hw
    | line p => exact absurd rfl hw
    | _ => rfl
  refine ⟨h.type, by rw [hsites]; exact h.chain, fun s e hmem => ?_,
    fun ws1 s e ws2 p hws hp => ?_⟩
  · rcases List.mem_append.mp hmem with hmem | hmem
    · exact h.refs s e hmem
    · rw [← List.mem_singleton.mp hmem] at hw
      exact absurd rfl hw
  · rcases append_eq_split hws with ⟨-, rfl, -⟩ | ⟨ws3, rfl, hws'⟩
    · exact absurd rfl hw
    · refine h.lines ws1 s e ws3 p hws' ?_
      rw [firstLine_append] at hp
      cases w with
      | next s e => exact absurd rfl hw
      | line p => exact absurd rfl hw
      | _ => simpa [firstLine] using hp

theorem LabelInv.lt_of_ref (h : LabelInv B c) {n : VarName} {s e : ℕ}
    (hmem : .ref n l s e ∈ c.words) : s < e ∧ e ≤ c.scriptPos :=
  h.inside _ (mem_spans_ref hmem)

/-- Code behind what is there changes nothing. -/
theorem LabelInv.sameRefs (h : LabelInv B c) (hm : ∀ t < c.scriptPos, m' t = c.scriptBuf t) (l : ℕ) :
    SameRefs l c.words c.scriptBuf m' := by
  intro n s e hmem t _ hlt
  have := (h.lt_of_ref hmem).2
  exact hm t (by omega)

theorem LabelInv.sameNext (h : LabelInv B c) (hm : ∀ t < c.scriptPos, m' t = c.scriptBuf t) :
    NextOk m' c.words (c.strData labelNextline) :=
  h.next.congr fun s e hmem t _ hlt => hm t (by
    have := (h.inside _ (mem_spans_next hmem)).2
    omega)

theorem labelInv_emit (h : LabelInv B c) (bs : List UInt8) : LabelInv B (c.emit bs) := by
  have hm : ∀ t < c.scriptPos, (c.emit bs).scriptBuf t = c.scriptBuf t := fun t ht => emit_of_lt ht
  refine ⟨?_, ?_, ?_, ?_, ?_, ?_, ?_⟩
  · rw [emit_words, emit_strNum]
    exact h.range
  · rw [emit_words]
    exact h.apart
  · rw [emit_words, emit_scriptPos]
    intro a ha
    have := h.inside a ha
    omega
  · rw [emit_words, emit_scriptPos]
    intro n l k p hmem
    have := h.places n l k p hmem
    omega
  · intro l hl hlt
    rw [emit_words, emit_strData]
    rw [emit_strNum] at hlt
    exact (h.entries l hl hlt).congr (h.sameRefs hm l) fun n s e hmem => (h.lt_of_ref hmem).1
  · rw [emit_strNum]
    exact h.fixed
  · rw [emit_words, emit_strData]
    exact h.sameNext hm

theorem labelInv_addStr (h : LabelInv B c) (hc : labelStart ≤ c.strNum) (p : VarName) :
    LabelInv B (c.addStr p).2 := by
  rcases addStr_cases' c p with ⟨heq, -⟩ | heq
  · rw [heq]
    exact h
  rw [heq]
  -- No word is about the new entry.
  have hnew : ∀ w ∈ c.words, w.entry ≠ some c.strNum := fun w hw heq =>
    absurd (h.range w hw _ heq).2 (lt_irrefl _)
  refine ⟨fun w hw l hl => ?_, h.apart, h.inside, h.places, fun l hl hlt => ?_, fun l hl => ?_, ?_⟩
  · have := h.range w hw l hl
    exact ⟨this.1, this.2.trans (Nat.lt_succ_self _)⟩
  · unfold Compiler.newStr
    dsimp only
    rcases Nat.lt_succ_iff_lt_or_eq.mp hlt with hlt | rfl
    · rw [Function.update_of_ne (by omega)]
      exact h.entries l hl hlt
    · rw [Function.update_self]
      refine .inl ⟨rfl, fun hb => absurd (h.fixed _ hb) (lt_irrefl _), rfl,
        fun n k p hmem => hnew _ hmem rfl, ?_, fun n s e hmem => absurd rfl (hnew _ hmem)⟩
      have hnil : refSites c.strNum c.words = [] := List.eq_nil_iff_forall_not_mem.mpr
        fun t ht => by
          obtain ⟨n, s, e, hmem, -⟩ := mem_refSites.mp ht
          exact hnew _ hmem rfl
      rw [hnil]
      exact .inl rfl
  · exact (h.fixed l hl).trans (Nat.lt_succ_self _)
  · unfold Compiler.newStr
    dsimp only
    rw [Function.update_of_ne (by unfold labelNextline labelStart at *; omega)]
    exact h.next

theorem labelInv_enter (h : LabelInv B c) (hc : labelStart ≤ c.strNum) (p : VarName) :
    LabelInv B (c.enter p).2 :=
  have h := labelInv_addStr h hc p
  ⟨h.range, h.apart, h.inside, h.places, h.entries, h.fixed, h.next⟩

/-! ## References -/

/-- The first byte of a reference to a builtin function or a constant. -/
theorem refBytes_head (h : d.type ≠ .nop ∧ d.type ≠ .pos) :
    ∃ b bs, refBytes d l = b :: bs ∧ b ≠ 1 := by
  unfold refBytes
  split
  · rename_i htype
    exact absurd htype h.2
  · rename_i htype
    exact absurd htype h.1
  · obtain ⟨b, bs, heq, hb⟩ := scriptiBytes_head d.val
    refine ⟨b, bs, heq, ?_⟩
    rintro rfl
    exact absurd hb (by decide)
  · exact ⟨8, _, rfl, by decide⟩

theorem emit_head (c : Compiler) (b : UInt8) (bs : List UInt8) :
    (c.emit (b :: bs)).scriptBuf c.scriptPos = b := by
  have h : (c.emit (b :: bs)).scriptBuf (c.scriptPos + 0) = b := emit_at (by simp)
  exact h

/-- **A new reference keeps the state of its entry.** -/
theorem entry_addRef (h : LabelInv B c) (name : VarName) (hl : labelStart ≤ l) (hlt : l < c.strNum)
    (hsize : (c.addRef name l).scriptPos < 2 ^ 24) :
    StrEntryOk B (c.addRef name l).scriptBuf (c.addRef name l).words l
      ((c.addRef name l).strData l) := by
  have hbuf : (c.addRef name l).scriptBuf = (c.emit (refBytes (c.strData l) l)).scriptBuf :=
    ref_scriptBuf
  have hpos : (c.addRef name l).scriptPos = c.scriptPos + (refBytes (c.strData l) l).length :=
    ref_scriptPos
  have hwords : (c.addRef name l).words =
      c.words ++ [Word.ref name l c.scriptPos (c.addRef name l).scriptPos] := rfl
  have hlow : ∀ t < c.scriptPos, (c.addRef name l).scriptBuf t = c.scriptBuf t := fun t ht => by
    rw [hbuf, emit_of_lt ht]
  have hsame := h.sameRefs hlow l
  have hold := (h.entries l hl hlt).congr hsame fun n s e hmem => (h.lt_of_ref hmem).1
  have hnone (hn : NoLabel l c.words) : NoLabel l (c.addRef name l).words := by
    intro n k p hmem
    rw [hwords] at hmem
    rcases List.mem_append.mp hmem with hmem | hmem
    · exact hn n k p hmem
    · cases List.mem_singleton.mp hmem
  have heach {ws : List Word} {P : ℕ → ℕ → Prop} (hp : EachRef l ws P)
      (hnew : P c.scriptPos (c.addRef name l).scriptPos) :
      EachRef l (ws ++ [Word.ref name l c.scriptPos (c.addRef name l).scriptPos]) P := by
    intro n s e hmem
    rcases List.mem_append.mp hmem with hmem | hmem
    · exact hp n s e hmem
    · cases List.mem_singleton.mp hmem
      exact hnew
  rcases hold with hold | hold | hold | hold
  · -- One more in the chain.
    have hbytes : refBytes (c.strData l) l = 8 :: operand (c.strData l).backpatch := by
      unfold refBytes
      rw [hold.type]
    have hdata : (c.addRef name l).strData l =
        { c.strData l with backpatch := c.scriptPos + 1 } := by
      unfold Compiler.addRef Compiler.ref
      dsimp only
      rw [if_pos hold.type]
      simp [Compiler.setStr]
    have hfin : (c.addRef name l).scriptPos = c.scriptPos + 4 := by
      rw [hpos, hbytes]
      rfl
    left
    rw [hdata, hwords]
    refine ⟨hold.type, hold.own, hold.label, hwords ▸ hnone hold.none, ?_, heach hold.refs ?_⟩
    · rw [refSites_append]
      dsimp only
      rw [if_pos rfl]
      have hpush : Threaded (c.addRef name l).scriptBuf ((c.scriptPos + 1 : ℕ) : ℤ)
          ((c.scriptPos + 1) :: refSites l c.words) :=
        hold.chain.push (by rw [hbuf, hbytes, read_operand]) (by unfold chainEnd; omega)
          fun _ _ => rfl
      rwa [Nat.cast_succ] at hpush
    · refine ⟨hfin, ?_⟩
      rw [hbuf, hbytes, emit_head]
  all_goals
    have htype : (c.strData l).type ≠ .nop := by
      first
        | exact hold.type.1
        | (rw [hold.type]; decide)
    have hdata : (c.addRef name l).strData l = c.strData l := by
      unfold Compiler.addRef Compiler.ref
      dsimp only
      rw [if_neg htype, emit_strData]
    rw [hdata, hwords]
    right
  · -- The place is known.
    left
    obtain ⟨n, k, p, ws1, ws2, hws, hlabel, h1, h2, hrefs1, hrefs2⟩ := hold.place
    have hbytes : refBytes (c.strData l) l = 1 :: operand p := by
      unfold refBytes
      rw [hold.type, ← hlabel]
    have hfin : (c.addRef name l).scriptPos = c.scriptPos + 4 := by
      rw [hpos, hbytes]
      rfl
    have hp := h.places n l k p (by rw [hws]; simp)
    have hread := read_operand (c := c) 1 p
    rw [← hbytes, ← hbuf] at hread
    refine ⟨hold.type, n, k, p, ws1, ws2 ++ [_], by rw [hws]; simp, hlabel, h1, ?_, hrefs1,
      heach hrefs2 ⟨hfin, ?_, by omega⟩⟩
    · intro n' k' p' hmem
      rcases List.mem_append.mp hmem with hmem | hmem
      · exact h2 n' k' p' hmem
      · cases List.mem_singleton.mp hmem
    · rw [hbuf, hbytes, emit_head]
  · right
    left
    obtain ⟨b, bs, hbytes, hb⟩ := refBytes_head (d := c.strData l) (l := l)
      ⟨hold.type.1, hold.type.2.1⟩
    refine ⟨hold.type, hold.own, hold.label, hold.backpatch, hwords ▸ hnone hold.none,
      heach hold.refs ?_⟩
    rw [hbuf, hbytes, emit_head]
    exact hb
  · right
    right
    have hbytes : refBytes (c.strData l) l = 8 :: operand l := by
      unfold refBytes
      rw [hold.type]
    have hread := read_operand (c := c) 8 l
    rw [← hbytes, ← hbuf] at hread
    refine ⟨hold.type, hold.own, hold.label, hwords ▸ hnone hold.none,
      heach hold.refs ⟨?_, ?_, by omega⟩⟩
    · rw [hpos, hbytes]
      rfl
    · rw [hbuf, hbytes, emit_head]

/-- A word at the end of the code. -/
theorem spans_append_ok {s e pos : ℕ} {w : Word} (hw : w.span = some (s, e)) (hse : s < e)
    (hpos : e ≤ pos) (hapart : (spans ws).Pairwise fun a b => a.2 ≤ b.1)
    (hinside : ∀ a ∈ spans ws, a.1 < a.2 ∧ a.2 ≤ s) :
    (spans (ws ++ [w])).Pairwise (fun a b => a.2 ≤ b.1) ∧
      ∀ a ∈ spans (ws ++ [w]), a.1 < a.2 ∧ a.2 ≤ pos := by
  have hsingle : spans [w] = [(s, e)] := by simp [spans, hw]
  rw [spans_append, hsingle]
  refine ⟨List.pairwise_append.mpr ⟨hapart, by simp, fun a ha b hb => ?_⟩, fun a ha => ?_⟩
  · rw [List.mem_singleton.mp hb]
    exact (hinside a ha).2
  · rcases List.mem_append.mp ha with ha | ha
    · have := hinside a ha
      omega
    · rw [List.mem_singleton.mp ha]
      exact ⟨hse, hpos⟩

theorem labelInv_addRef (h : LabelInv B c) (name : VarName) (hl : labelStart ≤ l)
    (hlt : l < c.strNum) (hsize : (c.addRef name l).scriptPos < 2 ^ 24) :
    LabelInv B (c.addRef name l) := by
  have hpos : (c.addRef name l).scriptPos = c.scriptPos + (refBytes (c.strData l) l).length :=
    ref_scriptPos
  have hwords : (c.addRef name l).words =
      c.words ++ [Word.ref name l c.scriptPos (c.addRef name l).scriptPos] := rfl
  have hnum : (c.addRef name l).strNum = c.strNum := ref_strNum
  have hlow : ∀ t < c.scriptPos, (c.addRef name l).scriptBuf t = c.scriptBuf t := fun t ht => by
    rw [show (c.addRef name l).scriptBuf = (c.emit (refBytes (c.strData l) l)).scriptBuf from
      ref_scriptBuf, emit_of_lt ht]
  have hdata (l' : ℕ) (hne : l' ≠ l) : (c.addRef name l).strData l' = c.strData l' := by
    unfold Compiler.addRef Compiler.ref
    dsimp only
    split
    · simp [Compiler.setStr, hne]
    · rw [emit_strData]
  have hlen := refBytes_length_pos (c.strData l) l
  have hspans := spans_append_ok (w := .ref name l c.scriptPos (c.addRef name l).scriptPos) rfl
    (by omega) le_rfl h.apart h.inside
  refine ⟨?_, ?_, ?_, ?_, ?_, ?_, ?_⟩
  · rw [hwords, hnum]
    intro w hw l' hl'
    rcases List.mem_append.mp hw with hw | hw
    · exact h.range w hw l' hl'
    · rw [List.mem_singleton.mp hw] at hl'
      obtain rfl := Option.some.inj hl'
      exact ⟨hl, hlt⟩
  · rw [hwords]
    exact hspans.1
  · rw [hwords]
    exact hspans.2
  · rw [hwords, hpos]
    intro n l' k p hmem
    rcases List.mem_append.mp hmem with hmem | hmem
    · have := h.places n l' k p hmem
      omega
    · cases List.mem_singleton.mp hmem
  · intro l' hl' hlt'
    by_cases hne : l' = l
    · subst hne
      exact entry_addRef h name hl hlt hsize
    · rw [hdata l' hne, hwords]
      refine ((h.entries l' hl' (hnum ▸ hlt')).congr (h.sameRefs hlow l')
        fun n s e hmem => (h.lt_of_ref hmem).1).append ?_
      rintro ⟨⟩
      exact hne rfl
  · rw [hnum]
    exact h.fixed
  · rw [hwords, hdata labelNextline (by unfold labelNextline labelStart at *; omega)]
    exact (h.sameNext hlow).append (by rintro ⟨⟩)

/-- **A reference to the next line** becomes the head of the chain of the line. -/
theorem labelInv_addNext (h : LabelInv B c) (hsize : c.addNext.scriptPos < 2 ^ 24) :
    LabelInv B c.addNext := by
  have hbytes : refBytes (c.strData labelNextline) labelNextline =
      8 :: operand (c.strData labelNextline).backpatch := by
    unfold refBytes
    rw [h.next.type]
  have hbuf : c.addNext.scriptBuf =
      (c.emit (refBytes (c.strData labelNextline) labelNextline)).scriptBuf := ref_scriptBuf
  have hpos : c.addNext.scriptPos = c.scriptPos + 4 := by
    refine ref_scriptPos.trans ?_
    rw [hbytes]
    rfl
  have hwords : c.addNext.words = c.words ++ [Word.next c.scriptPos c.addNext.scriptPos] := rfl
  have hnum : c.addNext.strNum = c.strNum := ref_strNum
  have hdata (l : ℕ) (hl : labelStart ≤ l) : c.addNext.strData l = c.strData l := by
    have hne : l ≠ labelNextline := by
      unfold labelNextline labelStart at *
      omega
    unfold Compiler.addNext Compiler.ref
    dsimp only
    rw [if_pos h.next.type]
    simp [Compiler.setStr, hne]
  have hnext : c.addNext.strData labelNextline =
      { c.strData labelNextline with backpatch := c.scriptPos + 1 } := by
    unfold Compiler.addNext Compiler.ref
    dsimp only
    rw [if_pos h.next.type]
    simp [Compiler.setStr]
  have hlow : ∀ t < c.scriptPos, c.addNext.scriptBuf t = c.scriptBuf t := fun t ht => by
    rw [hbuf, emit_of_lt ht]
  have hspans := spans_append_ok (w := .next c.scriptPos c.addNext.scriptPos) rfl
    (by omega) le_rfl h.apart h.inside
  have hold := h.sameNext hlow
  refine ⟨?_, ?_, ?_, ?_, ?_, ?_, ?_⟩
  · rw [hwords, hnum]
    intro w hw l' hl'
    rcases List.mem_append.mp hw with hw | hw
    · exact h.range w hw l' hl'
    · rw [List.mem_singleton.mp hw] at hl'
      cases hl'
  · rw [hwords]
    exact hspans.1
  · rw [hwords]
    exact hspans.2
  · rw [hwords, hpos]
    intro n l' k p hmem
    rcases List.mem_append.mp hmem with hmem | hmem
    · have := h.places n l' k p hmem
      omega
    · cases List.mem_singleton.mp hmem
  · intro l hl hlt
    rw [hdata l hl, hwords]
    exact ((h.entries l hl (hnum ▸ hlt)).congr (h.sameRefs hlow l)
      fun n s e hmem => (h.lt_of_ref hmem).1).append (by rintro ⟨⟩)
  · rw [hnum]
    exact h.fixed
  · rw [hwords, hnext]
    refine ⟨hold.type, ?_, fun s e hmem => ?_, fun ws1 s e ws2 p hws hp => ?_⟩
    · rw [nextSites_append]
      have hpush : Threaded c.addNext.scriptBuf ((c.scriptPos + 1 : ℕ) : ℤ)
          ((c.scriptPos + 1) :: nextSites c.words) :=
        hold.chain.push (by rw [hbuf, hbytes, read_operand]) (by unfold chainEnd; omega)
          fun _ _ => rfl
      rwa [Nat.cast_succ] at hpush
    · rcases List.mem_append.mp hmem with hmem | hmem
      · exact hold.refs s e hmem
      · cases List.mem_singleton.mp hmem
        exact hpos
    · rcases append_eq_split hws with ⟨rfl, -, -⟩ | ⟨ws3, rfl, hws'⟩
      · cases hp
      · refine hold.lines ws1 s e ws3 p hws' ?_
        rw [firstLine_append] at hp
        simpa [firstLine] using hp

/-- The arguments of a function are no name and no reference. -/
theorem labelInv_call (h : LabelInv B c) :
    LabelInv B { c with words := c.words ++ [Word.call] } := by
  have hspans : spans (c.words ++ [Word.call]) = spans c.words := by
    rw [spans_append]
    exact List.append_nil _
  have hsites : nextSites (c.words ++ [Word.call]) = nextSites c.words := nextSites_append _ _
  refine ⟨fun w hw l hl => ?_, ?_, ?_, fun n l k p hmem => ?_, fun l hl hlt => ?_, h.fixed, ?_⟩
  · rcases List.mem_append.mp hw with hw | hw
    · exact h.range w hw l hl
    · rw [List.mem_singleton.mp hw] at hl
      cases hl
  · rw [hspans]
    exact h.apart
  · rw [hspans]
    exact h.inside
  · rcases List.mem_append.mp hmem with hmem | hmem
    · exact h.places n l k p hmem
    · cases List.mem_singleton.mp hmem
  · exact (h.entries l hl hlt).append (by rintro ⟨⟩)
  · refine ⟨h.next.type, ?_, fun s e hmem => ?_, fun ws1 s e ws2 p hws hp => ?_⟩
    · dsimp only
      rw [hsites]
      exact h.next.chain
    · rcases List.mem_append.mp hmem with hmem | hmem
      · exact h.next.refs s e hmem
      · cases List.mem_singleton.mp hmem
    · rcases append_eq_split hws with ⟨-, heq, -⟩ | ⟨ws3, rfl, hws'⟩
      · cases heq
      · refine h.next.lines ws1 s e ws3 p hws' ?_
        rw [firstLine_append] at hp
        simpa [firstLine] using hp

/-- The operations of an expression keep the invariant, as long as the code is not too long. -/
def KeepsLabels (B : ℕ → Prop) (c c' : Compiler) : Prop :=
  c.scriptPos ≤ c'.scriptPos ∧ (LabelInv B c → c'.scriptPos < 2 ^ 24 → LabelInv B c')

theorem KeepsLabels.trans {c c' c'' : Compiler} (h : KeepsLabels B c c')
    (h' : KeepsLabels B c' c'') : KeepsLabels B c c'' :=
  ⟨h.1.trans h'.1, fun hinv hlt => h'.2 (h.2 hinv (h'.1.trans_lt hlt)) hlt⟩

theorem addStr_scriptPos (c : Compiler) (p : VarName) :
    (c.addStr p).2.scriptPos = c.scriptPos := by
  rcases addStr_cases' c p with ⟨h, -⟩ | h <;> rw [h]
  rfl

/-- **Every operation of an expression keeps the invariant.** -/
theorem labelInv_primitive (B : ℕ → Prop) : Primitive (KeepsLabels B) where
  refl c := ⟨le_rfl, fun h _ => h⟩
  trans := KeepsLabels.trans
  emit c bs _ := ⟨by rw [emit_scriptPos]; omega, fun h _ => labelInv_emit h bs⟩
  enter c p hc := ⟨(addStr_scriptPos c p).ge, fun h _ => labelInv_enter h hc p⟩
  cmd c l := ⟨le_rfl, fun h _ => ⟨h.range, h.apart, h.inside, h.places, h.entries, h.fixed, h.next⟩⟩
  addRef c name l hl hlt := ⟨by
    rw [show (c.addRef name l).scriptPos = _ from ref_scriptPos]
    omega, fun h hsize => labelInv_addRef h name hl hlt hsize⟩
  addNext c _ := ⟨by
    rw [show c.addNext.scriptPos = _ from ref_scriptPos]
    omega, fun h hsize => labelInv_addNext h hsize⟩
  call c := ⟨le_rfl, fun h _ => labelInv_call h⟩

end Invariant

end Nezumi
