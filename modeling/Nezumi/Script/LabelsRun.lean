import Mathlib.Data.List.Perm.Subperm
import Nezumi.Script.Labels

/-!
# Resolving the labels of a script (`map/script.c`)

* `labelInv_define`, `labelInv_endLine`, `labelInv_finish`: a label, the end of a line and the end of
  the script follow a chain, and keep the invariant.
* `labelInv_lines`: so does the loop of `parse_script`.
* `Ready`: the string table between two scripts.
* `labels_resolved`: when every reference gets the place of its label.
-/

namespace Nezumi

open Decimal BackPatch

/-! ## Following a chain -/

section Chains

variable {B : ℕ → Prop} {c c' : Compiler} {m m' : Mem} {ws : List Word} {l : ℕ} {d : StrData}

/-- The code of two words does not overlap. -/
def Word.Clear (w w' : Word) : Prop :=
  ∀ a, w.span = some a → ∀ b, w'.span = some b → a.2 ≤ b.1 ∨ b.2 ≤ a.1

instance : Std.Symm Word.Clear := ⟨fun _ _ h a ha b hb => (h b hb a ha).symm⟩

/-- The references do not overlap. -/
theorem LabelInv.disjoint (h : LabelInv B c) {w w' : Word} {a b : ℕ × ℕ} (hw : w ∈ c.words)
    (hw' : w' ∈ c.words) (hne : w ≠ w') (ha : w.span = some a) (hb : w'.span = some b) :
    a.2 ≤ b.1 ∨ b.2 ≤ a.1 := by
  have hclear : c.words.Pairwise Word.Clear :=
    (List.pairwise_filterMap.mp h.apart).imp fun hww' a ha b hb => .inl (hww' a ha b hb)
  exact hclear.forall hw hw' hne a ha b hb

/-- Operands with their code bytes in some references that do not overlap are apart. -/
theorem apart_refSites (hapart : (spans ws).Pairwise fun a b => a.2 ≤ b.1)
    (hrefs : EachRef l ws fun s e => e = s + 4) : (refSites l ws).Pairwise Apart := by
  induction ws using List.reverseRecOn with
  | nil => exact List.Pairwise.nil
  | append_singleton ws w ih =>
    rw [spans_append, List.pairwise_append] at hapart
    have hold := ih hapart.1 fun n s e hmem => hrefs n s e (by simp [hmem])
    rw [refSites_append]
    cases w with
    | ref n l' s e =>
      dsimp only
      split
      · refine List.pairwise_cons.mpr ⟨fun t ht => ?_, hold⟩
        obtain ⟨n', s', e', hmem, rfl⟩ := mem_refSites.mp ht
        have hle := hapart.2.2 (s', e') (mem_spans_ref hmem) (s, e) (by simp [spans, Word.span])
        have := hrefs n' s' e' (by simp [hmem])
        unfold Apart
        dsimp only at hle
        omega
      · exact hold
    | _ => exact hold

theorem apart_nextSites (hapart : (spans ws).Pairwise fun a b => a.2 ≤ b.1)
    (hrefs : ∀ s e, .next s e ∈ ws → e = s + 4) : (nextSites ws).Pairwise Apart := by
  induction ws using List.reverseRecOn with
  | nil => exact List.Pairwise.nil
  | append_singleton ws w ih =>
    rw [spans_append, List.pairwise_append] at hapart
    have hold := ih hapart.1 fun s e hmem => hrefs s e (by simp [hmem])
    rw [nextSites_append]
    cases w with
    | next s e =>
      refine List.pairwise_cons.mpr ⟨fun t ht => ?_, hold⟩
      obtain ⟨ws1, s', e', ws2, rfl, -, rfl⟩ := mem_nextSites.mp ht
      have hmem : Word.next s' e' ∈ ws1 ++ .next s' e' :: ws2 := by simp
      have hle := hapart.2.2 (s', e') (mem_spans_next hmem) (s, e) (by simp [spans, Word.span])
      have := hrefs s' e' (by simp)
      unfold Apart
      dsimp only at hle
      omega
    | line p => exact List.Pairwise.nil
    | _ => exact hold

/-- There are no more operands that are apart than bytes. -/
theorem length_le_of_apart {sites : List ℕ} {n : ℕ} (h : sites.Pairwise Apart)
    (hlt : ∀ s ∈ sites, s < n) : sites.length ≤ n := by
  have hnodup : sites.Nodup := h.imp fun hab heq => by
    unfold Apart at hab
    omega
  have hsub : sites ⊆ List.range n := fun s hs => List.mem_range.mpr (hlt s hs)
  simpa using (hnodup.subperm hsub).length_le

/-- A patch along the chain of an entry writes the operands of its references, and nothing else. -/
theorem LabelInv.patch_chain (h : LabelInv B c) (op : Option UInt8) (z : ℤ)
    (hentry : OpenEntry B c.scriptBuf c.words l d) :
    let m := patch op z (c.scriptPos + 1) d.backpatch c.scriptBuf
    (EachRef l c.words fun s _ =>
      (BackPatch.read m (s + 1) : ℤ) = z % 2 ^ 24 ∧ m s = op.getD (c.scriptBuf s)) ∧
    ∀ t, (EachRef l c.words fun s e => t < s ∨ e ≤ t) → m t = c.scriptBuf t := by
  intro m
  have hrefs : EachRef l c.words fun s e => e = s + 4 := fun n s e hmem =>
    (hentry.refs n s e hmem).1
  have hapart := apart_refSites h.apart hrefs
  have hlen : (refSites l c.words).length ≤ c.scriptPos + 1 :=
    length_le_of_apart hapart fun t ht => by
      obtain ⟨n, s, e, hmem, rfl⟩ := mem_refSites.mp ht
      have := h.lt_of_ref hmem
      omega
  obtain ⟨hin, hout⟩ := patch_spec op z hentry.chain hlen hapart fun t ht => by
    obtain ⟨n, s, e, hmem, rfl⟩ := mem_refSites.mp ht
    omega
  refine ⟨fun n s e hmem => ?_, fun t ht => hout t fun t' ht' => ?_⟩
  · have := hin (s + 1) (mem_refSites.mpr ⟨n, s, e, hmem, rfl⟩)
    rwa [Nat.add_sub_cancel] at this
  · obtain ⟨n, s, e, hmem, rfl⟩ := mem_refSites.mp ht'
    have := ht n s e hmem
    obtain rfl := hrefs n s e hmem
    omega

/-- What a patch along the chain of an entry does. -/
theorem LabelInv.patch_refs (h : LabelInv B c) (op : Option UInt8) (z : ℤ)
    (hentry : OpenEntry B c.scriptBuf c.words l d) :
    let m := patch op z (c.scriptPos + 1) d.backpatch c.scriptBuf
    (EachRef l c.words fun s _ =>
      (BackPatch.read m (s + 1) : ℤ) = z % 2 ^ 24 ∧ m s = op.getD (c.scriptBuf s)) ∧
    ∀ w ∈ c.words, w.entry ≠ some l → ∀ s e, w.span = some (s, e) →
      ∀ t, s ≤ t → t < e → m t = c.scriptBuf t := by
  intro m
  obtain ⟨hin, hout⟩ := h.patch_chain op z hentry
  refine ⟨hin, fun w hw hentry' s e hspan t hs ht => hout t fun n s' e' hmem => ?_⟩
  have hne : w ≠ .ref n l s' e' := by
    rintro rfl
    exact hentry' rfl
  have := h.disjoint hw hmem hne hspan rfl
  dsimp only at this
  omega

/-- What a patch along the chain of the next line does. -/
theorem LabelInv.patch_next (h : LabelInv B c) {z : ℤ} :
    let m := patch (some 1) z (c.scriptPos + 1) (c.strData labelNextline).backpatch c.scriptBuf
    (∀ t ∈ nextSites c.words, (BackPatch.read m t : ℤ) = z % 2 ^ 24 ∧ m (t - 1) = 1) ∧
    ∀ w ∈ c.words, (∀ s e, w = .next s e → s + 1 ∉ nextSites c.words) → ∀ s e,
      w.span = some (s, e) → ∀ t, s ≤ t → t < e → m t = c.scriptBuf t := by
  intro m
  have hapart := apart_nextSites h.apart h.next.refs
  have hlen : (nextSites c.words).length ≤ c.scriptPos + 1 :=
    length_le_of_apart hapart fun t ht => by
      obtain ⟨ws1, s, e, ws2, hws, -, rfl⟩ := mem_nextSites.mp ht
      have hspan : (s, e) ∈ spans c.words := mem_spans_next (by rw [hws]; simp)
      have := h.inside _ hspan
      dsimp only at this
      omega
  obtain ⟨hin, hout⟩ := patch_spec (some 1) z h.next.chain hlen hapart fun t ht => by
    obtain ⟨ws1, s, e, ws2, -, -, rfl⟩ := mem_nextSites.mp ht
    omega
  refine ⟨hin, fun w hw hother s e hspan t hs ht => hout t fun t' ht' => ?_⟩
  obtain ⟨ws1, s', e', ws2, hws, -, rfl⟩ := mem_nextSites.mp ht'
  have hmem : .next s' e' ∈ c.words := by
    rw [hws]
    simp
  obtain rfl := h.next.refs s' e' hmem
  have hne : w ≠ .next s' (s' + 4) := fun heq => hother _ _ heq ht'
  have := h.disjoint hw hmem hne hspan rfl
  dsimp only at this
  omega

end Chains

/-! ## Labels -/

section Define

variable {B : ℕ → Prop} {c c' : Compiler} {l : ℕ}

/-- A label for an entry that has none. -/
def Compiler.define (c : Compiler) (name : VarName) (l : ℕ) : Compiler :=
  { c.setStr l fun d => { d with type := .pos, label := c.scriptPos } with
    scriptBuf := patch (some 1) c.scriptPos (c.scriptPos + 1) (c.strData l).backpatch c.scriptBuf
    scriptlabelDb := c.scriptlabelDb ++ [(name, c.scriptPos)]
    words := c.words ++ [Word.label name l c.lines c.scriptPos] }

theorem defineLabel_eq (name : VarName) {a : Unit} (h : defineLabel name c = some (a, c')) :
    ((c.enter name).2.strData (c.enter name).1).label = -1 ∧
      c' = (c.enter name).2.define name (c.enter name).1 := by
  change (if ((c.enter name).2.strData (c.enter name).1).label ≠ -1 then failure
    else _ : Parser Unit) (c.enter name).2 = _ at h
  split at h
  · cases h
  · rename_i hlabel
    obtain ⟨-, rfl⟩ := Prod.mk.inj (Option.some.inj h)
    exact ⟨not_not.mp hlabel, rfl⟩

/-- The references to an entry that gets its label. -/
theorem entry_define (h : LabelInv B c) (name : VarName) (hl : labelStart ≤ l)
    (hlt : l < c.strNum) (hlabel : (c.strData l).label = -1) (hsize : c.scriptPos < 2 ^ 24) :
    LabelEntry B (c.define name l).scriptBuf (c.define name l).words l
      ((c.define name l).strData l) ∧
    ∀ w ∈ c.words, w.entry ≠ some l → ∀ s e, w.span = some (s, e) →
      ∀ t, s ≤ t → t < e → (c.define name l).scriptBuf t = c.scriptBuf t := by
  have hdata : (c.define name l).strData l =
      { c.strData l with type := .pos, label := c.scriptPos } := Function.update_self _ _ _
  rcases h.entries l hl hlt with hentry | hentry | hentry | hentry
  · obtain ⟨hin, hout⟩ := h.patch_refs (some 1) c.scriptPos hentry
    refine ⟨?_, hout⟩
    rw [hdata]
    refine ⟨rfl, name, c.lines, c.scriptPos, c.words, [], rfl, rfl, hentry.none,
      fun _ _ _ hmem => (by cases hmem), fun n s e hmem => ⟨fun hb => absurd hb hentry.own,
      fun _ => ⟨(hentry.refs n s e hmem).1, (hin n s e hmem).2, ?_⟩⟩, fun _ _ _ hmem =>
      (by cases hmem)⟩
    have hread := (hin n s e hmem).1
    dsimp only [Compiler.define]
    omega
  · obtain ⟨n, k, p, ws1, ws2, -, hp, -⟩ := hentry.place
    omega
  · have hbuf : (c.define name l).scriptBuf = c.scriptBuf :=
      patch_of_end (.inl hentry.backpatch) _
    refine ⟨?_, fun _ _ _ _ _ _ t _ _ => by rw [hbuf]⟩
    rw [hdata, hbuf]
    exact ⟨rfl, name, c.lines, c.scriptPos, c.words, [], rfl, rfl, hentry.none,
      fun _ _ _ hmem => (by cases hmem), fun n s e hmem => ⟨fun _ => hentry.refs n s e hmem,
      fun hb => absurd hentry.own hb⟩, fun _ _ _ hmem => (by cases hmem)⟩
  · exact absurd hlabel hentry.label

/-- **A label keeps the invariant.** -/
theorem labelInv_define (h : LabelInv B c) (name : VarName) (hl : labelStart ≤ l)
    (hlt : l < c.strNum) (hlabel : (c.strData l).label = -1) (hsize : c.scriptPos < 2 ^ 24) :
    LabelInv B (c.define name l) := by
  obtain ⟨hentry, hout⟩ := entry_define h name hl hlt hlabel hsize
  have hwords : (c.define name l).words = c.words ++ [Word.label name l c.lines c.scriptPos] := rfl
  have hspans : spans (c.define name l).words = spans c.words := by
    rw [hwords, spans_append]
    exact List.append_nil _
  have hdata (l' : ℕ) (hne : l' ≠ l) : (c.define name l).strData l' = c.strData l' :=
    Function.update_of_ne hne _ _
  refine ⟨?_, ?_, ?_, ?_, ?_, h.fixed, ?_⟩
  · rw [hwords]
    intro w hw l' hl'
    rcases List.mem_append.mp hw with hw | hw
    · exact h.range w hw l' hl'
    · rw [List.mem_singleton.mp hw] at hl'
      obtain rfl := Option.some.inj hl'
      exact ⟨hl, hlt⟩
  · rw [hspans]
    exact h.apart
  · rw [hspans]
    exact h.inside
  · rw [hwords]
    intro n l' k p hmem
    rcases List.mem_append.mp hmem with hmem | hmem
    · exact h.places n l' k p hmem
    · cases List.mem_singleton.mp hmem
      exact le_rfl
  · intro l' hl' hlt'
    by_cases hne : l' = l
    · subst hne
      exact .inr (.inl hentry)
    · rw [hdata l' hne, hwords]
      refine ((h.entries l' hl' hlt').congr (fun n s e hmem => ?_)
        fun n s e hmem => (h.lt_of_ref hmem).1).append ?_
      · refine hout _ hmem ?_ s e rfl
        rintro ⟨⟩
        exact hne rfl
      · rintro ⟨⟩
        exact hne rfl
  · rw [hwords, hdata labelNextline (by unfold labelNextline labelStart at *; omega)]
    refine (h.next.congr fun s e hmem => hout _ hmem (by rintro ⟨⟩) s e rfl).append ?_
    rintro ⟨⟩

/-! ## The end of a line -/

/-- `C_EOL`, and the next line starts behind it. -/
def Compiler.endLine (c : Compiler) : Compiler :=
  { c.emit [9] with
    strData := Function.update c.strData labelNextline
      { c.strData labelNextline with type := .nop, backpatch := -1, label := -1 }
    scriptBuf := patch (some 1) (c.scriptPos + 1 : ℕ) (c.scriptPos + 1 + 1)
      (c.strData labelNextline).backpatch (c.emit [9]).scriptBuf
    words := c.words ++ [Word.line (c.scriptPos + 1)]
    lines := c.lines + 1 }

theorem endLine_eq (c : Compiler) : endLine c = some ((), c.endLine) := by
  have hdata (a b : StrData) : Function.update (Function.update c.strData labelNextline a)
      labelNextline b = Function.update c.strData labelNextline b := Function.update_idem _ _ _
  unfold Compiler.endLine
  rw [← hdata { c.strData labelNextline with type := .pos, label := (c.scriptPos + 1 : ℕ) }]
  change some ((), _) = _
  congr 3

/-- A reference to the next line stands at one place. -/
theorem next_unique {ws ws1 ws2 ws1' ws2' : List Word} {s e e' : ℕ}
    (hapart : (spans ws).Pairwise fun a b => a.2 ≤ b.1) (hlt : ∀ a ∈ spans ws, a.1 < a.2)
    (h : ws = ws1 ++ .next s e :: ws2) (h' : ws = ws1' ++ .next s e' :: ws2') : ws2 = ws2' := by
  have hmem {e : ℕ} {a b : List Word} (h : ws = a ++ .next s e :: b) : s < e :=
    hlt (s, e) (mem_spans_next (by rw [h]; simp))
  have hne {a b d : List Word} {e e' : ℕ} (h : ws = a ++ .next s e :: (b ++ .next s e' :: d)) :
      False := by
    have hse := hmem h
    rw [h, spans_append, List.pairwise_append] at hapart
    have hcons : spans (.next s e :: (b ++ .next s e' :: d)) =
      (s, e) :: spans (b ++ .next s e' :: d) := rfl
    rw [hcons, List.pairwise_cons] at hapart
    have hle := hapart.2.1.1 (s, e') (mem_spans_next (by simp))
    dsimp only at hle
    omega
  rcases List.append_eq_append_iff.mp (h.symm.trans h') with ⟨a, ha, heq⟩ | ⟨a, ha, heq⟩
  · rcases a with _ | ⟨w, a⟩
    · exact (List.cons.inj heq).2
    · rw [List.cons_append] at heq
      obtain ⟨-, htail⟩ := List.cons.inj heq
      exact (hne (h.trans (by rw [htail]))).elim
  · rcases a with _ | ⟨w, a⟩
    · exact (List.cons.inj heq).2.symm
    · rw [List.cons_append] at heq
      obtain ⟨-, htail⟩ := List.cons.inj heq
      exact (hne (h'.trans (by rw [htail]))).elim

/-- **The end of a line keeps the invariant**, and no reference waits for the next line. -/
theorem labelInv_endLine (h : LabelInv B c) (hsize : c.endLine.scriptPos < 2 ^ 24) :
    LabelInv B c.endLine ∧ nextSites c.endLine.words = [] := by
  have h1 := labelInv_emit h [9]
  have hpos : (c.emit [9]).scriptPos = c.scriptPos + 1 := rfl
  have hpos' : c.endLine.scriptPos = c.scriptPos + 1 := rfl
  have hwords : c.endLine.words = c.words ++ [Word.line (c.scriptPos + 1)] := rfl
  have hspans : spans c.endLine.words = spans c.words := by
    rw [hwords, spans_append]
    exact List.append_nil _
  obtain ⟨hin, hout⟩ := h1.patch_next (z := (c.scriptPos + 1 : ℕ))
  have hsites : nextSites c.endLine.words = [] := by
    rw [hwords, nextSites_append]
  have hdata (l : ℕ) (hl : labelStart ≤ l) : c.endLine.strData l = c.strData l :=
    Function.update_of_ne (by unfold labelNextline labelStart at *; omega) _ _
  refine ⟨⟨?_, ?_, ?_, ?_, ?_, h.fixed, ?_⟩, hsites⟩
  · rw [hwords]
    intro w hw l' hl'
    rcases List.mem_append.mp hw with hw | hw
    · exact h.range w hw l' hl'
    · rw [List.mem_singleton.mp hw] at hl'
      cases hl'
  · rw [hspans]
    exact h.apart
  · rw [hspans]
    exact h1.inside
  · rw [hwords]
    intro n l' k p hmem
    rcases List.mem_append.mp hmem with hmem | hmem
    · have := h.places n l' k p hmem
      omega
    · cases List.mem_singleton.mp hmem
  · intro l hl hlt
    rw [hdata l hl, hwords]
    refine ((h1.entries l hl hlt).congr (fun n s e hmem => ?_)
      fun n s e hmem => (h1.lt_of_ref hmem).1).append (by rintro ⟨⟩)
    exact hout _ hmem (by rintro _ _ ⟨⟩) s e rfl
  · have hself : c.endLine.strData labelNextline =
        { c.strData labelNextline with type := .nop, backpatch := -1, label := -1 } := by
      unfold Compiler.endLine
      dsimp only
      rw [Function.update_self]
    rw [hself]
    refine ⟨rfl, ?_, ?_, ?_⟩
    · rw [hsites]
      exact .inl rfl
    · rw [hwords]
      intro s e hmem
      rcases List.mem_append.mp hmem with hmem | hmem
      · exact h.next.refs s e hmem
      · cases List.mem_singleton.mp hmem
    · rw [hwords]
      intro ws1 s e ws2 p hws hp
      rcases append_eq_split hws with ⟨-, heq, -⟩ | ⟨ws3, rfl, hws'⟩
      · cases heq
      have hmem : .next s e ∈ c.words := by
        rw [hws']
        simp
      rw [firstLine_append] at hp
      rcases hfirst : firstLine ws3 with _ | q
      · -- It waits for this line.
        rw [hfirst] at hp
        obtain rfl := Option.some.inj hp
        obtain ⟨hread, hcode⟩ := hin (s + 1) (mem_nextSites.mpr ⟨ws1, s, e, ws3, hws', hfirst, rfl⟩)
        refine ⟨h.next.refs s e hmem, hcode, ?_⟩
        change (BackPatch.read c.endLine.scriptBuf (s + 1) : ℤ) = _ at hread
        omega
      · rw [hfirst] at hp
        obtain rfl := Option.some.inj hp
        refine (h1.next.lines ws1 s e ws3 q hws' hfirst).congr fun t hs ht => ?_
        refine hout _ hmem (fun s' e' heq hopen => ?_) s e rfl t hs ht
        obtain ⟨rfl, rfl⟩ := Word.next.inj heq
        obtain ⟨ws1', s', e', ws2', hws2, hnone, hs'⟩ := mem_nextSites.mp hopen
        obtain rfl : s' = s := by omega
        rw [next_unique h.apart (fun a ha => (h.inside a ha).1) hws' hws2, hnone] at hfirst
        cases hfirst

/-! ## The end of the script -/

/-- A name without a label. -/
theorem finishStr_eq {i : ℕ} (h : (c.strData i).type = .nop) : finishStr c i =
    { c with
      strData := Function.update c.strData i { c.strData i with type := .name, label := i }
      scriptBuf := patch none i (c.scriptPos + 1) (c.strData i).backpatch c.scriptBuf } := by
  unfold finishStr
  rw [if_pos h]
  rfl

theorem finishStr_of_ne {i : ℕ} (h : (c.strData i).type ≠ .nop) : finishStr c i = c := if_neg h

/-- **The end of the script keeps the invariant.** -/
theorem labelInv_finishStr (h : LabelInv B c) {i : ℕ} (hi : labelStart ≤ i) (hlt : i < c.strNum) :
    LabelInv B (finishStr c i) ∧ ((finishStr c i).strData i).type ≠ .nop := by
  by_cases htype : (c.strData i).type = .nop
  swap
  · rw [finishStr_of_ne htype]
    exact ⟨h, htype⟩
  rcases h.entries i hi hlt with hentry | hentry | hentry | hentry
  · obtain ⟨hin, hout⟩ := h.patch_refs none i hentry
    have hself : (finishStr c i).strData i = { c.strData i with type := .name, label := i } := by
      rw [finishStr_eq htype]
      exact Function.update_self _ _ _
    have hdata (l : ℕ) (hne : l ≠ i) : (finishStr c i).strData l = c.strData l := by
      rw [finishStr_eq htype]
      exact Function.update_of_ne hne _ _
    refine ⟨?_, by rw [hself]; rintro ⟨⟩⟩
    rw [finishStr_eq htype] at hself hdata ⊢
    refine ⟨h.range, h.apart, h.inside, h.places, fun l hl hlt => ?_, h.fixed, ?_⟩
    · by_cases hne : l = i
      · subst hne
        refine .inr (.inr (.inr ?_))
        rw [hself]
        refine ⟨rfl, hentry.own, ?_, hentry.none, fun n s e hmem => ?_⟩
        · dsimp only
          omega
        · obtain ⟨hread, hcode⟩ := hin n s e hmem
          refine ⟨(hentry.refs n s e hmem).1, ?_, ?_⟩
          · exact hcode.trans (hentry.refs n s e hmem).2
          · dsimp only
            omega
      · rw [hdata l hne]
        refine (h.entries l hl hlt).congr (fun n s e hmem => ?_)
          fun n s e hmem => (h.lt_of_ref hmem).1
        refine hout _ hmem ?_ s e rfl
        rintro ⟨⟩
        exact hne rfl
    · rw [hdata labelNextline (by unfold labelNextline labelStart at *; omega)]
      exact h.next.congr fun s e hmem => hout _ hmem (by rintro ⟨⟩) s e rfl
  · rw [hentry.type] at htype
    cases htype
  · exact absurd htype hentry.type.1
  · rw [hentry.type] at htype
    cases htype

/-! ## The lines of a script -/

/-- Labels stand at one place if there are as many commands before them. -/
structure LinesOk (c : Compiler) : Prop where
  below : ∀ n l k p, .label n l k p ∈ c.words →
    k ≤ c.lines ∧ p ≤ c.scriptPos ∧ (k = c.lines ↔ p = c.scriptPos)
  same : ∀ n l k p n' l' k' p', .label n l k p ∈ c.words → .label n' l' k' p' ∈ c.words →
    (k = k' ↔ p = p')

/-- The state between two commands. -/
structure LineStart (B : ℕ → Prop) (c : Compiler) : Prop where
  labels : LabelInv B c
  lines : LinesOk c
  next : nextSites c.words = []

/-- An expression has no label and no end of a line. -/
def KeepsPlaces (c c' : Compiler) : Prop :=
  c.scriptPos ≤ c'.scriptPos ∧ c'.lines = c.lines ∧
    ∀ n l k p, .label n l k p ∈ c'.words ↔ .label n l k p ∈ c.words

theorem addStr_words (c : Compiler) (p : VarName) :
    (c.addStr p).2.words = c.words ∧ (c.addStr p).2.lines = c.lines := by
  rcases addStr_cases' c p with ⟨h, -⟩ | h <;> rw [h]
  · exact ⟨rfl, rfl⟩
  · exact ⟨rfl, rfl⟩

theorem keepsPlaces_primitive : Primitive KeepsPlaces where
  refl c := ⟨le_rfl, rfl, fun _ _ _ _ => Iff.rfl⟩
  trans h h' := ⟨h.1.trans h'.1, h'.2.1.trans h.2.1, fun n l k p =>
    (h'.2.2 n l k p).trans (h.2.2 n l k p)⟩
  emit c bs _ := ⟨by rw [emit_scriptPos]; omega, emit_lines, fun n l k p => by rw [emit_words]⟩
  enter c p _ := ⟨(addStr_scriptPos c p).ge, (addStr_words c p).2, fun n l k p' => by
    rw [show (c.enter p).2.words = c.words from (addStr_words c p).1]⟩
  cmd c l := ⟨le_rfl, rfl, fun _ _ _ _ => Iff.rfl⟩
  addRef c name l _ _ := ⟨by
    rw [show (c.addRef name l).scriptPos = _ from ref_scriptPos]
    omega, ref_lines, fun n l' k p => by
      change _ ∈ c.words ++ [Word.ref name l c.scriptPos (c.ref l).scriptPos] ↔ _
      simp⟩
  addNext c _ := ⟨by
    rw [show c.addNext.scriptPos = _ from ref_scriptPos]
    omega, ref_lines, fun n l' k p => by
      change _ ∈ c.words ++ [Word.next c.scriptPos (c.ref labelNextline).scriptPos] ↔ _
      simp⟩
  call c := ⟨le_rfl, rfl, fun n l k p => by simp⟩

/-- A label at the start of a line. -/
theorem lineStart_define (h : LineStart B c) (hc : labelStart ≤ c.strNum) (name : VarName)
    (hlabel : ((c.enter name).2.strData (c.enter name).1).label = -1)
    (hsize : c.scriptPos < 2 ^ 24) :
    LineStart B ((c.enter name).2.define name (c.enter name).1) := by
  obtain ⟨hl, hlt⟩ := addStr_range hc name
  obtain ⟨hwords, hlines⟩ := addStr_words c name
  have hpos := addStr_scriptPos c name
  have hinv := labelInv_define (labelInv_enter h.labels hc name) name hl hlt hlabel
    (hpos.trans_lt hsize)
  have hnew : ((c.enter name).2.define name (c.enter name).1).words =
      c.words ++ [Word.label name (c.enter name).1 c.lines c.scriptPos] := by
    rw [← hwords, ← hlines, ← hpos]
    rfl
  have hpos' : ((c.enter name).2.define name (c.enter name).1).scriptPos = c.scriptPos := hpos
  have hlines' : ((c.enter name).2.define name (c.enter name).1).lines = c.lines := hlines
  refine ⟨hinv, ⟨?_, ?_⟩, ?_⟩
  · rw [hnew, hpos', hlines']
    intro n l k p hmem
    rcases List.mem_append.mp hmem with hmem | hmem
    · exact h.lines.below n l k p hmem
    · cases List.mem_singleton.mp hmem
      exact ⟨le_rfl, le_rfl, by simp⟩
  · rw [hnew]
    intro n l k p n' l' k' p' hmem hmem'
    rcases List.mem_append.mp hmem with hmem | hmem <;>
      rcases List.mem_append.mp hmem' with hmem' | hmem'
    · exact h.lines.same n l k p n' l' k' p' hmem hmem'
    · cases List.mem_singleton.mp hmem'
      exact (h.lines.below n l k p hmem).2.2
    · cases List.mem_singleton.mp hmem
      rw [eq_comm, eq_comm (a := c.scriptPos)]
      exact (h.lines.below n' l' k' p' hmem').2.2
    · cases List.mem_singleton.mp hmem
      cases List.mem_singleton.mp hmem'
      simp
  · rw [hnew, nextSites_append]
    exact h.next

/-- A command. -/
theorem lineStart_line (h : LineStart B c) {c₁ : Compiler} (hlabels : KeepsLabels B c c₁)
    (hplaces : KeepsPlaces c c₁) (hsize : c₁.endLine.scriptPos < 2 ^ 24) :
    LineStart B c₁.endLine := by
  have hpos : c₁.endLine.scriptPos = c₁.scriptPos + 1 := rfl
  have hlines : c₁.endLine.lines = c₁.lines + 1 := rfl
  obtain ⟨hinv, hnext⟩ := labelInv_endLine (hlabels.2 h.labels (by omega)) hsize
  have hmem (n : VarName) (l k p : ℕ) :
      .label n l k p ∈ c₁.endLine.words ↔ .label n l k p ∈ c.words := by
    rw [← hplaces.2.2 n l k p]
    change _ ∈ c₁.words ++ [Word.line (c₁.scriptPos + 1)] ↔ _
    simp
  refine ⟨hinv, ⟨fun n l k p hl => ?_, fun n l k p n' l' k' p' hl hl' => ?_⟩, hnext⟩
  · obtain ⟨h1, h2, -⟩ := h.lines.below n l k p ((hmem n l k p).mp hl)
    have h3 := hplaces.1
    have h4 := hplaces.2.1
    omega
  · exact h.lines.same n l k p n' l' k' p' ((hmem n l k p).mp hl) ((hmem n' l' k' p').mp hl')

/-- **The loop of `parse_script` keeps the invariant.** -/
theorem lineStart_lines {f n : ℕ} {p : List UInt8} {a : Unit}
    (hrun : parseLines f n p c = some (a, c')) (hc : labelStart ≤ c.strNum) :
    c.scriptPos ≤ c'.scriptPos ∧ c.strNum ≤ c'.strNum ∧
      (LineStart B c → c'.scriptPos < 2 ^ 24 → LineStart B c') := by
  induction n generalizing p c with
  | zero => cases hrun
  | succ n ih =>
    unfold parseLines at hrun
    dsimp only at hrun
    split at hrun
    · obtain ⟨-, rfl⟩ := Parser.pure_eq hrun
      exact ⟨le_rfl, le_rfl, fun h _ => h⟩
    split at hrun
    · obtain ⟨_, c₁, hdef, hrun⟩ := Parser.bind_eq hrun
      obtain ⟨hlabel, rfl⟩ := defineLabel_eq _ hdef
      have hnum := addStr_strNum c (wordOf (skipSpace p))
      have hpos := addStr_scriptPos c (wordOf (skipSpace p))
      obtain ⟨hle, hle', hinv⟩ := ih hrun (hc.trans hnum)
      refine ⟨hpos.ge.trans hle, hnum.trans hle', fun h hsize => hinv ?_ hsize⟩
      exact lineStart_define h hc _ hlabel ((hpos.ge.trans hle).trans_lt hsize)
    · obtain ⟨q, c₁, hline, hrun⟩ := Parser.bind_eq hrun
      obtain ⟨_, c₂, hend, hrun⟩ := Parser.bind_eq hrun
      rw [endLine_eq] at hend
      obtain ⟨-, rfl⟩ := Prod.mk.inj (Option.some.inj hend)
      obtain ⟨hlabels, hnum⟩ := extends_line (labelInv_primitive B) f _ c q c₁ hc hline
      obtain ⟨hplaces, -⟩ := extends_line keepsPlaces_primitive f _ c q c₁ hc hline
      obtain ⟨hle, hle', hinv⟩ := ih hrun (hc.trans hnum)
      have hpos : c₁.endLine.scriptPos = c₁.scriptPos + 1 := rfl
      have hnum' : c₁.endLine.strNum = c₁.strNum := rfl
      have := hplaces.1
      refine ⟨by omega, by omega, fun h hsize => hinv ?_ hsize⟩
      exact lineStart_line h hlabels hplaces (by omega)

end Define

end Nezumi
