import Nezumi.Script.StrictLemmas
import Nezumi.Script.LabelsRun

/-!
# When a script can be read (`map/script.c`)

* `statement_spec`: what an iteration of `parse_script` leaves of a text. A `;` is left as it is, so
  that the next iteration starts with it again.
* `lines_empty`: a script with an empty statement is read forever.
* `parse_terminates_iff`: a script is read to its end, or to an error, if and only if no statement
  is empty, and which iterations advance.
-/

namespace Nezumi

open Strict

section Statements

variable {conf : ScriptConf} {warn : ScriptWarnings} {p r : List UInt8} {s s' : Reader}

/-- Nothing is skipped at the end of a statement. -/
theorem skipSpace_semicolon (t : List UInt8) : skipSpace (59 :: t) = 59 :: t := rfl

theorem skipWord_semicolon (t : List UInt8) : skipWord (59 :: t) = 59 :: t := by
  cases t <;> rfl

theorem defineLabel_spec (p : List UInt8) (s : Reader) :
    Ensures Logs (FuelIf False) (Strict.defineLabel p) s fun _ _ => True :=
  .bind (compile_spec _) fun _ _ _ _ => .bind (.read (P := fun _ _ => True) trivial)
    fun _ _ _ _ => .ite (fun _ => raise_message) fun _ => .bind (compile_spec _)
    fun _ _ _ _ => .bind (compile_spec _) fun _ _ _ _ =>
    (compile_spec _).conseq (FuelIf.mono id) fun _ _ _ _ => trivial

/-- What an iteration of `parse_script` leaves. -/
theorem statement_spec (p : List UInt8) (s : Reader) : Ensures Logs (FuelIf False)
    (parseStatement conf warn p) s fun r _ => Iteration.Exact ⟨.script, s.compiler, p, r⟩ := by
  have hspace := skipSpace_suffix p
  have hspace' := skipSpace_suffix (skipSpace p)
  have hword := (skipSpace_suffix (skipWord (skipSpace p))).trans (skipWord_suffix _)
  unfold parseStatement
  dsimp only
  refine .ite (fun hlabel => .bind (defineLabel_spec _ _) fun _ _ _ _ => .ret ?_) fun hlabel =>
    .bind (line_spec _ _) fun r _ _ hr => .bind (compile_spec _) fun _ _ _ _ => .ret ?_
  · have hne : skipSpace (skipWord (skipSpace p)) ≠ [] := fun hnil => by simp [hnil] at hlabel
    have hlt := length_tail_lt hne
    refine iff_of_true (hlt.trans_le (hword.trans hspace).length_le) fun hidle => ?_
    have hhead : p.head? = some 59 := hidle
    obtain ⟨t, rfl⟩ := List.head?_eq_some_iff.mp hhead
    rw [skipSpace_semicolon, skipWord_semicolon] at hlabel
    cases hlabel
  · obtain ⟨hsuffix, hshorter⟩ := hr
    have hend := skipSpace_suffix r
    by_cases hidle : p.head? = some 59
    · refine iff_of_false ?_ (not_not.mpr hidle)
      obtain ⟨t, rfl⟩ := List.head?_eq_some_iff.mp hidle
      rw [skipSpace_semicolon, skipSpace_semicolon] at hsuffix hshorter
      have hsame := hsuffix.eq_of_length (hsuffix.length_le.antisymm
        (not_lt.mp fun hlt => hshorter.mp hlt rfl))
      rw [hsame, skipSpace_semicolon]
      exact lt_irrefl _
    · refine iff_of_true ?_ hidle
      have hle := hend.length_le.trans hsuffix.length_le
      by_cases hempty : (skipSpace (skipSpace p)).head? = some 59
      · have hne : skipSpace (skipSpace p) ≠ p := fun hp => hidle (hp ▸ hempty)
        have hlt := (hspace'.trans hspace).length_le.lt_of_ne fun hlen =>
          hne ((hspace'.trans hspace).eq_of_length hlen)
        exact hle.trans_lt hlt
      · have hlt := hshorter.mpr hempty
        exact (hend.length_le.trans_lt hlt).trans_le (hspace'.trans hspace).length_le

/-- **An empty statement is left as it is.** -/
theorem statement_empty (t : List UInt8) (s : Reader) :
    ∃ s', (parseStatement conf warn (59 :: t)).run.run s = (.ok (59 :: t), s') := by
  refine ⟨{ s with compiler := s.compiler.endLine }, ?_⟩
  have hline : parseStatement conf warn (59 :: t) = (do
      compile endLine
      return 59 :: t) := by
    unfold parseStatement Strict.parseLine
    dsimp only
    rw [skipSpace_semicolon, skipWord_semicolon, skipSpace_semicolon, if_neg (by simp),
      if_pos (by simp), pure_bind]
    rfl
  have hend : (compile endLine).run.run s =
      (.ok (), { s with compiler := s.compiler.endLine }) := by
    change (match endLine s.compiler with
      | some (a, c) => (Except.ok a, { s with compiler := c })
      | none => (.error Stop.behind, s)) = _
    rw [endLine_eq]
  rw [hline, run_bind, hend]
  rfl

/-- **What an iteration of `parse_script` does**: it stops, or its end is written down last. -/
theorem iteration_cases (conf : ScriptConf) (warn : ScriptWarnings) (p : List UInt8)
    (s : Reader) : ∃ its, (∀ it ∈ its, it.loop ≠ .script ∧ it.Exact) ∧
      ((∃ e s', (iteration .script p (parseStatement conf warn p)).run.run s = (.error e, s') ∧
        e ≠ .fuel ∧ s'.iterations = s.iterations ++ its) ∨
      ∃ r s', (iteration .script p (parseStatement conf warn p)).run.run s = (.ok r, s') ∧
        s'.iterations = s.iterations ++ (its ++ [⟨.script, s.compiler, p, r⟩]) ∧
        Iteration.Exact ⟨.script, s.compiler, p, r⟩) := by
  obtain ⟨⟨its, heq, hits⟩, hanswer, herror⟩ := @statement_spec conf warn p s
  have hrun := iteration_run .script p (parseStatement conf warn p) s
  generalize (parseStatement conf warn p).run.run s = a at heq hanswer herror hrun
  refine ⟨its, hits, ?_⟩
  obtain ⟨e | r, s'⟩ := a
  · exact .inl ⟨e, s', hrun, herror e rfl, heq⟩
  · exact .inr ⟨r, _, hrun, by rw [← List.append_assoc, ← heq], hanswer r rfl⟩

end Statements

/-! ## The loop -/

section Script

variable (conf : ScriptConf) (warn : ScriptWarnings)

theorem lines_end {n : ℕ} {p : List UInt8} (s : Reader) (h : p = [] ∨ p.head? = some 125) :
    (Strict.parseLines conf warn (n + 1) p).run.run s = (.ok (), s) := by
  rw [Strict.parseLines, if_pos h]
  rfl

theorem lines_step (n : ℕ) {p : List UInt8} (s : Reader) (h : ¬ (p = [] ∨ p.head? = some 125)) :
    (Strict.parseLines conf warn (n + 1) p).run.run s =
      match (iteration .script p (parseStatement conf warn p)).run.run s with
      | (.ok r, s') => (Strict.parseLines conf warn n r).run.run s'
      | (.error e, s') => (.error e, s') := by
  rw [Strict.parseLines, if_neg h, run_bind]
  generalize (iteration .script p (parseStatement conf warn p)).run.run s = a
  obtain ⟨e | r, s'⟩ := a <;> rfl

/-- **What the loop writes down is exact.** -/
theorem lines_exact (n : ℕ) (p : List UInt8) (s : Reader) :
    ∃ its, ((Strict.parseLines conf warn n p).run.run s).2.iterations = s.iterations ++ its ∧
      ∀ it ∈ its, it.Exact := by
  induction n generalizing p s with
  | zero => exact ⟨[], (List.append_nil _).symm, by simp⟩
  | succ n ih =>
    by_cases hend : p = [] ∨ p.head? = some 125
    · rw [lines_end conf warn s hend]
      exact ⟨[], (List.append_nil _).symm, by simp⟩
    · rw [lines_step conf warn n s hend]
      obtain ⟨its, hits, ⟨e, s', hrun, -, heq⟩ | ⟨r, s', hrun, heq, hexact⟩⟩ :=
        iteration_cases conf warn p s
      · rw [hrun]
        exact ⟨its, heq, fun it hit => (hits it hit).2⟩
      · rw [hrun]
        obtain ⟨its', heq', hits'⟩ := ih r s'
        refine ⟨its ++ [⟨.script, s.compiler, p, r⟩] ++ its', ?_, fun it hit => ?_⟩
        · rw [← List.append_assoc, ← heq]
          exact heq'
        · obtain hit | hit := List.mem_append.mp hit
          · obtain hit | hit := List.mem_append.mp hit
            · exact (hits it hit).2
            · obtain rfl := List.mem_singleton.mp hit
              exact hexact
          · exact hits' it hit

/-- **A script with an empty statement is read forever.** -/
theorem lines_empty (t : List UInt8) (n : ℕ) (s : Reader) :
    ((Strict.parseLines conf warn n (59 :: t)).run.run s).1 = .error .fuel := by
  induction n generalizing s with
  | zero => rfl
  | succ n ih =>
    obtain ⟨s', hstatement⟩ := @statement_empty conf warn t s
    rw [lines_step conf warn n s (by simp), iteration_run, hstatement]
    exact ih _

/-- An iteration of the loop that starts with a `;`. -/
def Iteration.Empty (it : Iteration) : Prop := it.loop = .script ∧ it.start.head? = some 59

/-- The loop ends if no statement is empty. -/
theorem lines_terminate (n : ℕ) {p : List UInt8} (hp : p.length < n) (s : Reader)
    (h : ∀ it ∈ ((Strict.parseLines conf warn n p).run.run s).2.iterations, ¬ it.Empty) :
    ((Strict.parseLines conf warn n p).run.run s).1 ≠ .error .fuel := by
  induction n generalizing p s with
  | zero => omega
  | succ n ih =>
    by_cases hend : p = [] ∨ p.head? = some 125
    · rw [lines_end conf warn s hend]
      exact fun hfuel => by cases hfuel
    · rw [lines_step conf warn n s hend] at h ⊢
      obtain ⟨its, hits, ⟨e, s', hrun, hfuel, -⟩ | ⟨r, s', hrun, heq, hexact⟩⟩ :=
        iteration_cases conf warn p s
      · rw [hrun]
        exact fun he => hfuel (Except.error.inj he)
      · rw [hrun] at h ⊢
        obtain ⟨its', heq', -⟩ := lines_exact conf warn n r s'
        have hlast : (⟨.script, s.compiler, p, r⟩ : Iteration) ∈
            ((Strict.parseLines conf warn n r).run.run s').2.iterations := by
          rw [heq', heq]
          simp
        have hlt : r.length < p.length := hexact.mpr fun hidle => h _ hlast ⟨rfl, hidle⟩
        exact ih (by omega) s' h

/-- The loop does not end if a statement is empty. -/
theorem lines_diverge (n : ℕ) (p : List UInt8) (s : Reader) (hs : ∀ it ∈ s.iterations, ¬ it.Empty)
    {it : Iteration} (hit : it ∈ ((Strict.parseLines conf warn n p).run.run s).2.iterations)
    (hempty : it.Empty) (k : ℕ) :
    ((Strict.parseLines conf warn k p).run.run s).1 = .error .fuel := by
  induction n generalizing p s k with
  | zero => exact absurd hempty (hs it hit)
  | succ n ih =>
    by_cases hend : p = [] ∨ p.head? = some 125
    · rw [lines_end conf warn s hend] at hit
      exact absurd hempty (hs it hit)
    by_cases hstart : p.head? = some 59
    · obtain ⟨t, rfl⟩ := List.head?_eq_some_iff.mp hstart
      exact lines_empty conf warn t k s
    cases k with
    | zero => rfl
    | succ k =>
      rw [lines_step conf warn n s hend] at hit
      rw [lines_step conf warn k s hend]
      obtain ⟨its, hits, ⟨e, s', hrun, -, heq⟩ | ⟨r, s', hrun, heq, hexact⟩⟩ :=
        iteration_cases conf warn p s
      · rw [hrun] at hit
        have hit : it ∈ s'.iterations := hit
        rw [heq] at hit
        obtain hit | hit := List.mem_append.mp hit
        · exact absurd hempty (hs it hit)
        · exact absurd hempty.1 (hits it hit).1
      · rw [hrun] at hit ⊢
        refine ih r s' (fun it' hit' hempty' => ?_) hit k
        rw [heq] at hit'
        obtain hit' | hit' := List.mem_append.mp hit'
        · exact hs it' hit' hempty'
        · obtain hit' | hit' := List.mem_append.mp hit'
          · exact (hits it' hit').1 hempty'.1
          · obtain rfl := List.mem_singleton.mp hit'
            exact hstart hempty'.2

/-! ## Scripts -/

theorem finishScript_run (s : Reader) : ∃ a s', finishScript.run.run s = (.ok a, s') ∧
    s'.iterations = s.iterations := by
  have hnop : (compile (addScriptc .nop)).run.run s =
      (.ok (), { s with compiler := s.compiler.emit [UInt8.ofNat Code.nop.num] }) := by
    change (match addScriptc .nop s.compiler with
      | some (a, c) => (Except.ok a, { s with compiler := c })
      | none => (.error Stop.behind, s)) = _
    rw [addScriptc_eq]
  unfold finishScript
  rw [run_bind, hnop]
  exact ⟨_, _, rfl, rfl⟩

/-- A script that is not empty is read line by line. -/
theorem parseScript_run {src : List UInt8} (c : Compiler) (n : ℕ)
    (hopen : (skipSpace src).head? = some 123)
    (hclose : (skipSpace (skipSpace src).tail).head? ≠ some 125) :
    (Strict.parseScript conf warn n src).run.run { compiler := c } =
      (Strict.parseLines conf warn n (skipSpace src).tail >>= fun _ => finishScript).run.run
        { compiler := startScript (firstScript conf c) } := by
  unfold Strict.parseScript
  rw [run_bind]
  dsimp only
  rw [if_neg (not_not.mpr hopen), if_neg hclose]
  rfl

/-- **What is read of a script**: nothing, or its lines. -/
theorem script_run (c : Compiler) (src : List UInt8) :
    (∃ a, a ≠ .error .fuel ∧ ∀ n, (Strict.parseScript conf warn n src).run.run { compiler := c } =
      (a, { compiler := firstScript conf c })) ∨
    ∃ p c', ∀ n,
      let s := (Strict.parseScript conf warn n src).run.run { compiler := c }
      let s' := (Strict.parseLines conf warn n p).run.run { compiler := c' }
      s.2.iterations = s'.2.iterations ∧ (s.1 = .error .fuel ↔ s'.1 = .error .fuel) := by
  let p := skipSpace src
  let c₁ := firstScript conf c
  by_cases hopen : p.head? ≠ some 123
  · refine .inl ⟨.error (.message "not found '\x7b'" p), by simp, fun n => ?_⟩
    unfold Strict.parseScript
    rw [run_bind]
    dsimp only
    rw [if_pos hopen]
    rfl
  by_cases hclose : (skipSpace p.tail).head? = some 125
  · refine .inl ⟨.ok none, by simp, fun n => ?_⟩
    unfold Strict.parseScript
    rw [run_bind]
    dsimp only
    rw [if_neg hopen, if_pos hclose]
    rfl
  refine .inr ⟨p.tail, startScript c₁, fun n => ?_⟩
  dsimp only
  rw [parseScript_run conf warn c n (not_not.mp hopen) hclose, run_bind]
  generalize (Strict.parseLines conf warn n p.tail).run.run { compiler := startScript c₁ } = a
  obtain ⟨e | u, s'⟩ := a
  · exact ⟨rfl, by simp⟩
  · obtain ⟨a, s'', hfinish, heq⟩ := finishScript_run s'
    dsimp only
    rw [hfinish]
    exact ⟨heq, by simp⟩

/-- A reading of a script comes to an end. -/
def Terminates (c : Compiler) (src : List UInt8) : Prop :=
  ∃ n, ((Strict.parseScript conf warn n src).run.run { compiler := c }).1 ≠ .error .fuel

/-- An iteration of a reading of a script that ends without an error. -/
def Iterates (c : Compiler) (src : List UInt8) (it : Iteration) : Prop :=
  ∃ n, it ∈ ((Strict.parseScript conf warn n src).run.run { compiler := c }).2.iterations

/-- **When a script is read to its end**, or to an error: if and only if no statement is empty. And
which iterations advance. -/
theorem parse_terminates_iff (c : Compiler) (src : List UInt8) :
    (Terminates conf warn c src ↔ ∀ it, Iterates conf warn c src it → ¬ it.Empty) ∧
    ((∀ it, Iterates conf warn c src it → it.Advances) ↔
      ∀ it, Iterates conf warn c src it → ¬ it.Idle) := by
  obtain ⟨a, ha, hrun⟩ | ⟨p, c', hrun⟩ := script_run conf warn c src
  · have hno (it : Iteration) : ¬ Iterates conf warn c src it := by
      rintro ⟨n, hit⟩
      rw [hrun n] at hit
      cases hit
    refine ⟨iff_of_true ⟨0, ?_⟩ fun it hit => absurd hit (hno it),
      iff_of_true (fun it hit => absurd hit (hno it)) fun it hit => absurd hit (hno it)⟩
    rw [hrun 0]
    exact ha
  · have hiterates {it : Iteration} : Iterates conf warn c src it ↔ ∃ n,
        it ∈ ((Strict.parseLines conf warn n p).run.run { compiler := c' }).2.iterations :=
      exists_congr fun n => by rw [(hrun n).1]
    refine ⟨⟨?_, fun hnone => ⟨p.length + 1, fun hfuel => ?_⟩⟩, forall₂_congr fun it hit => ?_⟩
    · rintro ⟨k, hk⟩ it hit hempty
      obtain ⟨n, hit⟩ := hiterates.mp hit
      have hdiverge := lines_diverge conf warn n p { compiler := c' } (by simp) hit hempty k
      exact hk ((hrun k).2.mpr hdiverge)
    · refine lines_terminate conf warn (p.length + 1) (Nat.lt_succ_self _) { compiler := c' }
        (fun it hit => hnone it (hiterates.mpr ⟨_, hit⟩)) ((hrun _).2.mp hfuel)
    · obtain ⟨n, hit⟩ := hiterates.mp hit
      obtain ⟨its, heq, hits⟩ := lines_exact conf warn n p { compiler := c' }
      rw [heq, List.nil_append] at hit
      exact hits it hit

end Script

/-- **A script whose only statement is empty is read forever.** -/
theorem parse_diverges : ¬ ∀ (conf : ScriptConf) (warn : ScriptWarnings) (c : Compiler)
    (src : List UInt8), Terminates conf warn c src ∧
      ∀ it, Iterates conf warn c src it → it.Advances := by
  intro h
  let conf : ScriptConf := ⟨[(getelementofarray, [])], [], List.mem_singleton_self _⟩
  obtain ⟨⟨n, hn⟩, -⟩ := h conf {} {} [123, 59, 125]
  have htail : (skipSpace [123, 59, 125]).tail = [59, 125] := rfl
  rw [parseScript_run conf {} {} n rfl (by decide), run_bind, htail] at hn
  have hempty := lines_empty conf {} [125] n { compiler := startScript (firstScript conf {}) }
  generalize (Strict.parseLines conf {} n [59, 125]).run.run _ = a at hn hempty
  obtain ⟨e | u, s'⟩ := a
  · obtain rfl := Except.error.inj hempty
    exact hn rfl
  · cases hempty

end Nezumi
