import Mathlib.Order.Defs.Unbundled

/-!
# Postconditions of programs that may stop

A program answers, or stops with an error; either way it leaves a state. `Ensures R E m s P` is what
the program `m` is sure to do from the state `s`: the states move along `R`, an error is one of `E`,
and an answer with its state is one of `P`.

* `run_bind`: one program after another.
* `Ensures.ret`, `Ensures.raise`, `Ensures.bind`, `Ensures.conseq`: the rules. An error of a part is
  an error of the whole.
* `Ensures.read`, `Ensures.change`, `Ensures.ite`: the state, and branches.
-/

universe u

variable {σ ε α β : Type u} {R : σ → σ → Prop} {E E' : ε → Prop} {P P' : α → σ → Prop}
  {Q : β → σ → Prop} {m m' : ExceptT ε (StateM σ) α} {k : α → ExceptT ε (StateM σ) β} {s : σ}

/-- What a program does after another one. -/
theorem run_bind (m : ExceptT ε (StateM σ) α) (k : α → ExceptT ε (StateM σ) β) (s : σ) :
    (m >>= k).run.run s = match m.run.run s with
      | (.ok a, s') => (k a).run.run s'
      | (.error e, s') => (.error e, s') := by
  change (match m.run.run s with
    | (a, s') => (ExceptT.bindCont k a).run s') = _
  generalize m.run.run s = r
  obtain ⟨a | e, s'⟩ := r <;> rfl

structure Ensures (R : σ → σ → Prop) (E : ε → Prop) (m : ExceptT ε (StateM σ) α) (s : σ)
    (P : α → σ → Prop) : Prop where
  moves : R s (m.run.run s).2
  answer : ∀ a, (m.run.run s).1 = .ok a → P a (m.run.run s).2
  error : ∀ e, (m.run.run s).1 = .error e → E e

/-- What a program is sure to do that answers. -/
theorem Ensures.of_answer {a : α} {s' : σ} (h : m.run.run s = (.ok a, s')) (hR : R s s')
    (hP : P a s') : Ensures R E m s P := by
  refine ⟨?_, fun b hb => ?_, fun e he => ?_⟩
  · rw [h]
    exact hR
  · rw [h] at hb ⊢
    obtain rfl := Except.ok.inj hb
    exact hP
  · rw [h] at he
    cases he

/-- What a program is sure to do that stops. -/
theorem Ensures.of_error {e : ε} {s' : σ} (h : m.run.run s = (.error e, s')) (hR : R s s')
    (hE : E e) : Ensures R E m s P := by
  refine ⟨?_, fun a ha => ?_, fun e' he => ?_⟩
  · rw [h]
    exact hR
  · rw [h] at ha
    cases ha
  · rw [h] at he
    obtain rfl := Except.error.inj he
    exact hE

theorem Ensures.conseq (h : Ensures R E m s P) (hE : ∀ e, E e → E' e)
    (hP : ∀ a s', R s s' → P a s' → P' a s') : Ensures R E' m s P' :=
  ⟨h.moves, fun a ha => hP a _ h.moves (h.answer a ha), fun e he => hE e (h.error e he)⟩

theorem Ensures.ite {p : Prop} [Decidable p] (ht : p → Ensures R E m s P)
    (hf : ¬ p → Ensures R E m' s P) : Ensures R E (if p then m else m') s P := by
  split
  · exact ht ‹_›
  · exact hf ‹_›

/-- The state changes. -/
theorem Ensures.change {f : σ → σ} {P : PUnit → σ → Prop} (hR : R s (f s)) (h : P ⟨⟩ (f s)) :
    Ensures R E (modify f : ExceptT ε (StateM σ) PUnit) s P := .of_answer rfl hR h

section Rules

variable [IsPreorder σ R]

theorem Ensures.ret {a : α} (h : P a s) : Ensures R E (pure a) s P := .of_answer rfl (refl s) h

theorem Ensures.raise {e : ε} (h : E e) :
    Ensures R E (throw e : ExceptT ε (StateM σ) α) s P := .of_error rfl (refl s) h

/-- The state is read. -/
theorem Ensures.read {P : σ → σ → Prop} (h : P s s) :
    Ensures R E (get : ExceptT ε (StateM σ) σ) s P := .of_answer rfl (refl s) h

/-- **One program after another.** -/
theorem Ensures.bind (hm : Ensures R E m s P)
    (hk : ∀ a s', R s s' → P a s' → Ensures R E (k a) s' Q) : Ensures R E (m >>= k) s Q := by
  obtain ⟨hmoves, hanswer, herror⟩ := hm
  have hrun := run_bind m k s
  generalize m.run.run s = r at hmoves hanswer herror hrun
  obtain ⟨e | a, s'⟩ := r
  · exact .of_error hrun hmoves (herror e rfl)
  · obtain ⟨hmoves', hanswer', herror'⟩ := hk a s' hmoves (hanswer a rfl)
    refine ⟨?_, ?_, ?_⟩ <;> rw [hrun]
    · exact IsTrans.trans _ _ _ hmoves hmoves'
    · exact hanswer'
    · exact herror'

end Rules
