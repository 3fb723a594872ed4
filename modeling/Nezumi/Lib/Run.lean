import Mathlib.Data.List.Basic

/-!
# Runs of a state machine

A machine is a step function `σ → ε → σ` over its events. `exec` is the state after a list of
events and `Meets` says that every step of a run meets a condition on its event and on the state
before it.

* `inv_exec`: what every step that meets the condition keeps, every run keeps.
* `meets_of_inv`, `meets_iff_of_inv`: what the invariant gives at a step, a run has at every step.
* `meets_iff_of_kept`: a condition that keeps an invariant is exact for a run where it is exact for
  a step.
* `meets_iff_of_assumed`: the same, for runs of which something is assumed.
* `meets_append`, `exec_append`: a run splits at any of its states.
* `Meets.mono`, `Meets.and`, `meets_of_forall`: how conditions weaken, and come together.
-/

namespace Run

variable {σ ε : Type*} {step : σ → ε → σ}

/-- The state after the events `es`, in order. -/
def exec (step : σ → ε → σ) (s : σ) (es : List ε) : σ := es.foldl step s

/-- Every step of the run of `es` from `s` meets `ok`. -/
def Meets (step : σ → ε → σ) (ok : σ → ε → Prop) : σ → List ε → Prop
  | _, [] => True
  | s, e :: es => ok s e ∧ Meets step ok (step s e) es

instance Meets.decidable {ok : σ → ε → Prop} [∀ s e, Decidable (ok s e)] :
    (s : σ) → (es : List ε) → Decidable (Meets step ok s es)
  | _, [] => .isTrue trivial
  | s, e :: es =>
    haveI : Decidable (Meets step ok (step s e) es) := Meets.decidable (step s e) es
    inferInstanceAs (Decidable (ok s e ∧ Meets step ok (step s e) es))

@[simp] theorem exec_nil (s : σ) : exec step s [] = s := rfl

@[simp] theorem exec_cons (s : σ) (e : ε) (es : List ε) :
    exec step s (e :: es) = exec step (step s e) es := rfl

theorem exec_append (s : σ) (es fs : List ε) :
    exec step s (es ++ fs) = exec step (exec step s es) fs := List.foldl_append

theorem meets_append {ok : σ → ε → Prop} {s : σ} {es fs : List ε} :
    Meets step ok s (es ++ fs) ↔ Meets step ok s es ∧ Meets step ok (exec step s es) fs := by
  induction es generalizing s with
  | nil => simp [Meets]
  | cons e es ih => simp [Meets, ih, and_assoc]

theorem Meets.mono {ok ok' : σ → ε → Prop} (h : ∀ s e, ok s e → ok' s e) {s : σ} {es : List ε}
    (hm : Meets step ok s es) : Meets step ok' s es := by
  induction es generalizing s with
  | nil => trivial
  | cons e es ih => exact ⟨h s e hm.1, ih hm.2⟩

theorem Meets.and {ok ok' : σ → ε → Prop} {s : σ} {es : List ε} (h : Meets step ok s es)
    (h' : Meets step ok' s es) : Meets step (fun s e => ok s e ∧ ok' s e) s es := by
  induction es generalizing s with
  | nil => trivial
  | cons e es ih => exact ⟨⟨h.1, h'.1⟩, ih h.2 h'.2⟩

theorem meets_of_forall {ok : σ → ε → Prop} (h : ∀ s e, ok s e) (s : σ) (es : List ε) :
    Meets step ok s es := by
  induction es generalizing s with
  | nil => trivial
  | cons e es ih => exact ⟨h s e, ih (step s e)⟩

/-- **The invariant rule.** What each step that meets the condition keeps, a run whose steps all
meet it keeps. -/
theorem inv_exec {I : σ → Prop} {ok : σ → ε → Prop}
    (hstep : ∀ s e, I s → ok s e → I (step s e)) {s : σ} {es : List ε} (hs : I s)
    (hm : Meets step ok s es) : I (exec step s es) := by
  induction es generalizing s with
  | nil => exact hs
  | cons e es ih => exact ih (hstep s e hs hm.1) hm.2

/-- What an invariant and the condition give at one step, they give at every step of a run. -/
theorem meets_of_inv {I : σ → Prop} {ok P : σ → ε → Prop}
    (hstep : ∀ s e, I s → ok s e → I (step s e)) (hP : ∀ s e, I s → ok s e → P s e)
    {s : σ} {es : List ε} (hs : I s) (hm : Meets step ok s es) : Meets step P s es := by
  induction es generalizing s with
  | nil => trivial
  | cons e es ih => exact ⟨hP s e hs hm.1, ih (hstep s e hs hm.1) hm.2⟩

/-- Where an invariant of every step makes two conditions the same, they are the same over runs. -/
theorem meets_iff_of_inv {I : σ → Prop} {P Q : σ → ε → Prop}
    (hstep : ∀ s e, I s → I (step s e)) (hPQ : ∀ s e, I s → (P s e ↔ Q s e)) {s : σ} {es : List ε}
    (hs : I s) : Meets step P s es ↔ Meets step Q s es :=
  ⟨meets_of_inv (fun s e hI _ => hstep s e hI) (fun s e hI => (hPQ s e hI).mp) hs,
    meets_of_inv (fun s e hI _ => hstep s e hI) (fun s e hI => (hPQ s e hI).mpr) hs⟩

/-- Where the condition keeps an invariant under which it is the same as a property, they are the
same over the runs of which something is assumed at every step. -/
theorem meets_iff_of_assumed {I : σ → Prop} {A ok P : σ → ε → Prop}
    (hstep : ∀ s e, I s → A s e → ok s e → I (step s e))
    (hP : ∀ s e, I s → A s e → (P s e ↔ ok s e)) {s : σ} {es : List ε} (hs : I s)
    (hA : Meets step A s es) : Meets step P s es ↔ Meets step ok s es := by
  induction es generalizing s with
  | nil => exact Iff.rfl
  | cons e es ih =>
    unfold Meets
    rw [hP s e hs hA.1]
    exact and_congr_right fun hok => ih (hstep s e hs hA.1 hok) hA.2

/-- Where the condition keeps an invariant under which it is the same as a property, they are the
same over runs. -/
theorem meets_iff_of_kept {I : σ → Prop} {ok P : σ → ε → Prop}
    (hstep : ∀ s e, I s → ok s e → I (step s e)) (hP : ∀ s e, I s → (P s e ↔ ok s e)) {s : σ}
    {es : List ε} (hs : I s) : Meets step P s es ↔ Meets step ok s es := by
  induction es generalizing s with
  | nil => exact Iff.rfl
  | cons e es ih =>
    unfold Meets
    rw [hP s e hs]
    exact and_congr_right fun hok => ih (hstep s e hs hok)

end Run
