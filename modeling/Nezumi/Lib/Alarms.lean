import Mathlib.Data.List.Sort
import Mathlib.Data.List.TakeWhile

/-!
# A stopwatch with alarms

A stopwatch runs, stops and is set, and gives an alarm at each time of a table that it passes.

* `Rising`: a table in the order of its times. `insertAlarm` puts an alarm behind those that are not
  later.
* `between`: the alarms of a table behind one value and not behind another. In a rising table they
  come right behind those before them (`filter_le_append`).
* `Watch`, `Watch.advance`, `Watch.start`, `Watch.stop`, `Watch.set`: the stopwatch. It does not run
  where there is no alarm to come.
-/

namespace Alarms

variable {α : Type*} (time : α → ℤ)

/-- The times do not fall. -/
def Rising (l : List α) : Prop := l.Pairwise fun a b => time a ≤ time b

/-- Puts an alarm before the first that is later. -/
def insertAlarm (a : α) (l : List α) : List α :=
  l.takeWhile (fun b => ¬time a < time b) ++ a :: l.dropWhile (fun b => ¬time a < time b)

/-- The alarms behind `v` and not behind `v'`. -/
def between (v v' : ℤ) (l : List α) : List α := l.filter fun a => v < time a ∧ time a ≤ v'

section Tables

variable {time} {a b : α} {l l' : List α} {v v' : ℤ}

theorem insertAlarm_perm : (insertAlarm time a l).Perm (a :: l) := by
  unfold insertAlarm
  refine List.perm_middle.trans ?_
  rw [List.takeWhile_append_dropWhile]

theorem Rising.tail (h : Rising time (a :: l)) : Rising time l := (List.pairwise_cons.mp h).2

theorem Rising.head_le (h : Rising time (a :: l)) (hb : b ∈ l) : time a ≤ time b :=
  (List.pairwise_cons.mp h).1 b hb

/-- What follows an alarm that is later is later as well. -/
theorem Rising.lt_of_mem_dropWhile (h : Rising time l)
    (hb : b ∈ l.dropWhile fun b => ¬time a < time b) : time a < time b := by
  induction l with
  | nil => cases hb
  | cons c l ih =>
    rw [List.dropWhile_cons] at hb
    split at hb
    · exact ih h.tail hb
    · rename_i hc
      have hlt : time a < time c := by simpa using hc
      rcases List.mem_cons.mp hb with rfl | hb
      · exact hlt
      · exact lt_of_lt_of_le hlt (h.head_le hb)

theorem Rising.insertAlarm (h : Rising time l) : Rising time (insertAlarm time a l) := by
  have htake : Rising time (l.takeWhile fun b => ¬time a < time b) :=
    h.sublist (List.takeWhile_sublist _)
  have hdrop : Rising time (l.dropWhile fun b => ¬time a < time b) :=
    h.sublist (List.dropWhile_sublist _)
  have hle : ∀ b ∈ l.takeWhile (fun b => ¬time a < time b), time b ≤ time a := fun b hb => by
    simpa using List.mem_takeWhile_imp hb
  refine List.pairwise_append.mpr ⟨htake, List.pairwise_cons.mpr ⟨fun b hb => ?_, hdrop⟩, ?_⟩
  · exact (h.lt_of_mem_dropWhile hb).le
  · intro b hb c hc
    rcases List.mem_cons.mp hc with rfl | hc
    · exact hle b hb
    · exact (hle b hb).trans (h.lt_of_mem_dropWhile hc).le

/-- There are no alarms behind a value that all are not behind. -/
theorem between_of_le (h : ∀ a ∈ l, time a ≤ v) : between time v v' l = [] := by
  refine List.filter_eq_nil_iff.mpr fun a ha => ?_
  have := h a ha
  simp only [decide_eq_true_eq]
  omega

/-- Up to a value, a rising table has what it has up to a lower one and what is between them. -/
theorem filter_le_append (h : Rising time l) (hle : v ≤ v') :
    l.filter (fun a => time a ≤ v') = l.filter (fun a => time a ≤ v) ++ between time v v' l := by
  induction l with
  | nil => rfl
  | cons a l ih =>
    have htail := ih h.tail
    unfold between at htail ⊢
    by_cases hv : time a ≤ v
    · rw [List.filter_cons_of_pos (by simp; omega), List.filter_cons_of_pos (by simpa using hv),
        List.filter_cons_of_neg (by simp; omega), htail]
      rfl
    · -- Nothing behind `a` is up to `v`.
      have hnone : l.filter (fun b => decide (time b ≤ v)) = [] :=
        List.filter_eq_nil_iff.mpr fun b hb => by
          have := h.head_le hb
          simp only [decide_eq_true_eq]
          omega
      rw [hnone, List.nil_append] at htail
      have hskip : (a :: l).filter (fun b => decide (time b ≤ v)) = [] := by
        rw [List.filter_cons_of_neg (by simpa using hv), hnone]
      rw [hskip, List.nil_append]
      by_cases hv' : time a ≤ v'
      · rw [List.filter_cons_of_pos (by simpa using hv'),
          List.filter_cons_of_pos (by simp; omega), htail]
      · rw [List.filter_cons_of_neg (by simpa using hv'),
          List.filter_cons_of_neg (by simp; omega), htail]

/-- Of a table whose first alarms are not behind `v`, the others give those behind it. -/
theorem between_drop {j : ℕ} (hle : ∀ a ∈ l.take j, time a ≤ v) :
    between time v v' l = between time v v' (l.drop j) := by
  conv_lhs => rw [← List.take_append_drop j l]
  unfold between
  rw [List.filter_append]
  have hnone : between time v v' (l.take j) = [] := between_of_le hle
  unfold between at hnone
  rw [hnone, List.nil_append]

end Tables

/-! ## The stopwatch -/

/-- A stopwatch: its value, whether it runs, and the alarms that it has given. -/
structure Watch (α : Type*) where
  value : ℤ := 0
  running : Bool := false
  passed : List α := []

namespace Watch

/-- Time passes. -/
def advance (l : List α) (d : ℕ) (w : Watch α) : Watch α :=
  if w.running then
    { w with value := w.value + d, passed := w.passed ++ between time w.value (w.value + d) l }
  else w

/-- It runs, if there is an alarm to come. -/
def start (l : List α) (w : Watch α) : Watch α :=
  { w with running := w.running || l.any fun a => w.value < time a }

def stop (w : Watch α) : Watch α := { w with running := false }

/-- Takes a value, and goes on if there is an alarm to come. -/
def set (l : List α) (v : ℤ) (w : Watch α) : Watch α :=
  { w with value := v, running := w.running && l.any fun a => v < time a }

variable {time} {l : List α} {w : Watch α} {d : ℕ}

theorem advance_of_stopped (h : w.running = false) : w.advance time l d = w := by
  simp [advance, h]

theorem advance_of_running (h : w.running = true) : w.advance time l d = { w with
    value := w.value + d
    passed := w.passed ++ between time w.value (w.value + d) l } := by
  simp [advance, h]

end Watch

end Alarms
