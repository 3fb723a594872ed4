import Mathlib.Data.List.Basic

/-!
# Texts with escapes

A text is spelled so that some of its letters are written as a pair: a mark, and the code of the
letter. The mark itself is one of these letters.

* `encode`, `decode`: the spelling of a text, and the text that is spelled.
* `bare`: the letters that stand outside the pairs of a spelling.
* `readQuoted`: the text up to the first quote outside the pairs, and what stands behind it.
* `Lawful`: what relates the codes to the letters they stand for.
* `decode_encode`, `encode_injective`, `readQuoted_encode`: a spelling reads back, tells its text
  and ends at its own quote only.
-/

namespace Escape

variable {α : Type*} (mark : α) (code : α → Option α) (value : α → α)

/-- A letter in a spelling. -/
def encodeOne (a : α) : List α :=
  match code a with
  | some c => [mark, c]
  | none => [a]

def encode (s : List α) : List α := s.flatMap (encodeOne mark code)

section Reading

variable [DecidableEq α]

/-- The text of a spelling. A mark with nothing behind it stands for itself. -/
def decode : List α → List α
  | [] => []
  | [a] => [a]
  | a :: c :: r => if a = mark then value c :: decode r else a :: decode (c :: r)

/-- The letters outside the pairs. -/
def bare : List α → List α
  | [] => []
  | [a] => [a]
  | a :: c :: r => if a = mark then bare r else a :: bare (c :: r)

/-- The text in front of a quote, and what stands behind the quote. -/
def readQuoted (quote : α) : List α → Option (List α × List α)
  | [] => none
  | [a] => if a = quote then some ([], []) else none
  | a :: c :: r =>
    if a = mark then (readQuoted quote r).map fun p => (value c :: p.1, p.2)
    else if a = quote then some ([], c :: r)
    else (readQuoted quote (c :: r)).map fun p => (a :: p.1, p.2)

end Reading

/-- The mark has a code, and a code is read as the letter it stands for. -/
structure Lawful : Prop where
  mark_coded : code mark ≠ none
  value_code : ∀ {a c}, code a = some c → value c = a

section Spelling

variable {mark code value} {a c quote : α} {s t r : List α}

@[simp] theorem encode_nil : encode mark code [] = [] := rfl

theorem encode_cons : encode mark code (a :: s) = encodeOne mark code a ++ encode mark code s := rfl

theorem encode_cons_some (h : code a = some c) :
    encode mark code (a :: s) = mark :: c :: encode mark code s := by
  rw [encode_cons, encodeOne, h]
  rfl

theorem encode_cons_none (h : code a = none) :
    encode mark code (a :: s) = a :: encode mark code s := by
  rw [encode_cons, encodeOne, h]
  rfl

theorem length_encodeOne_le : (encodeOne mark code a).length ≤ 2 := by
  unfold encodeOne
  split <;> simp

/-- A spelling is at most twice as long as its text. -/
theorem length_encode_le (s : List α) : (encode mark code s).length ≤ 2 * s.length := by
  induction s with
  | nil => simp
  | cons a s ih =>
    have hone : (encodeOne mark code a).length ≤ 2 := length_encodeOne_le
    rw [encode_cons, List.length_append, List.length_cons]
    omega

/-- A letter that has a code and is not a code stands in no spelling. -/
theorem notMem_encode (ha : code a ≠ none) (hmark : a ≠ mark) (hcode : ∀ b, code b ≠ some a)
    (s : List α) : a ∉ encode mark code s := by
  unfold encode encodeOne
  rw [List.mem_flatMap]
  rintro ⟨b, -, hb⟩
  split at hb
  · rename_i c hc
    simp only [List.mem_cons, List.not_mem_nil, or_false] at hb
    rcases hb with rfl | rfl
    · exact hmark rfl
    · exact hcode b hc
  · rename_i hc
    rw [List.mem_singleton.mp hb] at ha
    exact ha hc

theorem Lawful.ne_mark (h : Lawful mark code value) (ha : code a = none) : a ≠ mark := by
  rintro rfl
  exact h.mark_coded ha

variable [DecidableEq α]

theorem decode_pair : decode mark value (mark :: c :: r) = value c :: decode mark value r :=
  if_pos rfl

theorem decode_cons (ha : a ≠ mark) : decode mark value (a :: r) = a :: decode mark value r := by
  cases r with
  | nil => rfl
  | cons c r => exact if_neg ha

theorem bare_pair : bare mark (mark :: c :: r) = bare mark r := if_pos rfl

theorem bare_cons (ha : a ≠ mark) : bare mark (a :: r) = a :: bare mark r := by
  cases r with
  | nil => rfl
  | cons c r => exact if_neg ha

theorem readQuoted_pair : readQuoted mark value quote (mark :: c :: r) =
    (readQuoted mark value quote r).map fun p => (value c :: p.1, p.2) :=
  if_pos rfl

theorem readQuoted_quote (h : quote ≠ mark) :
    readQuoted mark value quote (quote :: r) = some ([], r) := by
  cases r with
  | nil => exact if_pos rfl
  | cons c r => exact (if_neg h).trans (if_pos rfl)

theorem readQuoted_cons (hmark : a ≠ mark) (hquote : a ≠ quote) :
    readQuoted mark value quote (a :: r) =
      (readQuoted mark value quote r).map fun p => (a :: p.1, p.2) := by
  cases r with
  | nil => exact if_neg hquote
  | cons c r => exact (if_neg hmark).trans (if_neg hquote)

/-- **A spelling reads back.** -/
theorem decode_encode (h : Lawful mark code value) (s : List α) :
    decode mark value (encode mark code s) = s := by
  induction s with
  | nil => rfl
  | cons a s ih =>
    cases hc : code a with
    | none => rw [encode_cons_none hc, decode_cons (h.ne_mark hc), ih]
    | some c => rw [encode_cons_some hc, decode_pair, h.value_code hc, ih]

theorem encode_injective (h : Lawful mark code value) :
    Function.Injective (encode mark code) := by
  intro s t heq
  rw [← decode_encode h s, heq, decode_encode h]

/-- Outside the pairs there are letters without a code only. -/
theorem code_of_mem_bare (h : Lawful mark code value) (ha : a ∈ bare mark (encode mark code s)) :
    code a = none := by
  induction s with
  | nil => cases ha
  | cons b s ih =>
    cases hc : code b with
    | none =>
      rw [encode_cons_none hc, bare_cons (h.ne_mark hc), List.mem_cons] at ha
      rcases ha with rfl | ha
      · exact hc
      · exact ih ha
    | some c =>
      rw [encode_cons_some hc, bare_pair] at ha
      exact ih ha

/-- **A spelling between quotes ends at the quote behind it**, whatever follows. -/
theorem readQuoted_encode (h : Lawful mark code value) (hquote : code quote ≠ none)
    (hmark : quote ≠ mark) (s r : List α) :
    readQuoted mark value quote (encode mark code s ++ quote :: r) = some (s, r) := by
  induction s with
  | nil => exact readQuoted_quote hmark
  | cons a s ih =>
    cases hc : code a with
    | none =>
      have hne : a ≠ quote := by
        rintro rfl
        exact hquote hc
      rw [encode_cons_none hc, List.cons_append, readQuoted_cons (h.ne_mark hc) hne, ih]
      rfl
    | some c =>
      rw [encode_cons_some hc, List.cons_append, List.cons_append, readQuoted_pair, ih,
        h.value_code hc]
      rfl

end Spelling

end Escape
