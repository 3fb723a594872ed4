import Nezumi.Lib.Escape

/-!
# Texts in SQL literals (`common/utils.c`)

A text that goes into a quoted literal of a request is escaped first.

* `escapeOf` is the switch of `mysql_escape_string`: the second byte of a pair.
* `mysqlEscapeString` is the function of the same name. It checks, before each byte, that the bytes
  written stay within twice the length.
* `sqlValue` is what the database reads a pair as: the letters that the function writes, and `b` and
  `t`. Any other byte stands for itself.
* `mysqlEscapeString_spec`: the room is enough, and what is written is the spelling of the text.
-/

namespace Nezumi

/-- `escape` of a byte, `none` where it stays 0. -/
def escapeOf (b : UInt8) : Option UInt8 :=
  if b = 0 then some 48
  else if b = 10 then some 110
  else if b = 13 then some 114
  else if b = 92 then some 92
  else if b = 39 then some 39
  else if b = 34 then some 34
  else if b = 26 then some 90
  else none

/-- What has been written, and whether the room did not do. -/
structure EscapedText where
  written : List UInt8
  overflow : Bool
  deriving DecidableEq

/-- The loop of `mysql_escape_string` over what is left of `from`. `room` is `to_end - to_start`, and
`written` what stands between `to_start` and `to`. -/
def escapeLoop (room : ℕ) : (left : List UInt8) → (written : List UInt8) → EscapedText
  | [], written => ⟨written, false⟩
  | b :: left, written =>
    match escapeOf b with
    | some escape =>
      if room < written.length + 2 then ⟨written, true⟩
      else escapeLoop room left (written ++ [92, escape])
    | none =>
      if room < written.length + 1 then ⟨written, true⟩
      else escapeLoop room left (written ++ [b])

/-- `mysql_escape_string`: the bytes written in front of the terminating one, and the number that is
returned, `~0` where the room did not do. -/
def mysqlEscapeString (text : List UInt8) : List UInt8 × UInt64 :=
  let e := escapeLoop (2 * text.length) text []
  (e.written, if e.overflow then ~~~0 else UInt64.ofNat e.written.length)

/-! ## What the database reads -/

/-- The byte that a pair stands for. -/
def sqlValue (c : UInt8) : UInt8 :=
  if c = 48 then 0
  else if c = 110 then 10
  else if c = 114 then 13
  else if c = 90 then 26
  else if c = 98 then 8
  else if c = 116 then 9
  else c

/-- The text of an escaped one. -/
def sqlUnescape (s : List UInt8) : List UInt8 := Escape.decode 92 sqlValue s

/-- The bytes that are not part of a pair. -/
def sqlBare (s : List UInt8) : List UInt8 := Escape.bare 92 s

/-- The text of a literal up to its closing quote, and what stands behind the quote. -/
def sqlLiteral (quote : UInt8) (s : List UInt8) : Option (List UInt8 × List UInt8) :=
  Escape.readQuoted 92 sqlValue quote s

theorem escape_lawful : Escape.Lawful 92 escapeOf sqlValue where
  mark_coded := by decide
  value_code := by
    intro b c h
    unfold escapeOf at h
    split_ifs at h with h0 h1 h2 h3 h4 h5 h6
    all_goals
      obtain rfl := Option.some.inj h
      subst_vars
      rfl

/-- With room for two bytes for each that is left, the loop writes the spelling of what is left. -/
theorem escapeLoop_eq {room : ℕ} {left written : List UInt8}
    (h : written.length + 2 * left.length ≤ room) :
    escapeLoop room left written = ⟨written ++ Escape.encode 92 escapeOf left, false⟩ := by
  induction left generalizing written with
  | nil => rw [escapeLoop, Escape.encode_nil, List.append_nil]
  | cons b left ih =>
    rw [List.length_cons] at h
    unfold escapeLoop
    split
    · rename_i escape hescape
      have hroom : (written ++ [92, escape]).length + 2 * left.length ≤ room := by
        rw [List.length_append]
        show written.length + 2 + 2 * left.length ≤ room
        omega
      rw [if_neg (by omega), ih hroom, Escape.encode_cons_some hescape, List.append_assoc]
      rfl
    · rename_i hescape
      have hroom : (written ++ [b]).length + 2 * left.length ≤ room := by
        rw [List.length_append]
        show written.length + 1 + 2 * left.length ≤ room
        omega
      rw [if_neg (by omega), ih hroom, Escape.encode_cons_none hescape, List.append_assoc]
      rfl

/-- **`mysql_escape_string` writes the spelling of the text**, and never runs out of room. -/
theorem mysqlEscapeString_spec (text : List UInt8) :
    mysqlEscapeString text =
      (Escape.encode 92 escapeOf text,
        UInt64.ofNat (Escape.encode 92 escapeOf text).length) := by
  unfold mysqlEscapeString
  rw [escapeLoop_eq (by simp), List.nil_append]
  rfl

/-- **Escaped texts are safe in a literal.** For every text: the bytes written are at most two for
each byte of the text, and the number returned is theirs; there is no quote, no backslash and no NUL
outside the pairs, nor any NUL in them; the text reads back; another text is escaped differently;
and a literal of the escaped text is closed by the quote behind it only, whatever follows. -/
theorem mysqlEscapeString_safe (text : List UInt8) :
    (mysqlEscapeString text).1.length ≤ 2 * text.length ∧
      (mysqlEscapeString text).2 = UInt64.ofNat (mysqlEscapeString text).1.length ∧
      39 ∉ sqlBare (mysqlEscapeString text).1 ∧ 34 ∉ sqlBare (mysqlEscapeString text).1 ∧
      92 ∉ sqlBare (mysqlEscapeString text).1 ∧ 0 ∉ (mysqlEscapeString text).1 ∧
      sqlUnescape (mysqlEscapeString text).1 = text ∧
      (∀ other, (mysqlEscapeString other).1 = (mysqlEscapeString text).1 → other = text) ∧
      ∀ rest, sqlLiteral 39 ((mysqlEscapeString text).1 ++ 39 :: rest) = some (text, rest) ∧
        sqlLiteral 34 ((mysqlEscapeString text).1 ++ 34 :: rest) = some (text, rest) := by
  have hbare : ∀ b, escapeOf b ≠ none → b ∉ sqlBare (Escape.encode 92 escapeOf text) :=
    fun b hb hmem => hb (Escape.code_of_mem_bare escape_lawful hmem)
  have hcode : ∀ b, escapeOf b ≠ some 0 := by
    intro b
    unfold escapeOf
    split_ifs <;> decide
  simp only [mysqlEscapeString_spec]
  refine ⟨Escape.length_encode_le text, trivial, hbare 39 (by decide), hbare 34 (by decide),
    hbare 92 (by decide), Escape.notMem_encode (by decide) (by decide) hcode text,
    Escape.decode_encode escape_lawful text, fun other h => ?_, fun rest => ⟨?_, ?_⟩⟩
  · exact Escape.encode_injective escape_lawful h
  · exact Escape.readQuoted_encode escape_lawful (by decide) (by decide) text rest
  · exact Escape.readQuoted_encode escape_lawful (by decide) (by decide) text rest

end Nezumi
