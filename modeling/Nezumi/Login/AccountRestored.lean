import Nezumi.Login.AccountText

/-!
# What a saved account reads as (`login/login.c`, text-file build)

* `AccountRecord.Held`: the records that the server holds. `AccountRecord.Kept`: the texts that do
  not start with a blank, and the numbers and lengths that a line can carry.
* `AccountRecord.restored`: an account as it comes back. Only an account that is prohibited to log
  in keeps its message, a state is at most `255`, and a memo `-` is none.
* `sscanf_accountToStr`, `readAccountRegs_text`: what the two parts of a line read as.
* `initDb_accountToStr`: the line of an account is read as the account.
-/

namespace Nezumi

open Decimal Scanf

/-! ## Fields -/

section Fields

variable {f : List Directive} {r s : List UInt8} {b : UInt8}

theorem isSpace_tab : isSpace 9 = true := rfl

theorem sscanf_textField (hne : s ≠ []) (htab : (9 : UInt8) ∉ s) (hr : NoSpace r) :
    sscanf (.upto 9 :: .space :: f) (s ++ 9 :: r) = (sscanf f r).add (.text s) := by
  rw [sscanf_upto hne htab, sscanf_space isSpace_tab hr]

theorem sscanf_intField {v : Int32} (hv : v ≠ Int32.minValue) (hr : NoSpace r) :
    sscanf (.int :: .space :: f) (int2string v ++ 9 :: r) = (sscanf f r).add (.int v) := by
  rw [int2string_of_ne hv, sscanf_int (isInt_toInt v) (noDigit_cons.mpr rfl),
    sscanf_space isSpace_tab hr, Int32.ofInt_toInt]

theorem sscanf_longField {v : Int64} (hv : v ≠ Int64.minValue) (hr : NoSpace r) :
    sscanf (.long :: .space :: f) (lint2string v ++ 9 :: r) = (sscanf f r).add (.long v) := by
  rw [lint2string_of_ne hv, sscanf_long (isLong_toInt v) (noDigit_cons.mpr rfl),
    sscanf_space isSpace_tab hr, Int64.ofInt_toInt]

theorem sscanf_charField (hr : NoSpace r) :
    sscanf (.char :: .space :: f) ([b] ++ 9 :: r) = (sscanf f r).add (.char b) := by
  rw [List.singleton_append, sscanf_char, sscanf_space isSpace_tab hr]

theorem noSpace_int2string {v : Int32} (hv : v ≠ Int32.minValue) : NoSpace (int2string v ++ r) := by
  rw [int2string_of_ne hv]
  exact noSpace_ofInt v.toInt

theorem noSpace_lint2string {v : Int64} (hv : v ≠ Int64.minValue) :
    NoSpace (lint2string v ++ r) := by
  rw [lint2string_of_ne hv]
  exact noSpace_ofInt v.toInt

theorem printable_ofInt (z : ℤ) : Printable (ofInt z) := by
  have hdigit {c : UInt8} (hc : isDigit c = true) : 32 ≤ c ∧ c ≠ 127 := by
    obtain ⟨hlo, hhi⟩ := isDigit_iff.mp hc
    refine ⟨UInt8.le_iff_toNat_le.mpr (le_trans (by decide) hlo), ?_⟩
    rintro rfl
    exact absurd hhi (by decide)
  intro c hc
  unfold ofInt at hc
  split at hc
  · obtain rfl | hc := List.mem_cons.mp hc
    · decide
    · exact hdigit (isDigit_of_mem_ofNat hc)
  · exact hdigit (isDigit_of_mem_ofNat hc)

theorem readable_dashed (h : NoSpace s) : Readable (dashed s) := by
  unfold dashed
  split
  · exact ⟨List.cons_ne_nil _ _, noSpace_cons.mpr rfl⟩
  · exact ⟨‹_›, h⟩

theorem printable_dashed (h : Printable s) : Printable (dashed s) := by
  unfold dashed
  split
  · decide
  · exact h

/-- A text without control characters is stored as it is. -/
theorem removeControlChars_printable (h : Printable s) : removeControlChars s = s := by
  induction s with
  | nil => rfl
  | cons b s ih =>
    obtain ⟨hb, hs⟩ := List.forall_mem_cons.mp h
    have hzero : b ≠ 0 := by
      rintro rfl
      exact absurd hb.1 (by decide)
    have hlt : ¬ (b < 32 ∨ b = 127) := not_or.mpr ⟨UInt8.not_lt.mpr hb.1, hb.2⟩
    rw [removeControlChars, if_neg hzero, if_neg hlt, ih hs]

theorem fieldOf_bytes {n : ℕ} {t : CStr n} (h : Printable t.bytes) : fieldOf n t.bytes = t := by
  unfold fieldOf
  rw [removeControlChars_printable h, CStr.ofField_self]

end Fields

/-! ## Lines of a file -/

section Lines

variable {size : ℕ} {body rest : List UInt8}

theorem takeWhile_noEnd (h : (10 : UInt8) ∉ body) : body.takeWhile (· ≠ 10) = body :=
  List.takeWhile_eq_self_iff.mpr fun b hb => by simpa using ne_of_mem_of_not_mem hb h

/-- A line that fits. -/
theorem fgets_line (h : (10 : UInt8) ∉ body) (hlen : body.length + 1 < size) :
    fgets size (body ++ 10 :: rest) = body ++ [10] := by
  have htake : (body ++ 10 :: rest).take (size - 1) =
      body ++ 10 :: rest.take (size - 2 - body.length) := by
    rw [List.take_append, List.take_of_length_le (by omega),
      show size - 1 - body.length = (size - 2 - body.length) + 1 by omega, List.take_succ_cons]
  unfold fgets
  rw [htake, takeWhile_upto h, if_pos (by simp)]

/-- A line that fills the buffer. -/
theorem fgets_full (h : (10 : UInt8) ∉ body) (hlen : body.length + 1 = size) :
    fgets size (body ++ rest) = body := by
  have htake : (body ++ rest).take (size - 1) = body := by
    rw [List.take_append, List.take_of_length_le (by omega),
      show size - 1 - body.length = 0 by omega, List.take_zero, List.append_nil]
  unfold fgets
  rw [htake, takeWhile_noEnd h, if_neg (lt_irrefl _)]

theorem fgetsLoop_cons {n : ℕ} {file : List UInt8} (h : file ≠ []) : fgetsLoop size (n + 1) file =
    fgets size file :: fgetsLoop size n (file.drop (fgets size file).length) := if_neg h

theorem fgetsLoop_nil (size n : ℕ) : fgetsLoop size n [] = [] := by
  cases n <;> rfl

end Lines

/-! ## Accounts -/

/-- The records that the server holds, with the GM levels and the number of variables that it
reads. -/
structure AccountRecord.Held (a : AccountRecord) : Prop where
  id : 0 ≤ a.accountId.toInt ∧ a.accountId.toInt ≤ endAccountNum
  sex : a.sex ≤ 2
  userid : Printable a.userid.bytes ∧ Readable a.userid.bytes
  pass : Printable a.pass.bytes ∧ Readable a.pass.bytes
  lastlogin : Printable a.lastlogin.bytes ∧ Readable a.lastlogin.bytes
  logincount : 0 ≤ a.logincount
  email : Printable a.email.bytes ∧ eMailCheck a.email
  errorMessage : Printable a.errorMessage.bytes
  lastIp : Printable a.lastIp.bytes ∧ Readable a.lastIp.bytes
  memo : ∀ memo ∈ a.memo, Printable memo ∧ memo ≠ [] ∧ memo.length ≤ memoMax
  level : a.level ≤ 99
  regs : a.accountReg2.length ≤ accountReg2Num ∧
    ∀ r ∈ a.accountReg2, Printable r.str.bytes ∧ r.str.bytes ≠ [] ∧ 44 ∉ r.str.bytes

/-- What a line can carry besides. -/
structure AccountRecord.Kept (a : AccountRecord) : Prop where
  email : NoSpace a.email.bytes
  errorMessage : NoSpace a.errorMessage.bytes
  memo : ∀ memo ∈ a.memo, NoSpace memo ∧ memo.length ≠ 2
  times : a.connectUntilTime ≠ Int64.minValue ∧ a.banUntilTime ≠ Int64.minValue
  regs : ∀ r ∈ a.accountReg2, NoSpace r.str.bytes ∧ r.value ≠ Int32.minValue.toBitVec
  length : (accountToStr true a).length < lineSize

/-- An account as it comes back. -/
def AccountRecord.restored (a : AccountRecord) : AccountRecord :=
  { a with
    state := if 255 < a.state then 100 else a.state
    errorMessage := if a.state = 7 ∧ a.errorMessage.bytes ≠ [] then a.errorMessage else cstr 19 "-"
    memo := if a.memo = some [45] then none else a.memo }

section Restored

variable {a : AccountRecord}

/-- The variables of a line. -/
def regsText (l : List GlobalReg) : List UInt8 := l.flatMap accountRegText

/-- The values of a line. -/
def AccountRecord.values (a : AccountRecord) : List Value :=
  [.int a.accountId, .text a.userid.bytes, .text a.pass.bytes, .text (dashed a.lastlogin.bytes),
    .char (sexLetter a.sex), .int a.logincount, .int a.state.toInt32, .text (dashed a.email.bytes),
    .text (dashed a.errorMessage.bytes), .long a.connectUntilTime, .text (dashed a.lastIp.bytes),
    .text (memoText a.memo), .long a.banUntilTime, .int (Int32.ofNat a.level.toNat)]

theorem noSpace_regsText {l : List GlobalReg}
    (h : ∀ r ∈ l, r.str.bytes ≠ [] ∧ NoSpace r.str.bytes) : NoSpace (regsText l) := by
  unfold regsText
  cases l with
  | nil => exact noSpace_nil
  | cons r l =>
    obtain ⟨hne, hspace⟩ := h r List.mem_cons_self
    rw [List.flatMap_cons, accountRegText, if_neg hne, List.append_assoc]
    exact hspace.append hne

theorem readable_memoText (hheld : a.Held) (hkept : a.Kept) : Readable (memoText a.memo) ∧
    Printable (memoText a.memo) := by
  cases hmemo : a.memo with
  | none => exact ⟨⟨List.cons_ne_nil _ _, noSpace_cons.mpr rfl⟩, by decide⟩
  | some memo =>
    obtain ⟨hprint, hne, hlen⟩ := hheld.memo memo hmemo
    rw [memoText, List.take_of_length_le hlen]
    exact ⟨⟨hne, (hkept.memo memo hmemo).1⟩, hprint⟩

/-- The numbers of a line are none that cannot be written. -/
theorem held_numbers (hheld : a.Held) : a.accountId ≠ Int32.minValue ∧
    a.logincount ≠ Int32.minValue ∧ a.state.toInt32 ≠ Int32.minValue ∧
    Int32.ofNat a.level.toNat ≠ Int32.minValue := by
  refine ⟨fun h => ?_, fun h => ?_, fun h => ?_, fun h => ?_⟩
  · have hid := hheld.id.1
    rw [h] at hid
    exact absurd hid (by decide)
  · have hcount := hheld.logincount
    rw [h] at hcount
    exact absurd hcount (by decide)
  · have hlo := a.state.minValue_le_toInt
    have hint := Int16.toInt_toInt32 a.state
    rw [h] at hint
    rw [← hint] at hlo
    exact absurd hlo (by decide)
  · have hlt := a.level.toNat_lt
    have hnat : (Int32.ofNat a.level.toNat).toInt = a.level.toNat :=
      Int32.toInt_ofNat_of_lt (by omega)
    rw [h] at hnat
    have hmin : Int32.minValue.toInt = -2 ^ 31 := rfl
    omega

/-- **What the fields of a line read as.** -/
theorem sscanf_accountToStr (hheld : a.Held) (hkept : a.Kept) :
    sscanf layout14 (accountToStr true a) = (a.values, some (regsText a.accountReg2)) := by
  obtain ⟨hid, hcount, hstate, hlevel⟩ := held_numbers hheld
  have hregs := noSpace_regsText fun r hr => ⟨(hheld.regs.2 r hr).2.1, (hkept.regs r hr).1⟩
  have hlastlogin := readable_dashed hheld.lastlogin.2.2
  have hemail := readable_dashed hkept.email
  have herror := readable_dashed hkept.errorMessage
  have hip := readable_dashed hheld.lastIp.2.2
  obtain ⟨hmemo, hmemo'⟩ := readable_memoText hheld hkept
  have htext : accountToStr true a = int2string a.accountId ++ 9 :: (a.userid.bytes ++ 9 ::
      (a.pass.bytes ++ 9 :: (dashed a.lastlogin.bytes ++ 9 :: ([sexLetter a.sex] ++ 9 ::
      (int2string a.logincount ++ 9 :: (int2string a.state.toInt32 ++ 9 ::
      (dashed a.email.bytes ++ 9 :: (dashed a.errorMessage.bytes ++ 9 ::
      (lint2string a.connectUntilTime ++ 9 :: (dashed a.lastIp.bytes ++ 9 ::
      (memoText a.memo ++ 9 :: (lint2string a.banUntilTime ++ 9 ::
      (int2string (Int32.ofNat a.level.toNat) ++ 9 :: regsText a.accountReg2))))))))))))) := by
    simp [accountToStr, accountFields, regsText]
  have hformat : layout14 = .int :: .space :: .upto 9 :: .space :: .upto 9 :: .space :: .upto 9 ::
      .space :: .char :: .space :: .int :: .space :: .int :: .space :: .upto 9 :: .space ::
      .upto 9 :: .space :: .long :: .space :: .upto 9 :: .space :: .upto 9 :: .space ::
      .long :: .space :: .int :: .space :: [] := rfl
  rw [htext, hformat, sscanf_intField hid (hheld.userid.2.2.append hheld.userid.2.1),
    sscanf_textField hheld.userid.2.1 (tab_notMem hheld.userid.1)
      (hheld.pass.2.2.append hheld.pass.2.1),
    sscanf_textField hheld.pass.2.1 (tab_notMem hheld.pass.1) (hlastlogin.2.append hlastlogin.1),
    sscanf_textField hlastlogin.1 (tab_notMem (printable_dashed hheld.lastlogin.1)) ?_,
    sscanf_charField (noSpace_int2string hcount),
    sscanf_intField hcount (noSpace_int2string hstate),
    sscanf_intField hstate (hemail.2.append hemail.1),
    sscanf_textField hemail.1 (tab_notMem (printable_dashed hheld.email.1))
      (herror.2.append herror.1),
    sscanf_textField herror.1 (tab_notMem (printable_dashed hheld.errorMessage))
      (noSpace_lint2string hkept.times.1),
    sscanf_longField hkept.times.1 (hip.2.append hip.1),
    sscanf_textField hip.1 (tab_notMem (printable_dashed hheld.lastIp.1))
      (hmemo.2.append hmemo.1),
    sscanf_textField hmemo.1 (tab_notMem hmemo') (noSpace_lint2string hkept.times.2),
    sscanf_longField hkept.times.2 (noSpace_int2string hlevel), sscanf_intField hlevel hregs]
  · rfl
  · rw [List.singleton_append, noSpace_cons, sexLetter]
    split
    · rfl
    · split <;> rfl

/-- **What the variables of a line read as.** -/
theorem readAccountRegs_text (l : List GlobalReg) (hl : ∀ r ∈ l, Printable r.str.bytes ∧
    r.str.bytes ≠ [] ∧ 44 ∉ r.str.bytes ∧ NoSpace r.str.bytes ∧ r.value ≠ Int32.minValue.toBitVec)
    (f left n : ℕ) (p : List UInt8) (hf : l.length ≤ f) (hleft : l.length ≤ left)
    (hp : p.drop n = regsText l) : (readAccountRegs f left p n).1 = l := by
  induction l generalizing f left n p with
  | nil =>
    have hnil : p.drop n = [] := hp
    cases f with
    | zero => rfl
    | succ f =>
      cases left with
      | zero => rfl
      | succ left =>
        rw [readAccountRegs]
        dsimp only
        rw [hnil]
        rfl
  | cons r l ih =>
    obtain ⟨f, rfl⟩ : ∃ k, f = k + 1 := ⟨f - 1, by rw [List.length_cons] at hf; omega⟩
    obtain ⟨left, rfl⟩ : ∃ k, left = k + 1 := ⟨left - 1, by rw [List.length_cons] at hleft; omega⟩
    obtain ⟨⟨hprint, hne, hcomma, hspace, hvalue⟩, hrest⟩ := List.forall_mem_cons.mp hl
    have hvalue' : Int32.ofBitVec r.value ≠ Int32.minValue := fun h =>
      hvalue (congrArg Int32.toBitVec h)
    have hnext : NoSpace (regsText l) := noSpace_regsText fun r hr =>
      ⟨(hrest r hr).2.1, (hrest r hr).2.2.2.1⟩
    have htext : p.drop n = r.str.bytes ++ 44 :: (int2string (Int32.ofBitVec r.value) ++
        32 :: regsText l) := by
      rw [hp, regsText, List.flatMap_cons, accountRegText, if_neg hne]
      simp [regsText]
    have hscan : sscanf [.outside [9, 44], .lit 44, .int, .space] (p.drop n) =
        ([.text r.str.bytes, .int (Int32.ofBitVec r.value)], some (regsText l)) := by
      rw [htext, sscanf_outside hne ?_ (by decide), sscanf_lit, int2string_of_ne hvalue',
        sscanf_int (isInt_toInt _) (noDigit_cons.mpr rfl), sscanf_space rfl hnext,
        Int32.ofInt_toInt]
      · rfl
      · intro b hb
        simp only [List.mem_cons, List.not_mem_nil, or_false, not_or]
        exact ⟨fun h => tab_notMem hprint (h ▸ hb), fun h => hcomma (h ▸ hb)⟩
    have hdrop : (p.drop n).drop ((p.drop n).length - (regsText l).length) = regsText l := by
      have hsuffix := suffix_of_sscanf hscan
      obtain ⟨t, ht⟩ := hsuffix
      rw [← ht, List.length_append, Nat.add_sub_cancel, List.drop_left]
    rw [readAccountRegs]
    dsimp only
    rw [hscan]
    dsimp only
    rw [ih hrest f left _ (p.drop n) (by simpa using hf) (by simpa using hleft) hdrop,
      fieldOf_bytes hprint]
    rfl

/-- The account that the fields of a line make. -/
theorem tmpAccount_values (hheld : a.Held) :
    tmpAccount a.values = some ({ a.restored with memo := none, accountReg2 := [] },
      memoText a.memo) := by
  have hdashed {n : ℕ} {t : CStr n} (hne : t.bytes ≠ []) : dashed t.bytes = t.bytes := if_neg hne
  have hsex : ∀ sex : Fin 8, sex ≤ 2 → letterSex (sexLetter sex) = sex := by decide
  have huserid : a.userid.bytes.take 24 = a.userid.bytes := List.take_of_length_le a.userid.le
  have hemail : a.email.bytes ≠ [] := by
    intro hnil
    have hcheck := hheld.email.2
    unfold eMailCheck at hcheck
    rw [hnil] at hcheck
    cases hcheck
  have hvalid : (if a.email.bytes.length ≤ 40 ∧ eMailCheck a.email = true then a.email
      else cstr 40 "a@a.com") = a.email := if_pos ⟨a.email.le, hheld.email.2⟩
  have hmemo : removeControlChars (memoText a.memo) = memoText a.memo := by
    refine removeControlChars_printable ?_
    cases hmemo : a.memo with
    | none => decide
    | some memo => exact fun b hb => (hheld.memo memo hmemo).1 b (List.mem_of_mem_take hb)
  have hstate : (if 255 < a.state.toInt32 then (100 : Int16) else a.state.toInt32.toInt16) =
      if 255 < a.state then 100 else a.state := by
    have hlt : 255 < a.state.toInt32 ↔ 255 < a.state := by
      rw [Int32.lt_iff_toInt_lt, Int16.lt_iff_toInt_lt, Int16.toInt_toInt32]
      rfl
    rw [Int16.toInt16_toInt32]
    exact if_congr hlt rfl rfl
  have hseven : a.state.toInt32 = 7 ↔ a.state = 7 :=
    ⟨fun h => by rw [← Int16.toInt16_toInt32 a.state, h]; rfl, fun h => by rw [h]; rfl⟩
  have herror : (if removeControlChars (dashed a.errorMessage.bytes) = [] ∨
        a.state.toInt32 ≠ 7 then cstr 19 "-"
      else CStr.ofField 19 (removeControlChars (dashed a.errorMessage.bytes))) =
      if a.state = 7 ∧ a.errorMessage.bytes ≠ [] then a.errorMessage else cstr 19 "-" := by
    rw [removeControlChars_printable (printable_dashed hheld.errorMessage)]
    by_cases hempty : a.errorMessage.bytes = []
    · have hmark : (if dashed a.errorMessage.bytes = [] ∨ a.state.toInt32 ≠ 7 then cstr 19 "-"
          else CStr.ofField 19 (dashed a.errorMessage.bytes)) = cstr 19 "-" := by
        rw [dashed, if_pos hempty]
        split <;> rfl
      exact hmark.trans (if_neg fun h => h.2 hempty).symm
    · rw [hdashed hempty, CStr.ofField_self]
      by_cases hstate : a.state = 7
      · have hnot : ¬ (a.errorMessage.bytes = [] ∨ a.state.toInt32 ≠ 7) := by
          simp [hempty, hseven.mpr hstate]
        exact (if_neg hnot).trans (if_pos ⟨hstate, hempty⟩).symm
      · exact (if_pos (.inr fun h => hstate (hseven.mp h))).trans
          (if_neg fun h => hstate h.1).symm
  have hlevel : (if 99 < Int32.ofNat a.level.toNat then (99 : UInt8)
      else (Int32.ofNat a.level.toNat).toUInt32.toUInt8) = a.level := by
    have hle : a.level.toNat ≤ 99 := UInt8.le_iff_toNat_le.mp hheld.level
    have hnat : (Int32.ofNat a.level.toNat).toInt = a.level.toNat :=
      Int32.toInt_ofNat_of_lt (by omega)
    have h99 : (99 : Int32).toInt = 99 := rfl
    rw [if_neg (by rw [Int32.lt_iff_toInt_lt, hnat, h99]; omega)]
    change (UInt32.ofNat a.level.toNat).toUInt8 = a.level
    simp
  unfold AccountRecord.values tmpAccount readRest readCounts readLimits AccountRecord.restored
  dsimp only
  rw [if_pos hheld.logincount]
  dsimp only
  rw [huserid, hdashed hheld.lastlogin.2.1, hdashed hemail, hdashed hheld.lastIp.2.1,
    fieldOf_bytes hheld.userid.1, fieldOf_bytes hheld.pass.1, fieldOf_bytes hheld.lastlogin.1,
    fieldOf_bytes hheld.email.1, fieldOf_bytes hheld.lastIp.1, hsex _ hheld.sex, hstate, herror,
    hlevel, hmemo, CStr.ofField_self, hvalid]

theorem keptMemo_memoText (hheld : a.Held) (hkept : a.Kept) :
    keptMemo (memoText a.memo) = a.restored.memo := by
  unfold AccountRecord.restored
  dsimp only
  cases hmemo : a.memo with
  | none => rfl
  | some memo =>
    obtain ⟨-, hne, hlen⟩ := hheld.memo memo hmemo
    have htwo := (hkept.memo memo hmemo).2
    have hpos := List.length_pos_iff.mpr hne
    rw [memoText, List.take_of_length_le hlen, keptMemo, List.take_of_length_le hlen]
    by_cases hdash : memo = [45]
    · rw [hdash]
      rfl
    · have hlong : 2 < memo.length ∨ (memo.length = 1 ∧ memo.head? ≠ some 45) := by
        by_cases hone : memo.length = 1
        · refine .inr ⟨hone, fun hhead => hdash ?_⟩
          obtain ⟨b, rfl⟩ := List.length_eq_one_iff.mp hone
          rw [List.head?_cons] at hhead
          rw [Option.some.inj hhead]
        · exact .inl (by omega)
      rw [if_pos hlong, if_neg fun h => hdash (Option.some.inj h)]

/-- A line starts with a digit. -/
theorem accountToStr_digit (hheld : a.Held) :
    ∃ b s, accountToStr true a = b :: s ∧ isDigit b = true := by
  have hid := hheld.id.1
  have hfirst : int2string a.accountId <+: accountToStr true a := by
    rw [accountToStr, accountFields, List.cons_append, List.flatMap_cons]
    exact ((List.prefix_append _ _).trans (List.prefix_append _ _)).trans (List.prefix_append _ _)
  obtain ⟨s, hs⟩ := hfirst
  obtain ⟨b, t, hb⟩ := List.exists_cons_of_ne_nil (ofNat_ne_nil a.accountId.toInt.natAbs)
  rw [int2string_of_ne (held_numbers hheld).1, ofInt, if_neg (not_lt.mpr hid), hb,
    List.cons_append] at hs
  exact ⟨b, t ++ s, hs.symm, isDigit_of_mem_ofNat (hb ▸ List.mem_cons_self)⟩

/-- No line ends inside a line. -/
theorem accountToStr_noEnd (hheld : a.Held) (hkept : a.Kept) :
    ∀ b ∈ accountToStr true a, b ≠ 10 ∧ b ≠ 13 := by
  obtain ⟨hid, hcount, hstate, hlevel⟩ := held_numbers hheld
  have hprint {s : List UInt8} {b : UInt8} (hs : Printable s) (hb : b ∈ s) : b ≠ 10 ∧ b ≠ 13 := by
    constructor <;> rintro rfl <;> exact absurd (hs _ hb).1 (by decide)
  have hsex : Printable [sexLetter a.sex] := by
    unfold sexLetter
    split
    · decide
    · split <;> decide
  have hfields : ∀ s ∈ accountFields true a, Printable s := by
    unfold accountFields
    rw [if_pos rfl, int2string_of_ne hid, int2string_of_ne hcount, int2string_of_ne hstate,
      int2string_of_ne hlevel, lint2string_of_ne hkept.times.1, lint2string_of_ne hkept.times.2]
    simp only [List.cons_append, List.nil_append, List.forall_mem_cons, List.not_mem_nil,
      false_imp_iff, implies_true, and_true]
    exact ⟨printable_ofInt _, hheld.userid.1, hheld.pass.1, printable_dashed hheld.lastlogin.1,
      hsex, printable_ofInt _, printable_ofInt _, printable_dashed hheld.email.1,
      printable_dashed hheld.errorMessage, printable_ofInt _, printable_dashed hheld.lastIp.1,
      (readable_memoText hheld hkept).2, printable_ofInt _, printable_ofInt _⟩
  have hregs : ∀ r ∈ a.accountReg2, Printable (accountRegText r) := by
    intro r hr
    have hvalue : Int32.ofBitVec r.value ≠ Int32.minValue := fun h =>
      (hkept.regs r hr).2 (congrArg Int32.toBitVec h)
    unfold accountRegText
    split
    · exact fun b hb => by cases hb
    · rw [int2string_of_ne hvalue]
      intro b hb
      rw [List.mem_append, List.mem_cons, List.mem_append, List.mem_singleton] at hb
      obtain hb | rfl | hb | rfl := hb
      · exact (hheld.regs.2 r hr).1 b hb
      · decide
      · exact printable_ofInt _ b hb
      · decide
  intro b hb
  unfold accountToStr at hb
  rw [List.mem_append, List.mem_flatMap, List.mem_flatMap] at hb
  obtain ⟨s, hs, hb⟩ | ⟨r, hr, hb⟩ := hb
  · obtain hb | hb := List.mem_append.mp hb
    · exact hprint (hfields s hs) hb
    · obtain rfl := List.mem_singleton.mp hb
      decide
  · exact hprint (hregs r hr) hb

/-- The line of an account. -/
theorem readAccountLine_text {t : AccountTable} {line : List UInt8} (hheld : a.Held)
    (hkept : a.Kept) (hfresh : ∀ b ∈ t.authDat, b.accountId ≠ a.accountId ∧ b.userid ≠ a.userid)
    (hline : trimEnd line = accountToStr true a)
    (hstart : line.head? = (accountToStr true a).head?) :
    (readAccountLine t line).authDat = t.authDat ++ [a.restored] := by
  have hnot : ¬ (line.take 2 = [47, 47] ∨ line = [] ∨ line.head? = some 10 ∨
      line.head? = some 13) := by
    obtain ⟨b, s, htext, hb⟩ := accountToStr_digit hheld
    rw [htext, List.head?_cons] at hstart
    obtain ⟨s', rfl⟩ := List.head?_eq_some_iff.mp hstart
    rw [List.head?_cons, Option.some_inj, Option.some_inj]
    rintro (h | h | rfl | rfl)
    · obtain ⟨rfl, -⟩ := List.cons.inj h
      cases hb
    · cases h
    · cases hb
    · cases hb
  have hvalues : accountValues (accountToStr true a) =
      some (a.values, some (regsText a.accountReg2)) := by
    unfold accountValues
    rw [sscanf_accountToStr hheld hkept]
    rfl
  have hregs : (readAccountRegs ((accountToStr true a).length + accountReg2Num) accountReg2Num
      (accountToStr true a)
      ((accountToStr true a).length - (regsText a.accountReg2).length)).1 = a.accountReg2 := by
    refine readAccountRegs_text a.accountReg2 (fun r hr => ?_) _ _ _ _
      (hheld.regs.1.trans (Nat.le_add_left _ _)) hheld.regs.1 ?_
    · obtain ⟨hprint, hne, hcomma⟩ := hheld.regs.2 r hr
      exact ⟨hprint, hne, hcomma, (hkept.regs r hr).1, (hkept.regs r hr).2⟩
    · obtain ⟨u, hu⟩ := suffix_of_sscanf (sscanf_accountToStr hheld hkept)
      rw [← hu, List.length_append, Nat.add_sub_cancel, List.drop_left]
  unfold readAccountLine
  rw [if_neg hnot]
  dsimp only
  rw [hline, hvalues]
  dsimp only
  rw [tmpAccount_values hheld]
  dsimp only
  rw [if_pos ⟨hheld.id.2, hheld.id.1, hfresh⟩]
  unfold addAccountRecord
  dsimp only [Option.elim]
  rw [hregs, keptMemo_memoText hheld hkept]
  rfl

/-- **The line of an account is read as the account**, into any table that has neither its id nor
its name. -/
theorem initDb_accountToStr (t : AccountTable) (a : AccountRecord) (hheld : a.Held)
    (hkept : a.Kept)
    (hfresh : ∀ b ∈ t.authDat, b.accountId ≠ a.accountId ∧ b.userid ≠ a.userid) :
    (initDb t (accountToStr true a ++ [10])).authDat = t.authDat ++ [a.restored] := by
  have hend := accountToStr_noEnd hheld hkept
  have hnewline : (10 : UInt8) ∉ accountToStr true a := fun h => (hend 10 h).1 rfl
  obtain ⟨b, s, htext, -⟩ := accountToStr_digit hheld
  have hstart : (accountToStr true a ++ [10]).head? = (accountToStr true a).head? := by
    rw [htext]
    rfl
  have htrim : trimEnd (accountToStr true a) = accountToStr true a := by
    unfold trimEnd
    rw [List.rdropWhile_eq_self_iff]
    intro hne
    simp [hend _ (List.getLast_mem hne)]
  have hlength := hkept.length
  unfold initDb
  by_cases hfull : (accountToStr true a).length = lineSize - 1
  · have hlines : fgetsLoop lineSize (accountToStr true a ++ [10]).length
        (accountToStr true a ++ [10]) = [accountToStr true a, [10]] := by
      have hsize : (accountToStr true a).length + 1 = lineSize := by
        rw [hfull]
        rfl
      have hlast : fgets lineSize [10] = [10] := @fgets_line _ [] [] (by simp) (by simp [lineSize])
      obtain ⟨k, hk⟩ : ∃ k, (accountToStr true a).length = k + 1 := ⟨s.length, by rw [htext]; rfl⟩
      rw [List.length_append, List.length_singleton, fgetsLoop_cons (by simp),
        fgets_full hnewline hsize, List.drop_left, hk, fgetsLoop_cons (by simp), hlast,
        List.drop_length, fgetsLoop_nil]
    rw [hlines, List.foldl_cons, List.foldl_cons, List.foldl_nil]
    exact readAccountLine_text hheld hkept hfresh htrim rfl
  · have hlines : fgetsLoop lineSize (accountToStr true a ++ [10]).length
        (accountToStr true a ++ [10]) = [accountToStr true a ++ [10]] := by
      rw [List.length_append, List.length_singleton, fgetsLoop_cons (by simp),
        fgets_line hnewline (by omega), List.drop_length, fgetsLoop_nil]
    rw [hlines, List.foldl_cons, List.foldl_nil]
    exact readAccountLine_text hheld hkept hfresh (trimEnd_line hend) hstart

/-- A prohibited account with a memo and two variables. -/
def prohibitedAccount : AccountRecord where
  accountId := 2000005
  sex := 1
  userid := cstr 24 "bob x"
  pass := cstr 32 "pw"
  lastlogin := cstr 23 "2005-01-01 10:00:00"
  logincount := 3
  state := 7
  email := cstr 40 "bob@example.com"
  errorMessage := cstr 19 "2006-01-01"
  banUntilTime := -5
  connectUntilTime := 1000000000000
  lastIp := cstr 15 "127.0.0.1"
  memo := some (List.replicate 3 33)
  level := 60
  accountReg2 := [⟨cstr 32 "##VOTES", 7⟩, ⟨cstr 32 "##BONUS", -3⟩]

theorem prohibitedAccount_held : prohibitedAccount.Held where
  id := by decide
  sex := by decide
  userid := by decide
  pass := by decide
  lastlogin := by decide
  logincount := by decide
  email := by decide
  errorMessage := by decide
  lastIp := by decide
  memo := by decide
  level := by decide
  regs := by decide

theorem prohibitedAccount_kept : prohibitedAccount.Kept where
  email := by decide
  errorMessage := by decide
  memo := by decide
  times := by decide
  regs := by decide
  length := by decide +kernel

theorem initDb_prohibitedAccount :
    prohibitedAccount.Held ∧ prohibitedAccount.Kept ∧
      (initDb {} (accountToStr true prohibitedAccount ++ [10])).authDat = [prohibitedAccount] := by
  refine ⟨prohibitedAccount_held, prohibitedAccount_kept, ?_⟩
  rw [initDb_accountToStr {} prohibitedAccount prohibitedAccount_held prohibitedAccount_kept
    fun b hb => absurd hb List.not_mem_nil]
  decide

/-- An account keeps its message when the char-server changes its state, but only in memory. -/
def blockedAccount : AccountRecord := { prohibitedAccount with state := 5 }

theorem errorMessage_lost :
    ¬ ∀ (t : AccountTable) (a : AccountRecord), a.Held →
      (∀ b ∈ t.authDat, b.accountId ≠ a.accountId ∧ b.userid ≠ a.userid) →
      (initDb t (accountToStr true a ++ [10])).authDat = t.authDat ++ [a] := by
  intro h
  have hheld : blockedAccount.Held := { prohibitedAccount_held with }
  have hread := h {} blockedAccount hheld fun b hb => absurd hb List.not_mem_nil
  have hlost : (initDb {} (accountToStr true blockedAccount ++ [10])).authDat ≠
      [] ++ [blockedAccount] := by decide +kernel
  exact hlost hread

end Restored

end Nezumi
