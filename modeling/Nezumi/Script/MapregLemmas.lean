import Nezumi.Script.Mapreg

/-!
# Lines of the file of permanent variables (`map/script.c`)

* `linesOfFile_flatMap`: the lines of the variables are read one after another; `linesOfFile_fits`
  says which come of one that fits into the buffer.
* `readReg_body`: a line in order reads as its variable.
* `readReg_prefix`, `readValue_back`: what a part of a line reads as.
-/

namespace Nezumi

open Decimal

/-! ## Lines -/

section Lines

variable {body rest file c : List UInt8}

/-- All lines of a file. -/
def linesOfFile (file : List UInt8) : List (List UInt8) := fgetsLines file.length file

theorem fgetsLine_short (h : 10 ∉ body) (hlen : body.length ≤ 1022) :
    fgetsLine (body ++ 10 :: rest) = body ++ [10] := by
  have htake : (body ++ 10 :: rest).take 1023 = body ++ 10 :: rest.take (1022 - body.length) := by
    rw [List.take_append, List.take_of_length_le (by omega),
      show 1023 - body.length = (1022 - body.length) + 1 by omega, List.take_succ_cons]
  have hwhile : (body ++ 10 :: rest.take (1022 - body.length)).takeWhile (· ≠ 10) = body := by
    rw [List.takeWhile_append_of_pos fun b hb => by
      simp only [ne_eq, decide_not, Bool.not_eq_eq_eq_not, Bool.not_true, decide_eq_false_iff_not]
      rintro rfl
      exact h hb]
    simp
  unfold fgetsLine
  rw [htake, hwhile]
  dsimp only
  rw [if_pos (by simp)]

theorem fgetsLine_long (h : 10 ∉ body) (hlen : 1023 ≤ body.length) :
    fgetsLine (body ++ rest) = body.take 1023 := by
  have htake : (body ++ rest).take 1023 = body.take 1023 := by
    rw [List.take_append, show 1023 - body.length = 0 by omega, List.take_zero, List.append_nil]
  have hwhile : (body.take 1023).takeWhile (· ≠ 10) = body.take 1023 := by
    rw [List.takeWhile_eq_self_iff]
    intro b hb
    simp only [ne_eq, decide_not, Bool.not_eq_eq_eq_not, Bool.not_true, decide_eq_false_iff_not]
    rintro rfl
    exact h (List.mem_of_mem_take hb)
  unfold fgetsLine
  rw [htake, hwhile]
  dsimp only
  rw [if_neg (lt_irrefl _)]

theorem length_fgetsLine_pos (b : UInt8) (file : List UInt8) :
    0 < (fgetsLine (b :: file)).length := by
  unfold fgetsLine
  dsimp only
  rw [List.take_succ_cons, List.takeWhile_cons]
  split
  · split <;> simp
  · simp

theorem length_fgetsLine_le (file : List UInt8) :
    (fgetsLine file).length ≤ file.length ∧ (fgetsLine file).length ≤ 1023 := by
  have hwhile := (List.takeWhile_sublist (l := file.take 1023) (· ≠ (10 : UInt8))).length_le
  have htake := List.length_take_le 1023 file
  have htake' : (file.take 1023).length ≤ file.length := by rw [List.length_take]; omega
  unfold fgetsLine
  dsimp only
  split
  · rw [List.length_append, List.length_singleton]
    omega
  · omega

theorem fgetsLines_congr {n m : ℕ} (hn : file.length ≤ n) (hm : file.length ≤ m) :
    fgetsLines n file = fgetsLines m file := by
  induction n generalizing m file with
  | zero =>
    obtain rfl := List.eq_nil_of_length_eq_zero (by omega : file.length = 0)
    cases m <;> rfl
  | succ n ih =>
    cases file with
    | nil => cases m <;> rfl
    | cons b file =>
      cases m with
      | zero => cases hm
      | succ m =>
        have hpos := length_fgetsLine_pos b file
        unfold fgetsLines
        congr 1
        refine ih ?_ ?_ <;> rw [List.length_drop, List.length_cons] <;>
          rw [List.length_cons] at hn hm <;> omega

theorem linesOfFile_eq (h : file ≠ []) :
    linesOfFile file = fgetsLine file :: linesOfFile (file.drop (fgetsLine file).length) := by
  obtain ⟨b, file, rfl⟩ := List.exists_cons_of_ne_nil h
  have hpos := length_fgetsLine_pos b file
  conv_lhs => unfold linesOfFile
  rw [List.length_cons, fgetsLines]
  congr 1
  refine fgetsLines_congr ?_ le_rfl
  rw [List.length_drop, List.length_cons]
  omega

/-- A line that fits is read as one. -/
theorem linesOfFile_short (h : 10 ∉ body) (hlen : body.length ≤ 1022) :
    linesOfFile (body ++ 10 :: rest) = (body ++ [10]) :: linesOfFile rest := by
  rw [linesOfFile_eq (by simp), fgetsLine_short h hlen]
  congr 2
  rw [show body ++ 10 :: rest = body ++ [10] ++ rest by simp, List.drop_left]

/-- Of one that does not, the first part is read. -/
theorem linesOfFile_long (h : 10 ∉ body) (hlen : 1023 ≤ body.length) :
    linesOfFile (body ++ 10 :: rest) =
      body.take 1023 :: linesOfFile (body.drop 1023 ++ 10 :: rest) := by
  rw [linesOfFile_eq (by simp), fgetsLine_long h hlen]
  congr 2
  rw [List.length_take, min_eq_left hlen, List.drop_append, show 1023 - body.length = 0 by omega,
    List.drop_zero]

/-- No line goes on behind a line's end. -/
theorem linesOfFile_append (h : 10 ∉ body) :
    linesOfFile (body ++ 10 :: rest) = linesOfFile (body ++ [10]) ++ linesOfFile rest := by
  induction hn : body.length using Nat.strong_induction_on generalizing body with
  | _ n ih =>
    rcases Nat.lt_or_ge body.length 1023 with hlt | hge
    · rw [linesOfFile_short h (by omega), linesOfFile_short h (by omega)]
      rfl
    · have hdrop : 10 ∉ body.drop 1023 := fun hmem => h (List.mem_of_mem_drop hmem)
      rw [linesOfFile_long h hge, linesOfFile_long h hge,
        ih (body.drop 1023).length (by rw [List.length_drop]; omega) hdrop rfl, List.cons_append]

theorem linesOfFile_flatMap {vs : List Reg} (h : ∀ v ∈ vs, 10 ∉ v.body) :
    linesOfFile (vs.flatMap fun v => v.body ++ [10]) =
      vs.flatMap fun v => linesOfFile (v.body ++ [10]) := by
  induction vs with
  | nil => rfl
  | cons v vs ih =>
    rw [List.flatMap_cons, List.flatMap_cons, List.append_assoc, List.singleton_append,
      linesOfFile_append (h v (by simp)), ih fun v hv => h v (by simp [hv])]

theorem length_of_mem_linesOfFile (hc : c ∈ linesOfFile file) :
    c.length ≤ file.length ∧ c.length ≤ 1023 := by
  induction hn : file.length using Nat.strong_induction_on generalizing file with
  | _ n ih =>
    rcases eq_or_ne file [] with rfl | hne
    · cases hc
    rw [linesOfFile_eq hne] at hc
    obtain ⟨b, file, rfl⟩ := List.exists_cons_of_ne_nil hne
    have hpos := length_fgetsLine_pos b file
    rcases List.mem_cons.mp hc with rfl | hc
    · rw [← hn]
      exact length_fgetsLine_le _
    · rw [List.length_cons] at hn
      have hrec := ih _ (by rw [List.length_drop, List.length_cons]; omega) hc rfl
      rw [List.length_drop, List.length_cons] at hrec
      rw [← hn]
      omega

/-- What fits is read as one line, with its end or, if that does not fit, an empty line after it. -/
theorem linesOfFile_fits (h : 10 ∉ body) (hlen : body.length ≤ 1023) :
    linesOfFile (body ++ [10]) = [body ++ [10]] ∨ linesOfFile (body ++ [10]) = [body, [10]] := by
  rcases Nat.lt_or_ge body.length 1023 with hlt | hge
  · exact .inl (linesOfFile_short h (by omega))
  · right
    rw [linesOfFile_long h hge, List.take_of_length_le hlen, List.drop_of_length_le hlen]
    rfl

end Lines

/-! ## Reading a line -/

section Reading

variable {name r e line : List UInt8} {i : UInt8} {v : Reg}

/-- What may stand behind a line: its end, or nothing. -/
def IsEnd (e : List UInt8) : Prop := e = [] ∨ e = [10]

theorem IsEnd.noDigit (he : IsEnd e) : NoDigit e := by
  rcases he with rfl | rfl
  · exact fun b hb => by cases hb
  · rintro b ⟨⟩
    rfl

theorem index_read (i : UInt8) :
    (Int32.ofInt (max (-2 ^ 63) (min (i.toNat : ℤ) (2 ^ 63 - 1)))).toUInt32.toUInt8 = i := by
  have hi := i.toNat_lt
  rw [min_eq_left (by omega), max_eq_right (by omega)]
  rw [show Int32.ofInt (i.toNat : ℤ) = Int32.ofNat i.toNat from rfl]
  apply UInt8.toNat_inj.mp
  simp

theorem int_read (v : Int32) :
    Int32.ofInt (max (-2 ^ 63) (min v.toInt (2 ^ 63 - 1))) = v := by
  have h1 := v.le_toInt
  have h2 := v.toInt_lt
  rw [min_eq_left (by omega), max_eq_right (by omega), Int32.ofInt_toInt]

theorem scanD_ofInt (v : Int32) (hr : NoDigit r) : scanD (ofInt v.toInt ++ r) = some (v, r) := by
  unfold scanD
  rw [scanInt_ofInt _ hr, Option.map_some]
  dsimp only
  rw [int_read]

/-- The first comma, of those that the format looks at. -/
theorem takeWhile_comma (h : 44 ∉ name) (hlen : name.length ≤ 255) :
    ((name ++ 44 :: r).take 255).takeWhile (· ≠ 44) = name := by
  have hall : ∀ b ∈ name, (decide (b ≠ 44)) = true := by
    intro b hb
    rw [decide_eq_true_eq]
    rintro rfl
    exact h hb
  rw [List.take_append, List.take_of_length_le hlen, List.takeWhile_append_of_pos hall]
  rcases Nat.lt_or_ge name.length 255 with hlt | hge
  · rw [show 255 - name.length = (254 - name.length) + 1 by omega, List.take_succ_cons]
    simp
  · rw [show 255 - name.length = 0 by omega]
    simp

/-- **A name and its index.** -/
theorem scanIndexed_eq (hne : name ≠ []) (h : 44 ∉ name) (hlen : name.length ≤ 255) (i : UInt8)
    (r : List UInt8) : scanIndexed (name ++ 44 :: (ofNat i.toNat ++ 9 :: r)) =
      some (name, i, r.dropWhile isSpace) := by
  have hdigit : NoDigit (9 :: r) := by
    rintro b ⟨⟩
    rfl
  unfold scanIndexed
  dsimp only
  rw [takeWhile_comma h hlen, if_neg hne, List.drop_left]
  change (scanD (ofNat i.toNat ++ 9 :: r)).map _ = _
  unfold scanD
  rw [← ofInt_natCast, scanInt_ofInt _ hdigit, Option.map_some, Option.map_some]
  dsimp only
  rw [index_read, List.dropWhile_cons_of_pos (by decide)]

theorem scanIndexed_isSome (hne : (line.take 255).takeWhile (· ≠ 44) ≠ []) :
    (scanIndexed line).isSome = hasIndex line := by
  unfold scanIndexed hasIndex scanD
  dsimp only
  rw [if_neg hne]
  split
  · rw [Option.isSome_map, Option.isSome_map]
  · rfl

/-- The end of the line does not matter. -/
theorem hasIndex_append (body : List UInt8) (he : IsEnd e) :
    hasIndex (body ++ e) = hasIndex body := by
  rcases he with rfl | rfl
  · rw [List.append_nil]
  unfold hasIndex
  dsimp only
  by_cases hshort : body.length < 255 ∧ ∀ b ∈ body, decide (b ≠ 44) = true
  · -- A short body without a comma.
    obtain ⟨hlen, hall⟩ := hshort
    have hall' : ∀ b ∈ body ++ [10], decide (b ≠ 44) = true := by
      intro b hb
      rcases List.mem_append.mp hb with hb | hb
      · exact hall b hb
      · rw [List.mem_singleton.mp hb]
        decide
    rw [List.take_of_length_le (l := body ++ [10]) (by simp; omega),
      List.take_of_length_le (by omega), List.takeWhile_eq_self_iff.mpr hall,
      List.takeWhile_eq_self_iff.mpr hall', List.drop_length, List.drop_length]
  · have hbuf : ((body ++ [10]).take 255).takeWhile (· ≠ 44) =
        (body.take 255).takeWhile (· ≠ 44) := by
      rcases Nat.lt_or_ge body.length 255 with hlt | hge
      · rw [List.take_of_length_le (l := body ++ [10]) (by simp; omega),
          List.take_of_length_le (by omega), List.takeWhile_append, if_neg]
        intro hlen
        exact hshort ⟨hlt, List.takeWhile_eq_self_iff.mp
          ((List.takeWhile_prefix _).eq_of_length hlen)⟩
      · rw [List.take_append_of_le_length hge]
    have hle : ((body.take 255).takeWhile (· ≠ 44)).length ≤ body.length :=
      (List.takeWhile_sublist _).length_le.trans ((List.take_sublist _ _).length_le)
    rw [hbuf, List.drop_append_of_le_length hle]
    cases hdrop : body.drop ((body.take 255).takeWhile (· ≠ 44)).length with
    | nil => rfl
    | cons b r =>
      rw [List.cons_append]
      by_cases hb : b = 44
      · subst hb
        exact scanInt_isSome_append (by decide) (by decide) r
      · split
        · rename_i heq
          exact absurd (List.cons.inj heq).1 hb
        · split
          · rename_i heq
            exact absurd (List.cons.inj heq).1 hb
          · rfl

/-- **A name without an index.** -/
theorem scanPlain_eq (hne : name ≠ []) (h : 9 ∉ name) (r : List UInt8) :
    scanPlain (name ++ 9 :: r) = some (name, 0, r.dropWhile isSpace) := by
  have hall : ∀ b ∈ name, decide (b ≠ 9) = true := by
    intro b hb
    rw [decide_eq_true_eq]
    rintro rfl
    exact h hb
  have hbuf : (name ++ 9 :: r).takeWhile (· ≠ 9) = name := by
    rw [List.takeWhile_append_of_pos hall]
    simp
  unfold scanPlain
  dsimp only
  rw [hbuf, if_neg hne, List.drop_left, List.dropWhile_cons_of_pos (by decide)]

/-- The format for a name with an index reads the name. -/
theorem scanIndexed_name {buf : VarName} (h : scanIndexed line = some (buf, i, r)) :
    buf ≠ [] ∧ buf.length ≤ 255 ∧ 44 ∉ buf ∧ ∃ r, line = buf ++ 44 :: r := by
  unfold scanIndexed at h
  dsimp only at h
  split at h
  · cases h
  rename_i hne
  split at h
  swap
  · cases h
  rename_i r' hdrop
  obtain ⟨_, -, heq⟩ := Option.map_eq_some_iff.mp h
  obtain ⟨rfl, -⟩ := Prod.mk.inj heq
  refine ⟨hne, ?_, ?_, r', ?_⟩
  · exact (List.takeWhile_sublist _).length_le.trans (List.length_take_le 255 line)
  · intro hmem
    simpa using List.mem_takeWhile_imp hmem
  · rw [← hdrop]
    have hprefix : (line.take 255).takeWhile (· ≠ 44) <+: line :=
      (List.takeWhile_prefix _).trans (List.take_prefix _ _)
    exact (List.prefix_iff_eq_append.mp hprefix).symm

/-- And the other format. -/
theorem scanPlain_name {buf : VarName} (h : scanPlain line = some (buf, i, r)) :
    i = 0 ∧ buf = line.takeWhile (· ≠ 9) ∧ buf ≠ [] ∧
      r = (line.drop buf.length).dropWhile isSpace := by
  unfold scanPlain at h
  dsimp only at h
  split at h
  · cases h
  · rename_i hne
    cases h
    exact ⟨rfl, rfl, hne, rfl⟩

theorem scanIndexed_eq_none (h : hasIndex line = false) : scanIndexed line = none := by
  rcases eq_or_ne ((line.take 255).takeWhile (· ≠ 44)) [] with hnil | hne
  · unfold scanIndexed
    dsimp only
    rw [if_pos hnil]
  · rw [← Option.not_isSome_iff_eq_none, scanIndexed_isSome hne, h]
    decide

/-- The value that is read from the rest of a line. -/
def readValue (buf : VarName) (rest : List UInt8) : Option RegValue :=
  if buf.getLast? = some 36 then
    let str := rest.takeWhile fun b => b ≠ 10 && b ≠ 13
    if str = [] then none else some (.str str)
  else (scanD rest).map fun (v, _) => .int v

theorem readReg_eq (line : List UInt8) :
    readReg line = ((scanIndexed line).or (scanPlain line)).bind fun p =>
      (readValue p.1 p.2.2).map (Reg.mk p.1 p.2.1) := by
  unfold readReg readValue
  rcases (scanIndexed line).or (scanPlain line) with _ | ⟨buf, i, rest⟩
  · rfl
  · dsimp only [Option.bind_some]
    split
    · split <;> rfl
    · rw [Option.map_map]
      rfl

/-- The value behind a name that says its type. -/
theorem readValue_text (hv : v.Permanent) (he : IsEnd e)
    (hok : match v.value with
      | .int _ => True
      | .str s => (∀ b ∈ s.head?, isSpace b = false) ∧ 13 ∉ s) :
    readValue v.name ((v.value.text ++ e).dropWhile isSpace) = some v.value := by
  unfold readValue
  rcases hval : v.value with val | s
  · have hlast : v.name.getLast? ≠ some 36 := fun hlast => by
      obtain ⟨s, hs⟩ := hv.typed.mpr hlast
      rw [hval] at hs
      cases hs
    rw [if_neg hlast]
    unfold scanD
    rw [scanInt_dropWhile]
    change (scanD (ofInt val.toInt ++ e)).map _ = _
    rw [scanD_ofInt val he.noDigit]
    rfl
  · obtain ⟨hne, hnl, -⟩ := hv.str s hval
    rw [hval] at hok
    obtain ⟨hhead, hcr⟩ := hok
    rw [if_pos (hv.typed.mp ⟨s, hval⟩)]
    obtain ⟨b, s, rfl⟩ := List.exists_cons_of_ne_nil hne
    have hb := hhead b (by simp)
    have htake : (b :: s ++ e).takeWhile (fun b => b ≠ 10 && b ≠ 13) = b :: s := by
      rw [List.takeWhile_append_of_pos]
      · rcases he with rfl | rfl <;> simp
      · intro c hc
        have h10 : c ≠ 10 := fun h => hnl (h ▸ hc)
        have h13 : c ≠ 13 := fun h => hcr (h ▸ hc)
        simp [h10, h13]
    have hdrop : (b :: s ++ e).dropWhile isSpace = b :: s ++ e := by
      rw [List.cons_append, List.dropWhile_cons_of_neg (by simp [hb])]
    dsimp only [RegValue.text]
    rw [hdrop, htake, if_neg hne]

/-- **A line in order reads as its variable.** -/
theorem readReg_body (hv : v.Permanent) (hok : v.LineOk) (he : IsEnd e) :
    readReg (v.body ++ e) = some v := by
  obtain ⟨-, -, hname, hval⟩ := hok
  have hne : v.name ≠ [] := fun hnil => by
    have := hv.dollar
    rw [hnil] at this
    cases this
  have hvalue := readValue_text hv he hval
  rw [readReg_eq]
  by_cases hi : v.index = 0
  · rw [if_pos hi] at hname
    have hbody : v.body ++ e = v.name ++ 9 :: (v.value.text ++ e) := by
      unfold Reg.body
      rw [if_pos hi, List.append_assoc, List.cons_append]
    rw [scanIndexed_eq_none ((hasIndex_append v.body he).trans hname.2), hbody,
      scanPlain_eq hne hname.1]
    simp only [Option.none_or, Option.bind_some, hvalue, Option.map_some, ← hi]
  · rw [if_neg hi] at hname
    have hbody : v.body ++ e =
        v.name ++ 44 :: (ofNat v.index.toNat ++ 9 :: (v.value.text ++ e)) := by
      unfold Reg.body
      rw [if_neg hi]
      simp
    rw [hbody, scanIndexed_eq hne hname.1 hname.2]
    simp only [Option.some_or, Option.bind_some, hvalue, Option.map_some]

theorem readReg_newline : readReg [10] = none := by decide

/-! ## What a part of a line reads as -/

variable {u w : Reg} {d : List UInt8}

/-- A name without a tab, a comma and a line's end. -/
def PlainName (name : VarName) : Prop := 9 ∉ name ∧ 10 ∉ name ∧ 44 ∉ name

instance (name : VarName) : Decidable (PlainName name) := inferInstanceAs (Decidable (_ ∧ _))

/-- What stands in a line before the value. -/
def Reg.label (v : Reg) : List UInt8 :=
  if v.index = 0 then v.name ++ [9] else v.name ++ 44 :: (ofNat v.index.toNat ++ [9])

theorem body_eq_label (v : Reg) : v.body = v.label ++ v.value.text := by
  unfold Reg.body Reg.label
  split <;> simp

/-- The rest of a line that holds a value is not empty. -/
theorem readValue_nil (buf : VarName) : readValue buf [] = none := by
  unfold readValue
  split <;> rfl

/-- A prefix ends in the first part or goes on in the second. -/
theorem prefix_append_cons {a b c : List UInt8} {x : UInt8} (h : c <+: a ++ x :: b) :
    c <+: a ∨ ∃ d, d <+: b ∧ c = a ++ x :: d := by
  rcases List.prefix_or_prefix_of_prefix h (List.prefix_append a (x :: b)) with h | ⟨d, rfl⟩
  · exact .inl h
  · rcases List.prefix_cons_iff.mp ((List.prefix_append_right_inj a).mp h) with rfl | ⟨d, rfl, hd⟩
    · exact .inl (by simp)
    · exact .inr ⟨d, hd, rfl⟩

theorem takeWhile_tab {a b : List UInt8} (h : 9 ∉ a) :
    (a ++ 9 :: b).takeWhile (· ≠ 9) = a := by
  rw [List.takeWhile_append_of_pos fun c hc => by
    rw [decide_eq_true_eq]
    rintro rfl
    exact h hc]
  simp

/-- A line cut within the name has no value. -/
theorem readReg_of_prefix_name (hplain : PlainName u.name) (hc : c <+: u.name) :
    readReg c = none := by
  obtain ⟨htab, -, hcomma⟩ := hplain
  have htab' : 9 ∉ c := fun h => htab (hc.subset h)
  have hindexed : scanIndexed c = none := by
    rcases hscan : scanIndexed c with _ | ⟨buf, i, r⟩
    · rfl
    · obtain ⟨-, -, -, r', rfl⟩ := scanIndexed_name hscan
      exact absurd (hc.subset (by simp)) hcomma
  rw [readReg_eq, hindexed, Option.none_or]
  rcases hscan : scanPlain c with _ | ⟨buf, i, r⟩
  · rfl
  · obtain ⟨-, rfl, -, rfl⟩ := scanPlain_name hscan
    have hall : c.takeWhile (· ≠ 9) = c := List.takeWhile_eq_self_iff.mpr fun b hb => by
      rw [decide_eq_true_eq]
      rintro rfl
      exact htab' hb
    rw [hall, List.drop_length]
    simp only [Option.bind_some, List.dropWhile_nil, readValue_nil, Option.map_none]

/-- What a part of a line reads as, if it is the variable's own name that it reads. -/
def OwnRead (u w : Reg) (c : List UInt8) : Prop :=
  w.name = u.name ∧ w.index = u.index ∧
    (if u.index = 0 then scanIndexed c = none else u.name.length ≤ 255) ∧
    ∃ d, d <+: u.value.text ++ [10] ∧ c = u.label ++ d ∧
      readValue u.name (d.dropWhile isSpace) = some w.value

theorem readReg_prefix_plain (hplain : PlainName u.name) (hi : u.index = 0)
    (hc : c <+: u.body ++ [10]) (hread : readReg c = some w) : 9 ∈ w.name ∨ OwnRead u w c := by
  have hbody : u.body ++ [10] = u.name ++ 9 :: (u.value.text ++ [10]) := by
    unfold Reg.body
    rw [if_pos hi, List.append_assoc, List.cons_append]
  rw [hbody] at hc
  rcases prefix_append_cons hc with hc | ⟨d, hd, rfl⟩
  · rw [readReg_of_prefix_name hplain hc] at hread
    cases hread
  obtain ⟨htab, -, hcomma⟩ := hplain
  rw [readReg_eq] at hread
  rcases hscan : scanIndexed (u.name ++ 9 :: d) with _ | ⟨buf, i, r⟩
  · -- The name ends with the first tab.
    right
    rw [hscan, Option.none_or] at hread
    rcases hplain : scanPlain (u.name ++ 9 :: d) with _ | ⟨buf, i, r⟩
    · rw [hplain] at hread
      cases hread
    obtain ⟨rfl, hbuf, -, rfl⟩ := scanPlain_name hplain
    rw [takeWhile_tab htab] at hbuf
    subst hbuf
    rw [hplain, List.drop_left, List.dropWhile_cons_of_pos (by decide)] at hread
    obtain ⟨value, hvalue, rfl⟩ := Option.map_eq_some_iff.mp hread
    refine ⟨rfl, hi.symm, ?_, d, hd, ?_, hvalue⟩
    · rw [if_pos hi, hscan]
    · unfold Reg.label
      rw [if_pos hi]
      simp
  · -- A comma behind it makes the name longer.
    left
    obtain ⟨-, -, -, r', hline⟩ := scanIndexed_name hscan
    rw [hscan, Option.some_or] at hread
    obtain ⟨value, -, rfl⟩ := Option.map_eq_some_iff.mp hread
    rcases List.append_eq_append_iff.mp hline with ⟨a, hbuf, ha⟩ | ⟨a, hname, ha⟩
    · rcases a with _ | ⟨b, a⟩
      · simp at ha
      · rw [List.cons_append] at ha
        dsimp only
        rw [hbuf, ← (List.cons.inj ha).1]
        simp
    · rcases a with _ | ⟨b, a⟩
      · simp at ha
      · rw [List.cons_append] at ha
        rw [hname, ← (List.cons.inj ha).1] at hcomma
        simp at hcomma

theorem append_comma_inj {a b d r : List UInt8} (ha : 44 ∉ a) (hb : 44 ∉ b)
    (h : a ++ 44 :: d = b ++ 44 :: r) : a = b ∧ d = r := by
  rcases List.append_eq_append_iff.mp h with ⟨t, rfl, ht⟩ | ⟨t, rfl, ht⟩
  all_goals
    rcases t with _ | ⟨c, t⟩
    · simp at ht
      simp [ht]
    · rw [List.cons_append] at ht
      obtain ⟨rfl, -⟩ := List.cons.inj ht
      simp at ha hb

theorem readReg_prefix_index (hplain : PlainName u.name) (hi : u.index ≠ 0)
    (hc : c <+: u.body ++ [10]) (hread : readReg c = some w) : 44 ∈ w.name ∨ OwnRead u w c := by
  have hbody : u.body ++ [10] =
      u.name ++ 44 :: (ofNat u.index.toNat ++ 9 :: (u.value.text ++ [10])) := by
    unfold Reg.body
    rw [if_neg hi]
    simp
  rw [hbody] at hc
  rcases prefix_append_cons hc with hc | ⟨d, hd, rfl⟩
  · rw [readReg_of_prefix_name hplain hc] at hread
    cases hread
  obtain ⟨htab, -, hcomma⟩ := hplain
  rw [readReg_eq] at hread
  rcases hscan : scanIndexed (u.name ++ 44 :: d) with _ | ⟨buf, i, r⟩
  · -- Without the index, the comma belongs to the name.
    left
    rw [hscan, Option.none_or] at hread
    rcases hplain : scanPlain (u.name ++ 44 :: d) with _ | ⟨buf, i, r⟩
    · rw [hplain] at hread
      cases hread
    obtain ⟨-, hbuf, -, -⟩ := scanPlain_name hplain
    rw [hplain] at hread
    obtain ⟨value, -, rfl⟩ := Option.map_eq_some_iff.mp hread
    have hall : ∀ b ∈ u.name, decide (b ≠ 9) = true := by
      intro b hb
      rw [decide_eq_true_eq]
      rintro rfl
      exact htab hb
    dsimp only
    rw [hbuf, List.takeWhile_append_of_pos hall]
    simp
  · right
    obtain ⟨hne, hlen, hbuf, r', hline⟩ := scanIndexed_name hscan
    obtain ⟨rfl, -⟩ := append_comma_inj hcomma hbuf hline
    rcases prefix_append_cons hd with hd | ⟨d, hd, rfl⟩
    · -- Cut within the index.
      have hrest : r = [] := by
        unfold scanIndexed at hscan
        dsimp only at hscan
        rw [takeWhile_comma hcomma hlen, if_neg hne, List.drop_left] at hscan
        change (scanD d).map _ = _ at hscan
        obtain ⟨⟨_, r⟩, hnum, heq⟩ := Option.map_eq_some_iff.mp hscan
        obtain ⟨-, hr⟩ := Prod.mk.inj (Prod.mk.inj heq).2
        obtain ⟨⟨z, r''⟩, hint, heq⟩ := Option.map_eq_some_iff.mp hnum
        have hdigits : ∀ b ∈ d, isDigit b := fun b hb => isDigit_of_mem_ofNat (hd.subset hb)
        have hnil : d ≠ [] := by
          rintro rfl
          cases hint
        have := scanInt_digits (r := []) hdigits hnil (by simp [NoDigit])
        rw [List.append_nil, hint] at this
        obtain ⟨-, rfl⟩ := Prod.mk.inj (Option.some.inj this)
        obtain ⟨-, rfl⟩ := Prod.mk.inj heq
        exact hr.symm
      subst hrest
      rw [hscan] at hread
      simp [readValue_nil] at hread
    · have hd := (List.prefix_cons_inj 9).mp ((List.prefix_append_right_inj _).mp hd)
      rw [scanIndexed_eq hne hcomma hlen] at hread
      obtain ⟨value, hvalue, rfl⟩ := Option.map_eq_some_iff.mp hread
      refine ⟨rfl, rfl, ?_, d, hd, ?_, hvalue⟩
      · rw [if_neg hi]
        exact hlen
      · unfold Reg.label
        rw [if_neg hi]
        simp

/-- **What a part of a line reads as**: the variable's own name, or a name that is not plain. -/
theorem readReg_prefix (hplain : PlainName u.name) (hc : c <+: u.body ++ [10])
    (hread : readReg c = some w) : ¬ PlainName w.name ∨ OwnRead u w c := by
  by_cases hi : u.index = 0
  · exact (readReg_prefix_plain hplain hi hc hread).imp_left fun h hw => hw.1 h
  · exact (readReg_prefix_index hplain hi hc hread).imp_left fun h hw => hw.2.2 h

/-- A value that reads back is there as a whole, and does not start with a blank. -/
theorem readValue_back (hv : v.Permanent) (hd : d <+: v.value.text ++ [10])
    (h : readValue v.name (d.dropWhile isSpace) = some v.value) :
    v.value.text.length ≤ d.length ∧
      match v.value with
      | .int _ => True
      | .str s => (∀ b ∈ s.head?, isSpace b = false) ∧ 13 ∉ s := by
  unfold readValue at h
  rcases hval : v.value with val | s
  · refine ⟨?_, trivial⟩
    have hlast : v.name.getLast? ≠ some 36 := fun hlast => by
      obtain ⟨s, hs⟩ := hv.typed.mpr hlast
      rw [hval] at hs
      cases hs
    rw [if_neg hlast, hval] at h
    rw [hval] at hd
    by_contra hlt
    rw [not_le] at hlt
    dsimp only [RegValue.text] at hd hlt
    have htake : d = (ofInt val.toInt).take d.length := by
      rcases prefix_append_cons hd with hd | ⟨d', -, rfl⟩
      · exact List.prefix_iff_eq_take.mp hd
      · simp at hlt
    obtain ⟨⟨x, r⟩, hscan, hx⟩ := Option.map_eq_some_iff.mp h
    have hx' : x = val := RegValue.int.inj hx
    subst hx'
    obtain ⟨⟨z, r'⟩, hint, heq⟩ := Option.map_eq_some_iff.mp hscan
    rw [scanInt_dropWhile, htake] at hint
    have hne : x.toInt ≠ 0 := fun h0 => hv.int x hval (Int32.toInt_inj.mp h0)
    have hsmall := scanInt_take_ofInt hne hlt hint
    have h1 := x.le_toInt
    have h2 := x.toInt_lt
    have hz := congrArg Int32.toInt (Prod.mk.inj heq).1
    rw [min_eq_left (by omega), max_eq_right (by omega),
      Int32.toInt_ofInt_of_le (by omega) (by omega)] at hz
    omega
  · rw [if_pos (hv.typed.mp ⟨s, hval⟩), hval] at h
    dsimp only at h
    split at h
    · cases h
    rename_i hne
    have hs : (d.dropWhile isSpace).takeWhile (fun b => b ≠ 10 && b ≠ 13) = s :=
      RegValue.str.inj (Option.some.inj h)
    refine ⟨?_, ?_, ?_⟩
    · rw [← hs]
      exact (List.takeWhile_sublist _).length_le.trans (List.dropWhile_sublist _).length_le
    · rw [← hs]
      rcases hdrop : d.dropWhile isSpace with _ | ⟨b, r⟩
      · simp
      · intro c hc
        rw [List.takeWhile_cons] at hc
        split at hc
        · obtain rfl := Option.some.inj hc
          have := List.head?_dropWhile_not isSpace d
          rw [hdrop] at this
          simpa using this
        · cases hc
    · rw [← hs]
      intro hmem
      simpa using List.mem_takeWhile_imp hmem

end Reading

end Nezumi
