import Nezumi.Char.PacketLemmas

/-!
# Deletions (`char/char.c`)

* `removed_deleteFound`, `shifted_deleteFound`: `0x68` takes one row from the table and moves the
  indexes of every session with it.
* `Pends`: an entry of the ring designates the character that has been selected. `Pends.remove` says
  which entries a deletion leaves alone.
* `AccountLoop` is the invariant of the loop of `0x2730`; `accountLoop_end` is its result.
-/

namespace Nezumi

variable {s s' t : CharServer} {m m' : Chars} {fd : Fin fdSetsize} {i : Nat} {sd sd' : SessionData}

/-! ## One row -/

theorem rows_repairFound (t : CharServer) (i : Nat) : (repairFound t i).rows = t.rows := by
  unfold repairFound
  simp only
  split <;> rfl

theorem charIdCount_repairFound (t : CharServer) (i : Nat) :
    (repairFound t i).charIdCount = t.charIdCount := by
  unfold repairFound
  simp only
  split <;> rfl

theorem authFifo_repairFound (t : CharServer) (i : Nat) : (repairFound t i).authFifo = t.authFifo := by
  unfold repairFound
  simp only
  split <;> rfl

theorem charIdCount_charDivorce (s : CharServer) (i : Nat) :
    (charDivorce s i).charIdCount = s.charIdCount := by
  unfold charDivorce
  simp only
  split
  · split <;> rfl
  · rfl

theorem authFifo_charDivorce (s : CharServer) (i : Nat) : (charDivorce s i).authFifo = s.authFifo := by
  unfold charDivorce
  simp only
  split
  · split <;> rfl
  · rfl

/-- The last row is moved. -/
theorem agree_moveLast (t : CharServer) (i : Nat) :
    Pool.Agree (t.rows.swapRemove i) ⟨t.charNum - 1, (moveLast t i).character⟩ := by
  refine ⟨rfl, fun j hj => ?_⟩
  have hne : j ≠ t.charNum - 1 := by
    simp only [Pool.swapRemove, CharServer.rows] at hj
    omega
  simp only [Pool.swapRemove, CharServer.rows, CharServer.character, moveLast]
  by_cases hji : j = i
  · rw [hji] at hne ⊢
    simp [Function.update_of_ne hne]
  · simp [Function.update_of_ne hji, Function.update_of_ne hne, CharServer.character]

/-- The last row is dropped. -/
theorem agree_last (t : CharServer) :
    Pool.Agree (t.rows.swapRemove (t.charNum - 1)) ⟨t.charNum - 1, t.character⟩ := by
  refine ⟨rfl, fun j hj => ?_⟩
  have hne : j ≠ t.charNum - 1 := by
    simp only [Pool.swapRemove, CharServer.rows] at hj
    omega
  simp [Pool.swapRemove, CharServer.rows]

/-- A row of the table is deleted, and the last one moves there. -/
theorem removed_moveLast (hi : i < s.charNum)
    (hrows : s'.rows = ⟨s.charNum - 1, (moveLast (charDivorce s i) i).character⟩)
    (hcount : s'.charIdCount = s.charIdCount) : Removed s i s' := by
  refine ⟨hi, ?_, hcount⟩
  have hagree := agree_moveLast (charDivorce s i) i
  rw [charNum_charDivorce] at hagree
  rw [hrows]
  exact hagree

/-- The last row is deleted. -/
theorem removed_last (hi : i < s.charNum) (hlast : i = s.charNum - 1)
    (hrows : s'.rows = ⟨s.charNum - 1, (charDivorce s i).character⟩)
    (hcount : s'.charIdCount = s.charIdCount) : Removed s i s' := by
  refine ⟨hi, ?_, hcount⟩
  have hagree := agree_last (charDivorce s i)
  rw [charNum_charDivorce, ← hlast] at hagree
  rw [hrows, ← hlast]
  exact hagree

theorem rows_charNum (t : CharServer) (n : Nat) :
    { t with charNum := n }.rows = ⟨n, t.rows.entry⟩ := rfl

theorem rows_updateData (t : CharServer) (fd : Fin fdSetsize) (f : SessionData → SessionData) :
    (t.updateData fd f).rows = t.rows := rfl

theorem charIdCount_updateData (t : CharServer) (fd : Fin fdSetsize)
    (f : SessionData → SessionData) : (t.updateData fd f).charIdCount = t.charIdCount := rfl

theorem num_rows (t : CharServer) : t.rows.num = t.charNum := rfl

theorem status_rows (t : CharServer) (i : Nat) : (t.rows.entry i).status = t.charDat i := rfl

theorem charNum_repairFound (t : CharServer) (i : Nat) : (repairFound t i).charNum = t.charNum := by
  rw [← num_rows, rows_repairFound, num_rows]

theorem charDat_repairFound (t : CharServer) (i j : Nat) :
    (repairFound t i).charDat j = t.charDat j := by
  rw [← status_rows, rows_repairFound, status_rows]

theorem charDat_charNum (t : CharServer) (n i : Nat) :
    { t with charNum := n }.charDat i = t.charDat i := rfl

theorem authFifo_charNum (t : CharServer) (n : Nat) :
    { t with charNum := n }.authFifo = t.authFifo := rfl

theorem authFifo_moveLast (t : CharServer) (i : Nat) : (moveLast t i).authFifo = t.authFifo := rfl

theorem charNum_moveLast (t : CharServer) (i : Nat) : (moveLast t i).charNum = t.charNum := rfl

theorem charIdCount_moveLast (t : CharServer) (i : Nat) :
    (moveLast t i).charIdCount = t.charIdCount := rfl

theorem charIdCount_charNum (t : CharServer) (n : Nat) :
    { t with charNum := n }.charIdCount = t.charIdCount := rfl

theorem charNum_moveRepair (s : CharServer) (i : Nat) :
    (repairFound (moveLast (charDivorce s i) i) i).charNum = s.charNum := by
  rw [charNum_repairFound, charNum_moveLast, charNum_charDivorce]

/-- The deletion without the last step, of the session that asks for it. -/
theorem removed_repairFound (hi : i < s.charNum)
    (hs' : s' = { repairFound (moveLast (charDivorce s i) i) i with charNum := s.charNum - 1 }) :
    Removed s i s' := by
  subst hs'
  refine removed_moveLast hi ?_ ?_
  · rw [rows_charNum, rows_repairFound]
    rfl
  · rw [charIdCount_charNum, charIdCount_repairFound, charIdCount_moveLast,
      charIdCount_charDivorce]

theorem removed_charDivorce (hi : i < s.charNum) (hlast : i = s.charNum - 1) :
    Removed s i { charDivorce s i with charNum := s.charNum - 1 } :=
  removed_last hi hlast rfl (charIdCount_charDivorce ..)

/-- Only sessions change. -/
theorem Removed.of_rows {u : CharServer} (h : Removed s i s') (hrows : u.rows = s'.rows)
    (hcount : u.charIdCount = s'.charIdCount) : Removed s i u :=
  ⟨h.lt, by rw [hrows]; exact h.rows, hcount.trans h.charIdCount⟩

theorem removed_deleteFound (fd : Fin fdSetsize) (k : Fin 9) (hi : i < s.charNum) :
    Removed s i (deleteFound s fd k i) := by
  unfold deleteFound
  simp only [charNum_charDivorce]
  by_cases hlast : i = s.charNum - 1
  · rw [if_neg (not_not.mpr hlast), charNum_charDivorce]
    exact (removed_charDivorce hi hlast).of_rows (rows_updateData ..) (charIdCount_updateData ..)
  · rw [if_pos hlast, charNum_moveRepair]
    exact (removed_repairFound hi rfl).of_rows (rows_updateData ..) (charIdCount_updateData ..)

theorem active_charNum (t : CharServer) (n : Nat) (fd : Fin fdSetsize) :
    { t with charNum := n }.active fd = t.active fd := rfl

theorem active_charDivorce (s : CharServer) (i : Nat) (fd : Fin fdSetsize) :
    (charDivorce s i).active fd = s.active fd := by
  unfold CharServer.active
  rw [session_charDivorce]

theorem active_moveLast (t : CharServer) (i : Nat) (fd : Fin fdSetsize) :
    (moveLast t i).active fd = t.active fd := rfl

/-- The repair after a row has been moved. -/
theorem shifted_move (hm : TableOk s m) (hu : Unique s)
    (hsd' : (repairFound (moveLast (charDivorce s i) i) i).active fd = some sd')
    (hsh : ∀ sd, s.active fd = some sd → ∃ sh, Shown s m sd sh) (hne : i ≠ s.charNum - 1) :
    ∃ sd, s.active fd = some sd ∧ Shifted s i sd sd' := by
  refine shifted_repairFound (t := moveLast (charDivorce s i) i) (session_charDivorce s i)
    (charNum_charDivorce s i) ?_ hm hu hsd' hsh
  have hlast : (moveLast (charDivorce s i) i).charDat (s.charNum - 1) =
      (charDivorce s i).charDat (s.charNum - 1) := Function.update_of_ne hne.symm ..
  rw [hlast]
  exact (charDat_charDivorce s i _).2

/-- The indexes of every session after a deletion; the session that deletes closes the place. -/
theorem shifted_deleteFound (hm : TableOk s m) (hu : Unique s) {fd' : Fin fdSetsize} {k : Fin 9}
    (hsd' : (deleteFound s fd k i).active fd' = some sd')
    (hsh : ∀ sd, s.active fd' = some sd → ∃ sh, Shown s m sd sh) :
    ∃ sd sd1, s.active fd' = some sd ∧ Shifted s i sd sd1 ∧
      sd' = if fd' = fd then { sd1 with foundChar := closeFound sd1.foundChar k } else sd1 := by
  -- The server before the place is closed.
  obtain ⟨t, ht, hshift⟩ : ∃ t, deleteFound s fd k i = CharServer.updateData t fd
      (fun sd => { sd with foundChar := closeFound sd.foundChar k }) ∧
      ∀ sd1, t.active fd' = some sd1 → ∃ sd, s.active fd' = some sd ∧ Shifted s i sd sd1 := by
    unfold deleteFound
    simp only [charNum_charDivorce]
    by_cases hlast : i = s.charNum - 1
    · rw [if_neg (not_not.mpr hlast)]
      refine ⟨_, rfl, fun sd1 hsd1 => ?_⟩
      refine ⟨sd1, ?_, shifted_of_same (SameFound.refl sd1) fun _ _ => hlast⟩
      rw [active_charNum, active_charDivorce] at hsd1
      exact hsd1
    · rw [if_pos hlast]
      refine ⟨_, rfl, fun sd1 hsd1 => ?_⟩
      rw [active_charNum] at hsd1
      exact shifted_move hm hu hsd1 hsh hlast
  rw [ht] at hsd'
  by_cases hfd : fd' = fd
  · rw [hfd] at hsd' hshift ⊢
    obtain ⟨sd1, hsd1, heq⟩ := active_updateData_self t fd (fun _ h => by exact h) hsd'
    obtain ⟨sd, hsd, hs⟩ := hshift sd1 hsd1
    exact ⟨sd, sd1, hsd, hs, by rw [if_pos rfl]; exact heq⟩
  · rw [active_updateData_of_ne t hfd] at hsd'
    obtain ⟨sd, hsd, hs⟩ := hshift sd' hsd'
    exact ⟨sd, sd', hsd, hs, by rw [if_neg hfd]⟩

/-! ## Entries of the ring -/

/-- What has been selected for an account. -/
structure Selection where
  charId : Int
  sex : Nat
  deriving DecidableEq

/-- An unused entry for a character. -/
def AuthEntry.Pending (e : AuthEntry) : Prop := e.delflag = 0 ∧ e.charId ≠ 0

instance AuthEntry.decidablePending (e : AuthEntry) : Decidable e.Pending := by
  unfold AuthEntry.Pending
  infer_instance

/-- The entry designates the character that has been selected for its account. -/
structure Pends (s : CharServer) (m : Chars) (selected : Int → Option Selection) (e : AuthEntry) :
    Prop where
  place : s.At e.charPos e.charId
  owner : m.owner e.charId = some e.accountId
  selected : selected e.accountId = some ⟨e.charId, e.sex⟩

variable {selected : Int → Option Selection} {e : AuthEntry}

theorem Pends.mono (h : Pends s m selected e) (hat : ∀ i id, s.At i id → s'.At i id)
    (howner : ∀ id a, m.owner id = some a → m'.owner id = some a) : Pends s' m' selected e :=
  ⟨hat _ _ h.place, howner _ _ h.owner, h.selected⟩

/-- The account of the row that an entry designates. -/
theorem Pends.accountId (h : Pends s m selected e) (hm : TableOk s m) :
    (s.charDat e.charPos).accountId = e.accountId :=
  Option.some.inj ((hm.owner h.place).symm.trans h.owner)

/-- A deletion of another row, which does not move the row of the entry. -/
theorem Pends.remove (h : Pends s m selected e) (hr : Removed s i s') (hi : e.charPos ≠ i)
    (hlast : e.charPos ≠ s.charNum - 1) (hm : TableOk s m) :
    Pends s' (m.without fun z => z = (s.charDat i).charId) selected e := by
  refine ⟨?_, ?_, h.selected⟩
  · have hat := hr.at h.place hi
    rwa [moved_rows hlast] at hat
  · rw [Chars.owner_without]
    · exact h.owner
    · rw [decide_eq_false_iff_not]
      intro hid
      exact hi (hm.rows.inj.eq h.place (by rw [hid]; exact at_self hr.lt))

/-! ## All rows of an account -/

/-- The rows that the deletion of an account leaves. -/
def keptRows (s : CharServer) (accountId : Int) : Nat :=
  Pool.count (fun c : Character => c.status.accountId ≠ accountId) s.rows

/-- The loop of `0x2730`: what is deleted so far is of the account, the sessions of the other accounts
are shown what they were, the entries of the ring stay below the rows that will be left. -/
structure AccountLoop (accountId : Int) (m : Chars) (shown : Fin fdSetsize → Fin 9 → Option Int)
    (selected : Int → Option Selection) (s : CharServer) (gone : Int → Bool) : Prop where
  table : TableOk s (m.without gone)
  unique : Unique s
  shown : ∀ fd sd, s.active fd = some sd → sd.accountId ≠ accountId →
    Shown s (m.without gone) sd (shown fd)
  owned : ∀ id, gone id = true → m.owner id = some accountId
  pending : ∀ j, (s.authFifo.entry j).Pending →
    Pends s (m.without gone) selected (s.authFifo.entry j) ∧
      (s.authFifo.entry j).accountId ≠ accountId ∧
      (s.authFifo.entry j).charPos < keptRows s accountId

variable {accountId : Int} {shown : Fin fdSetsize → Fin 9 → Option Int} {gone : Int → Bool}

/-- A row of the account is deleted. -/
theorem AccountLoop.remove (h : AccountLoop accountId m shown selected s gone) (hk : m.Keyed)
    (hr : Removed s i s') (ha : (s.charDat i).accountId = accountId)
    (hring : s'.authFifo = s.authFifo) (hu : Unique s')
    (hsess : ∀ fd sd', s'.active fd = some sd' → sd'.accountId ≠ accountId →
      ∃ sd, s.active fd = some sd ∧ Shifted s i sd sd') :
    AccountLoop accountId m shown selected s'
      (fun y => y = (s.charDat i).charId || gone y) := by
  have hat := at_self hr.lt
  have hwithout : m.without gone (s.charDat i).charId = some (s.character i) := h.table.get hat
  have hnot : gone (s.charDat i).charId = false := by
    by_contra hgone
    rw [Bool.not_eq_false] at hgone
    simp [Chars.without, hgone] at hwithout
  have hsome : (m (s.charDat i).charId).isSome = true := by
    simp only [Chars.without, hnot, Bool.false_eq_true, if_false, Option.map_eq_some_iff] at hwithout
    obtain ⟨c, hc, -⟩ := hwithout
    rw [hc]
    rfl
  have hm := Chars.without_without hk hnot hsome
  have howner : m.owner (s.charDat i).charId = some accountId := by
    rw [← Chars.owner_without hnot, h.table.owner hat, ha]
  refine ⟨?_, hu, fun fd sd' hsd' hne => ?_, fun id hid => ?_, fun j hj => ?_⟩
  · rw [← hm]
    exact hr.tableOk h.table
  · obtain ⟨sd, hsd, hshift⟩ := hsess fd sd' hsd' hne
    rw [hshift.accountId] at hne
    have hsh := h.shown fd sd hsd hne
    rw [← hm]
    refine shown_shifted hr hsh hshift fun k hk => ?_
    obtain ⟨_, -, -, ho⟩ := hsh.exists_found hk
    rw [Chars.owner_without hnot, howner] at ho
    exact hne (Option.some.inj ho).symm
  · simp only [Bool.or_eq_true, decide_eq_true_eq] at hid
    rcases hid with rfl | hid
    · exact howner
    · exact h.owned id hid
  · rw [hring] at hj ⊢
    obtain ⟨hp, hacc, hlt⟩ := h.pending j hj
    -- The deleted row is not counted, so the count stays and the last index is not below it.
    have hfails : decide ((s.rows.entry i).status.accountId ≠ accountId) = false :=
      decide_eq_false (not_not.mpr ha)
    have hcount : keptRows s' accountId = keptRows s accountId := by
      unfold keptRows
      rw [← Pool.count_of_agree hr.rows]
      have hdivorce : Pool.count (fun c : Character => decide (c.status.accountId ≠ accountId))
          (charDivorce s i).rows =
          Pool.count (fun c : Character => decide (c.status.accountId ≠ accountId)) s.rows := by
        refine Pool.count_congr (charNum_charDivorce s i) fun l _ => ?_
        exact congrArg (fun a => decide (a ≠ accountId)) (charDat_charDivorce s i l).2
      rw [Pool.count_swapRemove_of_fails, hdivorce]
      · simp only [CharServer.rows, charNum_charDivorce]
        exact hr.lt
      · rw [← hfails]
        exact congrArg (fun a => decide (a ≠ accountId)) (charDat_charDivorce s i i).2
    have hbound : keptRows s accountId < s.charNum :=
      Pool.count_lt_of_fails (p := s.rows) hr.lt hfails
    have hi : (s.authFifo.entry j).charPos ≠ i := by
      intro heq
      rw [← heq, hp.accountId h.table] at ha
      exact hacc ha
    refine ⟨?_, hacc, by rw [hcount]; exact hlt⟩
    rw [← hm]
    exact hp.remove hr hi (by omega) h.table

/-- What the loop has done when it ends. -/
structure AccountLoopEnd (accountId : Int) (m : Chars) (shown : Fin fdSetsize → Fin 9 → Option Int)
    (selected : Int → Option Selection) (s s' : CharServer) : Prop where
  loop : ∃ gone, AccountLoop accountId m shown selected s' gone
  none_left : ∀ i < s'.charNum, (s'.charDat i).accountId ≠ accountId
  ring : s'.authFifo = s.authFifo
  charIdCount : s'.charIdCount = s.charIdCount

theorem accountLoop_end (hk : m.Keyed) (fuel : Nat) :
    ∀ (s : CharServer) (i : Nat) (gone : Int → Bool),
      AccountLoop accountId m shown selected s gone → s.charNum - i ≤ fuel →
      (∀ j < i, j < s.charNum → (s.charDat j).accountId ≠ accountId) →
      AccountLoopEnd accountId m shown selected s (deleteAccountLoop accountId fuel s i) := by
  induction fuel with
  | zero =>
    intro s i gone h hfuel hdone
    exact ⟨⟨gone, h⟩, fun j hj => hdone j (by simp only [deleteAccountLoop] at hj; omega) hj, rfl, rfl⟩
  | succ fuel ih =>
    intro s i gone h hfuel hdone
    unfold deleteAccountLoop
    by_cases hi : i < s.charNum
    · rw [if_pos hi]
      by_cases ha : (s.charDat i).accountId = accountId
      · rw [if_pos ha]
        simp only [charNum_charDivorce]
        -- The rows before `i` are those that were there.
        have hrest {s' : CharServer} (hr : Removed s i s') :
            ∀ j < i, j < s'.charNum → (s'.charDat j).accountId ≠ accountId := by
          intro j hj hlt
          have hnum : s'.charNum = s.charNum - 1 := by
            have := hr.rows.num
            simp only [Pool.swapRemove, CharServer.rows, charNum_charDivorce] at this
            exact this.symm
          have hrow := hr.rows.entry j (by
            simp only [Pool.swapRemove, CharServer.rows, charNum_charDivorce]
            omega)
          have hrow' : ((charDivorce s i).rows.swapRemove i).entry j = (charDivorce s i).character j :=
            Function.update_of_ne hj.ne ..
          have hacc : (s'.charDat j).accountId = ((charDivorce s i).charDat j).accountId :=
            congrArg (fun c : Character => c.status.accountId) (hrow.symm.trans hrow')
          rw [hacc, (charDat_charDivorce s i j).2]
          exact hdone j hj (by omega)
        have hnext {s' : CharServer} {l : Nat} (hend : AccountLoopEnd accountId m shown selected s'
            (deleteAccountLoop accountId fuel s' l)) (hring : s'.authFifo = s.authFifo)
            (hcount : s'.charIdCount = s.charIdCount) :
            AccountLoopEnd accountId m shown selected s (deleteAccountLoop accountId fuel s' l) :=
          ⟨hend.loop, hend.none_left, hend.ring.trans hring, hend.charIdCount.trans hcount⟩
        have hcharId : (charDivorce s i).charIdCount = s.charIdCount := charIdCount_charDivorce ..
        have hring : (charDivorce s i).authFifo = s.authFifo := authFifo_charDivorce ..
        by_cases hlt : i < s.charNum - 1
        · rw [if_pos hlt]
          have hmovedRow : ((moveLast (charDivorce s i) i).charDat i).accountId =
              (s.charDat (s.charNum - 1)).accountId := by
            simp only [moveLast, Function.update_self, charNum_charDivorce]
            exact (charDat_charDivorce s i _).2
          have hnum : (moveLast (charDivorce s i) i).charNum = s.charNum := charNum_charDivorce ..
          by_cases hmoved : ((moveLast (charDivorce s i) i).charDat i).accountId = accountId
          · -- The moved row is of the account too: no session of another account has its index.
            rw [if_pos hmoved, hnum]
            have hr : Removed s i { moveLast (charDivorce s i) i with charNum := s.charNum - 1 } :=
              removed_moveLast hi rfl hcharId
            refine hnext (ih _ i _ (h.remove hk hr ha hring ?_ ?_) ?_ (hrest hr)) hring hcharId
            · exact (keeps_of_session (session_charDivorce s i)).unique h.unique
            · intro fd sd' hsd' hne
              rw [active_charNum, active_moveLast, active_charDivorce] at hsd'
              refine ⟨sd', hsd', shifted_of_same (SameFound.refl sd') fun k hk => ?_⟩
              obtain ⟨id, -, hat, ho⟩ := (h.shown fd sd' hsd' hne).found k _ hk
              rw [h.table.owner hat, ← hmovedRow, hmoved] at ho
              exact absurd (Option.some.inj ho).symm hne
            · simp only
              omega
          · rw [if_neg hmoved]
            rw [hnum]
            obtain ⟨u, hu⟩ : ∃ u, u = { repairFound (moveLast (charDivorce s i) i) i with
                charNum := s.charNum - 1 } := ⟨_, rfl⟩
            simp only [← hu]
            have hr : Removed s i u := removed_repairFound hi hu
            have hrnum : u.charNum = s.charNum - 1 := by rw [hu]
            have hactive (fd : Fin fdSetsize) : u.active fd =
                (repairFound (moveLast (charDivorce s i) i) i).active fd := by
              rw [hu, active_charNum]
            have hring' : u.authFifo = s.authFifo := by
              rw [hu, authFifo_charNum, authFifo_repairFound, authFifo_moveLast, hring]
            have hkeep := ((keeps_charDivorce s i).trans (keeps_moveLast _ i)).trans
              (keeps_repairFound _ i)
            have hunique : Unique u := by
              rw [hu]
              exact (hkeep.trans (keeps_charNum ..)).unique h.unique
            refine hnext (ih u (i + 1) _ (h.remove hk hr ha hring' hunique ?_) ?_ ?_) hring'
              hr.charIdCount
            · intro fd sd' hsd' hne
              rw [hactive] at hsd'
              refine shifted_move h.table h.unique hsd' (fun sd hsd => ⟨_, h.shown fd sd hsd ?_⟩) hlt.ne
              -- The repair does not change the account.
              have hdata := data_of_active hsd'
              obtain ⟨sd0, hsd0, hids⟩ := hkeep.view fd sd' hdata
              obtain rfl : sd = sd0 := Option.some.inj ((data_of_active hsd).symm.trans hsd0)
              have hacc : sd'.accountId = sd.accountId := congrArg ConnectRequest.accountId hids.ids
              exact hacc ▸ hne
            · omega
            · intro j hj hlt'
              by_cases hji : j = i
              · rw [hji, hu, charDat_charNum, charDat_repairFound]
                exact hmoved
              · exact hrest hr j (by omega) hlt'
        · rw [if_neg hlt]
          have hlast : i = s.charNum - 1 := by omega
          have hr := removed_charDivorce hi hlast
          refine hnext (ih _ (i + 1) _ (h.remove hk hr ha hring ?_ ?_) ?_ ?_) hring hcharId
          · exact (keeps_of_session (session_charDivorce s i)).unique h.unique
          · intro fd sd' hsd' _
            rw [active_charNum, active_charDivorce] at hsd'
            exact ⟨sd', hsd', shifted_of_same (SameFound.refl sd') fun _ _ => hlast⟩
          · simp only
            omega
          · intro j hj hlt'
            simp only at hlt'
            exact hrest hr j (by omega) hlt'
      · rw [if_neg ha]
        refine ih s (i + 1) gone h (by omega) fun j hj hlt => ?_
        by_cases hji : j = i
        · rw [hji]
          exact ha
        · exact hdone j (by omega) hlt
    · rw [if_neg hi]
      exact ⟨⟨gone, h⟩, fun j hj => hdone j (by omega) hj, rfl, rfl⟩

end Nezumi
