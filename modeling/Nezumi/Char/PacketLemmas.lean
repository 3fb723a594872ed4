import Nezumi.Char.FoundLemmas

/-!
# What the packets do to the table, the sessions and the ring (`char/char.c`)

* `Idle`: the table is the same, the authenticated sessions keep their indexes, and an entry of the
  ring has been used at most. `Granted`: a client has got the list of its account's characters.
* `connectRequest_outcome`, `loginAnswer_outcome`: `0x65` and `0x2713` do one or the other.
* `charSelect_outcome`, `charCreate_outcome`, `charDelete_outcome`: a selection, a creation and a
  deletion are refused (`Idle`), or they are what their names say.
-/

namespace Nezumi

variable {conf : CharConf} {now : Int} {s s' : CharServer} {fd : Fin fdSetsize} {sd : SessionData}
  {out : List CharOut}

/-- The packets that say nothing about characters. -/
def CharOut.quiet : CharOut → Bool
  | .error .. | .toLogin .. | .refused .. => true
  | _ => false

/-- The ring is the same, but for an entry that has been used. -/
def RingUsed (s s' : CharServer) : Prop :=
  s'.authFifo = s.authFifo ∨
    ∃ i, s'.authFifo = s.authFifo.modify i fun e => { e with delflag := 1 }

structure Idle (s s' : CharServer) (out : List CharOut) : Prop where
  still : Still s s'
  rows : s'.rows = s.rows
  charIdCount : s'.charIdCount = s.charIdCount
  ring : RingUsed s s'
  quiet : ∀ o ∈ out, o.quiet = true

structure Granted (s : CharServer) (fd : Fin fdSetsize) (accountId : Int) (s' : CharServer)
    (out : List CharOut) : Prop where
  others : ∀ fd', fd' ≠ fd → s'.active fd' = s.active fd'
  self : ∀ sd', s'.active fd = some sd' → sd'.accountId = accountId ∧
    sd'.foundChar = fun k => (foundOf s accountId)[k.val]?
  rows : s'.rows = s.rows
  charIdCount : s'.charIdCount = s.charIdCount
  ring : RingUsed s s'
  out : out = [.charList fd ((foundOf s accountId).map fun i => (s.charDat i).charId)]

/-- Sessions only. -/
theorem idle_of_still (h : Still s s') (hrows : s'.rows = s.rows)
    (hcount : s'.charIdCount = s.charIdCount) (hring : s'.authFifo = s.authFifo)
    (hout : ∀ o ∈ out, o.quiet = true) : Idle s s' out := ⟨h, hrows, hcount, .inl hring, hout⟩

theorem idle_refl (s : CharServer) (hout : ∀ o ∈ out, o.quiet = true) : Idle s s out :=
  idle_of_still (still_of_session rfl) rfl rfl rfl hout

theorem idle_setEof (s : CharServer) (fd : Fin fdSetsize) (hout : ∀ o ∈ out, o.quiet = true) :
    Idle s (s.setEof fd) out := idle_of_still (still_setEof s fd) rfl rfl rfl hout

theorem active_setEof_self (s : CharServer) (fd : Fin fdSetsize) : (s.setEof fd).active fd = none := by
  unfold CharServer.active CharServer.setEof CharServer.updateSession
  simp only [Function.update_self]
  cases s.session fd with
  | none => rfl
  | some c => rfl

theorem active_update_of_ne {fd' : Fin fdSetsize} (h : fd' ≠ fd) (f : Session → Session) :
    (s.updateSession fd f).active fd' = s.active fd' := by
  simp [CharServer.active, CharServer.updateSession, Function.update_of_ne h]

theorem active_setEof_of_ne {fd' : Fin fdSetsize} (h : fd' ≠ fd) :
    (s.setEof fd).active fd' = s.active fd' := active_update_of_ne h _

/-! ## `0x65` and `0x2713` -/

theorem connectRequest_outcome (conf : CharConf) (now : Int) (s : CharServer) (fd : Fin fdSetsize)
    (c : Session) (r : ConnectRequest) :
    Idle s (connectRequest conf now s fd c r).1 (connectRequest conf now s fd c r).2 ∨
      Granted s fd r.accountId (connectRequest conf now s fd c r).1
        (connectRequest conf now s fd c r).2 := by
  unfold connectRequest
  split
  · exact .inl (idle_setEof s fd (by simp [CharOut.quiet]))
  · split
    · rename_i i _
      refine .inl (idle_of_still ?_ rfl rfl rfl (by simp [CharOut.quiet]))
      exact ((still_setEof s fd).trans (still_setEof _ i)).trans
        (still_updateData _ i (fun _ => ⟨rfl, rfl⟩) fun _ h => by cases h)
    · -- The session with the ids of the request is not authenticated.
      obtain ⟨t, ht⟩ : ∃ t, t = s.updateSession fd fun c => { c with data := some (takeUp c.data r) } :=
        ⟨_, rfl⟩
      have hothers : ∀ fd', fd' ≠ fd → t.active fd' = s.active fd' := by
        intro fd' hne
        rw [ht]
        exact active_update_of_ne hne _
      have hself : t.active fd = none := by
        rw [ht]
        unfold CharServer.active CharServer.updateSession
        simp only [Function.update_self]
        cases s.session fd with
        | none => rfl
        | some c =>
          by_contra hne
          obtain ⟨sd, hsd⟩ := Option.ne_none_iff_exists'.mp hne
          obtain ⟨-, hdata, hauth⟩ := Session.active_eq_some.mp hsd
          obtain rfl := Option.some.inj hdata
          cases hauth
      have hstill {u : CharServer} (hu : ∀ fd', u.active fd' = t.active fd') : Still s u := by
        constructor
        intro fd' sd' hsd'
        have hsd' : t.active fd' = some sd' := (hu fd').symm.trans hsd'
        by_cases hne : fd' = fd
        · rw [hne, hself] at hsd'
          cases hsd'
        · exact ⟨sd', (hothers fd' hne).symm.trans hsd', SameFound.refl sd'⟩
      have hstop {u : CharServer} (hu : u.session = t.session) : Still s (u.setEof fd) := by
        refine hstill fun fd' => ?_
        by_cases hne : fd' = fd
        · rw [hne, active_setEof_self, hself]
        · rw [active_setEof_of_ne hne]
          unfold CharServer.active
          rw [hu]
      have hrows : t.rows = s.rows := by rw [ht]; rfl
      have hcount : t.charIdCount = s.charIdCount := by rw [ht]; rfl
      have hfifo : t.authFifo = s.authFifo := by rw [ht]; rfl
      simp only [← ht]
      split
      · rename_i i _
        obtain ⟨u, hu⟩ : ∃ u, u = { t with
            authFifo := t.authFifo.modify i fun e => { e with delflag := 1 } } := ⟨_, rfl⟩
        have husession : u.session = t.session := by rw [hu]
        have hurows : u.rows = s.rows := by rw [hu, ← hrows]; rfl
        have hucount : u.charIdCount = s.charIdCount := by rw [hu, ← hcount]
        have huring : RingUsed s u := .inr ⟨i, by rw [hu, hfifo]⟩
        have hrefused {o : CharOut} (ho : o.quiet = true) : Idle s (u.setEof fd) [o] :=
          ⟨hstop husession, hurows, hucount, huring, by simpa using ho⟩
        simp only [← hu]
        split
        · split
          · exact .inl (hrefused rfl)
          · refine .inr ⟨fun fd' hne => ?_, fun sd' hsd' => ?_, hurows, hucount, huring, ?_⟩
            · simp only [sendChars]
              rw [active_updateData_of_ne u hne]
              unfold CharServer.active
              rw [husession]
              exact hothers fd' hne
            · obtain ⟨c', hc', -, hdata, -⟩ := active_eq_some.mp hsd'
              have hd : ((sendChars u fd r.accountId).1).data fd = some sd' :=
                data_eq_some.mpr ⟨c', hc', hdata⟩
              simp only [sendChars] at hd
              rw [data_updateData_self] at hd
              obtain ⟨sd, hsd, rfl⟩ := Option.map_eq_some_iff.mp hd
              obtain ⟨c2, hc2, hdata2⟩ := data_eq_some.mp hsd
              rw [husession, ht] at hc2
              simp only [CharServer.updateSession, Function.update_self,
                Option.map_eq_some_iff] at hc2
              obtain ⟨c3, -, rfl⟩ := hc2
              obtain rfl := Option.some.inj hdata2
              refine ⟨rfl, ?_⟩
              rw [hu, ht]
              rfl
            · rw [hu, ht]
              rfl
        · exact .inl (hrefused rfl)
      · split
        · exact .inl ⟨hstill fun _ => rfl, hrows, hcount, .inl hfifo, by simp [CharOut.quiet]⟩
        · exact .inl ⟨hstop rfl, hrows, hcount, .inl hfifo, by simp [CharOut.quiet]⟩

theorem loginAnswer_outcome (conf : CharConf) (now : Int) (s : CharServer) (accountId : Int)
    (error : Bool) (email : CStr 40) (time : Int) :
    Idle s (loginAnswer conf now s accountId error email time).1
        (loginAnswer conf now s accountId error email time).2 ∨
      ∃ fd, Granted s fd accountId (loginAnswer conf now s accountId error email time).1
        (loginAnswer conf now s accountId error email time).2 := by
  unfold loginAnswer
  split
  · exact .inl (idle_refl s (by simp))
  · rename_i fd hof
    split
    · exact .inl (idle_refl s (by simp [CharOut.quiet]))
    · split
      · split
        · refine .inl (idle_of_still ?_ rfl rfl rfl (by simp [CharOut.quiet]))
          exact still_updateData s fd (fun _ => ⟨rfl, rfl⟩) fun _ h => by cases h
        · refine .inr ⟨fd, fun fd' hne => ?_, fun sd' hsd' => ?_, rfl, rfl, .inl rfl, rfl⟩
          · simp only [sendChars]
            rw [active_updateData_of_ne _ hne, active_updateData_of_ne _ hne]
          · have hd := data_of_active hsd'
            simp only [sendChars] at hd
            rw [data_updateData_self, data_updateData_self] at hd
            obtain ⟨sd, hsd, hacc⟩ := sessionOf_some hof
            rw [hsd] at hd
            obtain rfl := Option.some.inj hd
            exact ⟨hacc, rfl⟩
      · exact .inl (idle_refl s (by simp [CharOut.quiet]))

/-! ## `0x66` to `0x68` -/

/-- The place of the map-server where a selected character enters. -/
def CharStatus.entering (s : CharServer) (c : CharStatus) : CharStatus :=
  { c with lastPoint := ((selectPoint s c.lastPoint).map Prod.fst).getD c.lastPoint }

/-- The entry that a selection leaves for the map-server. -/
def selectEntry (s : CharServer) (sd : SessionData) (ip : UInt32) (ch : Nat) : AuthEntry :=
  { accountId := sd.accountId
    charId := (s.charDat ch).charId
    loginId1 := sd.loginId1
    loginId2 := sd.loginId2
    delflag := 0
    charPos := ch
    sex := sd.sex
    connectUntilTime := sd.connectUntilTime
    ip := ip
    mapAuth := true }

/-- A character has been selected: its place is written, the ring has the entry, and the session can
do no more. -/
structure Selected (s : CharServer) (fd : Fin fdSetsize) (sd : SessionData) (ip : UInt32)
    (s' : CharServer) (out : List CharOut) (ch : Nat) : Prop where
  found : ∃ k, sd.foundChar k = some ch
  still : Still s s'
  rows : s'.rows = s.rows.modify ch fun c => { c with status := c.status.entering s }
  charIdCount : s'.charIdCount = s.charIdCount
  ring : s'.authFifo = s.authFifo.put AuthEntry.accountId (selectEntry s sd ip ch)
  out : ∃ map server, out = [.mapServer fd (s.charDat ch).charId map server]

theorem charSelect_outcome (conf : CharConf) (now : Int) (s : CharServer) (fd : Fin fdSetsize)
    (ip : UInt32) (sd : SessionData) (slot : Int) :
    Idle s (charSelect conf now s fd ip sd slot).1 (charSelect conf now s fd ip sd slot).2 ∨
      ∃ ch, Selected s fd sd ip (charSelect conf now s fd ip sd slot).1
        (charSelect conf now s fd ip sd slot).2 ch := by
  unfold charSelect
  split
  · exact .inl (idle_refl s (by simp [CharOut.quiet]))
  · split
    · exact .inl (idle_of_still (still_endSelect s fd) rfl rfl rfl (by simp))
    · rename_i ch hch
      obtain ⟨k, -, hk⟩ := Option.bind_eq_some_iff.mp hch
      have hstop : Still s (endSelect (s.setEof fd) fd) :=
        (still_setEof s fd).trans (still_endSelect _ fd)
      split
      · exact .inl (idle_of_still hstop rfl rfl rfl (by simp [CharOut.quiet]))
      · split
        · exact .inl (idle_of_still hstop rfl rfl rfl (by simp [CharOut.quiet]))
        · rename_i p i hpoint
          have henter : { s.charDat ch with lastPoint := p } = (s.charDat ch).entering s := by
            simp [CharStatus.entering, hpoint]
          refine .inr ⟨ch, ⟨k, hk⟩, ?_, ?_, rfl, rfl, ?_⟩
          · refine Still.trans ?_ (still_endSelect _ fd)
            exact still_of_session rfl
          · simp only [henter]
            exact rows_update s ch (CharStatus.entering s)
          · simp only [Function.update_self]
            exact ⟨p.map, i, rfl⟩

/-- A character has been created, behind the others. -/
structure Created (conf : CharConf) (s : CharServer) (fd : Fin fdSetsize) (sd : SessionData)
    (dat : List UInt8) (s' : CharServer) (out : List CharOut) (name : CStr 24) : Prop where
  allowed : newCharName conf dat = some name
  others : ∀ fd', fd' ≠ fd → s'.active fd' = s.active fd'
  self : ∀ sd', s'.active fd = some sd' → ∃ sd0, s.active fd = some sd0 ∧
    sd' = { sd0 with foundChar := fillFound sd0.foundChar s.charNum }
  rows : s'.rows = s.rows.push ⟨newChar conf s.charIdCount sd.accountId name dat, [], []⟩
  charIdCount : s'.charIdCount = s.charIdCount + 1
  ring : s'.authFifo = s.authFifo
  out : out = [.charNew fd s.charIdCount]

/-- The server after `make_new_char`. -/
def withNewChar (conf : CharConf) (s : CharServer) (accountId : Int) (name : CStr 24)
    (dat : List UInt8) : CharServer :=
  { s with
    charNum := s.charNum + 1
    charDat := Function.update s.charDat s.charNum (newChar conf s.charIdCount accountId name dat)
    friendDat := Function.update s.friendDat s.charNum []
    globalRegDb := Function.update s.globalRegDb s.charNum []
    charIdCount := s.charIdCount + 1 }

theorem makeNewChar_ok {accountId : Int} {dat : List UInt8} {i : Nat}
    (h : makeNewChar conf s accountId dat = .ok (s', i)) :
    ∃ name, newCharName conf dat = some name ∧ i = s.charNum ∧
      s' = withNewChar conf s accountId name dat := by
  unfold makeNewChar at h
  split at h
  · cases h
  · rename_i name hname
    split at h
    · cases h
    · split at h
      · cases h
      · split at h
        · cases h
        · split at h
          · cases h
          · split at h
            · cases h
            · cases h
              exact ⟨name, hname, rfl, rfl⟩

theorem rows_withNewChar (conf : CharConf) (s : CharServer) (accountId : Int) (name : CStr 24)
    (dat : List UInt8) : (withNewChar conf s accountId name dat).rows =
      s.rows.push ⟨newChar conf s.charIdCount accountId name dat, [], []⟩ := by
  unfold CharServer.rows Pool.push withNewChar
  congr 1
  funext j
  by_cases hj : j = s.charNum
  · simp [hj, CharServer.character]
  · simp [Function.update_of_ne hj, CharServer.character]

theorem charCreate_outcome (conf : CharConf) (s : CharServer) (fd : Fin fdSetsize)
    (sd : SessionData) (dat : List UInt8) :
    Idle s (charCreate conf s fd sd dat).1 (charCreate conf s fd sd dat).2 ∨
      ∃ name, Created conf s fd sd dat (charCreate conf s fd sd dat).1
        (charCreate conf s fd sd dat).2 name := by
  unfold charCreate
  simp only
  split
  · exact .inl (idle_refl s (by simp [CharOut.quiet]))
  · split
    · exact .inl (idle_refl s (by simp [CharOut.quiet]))
    · split
      · exact .inl (idle_refl s (by simp [CharOut.quiet]))
      · rename_i s' i hmake
        obtain ⟨name, hname, rfl, rfl⟩ := makeNewChar_ok hmake
        refine .inr ⟨name, hname, fun fd' hne => ?_, fun sd' hsd' => ?_,
          rows_withNewChar conf s sd.accountId name dat, rfl, rfl, ?_⟩
        · rw [active_updateData_of_ne _ hne]
          rfl
        · obtain ⟨sd0, hsd0, heq⟩ := active_updateData_self _ fd (fun _ h => by exact h) hsd'
          exact ⟨sd0, hsd0, heq⟩
        · simp [withNewChar, newChar]

/-- The index that `0x68` deletes. -/
def deletedIndex (conf : CharConf) (s : CharServer) (fd : Fin fdSetsize) (charId : Int)
    (email : CStr 40) : Option Nat :=
  (s.active fd).bind fun sd =>
    if !s.loginFd || needsEmail conf s sd || !strcasecmp (eMailOf email) sd.email then none
    else (foundIndex s sd fun c => c.charId = charId).bind sd.foundChar

/-- A `0x68` that is refused, selects instead, or deletes. -/
theorem charDelete_outcome (conf : CharConf) (now : Int) {s : CharServer} {fd : Fin fdSetsize}
    (ip : UInt32) {sd : SessionData} (hsd : s.active fd = some sd) (hlogin : s.loginFd = true)
    (charId : Int) (email : CStr 40) :
    Idle s (charDelete conf now s fd ip sd charId email).1
        (charDelete conf now s fd ip sd charId email).2 ∨
      (∃ slot, charDelete conf now s fd ip sd charId email =
        ((charSelect conf now (s.updateData fd fun sd => { sd with email := eMailOf email }) fd ip
            { sd with email := eMailOf email } slot).1,
          .error fd 0x70 1 :: (charSelect conf now
            (s.updateData fd fun sd => { sd with email := eMailOf email }) fd ip
            { sd with email := eMailOf email } slot).2)) ∨
      ∃ k i, sd.foundChar k = some i ∧ (s.charDat i).charId = charId ∧
        deletedIndex conf s fd charId email = some i ∧
        charDelete conf now s fd ip sd charId email = (deleteFound s fd k i, [.charDeleted fd]) := by
  unfold charDelete deletedIndex
  rw [hsd, hlogin]
  simp only [Option.bind_some, Bool.not_true, Bool.false_or]
  cases hneeds : needsEmail conf s sd with
  | true =>
    simp only [if_true]
    split
    · exact .inl (idle_refl s (by simp [CharOut.quiet]))
    · split
      · exact .inl (idle_refl s (by simp [CharOut.quiet]))
      · exact .inr (.inl ⟨_, rfl⟩)
  | false =>
    simp only [Bool.false_eq_true, if_false, Bool.false_or]
    split
    · exact .inl (idle_refl s (by simp [CharOut.quiet]))
    · split
      · exact .inl (idle_refl s (by simp [CharOut.quiet]))
      · rename_i k i hplace
        obtain ⟨k', hk', hmap⟩ := Option.bind_eq_some_iff.mp hplace
        obtain ⟨i', hi', heq⟩ := Option.map_eq_some_iff.mp hmap
        obtain ⟨rfl, rfl⟩ := Prod.mk.inj heq
        have htest : (s.charDat i').charId = charId := by
          have := Slots.first_some hk'
          simpa [hi'] using this
        exact .inr (.inr ⟨k', i', hi', htest, by simp [hk', hi'], rfl⟩)

end Nezumi
