import Nezumi.Lib.Run
import Nezumi.Char.ServerLemmas

/-!
# Authenticated sessions over whole runs (`char/char.c`)

* `AuthWorld` is the char-server with the requests that the login-server has not answered yet. Answers
  come back in the order of the requests. The rest of it is what has happened: who made the latest
  attempt for an account, when an entry of the ring was written, which entries have been used.
* `AuthBound` is what a step must keep to: a session is authenticated by an entry of the ring with
  its ids or by the answer to its own request, an answer goes to the connection that asked, and no
  entry is used twice.
* `AuthOk` is the invariant: the session of an account is the one of its latest attempt.
* `charRun_authBound`: a run is bound in every step if and only if each answer that lets an account
  in finds no session of the account, or the latest attempt is the one that it answers.
* `charRun_not_authBound`: an answer for a connection that is gone authenticates another one.
-/

namespace Nezumi

/-! ## What has happened -/

/-- A `0x65` request that has been taken up, with the number of the connection. -/
structure Attempt where
  conn : Nat
  ids : ConnectRequest
  deriving DecidableEq

/-- The server, its open requests, and what has happened. A connection and an entry of the ring are
known by the step that made them. -/
structure AuthWorld where
  server : CharServer
  queue : List Attempt := []
  conn : Fin fdSetsize → Nat := fun _ => 0
  latest : Int → Option Attempt := fun _ => none
  written : Fin authFifoSize → Nat := fun _ => 0
  uses : List (Fin authFifoSize × Nat) := []
  clock : Nat := 1

/-- An answer can only arrive for the oldest open request. -/
def AuthWorld.arrives (w : AuthWorld) : CharEvent → Bool
  | .loginAnswer accountId .. => w.queue.head?.any fun q => q.ids.accountId = accountId
  | _ => true

/-- The entry of the ring that a step uses. -/
def usedEntry (conf : CharConf) (s : CharServer) : CharEvent → Option (Fin authFifoSize)
  | .client fd (.connect r) => if s.attempts fd r then s.opened conf fd r else none
  | .mapAuth r => Slots.first (AuthEntry.serves conf r) s.authFifo.entry
  | _ => none

/-- The request that a packet to the login-server makes. -/
def AuthWorld.request (w : AuthWorld) : CharOut → Option Attempt
  | .toLogin fd r => some ⟨w.conn fd, ⟨r.accountId, r.loginId1, r.loginId2, r.sex⟩⟩
  | _ => none

/-- The open requests after a step. They are lost with the connection to the login-server. -/
def AuthWorld.nextQueue (w : AuthWorld) (out : List CharOut) : CharEvent → List Attempt
  | .loginAnswer .. => w.queue.tail
  | .servers false .. => []
  | _ => w.queue ++ out.filterMap w.request

def AuthWorld.nextConn (w : AuthWorld) : CharEvent → Fin fdSetsize → Nat
  | .accept fd _ =>
    if (w.server.session fd).isSome then w.conn else Function.update w.conn fd w.clock
  | _ => w.conn

def AuthWorld.nextLatest (w : AuthWorld) : CharEvent → Int → Option Attempt
  | .client fd (.connect r) =>
    if w.server.attempts fd r then Function.update w.latest r.accountId (some ⟨w.conn fd, r⟩)
    else w.latest
  | _ => w.latest

/-- The packets of a step, at a time. -/
def AuthWorld.out (conf : CharConf) (w : AuthWorld) (t : Int × CharEvent) : List CharOut :=
  if w.arrives t.2 then (charRun conf w.server t.1 t.2).2 else []

/-- A step of the server and of the record. -/
def charAuthStep (conf : CharConf) (w : AuthWorld) (t : Int × CharEvent) : AuthWorld :=
  if w.arrives t.2 then
    let p := charRun conf w.server t.1 t.2
    { server := p.1
      queue := w.nextQueue p.2 t.2
      conn := w.nextConn t.2
      latest := w.nextLatest t.2
      written := fun j =>
        if p.1.authFifo.entry j ≠ w.server.authFifo.entry j ∧ (p.1.authFifo.entry j).delflag ≠ 1
        then w.clock else w.written j
      uses := (usedEntry conf w.server t.2).toList.map (fun i => (i, w.written i)) ++ w.uses
      clock := w.clock + 1 }
  else w

/-! ## What a step must keep to -/

/-- A session is authenticated by an entry of the ring that has its ids and has not been used. -/
def Opened (conf : CharConf) (w : AuthWorld) (e : CharEvent) (fd : Fin fdSetsize)
    (sd' : SessionData) : Prop :=
  ∃ c i, e = .client fd (.connect sd'.ids) ∧ w.server.session fd = some c ∧
    usedEntry conf w.server e = some i ∧
    (w.server.authFifo.entry i).opens conf sd'.ids c.ip = true

/-- A session is authenticated by the answer to a request that it made with its ids. -/
def Accepted (w : AuthWorld) (e : CharEvent) (fd : Fin fdSetsize) (sd' : SessionData) : Prop :=
  w.queue.head? = some ⟨w.conn fd, sd'.ids⟩ ∧
    ∃ email time, e = .loginAnswer sd'.accountId false email time

/-- Authentication is bound to the ids and to the connection. -/
structure AuthBound (conf : CharConf) (w : AuthWorld) (t : Int × CharEvent) : Prop where
  granted : ∀ fd sd', (charAuthStep conf w t).server.data fd = some sd' → sd'.auth = true →
    (∃ sd, w.server.data fd = some sd ∧ sd.auth = true) ∨ Opened conf w t.2 fd sd' ∨
      Accepted w t.2 fd sd'
  credited : ∀ accountId error email time, t.2 = .loginAnswer accountId error email time →
    ∀ fd ids, .charList fd ids ∈ w.out conf t →
      ∃ sd, w.server.data fd = some sd ∧ w.queue.head? = some ⟨w.conn fd, sd.ids⟩
  fresh : ∀ i, usedEntry conf w.server t.2 = some i → (i, w.written i) ∉ w.uses

/-- An answer that lets an account in finds no session of it, or the latest attempt for the account is
the one that is answered. -/
def AnswerOk (conf : CharConf) (w : AuthWorld) (t : Int × CharEvent) : Prop :=
  match t.2 with
  | .loginAnswer accountId false _ _ =>
    w.arrives t.2 = true → w.server.letsIn conf t.1 accountId = true →
      (w.server.sessionOf accountId).isSome = true → w.latest accountId = w.queue.head?
  | _ => True

instance (conf : CharConf) (w : AuthWorld) (t : Int × CharEvent) :
    Decidable (AnswerOk conf w t) := by
  unfold AnswerOk
  split <;> infer_instance

/-! ## The invariant -/

structure AuthOk (w : AuthWorld) : Prop where
  unique : Unique w.server
  latest : ∀ fd sd, w.server.data fd = some sd →
    w.latest sd.accountId = some ⟨w.conn fd, sd.ids⟩
  unused : ∀ j, (w.server.authFifo.entry j).delflag ≠ 1 → (j, w.written j) ∉ w.uses
  written : ∀ j, w.written j < w.clock
  past : ∀ u ∈ w.uses, u.2 < w.clock

/-- A used entry was unused before. -/
theorem usedEntry_spec (conf : CharConf) (s : CharServer) (now : Int) {e : CharEvent}
    {i : Fin authFifoSize} (h : usedEntry conf s e = some i) :
    (s.authFifo.entry i).delflag ≠ 1 ∧
      ((charRun conf s now e).1.authFifo.entry i).delflag = 1 := by
  cases e with
  | client fd p =>
    cases p with
    | connect r =>
      simp only [usedEntry] at h
      split at h
      · rename_i hattempts
        constructor
        · unfold CharServer.opened at h
          obtain ⟨c, -, hfirst⟩ := Option.bind_eq_some_iff.mp h
          have hopens := Slots.first_some hfirst
          simp only [AuthEntry.opens, Bool.and_eq_true, decide_eq_true_eq] at hopens
          rw [hopens.2]
          decide
        · rcases parseChar_connect conf now s fd r with ⟨hno, -⟩ | ⟨-, ha⟩
          · rw [hattempts] at hno
            cases hno
          · exact ha.used i h
      · cases h
    | _ => cases h
  | mapAuth r =>
    have hfirst : Slots.first (AuthEntry.serves conf r) s.authFifo.entry = some i := h
    have hserves := Slots.first_some hfirst
    simp only [AuthEntry.serves, Bool.and_eq_true, decide_eq_true_eq] at hserves
    constructor
    · rw [hserves.2]
      decide
    · simp only [charRun]
      unfold mapAuth
      rw [hfirst]
      simp only [KeyRing.entry_modify, Function.update_self]
  | _ => cases h

/-- The record of the uses stays true. -/
theorem uses_step (conf : CharConf) {w : AuthWorld} (h : AuthOk w) (t : Int × CharEvent)
    (harr : w.arrives t.2 = true) :
    (∀ j, ((charAuthStep conf w t).server.authFifo.entry j).delflag ≠ 1 →
        (j, (charAuthStep conf w t).written j) ∉ (charAuthStep conf w t).uses) ∧
      (∀ j, (charAuthStep conf w t).written j < (charAuthStep conf w t).clock) ∧
      ∀ u ∈ (charAuthStep conf w t).uses, u.2 < (charAuthStep conf w t).clock := by
  unfold charAuthStep
  rw [if_pos harr]
  simp only [List.mem_append, List.mem_map, Option.mem_toList]
  refine ⟨fun j hj => ?_, fun j => ?_, fun u hu => ?_⟩
  · rintro (⟨i, hi, heq⟩ | hpast)
    · -- The entry is used in this step, so it is not unused after it.
      obtain ⟨rfl, -⟩ := Prod.mk.inj heq
      exact hj (usedEntry_spec conf w.server t.1 hi).2
    · split at hpast
      · have := h.past _ hpast
        simp only at this
        omega
      · rename_i hsame
        have heq : (charRun conf w.server t.1 t.2).1.authFifo.entry j = w.server.authFifo.entry j :=
          by_contra fun hne => hsame ⟨hne, hj⟩
        rw [heq] at hj
        exact h.unused j hj hpast
  · have := h.written j
    split <;> omega
  · rcases hu with ⟨i, -, rfl⟩ | hu
    · have := h.written i
      simp only
      omega
    · have := h.past u hu
      omega

/-- A step that authenticates nobody leaves the latest attempts alone. -/
theorem nextLatest_of_keeps {w : AuthWorld} {e : CharEvent} (he : e.authenticates = false) :
    w.nextLatest e = w.latest := by
  cases e with
  | client fd p => cases p with
    | connect r => cases he
    | _ => rfl
  | _ => rfl

/-- A connection that has data keeps its number. -/
theorem nextConn_of_data {w : AuthWorld} {fd : Fin fdSetsize} {sd : SessionData}
    (h : w.server.data fd = some sd) (e : CharEvent) : w.nextConn e fd = w.conn fd := by
  obtain ⟨c, hc, -⟩ := data_eq_some.mp h
  cases e with
  | accept fd' ip =>
    unfold AuthWorld.nextConn
    simp only
    split
    · rfl
    · rename_i hnone
      refine Function.update_of_ne ?_ ..
      rintro rfl
      rw [hc] at hnone
      exact hnone rfl
  | _ => rfl

/-- The latest attempts after a step that keeps the sessions. -/
theorem latest_of_keeps {w : AuthWorld} (h : AuthOk w) {s' : CharServer} {e : CharEvent}
    (hk : Keeps w.server s') (hl : w.nextLatest e = w.latest) (fd : Fin fdSetsize) (sd : SessionData)
    (hsd : s'.data fd = some sd) :
    w.nextLatest e sd.accountId = some ⟨w.nextConn e fd, sd.ids⟩ := by
  obtain ⟨td, htd, hids, -⟩ := hk.view fd sd hsd
  have hacc : sd.accountId = td.accountId := congrArg ConnectRequest.accountId hids
  rw [hl, hacc, nextConn_of_data htd, hids]
  exact h.latest fd td htd

theorem latest_step (conf : CharConf) {w : AuthWorld} (h : AuthOk w) (t : Int × CharEvent)
    (fd : Fin fdSetsize) (sd : SessionData)
    (hsd : (charRun conf w.server t.1 t.2).1.data fd = some sd) :
    w.nextLatest t.2 sd.accountId = some ⟨w.nextConn t.2 fd, sd.ids⟩ := by
  obtain ⟨now, e⟩ := t
  cases he : e.authenticates with
  | false =>
    exact latest_of_keeps h (keeps_charRun conf w.server now he) (nextLatest_of_keeps he) fd sd hsd
  | true =>
    cases e with
    | client fd' p =>
      cases p with
      | connect r =>
        rcases parseChar_connect conf now w.server fd' r with ⟨hno, hk⟩ | ⟨hyes, ha⟩
        · exact latest_of_keeps h hk (by simp [AuthWorld.nextLatest, hno]) fd sd hsd
        · simp only [AuthWorld.nextLatest, hyes, if_true, AuthWorld.nextConn]
          by_cases hfd : fd = fd'
          · -- the session of the attempt
            rw [hfd] at hsd ⊢
            obtain ⟨hids, -⟩ := ha.self sd hsd
            have hacc : sd.accountId = r.accountId := congrArg ConnectRequest.accountId hids
            rw [hacc, Function.update_self, hids]
          · have hsd' : w.server.data fd = some sd := by
              rw [← ha.others fd hfd]
              exact hsd
            rw [Function.update_of_ne (ha.account fd sd hfd hsd')]
            exact h.latest fd sd hsd'
      | _ => cases he
    | loginAnswer accountId error email time =>
      rcases loginAnswer_cases conf now w.server accountId error email time with
        ⟨hk, -, -⟩ | ⟨fd', td, ids, -, htd, -, -, -, hothers, td', htd', hids⟩
      · exact latest_of_keeps h hk rfl fd sd hsd
      · simp only [AuthWorld.nextLatest, AuthWorld.nextConn]
        by_cases hfd : fd = fd'
        · rw [hfd] at hsd ⊢
          obtain rfl : td' = sd := Option.some.inj (htd'.symm.trans hsd)
          have hacc : td'.accountId = td.accountId := congrArg ConnectRequest.accountId hids
          rw [hacc, hids]
          exact h.latest fd' td htd
        · exact h.latest fd sd ((hothers fd hfd).symm.trans hsd)
    | _ => cases he

theorem authOk_step (conf : CharConf) (w : AuthWorld) (t : Int × CharEvent) (h : AuthOk w) :
    AuthOk (charAuthStep conf w t) := by
  by_cases harr : w.arrives t.2 = true
  · obtain ⟨hunused, hwritten, hpast⟩ := uses_step conf h t harr
    refine ⟨?_, ?_, hunused, hwritten, hpast⟩
    · unfold charAuthStep
      rw [if_pos harr]
      exact unique_charRun conf w.server t.1 t.2 h.unique
    · unfold charAuthStep
      rw [if_pos harr]
      exact latest_step conf h t
  · unfold charAuthStep
    rwa [if_neg harr]

/-! ## Runs -/

/-- Who is authenticated by a step. -/
theorem granted_of_authOk (conf : CharConf) {w : AuthWorld} (h : AuthOk w) {t : Int × CharEvent}
    (hok : AnswerOk conf w t) (fd : Fin fdSetsize) (sd' : SessionData)
    (hsd' : (charAuthStep conf w t).server.data fd = some sd') (hauth : sd'.auth = true) :
    (∃ sd, w.server.data fd = some sd ∧ sd.auth = true) ∨ Opened conf w t.2 fd sd' ∨
      Accepted w t.2 fd sd' := by
  have of_keeps {s' : CharServer} (hk : Keeps w.server s') (hs : s'.data fd = some sd') :
      ∃ sd, w.server.data fd = some sd ∧ sd.auth = true := by
    obtain ⟨sd, hsd, -, ha⟩ := hk.view fd sd' hs
    exact ⟨sd, hsd, ha hauth⟩
  obtain ⟨now, e⟩ := t
  unfold charAuthStep at hsd'
  by_cases harr : w.arrives e = true
  · rw [if_pos harr] at hsd'
    cases he : e.authenticates with
    | false => exact .inl (of_keeps (keeps_charRun conf w.server now he) hsd')
    | true =>
      cases e with
      | client fd' p =>
        cases p with
        | connect r =>
          rcases parseChar_connect conf now w.server fd' r with ⟨-, hk⟩ | ⟨hyes, ha⟩
          · exact .inl (of_keeps hk hsd')
          · by_cases hfd : fd = fd'
            · rw [hfd] at hsd' ⊢
              obtain ⟨rfl, hopened⟩ := ha.self sd' hsd'
              obtain ⟨i, hi⟩ := Option.isSome_iff_exists.mp (hopened hauth)
              obtain ⟨c, hc, hfirst⟩ := Option.bind_eq_some_iff.mp hi
              exact .inr (.inl ⟨c, i, rfl, hc, by simp [usedEntry, hyes, hi],
                Slots.first_some hfirst⟩)
            · exact .inl ⟨sd', (ha.others fd hfd).symm.trans hsd', hauth⟩
        | _ => cases he
      | loginAnswer accountId error email time =>
        simp only [charRun] at hsd'
        rcases loginAnswer_cases conf now w.server accountId error email time with
          ⟨hk, -, -⟩ | ⟨fd', td, ids, hof, htd, herror, hlets, -, hothers, td', htd', hids⟩
        · exact .inl (of_keeps hk hsd')
        · by_cases hfd : fd = fd'
          · rw [hfd] at hsd' ⊢
            obtain rfl : td' = sd' := Option.some.inj (htd'.symm.trans hsd')
            obtain ⟨ud, hud, hua⟩ := sessionOf_some hof
            obtain rfl : td = ud := Option.some.inj (htd.symm.trans hud)
            subst herror
            have hacc : td'.accountId = accountId :=
              (congrArg ConnectRequest.accountId hids).trans hua
            have hlatest := hok harr hlets (by rw [hof]; rfl)
            refine .inr (.inr ⟨?_, email, time, by rw [hacc]⟩)
            rw [← hlatest, ← hua, hids]
            exact h.latest fd' td htd
          · exact .inl ⟨sd', (hothers fd hfd).symm.trans hsd', hauth⟩
      | _ => cases he
  · rw [if_neg harr] at hsd'
    exact .inl ⟨sd', hsd', hauth⟩

/-- An answer that finds the latest attempt is credited to the connection that asked. -/
theorem credited_of_authOk (conf : CharConf) {w : AuthWorld} (h : AuthOk w) {now accountId : Int}
    {error : Bool} {email : CStr 40} {time : Int}
    (hok : AnswerOk conf w (now, .loginAnswer accountId error email time)) {fd : Fin fdSetsize}
    {ids : List Int}
    (hout : .charList fd ids ∈ w.out conf (now, .loginAnswer accountId error email time)) :
    ∃ sd, w.server.data fd = some sd ∧ w.queue.head? = some ⟨w.conn fd, sd.ids⟩ := by
  unfold AuthWorld.out at hout
  split at hout
  · rename_i harr
    rcases loginAnswer_cases conf now w.server accountId error email time with
      ⟨-, hno, -⟩ | ⟨fd', td, ids', hof, htd, herror, hlets, hlist, -⟩
    · exact absurd hout (hno fd ids)
    · obtain ⟨ud, hud, hua⟩ := sessionOf_some hof
      obtain rfl : td = ud := Option.some.inj (htd.symm.trans hud)
      subst herror
      simp only [charRun, hlist, List.mem_singleton, CharOut.charList.injEq] at hout
      refine ⟨td, by rw [hout.1]; exact htd, ?_⟩
      rw [← hok harr hlets (by rw [hof]; rfl), ← hua, hout.1]
      exact h.latest fd' td htd
  · cases hout

/-- Between the steps, an answer is in order exactly when the step is bound. -/
theorem authBound_iff (conf : CharConf) (w : AuthWorld) (t : Int × CharEvent) (h : AuthOk w) :
    AuthBound conf w t ↔ AnswerOk conf w t := by
  constructor
  · intro hb
    obtain ⟨now, e⟩ := t
    unfold AnswerOk
    split
    · rename_i accountId email time heq
      intro harr hlets hsome
      simp only at heq harr hlets hsome
      subst heq
      rcases loginAnswer_cases conf now w.server accountId false email time with
        ⟨-, -, hnot⟩ | ⟨fd, td, ids, hof, htd, -, -, hlist, -⟩
      · rw [hnot hsome rfl] at hlets
        cases hlets
      · obtain ⟨sd, hsd, hhead⟩ := hb.credited accountId false email time rfl fd ids (by
          unfold AuthWorld.out
          rw [if_pos harr]
          simp [charRun, hlist])
        obtain ⟨ud, hud, hua⟩ := sessionOf_some hof
        obtain rfl : sd = ud := Option.some.inj (hsd.symm.trans hud)
        rw [hhead, ← hua]
        exact h.latest fd sd hsd
    · trivial
  · intro hok
    refine ⟨granted_of_authOk conf h hok, ?_, fun i hi => ?_⟩
    · rintro accountId error email time heq fd ids hout
      obtain ⟨now, e⟩ := t
      simp only at heq
      subst heq
      exact credited_of_authOk conf h hok hout
    · exact h.unused i (usedEntry_spec conf w.server t.1 hi).1

/-- A server without connections, with nothing recorded yet. -/
structure AuthWorld.Start (w : AuthWorld) : Prop where
  session : ∀ fd, w.server.session fd = none
  written : ∀ j, w.written j < w.clock
  uses : w.uses = []

theorem AuthWorld.Start.authOk {w : AuthWorld} (h : w.Start) : AuthOk w := by
  have hnone (fd : Fin fdSetsize) : w.server.data fd = none := by simp [CharServer.data, h.session]
  refine ⟨fun fd fd' sd sd' hsd => ?_, fun fd sd hsd => ?_, fun j _ => ?_, h.written, fun u hu => ?_⟩
  · rw [hnone] at hsd
    cases hsd
  · rw [hnone] at hsd
    cases hsd
  · simp [h.uses]
  · rw [h.uses] at hu
    cases hu

/-- **Authentication is bound** to the ids and to the connection in every step of a run, if and only
if each answer that lets an account in finds no session of the account, or the latest attempt for the
account is the one that it answers. -/
theorem charRun_authBound (conf : CharConf) {w : AuthWorld} {es : List (Int × CharEvent)}
    (hs : w.Start) :
    Run.Meets (charAuthStep conf) (AuthBound conf) w es ↔
      Run.Meets (charAuthStep conf) (AnswerOk conf) w es :=
  Run.meets_iff_of_inv (authOk_step conf) (authBound_iff conf) hs.authOk

/-- Whoever an answer authenticates has the oldest open request. -/
theorem AuthBound.conn_of_answer {conf : CharConf} {w : AuthWorld} {t : Int × CharEvent}
    (h : AuthBound conf w t) (fd : Fin fdSetsize)
    (hafter : ((charAuthStep conf w t).server.data fd).any SessionData.auth = true)
    (hbefore : (w.server.data fd).any SessionData.auth = false) {accountId : Int} {error : Bool}
    {email : CStr 40} {time : Int} (ht : t.2 = .loginAnswer accountId error email time) :
    w.queue.head?.map Attempt.conn = some (w.conn fd) := by
  obtain ⟨sd', hsd', hauth⟩ := (Option.any_eq_true ..).mp hafter
  rcases h.granted fd sd' hsd' hauth with ⟨sd, hsd, ha⟩ | ⟨c, i, he, -⟩ | ⟨hhead, -⟩
  · simp [hsd, ha] at hbefore
  · rw [ht] at he
    cases he
  · simp [hhead]

/-- A connection that asks for the characters of account 2000001. -/
def connects (fd : Fin fdSetsize) (ip loginId1 loginId2 : UInt32) : List (Int × CharEvent) :=
  [(1000, .accept fd ip), (1000, .client fd (.connect ⟨2000001, loginId1, loginId2, 1⟩))]

def answered (error : Bool) : Int × CharEvent :=
  (1000, .loginAnswer 2000001 error (cstr 40 "alice@example.com") 0)

/-- A request is refused, the next one is accepted, and a login is used. -/
theorem charRun_authBound_alice :
    Run.Meets (charAuthStep {}) (AuthBound {}) { server := {} }
      (connects ⟨5, by decide⟩ 7 11 12 ++ [answered true, (1000, .close ⟨5, by decide⟩)] ++
        connects ⟨6, by decide⟩ 7 21 22 ++ [answered false, (1000, .close ⟨6, by decide⟩),
          (1000, .loginInfo ⟨2000001, 31, 32, 7, 1⟩)] ++ connects ⟨7, by decide⟩ 7 31 32) :=
  (charRun_authBound {} ⟨fun _ => rfl, fun _ => Nat.one_pos, rfl⟩).mpr (by decide +kernel)

/-- A client asks with the ids of its login and goes, another one asks for the same account with ids
of its own, and the answer for the first lets the second in. -/
theorem charRun_not_authBound :
    ¬ Run.Meets (charAuthStep {}) (AuthBound {}) { server := {} }
      (connects ⟨5, by decide⟩ 7 11 12 ++ (1000, .close ⟨5, by decide⟩) ::
        connects ⟨6, by decide⟩ 9 66 67 ++ [answered false]) := by
  rintro ⟨-, -, -, -, -, h, -⟩
  exact absurd (h.conn_of_answer ⟨6, by decide⟩ (by decide +kernel) (by decide +kernel) rfl)
    (by decide +kernel)

end Nezumi
