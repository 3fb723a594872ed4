import Nezumi.Lib.Run
import Nezumi.Login.AnswerLemmas
import Nezumi.Login.Step

/-!
# Pending logins over whole runs (`login/login.c`)

* `Issue` and `Issues` are what a login is for: ids that a char-server may ask for once, while the
  account is not blocked. `observe` reads them off the packets that the server sends.
* `FifoOk` is the invariant: a valid entry of the ring is the unused issue of its account, with the
  first id moved on once for each revocation.
* `loginRun_pending`: in a run whose requests do not present an id that has been moved on, each
  accepted request is one for the latest login of its account, unused and not revoked.
* `loginRun_not_pending`: the id after the one of a blocked account is accepted.
-/

namespace Nezumi

/-! ## What a login is for -/

/-- The ids of a login, the number of revocations since, and whether it has been asked for. -/
structure Issue where
  loginId1 : UInt32
  loginId2 : UInt32
  altered : Nat := 0
  used : Bool := false
  deriving DecidableEq

/-- The latest login of each account. -/
abbrev Issues := Int → Option Issue

/-- The ids that a client is given. -/
def LoginOut.issued : LoginOut → Option (Int × Issue)
  | .client (.charServers loginId1 accountId loginId2 _ _) =>
    some (accountId, { loginId1 := loginId1, loginId2 := loginId2 })
  | _ => none

/-- A `0x2713` packet without an error. -/
def LoginOut.accepts : LoginOut → Bool
  | .char packet => packet.take 2 = word 0x2713 && packet[6]? = some 0
  | _ => false

/-- A `0x2731` packet, or a `0x2723` packet with another sex: the account is blocked or changed. -/
def LoginOut.revokes : LoginOut → Bool
  | .sendall packet => packet[6]? ≠ some 255
  | _ => false

/-- The issue of one account is changed. -/
def Issues.modify (h : Issues) (accountId : Int) (f : Issue → Issue) : Issues :=
  Function.update h accountId ((h accountId).map f)

/-- What a step says about the logins. -/
def observe (h : Issues) (e : LoginEvent) (out : List LoginOut) : Issues :=
  match e with
  | .login _ =>
    match out.findSome? LoginOut.issued with
    | some (accountId, issue) => Function.update h accountId (some issue)
    | none => h
  | .request r =>
    if out.any LoginOut.accepts then h.modify r.accountId fun i => { i with used := true } else h
  | .status accountId _ | .ban _ accountId _ | .sex accountId _ =>
    if out.any LoginOut.revokes then h.modify accountId fun i => { i with altered := i.altered + 1 }
    else h
  | _ => h

/-- A run of the server and of what it says. -/
def authStep (env : LoginEnv) (w : LoginState × Issues) (e : LoginEvent) : LoginState × Issues :=
  (loginStep env w.1 e, observe w.2 e (loginOut env w.1 e))

/-- The request carries the ids of the login, which has been asked for by nobody and not been
revoked. -/
structure Pending (i : Issue) (r : AuthRequest) : Prop where
  loginId1 : r.loginId1 = i.loginId1
  loginId2 : r.loginId2 = i.loginId2
  unused : i.used = false
  unaltered : i.altered = 0

instance (i : Issue) (r : AuthRequest) : Decidable (Pending i r) :=
  decidable_of_iff (r.loginId1 = i.loginId1 ∧ r.loginId2 = i.loginId2 ∧ i.used = false ∧
    i.altered = 0) ⟨fun ⟨a, b, c, d⟩ => ⟨a, b, c, d⟩, fun ⟨a, b, c, d⟩ => ⟨a, b, c, d⟩⟩

/-- An accepted request is for the latest login of its account. -/
def RequestPending (env : LoginEnv) (w : LoginState × Issues) (e : LoginEvent) : Prop :=
  match e with
  | .request r =>
    (loginOut env w.1 e).any LoginOut.accepts = true → ∃ i ∈ w.2 r.accountId, Pending i r
  | _ => True

/-- A request does not present, for an unused login, the first id moved on by the revocations since;
and it presents the second id, where this is not checked. -/
def RequestOk (env : LoginEnv) (w : LoginState × Issues) (e : LoginEvent) : Prop :=
  match e with
  | .request r =>
    ∀ i ∈ w.2 r.accountId, i.used = false → r.loginId1 = i.loginId1 + UInt32.ofNat i.altered →
      i.altered = 0 ∧ (env.conf.checkAuthfifoLogin2 = false → r.loginId2 = i.loginId2)
  | _ => True

instance (env : LoginEnv) (w : LoginState × Issues) (e : LoginEvent) :
    Decidable (RequestPending env w e) := by
  cases e <;> unfold RequestPending <;> infer_instance

instance (env : LoginEnv) (w : LoginState × Issues) (e : LoginEvent) :
    Decidable (RequestOk env w e) := by
  cases e <;> unfold RequestOk <;> infer_instance

/-! ## The invariant -/

/-- A valid entry of the ring is the unused issue of its account. -/
structure EntryOk (h : Issues) (e : AuthFifo) (i : Issue) : Prop where
  issue : h e.accountId = some i
  unused : i.used = false
  loginId1 : e.loginId1 = i.loginId1 + UInt32.ofNat i.altered
  loginId2 : e.loginId2 = i.loginId2

/-- Validity of an entry. -/
def AuthFifo.live (e : AuthFifo) : Prop := e.delflag = false

structure FifoOk (w : LoginState × Issues) : Prop where
  front : w.1.authFifo.Front AuthFifo.accountId AuthFifo.live
  entry : ∀ j, (w.1.authFifo.entry j).live → ∃ i, EntryOk w.2 (w.1.authFifo.entry j) i

/-! ## What a step does to the ring -/

/-- What an authorized account is announced with gives no ids to the client. -/
theorem findSome?_announce {c : Prop} [Decidable c] (p q : List UInt8) (l : List LoginOut) :
    ((LoginOut.sendall p :: if c then [.sendall q] else []) ++ l).findSome? LoginOut.issued =
      l.findSome? LoginOut.issued := by
  split <;> rfl

/-- A login leaves the ring alone, or it is put there and its ids are given to the client. -/
theorem parseLogin_cases (libc : Libc) (conf : LoginConf) (buf : Bytes.Buf) (s : LoginState)
    (p : ClientLogin) :
    ((parseLogin libc conf buf s p).1.authFifo = s.authFifo ∧
      (parseLogin libc conf buf s p).2.findSome? LoginOut.issued = none) ∨
    ∃ e : AuthFifo, e.live ∧
      (parseLogin libc conf buf s p).1.authFifo = s.authFifo.put AuthFifo.accountId e ∧
      (parseLogin libc conf buf s p).2.findSome? LoginOut.issued =
        some (e.accountId, { loginId1 := e.loginId1, loginId2 := e.loginId2 }) := by
  unfold parseLogin
  obtain ⟨result, account, db⟩ := mmoAuth libc conf s.toAccounts p.account p.call
  simp only
  split
  · split
    · exact .inl ⟨rfl, findSome?_announce ..⟩
    · split
      · exact .inl ⟨rfl, findSome?_announce ..⟩
      · split
        · refine .inr ⟨⟨account.accountId, account.loginId1, account.loginId2, p.call.ip,
            account.sex, false⟩, rfl, rfl, findSome?_announce ..⟩
        · exact .inl ⟨rfl, findSome?_announce ..⟩
  · exact .inl ⟨rfl, rfl⟩

/-- A request is accepted when an entry and an account are found, and then the entry is used. -/
theorem authRequest_cases (conf : LoginConf) (mem : Nat → AuthDat) (buf : Bytes.Buf)
    (s : LoginState) (r : AuthRequest) :
    ((authRequest conf mem buf s r).1 = s ∧
      (authRequest conf mem buf s r).2.any LoginOut.accepts = false) ∨
    ∃ i, (s.authFifo.entry i).answers conf r = true ∧
      (authRequest conf mem buf s r).1.authFifo =
        s.authFifo.modify i (fun e => { e with delflag := true }) ∧
      (authRequest conf mem buf s r).2.any LoginOut.accepts = true := by
  unfold authRequest
  cases hacc : authAccepted conf s r with
  | none =>
    refine .inl ⟨rfl, ?_⟩
    simp [LoginOut.accepts, authRefusedPacket]
  | some p =>
    obtain ⟨i, k⟩ := p
    refine .inr ⟨i, Slots.first_some (authAccepted_some hacc).2, rfl, ?_⟩
    simp [LoginOut.accepts, authOkPacket]

/-- What the three revocations do: the ids of the account's logins are moved on and the
char-servers are told, or neither happens. -/
structure Revocation (s : LoginState) (accountId : Int) (p : LoginState × List LoginOut) : Prop where
  cases : (p.1.authFifo = s.authFifo ∧ p.2.any LoginOut.revokes = false) ∨
    (p.1.authFifo = s.authFifo.map (AuthFifo.alter accountId) ∧ p.2.any LoginOut.revokes = true)

theorem changeStatus_revocation (s : LoginState) (accountId statut : Int) :
    Revocation s accountId (changeStatus s accountId statut) := by
  constructor
  unfold changeStatus
  cases searchAccountIndex2 s.authDat accountId with
  | none => exact .inl ⟨rfl, rfl⟩
  | some i =>
    simp only
    split
    · exact .inl ⟨rfl, rfl⟩
    · split
      · by_cases hs : statut = 0
        · exact .inl (by simp [hs])
        · refine .inr ?_
          simp [hs, LoginOut.revokes, statusPacket]
      · exact .inl ⟨rfl, rfl⟩

theorem banRequest_revocation (libc : Libc) (now : Int) (s : LoginState) (accountId : Int)
    (delta : BanDelta) : Revocation s accountId (banRequest libc now s accountId delta) := by
  constructor
  unfold banRequest
  cases searchAccountIndex2 s.authDat accountId with
  | none => exact .inl ⟨rfl, rfl⟩
  | some i =>
    simp only
    split
    · exact .inl ⟨rfl, rfl⟩
    · cases banTimestamp libc now (s.authDat.getD i default) delta with
      | none => exact .inl ⟨rfl, rfl⟩
      | some timestamp =>
        simp only
        split
        · by_cases ht : timestamp = 0
          · exact .inl (by simp [ht])
          · refine .inr ?_
            simp [ht, LoginOut.revokes, statusPacket]
        · exact .inl ⟨rfl, rfl⟩

theorem changeSex_revocation (s : LoginState) (accountId gm : Int) :
    Revocation s accountId (changeSex s accountId gm) := by
  constructor
  unfold changeSex
  cases searchAccountIndex2 s.authDat accountId with
  | none =>
    refine .inl ⟨rfl, ?_⟩
    simp [LoginOut.revokes, sexPacket]
  | some i =>
    simp only
    split
    · refine .inl ⟨rfl, ?_⟩
      simp [LoginOut.revokes, sexPacket]
    · refine .inr ⟨rfl, ?_⟩
      simp only [List.any_cons, List.any_nil, Bool.or_false, LoginOut.revokes, sexPacket]
      split <;> simp

/-! ## The invariant is kept -/

theorem AuthFifo.accountId_alter (accountId : Int) (e : AuthFifo) :
    (e.alter accountId).accountId = e.accountId := by
  unfold AuthFifo.alter
  split <;> rfl

theorem AuthFifo.delflag_alter (accountId : Int) (e : AuthFifo) :
    (e.alter accountId).delflag = e.delflag := by
  unfold AuthFifo.alter
  split <;> rfl

theorem Issues.modify_of_ne {h : Issues} {a b : Int} {f : Issue → Issue} (hne : b ≠ a) :
    h.modify a f b = h b := Function.update_of_ne hne ..

theorem Issues.modify_self {h : Issues} {a : Int} {f : Issue → Issue} {i : Issue}
    (hi : h a = some i) : h.modify a f a = some (f i) := by simp [Issues.modify, hi]

/-- A revocation moves on the issue of the account and its valid entry together. -/
theorem entryOk_alter {h : Issues} {e : AuthFifo} {i : Issue} (he : EntryOk h e i)
    (accountId : Int) :
    ∃ i', EntryOk (h.modify accountId fun i => { i with altered := i.altered + 1 })
      (e.alter accountId) i' := by
  by_cases ha : e.accountId = accountId
  · refine ⟨{ i with altered := i.altered + 1 }, ?_, he.unused, ?_, ?_⟩
    · subst ha
      rw [AuthFifo.accountId_alter]
      exact Issues.modify_self he.issue
    · simp only [AuthFifo.alter, ha, if_true, he.loginId1, UInt32.ofNat_add]
      rw [UInt32.add_assoc]
      rfl
    · simp only [AuthFifo.alter, ha, if_true, he.loginId2]
  · refine ⟨i, ?_, he.unused, ?_, ?_⟩
    · rw [AuthFifo.accountId_alter, Issues.modify_of_ne ha]
      exact he.issue
    · simpa [AuthFifo.alter, ha] using he.loginId1
    · simpa [AuthFifo.alter, ha] using he.loginId2

theorem fifoOk_revocation {w : LoginState × Issues} (h : FifoOk w) {accountId : Int}
    {p : LoginState × List LoginOut} (hp : Revocation w.1 accountId p) :
    FifoOk (p.1, if p.2.any LoginOut.revokes then
      w.2.modify accountId fun i => { i with altered := i.altered + 1 } else w.2) := by
  rcases hp.cases with ⟨hfifo, hout⟩ | ⟨hfifo, hout⟩
  · rw [hout]
    exact ⟨by rw [hfifo]; exact h.front, by rw [hfifo]; exact h.entry⟩
  · rw [hout]
    constructor
    · rw [hfifo]
      exact KeyRing.front_map h.front (AuthFifo.accountId_alter accountId)
        fun e he => by simpa [AuthFifo.live, AuthFifo.delflag_alter] using he
    · intro j hj
      rw [hfifo, KeyRing.entry_map] at hj ⊢
      obtain ⟨i, hi⟩ := h.entry j (by simpa [AuthFifo.live, AuthFifo.delflag_alter] using hj)
      exact entryOk_alter hi accountId

/-- A new login is the issue of its account, and its entry is the only valid one of it. -/
theorem fifoOk_login (env : LoginEnv) {w : LoginState × Issues} (h : FifoOk w) (p : ClientLogin) :
    FifoOk (authStep env w (.login p)) := by
  rcases parseLogin_cases env.libc env.conf env.buf w.1 p with
    ⟨hfifo, hout⟩ | ⟨e, he, hfifo, hout⟩
  · have hw : observe w.2 (.login p) (loginOut env w.1 (.login p)) = w.2 := by
      simp only [observe, loginOut, loginRun, hout]
    constructor
    · simpa only [authStep, loginStep, loginRun, hfifo] using h.front
    · simpa only [authStep, loginStep, loginRun, hfifo, hw] using h.entry
  · have hw : observe w.2 (.login p) (loginOut env w.1 (.login p)) =
        Function.update w.2 e.accountId (some { loginId1 := e.loginId1, loginId2 := e.loginId2 }) := by
      simp only [observe, loginOut, loginRun, hout]
    constructor
    · simpa only [authStep, loginStep, loginRun, hfifo] using KeyRing.front_put h.front e
    · intro j hj
      simp only [authStep, loginStep, loginRun, hfifo, KeyRing.entry_put, hw] at hj ⊢
      by_cases hne : j = (w.1.authFifo.place AuthFifo.accountId e.accountId).1
      · rw [hne, Function.update_self]
        exact ⟨_, Function.update_self .., rfl, (UInt32.add_zero _).symm, rfl⟩
      · rw [Function.update_of_ne hne] at hj ⊢
        have hkey := h.front.key_ne_of_put hj hne
        obtain ⟨i, hi⟩ := h.entry j hj
        exact ⟨i, by rw [Function.update_of_ne hkey]; exact hi.issue, hi.unused, hi.loginId1,
          hi.loginId2⟩

/-- A used entry is no longer valid, and no other valid entry has its account. -/
theorem fifoOk_request (env : LoginEnv) {w : LoginState × Issues} (h : FifoOk w) (r : AuthRequest) :
    FifoOk (authStep env w (.request r)) := by
  rcases authRequest_cases env.conf env.mem env.buf w.1 r with
    ⟨hs, hout⟩ | ⟨i, hans, hfifo, hout⟩
  · have hw : authStep env w (.request r) = w := by
      simp only [authStep, loginStep, loginRun, observe, loginOut, hs, hout, Bool.false_eq_true,
        if_false]
    rwa [hw]
  · obtain ⟨hacc, hlive⟩ : (w.1.authFifo.entry i).accountId = r.accountId ∧
        (w.1.authFifo.entry i).live := by
      simp only [AuthFifo.answers, Bool.and_eq_true, decide_eq_true_eq] at hans
      exact ⟨hans.1.1.1.1.1, by simpa [AuthFifo.live] using hans.2⟩
    have hw : observe w.2 (.request r) (loginOut env w.1 (.request r)) =
        w.2.modify r.accountId fun i => { i with used := true } := by
      simp only [observe, loginOut, loginRun, hout, if_true]
    constructor
    · simp only [authStep, loginStep, loginRun, hfifo]
      exact KeyRing.front_modify h.front (f := fun e => { e with delflag := true }) (fun _ => rfl)
        (fun e he => absurd he (by simp [AuthFifo.live])) i
    · intro j hj
      simp only [authStep, loginStep, loginRun, hfifo, KeyRing.entry_modify, hw] at hj ⊢
      rcases eq_or_ne j i with rfl | hne
      · simp [AuthFifo.live] at hj
      · rw [Function.update_of_ne hne] at hj ⊢
        have hkey : (w.1.authFifo.entry j).accountId ≠ r.accountId :=
          fun hk => hne (h.front.eq_of_key hj hlive (hk.trans hacc.symm))
        obtain ⟨i', hi'⟩ := h.entry j hj
        exact ⟨i', by rw [Issues.modify_of_ne hkey]; exact hi'.issue, hi'.unused, hi'.loginId1,
          hi'.loginId2⟩

theorem fifoOk_step (env : LoginEnv) (w : LoginState × Issues) (e : LoginEvent) (h : FifoOk w) :
    FifoOk (authStep env w e) := by
  cases e with
  | login p => exact fifoOk_login env h p
  | request r => exact fifoOk_request env h r
  | status accountId statut => exact fifoOk_revocation h (changeStatus_revocation w.1 _ _)
  | ban now accountId delta => exact fifoOk_revocation h (banRequest_revocation _ _ w.1 _ _)
  | sex accountId gm => exact fifoOk_revocation h (changeSex_revocation w.1 _ _)
  | create | delete | servers => exact ⟨h.front, h.entry⟩

/-! ## Runs -/

/-- What the invariant says about an accepted request. -/
theorem requestPending_of_fifoOk (env : LoginEnv) (w : LoginState × Issues) (e : LoginEvent)
    (h : FifoOk w) (hok : RequestOk env w e) : RequestPending env w e := by
  cases e with
  | request r =>
    intro hacc
    rcases authRequest_cases env.conf env.mem env.buf w.1 r with ⟨-, hout⟩ | ⟨j, hans, -, -⟩
    · exact absurd hacc (by simp [loginOut, loginRun, hout])
    · simp only [AuthFifo.answers, Bool.and_eq_true, Bool.or_eq_true, decide_eq_true_eq,
        Bool.not_eq_true'] at hans
      obtain ⟨⟨⟨⟨⟨ha, h1⟩, h2⟩, -⟩, -⟩, hlive⟩ := hans
      obtain ⟨i, hi⟩ := h.entry j hlive
      have hissue : w.2 r.accountId = some i := by rw [← ha]; exact hi.issue
      obtain ⟨haltered, hid2⟩ := hok i hissue hi.unused (by rw [← h1]; exact hi.loginId1)
      refine ⟨i, hissue, ?_, ?_, hi.unused, haltered⟩
      · rw [← h1, hi.loginId1, haltered]
        simp
      · rcases h2 with h2 | h2
        · exact hid2 h2
        · rw [← h2, hi.loginId2]
  | _ => trivial

/-- The server before the first login. -/
structure AuthStart (w : LoginState × Issues) : Prop where
  delflag : ∀ j, (w.1.authFifo.entry j).delflag = true

theorem AuthStart.fifoOk {w : LoginState × Issues} (h : AuthStart w) : FifoOk w where
  front j hj := absurd hj (by simp [AuthFifo.live, h.delflag j])
  entry j hj := absurd hj (by simp [AuthFifo.live, h.delflag j])

/-- **Pending logins.** In a run whose requests do not present an id that has been moved on, every
accepted request is one for the latest login of its account, which nobody has asked for and which
has not been revoked. -/
theorem loginRun_pending (env : LoginEnv) {w : LoginState × Issues} {es : List LoginEvent}
    (hs : AuthStart w) (hm : Run.Meets (authStep env) (RequestOk env) w es) :
    Run.Meets (authStep env) (RequestPending env) w es :=
  Run.meets_of_inv (fun w e hI _ => fifoOk_step env w e hI) (requestPending_of_fifoOk env)
    hs.fifoOk hm

/-- One account and one char-server. -/
def aliceServer : LoginState where
  authDat := [{ accountId := 2000001, sex := 1, userid := cstr 24 "alice",
                pass := cstr 32 "sesame" }]
  accountIdCount := 2000002
  serverFd k := k.val = 0

def aliceLogin (rand1 rand2 : UInt32) : LoginEvent :=
  .login {
    userid := (cstr 24 "alice").bytes
    passwd := (cstr 24 "sesame").bytes
    call := { now := 1000, rand1 := rand1, rand2 := rand2, ip := 7 } }

/-- Two logins, a ban, and requests with old and with new ids. -/
theorem loginRun_pending_alice :
    Run.Meets (authStep { libc := plainLibc }) (RequestPending { libc := plainLibc })
      (aliceServer, fun _ => none)
      [aliceLogin 11 12, aliceLogin 31 32, .request ⟨2000001, 11, 12, 1, 7⟩,
        .request ⟨2000001, 31, 32, 1, 7⟩, aliceLogin 51 52, .ban 1000 2000001 { min := 5 },
        .request ⟨2000001, 51, 52, 1, 7⟩] :=
  loginRun_pending { libc := plainLibc } ⟨fun _ => rfl⟩ (by decide +kernel)

/-- An account that has been blocked is asked for with the id after the one of its login, and the
request is accepted. -/
theorem loginRun_not_pending :
    ¬ Run.Meets (authStep { libc := plainLibc }) (RequestPending { libc := plainLibc })
      (aliceServer, fun _ => none)
      [aliceLogin 11 12, .status 2000001 5, .request ⟨2000001, 12, 12, 1, 7⟩] := by
  decide +kernel

end Nezumi
