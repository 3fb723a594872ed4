import Nezumi.Login.Server

/-!
# What the login server says about an account

* `reg2List` reads the variables back from a `0x2729` packet.
* `reg2List_login`: the packet of a login lists the variables of its account.
* `requestReg2_fst_read`: the loop of a `0x2712` request leaves the head of the packet alone, and
  the packet ends there.
* `authRequest_answersFor_iff`: the answer to an accepted request is about the requested account
  exactly when the account has no variable.
-/

namespace Nezumi

open Bytes

/-! ## Reading packets -/

/-- The length field of a `0x2729` packet. -/
def reg2Size (packet : List UInt8) : Nat := leVal ((packet.drop 2).take 2)

/-- The variable at an offset of a packet. -/
def regAt (packet : List UInt8) (off : Nat) : GlobalReg where
  str := CStr.ofField 32 ((packet.drop off).take 32)
  value := longAt packet (off + 32)

/-- The variables that a `0x2729` packet lists. -/
def reg2List (packet : List UInt8) : List GlobalReg :=
  (List.range ((reg2Size packet - 8) / 36)).map fun m => regAt packet (8 + 36 * m)

/-- The variables of an account. -/
def AuthDat.reg2 (a : AuthDat) : List GlobalReg :=
  (List.range a.accountReg2Num.toNat).map a.accountReg2

/-- The `0x2729` packet that a login of the account sends to all char-servers. -/
def loginReg2Packet (a : AuthDat) (buf : Buf) : List UInt8 :=
  reg2Packet (loginReg2 a buf).1 (loginReg2 a buf).2 a.accountId

/-- The answer `out` to a request for account `accountId` is about that account, which is `a`: its
variables, the same list as at its login, its e-mail and its time limit. -/
structure AnswersFor (a : AuthDat) (accountId : Int) (list info : List UInt8) : Prop where
  requested : a.accountId = accountId
  listAccount : longAt list 4 = BitVec.ofInt 32 accountId
  regs : reg2List list = a.reg2
  login : ∀ buf, reg2List list = reg2List (loginReg2Packet a buf)
  infoAccount : longAt info 2 = BitVec.ofInt 32 accountId
  accepted : info[6]? = some 0
  email : CStr.ofField 40 ((info.drop 7).take 40) = a.email
  connectUntilTime : longAt info 47 = BitVec.ofInt 32 a.connectUntilTime

@[simp] theorem length_word (v : Nat) : (word v).length = 2 := by simp [word]

@[simp] theorem length_long (v : Int) : (long v).length = 4 := by simp [long]

@[simp] theorem take_long (v : Int) : (long v).take 4 = long v :=
  List.take_of_length_le (by simp)

theorem leVal_long (v : Int) : BitVec.ofNat 32 (leVal (long v)) = BitVec.ofInt 32 v := by
  rw [long, leVal_leBytes_toNat (n := 4) (BitVec.ofInt 32 v), BitVec.ofNat_toNat,
    BitVec.setWidth_eq]

/-- A field inside the part of a buffer that is sent. -/
theorem take_drop_read {b : Buf} {off m size : Nat} (h : off + m ≤ size) :
    ((read b 0 size).drop off).take m = read b off m := by
  apply List.ext_getElem
  · simp
    omega
  · intro i h₁ h₂
    simp [Bytes.read]

/-! ## The head of a packet -/

theorem reg2Size_reg2Packet {buf : Buf} {size : Nat} {accountId : Int} (h : 8 ≤ size) :
    reg2Size (reg2Packet buf size accountId) = size % 65536 := by
  unfold reg2Size reg2Packet
  rw [take_drop_read (by omega), read_write_of_disjoint (by simp),
    read_write_of_length (by simp), word, leVal_leBytes]
  rfl

theorem longAt_reg2Packet {buf : Buf} {size : Nat} {accountId : Int} (h : 8 ≤ size) :
    longAt (reg2Packet buf size accountId) 4 = BitVec.ofInt 32 accountId := by
  unfold longAt reg2Packet
  rw [take_drop_read (by omega), read_write_of_length (by simp), leVal_long]

/-- Behind its head, a packet holds the bytes of the buffer. -/
theorem read_reg2Packet {buf : Buf} {size : Nat} {accountId : Int} {off n : Nat} (h : 8 ≤ off)
    (hn : off + n ≤ size) :
    ((reg2Packet buf size accountId).drop off).take n = read buf off n := by
  unfold reg2Packet
  rw [take_drop_read hn, read_write_of_disjoint (by simp; omega),
    read_write_of_disjoint (by simp; omega), read_write_of_disjoint (by simp; omega)]

/-! ## The loop of a login -/

/-- The variable at an offset of a buffer. -/
def bufReg (buf : Buf) (off : Nat) : GlobalReg where
  str := CStr.ofField 32 (read buf off 32)
  value := BitVec.ofNat 32 (leVal (read buf (off + 32) 4))

theorem bufReg_writeReg (buf : Buf) (off : Nat) (reg : GlobalReg) :
    bufReg (writeReg buf off reg) off = reg := by
  have hstr : read (writeReg buf off reg) off 32 = reg.str.pad := by
    rw [writeReg, read_write_of_disjoint (by omega), read_write_of_length (by simp)]
  have hval : read (writeReg buf off reg) (off + 32) 4 = leBytes 4 reg.value.toNat := by
    rw [writeReg, read_write_of_length (by simp)]
  unfold bufReg
  rw [hstr, hval, CStr.ofField_pad, leVal_leBytes_toNat (n := 4) reg.value, BitVec.ofNat_toNat,
    BitVec.setWidth_eq]

theorem bufReg_writeReg_of_disjoint {buf : Buf} {off off' : Nat} {reg : GlobalReg}
    (h : off + 36 ≤ off') : bufReg (writeReg buf off' reg) off = bufReg buf off := by
  unfold bufReg writeReg
  have hd (n w : Nat) (hn : w + n ≤ off') :
      read (write (write buf off' reg.str.pad) (off' + 32) (leBytes 4 reg.value.toNat)) w n =
        read buf w n := by
    rw [read_write_of_disjoint (by omega), read_write_of_disjoint (by omega)]
  rw [hd 32 off (by omega), hd 4 (off + 32) (by omega)]

/-- After `n` rounds the offset is behind the first `n` variables, which stand in order. -/
theorem loginReg2_rounds (regs : Nat → GlobalReg) (buf : Buf) (n : Nat) :
    let p := (List.range n).foldl (fun p j => (writeReg p.1 p.2 (regs j), p.2 + 36)) (buf, 8)
    p.2 = 8 + 36 * n ∧ ∀ m < n, bufReg p.1 (8 + 36 * m) = regs m := by
  induction n with
  | zero => simp
  | succ n ih =>
    obtain ⟨hoff, hregs⟩ := ih
    simp only [List.range_succ, List.foldl_append, List.foldl_cons, List.foldl_nil, hoff]
    refine ⟨by omega, fun m hm => ?_⟩
    rcases Nat.lt_succ_iff_lt_or_eq.mp hm with hlt | rfl
    · rw [bufReg_writeReg_of_disjoint (by omega)]
      exact hregs m hlt
    · exact bufReg_writeReg ..

/-- **The list of a login.** While its length fits the field, the packet lists exactly the
account's variables. -/
theorem reg2List_login {a : AuthDat} {buf : Buf} (h : 8 + 36 * a.accountReg2Num.toNat < 65536) :
    reg2List (loginReg2Packet a buf) = a.reg2 := by
  obtain ⟨hoff, hregs⟩ := loginReg2_rounds a.accountReg2 buf a.accountReg2Num.toNat
  have hsize : (loginReg2 a buf).2 = 8 + 36 * a.accountReg2Num.toNat := hoff
  have hcount : (reg2Size (loginReg2Packet a buf) - 8) / 36 = a.accountReg2Num.toNat := by
    rw [loginReg2Packet, reg2Size_reg2Packet (by omega), hsize, Nat.mod_eq_of_lt h]
    omega
  unfold reg2List AuthDat.reg2
  rw [hcount]
  apply List.map_congr_left
  intro m hm
  rw [List.mem_range] at hm
  have hreg := hregs m hm
  unfold regAt longAt loginReg2Packet
  rw [read_reg2Packet (by omega) (by omega), read_reg2Packet (by omega) (by omega)]
  exact hreg

/-! ## The loop of a request -/

/-- A packet that ends behind its head lists nothing. -/
theorem reg2List_head (buf : Buf) (accountId : Int) : reg2List (reg2Packet buf 8 accountId) = [] := by
  unfold reg2List
  rw [reg2Size_reg2Packet (by omega)]
  rfl

/-- Without variables the loop does not run. -/
theorem requestReg2_zero {mem : Nat → AuthDat} {authDat : List AuthDat} {size k : Nat} {buf : Buf}
    (h : (authDatAt mem authDat k).accountReg2Num = 0) :
    requestReg2 mem authDat size buf k 0 = (buf, k) := by
  unfold requestReg2
  simp [h]

theorem authAccepted_some {conf : LoginConf} {s : LoginState} {r : AuthRequest}
    {i : Fin authFifoSize} {k : Nat} (h : authAccepted conf s r = some (i, k)) :
    searchAccountIndex2 s.authDat r.accountId = some k ∧
      Slots.first (AuthFifo.answers conf r) s.authFifo.entry = some i := by
  unfold authAccepted at h
  cases hk : searchAccountIndex2 s.authDat r.accountId with
  | none => simp [hk] at h
  | some k' =>
    simp only [hk, Option.map_eq_some_iff] at h
    obtain ⟨i', hi, heq⟩ := h
    cases heq
    exact ⟨rfl, hi⟩

theorem searchAccountIndex2_some {authDat : List AuthDat} {accountId : Int} {k : Nat}
    (h : searchAccountIndex2 authDat accountId = some k) :
    ∃ a, authDat[k]? = some a ∧ a.accountId = accountId := by
  unfold searchAccountIndex2 at h
  obtain ⟨hk, ha, -⟩ := List.findIdx?_eq_some_iff_getElem.mp h
  exact ⟨authDat[k], List.getElem?_eq_getElem hk, by simpa using ha⟩

/-! ## The answer -/

/-- The account of an accepted request. -/
def requestedAccount (s : LoginState) (k : Nat) : AuthDat := s.authDat.getD k default

/-- The two packets of an accepted request. -/
def answerPackets (mem : Nat → AuthDat) (buf : Buf) (s : LoginState) (accountId : Int) (k : Nat) :
    List UInt8 × List UInt8 :=
  let reg2 := requestReg2 mem s.authDat 8 buf k 0
  (reg2Packet reg2.1 8 accountId, authOkPacket accountId (authDatAt mem s.authDat reg2.2))

theorem authRequest_out {conf : LoginConf} {mem : Nat → AuthDat} {buf : Buf} {s : LoginState}
    {r : AuthRequest} {i : Fin authFifoSize} {k : Nat} (h : authAccepted conf s r = some (i, k)) :
    (authRequest conf mem buf s r).2 =
      [.char (answerPackets mem buf s r.accountId k).1,
        .char (answerPackets mem buf s r.accountId k).2] := by
  unfold authRequest
  rw [h]
  rfl

theorem answersFor_num_zero {a : AuthDat} {accountId : Int} {buf : Buf} {info : List UInt8}
    (h : AnswersFor a accountId (reg2Packet buf 8 accountId) info) : a.accountReg2Num = 0 := by
  have hnil := h.regs
  rw [reg2List_head] at hnil
  have hnum : a.accountReg2Num.toNat = 0 := by simpa [AuthDat.reg2] using hnil.symm
  exact UInt16.toNat_inj.mp hnum

/-- The fields of a `0x2713` packet that accepts. -/
theorem authOkPacket_fields (accountId : Int) (a : AuthDat) :
    longAt (authOkPacket accountId a) 2 = BitVec.ofInt 32 accountId ∧
      (authOkPacket accountId a)[6]? = some 0 ∧
      CStr.ofField 40 (((authOkPacket accountId a).drop 7).take 40) = a.email ∧
      longAt (authOkPacket accountId a) 47 = BitVec.ofInt 32 a.connectUntilTime := by
  have hemail : ((authOkPacket accountId a).drop 7).take 40 = a.email.pad := by
    simp [authOkPacket, List.drop_append, List.drop_eq_nil_of_le]
  refine ⟨?_, ?_, ?_, ?_⟩
  · simp [longAt, authOkPacket, leVal_long]
  · simp [authOkPacket]
  · rw [hemail, CStr.ofField_pad]
  · simp [longAt, authOkPacket, List.drop_append, List.drop_eq_nil_of_le, leVal_long]

/-- **Answers about an account.** The packets that answer an accepted request for an account are
about that account exactly when it has no variable. -/
theorem authRequest_answersFor_iff {conf : LoginConf} {mem : Nat → AuthDat} {buf : Buf}
    {s : LoginState} {r : AuthRequest} {i : Fin authFifoSize} {k : Nat}
    (h : authAccepted conf s r = some (i, k)) :
    (∃ list info, (authRequest conf mem buf s r).2 = [.char list, .char info] ∧
      AnswersFor (requestedAccount s k) r.accountId list info) ↔
      (requestedAccount s k).accountReg2Num = 0 := by
  obtain ⟨hk, -⟩ := authAccepted_some h
  obtain ⟨a, ha, hid⟩ := searchAccountIndex2_some hk
  have hreq : requestedAccount s k = a := by simp [requestedAccount, List.getD, ha]
  have hat : authDatAt mem s.authDat k = a := by simp [authDatAt, ha]
  rw [authRequest_out h, hreq]
  constructor
  · rintro ⟨list, info, heq, hans⟩
    obtain ⟨rfl, -⟩ : (answerPackets mem buf s r.accountId k).1 = list ∧ _ := by simpa using heq
    exact answersFor_num_zero hans
  · intro hnum
    have hloop : requestReg2 mem s.authDat 8 buf k 0 = (buf, k) :=
      requestReg2_zero (by rw [hat, hnum])
    refine ⟨_, _, rfl, ?_⟩
    obtain ⟨hacc, hflag, hemail, htime⟩ := authOkPacket_fields r.accountId a
    have hvars : a.reg2 = [] := by simp [AuthDat.reg2, hnum]
    simp only [answerPackets, hloop, hat]
    refine ⟨hid, longAt_reg2Packet (by omega), ?_, ?_, hacc, hflag, hemail, htime⟩
    · rw [reg2List_head, hvars]
    · intro buf'
      rw [reg2List_head, reg2List_login (by simp [hnum]), hvars]

/-- A player with one variable. -/
def kafraAccount : AuthDat where
  accountId := 2000001
  sex := 1
  userid := cstr 24 "alice"
  pass := cstr 32 "sesame"
  email := cstr 40 "a@a.com"
  accountReg2Num := 1
  accountReg2 := fun _ => { str := cstr 32 "#KAFRA", value := 5 }

/-- A player without variables. -/
def plainAccount : AuthDat where
  accountId := 2000002
  userid := cstr 24 "bobby"
  pass := cstr 32 "sesame"
  email := cstr 40 "b@b.com"
  connectUntilTime := 1700000000

/-- Both have logged in and may be asked for. -/
def pendingLogins : LoginState where
  authDat := [kafraAccount, plainAccount]
  authFifo :=
    { entry := fun j =>
        if j.val = 0 then ⟨2000001, 11, 12, 0, 1, false⟩
        else if j.val = 1 then ⟨2000002, 21, 22, 0, 0, false⟩
        else {}
      pos := 2 }

theorem authRequest_answersFor_plain :
    (∃ list info, (authRequest {} default (fun _ => 0) pendingLogins ⟨2000002, 21, 22, 0, 0⟩).2 =
        [.char list, .char info] ∧
      AnswersFor (requestedAccount pendingLogins 1) 2000002 list info) ↔
      (requestedAccount pendingLogins 1).accountReg2Num = 0 :=
  authRequest_answersFor_iff
    (show authAccepted {} pendingLogins ⟨2000002, 21, 22, 0, 0⟩ = some (⟨1, by decide⟩, 1) by
      decide +kernel)

/-- The variable of the first player is not in the list that answers the request for it. -/
theorem authRequest_not_answersFor :
    authAccepted {} pendingLogins ⟨2000001, 11, 12, 1, 0⟩ = some (⟨0, by decide⟩, 0) ∧
      ¬ ∃ list info, (authRequest {} default (fun _ => 0) pendingLogins
          ⟨2000001, 11, 12, 1, 0⟩).2 = [.char list, .char info] ∧
        AnswersFor (requestedAccount pendingLogins 0) 2000001 list info := by
  have hacc : authAccepted {} pendingLogins ⟨2000001, 11, 12, 1, 0⟩ =
      some (⟨0, by decide⟩, 0) := by decide +kernel
  refine ⟨hacc, ?_⟩
  rintro ⟨list, info, heq, hans⟩
  rw [authRequest_out hacc] at heq
  obtain ⟨rfl, -⟩ : (answerPackets default (fun _ => 0) pendingLogins 2000001 0).1 = list ∧ _ := by
    simpa using heq
  have hnum := answersFor_num_zero hans
  exact absurd hnum (by decide)

end Nezumi
