import Nezumi.Char.Server
import Nezumi.Lib.Run
import Nezumi.Lib.SwapRemove

/-!
# The variables of the accounts (`char/char.c`, text-file build)

The login-server sends the variables of an account when one of its clients comes to the char-server,
which keeps them for the map-server that the client goes to.

* `storeReg2`: what `0x2729` (and `0x2b10`, from a map-server) makes of the table
  `account_reg2_db`; `checkAccountReg2` takes old lists off it.
* `sendAccountReg2` is the function of the same name, and `mapAuthReg2` is `0x2afc` with the call of
  it.
* `Reg2Ok`: a map-server that has asked for a character is sent the last list of its account, whole,
  and nothing of other accounts or for other connections.
* `Reg2Fits`: the number of the account is that of the connection, or there is nothing to send.
* `reg2Run_exact_iff`: every answer in a run is right if and only if that is so.
-/

namespace Nezumi

/-- `struct account_reg2_db` -/
structure AccountReg2 where
  accountId : Int
  updateTime : Int
  reg2 : List GlobalReg

/-- `0x2b11`: its length, the account, and the variables that are written. -/
structure Reg2Packet where
  len : Nat
  accountId : Int
  reg2 : List GlobalReg
deriving DecidableEq

/-- What is sent: an answer of `0x2afc` or a list to a connection, a list to all map-servers, or a
list to the login-server. -/
inductive Reg2Out
  | char (o : CharOut)
  | reg2 (fd : Int) (p : Reg2Packet)
  | reg2All (p : Reg2Packet)
  | toLogin (accountId : Int) (reg2 : List GlobalReg)

/-- The char-server with its table of variables. -/
structure Reg2Server where
  chars : CharServer := {}
  db : List AccountReg2 := []

/-- `sizeof(struct global_reg)` -/
def sizeofGlobalReg : Nat := 40

/-- A list in a packet. The length has 16 bits. -/
def storedPacket (accountId : Int) (reg2 : List GlobalReg) : Reg2Packet where
  len := (8 + sizeofGlobalReg * reg2.length) % 2 ^ 16
  accountId := accountId
  reg2 := reg2

/-- A list is put in the place of the one before. An empty one takes it off. -/
def storeReg2 (db : List AccountReg2) (now accountId : Int) (reg2 : List GlobalReg) :
    List AccountReg2 :=
  match db.findIdx? fun d => d.accountId = accountId with
  | some i => if reg2 ≠ [] then db.set i ⟨accountId, now, reg2⟩ else Unordered.swapRemove db i
  | none => if reg2 ≠ [] then db ++ [⟨accountId, now, reg2⟩] else db

/-- Someone is in the game with an account, or in the selection of characters. -/
def accountPresent (s : CharServer) (accountId : Int) : Bool :=
  (List.range s.charNum).any (fun j =>
      (s.charDat j).accountId = accountId && s.onlineChars j ≠ 0) ||
    (s.sessionOf accountId).isSome

/-- A list that nobody has needed for 15 minutes. -/
def AccountReg2.old (s : CharServer) (now : Int) (d : AccountReg2) : Bool :=
  !accountPresent s d.accountId && d.updateTime < now - 15 * 60

/-- `check_account_reg2`. A list that stays is looked at once, so that the new times can be set
behind the pass. -/
def checkAccountReg2 (s : CharServer) (now : Int) (db : List AccountReg2) : List AccountReg2 :=
  (Unordered.sweep (AccountReg2.old s now) db).1.map fun d =>
    if accountPresent s d.accountId then { d with updateTime := now } else d

/-- `send_account_reg2` -/
def sendAccountReg2 (db : List AccountReg2) (acc fd : Int) : List Reg2Out :=
  match Unordered.lookup AccountReg2.accountId db acc with
  | some d => [.reg2 fd (storedPacket acc d.reg2)]
  | none => []

/-- A request of a map-server for a character is accepted. -/
def mapAuthAccepted (conf : CharConf) (s : CharServer) (r : MapRequest) : Bool :=
  (Slots.first (AuthEntry.serves conf r) s.authFifo.entry).isSome

/-- `0x2afc`, on the connection of a map-server. -/
def mapAuthReg2 (conf : CharConf) (s : Reg2Server) (fd : Fin fdSetsize) (r : MapRequest) :
    Reg2Server × List Reg2Out :=
  let a := mapAuth conf s.chars r
  ({ s with chars := a.1 }, a.2.map .char ++
    -- The account and the connection are the other way round.
    if mapAuthAccepted conf s.chars r then sendAccountReg2 s.db fd.val r.accountId else [])

inductive Reg2Event
  /-- `0x2729` of the login-server. -/
  | receive (now accountId : Int) (reg2 : List GlobalReg)
  /-- `0x2b10` of a map-server. -/
  | save (now accountId : Int) (reg2 : List GlobalReg)
  /-- `check_account_reg2` -/
  | check (now : Int)
  /-- `0x2afc` of a map-server. -/
  | mapAuth (fd : Fin fdSetsize) (r : MapRequest)
  /-- Whatever else happens to the char-server. -/
  | chars (now : Int) (e : CharEvent)

def reg2Run (conf : CharConf) (s : Reg2Server) : Reg2Event → Reg2Server × List Reg2Out
  | .receive now accountId reg2 =>
    ({ s with db := storeReg2 s.db now accountId reg2 }, [.reg2All (storedPacket accountId reg2)])
  | .save now accountId reg2 =>
    ({ s with db := storeReg2 s.db now accountId reg2 }, [.toLogin accountId reg2])
  | .check now => ({ s with db := checkAccountReg2 s.chars now s.db }, [])
  | .mapAuth fd r => mapAuthReg2 conf s fd r
  | .chars now e =>
    let a := charRun conf s.chars now e
    ({ s with chars := a.1 }, a.2.map .char)

/-! ## Runs -/

/-- Beside the char-server, the list that was received last for every account, and the accounts whose
list was too old since. -/
structure Reg2World where
  server : Reg2Server := {}
  received : Int → List GlobalReg := fun _ => []
  dropped : Int → Bool := fun _ => false

def reg2Step (conf : CharConf) (w : Reg2World) (e : Reg2Event) : Reg2World where
  server := (reg2Run conf w.server e).1
  received := match e with
    | .receive _ accountId reg2 | .save _ accountId reg2 =>
      Function.update w.received accountId reg2
    | _ => w.received
  dropped := match e with
    | .receive _ accountId _ | .save _ accountId _ => Function.update w.dropped accountId false
    | .check now => fun accountId => w.dropped accountId ||
      (Unordered.lookup AccountReg2.accountId w.server.db accountId).any
        (AccountReg2.old w.server.chars now)
    | _ => w.dropped

/-- The map-server is sent the last list of the account, if it is not empty, with its length, and no
other list. -/
def Reg2Ok (conf : CharConf) (w : Reg2World) : Reg2Event → Prop
  | .mapAuth fd r => mapAuthAccepted conf w.server.chars r →
    (w.received r.accountId ≠ [] →
      .reg2 fd.val { len := 8 + sizeofGlobalReg * (w.received r.accountId).length,
                     accountId := r.accountId, reg2 := w.received r.accountId } ∈
        (reg2Run conf w.server (.mapAuth fd r)).2) ∧
    ∀ (fd' : Int) p, .reg2 fd' p ∈ (reg2Run conf w.server (.mapAuth fd r)).2 →
      fd' = fd.val ∧ p.accountId = r.accountId
  | _ => True

/-- The account has the number of the connection, and its list has been kept and fits into a packet;
or there is neither a list of the account nor one of an account with the number of the connection. -/
def Reg2Fits (conf : CharConf) (w : Reg2World) : Reg2Event → Prop
  | .mapAuth fd r => mapAuthAccepted conf w.server.chars r →
    w.received r.accountId = [] ∧
        (w.received fd.val = [] ∨ w.dropped fd.val ∨ r.accountId = fd.val) ∨
      r.accountId = fd.val ∧ !w.dropped r.accountId ∧
        8 + sizeofGlobalReg * (w.received r.accountId).length < 2 ^ 16
  | _ => True

/-- The table has the lists that were received, each once, unless they were too old. -/
structure Reg2Inv (w : Reg2World) : Prop where
  keys : (w.server.db.map AccountReg2.accountId).Nodup
  lists : ∀ acc, (Unordered.lookup AccountReg2.accountId w.server.db acc).map AccountReg2.reg2 =
    if w.received acc = [] ∨ w.dropped acc then none else some (w.received acc)

section Steps

variable {conf : CharConf} {w : Reg2World} {db : List AccountReg2} {now accountId acc : Int}
  {reg2 : List GlobalReg}

/-- The place of an entry of the table. -/
theorem findIdx_reg2 (db : List AccountReg2) (accountId : Int) :
    (db.findIdx? (fun d => d.accountId = accountId) = none ∧
      Unordered.lookup AccountReg2.accountId db accountId = none) ∨
    ∃ i d, db.findIdx? (fun d => d.accountId = accountId) = some i ∧ db[i]? = some d ∧
      d.accountId = accountId := by
  rcases h : db.findIdx? fun d => d.accountId = accountId with _ | i
  · refine .inl ⟨h, Unordered.lookup_eq_none_iff.mpr fun d hd => ?_⟩
    simpa using List.findIdx?_eq_none_iff.mp h d hd
  · obtain ⟨hi, hp, -⟩ := List.findIdx?_eq_some_iff_getElem.mp h
    exact .inr ⟨i, db[i], h, List.getElem?_eq_getElem hi, of_decide_eq_true hp⟩

/-- **A list is stored**: the table has it instead of the one before. -/
theorem storeReg2_spec (now accountId : Int) (reg2 : List GlobalReg)
    (hkeys : (db.map AccountReg2.accountId).Nodup) :
    ((storeReg2 db now accountId reg2).map AccountReg2.accountId).Nodup ∧
      ∀ acc, (Unordered.lookup AccountReg2.accountId (storeReg2 db now accountId reg2) acc).map
          AccountReg2.reg2 =
        if accountId = acc then (if reg2 = [] then none else some reg2)
        else (Unordered.lookup AccountReg2.accountId db acc).map AccountReg2.reg2 := by
  unfold storeReg2
  rcases findIdx_reg2 db accountId with ⟨hfind, hnone⟩ | ⟨i, d, hfind, hi, rfl⟩ <;> rw [hfind] <;>
    dsimp only
  · by_cases hvoid : reg2 = []
    · rw [if_neg (not_not.mpr hvoid)]
      refine ⟨hkeys, fun acc => ?_⟩
      split
      · rename_i hacc
        rw [← hacc, hnone]
        rfl
      · rfl
    · rw [if_pos hvoid]
      constructor
      · rw [List.map_append, List.nodup_append]
        refine ⟨hkeys, List.nodup_singleton _, ?_⟩
        rintro _ hk _ hk'
        obtain ⟨d, hd, rfl⟩ := List.mem_map.mp hk
        rw [List.map_singleton, List.mem_singleton] at hk'
        rw [hk']
        exact Unordered.lookup_eq_none_iff.mp hnone d hd
      · intro acc
        rw [Unordered.lookup_concat hnone, if_neg hvoid]
        dsimp only
        split <;> rfl
  · by_cases hvoid : reg2 = []
    · rw [if_neg (not_not.mpr hvoid)]
      refine ⟨(List.nodup_cons.mp (Unordered.nodup_keys_swapRemove hkeys hi)).2, fun acc => ?_⟩
      rw [Unordered.lookup_swapRemove hkeys hi, if_pos hvoid]
      split <;> rfl
    · have hkey : (AccountReg2.mk d.accountId now reg2).accountId = d.accountId := rfl
      rw [if_pos hvoid, Unordered.map_set_keys hi hkey]
      refine ⟨hkeys, fun acc => ?_⟩
      rw [Unordered.lookup_set hkeys hi hkey, if_neg hvoid]
      split <;> rfl

/-- **The lists that are too old** are taken off. -/
theorem checkAccountReg2_spec (s : CharServer) (hkeys : (db.map AccountReg2.accountId).Nodup) :
    ((checkAccountReg2 s now db).map AccountReg2.accountId).Nodup ∧
      ∀ acc, (Unordered.lookup AccountReg2.accountId (checkAccountReg2 s now db) acc).map
          AccountReg2.reg2 =
        ((Unordered.lookup AccountReg2.accountId db acc).filter fun d => !d.old s now).map
          AccountReg2.reg2 := by
  have hid : AccountReg2.accountId ∘ (fun d : AccountReg2 =>
      if accountPresent s d.accountId then { d with updateTime := now } else d) =
      AccountReg2.accountId := by
    funext d
    simp only [Function.comp_apply]
    split <;> rfl
  unfold checkAccountReg2
  constructor
  · rw [List.map_map, hid]
    exact Unordered.nodup_keys_sweep hkeys
  · intro acc
    rw [← Unordered.lookup_sweep hkeys]
    unfold Unordered.lookup
    rw [List.find?_map, Option.map_map]
    have htest : (fun a : AccountReg2 => decide (a.accountId = acc)) ∘ (fun d : AccountReg2 =>
        if accountPresent s d.accountId then { d with updateTime := now } else d) =
        fun a => decide (a.accountId = acc) := by
      funext d
      exact congrArg (fun k : Int => decide (k = acc)) (congrFun hid d)
    rw [htest]
    congr 1
    funext d
    simp only [Function.comp_apply]
    split <;> rfl

/-- **The step lemma.** -/
theorem reg2Inv_step (w : Reg2World) (e : Reg2Event) (h : Reg2Inv w) :
    Reg2Inv (reg2Step conf w e) := by
  have hstore (now accountId : Int) (reg2 : List GlobalReg) :
      Reg2Inv { server := { w.server with db := storeReg2 w.server.db now accountId reg2 },
                received := Function.update w.received accountId reg2,
                dropped := Function.update w.dropped accountId false } := by
    obtain ⟨hkeys, hlists⟩ := storeReg2_spec now accountId reg2 h.keys
    refine ⟨hkeys, fun acc => ?_⟩
    dsimp only
    rw [hlists]
    by_cases hacc : accountId = acc
    · subst hacc
      simp only [if_pos, Function.update_self]
      simp
    · rw [if_neg hacc]
      simp only [Function.update_of_ne (Ne.symm hacc)]
      exact h.lists acc
  cases e with
  | receive now accountId reg2 => exact hstore now accountId reg2
  | save now accountId reg2 => exact hstore now accountId reg2
  | check now =>
    obtain ⟨hkeys, hlists⟩ := @checkAccountReg2_spec _ now w.server.chars h.keys
    refine ⟨hkeys, fun acc => ?_⟩
    have hold := h.lists acc
    change (Unordered.lookup AccountReg2.accountId (checkAccountReg2 w.server.chars now w.server.db)
      acc).map AccountReg2.reg2 = if w.received acc = [] ∨ (w.dropped acc ||
        (Unordered.lookup AccountReg2.accountId w.server.db acc).any
          (AccountReg2.old w.server.chars now)) then none else some (w.received acc)
    rw [hlists]
    rcases hd : Unordered.lookup AccountReg2.accountId w.server.db acc with _ | d
    · rw [hd] at hold
      simpa using hold
    · rw [hd] at hold
      cases hage : d.old w.server.chars now
      · rw [Option.filter_some, if_pos (by rw [hage]; rfl), hold]
        simp [hage]
      · rw [Option.filter_some, if_neg (by rw [hage]; decide), if_pos]
        · rfl
        · right
          simp [hage]
  | mapAuth fd r =>
    have hdb : (reg2Step conf w (.mapAuth fd r)).server.db = w.server.db := by
      unfold reg2Step reg2Run mapAuthReg2
      dsimp only
    refine ⟨by rw [hdb]; exact h.keys, fun acc => ?_⟩
    rw [hdb]
    exact h.lists acc
  | chars now e => exact ⟨h.keys, h.lists⟩

/-- The list that is sent for a request. -/
theorem mem_mapAuthReg2 {fd : Fin fdSetsize} {r : MapRequest} {fd' : Int} {p : Reg2Packet}
    (hacc : mapAuthAccepted conf w.server.chars r) :
    .reg2 fd' p ∈ (reg2Run conf w.server (.mapAuth fd r)).2 ↔
      ∃ d, Unordered.lookup AccountReg2.accountId w.server.db fd.val = some d ∧
        fd' = r.accountId ∧ p = storedPacket fd.val d.reg2 := by
  change _ ∈ (mapAuth conf w.server.chars r).2.map Reg2Out.char ++ _ ↔ _
  rw [if_pos hacc, List.mem_append]
  have hno : Reg2Out.reg2 fd' p ∉ (mapAuth conf w.server.chars r).2.map Reg2Out.char := by
    rw [List.mem_map]
    rintro ⟨o, -, ho⟩
    cases ho
  rw [or_iff_right hno]
  unfold sendAccountReg2
  split
  · rename_i d hd
    simp [hd]
  · rename_i hd
    simp [hd]

/-- **A request is answered right** if and only if it fits. -/
theorem reg2Ok_iff (w : Reg2World) (e : Reg2Event) (h : Reg2Inv w) :
    Reg2Ok conf w e ↔ Reg2Fits conf w e := by
  cases e with
  | mapAuth fd r =>
    unfold Reg2Ok Reg2Fits
    refine imp_congr_right fun hacc => ?_
    simp only [mem_mapAuthReg2 hacc]
    have hfd := h.lists fd.val
    constructor
    · rintro ⟨hsent, honly⟩
      by_cases hvoid : w.received r.accountId = []
      · refine .inl ⟨hvoid, ?_⟩
        by_contra hno
        push Not at hno
        obtain ⟨hsome, hkept, hne⟩ := hno
        rw [if_neg (by simp [hsome, hkept])] at hfd
        obtain ⟨d, hd, -⟩ := Option.map_eq_some_iff.mp hfd
        exact hne (honly _ _ ⟨d, hd, rfl, rfl⟩).1
      · obtain ⟨d, hd, heq, hp⟩ := hsent hvoid
        rw [hd] at hfd
        unfold storedPacket at hp
        simp only [Reg2Packet.mk.injEq] at hp
        obtain ⟨hlen, -, hreg⟩ := hp
        refine .inr ⟨heq.symm, ?_, ?_⟩
        · rw [← heq]
          by_contra hdrop
          rw [if_pos (.inr (by simpa using hdrop))] at hfd
          cases hfd
        · rw [hreg] at hlen ⊢
          exact lt_of_eq_of_lt hlen (Nat.mod_lt _ (by decide))
    · rintro (⟨hvoid, hno⟩ | ⟨heq, hkept, hlen⟩)
      · refine ⟨fun hne => absurd hvoid hne, ?_⟩
        rintro fd' p ⟨d, hd, rfl, rfl⟩
        rcases hno with hno | hno | hno
        · rw [hd, if_pos (.inl hno)] at hfd
          cases hfd
        · rw [hd, if_pos (.inr hno)] at hfd
          cases hfd
        · exact ⟨hno, hno.symm⟩
      · rw [heq] at hkept hlen ⊢
        refine ⟨fun hne => ?_, ?_⟩
        · rw [if_neg (by simp_all)] at hfd
          obtain ⟨d, hd, hreg⟩ := Option.map_eq_some_iff.mp hfd
          refine ⟨d, hd, rfl, ?_⟩
          unfold storedPacket
          rw [hreg, Nat.mod_eq_of_lt hlen]
        · rintro fd' p ⟨d, hd, rfl, rfl⟩
          exact ⟨rfl, rfl⟩
  | _ => exact Iff.rfl

end Steps

theorem reg2Inv_init (chars : CharServer) : Reg2Inv { server := { chars := chars } } :=
  ⟨List.nodup_nil, fun _ => rfl⟩

/-- **The variables reach the map-server** that asks for a character, in every run, if and only if
every character that is accepted is of an account with the number of the map-server's connection, or
there is nothing to send. -/
theorem reg2Run_exact_iff (conf : CharConf) (chars : CharServer) (es : List Reg2Event) :
    Run.Meets (reg2Step conf) (Reg2Ok conf) { server := { chars := chars } } es ↔
      Run.Meets (reg2Step conf) (Reg2Fits conf) { server := { chars := chars } } es :=
  Run.meets_iff_of_inv (I := Reg2Inv) reg2Inv_step reg2Ok_iff (reg2Inv_init chars)

/-- **A variable does not reach the map-server**: it is received, the character comes from another
map-server, and is asked for on connection 5. -/
theorem reg2Run_lost : ¬ ∀ conf chars es,
    Run.Meets (reg2Step conf) (Reg2Ok conf) { server := { chars := chars } } es := by
  intro h
  let r : MapRequest :=
    { accountId := 2000000, charId := 150000, loginId1 := 1, loginId2 := 2, ip := 0, sex := 1 }
  let chars : CharServer := { charNum := 1, charDat := fun _ => { charId := 150000 } }
  let received : Reg2Event := .receive 0 2000000 [{ str := cstr 32 "#BANKVAULT", value := 5 }]
  let moved : Reg2Event := .chars 0 (.mapChange r)
  let w := reg2Step {} (reg2Step {} { server := { chars := chars } } received) moved
  obtain ⟨-, -, hok, -⟩ := h {} chars [received, moved, .mapAuth ⟨5, by decide⟩ r]
  have hok : Reg2Ok {} w (.mapAuth ⟨5, by decide⟩ r) := hok
  have hacc : mapAuthAccepted {} w.server.chars r := by decide +kernel
  have hsome : w.received r.accountId ≠ [] := by decide +kernel
  have hsent := (hok hacc).1 hsome
  rw [mem_mapAuthReg2 hacc] at hsent
  obtain ⟨d, hd, -⟩ := hsent
  have hnone : (Unordered.lookup AccountReg2.accountId w.server.db 5).isNone := by decide
  cases (Option.isNone_iff_eq_none.mp hnone).symm.trans hd

end Nezumi
