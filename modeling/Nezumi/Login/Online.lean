import Nezumi.Common.Mmo
import Nezumi.Lib.SwapRemove

/-!
# The accounts that are online (`login/login.c`)

The login-server keeps one table of the accounts that the char-servers have in the game.

* `charConnect`, `charDisconnect` are the parts of `0x2710` and of `parse_fromchar` for a char-server
  that connects, or has disconnected; `onlineList` is `0x2714`.
* `addOnline` puts an entry behind the others and makes the table longer when it is full. Its size is
  an `unsigned short`: at 65280 entries it gets a size of 0, and what happens then is undefined.
* `checkOnlinePlayer` is the function of the same name.
-/

namespace Nezumi

instance : NeZero maxServers := ⟨by decide⟩

/-- `struct online_db` -/
structure OnlineEntry where
  accountId : BitVec 32
  server : Fin maxServers
deriving DecidableEq

/-- The char-servers that are connected and their users, and the table of `online_num` entries. -/
structure LoginOnline where
  connected : Fin maxServers → Bool := fun _ => false
  users : Fin maxServers → Nat := fun _ => 0
  onlineDb : List OnlineEntry := []
  onlineMax : BitVec 16 := 256

/-- The fields of `0x2714`: the number of the users that are not hidden, and the accounts of all. -/
structure OnlineUsers where
  users : BitVec 16
  accounts : List (BitVec 32)
  fits : 6 + 4 * accounts.length < 2 ^ 16

/-- `0x271a`: the length and the number that the packet says, and the accounts that are written. -/
structure OnlinePacket where
  len : Nat
  count : Nat
  accounts : List (BitVec 32)
deriving DecidableEq

/-- `check_online_player` -/
def checkOnlinePlayer (s : LoginOnline) (accountId : BitVec 32) : Bool :=
  s.onlineDb.any fun e => e.accountId = accountId

/-- The accounts of a char-server, in the order of the table. -/
def LoginOnline.accountsOf (s : LoginOnline) (id : Fin maxServers) : List (BitVec 32) :=
  (s.onlineDb.filter fun e => e.server = id).map OnlineEntry.accountId

/-- The loop that removes the online players of a char-server. -/
def removeOnline (s : LoginOnline) (id : Fin maxServers) : LoginOnline :=
  { s with onlineDb := (Unordered.sweep (fun e => e.server = id) s.onlineDb).1 }

/-- One new entry. -/
def addOnline (id : Fin maxServers) (s : LoginOnline) (accountId : BitVec 32) :
    Option LoginOnline :=
  let onlineMax :=
    if s.onlineDb.length ≥ s.onlineMax.toNat then s.onlineMax + 256 else s.onlineMax
  if onlineMax = 0 then none
  else some { s with onlineDb := s.onlineDb ++ [⟨accountId, id⟩], onlineMax := onlineMax }

/-- `0x2710`, when the account of the char-server has been accepted. -/
def charConnect (s : LoginOnline) (id : Fin maxServers) : LoginOnline :=
  if s.connected id then s
  else { s with
    connected := Function.update s.connected id true
    users := Function.update s.users id 0 }

/-- The end of `parse_fromchar`. -/
def charDisconnect (s : LoginOnline) (id : Fin maxServers) : LoginOnline :=
  if s.connected id then
    removeOnline { s with
      connected := Function.update s.connected id false
      users := Function.update s.users id 0 } id
  else s

/-- `charif_sendallwos` -/
def charifSendallwos (s : LoginOnline) (id : Fin maxServers) (p : OnlinePacket) :
    List (Fin maxServers × OnlinePacket) :=
  ((List.finRange maxServers).filter fun k => s.connected k && k ≠ id).map fun k => (k, p)

/-- `0x2714`, and the `0x271a` that it makes for the other char-servers. -/
def onlineList (s : LoginOnline) (id : Fin maxServers) (p : OnlineUsers) :
    Option (LoginOnline × List (Fin maxServers × OnlinePacket)) :=
  if s.connected id then do
    let s := removeOnline { s with users := Function.update s.users id p.users.toNat } id
    let s ← p.accounts.foldlM (addOnline id) s
    let users := s.users id
    if users > 0 then
      return (s, charifSendallwos s id
        { len := (6 + 4 * users) % 2 ^ 16, count := users % 2 ^ 16, accounts := s.accountsOf id })
    else return (s, [])
  else some (s, [])

/-- What can happen to the table. -/
inductive OnlineEvent
  | connect (id : Fin maxServers)
  | disconnect (id : Fin maxServers)
  | list (id : Fin maxServers) (p : OnlineUsers)

/-- A step, with the packets that are sent, or `none` where it is undefined. -/
def onlineRun (s : LoginOnline) : OnlineEvent →
    Option (LoginOnline × List (Fin maxServers × OnlinePacket))
  | .connect id => some (charConnect s id, [])
  | .disconnect id => some (charDisconnect s id, [])
  | .list id p => onlineList s id p

end Nezumi
