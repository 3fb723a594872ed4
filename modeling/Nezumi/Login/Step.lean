import Nezumi.Login.Server

/-!
# The login server as a state machine

A run is a sequence of packets of any clients, of the char-servers and of the administration tool,
in any order. `loginStep` is the state after one of them, `loginOut` is what the server says to it.
-/

namespace Nezumi

/-- What the server is run with. `mem` and `buf` are the memory behind the account table and the old
content of the packet buffer: the state never depends on them. -/
structure LoginEnv where
  libc : Libc
  conf : LoginConf := {}
  mem : Nat → AuthDat := default
  buf : Bytes.Buf := fun _ => 0

/-- What can happen to the login server. -/
inductive LoginEvent where
  | login (p : ClientLogin)
  | request (r : AuthRequest)
  | status (accountId statut : Int)
  | ban (now accountId : Int) (delta : BanDelta)
  | sex (accountId gm : Int)
  | create (now : Int) (userid pass : CStr 24) (sex : UInt8) (email : CStr 40)
  | delete (name : CStr 24)
  /-- Char-servers connect, disconnect and send their lists of accounts. -/
  | servers (serverFd : Fin maxServers → Bool) (online : List Int)

/-- A step, with the packets that are sent. -/
def loginRun (env : LoginEnv) (s : LoginState) : LoginEvent → LoginState × List LoginOut
  | .login p => parseLogin env.libc env.conf env.buf s p
  | .request r => authRequest env.conf env.mem env.buf s r
  | .status accountId statut => changeStatus s accountId statut
  | .ban now accountId delta => banRequest env.libc now s accountId delta
  | .sex accountId gm => changeSex s accountId gm
  | .create now userid pass sex email =>
    ({ s with toAccounts :=
        ladminAccountCreation env.libc env.conf now s.toAccounts userid pass sex email }, [])
  | .delete name => ({ s with toAccounts := ladminAccountDeletion env.conf s.toAccounts name }, [])
  | .servers serverFd online => ({ s with serverFd := serverFd, online := online }, [])

def loginStep (env : LoginEnv) (s : LoginState) (e : LoginEvent) : LoginState := (loginRun env s e).1

def loginOut (env : LoginEnv) (s : LoginState) (e : LoginEvent) : List LoginOut := (loginRun env s e).2

/-- No MD5, and a calendar in seconds and days, for dates that move within a month. -/
def plainLibc : Libc where
  md5String2binary _ := []
  md5String _ := default
  mktimeLocal t := t
  mktimeAdd t d := t + 86400 * d.mday + 3600 * d.hour + 60 * d.min + d.sec

end Nezumi
