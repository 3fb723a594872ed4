import Nezumi.Lib.Bytes
import Nezumi.Lib.Sizes

/-!
# What the servers share (`include/mmo.h`, `common/utils.c`)

* `GlobalReg` is a variable of a character or of an account.
* `strcasecmp`, `removeControlChars` and `eMailCheck` are the string functions that the login server
  and the char-server use.
-/

namespace Nezumi

def maxServers : Nat := 30
def authFifoSize : Nat := 1024

instance : NeZero authFifoSize := ⟨by decide⟩

instance (priority := 2000) neZeroAuthFifo : NeZero (authFifoSize + 1) := ⟨Nat.succ_ne_zero _⟩

/-- A C string of a literal of the source. -/
def cstr (n : Nat) (s : String) : CStr n := CStr.ofField n (s.toList.map fun c => UInt8.ofNat c.toNat)

/-- `struct global_reg`. -/
structure GlobalReg where
  str : CStr 32 := default
  value : BitVec 32 := 0
  deriving DecidableEq, Inhabited

/-- The fields of a `0x2712` request: a char-server asks the login-server for a login. -/
structure AuthRequest where
  accountId : Int
  loginId1 : UInt32
  loginId2 : UInt32
  sex : Nat
  ip : UInt32
  deriving DecidableEq

def tolower (c : UInt8) : UInt8 := if 65 ≤ c ∧ c ≤ 90 then c + 32 else c

/-- `strcasecmp(a, b) == 0`. -/
def strcasecmp {n : Nat} (a b : CStr n) : Bool := a.bytes.map tolower == b.bytes.map tolower

/-- `remove_control_chars`, up to the end of the string. -/
def removeControlChars : List UInt8 → List UInt8
  | [] => []
  | c :: cs => if c = 0 then c :: cs else (if c < 32 ∨ c = 127 then 95 else c) ::
      removeControlChars cs

/-- The part of a string from its last `@` on (`strrchr`). -/
def lastArobas (email : List UInt8) : Option (List UInt8) :=
  match email.reverse.findIdx? fun c => c = 64 with
  | none => none
  | some i => some (email.drop (email.length - 1 - i))

/-- `e_mail_check`. -/
def eMailCheck (email : CStr 40) : Bool :=
  let s := email.bytes
  if s.length < 3 || s.length > 40 then false
  else
    match lastArobas s with
    | none => false
    | some domain =>
      s.getLast? ≠ some 64 && s.getLast? ≠ some 46 && domain[1]? ≠ some 46 &&
        !(List.range domain.length).any (fun i => domain[i]? = some 46 && domain[i + 1]? = some 46) &&
        domain.all (fun c => 32 ≤ c && c ≠ 127 && c ≠ 32 && c ≠ 59)

/-- The e-mail of a packet: an invalid one is replaced. -/
def eMailOf (email : CStr 40) : CStr 40 := if eMailCheck email then email else cstr 40 "a@a.com"

end Nezumi
