import Nezumi.Char.Char
import Nezumi.Common.Timer
import Nezumi.Lib.SwapRemove

/-!
# Whispers between the map-servers (`char/inter.c`, text-file build)

* `mapifParseWisRequest`, `mapifParseWisReply` and `checkTtlWisdata` are the functions of the same
  names, on the table `wis_db` of the whispers that wait for answers.
* `mapifSendall` gives the number of the map-servers that a packet is sent to.

`wisid` counts without a bound here; the `int` of the source overflows behind `2^31 - 1` whispers,
which C leaves undefined.
-/

namespace Nezumi

instance : NeZero maxMapServers := ⟨by decide⟩

/-- `WISDATA_TTL` -/
def wisdataTtl : Int := 45 * 1000

/-- `struct WisData` -/
structure WisData where
  id : Int
  count : UInt8
  tick : BitVec 32
  src : CStr 24
deriving DecidableEq

/-- The char-server with its table of whispers. -/
structure WisServer where
  chars : CharServer := {}
  wisDb : List WisData := []
  wisid : Int := 0

/-- The fields of `0x3001`. The names are fields of 24 bytes. -/
structure WisRequest where
  gmLevel : UInt8
  sender : List UInt8
  nick : List UInt8
  message : List UInt8

/-- What the map-servers are sent. -/
inductive WisOut
  /-- `0x3802` with flag 1, to the server of the sender only. -/
  | refused (server : Fin maxMapServers) (sender : List UInt8)
  /-- `0x3801` to all of them. -/
  | ask (id : Int) (gmLevel : UInt8) (sender nick : CStr 24) (message : List UInt8)
  /-- `mapif_wis_end`: `0x3802` to all of them. The packet has no `id`, which says here whose end it
  is. -/
  | wisEnd (id : Int) (senderName : CStr 24) (flag : UInt8)
deriving DecidableEq

/-- The map-servers that are connected. -/
def CharServer.connected (s : CharServer) : Finset (Fin maxMapServers) :=
  Finset.univ.filter fun i => (s.server i).isSome

/-- `mapif_sendall` -/
def mapifSendall (s : CharServer) : UInt8 := UInt8.ofNat s.connected.card

/-- `search_character_index`, `none` for its `-1` and `-2`. -/
def searchCharacterIndex (s : CharServer) (name : CStr 24) : Option Nat :=
  match charIndex s fun c => c.name = name with
  | some i => some i
  | none =>
    match (List.range s.charNum).filter fun i => strcasecmp (s.charDat i).name name with
    | [i] => some i
    | _ => none

/-- The bytes up to the end of a string. -/
def upToNul (bs : List UInt8) : List UInt8 := bs.takeWhile (· ≠ 0)

/-- `mapif_parse_WisRequest` -/
def mapifParseWisRequest (s : WisServer) (gettickCache : BitVec 32) (server : Fin maxMapServers)
    (p : WisRequest) : WisServer × List WisOut :=
  if 53 + p.message.length ≤ 53 + 1 then (s, [])
  else
    match searchCharacterIndex s.chars (CStr.ofField 24 p.nick) with
    | none => (s, [.refused server p.sender])
    | some idx =>
      if s.chars.onlineChars idx = 0 then (s, [.refused server p.sender])
      else
        let nick := (s.chars.charDat idx).name.pad
        -- A name of 24 bytes has no end of its own.
        if upToNul (p.sender ++ nick ++ p.message) = upToNul (nick ++ p.message) then
          (s, [.refused server p.sender])
        else
          let id := s.wisid + 1
          let src := CStr.ofField 24 p.sender
          ({ s with
              wisid := id
              wisDb := s.wisDb ++
                [{ id := id, src := src, tick := gettickCache, count := mapifSendall s.chars }] },
            [.ask id p.gmLevel src (CStr.ofField 24 nick)
              (CStr.ofField p.message.length p.message).pad])

/-- `mapif_parse_WisReply` -/
def mapifParseWisReply (s : WisServer) (id : Int) (flag : UInt8) : WisServer × List WisOut :=
  match s.wisDb.findIdx? (fun d => d.id = id) with
  | none => (s, [])
  | some i =>
    match s.wisDb[i]? with
    | none => (s, [])
    | some d =>
      let d := { d with count := d.count - 1 }
      let wisDb := s.wisDb.set i d
      if d.count = 0 ∨ flag ≠ 1 then
        ({ s with wisDb := Unordered.swapRemove wisDb i }, [.wisEnd d.id d.src flag])
      else ({ s with wisDb := wisDb }, [])

/-- A whisper has waited too long. -/
def WisData.elapsed (gettickCache : BitVec 32) (d : WisData) : Bool :=
  diffTick gettickCache d.tick > wisdataTtl

/-- `check_ttl_wisdata` -/
def checkTtlWisdata (s : WisServer) (gettickCache : BitVec 32) : WisServer × List WisOut :=
  let r := Unordered.sweep (WisData.elapsed gettickCache) s.wisDb
  ({ s with wisDb := r.1 }, r.2.map fun d => .wisEnd d.id d.src 1)

/-- What can happen to the whispers. -/
inductive WisEvent
  | request (gettickCache : BitVec 32) (server : Fin maxMapServers) (p : WisRequest)
  | reply (server : Fin maxMapServers) (id : Int) (flag : UInt8)
  | checkTtl (gettickCache : BitVec 32)
  /-- Whatever else changes the characters of the char-server. -/
  | chars (chars : CharServer)

def wisRun (s : WisServer) : WisEvent → WisServer × List WisOut
  | .request now server p => mapifParseWisRequest s now server p
  | .reply _ id flag => mapifParseWisReply s id flag
  | .checkTtl now => checkTtlWisdata s now
  | .chars chars => ({ s with chars := chars }, [])

/-! ## What becomes of a whisper -/

/-- A whisper waits for the answers of servers, or its sender has been told. -/
inductive Fate
  | waiting (servers : Finset (Fin maxMapServers))
  | ended (flag : UInt8)
deriving DecidableEq

/-- A whisper by itself, whatever others there are. -/
structure Whisper where
  src : CStr 24
  tick : BitVec 32
  fate : Fate
deriving DecidableEq

/-- A server answers: a flag other than 1 is the end, and so is the last answer. -/
def Whisper.reply (server : Fin maxMapServers) (flag : UInt8) (a : Whisper) : Whisper :=
  match a.fate with
  | .waiting servers =>
    { a with fate :=
        if flag ≠ 1 ∨ servers.erase server = ∅ then .ended flag
        else .waiting (servers.erase server) }
  | .ended _ => a

/-- One that has waited too long ends with flag 1. -/
def Whisper.checkTtl (gettickCache : BitVec 32) (a : Whisper) : Whisper :=
  match a.fate with
  | .waiting _ =>
    if diffTick gettickCache a.tick > wisdataTtl then { a with fate := .ended 1 } else a
  | .ended _ => a

/-- The whispers that a step asks for, by their ids. -/
def whisperOf (s : WisServer) (now : BitVec 32) (id : Int) (out : List WisOut) : Option Whisper :=
  out.findSome? fun
    | .ask id' _ src _ _ => if id' = id then some ⟨src, now, .waiting s.chars.connected⟩ else none
    | _ => none

/-- The char-server, and beside it what becomes of every whisper by itself, the ends that have been
sent, the ids of the entries that have been taken off the table, and the answers that have come. -/
structure WisWorld where
  server : WisServer := {}
  whisper : Int → Option Whisper := fun _ => none
  ends : List (Int × CStr 24 × UInt8) := []
  removed : List Int := []
  replies : List (Fin maxMapServers × Int × UInt8) := []

def WisOut.toEnd : WisOut → Option (Int × CStr 24 × UInt8)
  | .wisEnd id src flag => some (id, src, flag)
  | _ => none

/-- What becomes of the whispers in a step. -/
def whispersAfter (w : WisWorld) (out : List WisOut) : WisEvent → Int → Option Whisper
  | .request now _ _, id => (whisperOf w.server now id out).or (w.whisper id)
  | .reply server id' flag, id =>
    if id' = id then (w.whisper id).map (Whisper.reply server flag) else w.whisper id
  | .checkTtl now, id => (w.whisper id).map (Whisper.checkTtl now)
  | .chars _, id => w.whisper id

def wisStep (w : WisWorld) (e : WisEvent) : WisWorld :=
  let r := wisRun w.server e
  { server := r.1
    whisper := whispersAfter w r.2 e
    ends := w.ends ++ r.2.filterMap WisOut.toEnd
    removed := w.removed ++ (w.server.wisDb.map WisData.id).diff (r.1.wisDb.map WisData.id)
    replies := match e with
      | .reply server id flag => w.replies ++ [(server, id, flag)]
      | _ => w.replies }

end Nezumi
