import Nezumi.Common.SocketRun
import Nezumi.Lib.Framing

/-!
# The packets of a client (`map/clif.c`)

`clif_parse` is the parser of a session whose client has been let in. It takes packet after packet
from the buffer of what has been received, for as long as there is a whole one.

* `PacketTables` is `packet_size_table` with `clif_parse_func_table`. A function of the second has
  the packet and the player; it answers with a player and with what it does to its own session.
* `clifParse`, `clifParsepacket`: `clif_parse` in `do_parsepacket`.
* `ClifState.log` is a ghost: the packets that were skipped, and whether a function had them.
* `clifFraming`: what the tables say about the packets in a stream.
-/

namespace Nezumi

open Bytes

/-- `MAX_PACKET_DB` -/
def maxPacketDb : ℕ := 0x260

/-- `MAX_PACKET_VERSION` -/
def maxPacketVersion : ℕ := 14

/-- `RFIFOW` -/
def SocketData.rfifow (s : SocketData) (pos : ℕ) : ℕ := leVal (read s.rdata (s.rdataPos + pos) 2)

/-- What is done to a session outside of `clif_parse` itself: nothing of its input is skipped. -/
def SocketCall.Keeps : SocketCall → Prop
  | .skip _ | .setParse | .delete => False
  | _ => True

/-- `struct map_session_data`, and the servers that the parser looks at. -/
structure ClifPlayer (σ : Type) where
  auth : Bool
  waitingdisconnect : Bool
  charDisconnectMode : ℕ
  chrifIsconnect : Bool
  world : σ

/-- An entry of `clif_parse_func_table`. -/
inductive ClifFunc (σ : Type)
  | wantToConnection
  | func (run : List UInt8 → ClifPlayer σ → ClifPlayer σ × List {c : SocketCall // c.Keeps})

/-- The tables. A length is `0` for no packet and `-1` if it stands in the packet. -/
structure PacketTables (σ : Type) where
  packetSize : ℕ → ℕ → ℤ
  parseFunc : ℕ → ℕ → Option (ClifFunc σ)
  size_ok : ∀ ver cmd, packetSize ver cmd = -1 ∨ packetSize ver cmd = 0 ∨ 2 ≤ packetSize ver cmd

structure ClifState (σ : Type) where
  wire : Wire
  player : ClifPlayer σ
  log : List (List UInt8 × Bool) := []

section Parser

variable {σ : Type} (fresh : Buf) (T : PacketTables σ) (ver : ℕ)

def ClifState.call (c : ClifState σ) (call : SocketCall) : ClifState σ :=
  { c with wire := socketCall fresh c.wire call }

/-- The length of the packet at the front, as the loop of `clif_parse` computes it. -/
def packetLen (s : SocketData) : Front :=
  let cmd := s.rfifow 0
  if maxPacketDb ≤ cmd ∨ T.packetSize ver cmd = 0 then .bad
  else if T.packetSize ver cmd = -1 then
    if s.rfiforest < 4 then .more
    else
      let len := s.rfifow 2
      if len < 4 ∨ 32768 < len then .bad
      else if s.rfiforest < len then .more else .packet len
  else if s.rfiforest < T.packetSize ver cmd then .more
  else .packet (T.packetSize ver cmd).toNat

/-- `RFIFOSKIP` of a packet. -/
def ClifState.take (c : ClifState σ) (packet : List UInt8) (handled : Bool) : ClifState σ :=
  { c.call fresh (.skip packet.length) with log := c.log ++ [(packet, handled)] }

/-- What the loop does with a packet that has been found, and whether it goes on. -/
def clifPacket (c : ClifState σ) (cmd : ℕ) (packet : List UInt8) : ClifState σ × Bool :=
  if c.player.auth = false ∨ c.player.waitingdisconnect then (c.take fresh packet false, true)
  else
    match T.parseFunc ver cmd with
    | some (.func run) =>
      let (player, calls) := run packet c.player
      let c' := { c with
        player, wire := (calls.map Subtype.val).foldl (socketCall fresh) c.wire }
      (c'.take fresh packet true, true)
    | _ => (c.call fresh .setEof, false)

/-- The loop of `clif_parse`. -/
def clifLoop : ℕ → ClifState σ → ClifState σ
  | 0, c => c
  | f + 1, c =>
    match c.wire.session with
    | none => c
    | some s =>
      if s.rfiforest < 2 ∨ s.eof then c
      else
        match packetLen T ver s with
        | .more => c
        | .bad => c.call fresh .setEof
        | .packet len =>
          let r := clifPacket fresh T ver c (s.rfifow 0) (read s.rdata s.rdataPos len)
          if r.2 then clifLoop f r.1 else r.1

/-- `clif_parse` -/
def clifParse (c : ClifState σ) : ClifState σ :=
  match c.wire.session with
  | none => c
  | some s =>
    if s.eof ∨ (c.player.charDisconnectMode < 2 ∧ c.player.chrifIsconnect = false) then
      c.call fresh .delete
    else if s.rfiforest < 2 then c
    else if maxPacketVersion ≤ ver then c.call fresh .setEof
    else clifLoop fresh T ver s.rfiforest c

/-- `do_parsepacket` with `clif_parse`. -/
def clifParsepacket (c : ClifState σ) : ClifState σ :=
  match c.wire.session with
  | none => c
  | some s =>
    if s.rdataSize = 0 ∧ s.eof = false then c
    else if s.funcParse then
      let c' := clifParse fresh T ver c
      { c' with wire := { c'.wire with session := c'.wire.session.map parsepacketCheck } }
    else { c with wire := { c.wire with session := some (parsepacketCompact s) } }

/-- What can happen: the client sends something and can be sent something, the rest of the server
uses the session and the player, and the session is parsed. -/
inductive ClifEvent (σ : Type)
  | recv (bytes : List UInt8)
  | send (answers : List WriteAnswer)
  | call (c : {c : SocketCall // c.Keeps})
  | player (p : ClifPlayer σ)
  | parsepacket

def clifStep (c : ClifState σ) : ClifEvent σ → ClifState σ
  | .recv bytes => { c with wire := socketStep fresh c.wire (.recv bytes) }
  | .send answers => { c with wire := socketStep fresh c.wire (.send answers) }
  | .call call => c.call fresh call
  | .player player => { c with player }
  | .parsepacket => clifParsepacket fresh T ver c

/-! ## The packets in a stream -/

/-- The word at an offset. -/
def wordAt (xs : List UInt8) (pos : ℕ) : ℕ := leVal ((xs.drop pos).take 2)

/-- What the tables say about the front of a stream. -/
def clifFront (xs : List UInt8) : Front :=
  let size := T.packetSize ver (wordAt xs 0)
  if xs.length < 2 then .more
  else if maxPacketDb ≤ wordAt xs 0 ∨ size = 0 then .bad
  else if size = -1 then
    if xs.length < 4 then .more
    else if wordAt xs 2 < 4 ∨ 32768 < wordAt xs 2 then .bad
    else if xs.length < wordAt xs 2 then .more else .packet (wordAt xs 2)
  else if xs.length < size.toNat then .more else .packet size.toNat

end Parser

end Nezumi
