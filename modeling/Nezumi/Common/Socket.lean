import Nezumi.Lib.Bytes

/-!
# Sessions and their buffers (`common/socket.c`, `common/socket.h`)

A session has a buffer for what it has received, of which `rdata_pos` bytes have been parsed, and
one for what is to be sent. A client's session starts with small buffers, the one of another server
gets larger ones; both grow when they are too small and shrink when they have been too large for a
while.

* `recvToFifo`, `sendFromFifo`, `reallocFifo`, `SENDPACKET` and `doParsepacket` are the functions of
  the same names. The bytes that `read` returns and the answers of `write` are arguments, as are the
  bytes that `REALLOC` leaves behind the old ones.
* `SocketCall`: what the rest of the server does with a session, most of it in its parser.
* `Wire`: a session together with everything that has gone through it.
-/

namespace Nezumi

open Bytes

/-- `RFIFO_SIZE` -/
def rfifoSize : Nat := 2 * 1024
/-- `WFIFO_SIZE` -/
def wfifoSize : Nat := 4 * 1024
/-- `RFIFOSIZE_SERVER` -/
def rfifosizeServer : Nat := 64 * 1024
/-- `WFIFOSIZE_SERVER` -/
def wfifosizeServer : Nat := 32 * 1024

/-- `struct socket_data`. `funcParse` says whether there is a parser: there is none while the name of
a client is looked up. -/
structure SocketData where
  eof : Bool := false
  notUsedBigRdata : UInt8 := 0
  notUsedBigWdata : UInt8 := 0
  rdata : Buf
  wdata : Buf
  maxRdata : Nat := rfifoSize
  maxWdata : Nat := wfifoSize
  rdataSize : Nat := 0
  wdataSize : Nat := 0
  rdataPos : Nat := 0
  funcParse : Bool := true

/-- `RFIFOREST` -/
def SocketData.rfiforest (s : SocketData) : Nat := s.rdataSize - s.rdataPos

/-- `RFIFOSKIP` -/
def SocketData.rfifoskip (s : SocketData) (len : Nat) : SocketData :=
  { s with rdataPos := s.rdataPos + len }

/-- `RFIFOFLUSH` -/
def SocketData.rfifoflush (s : SocketData) : SocketData :=
  { s with
    rdata := move s.rdata 0 s.rdataPos s.rfiforest
    rdataSize := s.rfiforest
    rdataPos := 0 }

/-- The first half of `realloc_fifo`. -/
def reallocRdata (fresh : Buf) (s : SocketData) (rfifo : Nat) : SocketData :=
  if s.maxRdata ≠ rfifo ∧ s.rdataSize < rfifo then
    { s with rdata := realloc s.rdata fresh (min s.maxRdata rfifo), maxRdata := rfifo }
  else s

/-- The second half of `realloc_fifo`. -/
def reallocWdata (fresh : Buf) (s : SocketData) (wfifo : Nat) : SocketData :=
  if s.maxWdata ≠ wfifo ∧ s.wdataSize < wfifo then
    { s with wdata := realloc s.wdata fresh (min s.maxWdata wfifo), maxWdata := wfifo }
  else s

/-- `realloc_fifo` -/
def reallocFifo (fresh : Buf) (s : SocketData) (rfifo wfifo : Nat) : SocketData :=
  reallocWdata fresh (reallocRdata fresh s rfifo) wfifo

/-- `while (resized_value < need) resized_value += step_size` -/
def resizedValue (stepSize need value : Nat) : Nat :=
  if _ : value < need ∧ 0 < stepSize then resizedValue stepSize need (value + stepSize) else value
termination_by need - value

/-- What `recv_to_fifo` does to the size of the buffer after it has received something. -/
def recvResize (fresh : Buf) (s : SocketData) : SocketData :=
  if s.maxRdata > rfifoSize then
    if s.maxRdata = s.rdataSize then
      { reallocFifo fresh s (s.maxRdata <<< 1) s.maxWdata with notUsedBigRdata := 0 }
    else if s.maxRdata > rfifosizeServer ∧ s.rdataSize < s.maxRdata / 4 then
      if s.notUsedBigRdata ≥ 16 then
        { s with
          maxRdata := s.maxRdata >>> 1
          rdata := realloc s.rdata fresh (s.maxRdata >>> 1)
          notUsedBigRdata := 0 }
      else { s with notUsedBigRdata := s.notUsedBigRdata + 1 }
    else { s with notUsedBigRdata := 0 }
  else s

/-- What `read` returns: as many of the bytes as there is room for. -/
def readBytes (s : SocketData) (bytes : List UInt8) : List UInt8 :=
  if s.eof ∨ s.maxRdata = s.rdataSize then [] else bytes.take (s.maxRdata - s.rdataSize)

/-- `recv_to_fifo`. There are no bytes when `read` fails and when the other side has closed. -/
def recvToFifo (fresh : Buf) (s : SocketData) (bytes : List UInt8) : SocketData :=
  if s.eof then s
  else if s.maxRdata = s.rdataSize then s
  else
    match readBytes s bytes with
    | [] => { s with eof := true }
    | b :: bs =>
      recvResize fresh
        { s with
          rdata := write s.rdata s.rdataSize (b :: bs)
          rdataSize := s.rdataSize + (b :: bs).length }

/-- The size by which a buffer for sending grows. -/
def SocketData.stepSize (s : SocketData) : Nat :=
  if s.maxRdata = rfifoSize then wfifoSize else wfifosizeServer

/-- What `send_from_fifo` does to the size of the buffer before it sends. -/
def sendResize (fresh : Buf) (s : SocketData) : SocketData :=
  if s.maxWdata > s.stepSize then
    if s.wdataSize < s.maxWdata / 4 then
      if s.notUsedBigWdata ≥ 32 then
        let resized := resizedValue s.stepSize s.wdataSize s.stepSize
        { s with
          wdata := realloc s.wdata fresh (min s.maxWdata resized)
          maxWdata := resized
          notUsedBigWdata := 0 }
      else { s with notUsedBigWdata := s.notUsedBigWdata + 1 }
    else { s with notUsedBigWdata := 0 }
  else s

/-- What `write` returns: an error, which is fatal or not (`EAGAIN`), or a number of bytes, which the
kernel keeps to at most what it was given. -/
inductive WriteAnswer
  | error (fatal : Bool)
  | written (len : Nat)

/-- What `send_from_fifo` keeps when `len` bytes have been sent. -/
def sendRest (s : SocketData) (len : Nat) : SocketData :=
  if len > 0 then
    if len < s.wdataSize then
      { s with wdata := move s.wdata 0 len (s.wdataSize - len), wdataSize := s.wdataSize - len }
    else { s with wdataSize := 0 }
  else s

/-- The loop of `send_from_fifo`: the session after it, and the bytes that were sent. -/
def sendLoop (s : SocketData) : List WriteAnswer → SocketData × List UInt8
  | [] => (s, [])
  | .error fatal :: _ => (if fatal then { s with eof := true } else s, [])
  | .written n :: answers =>
    let len := min n s.wdataSize
    let sent := read s.wdata 0 len
    let s' := sendRest s len
    if len > 0 ∧ s'.wdataSize > 0 then
      let r := sendLoop s' answers
      (r.1, sent ++ r.2)
    else (s', sent)

/-- `send_from_fifo` -/
def sendFromFifo (fresh : Buf) (s : SocketData) (answers : List WriteAnswer) :
    SocketData × List UInt8 :=
  sendLoop (sendResize fresh s) answers

/-- Whether `SENDPACKET` takes the packet in. -/
def packetTaken (s : SocketData) (len : Int) : Bool :=
  decide (2 ≤ len) && !(decide (s.wdataSize + len > s.maxWdata) && s.maxRdata == rfifoSize &&
    decide (s.maxWdata > 4 * 1024 * 1024))

/-- `SENDPACKET`, of a packet in `WPACKETBUF`. -/
def sendpacket (fresh : Buf) (s : SocketData) (wpacketbuf : Buf) (len : Int) : SocketData :=
  if len < 2 then s
  else
    let need := s.wdataSize + len.toNat
    if need > s.maxWdata then
      if s.maxRdata = rfifoSize ∧ s.maxWdata > 4 * 1024 * 1024 then { s with eof := true }
      else
        { s with
          wdata := write (realloc s.wdata fresh s.maxWdata) s.wdataSize
            (read wpacketbuf 0 len.toNat)
          maxWdata := resizedValue s.stepSize need s.maxWdata
          wdataSize := need
          notUsedBigWdata := 0 }
    else
      { s with
        wdata := write s.wdata s.wdataSize (read wpacketbuf 0 len.toNat)
        wdataSize := need }

/-- What the server does with a session: it sends, skips what it has parsed, resizes the buffers,
gives the session a parser, marks it for closing, or deletes it. -/
inductive SocketCall
  | sendpacket (wpacketbuf : Buf) (len : Int)
  | skip (len : Nat)
  | realloc (rfifo wfifo : Nat)
  | setParse
  | setEof
  | delete

/-- A session, as long as there is one, and what has gone through it: the packets taken in and the
bytes sent, the bytes received and those skipped by the parser. -/
structure Wire where
  session : Option SocketData
  packets : List (List UInt8) := []
  sent : List UInt8 := []
  received : List UInt8 := []
  skipped : List UInt8 := []

variable (fresh : Buf)

def socketCall (w : Wire) (c : SocketCall) : Wire :=
  match w.session with
  | none => w
  | some s =>
    match c with
    | .sendpacket wpacketbuf len =>
      { w with
        session := some (sendpacket fresh s wpacketbuf len)
        packets :=
          if packetTaken s len then w.packets ++ [read wpacketbuf 0 len.toNat] else w.packets }
    | .skip len =>
      { w with
        session := some (s.rfifoskip len)
        skipped := w.skipped ++ read s.rdata s.rdataPos len }
    | .realloc rfifo wfifo => { w with session := some (reallocFifo fresh s rfifo wfifo) }
    | .setParse => { w with session := some { s with funcParse := true } }
    | .setEof => { w with session := some { s with eof := true } }
    | .delete => { w with session := none }

/-- The end of the loop of `do_parsepacket`: what has been parsed is dropped, at once if it is
everything and else if less than half of the buffer is free. -/
def parsepacketCompact (s : SocketData) : SocketData :=
  if s.rdataSize = s.rdataPos then { s with rdataSize := 0, rdataPos := 0 }
  else if s.rdataSize * 2 > s.maxRdata then s.rfifoflush
  else s

/-- After the parser: a client that has filled its buffer with one packet is closed. -/
def parsepacketCheck (s : SocketData) : SocketData :=
  if s.rdataPos = 0 ∧ s.rdataSize = s.maxRdata ∧ s.maxRdata = rfifoSize then { s with eof := true }
  else parsepacketCompact s

/-- `do_parsepacket`, for one session and with the calls that its parser makes. -/
def doParsepacket (w : Wire) (calls : List SocketCall) : Wire :=
  match w.session with
  | none => w
  | some s =>
    if s.rdataSize = 0 ∧ s.eof = false then w
    else if s.funcParse then
      let w' := calls.foldl (socketCall fresh) w
      { w' with session := w'.session.map parsepacketCheck }
    else { w with session := some (parsepacketCompact s) }

/-- What can happen to a session: the server uses it outside of its parser, its socket is writable or
readable, or it is parsed. -/
inductive SocketEvent
  | call (c : SocketCall)
  | send (answers : List WriteAnswer)
  | recv (bytes : List UInt8)
  | parsepacket (calls : List SocketCall)

def socketStep (w : Wire) : SocketEvent → Wire
  | .call c => socketCall fresh w c
  | .send answers =>
    match w.session with
    | none => w
    | some s =>
      let r := sendFromFifo fresh s answers
      { w with session := some r.1, sent := w.sent ++ r.2 }
  | .recv bytes =>
    match w.session with
    | none => w
    | some s =>
      { w with
        session := some (recvToFifo fresh s bytes)
        received := w.received ++ readBytes s bytes }
  | .parsepacket calls => doParsepacket fresh w calls

/-- A session as `connect_client` and `make_connection` set it up, whatever `MALLOC` has found in its
buffers. -/
def newWire (rdata wdata : Buf) (funcParse : Bool) : Wire where
  session := some { rdata := rdata, wdata := wdata, funcParse := funcParse }

end Nezumi
