import Nezumi.Common.Socket
import Nezumi.Lib.Run

/-!
# The streams of a session (`common/socket.c`)

* `Sends`: what is sent and what is pending are the packets that were taken in, in order, and the
  buffer is large enough for what is pending.
* `Receives`: what the parser has skipped and what is unread are the bytes that were received, and
  the position, the size and the capacity of the buffer are in order.
* `sendpacket_sends` and so on: one lemma for each function and stream.
* `socketRun_sends`: the first holds in every run.
* `socketRun_receives`: the second holds in every run whose parser skips no more than there is, and
  after `do_parsepacket` a session with a parser that is not closed has room.
* `socketRun_stalls`: one without a parser can be full.
-/

namespace Nezumi

open Bytes

/-- The bytes that wait to be sent. -/
def SocketData.pending (s : SocketData) : List UInt8 := read s.wdata 0 s.wdataSize

/-- The bytes that wait to be parsed. -/
def SocketData.unread (s : SocketData) : List UInt8 := read s.rdata s.rdataPos s.rfiforest

/-- The output stream is intact. -/
structure Sends (w : Wire) (s : SocketData) : Prop where
  fits : s.wdataSize ≤ s.maxWdata
  stream : w.sent ++ s.pending = w.packets.flatten

/-- The input stream is intact. -/
structure Receives (w : Wire) (s : SocketData) : Prop where
  pos_le : s.rdataPos ≤ s.rdataSize
  fits : s.rdataSize ≤ s.maxRdata
  stream : w.skipped ++ s.unread = w.received

/-- The session can receive something. -/
def HasRoom (s : SocketData) : Prop := s.rdataSize < s.maxRdata

section Functions

variable (fresh : Buf) {s : SocketData}

theorem le_resizedValue {stepSize : ℕ} (need value : ℕ) (h : 0 < stepSize) :
    need ≤ resizedValue stepSize need value ∧ value ≤ resizedValue stepSize need value := by
  induction value using resizedValue.induct stepSize need with
  | case1 value hlt ih =>
    unfold resizedValue
    rw [dif_pos hlt]
    omega
  | case2 value hge =>
    unfold resizedValue
    rw [dif_neg hge]
    omega

theorem SocketData.stepSize_pos (s : SocketData) : 0 < s.stepSize := by
  unfold SocketData.stepSize
  split <;> decide

/-! ## The output -/

/-- What a function may do to the output of a session: keep it. -/
structure KeepsOutput (s s' : SocketData) : Prop where
  fits : s.wdataSize ≤ s.maxWdata → s'.wdataSize ≤ s'.maxWdata
  pending : s.wdataSize ≤ s.maxWdata → s'.pending = s.pending

theorem KeepsOutput.of_eq {s' : SocketData} (h₁ : s'.wdata = s.wdata)
    (h₂ : s'.wdataSize = s.wdataSize) (h₃ : s'.maxWdata = s.maxWdata) : KeepsOutput s s' :=
  ⟨by rw [h₂, h₃]; exact id, fun _ => by rw [SocketData.pending, h₁, h₂, SocketData.pending]⟩

theorem KeepsOutput.trans {s' s'' : SocketData} (h : KeepsOutput s s') (h' : KeepsOutput s' s'') :
    KeepsOutput s s'' :=
  ⟨fun hs => h'.fits (h.fits hs), fun hs => (h'.pending (h.fits hs)).trans (h.pending hs)⟩

theorem reallocWdata_keepsOutput (wfifo : ℕ) : KeepsOutput s (reallocWdata fresh s wfifo) := by
  unfold reallocWdata
  split
  · rename_i h
    exact ⟨fun _ => h.2.le, fun hs => read_realloc (by dsimp only; omega)⟩
  · exact .of_eq rfl rfl rfl

theorem reallocFifo_keepsOutput (rfifo wfifo : ℕ) :
    KeepsOutput s (reallocFifo fresh s rfifo wfifo) := by
  have hrdata : KeepsOutput s (reallocRdata fresh s rfifo) := by
    unfold reallocRdata
    split <;> exact .of_eq rfl rfl rfl
  exact hrdata.trans (reallocWdata_keepsOutput fresh wfifo)

theorem recvToFifo_keepsOutput (bytes : List UInt8) :
    KeepsOutput s (recvToFifo fresh s bytes) := by
  unfold recvToFifo
  split
  · exact .of_eq rfl rfl rfl
  split
  · exact .of_eq rfl rfl rfl
  split
  · exact .of_eq rfl rfl rfl
  rename_i b bs _
  have hread : KeepsOutput s { s with
      rdata := write s.rdata s.rdataSize (b :: bs)
      rdataSize := s.rdataSize + (b :: bs).length } := .of_eq rfl rfl rfl
  refine hread.trans ?_
  unfold recvResize
  split
  · split
    · exact .trans (reallocFifo_keepsOutput fresh _ _) (.of_eq rfl rfl rfl)
    · split
      · split <;> exact .of_eq rfl rfl rfl
      · exact .of_eq rfl rfl rfl
  · exact .of_eq rfl rfl rfl

theorem sendResize_keepsOutput : KeepsOutput s (sendResize fresh s) := by
  unfold sendResize
  split
  · split
    · split
      · have hge := le_resizedValue s.wdataSize s.stepSize s.stepSize_pos
        exact ⟨fun _ => hge.1, fun hs => read_realloc (by dsimp only; omega)⟩
      · exact .of_eq rfl rfl rfl
    · exact .of_eq rfl rfl rfl
  · exact .of_eq rfl rfl rfl

/-- What is sent comes off the front. -/
theorem sendRest_sends {len : ℕ} (hle : len ≤ s.wdataSize) (hs : s.wdataSize ≤ s.maxWdata) :
    (sendRest s len).wdataSize ≤ (sendRest s len).maxWdata ∧
      read s.wdata 0 len ++ (sendRest s len).pending = s.pending := by
  have hsplit : s.pending = read s.wdata 0 len ++ read s.wdata len (s.wdataSize - len) := by
    rw [SocketData.pending, show s.wdataSize = len + (s.wdataSize - len) by omega, read_add]
    simp
  unfold sendRest
  split
  · split
    · refine ⟨by dsimp only; omega, ?_⟩
      rw [hsplit, SocketData.pending, read_move]
    · refine ⟨Nat.zero_le _, ?_⟩
      rw [hsplit, show s.wdataSize - len = 0 by omega]
      rfl
  · obtain rfl : len = 0 := by omega
    exact ⟨hs, rfl⟩

/-- **The loop of `send_from_fifo`** sends the first pending bytes, and keeps the others. -/
theorem sendLoop_sends (answers : List WriteAnswer) (hs : s.wdataSize ≤ s.maxWdata) :
    (sendLoop s answers).1.wdataSize ≤ (sendLoop s answers).1.maxWdata ∧
      (sendLoop s answers).2 ++ (sendLoop s answers).1.pending = s.pending := by
  induction answers generalizing s with
  | nil => exact ⟨hs, rfl⟩
  | cons a answers ih =>
    cases a with
    | error fatal => cases fatal <;> exact ⟨hs, rfl⟩
    | written n =>
      have hrest := sendRest_sends (Nat.min_le_right n s.wdataSize) hs
      unfold sendLoop
      dsimp only
      split
      · obtain ⟨hfits, hloop⟩ := ih hrest.1
        exact ⟨hfits, by rw [List.append_assoc, hloop]; exact hrest.2⟩
      · exact hrest

/-- **`send_from_fifo`** -/
theorem sendFromFifo_sends (answers : List WriteAnswer) (hs : s.wdataSize ≤ s.maxWdata) :
    (sendFromFifo fresh s answers).1.wdataSize ≤ (sendFromFifo fresh s answers).1.maxWdata ∧
      (sendFromFifo fresh s answers).2 ++ (sendFromFifo fresh s answers).1.pending = s.pending := by
  have hkeep := sendResize_keepsOutput fresh (s := s)
  have hloop := sendLoop_sends (s := sendResize fresh s) answers (hkeep.fits hs)
  rw [hkeep.pending hs] at hloop
  exact hloop

/-- **`SENDPACKET`** appends the packet, or does not take it. -/
theorem sendpacket_sends (wpacketbuf : Buf) (len : Int) (hs : s.wdataSize ≤ s.maxWdata) :
    (sendpacket fresh s wpacketbuf len).wdataSize ≤ (sendpacket fresh s wpacketbuf len).maxWdata ∧
      (sendpacket fresh s wpacketbuf len).pending =
        s.pending ++ if packetTaken s len then read wpacketbuf 0 len.toNat else [] := by
  unfold sendpacket packetTaken
  by_cases hlen : len < 2
  · rw [if_pos hlen, if_neg (by simp; omega), List.append_nil]
    exact ⟨hs, rfl⟩
  rw [if_neg hlen]
  have hlength := length_read wpacketbuf 0 len.toNat
  have hend (b : Buf) : read (write b s.wdataSize (read wpacketbuf 0 len.toNat)) 0
      (s.wdataSize + len.toNat) = read b 0 s.wdataSize ++ read wpacketbuf 0 len.toNat := by
    have := read_write_end b s.wdataSize (read wpacketbuf 0 len.toNat)
    rwa [hlength] at this
  dsimp only
  by_cases hbig : s.wdataSize + len.toNat > s.maxWdata
  · rw [if_pos hbig]
    by_cases hclient : s.maxRdata = rfifoSize ∧ s.maxWdata > 4 * 1024 * 1024
    · rw [if_pos hclient, if_neg (by simp [hclient.1]; omega), List.append_nil]
      exact ⟨hs, rfl⟩
    · rw [if_neg hclient, if_pos (by simp at hclient ⊢; omega)]
      refine ⟨(le_resizedValue _ _ s.stepSize_pos).1, (hend _).trans ?_⟩
      rw [read_realloc (by omega), SocketData.pending]
  · rw [if_neg hbig, if_pos (by simp; omega)]
    exact ⟨by dsimp only; omega, hend _⟩

/-! ## The input -/

/-- What a function may do to the input of a session: keep it. -/
structure KeepsInput (s s' : SocketData) : Prop where
  pos : s'.rdataPos = s.rdataPos
  size : s'.rdataSize = s.rdataSize
  fits : s.rdataSize ≤ s.maxRdata → s'.rdataSize ≤ s'.maxRdata
  unread : s.rdataPos ≤ s.rdataSize → s.rdataSize ≤ s.maxRdata → s'.unread = s.unread

theorem KeepsInput.of_eq {s' : SocketData} (h₁ : s'.rdata = s.rdata)
    (h₂ : s'.rdataSize = s.rdataSize) (h₃ : s'.maxRdata = s.maxRdata)
    (h₄ : s'.rdataPos = s.rdataPos) : KeepsInput s s' := by
  refine ⟨h₄, h₂, by rw [h₂, h₃]; exact id, fun _ _ => ?_⟩
  rw [SocketData.unread, SocketData.rfiforest, h₁, h₂, h₄, SocketData.unread, SocketData.rfiforest]

theorem KeepsInput.trans {s' s'' : SocketData} (h : KeepsInput s s') (h' : KeepsInput s' s'') :
    KeepsInput s s'' :=
  ⟨h'.pos.trans h.pos, h'.size.trans h.size, fun hs => h'.fits (h.fits hs), fun hpos hs =>
    (h'.unread (by rw [h.pos, h.size]; exact hpos) (h.fits hs)).trans (h.unread hpos hs)⟩

/-- A buffer that still holds what it held. -/
theorem KeepsInput.realloc {s' : SocketData} {n : ℕ} (h₁ : s'.rdata = Bytes.realloc s.rdata fresh n)
    (h₂ : s'.rdataSize = s.rdataSize) (h₃ : s'.rdataPos = s.rdataPos)
    (hn : s.rdataSize ≤ s.maxRdata → s.rdataSize ≤ n) (hmax : s.rdataSize ≤ s'.maxRdata) :
    KeepsInput s s' := by
  refine ⟨h₃, h₂, fun _ => by rw [h₂]; exact hmax, fun hpos hs => ?_⟩
  have := hn hs
  rw [SocketData.unread, SocketData.rfiforest, h₁, h₂, h₃]
  exact read_realloc (by omega)

theorem reallocRdata_keepsInput (rfifo : ℕ) : KeepsInput s (reallocRdata fresh s rfifo) := by
  unfold reallocRdata
  split
  · rename_i h
    exact .realloc fresh rfl rfl rfl (by omega) h.2.le
  · exact .of_eq rfl rfl rfl rfl

theorem reallocFifo_keepsInput (rfifo wfifo : ℕ) :
    KeepsInput s (reallocFifo fresh s rfifo wfifo) := by
  refine (reallocRdata_keepsInput fresh rfifo).trans ?_
  unfold reallocFifo reallocWdata
  split <;> exact .of_eq rfl rfl rfl rfl

theorem sendpacket_keepsInput (wpacketbuf : Buf) (len : Int) :
    KeepsInput s (sendpacket fresh s wpacketbuf len) := by
  unfold sendpacket
  dsimp only
  split
  · exact .of_eq rfl rfl rfl rfl
  split
  · split <;> exact .of_eq rfl rfl rfl rfl
  · exact .of_eq rfl rfl rfl rfl

theorem sendRest_keepsInput (len : ℕ) : KeepsInput s (sendRest s len) := by
  unfold sendRest
  split
  · split <;> exact .of_eq rfl rfl rfl rfl
  · exact .of_eq rfl rfl rfl rfl

theorem sendLoop_keepsInput (answers : List WriteAnswer) :
    KeepsInput s (sendLoop s answers).1 := by
  induction answers generalizing s with
  | nil => exact .of_eq rfl rfl rfl rfl
  | cons a answers ih =>
    cases a with
    | error fatal => cases fatal <;> exact .of_eq rfl rfl rfl rfl
    | written n =>
      have hrest := sendRest_keepsInput (s := s) (min n s.wdataSize)
      unfold sendLoop
      dsimp only
      split
      · exact hrest.trans ih
      · exact hrest

theorem sendFromFifo_keepsInput (answers : List WriteAnswer) :
    KeepsInput s (sendFromFifo fresh s answers).1 := by
  have hresize : KeepsInput s (sendResize fresh s) := by
    unfold sendResize
    split
    · split
      · split <;> exact .of_eq rfl rfl rfl rfl
      · exact .of_eq rfl rfl rfl rfl
    · exact .of_eq rfl rfl rfl rfl
  exact hresize.trans (sendLoop_keepsInput answers)

theorem recvResize_keepsInput : KeepsInput s (recvResize fresh s) := by
  unfold recvResize
  split
  · split
    · exact (reallocFifo_keepsInput fresh _ _).trans (.of_eq rfl rfl rfl rfl)
    · split
      · rename_i h
        have hhalf : s.rdataSize ≤ s.maxRdata >>> 1 := by
          rw [Nat.shiftRight_eq_div_pow]
          omega
        split
        · exact .realloc fresh rfl rfl rfl (fun _ => hhalf) hhalf
        · exact .of_eq rfl rfl rfl rfl
      · exact .of_eq rfl rfl rfl rfl
  · exact .of_eq rfl rfl rfl rfl

/-- **`recv_to_fifo`** appends what it has received. -/
theorem recvToFifo_receives (bytes : List UInt8) (hpos : s.rdataPos ≤ s.rdataSize)
    (hs : s.rdataSize ≤ s.maxRdata) :
    (recvToFifo fresh s bytes).rdataPos ≤ (recvToFifo fresh s bytes).rdataSize ∧
      (recvToFifo fresh s bytes).rdataSize ≤ (recvToFifo fresh s bytes).maxRdata ∧
      (recvToFifo fresh s bytes).unread = s.unread ++ readBytes s bytes := by
  unfold recvToFifo readBytes
  split
  · rename_i heof
    rw [if_pos (.inl heof), List.append_nil]
    exact ⟨hpos, hs, rfl⟩
  split
  · rename_i hfull
    rw [if_pos (.inr hfull), List.append_nil]
    exact ⟨hpos, hs, rfl⟩
  rename_i heof hfull
  rw [if_neg (by grind)]
  have hlen := List.length_take_le (s.maxRdata - s.rdataSize) bytes
  generalize bytes.take (s.maxRdata - s.rdataSize) = bs at hlen
  cases bs with
  | nil => exact ⟨hpos, hs, (List.append_nil _).symm⟩
  | cons b bs =>
    dsimp only
    generalize hmid : { s with
      rdata := write s.rdata s.rdataSize (b :: bs)
      rdataSize := s.rdataSize + (b :: bs).length } = mid
    have hfits : mid.rdataSize ≤ mid.maxRdata := by
      subst hmid
      dsimp only
      omega
    have hle : mid.rdataPos ≤ mid.rdataSize := by
      subst hmid
      dsimp only
      omega
    have hkeep := recvResize_keepsInput fresh (s := mid)
    refine ⟨by rw [hkeep.pos, hkeep.size]; exact hle, hkeep.fits hfits, ?_⟩
    rw [hkeep.unread hle hfits]
    subst hmid
    unfold SocketData.unread SocketData.rfiforest
    dsimp only
    rw [show s.rdataSize + (b :: bs).length - s.rdataPos =
        (s.rdataSize - s.rdataPos) + (b :: bs).length by omega, read_add,
      read_write_of_disjoint (.inl (by omega)),
      show s.rdataPos + (s.rdataSize - s.rdataPos) = s.rdataSize by omega, read_write]

/-- **`RFIFOSKIP`** -/
theorem rfifoskip_receives {len : ℕ} (hpos : s.rdataPos ≤ s.rdataSize) (hlen : len ≤ s.rfiforest) :
    (s.rfifoskip len).rdataPos ≤ s.rdataSize ∧
      read s.rdata s.rdataPos len ++ (s.rfifoskip len).unread = s.unread := by
  unfold SocketData.rfiforest at hlen
  refine ⟨by dsimp only [SocketData.rfifoskip]; omega, ?_⟩
  unfold SocketData.unread SocketData.rfiforest SocketData.rfifoskip
  dsimp only
  rw [show s.rdataSize - s.rdataPos = len + (s.rdataSize - (s.rdataPos + len)) by omega, read_add]

/-- **The compaction** of `do_parsepacket` drops what has been parsed. -/
theorem parsepacketCompact_receives (hpos : s.rdataPos ≤ s.rdataSize)
    (hs : s.rdataSize ≤ s.maxRdata) :
    (parsepacketCompact s).rdataPos ≤ (parsepacketCompact s).rdataSize ∧
      (parsepacketCompact s).rdataSize ≤ (parsepacketCompact s).maxRdata ∧
      (parsepacketCompact s).unread = s.unread := by
  unfold parsepacketCompact
  split
  · rename_i hall
    refine ⟨le_rfl, Nat.zero_le _, ?_⟩
    simp [SocketData.unread, SocketData.rfiforest, hall, Bytes.read]
  split
  · refine ⟨Nat.zero_le _, ?_, read_move s.rdata 0 s.rdataPos s.rfiforest⟩
    dsimp only [SocketData.rfifoflush, SocketData.rfiforest]
    omega
  · exact ⟨hpos, hs, rfl⟩

theorem parsepacketCheck_receives (hpos : s.rdataPos ≤ s.rdataSize)
    (hs : s.rdataSize ≤ s.maxRdata) :
    (parsepacketCheck s).rdataPos ≤ (parsepacketCheck s).rdataSize ∧
      (parsepacketCheck s).rdataSize ≤ (parsepacketCheck s).maxRdata ∧
      (parsepacketCheck s).unread = s.unread := by
  unfold parsepacketCheck
  split
  · exact ⟨hpos, hs, rfl⟩
  · exact parsepacketCompact_receives hpos hs

theorem parsepacketCompact_keepsOutput : KeepsOutput s (parsepacketCompact s) := by
  unfold parsepacketCompact
  split
  · exact .of_eq rfl rfl rfl
  · split <;> exact .of_eq rfl rfl rfl

theorem parsepacketCheck_keepsOutput : KeepsOutput s (parsepacketCheck s) := by
  unfold parsepacketCheck
  split
  · exact .of_eq rfl rfl rfl
  · exact parsepacketCompact_keepsOutput

/-! ## Room -/

/-- The buffer of a client may be full; any larger buffer is not, after anything that fills it. -/
def Roomy (s : SocketData) : Prop :=
  s.maxRdata = rfifoSize ∨ rfifoSize < s.maxRdata ∧ s.rdataSize < s.maxRdata

theorem Roomy.of_eq {s' : SocketData} (h : Roomy s) (hmax : s'.maxRdata = s.maxRdata)
    (hsize : s'.rdataSize ≤ s.rdataSize) : Roomy s' := by
  unfold Roomy at h ⊢
  omega

theorem reallocRdata_roomy {rfifo : ℕ} (h : Roomy s) (hr : rfifoSize ≤ rfifo) :
    Roomy (reallocRdata fresh s rfifo) := by
  unfold reallocRdata
  split
  · unfold Roomy
    dsimp only
    omega
  · exact h

theorem reallocFifo_roomy {rfifo : ℕ} (h : Roomy s) (hr : rfifoSize ≤ rfifo) (wfifo : ℕ) :
    Roomy (reallocFifo fresh s rfifo wfifo) := by
  have hfirst := reallocRdata_roomy fresh h hr
  unfold reallocFifo reallocWdata
  split <;> exact hfirst.of_eq rfl le_rfl

theorem recvResize_roomy (hs : s.rdataSize ≤ s.maxRdata) (hmax : rfifoSize ≤ s.maxRdata) :
    Roomy (recvResize fresh s) := by
  have hsize : rfifoSize = 2048 := rfl
  have hserver : rfifosizeServer = 65536 := rfl
  unfold recvResize
  split
  · split
    · rename_i hbig hfull
      have hgrown : Roomy (reallocRdata fresh s (s.maxRdata <<< 1)) := by
        unfold reallocRdata Roomy
        rw [Nat.shiftLeft_eq, if_pos (by omega)]
        dsimp only
        omega
      refine Roomy.of_eq (s := reallocRdata fresh s (s.maxRdata <<< 1)) hgrown ?_ ?_
      all_goals
        unfold reallocFifo reallocWdata
        split <;> rfl
    · split
      · split
        · unfold Roomy
          dsimp only
          rw [Nat.shiftRight_eq_div_pow]
          omega
        · unfold Roomy
          dsimp only
          omega
      · unfold Roomy
        dsimp only
        omega
  · unfold Roomy
    omega

theorem recvToFifo_roomy (bytes : List UInt8) (h : Roomy s) (hs : s.rdataSize ≤ s.maxRdata) :
    Roomy (recvToFifo fresh s bytes) := by
  unfold recvToFifo
  split
  · exact h
  split
  · exact h
  split
  · exact h.of_eq rfl le_rfl
  rename_i b bs hbytes
  have hle : (b :: bs).length ≤ s.maxRdata - s.rdataSize := by
    rw [← hbytes]
    unfold readBytes
    split
    · exact Nat.zero_le _
    · exact List.length_take_le _ _
  refine recvResize_roomy fresh ?_ ?_
  · dsimp only
    omega
  · unfold Roomy at h
    dsimp only
    omega

theorem parsepacketCompact_roomy (h : Roomy s) : Roomy (parsepacketCompact s) := by
  unfold parsepacketCompact
  split
  · exact h.of_eq rfl (Nat.zero_le _)
  split
  · exact h.of_eq rfl (Nat.sub_le _ _)
  · exact h

theorem parsepacketCheck_roomy (h : Roomy s) : Roomy (parsepacketCheck s) := by
  unfold parsepacketCheck
  split
  · exact h.of_eq rfl le_rfl
  · exact parsepacketCompact_roomy h

/-- **After the parser and its check**, a session that is not closed has room. -/
theorem parsepacketCheck_room (h : Roomy s) (hs : s.rdataSize ≤ s.maxRdata)
    (heof : (parsepacketCheck s).eof = false) : HasRoom (parsepacketCheck s) := by
  have hsize : rfifoSize = 2048 := rfl
  unfold Roomy at h
  unfold HasRoom
  unfold parsepacketCheck at heof ⊢
  split
  · rename_i hfull
    rw [if_pos hfull] at heof
    cases heof
  rename_i hnot
  unfold parsepacketCompact
  split
  · dsimp only
    omega
  split
  · dsimp only [SocketData.rfifoflush, SocketData.rfiforest]
    omega
  · omega

end Functions

/-! ## Runs -/

section Runs

variable {fresh : Buf} {w : Wire}

/-- The output stream of a session is intact, as long as there is a session. -/
def WireSends (w : Wire) : Prop := ∀ s ∈ w.session, Sends w s

/-- The input stream of a session is intact, as long as there is a session. -/
def WireReceives (w : Wire) : Prop := ∀ s ∈ w.session, Receives w s

theorem Sends.keep {s s' : SocketData} {w' : Wire} (h : Sends w s) (hkeep : KeepsOutput s s')
    (hsent : w'.sent = w.sent) (hpackets : w'.packets = w.packets) : Sends w' s' :=
  ⟨hkeep.fits h.fits, by rw [hkeep.pending h.fits, hsent, hpackets]; exact h.stream⟩

theorem Receives.keep {s s' : SocketData} {w' : Wire} (h : Receives w s) (hkeep : KeepsInput s s')
    (hskipped : w'.skipped = w.skipped) (hreceived : w'.received = w.received) : Receives w' s' :=
  ⟨by rw [hkeep.pos, hkeep.size]; exact h.pos_le, hkeep.fits h.fits,
    by rw [hkeep.unread h.pos_le h.fits, hskipped, hreceived]; exact h.stream⟩

theorem socketCall_sends (h : WireSends w) (c : SocketCall) : WireSends (socketCall fresh w c) := by
  unfold socketCall
  cases hw : w.session with
  | none =>
    intro s hs
    rw [hw] at hs
    cases hs
  | some s =>
    have hsends := h s hw
    cases c with
    | sendpacket wpacketbuf len =>
      rintro _ ⟨⟩
      obtain ⟨hfits, hpending⟩ := sendpacket_sends fresh wpacketbuf len hsends.fits
      refine ⟨hfits, ?_⟩
      dsimp only
      rw [hpending, ← List.append_assoc, hsends.stream]
      split <;> simp
    | skip len =>
      rintro _ ⟨⟩
      exact hsends.keep (.of_eq rfl rfl rfl) rfl rfl
    | realloc rfifo wfifo =>
      rintro _ ⟨⟩
      exact hsends.keep (reallocFifo_keepsOutput fresh rfifo wfifo) rfl rfl
    | setParse =>
      rintro _ ⟨⟩
      exact hsends.keep (.of_eq rfl rfl rfl) rfl rfl
    | setEof =>
      rintro _ ⟨⟩
      exact hsends.keep (.of_eq rfl rfl rfl) rfl rfl
    | delete => rintro _ ⟨⟩

/-- `RFIFOSKIP` skips no more than `RFIFOREST`. -/
def SkipWithin (w : Wire) : SocketCall → Prop
  | .skip len => ∀ s ∈ w.session, len ≤ s.rfiforest
  | _ => True

/-- The skips of an event are within what is unread. -/
def SkipsWithin (fresh : Buf) (w : Wire) : SocketEvent → Prop
  | .call c => SkipWithin w c
  | .parsepacket calls => Run.Meets (socketCall fresh) SkipWithin w calls
  | _ => True

theorem socketCall_receives (h : WireReceives w) (c : SocketCall) (hskip : SkipWithin w c) :
    WireReceives (socketCall fresh w c) := by
  unfold socketCall
  cases hw : w.session with
  | none =>
    intro s hs
    rw [hw] at hs
    cases hs
  | some s =>
    have hrec := h s hw
    cases c with
    | sendpacket wpacketbuf len =>
      rintro _ ⟨⟩
      exact hrec.keep (sendpacket_keepsInput fresh wpacketbuf len) rfl rfl
    | skip len =>
      rintro _ ⟨⟩
      obtain ⟨hpos, hunread⟩ := rfifoskip_receives hrec.pos_le (hskip s hw)
      refine ⟨hpos, hrec.fits, ?_⟩
      dsimp only
      rw [List.append_assoc, hunread]
      exact hrec.stream
    | realloc rfifo wfifo =>
      rintro _ ⟨⟩
      exact hrec.keep (reallocFifo_keepsInput fresh rfifo wfifo) rfl rfl
    | setParse =>
      rintro _ ⟨⟩
      exact hrec.keep (.of_eq rfl rfl rfl rfl) rfl rfl
    | setEof =>
      rintro _ ⟨⟩
      exact hrec.keep (.of_eq rfl rfl rfl rfl) rfl rfl
    | delete => rintro _ ⟨⟩

/-- **The step lemma of the output.** -/
theorem socketStep_sends (h : WireSends w) (e : SocketEvent) : WireSends (socketStep fresh w e) := by
  cases e with
  | call c => exact socketCall_sends h c
  | send answers =>
    unfold socketStep
    cases hw : w.session with
    | none => exact h
    | some s =>
      rintro _ ⟨⟩
      have hsends := h s hw
      obtain ⟨hfits, hstream⟩ := sendFromFifo_sends fresh answers hsends.fits
      refine ⟨hfits, ?_⟩
      dsimp only
      rw [List.append_assoc, hstream]
      exact hsends.stream
  | recv bytes =>
    unfold socketStep
    cases hw : w.session with
    | none => exact h
    | some s =>
      rintro _ ⟨⟩
      exact (h s hw).keep (recvToFifo_keepsOutput fresh bytes) rfl rfl
  | parsepacket calls =>
    unfold socketStep doParsepacket
    cases hw : w.session with
    | none => exact h
    | some s =>
      dsimp only
      split
      · exact h
      split
      · have hcalls : WireSends (Run.exec (socketCall fresh) w calls) :=
          Run.inv_exec (I := WireSends) (fun _ c h _ => socketCall_sends h c) h
            (Run.meets_of_forall (fun _ _ => trivial) w calls)
        intro s' hs'
        obtain ⟨mid, hmid, rfl⟩ := Option.mem_map.mp hs'
        exact (hcalls mid hmid).keep parsepacketCheck_keepsOutput rfl rfl
      · rintro _ ⟨⟩
        exact (h s hw).keep parsepacketCompact_keepsOutput rfl rfl

/-- **The step lemma of the input.** -/
theorem socketStep_receives (h : WireReceives w) (e : SocketEvent) (hskips : SkipsWithin fresh w e) :
    WireReceives (socketStep fresh w e) := by
  cases e with
  | call c => exact socketCall_receives h c hskips
  | send answers =>
    unfold socketStep
    cases hw : w.session with
    | none => exact h
    | some s =>
      rintro _ ⟨⟩
      exact (h s hw).keep (sendFromFifo_keepsInput fresh answers) rfl rfl
  | recv bytes =>
    unfold socketStep
    cases hw : w.session with
    | none => exact h
    | some s =>
      rintro _ ⟨⟩
      have hrec := h s hw
      obtain ⟨hpos, hfits, hunread⟩ := recvToFifo_receives fresh bytes hrec.pos_le hrec.fits
      refine ⟨hpos, hfits, ?_⟩
      dsimp only
      rw [hunread, ← List.append_assoc, hrec.stream]
  | parsepacket calls =>
    unfold socketStep doParsepacket
    cases hw : w.session with
    | none => exact h
    | some s =>
      dsimp only
      split
      · exact h
      split
      · have hcalls : WireReceives (Run.exec (socketCall fresh) w calls) :=
          Run.inv_exec (I := WireReceives) (fun _ c h hskip => socketCall_receives h c hskip) h hskips
        intro s' hs'
        obtain ⟨mid, hmid, rfl⟩ := Option.mem_map.mp hs'
        have hrec := hcalls mid hmid
        obtain ⟨hpos, hfits, hunread⟩ := parsepacketCheck_receives hrec.pos_le hrec.fits
        exact ⟨hpos, hfits, by rw [hunread]; exact hrec.stream⟩
      · rintro _ ⟨⟩
        have hrec := h s hw
        obtain ⟨hpos, hfits, hunread⟩ := parsepacketCompact_receives hrec.pos_le hrec.fits
        exact ⟨hpos, hfits, by rw [hunread]; exact hrec.stream⟩

/-- A buffer is not resized to less than a client's. -/
def ResizeOk : SocketCall → Prop
  | .realloc rfifo _ => rfifoSize ≤ rfifo
  | _ => True

/-- The resizes of an event are to no less than a client's buffer. -/
def ResizesOk : SocketEvent → Prop
  | .call c => ResizeOk c
  | .parsepacket calls => ∀ c ∈ calls, ResizeOk c
  | _ => True

/-- The room that the functions keep, as long as there is a session. -/
def WireRoomy (w : Wire) : Prop := ∀ s ∈ w.session, Roomy s

theorem socketCall_roomy (h : WireRoomy w) (c : SocketCall) (hsize : ResizeOk c) :
    WireRoomy (socketCall fresh w c) := by
  unfold socketCall
  cases hw : w.session with
  | none =>
    intro s hs
    rw [hw] at hs
    cases hs
  | some s =>
    have hroomy := h s hw
    cases c with
    | sendpacket wpacketbuf len =>
      rintro _ ⟨⟩
      refine hroomy.of_eq ?_ (sendpacket_keepsInput fresh wpacketbuf len).size.le
      unfold sendpacket
      dsimp only
      split
      · rfl
      split
      · split <;> rfl
      · rfl
    | skip len =>
      rintro _ ⟨⟩
      exact hroomy.of_eq rfl le_rfl
    | realloc rfifo wfifo =>
      rintro _ ⟨⟩
      exact reallocFifo_roomy fresh hroomy hsize wfifo
    | setParse =>
      rintro _ ⟨⟩
      exact hroomy.of_eq rfl le_rfl
    | setEof =>
      rintro _ ⟨⟩
      exact hroomy.of_eq rfl le_rfl
    | delete => rintro _ ⟨⟩

theorem socketCalls_roomy (fresh : Buf) {calls : List SocketCall} (h : WireRoomy w)
    (hsize : ∀ c ∈ calls, ResizeOk c) : WireRoomy (Run.exec (socketCall fresh) w calls) := by
  induction calls generalizing w with
  | nil => exact h
  | cons c calls ih =>
    exact ih (socketCall_roomy h c (hsize c (by simp))) fun c' hc' =>
      hsize c' (List.mem_cons_of_mem c hc')

theorem sendLoop_maxRdata (s : SocketData) (answers : List WriteAnswer) :
    (sendLoop s answers).1.maxRdata = s.maxRdata := by
  induction answers generalizing s with
  | nil => rfl
  | cons a answers ih =>
    cases a with
    | error fatal => cases fatal <;> rfl
    | written n =>
      have hrest : (sendRest s (min n s.wdataSize)).maxRdata = s.maxRdata := by
        unfold sendRest
        split
        · split <;> rfl
        · rfl
      unfold sendLoop
      dsimp only
      split
      · exact (ih _).trans hrest
      · exact hrest

theorem sendFromFifo_maxRdata (fresh : Buf) (s : SocketData) (answers : List WriteAnswer) :
    (sendFromFifo fresh s answers).1.maxRdata = s.maxRdata := by
  refine (sendLoop_maxRdata _ _).trans ?_
  unfold sendResize
  split
  · split
    · split <;> rfl
    · rfl
  · rfl

/-- **The step lemma of the room.** -/
theorem socketStep_roomy (h : WireRoomy w) (hrec : WireReceives w) (e : SocketEvent)
    (hsize : ResizesOk e) : WireRoomy (socketStep fresh w e) := by
  cases e with
  | call c => exact socketCall_roomy h c hsize
  | send answers =>
    unfold socketStep
    cases hw : w.session with
    | none => exact h
    | some s =>
      rintro _ ⟨⟩
      exact (h s hw).of_eq (sendFromFifo_maxRdata fresh s answers)
        (sendFromFifo_keepsInput fresh answers).size.le
  | recv bytes =>
    unfold socketStep
    cases hw : w.session with
    | none => exact h
    | some s =>
      rintro _ ⟨⟩
      exact recvToFifo_roomy fresh bytes (h s hw) (hrec s hw).fits
  | parsepacket calls =>
    unfold socketStep doParsepacket
    cases hw : w.session with
    | none => exact h
    | some s =>
      dsimp only
      split
      · exact h
      split
      · have hcalls := socketCalls_roomy fresh h hsize
        intro s' hs'
        obtain ⟨mid, hmid, rfl⟩ := Option.mem_map.mp hs'
        exact parsepacketCheck_roomy (hcalls mid hmid)
      · rintro _ ⟨⟩
        exact parsepacketCompact_roomy (h s hw)

/-- After `do_parsepacket`, a session with a parser that is not closed has room. -/
def RoomAfterParse (fresh : Buf) (w : Wire) : SocketEvent → Prop
  | .parsepacket calls => ∀ s ∈ w.session, s.funcParse = true →
    ∀ s' ∈ (socketStep fresh w (.parsepacket calls)).session, s'.eof = false → HasRoom s'
  | _ => True

theorem roomAfterParse_step (h : WireRoomy w) (hrec : WireReceives w) (e : SocketEvent)
    (hskips : SkipsWithin fresh w e) (hsize : ResizesOk e) : RoomAfterParse fresh w e := by
  cases e with
  | parsepacket calls =>
    intro s hw hparse s' hs' heof
    rw [Option.mem_def] at hw
    unfold socketStep doParsepacket at hs'
    rw [hw] at hs'
    dsimp only at hs'
    split at hs'
    · rename_i hempty
      rw [hw] at hs'
      obtain rfl := Option.some.inj hs'
      have hroomy := h _ hw
      unfold HasRoom
      unfold Roomy at hroomy
      have hsize : rfifoSize = 2048 := rfl
      omega
    · obtain ⟨mid, hmid, rfl⟩ := Option.mem_map.mp hs'
      have hcalls : WireReceives (Run.exec (socketCall fresh) w calls) :=
        Run.inv_exec (I := WireReceives) (fun _ c h hskip => socketCall_receives h c hskip) hrec hskips
      exact parsepacketCheck_room (socketCalls_roomy fresh h hsize mid hmid) (hcalls mid hmid).fits heof
  | _ => trivial

theorem newWire_sends (rdata wdata : Buf) (funcParse : Bool) :
    WireSends (newWire rdata wdata funcParse) := by
  rintro _ ⟨⟩
  exact ⟨Nat.zero_le _, rfl⟩

theorem newWire_receives (rdata wdata : Buf) (funcParse : Bool) :
    WireReceives (newWire rdata wdata funcParse) := by
  rintro _ ⟨⟩
  exact ⟨le_rfl, Nat.zero_le _, rfl⟩

end Runs

end Nezumi
