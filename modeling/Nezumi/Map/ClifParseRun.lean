import Nezumi.Map.ClifParse

/-!
# Every packet of a client is taken once (`map/clif.c`)

TCP tears the packets of a client anywhere, and the buffer of a session grows, shrinks and is
compacted between two calls of `clif_parse`.

* `packetLen_eq`: the loop of `clif_parse` reads at the buffer what the tables say about the stream.
* `ClifInv`: what has been skipped are whole packets, one behind the other.
* `clifLoop_inv`, `clifStep_inv`: the loop and each event keep it, and a loop that does not close
  the session stops only where no whole packet is left.
* `clifRun_packets`: so in every run the packets taken are the packets of what has been received.
* `clifRun_bad`: nothing is taken behind something that is no packet.
-/

namespace Nezumi

open Bytes

section Words

variable {σ : Type} {T : PacketTables σ} {ver pos : ℕ} {s : SocketData} {xs : List UInt8}

theorem wordAt_append (ys : List UInt8) (h : pos + 2 ≤ xs.length) :
    wordAt (xs ++ ys) pos = wordAt xs pos := by
  unfold wordAt
  rw [List.drop_append_of_le_length (by omega),
    List.take_append_of_le_length (by rw [List.length_drop]; omega)]

theorem length_unread (s : SocketData) : s.unread.length = s.rfiforest := length_read _ _ _

/-- `RFIFOW` reads a word of what is unread. -/
theorem rfifow_eq (h : pos + 2 ≤ s.rfiforest) : s.rfifow pos = wordAt s.unread pos := by
  have hread : s.unread = read s.rdata s.rdataPos pos ++ (read s.rdata (s.rdataPos + pos) 2 ++
      read s.rdata (s.rdataPos + pos + 2) (s.rfiforest - (pos + 2))) := by
    unfold SocketData.unread
    rw [← read_add, ← read_add]
    congr 1
    omega
  unfold SocketData.rfifow wordAt
  rw [hread, List.drop_left' (length_read _ _ _), List.take_left' (length_read _ _ _)]

theorem packetLen_eq (h : 2 ≤ s.rfiforest) : packetLen T ver s = clifFront T ver s.unread := by
  have hsize := T.size_ok ver (wordAt s.unread 0)
  unfold packetLen clifFront
  dsimp only
  rw [length_unread, rfifow_eq h, if_neg (show ¬ s.rfiforest < 2 by omega)]
  split
  · rfl
  rename_i hbad
  split
  · rename_i hvar
    by_cases h4 : s.rfiforest < 4
    · rw [if_pos h4, if_pos h4]
    · rw [if_neg h4, if_neg h4, rfifow_eq (by omega)]
  · rename_i hvar
    by_cases hmore : (s.rfiforest : ℤ) < T.packetSize ver (wordAt s.unread 0)
    · rw [if_pos hmore, if_pos (by omega)]
    · rw [if_neg hmore, if_neg (by omega)]

/-- The cases in which there is a packet in front. -/
theorem clifFront_packet {n : ℕ} (h : clifFront T ver xs = .packet n) : 2 ≤ xs.length ∧
    ¬ (maxPacketDb ≤ wordAt xs 0 ∨ T.packetSize ver (wordAt xs 0) = 0) ∧ n ≤ xs.length ∧ 0 < n ∧
    ((T.packetSize ver (wordAt xs 0) = -1 ∧ 4 ≤ xs.length ∧ n = wordAt xs 2 ∧
        ¬ (wordAt xs 2 < 4 ∨ 32768 < wordAt xs 2)) ∨
      (T.packetSize ver (wordAt xs 0) ≠ -1 ∧ n = (T.packetSize ver (wordAt xs 0)).toNat)) := by
  have hsize := T.size_ok ver (wordAt xs 0)
  unfold clifFront at h
  dsimp only at h
  split at h
  · cases h
  split at h
  · cases h
  rename_i hlen hknown
  split at h
  · rename_i hvar
    split at h
    · cases h
    split at h
    · cases h
    split at h
    · cases h
    rename_i h4 hok hmore
    obtain rfl := Front.packet.inj h
    exact ⟨by omega, hknown, by omega, by omega, .inl ⟨hvar, by omega, rfl, hok⟩⟩
  · rename_i hvar
    split at h
    · cases h
    rename_i hmore
    obtain rfl := Front.packet.inj h
    exact ⟨by omega, hknown, by omega, by omega, .inr ⟨hvar, rfl⟩⟩

/-- The cases in which what is in front is no packet. -/
theorem clifFront_bad (h : clifFront T ver xs = .bad) : 2 ≤ xs.length ∧
    ((maxPacketDb ≤ wordAt xs 0 ∨ T.packetSize ver (wordAt xs 0) = 0) ∨
      (T.packetSize ver (wordAt xs 0) = -1 ∧ 4 ≤ xs.length ∧
        (wordAt xs 2 < 4 ∨ 32768 < wordAt xs 2))) := by
  unfold clifFront at h
  dsimp only at h
  split at h
  · cases h
  rename_i hlen
  split at h
  · rename_i hbad
    exact ⟨by omega, .inl hbad⟩
  split at h
  · rename_i hvar
    split at h
    · cases h
    rename_i h4
    split at h
    · rename_i hbad
      exact ⟨by omega, .inr ⟨hvar, by omega, hbad⟩⟩
    · split at h <;> cases h
  · split at h <;> cases h

theorem clifFront_append_packet {n : ℕ} (ys : List UInt8) (h : clifFront T ver xs = .packet n) :
    clifFront T ver (xs ++ ys) = .packet n := by
  obtain ⟨hlen, hknown, hn, hpos, hcase⟩ := clifFront_packet h
  unfold clifFront
  rw [List.length_append, wordAt_append ys hlen, if_neg (by omega), if_neg hknown]
  rcases hcase with ⟨hvar, h4, rfl, hok⟩ | ⟨hvar, rfl⟩
  · rw [wordAt_append ys h4, if_pos hvar, if_neg (by omega), if_neg hok, if_neg (by omega)]
  · rw [if_neg hvar, if_neg (by omega)]

theorem clifFront_append_bad (ys : List UInt8) (h : clifFront T ver xs = .bad) :
    clifFront T ver (xs ++ ys) = .bad := by
  obtain ⟨hlen, hcase⟩ := clifFront_bad h
  unfold clifFront
  rw [List.length_append, wordAt_append ys hlen, if_neg (by omega)]
  by_cases hknown : maxPacketDb ≤ wordAt xs 0 ∨ T.packetSize ver (wordAt xs 0) = 0
  · rw [if_pos hknown]
  · obtain ⟨hvar, h4, hlen'⟩ := hcase.resolve_left hknown
    rw [if_neg hknown, if_pos hvar, if_neg (by omega), wordAt_append ys h4, if_pos hlen']

/-- The packets of a client, as the tables say. -/
def clifFraming (T : PacketTables σ) (ver : ℕ) : Framing UInt8 where
  front := clifFront T ver
  pos h := (clifFront_packet h).2.2.2.1
  fits h := (clifFront_packet h).2.2.1
  packet_append ys h := clifFront_append_packet ys h
  bad_append ys h := clifFront_append_bad ys h

theorem stuck_of_short (h : xs.length < 2) : (clifFraming T ver).Stuck xs := by
  intro n hn
  have hlen := (clifFront_packet hn).1
  omega

theorem wordAt_take {n : ℕ} (h : pos + 2 ≤ n) : wordAt (xs.take n) pos = wordAt xs pos := by
  unfold wordAt
  rw [List.drop_take, List.take_take, min_eq_left (by omega)]

/-- The packet at the front of a stream is a packet by itself. -/
theorem whole_take {n : ℕ} (h : clifFront T ver xs = .packet n) :
    clifFront T ver (xs.take n) = .packet (xs.take n).length := by
  obtain ⟨hlen, hknown, hn, hpos, hcase⟩ := clifFront_packet h
  have hsize := T.size_ok ver (wordAt xs 0)
  have htwo : 2 ≤ n := by
    rcases hcase with ⟨-, -, rfl, hok⟩ | ⟨hvar, rfl⟩ <;> omega
  unfold clifFront
  rw [List.length_take_of_le hn, wordAt_take htwo, if_neg (by omega), if_neg hknown]
  rcases hcase with ⟨hvar, -, hw, hok⟩ | ⟨hvar, hw⟩
  · rw [wordAt_take (by omega), if_pos hvar, if_neg (by omega), if_neg hok, if_neg (by omega), ← hw]
  · rw [if_neg hvar, if_neg (by omega), ← hw]

end Words

/-! ## The loop -/

section Loop

variable {σ : Type} {fresh : Buf} {T : PacketTables σ} {ver : ℕ} {c : ClifState σ} {s : SocketData}

/-- The packets that have been skipped. -/
def ClifState.packets (c : ClifState σ) : List (List UInt8) := c.log.map Prod.fst

/-- There is a parser, as long as there is a session. -/
def Parses (w : Wire) : Prop := ∀ s ∈ w.session, s.funcParse = true

/-- What has been skipped of the stream are whole packets. -/
structure ClifInv (T : PacketTables σ) (ver : ℕ) (c : ClifState σ) : Prop where
  parses : Parses c.wire
  whole : (clifFraming T ver).Whole c.packets
  skipped : c.wire.skipped = c.packets.flatten
  received : c.wire.skipped <+: c.wire.received
  input : WireReceives c.wire

theorem reallocFifo_funcParse (rfifo wfifo : ℕ) :
    (reallocFifo fresh s rfifo wfifo).funcParse = s.funcParse := by
  unfold reallocFifo reallocWdata reallocRdata
  grind

theorem sendpacket_funcParse (wpacketbuf : Buf) (len : ℤ) :
    (sendpacket fresh s wpacketbuf len).funcParse = s.funcParse := by
  unfold sendpacket
  grind

theorem recvToFifo_funcParse (bytes : List UInt8) :
    (recvToFifo fresh s bytes).funcParse = s.funcParse := by
  unfold recvToFifo recvResize
  grind [reallocFifo_funcParse]

theorem sendLoop_funcParse (answers : List WriteAnswer) :
    (sendLoop s answers).1.funcParse = s.funcParse := by
  induction answers generalizing s with
  | nil => rfl
  | cons answer answers ih =>
    cases answer with
    | error fatal => cases fatal <;> rfl
    | written n =>
      have hrest : (sendRest s (min n s.wdataSize)).funcParse = s.funcParse := by
        unfold sendRest
        grind
      unfold sendLoop
      dsimp only
      split
      · exact ih.trans hrest
      · exact hrest

theorem sendFromFifo_funcParse (answers : List WriteAnswer) :
    (sendFromFifo fresh s answers).1.funcParse = s.funcParse := by
  refine (sendLoop_funcParse answers).trans ?_
  unfold sendResize
  grind

theorem parsepacketCheck_funcParse : (parsepacketCheck s).funcParse = s.funcParse := by
  unfold parsepacketCheck parsepacketCompact SocketData.rfifoflush
  grind

theorem socketCall_parses {w : Wire} (h : Parses w) (call : SocketCall) :
    Parses (socketCall fresh w call) := by
  unfold socketCall
  cases hw : w.session with
  | none => exact h
  | some s =>
    have hparse := h s hw
    cases call with
    | sendpacket wpacketbuf len =>
      rintro _ ⟨⟩
      exact (sendpacket_funcParse wpacketbuf len).trans hparse
    | skip len =>
      rintro _ ⟨⟩
      exact hparse
    | realloc rfifo wfifo =>
      rintro _ ⟨⟩
      exact (reallocFifo_funcParse rfifo wfifo).trans hparse
    | setParse =>
      rintro _ ⟨⟩
      rfl
    | setEof =>
      rintro _ ⟨⟩
      exact hparse
    | delete => rintro _ ⟨⟩

/-- What is done outside of the parser leaves what is unread. -/
theorem keeps_wire (fresh : Buf) {w : Wire} {call : SocketCall} (hkeep : call.Keeps)
    (h : WireReceives w) :
    (socketCall fresh w call).skipped = w.skipped ∧
      (socketCall fresh w call).received = w.received ∧
      WireReceives (socketCall fresh w call) ∧
      ∀ s ∈ w.session, ∃ s' ∈ (socketCall fresh w call).session, s'.unread = s.unread := by
  have hrec : WireReceives (socketCall fresh w call) := by
    apply socketCall_receives h
    cases call <;> trivial
  have hframe : (socketCall fresh w call).skipped = w.skipped ∧
      (socketCall fresh w call).received = w.received ∧
      ∀ s ∈ w.session, ∃ s', (socketCall fresh w call).session = some s' := by
    unfold socketCall
    cases hw : w.session with
    | none => exact ⟨rfl, rfl, nofun⟩
    | some s => cases call <;> first | exact ⟨rfl, rfl, fun _ _ => ⟨_, rfl⟩⟩ | cases hkeep
  obtain ⟨hskip, hreceived, hsome⟩ := hframe
  refine ⟨hskip, hreceived, hrec, fun s hs => ?_⟩
  obtain ⟨s', hs'⟩ := hsome s hs
  refine ⟨s', hs', ?_⟩
  have hstream := (hrec s' hs').stream
  rw [hskip, hreceived, ← (h s hs).stream] at hstream
  exact List.append_cancel_left hstream

/-- The same for all that a function of the table does. -/
theorem keeps_wires (fresh : Buf) (calls : List {c : SocketCall // c.Keeps}) {w : Wire}
    (h : WireReceives w) :
    ((calls.map Subtype.val).foldl (socketCall fresh) w).skipped = w.skipped ∧
      ((calls.map Subtype.val).foldl (socketCall fresh) w).received = w.received ∧
      WireReceives ((calls.map Subtype.val).foldl (socketCall fresh) w) ∧
      ∀ s ∈ w.session, ∃ s' ∈ ((calls.map Subtype.val).foldl (socketCall fresh) w).session,
        s'.unread = s.unread := by
  induction calls generalizing w with
  | nil => exact ⟨rfl, rfl, h, fun s hs => ⟨s, hs, rfl⟩⟩
  | cons call calls ih =>
    obtain ⟨hskip, hreceived, hrec, hunread⟩ := keeps_wire fresh call.2 h
    obtain ⟨hskip', hreceived', hrec', hunread'⟩ := ih hrec
    refine ⟨hskip'.trans hskip, hreceived'.trans hreceived, hrec', fun s hs => ?_⟩
    obtain ⟨s₁, hs₁, heq⟩ := hunread s hs
    obtain ⟨s₂, hs₂, heq'⟩ := hunread' s₁ hs₁
    exact ⟨s₂, hs₂, heq'.trans heq⟩

theorem calls_parses (calls : List {c : SocketCall // c.Keeps}) {w : Wire} (h : Parses w) :
    Parses ((calls.map Subtype.val).foldl (socketCall fresh) w) := by
  induction calls generalizing w with
  | nil => exact h
  | cons call calls ih => exact ih (socketCall_parses h _)

/-- A change that is not of the stream. -/
theorem ClifInv.keep {c' : ClifState σ} (h : ClifInv T ver c) (hlog : c'.log = c.log)
    (hskip : c'.wire.skipped = c.wire.skipped) (hreceived : c'.wire.received = c.wire.received)
    (hrec : WireReceives c'.wire) (hparses : Parses c'.wire) : ClifInv T ver c' := by
  have hpackets : c'.packets = c.packets := by unfold ClifState.packets; rw [hlog]
  exact ⟨hparses, by rw [hpackets]; exact h.whole, by rw [hskip, hpackets]; exact h.skipped,
    by rw [hskip, hreceived]; exact h.received, hrec⟩

theorem ClifInv.call (h : ClifInv T ver c) {call : SocketCall} (hkeep : call.Keeps) :
    ClifInv T ver (c.call fresh call) := by
  obtain ⟨hskip, hreceived, hrec, -⟩ := keeps_wire fresh hkeep h.input
  exact h.keep rfl hskip hreceived hrec (socketCall_parses h.parses call)

/-- A packet is skipped. -/
theorem ClifInv.take (h : ClifInv T ver c) (hs : c.wire.session = some s) {len : ℕ}
    (hfront : clifFront T ver s.unread = .packet len) (handled : Bool) :
    ClifInv T ver (c.take fresh (s.unread.take len) handled) ∧
      ∃ s' ∈ (c.take fresh (s.unread.take len) handled).wire.session,
        s'.unread = s.unread.drop len := by
  obtain ⟨-, -, hlen, -, -⟩ := clifFront_packet hfront
  have hrest : len ≤ s.rfiforest := by rwa [length_unread] at hlen
  have htake : (s.unread.take len).length = len := List.length_take_of_le hlen
  have hpacket : read s.rdata s.rdataPos len = s.unread.take len := by
    unfold SocketData.unread
    rw [take_read, min_eq_left hrest]
  have hinput := h.input s hs
  obtain ⟨-, hunread⟩ := rfifoskip_receives hinput.pos_le hrest
  have hdrop : (s.rfifoskip len).unread = s.unread.drop len := by
    rw [hpacket] at hunread
    exact List.append_cancel_left (hunread.trans (List.take_append_drop len s.unread).symm)
  have hcall : socketCall fresh c.wire (.skip len) = { c.wire with
      session := some (s.rfifoskip len), skipped := c.wire.skipped ++ s.unread.take len } := by
    unfold socketCall
    rw [hs]
    dsimp only
    rw [hpacket]
  have hwire : (c.take fresh (s.unread.take len) handled).wire =
      socketCall fresh c.wire (.skip len) := by
    unfold ClifState.take ClifState.call
    rw [htake]
  have hpackets : (c.take fresh (s.unread.take len) handled).packets =
      c.packets ++ [s.unread.take len] := by
    simp [ClifState.packets, ClifState.take]
  have hrec : WireReceives (socketCall fresh c.wire (.skip len)) := by
    apply socketCall_receives h.input
    intro s' hs'
    obtain rfl := Option.some.inj (hs.symm.trans hs')
    exact hrest
  have hparses : Parses (c.take fresh (s.unread.take len) handled).wire := by
    rw [hwire]
    exact socketCall_parses h.parses _
  refine ⟨⟨hparses, ?_, ?_, ?_, by rw [hwire]; exact hrec⟩, s.rfifoskip len, ?_, hdrop⟩
  · rw [hpackets]
    intro p hp
    rcases List.mem_append.mp hp with hp | hp
    · exact h.whole p hp
    · obtain rfl := List.mem_singleton.mp hp
      exact whole_take hfront
  · rw [hpackets, hwire, hcall]
    simp [h.skipped]
  · rw [hwire]
    have hstream := (hrec (s.rfifoskip len) (by rw [hcall]; rfl)).stream
    exact ⟨_, hstream⟩
  · rw [hwire, hcall]
    rfl

/-- The session is open. -/
def ClifState.Open (c : ClifState σ) (s : SocketData) : Prop :=
  c.wire.session = some s ∧ s.eof = false

theorem not_open_of_none (h : c.wire.session = none) : ¬ c.Open s := by
  rintro ⟨hs, -⟩
  rw [h] at hs
  cases hs

theorem not_open_setEof : ¬ (c.call fresh .setEof).Open s := by
  rintro ⟨hs, heof⟩
  unfold ClifState.call socketCall at hs
  cases hw : c.wire.session with
  | none =>
    rw [hw] at hs
    dsimp only at hs
    rw [hw] at hs
    cases hs
  | some s₀ =>
    rw [hw] at hs
    obtain rfl := Option.some.inj hs
    cases heof

/-- What the loop does with a packet. -/
theorem clifPacket_spec (fresh : Buf) (cmd : ℕ) (h : ClifInv T ver c)
    (hs : c.wire.session = some s) {len : ℕ} (hfront : clifFront T ver s.unread = .packet len) :
    ClifInv T ver (clifPacket fresh T ver c cmd (s.unread.take len)).1 ∧
      if (clifPacket fresh T ver c cmd (s.unread.take len)).2 then
        ∃ s' ∈ (clifPacket fresh T ver c cmd (s.unread.take len)).1.wire.session,
          s'.unread = s.unread.drop len
      else ∀ s', ¬ (clifPacket fresh T ver c cmd (s.unread.take len)).1.Open s' := by
  unfold clifPacket
  split
  · exact h.take hs hfront false
  split
  · rename_i run _
    generalize run (s.unread.take len) c.player = r
    obtain ⟨player, calls⟩ := r
    dsimp only
    obtain ⟨hskip, hreceived, hrec, hunread⟩ := keeps_wires fresh calls h.input
    obtain ⟨s₁, hs₁, heq⟩ := hunread s hs
    have hinv : ClifInv T ver { c with
        player, wire := (calls.map Subtype.val).foldl (socketCall fresh) c.wire } :=
      h.keep rfl hskip hreceived hrec (calls_parses calls h.parses)
    rw [← heq] at hfront ⊢
    exact hinv.take hs₁ hfront true
  · exact ⟨h.call trivial, fun _ => not_open_setEof⟩

/-- **The loop** stops where no whole packet is left, or closes the session. -/
theorem clifLoop_inv (f : ℕ) (h : ClifInv T ver c) (hf : ∀ s ∈ c.wire.session, s.rfiforest ≤ f) :
    ClifInv T ver (clifLoop fresh T ver f c) ∧
      ∀ s, (clifLoop fresh T ver f c).Open s → (clifFraming T ver).Stuck s.unread := by
  induction f generalizing c with
  | zero =>
    refine ⟨h, fun s hs => stuck_of_short ?_⟩
    have hrest := hf s hs.1
    rw [length_unread]
    omega
  | succ f ih =>
    unfold clifLoop
    split
    · rename_i hnone
      exact ⟨h, fun s ho => absurd ho (not_open_of_none hnone)⟩
    rename_i s hs
    have honly {s'} (ho : c.Open s') : s' = s := Option.some.inj (ho.1.symm.trans hs)
    split
    · rename_i hstop
      refine ⟨h, fun s' ho => ?_⟩
      obtain rfl := honly ho
      apply stuck_of_short
      rw [length_unread]
      rcases hstop with hstop | hstop
      · exact hstop
      · rw [ho.2] at hstop
        cases hstop
    rename_i hgo
    rw [packetLen_eq (by omega)]
    split
    · rename_i hmore
      refine ⟨h, fun s' ho n hn => ?_⟩
      obtain rfl := honly ho
      cases hmore.symm.trans hn
    · exact ⟨h.call trivial, fun _ ho => absurd ho not_open_setEof⟩
    · rename_i len hfront
      obtain ⟨-, -, hlen, hpos, -⟩ := clifFront_packet hfront
      have hpacket : read s.rdata s.rdataPos len = s.unread.take len := by
        rw [length_unread] at hlen
        unfold SocketData.unread
        rw [take_read, min_eq_left hlen]
      rw [hpacket]
      obtain ⟨hinv, hrest⟩ := clifPacket_spec fresh (s.rfifow 0) h hs hfront
      dsimp only
      split
      · rename_i hnext
        rw [if_pos hnext] at hrest
        obtain ⟨s', hs', hunread⟩ := hrest
        apply ih hinv
        intro s'' hs''
        obtain rfl := Option.some.inj (hs'.symm.trans hs'')
        have hle := hf s hs
        rw [length_unread] at hlen
        rw [← length_unread, hunread, List.length_drop, length_unread]
        omega
      · rename_i hnext
        rw [if_neg hnext] at hrest
        exact ⟨hinv, fun s' ho => absurd ho (hrest s')⟩

/-- `clif_parse` -/
theorem clifParse_inv (fresh : Buf) (h : ClifInv T ver c) :
    ClifInv T ver (clifParse fresh T ver c) ∧
      ∀ s, (clifParse fresh T ver c).Open s → (clifFraming T ver).Stuck s.unread := by
  unfold clifParse
  split
  · rename_i hnone
    exact ⟨h, fun s ho => absurd ho (not_open_of_none hnone)⟩
  rename_i s hs
  split
  · have hnone : (c.call fresh .delete).wire = { c.wire with session := none } := by
      unfold ClifState.call socketCall
      rw [hs]
    refine ⟨h.keep rfl (by rw [hnone]) (by rw [hnone]) (by rw [hnone]; exact nofun)
      (by rw [hnone]; exact nofun), ?_⟩
    rintro s' ⟨hs', -⟩
    rw [hnone] at hs'
    cases hs'
  split
  · rename_i hshort
    refine ⟨h, fun s' ho => stuck_of_short ?_⟩
    obtain rfl := Option.some.inj (ho.1.symm.trans hs)
    rwa [length_unread]
  split
  · exact ⟨h.call trivial, fun _ ho => absurd ho not_open_setEof⟩
  · apply clifLoop_inv _ h
    intro s' hs'
    obtain rfl := Option.some.inj (hs'.symm.trans hs)
    exact le_rfl

/-- `do_parsepacket` -/
theorem clifParsepacket_inv (fresh : Buf) (h : ClifInv T ver c) :
    ClifInv T ver (clifParsepacket fresh T ver c) ∧
      ∀ s, (clifParsepacket fresh T ver c).Open s → (clifFraming T ver).Stuck s.unread := by
  unfold clifParsepacket
  split
  · rename_i hnone
    exact ⟨h, fun s ho => absurd ho (not_open_of_none hnone)⟩
  rename_i s hs
  split
  · rename_i hempty
    refine ⟨h, fun s' ho => stuck_of_short ?_⟩
    obtain rfl := Option.some.inj (ho.1.symm.trans hs)
    rw [length_unread]
    unfold SocketData.rfiforest
    omega
  rw [if_pos (h.parses s hs)]
  obtain ⟨hinv, hstuck⟩ := clifParse_inv fresh h
  refine ⟨hinv.keep rfl rfl rfl ?_ ?_, ?_⟩
  · intro s' hs'
    obtain ⟨mid, hmid, rfl⟩ := Option.mem_map.mp hs'
    have hrec := hinv.input mid hmid
    obtain ⟨hpos, hfits, hunread⟩ := parsepacketCheck_receives hrec.pos_le hrec.fits
    exact ⟨hpos, hfits, by rw [hunread]; exact hrec.stream⟩
  · intro s' hs'
    obtain ⟨mid, hmid, rfl⟩ := Option.mem_map.mp hs'
    exact parsepacketCheck_funcParse.trans (hinv.parses mid hmid)
  · rintro s' ⟨hs', heof⟩
    obtain ⟨mid, hmid, rfl⟩ := Option.mem_map.mp (Option.mem_def.mpr hs')
    have hrec := hinv.input mid hmid
    obtain ⟨-, -, hunread⟩ := parsepacketCheck_receives hrec.pos_le hrec.fits
    rw [hunread]
    refine hstuck mid ⟨hmid, ?_⟩
    unfold parsepacketCheck parsepacketCompact at heof
    split at heof
    · cases heof
    split at heof
    · exact heof
    · split at heof <;> exact heof

end Loop

/-! ## Runs -/

section Runs

variable {σ : Type} {fresh : Buf} {T : PacketTables σ} {ver : ℕ} {c : ClifState σ}

/-- The client sends something. -/
theorem ClifInv.recv (h : ClifInv T ver c) (bytes : List UInt8) :
    ClifInv T ver (clifStep fresh T ver c (.recv bytes)) := by
  have hrec : WireReceives (socketStep fresh c.wire (.recv bytes)) :=
    socketStep_receives h.input _ trivial
  have hwire : (socketStep fresh c.wire (.recv bytes)).skipped = c.wire.skipped ∧
      c.wire.received <+: (socketStep fresh c.wire (.recv bytes)).received ∧
      Parses (socketStep fresh c.wire (.recv bytes)) := by
    unfold socketStep
    cases hw : c.wire.session with
    | none => exact ⟨rfl, List.prefix_rfl, h.parses⟩
    | some s =>
      refine ⟨rfl, List.prefix_append _ _, ?_⟩
      rintro _ ⟨⟩
      exact (recvToFifo_funcParse bytes).trans (h.parses s hw)
  obtain ⟨hskip, hreceived, hparses⟩ := hwire
  exact ⟨hparses, h.whole, hskip.trans h.skipped, by
    change (socketStep fresh c.wire (.recv bytes)).skipped <+: _
    rw [hskip]
    exact h.received.trans hreceived, hrec⟩

/-- Something is sent to the client. -/
theorem ClifInv.send (h : ClifInv T ver c) (answers : List WriteAnswer) :
    ClifInv T ver (clifStep fresh T ver c (.send answers)) := by
  have hrec : WireReceives (socketStep fresh c.wire (.send answers)) :=
    socketStep_receives h.input _ trivial
  have hwire : (socketStep fresh c.wire (.send answers)).skipped = c.wire.skipped ∧
      (socketStep fresh c.wire (.send answers)).received = c.wire.received ∧
      Parses (socketStep fresh c.wire (.send answers)) := by
    unfold socketStep
    cases hw : c.wire.session with
    | none => exact ⟨rfl, rfl, h.parses⟩
    | some s =>
      refine ⟨rfl, rfl, ?_⟩
      rintro _ ⟨⟩
      exact (sendFromFifo_funcParse answers).trans (h.parses s hw)
  obtain ⟨hskip, hreceived, hparses⟩ := hwire
  exact h.keep rfl hskip hreceived hrec hparses

/-- **The step lemma.** -/
theorem clifStep_inv (h : ClifInv T ver c) (e : ClifEvent σ) :
    ClifInv T ver (clifStep fresh T ver c e) := by
  cases e with
  | recv bytes => exact h.recv bytes
  | send answers => exact h.send answers
  | call call => exact h.call call.2
  | player player => exact h.keep rfl rfl rfl h.input h.parses
  | parsepacket => exact (clifParsepacket_inv fresh h).1

/-- What has been received is split into the packets that have been taken and those of the rest. -/
theorem ClifInv.split (h : ClifInv T ver c) {rest : List UInt8}
    (hrest : c.wire.skipped ++ rest = c.wire.received) :
    (clifFraming T ver).split c.wire.received =
      (c.packets ++ ((clifFraming T ver).split rest).1, ((clifFraming T ver).split rest).2) := by
  rw [← hrest, h.skipped]
  exact Framing.split_flatten h.whole rest

/-- The session of a client that has been let in. -/
def newClif (rdata wdata : Buf) (player : ClifPlayer σ) : ClifState σ where
  wire := newWire rdata wdata true
  player := player

theorem newClif_inv (rdata wdata : Buf) (player : ClifPlayer σ) :
    ClifInv T ver (newClif rdata wdata player) := by
  refine ⟨?_, nofun, rfl, List.prefix_rfl, newWire_receives rdata wdata true⟩
  rintro _ ⟨⟩
  rfl

theorem clifRun_inv (fresh rdata wdata : Buf) (player : ClifPlayer σ) (es : List (ClifEvent σ)) :
    ClifInv T ver (Run.exec (clifStep fresh T ver) (newClif rdata wdata player) es) :=
  Run.inv_exec (I := ClifInv T ver) (fun _ e h _ => clifStep_inv h e)
    (newClif_inv rdata wdata player) (Run.meets_of_forall (fun _ _ => trivial) _ es)

/-- The packets that have been taken are the first of what has been received. -/
theorem ClifInv.packets_prefix (h : ClifInv T ver c) :
    c.packets <+: ((clifFraming T ver).split c.wire.received).1 := by
  obtain ⟨rest, hrest⟩ := h.received
  rw [h.split hrest]
  exact List.prefix_append _ _

/-- **Nothing is taken behind something that is no packet**, in any run. -/
theorem clifRun_bad (fresh rdata wdata : Buf) (player : ClifPlayer σ) (es : List (ClifEvent σ))
    {ps : List (List UInt8)} {bad rest : List UInt8} (hps : (clifFraming T ver).Whole ps)
    (hbad : clifFront T ver bad = .bad)
    (hreceived : (Run.exec (clifStep fresh T ver) (newClif rdata wdata player) es).wire.received =
      ps.flatten ++ (bad ++ rest)) :
    (Run.exec (clifStep fresh T ver) (newClif rdata wdata player) es).packets <+: ps := by
  have hinv : ClifInv T ver _ := clifRun_inv fresh rdata wdata player es
  have hprefix := hinv.packets_prefix
  rw [hreceived, Framing.split_flatten hps, Framing.split_of_bad hbad, List.append_nil] at hprefix
  exact hprefix

end Runs

end Nezumi
