import Nezumi.Char.Whisper
import Nezumi.Lib.Run

/-!
# Every whisper ends once (`char/inter.c`, text-file build)

* `WhisperOk`: a whisper that waits for servers has its entry in the table, counted down to them, and
  one that has ended has none, one end and one removal.
* `LateOk`: an answer for anything else changes nothing.
* `wisRun_relayed`: that is so in every run where no server answers twice.
-/

namespace Nezumi

/-- The entries of a whisper. -/
def WisServer.entries (s : WisServer) (id : Int) : List WisData :=
  s.wisDb.filter fun d => d.id = id

/-- The ends of a whisper in a list. -/
def endsOf (id : Int) (ends : List (Int × CStr 24 × UInt8)) : List (CStr 24 × UInt8) :=
  (ends.filter fun e => e.1 = id).map Prod.snd

/-- What the table, the ends and the removals say of a whisper. -/
def WhisperOk (w : WisWorld) (id : Int) : Prop :=
  match w.whisper id with
  | none => w.server.entries id = [] ∧ endsOf id w.ends = [] ∧ w.removed.count id = 0
  | some ⟨src, tick, .waiting servers⟩ => servers.Nonempty ∧
    w.server.entries id = [⟨id, UInt8.ofNat servers.card, tick, src⟩] ∧
    endsOf id w.ends = [] ∧ w.removed.count id = 0
  | some ⟨src, _, .ended flag⟩ => w.server.entries id = [] ∧ endsOf id w.ends = [(src, flag)] ∧
    w.removed.count id = 1 ∧ (flag = 1 ∨ ∃ server, (server, id, flag) ∈ w.replies)

/-- An answer to a whisper that does not wait changes nothing, and nothing is sent. -/
def LateOk (w : WisWorld) : WisEvent → Prop
  | .reply _ id flag => (∀ a servers, w.whisper id = some a → a.fate ≠ .waiting servers) →
    mapifParseWisReply w.server id flag = (w.server, [])
  | _ => True

/-- Requests and answers come from connected servers, one answer at most to each request from each
of them. -/
def WisOnce (w : WisWorld) : WisEvent → Prop
  | .request _ server _ => server ∈ w.server.chars.connected
  | .reply server id _ => server ∈ w.server.chars.connected ∧
    ∀ r ∈ w.replies, (r.1, r.2.1) ≠ (server, id)
  | .checkTtl _ => True
  | .chars chars => chars.connected = w.server.chars.connected

instance (w : WisWorld) (e : WisEvent) : Decidable (WisOnce w e) := by
  cases e <;> unfold WisOnce <;> infer_instance

structure WisInv (w : WisWorld) : Prop where
  whisper : ∀ id, WhisperOk w id
  fresh : ∀ id, w.server.wisid < id → w.whisper id = none
  servers : ∀ id src tick servers, w.whisper id = some ⟨src, tick, .waiting servers⟩ →
    servers ⊆ w.server.chars.connected ∧
      ∀ i ∈ w.server.chars.connected, i ∉ servers → ∃ r ∈ w.replies, (r.1, r.2.1) = (i, id)

/-! ## The table -/

section Table

variable {s : WisServer} {id : Int} {l l' : List WisData} {d : WisData}

theorem eq_of_perm_short {α : Type*} {l l' : List α} (h : l.Perm l') (hlen : l'.length ≤ 1) :
    l = l' := by
  rcases l' with _ | ⟨a, _ | ⟨b, l'⟩⟩
  · exact h.eq_nil
  · exact List.perm_singleton.mp h
  · simp at hlen

/-- The entries of a whisper are counted. -/
theorem count_entries (s : WisServer) (id : Int) :
    (s.wisDb.map WisData.id).count id = (s.entries id).length := by
  unfold WisServer.entries
  rw [List.count, List.countP_map, List.countP_eq_length_filter]
  rfl

/-- **An answer that nothing waits for.** -/
theorem wisReply_none {flag : UInt8} (h : s.entries id = []) :
    mapifParseWisReply s id flag = (s, []) := by
  have hnone : s.wisDb.findIdx? (fun d => d.id = id) = none := by
    rw [List.findIdx?_eq_none_iff]
    intro d hd
    have := List.filter_eq_nil_iff.mp h d hd
    simpa using this
  unfold mapifParseWisReply
  rw [hnone]

/-- The place of the entry of a whisper. -/
theorem entries_split (h : s.entries id = [d]) : ∃ pre post, s.wisDb = pre ++ d :: post ∧ d.id = id ∧
    (∀ c ∈ pre, c.id ≠ id) ∧ ∀ c ∈ post, c.id ≠ id := by
  obtain ⟨pre, post, hdb, hpre, hd, hpost⟩ := List.filter_eq_cons_iff.mp h
  refine ⟨pre, post, hdb, of_decide_eq_true hd, fun c hc => ?_, fun c hc => ?_⟩
  · simpa using hpre c hc
  · simpa using List.filter_eq_nil_iff.mp hpost c hc

/-- **An answer to a whisper that waits**: it is counted down, or ends. -/
theorem wisReply_some {flag : UInt8} (h : s.entries id = [d]) :
    ∃ s', mapifParseWisReply s id flag =
        (s', if d.count - 1 = 0 ∨ flag ≠ 1 then [.wisEnd id d.src flag] else []) ∧
      s'.chars = s.chars ∧ s'.wisid = s.wisid ∧
      s'.entries id =
        (if d.count - 1 = 0 ∨ flag ≠ 1 then [] else [{ d with count := d.count - 1 }]) ∧
      ∀ j ≠ id, (s'.entries j).Perm (s.entries j) := by
  obtain ⟨pre, post, hdb, rfl, hpre, hpost⟩ := entries_split h
  have hfind : s.wisDb.findIdx? (fun c => c.id = d.id) = some pre.length := by
    rw [hdb, List.findIdx?_append, List.findIdx?_eq_none_iff.mpr fun c hc => by simp [hpre c hc]]
    simp [List.findIdx?_cons]
  have hat : s.wisDb[pre.length]? = some d := by rw [hdb]; simp
  have hset : s.wisDb.set pre.length { d with count := d.count - 1 } =
      pre ++ { d with count := d.count - 1 } :: post := by rw [hdb]; simp
  have hne (j : Int) (hj : j ≠ d.id) : ¬ d.id = j := fun hd => hj hd.symm
  unfold mapifParseWisReply
  rw [hfind]
  dsimp only
  rw [hat]
  dsimp only
  rw [hset]
  by_cases hend : d.count - 1 = 0 ∨ flag ≠ 1
  · simp only [if_pos hend]
    refine ⟨_, rfl, rfl, rfl, ?_, fun j hj => ?_⟩
    all_goals
      have hperm : (Unordered.swapRemove (pre ++ { d with count := d.count - 1 } :: post)
          pre.length).Perm (pre ++ post) := by
        have h' := Unordered.swapRemove_perm (l := pre ++ { d with count := d.count - 1 } :: post)
          (i := pre.length) (a := { d with count := d.count - 1 }) (by simp)
        exact (h'.trans List.perm_middle).cons_inv
    · refine ((hperm.filter _).trans ?_).eq_nil
      rw [List.filter_eq_nil_iff.mpr]
      intro c hc
      rcases List.mem_append.mp hc with hc | hc
      · simp [hpre c hc]
      · simp [hpost c hc]
    · unfold WisServer.entries
      rw [hdb, List.filter_append, List.filter_cons_of_neg (by simp [hne j hj]),
        ← List.filter_append]
      exact hperm.filter _
  · simp only [if_neg hend]
    refine ⟨_, rfl, rfl, rfl, ?_, fun j hj => ?_⟩
    · unfold WisServer.entries
      dsimp only
      rw [List.filter_append, List.filter_cons_of_pos (by simp),
        List.filter_eq_nil_iff.mpr fun c hc => by simp [hpre c hc],
        List.filter_eq_nil_iff.mpr fun c hc => by simp [hpost c hc]]
      rfl
    · unfold WisServer.entries
      dsimp only
      rw [hdb, List.filter_append, List.filter_append, List.filter_cons_of_neg (by simp [hne j hj]),
        List.filter_cons_of_neg (by simp [hne j hj])]

/-- **The sweep**: what has waited too long is taken off and ended. -/
theorem checkTtl_entries (s : WisServer) (now : BitVec 32) (id : Int) :
    ((checkTtlWisdata s now).1.entries id).Perm ((s.entries id).filter fun d => !d.elapsed now) ∧
      (endsOf id ((checkTtlWisdata s now).2.filterMap WisOut.toEnd)).Perm
        (((s.entries id).filter fun d => d.elapsed now).map fun d => (d.src, 1)) := by
  unfold checkTtlWisdata WisServer.entries endsOf
  dsimp only
  constructor
  · rw [List.filter_comm]
    exact (Unordered.sweep_kept _ _).filter _
  · rw [List.filterMap_map, List.filter_comm]
    have hends : (WisOut.toEnd ∘ fun d : WisData => .wisEnd d.id d.src 1) =
        fun d => some (d.id, d.src, 1) := rfl
    rw [hends, List.filterMap_eq_map', List.filter_map, List.map_map]
    exact ((Unordered.sweep_removed (WisData.elapsed now) s.wisDb).filter _).map _

/-- **A request** is refused, or is put behind the table. -/
theorem wisRequest_cases (s : WisServer) (now : BitVec 32) (server : Fin maxMapServers)
    (p : WisRequest) :
    (∃ out, mapifParseWisRequest s now server p = (s, out) ∧ out.filterMap WisOut.toEnd = [] ∧
      ∀ id, whisperOf s now id out = none) ∨
    ∃ gmLevel src nick message, mapifParseWisRequest s now server p =
      ({ s with
          wisid := s.wisid + 1
          wisDb := s.wisDb ++ [⟨s.wisid + 1, mapifSendall s.chars, now, src⟩] },
        [.ask (s.wisid + 1) gmLevel src nick message]) := by
  unfold mapifParseWisRequest
  split
  · exact .inl ⟨[], rfl, rfl, fun _ => rfl⟩
  split
  · exact .inl ⟨_, rfl, rfl, fun _ => rfl⟩
  split
  · exact .inl ⟨_, rfl, rfl, fun _ => rfl⟩
  dsimp only
  split
  · exact .inl ⟨_, rfl, rfl, fun _ => rfl⟩
  · exact .inr ⟨_, _, _, _, rfl⟩

/-- The answers to come are counted in a byte. -/
theorem count_erase {servers : Finset (Fin maxMapServers)} {server : Fin maxMapServers}
    (h : server ∈ servers) :
    UInt8.ofNat servers.card - 1 = UInt8.ofNat (servers.erase server).card ∧
      (UInt8.ofNat (servers.erase server).card = 0 ↔ servers.erase server = ∅) := by
  have hcard := Finset.card_erase_add_one h
  have hle : servers.card ≤ 30 := card_finset_fin_le servers
  constructor
  · apply UInt8.toNat_inj.mp
    rw [UInt8.toNat_sub, UInt8.toNat_ofNat', UInt8.toNat_ofNat']
    change (256 - 1 + servers.card % 256) % 256 = (servers.erase server).card % 256
    omega
  · rw [← UInt8.toNat_inj, UInt8.toNat_ofNat', ← Finset.card_eq_zero]
    change (servers.erase server).card % 256 = 0 ↔ (servers.erase server).card = 0
    omega

end Table

/-! ## Steps -/

section Steps

variable {w w' : WisWorld} {id : Int}

theorem endsOf_append (id : Int) (l l' : List (Int × CStr 24 × UInt8)) :
    endsOf id (l ++ l') = endsOf id l ++ endsOf id l' := by
  unfold endsOf
  rw [List.filter_append, List.map_append]

theorem ends_step (w : WisWorld) (e : WisEvent) (id : Int) : endsOf id (wisStep w e).ends =
    endsOf id w.ends ++ endsOf id ((wisRun w.server e).2.filterMap WisOut.toEnd) :=
  endsOf_append id _ _

/-- The entries that a step takes off the table are noted. -/
theorem removed_step (w : WisWorld) (e : WisEvent) (id : Int) :
    (wisStep w e).removed.count id = w.removed.count id +
      ((w.server.entries id).length - ((wisRun w.server e).1.entries id).length) := by
  change List.count id (w.removed ++ _) = _
  rw [List.count_append, List.count_diff, count_entries, count_entries]

theorem replies_step (w : WisWorld) (e : WisEvent) : w.replies ⊆ (wisStep w e).replies := by
  cases e with
  | reply => exact List.subset_append_left _ _
  | _ => exact List.Subset.refl _

/-- There is one entry of a whisper at most. -/
theorem WhisperOk.length_le (h : WhisperOk w id) : (w.server.entries id).length ≤ 1 := by
  unfold WhisperOk at h
  split at h
  · rw [h.1]
    exact Nat.zero_le 1
  · rw [h.2.1]
    exact le_rfl
  · rw [h.1]
    exact Nat.zero_le 1

/-- A step that is not about a whisper. -/
theorem WhisperOk.frame (h : WhisperOk w id) (e : WisEvent)
    (hwhisper : (wisStep w e).whisper id = w.whisper id)
    (hentries : (wisRun w.server e).1.entries id = w.server.entries id)
    (hends : endsOf id ((wisRun w.server e).2.filterMap WisOut.toEnd) = []) :
    WhisperOk (wisStep w e) id := by
  have hends' := ends_step w e id
  have hremoved := removed_step w e id
  have hreplies := replies_step w e
  rw [hends, List.append_nil] at hends'
  rw [hentries, Nat.sub_self, Nat.add_zero] at hremoved
  unfold WhisperOk at h ⊢
  rw [hwhisper, hends', hremoved]
  have hentries' : (wisStep w e).server.entries id = w.server.entries id := hentries
  rw [hentries']
  split at h
  · exact h
  · exact h
  · obtain ⟨hnone, hend, hcount, hflag⟩ := h
    exact ⟨hnone, hend, hcount, hflag.imp_right fun ⟨server, hs⟩ => ⟨server, hreplies hs⟩⟩

/-- A step that ends a whisper. -/
theorem WhisperOk.finish (h : WhisperOk w id) (e : WisEvent) {src : CStr 24} {tick : BitVec 32}
    {servers : Finset (Fin maxMapServers)} {flag : UInt8}
    (hwaits : w.whisper id = some ⟨src, tick, .waiting servers⟩)
    (hwhisper : (wisStep w e).whisper id = some ⟨src, tick, .ended flag⟩)
    (hentries : (wisRun w.server e).1.entries id = [])
    (hends : endsOf id ((wisRun w.server e).2.filterMap WisOut.toEnd) = [(src, flag)])
    (hflag : flag = 1 ∨ ∃ server, (server, id, flag) ∈ (wisStep w e).replies) :
    WhisperOk (wisStep w e) id := by
  have hends' := ends_step w e id
  have hremoved := removed_step w e id
  unfold WhisperOk at h ⊢
  rw [hwaits] at h
  obtain ⟨-, hentry, hnone, hcount⟩ := h
  rw [hends, hnone, List.nil_append] at hends'
  rw [hentries, hentry, hcount] at hremoved
  rw [hwhisper]
  exact ⟨hentries, hends', hremoved, hflag⟩

/-- The table has the entry of a whisper that waits, and no other. -/
theorem WhisperOk.entries_eq (h : WhisperOk w id) :
    w.server.entries id = match w.whisper id with
      | some ⟨src, tick, .waiting servers⟩ => [⟨id, UInt8.ofNat servers.card, tick, src⟩]
      | _ => [] := by
  unfold WhisperOk at h
  split at h
  · rename_i hw
    rw [hw, h.1]
  · rename_i hw
    rw [hw, h.2.1]
  · rename_i hw
    rw [hw, h.1]

theorem WhisperOk.entries_nil (h : WhisperOk w id)
    (hno : ∀ a servers, w.whisper id = some a → a.fate ≠ .waiting servers) :
    w.server.entries id = [] := by
  rw [h.entries_eq]
  split
  · rename_i hw
    exact absurd rfl (hno _ _ hw)
  · rfl

theorem request_ok (h : WisInv w) {now : BitVec 32} {server : Fin maxMapServers} {p : WisRequest}
    (he : WisOnce w (.request now server p)) : WhisperOk (wisStep w (.request now server p)) id := by
  rcases wisRequest_cases w.server now server p with
    ⟨out, heq, hends, hnone⟩ | ⟨gmLevel, src, nick, message, heq⟩
  · refine (h.whisper id).frame _ ?_ ?_ ?_
    · change ((whisperOf w.server now id (mapifParseWisRequest w.server now server p).2).or
        (w.whisper id)) = _
      rw [heq, hnone]
      rfl
    · change (mapifParseWisRequest w.server now server p).1.entries id = _
      rw [heq]
    · change endsOf id ((mapifParseWisRequest w.server now server p).2.filterMap _) = _
      rw [heq, hends]
      rfl
  have hentries : (wisRun w.server (.request now server p)).1.entries id = w.server.entries id ++
      [(⟨w.server.wisid + 1, mapifSendall w.server.chars, now, src⟩ : WisData)].filter
        (fun d => d.id = id) := by
    change (mapifParseWisRequest w.server now server p).1.entries id = _
    rw [heq]
    exact List.filter_append ..
  have hends : endsOf id ((wisRun w.server (.request now server p)).2.filterMap WisOut.toEnd) =
      [] := by
    change endsOf id ((mapifParseWisRequest w.server now server p).2.filterMap _) = _
    rw [heq]
    rfl
  have hwhisper : (wisStep w (.request now server p)).whisper id =
      (if w.server.wisid + 1 = id then some ⟨src, now, .waiting w.server.chars.connected⟩
        else none).or (w.whisper id) := by
    change ((whisperOf w.server now id (mapifParseWisRequest w.server now server p).2).or _) = _
    rw [heq]
    unfold whisperOf
    simp only [List.findSome?_cons, List.findSome?_nil]
    split <;> simp_all
  by_cases hid : w.server.wisid + 1 = id
  · -- The id is fresh.
    have hfresh := h.fresh id (by omega)
    have hok := h.whisper id
    have hends' := ends_step w (.request now server p) id
    have hremoved := removed_step w (.request now server p) id
    have hnone : w.server.entries id = [] := hok.entries_nil fun a servers ha => by
      rw [hfresh] at ha
      cases ha
    unfold WhisperOk at hok ⊢
    rw [hfresh] at hok
    rw [hwhisper, if_pos hid]
    rw [hnone, List.filter_cons_of_pos (by simpa using hid), List.filter_nil,
      List.nil_append] at hentries
    rw [hends, List.append_nil, hok.2.1] at hends'
    rw [hnone, hok.2.2] at hremoved
    refine ⟨⟨server, he⟩, ?_, hends', by simpa using hremoved⟩
    rw [← hid] at hentries ⊢
    exact hentries
  · refine (h.whisper id).frame _ ?_ ?_ hends
    · rw [hwhisper, if_neg hid]
      rfl
    · rw [hentries, List.filter_cons_of_neg (by simpa using hid), List.filter_nil, List.append_nil]

theorem reply_ok (h : WisInv w) {server : Fin maxMapServers} {id' : Int} {flag : UInt8}
    (he : WisOnce w (.reply server id' flag)) : WhisperOk (wisStep w (.reply server id' flag)) id := by
  have hok := h.whisper id
  by_cases hlate : ∀ a servers, w.whisper id' = some a → a.fate ≠ .waiting servers
  · -- Nothing waits for this answer.
    have hnone : mapifParseWisReply w.server id' flag = (w.server, []) :=
      wisReply_none ((h.whisper id').entries_nil hlate)
    refine hok.frame _ ?_ ?_ ?_
    · change (if id' = id then (w.whisper id).map (Whisper.reply server flag) else w.whisper id) = _
      split
      · rename_i hid
        subst hid
        rcases hw : w.whisper id' with _ | ⟨src, tick, servers | f⟩
        · rfl
        · exact absurd rfl (hlate _ _ hw)
        · rfl
      · rfl
    · change (mapifParseWisReply w.server id' flag).1.entries id = _
      rw [hnone]
    · change endsOf id ((mapifParseWisReply w.server id' flag).2.filterMap _) = _
      rw [hnone]
      rfl
  push Not at hlate
  obtain ⟨⟨src, tick, fate⟩, servers, hw, rfl⟩ := hlate
  have hentry : w.server.entries id' = [⟨id', UInt8.ofNat servers.card, tick, src⟩] := by
    rw [(h.whisper id').entries_eq, hw]
  obtain ⟨s', heq, -, -, hself, hother⟩ := @wisReply_some _ _ _ flag hentry
  dsimp only at heq hself
  by_cases hid : id' = id
  · subst hid
    have hserver : server ∈ servers := by
      by_contra hnot
      obtain ⟨r, hr, hsame⟩ := (h.servers _ _ _ _ hw).2 server he.1 hnot
      exact he.2 r hr hsame
    obtain ⟨hcount, hzero⟩ := count_erase hserver
    rw [hcount] at hself heq
    have hlast : (UInt8.ofNat (servers.erase server).card = 0 ∨ flag ≠ 1) ↔
        (flag ≠ 1 ∨ servers.erase server = ∅) := by rw [hzero, or_comm]
    have hwhisper : (wisStep w (.reply server id' flag)).whisper id' =
        some ⟨src, tick, if flag ≠ 1 ∨ servers.erase server = ∅ then .ended flag
          else .waiting (servers.erase server)⟩ := by
      change (if id' = id' then (w.whisper id').map (Whisper.reply server flag) else _) = _
      rw [if_pos rfl, hw]
      rfl
    by_cases hend : flag ≠ 1 ∨ servers.erase server = ∅
    · rw [if_pos hend] at hwhisper
      rw [if_pos (hlast.mpr hend)] at hself heq
      refine hok.finish _ hw hwhisper ?_ ?_ (.inr ⟨server, ?_⟩)
      · change (mapifParseWisReply w.server id' flag).1.entries id' = _
        rw [heq, hself]
      · change endsOf id' ((mapifParseWisReply w.server id' flag).2.filterMap _) = _
        rw [heq]
        simp [endsOf, WisOut.toEnd]
      · exact List.mem_append_right _ (List.mem_singleton_self _)
    · rw [if_neg hend] at hwhisper
      rw [if_neg fun hor => hend (hlast.mp hor)] at hself heq
      have hends' := ends_step w (.reply server id' flag) id'
      have hremoved := removed_step w (.reply server id' flag) id'
      have hrun : wisRun w.server (.reply server id' flag) = (s', []) := heq
      rw [hrun, hself, hentry] at hremoved
      rw [hrun] at hends'
      unfold WhisperOk at hok ⊢
      rw [hw] at hok
      rw [hwhisper]
      obtain ⟨-, -, hnone, hzero⟩ := hok
      refine ⟨?_, ?_, hends'.trans ?_, hremoved.trans hzero⟩
      · exact Finset.nonempty_iff_ne_empty.mpr fun hempty => hend (.inr hempty)
      · change (wisRun w.server (.reply server id' flag)).1.entries id' = _
        rw [hrun, hself]
      · rw [hnone]
        rfl
  · refine hok.frame _ ?_ ?_ ?_
    · exact if_neg hid
    · change (mapifParseWisReply w.server id' flag).1.entries id = _
      rw [heq]
      exact eq_of_perm_short (hother id fun hne => hid hne.symm) hok.length_le
    · change endsOf id ((mapifParseWisReply w.server id' flag).2.filterMap _) = _
      rw [heq]
      split <;> simp [endsOf, WisOut.toEnd, hid]

theorem checkTtl_ok (h : WisInv w) {now : BitVec 32} : WhisperOk (wisStep w (.checkTtl now)) id := by
  have hok := h.whisper id
  obtain ⟨hkept, hended⟩ := checkTtl_entries w.server now id
  have hwhisper : (wisStep w (.checkTtl now)).whisper id =
      (w.whisper id).map (Whisper.checkTtl now) := rfl
  rcases hw : w.whisper id with _ | ⟨src, tick, servers | flag⟩
  · have hnone := hok.entries_eq
    rw [hw] at hnone
    dsimp only at hnone
    rw [hnone] at hkept hended
    refine hok.frame _ ?_ (hkept.eq_nil.trans hnone.symm) hended.eq_nil
    rw [hwhisper, hw]
    rfl
  · have hentry := hok.entries_eq
    rw [hw] at hentry
    dsimp only at hentry
    rw [hentry] at hkept hended
    by_cases hlate : diffTick now tick > wisdataTtl
    · rw [List.filter_cons_of_neg (by simp [WisData.elapsed, hlate]), List.filter_nil] at hkept
      rw [List.filter_cons_of_pos (by simp [WisData.elapsed, hlate]), List.filter_nil] at hended
      refine hok.finish _ hw ?_ hkept.eq_nil (List.perm_singleton.mp hended) (.inl rfl)
      rw [hwhisper, hw]
      simp [Whisper.checkTtl, hlate]
    · rw [List.filter_cons_of_pos (by simpa [WisData.elapsed] using hlate),
        List.filter_nil] at hkept
      rw [List.filter_cons_of_neg (by simpa [WisData.elapsed] using hlate),
        List.filter_nil] at hended
      refine hok.frame _ ?_ ((List.perm_singleton.mp hkept).trans hentry.symm) hended.eq_nil
      rw [hwhisper, hw]
      simp [Whisper.checkTtl, hlate]
  · have hnone := hok.entries_eq
    rw [hw] at hnone
    dsimp only at hnone
    rw [hnone] at hkept hended
    refine hok.frame _ ?_ (hkept.eq_nil.trans hnone.symm) hended.eq_nil
    rw [hwhisper, hw]
    rfl

/-- The map-servers and the counter, after a step. -/
theorem wisRun_frame (s : WisServer) (e : WisEvent) :
    s.wisid ≤ (wisRun s e).1.wisid ∧
      (wisRun s e).1.chars = match e with
        | .chars chars => chars
        | _ => s.chars := by
  cases e with
  | request now server p =>
    rcases wisRequest_cases s now server p with ⟨out, heq, -, -⟩ | ⟨gmLevel, src, nick, message, heq⟩
    · change s.wisid ≤ (mapifParseWisRequest s now server p).1.wisid ∧
        (mapifParseWisRequest s now server p).1.chars = _
      rw [heq]
      exact ⟨le_rfl, rfl⟩
    · change s.wisid ≤ (mapifParseWisRequest s now server p).1.wisid ∧
        (mapifParseWisRequest s now server p).1.chars = _
      rw [heq]
      exact ⟨by dsimp only; omega, rfl⟩
  | reply server id flag =>
    change s.wisid ≤ (mapifParseWisReply s id flag).1.wisid ∧
      (mapifParseWisReply s id flag).1.chars = _
    unfold mapifParseWisReply
    split
    · exact ⟨le_rfl, rfl⟩
    split
    · exact ⟨le_rfl, rfl⟩
    dsimp only
    split <;> exact ⟨le_rfl, rfl⟩
  | checkTtl now => exact ⟨le_rfl, rfl⟩
  | chars chars => exact ⟨le_rfl, rfl⟩

/-- What a step makes of a whisper that is not asked for in it. -/
theorem whisper_step (w : WisWorld) (e : WisEvent) (id : Int) :
    (wisStep w e).whisper id = w.whisper id ∨
      (∃ server flag, e = .reply server id flag ∧
        (wisStep w e).whisper id = (w.whisper id).map (Whisper.reply server flag)) ∨
      (∃ now, e = .checkTtl now ∧
        (wisStep w e).whisper id = (w.whisper id).map (Whisper.checkTtl now)) ∨
      ∃ now server p src, e = .request now server p ∧ id = w.server.wisid + 1 ∧
        (wisStep w e).server.wisid = w.server.wisid + 1 ∧
        (wisStep w e).whisper id = some ⟨src, now, .waiting w.server.chars.connected⟩ := by
  cases e with
  | request now server p =>
    have hwhisper : (wisStep w (.request now server p)).whisper id =
        (whisperOf w.server now id (mapifParseWisRequest w.server now server p).2).or
          (w.whisper id) := rfl
    rcases wisRequest_cases w.server now server p with
      ⟨out, heq, -, hnone⟩ | ⟨gmLevel, src, nick, message, heq⟩
    · rw [heq, hnone] at hwhisper
      exact .inl hwhisper
    rw [heq] at hwhisper
    by_cases hid : w.server.wisid + 1 = id
    · refine .inr (.inr (.inr ⟨now, server, p, src, rfl, hid.symm, ?_, ?_⟩))
      · change (mapifParseWisRequest w.server now server p).1.wisid = _
        rw [heq]
      · simpa [whisperOf, hid] using hwhisper
    · exact .inl (by simpa [whisperOf, hid] using hwhisper)
  | reply server id' flag =>
    by_cases hid : id' = id
    · subst hid
      exact .inr (.inl ⟨server, flag, rfl, if_pos rfl⟩)
    · exact .inl (if_neg hid)
  | checkTtl now => exact .inr (.inr (.inl ⟨now, rfl, rfl⟩))
  | chars chars => exact .inl rfl

/-- **The step lemma.** -/
theorem wisInv_step (w : WisWorld) (e : WisEvent) (h : WisInv w) (he : WisOnce w e) :
    WisInv (wisStep w e) := by
  obtain ⟨hwisid, hchars⟩ := wisRun_frame w.server e
  have hconnected : (wisStep w e).server.chars.connected = w.server.chars.connected := by
    change (wisRun w.server e).1.chars.connected = _
    rw [hchars]
    cases e with
    | chars chars => exact he
    | _ => rfl
  have hreplies := replies_step w e
  refine ⟨fun id => ?_, fun id hid => ?_, fun id src tick servers hw => ?_⟩
  · cases e with
    | request now server p => exact request_ok h he
    | reply server id' flag => exact reply_ok h he
    | checkTtl now => exact checkTtl_ok h
    | chars chars => exact (h.whisper id).frame _ rfl rfl rfl
  · have hfresh := h.fresh id (hwisid.trans_lt hid)
    rcases whisper_step w e id with hw | ⟨server, flag, rfl, hw⟩ | ⟨now, rfl, hw⟩ |
      ⟨now, server, p, src, rfl, hid', hnext, -⟩
    · rw [hw, hfresh]
    · rw [hw, hfresh]
      rfl
    · rw [hw, hfresh]
      rfl
    · rw [hnext, hid'] at hid
      exact absurd hid (lt_irrefl _)
  · rw [hconnected]
    have hkeep : ∀ servers, servers ⊆ w.server.chars.connected ∧
        (∀ i ∈ w.server.chars.connected, i ∉ servers →
          ∃ r ∈ w.replies, (r.1, r.2.1) = (i, id)) →
        servers ⊆ w.server.chars.connected ∧ ∀ i ∈ w.server.chars.connected, i ∉ servers →
          ∃ r ∈ (wisStep w e).replies, (r.1, r.2.1) = (i, id) := fun servers ⟨hsub, hall⟩ =>
      ⟨hsub, fun i hi hnot => (hall i hi hnot).imp fun r ⟨hr, heq⟩ => ⟨hreplies hr, heq⟩⟩
    rcases whisper_step w e id with hsame | ⟨server, flag, rfl, hsame⟩ | ⟨now, rfl, hsame⟩ |
      ⟨now, server, p, src', rfl, -, -, hsame⟩ <;> rw [hsame] at hw
    · exact hkeep _ (h.servers _ _ _ _ hw)
    · rcases hold : w.whisper id with _ | ⟨src', tick', servers' | flag'⟩ <;> rw [hold] at hw
      · cases hw
      · -- One server less is waited for, the one that has answered.
        obtain ⟨hsub, hall⟩ := hkeep _ (h.servers _ _ _ _ hold)
        simp only [Option.map_some, Whisper.reply, Option.some.injEq, Whisper.mk.injEq] at hw
        obtain ⟨-, -, hfate⟩ := hw
        split at hfate
        · cases hfate
        obtain rfl := Fate.waiting.inj hfate
        refine ⟨(Finset.erase_subset _ _).trans hsub, fun i hi hnot => ?_⟩
        by_cases his : i ∈ servers'
        · have heq : i = server := by
            by_contra hne
            exact hnot (Finset.mem_erase.mpr ⟨hne, his⟩)
          exact ⟨(server, id, flag), List.mem_append_right _ (List.mem_singleton_self _), by rw [heq]⟩
        · exact hall i hi his
      · cases hw
    · rcases hold : w.whisper id with _ | ⟨src', tick', servers' | flag'⟩ <;> rw [hold] at hw
      · cases hw
      · simp only [Option.map_some, Whisper.checkTtl, Option.some.injEq] at hw
        split at hw
        · cases hw
        obtain ⟨-, -, hfate⟩ := Whisper.mk.inj hw
        obtain rfl := Fate.waiting.inj hfate
        exact hkeep _ (h.servers _ _ _ _ hold)
      · cases hw
    · obtain ⟨-, -, hfate⟩ := Whisper.mk.inj (Option.some.inj hw)
      obtain rfl := Fate.waiting.inj hfate
      exact ⟨Finset.Subset.refl _, fun i hi hnot => absurd hi hnot⟩

theorem late_ok (h : WisInv w) (e : WisEvent) : LateOk w e := by
  cases e with
  | reply server id flag => exact fun hlate => wisReply_none ((h.whisper id).entries_nil hlate)
  | _ => trivial

end Steps

/-- No whispers yet. -/
theorem wisInv_init (chars : CharServer) : WisInv { server := { chars := chars } } := by
  refine ⟨fun id => ⟨rfl, rfl, rfl⟩, fun id _ => rfl, fun id src tick servers hw => ?_⟩
  cases hw

/-- **Whispers are relayed**, in every run in which the map-servers stay connected and answer no
request twice: every one that has been asked for waits with one entry for the servers whose answers
are missing, or has had one end, for its sender, and one removal; and an answer to one that does not
wait changes nothing. -/
theorem wisRun_relayed (chars : CharServer) {es : List WisEvent}
    (honce : Run.Meets wisStep WisOnce { server := { chars := chars } } es) :
    (∀ id, WhisperOk (Run.exec wisStep { server := { chars := chars } } es) id) ∧
      Run.Meets wisStep LateOk { server := { chars := chars } } es :=
  ⟨(Run.inv_exec (I := WisInv) wisInv_step (wisInv_init chars) honce).whisper,
    Run.meets_of_inv (I := WisInv) wisInv_step (fun _ e h _ => late_ok h e) (wisInv_init chars) honce⟩

/-- Two map-servers, and a player who is online. -/
def twoServers : CharServer where
  charNum := 1
  charDat _ := { name := cstr 24 "bard" }
  onlineChars _ := 1
  server i := if i.val < 2 then some {} else none

/-- Two whispers: one is found on the second server, and the other is on neither. -/
theorem wisRun_relayed_two :
    let ask : WisEvent := .request 0 0
      { gmLevel := 0, sender := (cstr 24 "alice").pad, nick := (cstr 24 "bard").pad,
        message := [104, 105, 0] }
    let es : List WisEvent := [ask, ask, .reply 0 2 1, .reply 1 1 0, .reply 0 1 1, .reply 1 2 1]
    (∀ id, WhisperOk (Run.exec wisStep { server := { chars := twoServers } } es) id) ∧
      Run.Meets wisStep LateOk { server := { chars := twoServers } } es :=
  wisRun_relayed twoServers (by decide)

end Nezumi
