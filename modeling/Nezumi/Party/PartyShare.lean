import Nezumi.Lib.Run
import Nezumi.Party.PartyLemmas
import Nezumi.Party.PartyText

/-!
# The even share of a party (`char/int_party.c`)

The char-server keeps the share of experience on only while the levels of the connected members are
near each other.

* `parseCreateParty` to `parseBreakParty`, with the functions of `Party.lean`, are what the server
  does with the packets of the map-server. `loadPartyLine` is a line of `inter_party_init`.
* `partyCheckExpShare_mono`: the check holds of fewer connected members if it holds of more.
* `partyShare_kept`: it holds of every party that shares, after any operations.
-/

namespace Nezumi

open Decimal Scanf

/-- A C string, with a character for each byte. -/
def textOf {n : ℕ} (s : CStr n) : String :=
  String.ofList (s.bytes.map fun b => Char.ofNat b.toNat)

/-- The party of a line. Nobody is connected. -/
def Party.ofRecord (r : PartyRecord) : Party where
  partyId := r.partyId.toInt
  name := textOf r.name
  exp := r.exp.toNat
  item := r.item.toNat
  itemc := r.itemc.toNat
  member i :=
    { accountId := (r.member i).accountId.toInt
      name := textOf (r.member i).name
      leader := (r.member i).leader }

/-- `party_db` and `party_newid` -/
structure PartyServer where
  db : List Party := []
  newid : Int := 100

/-- What the server answers. -/
inductive PartyAnswer where
  /-- 0x3820 -/
  | created (accountId : Int) (flag : Nat) (partyId : Int) (name : String)
  /-- 0x3825 -/
  | memberMoved (partyId accountId : Int) (map : String) (online : Bool) (lv : Int)
  /-- the packets of `Party.lean` -/
  | sent (m : FromInter)

/-- `numdb_insert` -/
def partyInsert (db : List Party) (p : Party) : List Party :=
  if (partySearch db p.partyId).isSome then partyPut db p else db ++ [p]

/-- `search_partyname` -/
def searchPartyname (db : List Party) (str : String) : Option Party :=
  db.reverse.find? fun p => p.name.toLower = str.toLower

/-- `mapif_parse_CreateParty` -/
def parseCreateParty (s : PartyServer) (accountId : Int) (partyName nick map : String)
    (lv : UInt16) (item item2 : UInt8) : PartyServer × List PartyAnswer :=
  match searchPartyname s.db partyName with
  | some _ => (s, [.created accountId 1 0 "error"])
  | none =>
    let m := { accountId, name := nick, map, leader := true, online := true, lv := lv.toNat }
    let p := { partyId := s.newid, name := partyName, item := item.toNat, itemc := item2.toNat,
               member := Function.update (fun _ => {}) 0 m }
    ({ db := partyInsert s.db p, newid := s.newid + 1 },
      [.created accountId 0 p.partyId p.name, .sent (.info p)])

/-- `mapif_parse_PartyChangeOption`. `p->exp` is a byte. -/
def parsePartyChangeOption (partyShareLevel : Int) (db : List Party) (partyId accountId : Int)
    (exp : UInt16) (item : UInt8) : List Party × List FromInter :=
  match partySearch db partyId with
  | none => (db, [])
  | some p =>
    let p := { p with exp := exp.toUInt8.toNat }
    let off : Bool := 0 < exp ∧ ¬ partyCheckExpShare partyShareLevel p
    let p := { p with exp := if off then 0 else p.exp, item := item.toNat }
    (partyPut db p, [.optionChanged partyId accountId p.exp p.item off.toNat])

/-- `mapif_parse_PartyChangeMap`. `online` is one bit. -/
def parsePartyChangeMap (partyShareLevel : Int) (db : List Party) (partyId accountId : Int)
    (map : String) (online : UInt8) (lv : UInt16) : List Party × List PartyAnswer :=
  match partySearch db partyId with
  | none => (db, [])
  | some p =>
    match Slots.first (fun m => m.accountId = accountId) p.member with
    | none => (db, [])
    | some i =>
      let m := { p.member i with map, online := online % 2 = 1, lv := lv.toNat }
      let p := { p with member := Function.update p.member i m }
      let moved := .memberMoved partyId accountId map m.online m.lv
      if 0 < p.exp ∧ ¬ partyCheckExpShare partyShareLevel p then
        (partyPut db { p with exp := 0 }, [moved, .sent (.optionChanged partyId 0 0 p.item 0)])
      else (partyPut db p, [moved])

/-- `mapif_parse_BreakParty` -/
def parseBreakParty (db : List Party) (partyId : Int) : List Party × List FromInter :=
  match partySearch db partyId with
  | none => (db, [])
  | some _ => (partyErase db partyId, [.broken partyId])

/-- A line of `inter_party_init` -/
def loadPartyLine (s : PartyServer) (line : List UInt8) : PartyServer :=
  if line.take 2 = [47, 47] ∨ line = [] ∨ line.head? = some 10 ∨ line.head? = some 13 then s
  else
    match sscanf newidFormat line with
    | ([.int i], some _) => { s with newid := max s.newid i.toInt }
    | _ =>
      match interPartyFromstr line with
      | none => s
      | some r =>
        if 0 < r.partyId then
          let p := Party.ofRecord r
          { db := (partyCheckEmpty (partyInsert s.db p) p).2.1
            newid := if s.newid ≤ p.partyId then p.partyId + 1 else s.newid }
        else s

/-- What happens to the parties of the char-server. `leave` is also what the server does when a
character is deleted. -/
inductive PartyOp where
  | create (accountId : Int) (partyName nick map : String) (lv : UInt16) (item item2 : UInt8)
  | addMember (partyId accountId : Int) (nick map : String) (lv : UInt16)
  | changeOption (partyId accountId : Int) (exp : UInt16) (item : UInt8)
  | leave (partyId accountId : Int)
  | changeMap (partyId accountId : Int) (map : String) (online : UInt8) (lv : UInt16)
  | breakParty (partyId : Int)
  | checkConflict (partyId accountId : Int) (nick : String)
  | load (line : List UInt8)

def partyOp (partyShareLevel : Int) (s : PartyServer) : PartyOp → PartyServer
  | .create accountId partyName nick map lv item item2 =>
    (parseCreateParty s accountId partyName nick map lv item item2).1
  | .addMember partyId accountId nick map lv =>
    { s with db := (parsePartyAddMember partyShareLevel s.db partyId accountId nick map lv.toNat).1 }
  | .changeOption partyId accountId exp item =>
    { s with db := (parsePartyChangeOption partyShareLevel s.db partyId accountId exp item).1 }
  | .leave partyId accountId => { s with db := (parsePartyLeave s.db partyId accountId).1 }
  | .changeMap partyId accountId map online lv =>
    { s with db := (parsePartyChangeMap partyShareLevel s.db partyId accountId map online lv).1 }
  | .breakParty partyId => { s with db := (parseBreakParty s.db partyId).1 }
  | .checkConflict partyId accountId nick =>
    { s with db := (partyCheckConflict s.db partyId accountId nick).1 }
  | .load line => loadPartyLine s line

/-! ## The check -/

section Share

variable {level : Int} {db : List Party} {p q : Party}

/-- The levels of the connected members, in order. -/
def Party.levels (p : Party) : List Int :=
  ((List.finRange maxParty).filter fun i => (p.member i).online).map fun i => (p.member i).lv

theorem partyCheckExpShare_eq (level : Int) (p : Party) :
    partyCheckExpShare level p =
      (p.levels.foldl max 0 = 0 || p.levels.foldl max 0 - p.levels.foldl min 0x7fffffff ≤ level) := rfl

theorem partyCheckExpShare_congr (h : p.member = q.member) :
    partyCheckExpShare level p = partyCheckExpShare level q := by
  unfold partyCheckExpShare
  rw [h]

theorem le_foldl_max (l : List Int) (a : Int) : a ≤ l.foldl max a := by
  induction l generalizing a with
  | nil => exact le_rfl
  | cons b l ih => exact (le_max_left a b).trans (ih (max a b))

theorem foldl_max_mono {l l' : List Int} (h : l'.Sublist l) {a b : Int} (hab : b ≤ a) :
    l'.foldl max b ≤ l.foldl max a := by
  induction h generalizing a b with
  | slnil => exact hab
  | cons c _ ih => exact ih (hab.trans (le_max_left a c))
  | cons_cons c _ ih => exact ih (max_le_max_right c hab)

theorem foldl_min_mono {l l' : List Int} (h : l'.Sublist l) {a b : Int} (hab : a ≤ b) :
    l.foldl min a ≤ l'.foldl min b := by
  induction h generalizing a b with
  | slnil => exact hab
  | cons c _ ih => exact ih ((min_le_left a c).trans hab)
  | cons_cons c _ ih => exact ih (min_le_min_right c hab)

/-- **Fewer connected members share** if more do. -/
theorem partyCheckExpShare_mono (hsub : q.levels.Sublist p.levels)
    (h : partyCheckExpShare level p) : partyCheckExpShare level q := by
  rw [partyCheckExpShare_eq, Bool.or_eq_true, decide_eq_true_eq, decide_eq_true_eq] at h ⊢
  have hmax := foldl_max_mono hsub (le_refl (0 : Int))
  have hmin := foldl_min_mono hsub (le_refl (0x7fffffff : Int))
  have hzero := le_foldl_max q.levels 0
  omega

/-- A member who goes leaves the levels of the others. -/
theorem levels_update_empty (p : Party) (i : Fin maxParty) :
    ({ p with member := Function.update p.member i {} } : Party).levels.Sublist p.levels := by
  have hmap : ({ p with member := Function.update p.member i {} } : Party).levels =
      ((List.finRange maxParty).filter fun j =>
        (Function.update p.member i {} j).online).map fun j => (p.member j).lv := by
    refine List.map_congr_left fun j hj => ?_
    have hon := (List.mem_filter.mp hj).2
    rcases eq_or_ne j i with rfl | hne
    · simp at hon
    · exact congrArg PartyMember.lv (Function.update_of_ne hne _ _)
  rw [hmap]
  refine (List.monotone_filter_right _ fun j hj => ?_).map _
  rcases eq_or_ne j i with rfl | hne
  · simp at hj
  · rwa [Function.update_of_ne hne] at hj

/-! ## What keeps it -/

/-- A party that shares meets the check. -/
def Party.ShareOk (level : Int) (p : Party) : Prop := 0 < p.exp → partyCheckExpShare level p

/-- All parties that share meet the check. -/
def SharesOk (level : Int) (db : List Party) : Prop := ∀ p ∈ db, p.ShareOk level

theorem SharesOk.put (h : SharesOk level db) (hp : p.ShareOk level) :
    SharesOk level (partyPut db p) := by
  intro q hq
  obtain ⟨rfl, -⟩ | ⟨hq, -⟩ := mem_partyPut.mp hq
  · exact hp
  · exact h q hq

theorem SharesOk.erase (h : SharesOk level db) (partyId : Int) :
    SharesOk level (partyErase db partyId) := fun q hq => h q (mem_partyErase.mp hq).1

theorem SharesOk.insert (h : SharesOk level db) (hp : p.ShareOk level) :
    SharesOk level (partyInsert db p) := by
  unfold partyInsert
  split
  · exact h.put hp
  · intro q hq
    obtain hq | hq := List.mem_append.mp hq
    · exact h q hq
    · obtain rfl := List.mem_singleton.mp hq
      exact hp

theorem SharesOk.checkEmpty (h : SharesOk level db) (p : Party) :
    SharesOk level (partyCheckEmpty db p).2.1 := by
  unfold partyCheckEmpty
  split
  · exact h
  · split
    · exact h
    · exact h.erase p.partyId

theorem SharesOk.search (h : SharesOk level db) {partyId : Int} (hp : partySearch db partyId = some p) :
    p.ShareOk level := h p (partySearch_mem hp).1

/-! ## The handlers -/

theorem SharesOk.addMember (h : SharesOk level db) (partyId accountId : Int) (nick map : String)
    (lv : Int) : SharesOk level (parsePartyAddMember level db partyId accountId nick map lv).1 := by
  unfold parsePartyAddMember
  split
  · exact h
  · split
    · exact h
    · dsimp only
      split
      · exact h.put fun hexp => absurd hexp (lt_irrefl 0)
      · rename_i hcheck
        exact h.put fun hexp => by_contra fun hshare => hcheck ⟨hexp, hshare⟩

theorem SharesOk.changeOption (h : SharesOk level db) (partyId accountId : Int) (exp : UInt16)
    (item : UInt8) : SharesOk level (parsePartyChangeOption level db partyId accountId exp item).1 := by
  unfold parsePartyChangeOption
  split
  · exact h
  · rename_i p hp
    refine h.put fun hexp => ?_
    dsimp only at hexp
    split at hexp
    · exact absurd hexp (lt_irrefl 0)
    · rename_i hoff
      have hpos : 0 < exp := by
        rw [UInt16.pos_iff_ne_zero]
        rintro rfl
        exact absurd hexp (by decide)
      by_contra hshare
      rw [partyCheckExpShare_congr (q := { p with exp := exp.toUInt8.toNat }) rfl] at hshare
      exact hoff (decide_eq_true ⟨hpos, hshare⟩)

theorem SharesOk.leave (h : SharesOk level db) (partyId accountId : Int) :
    SharesOk level (parsePartyLeave db partyId accountId).1 := by
  unfold parsePartyLeave
  split
  · exact h
  · rename_i p hp
    split
    · exact h
    · rename_i i hi
      have hput := h.put (p := { p with member := Function.update p.member i {} }) fun hexp =>
        partyCheckExpShare_mono (levels_update_empty p i) (h.search hp hexp)
      have hempty := hput.checkEmpty { p with member := Function.update p.member i {} }
      dsimp only
      split <;> rename_i heq <;> rw [heq] at hempty <;> exact hempty

theorem SharesOk.changeMap (h : SharesOk level db) (partyId accountId : Int) (map : String)
    (online : UInt8) (lv : UInt16) :
    SharesOk level (parsePartyChangeMap level db partyId accountId map online lv).1 := by
  unfold parsePartyChangeMap
  split
  · exact h
  · split
    · exact h
    · dsimp only
      split
      · exact h.put fun hexp => absurd hexp (lt_irrefl 0)
      · rename_i hcheck
        exact h.put fun hexp => by_contra fun hshare => hcheck ⟨hexp, hshare⟩

/-- What each step of a fold keeps, the fold keeps. -/
theorem foldl_kept {α β : Type} {I : α → Prop} {f : α → β → α} (hf : ∀ a, I a → ∀ b, I (f a b))
    (l : List β) {a : α} (ha : I a) : I (l.foldl f a) :=
  List.foldlRecOn (motive := I) l f ha fun a ha b _ => hf a ha b

theorem SharesOk.checkConflict (h : SharesOk level db) (partyId accountId : Int) (nick : String) :
    SharesOk level (partyCheckConflict db partyId accountId nick).1 := by
  have hat (key : Int) (r : List Party × List FromInter) (hr : SharesOk level r.1)
      (i : Fin maxParty) : SharesOk level (partyCheckConflictAt accountId nick key r i).1 := by
    unfold partyCheckConflictAt
    split
    · exact hr
    · split
      · exact hr.leave key accountId
      · exact hr
  have hsub (r : List Party × List FromInter) (hr : SharesOk level r.1) (key : Int) :
      SharesOk level (partyCheckConflictSub partyId accountId nick key r.1).1 := by
    unfold partyCheckConflictSub
    split
    · exact hr
    · exact foldl_kept (I := fun r : List Party × List FromInter => SharesOk level r.1) (hat key) _ hr
  unfold partyCheckConflict
  refine foldl_kept (I := fun r : List Party × List FromInter => SharesOk level r.1) ?_ _ h
  exact fun r hr key => hsub r hr key

theorem SharesOk.load {s : PartyServer} (h : SharesOk level s.db) (line : List UInt8) :
    SharesOk level (loadPartyLine s line).db := by
  unfold loadPartyLine
  split
  · exact h
  · split
    · exact h
    · split
      · exact h
      · split
        · -- nobody of a party that has been read is connected
          exact (h.insert fun _ => rfl).checkEmpty _
        · exact h

/-- What an operation keeps. -/
theorem SharesOk.partyOp {s : PartyServer} (h : SharesOk level s.db) (op : PartyOp) :
    SharesOk level (partyOp level s op).db := by
  cases op with
  | create accountId partyName nick map lv item item2 =>
    change SharesOk level (parseCreateParty s accountId partyName nick map lv item item2).1.db
    unfold parseCreateParty
    split
    · exact h
    · exact h.insert fun hexp => absurd hexp (lt_irrefl 0)
  | addMember partyId accountId nick map lv => exact h.addMember partyId accountId nick map lv.toNat
  | changeOption partyId accountId exp item => exact h.changeOption partyId accountId exp item
  | leave partyId accountId => exact h.leave partyId accountId
  | changeMap partyId accountId map online lv => exact h.changeMap partyId accountId map online lv
  | breakParty partyId =>
    change SharesOk level (parseBreakParty s.db partyId).1
    unfold parseBreakParty
    split
    · exact h
    · exact h.erase partyId
  | checkConflict partyId accountId nick => exact h.checkConflict partyId accountId nick
  | load line => exact h.load line

end Share

/-- **The even share is safe.** After any operations, `party_check_exp_share` holds of every party
whose share is on. -/
theorem partyShare_kept (level : Int) (ops : List PartyOp) :
    ∀ p ∈ (Run.exec (partyOp level) {} ops).db, 0 < p.exp → partyCheckExpShare level p := by
  have hall : Run.Meets (partyOp level) (fun _ _ => True) {} ops :=
    Run.meets_of_forall (fun _ _ => trivial) _ _
  exact Run.inv_exec (I := fun s => SharesOk level s.db) (fun _ op h _ => h.partyOp op)
    (by simp [SharesOk]) hall

/-- Two near levels, with the share turned on. -/
def pairOps : List PartyOp :=
  [.create 2000000 "party" "Alice" "prontera.gat" 20 0 0,
    .addMember 100 2000001 "Bob" "prontera.gat" 25, .changeOption 100 2000000 1 0]

theorem partyShare_kept_pair : ∃ p ∈ (Run.exec (partyOp 10) {} pairOps).db,
    0 < p.exp ∧ partyCheckExpShare 10 p := by
  have hshares : ∃ p ∈ (Run.exec (partyOp 10) {} pairOps).db, 0 < p.exp := by decide +kernel
  obtain ⟨p, hp, hexp⟩ := hshares
  exact ⟨p, hp, hexp, partyShare_kept 10 pairOps p hp hexp⟩

end Nezumi
