import Nezumi.Common.Mmo
import Nezumi.Common.Text
import Nezumi.Party.Party

/-!
# The lines of the party file (`char/int_party.c`)

A party is a line of `party.txt`: its id, its name, two options, and its places with their accounts,
their leader flags and their names, between tabs.

* `interPartyTostr` and `interPartyFromstr` are the functions of the same names. The texts are C
  strings, so that a line ends where its list of bytes does.
* `interPartyFromstr_tostr`: what a written line reads as, where the names can be read.
* `readable_of_fromstr`: no name that has been read is empty or starts with a blank.
-/

namespace Nezumi

open Decimal Scanf

/-- The fields of `struct party_member` that are saved. -/
structure MemberRecord where
  accountId : Int32 := 0
  name : CStr 24 := default
  leader : Bool := false
  deriving DecidableEq

/-- The fields of `struct party` that last: those that are saved, and `itemc`. -/
structure PartyRecord where
  partyId : Int32 := 0
  name : CStr 24 := default
  exp : UInt8 := 0
  item : UInt8 := 0
  itemc : UInt8 := 0
  member : Fin maxParty → MemberRecord := fun _ => {}

/-- The part of a line that a place takes. -/
def memberText (m : MemberRecord) : List UInt8 :=
  ofInt m.accountId.toInt ++ 44 :: (ofInt m.leader.toInt ++ 9 ::
    ((if 0 < m.accountId then m.name.bytes else (cstr 24 "NoMember").bytes) ++ [9]))

/-- `inter_party_tostr` -/
def interPartyTostr (p : PartyRecord) : List UInt8 :=
  ofInt p.partyId.toInt ++ 9 :: (p.name.bytes ++ 9 ::
    (ofInt p.exp.toNat ++ 44 :: (ofInt p.item.toNat ++ 9 ::
      (List.finRange maxParty).flatMap fun i => memberText (p.member i))))

/-- `"%d\t%[^\t]\t%d,%d\t"` -/
def partyFormat : List Directive :=
  [.int, .space, .upto 9, .space, .int, .lit 44, .int, .space]

/-- `"%d,%d\t%[^\t]\t"` -/
def memberFormat : List Directive := [.int, .lit 44, .int, .space, .upto 9, .space]

/-- The loop of `inter_party_fromstr` over the places. `str` points to the tab before the next one.
-/
def fromstrMembers : List (Fin maxParty) → (str : Option (List UInt8)) → PartyRecord →
    Option PartyRecord
  | [], _, p => some p
  | _ :: _, none, _ => none
  | i :: is, some str, p =>
    match sscanf memberFormat str.tail with
    | ([.int accountId, .int leader, .text name], _) =>
      let m := { accountId, name := CStr.ofField 24 name, leader := leader.toUInt32 % 2 = 1 }
      fromstrMembers is (next 9 (next 9 (some str))) { p with member := Function.update p.member i m }
    | _ => none

/-- `inter_party_fromstr`. There is no result where it returns 1. -/
def interPartyFromstr (str : List UInt8) : Option PartyRecord :=
  match sscanf partyFormat str with
  | ([.int partyId, .text name, .int exp, .int item], _) =>
    fromstrMembers (List.finRange maxParty) (next 9 (next 9 (next 9 (some str))))
      { partyId, name := CStr.ofField 24 name, exp := exp.toUInt32.toUInt8,
        item := item.toUInt32.toUInt8 }
  | _ => none

section RoundTrip

variable {p q : PartyRecord} {m : MemberRecord} {r : List UInt8}

/-- The name that is written for a place. -/
def MemberRecord.saved (m : MemberRecord) : CStr 24 :=
  if 0 < m.accountId then m.name else cstr 24 "NoMember"

/-- The names have no tabs and no control characters. -/
def PartyRecord.Plain (p : PartyRecord) : Prop :=
  Printable p.name.bytes ∧ ∀ i, Printable (p.member i).name.bytes

/-- The name of the party and those of its members can be read. -/
def PartyRecord.Named (p : PartyRecord) : Prop :=
  Readable p.name.bytes ∧ ∀ i, 0 < (p.member i).accountId → Readable (p.member i).name.bytes

theorem memberText_eq (m : MemberRecord) (r : List UInt8) :
    memberText m ++ r = ofInt m.accountId.toInt ++ 44 :: (ofInt m.leader.toInt ++ 9 ::
      (m.saved.bytes ++ 9 :: r)) := by
  unfold memberText MemberRecord.saved
  split <;> simp

theorem isInt_bool (b : Bool) : IsInt b.toInt := by cases b <;> decide

/-- **A place reads back.** -/
theorem sscanf_memberText (hread : Readable m.saved.bytes) (hplain : Printable m.saved.bytes) :
    ∃ e, sscanf memberFormat (memberText m ++ r) =
      ([.int m.accountId, .int (Int32.ofInt m.leader.toInt), .text m.saved.bytes], e) := by
  rw [memberText_eq, memberFormat, sscanf_int (isInt_toInt _) (noDigit_cons.mpr rfl), sscanf_lit,
    sscanf_int (isInt_bool _) (noDigit_cons.mpr rfl), sscanf_space rfl (hread.2.append hread.1),
    sscanf_upto hread.1 (tab_notMem hplain), Int32.ofInt_toInt]
  exact ⟨_, rfl⟩

theorem next_memberText (hplain : Printable m.saved.bytes) :
    next 9 (next 9 (some (9 :: (memberText m ++ r)))) = some (9 :: r) := by
  have hnums : (9 : UInt8) ∉ ofInt m.accountId.toInt ++ 44 :: ofInt m.leader.toInt := by
    simp [notMem_ofInt (show isDigit 9 = false by decide) (show (9 : UInt8) ≠ 45 by decide)]
  have h := next_cons (b := 9) (r := m.saved.bytes ++ 9 :: r) hnums
  rw [List.append_assoc, List.cons_append] at h
  rw [memberText_eq, h, next_cons (tab_notMem hplain)]

/-- **The places read back.** -/
theorem fromstrMembers_text {is : List (Fin maxParty)}
    (h : ∀ i ∈ is, Readable (p.member i).saved.bytes ∧ Printable (p.member i).saved.bytes) :
    fromstrMembers is (some (9 :: is.flatMap fun i => memberText (p.member i))) q =
      some { q with member := fun i =>
        if i ∈ is then { p.member i with name := (p.member i).saved } else q.member i } := by
  induction is generalizing q with
  | nil => simp [fromstrMembers]
  | cons i is ih =>
    obtain ⟨hread, hplain⟩ := h i List.mem_cons_self
    obtain ⟨e, he⟩ := sscanf_memberText (r := is.flatMap fun i => memberText (p.member i)) hread hplain
    have hleader : ((Int32.ofInt (p.member i).leader.toInt).toUInt32 % 2 = 1 : Bool) =
        (p.member i).leader := by
      cases (p.member i).leader <;> rfl
    rw [List.flatMap_cons, fromstrMembers, List.tail_cons, he]
    dsimp only
    rw [next_memberText hplain, ih fun j hj => h j (List.mem_cons_of_mem _ hj), hleader,
      CStr.ofField_self]
    congr 2
    funext j
    rcases eq_or_ne j i with rfl | hne
    · simp
    · simp [hne]

theorem saved_plain (h : Printable m.name.bytes) : Printable m.saved.bytes := by
  unfold MemberRecord.saved
  split
  · exact h
  · decide +kernel

theorem saved_readable (h : 0 < m.accountId → Readable m.name.bytes) : Readable m.saved.bytes := by
  unfold MemberRecord.saved
  split
  · rename_i hacc
    exact h hacc
  · decide +kernel

theorem isInt_byte (b : UInt8) : IsInt b.toNat := by
  have hb := b.toNat_lt
  unfold IsInt
  omega

/-- The head of a line reads back. -/
theorem sscanf_partyFormat (hread : Readable p.name.bytes) (hplain : Printable p.name.bytes) :
    ∃ e, sscanf partyFormat (interPartyTostr p) =
      ([.int p.partyId, .text p.name.bytes, .int (Int32.ofInt p.exp.toNat),
        .int (Int32.ofInt p.item.toNat)], e) := by
  unfold interPartyTostr partyFormat
  rw [sscanf_int (isInt_toInt _) (noDigit_cons.mpr rfl), sscanf_space rfl (hread.2.append hread.1),
    sscanf_upto hread.1 (tab_notMem hplain), sscanf_space rfl (noSpace_ofInt _),
    sscanf_int (isInt_byte _) (noDigit_cons.mpr rfl), sscanf_lit,
    sscanf_int (isInt_byte _) (noDigit_cons.mpr rfl), Int32.ofInt_toInt]
  exact ⟨_, rfl⟩

/-- The third tab of a line is the one before its places. -/
theorem next_partyHead (hplain : Printable p.name.bytes) :
    next 9 (next 9 (next 9 (some (interPartyTostr p)))) =
      some (9 :: (List.finRange maxParty).flatMap fun i => memberText (p.member i)) := by
  have htab {z : ℤ} : (9 : UInt8) ∉ ofInt z := notMem_ofInt rfl (by decide)
  have hopts : (9 : UInt8) ∉ ofInt (p.exp.toNat : ℤ) ++ 44 :: ofInt (p.item.toNat : ℤ) := by
    simp [htab]
  have h := next_cons (b := 9) hopts
    (r := (List.finRange maxParty).flatMap fun i => memberText (p.member i))
  rw [List.append_assoc, List.cons_append] at h
  unfold interPartyTostr
  rw [next_append (ofInt_ne_nil _) fun hmem => htab (List.mem_of_mem_tail hmem),
    next_cons (tab_notMem hplain), h]

/-- **What a written line reads as**, where the names can be read. -/
theorem interPartyFromstr_tostr (hplain : p.Plain) (hnamed : p.Named) :
    interPartyFromstr (interPartyTostr p) =
      some { p with itemc := 0, member := fun i => { p.member i with name := (p.member i).saved } } := by
  obtain ⟨e, he⟩ := sscanf_partyFormat hnamed.1 hplain.1
  have hbyte (b : UInt8) : (Int32.ofInt (b.toNat : ℤ)).toUInt32.toUInt8 = b := by
    rw [toUInt32_ofInt]
    simp
  unfold interPartyFromstr
  rw [he]
  dsimp only
  rw [next_partyHead hplain.1, fromstrMembers_text fun i _ =>
    ⟨saved_readable (hnamed.2 i), saved_plain (hplain.2 i)⟩, hbyte, hbyte, CStr.ofField_self]
  simp

/-! ## Names that have been read -/

/-- What the loop has read of a place. -/
theorem fromstrMembers_cons {i : Fin maxParty} {is : List (Fin maxParty)}
    {str : Option (List UInt8)} (h : fromstrMembers (i :: is) str p = some q) :
    ∃ s name m, str = some s ∧ Value.text name ∈ (sscanf memberFormat s.tail).1 ∧ Readable name ∧
      m.name = CStr.ofField 24 name ∧
      fromstrMembers is (next 9 (next 9 (some s)))
        { p with member := Function.update p.member i m } = some q := by
  cases str with
  | none => cases h
  | some s =>
    rw [fromstrMembers] at h
    split at h
    · rename_i accountId leader name e heq
      have hreads : Reads false memberFormat _ := sscanf_reads memberFormat s.tail (by simp)
      rw [heq] at hreads
      have hread : Readable name := by
        simp only [memberFormat, reads_int, reads_lit, reads_space, reads_upto] at hreads
        exact hreads.1.2 trivial
      exact ⟨s, name, _, rfl, by rw [heq]; simp, hread, rfl, h⟩
    · cases h

theorem fromstrMembers_frame {is : List (Fin maxParty)} {str : Option (List UInt8)}
    (h : fromstrMembers is str p = some q) :
    (q.name = p.name ∧ q.itemc = p.itemc) ∧ ∀ i, i ∉ is → q.member i = p.member i := by
  induction is generalizing p str with
  | nil =>
    obtain rfl := Option.some.inj h
    exact ⟨⟨rfl, rfl⟩, fun _ _ => rfl⟩
  | cons i is ih =>
    obtain ⟨s, name, m, -, -, -, -, h⟩ := fromstrMembers_cons h
    obtain ⟨hsame, hmember⟩ := ih h
    refine ⟨hsame, fun j hj => ?_⟩
    rw [List.mem_cons, not_or] at hj
    rw [hmember j hj.2]
    exact Function.update_of_ne hj.1 _ _

/-- **No name of a place that has been read** is empty or starts with a blank. -/
theorem readable_of_fromstrMembers {is : List (Fin maxParty)} {str : Option (List UInt8)}
    (hzero : ∀ s, str = some s → (0 : UInt8) ∉ s) (h : fromstrMembers is str p = some q) :
    ∀ i ∈ is, Readable (q.member i).name.bytes := by
  induction is generalizing p str with
  | nil => simp
  | cons i is ih =>
    obtain ⟨s, name, m, rfl, hmem, hread, hm, h⟩ := fromstrMembers_cons h
    have hs := hzero s rfl
    have hrest : ∀ s', next 9 (next 9 (some s)) = some s' → (0 : UInt8) ∉ s' := by
      intro s' hs'
      obtain ⟨s₁, h₁, h₂⟩ := Option.bind_eq_some_iff.mp hs'
      exact fun h0 => hs (subset_of_next h₁ (subset_of_next h₂ h0))
    intro j hj
    by_cases hlater : j ∈ is
    · exact ih hrest h j hlater
    · obtain rfl := (List.mem_cons.mp hj).resolve_right hlater
      rw [(fromstrMembers_frame h).2 j hlater]
      change Readable (Function.update p.member j m j).name.bytes
      rw [Function.update_self, hm]
      exact readable_ofField hread fun h0 => hs (List.mem_of_mem_tail (subset_of_sscanf hmem h0))

/-- **No name that has been read** is empty or starts with a blank. -/
theorem readable_of_fromstr {str : List UInt8} (hzero : (0 : UInt8) ∉ str)
    (h : interPartyFromstr str = some q) :
    Readable q.name.bytes ∧ ∀ i, Readable (q.member i).name.bytes := by
  unfold interPartyFromstr at h
  split at h
  · rename_i partyId name exp item e heq
    have hreads : Reads false partyFormat _ := sscanf_reads partyFormat str (by simp)
    rw [heq] at hreads
    have hread : Readable name := by
      simp only [partyFormat, reads_int, reads_lit, reads_space, reads_upto] at hreads
      exact hreads.1.2 trivial
    have hmem : Value.text name ∈ (sscanf partyFormat str).1 := by
      rw [heq]
      simp
    have hrest : ∀ s', next 9 (next 9 (next 9 (some str))) = some s' → (0 : UInt8) ∉ s' := by
      intro s' hs'
      obtain ⟨s₂, h₂, h₃⟩ := Option.bind_eq_some_iff.mp hs'
      obtain ⟨s₁, h₁, h₂⟩ := Option.bind_eq_some_iff.mp h₂
      exact fun h0 => hzero (subset_of_next h₁ (subset_of_next h₂ (subset_of_next h₃ h0)))
    refine ⟨?_, fun i => readable_of_fromstrMembers hrest h i (List.mem_finRange i)⟩
    rw [(fromstrMembers_frame h).1.1]
    exact readable_ofField hread fun h0 => hzero (subset_of_sscanf hmem h0)
  · cases h

/-- `itemc` is not in the line. -/
theorem itemc_of_fromstr {str : List UInt8} (h : interPartyFromstr str = some q) : q.itemc = 0 := by
  unfold interPartyFromstr at h
  split at h
  · exact (fromstrMembers_frame h).1.2
  · cases h

end RoundTrip

instance (p : PartyRecord) : Decidable p.Plain := inferInstanceAs (Decidable (_ ∧ ∀ _, _))

instance (p : PartyRecord) : Decidable p.Named := inferInstanceAs (Decidable (_ ∧ ∀ _, _))

/-- The record that is read has the fields of the one that was written. -/
def PartyRecord.Restored (p q : PartyRecord) : Prop :=
  q.partyId = p.partyId ∧ q.name = p.name ∧ q.exp = p.exp ∧ q.item = p.item ∧ q.itemc = p.itemc ∧
    ∀ i, (q.member i).accountId = (p.member i).accountId ∧
      (q.member i).leader = (p.member i).leader ∧
      (0 < (p.member i).accountId → (q.member i).name = (p.member i).name)

theorem zero_notMem_tostr (p : PartyRecord) : (0 : UInt8) ∉ interPartyTostr p := by
  have hint {z : ℤ} : (0 : UInt8) ∉ ofInt z := notMem_ofInt rfl (by decide)
  have hname (s : CStr 24) : (0 : UInt8) ∉ s.bytes := fun h => s.ne 0 h rfl
  have hmember (m : MemberRecord) : (0 : UInt8) ∉ memberText m := by
    rw [← List.append_nil (memberText m), memberText_eq]
    simp [hint, hname]
  simp [interPartyTostr, hint, hname, hmember]

/-- **A party reads back** if and only if its `itemc` is zero and its name and those of its members
are not empty and do not start with a blank. -/
theorem party_restored_iff (p : PartyRecord) (hplain : p.Plain) :
    (∃ q, interPartyFromstr (interPartyTostr p) = some q ∧ p.Restored q) ↔
      p.itemc = 0 ∧ p.Named := by
  constructor
  · rintro ⟨q, hq, -, hname, -, -, hitemc, hmember⟩
    obtain ⟨hread, hreads⟩ := readable_of_fromstr (zero_notMem_tostr p) hq
    refine ⟨?_, by rw [← hname]; exact hread, fun i hi => ?_⟩
    · rw [← hitemc]
      exact itemc_of_fromstr hq
    · rw [← (hmember i).2.2 hi]
      exact hreads i
  · rintro ⟨hitemc, hnamed⟩
    refine ⟨_, interPartyFromstr_tostr hplain hnamed, rfl, rfl, rfl, rfl, hitemc.symm, fun i =>
      ⟨rfl, rfl, fun hi => ?_⟩⟩
    exact if_pos hi

/-- A party of two, whose second member has left a place free. -/
def twoMembers : PartyRecord where
  partyId := 100
  name := cstr 24 "my party"
  exp := 1
  member i := if i = 0 then ⟨2000000, cstr 24 "Alice", true⟩
    else if i = 2 then ⟨2000001, cstr 24 "Bob", false⟩ else {}

theorem twoMembers_readable {P : List UInt8 → Prop} (halice : P (cstr 24 "Alice").bytes)
    (hbob : P (cstr 24 "Bob").bytes) (i : Fin maxParty)
    (hother : P (default : CStr 24).bytes ∨ 0 < (twoMembers.member i).accountId) :
    P (twoMembers.member i).name.bytes := by
  unfold twoMembers at hother ⊢
  dsimp only at hother ⊢
  split_ifs at hother ⊢
  · exact halice
  · exact hbob
  · exact hother.resolve_right (by decide)

theorem twoMembers_plain : twoMembers.Plain :=
  ⟨by decide +kernel, fun i =>
    twoMembers_readable (by decide +kernel) (by decide +kernel) i (.inl (by decide))⟩

theorem party_restored_iff_twoMembers :
    ∃ q, interPartyFromstr (interPartyTostr twoMembers) = some q ∧ twoMembers.Restored q :=
  (party_restored_iff twoMembers twoMembers_plain).mpr ⟨rfl, by decide +kernel, fun i hi =>
    twoMembers_readable (by decide +kernel) (by decide +kernel) i (.inr hi)⟩

/-- **The distribution of items is not saved.** -/
theorem party_not_restored : ¬ ∀ p : PartyRecord, p.Plain →
    ∃ q, interPartyFromstr (interPartyTostr p) = some q ∧ p.Restored q := by
  intro h
  obtain ⟨q, hq, -, -, -, -, hitemc, -⟩ := h { twoMembers with itemc := 1 } twoMembers_plain
  rw [itemc_of_fromstr hq] at hitemc
  exact absurd hitemc (by decide)

end Nezumi
