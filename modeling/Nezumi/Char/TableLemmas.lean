import Nezumi.Char.ServerLemmas

/-!
# The character table as a map (`char/char.c`)

* `Chars` is what the table is for: a character for each id. `Chars.without` deletes some of them, with
  the divorce of their partners; `without_without` says that two deletions are one.
* `TableOk s m`: the rows of the table are the characters of `m`, and their ids are below the counter.
* `tableOk_push`, `tableOk_remove` and `tableOk_modify` say what a creation, a deletion and a change
  of a row do to `m`.
-/

namespace Nezumi

/-! ## Characters by id -/

def Character.charId (c : Character) : Int := c.status.charId

/-- A character for each id. -/
abbrev Chars := Int → Option Character

namespace Chars

/-- The account of a character. -/
def owner (m : Chars) (charId : Int) : Option Int := (m charId).map fun c => c.status.accountId

/-- The partner of a character is one of those that are deleted, and the other way round. -/
def widowed (m : Chars) (gone : Int → Bool) (c : Character) : Bool :=
  gone c.status.partnerId &&
    (m c.status.partnerId).any fun d => d.status.partnerId = c.status.charId

/-- A character after the divorce. -/
def divorce (m : Chars) (gone : Int → Bool) (c : Character) : Character :=
  if m.widowed gone c then { c with status := c.status.divorced } else c

/-- The characters without some of them. -/
def without (m : Chars) (gone : Int → Bool) : Chars := fun charId =>
  if gone charId then none else (m charId).map (m.divorce gone)

/-- Every character stands under its id, and ids are positive. -/
def Keyed (m : Chars) : Prop := ∀ id c, m id = some c → c.charId = id ∧ 0 < id

variable {m : Chars} {gone : Int → Bool}

theorem accountId_divorce (m : Chars) (gone : Int → Bool) (c : Character) :
    (m.divorce gone c).status.accountId = c.status.accountId := by
  unfold divorce
  split <;> rfl

theorem charId_divorce (m : Chars) (gone : Int → Bool) (c : Character) :
    (m.divorce gone c).charId = c.charId := by
  unfold divorce
  split <;> rfl

theorem divorce_of_not {c : Character} (h : m.widowed gone c = false) : m.divorce gone c = c := by
  unfold divorce
  rw [h]
  rfl

theorem owner_without {id : Int} (h : gone id = false) : (m.without gone).owner id = m.owner id := by
  unfold owner without
  rw [h]
  cases m id with
  | none => rfl
  | some c => simp [accountId_divorce]

theorem Keyed.without (h : m.Keyed) : (m.without gone).Keyed := by
  intro id c hc
  unfold Chars.without at hc
  split at hc
  · cases hc
  · obtain ⟨d, hd, rfl⟩ := Option.map_eq_some_iff.mp hc
    obtain ⟨hid, hpos⟩ := h id d hd
    exact ⟨by rw [charId_divorce]; exact hid, hpos⟩

/-- Without one more character. -/
theorem without_without (h : m.Keyed) {x : Int} (hx : gone x = false) (hmx : (m x).isSome = true) :
    (m.without gone).without (fun y => y = x) = m.without fun y => y = x || gone y := by
  obtain ⟨d, hd⟩ := Option.isSome_iff_exists.mp hmx
  have hdx : d.status.charId = x := (h x d hd).1
  have hpos : 0 < x := (h x d hd).2
  have hx' : m.without gone x = some (m.divorce gone d) := by simp [without, hx, hd]
  funext y
  unfold without
  by_cases hyx : y = x
  · simp [hyx]
  cases hy : gone y with
  | true => simp [hy]
  | false =>
    cases hmy : m y with
    | none => simp [hyx, hy]
    | some c =>
      obtain ⟨hcy, hypos⟩ : c.status.charId = y ∧ 0 < y := h y c hmy
      simp only [hyx, hy, Option.map_some, decide_false, Bool.false_eq_true, if_false,
        Bool.or_false, Option.some.injEq]
      change (m.without gone).divorce (fun y => y = x) (m.divorce gone c) =
        m.divorce (fun y => y = x || gone y) c
      cases hw : m.widowed gone c with
      | true =>
        -- The partner has gone before, so `c` is divorced already.
        have hboth : m.widowed (fun y => y = x || gone y) c = true := by
          simp only [widowed, Bool.and_eq_true, Bool.or_eq_true] at hw ⊢
          exact ⟨.inr hw.1, hw.2⟩
        have hnot : (m.without gone).widowed (fun y => y = x) (m.divorce gone c) = false := by
          have hzero : (m.divorce gone c).status.partnerId = 0 := by
            unfold divorce
            rw [if_pos hw]
            rfl
          unfold widowed
          rw [hzero]
          simp [hpos.ne]
        rw [divorce_of_not hnot]
        unfold divorce
        rw [if_pos hw, if_pos hboth]
      | false =>
        rw [divorce_of_not hw]
        have hsame : (m.without gone).widowed (fun y => y = x) c =
            m.widowed (fun y => y = x || gone y) c := by
          by_cases hp : c.status.partnerId = x
          · -- The partner goes now: it has not been divorced from `c` before.
            have hdiv : ((m.divorce gone d).status.partnerId = y) = (d.status.partnerId = y) := by
              cases hwd : m.widowed gone d with
              | false => simp [divorce, hwd]
              | true =>
                simp only [widowed, Bool.and_eq_true] at hwd
                have hne : d.status.partnerId ≠ y := by
                  rintro heq
                  rw [heq, hy] at hwd
                  cases hwd.1
                have hne' : (0 : Int) ≠ y := hypos.ne
                have hwd' : m.widowed gone d = true := by
                  simpa [widowed] using hwd
                simp [divorce, hwd', CharStatus.divorced, hne, hne']
            simp [widowed, hp, hx', hd, hcy, hdiv]
          · simp only [widowed, hp, decide_false, Bool.false_and, Bool.false_or]
            exact hw.symm
        simp only [divorce, hsame]

/-- Deleting nobody. -/
theorem without_none : m.without (fun _ => false) = m := by
  funext y
  have hid : m.divorce (fun _ => false) = id := by
    funext c
    simp [divorce, widowed]
  simp [without, hid]

end Chars

/-! ## The rows of the table -/

/-- The parallel arrays as a pool. -/
def CharServer.rows (s : CharServer) : Pool Character := ⟨s.charNum, s.character⟩

variable {s s' : CharServer} {m : Chars} {i : Nat} {id : Int}

/-- The index holds the character with the id. -/
abbrev CharServer.At (s : CharServer) (i : Nat) (id : Int) : Prop :=
  Pool.Designates Character.charId s.rows i id

/-- The rows are the characters of `m`, and the counter is above their ids. -/
structure TableOk (s : CharServer) (m : Chars) : Prop where
  rows : Pool.Represents Character.charId s.rows m
  ids : ∀ id c, m id = some c → 0 < id ∧ id < s.charIdCount

theorem tableOk_empty (h : s.charNum = 0) : TableOk s fun _ => none := by
  have hlt (i : Nat) : ¬ i < s.rows.num := by
    simp only [CharServer.rows, h]
    omega
  refine ⟨⟨fun i hi => absurd hi (hlt i), fun i hi => absurd hi (hlt i), fun k a ha => ?_⟩,
    fun id c hc => ?_⟩
  · cases ha
  · cases hc

theorem TableOk.keyed (h : TableOk s m) : m.Keyed := by
  intro id c hc
  obtain ⟨i, hi, he, hkey⟩ := h.rows.index id c hc
  exact ⟨hkey, (h.ids id c hc).1⟩

theorem TableOk.get (h : TableOk s m) (hi : s.At i id) : m id = some (s.character i) :=
  h.rows.get hi

theorem TableOk.of_agree (h : TableOk s m) (hrows : Pool.Agree s.rows s'.rows)
    (hcount : s'.charIdCount = s.charIdCount) : TableOk s' m :=
  ⟨h.rows.of_agree hrows, by rw [hcount]; exact h.ids⟩

theorem TableOk.of_rows (h : TableOk s m) (hrows : s'.rows = s.rows)
    (hcount : s'.charIdCount = s.charIdCount) : TableOk s' m :=
  ⟨by rw [hrows]; exact h.rows, by rw [hcount]; exact h.ids⟩

theorem at_self (hi : i < s.charNum) : s.At i (s.charDat i).charId := ⟨hi, rfl⟩

theorem TableOk.owner (h : TableOk s m) (hi : s.At i id) :
    m.owner id = some (s.charDat i).accountId := by
  unfold Chars.owner
  rw [h.get hi]
  rfl

/-- Who owns a character has it at an index. -/
theorem TableOk.exists_at (h : TableOk s m) {accountId : Int} (ho : m.owner id = some accountId) :
    ∃ i, s.At i id ∧ (s.charDat i).accountId = accountId := by
  obtain ⟨c, hc, rfl⟩ := Option.map_eq_some_iff.mp ho
  obtain ⟨i, hi, he, hkey⟩ := h.rows.index id c hc
  refine ⟨i, ⟨hi, by rw [he]; exact hkey⟩, ?_⟩
  rw [← he]
  rfl

/-- A record is written. -/
theorem rows_update (s : CharServer) (p : Nat) (f : CharStatus → CharStatus) :
    { s with charDat := Function.update s.charDat p (f (s.charDat p)) }.rows =
      s.rows.modify p fun c => { c with status := f c.status } := by
  unfold CharServer.rows Pool.modify
  congr 1
  funext j
  by_cases hj : j = p
  · simp [hj, CharServer.character]
  · simp [Function.update_of_ne hj, CharServer.character]

/-- A new character with the next id. -/
theorem tableOk_push (h : TableOk s m) {c : Character} (hid : c.charId = s.charIdCount)
    (hpos : 0 < s.charIdCount) (hrows : s'.rows = s.rows.push c)
    (hcount : s'.charIdCount = s.charIdCount + 1) :
    TableOk s' (Function.update m s.charIdCount (some c)) := by
  have hfresh : m c.charId = none := by
    rw [hid]
    by_contra hne
    obtain ⟨d, hd⟩ := Option.ne_none_iff_exists'.mp hne
    exact absurd (h.ids _ d hd).2 (lt_irrefl _)
  refine ⟨?_, ?_⟩
  · rw [hrows, ← hid]
    exact Pool.represents_push h.rows hfresh
  · intro id d hd
    rw [hcount]
    by_cases hne : id = s.charIdCount
    · rw [hne]
      omega
    · rw [Function.update_of_ne hne] at hd
      have := h.ids id d hd
      omega

/-- A row changes, not its id. -/
theorem tableOk_modify (h : TableOk s m) {f : Character → Character} (hi : s.At i id)
    (hf : (f (s.character i)).charId = (s.character i).charId) (hrows : s'.rows = s.rows.modify i f)
    (hcount : s'.charIdCount = s.charIdCount) :
    TableOk s' (Function.update m id ((m id).map f)) := by
  have hmap : (m id).map f = some (f (s.character i)) := by rw [h.get hi]; rfl
  refine ⟨?_, ?_⟩
  · rw [hrows, hmap, ← hi.key]
    exact Pool.represents_modify h.rows hi.lt hf
  · intro id' d hd
    rw [hcount]
    by_cases hne : id' = id
    · rw [hne]
      exact h.ids id _ (h.get hi)
    · rw [Function.update_of_ne hne] at hd
      exact h.ids id' d hd

/-! ## Deletion -/

theorem charIndex_some {p : CharStatus → Bool} (h : charIndex s p = some i) :
    i < s.charNum ∧ p (s.charDat i) = true := by
  have hmem := List.mem_of_find?_eq_some h
  exact ⟨by simpa using hmem, by simpa using List.find?_some h⟩

theorem charIndex_none {p : CharStatus → Bool} (h : charIndex s p = none) {i : Nat}
    (hi : i < s.charNum) : p (s.charDat i) = false := by
  have := List.find?_eq_none.mp h i (by simpa using hi)
  simpa using this

/-- What the table holds after the divorce, but for the character that is deleted. -/
theorem represents_charDivorce (h : TableOk s m) (hi : i < s.charNum) :
    ∃ m', Pool.Represents Character.charId (charDivorce s i).rows m' ∧
      ∀ y, y ≠ (s.charDat i).charId →
        m' y = (m y).map (m.divorce fun z => z = (s.charDat i).charId) := by
  have hget : m (s.charDat i).charId = some (s.character i) := h.get (at_self hi)
  have hpos := (h.ids _ _ hget).1
  -- Who is widowed has the character as partner and is its partner.
  have hwidowed (c : Character) : m.widowed (fun z => z = (s.charDat i).charId) c = true ↔
      c.status.partnerId = (s.charDat i).charId ∧ (s.charDat i).partnerId = c.status.charId := by
    simp only [Chars.widowed, Bool.and_eq_true, decide_eq_true_eq]
    refine and_congr_right fun hc => ?_
    rw [hc, hget]
    simp [CharServer.character]
  have hstay {y : Int} (hy : ∀ c, m y = some c → m.widowed (fun z => z = (s.charDat i).charId) c = false) :
      m y = (m y).map (m.divorce fun z => z = (s.charDat i).charId) := by
    cases hmy : m y with
    | none => rfl
    | some c => simp [Chars.divorce, hy c hmy]
  unfold charDivorce
  simp only
  split
  · rename_i hpartner
    split
    · rename_i p hp
      obtain ⟨hplt, htest⟩ := charIndex_some hp
      simp only [Bool.and_eq_true, decide_eq_true_eq] at htest
      have hat : s.At p (s.charDat i).partnerId := ⟨hplt, htest.1⟩
      have hmodify := Pool.represents_modify h.rows
        (f := fun c => { c with status := c.status.divorced }) hplt rfl
      rw [← rows_update s p CharStatus.divorced] at hmodify
      refine ⟨_, hmodify, fun y hy => ?_⟩
      · have hkey : Character.charId (s.rows.entry p) = (s.charDat i).partnerId := hat.key
        rw [hkey]
        by_cases hyp : y = (s.charDat i).partnerId
        · have hmy : m y = some (s.character p) := by rw [hyp]; exact h.get hat
          have hw : m.widowed (fun z => z = (s.charDat i).charId) (s.character p) = true :=
            (hwidowed _).mpr ⟨htest.2, htest.1.symm⟩
          rw [hyp, Function.update_self, ← hyp, hmy, Option.map_some, Chars.divorce, if_pos hw]
          rfl
        · rw [Function.update_of_ne hyp]
          refine hstay fun c hc => ?_
          rw [Bool.eq_false_iff]
          intro hw
          exact hyp (by rw [((hwidowed c).mp hw).2]; exact ((h.keyed y c hc).1).symm)
    · rename_i hnone
      refine ⟨m, h.rows, fun y hy => hstay fun c hc => ?_⟩
      rw [Bool.eq_false_iff]
      intro hw
      obtain ⟨hc1, hc2⟩ := (hwidowed c).mp hw
      obtain ⟨j, hj, he, -⟩ := h.rows.index y c hc
      have htest := charIndex_none hnone hj
      have hrow : s.charDat j = c.status := by rw [← he]; rfl
      rw [hrow] at htest
      simp [hc1, hc2] at htest
  · rename_i hpartner
    refine ⟨m, h.rows, fun y hy => hstay fun c hc => ?_⟩
    rw [Bool.eq_false_iff]
    intro hw
    have hc1 := (h.keyed y c hc).1
    have hc2 := (h.keyed y c hc).2
    have hc3 := ((hwidowed c).mp hw).2
    unfold Character.charId at hc1
    omega

theorem charNum_charDivorce (s : CharServer) (i : Nat) : (charDivorce s i).charNum = s.charNum := by
  unfold charDivorce
  simp only
  split
  · split <;> rfl
  · rfl

/-- The divorce leaves the ids and the accounts. -/
theorem charDat_charDivorce (s : CharServer) (i j : Nat) :
    ((charDivorce s i).charDat j).charId = (s.charDat j).charId ∧
      ((charDivorce s i).charDat j).accountId = (s.charDat j).accountId := by
  unfold charDivorce
  simp only
  split
  · split
    · rename_i p _
      by_cases hjp : j = p
      · simp [hjp, CharStatus.divorced]
      · simp [Function.update_of_ne hjp]
    · exact ⟨rfl, rfl⟩
  · exact ⟨rfl, rfl⟩

theorem at_charDivorce (h : s.At i id) (k : Nat) : (charDivorce s k).At i id :=
  ⟨by
    have hlt := h.lt
    simp only [CharServer.rows] at hlt ⊢
    rw [charNum_charDivorce]
    exact hlt, (charDat_charDivorce s k i).1.trans h.key⟩

/-- A row is deleted, with the divorce. -/
theorem tableOk_remove (h : TableOk s m) (hi : i < s.charNum)
    (hrows : Pool.Agree ((charDivorce s i).rows.swapRemove i) s'.rows)
    (hcount : s'.charIdCount = s.charIdCount) :
    TableOk s' (m.without fun z => z = (s.charDat i).charId) := by
  obtain ⟨m', hm', heq⟩ := represents_charDivorce h hi
  have hi' : i < (charDivorce s i).rows.num := by
    simp only [CharServer.rows, charNum_charDivorce]
    exact hi
  have hkey : Character.charId ((charDivorce s i).rows.entry i) = (s.charDat i).charId :=
    (charDat_charDivorce s i i).1
  have hmap : Function.update m' (s.charDat i).charId none =
      m.without fun z => z = (s.charDat i).charId := by
    funext y
    by_cases hy : y = (s.charDat i).charId
    · simp [hy, Chars.without]
    · rw [Function.update_of_ne hy, heq y hy]
      simp [Chars.without, hy]
  refine ⟨?_, ?_⟩
  · have hremove := Pool.represents_swapRemove hm' hi'
    rw [hkey, hmap] at hremove
    exact hremove.of_agree hrows
  · intro id c hc
    rw [hcount]
    unfold Chars.without at hc
    split at hc
    · cases hc
    · obtain ⟨d, hd, -⟩ := Option.map_eq_some_iff.mp hc
      exact h.ids id d hd

end Nezumi
