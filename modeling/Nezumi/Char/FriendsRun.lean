import Nezumi.Lib.Neighbours
import Nezumi.Lib.Run
import Nezumi.Char.DeletionLemmas
import Nezumi.Char.Friends

/-!
# Whether friends have each other (`char/char.c`, text-file build)

* `FriendsOk`: the lists are mutual, and nobody in them has been deleted. `Chars.neighbours` are the
  lists by id, and `friendsOk_of_mutual` says that they are enough.
* `friendAdded_spec`, `friendDeleted_spec`, `neighbours_without`: what becomes of the lists.
* `Filed`: what the file keeps. `parseFriendTxt_filed` reads back what `mmo_friend_sync` has
  written.
* `FriendInv` is the invariant of a run. `friends_exact_iff`: the lists stay mutual if and only if
  only characters without friends are deleted.
-/

namespace Nezumi

open Decimal Scanf Neighbours

/-- The lists are mutual, with nobody twice, no more than there is room for and nobody who has been
deleted. -/
structure FriendsOk (s : CharServer) : Prop where
  mutual_ : ∀ i < s.charNum, ∀ j < s.charNum,
    (s.charDat j).charId ∈ friendIds (s.friendDat i) →
      (s.charDat i).charId ∈ friendIds (s.friendDat j)
  once : ∀ i < s.charNum, (friendIds (s.friendDat i)).Nodup
  room : ∀ i < s.charNum, (s.friendDat i).length ≤ maxFriends
  alive : ∀ i < s.charNum, ∀ f ∈ friendIds (s.friendDat i),
    ∃ j < s.charNum, (s.charDat j).charId = f

section Lists

variable {s s' : CharServer} {m : Chars} {i j : Nat} {a b x : Int}

/-- The friends of a character, by id. -/
def Chars.neighbours (m : Chars) (id : Int) : List Int :=
  (m id).elim [] fun c => friendIds c.friends

/-- The characters of the table. -/
def Chars.there (m : Chars) (id : Int) : Prop := m id ≠ none

/-- The lists of a table are mutual. -/
abbrev Chars.Mutual (m : Chars) : Prop := Neighbours.Mutual maxFriends m.there m.neighbours

theorem TableOk.neighbours_at (h : TableOk s m) (hi : s.At i a) :
    m.neighbours a = friendIds (s.friendDat i) := by
  unfold Chars.neighbours
  rw [h.get hi]
  rfl

theorem TableOk.there_iff (h : TableOk s m) : m.there a ↔ ∃ i, s.At i a := by
  constructor
  · intro ha
    obtain ⟨c, hc⟩ := Option.ne_none_iff_exists'.mp ha
    obtain ⟨i, hi, he, hkey⟩ := h.rows.index a c hc
    exact ⟨i, hi, he ▸ hkey⟩
  · rintro ⟨i, hi⟩
    rw [Chars.there, h.get hi]
    exact Option.some_ne_none _

/-- **Mutual lists by id are enough.** -/
theorem friendsOk_of_mutual (h : TableOk s m) (hm : m.Mutual) : FriendsOk s := by
  have hlist {i : Nat} (hi : i < s.charNum) :
      friendIds (s.friendDat i) = m.neighbours (s.charDat i).charId :=
    (h.neighbours_at (at_self hi)).symm
  refine ⟨fun i hi j hj hmem => ?_, fun i hi => ?_, fun i hi => ?_, fun i hi f hf => ?_⟩
  · rw [hlist hi] at hmem
    rw [hlist hj]
    exact hm.symm _ _ hmem
  · rw [hlist hi]
    exact hm.nodup _
  · have hroom := hm.room (s.charDat i).charId
    rw [← hlist hi, friendIds, List.length_map] at hroom
    exact hroom
  · rw [hlist hi] at hf
    obtain ⟨j, hj⟩ := h.there_iff.mp (hm.alive_right hf)
    exact ⟨j, hj.lt, hj.key⟩

/-! ## Additions -/

/-- The search finds the two characters. -/
theorem friendIndexes_some {is : List Nat} {index1 index2 : Option Nat}
    (h : friendIndexes s a b is index1 index2 = some (i, j)) (his : ∀ k ∈ is, k < s.charNum)
    (h1 : ∀ k, index1 = some k → s.At k a) (h2 : ∀ k, index2 = some k → s.At k b) :
    s.At i a ∧ s.At j b := by
  induction is generalizing index1 index2 with
  | nil => cases h
  | cons k is ih =>
    have hk := his k List.mem_cons_self
    have hat (x : Int) (index : Option Nat) (hindex : ∀ k, index = some k → s.At k x) :
        ∀ k', (if (s.charDat k).charId = x then some k else index) = some k' → s.At k' x := by
      intro k' hk'
      split at hk'
      · rename_i hx
        cases hk'
        exact ⟨hk, hx⟩
      · exact hindex k' hk'
    unfold friendIndexes at h
    split at h
    · rename_i l hl
      cases h
      split at hl
      · rename_i hx
        exact ⟨⟨hk, hx⟩, h2 _ hl⟩
      · cases hl
    · dsimp only at h
      split at h
      · rename_i l hl
        cases h
        split at hl
        · rename_i hx
          exact ⟨hat a index1 h1 _ hl, ⟨hk, hx⟩⟩
        · cases hl
      · exact ih h (fun k hk => his k (List.mem_cons_of_mem _ hk)) (hat a index1 h1)
          (hat b index2 h2)

/-- A row gets another list. -/
def CharServer.withFriends (s : CharServer) (i : Nat) (l : List Friend) : CharServer :=
  { s with friendDat := Function.update s.friendDat i l }

/-- A character gets another list. -/
def Chars.withFriends (m : Chars) (a : Int) (l : List Friend) : Chars :=
  Function.update m a ((m a).map fun c => { c with friends := l })

theorem rows_withFriends (s : CharServer) (i : Nat) (l : List Friend) :
    (s.withFriends i l).rows = s.rows.modify i fun c => { c with friends := l } := by
  unfold CharServer.rows Pool.modify
  congr 1
  funext j
  by_cases hj : j = i
  · simp [hj, CharServer.character, CharServer.withFriends]
  · simp [Function.update_of_ne hj, CharServer.character, CharServer.withFriends]

theorem tableOk_withFriends (h : TableOk s m) (hi : s.At i a) (l : List Friend) :
    TableOk (s.withFriends i l) (m.withFriends a l) :=
  tableOk_modify h hi rfl (rows_withFriends s i l) rfl

theorem at_withFriends {l : List Friend} : (s.withFriends i l).At j x ↔ s.At j x :=
  ⟨fun h => ⟨h.lt, h.key⟩, fun h => ⟨h.lt, h.key⟩⟩

theorem there_withFriends (l : List Friend) : (m.withFriends a l).there x ↔ m.there x := by
  unfold Chars.there Chars.withFriends
  by_cases hx : x = a
  · subst hx
    rw [Function.update_self, ne_eq, Option.map_eq_none_iff]
  · rw [Function.update_of_ne hx]

theorem neighbours_withFriends (h : m.there a) (l : List Friend) :
    (m.withFriends a l).neighbours = Function.update m.neighbours a (friendIds l) := by
  obtain ⟨c, hc⟩ := Option.ne_none_iff_exists'.mp h
  funext x
  unfold Chars.neighbours Chars.withFriends
  by_cases hx : x = a
  · subst hx
    rw [Function.update_self, Function.update_self, hc]
    rfl
  · rw [Function.update_of_ne hx, Function.update_of_ne hx]

/-- **An addition** changes nothing, or makes two characters friends. -/
theorem friendAdded_spec (h : TableOk s m) (hm : m.Mutual) (hab : a ≠ b)
    (hnew : b ∉ m.neighbours a) :
    friendAdded s a b = (s, false) ∨
      (friendAdded s a b).2 = true ∧ ∃ m', TableOk (friendAdded s a b).1 m' ∧ m'.Mutual ∧
        ∀ x, m'.there x ↔ m.there x := by
  unfold friendAdded
  split
  · exact .inl rfl
  · rename_i i j hij
    obtain ⟨hi, hj⟩ := friendIndexes_some hij (fun k hk => List.mem_range.mp hk)
      (fun _ h => nomatch h) (fun _ h => nomatch h)
    split
    · rename_i hroom
      refine .inr ⟨rfl, ?_⟩
      have hne : j ≠ i := by
        rintro rfl
        exact hab (hi.key.symm.trans hj.key)
      -- the first list, and then the second one
      let l1 := s.friendDat i ++ [friendOf (s.charDat j)]
      let l2 := s.friendDat j ++ [friendOf (s.charDat i)]
      have htable := tableOk_withFriends (tableOk_withFriends h hi l1) (at_withFriends.mpr hj) l2
      have hthere (x : Int) : ((m.withFriends a l1).withFriends b l2).there x ↔ m.there x :=
        (there_withFriends l2).trans (there_withFriends l1)
      have hia := h.there_iff.mpr ⟨i, hi⟩
      have hjb := h.there_iff.mpr ⟨j, hj⟩
      have hlink : ((m.withFriends a l1).withFriends b l2).neighbours = link m.neighbours a b := by
        have hid1 : (s.charDat i).charId = a := hi.key
        have hid2 : (s.charDat j).charId = b := hj.key
        rw [neighbours_withFriends ((there_withFriends l1).mpr hjb), neighbours_withFriends hia,
          link, h.neighbours_at hi, h.neighbours_at hj]
        simp [l1, l2, friendIds, friendOf, hid1, hid2]
      have hlen {k : Nat} {x : Int} (hk : s.At k x) (hlt : (s.friendDat k).length < maxFriends) :
          (m.neighbours x).length < maxFriends := by
        rw [h.neighbours_at hk, friendIds, List.length_map]
        exact hlt
      have hmutual := hm.link hab hnew (hlen hi hroom.1) (hlen hj hroom.2) ⟨hia, hjb⟩
      rw [← hlink] at hmutual
      dsimp only
      rw [Function.update_of_ne hne]
      exact ⟨_, htable, hmutual.keep fun x _ hx => (hthere x).mpr hx, hthere⟩
    · exact .inl rfl

/-! ## Removals -/

/-- An entry is taken off, or there is none. -/
theorem dropFriend_cases (l : List Friend) (x : Int) :
    x ∉ friendIds l ∧ dropFriend l x = l ∨
      (dropFriend l x).length + 1 = l.length ∧
        (friendIds (dropFriend l x)).Perm ((friendIds l).erase x) := by
  unfold dropFriend
  cases hfind : l.findIdx? fun f => f.charId = x with
  | none =>
    refine .inl ⟨fun hx => ?_, rfl⟩
    obtain ⟨f, hf, rfl⟩ := List.mem_map.mp hx
    simpa using List.findIdx?_eq_none_iff.mp hfind f hf
  | some j =>
    obtain ⟨hj, hid, -⟩ := List.findIdx?_eq_some_iff_getElem.mp hfind
    have hget : l[j]? = some l[j] := List.getElem?_eq_getElem hj
    refine .inr ⟨Unordered.length_swapRemove hget, ?_⟩
    have hperm := (Unordered.swapRemove_perm hget).map Friend.charId
    rw [List.map_cons, of_decide_eq_true hid] at hperm
    have herase := hperm.erase x
    rwa [List.erase_cons_head] at herase

theorem dropFriend_perm (l : List Friend) (x : Int) :
    (friendIds (dropFriend l x)).Perm ((friendIds l).erase x) := by
  obtain ⟨hx, heq⟩ | ⟨-, hperm⟩ := dropFriend_cases l x
  · rw [heq, List.erase_of_not_mem hx]
  · exact hperm

theorem dropFriend_length (l : List Friend) (x : Int) :
    dropFriend l x = l ∨ (dropFriend l x).length < l.length := by
  obtain ⟨-, heq⟩ | ⟨hlen, -⟩ := dropFriend_cases l x
  · exact .inl heq
  · exact .inr (by omega)

theorem friendsAfter_length (s : CharServer) (a b : Int) (i : Nat) :
    friendsAfter s a b i = s.friendDat i ∨
      (friendsAfter s a b i).length < (s.friendDat i).length := by
  unfold friendsAfter
  dsimp only
  generalize hl : (if (s.charDat i).charId = a then dropFriend (s.friendDat i) b
    else s.friendDat i) = l
  have hfirst : l = s.friendDat i ∨ l.length < (s.friendDat i).length := by
    rw [← hl]
    split
    · exact dropFriend_length (s.friendDat i) b
    · exact .inl rfl
  split
  · obtain heq | hlt := dropFriend_length l a
    · rwa [heq]
    · obtain rfl | hlt' := hfirst
      · exact .inr hlt
      · exact .inr (hlt.trans hlt')
  · exact hfirst

/-- A character after the removal. -/
def Character.unfriended (a b : Int) (c : Character) : Character :=
  let l := if c.charId = a then dropFriend c.friends b else c.friends
  { c with friends := if c.charId = b then dropFriend l a else l }

theorem friends_unfriended (a b : Int) (c : Character) : (friendIds (c.unfriended a b).friends).Perm
    (if c.charId = b then (if c.charId = a then (friendIds c.friends).erase b
      else friendIds c.friends).erase a
    else if c.charId = a then (friendIds c.friends).erase b else friendIds c.friends) := by
  have hfirst : (friendIds (if c.charId = a then dropFriend c.friends b else c.friends)).Perm
      (if c.charId = a then (friendIds c.friends).erase b else friendIds c.friends) := by
    split
    · exact dropFriend_perm c.friends b
    · rfl
  unfold Character.unfriended
  dsimp only
  split
  · exact (dropFriend_perm _ a).trans (hfirst.erase a)
  · exact hfirst

theorem unlinked_unfriended (h : m.Keyed) (hm : m.Mutual) :
    Neighbours.Unlinked m.neighbours a b
      (Chars.neighbours fun k => (m k).map (Character.unfriended a b)) := by
  intro x
  have hself : a ∉ m.neighbours a := hm.irrefl a
  unfold Chars.neighbours at hself ⊢
  dsimp only
  cases hx : m x with
  | none =>
    dsimp only [Option.map_none, Option.elim]
    split
    · rename_i hxa
      rw [← hxa, hx]
      rfl
    · split
      · rename_i hxb
        rw [← hxb, hx]
        rfl
      · rfl
  | some c =>
    have hid := (h x c hx).1
    refine (friends_unfriended a b c).trans ?_
    rw [hid]
    by_cases hxa : x = a
    · subst hxa
      rw [if_pos rfl, if_pos rfl, hx]
      rw [hx] at hself
      split
      · rename_i hxb
        have hnot : x ∉ friendIds c.friends := hself
        rw [← hxb]
        change (((friendIds c.friends).erase x).erase x).Perm ((friendIds c.friends).erase x)
        rw [List.erase_of_not_mem hnot, List.erase_of_not_mem hnot]
      · rfl
    · rw [if_neg hxa, if_neg hxa]
      split
      · rename_i hxb
        rw [← hxb, hx]
        rfl
      · rfl

/-- **A removal** changes nothing, or two characters are no longer friends. -/
theorem friendDeleted_spec (h : TableOk s m) (hm : m.Mutual) (a b : Int) :
    ((friendDeleted s a b).2 = false ∧ TableOk (friendDeleted s a b).1 m) ∨
      (friendDeleted s a b).2 = true ∧ ∃ m', TableOk (friendDeleted s a b).1 m' ∧ m'.Mutual ∧
        ∀ x, m'.there x ↔ m.there x := by
  have hrow (i : Nat) (hi : i < s.charNum) : (friendDeleted s a b).1.rows.entry i =
      { s.rows.entry i with friends := friendsAfter s a b i } := by
    change (⟨_, if i < s.charNum then _ else _, _⟩ : Character) = _
    rw [if_pos hi]
    rfl
  cases hflag : (friendDeleted s a b).2 with
  | false =>
    refine .inl ⟨rfl, h.of_agree ⟨rfl, fun i hi => ?_⟩ rfl⟩
    rw [hrow i hi]
    have hsame : friendsAfter s a b i = s.friendDat i := by
      obtain heq | hlt := friendsAfter_length s a b i
      · exact heq
      · refine absurd hflag ?_
        rw [Bool.not_eq_false]
        exact List.any_eq_true.mpr ⟨i, List.mem_range.mpr hi, decide_eq_true hlt⟩
    rw [hsame]
    rfl
  | true =>
    refine .inr ⟨rfl, fun k => (m k).map (Character.unfriended a b), ⟨?_, fun id c hc => ?_⟩, ?_,
      fun x => ?_⟩
    · refine Pool.represents_map h.rows (fun _ => rfl) rfl fun i hi => ?_
      rw [hrow i hi]
      rfl
    · obtain ⟨d, hd, -⟩ := Option.map_eq_some_iff.mp hc
      exact h.ids id d hd
    · refine (hm.unlink (unlinked_unfriended h.keyed hm)).keep fun x _ hx => ?_
      unfold Chars.there at hx ⊢
      rwa [ne_eq, Option.map_eq_none_iff]
    · unfold Chars.there
      rw [ne_eq, Option.map_eq_none_iff]

/-! ## Deletions -/

theorem neighbours_without (m : Chars) (a : Int) :
    (m.without fun z => z = a).neighbours = fun x => if x = a then [] else m.neighbours x := by
  funext x
  unfold Chars.neighbours Chars.without
  by_cases hx : x = a
  · rw [if_pos hx]
    simp [hx]
  · rw [if_neg hx]
    dsimp only
    rw [if_neg (by simpa using hx)]
    cases m x with
    | none => rfl
    | some c =>
      unfold Chars.divorce
      rw [Option.map_some]
      split <;> rfl

theorem there_without (a : Int) :
    (m.without fun z => z = a).there x ↔ m.there x ∧ x ≠ a := by
  unfold Chars.there Chars.without
  by_cases hx : x = a
  · simp [hx]
  · simp [hx]

theorem neighbours_without_friendless (ha : m.neighbours a = []) :
    (m.without fun z => z = a).neighbours = m.neighbours := by
  rw [neighbours_without]
  funext x
  split
  · rename_i hx
    rw [hx, ha]
  · rfl

/-- **A deletion** leaves the lists mutual if the character had no friends. -/
theorem mutual_without (hm : m.Mutual) (ha : m.neighbours a = []) :
    (m.without fun z => z = a).Mutual := by
  unfold Chars.Mutual
  rw [neighbours_without_friendless ha]
  refine hm.keep fun x hx hthere => there_without a |>.mpr ⟨hthere, ?_⟩
  rintro rfl
  exact hx ha

/-- Otherwise a friend still has it. -/
theorem friendless_of_ok (hm : m.Mutual)
    (h' : TableOk s' (m.without fun z => z = a)) (hok : FriendsOk s') : m.neighbours a = [] := by
  rw [← hm.gone_iff]
  rintro x b hb hxa rfl
  have hthere : (m.without fun z => z = b).there x := there_without b |>.mpr ⟨hm.alive x b hb, hxa⟩
  obtain ⟨i, hi⟩ := h'.there_iff.mp hthere
  have hlist := h'.neighbours_at hi
  rw [neighbours_without] at hlist
  dsimp only at hlist
  rw [if_neg hxa] at hlist
  rw [hlist] at hb
  obtain ⟨j, hj, hid⟩ := hok.alive i hi.lt b hb
  have hgone := h'.there_iff.mpr ⟨j, hj, hid⟩
  exact (there_without b |>.mp hgone).2 rfl

end Lists

/-! ## The friends' file -/

section File

variable {s : CharServer} {l : List Int} {z : Int} {G : Int → List Int}

theorem length_ofInt_le (h : IsInt z) : (ofInt z).length ≤ 11 := by
  obtain ⟨hlo, hhi⟩ := h
  have habs : (ofNat z.natAbs).length ≤ 10 := length_ofNat_le_of_lt (by omega) (by omega)
  unfold ofInt
  split
  · rw [List.length_cons]
    omega
  · omega

theorem printInts_cons (z : Int) (l : List Int) :
    printInts (z :: l) = ofInt z ++ if l = [] then [] else 44 :: printInts l := by
  cases l with
  | nil => exact (List.append_nil _).symm
  | cons y l =>
    rw [if_neg (List.cons_ne_nil y l)]
    rfl

theorem length_printInts_le (h : ∀ z ∈ l, IsInt z) :
    (printInts l).length ≤ 12 * l.length := by
  induction l with
  | nil => exact le_rfl
  | cons z l ih =>
    have hz := length_ofInt_le (h z List.mem_cons_self)
    have hl := ih fun z hz => h z (List.mem_cons_of_mem _ hz)
    rw [printInts_cons, List.length_append, List.length_cons]
    split
    · rw [List.length_nil]
      omega
    · rw [List.length_cons]
      omega

theorem length_le_printInts (l : List Int) : l.length ≤ (printInts l).length := by
  induction l with
  | nil => exact le_rfl
  | cons z l ih =>
    have hz := List.length_pos_iff.mpr (ofInt_ne_nil z)
    rw [printInts_cons, List.length_append, List.length_cons]
    split
    · rename_i hl
      rw [hl, List.length_nil]
      omega
    · rw [List.length_cons]
      omega

theorem atoi_ofInt (h : IsInt z) : atoi (ofInt z) = z := by
  have hscan := scanInt_ofInt (r := []) z noDigit_nil
  rw [List.append_nil] at hscan
  unfold atoi
  rw [hscan]
  dsimp only
  rw [toInt32_of_isInt h, Int32.toInt_ofInt_of_le h.1 h.2]

/-- A number up to a comma or the end. -/
theorem sscanf_number (z : Int) (l : List Int) :
    sscanf [.upto 44] (printInts (z :: l)) =
      ([.text (ofInt z)], some (if l = [] then [] else 44 :: printInts l)) := by
  have hcomma : 44 ∉ ofInt z := notMem_ofInt rfl (by decide)
  rw [printInts_cons]
  split
  · have hall : ∀ b ∈ ofInt z, (decide (b ≠ 44)) = true := fun b hb =>
      decide_eq_true (ne_of_mem_of_not_mem hb hcomma)
    rw [List.append_nil, sscanf_cons_upto, List.takeWhile_eq_self_iff.mpr hall,
      if_neg (ofInt_ne_nil z), List.dropWhile_eq_nil_iff.mpr hall]
    rfl
  · exact sscanf_upto (ofInt_ne_nil z) hcomma

/-- **The ids of a list read back.** -/
theorem readIds_printInts {a : Int} {c : UInt8} {n : Nat} {acc : List Friend} {changed : Bool}
    (hn : l.length ≤ n) (hint : ∀ f ∈ l, IsInt f) (hself : a ∉ l)
    (hnodup : (friendIds acc ++ l).Nodup) (hroom : acc.length + l.length ≤ maxFriends)
    (hthere : ∀ f ∈ l, ∃ k, charIndex s (fun c => c.charId = f) = some k) :
    ∃ l', friendIds l' = l ∧
      readIds s a n (if l = [] then [] else c :: printInts l) (acc, changed) =
        (acc ++ l', changed) := by
  induction l generalizing n acc c with
  | nil =>
    refine ⟨[], rfl, ?_⟩
    cases n with
    | zero => simp [readIds]
    | succ n => simp [readIds]
  | cons f l ih =>
    rw [List.length_cons] at hn hroom
    obtain ⟨n, rfl⟩ : ∃ k, n = k + 1 := ⟨n - 1, by omega⟩
    obtain ⟨k, hk⟩ := hthere f List.mem_cons_self
    have hnew : ∀ x ∈ acc, x.charId ≠ f := fun x hx hxf => by
      have hdisjoint := (List.nodup_append.mp hnodup).2.2 f (List.mem_map.mpr ⟨x, hx, hxf⟩) f
        List.mem_cons_self
      exact hdisjoint rfl
    have hne : a ≠ f := fun haf => hself (haf ▸ List.mem_cons_self)
    have hread : readFriend s a f (acc, changed) =
        (acc ++ [{ friendOf (s.charDat k) with charId := f }], changed) := by
      unfold readFriend
      rw [if_neg, hk]
      rintro (h | h)
      · obtain ⟨x, hx, hxf⟩ := List.any_eq_true.mp h
        exact hnew x hx (of_decide_eq_true hxf)
      · exact hne h
    have hnodup' :
        (friendIds (acc ++ [{ friendOf (s.charDat k) with charId := f }]) ++ l).Nodup := by
      simpa [friendIds] using hnodup
    have hroom' : (acc ++ [{ friendOf (s.charDat k) with charId := f }]).length + l.length ≤
        maxFriends := by
      rw [List.length_append, List.length_singleton]
      omega
    obtain ⟨l', hl', hrest⟩ := ih (n := n) (c := 44) (by omega)
      (fun f hf => hint f (List.mem_cons_of_mem _ hf)) (fun h => hself (List.mem_cons_of_mem _ h))
      hnodup' hroom' (fun f hf => hthere f (List.mem_cons_of_mem _ hf))
    refine ⟨{ friendOf (s.charDat k) with charId := f } :: l', ?_, ?_⟩
    · rw [friendIds, List.map_cons]
      exact congrArg (f :: ·) hl'
    · rw [if_neg (List.cons_ne_nil f l), readIds, if_neg (by
        rintro (h | h)
        · cases h
        · dsimp only at h
          omega), List.tail_cons, sscanf_number]
      dsimp only
      rw [atoi_ofInt (hint f List.mem_cons_self), hread, hrest, List.append_assoc]
      rfl

/-- The line of a list. -/
def entryLine (e : Int × List Int) : List UInt8 := ofInt e.1 ++ 9 :: printInts e.2

theorem notMem_entryLine {e : Int × List Int} {c : UInt8} (hdigit : isDigit c = false)
    (hsign : c ≠ 45) (hcomma : c ≠ 44) (htab : c ≠ 9) : c ∉ entryLine e := by
  unfold entryLine
  rw [List.mem_append, List.mem_cons]
  rintro (h | h | h)
  · exact notMem_ofInt hdigit hsign h
  · exact htab h
  · exact notMem_printInts hdigit hsign hcomma h

/-- **The line of a list reads back.** -/
theorem parseFriendLine_entry {e : Int × List Int} {i : Nat} {r : FriendsRead}
    (hr : r.checked = true) (hid : IsInt e.1) (hi : charIndex s (fun c => c.charId = e.1) = some i)
    (hint : ∀ f ∈ e.2, IsInt f) (hself : e.1 ∉ e.2) (hnodup : e.2.Nodup)
    (hroom : e.2.length ≤ maxFriends) (hne : e.2 ≠ [])
    (hthere : ∀ f ∈ e.2, ∃ k, charIndex s (fun c => c.charId = f) = some k) :
    ∃ l', friendIds l' = e.2 ∧ parseFriendLine s r (entryLine e ++ [10]) =
      { r with friendDat := Function.update r.friendDat i l' } := by
  have hlength : e.2.length ≤ (9 :: printInts e.2).length := by
    rw [List.length_cons]
    exact (length_le_printInts e.2).trans (Nat.le_succ _)
  have hnodup' : (friendIds [] ++ e.2).Nodup := hnodup
  have hroom' : ([] : List Friend).length + e.2.length ≤ maxFriends := by
    rw [List.length_nil]
    omega
  obtain ⟨l', hl', hread⟩ :=
    @readIds_printInts s e.2 e.1 9 _ [] r.changed hlength hint hself hnodup' hroom' hthere
  rw [if_neg hne, List.nil_append] at hread
  refine ⟨l', hl', ?_⟩
  obtain ⟨b, bs, hb⟩ := List.exists_cons_of_ne_nil (ofInt_ne_nil e.1)
  have hhead (c : UInt8) (hdigit : isDigit c = false) (hsign : c ≠ 45) : b ≠ c := by
    rintro rfl
    exact notMem_ofInt (z := e.1) hdigit hsign (hb ▸ List.mem_cons_self)
  have htrim : trimEnd (entryLine e ++ [10]) = entryLine e :=
    trimEnd_line fun c hc => ⟨by
      rintro rfl
      exact notMem_entryLine rfl (by decide) (by decide) (by decide) hc, by
      rintro rfl
      exact notMem_entryLine rfl (by decide) (by decide) (by decide) hc⟩
  have hline : entryLine e = b :: (bs ++ 9 :: printInts e.2) := by
    rw [entryLine, hb]
    rfl
  have hscan : sscanf [.int] (entryLine e) =
      ([.int (Int32.ofInt e.1)], some (9 :: printInts e.2)) :=
    sscanf_int hid (noDigit_cons.mpr rfl)
  unfold parseFriendLine
  rw [if_neg, hr]
  · dsimp only
    rw [if_pos rfl, htrim, hscan]
    dsimp only
    rw [Int32.toInt_ofInt_of_le hid.1 hid.2, hi]
    dsimp only
    rw [if_pos List.head?_cons, hread]
  · rw [hline]
    rintro (h | h | h | h)
    · exact hhead 47 rfl (by decide) (List.cons.inj h).1
    · cases h
    · exact hhead 10 rfl (by decide) (Option.some.inj h)
    · exact hhead 13 rfl (by decide) (Option.some.inj h)

/-! ## The whole file -/

/-- The file of some lists. -/
def friendsFile (entries : List (Int × List Int)) : List UInt8 :=
  (friendsHeader ++ entries.map entryLine).flatMap fun l => l ++ [10]

/-- The file holds lists by id. Without a file they are empty. -/
def Filed (file : Option (List UInt8)) (G : Int → List Int) : Prop :=
  ∃ entries : List (Int × List Int),
    (file = none ∧ entries = [] ∨ file = some (friendsFile entries)) ∧
      (entries.map Prod.fst).Nodup ∧ (∀ e ∈ entries, e.2 ≠ []) ∧
      ∀ x, G x = (entries.lookup x).getD []

theorem lines_flatMap {lines : List (List UInt8)} (h : ∀ l ∈ lines, 10 ∉ l ∧ l.length ≤ 1022) :
    linesOfFile (lines.flatMap fun l => l ++ [10]) = lines.map fun l => l ++ [10] := by
  induction lines with
  | nil => rfl
  | cons l lines ih =>
    obtain ⟨hl, hlen⟩ := h l List.mem_cons_self
    rw [List.flatMap_cons, List.map_cons, List.append_assoc, List.singleton_append,
      linesOfFile_short hl hlen, ih fun l hl => h l (List.mem_cons_of_mem _ hl)]

theorem lookup_eq_some_of_mem {entries : List (Int × List Int)} (h : (entries.map Prod.fst).Nodup)
    {e : Int × List Int} (he : e ∈ entries) : entries.lookup e.1 = some e.2 := by
  induction entries with
  | nil => cases he
  | cons d entries ih =>
    rw [List.map_cons, List.nodup_cons] at h
    rw [List.lookup_cons]
    obtain rfl | he := List.mem_cons.mp he
    · rw [beq_self_eq_true]
    · have hne : (e.1 == d.1) = false := beq_eq_false_iff_ne.mpr fun heq =>
        h.1 (heq ▸ List.mem_map_of_mem he)
      rw [hne]
      exact ih h.2 he

theorem lookup_eq_none_of_notMem {entries : List (Int × List Int)} {x : Int}
    (h : x ∉ entries.map Prod.fst) : entries.lookup x = none := by
  rw [List.lookup_eq_none_iff]
  intro e he
  exact bne_iff_ne.mpr fun heq => h (List.mem_map.mpr ⟨e, he, heq.symm⟩)

/-- The ids of the table. -/
def CharServer.Has (s : CharServer) (x : Int) : Prop := ∃ i < s.charNum, (s.charDat i).charId = x

/-- Every character of the table stands under one index, and its id is an `int`. -/
structure IdsOk (s : CharServer) : Prop where
  once : ∀ i < s.charNum, ∀ j < s.charNum, (s.charDat i).charId = (s.charDat j).charId → i = j
  int : ∀ i < s.charNum, IsInt (s.charDat i).charId

theorem IdsOk.index (h : IdsOk s) {i : Nat} (hi : i < s.charNum) :
    charIndex s (fun c => c.charId = (s.charDat i).charId) = some i := by
  cases hs : charIndex s fun c => c.charId = (s.charDat i).charId with
  | none => simpa using charIndex_none hs hi
  | some j =>
    obtain ⟨hj, hid⟩ := charIndex_some hs
    exact congrArg some (h.once j hj i hi (of_decide_eq_true hid))

/-- **The lines of some lists read back**, over the lists that have been read before. -/
theorem parse_entries (hs : IdsOk s) {entries : List (Int × List Int)} {r : FriendsRead}
    (hr : r.checked = true) (hkeys : (entries.map Prod.fst).Nodup)
    (hentry : ∀ e ∈ entries, e.2 ≠ [] ∧ e.2.Nodup ∧ e.2.length ≤ maxFriends ∧ e.1 ∉ e.2 ∧
      s.Has e.1 ∧ ∀ f ∈ e.2, s.Has f) :
    ∃ dat : Nat → List Friend,
      (entries.map fun e => entryLine e ++ [10]).foldl (parseFriendLine s) r =
        { r with friendDat := dat } ∧
      ∀ i < s.charNum, friendIds (dat i) =
        (entries.lookup (s.charDat i).charId).getD (friendIds (r.friendDat i)) := by
  induction entries generalizing r with
  | nil => exact ⟨r.friendDat, rfl, fun i _ => rfl⟩
  | cons e entries ih =>
    rw [List.map_cons, List.nodup_cons] at hkeys
    obtain ⟨hne, hnodup, hroom, hself, ⟨i, hi, hid⟩, hthere⟩ := hentry e List.mem_cons_self
    have hhas {f : Int} (hf : s.Has f) :
        IsInt f ∧ ∃ k, charIndex s (fun c => c.charId = f) = some k := by
      obtain ⟨k, hk, rfl⟩ := hf
      exact ⟨hs.int k hk, k, hs.index hk⟩
    obtain ⟨l', hl', hline⟩ := parseFriendLine_entry (s := s) (e := e) (i := i) (r := r) hr
      (hid ▸ hs.int i hi) (hid ▸ hs.index hi) (fun f hf => (hhas (hthere f hf)).1) hself hnodup
      hroom hne (fun f hf => (hhas (hthere f hf)).2)
    obtain ⟨dat, hdat, hlook⟩ := @ih { r with friendDat := Function.update r.friendDat i l' } hr
      hkeys.2 fun e he => hentry e (List.mem_cons_of_mem _ he)
    refine ⟨dat, ?_, fun j hj => ?_⟩
    · rw [List.map_cons, List.foldl_cons, hline]
      exact hdat
    · rw [hlook j hj, List.lookup_cons]
      by_cases hji : j = i
      · subst hji
        rw [hid, lookup_eq_none_of_notMem hkeys.1, beq_self_eq_true]
        dsimp only
        rw [Function.update_self]
        exact hl'
      · have hne : ((s.charDat j).charId == e.1) = false := beq_eq_false_iff_ne.mpr fun heq =>
          hji (hs.once j hj i hi (heq.trans hid.symm))
        rw [hne]
        dsimp only
        rw [Function.update_of_ne hji]

theorem asciiBytes_ofList (l : List Char) :
    asciiBytes (String.ofList l) = l.map fun c => UInt8.ofNat c.toNat := by
  rw [asciiBytes, String.toList_ofList]

/-- The lines of the header are short, and those before the check are comments or empty. -/
theorem mem_friendsHeader :
    (∀ l ∈ friendsHeader, 10 ∉ l ∧ l.length ≤ 1022) ∧
      ∀ l ∈ (friendsHeader.take 5).map fun l => l ++ [10],
        l.take 2 = [47, 47] ∨ l = [] ∨ l.head? = some 10 ∨ l.head? = some 13 := by
  unfold friendsHeader
  repeat rw [asciiBytes_ofList]
  decide

/-- The lines before the lists. -/
theorem parse_header (s : CharServer) :
    (friendsHeader.map fun l => l ++ [10]).foldl (parseFriendLine s) {} =
      { checked := true } := by
  have hvalue :
      checkedValue (trimEnd (asciiBytes "friend_of_friend_checked: 1" ++ [10])) = some 1 := by
    decide
  have hskip (lines : List (List UInt8)) (r : FriendsRead)
      (h : ∀ l ∈ lines, l.take 2 = [47, 47] ∨ l = [] ∨ l.head? = some 10 ∨ l.head? = some 13) :
      lines.foldl (parseFriendLine s) r = r := by
    induction lines with
    | nil => rfl
    | cons l lines ih =>
      rw [List.foldl_cons, parseFriendLine, if_pos (h l List.mem_cons_self)]
      exact ih fun l hl => h l (List.mem_cons_of_mem _ hl)
  have hchecked : parseFriendLine s {} (asciiBytes "friend_of_friend_checked: 1" ++ [10]) =
      { checked := true } := by
    unfold parseFriendLine
    rw [if_neg (by decide)]
    dsimp only
    rw [if_neg (by decide), hvalue]
    rfl
  have hsplit : (friendsHeader.map fun l => l ++ [10]) =
      ((friendsHeader.take 5).map fun l => l ++ [10]) ++
        [asciiBytes "friend_of_friend_checked: 1" ++ [10], [10]] := rfl
  have hfirst : ((friendsHeader.take 5).map fun l => l ++ [10]).foldl (parseFriendLine s) {} = {} :=
    hskip _ _ mem_friendsHeader.2
  rw [hsplit, List.foldl_append, hfirst, List.foldl_cons, hchecked]
  exact hskip [[10]] _ (by decide)

/-- **The file reads back.** -/
theorem parseFriendTxt_filed (hs : IdsOk s) {file : Option (List UInt8)} (hfile : Filed file G)
    (hG : Neighbours.Mutual maxFriends s.Has G) :
    (parseFriendTxt s file).changed = false ∧
      ∀ i < s.charNum,
        friendIds ((parseFriendTxt s file).friendDat i) = G (s.charDat i).charId := by
  obtain ⟨entries, ⟨rfl, rfl⟩ | rfl, hkeys, hne, hlook⟩ := hfile
  · exact ⟨rfl, fun i hi => (hlook _).symm⟩
  · have hlist {e : Int × List Int} (he : e ∈ entries) : G e.1 = e.2 := by
      rw [hlook, lookup_eq_some_of_mem hkeys he]
      rfl
    have hentry : ∀ e ∈ entries, e.2 ≠ [] ∧ e.2.Nodup ∧ e.2.length ≤ maxFriends ∧ e.1 ∉ e.2 ∧
        s.Has e.1 ∧ ∀ f ∈ e.2, s.Has f := by
      intro e he
      obtain ⟨f, hf⟩ := List.exists_mem_of_ne_nil _ (hne e he)
      rw [← hlist he] at hf ⊢
      exact ⟨List.ne_nil_of_mem hf, hG.nodup _, hG.room _, hG.irrefl _, hG.alive _ f hf,
        fun f hf => hG.alive_right hf⟩
    have hhas {f : Int} (hf : s.Has f) : IsInt f := by
      obtain ⟨k, hk, rfl⟩ := hf
      exact hs.int k hk
    have hlines : linesOfFile (friendsFile entries) =
        (friendsHeader.map fun l => l ++ [10]) ++ entries.map fun e => entryLine e ++ [10] := by
      unfold friendsFile
      rw [lines_flatMap, List.map_append, List.map_map]
      · rfl
      · intro l hl
        obtain hl | hl := List.mem_append.mp hl
        · exact mem_friendsHeader.1 l hl
        · obtain ⟨e, he, rfl⟩ := List.mem_map.mp hl
          refine ⟨notMem_entryLine rfl (by decide) (by decide) (by decide), ?_⟩
          obtain ⟨-, -, hroom, -, hid, hthere⟩ := hentry e he
          have h1 := length_ofInt_le (hhas hid)
          have h2 := length_printInts_le fun f hf => hhas (hthere f hf)
          unfold maxFriends at hroom
          rw [entryLine, List.length_append, List.length_cons]
          omega
    obtain ⟨dat, hdat, hread⟩ := parse_entries hs (r := { checked := true }) rfl hkeys hentry
    have hparse : parseFriendTxt s (some (friendsFile entries)) =
        { checked := true, friendDat := dat } := by
      unfold parseFriendTxt
      dsimp only
      rw [hlines, List.foldl_append, parse_header, hdat]
      rfl
    rw [hparse]
    refine ⟨rfl, fun i hi => ?_⟩
    rw [hread i hi, hlook]
    rfl

end File

/-! ## Saving -/

section Save

variable {s : CharServer} {m : Chars}

theorem triRapideCharId_perm (s : CharServer) :
    (triRapideCharId s).Perm (List.range s.charNum) := by
  unfold triRapideCharId
  split
  · exact HoareSort.sort_perm ..
  · rfl

theorem triRapide_perm (s : CharServer) : (triRapide s).Perm (List.range s.charNum) := by
  unfold triRapide
  dsimp only
  split
  · exact HoareSort.sort_perm ..
  · rfl

/-- In any order of the table, every id stands once. -/
theorem TableOk.ids_nodup (h : TableOk s m) {order : List Nat}
    (horder : order.Perm (List.range s.charNum)) :
    (order.map fun i => (s.charDat i).charId).Nodup := by
  refine List.Nodup.map_on (fun i hi j hj hij => ?_) (horder.nodup_iff.mpr List.nodup_range)
  exact h.rows.inj (List.mem_range.mp (horder.mem_iff.mp hi))
    (List.mem_range.mp (horder.mem_iff.mp hj)) hij

theorem TableOk.mem_ids (h : TableOk s m) {order : List Nat}
    (horder : order.Perm (List.range s.charNum)) {x : Int} :
    x ∈ order.map (fun i => (s.charDat i).charId) ↔ m.there x := by
  rw [h.there_iff, List.mem_map]
  constructor
  · rintro ⟨i, hi, rfl⟩
    exact ⟨i, at_self (List.mem_range.mp (horder.mem_iff.mp hi))⟩
  · rintro ⟨i, hi⟩
    exact ⟨i, horder.mem_iff.mpr (List.mem_range.mpr hi.lt), hi.key⟩

/-- The list of an index, if it is written. -/
def entryOf (s : CharServer) (i : Nat) : Option (Int × List Int) :=
  if s.friendDat i = [] then none else some ((s.charDat i).charId, friendIds (s.friendDat i))

theorem entryOf_some {i : Nat} {e : Int × List Int} (h : entryOf s i = some e) :
    s.friendDat i ≠ [] ∧ e = ((s.charDat i).charId, friendIds (s.friendDat i)) := by
  unfold entryOf at h
  split at h
  · cases h
  · rename_i hne
    exact ⟨hne, (Option.some.inj h).symm⟩

theorem filterMap_sublist_map {α β : Type} {g : α → Option β} {f : α → β}
    (h : ∀ a b, g a = some b → b = f a) (l : List α) : (l.filterMap g).Sublist (l.map f) := by
  induction l with
  | nil => exact .slnil
  | cons a l ih =>
    rw [List.map_cons]
    cases hg : g a with
    | none =>
      rw [List.filterMap_cons_none hg]
      exact ih.cons _
    | some b =>
      rw [List.filterMap_cons_some hg, h a b hg]
      exact ih.cons_cons _

/-- **The file holds the lists.** -/
theorem filed_sync (h : TableOk s m) : Filed (some (mmoFriendSync s)) m.neighbours := by
  have horder := triRapideCharId_perm s
  have hids := h.ids_nodup horder
  have hkeys : (((triRapideCharId s).filterMap (entryOf s)).map Prod.fst).Nodup := by
    rw [List.map_filterMap]
    refine (filterMap_sublist_map (fun i x hx => ?_) _).nodup hids
    obtain ⟨e, he, rfl⟩ := Option.map_eq_some_iff.mp hx
    rw [(entryOf_some he).2]
  refine ⟨(triRapideCharId s).filterMap (entryOf s), .inr ?_, hkeys, fun e he => ?_, fun x => ?_⟩
  · unfold mmoFriendSync friendsFile
    rw [List.map_filterMap]
    congr 4
    funext i
    unfold friendLine entryOf
    split <;> rfl
  · obtain ⟨i, -, hi⟩ := List.mem_filterMap.mp he
    obtain ⟨hne, rfl⟩ := entryOf_some hi
    exact fun hnil => hne (List.map_eq_nil_iff.mp hnil)
  · by_cases hx : m.there x
    · obtain ⟨i, hi⟩ := h.there_iff.mp hx
      have hid : (s.charDat i).charId = x := hi.key
      rw [h.neighbours_at hi]
      by_cases hnil : s.friendDat i = []
      · rw [lookup_eq_none_of_notMem, hnil]
        · rfl
        · intro hmem
          obtain ⟨e, he, rfl⟩ := List.mem_map.mp hmem
          obtain ⟨j, hj, hej⟩ := List.mem_filterMap.mp he
          obtain ⟨hne, rfl⟩ := entryOf_some hej
          have hij : j = i := h.rows.inj (List.mem_range.mp (horder.mem_iff.mp hj)) hi.lt hid.symm
          exact hne (hij ▸ hnil)
      · have hmem : ((s.charDat i).charId, friendIds (s.friendDat i)) ∈
            (triRapideCharId s).filterMap (entryOf s) :=
          List.mem_filterMap.mpr ⟨i, horder.mem_iff.mpr (List.mem_range.mpr hi.lt), if_neg hnil⟩
        have hlook := lookup_eq_some_of_mem hkeys hmem
        dsimp only at hlook
        rw [← hid, hlook]
        rfl
    · rw [lookup_eq_none_of_notMem]
      · unfold Chars.neighbours
        rw [not_not.mp hx]
        rfl
      · intro hmem
        obtain ⟨e, he, rfl⟩ := List.mem_map.mp hmem
        obtain ⟨j, hj, hej⟩ := List.mem_filterMap.mp he
        obtain ⟨-, rfl⟩ := entryOf_some hej
        exact hx (h.there_iff.mpr ⟨j, at_self (List.mem_range.mp (horder.mem_iff.mp hj))⟩)

end Save

/-! ## Starting -/

section Start

/-- The records of a file: every id stands once, and is a positive `int`. -/
def CharsOk (chars : List CharStatus) : Prop :=
  (chars.map CharStatus.charId).Nodup ∧ ∀ c ∈ chars, 0 < c.charId ∧ c.charId < 2 ^ 31

instance (chars : List CharStatus) : Decidable (CharsOk chars) :=
  inferInstanceAs (Decidable (_ ∧ _))

variable {chars : List CharStatus} {newid : Int} {G : Int → List Int}

theorem readChars_charDat {i : Nat} (hi : i < chars.length) :
    (readChars chars newid).charDat i = chars[i] := by
  unfold readChars
  dsimp only
  rw [List.getD_eq_getElem?_getD, List.getElem?_eq_getElem hi]
  rfl

theorem readChars_ids : (List.range chars.length).map
    (fun i => ((readChars chars newid).charDat i).charId) = chars.map CharStatus.charId := by
  refine List.ext_getElem (by simp) fun i hi _ => ?_
  rw [List.length_map, List.length_range] at hi
  rw [List.getElem_map, List.getElem_map, List.getElem_range, readChars_charDat hi]

theorem readChars_idsOk (h : CharsOk chars) : IdsOk (readChars chars newid) := by
  refine ⟨fun i hi j hj hij => ?_, fun i hi => ?_⟩
  · have hi' : i < chars.length := hi
    have hj' : j < chars.length := hj
    rw [readChars_charDat hi', readChars_charDat hj'] at hij
    have hsame := List.inj_on_of_nodup_map h.1 (List.getElem_mem hi') (List.getElem_mem hj') hij
    exact (List.Nodup.getElem_inj_iff (List.Nodup.of_map _ h.1)).mp hsame
  · have hi' : i < chars.length := hi
    rw [readChars_charDat hi']
    obtain ⟨hpos, hlt⟩ := h.2 _ (List.getElem_mem hi')
    exact ⟨by omega, hlt⟩

theorem readChars_has {x : Int} :
    (readChars chars newid).Has x ↔ x ∈ chars.map CharStatus.charId := by
  rw [← @readChars_ids chars newid, List.mem_map]
  unfold CharServer.Has
  constructor
  · rintro ⟨i, hi, hid⟩
    exact ⟨i, List.mem_range.mpr hi, hid⟩
  · rintro ⟨i, hi, hid⟩
    exact ⟨i, List.mem_range.mp hi, hid⟩

theorem foldl_counter (n : Int) :
    n ≤ chars.foldl (fun n c => max n (c.charId + 1)) n ∧
      ∀ c ∈ chars, c.charId < chars.foldl (fun n c => max n (c.charId + 1)) n := by
  induction chars generalizing n with
  | nil => simp
  | cons c chars ih =>
    obtain ⟨hn, hlt⟩ := ih (max n (c.charId + 1))
    rw [List.foldl_cons]
    refine ⟨(le_max_left _ _).trans hn, fun d hd => ?_⟩
    obtain rfl | hd := List.mem_cons.mp hd
    · have hmax := le_max_right n (d.charId + 1)
      omega
    · exact hlt d hd

/-- **The table with the lists that have been read.** -/
theorem tableOk_init (h : CharsOk chars) {dat : Nat → List Friend}
    (hdat : ∀ i < chars.length, friendIds (dat i) = G ((readChars chars newid).charDat i).charId)
    (hG : Neighbours.Mutual maxFriends (· ∈ chars.map CharStatus.charId) G) :
    ∃ m, TableOk { readChars chars newid with friendDat := dat } m ∧ m.neighbours = G ∧
      ∀ x, m.there x ↔ x ∈ chars.map CharStatus.charId := by
  let s : CharServer := { readChars chars newid with friendDat := dat }
  have hids : ((List.range chars.length).map s.character).map Character.charId =
      chars.map CharStatus.charId := by
    rw [List.map_map]
    exact @readChars_ids chars newid
  have hnum : s.rows.num = ((List.range chars.length).map s.character).length := by
    simp [CharServer.rows, s, readChars]
  have hrep := @Pool.represents_ofList _ _ Character.charId s.rows _
    ((List.range chars.length).map s.character) (hids ▸ h.1) hnum
    (fun i hi => by simp [CharServer.rows])
  let m : Chars := fun k => ((List.range chars.length).map s.character).find? fun c => c.charId = k
  have hthere (x : Int) : m.there x ↔ x ∈ chars.map CharStatus.charId := by
    rw [← hids]
    unfold Chars.there
    rw [ne_eq, List.find?_eq_none, List.mem_map]
    simp
  have htable : TableOk s m := by
    refine ⟨hrep, fun id c hc => ?_⟩
    obtain ⟨d, hd, hdid⟩ := List.mem_map.mp ((hthere id).mp fun hnone =>
      Option.some_ne_none c (hc.symm.trans hnone))
    have hcount := (@foldl_counter chars (max 500000 newid)).2 d hd
    exact ⟨hdid ▸ (h.2 d hd).1, hdid ▸ hcount⟩
  refine ⟨_, htable, ?_, hthere⟩
  funext x
  by_cases hx : x ∈ chars.map CharStatus.charId
  · obtain ⟨i, hi⟩ := htable.there_iff.mp ((hthere x).mpr hx)
    rw [htable.neighbours_at hi]
    have hid : ((readChars chars newid).charDat i).charId = x := hi.key
    exact (hdat i hi.lt).trans (congrArg G hid)
  · have hnone := not_not.mp ((hthere x).not.mpr hx)
    have hnil : G x = [] := by
      by_contra hne
      obtain ⟨b, hb⟩ := List.exists_mem_of_ne_nil _ hne
      exact hx (hG.alive x b hb)
    unfold Chars.neighbours
    rw [hnone, hnil]
    rfl

end Start

/-! ## Runs -/

section Runs

variable {w : FriendWorld} {m : Chars}

/-- What holds in every run: the lists are mutual, and so are those in the files. -/
structure FriendInv (w : FriendWorld) (m : Chars) (G : Int → List Int) : Prop where
  table : TableOk w.server m
  mutual_ : m.Mutual
  small : ∀ x, m.there x → x < 2 ^ 31
  saved : CharsOk w.charTxt
  filed : Filed w.friendsTxt G
  kept : Neighbours.Mutual maxFriends (· ∈ w.charTxt.map CharStatus.charId) G
  same : w.changed = false → G = m.neighbours

/-- Two other characters become friends. -/
def FriendWorld.AddsNew (w : FriendWorld) : FriendEvent → Prop
  | .add charId1 charId2 => charId1 ≠ charId2 ∧ ∀ i < w.server.charNum,
      (w.server.charDat i).charId = charId1 → charId2 ∉ friendIds (w.server.friendDat i)
  | _ => True

/-- A character that is deleted has no friends. -/
def FriendWorld.DeletesFriendless (w : FriendWorld) : FriendEvent → Prop
  | .delete _ _ i => i < w.server.charNum → w.server.friendDat i = []
  | _ => True

instance (w : FriendWorld) (e : FriendEvent) : Decidable (w.AddsNew e) := by
  cases e <;> unfold FriendWorld.AddsNew <;> infer_instance

instance (w : FriendWorld) (e : FriendEvent) : Decidable (w.DeletesFriendless e) := by
  cases e <;> unfold FriendWorld.DeletesFriendless <;> infer_instance

/-- The server starts with characters that have no friends. -/
def FriendWorld.start (chars : List CharStatus) (newid : Int) : FriendWorld :=
  mmoCharInit { charTxt := chars, newid := newid }

variable {G : Int → List Int}

theorem friendInv_init (hsaved : CharsOk w.charTxt) (hfiled : Filed w.friendsTxt G)
    (hkept : Neighbours.Mutual maxFriends (· ∈ w.charTxt.map CharStatus.charId) G) :
    ∃ m, FriendInv (mmoCharInit w) m G := by
  have hhas : Neighbours.Mutual maxFriends (readChars w.charTxt w.newid).Has G :=
    hkept.keep fun x _ hx => readChars_has.mpr hx
  obtain ⟨hflag, hdat⟩ := parseFriendTxt_filed (readChars_idsOk hsaved) hfiled hhas
  obtain ⟨m, htable, hsame, hthere⟩ := @tableOk_init _ w.newid _ hsaved _ hdat hkept
  refine ⟨m, htable, ?_, fun x hx => ?_, hsaved, hfiled, hkept, fun _ => hsame.symm⟩
  · unfold Chars.Mutual
    rw [hsame]
    exact hkept.keep fun x _ hx => (hthere x).mpr hx
  · obtain ⟨c, hc, rfl⟩ := List.mem_map.mp ((hthere x).mp hx)
    exact (hsaved.2 c hc).2

theorem FriendInv.save (h : FriendInv w m G) : ∃ G', FriendInv (mmoCharSync w) m G' := by
  have horder := triRapide_perm w.server
  have hids : ((triRapide w.server).map w.server.charDat).map CharStatus.charId =
      (triRapide w.server).map fun i => (w.server.charDat i).charId := List.map_map
  have hsaved : CharsOk ((triRapide w.server).map w.server.charDat) := by
    refine ⟨hids ▸ h.table.ids_nodup horder, fun c hc => ?_⟩
    have hthere : m.there c.charId := by
      rw [← h.table.mem_ids horder, ← hids]
      exact List.mem_map_of_mem hc
    obtain ⟨d, hd⟩ := Option.ne_none_iff_exists'.mp hthere
    exact ⟨(h.table.ids _ d hd).1, h.small _ hthere⟩
  have hkept : Neighbours.Mutual maxFriends
      (· ∈ ((triRapide w.server).map w.server.charDat).map CharStatus.charId) m.neighbours := by
    refine h.mutual_.keep fun x _ hx => ?_
    rw [hids]
    exact (h.table.mem_ids horder).mpr hx
  have hfiled : Filed (mmoCharSync w).friendsTxt m.neighbours := by
    unfold mmoCharSync
    dsimp only
    split
    · exact filed_sync h.table
    · rename_i hflag
      rw [← h.same (Bool.not_eq_true _ ▸ hflag)]
      exact h.filed
  exact ⟨m.neighbours, h.table, h.mutual_, h.small, hsaved, hfiled, hkept, fun _ => rfl⟩

/-- The lists change, and the flag is set. -/
theorem FriendInv.change {s : CharServer} {m' : Chars} (h : FriendInv w m G) (htable : TableOk s m')
    (hm : m'.Mutual) (hthere : ∀ x, m'.there x ↔ m.there x) :
    FriendInv { w with server := s, changed := w.changed || true } m' G :=
  ⟨htable, hm, fun x hx => h.small x ((hthere x).mp hx), h.saved, h.filed, h.kept, fun hflag => by
    rw [Bool.or_true] at hflag
    cases hflag⟩

theorem FriendInv.unchanged {s : CharServer} (h : FriendInv w m G) (htable : TableOk s m) :
    FriendInv { w with server := s, changed := w.changed || false } m G :=
  ⟨htable, h.mutual_, h.small, h.saved, h.filed, h.kept, fun hflag => by
    rw [Bool.or_false] at hflag
    exact h.same hflag⟩

/-- What an event keeps. -/
theorem friendStep_inv {e : FriendEvent} (h : ∃ m G, FriendInv w m G) (hadds : w.AddsNew e)
    (hdeletes : w.DeletesFriendless e) : ∃ m G, FriendInv (friendStep w e) m G := by
  obtain ⟨m, G, h⟩ := h
  cases e with
  | add a b =>
    obtain ⟨hab, hnew⟩ := hadds
    have hnot : b ∉ m.neighbours a := by
      by_cases ha : m.there a
      · obtain ⟨i, hi⟩ := h.table.there_iff.mp ha
        rw [h.table.neighbours_at hi]
        exact hnew i hi.lt hi.key
      · unfold Chars.neighbours
        rw [not_not.mp ha]
        exact List.not_mem_nil
    obtain heq | ⟨hflag, m', htable, hm, hthere⟩ := friendAdded_spec h.table h.mutual_ hab hnot
    · refine ⟨m, G, ?_⟩
      unfold friendStep
      dsimp only
      rw [heq]
      exact h.unchanged h.table
    · refine ⟨m', G, ?_⟩
      unfold friendStep
      dsimp only
      rw [hflag]
      exact h.change htable hm hthere
  | remove a b =>
    obtain ⟨hflag, htable⟩ | ⟨hflag, m', htable, hm, hthere⟩ :=
      friendDeleted_spec h.table h.mutual_ a b
    · refine ⟨m, G, ?_⟩
      unfold friendStep
      dsimp only
      rw [hflag]
      exact h.unchanged htable
    · refine ⟨m', G, ?_⟩
      unfold friendStep
      dsimp only
      rw [hflag]
      exact h.change htable hm hthere
  | delete fd place i =>
    unfold friendStep
    dsimp only
    split
    · rename_i hi
      have hnil : m.neighbours (w.server.charDat i).charId = [] := by
        rw [h.table.neighbours_at (at_self hi), hdeletes hi]
        rfl
      have htable := (removed_deleteFound fd place hi).tableOk h.table
      refine ⟨_, G, htable, mutual_without h.mutual_ hnil,
        fun x hx => h.small x (there_without _ |>.mp hx).1, h.saved, h.filed, h.kept,
        fun hflag => ?_⟩
      rw [neighbours_without_friendless hnil]
      exact h.same hflag
    · exact ⟨m, G, h⟩
  | save =>
    obtain ⟨G', h'⟩ := h.save
    exact ⟨m, G', h'⟩
  | load =>
    obtain ⟨m', h'⟩ := friendInv_init h.saved h.filed h.kept
    exact ⟨m', G, h'⟩

theorem friendStep_ok {e : FriendEvent} (h : ∃ m G, FriendInv w m G) (hadds : w.AddsNew e) :
    FriendsOk (friendStep w e).server ↔ w.DeletesFriendless e := by
  refine ⟨fun hok => ?_, fun hdeletes => ?_⟩
  · obtain ⟨m, G, h⟩ := h
    cases e with
    | delete fd place i =>
      intro hi
      unfold friendStep at hok
      dsimp only at hok
      rw [if_pos hi] at hok
      have htable := (removed_deleteFound fd place hi).tableOk h.table
      have hnil := friendless_of_ok h.mutual_ htable hok
      rw [h.table.neighbours_at (at_self hi)] at hnil
      exact List.map_eq_nil_iff.mp hnil
    | add a b => trivial
    | remove a b => trivial
    | save => trivial
    | load => trivial
  · obtain ⟨m, G, h'⟩ := friendStep_inv h hadds hdeletes
    exact friendsOk_of_mutual h'.table h'.mutual_

end Runs

/-- **The lists stay mutual** if and only if only characters without friends are deleted. -/
theorem friends_exact_iff (chars : List CharStatus) (newid : Int) (hchars : CharsOk chars)
    (es : List FriendEvent)
    (hadds : Run.Meets friendStep FriendWorld.AddsNew (.start chars newid) es) :
    Run.Meets friendStep (fun w e => FriendsOk (friendStep w e).server) (.start chars newid) es ↔
      Run.Meets friendStep FriendWorld.DeletesFriendless (.start chars newid) es := by
  refine Run.meets_iff_of_assumed (I := fun w => ∃ m G, FriendInv w m G)
    (fun _ _ h ha hd => friendStep_inv h ha hd) (fun _ _ h ha => friendStep_ok h ha) ?_ hadds
  obtain ⟨m, h⟩ := friendInv_init (w := { charTxt := chars, newid := newid }) (G := fun _ => [])
    hchars ⟨[], .inl ⟨rfl, rfl⟩, List.nodup_nil, by simp, fun _ => rfl⟩ mutual_nil
  exact ⟨m, _, h⟩

/-- Two characters. -/
def twoChars : List CharStatus := [{ charId := 1, accountId := 1 }, { charId := 2, accountId := 2 }]

theorem friends_exact_two : Run.Meets friendStep
    (fun w e => FriendsOk (friendStep w e).server) (.start twoChars 0)
    [.add 1 2, .save, .load, .remove 2 1, .delete ⟨0, by decide⟩ 0 1, .save, .load] :=
  (friends_exact_iff twoChars 0 (by decide +kernel) _ (by decide +kernel)).mpr (by decide +kernel)

/-- **A character who is deleted stays in the lists of its friends.** -/
theorem deleted_friend_stays :
    ¬ ∀ (chars : List CharStatus) (newid : Int), CharsOk chars → ∀ es : List FriendEvent,
      Run.Meets friendStep FriendWorld.AddsNew (.start chars newid) es →
        Run.Meets friendStep (fun w e => FriendsOk (friendStep w e).server)
          (.start chars newid) es := by
  intro h
  let es : List FriendEvent := [.add 1 2, .delete ⟨0, by decide⟩ 0 1]
  have hok := h twoChars 0 (by decide) es (by decide)
  obtain ⟨j, hj, hid⟩ := hok.2.1.alive 0 (by decide) 2 (by decide)
  obtain rfl : j = 0 := by
    have hnum : (es.foldl friendStep (.start twoChars 0)).server.charNum = 1 := by decide
    change j < (es.foldl friendStep (.start twoChars 0)).server.charNum at hj
    omega
  exact absurd hid (by decide)

end Nezumi
