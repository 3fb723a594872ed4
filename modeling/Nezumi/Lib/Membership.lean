import Mathlib.Data.List.Basic

/-!
# Membership over two channels

A registrar lists the members of groups. The other side keeps, for a member, the group it takes the
member to be in, and copies of the lists. Requests go up and answers come down, each in order. This
is what both sides know about one member.

* `latest`: what the last of the answers under way says. `Comes` is how a belief ends when all
  answers under way have arrived.
* `GroupOk`: the member's group. What the answers make of it is what the registrar lists; where they
  do not, a request under way removes the entry.
* `CopyOk`: the copies. They show nobody that the registrar does not list, and a copy is empty when
  its group is broken up.
* `GroupOk.refuse`: a member may leave a group as soon as it has been added to it.
* `GroupOk.agree`: with nothing under way, both sides agree.
-/

namespace Membership

variable {G : Type*}

/-- A request of the member's side. After `conflict g` no group but `g` lists the member. -/
inductive Up (G : Type*) where
  | join (g : G)
  | leave (g : G)
  | conflict (g : G)

/-- An answer of the registrar. `left g own` is about the member itself or about somebody else that
its side cannot tell from it; `info g listed` is the list of a group. -/
inductive Down (G : Type*) where
  | added (g : G)
  | left (g : G) (own : Bool)
  | info (g : G) (listed : Bool)
  | broken (g : G)

/-! ## The answers under way -/

/-- What the last answer that says something says. -/
def latest (f : Down G → Option Bool) : List (Down G) → Option Bool
  | [] => none
  | d :: ds => (latest f ds).or (f d)

/-- What is believed once the answers have arrived. -/
def Comes (f : Down G → Option Bool) (now : Prop) (ds : List (Down G)) : Prop :=
  latest f ds = some true ∨ latest f ds = none ∧ now

section Answers

variable {f : Down G → Option Bool} {now now' : Prop} {d : Down G} {ds es : List (Down G)}

theorem latest_append : latest f (ds ++ es) = (latest f es).or (latest f ds) := by
  induction ds with
  | nil => simp [latest]
  | cons d ds ih => rw [List.cons_append, latest, latest, ih, Option.or_assoc]

theorem comes_nil : Comes f now [] ↔ now := by simp [Comes, latest]

theorem comes_concat : Comes f now (ds ++ [d]) ↔ f d = some true ∨ f d = none ∧ Comes f now ds := by
  simp only [Comes, latest_append, latest, Option.none_or]
  cases hd : f d <;> simp

theorem comes_cons : Comes f now (d :: ds) ↔ Comes f (f d = some true ∨ f d = none ∧ now) ds := by
  simp only [Comes, latest]
  cases hds : latest f ds <;> simp

theorem Comes.mono (h : Comes f now ds) (hnow : now → now') : Comes f now' ds :=
  h.imp_right fun ⟨hds, hn⟩ => ⟨hds, hnow hn⟩

/-- What one more message says is told last. -/
theorem filterMap_concat {α β : Type*} (f : α → Option β) (l : List α) (x : α) :
    (l ++ [x]).filterMap f = l.filterMap f ++ (f x).toList := by
  rw [List.filterMap_append]
  cases h : f x <;> simp [h]

/-- An answer in a queue that one more answer joins. -/
theorem split_concat {e : Down G} {E : List (Down G)} (h : ds ++ [d] = es ++ e :: E) :
    (es = ds ∧ e = d) ∨ ∃ F, ds = es ++ e :: F := by
  rcases E.eq_nil_or_concat with rfl | ⟨F, x, rfl⟩
  · obtain ⟨rfl, hde⟩ := List.append_inj' h rfl
    exact .inl ⟨rfl, (List.singleton_inj.mp hde).symm⟩
  · rw [List.concat_eq_append, ← List.cons_append, ← List.append_assoc] at h
    exact .inr ⟨F, (List.append_inj' h rfl).1⟩

end Answers

/-! ## The group of the member -/

/-- A request under way removes the member from `g`. -/
def Repaired (g : G) (up : List (Up G)) : Prop :=
  .leave g ∈ up ∨ ∃ r, r ≠ g ∧ .conflict r ∈ up

theorem Repaired.mono {g : G} {up up' : List (Up G)} (h : Repaired g up)
    (hup : ∀ m ∈ up, m ∈ up') : Repaired g up' :=
  h.imp (hup _) fun ⟨r, hr, hm⟩ => ⟨r, hr, hup _ hm⟩

section Group

variable [DecidableEq G]

/-- What an answer says about the member's group. -/
def Down.member (g : G) : Down G → Option Bool
  | .added h => if h = g then some true else none
  | .left h _ => if h = g then some false else none
  | .info .. => none
  | .broken _ => none

/-- The group of the member after an answer. -/
def Down.group (group : Option G) : Down G → Option G
  | .added g => some g
  | .left g _ => if group = some g then none else group
  | .info .. => group
  | .broken _ => group

/-- The group of the member, when the answers have arrived. -/
def Believed (group : Option G) (down : List (Down G)) (g : G) : Prop :=
  Comes (Down.member g) (group = some g) down

/-- What the registrar lists and what the member's side takes for its group. -/
structure GroupOk (listed : G → Prop) (group : Option G) (up : List (Up G)) (down : List (Down G)) :
    Prop where
  told : ∀ g, Believed group down g → listed g
  known : ∀ g, listed g → ¬ Believed group down g →
    latest (Down.member g) down = none ∧ Repaired g up
  gone : ∀ D d E g, down = D ++ d :: E → d = .info g false ∨ d = .broken g → ¬ Believed group D g

variable {listed listed' : G → Prop} {group : Option G} {up up' : List (Up G)}
variable {down : List (Down G)} {g : G} {d : Down G}

/-- With nothing under way, both sides agree. -/
theorem GroupOk.agree (h : GroupOk listed group [] []) (g : G) : group = some g ↔ listed g := by
  have hb : Believed group [] g ↔ group = some g := comes_nil
  refine ⟨fun hg => h.told g (hb.mpr hg), fun hg => ?_⟩
  by_contra hne
  obtain ⟨-, hr | ⟨r, -, hr⟩⟩ := h.known g hg (mt hb.mp hne)
  all_goals cases hr

/-- Agreement with nothing under way is all there is to ask. -/
theorem groupOk_nil (h : ∀ g, group = some g ↔ listed g) (up : List (Up G)) :
    GroupOk listed group up [] := by
  have hb : ∀ g, Believed group [] g ↔ group = some g := fun g => comes_nil
  refine ⟨fun g hg => (h g).mp ((hb g).mp hg), fun g hg hne => ?_, fun D d E g hD => ?_⟩
  · exact absurd ((hb g).mpr ((h g).mpr hg)) hne
  · simp at hD

theorem GroupOk.congr (h : GroupOk listed group up down) (hl : ∀ g, listed' g ↔ listed g) :
    GroupOk listed' group up down := by
  have e : listed' = listed := funext fun g => propext (hl g)
  rwa [e]

/-- More requests. -/
theorem GroupOk.ask (h : GroupOk listed group up down) (hup : ∀ m ∈ up, m ∈ up') :
    GroupOk listed group up' down :=
  ⟨h.told, fun g hg hne => ⟨(h.known g hg hne).1, (h.known g hg hne).2.mono hup⟩, h.gone⟩

/-- The first request has been served. -/
theorem GroupOk.served {m : Up G} (h : GroupOk listed group (m :: up) down)
    (hm : ∀ g, listed g → ¬ Repaired g [m]) : GroupOk listed group up down := by
  refine ⟨h.told, fun g hg hne => ⟨(h.known g hg hne).1, ?_⟩, h.gone⟩
  obtain ⟨-, hr | ⟨r, hr, hc⟩⟩ := h.known g hg hne
  · refine .inl ((List.mem_cons.mp hr).resolve_left fun e => hm g hg (.inl ?_))
    exact List.mem_singleton.mpr e
  · refine .inr ⟨r, hr, (List.mem_cons.mp hc).resolve_left fun e => hm g hg (.inr ⟨r, hr, ?_⟩)⟩
    exact List.mem_singleton.mpr e

/-- One more answer. It says what the lists are after it, and a list without the member or a group
that is broken up does not have the member before it. -/
theorem GroupOk.post (h : GroupOk listed group up down)
    (hd : ∀ g, listed' g ↔ d.member g = some true ∨ d.member g = none ∧ listed g)
    (hgone : ∀ g, d = .info g false ∨ d = .broken g → ¬ listed g) :
    GroupOk listed' group up (down ++ [d]) := by
  have hb : ∀ g, Believed group (down ++ [d]) g ↔
      d.member g = some true ∨ d.member g = none ∧ Believed group down g := fun g => comes_concat
  refine ⟨fun g hg => ?_, fun g hg hne => ?_, fun D e E g hD he => ?_⟩
  · exact (hd g).mpr (((hb g).mp hg).imp_right fun ⟨hn, hg⟩ => ⟨hn, h.told g hg⟩)
  · rw [hb] at hne
    obtain ⟨hn, hg⟩ := ((hd g).mp hg).resolve_left fun ht => hne (.inl ht)
    obtain ⟨hl, hr⟩ := h.known g hg fun hg => hne (.inr ⟨hn, hg⟩)
    refine ⟨?_, hr⟩
    rw [latest_append, hl, latest, latest, hn]
    rfl
  · obtain ⟨rfl, rfl⟩ | ⟨F, hF⟩ := split_concat hD
    · exact fun hg => hgone g he (h.told g hg)
    · exact h.gone D e F g hF he

theorem believed_cons (h : Believed (d.group group) down g) : Believed group (d :: down) g := by
  refine comes_cons.mpr (h.mono fun hg => ?_)
  cases d with
  | added r =>
    cases hg
    exact .inl (if_pos rfl)
  | left r own =>
    rw [Down.group] at hg
    split at hg
    · cases hg
    · rename_i hne
      have hrg : r ≠ g := fun e => hne (by rw [hg, e])
      exact .inr ⟨if_neg hrg, hg⟩
  | info | broken => exact .inr ⟨rfl, hg⟩

/-- An answer arrives. Who is added asks for a check of the other groups. -/
theorem GroupOk.receive (h : GroupOk listed group up (d :: down)) (hup : ∀ m ∈ up, m ∈ up')
    (hadded : ∀ r, d = .added r → .conflict r ∈ up') :
    GroupOk listed (d.group group) up' down := by
  refine ⟨fun g hg => h.told g (believed_cons hg), fun g hg hne => ?_, fun D e E g hD he => ?_⟩
  · by_cases hb : Believed group (d :: down) g
    · -- the belief is lost on the way: the member is now in another group
      have hcons := comes_cons.mp hb
      have hnone : latest (Down.member g) down = none := by
        rcases hcons with ht | ⟨hn, -⟩
        · exact absurd (.inl ht) hne
        · exact hn
      refine ⟨hnone, ?_⟩
      rcases hcons with ht | ⟨-, hcase⟩
      · rw [hnone] at ht
        cases ht
      · have hgroup : d.group group ≠ some g := fun e => hne (.inr ⟨hnone, e⟩)
        cases d with
        | added r =>
          have hrg : r ≠ g := fun e => hgroup (congrArg some e)
          exact .inr ⟨r, hrg, hadded r rfl⟩
        | left r own =>
          simp only [Down.member] at hcase
          split at hcase
          · simp at hcase
          · rename_i hrg
            have hg' : group = some g := by simpa using hcase
            refine absurd ?_ hgroup
            rw [Down.group, hg', if_neg fun e => hrg (Option.some.inj e).symm]
        | info | broken => exact absurd (by simpa [Down.member, Down.group] using hcase) hgroup
    · obtain ⟨hl, hr⟩ := h.known g hg hb
      exact ⟨(Option.or_eq_none_iff.mp hl).1, hr.mono hup⟩
  · refine fun hg => h.gone (d :: D) e E g (by rw [hD]; rfl) he (believed_cons hg)

/-- The member is added to a group that it no longer wants to join, and asks to leave it. -/
theorem GroupOk.refuse {r : G} (h : GroupOk listed group up (.added r :: down))
    (hup : ∀ m ∈ up, m ∈ up') (hleave : .leave r ∈ up') : GroupOk listed group up' down := by
  have hcons : ∀ {ds g}, Believed group ds g → Believed group (.added r :: ds) g := by
    intro ds g hg
    refine comes_cons.mpr (hg.mono fun hg => ?_)
    by_cases hr : r = g
    · exact .inl (if_pos hr)
    · exact .inr ⟨if_neg hr, hg⟩
  refine ⟨fun g hg => h.told g (hcons hg), fun g hg hne => ?_, fun D e E g hD he hg => ?_⟩
  · by_cases hb : Believed group (.added r :: down) g
    · -- the group that is left again is the only one that is believed for this answer
      rcases comes_cons.mp hb with ht | ⟨hn, ht | ht⟩
      · exact absurd (.inl ht) hne
      · simp only [Down.member, ite_eq_left_iff, reduceCtorEq, imp_false, not_not] at ht
        exact ⟨hn, .inl (ht ▸ hleave)⟩
      · exact absurd (.inr ⟨hn, ht.2⟩) hne
    · obtain ⟨hl, hr⟩ := h.known g hg hb
      exact ⟨(Option.or_eq_none_iff.mp hl).1, hr.mono hup⟩
  · exact h.gone (.added r :: D) e E g (by rw [hD]; rfl) he (hcons hg)

/-- The list without the member, or the end of a group, finds the member elsewhere. -/
theorem GroupOk.elsewhere (h : GroupOk listed group up (d :: down))
    (hd : d = .info g false ∨ d = .broken g) : group ≠ some g :=
  fun hg => h.gone [] d down g rfl hd (comes_nil.mpr hg)

end Group

/-! ## The copies of the lists -/

section Copy

variable [DecidableEq G]

/-- What an answer does to the copy of a list. -/
def Down.copied (g : G) : Down G → Option Bool
  | .added _ => none
  | .left h own => if h = g ∧ own = true then some false else none
  | .info h listed => if h = g then some listed else none
  | .broken h => if h = g then some false else none

/-- The copy of a list, when the answers have arrived. -/
def Shown (copy : G → Prop) (down : List (Down G)) (g : G) : Prop :=
  Comes (Down.copied g) (copy g) down

/-- What the registrar lists and what the copies show. -/
structure CopyOk (listed copy : G → Prop) (down : List (Down G)) : Prop where
  shown : ∀ g, Shown copy down g → listed g
  cleared : ∀ D g E, down = D ++ .broken g :: E → ¬ Shown copy D g

variable {listed listed' copy copy' : G → Prop} {down : List (Down G)} {g : G} {d : Down G}

theorem copyOk_nil (h : ∀ g, copy g → listed g) : CopyOk listed copy [] :=
  ⟨fun g hg => h g (comes_nil.mp hg), fun D g E hD => by simp at hD⟩

theorem CopyOk.mono (h : CopyOk listed copy down) (hl : ∀ g, listed g → listed' g) :
    CopyOk listed' copy down :=
  ⟨fun g hg => hl g (h.shown g hg), h.cleared⟩

theorem CopyOk.sub (h : CopyOk listed copy down) (hcopy : ∀ g, copy' g → copy g) :
    CopyOk listed copy' down :=
  ⟨fun g hg => h.shown g (hg.mono (hcopy g)), fun D g E hD hg => h.cleared D g E hD (hg.mono (hcopy g))⟩

/-- One more answer. It shows who is listed after it, and whoever it does not mention stays. -/
theorem CopyOk.post (h : CopyOk listed copy down)
    (hd : ∀ g, d.copied g = some true → listed' g)
    (hstay : ∀ g, d.copied g = none → listed g → listed' g)
    (hbroken : ∀ g, d = .broken g → ¬ listed g) : CopyOk listed' copy (down ++ [d]) := by
  refine ⟨fun g hg => ?_, fun D g E hD => ?_⟩
  · rcases comes_concat.mp hg with ht | ⟨hn, hg⟩
    · exact hd g ht
    · exact hstay g hn (h.shown g hg)
  · obtain ⟨rfl, e⟩ | ⟨F, hF⟩ := split_concat hD
    · exact fun hg => hbroken g e.symm (h.shown g hg)
    · exact h.cleared D g F hF

/-- An answer arrives. -/
theorem CopyOk.receive (h : CopyOk listed copy (d :: down))
    (hcopy : ∀ g, copy' g → d.copied g = some true ∨ d.copied g = none ∧ copy g) :
    CopyOk listed copy' down := by
  have hs : ∀ D g, Shown copy' D g → Shown copy (d :: D) g := fun D g hg =>
    comes_cons.mpr (hg.mono (hcopy g))
  refine ⟨fun g hg => h.shown g (hs _ _ hg), fun D g E hD hg => ?_⟩
  exact h.cleared (d :: D) g E (by rw [hD]; rfl) (hs _ _ hg)

/-- A group that is broken up has an empty copy. -/
theorem CopyOk.empty (h : CopyOk listed copy (.broken g :: down)) : ¬ copy g :=
  fun hg => h.cleared [] g down rfl (comes_nil.mpr hg)

end Copy

end Membership
