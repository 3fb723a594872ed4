import Mathlib.Data.List.Basic
import Mathlib.Tactic.Common

/-!
# Packets in a stream

A stream comes in parts of any size, and a packet may be torn anywhere. `Framing` says what the
elements at the front of a stream are: a packet, something that is none, or too few of them to
know. More of the stream does not change an answer.

* `Framing.split`: the packets of a stream, and what is left behind them.
* `split_of_bad`: behind something that is no packet there is none.
* `split_flatten`: the packets of a stream that begins with packets are these, and those behind.
-/

/-- What is at the front of a stream. -/
inductive Front
  | more
  | bad
  | packet (len : ℕ)
deriving DecidableEq

/-- A way to find the packets of a stream. -/
structure Framing (α : Type*) where
  front : List α → Front
  pos : ∀ {xs n}, front xs = .packet n → 0 < n
  fits : ∀ {xs n}, front xs = .packet n → n ≤ xs.length
  packet_append : ∀ {xs n} (ys), front xs = .packet n → front (xs ++ ys) = .packet n
  bad_append : ∀ {xs} (ys), front xs = .bad → front (xs ++ ys) = .bad

namespace Framing

variable {α : Type*} (F : Framing α)

/-- The packets of a stream, and what is left behind them. -/
def split (xs : List α) : List (List α) × List α :=
  match _ : F.front xs with
  | .packet n =>
    let r := split (xs.drop n)
    (xs.take n :: r.1, r.2)
  | _ => ([], xs)
termination_by xs.length
decreasing_by
  rename_i h
  have hpos := F.pos h
  have hfits := F.fits h
  rw [List.length_drop]
  omega

/-- There is no packet at the front. -/
def Stuck (xs : List α) : Prop := ∀ n, F.front xs ≠ .packet n

section Split

variable {F} {xs ys : List α} {n : ℕ}

theorem split_of_packet (h : F.front xs = .packet n) : F.split xs =
    (xs.take n :: (F.split (xs.drop n)).1, (F.split (xs.drop n)).2) := by
  rw [split]
  split
  · rename_i m hm
    rw [h] at hm
    obtain rfl := Front.packet.inj hm
    rfl
  · rename_i hne
    exact absurd h (hne n)

theorem split_of_stuck (h : F.Stuck xs) : F.split xs = ([], xs) := by
  rw [split]
  split
  · rename_i m hm
    exact absurd hm (h m)
  · rfl

/-- Behind something that is no packet there is none. -/
theorem split_of_bad (h : F.front xs = .bad) (ys : List α) :
    F.split (xs ++ ys) = ([], xs ++ ys) := by
  apply split_of_stuck
  intro n hn
  rw [F.bad_append ys h] at hn
  cases hn

/-- Packets, each of which is there as a whole. -/
def Whole (F : Framing α) (ps : List (List α)) : Prop := ∀ p ∈ ps, F.front p = .packet p.length

/-- **A stream of packets is split into them.** -/
theorem split_flatten {ps : List (List α)} (h : F.Whole ps) (ys : List α) :
    F.split (ps.flatten ++ ys) = (ps ++ (F.split ys).1, (F.split ys).2) := by
  induction ps with
  | nil => rfl
  | cons p ps ih =>
    rw [Whole, List.forall_mem_cons] at h
    have hfront : F.front (p ++ (ps.flatten ++ ys)) = .packet p.length := F.packet_append _ h.1
    rw [List.flatten_cons, List.append_assoc, split_of_packet hfront, List.take_left,
      List.drop_left, ih h.2]
    rfl

end Split

end Framing
