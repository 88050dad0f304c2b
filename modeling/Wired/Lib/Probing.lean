import Mathlib.Data.Finset.Card
import Mathlib.Algebra.Order.Group.Nat

/-!
# Linear probing

A key has a home bucket, and the buckets are tried from there one after the other, around the end.
`firstFree` is the search for a bucket to put a key in, and `Reaches` says that a search for the key
gets to a bucket. A search for a free bucket ends if fewer than `nb` buckets are taken
(`firstFree_of_card`), and what a search gets to stays so while buckets are only added
(`Reaches.mono`).
-/

namespace Wired.Lib

open Finset

variable {taken taken' : Nat → Prop} {nb home b : Nat}

/-- The first bucket from `b` on that is not taken; none after `fuel` buckets. -/
def firstFree (taken : Nat → Prop) [DecidablePred taken] (nb : Nat) : Nat → Nat → Option Nat
  | 0, _ => none
  | fuel + 1, b =>
    if taken b then firstFree taken nb fuel (if b + 1 < nb then b + 1 else 0) else some b

def Reaches (taken : Nat → Prop) (nb home b : Nat) : Prop :=
  ∃ k < nb, b = (home + k) % nb ∧ ∀ j < k, taken ((home + j) % nb)

theorem Reaches.mono (h : Reaches taken nb home b) (hsub : ∀ b, taken b → taken' b) :
    Reaches taken' nb home b := by
  obtain ⟨k, hk, hb, hall⟩ := h
  exact ⟨k, hk, hb, fun j hj => hsub _ (hall j hj)⟩

theorem probe_succ (hhome : home < nb) :
    (if home + 1 < nb then home + 1 else 0) = (home + 1) % nb := by
  split
  · rw [Nat.mod_eq_of_lt ‹_›]
  · rw [show home + 1 = nb by omega, Nat.mod_self]

theorem firstFree_of_free [DecidablePred taken] {fuel k : Nat} (hhome : home < nb)
    (hk : k < fuel) (hfree : ¬ taken ((home + k) % nb)) :
    ∃ j ≤ k, firstFree taken nb fuel home = some ((home + j) % nb) ∧
      ¬ taken ((home + j) % nb) ∧ ∀ i < j, taken ((home + i) % nb) := by
  induction fuel generalizing home k with
  | zero => omega
  | succ fuel ih =>
    have hself : (home + 0) % nb = home := Nat.mod_eq_of_lt hhome
    unfold firstFree
    by_cases htaken : taken home
    · obtain ⟨k, rfl⟩ : ∃ m, k = m + 1 := by
        cases k with
        | zero => exact absurd (hself.symm ▸ htaken) hfree
        | succ m => exact ⟨m, rfl⟩
      have hnext : (home + 1) % nb < nb := Nat.mod_lt _ (by omega)
      have hshift : ∀ i, ((home + 1) % nb + i) % nb = (home + (i + 1)) % nb := by
        intro i
        rw [Nat.mod_add_mod, add_assoc, add_comm 1]
      obtain ⟨j, hj, hfirst, hfree', hall⟩ :=
        ih hnext (Nat.lt_of_succ_lt_succ hk) (by rw [hshift]; exact hfree)
      rw [if_pos htaken, probe_succ hhome]
      refine ⟨j + 1, by omega, by rw [hfirst, hshift], by rw [← hshift]; exact hfree', ?_⟩
      intro i hi
      cases i with
      | zero => rwa [hself]
      | succ i => exact hshift i ▸ hall i (by omega)
    · rw [if_neg htaken]
      refine ⟨0, zero_le, by rw [hself], by rwa [hself], fun i hi => absurd hi ?_⟩
      omega

theorem exists_probe (hhome : home < nb) (hb : b < nb) : ∃ k < nb, (home + k) % nb = b := by
  refine ⟨(b + (nb - home)) % nb, Nat.mod_lt _ (by omega), ?_⟩
  rw [Nat.add_mod_mod, show home + (b + (nb - home)) = b + nb by omega, Nat.add_mod_right,
    Nat.mod_eq_of_lt hb]

theorem firstFree_of_card [DecidablePred taken] (hhome : home < nb)
    (hcard : ((range nb).filter taken).card < nb) :
    ∃ b, firstFree taken nb nb home = some b ∧ ¬ taken b ∧ Reaches taken nb home b := by
  obtain ⟨b, hb, hfree⟩ : ∃ b < nb, ¬ taken b := by
    by_contra hnone
    have hall : (range nb).filter taken = range nb := by
      apply filter_true_of_mem
      intro b hb
      by_contra hfree
      exact hnone ⟨b, mem_range.mp hb, hfree⟩
    rw [hall, card_range] at hcard
    exact lt_irrefl _ hcard
  obtain ⟨k, hk, rfl⟩ := exists_probe hhome hb
  obtain ⟨j, hj, hfirst, hfree', hall⟩ := firstFree_of_free hhome hk hfree
  exact ⟨_, hfirst, hfree', j, by omega, rfl, hall⟩

theorem card_taken_succ [DecidablePred taken] [DecidablePred taken']
    (hsub : ∀ b', taken' b' → b' = b ∨ taken b') :
    ((range nb).filter taken').card ≤ ((range nb).filter taken).card + 1 := by
  have hinsert : (range nb).filter taken' ⊆ insert b ((range nb).filter taken) := by
    intro b' hb'
    rw [mem_filter] at hb'
    rw [mem_insert, mem_filter]
    exact (hsub b' hb'.2).imp_right fun h => ⟨hb'.1, h⟩
  exact (card_le_card hinsert).trans (card_insert_le _ _)

end Wired.Lib
