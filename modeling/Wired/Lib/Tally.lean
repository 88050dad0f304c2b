import Mathlib.Algebra.BigOperators.Group.Finset.Piecewise
import Mathlib.Algebra.Order.BigOperators.Group.Finset

/-!
# Sums over the slots of a table

A table has `n` slots, and what is in a slot has a weight. A running total of the weights is kept
right when each write to a slot changes it by what the write changes there (`tally_update`).
-/

namespace Wired.Lib

open Finset

variable {α : Type*} (w : α → Nat) (n : Nat) (f : Nat → α)

def tally : Nat := ∑ i ∈ range n, w (f i)

variable {w n f}

theorem le_tally {i : Nat} (hi : i < n) : w (f i) ≤ tally w n f :=
  single_le_sum_of_canonicallyOrdered (f := fun i => w (f i)) (mem_range.mpr hi)

theorem tally_update {i : Nat} (hi : i < n) (v : α) :
    tally w n (Function.update f i v) + w (f i) = tally w n f + w v := by
  have hmem : i ∈ range n := mem_range.mpr hi
  have hweights : ∀ j, w (Function.update f i v j) =
      Function.update (fun k => w (f k)) i (w v) j :=
    fun j => Function.apply_update (fun _ => w) f i v j
  have hrest := sum_erase_add (range n) (fun k => w (f k)) hmem
  unfold tally
  rw [sum_congr rfl fun j _ => hweights j, sum_update_of_mem hmem,
    sdiff_singleton_eq_erase]
  omega

theorem tally_le {c : Nat} (h : ∀ i < n, w (f i) ≤ c) : tally w n f ≤ n * c := by
  calc tally w n f ≤ (range n).card * c :=
        sum_le_card_nsmul _ _ _ fun i hi => h i (mem_range.mp hi)
    _ = n * c := by rw [card_range]

theorem tally_eq_zero (h : ∀ i < n, w (f i) = 0) : tally w n f = 0 :=
  sum_eq_zero fun i hi => h i (mem_range.mp hi)

end Wired.Lib
