import Mathlib.Data.List.Basic
import Mathlib.Algebra.BigOperators.Group.List.Basic
import Mathlib.Data.Nat.ModEq

/-!
# Rings and bounded queues

`RingHolds cells cap start l`: a ring of `cap` cells holds the list `l` from position `start` on.
Positions count on without end and are taken modulo `cap`, so that removing an element at the front
only moves `start`. `trim size limit need l` is what a queue of bounded total size keeps of `l` when
`need` more is to fit in.
-/

namespace Wired.Lib

open List

variable {α : Type*}

def RingHolds (cells : Nat → α) (cap start : Nat) (l : List α) : Prop :=
  ∀ i x, l[i]? = some x → cells ((start + i) % cap) = x

namespace RingHolds

variable {cells : Nat → α} {cap start : Nat} {l : List α}

theorem nil (cells : Nat → α) (cap start : Nat) : RingHolds cells cap start [] := by
  intro i x h
  simp at h

theorem append_iff {l₁ l₂ : List α} :
    RingHolds cells cap start (l₁ ++ l₂) ↔
      RingHolds cells cap start l₁ ∧ RingHolds cells cap (start + l₁.length) l₂ := by
  constructor
  · intro h
    refine ⟨fun i x hx => h i x ?_, fun i x hx => ?_⟩
    · rw [getElem?_append_left (List.getElem?_eq_some_iff.mp hx).1]
      exact hx
    · have := h (l₁.length + i) x (by rw [getElem?_append_right (by omega)]; simpa using hx)
      rwa [← add_assoc] at this
  · intro h i x hx
    by_cases hi : i < l₁.length
    · rw [getElem?_append_left hi] at hx
      exact h.1 i x hx
    · rw [getElem?_append_right (by omega)] at hx
      have := h.2 (i - l₁.length) x hx
      rwa [show start + l₁.length + (i - l₁.length) = start + i by omega] at this

section

variable (h : RingHolds cells cap start l)
include h

theorem congr_start {start' : Nat}
    (hs : start' % cap = start % cap) : RingHolds cells cap start' l := by
  intro i x hx
  rw [Nat.add_mod, hs, ← Nat.add_mod]
  exact h i x hx

theorem congr_cells {cells' : Nat → α} (hcap : 0 < cap)
    (hc : ∀ i < cap, cells' i = cells i) : RingHolds cells' cap start l := by
  intro i x hx
  rw [hc _ (Nat.mod_lt _ hcap)]
  exact h i x hx

/-- Writing a cell behind the list, while the ring is not full, leaves the list in place. -/
theorem update_of_lt {k : Nat} (hk : l.length ≤ k) (hcap : k < cap) (x : α) :
    RingHolds (Function.update cells ((start + k) % cap) x) cap start l := by
  intro i y hy
  have hi := (List.getElem?_eq_some_iff.mp hy).1
  rw [Function.update_of_ne]
  · exact h i y hy
  · intro he
    -- two positions less than one round apart are different cells
    have hik := (Nat.ModEq.add_left_cancel' start he).eq_of_lt_of_lt (by omega) hcap
    omega

theorem push (hcap : l.length < cap) (x : α) :
    RingHolds (Function.update cells ((start + l.length) % cap) x) cap start (l ++ [x]) := by
  refine append_iff.mpr ⟨h.update_of_lt le_rfl hcap x, ?_⟩
  intro i y hy
  have hi := (List.getElem?_eq_some_iff.mp hy).1
  obtain rfl : i = 0 := by simpa using hi
  simp only [getElem?_cons_zero, Option.some.injEq] at hy
  rw [add_zero, Function.update_self, hy]

/-- Every cell in use holds an element: the first cells of a ring that never wrapped, or all of a
full one. -/
theorem mem_iff (hcap : 0 < cap) (hcover : start = 0 ∧ l.length ≤ cap ∨ l.length = cap) (x : α) :
    (∃ i < l.length, cells i = x) ↔ x ∈ l := by
  constructor
  · rintro ⟨i, hi, rfl⟩
    rcases hcover with ⟨rfl, hle⟩ | hfull
    · have hcell := h i _ (getElem?_eq_getElem hi)
      rw [zero_add, Nat.mod_eq_of_lt (by omega)] at hcell
      rw [hcell]
      exact getElem_mem hi
    · have hs := Nat.mod_lt start hcap
      have hj : (i + (cap - start % cap)) % cap < l.length := by
        rw [hfull]
        exact Nat.mod_lt _ hcap
      have hback : (start + (i + (cap - start % cap)) % cap) % cap = i := by
        rw [Nat.add_mod_mod, ← Nat.mod_add_mod, show start % cap + (i + (cap - start % cap)) =
          i + cap by omega, Nat.add_mod_right, Nat.mod_eq_of_lt (by omega)]
      have hcell := h _ _ (getElem?_eq_getElem hj)
      rw [hback] at hcell
      rw [hcell]
      exact getElem_mem hj
  · intro hx
    obtain ⟨i, hi, rfl⟩ := mem_iff_getElem.mp hx
    have hcell := h i _ (getElem?_eq_getElem hi)
    refine ⟨(start + i) % cap, ?_, hcell⟩
    rcases hcover with ⟨rfl, hle⟩ | hfull
    · rw [zero_add, Nat.mod_eq_of_lt (by omega)]
      exact hi
    · rw [hfull]
      exact Nat.mod_lt _ hcap

end

/-- In a full ring a new element takes the cell of the oldest one. -/
theorem push_full {y : α} (h : RingHolds cells cap start (y :: l)) (hfull : l.length + 1 = cap)
    (x : α) :
    RingHolds (Function.update cells (start % cap) x) cap (start + 1) (l ++ [x]) := by
  have hsplit : RingHolds cells cap start ([y] ++ l) := h
  have htail : RingHolds cells cap (start + 1) l := (append_iff.mp hsplit).2
  have hpush := htail.push (by omega) x
  rwa [show start + 1 + l.length = start + cap by omega, Nat.add_mod_right] at hpush

end RingHolds

/-! ## Queues of bounded total size -/

def totalSize (size : α → Nat) (l : List α) : Nat := (l.map size).sum

@[simp] theorem totalSize_nil (size : α → Nat) : totalSize size [] = 0 := rfl

@[simp] theorem totalSize_cons (size : α → Nat) (x : α) (l : List α) :
    totalSize size (x :: l) = size x + totalSize size l := by
  simp [totalSize]

@[simp] theorem totalSize_append (size : α → Nat) (l₁ l₂ : List α) :
    totalSize size (l₁ ++ l₂) = totalSize size l₁ + totalSize size l₂ := by
  simp [totalSize]

def trim (size : α → Nat) (limit need : Nat) : List α → List α
  | [] => []
  | x :: xs => if totalSize size (x :: xs) + need > limit then trim size limit need xs else x :: xs

variable (size : α → Nat) (limit need : Nat)

theorem trim_suffix (l : List α) : trim size limit need l <:+ l := by
  induction l with
  | nil => exact suffix_refl _
  | cons x xs ih =>
    unfold trim
    split
    · exact ih.trans (suffix_cons x xs)
    · exact suffix_refl _

theorem trim_fits (hneed : need ≤ limit) (l : List α) :
    totalSize size (trim size limit need l) + need ≤ limit := by
  induction l with
  | nil => simpa [trim] using hneed
  | cons x xs ih =>
    unfold trim
    split
    · exact ih
    · omega

theorem trim_of_fits {l : List α} (h : totalSize size l + need ≤ limit) :
    trim size limit need l = l := by
  cases l with
  | nil => rfl
  | cons x xs =>
    unfold trim
    rw [if_neg (by omega)]

/-- What is left is the longest end of the queue that fits. -/
theorem trim_longest (hneed : need ≤ limit) (l : List α) (k : Nat) :
    l.length - (trim size limit need l).length ≤ k ↔ totalSize size (l.drop k) + need ≤ limit := by
  induction l generalizing k with
  | nil => simpa [trim] using hneed
  | cons x xs ih =>
    have hle := (trim_suffix size limit need xs).length_le
    unfold trim
    split
    · cases k with
      | zero =>
        rw [drop_zero, length_cons]
        omega
      | succ k =>
        rw [drop_succ_cons, ← ih k, length_cons]
        omega
    · have hdrop : totalSize size ((x :: xs).drop k) ≤ totalSize size (x :: xs) := by
        conv_rhs => rw [← take_append_drop k (x :: xs), totalSize_append]
        exact Nat.le_add_left _ _
      omega

end Wired.Lib
