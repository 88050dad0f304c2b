import Mathlib.Data.Set.Insert
import Mathlib.Order.Bounds.Basic
import Wired.Lib.Word

/-!
# Received packet numbers

The sliding window of `recvpn.c`: the largest packet number recorded in a packet number space and
a bitmap of the 64 numbers below it. Bit `i` stands for the packet number `largest - 1 - i`. The
window keeps a set of recorded numbers (`Recvpn.Represents`), also of those the bitmap has no room
for any more; `recvpnSeen_iff` says for which of them it still answers.
-/

namespace Wired.Transport

open Lib

/-- `RECVPN_WINDOW`: packets below `largest` tracked in the bitmap. -/
def recvpnWindow : Nat := 64

/-- Sliding window of received packet numbers for one packet number space. -/
structure Recvpn where
  largest : Nat
  bitmap : BitVec 64
  any : Bool
deriving DecidableEq, Repr

def recvpnInit : Recvpn := { largest := 0, bitmap := 0, any := false }

def belowSeen (r : Recvpn) (pn : Nat) : Bool :=
  let delta := r.largest - pn
  if delta > recvpnWindow then false else (r.bitmap >>> (delta - 1)).getLsbD 0

def seenAtOrAbove (r : Recvpn) (pn : Nat) : Bool :=
  if pn = r.largest then true else if pn > r.largest then false else belowSeen r pn

def recvpnSeen (r : Recvpn) (pn : Nat) : Bool :=
  if r.any then seenAtOrAbove r pn else false

def recvpnAdvance (r : Recvpn) (pn : Nat) : Recvpn :=
  let step := pn - r.largest
  let shifted := if step ≥ 64 then 0 else r.bitmap <<< step
  let oldBit := if step ≤ 64 then (1 : BitVec 64) <<< (step - 1) else 0
  { r with bitmap := shifted ||| oldBit, largest := pn }

def markBelow (r : Recvpn) (pn : Nat) : Recvpn :=
  let delta := r.largest - pn
  if delta = 0 ∨ delta > recvpnWindow then r
  else { r with bitmap := r.bitmap ||| (1 : BitVec 64) <<< (delta - 1) }

def recvpnRecord (r : Recvpn) (pn : Nat) : Recvpn :=
  if !r.any then { r with any := true, largest := pn }
  else if pn > r.largest then recvpnAdvance r pn
  else markBelow r pn

/-! ## The set a window stands for -/

/-- The window `r` was reached by recording exactly the numbers of `R`. -/
structure Recvpn.Represents (r : Recvpn) (R : Set Nat) : Prop where
  any_iff : r.any = true ↔ R.Nonempty
  greatest : R.Nonempty → IsGreatest R r.largest
  bit_iff : ∀ i < 64, r.bitmap.getLsbD i = true ↔ ∃ pn ∈ R, pn + i + 1 = r.largest

variable {r : Recvpn} {R : Set Nat}

theorem recvpnInit_represents : recvpnInit.Represents ∅ where
  any_iff := by simp [recvpnInit]
  greatest := by simp
  bit_iff := by simp [recvpnInit]

section

variable (h : r.Represents R)
include h

theorem belowSeen_iff {pn : Nat} (hpn : pn < r.largest) :
    belowSeen r pn = true ↔ pn ∈ R ∧ r.largest ≤ pn + recvpnWindow := by
  unfold belowSeen recvpnWindow
  by_cases hd : r.largest - pn > 64
  · simp only [hd, if_true]
    constructor
    · simp
    · rintro ⟨-, hle⟩
      omega
  · simp only [hd, if_false, BitVec.getLsbD_ushiftRight, add_zero]
    rw [h.bit_iff _ (by omega)]
    constructor
    · rintro ⟨q, hq, he⟩
      obtain rfl : q = pn := by omega
      exact ⟨hq, by omega⟩
    · rintro ⟨hmem, -⟩
      exact ⟨pn, hmem, by omega⟩

/-- **What the window remembers.** A number is found as seen if and only if it was recorded and is
at most `recvpnWindow` below the largest recorded number. -/
theorem recvpnSeen_iff (pn : Nat) :
    recvpnSeen r pn = true ↔ pn ∈ R ∧ r.largest ≤ pn + recvpnWindow := by
  unfold recvpnSeen
  by_cases hany : r.any = true
  · have hg := h.greatest (h.any_iff.mp hany)
    simp only [hany, if_true, seenAtOrAbove]
    split
    · rename_i heq
      subst heq
      simpa using hg.1
    · split
      · simp only [Bool.false_eq_true, false_iff, not_and]
        intro hmem
        exact absurd (hg.2 hmem) (by omega)
      · exact belowSeen_iff h (by omega)
  · have hempty : R = ∅ := by
      rw [← Set.not_nonempty_iff_eq_empty]
      exact fun hne => hany (h.any_iff.mpr hne)
    simp [hany, hempty]

theorem recvpnAdvance_represents (hne : R.Nonempty) {pn : Nat}
    (hpn : r.largest < pn) : (recvpnAdvance r pn).Represents (insert pn R) where
  any_iff := by
    simp only [recvpnAdvance, Set.insert_nonempty, iff_true]
    exact h.any_iff.mpr hne
  greatest := by
    intro _
    refine ⟨Set.mem_insert _ _, ?_⟩
    rintro q (rfl | hq)
    · exact le_rfl
    · exact le_trans ((h.greatest hne).2 hq) (le_of_lt hpn)
  bit_iff := by
    intro i hi
    have hmax := h.greatest hne
    -- a number of the new window is the old largest one or lies below it
    have hold : (∃ q ∈ insert pn R, q + i + 1 = pn) ↔
        r.largest + i + 1 = pn ∨ ∃ q ∈ R, q < r.largest ∧ q + i + 1 = pn := by
      constructor
      · rintro ⟨q, rfl | hq, he⟩
        · omega
        · rcases Nat.eq_or_lt_of_le (hmax.2 hq) with rfl | hlt
          · exact Or.inl he
          · exact Or.inr ⟨q, hq, hlt, he⟩
      · rintro (he | ⟨q, hq, -, he⟩)
        · exact ⟨_, Set.mem_insert_of_mem _ hmax.1, he⟩
        · exact ⟨q, Set.mem_insert_of_mem _ hq, he⟩
    have hshift : (if pn - r.largest ≥ 64 then 0 else r.bitmap <<< (pn - r.largest)).getLsbD i =
        true ↔ ∃ q ∈ R, q < r.largest ∧ q + i + 1 = pn := by
      split
      · simp only [BitVec.ofNat_eq_ofNat, BitVec.getLsbD_zero, Bool.false_eq_true, false_iff]
        rintro ⟨q, -, hlt, he⟩
        omega
      · simp only [BitVec.getLsbD_shiftLeft, hi, decide_true, Bool.true_and, Bool.and_eq_true,
          Bool.not_eq_eq_eq_not, Bool.not_true, decide_eq_false_iff_not]
        constructor
        · rintro ⟨hle, hb⟩
          obtain ⟨q, hq, he⟩ := (h.bit_iff _ (by omega)).mp hb
          exact ⟨q, hq, by omega, by omega⟩
        · rintro ⟨q, hq, hlt, he⟩
          exact ⟨by omega, (h.bit_iff _ (by omega)).mpr ⟨q, hq, by omega⟩⟩
    have hbit : (if pn - r.largest ≤ 64 then (1 : BitVec 64) <<< (pn - r.largest - 1)
        else 0).getLsbD i = true ↔ r.largest + i + 1 = pn := by
      split
      · rw [BitVec.ofNat_eq_ofNat, getLsbD_one_shiftLeft (by omega), decide_eq_true_eq]
        omega
      · simp only [BitVec.ofNat_eq_ofNat, BitVec.getLsbD_zero, Bool.false_eq_true, false_iff]
        omega
    simp only [recvpnAdvance, BitVec.getLsbD_or, Bool.or_eq_true, hshift, hbit, hold]
    exact Or.comm

theorem markBelow_represents (hne : R.Nonempty) {pn : Nat}
    (hpn : pn ≤ r.largest) : (markBelow r pn).Represents (insert pn R) := by
  have hmax := h.greatest hne
  have hlargest : (markBelow r pn).largest = r.largest := by
    unfold markBelow
    dsimp only
    split <;> rfl
  refine ⟨?_, ?_, ?_⟩
  · have hany : (markBelow r pn).any = r.any := by
      unfold markBelow
      dsimp only
      split <;> rfl
    simp only [hany, Set.insert_nonempty, iff_true]
    exact h.any_iff.mpr hne
  · intro _
    rw [hlargest]
    refine ⟨Set.mem_insert_of_mem _ hmax.1, ?_⟩
    rintro q (rfl | hq)
    · exact hpn
    · exact hmax.2 hq
  · intro i hi
    rw [hlargest]
    have hsplit : (∃ q ∈ insert pn R, q + i + 1 = r.largest) ↔
        pn + i + 1 = r.largest ∨ ∃ q ∈ R, q + i + 1 = r.largest := by
      constructor
      · rintro ⟨q, rfl | hq, he⟩
        · exact Or.inl he
        · exact Or.inr ⟨q, hq, he⟩
      · rintro (he | ⟨q, hq, he⟩)
        · exact ⟨pn, Set.mem_insert _ _, he⟩
        · exact ⟨q, Set.mem_insert_of_mem _ hq, he⟩
    rw [hsplit, ← h.bit_iff i hi]
    unfold markBelow recvpnWindow
    dsimp only
    split
    · constructor
      · exact Or.inr
      · rintro (he | hb)
        · omega
        · exact hb
    · rw [BitVec.getLsbD_or, Bool.or_eq_true, BitVec.ofNat_eq_ofNat,
        getLsbD_one_shiftLeft (by omega), decide_eq_true_eq, or_comm]
      exact or_congr (by omega) Iff.rfl

theorem recvpnRecord_represents (pn : Nat) : (recvpnRecord r pn).Represents (insert pn R) := by
  unfold recvpnRecord
  by_cases hany : r.any = true
  · have hne := h.any_iff.mp hany
    simp only [hany, Bool.not_true, Bool.false_eq_true, if_false]
    split
    · exact recvpnAdvance_represents h hne (by omega)
    · exact markBelow_represents h hne (by omega)
  · have hempty : R = ∅ := by
      rw [← Set.not_nonempty_iff_eq_empty]
      exact fun hne => hany (h.any_iff.mpr hne)
    subst hempty
    simp only [hany, Bool.not_false, if_true]
    refine ⟨by simp, ?_, ?_⟩
    · intro _
      simp
    · intro i hi
      have hzero := h.bit_iff i hi
      simp only [Set.mem_empty_iff_false, false_and, exists_false, iff_false] at hzero
      simp only [hzero, Bool.false_eq_true, insert_empty_eq, Set.mem_singleton_iff,
        exists_eq_left, false_iff]
      omega

end

end Wired.Transport
