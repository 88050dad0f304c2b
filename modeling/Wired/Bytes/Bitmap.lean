import Wired.Lib.Window

/-!
# Bitmaps over byte arrays

`bits.h`: bit `i` is bit `i % 8` of byte `i / 8`. The receive windows mark with it which bytes of a
stream have arrived. A bitmap slides down a byte at a time and in place; `bitsGet_shiftDown` says
what is marked then.
-/

namespace Wired.Bytes

open Lib List

abbrev Bitmap := Nat → BitVec 8

def bitsGet (m : Bitmap) (i : Nat) : Bool := (m (i / 8) >>> (i % 8)).getLsbD 0

def bitsSet (m : Bitmap) (i : Nat) (v : Bool) : Bitmap :=
  Function.update m (i / 8)
    ((m (i / 8) &&& ~~~(1#8 <<< (i % 8))) ||| ((if v then 1#8 else 0#8) <<< (i % 8)))

def bitsSetRun (m : Bitmap) (lo hi : Nat) : Bitmap :=
  (List.range' lo (hi - lo)).foldl (fun m i => bitsSet m i true) m

/-- Sets `n` bits from `lo` on: whole bytes at once, the bits around them one by one. -/
def bitsFill (m : Bitmap) (lo n : Nat) : Bitmap :=
  let hi := lo + n
  let a := min ((lo + 7) / 8 * 8) hi
  let b := max (hi / 8 * 8) a
  let m := bitsSetRun m lo a
  let m := writeCells m (a / 8) (List.replicate ((b - a) / 8) 0xff)
  bitsSetRun m b hi

/-- The byte, 0 past the `nb` bytes of the bitmap. -/
def bitsByteAt (m : Bitmap) (nb i : Nat) : BitVec 8 := if i < nb then m i else 0

/-- The byte that comes to stand at position `k` when the bitmap slides down by `n`. -/
def shiftedByte (nb n : Nat) (m : Bitmap) (k : Nat) : BitVec 8 :=
  let two := bitsByteAt m nb (k + n / 8 + 1) ++ bitsByteAt m nb (k + n / 8)
  (two >>> (n % 8)).setWidth 8

def bitsShiftDown (m : Bitmap) (nbits n : Nat) : Bitmap :=
  (List.range (nbits / 8)).foldl
    (fun m k => Function.update m k (shiftedByte (nbits / 8) n m k)) m

variable {i nbits : Nat}

section

variable (m : Bitmap)

theorem bitsGet_eq (i : Nat) : bitsGet m i = (m (i / 8)).getLsbD (i % 8) := by
  simp [bitsGet]

theorem bitsGet_set (i j : Nat) (v : Bool) :
    bitsGet (bitsSet m i v) j = if j = i then v else bitsGet m j := by
  rw [bitsGet_eq, bitsGet_eq, bitsSet, Function.update_apply]
  by_cases hbyte : j / 8 = i / 8
  · have hj := Nat.mod_lt j (show 8 > 0 by decide)
    have hi := Nat.mod_lt i (show 8 > 0 by decide)
    by_cases hij : j = i
    · subst j
      cases v <;> simp [hi]
    · have hne : j % 8 ≠ i % 8 := by omega
      rw [if_neg hij]
      rcases Nat.lt_or_gt_of_ne hne with hlt | hgt
      · cases v <;> simp [hj, hlt, hbyte]
      · have h1 : j % 8 - i % 8 ≠ 0 := by omega
        cases v <;> simp [hj, hbyte, h1]
  · rw [if_neg hbyte, if_neg (by rintro rfl; exact hbyte rfl)]

theorem bitsGet_setRun (lo hi i : Nat) :
    bitsGet (bitsSetRun m lo hi) i = (bitsGet m i || decide (lo ≤ i ∧ i < hi)) := by
  have hrun : ∀ (n lo : Nat) (m : Bitmap),
      bitsGet ((List.range' lo n).foldl (fun m i => bitsSet m i true) m) i =
        (bitsGet m i || decide (lo ≤ i ∧ i < lo + n)) := by
    intro n
    induction n with
    | zero =>
      intro lo m
      have hnone : ¬ (lo ≤ i ∧ i < lo + 0) := by omega
      rw [decide_eq_false hnone, Bool.or_false]
      rfl
    | succ n ih =>
      intro lo m
      rw [range'_succ, foldl_cons, ih, bitsGet_set]
      by_cases hi : i = lo
      · simp [hi]
      · have hiff : (lo + 1 ≤ i ∧ i < lo + 1 + n) ↔ (lo ≤ i ∧ i < lo + (n + 1)) := by omega
        rw [if_neg hi, decide_eq_decide.mpr hiff]
  rw [bitsSetRun, hrun]
  congr 1
  rw [decide_eq_decide]
  omega

theorem bitsGet_ones (k n i : Nat) :
    bitsGet (writeCells m k (List.replicate n 0xff)) i =
      (bitsGet m i || decide (k * 8 ≤ i ∧ i < (k + n) * 8)) := by
  rw [bitsGet_eq, bitsGet_eq, writeCells_apply]
  have hmod : i % 8 < 8 := Nat.mod_lt i (by omega)
  by_cases hlo : k ≤ i / 8
  · rw [if_pos hlo, getElem?_replicate]
    by_cases hhi : i / 8 - k < n
    · rw [if_pos hhi, decide_eq_true (by omega), Bool.or_true]
      have hones : ∀ j < 8, (0xff : BitVec 8).getLsbD j = true := by decide
      exact hones _ hmod
    · rw [if_neg hhi, decide_eq_false (by omega), Bool.or_false]
      rfl
  · rw [if_neg hlo, decide_eq_false (by omega), Bool.or_false]

theorem bitsGet_fill (lo n i : Nat) :
    bitsGet (bitsFill m lo n) i = (bitsGet m i || decide (lo ≤ i ∧ i < lo + n)) := by
  unfold bitsFill
  rw [bitsGet_setRun, bitsGet_ones, bitsGet_setRun, Bool.or_assoc, Bool.or_assoc]
  congr 1
  rw [← Bool.decide_or, ← Bool.decide_or, decide_eq_decide]
  omega

/-- The loop of `bitsShiftDown` reads what it has not written yet. -/
theorem bitsShiftDown_apply (nbits n k : Nat) :
    bitsShiftDown m nbits n k = if k < nbits / 8 then shiftedByte (nbits / 8) n m k else m k :=
  foldl_update_ascending (g := shiftedByte (nbits / 8) n)
    (fun m m' k hm => by
      simp only [shiftedByte, bitsByteAt, hm _ (show k ≤ k + n / 8 by omega),
        hm _ (show k ≤ k + n / 8 + 1 by omega)]) m (nbits / 8) k

theorem bitsGet_shiftDown_of_ge (hbits : nbits % 8 = 0) (n : Nat) (hi : nbits ≤ i) :
    bitsGet (bitsShiftDown m nbits n) i = bitsGet m i := by
  rw [bitsGet, bitsShiftDown_apply, if_neg (by omega), bitsGet]

theorem bitsGet_shiftDown (hbits : nbits % 8 = 0) (n : Nat) (hi : i < nbits) :
    bitsGet (bitsShiftDown m nbits n) i = (decide (i + n < nbits) && bitsGet m (i + n)) := by
  rw [bitsGet_eq, bitsGet_eq, bitsShiftDown_apply, if_pos (by omega), shiftedByte]
  have hmod := Nat.mod_lt i (show 8 > 0 by decide)
  rw [BitVec.getLsbD_setWidth, BitVec.getLsbD_ushiftRight, BitVec.getLsbD_append]
  simp only [hmod, decide_true, Bool.true_and]
  have hbyte : (bitsByteAt m (nbits / 8) ((i + n) / 8)).getLsbD ((i + n) % 8) =
      (decide (i + n < nbits) && (m ((i + n) / 8)).getLsbD ((i + n) % 8)) := by
    rw [bitsByteAt]
    split
    · rw [decide_eq_true (by omega), Bool.true_and]
    · rw [decide_eq_false (by omega), Bool.false_and]
      simp
  rw [← hbyte]
  -- the bit comes from the lower byte, or from the one above it
  by_cases hlow : n % 8 + i % 8 < 8
  · rw [if_pos hlow, show (i + n) / 8 = i / 8 + n / 8 by omega,
      show (i + n) % 8 = n % 8 + i % 8 by omega]
  · rw [if_neg hlow, show (i + n) / 8 = i / 8 + n / 8 + 1 by omega,
      show (i + n) % 8 = n % 8 + i % 8 - 8 by omega]

end

end Wired.Bytes
