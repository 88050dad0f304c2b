import Mathlib.Data.List.Basic

/-!
# Constant-time comparison

The loops of `common/bytes/util/ct.h` collect the differences of two buffers in one byte, in a time
that does not depend on where they differ (`ctDiff_eq_zero`: zero means equal).
-/

namespace Wired.Bytes

/-- The loop of `ct_diff8`, `ct_diff16`, `ct_diff32` and `ct_diffn` from the differences so far. -/
def ctDiffFrom (d : UInt8) : List UInt8 → List UInt8 → UInt8
  | x :: xs, y :: ys => ctDiffFrom (d ||| (x ^^^ y)) xs ys
  | _, _ => d

/-- 0 if the two buffers are equal. -/
def ctDiff (a b : List UInt8) : UInt8 := ctDiffFrom 0 a b

/-- Nothing is collected exactly if every byte is zero. -/
theorem foldl_or_eq_zero {l : List UInt8} {d : UInt8} :
    l.foldl (· ||| ·) d = 0 ↔ d = 0 ∧ ∀ b ∈ l, b = 0 := by
  induction l generalizing d with
  | nil => simp
  | cons b l ih => simp [ih, UInt8.or_eq_zero_iff, and_assoc]

theorem ctDiffFrom_eq_zero {d : UInt8} {a b : List UInt8} (h : a.length = b.length) :
    ctDiffFrom d a b = 0 ↔ d = 0 ∧ a = b := by
  induction a generalizing d b with
  | nil =>
    obtain rfl : b = [] := List.eq_nil_of_length_eq_zero h.symm
    simp [ctDiffFrom]
  | cons x xs ih =>
    cases b with
    | nil => cases h
    | cons y ys =>
      rw [ctDiffFrom, ih (Nat.succ.inj h), UInt8.or_eq_zero_iff, UInt8.xor_eq_zero_iff,
        List.cons.injEq, and_assoc]

theorem ctDiff_eq_zero {a b : List UInt8} (h : a.length = b.length) : ctDiff a b = 0 ↔ a = b :=
  (ctDiffFrom_eq_zero h).trans (and_iff_right rfl)

end Wired.Bytes
