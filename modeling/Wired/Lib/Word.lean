import Mathlib.Algebra.Group.Nat.Defs

/-!
# Machine words as natural numbers

A `u64` (and `usz`) of the source is a natural number below `2 ^ 64` here, a `u32` one below
`2 ^ 32`. Where a sum, a difference or a product of the source can leave that range it is
written with one of the operations below; where the operands are known to keep it in range,
it is the operation of the natural numbers.
-/

namespace Wired.Lib

def addU64 (a b : Nat) : Nat := (a + b) % 2 ^ 64

def subU64 (a b : Nat) : Nat := (a + 2 ^ 64 - b) % 2 ^ 64

def mulU64 (a b : Nat) : Nat := (a * b) % 2 ^ 64

def subU32 (a b : Nat) : Nat := (a + 2 ^ 32 - b) % 2 ^ 32

theorem addU64_lt (a b : Nat) : addU64 a b < 2 ^ 64 := Nat.mod_lt _ (by decide)

theorem subU64_lt (a b : Nat) : subU64 a b < 2 ^ 64 := Nat.mod_lt _ (by decide)

theorem addU64_eq {a b : Nat} (h : a + b < 2 ^ 64) : addU64 a b = a + b := Nat.mod_eq_of_lt h

theorem subU64_eq {a b : Nat} (ha : a < 2 ^ 64) (h : b ≤ a) : subU64 a b = a - b := by
  unfold subU64
  omega

theorem toNat_sub_eq {a b : UInt64} (h : b.toNat ≤ a.toNat) : (a - b).toNat = a.toNat - b.toNat :=
  UInt64.toNat_sub_of_le _ _ (UInt64.le_iff_toNat_le.mpr h)

/-- The test for a sum that does not fit, which is made without adding. -/
theorem compl_zero_sub_lt {a b : UInt64} : ~~~0 - a < b ↔ 2 ^ 64 ≤ a.toNat + b.toNat := by
  have ha := a.toNat_lt
  have hle : a ≤ ~~~0 := UInt64.le_iff_toNat_le.mpr (Nat.le_of_lt_succ ha)
  rw [UInt64.lt_iff_toNat_lt, UInt64.toNat_sub_of_le _ _ hle]
  change 2 ^ 64 - 1 - a.toNat < b.toNat ↔ _
  omega

/-- The bits of a word that has only bit `k`. -/
theorem getLsbD_one_shiftLeft {w k : Nat} (hk : k < w) (i : Nat) :
    (1#w <<< k).getLsbD i = decide (k = i) := by
  change (BitVec.twoPow w k).getLsbD i = _
  rw [BitVec.getLsbD_twoPow, decide_eq_true hk, Bool.true_and]

end Wired.Lib
