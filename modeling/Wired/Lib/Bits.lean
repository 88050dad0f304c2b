import Mathlib.Data.Nat.Bitwise

/-!
# Bit strings, most significant bit first

`bitsOf n v` are the low `n` bits of `v`. A writer that collects bits in an accumulator and a
reader that takes them one by one are both described by the bit string they have in common.
-/

namespace Wired.Lib

/-- The low `n` bits of `v`. -/
def bitsOf : Nat → Nat → List Nat
  | 0, _ => []
  | n + 1, v => v / 2 ^ n % 2 :: bitsOf n v

@[simp] theorem bitsOf_length (n v : Nat) : (bitsOf n v).length = n := by
  induction n with
  | zero => rfl
  | succ n ih => simp [bitsOf, ih]

theorem bitsOf_add (m n v : Nat) : bitsOf (m + n) v = bitsOf m (v / 2 ^ n) ++ bitsOf n v := by
  induction m with
  | zero => simp [bitsOf]
  | succ m ih =>
    rw [Nat.add_right_comm, bitsOf, ih, bitsOf, Nat.div_div_eq_div_mul, ← pow_add, add_comm n m]
    rfl

variable {m n b v w : Nat}

theorem bitsOf_mod (h : n ≤ m) (v : Nat) : bitsOf n (v % 2 ^ m) = bitsOf n v := by
  induction n with
  | zero => rfl
  | succ n ih =>
    rw [bitsOf, bitsOf, ih (by omega)]
    obtain ⟨k, rfl⟩ : ∃ k, m = n + 1 + k := ⟨m - (n + 1), by omega⟩
    rw [add_assoc, pow_add, Nat.mod_mul_right_div_self, add_comm 1 k, pow_succ,
      Nat.mod_mul_left_mod]

theorem lt_two_of_mem_bitsOf (h : b ∈ bitsOf n v) : b < 2 := by
  induction n with
  | zero => cases h
  | succ n ih =>
    rcases List.mem_cons.mp h with rfl | h
    · exact Nat.mod_lt _ Nat.two_pos
    · exact ih h

theorem bitsOf_snoc (n acc : Nat) (hb : b < 2) :
    bitsOf (n + 1) (2 * acc + b) = bitsOf n acc ++ [b] := by
  have hhigh : (2 * acc + b) / 2 ^ 1 = acc := by omega
  have hlow : (2 * acc + b) / 2 ^ 0 % 2 = b := by omega
  rw [bitsOf_add, hhigh, bitsOf, hlow, bitsOf]

theorem bitsOf_inj (hv : v < 2 ^ n) (hw : w < 2 ^ n) (h : bitsOf n v = bitsOf n w) : v = w := by
  induction n generalizing v w with
  | zero => omega
  | succ n ih =>
    obtain ⟨htop, hrest⟩ := List.cons.inj h
    have hpos := Nat.two_pow_pos n
    have hlow : v % 2 ^ n = w % 2 ^ n := by
      apply ih (Nat.mod_lt _ hpos) (Nat.mod_lt _ hpos)
      rwa [bitsOf_mod le_rfl, bitsOf_mod le_rfl]
    have hv' : v / 2 ^ n < 2 := Nat.div_lt_of_lt_mul (by rwa [pow_succ] at hv)
    have hw' : w / 2 ^ n < 2 := Nat.div_lt_of_lt_mul (by rwa [pow_succ] at hw)
    rw [Nat.mod_eq_of_lt hv', Nat.mod_eq_of_lt hw'] at htop
    rw [← Nat.div_add_mod v (2 ^ n), ← Nat.div_add_mod w (2 ^ n), htop, hlow]

theorem bitsOf_ones (n : Nat) : bitsOf n (2 ^ n - 1) = List.replicate n 1 := by
  induction n with
  | zero => rfl
  | succ n ih =>
    have hsnoc : 2 ^ (n + 1) - 1 = 2 * (2 ^ n - 1) + 1 := by
      have := Nat.two_pow_pos n
      omega
    rw [hsnoc, bitsOf_snoc n _ Nat.one_lt_two, ih, List.replicate_succ']

/-- Bits appended below an accumulator of `w` bits, of which the topmost may be lost. -/
theorem bitsOf_push (h : m + n ≤ w) (acc : Nat) (hv : v < 2 ^ n) :
    bitsOf (m + n) (acc * 2 ^ n % 2 ^ w ||| v) = bitsOf m acc ++ bitsOf n v := by
  obtain ⟨k, rfl⟩ : ∃ k, w = n + (m + k) := ⟨w - (m + n), by omega⟩
  rw [mul_comm, pow_add, Nat.mul_mod_mul_left, ← Nat.two_pow_add_eq_or_of_lt hv, bitsOf_add]
  congr 1
  · rw [Nat.mul_add_div (Nat.two_pow_pos n), Nat.div_eq_of_lt hv, add_zero,
      bitsOf_mod (Nat.le_add_right m k)]
  · rw [← bitsOf_mod le_rfl, Nat.mul_add_mod, Nat.mod_eq_of_lt hv]

end Wired.Lib
