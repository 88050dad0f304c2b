import Mathlib.Data.Nat.Bitwise

/-!
# Little-endian numbers

`leVal m n` is the number that the first `n` bytes of the array `m` stand for, and `leBytes n v`
are the low `n` bytes of `v`. Words are read and written with shifts, masks and disjunctions; the
lemmas below give their arithmetic.
-/

namespace Wired.Lib

open List

def leVal (m : Nat → UInt8) : Nat → Nat
  | 0 => 0
  | n + 1 => leVal m n + 2 ^ (8 * n) * (m n).toNat

def leBytes (n v : Nat) : List UInt8 :=
  (List.range n).map fun i => UInt8.ofNat (v / 2 ^ (8 * i))

/-! ## Disjunctions of shifted words -/

variable {a b s n : Nat} {m : Nat → UInt8}

theorem or_shl (hb : b < 2 ^ s) : b ||| a * 2 ^ s = b + a * 2 ^ s := by
  rw [Nat.or_comm, mul_comm, ← Nat.two_pow_add_eq_or_of_lt hb, add_comm]

/-- A shift to the left that loses what does not fit in `w` bits. -/
theorem or_shl_mod {w : Nat} (a : Nat) (hb : b < 2 ^ s) (hs : s ≤ w) :
    (b ||| a * 2 ^ s % 2 ^ w) = (b + a * 2 ^ s) % 2 ^ w := by
  obtain ⟨k, rfl⟩ := Nat.exists_eq_add_of_le hs
  have hmod : a * 2 ^ s % 2 ^ (s + k) = a % 2 ^ k * 2 ^ s := by
    rw [pow_add, mul_comm a, Nat.mul_mod_mul_left, mul_comm]
  have hdiv : (b + a * 2 ^ s) / 2 ^ s = a := by
    rw [Nat.add_mul_div_right _ _ (Nat.two_pow_pos s), Nat.div_eq_of_lt hb, zero_add]
  rw [hmod, or_shl hb, pow_add, Nat.mod_mul, hdiv, Nat.add_mul_mod_self_right,
    Nat.mod_eq_of_lt hb, mul_comm]

/-- A conjunction digit by digit. -/
theorem and_add_mul {c d : Nat} (ha : a < 2 ^ s) (hc : c < 2 ^ s) :
    (a + 2 ^ s * b) &&& (c + 2 ^ s * d) = (a &&& c) + 2 ^ s * (b &&& d) := by
  have hlow : ∀ {x y : Nat}, x < 2 ^ s → (x + 2 ^ s * y) % 2 ^ s = x := fun hx => by
    rw [Nat.add_mul_mod_self_left, Nat.mod_eq_of_lt hx]
  have hhigh : ∀ {x y : Nat}, x < 2 ^ s → (x + 2 ^ s * y) / 2 ^ s = y := fun hx => by
    rw [Nat.add_mul_div_left _ _ (Nat.two_pow_pos s), Nat.div_eq_of_lt hx, zero_add]
  have hsplit := Nat.mod_add_div ((a + 2 ^ s * b) &&& (c + 2 ^ s * d)) (2 ^ s)
  rw [Nat.and_mod_two_pow, Nat.and_div_two_pow, hlow ha, hlow hc, hhigh ha, hhigh hc] at hsplit
  exact hsplit.symm

/-- One unit of the top digit is more than the rest. -/
theorem top_le_iff {p x y : Nat} (ha : a < p) (hb : b < p) (hne : x ≠ y) :
    b + p * y ≤ a + p * x ↔ y < x := by
  have hunit : ∀ {x y : Nat}, x < y → p * x + p ≤ p * y := fun h => Nat.mul_le_mul_left p h
  rcases Nat.lt_or_gt_of_ne hne with hlt | hlt
  · have := hunit hlt
    omega
  · have := hunit hlt
    omega

/-! ## Reading -/

theorem leVal_congr {m' : Nat → UInt8} (h : ∀ i < n, m i = m' i) : leVal m n = leVal m' n := by
  induction n with
  | zero => rfl
  | succ n ih => rw [leVal, leVal, ih fun i hi => h i (by omega), h n (Nat.lt_succ_self n)]

theorem leVal_zeros (h : ∀ i < n, m i = 0) : leVal m n = 0 := by
  induction n with
  | zero => rfl
  | succ n ih =>
    rw [leVal, ih fun i hi => h i (by omega), h n (Nat.lt_succ_self n), UInt8.toNat_zero,
      Nat.mul_zero]

def leLoad (m : Nat → UInt8) : Nat → Nat
  | 0 => 0
  | n + 1 => leLoad m n ||| (m n).toNat * 2 ^ (8 * n)

section

variable (m : Nat → UInt8)

theorem leVal_lt (n : Nat) : leVal m n < 2 ^ (8 * n) := by
  induction n with
  | zero => exact Nat.one_pos
  | succ n ih =>
    have hbyte : (m n).toNat + 1 ≤ 2 ^ 8 := (m n).toNat_lt
    calc leVal m n + 2 ^ (8 * n) * (m n).toNat
        < 2 ^ (8 * n) + 2 ^ (8 * n) * (m n).toNat := Nat.add_lt_add_right ih _
      _ = 2 ^ (8 * n) * ((m n).toNat + 1) := by rw [mul_add, mul_one, add_comm]
      _ ≤ 2 ^ (8 * n) * 2 ^ 8 := Nat.mul_le_mul_left _ hbyte
      _ = 2 ^ (8 * (n + 1)) := by rw [← pow_add, Nat.mul_succ]

theorem leVal_add (a b : Nat) :
    leVal m (a + b) = leVal m a + 2 ^ (8 * a) * leVal (fun i => m (a + i)) b := by
  induction b with
  | zero => rw [add_zero, leVal, mul_zero, add_zero]
  | succ b ih =>
    rw [← add_assoc, leVal, ih, leVal, mul_add 8, pow_add, mul_add (2 ^ (8 * a)),
      mul_assoc, add_assoc]

theorem leVal_byte {i : Nat} (hi : i < n) : leVal m n / 2 ^ (8 * i) % 2 ^ 8 = (m i).toNat := by
  obtain ⟨k, rfl⟩ : ∃ k, n = i + (1 + k) := ⟨n - i - 1, by omega⟩
  have hbyte : (m i).toNat < 2 ^ 8 := (m i).toNat_lt
  rw [leVal_add, Nat.add_mul_div_left _ _ (Nat.two_pow_pos _), Nat.div_eq_of_lt (leVal_lt m i),
    zero_add, leVal_add, Nat.add_mul_mod_self_left]
  simp only [leVal, mul_zero, pow_zero, one_mul, zero_add, add_zero]
  exact Nat.mod_eq_of_lt hbyte

theorem leVal_bit {pos : Nat} (hpos : pos < 8 * n) :
    leVal m n / 2 ^ pos % 2 = (m (pos / 8)).toNat / 2 ^ (pos % 8) % 2 := by
  have hsplit : 2 ^ pos = 2 ^ (8 * (pos / 8)) * 2 ^ (pos % 8) := by rw [← pow_add, Nat.div_add_mod]
  obtain ⟨k, hk⟩ : ∃ k, 8 = pos % 8 + (k + 1) := ⟨7 - pos % 8, by omega⟩
  have hpow : 2 ^ 8 = 2 ^ (pos % 8) * (2 * 2 ^ k) := by rw [← Nat.pow_succ', ← pow_add, ← hk]
  rw [← leVal_byte m (by omega : pos / 8 < n), hsplit, ← Nat.div_div_eq_div_mul, hpow,
    Nat.mod_mul_right_div_self, Nat.mod_mul_right_mod]

theorem leLoad_eq (n : Nat) : leLoad m n = leVal m n := by
  induction n with
  | zero => rfl
  | succ n ih => rw [leLoad, leVal, ih, or_shl (leVal_lt m n), mul_comm]

end

/-! ## Writing -/

theorem leBytes_add (a b v : Nat) :
    leBytes (a + b) v = leBytes a v ++ leBytes b (v / 2 ^ (8 * a)) := by
  simp only [leBytes, range_add, map_append, map_map]
  congr 1
  apply map_congr_left
  intro i _
  rw [Function.comp_apply, Nat.div_div_eq_div_mul, ← pow_add, ← mul_add]

theorem leBytes_mod (n v : Nat) : leBytes n (v % 2 ^ (8 * n)) = leBytes n v := by
  apply map_congr_left
  intro i hi
  obtain ⟨k, hk⟩ : ∃ k, 8 * n = 8 * i + (8 + k) :=
    ⟨8 * n - 8 * i - 8, by have := mem_range.mp hi; omega⟩
  apply UInt8.toNat_inj.mp
  rw [hk, UInt8.toNat_ofNat', UInt8.toNat_ofNat', pow_add, Nat.mod_mul_right_div_self,
    pow_add, Nat.mod_mul_right_mod]

theorem mod_eq_zero_of_leBytes {v : Nat} (h : ∀ b ∈ leBytes n v, b = 0) : v % 2 ^ (8 * n) = 0 := by
  induction n with
  | zero => exact Nat.mod_one v
  | succ n ih =>
    have hsplit : leBytes (n + 1) v = leBytes n v ++ leBytes 1 (v / 2 ^ (8 * n)) :=
      leBytes_add n 1 v
    rw [hsplit] at h
    have hlow := ih fun b hb => h b (mem_append_left _ hb)
    have hbyte : UInt8.ofNat (v / 2 ^ (8 * n)) = 0 := h _ (mem_append_right _ (by simp [leBytes]))
    have hhigh : v / 2 ^ (8 * n) % 2 ^ 8 = 0 := by
      rw [← UInt8.toNat_ofNat', hbyte, UInt8.toNat_zero]
    rw [Nat.mul_succ, Nat.pow_add, Nat.mod_mul, hlow, hhigh, Nat.mul_zero]

theorem leBytes_append (n m b : Nat) (ha : a < 2 ^ (8 * n)) :
    leBytes n a ++ leBytes m b = leBytes (n + m) (a + 2 ^ (8 * n) * b) := by
  have hlow : leBytes n (a + 2 ^ (8 * n) * b) = leBytes n a := by
    rw [← leBytes_mod, Nat.add_mul_mod_self_left, leBytes_mod]
  have hhigh : (a + 2 ^ (8 * n) * b) / 2 ^ (8 * n) = b := by
    rw [Nat.add_mul_div_left _ _ (Nat.two_pow_pos _), Nat.div_eq_of_lt ha, zero_add]
  rw [leBytes_add, hlow, hhigh]

end Wired.Lib
