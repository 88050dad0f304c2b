import Wired.Lib.LimbList
import Mathlib.Data.Nat.ModEq

/-!
# Modular exponentiation of big numbers

`bignum.c` and `modexp.c`: numbers of 64 limbs. A product modulo `m` is built bit by bit from
doublings and additions, each followed by the subtraction of `m` if a bit was carried out of the
top limb or the number is `m` or more; a power is built from squarings and products likewise.

* `bnAdd_toNat`, `bnShl1_toNat`, `bnSub_toNat`: exact with the bit that leaves the top limb.
* `bnModexpAt_correct`: the power, for every modulus above 1, wherever the operands lie.
-/

namespace Wired.Crypto.Bignum

open Lib List

/-- The number of limbs, for 4096 bits. -/
abbrev bnLimbs : Nat := 64

abbrev Bn := Words bnLimbs

/-! ## Limb by limb -/

def flag (p : Bool) : UInt64 := if p then 1 else 0

/-- The sum of limbs with the carry that comes in and goes out. -/
def bnAddLoop : UInt64 → List UInt64 → List UInt64 → List UInt64 × UInt64
  | c, a :: as, b :: bs =>
    let s := a + b
    let c1 := flag (s < a)
    let x := s + c
    let r := bnAddLoop (c1 ||| flag (x < c)) as bs
    (x :: r.1, r.2)
  | c, _, _ => ([], c)

def bnSubLoop : UInt64 → List UInt64 → List UInt64 → List UInt64 × UInt64
  | borrow, a :: as, b :: bs =>
    let d := a - b
    let b1 := flag (a < b)
    let r := bnSubLoop (b1 ||| flag (d < borrow)) as bs
    ((d - borrow) :: r.1, r.2)
  | borrow, _, _ => ([], borrow)

/-- Doubling with the bit that comes in and goes out. -/
def bnShl1Loop : UInt64 → List UInt64 → List UInt64 × UInt64
  | carry, a :: as =>
    let r := bnShl1Loop (a >>> 63) as
    (((a <<< 1) ||| carry) :: r.1, r.2)
  | carry, [] => ([], carry)

def limbCmp (x y : UInt64) : Int := if x < y then -1 else if x > y then 1 else 0

/-- The comparison of the limbs from the most significant one down, which come first here. -/
def cmpFromTop : List (UInt64 × UInt64) → Int
  | [] => 0
  | (x, y) :: rest => if limbCmp x y ≠ 0 then limbCmp x y else cmpFromTop rest

theorem flag_or_toNat (p q : Bool) : (flag p ||| flag q).toNat = if p || q then 1 else 0 := by
  cases p <;> cases q <;> rfl

theorem zeroFlag_le : (0 : UInt64).toNat ≤ 1 := Nat.zero_le 1

variable {as bs : List UInt64} {r result : Bn} {i : Nat}

theorem bnAddLoop_spec (hlen : as.length = bs.length) {c : UInt64} (hc : c.toNat ≤ 1) :
    (bnAddLoop c as bs).1.length = as.length ∧ (bnAddLoop c as bs).2.toNat ≤ 1 ∧
      limbVal (bnAddLoop c as bs).1 + 2 ^ (64 * as.length) * (bnAddLoop c as bs).2.toNat =
        c.toNat + (limbVal as + limbVal bs) := by
  induction as, bs, hlen using sameLength_induction generalizing c with
  | nil => simpa [bnAddLoop] using hc
  | cons a as b bs hlen ih =>
    have ha := a.toNat_lt
    have hb := b.toNat_lt
    have hs : (a + b).toNat = (a.toNat + b.toNat) % 2 ^ 64 := UInt64.toNat_add ..
    have hx : (a + b + c).toNat = ((a + b).toNat + c.toNat) % 2 ^ 64 := UInt64.toNat_add ..
    -- at most one of the two sums wraps around
    have hcarry : (flag (a + b < a) ||| flag (a + b + c < c)).toNat ≤ 1 ∧
        (a + b + c).toNat + 2 ^ 64 * (flag (a + b < a) ||| flag (a + b + c < c)).toNat =
          a.toNat + b.toNat + c.toNat := by
      rw [flag_or_toNat]
      simp only [Bool.or_eq_true, decide_eq_true_eq, UInt64.lt_iff_toNat_lt]
      split <;> omega
    obtain ⟨hl, hlast, hv⟩ := ih hcarry.1
    simp only [bnAddLoop, length_cons, limbVal_cons, two_pow_limbs_succ]
    rw [mul_assoc]
    omega

theorem bnSubLoop_spec (hlen : as.length = bs.length) {borrow : UInt64} (hb : borrow.toNat ≤ 1) :
    (bnSubLoop borrow as bs).1.length = as.length ∧ (bnSubLoop borrow as bs).2.toNat ≤ 1 ∧
      limbVal (bnSubLoop borrow as bs).1 + (limbVal bs + borrow.toNat) =
        limbVal as + 2 ^ (64 * as.length) * (bnSubLoop borrow as bs).2.toNat := by
  induction as, bs, hlen using sameLength_induction generalizing borrow with
  | nil => simpa [bnSubLoop] using hb
  | cons a as b bs hlen ih =>
    have ha := a.toNat_lt
    have hb' := b.toNat_lt
    have hd : (a - b).toNat = (2 ^ 64 - b.toNat + a.toNat) % 2 ^ 64 := UInt64.toNat_sub ..
    have hx : (a - b - borrow).toNat = (2 ^ 64 - borrow.toNat + (a - b).toNat) % 2 ^ 64 :=
      UInt64.toNat_sub ..
    have hborrow : (flag (a < b) ||| flag (a - b < borrow)).toNat ≤ 1 ∧
        (a - b - borrow).toNat + (b.toNat + borrow.toNat) =
          a.toNat + 2 ^ 64 * (flag (a < b) ||| flag (a - b < borrow)).toNat := by
      rw [flag_or_toNat]
      simp only [Bool.or_eq_true, decide_eq_true_eq, UInt64.lt_iff_toNat_lt]
      split <;> omega
    obtain ⟨hl, hlast, hv⟩ := ih hborrow.1
    simp only [bnSubLoop, length_cons, limbVal_cons, two_pow_limbs_succ]
    rw [mul_assoc]
    omega

theorem bnShl1Loop_spec (as : List UInt64) {carry : UInt64} (hc : carry.toNat ≤ 1) :
    (bnShl1Loop carry as).1.length = as.length ∧ (bnShl1Loop carry as).2.toNat ≤ 1 ∧
      limbVal (bnShl1Loop carry as).1 + 2 ^ (64 * as.length) * (bnShl1Loop carry as).2.toNat =
        carry.toNat + 2 * limbVal as := by
  induction as generalizing carry with
  | nil => simpa [bnShl1Loop] using hc
  | cons a as ih =>
    have ha := a.toNat_lt
    have htop : (a >>> 63).toNat = a.toNat / 2 ^ 63 := by
      rw [UInt64.toNat_shiftRight, Nat.shiftRight_eq_div_pow]
      rfl
    have hlow : ((a <<< 1) ||| carry).toNat = a.toNat * 2 % 2 ^ 64 + carry.toNat := by
      have hshift : (a <<< 1).toNat = a.toNat % 2 ^ 63 * 2 ^ 1 := by
        rw [UInt64.toNat_shiftLeft, Nat.shiftLeft_eq]
        show a.toNat * 2 % 2 ^ 64 = _
        omega
      rw [UInt64.toNat_or, hshift, Nat.lor_comm, or_shl (by omega : carry.toNat < 2 ^ 1)]
      omega
    obtain ⟨hl, hlast, hv⟩ := ih (by omega : (a >>> 63).toNat ≤ 1)
    simp only [bnShl1Loop, length_cons, limbVal_cons, two_pow_limbs_succ]
    refine ⟨by rw [hl], hlast, ?_⟩
    rw [mul_assoc]
    omega

theorem cmpFromTop_nonneg (l : List (UInt64 × UInt64)) : 0 ≤ cmpFromTop l ↔ geFromTop l = true := by
  induction l with
  | nil => simp [cmpFromTop, geFromTop]
  | cons p rest ih =>
    obtain ⟨x, y⟩ := p
    rw [cmpFromTop, geFromTop]
    by_cases hxy : x = y
    · subst hxy
      have hsame : limbCmp x x = 0 := by simp [limbCmp]
      rw [hsame, if_neg (by simp), if_neg (by simp)]
      exact ih
    · rw [if_pos hxy, decide_eq_true_eq]
      have hne : x.toNat ≠ y.toNat := fun h => hxy (UInt64.toNat_inj.mp h)
      unfold limbCmp
      simp only [gt_iff_lt, UInt64.lt_iff_toNat_lt]
      split_ifs <;> omega

/-! ## Numbers -/

/-- The sum, and the bit carried out of the top limb. -/
def bnAdd (a b : Bn) : Bn × UInt64 :=
  (⟨(bnAddLoop 0 a.list b.list).1,
    (bnAddLoop_spec (a.length_list.trans b.length_list.symm) zeroFlag_le).1.trans
      a.length_list⟩,
    (bnAddLoop 0 a.list b.list).2)

/-- The difference; the source drops the last borrow. -/
def bnSub (a b : Bn) : Bn :=
  ⟨(bnSubLoop 0 a.list b.list).1,
    (bnSubLoop_spec (a.length_list.trans b.length_list.symm) zeroFlag_le).1.trans a.length_list⟩

/-- The double, and the bit shifted out of the top limb. -/
def bnShl1 (a : Bn) : Bn × UInt64 :=
  (⟨(bnShl1Loop 0 a.list).1, (bnShl1Loop_spec a.list zeroFlag_le).1.trans a.length_list⟩,
    (bnShl1Loop 0 a.list).2)

def bnCmp (a b : Bn) : Int := cmpFromTop (a.list.zip b.list).reverse

/-- One more than the largest big number. -/
def bnRange : Nat := 2 ^ (64 * bnLimbs)

theorem bn_lt (a : Bn) : a.toNat < bnRange := a.toNat_lt

theorem bnAdd_toNat (a b : Bn) :
    (bnAdd a b).2.toNat ≤ 1 ∧
      (bnAdd a b).1.toNat + bnRange * (bnAdd a b).2.toNat = a.toNat + b.toNat := by
  obtain ⟨-, hlast, hv⟩ := bnAddLoop_spec (a.length_list.trans b.length_list.symm) zeroFlag_le
  rw [a.length_list] at hv
  exact ⟨hlast, hv.trans (zero_add _)⟩

theorem bnShl1_toNat (a : Bn) :
    (bnShl1 a).2.toNat ≤ 1 ∧
      (bnShl1 a).1.toNat + bnRange * (bnShl1 a).2.toNat = 2 * a.toNat := by
  obtain ⟨-, hlast, hv⟩ := bnShl1Loop_spec a.list zeroFlag_le
  rw [a.length_list] at hv
  exact ⟨hlast, hv.trans (zero_add _)⟩

/-- The borrow that is dropped stands for the bit carried out of the number before. -/
theorem bnSub_toNat (a b : Bn) :
    (bnSub a b).toNat = if b.toNat ≤ a.toNat then a.toNat - b.toNat
      else a.toNat + bnRange - b.toNat := by
  obtain ⟨-, hlast, hv⟩ := bnSubLoop_spec (a.length_list.trans b.length_list.symm) zeroFlag_le
  rw [a.length_list] at hv
  change (bnSub a b).toNat + (b.toNat + 0) = a.toNat + bnRange * _ at hv
  have hlt := bn_lt (bnSub a b)
  generalize (bnSubLoop 0 a.list b.list).2.toNat = last at hv hlast
  obtain rfl | rfl : last = 0 ∨ last = 1 := by omega
  · rw [if_pos (by omega)]
    omega
  · rw [if_neg (by omega)]
    omega

theorem bnCmp_nonneg (a b : Bn) : 0 ≤ bnCmp a b ↔ b.toNat ≤ a.toNat :=
  (cmpFromTop_nonneg _).trans (geLimbs_iff (a.length_list.trans b.length_list.symm))

/-! ## Products -/

/-- Whether a sum, with its carry, has reached the modulus. -/
def needReduce (overflow : UInt64) (a m : Bn) : Bool :=
  if overflow ≠ 0 then true else bnCmp a m ≥ 0

/-- One subtraction of the modulus, if it is due. -/
def reduceOnce (r : Bn) (overflow : UInt64) (m : Bn) : Bn :=
  if needReduce overflow r m then bnSub r m else r

/-- The operands of a product. -/
structure BnMulctx where
  a : Bn
  m : Bn

def mulStep (r : Bn) (addA : Bool) (c : BnMulctx) : Bn :=
  let d := bnShl1 r
  let r := reduceOnce d.1 d.2 c.m
  if addA then
    let s := bnAdd r c.a
    reduceOnce s.1 s.2 c.m
  else r

def bnBit (x : Bn) (i : Nat) : Bool := ((x.limb (i / 64) >>> UInt64.ofNat (i % 64)) &&& 1) ≠ 0

def topLimbFrom (x : Bn) : Nat → Nat
  | 0 => 0
  | i + 1 => if x.limb i = 0 then topLimbFrom x i else i + 1

def bnTopLimb (x : Bn) : Nat := topLimbFrom x bnLimbs

/-- The loop of `bn_limb_bits`; it ends at the top bit of a limb that is not zero. -/
def limbBitsFrom : Nat → UInt64 → Nat
  | 0, _ => 0
  | n + 1, v => if v &&& 0x8000000000000000 = 0 then limbBitsFrom n (v <<< 1) else n + 1

def bnLimbBits (v : UInt64) : Nat := limbBitsFrom 64 v

def bnBits (x : Bn) : Nat :=
  let i := bnTopLimb x
  if i = 0 then 0 else (i - 1) * 64 + bnLimbBits (x.limb (i - 1))

def modmulLoop (b : Bn) (c : BnMulctx) : Nat → Bn → Bn
  | 0, acc => acc
  | i + 1, acc => modmulLoop b c i (mulStep acc (bnBit b i) c)

def modmul (b : Bn) (c : BnMulctx) : Bn := modmulLoop b c (bnBits b) (Words.zero bnLimbs)

theorem needReduce_iff (overflow : UInt64) (a m : Bn) :
    needReduce overflow a m = true ↔ overflow ≠ 0 ∨ m.toNat ≤ a.toNat := by
  unfold needReduce
  rw [← bnCmp_nonneg]
  split
  · rename_i hover
    exact ⟨fun _ => .inl hover, fun _ => rfl⟩
  · rename_i hzero
    rw [decide_eq_true_eq]
    exact ⟨.inr, fun h => h.resolve_left hzero⟩

/-- One subtraction reduces a number below twice the modulus, the carried bit included. -/
theorem reduceOnce_toNat {m : Bn} {overflow : UInt64}
    (hlt : r.toNat + bnRange * overflow.toNat < 2 * m.toNat) :
    (reduceOnce r overflow m).toNat = (r.toNat + bnRange * overflow.toNat) % m.toNat := by
  have hzero : overflow ≠ 0 ↔ overflow.toNat ≠ 0 := not_congr UInt64.toNat_inj.symm
  rw [reduceOnce, apply_ite Words.toNat]
  refine subIf_eq_mod (bn_lt m) rfl hlt (bnSub_toNat r m) ?_
  rw [needReduce_iff, hzero]

theorem mulStep_toNat {c : BnMulctx} (hr : r.toNat < c.m.toNat)
    (ha : c.a.toNat < c.m.toNat) (addA : Bool) :
    (mulStep r addA c).toNat = (2 * r.toNat + if addA then c.a.toNat else 0) % c.m.toNat := by
  obtain ⟨hover, hdouble⟩ := bnShl1_toNat r
  have hfirst : (reduceOnce (bnShl1 r).1 (bnShl1 r).2 c.m).toNat = 2 * r.toNat % c.m.toNat := by
    rw [reduceOnce_toNat (by omega), hdouble]
  cases addA with
  | false => exact hfirst
  | true =>
    have hlt : 2 * r.toNat % c.m.toNat < c.m.toNat := Nat.mod_lt _ (by omega)
    obtain ⟨hover', hsum⟩ := bnAdd_toNat (reduceOnce (bnShl1 r).1 (bnShl1 r).2 c.m) c.a
    rw [hfirst] at hsum
    show (reduceOnce _ _ c.m).toNat = (2 * r.toNat + c.a.toNat) % c.m.toNat
    rw [reduceOnce_toNat (by omega), hsum, Nat.mod_add_mod]

theorem bnBit_eq (x : Bn) (i : Nat) : (if bnBit x i then 1 else 0) = x.toNat / 2 ^ i % 2 := by
  have hfield : ((x.limb (i / 64) >>> UInt64.ofNat (i % 64)) &&& 1).toNat =
      x.toNat / 2 ^ i % 2 ^ 1 := x.field_toNat Nat.one_lt_ofNat (by omega)
  unfold bnBit
  by_cases hzero : (x.limb (i / 64) >>> UInt64.ofNat (i % 64)) &&& 1 = 0
  · rw [hzero] at hfield
    rw [decide_eq_false (by simpa using hzero), if_neg (by simp)]
    exact hfield
  · have hne : ((x.limb (i / 64) >>> UInt64.ofNat (i % 64)) &&& 1).toNat ≠ 0 :=
      fun h => hzero (UInt64.toNat_inj.mp h)
    rw [decide_eq_true hzero, if_pos rfl]
    omega

/-! ## Bit lengths -/

theorem topLimbFrom_spec (x : Bn) (n : Nat) :
    x.toNat % 2 ^ (64 * n) = x.toNat % 2 ^ (64 * topLimbFrom x n) := by
  induction n with
  | zero => rfl
  | succ n ih =>
    rw [topLimbFrom]
    split
    · rename_i hzero
      rw [x.mod_limbs_succ, hzero, ← ih]
      simp
    · rfl

/-- The loop at a number of `n` bits that was shifted to the top of the limb. -/
theorem limbBitsFrom_spec {n x : Nat} {v : UInt64} (hn : n ≤ 64) (hv : v.toNat = x * 2 ^ (64 - n))
    (hx : x < 2 ^ n) :
    x < 2 ^ limbBitsFrom n v := by
  induction n generalizing v with
  | zero => exact hx
  | succ n ih =>
    have hpow : 2 ^ (64 - n) = 2 * 2 ^ (64 - (n + 1)) := by
      rw [← Nat.pow_succ']
      congr 1
      omega
    have hhalf : 2 ^ n * 2 ^ (64 - (n + 1)) = 2 ^ 63 := by
      rw [← pow_add]
      congr 1
      omega
    -- the top bit is clear if the number has `n` bits
    have htop : v &&& 0x8000000000000000 = 0 ↔ x < 2 ^ n := by
      have hlt := v.toNat_lt
      have hmask : (v &&& 0x8000000000000000).toNat = (v.toNat.testBit 63).toNat * 2 ^ 63 := by
        exact Nat.and_two_pow _ 63
      have hclear : v &&& 0x8000000000000000 = 0 ↔ v.toNat < 2 ^ 63 := by
        rw [← UInt64.toNat_inj, hmask, UInt64.toNat_zero, Nat.testBit_eq_decide_div_mod_eq]
        by_cases hbit : v.toNat / 2 ^ 63 % 2 = 1
        · rw [decide_eq_true hbit]
          simp only [Bool.toNat_true]
          omega
        · rw [decide_eq_false hbit]
          simp only [Bool.toNat_false]
          omega
      rw [hclear, hv, ← hhalf]
      exact Nat.mul_lt_mul_right (Nat.two_pow_pos _)
    rw [limbBitsFrom]
    by_cases hclear : x < 2 ^ n
    · rw [if_pos (htop.mpr hclear)]
      refine ih (by omega) ?_ hclear
      have hfit : x * 2 ^ (64 - (n + 1)) < 2 ^ 63 := by
        rw [← hhalf]
        exact Nat.mul_lt_mul_of_pos_right hclear (Nat.two_pow_pos _)
      rw [UInt64.toNat_shiftLeft, Nat.shiftLeft_eq, hv, hpow]
      show x * 2 ^ (64 - (n + 1)) * 2 % 2 ^ 64 = _
      rw [Nat.mod_eq_of_lt (by omega), mul_assoc, mul_comm _ 2]
    · rw [if_neg (mt htop.mp hclear)]
      exact hx

theorem lt_two_pow_bnLimbBits (v : UInt64) : v.toNat < 2 ^ bnLimbBits v :=
  limbBitsFrom_spec le_rfl (mul_one _).symm v.toNat_lt

/-- No bit of the number lies beyond its length. -/
theorem bn_lt_two_pow_bits (x : Bn) : x.toNat < 2 ^ bnBits x := by
  have hmod := topLimbFrom_spec x bnLimbs
  rw [Nat.mod_eq_of_lt x.toNat_lt] at hmod
  unfold bnBits bnTopLimb
  generalize topLimbFrom x bnLimbs = i at hmod
  dsimp only
  split
  · rename_i hzero
    rw [hzero, mul_zero, pow_zero, Nat.mod_one] at hmod
    rw [hmod]
    exact one_pos
  · obtain ⟨k, rfl⟩ : ∃ k, i = k + 1 := ⟨i - 1, by omega⟩
    rw [Nat.add_sub_cancel, pow_add, mul_comm k 64]
    rw [x.mod_limbs_succ] at hmod
    have htop := lt_two_pow_bnLimbBits (x.limb k)
    have hmul := Nat.mul_le_mul_left (2 ^ (64 * k)) (Nat.succ_le_of_lt htop)
    rw [Nat.mul_succ] at hmul
    omega

/-! ## Products and powers -/

section

variable {b base exp m : Bn} {c : BnMulctx}

/-- The bits that have been taken are those above bit `i`. -/
theorem div_two_pow_step (x i : Nat) : x / 2 ^ i = 2 * (x / 2 ^ (i + 1)) + x / 2 ^ i % 2 := by
  rw [pow_succ, ← Nat.div_div_eq_div_mul]
  omega

theorem modmulLoop_toNat (ha : c.a.toNat < c.m.toNat) {acc : Bn}
    (hacc : acc.toNat = c.a.toNat * (b.toNat / 2 ^ i) % c.m.toNat) :
    (modmulLoop b c i acc).toNat = c.a.toNat * b.toNat % c.m.toNat := by
  induction i generalizing acc with
  | zero => rw [modmulLoop, hacc, pow_zero, Nat.div_one]
  | succ i ih =>
    have hlt : acc.toNat < c.m.toNat := by
      rw [hacc]
      exact Nat.mod_lt _ (by omega)
    apply ih
    have hadd : (if bnBit b i then c.a.toNat else 0) = c.a.toNat * (b.toNat / 2 ^ i % 2) := by
      rw [← bnBit_eq]
      split
      · exact (mul_one _).symm
      · exact (mul_zero _).symm
    rw [mulStep_toNat hlt ha, hadd, hacc]
    calc (2 * (c.a.toNat * (b.toNat / 2 ^ (i + 1)) % c.m.toNat) +
          c.a.toNat * (b.toNat / 2 ^ i % 2)) % c.m.toNat
        = (2 * (c.a.toNat * (b.toNat / 2 ^ (i + 1))) +
          c.a.toNat * (b.toNat / 2 ^ i % 2)) % c.m.toNat :=
          Nat.ModEq.add_right _ ((Nat.mod_modEq _ _).mul_left 2)
      _ = c.a.toNat * (b.toNat / 2 ^ i) % c.m.toNat := by
        conv_rhs => rw [div_two_pow_step b.toNat i]
        congr 1
        ring

/-- Only the multiplicand has to be below the modulus. -/
theorem modmul_toNat (b : Bn) (ha : c.a.toNat < c.m.toNat) :
    (modmul b c).toNat = c.a.toNat * b.toNat % c.m.toNat := by
  apply modmulLoop_toNat ha
  rw [Words.zero_toNat, Nat.div_eq_of_lt (bn_lt_two_pow_bits b), mul_zero, Nat.zero_mod]

def expStep (base m : Bn) (result : Bn) (bit : Bool) : Bn :=
  let squared := modmul result { a := result, m := m }
  if bit then modmul base { a := squared, m := m } else squared

def modexpLoop (base exp m : Bn) : Nat → Bn → Bn
  | 0, result => result
  | i + 1, result => modexpLoop base exp m i (expStep base m result (bnBit exp i))

def bnOne : Bn := ⟨1 :: List.replicate 63 0, by simp⟩

/-- The power, by squaring and multiplying from the top bit of the exponent. -/
def bnModexp (base exp m : Bn) : Bn := modexpLoop base exp m (bnBits exp) bnOne

theorem expStep_toNat (hresult : result.toNat < m.toNat) (bit : Bool) :
    (expStep base m result bit).toNat =
      result.toNat ^ 2 * base.toNat ^ (if bit then 1 else 0) % m.toNat := by
  have hsquare : (modmul result { a := result, m := m }).toNat = result.toNat ^ 2 % m.toNat := by
    rw [modmul_toNat result hresult, Nat.pow_two]
  cases bit with
  | false =>
    show (modmul result { a := result, m := m }).toNat = _
    rw [hsquare]
    simp
  | true =>
    have hlt : (modmul result { a := result, m := m }).toNat < m.toNat := by
      rw [hsquare]
      exact Nat.mod_lt _ (by omega)
    show (modmul base { a := modmul result { a := result, m := m }, m := m }).toNat = _
    rw [modmul_toNat base hlt, hsquare, if_pos rfl, Nat.pow_one, Nat.mod_mul_mod]

theorem modexpLoop_toNat (hm : 0 < m.toNat)
    (hresult : result.toNat = base.toNat ^ (exp.toNat / 2 ^ i) % m.toNat) :
    (modexpLoop base exp m i result).toNat = base.toNat ^ exp.toNat % m.toNat := by
  induction i generalizing result with
  | zero => rw [modexpLoop, hresult, pow_zero, Nat.div_one]
  | succ i ih =>
    apply ih
    have hlt : result.toNat < m.toNat := by
      rw [hresult]
      exact Nat.mod_lt _ hm
    rw [expStep_toNat hlt, bnBit_eq, hresult]
    calc (base.toNat ^ (exp.toNat / 2 ^ (i + 1)) % m.toNat) ^ 2 *
          base.toNat ^ (exp.toNat / 2 ^ i % 2) % m.toNat
        = (base.toNat ^ (exp.toNat / 2 ^ (i + 1))) ^ 2 *
          base.toNat ^ (exp.toNat / 2 ^ i % 2) % m.toNat :=
          Nat.ModEq.mul_right _ ((Nat.mod_modEq _ _).pow 2)
      _ = base.toNat ^ (exp.toNat / 2 ^ i) % m.toNat := by
        conv_rhs => rw [div_two_pow_step exp.toNat i]
        rw [← Nat.pow_mul, ← pow_add, mul_comm _ 2]

theorem bnModexp_toNat (base exp : Bn) (hm : 1 < m.toNat) :
    (bnModexp base exp m).toNat = base.toNat ^ exp.toNat % m.toNat := by
  apply modexpLoop_toNat (by omega)
  rw [Nat.div_eq_of_lt (bn_lt_two_pow_bits exp), pow_zero, Nat.mod_eq_of_lt hm]
  show (1 : UInt64).toNat + 2 ^ 64 * limbVal (List.replicate 63 0) = 1
  rfl

end

/-! ## In memory -/

abbrev BnMemory := Nat → UInt64

/-- The number that lies at an address. -/
def bnLoad (σ : BnMemory) (p : Nat) : Bn := ⟨(List.range bnLimbs).map fun i => σ (p + i), by simp⟩

/-- Memory with a number put at an address. -/
def bnStore (σ : BnMemory) (p : Nat) (v : Bn) : BnMemory :=
  fun q => if p ≤ q ∧ q < p + bnLimbs then v.limb (q - p) else σ q

/-- The operands of `bn_modexp` where they lie: all are read before the output is written. -/
def bnModexpAt (σ : BnMemory) (out base exp mod : Nat) : BnMemory :=
  bnStore σ out (bnModexp (bnLoad σ base) (bnLoad σ exp) (bnLoad σ mod))

theorem bnLoad_bnStore (σ : BnMemory) (p : Nat) (v : Bn) : bnLoad (bnStore σ p v) p = v := by
  apply Words.toNat_inj
  have hlimbs : ∀ i < bnLimbs, (bnStore σ p v (p + i)).toNat =
      v.toNat / 2 ^ (64 * i) % 2 ^ 64 := by
    intro i hi
    rw [bnStore, if_pos (by omega), Nat.add_sub_cancel_left, v.limb_toNat]
  have hval := limbVal_map_range hlimbs
  rw [Nat.mod_eq_of_lt v.toNat_lt] at hval
  exact hval

/-- **Modular exponentiation.** For every modulus above 1, and any base and exponent, what is left
at the output is the power modulo the modulus, whatever the output overlaps, and the memory
elsewhere is as it was. -/
theorem bnModexpAt_correct (σ : BnMemory) (out base exp mod : Nat) (hm : 1 < (bnLoad σ mod).toNat) :
    (bnLoad (bnModexpAt σ out base exp mod) out).toNat =
        (bnLoad σ base).toNat ^ (bnLoad σ exp).toNat % (bnLoad σ mod).toNat ∧
      (∀ q, q < out ∨ out + bnLimbs ≤ q → bnModexpAt σ out base exp mod q = σ q) ∧
      (∀ a b, (bnAdd a b).1.toNat + bnRange * (bnAdd a b).2.toNat = a.toNat + b.toNat) ∧
      (∀ a, (bnShl1 a).1.toNat + bnRange * (bnShl1 a).2.toNat = 2 * a.toNat) ∧
      ∀ r m overflow, overflow.toNat ≤ 1 → r.toNat + bnRange * overflow.toNat < 2 * m.toNat →
        (reduceOnce r overflow m).toNat = (r.toNat + bnRange * overflow.toNat) % m.toNat := by
  refine ⟨?_, fun q hq => ?_, fun a b => (bnAdd_toNat a b).2, fun a => (bnShl1_toNat a).2,
    fun r m overflow _ hlt => reduceOnce_toNat hlt⟩
  · rw [bnModexpAt, bnLoad_bnStore, bnModexp_toNat _ _ hm]
  · rw [bnModexpAt, bnStore, if_neg (by omega)]

/-- A base of 3, an exponent of 5 and a modulus of 7 behind each other. -/
def smallOperands : BnMemory :=
  fun q => if q = 0 then 3 else if q = 64 then 5 else if q = 128 then 7 else 0

/-- The output over the base. -/
theorem bnModexpAt_over_base :
    1 < (bnLoad smallOperands 128).toNat ∧
      (bnLoad (bnModexpAt smallOperands 0 0 64 128) 0).toNat = 5 := by
  have hm : 1 < (bnLoad smallOperands 128).toNat := by decide +kernel
  have hpower : (bnLoad smallOperands 0).toNat ^ (bnLoad smallOperands 64).toNat %
      (bnLoad smallOperands 128).toNat = 5 := by decide +kernel
  exact ⟨hm, (bnModexpAt_correct smallOperands 0 0 64 128 hm).1.trans hpower⟩

end Wired.Crypto.Bignum
