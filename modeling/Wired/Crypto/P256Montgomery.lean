import Wired.Crypto.P256Solinas
import Mathlib.Data.ZMod.Units
import Mathlib.Tactic.NormNum.Ineq

/-!
# Montgomery products

`p256_field_mont.c`: for an odd modulus `m` of 256 bits, `mont_mul` computes `a b / 2^256` modulo
`m` without a division. After each limb of `a` a multiple of `m` is added that clears the low limb
of the accumulator, which is then shifted down. The accumulator stays below `2 m` (`MontAcc`), so
that its five limbs are enough and one subtraction ends the product (`rep_p256FpMulN`).
-/

namespace Wired.Crypto.P256

open Lib

/-! ## The model -/

/-- A modulus with the constants for it. -/
structure Mont where
  m : P256Fe
  rr : P256Fe
  one : P256Fe
  n0inv : UInt64
  clears : m.limb 0 * n0inv + 1 = 0
  rr_eq : rr.toNat = 2 ^ 512 % m.toNat
  one_eq : one.toNat = 2 ^ 256 % m.toNat

def p256MontP : Mont where
  m := fe 0xffffffffffffffff 0x00000000ffffffff 0x0000000000000000 0xffffffff00000001
  rr := fe 0x0000000000000003 0xfffffffbffffffff 0xfffffffffffffffe 0x00000004fffffffd
  one := fe 0x0000000000000001 0xffffffff00000000 0xffffffffffffffff 0x00000000fffffffe
  n0inv := 0x0000000000000001
  clears := by decide
  rr_eq := by decide +kernel
  one_eq := by decide +kernel

def p256MontN : Mont where
  m := fe 0xf3b9cac2fc632551 0xbce6faada7179e84 0xffffffffffffffff 0xffffffff00000000
  rr := fe 0x83244c95be79eea2 0x4699799c49bd6fa6 0x2845b2392b6bec59 0x66e12d94f3d95620
  one := fe 0x0c46353d039cdaaf 0x4319055258e8617b 0x0000000000000000 0x00000000ffffffff
  n0inv := 0xccd1c8aaee00bc4f
  clears := by decide
  rr_eq := by decide +kernel
  one_eq := by decide +kernel

theorem length_take_four (t : Words 6) : (t.list.take 4).length = 4 := by
  simp [t.length_list]

theorem length_drop_take (t : Words 6) : ((t.list.drop 1).take 3).length = 3 := by
  simp [t.length_list]

theorem length_drop_one (m : P256Fe) : (m.list.drop 1).length = 3 := by
  simp [m.length_list]

def ciosMulRow (t : Words 6) (ai : UInt64) (b : P256Fe) : Words 6 where
  list :=
    let row := mulAddLimbs ai 0 b.list (t.list.take 4)
    let c := (row.2 + (t.limb 4).toNat) % 2 ^ 128
    row.1 ++ [UInt64.ofNat c, UInt64.ofNat (c / 2 ^ 64)]
  length_list := by
    have hlen := b.length_list.trans (length_take_four t).symm
    simp [(mulAddLimbs_spec ai hlen (by omega : 0 < 2 ^ 64)).1, b.length_list]

def ciosFactor (t : Words 6) (mont : Mont) : UInt64 := t.limb 0 * mont.n0inv

/-- The carry out of the low limb, which is not kept. -/
def ciosLowCarry (t : Words 6) (mont : Mont) : Nat :=
  ((ciosFactor t mont).toNat * (mont.m.limb 0).toNat + (t.limb 0).toNat) % 2 ^ 128 / 2 ^ 64

theorem ciosLowCarry_lt (t : Words 6) (mont : Mont) : ciosLowCarry t mont < 2 ^ 64 := by
  rw [ciosLowCarry]
  omega

def ciosReduceRow (t : Words 6) (mont : Mont) : Words 6 where
  list :=
    let row := mulAddLimbs (ciosFactor t mont) (ciosLowCarry t mont) (mont.m.list.drop 1)
      ((t.list.drop 1).take 3)
    let c := (row.2 + (t.limb 4).toNat) % 2 ^ 128
    row.1 ++ [UInt64.ofNat c, t.limb 5 + UInt64.ofNat (c / 2 ^ 64), 0]
  length_list := by
    have hlen := (length_drop_one mont.m).trans (length_drop_take t).symm
    have hrow := (mulAddLimbs_spec (ciosFactor t mont) hlen (ciosLowCarry_lt t mont)).1
    rw [List.length_append, hrow, length_drop_one]
    rfl

def lowLimbs (t : Words 6) : P256Fe := ⟨t.list.take 4, length_take_four t⟩

def montNeedsSub (t : Words 6) (m : P256Fe) : Bool :=
  t.limb 4 != 0 || p256FeGe (lowLimbs t) m

def montFinalize (t : Words 6) (m : P256Fe) : P256Fe :=
  if montNeedsSub t m then p256FeSubRaw (lowLimbs t) m else lowLimbs t

def montRows (a b : P256Fe) (mont : Mont) : Nat → Words 6
  | 0 => Words.zero 6
  | i + 1 => ciosReduceRow (ciosMulRow (montRows a b mont i) (a.limb i) b) mont

def montMul (a b : P256Fe) (mont : Mont) : P256Fe := montFinalize (montRows a b mont 4) mont.m

def p256FpMulN (a b : P256Fe) : P256Fe :=
  let am := montMul a p256MontN.rr p256MontN
  montMul am b p256MontN

/-! ## The rows -/

theorem six_limbs (t : Words 6) :
    t.toNat = limbVal (t.list.take 4) +
      2 ^ 256 * ((t.limb 4).toNat + 2 ^ 64 * (t.limb 5).toNat) := by
  have hlt := t.toNat_lt
  have hlow : limbVal (t.list.take 4) = t.toNat % 2 ^ 256 := limbVal_take t.list 4
  rw [hlow, t.limb_toNat, t.limb_toNat]
  omega

variable {t : Words 6} {a b : P256Fe}

theorem ciosMulRow_toNat (ht : t.limb 5 = 0) (ai : UInt64) (b : P256Fe) :
    (ciosMulRow t ai b).toNat = t.toNat + ai.toNat * b.toNat := by
  have hlen := b.length_list.trans (length_take_four t).symm
  obtain ⟨hl, hc, hv⟩ := mulAddLimbs_spec ai hlen (by omega : 0 < 2 ^ 64)
  have h4 := (t.limb 4).toNat_lt
  have h5 : (t.limb 5).toNat = 0 := by rw [ht]; rfl
  rw [b.length_list] at hl hv
  rw [Words.toNat, ciosMulRow, limbVal_append, hl, six_limbs t, h5]
  simp only [limbVal_cons, limbVal_nil, UInt64.toNat_ofNat']
  change _ = _ + ai.toNat * limbVal b.list
  omega

theorem ciosFactor_clears (t : Words 6) (mont : Mont) :
    ((ciosFactor t mont).toNat * (mont.m.limb 0).toNat + (t.limb 0).toNat) % 2 ^ 64 = 0 := by
  have hword : ciosFactor t mont * mont.m.limb 0 + t.limb 0 = 0 := by
    calc
      ciosFactor t mont * mont.m.limb 0 + t.limb 0 =
          t.limb 0 * (mont.m.limb 0 * mont.n0inv + 1) := by
        rw [ciosFactor, UInt64.mul_add, UInt64.mul_one, UInt64.mul_assoc,
          UInt64.mul_comm mont.n0inv]
      _ = 0 := by rw [mont.clears, UInt64.mul_zero]
  have hnat := congrArg UInt64.toNat hword
  rw [UInt64.toNat_add, UInt64.toNat_mul, Nat.mod_add_mod] at hnat
  exact hnat

variable {mont : Mont}

theorem ciosReduceRow_toNat (hfit : t.toNat + (ciosFactor t mont).toNat * mont.m.toNat < 2 ^ 384) :
    2 ^ 64 * (ciosReduceRow t mont).toNat =
      t.toNat + (ciosFactor t mont).toNat * mont.m.toNat := by
  have hlen := (length_drop_one mont.m).trans (length_drop_take t).symm
  obtain ⟨hl, hc, hv⟩ := mulAddLimbs_spec (ciosFactor t mont) hlen (ciosLowCarry_lt t mont)
  have hclear := ciosFactor_clears t mont
  have hc0 : ciosLowCarry t mont =
      ((ciosFactor t mont).toNat * (mont.m.limb 0).toNat + (t.limb 0).toNat) % 2 ^ 128 / 2 ^ 64 :=
    rfl
  have hprod : (ciosFactor t mont).toNat * (mont.m.limb 0).toNat ≤ (2 ^ 64 - 1) * (2 ^ 64 - 1) :=
    Nat.mul_le_mul (by have := (ciosFactor t mont).toNat_lt; omega)
      (by have := (mont.m.limb 0).toNat_lt; omega)
  have hm : mont.m.toNat = (mont.m.limb 0).toNat + 2 ^ 64 * limbVal (mont.m.list.drop 1) := by
    rw [mont.m.limb_toNat, limbVal_drop]
    change mont.m.toNat = _ + 2 ^ 64 * (mont.m.toNat / _)
    omega
  have hmid : limbVal ((t.list.drop 1).take 3) = t.toNat / 2 ^ 64 % 2 ^ 192 := by
    rw [limbVal_take, limbVal_drop]
    rfl
  have ht0 := t.limb_toNat 0
  have ht4 := t.limb_toNat 4
  have ht5 := t.limb_toNat 5
  have htlt := t.toNat_lt
  have hum : (ciosFactor t mont).toNat * mont.m.toNat =
      (ciosFactor t mont).toNat * (mont.m.limb 0).toNat +
        2 ^ 64 * ((ciosFactor t mont).toNat * limbVal (mont.m.list.drop 1)) := by
    rw [hm]
    ring
  rw [length_drop_one] at hl hv
  rw [Words.toNat, ciosReduceRow, limbVal_append, hl]
  simp only [limbVal_cons, limbVal_nil, UInt64.toNat_ofNat', UInt64.toNat_add, UInt64.toNat_zero]
  generalize mulAddLimbs (ciosFactor t mont) (ciosLowCarry t mont) (mont.m.list.drop 1)
    ((t.list.drop 1).take 3) = row at *
  rw [hmid] at hv
  rw [hum] at hfit ⊢
  generalize (ciosFactor t mont).toNat * (mont.m.limb 0).toNat = um0 at *
  generalize (ciosFactor t mont).toNat * limbVal (mont.m.list.drop 1) = um1 at *
  omega

/-! ## The product -/

theorem limb_eq_zero {n i : Nat} {a : Words n} (h : a.toNat < 2 ^ (64 * i)) : a.limb i = 0 := by
  apply UInt64.toNat_inj.mp
  rw [a.limb_toNat, Nat.div_eq_of_lt h]
  rfl

/-- The accumulator after `i` limbs of `a`. -/
structure MontAcc (a b : P256Fe) (mont : Mont) (i : Nat) (t : Words 6) : Prop where
  lt : t.toNat < 2 * mont.m.toNat
  eq : (2 ^ (64 * i) * t.toNat : ZMod mont.m.toNat) = (a.toNat % 2 ^ (64 * i) : Nat) * b.toNat

theorem MontAcc.step (hb : b.toNat < mont.m.toNat) {i : Nat} (h : MontAcc a b mont i t) :
    MontAcc a b mont (i + 1) (ciosReduceRow (ciosMulRow t (a.limb i) b) mont) := by
  have hm := mont.m.toNat_lt
  have hai := (a.limb i).toNat_lt
  have hlt := h.lt
  have htop : t.limb 5 = 0 := limb_eq_zero (by omega)
  have hmul := ciosMulRow_toNat htop (a.limb i) b
  generalize ciosMulRow t (a.limb i) b = t' at *
  have hu := (ciosFactor t' mont).toNat_lt
  have hrow : (a.limb i).toNat * b.toNat ≤ (2 ^ 64 - 1) * mont.m.toNat :=
    Nat.mul_le_mul (by omega) hb.le
  have hfold : (ciosFactor t' mont).toNat * mont.m.toNat ≤ (2 ^ 64 - 1) * mont.m.toNat :=
    Nat.mul_le_mul_right _ (by omega)
  have hfit : t'.toNat + (ciosFactor t' mont).toNat * mont.m.toNat < 2 ^ 384 := by omega
  have hred := ciosReduceRow_toNat hfit
  refine ⟨by omega, ?_⟩
  have hcast := congrArg (Nat.cast (R := ZMod mont.m.toNat)) hred
  rw [hmul, Nat.cast_mul, Nat.cast_pow, Nat.cast_ofNat, Nat.cast_add, Nat.cast_add, Nat.cast_mul,
    Nat.cast_mul, ZMod.natCast_self, mul_zero, add_zero] at hcast
  rw [a.mod_limbs_succ, Nat.mul_succ, pow_add, mul_assoc, hcast, mul_add, h.eq]
  push_cast
  ring

theorem montRows_acc (a : P256Fe) (hb : b.toNat < mont.m.toNat) (i : Nat) :
    MontAcc a b mont i (montRows a b mont i) := by
  induction i with
  | zero =>
    refine ⟨?_, ?_⟩
    · rw [montRows, Words.zero_toNat]
      omega
    · rw [montRows, Words.zero_toNat, Nat.mul_zero, Nat.pow_zero, Nat.mod_one, Nat.cast_zero,
        mul_zero, zero_mul]
  | succ i ih => exact ih.step hb

theorem montFinalize_toNat {m : P256Fe} (ht : t.toNat < 2 * m.toNat) :
    (montFinalize t m).toNat = t.toNat % m.toNat := by
  have hm := m.toNat_lt
  have hlow : (lowLimbs t).toNat = t.toNat % 2 ^ 256 := limbVal_take t.list 4
  have h4 : t.limb 4 ≠ 0 ↔ t.toNat / 2 ^ 256 ≠ 0 := by
    rw [ne_eq, ← UInt64.toNat_inj, t.limb_toNat, UInt64.toNat_zero]
    omega
  refine Words.subIf_toNat (c := t.toNat / 2 ^ 256) (by omega) ht ?_
  rw [montNeedsSub, Bool.or_eq_true, bne_iff_ne, h4, p256FeGe_iff]

theorem Mont.odd (mont : Mont) : mont.m.toNat % 2 = 1 := by
  have hnat := congrArg UInt64.toNat mont.clears
  rw [UInt64.toNat_add, UInt64.toNat_mul, Nat.mod_add_mod] at hnat
  have hm0 := mont.m.limb_toNat 0
  obtain heven | hodd := Nat.mod_two_eq_zero_or_one mont.m.toNat
  · -- an even limb cannot be inverted
    obtain ⟨k, hk⟩ : ∃ k, (mont.m.limb 0).toNat = 2 * k := ⟨(mont.m.limb 0).toNat / 2, by omega⟩
    have hone : (1 : UInt64).toNat = 1 := rfl
    have hzero : (0 : UInt64).toNat = 0 := rfl
    rw [hk, mul_assoc, hone, hzero] at hnat
    omega
  · exact hodd

theorem Mont.isUnit_two_pow (mont : Mont) (k : Nat) : IsUnit ((2 : ZMod mont.m.toNat) ^ k) := by
  have hcop : Nat.Coprime 2 mont.m.toNat := Nat.coprime_two_left.mpr (Nat.odd_iff.mpr mont.odd)
  have hunit := (ZMod.isUnit_iff_coprime 2 mont.m.toNat).mpr hcop
  exact hunit.pow k

theorem rep_montMul (a : P256Fe) (hb : b.toNat < mont.m.toNat) :
    Rep mont.m.toNat (montMul a b mont)
      ((a.toNat : ZMod mont.m.toNat) * b.toNat * (2 ^ 256)⁻¹) := by
  have hacc := montRows_acc a hb 4
  have hval := montFinalize_toNat hacc.lt
  have hunit := mont.isUnit_two_pow 256
  have heq : (2 ^ 256 * (montRows a b mont 4).toNat : ZMod mont.m.toNat) = a.toNat * b.toNat := by
    have h := hacc.eq
    rwa [Nat.mod_eq_of_lt a.toNat_lt] at h
  refine ⟨?_, ?_⟩
  · rw [montMul, hval]
    exact Nat.mod_lt _ (Nat.zero_lt_of_lt hb)
  · rw [montMul, hval, ZMod.natCast_mod, ← heq, mul_comm, ← mul_assoc,
      ZMod.inv_mul_of_unit _ hunit, one_mul]

theorem Rep.montMul {x y : ZMod mont.m.toNat} (ha : (a.toNat : ZMod mont.m.toNat) = x * 2 ^ 256)
    (hb : Rep mont.m.toNat b y) : Rep mont.m.toNat (montMul a b mont) (x * y) := by
  have h := rep_montMul a hb.lt
  have hunit := mont.isUnit_two_pow 256
  refine ⟨h.lt, h.eq.trans ?_⟩
  rw [ha, hb.eq, mul_right_comm, mul_assoc x, ZMod.mul_inv_of_unit _ hunit, mul_one]

theorem Mont.rep_rr (mont : Mont) (hm : 1 < mont.m.toNat) :
    Rep mont.m.toNat mont.rr (2 ^ 256 * 2 ^ 256) := by
  have hpow : (2 ^ 256 * 2 ^ 256 : ZMod mont.m.toNat) = (2 ^ 512 : Nat) := by
    rw [Nat.cast_pow, ← pow_add]
    rfl
  rw [hpow, rep_iff (by omega)]
  exact mont.rr_eq

theorem rep_p256FpMulN {x y : ZMod p256MontN.m.toNat} (ha : (a.toNat : ZMod p256MontN.m.toNat) = x)
    (hb : Rep p256MontN.m.toNat b y) : Rep p256MontN.m.toNat (p256FpMulN a b) (x * y) := by
  have hrr := p256MontN.rep_rr (by decide)
  have ham := rep_montMul a hrr.lt
  have hunit := p256MontN.isUnit_two_pow 256
  apply Rep.montMul _ hb
  rw [ham.eq, ha, hrr.eq, mul_assoc, mul_assoc, ZMod.mul_inv_of_unit _ hunit, mul_one]

end Wired.Crypto.P256
