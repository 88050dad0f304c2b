import Wired.Lib.LimbList
import Mathlib.Data.ZMod.Basic

/-!
# Field elements of P-256

`p256_field.c` and `p256_field_impl_head.h`: numbers of 256 bits in four limbs, their sums and
differences modulo `m`, the product of 512 bits and its remainder by a long division bit by bit,
for every modulus above `2 ^ 255` (`p256FpMul_toNat`). Each function is modelled by the value that
it leaves in its result; `P256Memory` has the functions that write it through a pointer.
-/

namespace Wired.Crypto.P256

open Lib

/-- Four limbs, the lowest first. -/
abbrev P256Fe := Words 4

/-- The number with these limbs. -/
def fe (l0 l1 l2 l3 : UInt64) : P256Fe := ⟨[l0, l1, l2, l3], rfl⟩

def p256P : P256Fe := fe 0xffffffffffffffff 0x00000000ffffffff 0x0000000000000000 0xffffffff00000001

def p256N : P256Fe := fe 0xf3b9cac2fc632551 0xbce6faada7179e84 0xffffffffffffffff 0xffffffff00000000

/-! ## Sums and differences -/

def p256FeGe (a b : P256Fe) : Bool := a.ge b

/-- The difference, without a reduction. -/
def p256FeSubRaw (a b : P256Fe) : P256Fe := a.sub b

def feAddRaw (a b : P256Fe) : P256Fe × UInt64 :=
  let s := a.add b
  (s.1, UInt64.ofNat s.2)

def p256FpAdd (a b m : P256Fe) : P256Fe :=
  let s := feAddRaw a b
  if s.2 != 0 || p256FeGe s.1 m then p256FeSubRaw s.1 m else s.1

def p256FpSub (a b m : P256Fe) : P256Fe :=
  if p256FeGe a b then p256FeSubRaw a b else p256FeSubRaw m (p256FeSubRaw b a)

theorem p256FeGe_iff (a b : P256Fe) : p256FeGe a b = true ↔ b.toNat ≤ a.toNat := a.ge_iff b

variable {a b : P256Fe} {w : Words 8} {n sh : Nat}

theorem p256FeSubRaw_toNat (h : b.toNat ≤ a.toNat) :
    (p256FeSubRaw a b).toNat = a.toNat - b.toNat := Words.sub_toNat h

variable {m : P256Fe}

theorem p256FpAdd_toNat (ha : a.toNat < m.toNat) (hb : b.toNat < m.toNat) :
    (p256FpAdd a b m).toNat = (a.toNat + b.toNat) % m.toNat := by
  have hm := m.toNat_lt
  have hsum := a.add_toNat b
  have hcarry : (feAddRaw a b).2 ≠ 0 ↔ (a.add b).2 ≠ 0 := by
    obtain hc | hc : (a.add b).2 = 0 ∨ (a.add b).2 = 1 := by omega
    · simp [feAddRaw, hc]
    · simp [feAddRaw, hc]
  refine Words.subIf_toNat hsum (by omega) ?_
  rw [Bool.or_eq_true, bne_iff_ne, hcarry, p256FeGe_iff]

theorem p256FpSub_toNat (ha : a.toNat < m.toNat) (hb : b.toNat < m.toNat) :
    (p256FpSub a b m).toNat = (a.toNat + m.toNat - b.toNat) % m.toNat := by
  by_cases h : b.toNat ≤ a.toNat
  · rw [p256FpSub, if_pos ((p256FeGe_iff a b).mpr h), p256FeSubRaw_toNat h,
      Nat.mod_eq_sub_mod (by omega), Nat.mod_eq_of_lt (by omega)]
    omega
  · have hback : (p256FeSubRaw b a).toNat = b.toNat - a.toNat := p256FeSubRaw_toNat (by omega)
    rw [p256FpSub, if_neg (by rwa [p256FeGe_iff]), p256FeSubRaw_toNat (by omega), hback,
      Nat.mod_eq_of_lt (by omega)]
    omega

/-! ## The product -/

def feMulRow (w : Words 8) (ai : UInt64) (b : P256Fe) (i : Fin 4) : Words 8 where
  list :=
    let row := mulAddLimbs ai 0 b.list ((w.list.drop i).take 4)
    w.list.take i ++ (row.1 ++ UInt64.ofNat row.2 :: w.list.drop (i + 5))
  length_list := by
    have hlen : b.list.length = ((w.list.drop i).take 4).length := by
      simp [b.length_list, w.length_list]
      omega
    simp [(mulAddLimbs_spec ai hlen (by omega : 0 < 2 ^ 64)).1, b.length_list, w.length_list]
    omega

def mulRows (a b : P256Fe) : (i : Nat) → i ≤ 4 → Words 8
  | 0, _ => Words.zero 8
  | i + 1, h => feMulRow (mulRows a b i (by omega)) (a.limb i) b ⟨i, h⟩

/-- The product in eight limbs. -/
def p256FeMulWide (a b : P256Fe) : Words 8 := mulRows a b 4 (Nat.le_refl 4)

/-- A row is added exactly where nothing stands above the limbs that it reads. -/
theorem feMulRow_toNat (i : Fin 4) (hw : w.toNat < 2 ^ (64 * (i.val + 4))) (ai : UInt64)
    (b : P256Fe) :
    (feMulRow w ai b i).toNat = w.toNat + 2 ^ (64 * i.val) * (ai.toNat * b.toNat) := by
  have hlen : b.list.length = ((w.list.drop i).take 4).length := by
    simp [b.length_list, w.length_list]
    omega
  obtain ⟨hl, hc, hv⟩ := mulAddLimbs_spec ai hlen (by omega : 0 < 2 ^ 64)
  have hmid : limbVal ((w.list.drop i).take 4) = w.toNat / 2 ^ (64 * i.val) := by
    rw [limbVal_take, limbVal_drop, Nat.mod_eq_of_lt]
    · rfl
    · apply Nat.div_lt_of_lt_mul
      rwa [← pow_add, ← mul_add]
  have htop : limbVal (w.list.drop (i.val + 5)) = 0 := by
    rw [limbVal_drop]
    exact Nat.div_eq_of_lt (hw.trans (Nat.pow_lt_pow_right (by omega) (by omega)))
  have hlow : limbVal (w.list.take i.val) = w.toNat % 2 ^ (64 * i.val) := limbVal_take _ _
  have htake : (w.list.take i.val).length = i.val := by
    simp [w.length_list]
    omega
  have hdiv := Nat.mod_add_div w.toNat (2 ^ (64 * i.val))
  rw [hmid, b.length_list, zero_add] at hv
  rw [Words.toNat, feMulRow, limbVal_append, limbVal_append, limbVal_cons, htop, hlow, htake, hl,
    b.length_list, UInt64.toNat_ofNat', Nat.mod_eq_of_lt hc, mul_zero, add_zero, hv,
    mul_add, ← Words.toNat]
  omega

theorem mulRows_toNat (a b : P256Fe) (i : Nat) (h : i ≤ 4) :
    (mulRows a b i h).toNat = a.toNat % 2 ^ (64 * i) * b.toNat := by
  induction i with
  | zero => rw [mulRows, Words.zero_toNat, mul_zero, pow_zero, Nat.mod_one, Nat.zero_mul]
  | succ i ih =>
    have hlt : (mulRows a b i (by omega)).toNat < 2 ^ (64 * (i + 4)) := by
      rw [ih, mul_add, pow_add]
      exact Nat.mul_lt_mul'' (Nat.mod_lt _ (Nat.two_pow_pos _)) b.toNat_lt
    rw [mulRows, feMulRow_toNat ⟨i, h⟩ hlt, ih, a.mod_limbs_succ, add_mul, mul_assoc]

theorem p256FeMulWide_toNat (a b : P256Fe) : (p256FeMulWide a b).toNat = a.toNat * b.toNat := by
  rw [p256FeMulWide, mulRows_toNat, Nat.mod_eq_of_lt a.toNat_lt]

/-! ## Long division -/

def wideBit (w : Words 8) (bit : Nat) : UInt64 :=
  (w.limb (bit / 64) >>> UInt64.ofNat (bit &&& 63)) &&& 1

/-- Bit `bit` of `m` shifted left by `sh`. -/
def mshiftBit (m : P256Fe) (sh bit : Nat) : UInt64 :=
  if bit < sh then 0
  else
    let s := bit - sh
    if s ≥ 256 then 0 else (m.limb (s / 64) >>> UInt64.ofNat (s &&& 63)) &&& 1

/-- Limb `i` of `m` shifted left by `sh`. -/
def mlimb (m : P256Fe) (sh i : Nat) : UInt64 :=
  orBits (fun b => mshiftBit m sh (i * 64 + b)) 64

def wideSubShifted (w : Words 8) (m : P256Fe) (sh : Nat) : Words 8 :=
  w.sub ⟨(List.range 8).map (mlimb m sh), by simp⟩

def wideGeShifted (w : Words 8) (m : P256Fe) (sh : Nat) : Bool :=
  geBits (wideBit w) (mshiftBit m sh) 512

def feReduceStep (w : Words 8) (m : P256Fe) (sh : Nat) : Words 8 :=
  if wideGeShifted w m sh then wideSubShifted w m sh else w

def reduceSteps (m : P256Fe) : (n : Nat) → Words 8 → Words 8
  | 0, w => w
  | n + 1, w => reduceSteps m n (feReduceStep w m n)

/-- The remainder of a product. -/
def p256FeReduceWide (w : Words 8) (m : P256Fe) : P256Fe where
  list := (reduceSteps m 257 w).list.take 4
  length_list := by simp [Words.length_list]

def p256FpMul (a b m : P256Fe) : P256Fe := p256FeReduceWide (p256FeMulWide a b) m

theorem bit_toNat (a : Words n) (bit : Nat) :
    ((a.limb (bit / 64) >>> UInt64.ofNat (bit &&& 63)) &&& 1).toNat = a.toNat / 2 ^ bit % 2 := by
  have hmask : bit &&& 63 = bit % 64 := Nat.and_two_pow_sub_one_eq_mod bit 6
  rw [hmask]
  exact a.field_toNat (by omega : 1 < 64) (by omega)

theorem mshiftBit_toNat (m : P256Fe) (sh bit : Nat) :
    (mshiftBit m sh bit).toNat = m.toNat * 2 ^ sh / 2 ^ bit % 2 := by
  rw [mshiftBit]
  split
  · rename_i hlt
    -- below the shift there are only zeros
    obtain ⟨k, rfl⟩ : ∃ k, sh = bit + (k + 1) := ⟨sh - bit - 1, by omega⟩
    have hfactor : m.toNat * 2 ^ (bit + (k + 1)) = m.toNat * 2 ^ k * 2 * 2 ^ bit := by ring
    rw [hfactor, Nat.mul_div_cancel _ (Nat.two_pow_pos _), Nat.mul_mod_left]
    rfl
  · rename_i hge
    obtain ⟨s, rfl⟩ := Nat.exists_eq_add_of_le (Nat.le_of_not_lt hge)
    rw [Nat.add_sub_cancel_left, mul_comm m.toNat, pow_add,
      Nat.mul_div_mul_left _ _ (Nat.two_pow_pos _)]
    simp only
    split
    · rename_i hs
      have hpow : 2 ^ 256 ≤ 2 ^ s := Nat.pow_le_pow_right (by omega) hs
      rw [Nat.div_eq_of_lt (m.toNat_lt.trans_le hpow)]
      rfl
    · exact bit_toNat m s

theorem shifted_lt (m : P256Fe) (hsh : sh ≤ 256) : m.toNat * 2 ^ sh < 2 ^ 512 := by
  have hpow : 2 ^ sh ≤ 2 ^ 256 := Nat.pow_le_pow_right (by omega) hsh
  calc
    m.toNat * 2 ^ sh ≤ m.toNat * 2 ^ 256 := Nat.mul_le_mul_left _ hpow
    _ < 2 ^ 256 * 2 ^ 256 := Nat.mul_lt_mul_of_pos_right m.toNat_lt (Nat.two_pow_pos _)
    _ = 2 ^ 512 := by omega

theorem wideGeShifted_iff (w : Words 8) (m : P256Fe) (hsh : sh ≤ 256) :
    wideGeShifted w m sh = true ↔ m.toNat * 2 ^ sh ≤ w.toNat := by
  have hw : ∀ i < 512, (wideBit w i).toNat = w.toNat / 2 ^ i % 2 := fun i _ => bit_toNat w i
  rw [wideGeShifted, geBits_iff hw (fun i _ => mshiftBit_toNat m sh i),
    Nat.mod_eq_of_lt (shifted_lt m hsh), Nat.mod_eq_of_lt w.toNat_lt]

theorem mlimb_toNat (m : P256Fe) (sh i : Nat) :
    (mlimb m sh i).toNat = m.toNat * 2 ^ sh / 2 ^ (64 * i) % 2 ^ 64 := by
  apply orBits_toNat le_rfl
  intro b _
  rw [mshiftBit_toNat, mul_comm i, pow_add, Nat.div_div_eq_div_mul]

theorem wideSubShifted_toNat (hsh : sh ≤ 256) (h : m.toNat * 2 ^ sh ≤ w.toNat) :
    (wideSubShifted w m sh).toNat = w.toNat - m.toNat * 2 ^ sh := by
  have hlimbs : limbVal ((List.range 8).map (mlimb m sh)) = m.toNat * 2 ^ sh := by
    rw [limbVal_map_range fun i _ => mlimb_toNat m sh i, Nat.mod_eq_of_lt (shifted_lt m hsh)]
  rw [wideSubShifted, Words.sub_toNat]
  · exact congrArg (w.toNat - ·) hlimbs
  · exact hlimbs.trans_le h

/-- One step keeps the remainder and halves the bound. -/
theorem feReduceStep_toNat (hsh : sh ≤ 256) (hw : w.toNat < m.toNat * 2 ^ (sh + 1)) :
    (feReduceStep w m sh).toNat < m.toNat * 2 ^ sh ∧
      (feReduceStep w m sh).toNat % m.toNat = w.toNat % m.toNat := by
  have hge := wideGeShifted_iff w m hsh
  rw [pow_succ, ← mul_assoc] at hw
  by_cases h : m.toNat * 2 ^ sh ≤ w.toNat
  · rw [feReduceStep, if_pos (hge.mpr h), wideSubShifted_toNat hsh h]
    refine ⟨by omega, ?_⟩
    exact Nat.sub_mul_mod h
  · rw [feReduceStep, if_neg (by rwa [hge])]
    exact ⟨by omega, rfl⟩

theorem reduceSteps_toNat (hn : n ≤ 257) (hw : w.toNat < m.toNat * 2 ^ n) :
    (reduceSteps m n w).toNat = w.toNat % m.toNat := by
  induction n generalizing w with
  | zero =>
    rw [pow_zero, mul_one] at hw
    exact (Nat.mod_eq_of_lt hw).symm
  | succ n ih =>
    obtain ⟨hlt, hmod⟩ := feReduceStep_toNat (by omega) hw
    rw [reduceSteps, ih (by omega) hlt, hmod]

theorem p256FeReduceWide_toNat (w : Words 8) (hm : 2 ^ 255 ≤ m.toNat) :
    (p256FeReduceWide w m).toNat = w.toNat % m.toNat := by
  have hw := w.toNat_lt
  have hsteps := reduceSteps_toNat le_rfl (by omega : w.toNat < m.toNat * 2 ^ 257)
  have hlt : w.toNat % m.toNat < 2 ^ 256 := (Nat.mod_lt _ (by omega)).trans m.toNat_lt
  rw [← hsteps] at hlt ⊢
  rw [Words.toNat, p256FeReduceWide, limbVal_take]
  exact Nat.mod_eq_of_lt hlt

theorem p256FpMul_toNat (a b : P256Fe) (hm : 2 ^ 255 ≤ m.toNat) :
    (p256FpMul a b m).toNat = a.toNat * b.toNat % m.toNat := by
  rw [p256FpMul, p256FeReduceWide_toNat _ hm, p256FeMulWide_toNat]

end Wired.Crypto.P256
