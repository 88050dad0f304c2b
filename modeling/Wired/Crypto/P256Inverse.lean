import Wired.Crypto.P256Montgomery
import Wired.Lib.Primality
import Mathlib.FieldTheory.Finite.Basic

/-!
# Inverses modulo the P-256 prime and the group order

`p256_field_fp.c`: `a ^ (m - 2)`, the inverse of `a` since both moduli are prime. `mont_inv` takes
the exponent in windows of four bits, `p256_fp_inv_p` by a fixed chain of squarings and products
(`rep_p256FpInvP`).
-/

namespace Wired.Crypto.P256

open Lib

/-! ## The model -/

def feOne : P256Fe := fe 1 0 0 0

def feTwo : P256Fe := fe 2 0 0 0

def montFrom (a : P256Fe) (mont : Mont) : P256Fe := montMul a feOne mont

def montSqr4 (acc : P256Fe) (mont : Mont) : P256Fe :=
  (List.range 4).foldl (fun acc _ => montMul acc acc mont) acc

/-- `tbl[i]`; from `tbl[2]` on each entry is the one before it times `tbl[1]`. -/
def montInvTable (a : P256Fe) (mont : Mont) : Nat → P256Fe
  | 0 => mont.one
  | 1 => montMul a mont.rr mont
  | i + 2 => montMul (montInvTable a mont (i + 1)) (montMul a mont.rr mont) mont

def invWindow (e : P256Fe) (w : Nat) : Nat :=
  ((e.limb (w / 16) >>> UInt64.ofNat ((w &&& 15) * 4)) &&& 15).toNat

/-- The windows of the exponent from the top down, four squarings and a product each. -/
def invWindows (a e : P256Fe) (mont : Mont) : (n : Nat) → P256Fe → P256Fe
  | 0, acc => acc
  | w + 1, acc =>
    invWindows a e mont w
      (montMul (montSqr4 acc mont) (montInvTable a mont (invWindow e w)) mont)

def montInv (a : P256Fe) (mont : Mont) : P256Fe :=
  let e := p256FeSubRaw mont.m feTwo
  montFrom (invWindows a e mont 64 mont.one) mont

def fpSqrK (r : P256Fe) : (k : Nat) → P256Fe
  | 0 => r
  | k + 1 => p256FpSqrP (fpSqrK r k)

/-- Doubles a run of ones in the exponent. -/
def fpOnesDouble (t : P256Fe) (k : Nat) : P256Fe :=
  let half := t
  p256FpMulP (fpSqrK t k) half

def p256FpInvP (a : P256Fe) : P256Fe :=
  let t2 := fpOnesDouble a 1
  let t4 := fpOnesDouble t2 2
  let t8 := fpOnesDouble t4 4
  let t16 := fpOnesDouble t8 8
  let t32 := fpOnesDouble t16 16
  let r := p256FpMulP (fpSqrK t32 32) a
  let r := p256FpMulP (fpSqrK r 128) t32
  let r := p256FpMulP (fpSqrK r 32) t32
  let r := p256FpMulP (fpSqrK r 16) t16
  let r := p256FpMulP (fpSqrK r 8) t8
  let r := p256FpMulP (fpSqrK r 4) t4
  let r := p256FpMulP (fpSqrK r 2) t2
  p256FpMulP (fpSqrK r 2) a

/-! ## Powers in Montgomery form -/

variable {b acc a : P256Fe}

section

variable {mont : Mont}

theorem Mont.rep_one (mont : Mont) (hm : 1 < mont.m.toNat) :
    Rep mont.m.toNat mont.one (1 * 2 ^ 256) := by
  have hpow : (1 * 2 ^ 256 : ZMod mont.m.toNat) = (2 ^ 256 : Nat) := by
    rw [one_mul, Nat.cast_pow, Nat.cast_ofNat]
  rw [hpow, rep_iff (by omega)]
  exact mont.one_eq

theorem rep_feOne {m : Nat} (hm : 1 < m) : Rep m feOne 1 := ⟨hm, Nat.cast_one⟩

theorem Rep.montMul_form {c : P256Fe} {x y : ZMod mont.m.toNat}
    (hb : Rep mont.m.toNat b (x * 2 ^ 256)) (hc : Rep mont.m.toNat c (y * 2 ^ 256)) :
    Rep mont.m.toNat (P256.montMul b c mont) (x * y * 2 ^ 256) := by
  rw [mul_assoc]
  exact Rep.montMul hb.eq hc

theorem rep_montSqr4 {x : ZMod mont.m.toNat} (h : Rep mont.m.toNat acc (x * 2 ^ 256)) :
    Rep mont.m.toNat (montSqr4 acc mont) (x ^ 16 * 2 ^ 256) := by
  have h2 := h.montMul_form h
  have h4 := h2.montMul_form h2
  have h8 := h4.montMul_form h4
  have h16 := h8.montMul_form h8
  have hpow : x * x * (x * x) * (x * x * (x * x)) * (x * x * (x * x) * (x * x * (x * x))) =
      x ^ 16 := by ring
  rw [hpow] at h16
  exact h16

theorem rep_toMontgomery (hm : 1 < mont.m.toNat) (a : P256Fe) :
    Rep mont.m.toNat (montMul a mont.rr mont) ((a.toNat : ZMod mont.m.toNat) * 2 ^ 256) := by
  have hrr := mont.rep_rr hm
  have h := rep_montMul a hrr.lt
  have hunit := mont.isUnit_two_pow 256
  refine ⟨h.lt, h.eq.trans ?_⟩
  rw [hrr.eq, mul_assoc, mul_assoc, ZMod.mul_inv_of_unit _ hunit, mul_one]

theorem rep_montInvTable (hm : 1 < mont.m.toNat) (a : P256Fe) (i : Nat) :
    Rep mont.m.toNat (montInvTable a mont i) ((a.toNat : ZMod mont.m.toNat) ^ i * 2 ^ 256) := by
  fun_induction montInvTable a mont i with
  | case1 =>
    rw [pow_zero]
    exact mont.rep_one hm
  | case2 =>
    rw [pow_one]
    exact rep_toMontgomery hm a
  | case3 i ih =>
    rw [pow_succ]
    exact ih.montMul_form (rep_toMontgomery hm a)

theorem invWindow_eq (e : P256Fe) (w : Nat) : invWindow e w = e.toNat / 16 ^ w % 16 := by
  have hmask : (w &&& 15) * 4 = 4 * w % 64 := by
    rw [(Nat.and_two_pow_sub_one_eq_mod w 4 : w &&& 15 = w % 16)]
    omega
  have hlimb : w / 16 = 4 * w / 64 := by omega
  have hpow : 16 ^ w = 2 ^ (4 * w) := pow_mul 2 4 w ▸ rfl
  rw [invWindow, hmask, hlimb, hpow]
  exact e.field_toNat (by omega : 4 < 64) (by omega)

theorem rep_invWindows (hm : 1 < mont.m.toNat) (e : P256Fe) {n : Nat}
    (h : Rep mont.m.toNat acc ((a.toNat : ZMod mont.m.toNat) ^ (e.toNat / 16 ^ n) * 2 ^ 256)) :
    Rep mont.m.toNat (invWindows a e mont n acc)
      ((a.toNat : ZMod mont.m.toNat) ^ e.toNat * 2 ^ 256) := by
  induction n generalizing acc with
  | zero =>
    rw [pow_zero, Nat.div_one] at h
    exact h
  | succ n ih =>
    apply ih
    have hstep := (rep_montSqr4 h).montMul_form (rep_montInvTable hm a (invWindow e n))
    have hexp : e.toNat / 16 ^ (n + 1) * 16 + invWindow e n = e.toNat / 16 ^ n := by
      rw [invWindow_eq, pow_succ, ← Nat.div_div_eq_div_mul]
      omega
    rw [← pow_mul, ← pow_add, hexp] at hstep
    exact hstep

theorem rep_montInv (hm : 2 < mont.m.toNat) (a : P256Fe) :
    Rep mont.m.toNat (montInv a mont)
      ((a.toNat : ZMod mont.m.toNat) ^ (mont.m.toNat - 2)) := by
  have hexp : (p256FeSubRaw mont.m feTwo).toNat = mont.m.toNat - 2 := p256FeSubRaw_toNat hm.le
  have hlt : (p256FeSubRaw mont.m feTwo).toNat < 16 ^ 64 :=
    (p256FeSubRaw mont.m feTwo).toNat_lt.trans_eq (by norm_num)
  have hacc : Rep mont.m.toNat mont.one ((a.toNat : ZMod mont.m.toNat) ^
      ((p256FeSubRaw mont.m feTwo).toNat / 16 ^ 64) * 2 ^ 256) := by
    rw [Nat.div_eq_of_lt hlt, pow_zero]
    exact mont.rep_one (by omega)
  have h := rep_invWindows (by omega) _ hacc
  rw [hexp] at h
  have hfrom := Rep.montMul h.eq (rep_feOne (by omega))
  rw [mul_one] at hfrom
  exact hfrom

end

/-! ## The chain for the prime -/

variable {x : ZMod p256P.toNat} {t m : P256Fe} {i k e : Nat}

theorem rep_fpSqrK (h : Rep p256P.toNat t x) (k : Nat) :
    Rep p256P.toNat (fpSqrK t k) (x ^ 2 ^ k) := by
  induction k with
  | zero =>
    rw [pow_zero, pow_one]
    exact h
  | succ k ih =>
    have hsqr := rep_p256FpMulP ih.eq ih.eq
    rw [← pow_two, ← pow_mul, ← pow_succ] at hsqr
    exact hsqr

theorem rep_chain {u : P256Fe} {j : Nat} (he : i * 2 ^ k + j = e) (ht : Rep p256P.toNat t (x ^ i))
    (hu : Rep p256P.toNat u (x ^ j)) : Rep p256P.toNat (p256FpMulP (fpSqrK t k) u) (x ^ e) := by
  have h := rep_p256FpMulP (rep_fpSqrK ht k).eq hu.eq
  rwa [← pow_mul, ← pow_add, he] at h

theorem rep_onesDouble (he : i * 2 ^ k + i = e) (ht : Rep p256P.toNat t (x ^ i)) :
    Rep p256P.toNat (fpOnesDouble t k) (x ^ e) :=
  rep_chain he ht ht

/-- The exponents of the chain, written so that their bits can be read off. -/
theorem rep_p256FpInvP (ha : a.toNat < p256P.toNat) :
    Rep p256P.toNat (p256FpInvP a) ((a.toNat : ZMod p256P.toNat) ^ (p256P.toNat - 2)) := by
  have h1 : Rep p256P.toNat a ((a.toNat : ZMod p256P.toNat) ^ 1) := ⟨ha, (pow_one _).symm⟩
  have h2 := rep_onesDouble (k := 1) (e := 0x3) (by norm_num) h1
  rw [p256FpInvP]
  generalize fpOnesDouble a 1 = t2 at h2 ⊢
  have h4 := rep_onesDouble (k := 2) (e := 0xf) (by norm_num) h2
  generalize fpOnesDouble t2 2 = t4 at h4 ⊢
  have h8 := rep_onesDouble (k := 4) (e := 0xff) (by norm_num) h4
  generalize fpOnesDouble t4 4 = t8 at h8 ⊢
  have h16 := rep_onesDouble (k := 8) (e := 0xffff) (by norm_num) h8
  generalize fpOnesDouble t8 8 = t16 at h16 ⊢
  have h32 := rep_onesDouble (k := 16) (e := 0xffffffff) (by norm_num) h16
  have hr := rep_chain (k := 32)
    (e := 0xffffffff00000001) (by norm_num) h32 h1
  have hr := rep_chain (k := 128)
    (e := 0xffffffff00000001000000000000000000000000ffffffff) (by norm_num) hr h32
  have hr := rep_chain (k := 32)
    (e := 0xffffffff00000001000000000000000000000000ffffffffffffffff) (by norm_num) hr h32
  have hr := rep_chain (k := 16)
    (e := 0xffffffff00000001000000000000000000000000ffffffffffffffffffff) (by norm_num) hr h16
  have hr := rep_chain (k := 8)
    (e := 0xffffffff00000001000000000000000000000000ffffffffffffffffffffff) (by norm_num) hr h8
  have hr := rep_chain (k := 4)
    (e := 0xffffffff00000001000000000000000000000000fffffffffffffffffffffff) (by norm_num) hr h4
  have hr := rep_chain (k := 2)
    (e := 0x3fffffffc00000004000000000000000000000003fffffffffffffffffffffff) (by norm_num) hr h2
  have hexp : p256P.toNat - 2 =
      0xffffffff00000001000000000000000000000000fffffffffffffffffffffffd := by decide
  rw [hexp]
  exact rep_chain (by norm_num) hr h1

/-! ## The product by long division -/

theorem rep_p256FpMul (hm : 2 ^ 255 ≤ m.toNat) {x y : ZMod m.toNat}
    (ha : (a.toNat : ZMod m.toNat) = x) (hb : (b.toNat : ZMod m.toNat) = y) :
    Rep m.toNat (p256FpMul a b m) (x * y) := by
  have h := p256FpMul_toNat a b hm
  rwa [← rep_iff (by omega), Nat.cast_mul, ha, hb] at h

/-! ## The moduli are prime -/

def primeLinesP : List PrattLine :=
  [⟨115792089210356248762697446949407573530086143415290314195533631308867097853951, 6,
      [2, 3, 5, 5, 17, 257, 641, 1531, 65537, 490463, 6700417,
        835945042244614951780389953367877943453916927241]⟩,
    ⟨835945042244614951780389953367877943453916927241, 11,
      [2, 2, 2, 3, 3, 3, 5, 774023187263532362759620327192479577272145303]⟩,
    ⟨774023187263532362759620327192479577272145303, 3,
      [2, 3, 3, 2411, 34282281433, 11290956913871, 46076956964474543]⟩,
    ⟨46076956964474543, 5, [2, 23, 18169, 78283, 704251]⟩,
    ⟨11290956913871, 13, [2, 5, 17, 66417393611]⟩,
    ⟨66417393611, 6, [2, 5, 53, 173, 197, 3677]⟩,
    ⟨34282281433, 17, [2, 2, 2, 3, 7, 204061199]⟩,
    ⟨204061199, 11, [2, 11, 23, 107, 3769]⟩,
    ⟨6700417, 5, [2, 2, 2, 2, 2, 2, 2, 3, 17449]⟩]

def primeLinesN : List PrattLine :=
  [⟨115792089210356248762697446949407573529996955224135760342422259061068512044369, 7,
      [2, 2, 2, 2, 3, 71, 131, 373, 3407, 17449, 38189, 187019741, 622491383, 1002328039319,
        2624747550333869278416773953]⟩,
    ⟨2624747550333869278416773953, 7,
      [2, 2, 2, 2, 2, 2, 3, 3, 1297, 16879, 208150935158385979]⟩,
    ⟨208150935158385979, 2, [2, 3, 11, 43, 127, 3023, 191039911]⟩,
    ⟨191039911, 3, [2, 3, 5, 41, 155317]⟩,
    ⟨1002328039319, 19, [2, 126241, 3969899]⟩,
    ⟨3969899, 2, [2, 19, 104471]⟩,
    ⟨622491383, 5, [2, 311245691]⟩,
    ⟨311245691, 2, [2, 5, 7, 17, 29, 29, 311]⟩,
    ⟨187019741, 2, [2, 2, 5, 9350987]⟩,
    ⟨9350987, 2, [2, 17, 229, 1201]⟩]

theorem prime_p256P : p256P.toNat.Prime :=
  prime_of_certified (by decide +kernel : certified primeLinesP = true) _ (List.mem_cons_self ..)

theorem prime_p256N : p256N.toNat.Prime :=
  prime_of_certified (by decide +kernel : certified primeLinesN = true) _ (List.mem_cons_self ..)

theorem Rep.inverse {m : Nat} (hm : m.Prime) {r : P256Fe} (ha : a.toNat < m) (h0 : a.toNat ≠ 0)
    (h : Rep m r ((a.toNat : ZMod m) ^ (m - 2))) : r.toNat < m ∧ a.toNat * r.toNat % m = 1 := by
  have hfact : Fact m.Prime := ⟨hm⟩
  have hne : (a.toNat : ZMod m) ≠ 0 := by
    rw [Ne, ZMod.natCast_eq_zero_iff]
    exact Nat.not_dvd_of_pos_of_lt (Nat.pos_of_ne_zero h0) ha
  have hprod : ((a.toNat * r.toNat : Nat) : ZMod m) = (1 : Nat) := by
    rw [Nat.cast_mul, h.eq, ← pow_succ', Nat.cast_one,
      (by omega : m - 2 + 1 = m - 1), ZMod.pow_card_sub_one_eq_one hne]
  rw [ZMod.natCast_eq_natCast_iff', Nat.mod_eq_of_lt (by omega : 1 < m)] at hprod
  exact ⟨h.lt, hprod⟩

end Wired.Crypto.P256
