import Wired.Crypto.P256Field
import Mathlib.Algebra.BigOperators.Intervals
import Mathlib.Algebra.BigOperators.Ring.Finset
import Mathlib.Tactic.LinearCombination

/-!
# Products modulo the P-256 prime

`p256_field_p256.c`: the remainder of a product of 512 bits modulo
`p = 2^256 - 2^224 + 2^192 + 2^96 - 1`. A table puts the sixteen words of 32 bits together to nine
numbers, and the remainder is a sum of these with signs.

* `solinas_identity`: the table is right, in any ring with `x^8 = x^7 - x^6 - x^3 + 1`.
* `rep_p256FpMulP`: the product modulo the prime.
-/

namespace Wired.Crypto.P256

open Lib Finset

/-! ## The model -/

def p256W32 (w : Words 8) (c : Nat) : UInt64 :=
  (w.limb (c / 2) >>> UInt64.ofNat (32 * (c &&& 1))) &&& 0xffffffff

def fromWords (e : Nat → UInt64) : P256Fe where
  list := (List.range 4).map fun i => e (2 * i) ||| (e (2 * i + 1) <<< 32)
  length_list := by simp

/-- The words of the nine terms; `0xff` stands for a zero word. -/
def p256Terms : List (List Nat) :=
  [[0, 1, 2, 3, 4, 5, 6, 7],
    [0xff, 0xff, 0xff, 11, 12, 13, 14, 15],
    [0xff, 0xff, 0xff, 12, 13, 14, 15, 0xff],
    [8, 9, 10, 0xff, 0xff, 0xff, 14, 15],
    [9, 10, 11, 13, 14, 15, 13, 8],
    [11, 12, 13, 0xff, 0xff, 0xff, 8, 10],
    [12, 13, 14, 15, 0xff, 0xff, 9, 11],
    [13, 14, 15, 8, 9, 10, 0xff, 12],
    [14, 15, 0xff, 9, 10, 11, 0xff, 13]]

def termWord (w : Words 8) (t i : Nat) : UInt64 :=
  let c := (p256Terms.getD t []).getD i 0xff
  if c = 0xff then 0 else p256W32 w c

def reduceOnceP (r : P256Fe) : P256Fe :=
  if p256FeGe r p256P then p256FeSubRaw r p256P else r

def buildTerm (w : Words 8) (t : Nat) : P256Fe := reduceOnceP (fromWords (termWord w t))

def fpAddP (r t : P256Fe) : P256Fe := p256FpAdd r t p256P

def fpSubP (r t : P256Fe) : P256Fe := p256FpSub r t p256P

def reduceAddHalf (w : Words 8) : P256Fe :=
  let r := buildTerm w 0
  let t := buildTerm w 1
  let r := fpAddP r t
  let r := fpAddP r t
  let t := buildTerm w 2
  let r := fpAddP r t
  let r := fpAddP r t
  let t := buildTerm w 3
  let r := fpAddP r t
  let t := buildTerm w 4
  fpAddP r t

def reduceSubHalf (r : P256Fe) (w : Words 8) : P256Fe :=
  [5, 6, 7, 8].foldl (fun r k => fpSubP r (buildTerm w k)) r

def fpReduceP256 (w : Words 8) : P256Fe := reduceSubHalf (reduceAddHalf w) w

def p256FpMulP (a b : P256Fe) : P256Fe := fpReduceP256 (p256FeMulWide a b)

def p256FpSqrP (a : P256Fe) : P256Fe := p256FpMulP a a

/-! ## Representations -/

/-- The four limbs are the fully reduced representation of `x` modulo `m`. -/
structure Rep (m : Nat) (a : P256Fe) (x : ZMod m) : Prop where
  lt : a.toNat < m
  eq : (a.toNat : ZMod m) = x

theorem rep_iff {m : Nat} {a : P256Fe} {k : Nat} (hm : 0 < m) :
    Rep m a (k : ZMod m) ↔ a.toNat = k % m := by
  constructor
  · intro h
    have hmod := (ZMod.natCast_eq_natCast_iff' a.toNat k m).mp h.eq
    rwa [Nat.mod_eq_of_lt h.lt] at hmod
  · intro h
    refine ⟨h.trans_lt (Nat.mod_lt k hm), ?_⟩
    rw [h, ZMod.natCast_mod]

section

variable {m a b : P256Fe} {x y : ZMod m.toNat} (ha : Rep m.toNat a x) (hb : Rep m.toNat b y)
include ha hb

theorem Rep.add : Rep m.toNat (p256FpAdd a b m) (x + y) := by
  have hv := p256FpAdd_toNat ha.lt hb.lt
  rw [← rep_iff (Nat.zero_lt_of_lt ha.lt), Nat.cast_add, ha.eq, hb.eq] at hv
  exact hv

theorem Rep.sub : Rep m.toNat (p256FpSub a b m) (x - y) := by
  have hle : b.toNat ≤ a.toNat + m.toNat := by have := hb.lt; omega
  have hv := p256FpSub_toNat ha.lt hb.lt
  rw [← rep_iff (Nat.zero_lt_of_lt ha.lt), Nat.cast_sub hle, Nat.cast_add, ZMod.natCast_self,
    add_zero, ha.eq, hb.eq] at hv
  exact hv

end

/-! ## The words of a number -/

theorem p256W32_toNat (w : Words 8) (c : Nat) :
    (p256W32 w c).toNat = w.toNat / 2 ^ (32 * c) % 2 ^ 32 := by
  have hmask : 32 * (c &&& 1) = 32 * c % 64 := by
    rw [Nat.and_one_is_mod]
    omega
  have hlimb : c / 2 = 32 * c / 64 := by omega
  rw [p256W32, hmask, hlimb]
  exact w.field_toNat (by omega : 32 < 64) (by omega)

theorem sum_words (y n : Nat) :
    y % 2 ^ (32 * n) = ∑ i ∈ range n, y / 2 ^ (32 * i) % 2 ^ 32 * 2 ^ (32 * i) := by
  induction n with
  | zero => exact Nat.mod_one y
  | succ n ih => rw [sum_range_succ, ← ih, Nat.mul_succ, pow_add, Nat.mod_mul, mul_comm (2 ^ _)]

theorem join_toNat {lo hi : UInt64} (hlo : lo.toNat < 2 ^ 32) (hhi : hi.toNat < 2 ^ 32) :
    (lo ||| (hi <<< 32)).toNat = lo.toNat + 2 ^ 32 * hi.toNat := by
  have hfit : hi.toNat * 2 ^ 32 < 2 ^ 64 := by omega
  have hshift : (hi <<< 32).toNat = hi.toNat * 2 ^ 32 := by
    rw [UInt64.toNat_shiftLeft, Nat.shiftLeft_eq]
    exact Nat.mod_eq_of_lt hfit
  rw [UInt64.toNat_or, hshift, or_shl hlo, mul_comm]

theorem fromWords_toNat {e : Nat → UInt64} (he : ∀ i, (e i).toNat < 2 ^ 32) :
    (fromWords e).toNat = ∑ i ∈ range 8, (e i).toNat * 2 ^ (32 * i) := by
  have hlist : (fromWords e).list =
      [e 0 ||| (e 1 <<< 32), e 2 ||| (e 3 <<< 32), e 4 ||| (e 5 <<< 32),
        e 6 ||| (e 7 <<< 32)] := rfl
  rw [Words.toNat, hlist]
  simp only [limbVal_cons, limbVal_nil, sum_range_succ, sum_range_zero]
  rw [join_toNat (he 0) (he 1), join_toNat (he 2) (he 3), join_toNat (he 4) (he 5),
    join_toNat (he 6) (he 7)]
  omega

/-! ## The table -/

def primeP : Nat := 2 ^ 256 - 2 ^ 224 + 2 ^ 192 + 2 ^ 96 - 1

theorem p256P_toNat : p256P.toNat = primeP := by decide

/-- The reduction by the table, for the words `c` of a number in base `x`. -/
theorem solinas_identity {R : Type*} [CommRing R] {x : R} (hx : x ^ 8 = x ^ 7 - x ^ 6 - x ^ 3 + 1)
    (c : Nat → R) :
    (c 0 + c 1 * x + c 2 * x ^ 2 + c 3 * x ^ 3 + c 4 * x ^ 4 + c 5 * x ^ 5 + c 6 * x ^ 6 +
        c 7 * x ^ 7) +
      (c 11 * x ^ 3 + c 12 * x ^ 4 + c 13 * x ^ 5 + c 14 * x ^ 6 + c 15 * x ^ 7) +
      (c 11 * x ^ 3 + c 12 * x ^ 4 + c 13 * x ^ 5 + c 14 * x ^ 6 + c 15 * x ^ 7) +
      (c 12 * x ^ 3 + c 13 * x ^ 4 + c 14 * x ^ 5 + c 15 * x ^ 6) +
      (c 12 * x ^ 3 + c 13 * x ^ 4 + c 14 * x ^ 5 + c 15 * x ^ 6) +
      (c 8 + c 9 * x + c 10 * x ^ 2 + c 14 * x ^ 6 + c 15 * x ^ 7) +
      (c 9 + c 10 * x + c 11 * x ^ 2 + c 13 * x ^ 3 + c 14 * x ^ 4 + c 15 * x ^ 5 + c 13 * x ^ 6 +
        c 8 * x ^ 7) -
      (c 11 + c 12 * x + c 13 * x ^ 2 + c 8 * x ^ 6 + c 10 * x ^ 7) -
      (c 12 + c 13 * x + c 14 * x ^ 2 + c 15 * x ^ 3 + c 9 * x ^ 6 + c 11 * x ^ 7) -
      (c 13 + c 14 * x + c 15 * x ^ 2 + c 8 * x ^ 3 + c 9 * x ^ 4 + c 10 * x ^ 5 + c 12 * x ^ 7) -
      (c 14 + c 15 * x + c 9 * x ^ 3 + c 10 * x ^ 4 + c 11 * x ^ 5 + c 13 * x ^ 7) =
    ∑ i ∈ range 16, c i * x ^ i := by
  simp only [sum_range_succ, sum_range_zero]
  linear_combination
    (-(c 8 + c 9 * (1 + x) + c 10 * (x + x ^ 2) + c 11 * (-1 + x ^ 2 + x ^ 3) +
      c 12 * (-1 - x + x ^ 3 + x ^ 4) + c 13 * (-1 - x - x ^ 2 + x ^ 4 + x ^ 5) +
      c 14 * (-1 - x - x ^ 2 - x ^ 3 + x ^ 5 + x ^ 6) +
      c 15 * (-x - x ^ 2 - x ^ 3 - x ^ 4 + x ^ 6 + x ^ 7))) * hx

theorem solinas_base : ((2 : ZMod p256P.toNat) ^ 32) ^ 8 =
    (2 ^ 32) ^ 7 - (2 ^ 32) ^ 6 - (2 ^ 32) ^ 3 + 1 := by
  have hp : ((2 ^ 256 - 2 ^ 224 + 2 ^ 192 + 2 ^ 96 - 1 : Nat) : ZMod p256P.toNat) = 0 := by
    rw [← primeP, ← p256P_toNat, ZMod.natCast_self]
  linear_combination hp

/-! ## The terms -/

def wordP (w : Words 8) (c : Nat) : ZMod p256P.toNat := ((p256W32 w c).toNat : Nat)

theorem rep_reduceOnceP (r : P256Fe) : Rep p256P.toNat (reduceOnceP r) (r.toNat : Nat) := by
  have hr := r.toNat_lt
  have hp := p256P_toNat
  rw [rep_iff (by decide), reduceOnceP]
  have hdouble : 2 ^ (64 * 4) < 2 * primeP := by decide
  refine Words.subIf_toNat (c := 0) (add_zero _) (by omega) ?_
  rw [p256FeGe_iff, ne_self_iff_false, false_or]

def termSum (w : Words 8) (t : Nat) : ZMod p256P.toNat :=
  ∑ i ∈ range 8, ((termWord w t i).toNat : ZMod p256P.toNat) * (2 ^ 32) ^ i

section

variable (w : Words 8)

theorem sum_wordP : ∑ i ∈ range 16, wordP w i * (2 ^ 32) ^ i = (w.toNat : ZMod p256P.toNat) := by
  have hsum := sum_words w.toNat 16
  have hlt : w.toNat < 2 ^ (32 * 16) := w.toNat_lt.trans_eq (congrArg (2 ^ ·) (by decide))
  rw [Nat.mod_eq_of_lt hlt] at hsum
  rw [hsum, Nat.cast_sum]
  refine sum_congr rfl fun i _ => ?_
  rw [wordP, p256W32_toNat, Nat.cast_mul, pow_mul, Nat.cast_pow, Nat.cast_pow, Nat.cast_ofNat]

theorem termWord_lt (t i : Nat) : (termWord w t i).toNat < 2 ^ 32 := by
  rw [termWord]
  split
  · decide
  · rw [p256W32_toNat]
    exact Nat.mod_lt _ (by omega)

theorem rep_buildTerm (t : Nat) : Rep p256P.toNat (buildTerm w t) (termSum w t) := by
  have hsum := rep_reduceOnceP (fromWords (termWord w t))
  rw [fromWords_toNat (termWord_lt w t), Nat.cast_sum] at hsum
  refine ⟨hsum.lt, hsum.eq.trans (sum_congr rfl fun i _ => ?_)⟩
  rw [Nat.cast_mul, pow_mul, Nat.cast_pow, Nat.cast_pow, Nat.cast_ofNat]

theorem rep_terms :
    Rep p256P.toNat (fpReduceP256 w)
      (termSum w 0 + termSum w 1 + termSum w 1 + termSum w 2 + termSum w 2 + termSum w 3 +
        termSum w 4 - termSum w 5 - termSum w 6 - termSum w 7 - termSum w 8) := by
  have hterm := rep_buildTerm w
  simp only [fpReduceP256, reduceSubHalf, reduceAddHalf, fpAddP, fpSubP, List.foldl_cons,
    List.foldl_nil]
  have hadd := ((((((hterm 0).add (hterm 1)).add (hterm 1)).add (hterm 2)).add (hterm 2)).add
    (hterm 3)).add (hterm 4)
  exact (((hadd.sub (hterm 5)).sub (hterm 6)).sub (hterm 7)).sub (hterm 8)

theorem rep_fpReduceP256 : Rep p256P.toNat (fpReduceP256 w) (w.toNat : ZMod p256P.toNat) := by
  have hid := solinas_identity solinas_base (wordP w)
  have hterms := rep_terms w
  rw [sum_wordP] at hid
  refine ⟨hterms.lt, hterms.eq.trans (Eq.trans ?_ hid)⟩
  simp only [termSum, sum_range_succ, sum_range_zero, termWord, p256Terms, wordP]
  simp

end

theorem rep_p256FpMulP {a b : P256Fe} {x y : ZMod p256P.toNat} (ha : (a.toNat : ZMod _) = x)
    (hb : (b.toNat : ZMod _) = y) : Rep p256P.toNat (p256FpMulP a b) (x * y) := by
  have h := rep_fpReduceP256 (p256FeMulWide a b)
  rw [p256FeMulWide_toNat, Nat.cast_mul, ha, hb] at h
  exact h

end Wired.Crypto.P256
