import Wired.Lib.Checked
import Wired.Lib.FiveLimbs
import Wired.Lib.LittleEndian
import Mathlib.Data.ZMod.Basic

/-!
# The field of X25519

`x25519.c` and `x25519_fe.c`: elements of GF(2^255 - 19) in five limbs of 51 bits, in words of 64
bits, with products in words of 128 bits. Sums, differences, products and narrowings of words are
`Checked`.

The limbs of a product are only just above 51 bits (`weakBound`), those of a sum or a difference of
two products are below `looseBound`, and such limbs may be multiplied again. `Stands b h x` says
that the limbs `h` stand for the field element `x` and are within the bound `b`; the main results
are `feInvert_stands` and `feTobytes_eq`.
-/

namespace Wired.Crypto

open Lib Checked List

/-! ## The model -/

def mask51 : Nat := 0x7ffffffffffff

def fe0 : Limbs := ⟨0, 0, 0, 0, 0⟩

def fe1 : Limbs := { fe0 with l0 := 1 }

def feAdd (f g : Limbs) : Checked Limbs := do
  let h0 ← add 64 f.l0 g.l0
  let h1 ← add 64 f.l1 g.l1
  let h2 ← add 64 f.l2 g.l2
  let h3 ← add 64 f.l3 g.l3
  let h4 ← add 64 f.l4 g.l4
  pure ⟨h0, h1, h2, h3, h4⟩

def twop : Limbs :=
  ⟨0xfffffffffffda, 0xffffffffffffe, 0xffffffffffffe, 0xffffffffffffe, 0xffffffffffffe⟩

def subLimb (f twop g : Nat) : Checked Nat := do
  let t ← add 64 f twop
  sub 64 t g

def feSub (f g : Limbs) : Checked Limbs := do
  let h0 ← subLimb f.l0 twop.l0 g.l0
  let h1 ← subLimb f.l1 twop.l1 g.l1
  let h2 ← subLimb f.l2 twop.l2 g.l2
  let h3 ← subLimb f.l3 twop.l3 g.l3
  let h4 ← subLimb f.l4 twop.l4 g.l4
  pure ⟨h0, h1, h2, h3, h4⟩

def limb (x : Limbs) : Nat → Nat
  | 0 => x.l0
  | 1 => x.l1
  | 2 => x.l2
  | 3 => x.l3
  | _ => x.l4

/-- The factor of limb `j` in column `i`: a term that crosses `2 ^ 255` is taken 19 times. -/
def mulFactor (g : Limbs) (i j : Nat) : Checked Nat :=
  if i ≥ j then pure (limb g (i - j)) else mul 64 (limb g (5 + i - j)) 19

def mulTerm (f g : Limbs) (i t j : Nat) : Checked Nat := do
  let gj ← mulFactor g i j
  let p ← mul 128 (limb f j) gj
  add 128 t p

def mulCol (f g : Limbs) (i : Nat) : Checked Nat :=
  (List.range 5).foldlM (mulTerm f g i) 0

def feReduce (t : Limbs) : Checked Limbs := do
  let c ← narrow 64 (t.l0 / 2 ^ 51)
  let t1 ← add 128 t.l1 c
  let c ← narrow 64 (t1 / 2 ^ 51)
  let t2 ← add 128 t.l2 c
  let c ← narrow 64 (t2 / 2 ^ 51)
  let t3 ← add 128 t.l3 c
  let c ← narrow 64 (t3 / 2 ^ 51)
  let t4 ← add 128 t.l4 c
  let c ← narrow 64 (t4 / 2 ^ 51)
  let c19 ← mul 64 c 19
  let h0 ← add 64 (t.l0 % 2 ^ 64 &&& mask51) c19
  let h1 ← add 64 (t1 % 2 ^ 64 &&& mask51) (h0 / 2 ^ 51)
  pure ⟨h0 &&& mask51, h1, t2 % 2 ^ 64 &&& mask51, t3 % 2 ^ 64 &&& mask51,
    t4 % 2 ^ 64 &&& mask51⟩

/-- The product, carried twice. -/
def feMul (f g : Limbs) : Checked Limbs := do
  let t0 ← mulCol f g 0
  let t1 ← mulCol f g 1
  let t2 ← mulCol f g 2
  let t3 ← mulCol f g 3
  let t4 ← mulCol f g 4
  feReduce ⟨t0, t1, t2, t3, t4⟩

def feSq (f : Limbs) : Checked Limbs := feMul f f

def feMul121666 (f : Limbs) : Checked Limbs := do
  let t0 ← mul 128 f.l0 121666
  let t1 ← mul 128 f.l1 121666
  let t2 ← mul 128 f.l2 121666
  let t3 ← mul 128 f.l3 121666
  let t4 ← mul 128 f.l4 121666
  feReduce ⟨t0, t1, t2, t3, t4⟩

def cswapLimb (mask f g : Nat) : Nat × Nat :=
  let x := mask &&& (f ^^^ g)
  (f ^^^ x, g ^^^ x)

def feCswap (f g : Limbs) (swap : Nat) : Limbs × Limbs :=
  let mask := (2 ^ 64 - swap) % 2 ^ 64
  let c0 := cswapLimb mask f.l0 g.l0
  let c1 := cswapLimb mask f.l1 g.l1
  let c2 := cswapLimb mask f.l2 g.l2
  let c3 := cswapLimb mask f.l3 g.l3
  let c4 := cswapLimb mask f.l4 g.l4
  (⟨c0.1, c1.1, c2.1, c3.1, c4.1⟩, ⟨c0.2, c1.2, c2.2, c3.2, c4.2⟩)

def feSqn (f : Limbs) : (n : Nat) → Checked Limbs
  | 0 => pure f
  | n + 1 => do
    let f ← feSq f
    feSqn f n

/-- The inverse, by a chain of squarings and products. -/
def feInvert (z : Limbs) : Checked Limbs := do
  let t0 ← feSq z
  let t1 ← feSqn t0 2
  let t1 ← feMul z t1
  let t0 ← feMul t0 t1
  let t2 ← feSq t0
  let t1 ← feMul t1 t2
  let t2 ← feSqn t1 5
  let t1 ← feMul t2 t1
  let t2 ← feSqn t1 10
  let t2 ← feMul t2 t1
  let t3 ← feSqn t2 20
  let t2 ← feMul t3 t2
  let t2 ← feSqn t2 10
  let t1 ← feMul t2 t1
  let t2 ← feSqn t1 50
  let t2 ← feMul t2 t1
  let t3 ← feSqn t2 100
  let t2 ← feMul t3 t2
  let t2 ← feSqn t2 50
  let t1 ← feMul t2 t1
  let t1 ← feSqn t1 5
  feMul t1 t0

/-- 32 little-endian bytes in limbs, without the top bit. -/
def feFrombytes (s : Nat → UInt8) : Limbs :=
  let t0 := leLoad s 8
  let t1 := leLoad (fun j => s (8 + j)) 8
  let t2 := leLoad (fun j => s (16 + j)) 8
  let t3 := leLoad (fun j => s (24 + j)) 8
  { l0 := t0 &&& mask51
    l1 := (t0 / 2 ^ 51 ||| t1 * 2 ^ 13 % 2 ^ 64) &&& mask51
    l2 := (t1 / 2 ^ 38 ||| t2 * 2 ^ 26 % 2 ^ 64) &&& mask51
    l3 := (t2 / 2 ^ 25 ||| t3 * 2 ^ 39 % 2 ^ 64) &&& mask51
    l4 := t3 / 2 ^ 12 &&& mask51 }

def storeReduced (r : Limbs) : List UInt8 :=
  leBytes 8 (r.l0 ||| r.l1 * 2 ^ 51 % 2 ^ 64) ++
    leBytes 8 (r.l1 / 2 ^ 13 ||| r.l2 * 2 ^ 38 % 2 ^ 64) ++
    leBytes 8 (r.l2 / 2 ^ 26 ||| r.l3 * 2 ^ 25 % 2 ^ 64) ++
    leBytes 8 (r.l3 / 2 ^ 39 ||| r.l4 * 2 ^ 12 % 2 ^ 64)

def carryLimbs (r : Limbs) : Checked (Limbs × Nat) := do
  let r1 ← add 64 r.l1 (r.l0 / 2 ^ 51)
  let r2 ← add 64 r.l2 (r1 / 2 ^ 51)
  let r3 ← add 64 r.l3 (r2 / 2 ^ 51)
  let r4 ← add 64 r.l4 (r3 / 2 ^ 51)
  pure (⟨r.l0 &&& mask51, r1 &&& mask51, r2 &&& mask51, r3 &&& mask51, r4 &&& mask51⟩,
    r4 / 2 ^ 51)

def carryPass51 (r : Limbs) : Checked Limbs := do
  let rc ← carryLimbs r
  let c19 ← mul 64 rc.2 19
  let r0 ← add 64 rc.1.l0 c19
  pure { rc.1 with l0 := r0 }

/-- The carry out of the last limb is dropped. -/
def carryFinal (r : Limbs) : Checked Limbs := do
  let rc ← carryLimbs r
  pure rc.1

/-- One, if the number plus 19 does not fit in 255 bits. -/
def feQuotient (r : Limbs) : Checked Nat := do
  let s ← add 64 r.l0 19
  let s ← add 64 r.l1 (s / 2 ^ 51)
  let s ← add 64 r.l2 (s / 2 ^ 51)
  let s ← add 64 r.l3 (s / 2 ^ 51)
  let s ← add 64 r.l4 (s / 2 ^ 51)
  pure (s / 2 ^ 51)

/-- The bytes of the canonical number. -/
def feTobytes (h : Limbs) : Checked (List UInt8) := do
  let r ← carryPass51 h
  let r ← carryPass51 r
  let q ← feQuotient r
  let q19 ← mul 64 19 q
  let r0 ← add 64 r.l0 q19
  let r ← carryFinal { r with l0 := r0 }
  pure (storeReduced r)

/-! ## What limbs stand for -/

def curvePrime : Nat := 2 ^ 255 - 19

instance : NeZero curvePrime := ⟨by unfold curvePrime; omega⟩

theorem curvePrime_eq : curvePrime = (2 ^ 51) ^ 5 - 19 := by rw [curvePrime, ← Nat.pow_mul]

/-- What a limb of a product is at most. -/
def weakBound : Nat := 2 ^ 51 + 2 ^ 11

/-- What a limb of a factor may be at most. -/
def looseBound : Nat := 2 ^ 53

/-- The limbs, each at most `b`, stand for the field element `x`. -/
structure Stands (b : Nat) (h : Limbs) (x : ZMod curvePrime) : Prop where
  atMost : h.AtMost b
  value : ((h.value (2 ^ 51) : Nat) : ZMod curvePrime) = x

variable {h f g t r : Limbs} {x : ZMod curvePrime}

theorem Stands.loose (hs : Stands weakBound h x) : Stands looseBound h x :=
  ⟨hs.atMost.mono (by unfold weakBound looseBound; omega), hs.value⟩

theorem mask51_eq (x : Nat) : x &&& mask51 = x % 2 ^ 51 := Nat.and_two_pow_sub_one_eq_mod x 51

theorem word_mod (x : Nat) : x % 2 ^ 64 % 2 ^ 51 = x % 2 ^ 51 := by omega

theorem limb_le {b : Nat} {x : Limbs} (h : x.AtMost b) : ∀ i, limb x i ≤ b
  | 0 => h.l0
  | 1 => h.l1
  | 2 => h.l2
  | 3 => h.l3
  | _ + 4 => h.l4

/-! ## Sums and differences -/

variable {y : ZMod curvePrime}

theorem feAdd_stands (hf : Stands weakBound f x) (hg : Stands weakBound g y) :
    ∃ h, feAdd f g = pure h ∧ Stands looseBound h (x + y) := by
  obtain ⟨⟨f0, f1, f2, f3, f4⟩, hfx⟩ := hf
  obtain ⟨⟨g0, g1, g2, g3, g4⟩, hgy⟩ := hg
  unfold weakBound at *
  unfold feAdd
  simp (disch := omega) only [add_eq, pure_bind]
  refine ⟨_, rfl, ?_, ?_⟩
  · unfold looseBound
    constructor <;> dsimp only <;> omega
  · rw [← hfx, ← hgy, ← Nat.cast_add]
    congr 1
    simp only [Limbs.value]
    ring

theorem subLimb_eq {f t g : Nat} (hf : f ≤ weakBound) (hg : g ≤ weakBound)
    (ht : 2 ^ 52 - 38 ≤ t) (ht' : t ≤ 2 ^ 52) : subLimb f t g = pure (f + t - g) := by
  unfold weakBound at *
  unfold subLimb
  rw [add_eq (by omega), pure_bind, sub_eq (by omega) (by omega)]

theorem feSub_stands (hf : Stands weakBound f x) (hg : Stands weakBound g y) :
    ∃ h, feSub f g = pure h ∧ Stands looseBound h (x - y) := by
  obtain ⟨⟨f0, f1, f2, f3, f4⟩, hfx⟩ := hf
  obtain ⟨⟨g0, g1, g2, g3, g4⟩, hgy⟩ := hg
  unfold feSub twop
  dsimp only
  rw [subLimb_eq f0 g0 (by omega) (by omega), pure_bind,
    subLimb_eq f1 g1 (by omega) (by omega), pure_bind,
    subLimb_eq f2 g2 (by omega) (by omega), pure_bind,
    subLimb_eq f3 g3 (by omega) (by omega), pure_bind,
    subLimb_eq f4 g4 (by omega) (by omega), pure_bind]
  unfold weakBound at *
  refine ⟨_, rfl, ?_, ?_⟩
  · unfold looseBound
    constructor <;> dsimp only <;> omega
  · -- the limbs of `2p - g` are taken together
    rw [← hfx, ← hgy, eq_sub_iff_add_eq, ← Nat.cast_add]
    have hsum : Limbs.value (2 ^ 51) ⟨f.l0 + 0xfffffffffffda - g.l0, f.l1 + 0xffffffffffffe - g.l1,
        f.l2 + 0xffffffffffffe - g.l2, f.l3 + 0xffffffffffffe - g.l3,
        f.l4 + 0xffffffffffffe - g.l4⟩ + g.value (2 ^ 51) =
          f.value (2 ^ 51) + curvePrime * 2 := by
      simp only [Limbs.value, curvePrime]
      omega
    rw [hsum, Nat.cast_add, Nat.cast_mul, ZMod.natCast_self, zero_mul, add_zero]

/-! ## Products -/

def colFactor (g : Limbs) (i j : Nat) : Nat :=
  if i ≥ j then limb g (i - j) else limb g (5 + i - j) * 19

theorem mulFactor_eq (hg : g.AtMost looseBound) (i j : Nat) :
    mulFactor g i j = pure (colFactor g i j) := by
  unfold mulFactor colFactor
  split
  · rfl
  · have hlimb := limb_le hg (5 + i - j)
    unfold looseBound at hlimb
    rw [mul_eq (by omega)]

theorem mulCol_loop (hg : g.AtMost looseBound) (i : Nat) (js : List Nat) (t : Nat)
    (hlt : t + (js.map fun j => limb f j * colFactor g i j).sum < 2 ^ 128) :
    js.foldlM (mulTerm f g i) t = pure (t + (js.map fun j => limb f j * colFactor g i j).sum) := by
  induction js generalizing t with
  | nil => rfl
  | cons j js ih =>
    rw [map_cons, sum_cons] at hlt
    rw [foldlM_cons, mulTerm, mulFactor_eq hg, pure_bind, mul_eq (by omega), pure_bind,
      add_eq (by omega), pure_bind, ih _ (by omega), map_cons, sum_cons, add_assoc]

theorem mulCol_eq (hf : f.AtMost looseBound) (hg : g.AtMost looseBound) {i : Nat} (hi : i < 5) :
    mulCol f g i = pure (limb (Limbs.columns 19 f g) i) := by
  have hsum : 0 + ((List.range 5).map fun j => limb f j * colFactor g i j).sum =
      limb (Limbs.columns 19 f g) i := by
    have hrange : List.range 5 = [0, 1, 2, 3, 4] := rfl
    rw [hrange]
    match i, hi with
    | 0, _ | 1, _ | 2, _ | 3, _ | 4, _ =>
      simp [limb, colFactor, Limbs.columns]
      ring
  have hlt := limb_le (Limbs.columns_atMost hf hg (by omega : 1 ≤ 19)) i
  unfold looseBound at hlt
  rw [← hsum] at hlt ⊢
  exact mulCol_loop hg i _ 0 (by omega)

theorem feReduce_eq (ht : t.AtMost (2 ^ 113)) (hlast : t.l4 ≤ 5 * (looseBound * looseBound)) :
    feReduce t = pure (t.reduce (2 ^ 51) 19) ∧ (t.reduce (2 ^ 51) 19).AtMost weakBound := by
  obtain ⟨h0, h1, h2, h3, -⟩ := ht
  unfold looseBound at hlast
  constructor
  · unfold feReduce
    simp only [mask51_eq, word_mod]
    simp (disch := omega) only [narrow_eq, add_eq, mul_eq, pure_bind]
    rfl
  · unfold weakBound
    constructor <;> simp only [Limbs.reduce, Limbs.carryPass, Limbs.carry] <;> omega

theorem reduce_stands (ht : t.AtMost (2 ^ 113)) (hlast : t.l4 ≤ 5 * (looseBound * looseBound)) :
    ∃ h, feReduce t = pure h ∧ Stands weakBound h (t.value (2 ^ 51) : Nat) := by
  obtain ⟨hreduce, hbound⟩ := feReduce_eq ht hlast
  refine ⟨_, hreduce, hbound, ?_⟩
  rw [ZMod.natCast_eq_natCast_iff, curvePrime_eq]
  exact Limbs.reduce_value (by omega) t

theorem feMul_stands (hf : Stands looseBound f x) (hg : Stands looseBound g y) :
    ∃ h, feMul f g = pure h ∧ Stands weakBound h (x * y) := by
  have hcols := Limbs.columns_atMost hf.atMost hg.atMost (by omega : 1 ≤ 19)
  obtain ⟨h, hreduce, hstands⟩ := reduce_stands
    (hcols.mono (by unfold looseBound; omega)) (Limbs.columns_l4_le hf.atMost hg.atMost)
  refine ⟨h, ?_, hstands.atMost, ?_⟩
  · unfold feMul
    simp (disch := omega) only [mulCol_eq hf.atMost hg.atMost, pure_bind]
    exact hreduce
  · rw [hstands.value, ← hf.value, ← hg.value, ← Nat.cast_mul, ZMod.natCast_eq_natCast_iff,
      curvePrime_eq]
    exact Limbs.value_columns (by omega) f g

theorem feSq_stands (hf : Stands looseBound f x) :
    ∃ h, feSq f = pure h ∧ Stands weakBound h (x ^ 2) := by
  rw [pow_two]
  exact feMul_stands hf hf

theorem feMul121666_stands (hf : Stands looseBound f x) :
    ∃ h, feMul121666 f = pure h ∧ Stands weakBound h (121666 * x) := by
  obtain ⟨⟨f0, f1, f2, f3, f4⟩, hfx⟩ := hf
  obtain ⟨h, hreduce, hstands⟩ := reduce_stands (t := ⟨f.l0 * 121666, f.l1 * 121666,
    f.l2 * 121666, f.l3 * 121666, f.l4 * 121666⟩)
    (by unfold looseBound at *; constructor <;> dsimp only <;> omega)
    (by unfold looseBound at *; dsimp only; omega)
  refine ⟨h, ?_, hstands.atMost, ?_⟩
  · unfold looseBound at *
    unfold feMul121666
    simp (disch := omega) only [mul_eq, pure_bind]
    exact hreduce
  · have hvalue : Limbs.value (2 ^ 51) ⟨f.l0 * 121666, f.l1 * 121666, f.l2 * 121666,
        f.l3 * 121666, f.l4 * 121666⟩ = 121666 * f.value (2 ^ 51) := by
      simp only [Limbs.value]
      ring
    rw [hstands.value, hvalue, Nat.cast_mul, hfx]
    rfl

/-! ## Swaps -/

theorem cswapLimb_zero (f g : Nat) : cswapLimb 0 f g = (f, g) := by
  simp [cswapLimb]

theorem cswapLimb_ones {f g : Nat} (hf : f < 2 ^ 64) (hg : g < 2 ^ 64) :
    cswapLimb (2 ^ 64 - 1) f g = (g, f) := by
  have hmask : 2 ^ 64 - 1 &&& (f ^^^ g) = f ^^^ g := by
    rw [Nat.and_comm, Nat.and_two_pow_sub_one_eq_mod, Nat.mod_eq_of_lt (Nat.xor_lt_two_pow hf hg)]
  have hleft : f ^^^ (f ^^^ g) = g := Nat.xor_xor_cancel_left f g
  have hright : g ^^^ (f ^^^ g) = f := by rw [Nat.xor_comm f g, Nat.xor_xor_cancel_left]
  rw [cswapLimb, hmask, hleft, hright]

theorem feCswap_eq (hf : f.AtMost weakBound) (hg : g.AtMost weakBound) {swap : Nat}
    (hswap : swap < 2) : feCswap f g swap = if swap = 1 then (g, f) else (f, g) := by
  obtain ⟨f0, f1, f2, f3, f4⟩ := hf
  obtain ⟨g0, g1, g2, g3, g4⟩ := hg
  unfold weakBound at *
  by_cases h1 : swap = 1
  · have hmask : (2 ^ 64 - swap) % 2 ^ 64 = 2 ^ 64 - 1 := by omega
    rw [if_pos h1, feCswap, hmask]
    simp (disch := omega) only [cswapLimb_ones]
  · have hmask : (2 ^ 64 - swap) % 2 ^ 64 = 0 := by omega
    rw [if_neg h1, feCswap, hmask]
    simp only [cswapLimb_zero]

/-! ## Inversion -/

section

variable {a b : Nat}

theorem feMul_pow (hf : Stands weakBound f (x ^ a)) (hg : Stands weakBound g (x ^ b)) :
    ∃ h, feMul f g = pure h ∧ Stands weakBound h (x ^ (a + b)) := by
  rw [pow_add]
  exact feMul_stands hf.loose hg.loose

theorem feSqn_pow (n : Nat) (hf : Stands weakBound f (x ^ a)) :
    ∃ h, feSqn f n = pure h ∧ Stands weakBound h (x ^ (a * 2 ^ n)) := by
  induction n generalizing f a with
  | zero =>
    rw [pow_zero, mul_one]
    exact ⟨f, rfl, hf⟩
  | succ n ih =>
    obtain ⟨h, hsq, hstands⟩ := feMul_pow hf hf
    obtain ⟨h', hrest, hstands'⟩ := ih hstands
    refine ⟨h', ?_, ?_⟩
    · rw [feSqn, feSq, hsq, pure_bind, hrest]
    · rwa [Nat.pow_succ', ← mul_assoc, Nat.mul_two]

end

/-- The addition chain computes the power `p - 2`. -/
theorem feInvert_stands {z : Limbs} (hz : Stands weakBound z x) :
    ∃ h, feInvert z = pure h ∧ Stands weakBound h (x ^ (curvePrime - 2)) := by
  have hz : Stands weakBound z (x ^ 1) := by rwa [pow_one]
  obtain ⟨z2, e2, h2⟩ := feMul_pow hz hz
  obtain ⟨z8, e8, h8⟩ := feSqn_pow 2 h2
  obtain ⟨z9, e9, h9⟩ := feMul_pow hz h8
  obtain ⟨z11, e11, h11⟩ := feMul_pow h2 h9
  obtain ⟨z22, e22, h22⟩ := feMul_pow h11 h11
  obtain ⟨ones5, eo5, ho5⟩ := feMul_pow h9 h22
  obtain ⟨t5, et5, ht5⟩ := feSqn_pow 5 ho5
  obtain ⟨ones10, eo10, ho10⟩ := feMul_pow ht5 ho5
  obtain ⟨t10, et10, ht10⟩ := feSqn_pow 10 ho10
  obtain ⟨ones20, eo20, ho20⟩ := feMul_pow ht10 ho10
  obtain ⟨t20, et20, ht20⟩ := feSqn_pow 20 ho20
  obtain ⟨ones40, eo40, ho40⟩ := feMul_pow ht20 ho20
  obtain ⟨t40, et40, ht40⟩ := feSqn_pow 10 ho40
  obtain ⟨ones50, eo50, ho50⟩ := feMul_pow ht40 ho10
  obtain ⟨t50, et50, ht50⟩ := feSqn_pow 50 ho50
  obtain ⟨ones100, eo100, ho100⟩ := feMul_pow ht50 ho50
  obtain ⟨t100, et100, ht100⟩ := feSqn_pow 100 ho100
  obtain ⟨ones200, eo200, ho200⟩ := feMul_pow ht100 ho100
  obtain ⟨t200, et200, ht200⟩ := feSqn_pow 50 ho200
  obtain ⟨ones250, eo250, ho250⟩ := feMul_pow ht200 ho50
  obtain ⟨t250, et250, ht250⟩ := feSqn_pow 5 ho250
  obtain ⟨out, eout, hout⟩ := feMul_pow ht250 h11
  refine ⟨out, ?_, ?_⟩
  · simp only [feInvert, feSq, e2, e8, e9, e11, e22, eo5, et5, eo10, et10, eo20, et20, eo40, et40,
      eo50, et50, eo100, et100, eo200, et200, eo250, et250, eout, pure_bind]
  · convert hout using 2
    norm_num [curvePrime]

/-! ## Bytes -/

theorem feFrombytes_stands (s : Nat → UInt8) :
    Stands weakBound (feFrombytes s) (leVal s 32 % 2 ^ 255 : Nat) := by
  have hwords : leVal s 32 = leVal s 8 + 2 ^ 64 * leVal (fun i => s (8 + i)) 8 +
      2 ^ 128 * leVal (fun i => s (16 + i)) 8 + 2 ^ 192 * leVal (fun i => s (24 + i)) 8 := by
    rw [leVal_add s 24 8, leVal_add s 16 8, leVal_add s 8 8]
  have h0 := leVal_lt s 8
  have h1 := leVal_lt (fun i => s (8 + i)) 8
  have h2 := leVal_lt (fun i => s (16 + i)) 8
  simp only [feFrombytes, leLoad_eq, mask51_eq]
  generalize leVal (fun i => s (8 + i)) 8 = t1 at *
  generalize leVal (fun i => s (16 + i)) 8 = t2 at *
  generalize leVal (fun i => s (24 + i)) 8 = t3 at *
  rw [or_shl_mod t1 (by omega) (by omega), or_shl_mod t2 (by omega) (by omega),
    or_shl_mod t3 (by omega) (by omega)]
  constructor
  · unfold weakBound
    constructor <;> dsimp only <;> omega
  · congr 1
    simp only [Limbs.value]
    omega

theorem carryLimbs_eq (hr : r.AtMost (2 ^ 52)) : carryLimbs r = pure (r.carry (2 ^ 51)) := by
  obtain ⟨h0, h1, h2, h3, h4⟩ := hr
  unfold carryLimbs
  simp only [mask51_eq]
  simp (disch := omega) only [add_eq, pure_bind]
  rfl

theorem carryPass51_eq (hr : r.AtMost (2 ^ 52)) :
    carryPass51 r = pure (r.carryPass (2 ^ 51) 19) := by
  have hcarry := carryLimbs_eq hr
  obtain ⟨h0, h1, h2, h3, h4⟩ := hr
  unfold carryPass51
  rw [hcarry, pure_bind]
  have hlow : (r.carry (2 ^ 51)).1.l0 < 2 ^ 51 := Nat.mod_lt _ (Nat.two_pow_pos 51)
  have hcarry_le : (r.carry (2 ^ 51)).2 ≤ 4 := by
    simp only [Limbs.carry]
    omega
  rw [mul_eq (by omega), pure_bind, add_eq (by omega), pure_bind]
  rfl

/-- Two passes leave digits, and a number below `2 ^ 255`. -/
theorem twoPasses_lt (hh : h.AtMost weakBound) :
    let r := (h.carryPass (2 ^ 51) 19).carryPass (2 ^ 51) 19
    (h.carryPass (2 ^ 51) 19).AtMost (2 ^ 52) ∧ r.l0 < 2 ^ 51 ∧ r.l1 < 2 ^ 51 ∧ r.l2 < 2 ^ 51 ∧
      r.l3 < 2 ^ 51 ∧ r.l4 < 2 ^ 51 := by
  intro r
  have hfirst : let s := h.carryPass (2 ^ 51) 19
      s.l0 < 2 ^ 51 + 19 ∧ s.l1 < 2 ^ 51 ∧ s.l2 < 2 ^ 51 ∧ s.l3 < 2 ^ 51 ∧ s.l4 < 2 ^ 51 := by
    obtain ⟨h0, h1, h2, h3, h4⟩ := hh
    unfold weakBound at *
    simp only [Limbs.carryPass, Limbs.carry]
    omega
  refine ⟨by constructor <;> omega, ?_⟩
  simp only [r]
  generalize h.carryPass (2 ^ 51) 19 = s at *
  simp only [Limbs.carryPass, Limbs.carry]
  omega

section

variable (h0 : r.l0 < 2 ^ 51) (h1 : r.l1 < 2 ^ 51) (h2 : r.l2 < 2 ^ 51) (h3 : r.l3 < 2 ^ 51)
  (h4 : r.l4 < 2 ^ 51)
include h0 h1 h2 h3 h4

theorem storeReduced_eq : storeReduced r = leBytes 32 (r.value (2 ^ 51)) := by
  unfold storeReduced
  rw [or_shl_mod _ h0 (by omega), or_shl_mod _ (by omega) (by omega),
    or_shl_mod _ (by omega) (by omega), or_shl_mod _ (by omega) (by omega),
    leBytes_append _ _ _ (by omega), leBytes_append _ _ _ (by omega),
    leBytes_append _ _ _ (by omega)]
  congr 1
  simp only [Limbs.value]
  omega

theorem feQuotient_eq : feQuotient r = pure ((r.value (2 ^ 51) + 19) / 2 ^ 255) := by
  unfold feQuotient
  simp (disch := omega) only [add_eq, pure_bind]
  congr 1
  simp only [Limbs.value]
  omega

end

theorem feTobytes_eq (hh : Stands weakBound h x) : feTobytes h = pure (leBytes 32 x.val) := by
  have hweak : h.AtMost (2 ^ 52) := hh.atMost.mono (by unfold weakBound; omega)
  obtain ⟨hpass, r0, r1, r2, r3, r4⟩ := twoPasses_lt hh.atMost
  have hvalue : x.val =
      ((h.carryPass (2 ^ 51) 19).carryPass (2 ^ 51) 19).value (2 ^ 51) % curvePrime := by
    rw [← hh.value, ZMod.val_natCast, curvePrime_eq]
    exact ((Limbs.carryPass_value (by omega) _).trans (Limbs.carryPass_value (by omega) _)).symm
  unfold feTobytes
  rw [carryPass51_eq hweak, pure_bind, carryPass51_eq hpass, pure_bind]
  generalize (h.carryPass (2 ^ 51) 19).carryPass (2 ^ 51) 19 = r at *
  have hlt : r.value (2 ^ 51) < 2 ^ 255 := by
    have := Limbs.value_lt r0 r1 r2 r3 r4
    omega
  rw [feQuotient_eq r0 r1 r2 r3 r4, pure_bind]
  generalize hq : (r.value (2 ^ 51) + 19) / 2 ^ 255 = q
  rw [mul_eq (by omega), pure_bind, add_eq (by omega), pure_bind]
  have hmost : Limbs.AtMost (2 ^ 52) { r with l0 := r.l0 + 19 * q } := by
    constructor <;> dsimp only <;> omega
  have hsum : Limbs.value (2 ^ 51) { r with l0 := r.l0 + 19 * q } = r.value (2 ^ 51) + 19 * q := by
    simp only [Limbs.value]
    omega
  have hcarry := Limbs.carry_value (2 ^ 51) { r with l0 := r.l0 + 19 * q }
  generalize hr' : ({ r with l0 := r.l0 + 19 * q } : Limbs) = r' at *
  have hdigits : ∀ y, y % 2 ^ 51 < 2 ^ 51 := fun y => Nat.mod_lt _ (Nat.two_pow_pos 51)
  have hlast : (r'.carry (2 ^ 51)).1.value (2 ^ 51) < 2 ^ 255 := by
    have := Limbs.value_lt (x := (r'.carry (2 ^ 51)).1) (hdigits _) (hdigits _) (hdigits _)
      (hdigits _) (hdigits _)
    omega
  rw [carryFinal, carryLimbs_eq hmost, pure_bind]
  rw [pure_bind, storeReduced_eq (hdigits _) (hdigits _) (hdigits _) (hdigits _) (hdigits _), hvalue]
  congr 2
  unfold curvePrime
  -- nothing or the modulus is subtracted
  obtain rfl | rfl : q = 0 ∨ q = 1 := by omega
  · omega
  · omega

end Wired.Crypto
