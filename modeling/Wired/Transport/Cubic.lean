import Mathlib.Tactic.Linarith
import Mathlib.Tactic.Ring
import Wired.Lib.Checked
import Wired.Lib.Word

/-!
# The curve of CUBIC

`cubic.c`: the cube root by binary digits, and the window as a function of the time since the last
loss, in segments and milliseconds. The constants are those of RFC 9438, `C = 0.4` and
`beta = 0.7`, folded into integers. `cubic_iff` says for which windows the curve is the one of the
RFC; `cubic_start_off` is one for which it is not.
-/

namespace Wired.Transport

open Lib Lib.Checked

/-- One round of `icbrt`: what is left of the argument, and the digits found so far. -/
def icbrtRound (s : Nat) (r : Nat × Nat) : Checked (Nat × Nat) := do
  let y ← .mul 64 2 r.2
  let y3 ← .mul 64 3 y
  let y1 ← .add 64 y 1
  let product ← .mul 64 y3 y1
  let b ← .add 64 product 1
  if b ≤ r.1 / 2 ^ s then do
    let shifted ← .mul 64 b (2 ^ s)
    let x ← .sub 64 r.1 shifted
    pure (x, y1)
  else pure (r.1, y)

/-- The rounds for the shifts `3 * (n - 1)` down to 0. -/
def icbrtRounds : Nat → Nat × Nat → Checked (Nat × Nat)
  | 0, r => pure r
  | n + 1, r => icbrtRound (3 * n) r >>= icbrtRounds n

def icbrt (x : Nat) : Checked Nat := do
  let r ← icbrtRounds 22 (x, 0)
  pure r.2

/-- Only the product can overflow. -/
def cubicKMs (wMaxSeg : Nat) : Checked Nat := .mul 64 wMaxSeg 750000000 >>= icbrt

def cubicDCap : Nat := 100000

/-- Nothing overflows: the cube of the cap has 50 bits. -/
def cubicMag (m : Nat) : Nat := ((min m cubicDCap) ^ 3 + 1250000000) / 2500000000

def cubicTerm (d : Int) : Int := if d < 0 then -cubicMag d.natAbs else cubicMag d.natAbs

/-- The conversion of a `u64` to an `i64`. -/
def toI64 (x : Nat) : Int := if x < 2 ^ 63 then x else x - 2 ^ 64

/-- The window `t` milliseconds after the loss. -/
def cubicW (tMs kMs wMaxSeg : Nat) : Nat := (toI64 wMaxSeg + cubicTerm (toI64 tMs - toI64 kMs)).toNat

/-! ## The cube root -/

/-- With `n` rounds to come, `y` is the root of the argument without its last `3 * n` bits, and `x`
what the cube of `y` leaves of it. -/
def RootSoFar (arg n : Nat) (r : Nat × Nat) : Prop :=
  r.2 ^ 3 * 2 ^ (3 * n) + r.1 = arg ∧ arg < (r.2 + 1) ^ 3 * 2 ^ (3 * n)

variable {arg n x k w : Nat} {r : Nat × Nat}

theorem icbrtRound_spec (harg : arg < 2 ^ 64) (h : RootSoFar arg (n + 1) r) :
    ∃ r', icbrtRound (3 * n) r = pure r' ∧ RootSoFar arg n r' := by
  obtain ⟨x, y⟩ := r
  obtain ⟨hsum, hlt⟩ := h
  dsimp only [icbrtRound, RootSoFar] at hsum hlt ⊢
  have hscale : (2 : Nat) ^ (3 * (n + 1)) = 8 * 2 ^ (3 * n) := by ring
  rw [hscale] at hsum hlt
  have hpos := Nat.two_pow_pos (3 * n)
  generalize 2 ^ (3 * n) = p at *
  -- the digits found so far are those of a root of at most 22 bits
  have hy : y < 2 ^ 21 := by
    by_contra hlarge
    have hcube : (2 ^ 21) ^ 3 ≤ y ^ 3 := Nat.pow_le_pow_left (Nat.le_of_not_lt hlarge) 3
    have hterm := Nat.mul_le_mul hcube (show 8 ≤ 8 * p by omega)
    omega
  have hsquare : 3 * (2 * y) * (2 * y + 1) ≤ 3 * 2 ^ 22 * 2 ^ 22 :=
    Nat.mul_le_mul (by omega) (by omega)
  have hdigit : (2 * y + 1) ^ 3 = (2 * y) ^ 3 + (3 * (2 * y) * (2 * y + 1) + 1) := by ring
  have heven : (2 * y) ^ 3 * p = y ^ 3 * (8 * p) := by ring
  have hnext : (2 * y + 1 + 1) ^ 3 * p = (y + 1) ^ 3 * (8 * p) := by ring
  have hcompare := Nat.le_div_iff_mul_le (x := 3 * (2 * y) * (2 * y + 1) + 1) (y := x) hpos
  rw [mul_eq (by omega), pure_bind, mul_eq (by omega), pure_bind, add_eq (by omega),
    pure_bind, mul_eq (by omega), pure_bind, add_eq (by omega), pure_bind]
  generalize 3 * (2 * y) * (2 * y + 1) + 1 = b at *
  have hodd : (2 * y + 1) ^ 3 * p = (2 * y) ^ 3 * p + b * p := by rw [hdigit, add_mul]
  split
  · rename_i htake
    have hfits := hcompare.mp htake
    rw [mul_eq (by omega), pure_bind, sub_eq (by omega) hfits, pure_bind]
    refine ⟨_, rfl, ?_, ?_⟩
    · dsimp only
      omega
    · dsimp only
      omega
  · rename_i hskip
    have hrest := mt hcompare.mpr hskip
    refine ⟨_, rfl, ?_, ?_⟩
    · dsimp only
      omega
    · dsimp only
      omega

theorem icbrtRounds_spec (harg : arg < 2 ^ 64)
    (h : RootSoFar arg n r) : ∃ r', icbrtRounds n r = pure r' ∧ RootSoFar arg 0 r' := by
  induction n generalizing r with
  | zero => exact ⟨r, rfl, h⟩
  | succ n ih =>
    obtain ⟨r', hround, h'⟩ := icbrtRound_spec harg h
    rw [icbrtRounds, hround, pure_bind]
    exact ih h'

theorem icbrt_spec (hx : x < 2 ^ 64) : ∃ y, icbrt x = pure y ∧ y ^ 3 ≤ x ∧ x < (y + 1) ^ 3 := by
  obtain ⟨r, hrounds, hsum, hlt⟩ := icbrtRounds_spec (n := 22) (r := (x, 0)) hx
    ⟨by simp, lt_trans hx (by norm_num)⟩
  rw [mul_zero, pow_zero, mul_one] at hsum hlt
  refine ⟨r.2, by rw [icbrt, hrounds, pure_bind], by omega, hlt⟩

/-! ## The curve -/

theorem cubicMag_mono {m m' : Nat} (h : m ≤ m') : cubicMag m ≤ cubicMag m' := by
  apply Nat.div_le_div_right
  have := Nat.pow_le_pow_left (min_le_min_right cubicDCap h) 3
  omega

theorem cubicTerm_mono {d d' : Int} (h : d ≤ d') : cubicTerm d ≤ cubicTerm d' := by
  unfold cubicTerm
  split <;> split
  · have := cubicMag_mono (show d'.natAbs ≤ d.natAbs by omega)
    omega
  · omega
  · omega
  · have := cubicMag_mono (show d.natAbs ≤ d'.natAbs by omega)
    omega

theorem cubicTerm_self (d : Int) : cubicTerm (d - d) = 0 := by
  rw [Int.sub_self]
  rfl

theorem toI64_of_lt (h : x < 2 ^ 63) : toI64 x = x := if_pos h

theorem cubicW_mono {t t' : Nat} (h : t ≤ t') (ht : t' < 2 ^ 63) :
    cubicW t k w ≤ cubicW t' k w := by
  apply Int.toNat_le_toNat
  rw [toI64_of_lt ht, toI64_of_lt (lt_of_le_of_lt h ht)]
  have := cubicTerm_mono (show (t : Int) - toI64 k ≤ t' - toI64 k by omega)
  omega

/-- At `t = K` the window is `W_max`, and it begins at `W_max` less the cube of `K`. -/
theorem cubicW_ends (hk : k ≤ cubicDCap) (hw : w < 2 ^ 63) :
    cubicW k k w = w ∧ cubicW 0 k w = w - (k ^ 3 + 1250000000) / 2500000000 := by
  have hmag : cubicMag k = (k ^ 3 + 1250000000) / 2500000000 := by rw [cubicMag, min_eq_left hk]
  have hk' : toI64 k = k := toI64_of_lt (lt_of_le_of_lt hk (by decide))
  have hzero : toI64 0 = 0 := rfl
  unfold cubicW
  rw [toI64_of_lt hw, hk', hzero, ← hmag, cubicTerm_self]
  constructor
  · exact Int.toNat_natCast w
  · unfold cubicTerm
    split
    · rw [show ((0 : Int) - k).natAbs = k by omega]
      omega
    · rw [show k = 0 by omega]
      exact Int.toNat_natCast w

/-- `w` is a whole number nearest to seven tenths of `wMax`. -/
def NearestBeta (w wMax : Nat) : Prop := 10 * w ≤ 7 * wMax + 5 ∧ 7 * wMax ≤ 10 * w + 5

/-- `K` was found without overflow, and the cube that its rounding down leaves out is not more than
the distance, on the same scale, from the start of the curve to where it is rounded another way. -/
def RootExactEnough (w k : Nat) (fits : Bool) : Prop :=
  fits = true ∧ 750000000 * w - k ^ 3 ≤ 250000000 * ((3 * w + 4) % 10 + 1)

theorem cubicKMs_spec {fits : Bool} (h : cubicKMs w = ⟨k, fits⟩) :
    k ^ 3 ≤ w * 750000000 ∧ fits = decide (w * 750000000 < 2 ^ 64) := by
  have hlt : w * 750000000 % 2 ^ 64 < 2 ^ 64 := Nat.mod_lt _ (by decide)
  obtain ⟨y, hroot, hcube, -⟩ := icbrt_spec hlt
  change (⟨_, _⟩ : Checked Nat) = _ at h
  rw [Checked.mul, hroot, Checked.mk.injEq] at h
  obtain ⟨rfl, rfl⟩ := h
  exact ⟨le_trans hcube (Nat.mod_le _ _), Bool.and_true _⟩

/-- The cube root is exact, the curve never falls, is at the old window at `K` and starts at the
nearest of `beta` times that, exactly where `K` is exact enough. -/
theorem cubic_iff {w k : Nat} {fits : Bool} (hw : w < 2 ^ 64) (hkw : cubicKMs w = ⟨k, fits⟩)
    (hk : k ≤ cubicDCap) :
    ((∀ x < 2 ^ 64, ∃ y, icbrt x = pure y ∧ y ^ 3 ≤ x ∧ x < (y + 1) ^ 3) ∧
      (∀ t t', t ≤ t' → t' < 2 ^ 63 → cubicW t k w ≤ cubicW t' k w) ∧
      cubicW k k w = w ∧ NearestBeta (cubicW 0 k w) w) ↔ RootExactEnough w k fits := by
  obtain ⟨hcube, rfl⟩ := cubicKMs_spec hkw
  have hcap : k ^ 3 ≤ 1000000000000000 := by
    rw [pow_three]
    exact Nat.mul_le_mul hk (Nat.mul_le_mul hk hk)
  rw [RootExactEnough, NearestBeta, decide_eq_true_eq]
  constructor
  · rintro ⟨-, -, hend, hstart⟩
    have hsmall : w < 2 ^ 63 := by
      by_contra hlarge
      rw [cubicW, cubicTerm_self, toI64, if_neg hlarge] at hend
      omega
    rw [(cubicW_ends hk hsmall).2] at hstart
    generalize k ^ 3 = c at *
    omega
  · rintro ⟨hfits, hloss⟩
    obtain ⟨hend, hstart⟩ := cubicW_ends hk (w := w) (by omega)
    refine ⟨fun x hx => icbrt_spec hx, fun t t' => cubicW_mono, hend, ?_⟩
    rw [hstart]
    generalize k ^ 3 = c at *
    omega

/-- A window of ten segments. -/
theorem cubic_iff_at_ten : cubicKMs 10 = ⟨1957, true⟩ ∧ NearestBeta (cubicW 0 1957 10) 10 := by
  have hk : cubicKMs 10 = ⟨1957, true⟩ := by decide +kernel
  have hexact : RootExactEnough 10 1957 true := ⟨rfl, by decide⟩
  exact ⟨hk, ((cubic_iff (by decide) hk (by decide)).mpr hexact).2.2.2⟩

/-- Seven tenths of 1132 segments are 792.4, and the curve begins at 793. -/
theorem cubic_start_off : cubicKMs 1132 = ⟨9468, true⟩ ∧ cubicW 0 9468 1132 = 793 ∧
    ¬ NearestBeta 793 1132 := by
  refine ⟨by decide +kernel, by decide, ?_⟩
  unfold NearestBeta
  omega

end Wired.Transport
