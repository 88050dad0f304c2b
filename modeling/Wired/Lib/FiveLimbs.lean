import Mathlib.Data.Nat.ModEq
import Mathlib.Tactic.Ring

/-!
# Five limbs modulo `B ^ 5 - fold`

A number is kept in five limbs in radix `B`, which need not be below `B`. The modulus is a little
less than `B ^ 5`, so that what a product or a carry has above `B ^ 5` comes back at the bottom,
multiplied by `fold`.
-/

namespace Wired.Lib

/-- Five limbs, the least significant one first. -/
structure Limbs where
  l0 : Nat
  l1 : Nat
  l2 : Nat
  l3 : Nat
  l4 : Nat
deriving DecidableEq, Repr

variable {b B fold a : Nat} {x f g : Limbs}

namespace Limbs

def value (B : Nat) (x : Limbs) : Nat :=
  x.l0 + B * x.l1 + B ^ 2 * x.l2 + B ^ 3 * x.l3 + B ^ 4 * x.l4

/-- Every limb is at most `b`. -/
structure AtMost (b : Nat) (x : Limbs) : Prop where
  l0 : x.l0 ≤ b
  l1 : x.l1 ≤ b
  l2 : x.l2 ≤ b
  l3 : x.l3 ≤ b
  l4 : x.l4 ≤ b

theorem AtMost.mono {c : Nat} (h : AtMost b x) (hbc : b ≤ c) : AtMost c x :=
  ⟨h.l0.trans hbc, h.l1.trans hbc, h.l2.trans hbc, h.l3.trans hbc, h.l4.trans hbc⟩

theorem value_lt (h0 : x.l0 < B) (h1 : x.l1 < B) (h2 : x.l2 < B) (h3 : x.l3 < B) (h4 : x.l4 < B) :
    x.value B < B ^ 5 := by
  have hstep : ∀ {a b k : Nat}, a < B ^ k → b < B → a + B ^ k * b < B ^ (k + 1) := by
    intro a b k ha hb
    calc a + B ^ k * b < B ^ k + B ^ k * b := Nat.add_lt_add_right ha _
      _ = B ^ k * (b + 1) := by ring
      _ ≤ B ^ k * B := Nat.mul_le_mul_left _ hb
      _ = B ^ (k + 1) := (pow_succ B k).symm
  have hone : x.l0 + B ^ 1 * x.l1 < B ^ 2 := hstep (by rwa [pow_one]) h1
  rw [pow_one] at hone
  exact hstep (hstep (hstep hone h2) h3) h4

/-! ## Products -/

/-- The columns of the product, with the terms past the fifth one brought back. -/
def columns (fold : Nat) (f g : Limbs) : Limbs where
  l0 := f.l0 * g.l0 + f.l1 * (g.l4 * fold) + f.l2 * (g.l3 * fold) + f.l3 * (g.l2 * fold) +
    f.l4 * (g.l1 * fold)
  l1 := f.l0 * g.l1 + f.l1 * g.l0 + f.l2 * (g.l4 * fold) + f.l3 * (g.l3 * fold) +
    f.l4 * (g.l2 * fold)
  l2 := f.l0 * g.l2 + f.l1 * g.l1 + f.l2 * g.l0 + f.l3 * (g.l4 * fold) + f.l4 * (g.l3 * fold)
  l3 := f.l0 * g.l3 + f.l1 * g.l2 + f.l2 * g.l1 + f.l3 * g.l0 + f.l4 * (g.l4 * fold)
  l4 := f.l0 * g.l4 + f.l1 * g.l3 + f.l2 * g.l2 + f.l3 * g.l1 + f.l4 * g.l0

/-- What is above `B ^ 5` is the same below it, times `fold`. -/
theorem fold_modEq (h : fold ≤ B ^ 5) (low high : Nat) :
    low + fold * high ≡ low + B ^ 5 * high [MOD B ^ 5 - fold] := by
  have hsplit : B ^ 5 * high = fold * high + (B ^ 5 - fold) * high := by
    rw [← Nat.add_mul, Nat.add_sub_of_le h]
  rw [hsplit, ← Nat.add_assoc]
  exact (Nat.modEq_iff_dvd' (Nat.le_add_right _ _)).mpr ⟨high, by rw [Nat.add_sub_cancel_left]⟩

theorem value_columns (h : fold ≤ B ^ 5) (f g : Limbs) :
    (columns fold f g).value B ≡ f.value B * g.value B [MOD B ^ 5 - fold] := by
  -- the columns of the product from the sixth one on
  let high := f.l1 * g.l4 + f.l2 * g.l3 + f.l3 * g.l2 + f.l4 * g.l1 +
    B * (f.l2 * g.l4 + f.l3 * g.l3 + f.l4 * g.l2) + B ^ 2 * (f.l3 * g.l4 + f.l4 * g.l3) +
    B ^ 3 * (f.l4 * g.l4)
  have hcolumns : (columns fold f g).value B = (columns 0 f g).value B + fold * high := by
    simp only [value, columns, high]
    ring
  have hproduct : f.value B * g.value B = (columns 0 f g).value B + B ^ 5 * high := by
    simp only [value, columns, high]
    ring
  rw [hcolumns, hproduct]
  exact fold_modEq h _ _

theorem columns_atMost (hf : AtMost a f) (hg : AtMost b g) (hfold : 1 ≤ fold) :
    AtMost (5 * (a * (b * fold))) (columns fold f g) := by
  have hplain : ∀ {x y : Nat}, x ≤ a → y ≤ b → x * y ≤ a * (b * fold) := fun hx hy =>
    Nat.mul_le_mul hx (hy.trans (Nat.le_mul_of_pos_right _ hfold))
  have hfolded : ∀ {x y : Nat}, x ≤ a → y ≤ b → x * (y * fold) ≤ a * (b * fold) := fun hx hy =>
    Nat.mul_le_mul hx (Nat.mul_le_mul_right _ hy)
  have hsum : ∀ {p q r s t u : Nat}, p ≤ u → q ≤ u → r ≤ u → s ≤ u → t ≤ u →
      p + q + r + s + t ≤ 5 * u := by
    omega
  exact
    ⟨hsum (hplain hf.l0 hg.l0) (hfolded hf.l1 hg.l4) (hfolded hf.l2 hg.l3) (hfolded hf.l3 hg.l2)
        (hfolded hf.l4 hg.l1),
      hsum (hplain hf.l0 hg.l1) (hplain hf.l1 hg.l0) (hfolded hf.l2 hg.l4) (hfolded hf.l3 hg.l3)
        (hfolded hf.l4 hg.l2),
      hsum (hplain hf.l0 hg.l2) (hplain hf.l1 hg.l1) (hplain hf.l2 hg.l0) (hfolded hf.l3 hg.l4)
        (hfolded hf.l4 hg.l3),
      hsum (hplain hf.l0 hg.l3) (hplain hf.l1 hg.l2) (hplain hf.l2 hg.l1) (hplain hf.l3 hg.l0)
        (hfolded hf.l4 hg.l4),
      hsum (hplain hf.l0 hg.l4) (hplain hf.l1 hg.l3) (hplain hf.l2 hg.l2) (hplain hf.l3 hg.l1)
        (hplain hf.l4 hg.l0)⟩

theorem columns_l4_le (hf : AtMost a f) (hg : AtMost b g) :
    (columns fold f g).l4 ≤ 5 * (a * b) := by
  have h0 := Nat.mul_le_mul hf.l0 hg.l4
  have h1 := Nat.mul_le_mul hf.l1 hg.l3
  have h2 := Nat.mul_le_mul hf.l2 hg.l2
  have h3 := Nat.mul_le_mul hf.l3 hg.l1
  have h4 := Nat.mul_le_mul hf.l4 hg.l0
  simp only [columns]
  omega

/-! ## Carries -/

/-- Carries from the first limb to the last; the carry out of the last one is returned. -/
def carry (B : Nat) (t : Limbs) : Limbs × Nat :=
  let t1 := t.l1 + t.l0 / B
  let t2 := t.l2 + t1 / B
  let t3 := t.l3 + t2 / B
  let t4 := t.l4 + t3 / B
  (⟨t.l0 % B, t1 % B, t2 % B, t3 % B, t4 % B⟩, t4 / B)

theorem carry_value (B : Nat) (t : Limbs) :
    (carry B t).1.value B + B ^ 5 * (carry B t).2 = t.value B := by
  simp only [carry, value]
  generalize ht1 : t.l1 + t.l0 / B = t1
  generalize ht2 : t.l2 + t1 / B = t2
  generalize ht3 : t.l3 + t2 / B = t3
  generalize ht4 : t.l4 + t3 / B = t4
  have h0 := Nat.mod_add_div t.l0 B
  have h1 := Nat.mod_add_div t1 B
  have h2 := Nat.mod_add_div t2 B
  have h3 := Nat.mod_add_div t3 B
  have h4 := Nat.mod_add_div t4 B
  calc t.l0 % B + B * (t1 % B) + B ^ 2 * (t2 % B) + B ^ 3 * (t3 % B) + B ^ 4 * (t4 % B) +
        B ^ 5 * (t4 / B)
      = t.l0 % B + B * (t1 % B) + B ^ 2 * (t2 % B) + B ^ 3 * (t3 % B) +
          B ^ 4 * (t4 % B + B * (t4 / B)) := by ring
    _ = t.l0 % B + B * (t1 % B) + B ^ 2 * (t2 % B) + B ^ 3 * (t3 % B + B * (t3 / B)) +
          B ^ 4 * t.l4 := by rw [h4, ← ht4]; ring
    _ = t.l0 % B + B * (t1 % B) + B ^ 2 * (t2 % B + B * (t2 / B)) + B ^ 3 * t.l3 +
          B ^ 4 * t.l4 := by rw [h3, ← ht3]; ring
    _ = t.l0 % B + B * (t1 % B + B * (t1 / B)) + B ^ 2 * t.l2 + B ^ 3 * t.l3 + B ^ 4 * t.l4 := by
        rw [h2, ← ht2]; ring
    _ = t.l0 % B + B * (t.l0 / B) + B * t.l1 + B ^ 2 * t.l2 + B ^ 3 * t.l3 + B ^ 4 * t.l4 := by
        rw [h1, ← ht1]; ring
    _ = _ := by rw [h0]

def carryPass (B fold : Nat) (t : Limbs) : Limbs :=
  let (h, c) := carry B t
  { h with l0 := h.l0 + c * fold }

def reduce (B fold : Nat) (t : Limbs) : Limbs :=
  let h := carryPass B fold t
  { h with l0 := h.l0 % B, l1 := h.l1 + h.l0 / B }

theorem carryPass_value (h : fold ≤ B ^ 5) (t : Limbs) :
    (carryPass B fold t).value B ≡ t.value B [MOD B ^ 5 - fold] := by
  have hvalue : (carryPass B fold t).value B =
      (carry B t).1.value B + fold * (carry B t).2 := by
    simp only [carryPass, value]
    ring
  rw [hvalue, ← carry_value B t]
  exact fold_modEq h _ _

theorem reduce_value (h : fold ≤ B ^ 5) (t : Limbs) :
    (reduce B fold t).value B ≡ t.value B [MOD B ^ 5 - fold] := by
  have hvalue : (reduce B fold t).value B = (carryPass B fold t).value B := by
    simp only [reduce, value]
    generalize carryPass B fold t = h
    calc h.l0 % B + B * (h.l1 + h.l0 / B) + B ^ 2 * h.l2 + B ^ 3 * h.l3 + B ^ 4 * h.l4
        = h.l0 % B + B * (h.l0 / B) + B * h.l1 + B ^ 2 * h.l2 + B ^ 3 * h.l3 + B ^ 4 * h.l4 := by
          ring
      _ = h.l0 + B * h.l1 + B ^ 2 * h.l2 + B ^ 3 * h.l3 + B ^ 4 * h.l4 := by rw [Nat.mod_add_div]
  rw [hvalue]
  exact carryPass_value h t

end Limbs

end Wired.Lib
