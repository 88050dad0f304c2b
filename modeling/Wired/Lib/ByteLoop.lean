import Mathlib.Algebra.BigOperators.Group.Finset.Piecewise
import Mathlib.Tactic.Ring
import Wired.Lib.Checked
import Wired.Lib.LittleEndian

/-!
# Loops over the bytes of a number

A column is what is added up at the place of one byte, and `colVal t n` the number that the first
`n` columns stand for. `byteLoop` makes a byte at each place, out of what is there and of a state
that it hands on to the next place; in `carryLoop` that is the carry.
-/

namespace Wired.Lib

open Function

def colVal (t : Nat → Nat) (n : Nat) : Nat := ∑ i ∈ Finset.range n, 2 ^ (8 * i) * t i

def byteLoop {σ : Type} (f : Nat → σ → Checked (UInt8 × σ)) (s : σ) :
    Nat → Checked ((Nat → UInt8) × σ)
  | 0 => pure (fun _ => 0, s)
  | i + 1 => do
    let r ← byteLoop f s i
    let x ← f i r.2
    pure (update r.1 i x.1, x.2)

def carryLoop (v : Nat → Nat → Checked Nat) : Nat → Nat → Checked ((Nat → UInt8) × Nat) :=
  byteLoop fun i c => do
    let v ← v i c
    pure (UInt8.ofNat v, v / 2 ^ 8)

theorem leVal_eq_colVal (m : Nat → UInt8) (n : Nat) :
    leVal m n = colVal (fun i => (m i).toNat) n := by
  induction n with
  | zero => rfl
  | succ n ih => rw [leVal, colVal, Finset.sum_range_succ, ih, colVal]

theorem colVal_add (t u : Nat → Nat) (n : Nat) :
    colVal (fun i => t i + u i) n = colVal t n + colVal u n := by
  simp only [colVal, Nat.mul_add, Finset.sum_add_distrib]

variable {t : Nat → Nat}

theorem colVal_update {k n : Nat} (hk : k < n) (x : Nat) :
    colVal (update t k (t k + x)) n = colVal t n + 2 ^ (8 * k) * x := by
  have hcols : update t k (t k + x) = fun i => t i + if i = k then x else 0 := by
    funext i
    by_cases h : i = k
    · rw [h, update_self, if_pos rfl]
    · rw [update_of_ne h, if_neg h, Nat.add_zero]
  rw [hcols, colVal_add]
  simp [colVal, hk]

/-- When each round makes a byte and a carry of its column and the carry before, the bytes and the
last carry have the value of all columns. -/
theorem byteLoop_spec {σ : Type} {f : Nat → σ → Checked (UInt8 × σ)} {I : σ → Prop} {w : σ → Nat}
    {s : σ} (hs : I s) (n : Nat)
    (hstep : ∀ i s, I s →
      ∃ x s', f i s = pure (x, s') ∧ I s' ∧ x.toNat + 2 ^ 8 * w s' = t i + w s) :
    ∃ out s', byteLoop f s n = pure (out, s') ∧ I s' ∧
      leVal out n + 2 ^ (8 * n) * w s' = colVal t n + w s := by
  induction n with
  | zero => exact ⟨_, s, rfl, hs, by simp [leVal, colVal]⟩
  | succ n ih =>
    obtain ⟨out, s₁, hloop, hs₁, hval⟩ := ih
    obtain ⟨x, s₂, hround, hs₂, hbyte⟩ := hstep n s₁ hs₁
    refine ⟨update out n x, s₂, ?_, hs₂, ?_⟩
    · rw [byteLoop, hloop, pure_bind, hround, pure_bind]
    · have hlow : leVal (update out n x) n = leVal out n :=
        leVal_congr fun i hi => update_of_ne (by omega) ..
      calc leVal (update out n x) (n + 1) + 2 ^ (8 * (n + 1)) * w s₂
          = leVal out n + 2 ^ (8 * n) * (x.toNat + 2 ^ 8 * w s₂) := by
            rw [leVal, hlow, update_self]
            ring
        _ = leVal out n + 2 ^ (8 * n) * w s₁ + 2 ^ (8 * n) * t n := by
            rw [hbyte]
            ring
        _ = colVal t (n + 1) + w s := by
            rw [hval, colVal, colVal, Finset.sum_range_succ]
            ring

theorem carryLoop_spec {v : Nat → Nat → Checked Nat} {k c : Nat} (hc : c < k) (n : Nat)
    (hstep : ∀ i, ∀ c < k, v i c = pure (t i + c) ∧ t i + c < 2 ^ 8 * k) :
    ∃ out c', carryLoop v c n = pure (out, c') ∧
      leVal out n + 2 ^ (8 * n) * c' = colVal t n + c := by
  obtain ⟨out, c', hloop, -, hval⟩ := byteLoop_spec (I := (· < k)) (w := id) (t := t) hc n
    (f := fun i c => do
      let v ← v i c
      pure (UInt8.ofNat v, v / 2 ^ 8)) fun i c hc => by
      obtain ⟨hv, hlt⟩ := hstep i c hc
      refine ⟨UInt8.ofNat (t i + c), (t i + c) / 2 ^ 8, by rw [hv, pure_bind], ?_, ?_⟩
      · exact Nat.div_lt_of_lt_mul hlt
      · rw [UInt8.toNat_ofNat']
        exact Nat.mod_add_div _ _
  exact ⟨out, c', hloop, hval⟩

/-- Nothing is carried out of a place that is wide enough. -/
theorem no_carry {x c y k : Nat} (h : x + 2 ^ k * c = y) (hy : y < 2 ^ k) : c = 0 ∧ x = y := by
  obtain rfl | hc := Nat.eq_zero_or_pos c
  · exact ⟨rfl, h⟩
  · have := Nat.le_mul_of_pos_right (2 ^ k) hc
    omega

end Wired.Lib
