import Mathlib.Data.Set.Card
import Mathlib.Order.Interval.Set.Basic

/-!
# Maximal runs of a set of numbers

`IsRun W hi lo`: the numbers from `lo` to `hi` are in `W`, and neither of the numbers next to
them is. The runs of a set are apart from each other, so that they can be counted from above:
`runsAbove W x` are the runs of `W` that lie above `x` as a whole.
-/

namespace Wired.Lib

/-- A maximal run of `W`, from `lo` to `hi`. -/
structure IsRun (W : Set ℕ) (hi lo : ℕ) : Prop where
  le : lo ≤ hi
  mem : ∀ x, lo ≤ x → x ≤ hi → x ∈ W
  above : hi + 1 ∉ W
  below : ∀ x, x + 1 = lo → x ∉ W

/-- The runs above `x` as a whole. -/
def runsAbove (W : Set ℕ) (x : ℕ) : Set (ℕ × ℕ) := {r | IsRun W r.1 r.2 ∧ x < r.2}

variable {W : Set ℕ} {hi lo h l : ℕ}

theorem IsRun.lo_mem (hrun : IsRun W hi lo) : lo ∈ W := hrun.mem lo le_rfl hrun.le

theorem not_isRun_empty : ¬ IsRun ∅ hi lo := fun hrun => hrun.lo_mem

theorem runsAbove_congr {V : Set ℕ} {n : ℕ} (hsame : ∀ x, n ≤ x → (x ∈ V ↔ x ∈ W)) :
    runsAbove V n = runsAbove W n := by
  have hrun : ∀ {V W : Set ℕ}, (∀ x, n ≤ x → (x ∈ V ↔ x ∈ W)) →
      ∀ r ∈ runsAbove V n, r ∈ runsAbove W n := by
    rintro V W hsame ⟨hi, lo⟩ ⟨hrun, hlt⟩
    have hle := hrun.le
    refine ⟨⟨hle, ?_, ?_, ?_⟩, hlt⟩
    · intro x hlo hhi
      exact (hsame x (by omega)).mp (hrun.mem x hlo hhi)
    · rw [← hsame (hi + 1) (by omega)]
      exact hrun.above
    · intro x hx
      rw [← hsame x (by omega)]
      exact hrun.below x hx
  ext r
  exact ⟨hrun hsame r, hrun (fun x hx => (hsame x hx).symm) r⟩

/-- A run of an interval and of a set below it, with a gap between, is one of the two. -/
theorem isRun_Icc_union (hle : lo ≤ hi) (hgap : ∀ x ∈ W, x + 1 < lo) :
    IsRun (Set.Icc lo hi ∪ W) h l ↔ (h = hi ∧ l = lo) ∨ IsRun W h l := by
  have hmem : ∀ x, x ∈ Set.Icc lo hi ∪ W ↔ (lo ≤ x ∧ x ≤ hi) ∨ x ∈ W := fun x => Iff.rfl
  constructor
  · intro hrun
    have hl := (hmem l).mp (hrun.mem l le_rfl hrun.le)
    have habove := hrun.above
    rw [hmem, not_or] at habove
    rcases hl with ⟨hlo, -⟩ | hl
    · -- from within the interval, the run reaches both ends of it
      have hh : h ≤ hi := by
        rcases (hmem h).mp (hrun.mem h hrun.le le_rfl) with hin | hin
        · exact hin.2
        · have := hgap h hin
          omega
      have hhi : h = hi := by
        have := hrun.le
        omega
      have hll : l = lo := by
        by_contra hne
        refine hrun.below (l - 1) (by omega) (Or.inl ⟨by omega, ?_⟩)
        have := hrun.le
        omega
      exact Or.inl ⟨hhi, hll⟩
    · -- from below the gap, it does not pass the gap
      have hlow := hgap l hl
      have hh : h < lo := by
        by_contra hge
        rcases (hmem (lo - 1)).mp (hrun.mem (lo - 1) (by omega) (by omega)) with hin | hin
        · omega
        · have := hgap _ hin
          omega
      refine Or.inr ⟨hrun.le, ?_, habove.2, ?_⟩
      · intro x hlx hxh
        rcases (hmem x).mp (hrun.mem x hlx hxh) with hin | hin
        · omega
        · exact hin
      · intro x hx hin
        exact hrun.below x hx (Or.inr hin)
  · rintro (⟨rfl, rfl⟩ | hrun)
    · refine ⟨hle, fun x hl hh => Or.inl ⟨hl, hh⟩, ?_, ?_⟩
      · rintro (hin | hin)
        · have := hin.2
          omega
        · have := hgap _ hin
          omega
      · rintro x hx (hin | hin)
        · have := hin.1
          omega
        · have := hgap _ hin
          omega
    · have htop := hgap h (hrun.mem h hrun.le le_rfl)
      refine ⟨hrun.le, fun x hl hh => Or.inr (hrun.mem x hl hh), ?_, ?_⟩
      · rintro (hin | hin)
        · have := hin.1
          omega
        · exact hrun.above hin
      · rintro x hx (hin | hin)
        · have := hin.1
          have := hrun.le
          omega
        · exact hrun.below x hx hin

end Wired.Lib
