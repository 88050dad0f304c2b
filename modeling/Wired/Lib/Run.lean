import Mathlib.Data.List.Basic

/-!
# Runs of a deterministic machine

A machine is a function `step : σ → α → σ` that takes a state and one input to the next state, and
a run is `List.foldl step`. These are the induction rules for whole runs: `Along step P s as` says
that `P` holds at every step of the run, of the state before it and of its input.
-/

namespace Wired.Lib

open List

variable {σ α : Type*} {step : σ → α → σ} {P Q R : σ → α → Prop} {I : σ → Prop}

/-- `P` holds of the state and the input at each step of the run of `step` from a state. -/
def Along (step : σ → α → σ) (P : σ → α → Prop) : σ → List α → Prop
  | _, [] => True
  | s, a :: as => P s a ∧ Along step P (step s a) as

instance Along.decidable [∀ s a, Decidable (P s a)] :
    ∀ (s : σ) (as : List α), Decidable (Along step P s as)
  | _, [] => inferInstanceAs (Decidable True)
  | s, a :: as =>
    haveI : Decidable (Along step P (step s a) as) := Along.decidable (step s a) as
    inferInstanceAs (Decidable (P s a ∧ Along step P (step s a) as))

@[simp] theorem along_nil (s : σ) : Along step P s [] := trivial

@[simp] theorem along_cons (s : σ) (a : α) (as : List α) :
    Along step P s (a :: as) ↔ P s a ∧ Along step P (step s a) as := Iff.rfl

theorem along_of_forall {P : α → Prop} {as : List α} (h : ∀ a ∈ as, P a) (s : σ) :
    Along step (fun _ => P) s as := by
  induction as generalizing s with
  | nil => trivial
  | cons a as ih =>
    rw [forall_mem_cons] at h
    exact ⟨h.1, ih h.2 _⟩

variable {s : σ} {as : List α}

/-- The state at the end of a run satisfies what every step of the run preserves. -/
theorem Along.invariant (hstep : ∀ s a, I s → P s a → I (step s a)) (hs : I s)
    (has : Along step P s as) : I (as.foldl step s) := by
  induction as generalizing s with
  | nil => exact hs
  | cons a as ih => exact ih (hstep s a hs has.1) has.2

/-- An invariant whose parameter a step may change. -/
theorem Along.exists_invariant {ι : Type*} {J : ι → σ → Prop} {i : ι}
    (hstep : ∀ i s a, J i s → P s a → ∃ j, J j (step s a)) (hs : J i s) (has : Along step P s as) :
    ∃ j, J j (as.foldl step s) := by
  refine has.invariant (I := fun s => ∃ j, J j s) ?_ ⟨i, hs⟩
  rintro s a ⟨i, h⟩ ha
  exact hstep i s a h ha

/-- What an invariant implies of a step holds along every run that keeps the invariant. -/
theorem Along.of_invariant (hstep : ∀ s a, I s → P s a → I (step s a))
    (hQ : ∀ s a, I s → P s a → Q s a) (hs : I s) (has : Along step P s as) : Along step Q s as := by
  induction as generalizing s with
  | nil => trivial
  | cons a as ih => exact ⟨hQ s a hs has.1, ih (hstep s a hs has.1) has.2⟩

/-- Two properties of steps that an invariant makes equivalent hold along a run together; the
invariant need only be kept by steps with the first one. -/
theorem along_congr_of (hstep : ∀ s a, I s → R s a → P s a → I (step s a))
    (hPQ : ∀ s a, I s → R s a → (P s a ↔ Q s a)) (hs : I s) (hR : Along step R s as) :
    Along step P s as ↔ Along step Q s as := by
  induction as generalizing s with
  | nil => simp
  | cons a as ih =>
    obtain ⟨hfirst, hrest⟩ := hR
    rw [along_cons, along_cons, ← hPQ s a hs hfirst]
    exact and_congr_right fun ha => ih (hstep s a hs hfirst ha) hrest

/-- Two properties of steps that an invariant makes equivalent hold along the same runs. -/
theorem along_congr (hstep : ∀ s a, I s → P s a → I (step s a)) (hPQ : ∀ s a, I s → (P s a ↔ Q s a))
    (as : List α) (hs : I s) : Along step P s as ↔ Along step Q s as := by
  exact along_congr_of (fun s a h _ hP => hstep s a h hP) (fun s a h _ => hPQ s a h) hs
    (along_of_forall (P := fun _ => True) (fun _ _ => trivial) s)

theorem foldl_invariant (hstep : ∀ s a, I s → I (step s a)) (as : List α) (hs : I s) :
    I (as.foldl step s) := by
  induction as generalizing s with
  | nil => exact hs
  | cons a as ih => exact ih (hstep s a hs)

/-! ## Runs with answers -/

/-- The inputs of a run, each with the answer of its step. -/
def answers {β : Type*} (f : σ → α → σ × β) : σ → List α → List (α × β)
  | _, [] => []
  | s, a :: as => (a, (f s a).2) :: answers f (f s a).1 as

/-- A relation holds of any two steps of a run if an invariant of the steps so far gives it between
each of them and the next one. -/
theorem answers_pairwise {β : Type*} {f : σ → α → σ × β} {Q : α → α → Prop} {P : α → Prop}
    {R : α × β → α × β → Prop} {J : List (α × β) → σ → Prop}
    (hstep : ∀ past s a, J past s → (∀ b ∈ past, Q b.1 a) → P a →
      J (past ++ [(a, (f s a).2)]) (f s a).1 ∧ ∀ b ∈ past, R b (a, (f s a).2))
    (hs : J [] s) (hQ : as.Pairwise Q) (hP : ∀ a ∈ as, P a) :
    (answers f s as).Pairwise R := by
  suffices hall : ∀ past s, J past s → past.Pairwise R → (∀ b ∈ past, ∀ a ∈ as, Q b.1 a) →
      (past ++ answers f s as).Pairwise R from
    hall [] s hs List.Pairwise.nil (forall_mem_nil _)
  induction as with
  | nil =>
    intro past s _ hpast _
    rw [answers, append_nil]
    exact hpast
  | cons a as ih =>
    intro past s hJ hpast hbefore
    obtain ⟨hfirst, hrest⟩ := pairwise_cons.mp hQ
    rw [forall_mem_cons] at hP
    obtain ⟨hJ', hR⟩ := hstep past s a hJ (fun b hb => hbefore b hb a mem_cons_self) hP.1
    have hnext := ih hrest hP.2 (past ++ [(a, (f s a).2)]) (f s a).1 hJ' ?_ ?_
    · rwa [append_assoc, singleton_append] at hnext
    · rw [pairwise_append]
      refine ⟨hpast, pairwise_singleton _ _, fun b hb => ?_⟩
      exact forall_mem_singleton.mpr (hR b hb)
    · rw [forall_mem_append, forall_mem_singleton]
      exact ⟨fun b hb => (forall_mem_cons.mp (hbefore b hb)).2, hfirst⟩

end Wired.Lib
