import Mathlib.Algebra.Group.Nat.Defs
import Mathlib.Algebra.BigOperators.Group.List.Basic
import Mathlib.NumberTheory.LucasPrimality

/-!
# Primality certificates

A number is prime if some `root` has order `n - 1` modulo it, which the prime factors of `n - 1`
decide. The factors of a line of a certificate are small enough for a trial division, or stand
further down in the list (`prime_of_certified`).
-/

namespace Wired.Lib

def powMod (m : Nat) : (k : Nat) → (b e : Nat) → Nat
  | 0, _, _ => 1 % m
  | k + 1, b, e =>
    if e = 0 then 1 % m
    else
      let r := powMod m k (b * b % m) (e / 2)
      if e % 2 = 1 then b * r % m else r

theorem powMod_eq (m : Nat) {k : Nat} (b : Nat) {e : Nat} (he : e < 2 ^ k) :
    powMod m k b e = b ^ e % m := by
  induction k generalizing b e with
  | zero =>
    obtain rfl : e = 0 := by simpa using he
    rfl
  | succ k ih =>
    have hhalf : powMod m k (b * b % m) (e / 2) = (b * b) ^ (e / 2) % m := by
      rw [ih _ (by omega), ← Nat.pow_mod]
    have hsplit : b ^ e = b ^ (e % 2) * (b * b) ^ (e / 2) := by
      rw [← pow_two, ← pow_mul, ← pow_add, Nat.mod_add_div]
    simp only [powMod, hhalf]
    split_ifs with hzero hodd
    · rw [hzero, pow_zero]
    · rw [hsplit, hodd, pow_one, Nat.mul_mod_mod]
    · rw [hsplit, (by omega : e % 2 = 0), pow_zero, one_mul]

def trialPrime (q : Nat) : (k d : Nat) → Bool
  | 0, _ => false
  | k + 1, d => q < d * d || (q % d != 0 && trialPrime q k (d + 1))

theorem not_dvd_of_trialPrime {q k d : Nat} (h : trialPrime q k d = true) {t : Nat} (hd : d ≤ t)
    (ht : t * t ≤ q) : ¬ t ∣ q := by
  induction k generalizing d with
  | zero => cases h
  | succ k ih =>
    simp only [trialPrime, Bool.or_eq_true, Bool.and_eq_true, decide_eq_true_eq, bne_iff_ne] at h
    rcases h with hlt | ⟨hmod, hrest⟩
    · have := Nat.mul_le_mul hd hd
      omega
    · rcases Nat.eq_or_lt_of_le hd with rfl | hlt
      · exact fun hdvd => hmod (Nat.mod_eq_zero_of_dvd hdvd)
      · exact ih hrest hlt

theorem prime_of_trialPrime {q k : Nat} (htwo : 2 ≤ q) (h : trialPrime q k 2 = true) : q.Prime :=
  Nat.prime_def_le_sqrt.mpr
    ⟨htwo, fun _ hd hsqrt => not_dvd_of_trialPrime h hd (Nat.le_sqrt.mp hsqrt)⟩

/-- One line of a certificate, with the prime factors of `n - 1`, as often as they occur. -/
structure PrattLine where
  n : Nat
  root : Nat
  factors : List Nat

def PrattLine.holds (known : List Nat) (l : PrattLine) : Bool :=
  2 ≤ l.n && l.n < 2 ^ 256 && l.factors.prod == l.n - 1 &&
    powMod l.n 256 l.root (l.n - 1) == 1 &&
    l.factors.all fun q =>
      (known.contains q || (2 ≤ q && trialPrime q 1024 2)) &&
        powMod l.n 256 l.root ((l.n - 1) / q) != 1

theorem PrattLine.prime_of_holds {known : List Nat} (hknown : ∀ q ∈ known, q.Prime)
    {l : PrattLine} (h : l.holds known = true) : l.n.Prime := by
  simp only [holds, Bool.and_eq_true, decide_eq_true_eq, beq_iff_eq, List.all_eq_true,
    Bool.or_eq_true, List.contains_iff_mem, bne_iff_ne] at h
  obtain ⟨⟨⟨⟨htwo, hbits⟩, hprod⟩, hone⟩, hfactors⟩ := h
  have hprime : ∀ q ∈ l.factors, q.Prime := fun q hq =>
    (hfactors q hq).1.elim (hknown q) fun h => prime_of_trialPrime h.1 h.2
  have hcast : ∀ e : Nat, ((l.root : ZMod l.n) ^ e = 1 ↔ l.root ^ e % l.n = 1) := by
    intro e
    have h1 : 1 % l.n = 1 := Nat.mod_eq_of_lt htwo
    rw [← Nat.cast_pow, ← Nat.cast_one, ZMod.natCast_eq_natCast_iff', h1]
  refine lucas_primality l.n (l.root : ZMod l.n) ?_ fun q hq hdvd => ?_
  · rwa [hcast, ← powMod_eq l.n l.root (by omega : l.n - 1 < 2 ^ 256)]
  · -- a prime that divides the product of the factors is one of them
    rw [← hprod, hq.prime.dvd_prod_iff] at hdvd
    obtain ⟨f, hf, hqf⟩ := hdvd
    obtain rfl := (Nat.prime_dvd_prime_iff_eq hq (hprime f hf)).mp hqf
    have hdiv : (l.n - 1) / q < 2 ^ 256 := (Nat.div_le_self _ _).trans_lt (by omega)
    rw [Ne, hcast, ← powMod_eq l.n l.root hdiv]
    exact (hfactors q hf).2

def certified : List PrattLine → Bool
  | [] => true
  | l :: rest => l.holds (rest.map PrattLine.n) && certified rest

theorem prime_of_certified {lines : List PrattLine} (h : certified lines = true) :
    ∀ q ∈ lines.map PrattLine.n, q.Prime := by
  induction lines with
  | nil => exact List.forall_mem_nil _
  | cons l rest ih =>
    simp only [certified, Bool.and_eq_true] at h
    exact List.forall_mem_cons.mpr ⟨PrattLine.prime_of_holds (ih h.2) h.1, ih h.2⟩

end Wired.Lib
