import Mathlib.Algebra.Group.Nat.Defs

/-!
# Arithmetic with a record of overflow

`Checked` keeps beside the value of a computation whether every operation on the way was in range.
Such an operation is `pure` of the exact result, so that a computation without overflow is the one
over the natural numbers. `Checked.Keeps` is an invariant that holds also where it overflows,
together with a condition under which it does not.
-/

namespace Wired.Lib

/-- A value, and whether all the operations that gave it were in range. -/
structure Checked (α : Type) where
  val : α
  fits : Bool
deriving DecidableEq, Repr

namespace Checked

instance : Monad Checked where
  pure a := ⟨a, true⟩
  bind x f := ⟨(f x.val).val, x.fits && (f x.val).fits⟩

instance : LawfulMonad Checked :=
  LawfulMonad.mk' Checked (fun x => by simp [Functor.map]) (fun a f => by simp [bind, pure])
    (fun x f g => by simp [bind, Bool.and_assoc])

/-- The sum in a word of `w` bits. -/
def add (w a b : Nat) : Checked Nat := ⟨(a + b) % 2 ^ w, a + b < 2 ^ w⟩

def sub (w a b : Nat) : Checked Nat := ⟨(a + 2 ^ w - b) % 2 ^ w, b ≤ a⟩

/-- The product in a word of `w` bits. -/
def mul (w a b : Nat) : Checked Nat := ⟨a * b % 2 ^ w, a * b < 2 ^ w⟩

/-- The low `w` bits of a word, where the others are expected to be zero. -/
def narrow (w a : Nat) : Checked Nat := ⟨a % 2 ^ w, a < 2 ^ w⟩

variable {a b w : Nat}

theorem add_eq (h : a + b < 2 ^ w) : add w a b = pure (a + b) := by
  simp [add, pure, h, Nat.mod_eq_of_lt h]

theorem sub_eq (ha : a < 2 ^ w) (h : b ≤ a) : sub w a b = pure (a - b) := by
  have hval : a + 2 ^ w - b = a - b + 2 ^ w := by omega
  have hlt : a - b < 2 ^ w := by omega
  simp [sub, pure, h, hval, Nat.mod_eq_of_lt hlt]

theorem mul_eq (h : a * b < 2 ^ w) : mul w a b = pure (a * b) := by
  simp [mul, pure, h, Nat.mod_eq_of_lt h]

theorem narrow_eq (h : a < 2 ^ w) : narrow w a = pure a := by
  simp [narrow, pure, h, Nat.mod_eq_of_lt h]

/-! ## Invariants of checked computations -/

/-- The value has the property `I`, and if `P` holds nothing was out of range. -/
def Keeps {α : Type} (I : α → Prop) (P : Prop) (x : Checked α) : Prop :=
  I x.val ∧ (P → x.fits = true)

section

variable {α β : Type} {I : α → Prop} {J : β → Prop} {P : Prop}

theorem Keeps.pure {a : α} (h : I a) : Keeps I P (pure a : Checked α) := ⟨h, fun _ => rfl⟩

theorem Keeps.bind {x : Checked α} {f : α → Checked β} (hx : Keeps I P x)
    (hf : ∀ a, I a → Keeps J P (f a)) : Keeps J P (x >>= f) := by
  obtain ⟨hval, hfits⟩ := hf x.val hx.1
  refine ⟨hval, fun hP => ?_⟩
  change (x.fits && (f x.val).fits) = true
  rw [hx.2 hP, hfits hP]
  rfl

/-- A loop keeps what each of its rounds keeps. -/
theorem Keeps.foldlM {f : α → β → Checked α} {as : List β}
    (hstep : ∀ s, ∀ a ∈ as, I s → Keeps I P (f s a)) {s : α} (hs : I s) :
    Keeps I P (as.foldlM f s) := by
  induction as generalizing s with
  | nil => exact Keeps.pure hs
  | cons a as ih =>
    refine (hstep s a List.mem_cons_self hs).bind fun s' hs' => ?_
    exact ih (fun s a ha => hstep s a (List.mem_cons_of_mem _ ha)) hs'

end

end Checked

end Wired.Lib
