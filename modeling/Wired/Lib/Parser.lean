import Mathlib.Data.List.TakeWhile
import Wired.Lib.Decoder

/-!
# Parsers by recursive descent

A parser takes a string apart into a value and the rest, or fails. `Parses p L stop` says that it
parses the language `L`: what it takes off is a word of `L` for its value, and it takes off any word
of `L` that is followed by nothing, or by an element with which no word goes on (one not in `stop`).
Such parsers can be put one behind the other (`Parses.bind`).

The two loops (`whileEat`, `untilDone`) run on fuel that their string pays for; `whileEat_eq` and
`untilDone_eq` are their equations without it.
-/

namespace Wired.Lib

open List Option

variable {ε α β : Type}

abbrev Parser (ε α : Type) : Type := StateT (List ε) Option α

variable {c : ε} {b : List ε}

namespace Parser

def peek : Parser ε (Option ε) := fun b => some (b.head?, b)

def take : Parser ε (Option ε) := fun b => some (b.head?, b.tail)

def eat [DecidableEq ε] (c : ε) : Parser ε Bool := fun b =>
  if b.head? = some c then some (true, b.tail) else some (false, b)

def span (cls : ε → Bool) : Parser ε (List ε) := fun b =>
  some (b.takeWhile cls, b.dropWhile cls)

def whileEatLoop [DecidableEq ε] (c : ε) (p : Parser ε Unit) : ℕ → Parser ε Unit
  | 0 => pure ()
  | n + 1 => do
    if ← eat c then
      p
      whileEatLoop c p n
    else pure ()

/-- `p` after every `c` that is ahead. A round takes at least the `c` off. -/
def whileEat [DecidableEq ε] (c : ε) (p : Parser ε Unit) : Parser ε Unit := fun b =>
  whileEatLoop c p b.length b

def untilDoneLoop (p : Parser ε Bool) : ℕ → Parser ε Unit
  | 0 => failure
  | n + 1 => do
    if ← p then pure () else untilDoneLoop p n

/-- `p` until it says that it is done. If `p` takes something off or is done, the fuel is enough. -/
def untilDone (p : Parser ε Bool) : Parser ε Unit := fun b => untilDoneLoop p (b.length + 1) b

@[simp] theorem bind_apply (p : Parser ε α) (q : α → Parser ε β) (b : List ε) :
    (p >>= q) b = (p b).bind fun r => q r.1 r.2 := rfl

@[simp] theorem map_apply (f : α → β) (p : Parser ε α) (b : List ε) :
    (f <$> p) b = (p b).map fun r => (f r.1, r.2) := by
  cases h : p b <;> simp [Functor.map, StateT.map, h]

@[simp] theorem pure_apply (v : α) (b : List ε) : (pure v : Parser ε α) b = some (v, b) := rfl

@[simp] theorem failure_apply (b : List ε) : (failure : Parser ε α) b = none := rfl

@[simp] theorem ite_apply (c : Prop) [Decidable c] (p q : Parser ε α) (b : List ε) :
    (if c then p else q) b = if c then p b else q b := by
  split <;> rfl

@[simp] theorem peek_apply (b : List ε) : peek b = some (b.head?, b) := rfl

@[simp] theorem take_apply (b : List ε) : take b = some (b.head?, b.tail) := rfl

@[simp] theorem span_apply (cls : ε → Bool) (b : List ε) :
    span cls b = some (b.takeWhile cls, b.dropWhile cls) := rfl

section

variable [DecidableEq ε]

@[simp] theorem eat_cons_self (c : ε) (b : List ε) : eat c (c :: b) = some (true, b) :=
  if_pos rfl

theorem eat_of_head_ne (h : b.head? ≠ some c) : eat c b = some (false, b) :=
  if_neg h

theorem eat_cases (c : ε) (b : List ε) :
    (∃ r, b = c :: r ∧ eat c b = some (true, r)) ∨
      (b.head? ≠ some c ∧ eat c b = some (false, b)) := by
  by_cases h : b.head? = some c
  · obtain ⟨r, rfl⟩ := head?_eq_some_iff.mp h
    exact .inl ⟨r, rfl, eat_cons_self c r⟩
  · exact .inr ⟨h, eat_of_head_ne h⟩

section

variable {p : Parser ε Unit} (hp : ∀ {b r : List ε}, p b = some ((), r) → r.length ≤ b.length)
include hp

theorem whileEatLoop_congr {m n : ℕ} (hm : b.length ≤ m) (hn : b.length ≤ n) :
    whileEatLoop c p m b = whileEatLoop c p n b := by
  refine fuel_irrel List.length (fun k b hb => ?_) (fun k k' b ih => ?_) hm hn
  · rw [length_eq_zero_iff.mp hb]
    cases k <;> rfl
  · simp only [whileEatLoop, bind_apply]
    obtain ⟨r, rfl, heat⟩ | ⟨-, heat⟩ := eat_cases c b
    · rw [heat]
      simp only [bind_some, if_true, bind_apply]
      cases hr : p r with
      | none => rfl
      | some u => exact ih u.2 (Nat.lt_succ_of_le (hp hr))
    · rw [heat]
      rfl

theorem whileEat_eq (b : List ε) :
    whileEat c p b =
      (eat c b).bind fun r => if r.1 then (p r.2).bind fun u => whileEat c p u.2
        else some ((), r.2) := by
  rw [whileEat, whileEatLoop_congr hp le_rfl (Nat.le_succ _), whileEatLoop, bind_apply]
  obtain ⟨r, rfl, heat⟩ | ⟨-, heat⟩ := eat_cases c b
  · rw [heat]
    simp only [bind_some, if_true, bind_apply]
    cases hr : p r with
    | none => rfl
    | some u => exact whileEatLoop_congr hp ((hp hr).trans (Nat.le_succ _)) le_rfl
  · rw [heat]
    rfl

end

end

section

variable {p : Parser ε Bool} (hp : ∀ {b r : List ε}, p b = some (false, r) → r.length < b.length)
include hp

theorem untilDoneLoop_congr {m n : ℕ} (hm : b.length < m) (hn : b.length < n) :
    untilDoneLoop p m b = untilDoneLoop p n b := by
  refine fuel_irrel (fun b => b.length + 1) (fun _ _ hb => nomatch hb) (fun k k' b ih => ?_) hm hn
  simp only [untilDoneLoop, bind_apply]
  cases hb : p b with
  | none => rfl
  | some r =>
    obtain ⟨done, r⟩ := r
    cases done with
    | true => rfl
    | false => exact ih r (Nat.succ_lt_succ (hp hb))

theorem untilDone_eq (b : List ε) :
    untilDone p b =
      (p b).bind fun r => if r.1 then some ((), r.2) else untilDone p r.2 := by
  rw [untilDone, untilDoneLoop, bind_apply]
  cases hb : p b with
  | none => rfl
  | some r =>
    obtain ⟨done, r⟩ := r
    cases done with
    | true => rfl
    | false => exact untilDoneLoop_congr hp (hp hb) (Nat.lt_succ_self _)

end

end Parser

/-- The string is empty or begins with an element that is not in `stop`. -/
def Ends (stop : ε → Bool) (rest : List ε) : Prop := ∀ x ∈ rest.head?, stop x = false

theorem ends_nil (stop : ε → Bool) : Ends stop [] := by
  intro x hx
  cases hx

variable {stop : ε → Bool} {rest e : List ε}

@[simp] theorem ends_cons {x : ε} : Ends stop (x :: rest) ↔ stop x = false := by
  simp [Ends]

theorem Ends.mono {stop' : ε → Bool} (h : Ends stop' rest)
    (hle : ∀ x, stop x = true → stop' x = true) : Ends stop rest := by
  intro x hx
  have hx' := h x hx
  cases hs : stop x with
  | false => rfl
  | true => rw [hle x hs] at hx'; cases hx'

theorem Ends.append (he : Ends stop e) (hr : Ends stop rest) : Ends stop (e ++ rest) := by
  cases e with
  | nil => exact hr
  | cons x e => exact he

theorem Ends.head_ne (h : Ends stop rest) (hc : stop c = true) : rest.head? ≠ some c := by
  intro hrest
  rw [h c hrest] at hc
  cases hc

theorem ends_dropWhile (stop : ε → Bool) (b : List ε) : Ends stop (b.dropWhile stop) := by
  intro x hx
  obtain ⟨r, hr⟩ := head?_eq_some_iff.mp hx
  have hne : b.dropWhile stop ≠ [] := by rw [hr]; exact cons_ne_nil _ _
  have hhead := head_dropWhile_not stop hne
  simpa [hr] using hhead

theorem takeWhile_append_ends (he : ∀ x ∈ e, stop x = true) (hr : Ends stop rest) :
    (e ++ rest).takeWhile stop = e := by
  have hrest : rest.takeWhile stop = [] := by
    cases rest with
    | nil => rfl
    | cons x rest => exact takeWhile_cons_of_neg (by simp [hr x rfl])
  rw [takeWhile_append_of_pos he, hrest, append_nil]

theorem dropWhile_append_ends (he : ∀ x ∈ e, stop x = true) (hr : Ends stop rest) :
    (e ++ rest).dropWhile stop = rest := by
  have hsplit : (e ++ rest).takeWhile stop ++ (e ++ rest).dropWhile stop = e ++ rest :=
    takeWhile_append_dropWhile
  rw [takeWhile_append_ends he hr] at hsplit
  exact append_cancel_left hsplit

/-- The language of a parser. -/
structure Parses (p : Parser ε α) (L : α → List ε → Prop) (stop : ε → Bool) : Prop where
  sound : ∀ {b v rest}, p b = some (v, rest) → ∃ e, b = e ++ rest ∧ L v e
  complete : ∀ {e v rest}, L v e → Ends stop rest → p (e ++ rest) = some (v, rest)

variable {s : ε → Bool}

namespace Parses

variable {p : Parser ε α} {L L' : α → List ε → Prop} {stop' : ε → Bool}

theorem mono (h : Parses p L stop) (hle : ∀ x, stop x = true → stop' x = true) :
    Parses p L stop' where
  sound := h.sound
  complete := fun hL hr => h.complete hL (hr.mono hle)

theorem congr (h : Parses p L stop) (hL : ∀ v e, L v e ↔ L' v e) : Parses p L' stop where
  sound := by
    intro b v rest hb
    obtain ⟨e, he, hv⟩ := h.sound hb
    exact ⟨e, he, (hL v e).mp hv⟩
  complete := fun hL' hr => h.complete ((hL _ _).mpr hL') hr

theorem length_le (h : Parses p L stop) {v : α} (hp : p b = some (v, rest)) :
    rest.length ≤ b.length := by
  obtain ⟨e, rfl, -⟩ := h.sound hp
  rw [length_append]
  exact Nat.le_add_left _ _

theorem of_pure (v : α) : Parses (pure v : Parser ε α) (fun w e => w = v ∧ e = []) stop where
  sound := by
    intro b w rest h
    obtain ⟨rfl, rfl⟩ := Prod.mk.inj (Option.some.inj h)
    exact ⟨[], rfl, rfl, rfl⟩
  complete := by
    rintro e w rest ⟨rfl, rfl⟩ -
    rfl

theorem guard (c : Prop) [Decidable c] (v : α) :
    Parses (if c then pure v else failure : Parser ε α) (fun w e => c ∧ w = v ∧ e = []) stop where
  sound := by
    intro b w rest h
    split at h
    · next hc =>
      obtain ⟨rfl, rfl⟩ := Prod.mk.inj (Option.some.inj h)
      exact ⟨[], rfl, hc, rfl, rfl⟩
    · cases h
  complete := by
    rintro e w rest ⟨hc, rfl, rfl⟩ -
    rw [if_pos hc]
    rfl

theorem span (cls : ε → Bool) :
    Parses (Parser.span cls) (fun v e => v = e ∧ ∀ x ∈ e, cls x = true) cls where
  sound := by
    intro b v rest h
    obtain ⟨rfl, rfl⟩ := h
    exact ⟨_, takeWhile_append_dropWhile.symm, rfl, fun x hx => mem_takeWhile_imp hx⟩
  complete := by
    rintro e _ rest ⟨rfl, he⟩ hrest
    rw [Parser.span_apply, takeWhile_append_ends he hrest, dropWhile_append_ends he hrest]

theorem map (h : Parses p L stop) (f : α → β) :
    Parses (do let v ← p; pure (f v)) (fun w e => ∃ v, w = f v ∧ L v e) stop where
  sound := by
    intro b w rest hb
    obtain ⟨⟨v, r⟩, hv, hr⟩ := bind_eq_some_iff.mp hb
    obtain ⟨rfl, rfl⟩ := Prod.mk.inj (Option.some.inj hr)
    obtain ⟨e, he, hL⟩ := h.sound hv
    exact ⟨e, he, v, rfl, hL⟩
  complete := by
    rintro e w rest ⟨v, rfl, hL⟩ hrest
    rw [Parser.bind_apply, h.complete hL hrest]
    rfl

/-- With what the second parser takes off, and what may come behind, no word of the first goes on.
-/
theorem bind {q : α → Parser ε β} {M : α → β → List ε → Prop} (hp : Parses p L s)
    (hq : ∀ v, Parses (q v) (M v) stop)
    (hends : ∀ {v w e rest}, M v w e → Ends stop rest → Ends s (e ++ rest)) :
    Parses (p >>= q) (fun w e => ∃ v e₁ e₂, e = e₁ ++ e₂ ∧ L v e₁ ∧ M v w e₂) stop where
  sound := by
    intro b w rest h
    obtain ⟨⟨v, r⟩, hb, hr⟩ := bind_eq_some_iff.mp h
    obtain ⟨e₁, rfl, h₁⟩ := hp.sound hb
    obtain ⟨e₂, rfl, h₂⟩ := (hq v).sound hr
    exact ⟨e₁ ++ e₂, (append_assoc ..).symm, v, e₁, e₂, rfl, h₁, h₂⟩
  complete := by
    rintro e w rest ⟨v, e₁, e₂, rfl, h₁, h₂⟩ hrest
    rw [append_assoc, Parser.bind_apply, hp.complete h₁ (hends h₂ hrest)]
    exact (hq v).complete h₂ hrest

theorem eat [DecidableEq ε] {q : Parser ε α} {M : α → List ε → Prop} (hp : Parses p L stop)
    (hq : Parses q M stop) (hc : stop c = true) (hhead : ∀ {v e}, M v e → e.head? ≠ some c) :
    Parses (do if ← Parser.eat c then p else q)
      (fun v e => (∃ e', e = c :: e' ∧ L v e') ∨ M v e) stop where
  sound := by
    intro b v rest h
    rw [Parser.bind_apply] at h
    obtain ⟨r, rfl, heat⟩ | ⟨-, heat⟩ := Parser.eat_cases c b
    · rw [heat] at h
      obtain ⟨e, rfl, he⟩ := hp.sound h
      exact ⟨c :: e, rfl, .inl ⟨e, rfl, he⟩⟩
    · rw [heat] at h
      obtain ⟨e, rfl, he⟩ := hq.sound h
      exact ⟨e, rfl, .inr he⟩
  complete := by
    rintro e v rest (⟨e, rfl, he⟩ | he) hrest
    · rw [cons_append, Parser.bind_apply, Parser.eat_cons_self]
      exact hp.complete he hrest
    · have hne : (e ++ rest).head? ≠ some c := by
        cases e with
        | nil => exact hrest.head_ne hc
        | cons x e => exact hhead (e := x :: e) he
      rw [Parser.bind_apply, Parser.eat_of_head_ne hne]
      exact hq.complete he hrest

end Parses

/-- Any number of words of `L`, a `c` before each. -/
inductive Many (c : ε) (L : List ε → Prop) : List ε → Prop
  | nil : Many c L []
  | cons {e r : List ε} (word : L e) (rest : Many c L r) : Many c L (c :: (e ++ r))

theorem Many.ends {L : List ε → Prop} (h : Many c L e) (hc : stop c = false) : Ends stop e := by
  cases h with
  | nil => exact ends_nil stop
  | cons word rest => exact ends_cons.mpr hc

theorem Parses.whileEat [DecidableEq ε] {p : Parser ε Unit} {L : List ε → Prop}
    (hp : Parses p (fun _ => L) s) (hle : ∀ x, s x = true → stop x = true) (hs : s c = false)
    (hc : stop c = true) :
    Parses (Parser.whileEat c p) (fun _ => Many c L) stop where
  sound := by
    intro b
    induction hn : b.length using Nat.strong_induction_on generalizing b with
    | _ n ih =>
      intro v rest h
      rw [Parser.whileEat_eq (fun hb => hp.length_le hb)] at h
      obtain ⟨r, rfl, heat⟩ | ⟨-, heat⟩ := Parser.eat_cases c b
      · rw [heat, bind_some, if_pos rfl] at h
        obtain ⟨⟨w, r'⟩, hr, hr'⟩ := bind_eq_some_iff.mp h
        obtain ⟨e, rfl, he⟩ := hp.sound hr
        have hlt : r'.length < n := by
          rw [← hn, length_cons, length_append]
          omega
        obtain ⟨e', rfl, he'⟩ := ih r'.length hlt rfl hr'
        exact ⟨c :: (e ++ e'), by simp, .cons he he'⟩
      · rw [heat] at h
        obtain rfl : b = rest := (Prod.mk.inj (Option.some.inj h)).2
        exact ⟨[], rfl, .nil⟩
  complete := by
    intro e v rest he hrest
    induction he with
    | nil =>
      rw [nil_append, Parser.whileEat_eq (fun hb => hp.length_le hb),
        Parser.eat_of_head_ne (hrest.head_ne hc)]
      rfl
    | @cons e r word more ih =>
      have hends : Ends s (r ++ rest) := (more.ends hs).append (hrest.mono hle)
      rw [cons_append, append_assoc, Parser.whileEat_eq (fun hb => hp.length_le hb),
        Parser.eat_cons_self, bind_some, if_pos rfl, hp.complete (v := ()) word hends]
      exact ih

end Wired.Lib
