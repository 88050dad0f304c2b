import Wired.Lib.Decoder

/-!
# Decoders of token sequences

Many formats are sequences of tokens, each of which is encoded on its own: a decoder reads one
token after the other and decides from the tokens read what comes next. `Spelled` says that a
string is the encodings of some tokens, and `Reads` which sequences of tokens a decoder accepts and
what it makes of them. A decoder written in the `Decoder` monad gets its `Reads` from those of its
parts (`Reads.bind`).

An encoding is not assumed to be the only one of its token.
-/

namespace Wired.Lib

open List

variable {ε τ α β : Type}

/-- A decoder as a computation: each step reads at the head of what the one before has left. -/
def Decoder (ε α : Type) : Type := List ε → Option (α × Nat)

instance : Monad (Decoder ε) where
  pure a := fun _ => some (a, 0)
  bind d e := Stable.andThen d e

def Decoder.fail : Decoder ε α := fun _ => none

theorem Decoder.bind_eq_some {d : Decoder ε α} {e : α → Decoder ε β} {b : List ε} {w : β}
    {k : Nat} : (d >>= e) b = some (w, k) ↔
      ∃ v n m, d b = some (v, n) ∧ e v (b.drop n) = some (w, m) ∧ k = n + m :=
  Stable.andThen_eq_some

theorem Decoder.pure_bind (a : α) (e : α → Decoder ε β) : (pure a >>= e) = e a := by
  funext b
  show Stable.andThen (fun _ => some (a, 0)) e b = e a b
  cases he : e a b <;> simp [Stable.andThen, he]

def takeBytes (n : Nat) (f : List ε → α) : Decoder ε α := fun b =>
  if b.length < n then none else some (f (b.take n), n)

theorem takeBytes_eq_some {n k : Nat} {f : List ε → α} {b : List ε} {v : α}
    (h : takeBytes n f b = some (v, k)) : n ≤ b.length ∧ v = f (b.take n) ∧ k = n := by
  unfold takeBytes at h
  split at h
  · cases h
  cases h
  exact ⟨by omega, rfl, rfl⟩

theorem takeBytes_readsHead (n : Nat) (f : List ε → α) : ReadsHead (takeBytes n f) :=
  ReadsHead.ofTake n f

/-- What `d` reads, `e` reads too, and makes of it what `f` makes of the value. -/
def Decoder.Within (d : Decoder ε α) (f : α → β) (e : Decoder ε β) : Prop :=
  ∀ ⦃b v n⦄, d b = some (v, n) → e b = some (f v, n)

section

variable {γ δ : Type} {d : Decoder ε α} {f : α → β} {e : Decoder ε β} {g : γ → δ}

theorem Decoder.Within.refl (d : Decoder ε α) : d.Within id d := fun _ _ _ h => h

theorem Decoder.Within.bind {d' : α → Decoder ε γ} {e' : β → Decoder ε δ} (h : d.Within f e)
    (h' : ∀ v, (d' v).Within g (e' (f v))) : (d >>= d').Within g (e >>= e') := by
  intro b w k hk
  obtain ⟨v, n, m, hd, hm, rfl⟩ := bind_eq_some.mp hk
  exact bind_eq_some.mpr ⟨f v, n, m, h hd, h' v hm, rfl⟩

/-- What is made of the value in the end is not read. -/
theorem Decoder.Within.bind_pure {c : α → γ} {f' : γ → β} (h : d.Within f e)
    (hf : ∀ v, f' (c v) = f v) : (d >>= fun v => pure (c v)).Within f' e := by
  intro b w k hk
  obtain ⟨v, n, m, hd, hm, rfl⟩ := bind_eq_some.mp hk
  cases hm
  rw [hf]
  exact h hd

end

/-! ## Spellings -/

/-- The string is the encodings of the tokens, one behind the other. -/
inductive Spelled (tok : List ε → Option (τ × Nat)) : List ε → List τ → Prop
  | nil : Spelled tok [] []
  | cons {e b : List ε} {t : τ} {ts : List τ} (head : Codes tok e t) (tail : Spelled tok b ts) :
      Spelled tok (e ++ b) (t :: ts)

section

variable {tok : List ε → Option (τ × Nat)} {b c : List ε} {ts ts' : List τ} {t : τ}

theorem Spelled.one (h : Codes tok b t) : Spelled tok b [t] :=
  append_nil b ▸ Spelled.cons h Spelled.nil

theorem Spelled.append (h : Spelled tok b ts) (h' : Spelled tok c ts') :
    Spelled tok (b ++ c) (ts ++ ts') := by
  induction h with
  | nil => exact h'
  | cons head tail ih =>
    rw [append_assoc]
    exact .cons head ih

/-- A sequence of tokens is spelled in two parts where it is split. -/
theorem Spelled.split (h : Spelled tok b (ts ++ ts')) :
    ∃ b₁ b₂, b = b₁ ++ b₂ ∧ Spelled tok b₁ ts ∧ Spelled tok b₂ ts' := by
  induction ts generalizing b with
  | nil => exact ⟨[], b, rfl, .nil, h⟩
  | cons t ts ih =>
    cases h with
    | cons head tail =>
      obtain ⟨b₁, b₂, rfl, h₁, h₂⟩ := ih tail
      exact ⟨_, b₂, (append_assoc _ b₁ b₂).symm, .cons head h₁, h₂⟩

theorem Spelled.cons_get (h : Spelled tok b (t :: ts)) :
    ∃ used, tok b = some (t, used) ∧ Spelled tok (b.drop used) ts := by
  cases h with
  | @cons e b _ _ head tail => exact ⟨e.length, head b, by rwa [drop_left]⟩

section

variable (htok : Stable tok)
include htok

theorem Spelled.nil_get (h : Spelled tok b []) : b = [] ∧ tok b = none := by
  cases h
  exact ⟨rfl, htok.nil⟩

theorem Spelled.of_get {n : Nat} (hget : tok b = some (t, n))
    (h : Spelled tok (b.drop n) ts) : Spelled tok b (t :: ts) :=
  take_append_drop n b ▸ Spelled.cons (htok.codes_take hget) h

/-- The tokens at the head of a string are those of every string that begins with them. -/
theorem Spelled.rest (h : Spelled tok b ts) (h' : Spelled tok (b ++ c) ts') :
    ∃ ts₂, ts' = ts ++ ts₂ ∧ Spelled tok c ts₂ := by
  induction h generalizing ts' with
  | nil => exact ⟨ts', rfl, h'⟩
  | @cons e b t ts head tail ih =>
    rw [append_assoc] at h'
    generalize hwhole : e ++ (b ++ c) = whole at h'
    cases h' with
    | nil =>
      have hpos := htok.pos (head [])
      have hlen := congrArg List.length hwhole
      rw [length_append, length_nil] at hlen
      omega
    | @cons e' b' t' ts' head' tail' =>
      have hsame : some (t, e.length) = some (t', e'.length) := by
        rw [← head (b ++ c), hwhole, head' b']
      obtain ⟨rfl, hlen⟩ := Prod.mk.inj (Option.some.inj hsame)
      obtain ⟨rfl, hb⟩ := append_inj hwhole hlen
      obtain ⟨ts₂, rfl, h₂⟩ := ih (hb ▸ tail')
      exact ⟨ts₂, rfl, h₂⟩

theorem Spelled.decodeAll_eq (h : Spelled tok b ts) : decodeAll tok b = (ts, b.length) := by
  induction h with
  | nil => exact decodeAll_none htok.nil
  | @cons e b t ts head tail ih =>
    rw [decodeAll_some htok.advances (head b), drop_left, ih, length_append]

theorem Spelled.unique (h : Spelled tok b ts) (h' : Spelled tok b ts') : ts = ts' :=
  congrArg Prod.fst ((h.decodeAll_eq htok).symm.trans (h'.decodeAll_eq htok))

end

end

/-! ## Decoders -/

/-- The decoder accepts the spellings of the tokens that `P` has, with the value that `P` gives. -/
def Reads (tok : List ε → Option (τ × Nat)) (d : Decoder ε α) (P : α → List τ → Prop) : Prop :=
  ∀ b a n, d b = some (a, n) ↔
    ∃ e rest ts, b = e ++ rest ∧ e.length = n ∧ Spelled tok e ts ∧ P a ts

section

variable {tok : List ε → Option (τ × Nat)} {d : Decoder ε α} {P Q : α → List τ → Prop}

theorem Reads.congr (h : Reads tok d P) (hPQ : ∀ a ts, P a ts ↔ Q a ts) : Reads tok d Q := by
  intro b a n
  rw [h b a n]
  simp only [hPQ]

theorem reads_token (htok : Stable tok) : Reads tok (tok : Decoder ε τ) fun t ts => ts = [t] := by
  intro b t n
  constructor
  · intro h
    exact ⟨b.take n, b.drop n, [t], (take_append_drop n b).symm,
      length_take_of_le (htok.le h), .one (htok.codes_take h), rfl⟩
  · rintro ⟨e, rest, ts, rfl, rfl, hts, rfl⟩
    cases hts with
    | cons head tail =>
      cases tail
      rw [append_nil]
      exact head rest

theorem reads_pure (a : α) : Reads tok (pure a : Decoder ε α) fun a' ts => a' = a ∧ ts = [] := by
  intro b a' n
  constructor
  · intro h
    obtain ⟨rfl, rfl⟩ := Prod.mk.inj (Option.some.inj h)
    exact ⟨[], b, [], rfl, rfl, .nil, rfl, rfl⟩
  · rintro ⟨e, rest, ts, rfl, rfl, hts, rfl, rfl⟩
    cases hts
    rfl

theorem reads_fail : Reads tok (Decoder.fail : Decoder ε α) fun _ _ => False := by
  intro b a n
  constructor
  · intro h
    cases h
  · rintro ⟨e, rest, ts, -, -, -, hfalse⟩
    exact hfalse.elim

theorem Reads.ite {c : Prop} [Decidable c] {d' : Decoder ε α} (h : Reads tok d P)
    (h' : Reads tok d' Q) :
    Reads tok (if c then d else d') fun a ts => (c ∧ P a ts) ∨ (¬ c ∧ Q a ts) := by
  by_cases hc : c
  · rw [if_pos hc]
    exact h.congr fun a ts => by simp [hc]
  · rw [if_neg hc]
    exact h'.congr fun a ts => by simp [hc]

/-- What comes second is read from where the first has ended. -/
theorem Reads.bind {e : α → Decoder ε β} {Q : α → β → List τ → Prop} (h : Reads tok d P)
    (he : ∀ a, (∃ b n, d b = some (a, n)) → Reads tok (e a) (Q a)) :
    Reads tok (d >>= e) fun w ts => ∃ a ts₁ ts₂, ts = ts₁ ++ ts₂ ∧ P a ts₁ ∧ Q a w ts₂ := by
  intro b w k
  rw [Decoder.bind_eq_some]
  constructor
  · rintro ⟨a, n, m, hd, hm, rfl⟩
    have he := he a ⟨b, n, hd⟩
    obtain ⟨b₁, rest, ts₁, rfl, rfl, hts₁, hP⟩ := (h b a n).mp hd
    rw [drop_left] at hm
    obtain ⟨b₂, rest, ts₂, rfl, rfl, hts₂, hQ⟩ := (he _ w m).mp hm
    refine ⟨b₁ ++ b₂, rest, ts₁ ++ ts₂, ?_, ?_, hts₁.append hts₂, a, ts₁, ts₂, rfl, hP, hQ⟩
    · rw [append_assoc]
    · rw [length_append]
  · rintro ⟨b', rest, ts, rfl, rfl, hts, a, ts₁, ts₂, rfl, hP, hQ⟩
    obtain ⟨b₁, b₂, rfl, hts₁, hts₂⟩ := hts.split
    have hd : d (b₁ ++ b₂ ++ rest) = some (a, b₁.length) :=
      (h _ a _).mpr ⟨b₁, b₂ ++ rest, ts₁, append_assoc _ _ _, rfl, hts₁, hP⟩
    refine ⟨a, b₁.length, b₂.length, hd, ?_, length_append⟩
    rw [append_assoc, drop_left]
    exact (he a ⟨_, _, hd⟩ _ w _).mpr ⟨b₂, rest, ts₂, rfl, rfl, hts₂, hQ⟩

theorem Reads.cons (htok : Stable tok) {e : τ → Decoder ε β} {Q : τ → β → List τ → Prop}
    (he : ∀ t, (∃ b n, tok b = some (t, n)) → Reads tok (e t) (Q t)) :
    Reads tok ((tok : Decoder ε τ) >>= e) fun w ts => ∃ t ts', ts = t :: ts' ∧ Q t w ts' := by
  apply ((reads_token htok).bind he).congr
  intro w ts
  constructor
  · rintro ⟨t, _, ts', rfl, rfl, hQ⟩
    exact ⟨t, ts', rfl, hQ⟩
  · rintro ⟨t, ts', rfl, hQ⟩
    exact ⟨t, [t], ts', rfl, rfl, hQ⟩

end

/-! ## Whole strings -/

/-- A loop over a string of tokens, each of which acts on a state or ends the loop. -/
def walkTokens {σ : Type} (tok : Decoder ε τ) (act : σ → τ → Option σ) :
    Nat → σ → List ε → Option σ
  | 0, s, b => if b.isEmpty then some s else none
  | fuel + 1, s, b =>
    if b.isEmpty then some s
    else (tok b).bind fun (t, n) => (act s t).bind fun s => walkTokens tok act fuel s (b.drop n)

theorem walkTokens_eq_some {σ : Type} {tok : Decoder ε τ} (htok : Stable tok)
    {act : σ → τ → Option σ} {fuel : Nat} {s s' : σ} {b : List ε} (hfuel : b.length ≤ fuel) :
    walkTokens tok act fuel s b = some s' ↔
      ∃ ts, Spelled tok b ts ∧ ts.foldlM act s = some s' := by
  have hempty : ∀ {s : σ}, some s = some s' ↔
      ∃ ts, Spelled tok ([] : List ε) ts ∧ ts.foldlM act s = some s' := by
    refine ⟨fun h => ⟨[], .nil, h⟩, ?_⟩
    rintro ⟨ts, hts, h⟩
    rwa [hts.unique htok .nil] at h
  induction fuel generalizing s b with
  | zero =>
    obtain rfl := eq_nil_of_length_eq_zero (Nat.le_zero.mp hfuel)
    exact hempty
  | succ fuel ih =>
    by_cases hb : b = []
    · subst hb
      exact hempty
    · rw [walkTokens, if_neg (by rwa [List.isEmpty_iff])]
      simp only [Option.bind_eq_some_iff]
      constructor
      · rintro ⟨⟨t, n⟩, hget, u, hact, hrest⟩
        obtain ⟨ts, hts, hfold⟩ := (ih (htok.advances.drop_le hget hfuel)).mp hrest
        refine ⟨t :: ts, .of_get htok hget hts, ?_⟩
        exact Option.bind_eq_some_iff.mpr ⟨u, hact, hfold⟩
      · rintro ⟨ts, hts, hfold⟩
        cases ts with
        | nil => exact absurd (hts.nil_get htok).1 hb
        | cons t ts =>
          obtain ⟨n, hget, htail⟩ := hts.cons_get
          have hless := htok.advances.drop_le hget hfuel
          obtain ⟨u, hact, hfold⟩ := Option.bind_eq_some_iff.mp hfold
          exact ⟨(t, n), hget, u, hact, (ih hless).mpr ⟨ts, htail, hfold⟩⟩

end Wired.Lib
