import Mathlib.Data.List.Basic

/-!
# Decoders that read a head of their input

A decoder reads a value at the head of a byte string and says how many bytes it used, or fails.
`Stable` makes it usable on a stream that arrives in pieces: a success depends on the used bytes
only, so that what was decoded from a part of the stream is what the whole of it decodes to
(`decodeAll_append`, `interpret_messages`). A failure can become a success when more arrives.
-/

namespace Wired.Lib

open List Option

variable {ε α β : Type*}

/-- A success uses no more bytes than there are, and depends on those only. -/
structure ReadsHead (d : List ε → Option (α × Nat)) : Prop where
  le : ∀ {b v n}, d b = some (v, n) → n ≤ b.length
  head : ∀ {b v n}, d b = some (v, n) → ∀ c, d (b.take n ++ c) = some (v, n)

/-- A success moreover uses at least one byte. -/
structure Stable (d : List ε → Option (α × Nat)) : Prop extends ReadsHead d where
  pos : ∀ {b v n}, d b = some (v, n) → 0 < n

variable {b c : List ε} {v : α} {n : Nat} {e : α → List ε → Option (β × Nat)}

/-- Reading a number of elements. -/
theorem ReadsHead.ofTake (n : Nat) (f : List ε → α) :
    ReadsHead fun b => if b.length < n then none else some (f (b.take n), n) where
  le := by
    intro b v k h
    split at h
    · cases h
    cases h
    omega
  head := by
    intro b v k h c
    split at h
    · cases h
    cases h
    have hlen : (b.take n).length = n := length_take_of_le (by omega)
    rw [if_neg (by rw [length_append]; omega), take_left' hlen]

namespace Stable

variable {d : List ε → Option (α × Nat)}

theorem append (h : Stable d) (hd : d b = some (v, n)) (more : List ε) :
    d (b ++ more) = some (v, n) := by
  have := h.head hd (b.drop n ++ more)
  rwa [← append_assoc, take_append_drop] at this

theorem of_take_eq (h : Stable d) (hd : d b = some (v, n)) (hc : c.take n = b.take n) :
    d c = some (v, n) := by
  have := h.head hd (c.drop n)
  rwa [← hc, take_append_drop] at this

theorem of_prefix (h : Stable d) (hd : d b = some (v, n)) (hc : b <+: c) : d c = some (v, n) := by
  obtain ⟨more, rfl⟩ := hc
  exact h.append hd more

theorem of_successes {d : List ε → Option (α × Nat)}
    (h : ∀ {b v n}, d b = some (v, n) →
      0 < n ∧ n ≤ b.length ∧ ∀ c, d (b.take n ++ c) = some (v, n)) : Stable d :=
  ⟨⟨fun hd => (h hd).2.1, fun hd => (h hd).2.2⟩, fun hd => (h hd).1⟩

theorem map (h : Stable d) (f : α → β) : Stable fun b => (d b).map fun r => (f r.1, r.2) := by
  refine of_successes fun hd => ?_
  obtain ⟨⟨a, m⟩, ha, he⟩ := map_eq_some_iff.mp hd
  cases he
  exact ⟨h.pos ha, h.le ha, fun c => by simp [h.head ha c]⟩

/-- A decoder that is chosen by the first element it reads. -/
theorem byHead {d : ε → List ε → Option (α × Nat)} (h : ∀ x, Stable (d x)) :
    Stable fun b => b.head?.bind fun x => d x b := by
  refine of_successes fun hd => ?_
  obtain ⟨x, hhead, hx⟩ := bind_eq_some_iff.mp hd
  have hpos := (h x).pos hx
  refine ⟨hpos, (h x).le hx, fun c => bind_eq_some_iff.mpr ⟨x, ?_, (h x).head hx c⟩⟩
  rw [head?_append, head?_take, if_neg (Nat.ne_of_gt hpos), hhead]
  rfl

/-- A decoder whose first element says how many it uses. -/
theorem ofLength {len : ε → Nat} (hlen : ∀ x, 0 < len x) (value : ε → List ε → α) :
    Stable fun b => b.head?.bind fun x =>
      if b.length < len x then none else some (value x (b.take (len x)), len x) := by
  refine byHead fun x => ⟨ReadsHead.ofTake (len x) (value x), ?_⟩
  intro b v n h
  split at h
  · cases h
  cases h
  exact hlen x

theorem ofLength_eq_some {len : ε → Nat} (hlen : ∀ x, 0 < len x) {value : ε → List ε → α}
    (h : (b.head?.bind fun x =>
      if b.length < len x then none else some (value x (b.take (len x)), len x)) = some (v, n)) :
    ∃ x t, len x = t.length + 1 ∧ v = value x (x :: t) ∧ n = len x := by
  obtain ⟨x, hx, h⟩ := bind_eq_some_iff.mp h
  obtain ⟨t, rfl⟩ := head?_eq_some_iff.mp hx
  obtain ⟨m, hm⟩ := Nat.exists_eq_succ_of_ne_zero (Nat.ne_of_gt (hlen x))
  split at h
  · cases h
  rename_i hle
  cases h
  rw [length_cons] at hle
  refine ⟨x, t.take m, ?_, ?_, rfl⟩
  · rw [length_take]
    omega
  · rw [hm, take_succ_cons]

/-- A decoder followed by another one that reads where the first ended. -/
def andThen (d : List ε → Option (α × Nat)) (e : α → List ε → Option (β × Nat)) (b : List ε) :
    Option (β × Nat) :=
  match d b with
  | none => none
  | some (v, n) =>
    match e v (b.drop n) with
    | none => none
    | some (w, m) => some (w, n + m)

theorem andThen_eq_some {w : β} {k : Nat} :
    andThen d e b = some (w, k) ↔
      ∃ v n m, d b = some (v, n) ∧ e v (b.drop n) = some (w, m) ∧ k = n + m := by
  unfold andThen
  constructor
  · intro h
    split at h
    · cases h
    rename_i v n hd
    split at h
    · cases h
    rename_i he
    cases h
    exact ⟨v, n, _, hd, he, rfl⟩
  · rintro ⟨v, n, m, hd, he, rfl⟩
    simp only [hd, he]

theorem then_ (h : Stable d) (he : ∀ v, ReadsHead (e v)) : Stable (andThen d e) := by
  refine of_successes fun {b w k} hk => ?_
  obtain ⟨v, n, m, hd, hm, rfl⟩ := andThen_eq_some.mp hk
  have hpos := h.pos hd
  have hn := h.le hd
  have hle := (he v).le hm
  rw [length_drop] at hle
  refine ⟨by omega, by omega, fun c => ?_⟩
  have hlen : n ≤ (b.take (n + m)).length := by
    rw [length_take]
    omega
  have hfirst : (b.take (n + m) ++ c).take n = b.take n := by
    rw [take_append_of_le_length hlen, take_take, Nat.min_eq_left (Nat.le_add_right n m)]
  have hrest : (b.take (n + m) ++ c).drop n = (b.drop n).take m ++ c := by
    rw [drop_append_of_le_length hlen, drop_take, Nat.add_sub_cancel_left]
  refine andThen_eq_some.mpr ⟨v, n, m, h.of_take_eq hd hfirst, ?_, rfl⟩
  rw [hrest]
  exact (he v).head hm c

end Stable

/-! ## Positions that are read -/

/-- Every position that is read of a string lies in it. -/
def InBounds (reads : List ε → List Nat) : Prop := ∀ b, ∀ i ∈ reads b, i < b.length

def readsThen (d : List ε → Option (α × Nat)) (reads : List ε → List Nat)
    (reads' : α → List ε → List Nat) (b : List ε) : List Nat :=
  reads b ++
    match d b with
    | none => []
    | some (v, n) => (reads' v (b.drop n)).map (n + ·)

section

variable {d : List ε → Option (α × Nat)} {reads : List ε → List Nat}
  {reads' : α → List ε → List Nat}

theorem mem_readsThen {i : Nat} :
    i ∈ readsThen d reads reads' b ↔
      i ∈ reads b ∨ ∃ v n, d b = some (v, n) ∧ ∃ j ∈ reads' v (b.drop n), i = n + j := by
  rw [readsThen, mem_append]
  cases hd : d b with
  | none => simp
  | some r =>
    obtain ⟨v, n⟩ := r
    simp [eq_comm]

theorem InBounds.then_ (h : InBounds reads) (h' : ∀ v, InBounds (reads' v)) :
    InBounds (readsThen d reads reads') := by
  intro b i hi
  obtain hi | ⟨v, n, -, j, hj, rfl⟩ := mem_readsThen.mp hi
  · exact h b i hi
  · have hlt := h' v _ j hj
    rw [length_drop] at hlt
    omega

end

/-! ## Decoding everything that is whole -/

/-- A success uses at least one element, and no more than there are. -/
structure Advances (d : List ε → Option (α × Nat)) : Prop where
  le : ∀ {b v n}, d b = some (v, n) → n ≤ b.length
  pos : ∀ {b v n}, d b = some (v, n) → 0 < n

section

variable {d : List ε → Option (α × Nat)}

theorem Stable.advances (h : Stable d) : Advances d := ⟨h.le, h.pos⟩

theorem Advances.drop_lt (h : Advances d) (hd : d b = some (v, n)) :
    (b.drop n).length < b.length := by
  have hpos := h.pos hd
  have hle := h.le hd
  rw [length_drop]
  omega

theorem Advances.drop_le (h : Advances d) (hd : d b = some (v, n)) {fuel : Nat}
    (hfuel : b.length ≤ fuel + 1) : (b.drop n).length ≤ fuel :=
  Nat.le_of_lt_succ (Nat.lt_of_lt_of_le (h.drop_lt hd) hfuel)

theorem Advances.fuel_succ (h : Advances d) (hd : d b = some (v, n)) {fuel : Nat}
    (hfuel : b.length ≤ fuel) : ∃ k, fuel = k + 1 ∧ (b.drop n).length ≤ k := by
  have hless := h.drop_lt hd
  exact ⟨fuel - 1, by omega, by omega⟩

theorem Advances.nil (h : Advances d) : d [] = none := by
  cases hd : d [] with
  | none => rfl
  | some r => exact absurd (h.drop_lt hd) (Nat.not_lt_zero _)

theorem Stable.nil (h : Stable d) : d [] = none := h.advances.nil

end

/-- With fuel for all that is left, more fuel changes nothing, if each round leaves less. -/
theorem fuel_irrel {γ δ : Type*} {f : Nat → γ → δ} (size : γ → Nat)
    (hend : ∀ k x, size x = 0 → f k x = f 0 x)
    (hround : ∀ k k' x, (∀ y, size y < size x → f k y = f k' y) → f (k + 1) x = f (k' + 1) x)
    {k k' : Nat} {x : γ} (hk : size x ≤ k) (hk' : size x ≤ k') : f k x = f k' x := by
  induction k generalizing k' x with
  | zero => exact (hend k' x (Nat.le_zero.mp hk)).symm
  | succ k ih =>
    cases k' with
    | zero => exact hend (k + 1) x (Nat.le_zero.mp hk')
    | succ k' => exact hround k k' x fun y hy => ih (by omega) (by omega)

def decodeFuel (d : List ε → Option (α × Nat)) : Nat → List ε → List α × Nat
  | 0, _ => ([], 0)
  | fuel + 1, b =>
    match d b with
    | none => ([], 0)
    | some (v, n) => (v :: (decodeFuel d fuel (b.drop n)).1, n + (decodeFuel d fuel (b.drop n)).2)

/-- The values at the head, one behind the other, and how much they used. -/
def decodeAll (d : List ε → Option (α × Nat)) (b : List ε) : List α × Nat :=
  decodeFuel d b.length b

variable {fuel : Nat}

section

variable {d : List ε → Option (α × Nat)}

theorem decodeFuel_eq_decodeAll (h : Advances d) (hfuel : b.length ≤ fuel) :
    decodeFuel d fuel b = decodeAll d b := by
  refine fuel_irrel List.length ?_ ?_ hfuel (Nat.le_refl b.length)
  · intro k b hb
    obtain rfl := eq_nil_of_length_eq_zero hb
    cases k with
    | zero => rfl
    | succ k => simp [decodeFuel, h.nil]
  · intro k k' b ih
    unfold decodeFuel
    cases hd : d b with
    | none => rfl
    | some r =>
      dsimp only
      rw [ih (b.drop r.2) (h.drop_lt hd)]

theorem decodeAll_none (hd : d b = none) : decodeAll d b = ([], 0) := by
  unfold decodeAll
  cases b.length with
  | zero => rfl
  | succ k => simp [decodeFuel, hd]

theorem decodeAll_some (h : Advances d) (hd : d b = some (v, n)) :
    decodeAll d b = (v :: (decodeAll d (b.drop n)).1, n + (decodeAll d (b.drop n)).2) := by
  obtain ⟨k, hk, hrest⟩ := h.fuel_succ hd (Nat.le_refl b.length)
  conv_lhs => unfold decodeAll
  simp only [hk, decodeFuel, hd, decodeFuel_eq_decodeAll h hrest]

theorem decodeAll_induction (h : Advances d) {motive : List ε → Prop}
    (hnone : ∀ b, d b = none → motive b)
    (hsome : ∀ b v n, d b = some (v, n) → motive (b.drop n) → motive b) (b : List ε) :
    motive b := by
  induction hlen : b.length using Nat.strongRecOn generalizing b with
  | _ k ih =>
    cases hd : d b with
    | none => exact hnone b hd
    | some r => exact hsome b r.1 r.2 hd (ih _ (hlen ▸ h.drop_lt hd) _ rfl)

theorem decodeAll_le (h : Advances d) (b : List ε) : (decodeAll d b).2 ≤ b.length := by
  induction b using decodeAll_induction h with
  | hnone b hd => simp [decodeAll_none hd]
  | hsome b v n hd ih =>
    have hle := h.le hd
    rw [decodeAll_some h hd]
    rw [length_drop] at ih
    omega

/-- When more arrives, decoding goes on from what was left. -/
theorem decodeAll_append (h : Stable d) (b c : List ε) :
    decodeAll d (b ++ c) =
      ((decodeAll d b).1 ++ (decodeAll d (b.drop (decodeAll d b).2 ++ c)).1,
        (decodeAll d b).2 + (decodeAll d (b.drop (decodeAll d b).2 ++ c)).2) := by
  induction b using decodeAll_induction h.advances with
  | hnone b hd => simp [decodeAll_none hd]
  | hsome b v n hd ih =>
    rw [drop_drop] at ih
    rw [decodeAll_some h.advances hd, decodeAll_some h.advances (h.append hd c),
      drop_append_of_le_length (h.le hd), ih]
    simp only [cons_append, Nat.add_assoc]

theorem decodeAll_take (h : Stable d) (b : List ε) :
    decodeAll d (b.take (decodeAll d b).2) = decodeAll d b := by
  induction b using decodeAll_induction h.advances with
  | hnone b hd => rw [decodeAll_none hd, take_zero, decodeAll_none h.nil]
  | hsome b v n hd ih =>
    rw [decodeAll_some h.advances hd]
    have hhead : d (b.take (n + (decodeAll d (b.drop n)).2)) = some (v, n) := by
      apply h.of_take_eq hd
      rw [take_take, Nat.min_eq_left (Nat.le_add_right _ _)]
    rw [decodeAll_some h.advances hhead, drop_take, Nat.add_sub_cancel_left, ih]

/-- A string has the values of a part of it exactly when nothing further is whole in it. -/
theorem decodeAll_eq_take_iff (h : Stable d) (b : List ε) (m : Nat) :
    ((decodeAll d b).1 = (decodeAll d (b.take m)).1 ↔
        d (b.drop (decodeAll d (b.take m)).2) = none) ∧
      (d (b.drop (decodeAll d (b.take m)).2) = none → decodeAll d b = decodeAll d (b.take m)) := by
  have hle := decodeAll_le h.advances (b.take m)
  have hrest : (b.take m).drop (decodeAll d (b.take m)).2 ++ b.drop m =
      b.drop (decodeAll d (b.take m)).2 := by
    rw [← drop_append_of_le_length hle, take_append_drop]
  have happ := decodeAll_append h (b.take m) (b.drop m)
  rw [hrest, take_append_drop] at happ
  cases hd : d (b.drop (decodeAll d (b.take m)).2) with
  | none =>
    rw [decodeAll_none hd, append_nil, Nat.add_zero] at happ
    simp [happ]
  | some r =>
    rw [decodeAll_some h.advances hd] at happ
    simp [happ]

end

/-! ## Carrying out what is decoded -/

variable {σ : Type*}

/-- One round of an interpreter, unless the value at the head is not whole or not valid. -/
inductive Round (σ : Type*) where
  | incomplete
  | invalid
  | applied (s : σ) (used : Nat)

def interpretOne (d : List ε → Option (α × Nat)) (exec : σ → α → Option σ) (s : σ)
    (b : List ε) : Round σ :=
  match d b with
  | none => .incomplete
  | some (a, n) =>
    match exec s a with
    | none => .invalid
    | some s' => .applied s' n

/-- What an interpreter comes to. -/
structure Interpreted (σ : Type*) where
  state : σ
  used : Nat
  failed : Bool

def Interpreted.skip (n : Nat) (r : Interpreted σ) : Interpreted σ :=
  { r with used := n + r.used }

def interpretFuel (d : List ε → Option (α × Nat)) (exec : σ → α → Option σ) :
    Nat → σ → List ε → Interpreted σ
  | 0, s, _ => ⟨s, 0, false⟩
  | fuel + 1, s, b =>
    match interpretOne d exec s b with
    | .incomplete => ⟨s, 0, false⟩
    | .invalid => ⟨s, 0, true⟩
    | .applied s' n => (interpretFuel d exec fuel s' (b.drop n)).skip n

def interpret (d : List ε → Option (α × Nat)) (exec : σ → α → Option σ) (s : σ) (b : List ε) :
    Interpreted σ :=
  interpretFuel d exec b.length s b

variable {s s' : σ} {bytes : List ε} {a : α}

section

variable {d : List ε → Option (α × Nat)} {exec : σ → α → Option σ}

theorem interpretOne_applied (h : interpretOne d exec s b = .applied s' n) :
    ∃ a, d b = some (a, n) ∧ exec s a = some s' := by
  unfold interpretOne at h
  cases hd : d b with
  | none => simp [hd] at h
  | some r =>
    obtain ⟨a, m⟩ := r
    cases he : exec s a with
    | none => simp [hd, he] at h
    | some s'' =>
      simp only [hd, he, Round.applied.injEq] at h
      exact ⟨a, by rw [h.2], by rw [h.1] at he; exact he⟩

theorem interpret_incomplete (hone : interpretOne d exec s b = .incomplete) :
    interpret d exec s b = ⟨s, 0, false⟩ := by
  unfold interpret
  cases b.length with
  | zero => rfl
  | succ k => simp [interpretFuel, hone]

theorem interpret_induction (exec : σ → α → Option σ) (h : Stable d) {motive : σ → List ε → Prop}
    (hincomplete : ∀ s b, interpretOne d exec s b = .incomplete → motive s b)
    (hinvalid : ∀ s b, interpretOne d exec s b = .invalid → motive s b)
    (happlied : ∀ s s' b n, interpretOne d exec s b = .applied s' n → motive s' (b.drop n) →
      motive s b)
    (s : σ) (b : List ε) :
    motive s b := by
  induction b using decodeAll_induction h.advances generalizing s with
  | hnone b hd => exact hincomplete s b (by simp [interpretOne, hd])
  | hsome b v n hd ih =>
    cases hexec : exec s v with
    | none => exact hinvalid s b (by simp [interpretOne, hd, hexec])
    | some s' => exact happlied s s' b n (by simp [interpretOne, hd, hexec]) (ih s')

/-- A string that is decoded to one value, whatever follows it. -/
def Codes (d : List ε → Option (α × Nat)) (bytes : List ε) (a : α) : Prop :=
  ∀ rest, d (bytes ++ rest) = some (a, bytes.length)

theorem Stable.codes_take (h : Stable d) (hd : d b = some (v, n)) : Codes d (b.take n) v := by
  intro rest
  rw [length_take_of_le (h.le hd)]
  exact h.head hd rest

theorem Codes.ofLength {len : ε → Nat} {value : ε → List ε → α} {x : ε} {t : List ε}
    (hlen : len x = t.length + 1) :
    Codes (fun b => b.head?.bind fun x =>
      if b.length < len x then none else some (value x (b.take (len x)), len x)) (x :: t)
      (value x (x :: t)) := by
  intro rest
  simp [hlen]

/-- Two codes one after the other, the second of which is decoded as the first says. -/
theorem Codes.then_ {more : List ε} {b : β} (h : Codes d bytes a) (h' : Codes (e a) more b) :
    Codes (Stable.andThen d e) (bytes ++ more) b := by
  intro rest
  refine Stable.andThen_eq_some.mpr ⟨a, bytes.length, more.length, ?_, ?_, length_append⟩
  · rw [append_assoc]
    exact h (more ++ rest)
  · rw [append_assoc, drop_left]
    exact h' rest

section

variable (h : Stable d)
include h

theorem interpretOne_nil (s : σ) : interpretOne d exec s [] = .incomplete := by
  simp [interpretOne, h.nil]

theorem interpretOne_append (c : List ε) (hb : interpretOne d exec s b ≠ .incomplete) :
    interpretOne d exec s (b ++ c) = interpretOne d exec s b := by
  unfold interpretOne at hb ⊢
  cases hd : d b with
  | none => simp [hd] at hb
  | some r => rw [h.append hd c]

theorem interpretFuel_eq_interpret (hfuel : b.length ≤ fuel) :
    interpretFuel d exec fuel s b = interpret d exec s b := by
  refine fuel_irrel (f := fun k (x : σ × List ε) => interpretFuel d exec k x.1 x.2) (x := (s, b))
    (fun x => x.2.length) ?_ ?_ hfuel (Nat.le_refl b.length)
  · rintro k ⟨s, b⟩ hb
    obtain rfl := eq_nil_of_length_eq_zero hb
    cases k with
    | zero => rfl
    | succ k => simp [interpretFuel, interpretOne_nil h]
  · rintro k k' ⟨s, b⟩ ih
    unfold interpretFuel
    cases hone : interpretOne d exec s b with
    | incomplete => rfl
    | invalid => rfl
    | applied s' n =>
      obtain ⟨a, hd, -⟩ := interpretOne_applied hone
      exact congrArg (Interpreted.skip n) (ih (s', b.drop n) (h.advances.drop_lt hd))

theorem interpret_invalid (hone : interpretOne d exec s b = .invalid) :
    interpret d exec s b = ⟨s, 0, true⟩ := by
  cases b with
  | nil =>
    rw [interpretOne_nil h] at hone
    cases hone
  | cons x b => simp [interpret, interpretFuel, hone]

theorem interpret_applied (hone : interpretOne d exec s b = .applied s' n) :
    interpret d exec s b = (interpret d exec s' (b.drop n)).skip n := by
  obtain ⟨a, hd, -⟩ := interpretOne_applied hone
  obtain ⟨k, hk, hrest⟩ := h.advances.fuel_succ hd (Nat.le_refl b.length)
  conv_lhs => unfold interpret
  simp only [hk, interpretFuel, hone, interpretFuel_eq_interpret h hrest]

theorem interpret_used_le (s : σ) (b : List ε) : (interpret d exec s b).used ≤ b.length := by
  induction s, b using interpret_induction exec h with
  | hincomplete s b hone => simp [interpret_incomplete hone]
  | hinvalid s b hone => simp [interpret_invalid h hone]
  | happlied s s' b n hone ih =>
    obtain ⟨a, hd, -⟩ := interpretOne_applied hone
    have hle := h.le hd
    rw [length_drop] at ih
    rw [interpret_applied h hone]
    simp only [Interpreted.skip]
    omega

/-- When more arrives, the interpreter goes on from where it stopped. -/
theorem interpret_append (s : σ) (b c : List ε) :
    interpret d exec s (b ++ c) =
      (interpret d exec (interpret d exec s b).state
        (b.drop (interpret d exec s b).used ++ c)).skip (interpret d exec s b).used := by
  induction s, b using interpret_induction exec h with
  | hincomplete s b hone => simp [interpret_incomplete hone, Interpreted.skip]
  | hinvalid s b hone =>
    have happ : interpretOne d exec s (b ++ c) = .invalid := by
      rw [interpretOne_append h c (by rw [hone]; nofun), hone]
    simp [interpret_invalid h hone, interpret_invalid h happ, Interpreted.skip]
  | happlied s s' b n hone ih =>
    obtain ⟨a, hd, -⟩ := interpretOne_applied hone
    have happ : interpretOne d exec s (b ++ c) = .applied s' n := by
      rw [interpretOne_append h c (by rw [hone]; nofun), hone]
    rw [interpret_applied h hone, interpret_applied h happ, drop_append_of_le_length (h.le hd), ih]
    simp [Interpreted.skip, drop_drop, Nat.add_assoc]

theorem Codes.of_decoded (hd : d bytes = some (a, bytes.length)) : Codes d bytes a :=
  fun rest => h.append hd rest

/-- A part of the string that is not the whole of it is not decoded. -/
theorem Codes.not_decoded (hcode : Codes d bytes a) (hb : b ++ c = bytes)
    (hc : c ≠ []) : d b = none := by
  cases hd : d b with
  | none => rfl
  | some r =>
    obtain ⟨v, n⟩ := r
    have hwhole := h.append hd (c ++ [])
    rw [← append_assoc, hb, hcode []] at hwhole
    have hn : bytes.length = n := congrArg Prod.snd (Option.some.inj hwhole)
    have hle := h.le hd
    have hlen := congrArg List.length hb
    rw [length_append] at hlen
    have hpos := length_pos_iff.mpr hc
    omega

end

/-- An interpreter that reads part of a sequence of messages carries out those that are whole. `R`
says what messages a state still expects. -/
theorem interpret_messages {μ : Type*} (exec : σ → α → Option σ) (h : Stable d)
    {R : σ → List μ → Prop} (code : μ → List ε)
    (hstep : ∀ s m ms, R s (m :: ms) → ∃ a s', Codes d (code m) a ∧ exec s a = some s' ∧ R s' ms)
    {ms : List μ} (hR : R s ms) (hb : b ++ c = ms.flatMap code) :
    ∃ todo, R (interpret d exec s b).state todo ∧ (interpret d exec s b).failed = false ∧
      b.drop (interpret d exec s b).used ++ c = todo.flatMap code := by
  induction ms generalizing s b with
  | nil =>
    obtain ⟨rfl, rfl⟩ := append_eq_nil_iff.mp hb
    exact ⟨[], hR, rfl, rfl⟩
  | cons m ms ih =>
    obtain ⟨a, s', hcode, hexec, hR'⟩ := hstep s m ms hR
    rw [flatMap_cons] at hb
    -- either the first message is not whole yet, or it is and the induction goes on behind it
    have hsplit : (∃ t, b ++ t = code m ∧ t ≠ []) ∨
        ∃ t, b = code m ++ t ∧ t ++ c = ms.flatMap code := by
      rcases append_eq_append_iff.mp hb with ⟨t, ht, hc⟩ | ⟨t, ht, hc⟩
      · by_cases htail : t = []
        · subst htail
          exact Or.inr ⟨[], by simpa using ht.symm, by simpa using hc⟩
        · exact Or.inl ⟨t, ht.symm, htail⟩
      · exact Or.inr ⟨t, ht, hc.symm⟩
    rcases hsplit with ⟨t, ht, htail⟩ | ⟨t, ht, hc⟩
    · have hone : interpretOne d exec s b = .incomplete := by
        simp [interpretOne, hcode.not_decoded h ht htail]
      rw [interpret_incomplete hone]
      exact ⟨m :: ms, hR, rfl, by simpa using hb⟩
    · have hone : interpretOne d exec s b = .applied s' (code m).length := by
        simp [interpretOne, ht, hcode t, hexec]
      rw [interpret_applied h hone]
      obtain ⟨todo, htodo, hfailed, hrest⟩ := ih hR' hc
      refine ⟨todo, ?_, ?_, ?_⟩
      · simpa [ht, Interpreted.skip] using htodo
      · simpa [ht, Interpreted.skip] using hfailed
      · simpa [ht, Interpreted.skip] using hrest

end

end Wired.Lib
