import Wired.Lib.Decoder
import Mathlib.Tactic.Ring

/-!
# Prefixed integers

`integer.c`: an integer starts in the low bits of a byte whose high bits belong to the
instruction around it, and continues in groups of seven bits. The decoder takes at most nine
groups, so that a decoded value is below `2 ^ 63 + 2 ^ bits`; `u64` sums do not wrap.
-/

namespace Wired.Qpack

open Lib List Option

def prefixMax (bits : Nat) : Nat := 2 ^ bits - 1

/-- The trailing groups of seven bits, all but the last with the high bit. -/
def putGroups : Nat → Nat → List UInt8
  | 0, v => [UInt8.ofNat v]
  | fuel + 1, v =>
    if v ≥ 0x80 then (UInt8.ofNat (v % 0x80) ||| 0x80) :: putGroups fuel (v / 2 ^ 7)
    else [UInt8.ofNat v]

def prefixByte (value pmax : Nat) : UInt8 :=
  if value < pmax then UInt8.ofNat value else UInt8.ofNat pmax

def encodeBody (value pmax : Nat) : List UInt8 :=
  if value < pmax then [] else putGroups 10 (value - pmax)

/-- The bytes of an integer under a pattern in the first one, if they fit in `cap` bytes. -/
def qpackIntEncode (cap bits : Nat) (pattern : UInt8) (value : Nat) : Option (List UInt8) :=
  let pmax := prefixMax bits
  let bytes := (pattern ||| prefixByte value pmax) :: encodeBody value pmax
  if bytes.length ≤ cap then some bytes else none

def takeGroups : List UInt8 → Nat → Nat → Option (Nat × Nat)
  | [], _, _ => none
  | b :: rest, m, value =>
    if m > 56 then none
    else
      let value := value + (b &&& 0x7f).toNat * 2 ^ m
      if b &&& 0x80 ≠ 0 then (takeGroups rest (m + 7) value).map fun r => (r.1, r.2 + 1)
      else some (value, 1)

/-- An integer and the bytes it used; at most nine groups are taken. -/
def qpackIntDecode (bits : Nat) : List UInt8 → Option (Nat × Nat)
  | [] => none
  | b :: rest =>
    let pmax := prefixMax bits
    let value := b.toNat &&& pmax
    if value < pmax then some (value, 1)
    else (takeGroups rest 0 value).map fun r => (r.1, r.2 + 1)

/-! ## What the decoder reads -/

variable {b bytes : List UInt8} {value v n bits cap : Nat} {pattern : UInt8}

theorem takeGroups_spec {m : Nat} (h : takeGroups b m value = some (v, n)) :
    0 < n ∧ n ≤ b.length ∧ v + 2 ^ m ≤ value + 2 ^ 63 ∧
      ∀ c, takeGroups (b.take n ++ c) m value = some (v, n) := by
  induction b generalizing m value v n with
  | nil => cases h
  | cons x rest ih =>
    unfold takeGroups at h
    split at h
    · cases h
    rename_i hm
    have hx : (x &&& 0x7f).toNat * 2 ^ m ≤ 127 * 2 ^ m := by
      refine Nat.mul_le_mul_right _ ?_
      exact Nat.and_le_right
    have hpow : 2 ^ (m + 7) = 128 * 2 ^ m := by rw [Nat.pow_add, Nat.mul_comm]
    have hmax : 2 ^ (m + 7) ≤ 2 ^ 63 := Nat.pow_le_pow_right (by decide) (by omega)
    split at h
    · rename_i hgo
      obtain ⟨⟨v', n'⟩, hrest, he⟩ := map_eq_some_iff.mp h
      cases he
      obtain ⟨hpos, hle, hlt, hhead⟩ := ih hrest
      refine ⟨by omega, by simpa using hle, by omega, ?_⟩
      intro c
      rw [take_succ_cons, cons_append, takeGroups, if_neg hm]
      simp only [hgo, ne_eq, not_false_eq_true, if_true, hhead c, map_some]
    · rename_i hstop
      cases h
      refine ⟨one_pos, by simp, by omega, ?_⟩
      intro c
      simp only [take_succ_cons, take_zero, cons_append, nil_append,
        takeGroups, if_neg hm, hstop, if_false]

theorem and_prefixMax (x bits : Nat) : x &&& prefixMax bits = x % 2 ^ bits :=
  Nat.and_two_pow_sub_one_eq_mod x bits

theorem qpackIntDecode_stable (bits : Nat) : Stable (qpackIntDecode bits) := by
  have hspec : ∀ {b v n}, qpackIntDecode bits b = some (v, n) →
      0 < n ∧ n ≤ b.length ∧ ∀ c, qpackIntDecode bits (b.take n ++ c) = some (v, n) := by
    intro b v n h
    cases b with
    | nil => cases h
    | cons x rest =>
      simp only [qpackIntDecode] at h
      split at h
      · rename_i hlt
        cases h
        refine ⟨one_pos, by simp, ?_⟩
        intro c
        simp [qpackIntDecode, hlt]
      · rename_i hge
        obtain ⟨⟨v', n'⟩, hrest, he⟩ := map_eq_some_iff.mp h
        cases he
        obtain ⟨-, hle, -, hhead⟩ := takeGroups_spec hrest
        refine ⟨Nat.succ_pos _, by simpa using hle, ?_⟩
        intro c
        simp only [take_succ_cons, cons_append, qpackIntDecode, hge, if_false, hhead c, map_some]
  exact ⟨⟨fun h => (hspec h).2.1, fun h => (hspec h).2.2⟩, fun h => (hspec h).1⟩

theorem qpackIntDecode_lt (h : qpackIntDecode bits b = some (v, n)) :
    v < 2 ^ bits + 2 ^ 63 - 1 := by
  cases b with
  | nil => cases h
  | cons x rest =>
    simp only [qpackIntDecode] at h
    have hlow : x.toNat &&& prefixMax bits < 2 ^ bits := by
      rw [and_prefixMax]
      exact Nat.mod_lt _ (Nat.two_pow_pos bits)
    split at h
    · cases h
      omega
    · obtain ⟨⟨v', n'⟩, hrest, he⟩ := map_eq_some_iff.mp h
      cases he
      have := (takeGroups_spec hrest).2.2.1
      omega

/-! ## Round trip -/

theorem next_group (x : Nat) :
    ((UInt8.ofNat (x % 0x80) ||| 0x80) &&& 0x7f).toNat = x % 0x80 ∧
      (UInt8.ofNat (x % 0x80) ||| 0x80) &&& 0x80 ≠ 0 := by
  have hlt := Nat.mod_lt x (show 0x80 > 0 by decide)
  generalize x % 0x80 = y at hlt
  revert y
  decide +kernel

theorem last_group {x : Nat} (h : x < 0x80) :
    (UInt8.ofNat x &&& 0x7f).toNat = x ∧ ¬ UInt8.ofNat x &&& 0x80 ≠ 0 := by
  revert x
  decide +kernel

/-- A value of `k + 1` groups is read back by a decoder that can take that many. -/
theorem takeGroups_putGroups (k : Nat) : ∀ {fuel v m acc : Nat}, k ≤ fuel →
    v < 2 ^ (7 * (k + 1)) → m + 7 * k ≤ 56 → ∀ rest,
    takeGroups (putGroups fuel v ++ rest) m acc =
      some (acc + v * 2 ^ m, (putGroups fuel v).length) := by
  induction k with
  | zero =>
    intro fuel v m acc _ hv hm rest
    have hlast := last_group (x := v) (by simpa using hv)
    have hput : putGroups fuel v = [UInt8.ofNat v] := by
      cases fuel with
      | zero => rfl
      | succ fuel =>
        unfold putGroups
        rw [if_neg (by omega)]
    rw [hput]
    simp only [cons_append, nil_append, takeGroups, if_neg (show ¬ m > 56 by omega),
      hlast.1, hlast.2, if_false, length_singleton]
  | succ k ih =>
    intro fuel v m acc hf hv hm rest
    obtain ⟨fuel, rfl⟩ : ∃ f, fuel = f + 1 := ⟨fuel - 1, by omega⟩
    unfold putGroups
    split
    · have hquot : v / 2 ^ 7 < 2 ^ (7 * (k + 1)) := by
        rw [Nat.div_lt_iff_lt_mul (by decide), ← pow_add]
        exact hv
      have hrec := @ih fuel (v / 2 ^ 7) (m + 7) (acc + v % 0x80 * 2 ^ m) (by omega)
        hquot (by omega) rest
      have hsum : acc + v % 0x80 * 2 ^ m + v / 2 ^ 7 * 2 ^ (m + 7) = acc + v * 2 ^ m := by
        have hdiv : 2 ^ 7 * (v / 2 ^ 7) + v % 0x80 = v := Nat.div_add_mod v (2 ^ 7)
        calc acc + v % 0x80 * 2 ^ m + v / 2 ^ 7 * 2 ^ (m + 7)
            = acc + (2 ^ 7 * (v / 2 ^ 7) + v % 0x80) * 2 ^ m := by ring
          _ = acc + v * 2 ^ m := by rw [hdiv]
      simp only [cons_append, takeGroups, if_neg (show ¬ m > 56 by omega), next_group,
        ne_eq, not_false_eq_true, if_true, hrec, map_some, hsum,
        length_cons]
    · have hlast := last_group (x := v) (by omega)
      simp only [cons_append, nil_append, takeGroups, if_neg (show ¬ m > 56 by omega),
        hlast.1, hlast.2, if_false, length_singleton]

theorem putGroups_length_le (k : Nat) : ∀ {fuel v : Nat}, k ≤ fuel → v < 2 ^ (7 * (k + 1)) →
    (putGroups fuel v).length ≤ k + 1 := by
  induction k with
  | zero =>
    intro fuel v _ hv
    cases fuel with
    | zero => exact le_rfl
    | succ fuel =>
      unfold putGroups
      rw [if_neg (by omega)]
      exact le_rfl
  | succ k ih =>
    intro fuel v hf hv
    obtain ⟨fuel, rfl⟩ : ∃ f, fuel = f + 1 := ⟨fuel - 1, by omega⟩
    have hquot : v / 2 ^ 7 < 2 ^ (7 * (k + 1)) := by
      rw [Nat.div_lt_iff_lt_mul (by decide), ← pow_add]
      exact hv
    have hrec := @ih fuel (v / 2 ^ 7) (by omega) hquot
    unfold putGroups
    split
    · rw [length_cons]
      omega
    · exact Nat.succ_le_succ zero_le

/-- A pattern that leaves the low `bits` bits of the first byte free. -/
def PatternFree (bits : Nat) (pattern : UInt8) : Prop :=
  ∀ x < 2 ^ bits, (pattern ||| UInt8.ofNat x).toNat &&& prefixMax bits = x

/-- It is enough that the low bits of the pattern are zero. -/
theorem patternFree_of_mod (hbits : bits ≤ 8) (h : pattern.toNat % 2 ^ bits = 0) :
    PatternFree bits pattern := by
  intro x hx
  have hbyte : x < 2 ^ 8 := lt_of_lt_of_le hx (Nat.pow_le_pow_right (by decide) hbits)
  rw [and_prefixMax, UInt8.toNat_or, UInt8.toNat_ofNat_of_lt' hbyte, Nat.or_mod_two_pow, h,
    Nat.zero_or, Nat.mod_eq_of_lt hx]

theorem qpackIntEncode_eq_some :
    qpackIntEncode cap bits pattern value = some bytes ↔
      bytes = (pattern ||| prefixByte value (prefixMax bits)) ::
        encodeBody value (prefixMax bits) ∧ bytes.length ≤ cap := by
  unfold qpackIntEncode
  dsimp only
  split
  · rename_i hfit
    simp only [Option.some.injEq]
    constructor
    · rintro rfl
      exact ⟨rfl, hfit⟩
    · rintro ⟨rfl, -⟩
      rfl
  · rename_i hfit
    simp only [false_iff, reduceCtorEq, not_and]
    rintro rfl
    exact hfit

theorem qpackIntEncode_of_room (pattern : UInt8) (k : Nat) (hk : k ≤ 10)
    (hvalue : value < 2 ^ (7 * (k + 1))) (hcap : k + 2 ≤ cap) :
    ∃ bytes, qpackIntEncode cap bits pattern value = some bytes ∧ bytes.length ≤ k + 2 := by
  have hbody : (encodeBody value (prefixMax bits)).length ≤ k + 1 := by
    unfold encodeBody
    split
    · exact zero_le
    · exact putGroups_length_le k hk (by omega)
  refine ⟨_, qpackIntEncode_eq_some.mpr ⟨rfl, ?_⟩, ?_⟩
  · rw [length_cons]
    omega
  · rw [length_cons]
    omega

theorem qpackIntEncode_head (h : qpackIntEncode cap bits pattern value = some bytes) :
    ∃ x < 2 ^ bits, ∀ rest, (bytes ++ rest).head? = some (pattern ||| UInt8.ofNat x) := by
  obtain ⟨rfl, -⟩ := qpackIntEncode_eq_some.mp h
  have hpos := Nat.two_pow_pos bits
  unfold prefixByte prefixMax
  split
  · exact ⟨value, by omega, fun _ => rfl⟩
  · exact ⟨2 ^ bits - 1, by omega, fun _ => rfl⟩

/-- **Round trip.** An encoded integer is decoded to itself, and uses exactly its bytes. -/
theorem qpackIntDecode_encode (hpat : PatternFree bits pattern) (hvalue : value < 2 ^ 63)
    (h : qpackIntEncode cap bits pattern value = some bytes) (rest : List UInt8) :
    qpackIntDecode bits (bytes ++ rest) = some (value, bytes.length) := by
  obtain ⟨rfl, -⟩ := qpackIntEncode_eq_some.mp h
  have hmax : prefixMax bits < 2 ^ bits := by
    have := Nat.two_pow_pos bits
    unfold prefixMax
    omega
  simp only [cons_append, qpackIntDecode, encodeBody, prefixByte]
  split
  · rename_i hlt
    rw [hpat _ (by omega), if_pos hlt]
    rfl
  · rw [hpat _ hmax, if_neg (lt_irrefl _),
      takeGroups_putGroups 8 (by decide) (by omega) (by decide) rest]
    simp only [map_some, pow_zero, mul_one, length_cons]
    congr 2
    omega

end Wired.Qpack
