import Wired.Lib.Word

/-!
# Packet number recovery

`pnum.c`: a packet carries the low one to four bytes of its packet number, and the receiver picks
the number nearest to the one it expects next. The sums are taken modulo `2 ^ 64`; `win` is a
power of two, so that `expected & ~(win - 1)` is the largest multiple of `win` not above
`expected`.

The window of numbers that are recovered is around the number expected next, open below and closed
above, as in RFC 9000, A.3 (`pnumDecode_encode_iff`). It is not centred at the largest number
received (`lowest_number_lifted`).
-/

namespace Wired.Transport

open Lib List

def pnumLenFrom (need b : Nat) : Nat :=
  if b < 4 ∧ need ≥ 2 ^ (8 * b) then pnumLenFrom need (b + 1) else b
termination_by 4 - b

/-- The fewest bytes, up to four, for twice the range from the largest acknowledged number. -/
def pnumLen (fullPn largestAcked : Nat) : Nat :=
  pnumLenFrom (mulU64 (subU64 fullPn largestAcked) 2) 1

/-- The low `nbytes` bytes of a number. -/
def pnumEncode (fullPn : Nat) : (nbytes : Nat) → List UInt8
  | 0 => []
  | nbytes + 1 => pnumEncode (fullPn / 2 ^ 8) nbytes ++ [UInt8.ofNat (fullPn % 2 ^ 8)]

/-- The big-endian value of the bytes of a packet number field. -/
def readBe (buf : List UInt8) : Nat :=
  buf.foldl (fun v b => (v * 2 ^ 8 ||| b.toNat) % 2 ^ 64) 0

/-- The candidate is a full window below expected and can be lifted safely. -/
def belowWindow (candidate expected win : Nat) : Bool :=
  (candidate + win / 2) % 2 ^ 64 ≤ expected && (candidate + win) % 2 ^ 64 > candidate

/-- The candidate is a full window above expected and can be lowered safely. -/
def aboveWindow (candidate expected win : Nat) : Bool :=
  candidate > (expected + win / 2) % 2 ^ 64 && candidate ≥ win

def nearest (candidate expected win : Nat) : Nat :=
  if belowWindow candidate expected win then (candidate + win) % 2 ^ 64
  else if aboveWindow candidate expected win then candidate - win
  else candidate

/-- The full packet number of a truncated one, given the largest number received. -/
def pnumDecode (buf : List UInt8) (largestPn : Nat) : Nat :=
  let truncated := readBe buf
  let win := 2 ^ (buf.length * 8)
  let expected := (largestPn + 1) % 2 ^ 64
  let candidate := expected / win * win ||| truncated
  nearest candidate expected win

example : pnumDecode [0x9b, 0x32] 0xa82f30ea = 0xa82f9b32 := by decide

/-! ## The length and the bytes -/

theorem pnumLenFrom_bounds (need : Nat) {b : Nat} (hb : b ≤ 4) :
    b ≤ pnumLenFrom need b ∧ pnumLenFrom need b ≤ 4 := by
  fun_induction pnumLenFrom need b with
  | case1 b hmore ih => omega
  | case2 b _ => omega

theorem pnumLen_bounds (fullPn largestAcked : Nat) :
    1 ≤ pnumLen fullPn largestAcked ∧ pnumLen fullPn largestAcked ≤ 4 :=
  pnumLenFrom_bounds _ (by omega)

@[simp] theorem pnumEncode_length (fullPn nbytes : Nat) :
    (pnumEncode fullPn nbytes).length = nbytes := by
  induction nbytes generalizing fullPn with
  | zero => rfl
  | succ n ih => rw [pnumEncode, length_append, ih, length_singleton]

theorem readBe_append (buf : List UInt8) (b : UInt8) :
    readBe (buf ++ [b]) = (readBe buf * 2 ^ 8 ||| b.toNat) % 2 ^ 64 := by
  rw [readBe, foldl_append]
  rfl

theorem readBe_encode (fullPn : Nat) {nbytes : Nat} (hn : nbytes ≤ 8) :
    readBe (pnumEncode fullPn nbytes) = fullPn % 2 ^ (8 * nbytes) := by
  induction nbytes generalizing fullPn with
  | zero => rw [Nat.mul_zero, Nat.pow_zero, Nat.mod_one]; rfl
  | succ n ih =>
    have hbyte : (UInt8.ofNat (fullPn % 2 ^ 8)).toNat = fullPn % 2 ^ 8 := by simp
    have hlow : fullPn % 2 ^ 8 < 2 ^ 8 := Nat.mod_lt _ (by decide)
    have hsplit : fullPn % 2 ^ (8 * (n + 1)) =
        fullPn / 2 ^ 8 % 2 ^ (8 * n) * 2 ^ 8 + fullPn % 2 ^ 8 := by
      rw [Nat.mul_succ, Nat.add_comm, Nat.pow_add, Nat.mod_mul, Nat.add_comm, Nat.mul_comm]
    have hfit : fullPn % 2 ^ (8 * (n + 1)) < 2 ^ 64 :=
      Nat.lt_of_lt_of_le (Nat.mod_lt _ (Nat.two_pow_pos _)) (Nat.pow_le_pow_right (by omega)
        (by omega))
    rw [pnumEncode, readBe_append, ih _ (by omega), hbyte, Nat.mul_comm,
      ← Nat.two_pow_add_eq_or_of_lt hlow, Nat.mul_comm, ← hsplit, Nat.mod_eq_of_lt hfit]

/-! ## The nearest candidate -/

/-- Multiples of `win` are equal, neighbours or further apart. -/
theorem multiples_apart (p q win : Nat) :
    p * win = q * win ∨ p * win = q * win + win ∨ q * win = p * win + win ∨
      q * win + 2 * win ≤ p * win ∨ p * win + 2 * win ≤ q * win := by
  have hle : ∀ {a b k : Nat}, a + k ≤ b → a * win + k * win ≤ b * win := fun h => by
    rw [← Nat.add_mul]
    exact Nat.mul_le_mul_right _ h
  rcases Nat.lt_trichotomy p q with h | rfl | h
  · by_cases hnext : q = p + 1
    · exact .inr (.inr (.inl (by rw [hnext, Nat.add_mul, Nat.one_mul])))
    · exact .inr (.inr (.inr (.inr (hle (by omega)))))
  · exact .inl rfl
  · by_cases hnext : p = q + 1
    · exact .inr (.inl (by rw [hnext, Nat.add_mul, Nat.one_mul]))
    · exact .inr (.inr (.inr (.inl (hle (by omega)))))

/-- The candidate for `pn` is found in the block of the expected number, and is `pn` itself, or is
moved to it by one block, exactly in the window. -/
theorem nearest_eq_iff {p q t e half : Nat} (ht : t < 2 * half) (he : e < 2 * half)
    (hpn : p * (2 * half) + t < 2 ^ 63) (hex : q * (2 * half) + e < 2 ^ 63)
    (hhalf : 2 * half ≤ 2 ^ 62) :
    nearest (q * (2 * half) + t) (q * (2 * half) + e) (2 * half) = p * (2 * half) + t ↔
      q * (2 * half) + e < p * (2 * half) + t + half ∧
        (p * (2 * half) + t ≤ q * (2 * half) + e + half ∨ p * (2 * half) + t < 2 * half) := by
  have hapart := multiples_apart p q (2 * half)
  have hdiv : 2 * half / 2 = half := by omega
  -- from here on only the distances of the two blocks matter
  generalize p * (2 * half) = P, q * (2 * half) = Q at *
  have hlift : (Q + t + half) % 2 ^ 64 = Q + t + half := Nat.mod_eq_of_lt (by omega)
  have hlifted : (Q + t + 2 * half) % 2 ^ 64 = Q + t + 2 * half := Nat.mod_eq_of_lt (by omega)
  have hlower : (Q + e + half) % 2 ^ 64 = Q + e + half := Nat.mod_eq_of_lt (by omega)
  unfold nearest belowWindow aboveWindow
  simp only [Bool.and_eq_true, decide_eq_true_eq]
  split
  · omega
  · split
    · omega
    · omega

/-! ## Recovery -/

/-- A number that was truncated to some bytes is recovered if and only if it is above the number
expected next less half a window, and at most that number plus half a window or not truncated at
all. -/
theorem pnumDecode_bytes_iff {pn largest nbytes : Nat} (hone : 1 ≤ nbytes) (hfour : nbytes ≤ 4)
    (hpn : pn < 2 ^ 62) (hlargest : largest < 2 ^ 62) :
    pnumDecode (pnumEncode pn nbytes) largest = pn ↔
      largest + 1 < pn + 2 ^ (8 * nbytes) / 2 ∧
        (pn ≤ largest + 1 + 2 ^ (8 * nbytes) / 2 ∨ pn < 2 ^ (8 * nbytes)) := by
  generalize hdef : 2 ^ (8 * nbytes) / 2 = half
  have hwin : 2 ^ (8 * nbytes) = 2 * half := by
    obtain ⟨k, hk⟩ : ∃ k, 8 * nbytes = k + 1 := ⟨8 * nbytes - 1, by omega⟩
    have hpow : 2 ^ (8 * nbytes) = 2 ^ k * 2 := by rw [hk, pow_succ]
    omega
  have hle : 2 * half ≤ 2 ^ 62 := by
    rw [← hwin]
    exact Nat.pow_le_pow_right (by omega) (by omega)
  have hpos : 0 < 2 * half := by
    rw [← hwin]
    exact Nat.two_pow_pos _
  have hmod : pn % (2 * half) < 2 * half := Nat.mod_lt _ hpos
  have hexmod : (largest + 1) % (2 * half) < 2 * half := Nat.mod_lt _ hpos
  have hpneq : pn / (2 * half) * (2 * half) + pn % (2 * half) = pn := Nat.div_add_mod' _ _
  have hexeq : (largest + 1) / (2 * half) * (2 * half) + (largest + 1) % (2 * half) =
      largest + 1 := Nat.div_add_mod' _ _
  have hor : ((largest + 1) / (2 * half) * (2 * half) ||| pn % (2 * half)) =
      (largest + 1) / (2 * half) * (2 * half) + pn % (2 * half) := by
    rw [mul_comm _ (2 * half), ← hwin]
    exact (Nat.two_pow_add_eq_or_of_lt (Nat.mod_lt _ (Nat.two_pow_pos _)) _).symm
  have hnear := nearest_eq_iff (p := pn / (2 * half)) (q := (largest + 1) / (2 * half)) hmod hexmod
    (by omega) (by omega) hle
  rw [hpneq, hexeq] at hnear
  unfold pnumDecode
  rw [readBe_encode pn (by omega), pnumEncode_length, mul_comm nbytes 8,
    Nat.mod_eq_of_lt (by omega : largest + 1 < 2 ^ 64), hwin]
  dsimp only
  rw [hor]
  exact hnear

/-- The window of a number that was truncated to the length its sender chose. -/
theorem pnumDecode_encode_iff {pn largest : Nat} (largestAcked : Nat) (hpn : pn < 2 ^ 62)
    (hlargest : largest < 2 ^ 62) :
    pnumDecode (pnumEncode pn (pnumLen pn largestAcked)) largest = pn ↔
      largest + 1 < pn + 2 ^ (8 * pnumLen pn largestAcked) / 2 ∧
        (pn ≤ largest + 1 + 2 ^ (8 * pnumLen pn largestAcked) / 2 ∨
          pn < 2 ^ (8 * pnumLen pn largestAcked)) := by
  obtain ⟨hone, hfour⟩ := pnumLen_bounds pn largestAcked
  exact pnumDecode_bytes_iff hone hfour hpn hlargest

/-- The first packet of a space, and one near the end of the numbers. -/
theorem pnumDecode_encode_ends :
    pnumDecode (pnumEncode 0 (pnumLen 0 (2 ^ 64 - 1))) 5 = 0 ∧
      pnumDecode (pnumEncode (2 ^ 62 - 1) (pnumLen (2 ^ 62 - 1) (2 ^ 62 - 9))) (2 ^ 62 - 5) =
        2 ^ 62 - 1 := by
  have hfirst : pnumLen 0 (2 ^ 64 - 1) = 1 := by simp [pnumLen, pnumLenFrom, mulU64, subU64]
  have hlast : pnumLen (2 ^ 62 - 1) (2 ^ 62 - 9) = 1 := by
    simp [pnumLen, pnumLenFrom, mulU64, subU64]
  constructor
  · refine (pnumDecode_encode_iff (2 ^ 64 - 1) (by decide) (by decide)).mpr ?_
    rw [hfirst]
    decide
  · refine (pnumDecode_encode_iff (2 ^ 62 - 9) (by decide) (by decide)).mpr ?_
    rw [hlast]
    decide

/-- Packet 0, in one byte, at a receiver that has packet 127: the distance is below half a window,
and the packet is taken for packet 256. -/
theorem lowest_number_lifted :
    ¬ ∀ pn largestAcked largest : Nat, pn < 2 ^ 62 → largest < 2 ^ 62 →
      largest < pn + 2 ^ (8 * pnumLen pn largestAcked) / 2 →
      pn < largest + 2 ^ (8 * pnumLen pn largestAcked) / 2 →
      pnumDecode (pnumEncode pn (pnumLen pn largestAcked)) largest = pn := by
  intro h
  have hlen : pnumLen 0 (2 ^ 64 - 1) = 1 := by simp [pnumLen, pnumLenFrom, mulU64, subU64]
  have hdecode := h 0 (2 ^ 64 - 1) 127 (by decide) (by decide)
  rw [hlen] at hdecode
  revert hdecode
  decide

end Wired.Transport
