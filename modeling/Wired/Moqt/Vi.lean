import Wired.Transport.Varint

/-!
# Variable-length integers of MoQT

`moqvi.c`: as many one bits at the head of the first byte as there are bytes behind it, then a
zero, then the value, most significant byte first; nine bytes hold any value of 64 bits. The
encoder takes the shortest form, the decoder takes all. These are not the integers of QUIC.
-/

namespace Wired.Moqt

open Lib Transport

/-- The loop of `moqvi_hdr_len`: a byte of eight bits has no one bit left after eight shifts. -/
def moqviHdrLenFrom : Nat → UInt8 → Nat
  | 0, _ => 1
  | fuel + 1, b => if b &&& 0x80 ≠ 0 then moqviHdrLenFrom fuel (b <<< 1) + 1 else 1

def moqviHdrLen (b : UInt8) : Nat := moqviHdrLenFrom 8 b

/-- The bytes of an encoding of `n`, the first one without its `n` high bits. -/
def moqviGetBe (n : Nat) : List UInt8 → Nat
  | [] => 0
  | b :: rest => rest.foldl (fun v x => v * 2 ^ 8 + x.toNat) (b.toNat % 2 ^ (8 - n))

def moqviDecode (buf : List UInt8) : Option (Nat × Nat) :=
  buf.head?.bind fun b =>
    if buf.length < moqviHdrLen b then none
    else some (moqviGetBe (moqviHdrLen b) (buf.take (moqviHdrLen b)), moqviHdrLen b)

def moqviTake : Decoder UInt8 Nat := moqviDecode

/-- The loop of `moqvi_len`, with the rounds that are left before `k` is nine. -/
def moqviLenFrom (v : Nat) : Nat → Nat → Nat
  | 0, k => k
  | rounds + 1, k => if v / 2 ^ (7 * k) ≠ 0 then moqviLenFrom v rounds (k + 1) else k

def moqviLen (v : Nat) : Nat := moqviLenFrom v 8 1

/-- `moqvi_prefix[n]`: the one bits of the first byte. -/
def moqviPrefix (n : Nat) : UInt8 :=
  [0, 0x00, 0x80, 0xC0, 0xE0, 0xF0, 0xF8, 0xFC, 0xFE, 0xFF].getD n 0

def moqviEncode (v : Nat) : List UInt8 :=
  match beBytes (moqviLen v) v with
  | [] => []
  | b :: rest => (b ||| moqviPrefix (moqviLen v)) :: rest

def moqviPut (cap : Nat) (out : List UInt8) (v : Nat) : Option (List UInt8) :=
  if moqviLen v > cap - out.length then none else some (out ++ moqviEncode v)

/-! ## Decoding -/

theorem moqviHdrLenFrom_bounds (fuel : Nat) (b : UInt8) :
    0 < moqviHdrLenFrom fuel b ∧ moqviHdrLenFrom fuel b ≤ fuel + 1 := by
  induction fuel generalizing b with
  | zero => exact ⟨one_pos, le_rfl⟩
  | succ fuel ih =>
    have hnext := ih (b <<< 1)
    rw [moqviHdrLenFrom]
    split <;> omega

theorem moqviDecode_stable : Stable moqviDecode :=
  Stable.ofLength (fun b => (moqviHdrLenFrom_bounds 8 b).1) fun b => moqviGetBe (moqviHdrLen b)

theorem moqviDecode_none {buf : List UInt8} (h : moqviDecode buf = none) : buf.length < 9 := by
  cases buf with
  | nil => exact Nat.zero_lt_succ _
  | cons b rest =>
    have hneed := (moqviHdrLenFrom_bounds 8 b).2
    simp only [moqviDecode, List.head?_cons, Option.bind_some] at h
    split at h
    · rename_i hshort
      exact lt_of_lt_of_le hshort hneed
    · cases h

section

variable {buf : List UInt8} {v n : Nat} (h : moqviDecode buf = some (v, n))
include h

theorem moqviDecode_eq_some :
    ∃ b rest, moqviHdrLen b = rest.length + 1 ∧ moqviHdrLen b ≤ 9 ∧
      v = moqviGetBe (moqviHdrLen b) (b :: rest) ∧ n = moqviHdrLen b := by
  obtain ⟨b, rest, hlen, hv, hn⟩ :=
    Stable.ofLength_eq_some (fun b => (moqviHdrLenFrom_bounds 8 b).1) h
  exact ⟨b, rest, hlen, (moqviHdrLenFrom_bounds 8 b).2, hv, hn⟩

theorem moqviDecode_used : n ≤ 9 := by
  obtain ⟨b, rest, -, hle, -, rfl⟩ := moqviDecode_eq_some h
  exact hle

end

/-! ## Encoding -/

theorem moqviLenFrom_spec (v rounds k : Nat) (hk : 0 < k) (hend : k + rounds = 9) :
    k ≤ moqviLenFrom v rounds k ∧ moqviLenFrom v rounds k ≤ 9 ∧
      (moqviLenFrom v rounds k < 9 → v < 2 ^ (7 * moqviLenFrom v rounds k)) := by
  induction rounds generalizing k with
  | zero =>
    rw [moqviLenFrom]
    omega
  | succ rounds ih =>
    rw [moqviLenFrom]
    split
    · have hnext := ih (k + 1) (by omega) (by omega)
      omega
    · rename_i hzero
      rw [not_not, Nat.div_eq_zero_iff] at hzero
      have hpow := Nat.two_pow_pos (7 * k)
      exact ⟨le_rfl, by omega, fun _ => by omega⟩

theorem moqviLen_spec (v : Nat) :
    0 < moqviLen v ∧ moqviLen v ≤ 9 ∧ (moqviLen v < 9 → v < 2 ^ (7 * moqviLen v)) :=
  moqviLenFrom_spec v 8 1 one_pos rfl

/-- The first byte gives back the length and the bits that it holds of the value. -/
theorem moqviPrefix_spec : ∀ n < 10, 0 < n → ∀ t < 2 ^ (8 - n),
    moqviHdrLen (UInt8.ofNat t ||| moqviPrefix n) = n ∧
      (UInt8.ofNat t ||| moqviPrefix n).toNat % 2 ^ (8 - n) = t := by decide

theorem moqviEncode_codes {v : Nat} (hv : v < 2 ^ 64) :
    Codes moqviDecode (moqviEncode v) v ∧ (moqviEncode v).length = moqviLen v := by
  obtain ⟨hpos, hle, hfits⟩ := moqviLen_spec v
  generalize hn : moqviLen v = n at hpos hle hfits
  obtain ⟨m, rfl⟩ : ∃ m, n = m + 1 := ⟨n - 1, by omega⟩
  have htop : v / 2 ^ (8 * m) < 2 ^ (8 - (m + 1)) := by
    apply Nat.div_lt_of_lt_mul
    rw [← pow_add]
    by_cases hnine : m + 1 < 9
    · exact lt_of_lt_of_le (hfits hnine) (Nat.pow_le_pow_right (by omega) (by omega))
    · exact lt_of_lt_of_le hv (Nat.pow_le_pow_right (by omega) (by omega))
  obtain ⟨top, hquot, htop⟩ : ∃ top, v / 2 ^ (8 * m) = top ∧ top < 2 ^ (8 - (m + 1)) :=
    ⟨_, rfl, htop⟩
  have hbyte : top < 2 ^ 8 := lt_of_lt_of_le htop (Nat.pow_le_pow_right (by omega) (by omega))
  obtain ⟨hneed, hmask⟩ := moqviPrefix_spec (m + 1) (by omega) hpos top htop
  have hput : moqviEncode v = (UInt8.ofNat top ||| moqviPrefix (m + 1)) :: beBytes m v := by
    rw [moqviEncode, hn, beBytes_succ, hquot, Nat.mod_eq_of_lt hbyte]
  have hlen : moqviHdrLen (UInt8.ofNat top ||| moqviPrefix (m + 1)) = (beBytes m v).length + 1 := by
    rw [hneed, beBytes_length]
  have hvalue : moqviGetBe (m + 1) ((UInt8.ofNat top ||| moqviPrefix (m + 1)) :: beBytes m v) =
      v := by
    rw [moqviGetBe, hmask, foldl_beBytes, ← hquot, mul_comm]
    exact Nat.div_add_mod v _
  have hcodes : Codes moqviDecode (_ :: beBytes m v) (moqviGetBe _ (_ :: beBytes m v)) :=
    Codes.ofLength hlen
  rw [hneed, hvalue] at hcodes
  rw [hput]
  exact ⟨hcodes, by rw [List.length_cons, beBytes_length]⟩

end Wired.Moqt
