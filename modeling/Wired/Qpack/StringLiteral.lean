import Wired.Qpack.Huffman
import Wired.Qpack.Integer

/-!
# String literals

`string.c`: a length in the low bits of a byte, with a flag in the bit above it that says
whether the octets that follow are Huffman coded. The encoder uses the Huffman code when it is
strictly shorter.
-/

namespace Wired.Qpack

open Lib Option List

/-! ## Encoding -/

def strPutRaw (cap bits : Nat) (pattern : UInt8) (src : List UInt8) : Option (List UInt8) :=
  (qpackIntEncode cap bits pattern src.length).bind fun head =>
    if head.length + src.length ≤ cap then some (head ++ src) else none

def withHuffman (bits : Nat) (pattern : UInt8) : UInt8 := pattern ||| UInt8.ofNat (2 ^ bits)

def strPutHuff (cap bits : Nat) (pattern : UInt8) (src : List UInt8) (hn : Nat) :
    Option (List UInt8) :=
  (qpackIntEncode cap bits (withHuffman bits pattern) hn).bind fun head =>
    if hn > cap - head.length then none else some (head ++ (qpackHuffmanEncode src hn).1)

/-- The shorter of the two forms. -/
def qpackStringEncodePfx (cap bits : Nat) (pattern : UInt8) (src : List UInt8) :
    Option (List UInt8) :=
  let hn := (qpackHuffmanEncode src 0).2
  if hn < src.length then strPutHuff cap bits pattern src hn else strPutRaw cap bits pattern src

def qpackStringEncode (cap : Nat) (src : List UInt8) : Option (List UInt8) :=
  qpackStringEncodePfx cap 7 0 src

/-! ## Decoding -/

def takeHeader (bits : Nat) (buf : List UInt8) : Option ((Bool × Nat) × Nat) :=
  buf.head?.bind fun b =>
    (qpackIntDecode bits buf).map fun r => ((b.toNat / 2 ^ bits % 2 = 1, r.1), r.2)

def strRaw (oct : List UInt8) (cap : Nat) : Option (List UInt8) :=
  if oct.length > cap then none else some oct

def strValue (cap : Nat) (h : Bool × Nat) (rest : List UInt8) : Option (List UInt8 × Nat) :=
  if h.2 > rest.length then none
  else
    let oct := rest.take h.2
    (if h.1 then qpackHuffmanDecode oct cap else strRaw oct cap).map fun v => (v, h.2)

def qpackStringDecodePfx (bits cap : Nat) (buf : List UInt8) : Option (List UInt8 × Nat) :=
  Stable.andThen (takeHeader bits) (strValue cap) buf

def qpackStringDecode (cap : Nat) (buf : List UInt8) : Option (List UInt8 × Nat) :=
  qpackStringDecodePfx 7 cap buf

/-! ## Round trip -/

/-- The length bits are free and the flag above them tells the two forms apart. -/
structure StringPattern (bits : Nat) (pattern : UInt8) : Prop where
  raw : PatternFree bits pattern
  huff : PatternFree bits (withHuffman bits pattern)
  raw_flag : ∀ x < 2 ^ bits, (pattern ||| UInt8.ofNat x).toNat / 2 ^ bits % 2 = 0
  huff_flag : ∀ x < 2 ^ bits, (withHuffman bits pattern ||| UInt8.ofNat x).toNat / 2 ^ bits % 2 = 1

variable {bits cap : Nat} {pattern : UInt8} {src bytes : List UInt8}

/-- It is enough that the bits of the length and the flag above them are zero in the pattern. -/
theorem stringPattern_of_mod (hbits : bits ≤ 7) (h : pattern.toNat % 2 ^ (bits + 1) = 0) :
    StringPattern bits pattern := by
  have hlow : pattern.toNat % 2 ^ bits = 0 := by
    rw [← Nat.mod_mod_of_dvd _ (Nat.pow_dvd_pow 2 (Nat.le_succ bits)), h, Nat.zero_mod]
  have hbit : pattern.toNat.testBit bits = false := by
    have hmod := Nat.testBit_mod_two_pow pattern.toNat (bits + 1) bits
    rw [h, Nat.zero_testBit, decide_eq_true (Nat.lt_succ_self bits), Bool.true_and] at hmod
    exact hmod.symm
  have hle : 2 ^ bits ≤ 2 ^ 7 := Nat.pow_le_pow_right (by decide) hbits
  have hsmall : ∀ x ≤ 2 ^ bits, x < UInt8.size := fun x hx =>
    lt_of_le_of_lt (le_trans hx hle) (by decide)
  have hpow : (UInt8.ofNat (2 ^ bits)).toNat = 2 ^ bits :=
    UInt8.toNat_ofNat_of_lt' (hsmall _ le_rfl)
  have hbyte : ∀ x < 2 ^ bits, (UInt8.ofNat x).toNat = x := fun x hx =>
    UInt8.toNat_ofNat_of_lt' (hsmall x (le_of_lt hx))
  refine ⟨patternFree_of_mod (by omega) hlow, patternFree_of_mod (by omega) ?_, ?_, ?_⟩
  · rw [withHuffman, UInt8.toNat_or, Nat.or_mod_two_pow, hlow, hpow, Nat.mod_self, Nat.or_zero]
  · intro x hx
    have htest : (pattern ||| UInt8.ofNat x).toNat.testBit bits = false := by
      rw [UInt8.toNat_or, hbyte x hx, Nat.testBit_or, hbit, Nat.testBit_lt_two_pow hx]
      rfl
    rw [Nat.testBit_eq_decide_div_mod_eq] at htest
    have hne := of_decide_eq_false htest
    omega
  · intro x hx
    have htest : (withHuffman bits pattern ||| UInt8.ofNat x).toNat.testBit bits = true := by
      rw [UInt8.toNat_or, withHuffman, UInt8.toNat_or, hpow, Nat.testBit_or, Nat.testBit_or,
        Nat.testBit_two_pow_self, Bool.or_true, Bool.true_or]
    rw [Nat.testBit_eq_decide_div_mod_eq] at htest
    exact of_decide_eq_true htest

theorem takeHeader_encode {len : Nat} {head : List UInt8}
    (hpat : PatternFree bits pattern) {flag : Nat}
    (hflag : ∀ x < 2 ^ bits, (pattern ||| UInt8.ofNat x).toNat / 2 ^ bits % 2 = flag)
    (hlen : len < 2 ^ 63) (h : qpackIntEncode cap bits pattern len = some head)
    (rest : List UInt8) :
    takeHeader bits (head ++ rest) = some ((decide (flag = 1), len), head.length) := by
  have hint := qpackIntDecode_encode hpat hlen h rest
  obtain ⟨x, hx, hhead⟩ := qpackIntEncode_head h
  simp only [takeHeader, hhead rest, bind_some, hint, map_some, hflag x hx]

theorem qpackStringEncodePfx_head (h : qpackStringEncodePfx cap bits pattern src = some bytes) :
    ∃ x < 2 ^ bits, bytes.head? = some (pattern ||| UInt8.ofNat x) ∨
      bytes.head? = some (withHuffman bits pattern ||| UInt8.ofNat x) := by
  unfold qpackStringEncodePfx at h
  dsimp only at h
  split at h
  · obtain ⟨head, hhead, hput⟩ := bind_eq_some_iff.mp h
    obtain ⟨x, hx, hfirst⟩ := qpackIntEncode_head hhead
    split at hput
    · cases hput
    obtain rfl := Option.some.inj hput
    exact ⟨x, hx, Or.inr (hfirst _)⟩
  · obtain ⟨head, hhead, hput⟩ := bind_eq_some_iff.mp h
    obtain ⟨x, hx, hfirst⟩ := qpackIntEncode_head hhead
    split at hput
    · obtain rfl := Option.some.inj hput
      exact ⟨x, hx, Or.inl (hfirst _)⟩
    · cases hput

/-- **Round trip.** A string is decoded from its encoding, whichever form it has, and uses exactly
its bytes. -/
theorem qpackStringDecode_encode {room : Nat} (hpat : StringPattern bits pattern)
    (hlen : src.length < 2 ^ 63) (hroom : src.length ≤ room)
    (h : qpackStringEncodePfx cap bits pattern src = some bytes) (rest : List UInt8) :
    qpackStringDecodePfx bits room (bytes ++ rest) = some (src, bytes.length) := by
  unfold qpackStringEncodePfx at h
  dsimp only [qpackHuffmanEncode] at h
  by_cases hshort : (huffmanOctets src).length < src.length
  · rw [if_pos hshort] at h
    obtain ⟨head, hhead, hput⟩ := bind_eq_some_iff.mp h
    split at hput
    · cases hput
    obtain rfl := Option.some.inj hput
    simp only [qpackHuffmanEncode, take_length, append_assoc] at *
    refine Stable.andThen_eq_some.mpr ⟨_, _, (huffmanOctets src).length,
      takeHeader_encode hpat.huff hpat.huff_flag (by omega) hhead _, ?_, by simp⟩
    simp [strValue, qpackHuffmanDecode_encode src hroom]
  · rw [if_neg hshort] at h
    obtain ⟨head, hhead, hput⟩ := bind_eq_some_iff.mp h
    split at hput
    · obtain rfl := Option.some.inj hput
      rw [append_assoc]
      refine Stable.andThen_eq_some.mpr ⟨_, _, src.length,
        takeHeader_encode hpat.raw hpat.raw_flag hlen hhead _, ?_, by simp⟩
      simp [strValue, strRaw, hroom]
    · cases hput

end Wired.Qpack
