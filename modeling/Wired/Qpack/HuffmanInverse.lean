import Wired.Qpack.Huffman

/-!
# What the Huffman decoder accepts

The decoder accepts a string of octets only if it is the encoding of the string that it puts out:
the bits it has read are the codes of the symbols it has put out and the bits since the last one
(`HCtx.Read`), and at the end those are the padding that the encoder would have put. With the
round trip of the encoder, the code is a bijection between the strings and the octet strings that
are accepted (`huffman_bijection`).
-/

namespace Wired.Qpack

open Lib List

/-- The symbol of a code, by its length and its offset among the codes of that length. -/
def symbolAt (len off : Nat) : Nat := qpackHsym.getD (qpackHidx.getD len 0 + off) 0

theorem code_of_symbolAt {len off : Nat} (hlen : len ≤ huffMaxlen)
    (hoff : off < qpackHcnt.getD len 0) (hle : symbolAt len off ≤ 255) :
    codeLen (UInt8.ofNat (symbolAt len off)) = len ∧
      codeOf (UInt8.ofNat (symbolAt len off)) = qpackHfirst.getD len 0 + off := by
  have htable : ∀ len ≤ huffMaxlen, ∀ off < qpackHcnt.getD len 0, symbolAt len off ≤ 255 →
      huffLk.getD (symbolAt len off) 0 = len + 32 * off := by decide +kernel
  have hlk := htable len hlen off hoff hle
  have hnat : (UInt8.ofNat (symbolAt len off)).toNat = symbolAt len off := by
    exact Nat.mod_eq_of_lt (Nat.lt_succ_of_le hle)
  have hmod : (len + 32 * off) % 32 = len := by
    unfold huffMaxlen at hlen
    omega
  have hdiv : (len + 32 * off) / 32 = off := by omega
  unfold codeOf codeLen
  rw [hnat, hlk, hmod, hdiv]
  exact ⟨rfl, rfl⟩

/-! ## The bits that were read -/

/-- What a reader has put out and what it holds are the bits that it has read. -/
structure HCtx.Read (c : HCtx) (bits : List Nat) : Prop where
  bits_eq : bits = codeBits c.out ++ bitsOf c.nbits c.acc
  acc_lt : c.acc < 2 ^ c.nbits
  nbits_le : c.nbits ≤ huffMaxlen

section

variable {c : HCtx} {bits : List Nat} {bit : Nat}

section

variable (hacc : c.acc < 2 ^ c.nbits) (hle : c.nbits ≤ huffMaxlen)
  (hready : codeReady c.acc c.nbits = true) (hok : (emitCode c).ok = true)
include hacc hle hready hok

theorem emitCode_eq :
    ∃ b : UInt8, codeLen b = c.nbits ∧ codeOf b = c.acc ∧
      emitCode c = { c with out := c.out ++ [b], acc := 0, nbits := 0 } := by
  have hpow : 2 ^ c.nbits ≤ 2 ^ 30 := Nat.pow_le_pow_right (by omega) hle
  have hword : c.acc < 2 ^ 32 := by omega
  obtain ⟨hfirst, hnext⟩ := (codeReady_iff hword hle).mp hready
  have hoff : subU32 c.acc (qpackHfirst.getD c.nbits 0) = c.acc - qpackHfirst.getD c.nbits 0 := by
    unfold subU32
    omega
  have hemit : emitCode c = { putSym c (symbolAt c.nbits (c.acc - qpackHfirst.getD c.nbits 0)) with
      acc := 0, nbits := 0 } := by
    rw [← hoff]
    rfl
  rw [hemit] at hok ⊢
  unfold putSym at hok ⊢
  split at hok
  · cases hok
  rename_i hsym
  rw [if_neg hsym]
  simp only [Bool.or_eq_true, decide_eq_true_eq, not_or, not_lt] at hsym
  obtain ⟨hlen, hcode⟩ := code_of_symbolAt hle (by omega) hsym.1
  rw [Nat.add_sub_cancel' hfirst] at hcode
  exact ⟨_, hlen, hcode, rfl⟩

theorem emitCode_read
    (hbits : bits = codeBits c.out ++ bitsOf c.nbits c.acc) : (emitCode c).Read bits := by
  obtain ⟨b, hlen, hcode, hemit⟩ := emitCode_eq hacc hle hready hok
  rw [hemit]
  refine ⟨?_, Nat.one_pos, Nat.zero_le _⟩
  rw [hbits, codeBits, codeBits, flatMap_append, flatMap_singleton, hlen, hcode, bitsOf, append_nil]

end

theorem qpackStepBit_read (h : c.Read bits) (hbit : bit < 2)
    (hok : (qpackStepBit c bit).ok = true) : (qpackStepBit c bit).Read (bits ++ [bit]) := by
  have hle := h.nbits_le
  have hacc : 2 * c.acc + bit < 2 ^ (c.nbits + 1) := by
    have := h.acc_lt
    omega
  have hpow : 2 ^ (c.nbits + 1) ≤ 2 ^ 32 :=
    Nat.pow_le_pow_right (by omega) (by unfold huffMaxlen at hle; omega)
  have hshift : (2 * c.acc + bit) % 2 ^ 32 = 2 * c.acc + bit := Nat.mod_eq_of_lt (by omega)
  have hbits : bits ++ [bit] = codeBits c.out ++ bitsOf (c.nbits + 1) (2 * c.acc + bit) := by
    rw [h.bits_eq, bitsOf_snoc _ _ hbit, append_assoc]
  unfold qpackStepBit at hok ⊢
  dsimp only at hok ⊢
  rw [hshift] at hok ⊢
  split at hok
  · cases hok
  rename_i hlen
  rw [if_neg hlen]
  split at hok
  · next hready =>
    rw [if_pos hready]
    exact emitCode_read hacc (Nat.not_lt.mp hlen) hready hok hbits
  · next hready =>
    rw [if_neg hready]
    exact ⟨hbits, hacc, Nat.not_lt.mp hlen⟩

theorem feedBits_of_not_ok (hok : c.ok = false) (bits : List Nat) : feedBits c bits = c := by
  induction bits with
  | nil => rfl
  | cons bit bits ih =>
    have hstep : stepWhileOk c bit = c := by
      unfold stepWhileOk
      rw [hok]
      rfl
    rw [feedBits, foldl_cons, hstep]
    exact ih

/-- The induction is on the bits to come; a reader that is stopped stays so. -/
theorem feedBits_read (h : c.Read bits) (hc : c.ok = true) {more : List Nat}
    (hmore : ∀ b ∈ more, b < 2) (hok : (feedBits c more).ok = true) :
    (feedBits c more).Read (bits ++ more) := by
  induction more generalizing c bits with
  | nil =>
    rw [append_nil]
    exact h
  | cons bit more ih =>
    have hstep : stepWhileOk c bit = qpackStepBit c bit := if_pos hc
    have hcons : feedBits c (bit :: more) = feedBits (qpackStepBit c bit) more := by
      rw [← hstep]
      rfl
    rw [hcons] at hok ⊢
    rw [forall_mem_cons] at hmore
    cases hnext : (qpackStepBit c bit).ok with
    | false =>
      rw [feedBits_of_not_ok hnext, hnext] at hok
      cases hok
    | true =>
      have hread := ih (qpackStepBit_read h hmore.1 hnext) hnext hmore.2 hok
      rwa [append_assoc, singleton_append] at hread

end

/-! ## Octets and bits -/

theorem lt_two_of_mem_octetBits {src : List UInt8} {b : Nat} (h : b ∈ octetBits src) : b < 2 := by
  obtain ⟨x, -, hx⟩ := mem_flatMap.mp h
  exact lt_two_of_mem_bitsOf hx

theorem octetBits_length (src : List UInt8) : (octetBits src).length = 8 * src.length := by
  induction src with
  | nil => rfl
  | cons b src ih =>
    have hcons : octetBits (b :: src) = bitsOf 8 b.toNat ++ octetBits src := rfl
    rw [hcons, length_append, bitsOf_length, ih, length_cons]
    omega

theorem octetBits_injective {src src' : List UInt8} (h : octetBits src = octetBits src') :
    src = src' := by
  induction src generalizing src' with
  | nil =>
    have hlen := congrArg List.length h
    rw [octetBits_length, octetBits_length, length_nil] at hlen
    exact (length_eq_zero_iff.mp (by omega)).symm
  | cons b src ih =>
    cases src' with
    | nil =>
      have hlen := congrArg List.length h
      rw [octetBits_length, octetBits_length, length_nil, length_cons] at hlen
      omega
    | cons b' src' =>
      have happ : bitsOf 8 b.toNat ++ octetBits src = bitsOf 8 b'.toNat ++ octetBits src' := h
      obtain ⟨hfirst, hrest⟩ := append_inj happ (by rw [bitsOf_length, bitsOf_length])
      rw [UInt8.toNat_inj.mp (bitsOf_inj b.toNat_lt b'.toNat_lt hfirst), ih hrest]

section

variable {src out : List UInt8} {cap : Nat} (h : qpackHuffmanDecode src cap = some out)
include h

theorem octetBits_of_decode :
    ∃ pad < 8, octetBits src = codeBits out ++ bitsOf pad (2 ^ pad - 1) := by
  unfold qpackHuffmanDecode at h
  dsimp only at h
  rw [feed_eq] at h
  split at h
  · next hdone =>
    have hout := Option.some.inj h
    unfold decodeOk padValid at hdone
    simp only [Bool.and_eq_true, Bool.or_eq_true, decide_eq_true_eq] at hdone
    obtain ⟨hok, hpad, hones⟩ := hdone
    have hstart : HCtx.Read { acc := 0, nbits := 0, out := [], dcap := cap, ok := true } [] :=
      ⟨rfl, Nat.one_pos, Nat.zero_le _⟩
    have hread := feedBits_read hstart rfl (fun b => lt_two_of_mem_octetBits) hok
    generalize feedBits { acc := 0, nbits := 0, out := [], dcap := cap, ok := true }
      (octetBits src) = c at *
    have hacc : c.acc = 2 ^ c.nbits - 1 := by
      rcases hones with hzero | hones
      · have hlt := hread.acc_lt
        rw [hzero, Nat.pow_zero] at hlt ⊢
        omega
      · exact hones
    refine ⟨c.nbits, hpad, ?_⟩
    rw [← hout, ← hacc]
    exact hread.bits_eq
  · cases h

/-- A string that is accepted is the encoding of what it decodes to. -/
theorem huffmanOctets_of_decode : huffmanOctets out = src := by
  obtain ⟨pad, hpad, hbits⟩ := octetBits_of_decode h
  obtain ⟨pad', hpad', hbits'⟩ := octetBits_huffmanOctets out
  -- both are whole octets, so that the padding is of the same length
  have hlen := congrArg List.length hbits
  have hlen' := congrArg List.length hbits'
  rw [octetBits_length, length_append, bitsOf_length] at hlen hlen'
  have hsame : pad' = pad := by omega
  apply octetBits_injective
  rw [hbits, hbits', hsame]

end

/-- **The code is a bijection** between the strings and what the decoder accepts. A string is
decoded from its encoding, with any buffers that have room; and whatever is accepted is what the
encoder puts for the string decoded, that is the codes of its octets, none of which is the end of
the string, and ones up to the end of the octet. -/
theorem huffman_bijection :
    (∀ (s : List UInt8) (cap dcap : Nat), (qpackHuffmanEncode s cap).2 ≤ cap → s.length ≤ dcap →
      qpackHuffmanDecode (qpackHuffmanEncode s cap).1 dcap = some s) ∧
    ∀ (e s : List UInt8) (dcap : Nat), qpackHuffmanDecode e dcap = some s →
      (∀ cap, e.length ≤ cap → qpackHuffmanEncode s cap = (e, e.length)) ∧
      ∃ pad < 8, octetBits e = codeBits s ++ List.replicate pad 1 := by
  constructor
  · intro s cap dcap hcap hroom
    have hwhole : (qpackHuffmanEncode s cap).1 = huffmanOctets s := take_of_length_le hcap
    rw [hwhole]
    exact qpackHuffmanDecode_encode s hroom
  · intro e s dcap h
    constructor
    · intro cap hcap
      unfold qpackHuffmanEncode
      rw [huffmanOctets_of_decode h, take_of_length_le hcap]
    · obtain ⟨pad, hpad, hbits⟩ := octetBits_of_decode h
      exact ⟨pad, hpad, hbits.trans (by rw [bitsOf_ones])⟩

end Wired.Qpack
