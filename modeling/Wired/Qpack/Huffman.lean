import Wired.Lib.Bits
import Wired.Lib.Word

/-!
# The Huffman code

`huffman.c`, `huffman_step.c` and `huffman_enc.c`: the static code in canonical form. The codes of
one length are consecutive numbers, so that a code is found from its length and its offset among
the codes of that length. The decoder takes the bits one at a time and completes a symbol as soon
as the bits since the last one are a code; the encoder collects codes in an accumulator and lets
go of every whole octet.

Writer and reader meet in the bit string between them (`putCode_bits`, `feedBits_code`).
-/

namespace Wired.Qpack

open Lib List

/-- The symbols in the order of their codes; 256 ends a string. -/
def qpackHsym : List Nat :=
  [48, 49, 50, 97, 99, 101, 105, 111, 115, 116, 32, 37, 45, 46, 47, 51, 52, 53, 54, 55, 56, 57,
   61, 65, 95, 98, 100, 102, 103, 104, 108, 109, 110, 112, 114, 117, 58, 66, 67, 68, 69, 70, 71,
   72, 73, 74, 75, 76, 77, 78, 79, 80, 81, 82, 83, 84, 85, 86, 87, 89, 106, 107, 113, 118, 119,
   120, 121, 122, 38, 42, 44, 59, 88, 90, 33, 34, 40, 41, 63, 39, 43, 124, 35, 62, 0, 36, 64, 91,
   93, 126, 94, 125, 60, 96, 123, 92, 195, 208, 128, 130, 131, 162, 184, 194, 224, 226, 153, 161,
   167, 172, 176, 177, 179, 209, 216, 217, 227, 229, 230, 129, 132, 133, 134, 136, 146, 154, 156,
   160, 163, 164, 169, 170, 173, 178, 181, 185, 186, 187, 189, 190, 196, 198, 228, 232, 233, 1,
   135, 137, 138, 139, 140, 141, 143, 147, 149, 150, 151, 152, 155, 157, 158, 165, 166, 168, 174,
   175, 180, 182, 183, 188, 191, 197, 231, 239, 9, 142, 144, 145, 148, 159, 171, 206, 215, 225,
   236, 237, 199, 207, 234, 235, 192, 193, 200, 201, 202, 205, 210, 213, 218, 219, 238, 240, 242,
   243, 255, 203, 204, 211, 212, 214, 221, 222, 223, 241, 244, 245, 246, 247, 248, 250, 251, 252,
   253, 254, 2, 3, 4, 5, 6, 7, 8, 11, 12, 14, 15, 16, 17, 18, 19, 20, 21, 23, 24, 25, 26, 27, 28,
   29, 30, 31, 127, 220, 249, 10, 13, 22, 256]

def qpackHfirst : List Nat :=
  [0, 0, 0, 0, 0, 0, 20, 92, 248, 508, 1016, 2042, 4090, 8184, 16380, 32764, 65534, 131068,
   262136, 524272, 1048550, 2097116, 4194258, 8388568, 16777194, 33554412, 67108832, 134217694,
   268435426, 536870910, 1073741820]

/-- Where the symbols of each length start in `qpackHsym`. -/
def qpackHidx : List Nat :=
  [0, 0, 0, 0, 0, 0, 10, 36, 68, 74, 74, 79, 82, 84, 90, 92, 95, 95, 95, 95, 98, 106, 119, 145,
   174, 186, 190, 205, 224, 253, 253]

def qpackHcnt : List Nat :=
  [0, 0, 0, 0, 0, 10, 26, 32, 6, 0, 5, 3, 2, 6, 2, 3, 0, 0, 0, 3, 8, 13, 26, 29, 12, 4, 15, 19,
   29, 0, 4]

/-- For each octet the length of its code, and above it its offset among the codes of that length.
-/
def huffLk : List Nat :=
  [13, 23, 28, 60, 92, 124, 156, 188, 220, 24, 30, 252, 284, 62, 316, 348, 380, 412, 444, 476,
   508, 540, 94, 572, 604, 636, 668, 700, 732, 764, 796, 828, 6, 10, 42, 12, 45, 38, 8, 11, 74,
   106, 40, 43, 72, 70, 102, 134, 5, 37, 69, 166, 198, 230, 262, 294, 326, 358, 7, 104, 15, 390,
   44, 138, 77, 422, 39, 71, 103, 135, 167, 199, 231, 263, 295, 327, 359, 391, 423, 455, 487, 519,
   551, 583, 615, 647, 679, 711, 136, 743, 168, 109, 19, 141, 14, 454, 47, 101, 486, 133, 518,
   165, 550, 582, 614, 197, 775, 807, 646, 678, 710, 229, 742, 839, 774, 261, 293, 806, 871, 903,
   935, 967, 999, 79, 75, 46, 173, 860, 20, 22, 52, 84, 54, 86, 118, 55, 150, 87, 119, 151, 183,
   215, 56, 247, 88, 120, 182, 279, 152, 311, 343, 375, 407, 21, 214, 439, 246, 471, 503, 184,
   278, 53, 116, 310, 342, 535, 567, 85, 599, 374, 406, 216, 117, 438, 631, 663, 149, 181, 470,
   213, 695, 502, 727, 759, 148, 534, 566, 598, 791, 630, 662, 823, 26, 58, 180, 51, 694, 855,
   726, 25, 90, 122, 154, 27, 59, 186, 248, 57, 83, 245, 218, 91, 123, 250, 155, 280, 277, 309,
   282, 314, 892, 187, 219, 251, 212, 312, 244, 341, 758, 373, 405, 887, 790, 822, 89, 121, 344,
   376, 346, 919, 378, 283, 410, 442, 315, 347, 379, 411, 443, 924, 475, 507, 539, 571, 603, 474]

/-! ## Decoding -/

def huffMaxlen : Nat := 30

/-- The bits since the last symbol, the octets put out, and whether no rule was broken. -/
structure HCtx where
  acc : Nat
  nbits : Nat
  out : List UInt8
  dcap : Nat
  ok : Bool

def codeReady (acc len : Nat) : Bool :=
  qpackHcnt.getD len 0 ≠ 0 && subU32 acc (qpackHfirst.getD len 0) < qpackHcnt.getD len 0

def putSym (c : HCtx) (sym : Nat) : HCtx :=
  if sym > 255 || c.out.length ≥ c.dcap then { c with ok := false }
  else { c with out := c.out ++ [UInt8.ofNat sym] }

def emitCode (c : HCtx) : HCtx :=
  let off := subU32 c.acc (qpackHfirst.getD c.nbits 0)
  { putSym c (qpackHsym.getD (qpackHidx.getD c.nbits 0 + off) 0) with acc := 0, nbits := 0 }

def qpackStepBit (c : HCtx) (bit : Nat) : HCtx :=
  let c := { c with acc := (2 * c.acc + bit) % 2 ^ 32, nbits := c.nbits + 1 }
  if c.nbits > huffMaxlen then { c with ok := false }
  else if codeReady c.acc c.nbits then emitCode c
  else c

/-- Bits are taken only as long as no rule was broken. -/
def stepWhileOk (c : HCtx) (bit : Nat) : HCtx := if c.ok then qpackStepBit c bit else c

def stepOctet (c : HCtx) (byte : UInt8) : HCtx :=
  (List.range 8).foldl (fun c i => stepWhileOk c (byte.toNat / 2 ^ (7 - i) % 2)) c

def feed (c : HCtx) (src : List UInt8) : HCtx := src.foldl stepOctet c

def padValid (c : HCtx) : Bool := c.nbits < 8 && (c.nbits = 0 || c.acc = 2 ^ c.nbits - 1)

def decodeOk (c : HCtx) : Bool := c.ok && padValid c

/-- The decoded octets, if the code ends in valid padding. -/
def qpackHuffmanDecode (src : List UInt8) (cap : Nat) : Option (List UInt8) :=
  let c := feed { acc := 0, nbits := 0, out := [], dcap := cap, ok := true } src
  if decodeOk c then some c.out else none

/-! ## Encoding -/

/-- The bits not yet put out, whose topmost may be lost, and the octets put out. -/
structure Hwr where
  acc : Nat
  nbits : Nat
  out : List UInt8

def flushOctets : Nat → Hwr → Hwr
  | 0, w => w
  | fuel + 1, w =>
    if w.nbits ≥ 8 then
      flushOctets fuel
        { w with nbits := w.nbits - 8, out := w.out ++ [UInt8.ofNat (w.acc / 2 ^ (w.nbits - 8))] }
    else w

def putCode (w : Hwr) (code len : Nat) : Hwr :=
  let w := { w with acc := (w.acc * 2 ^ len) % 2 ^ 64 ||| code, nbits := w.nbits + len }
  flushOctets w.nbits w

def codeLen (b : UInt8) : Nat := huffLk.getD b.toNat 0 % 32

def codeOf (b : UInt8) : Nat := qpackHfirst.getD (codeLen b) 0 + huffLk.getD b.toNat 0 / 32

def putOctetCode (w : Hwr) (b : UInt8) : Hwr := putCode w (codeOf b) (codeLen b)

def padLen (w : Hwr) : Nat := (8 - w.nbits) % 8

def huffmanOctets (src : List UInt8) : List UInt8 :=
  let w := src.foldl putOctetCode { acc := 0, nbits := 0, out := [] }
  (putCode w (2 ^ padLen w - 1) (padLen w)).out

/-- The octets stored in `cap` octets, and the length of the whole encoding. -/
def qpackHuffmanEncode (src : List UInt8) (cap : Nat) : List UInt8 × Nat :=
  ((huffmanOctets src).take cap, (huffmanOctets src).length)

/-! ## The bits that were written -/

/-- The bits of the octets. -/
def octetBits (src : List UInt8) : List Nat := src.flatMap fun b => bitsOf 8 b.toNat

/-- The codes of the octets. -/
def codeBits (src : List UInt8) : List Nat := src.flatMap fun b => bitsOf (codeLen b) (codeOf b)

def Hwr.bits (w : Hwr) : List Nat := octetBits w.out ++ bitsOf w.nbits w.acc

theorem bitsOf_ofNat (v : Nat) : bitsOf 8 (UInt8.ofNat v).toNat = bitsOf 8 v := by
  rw [UInt8.toNat_ofNat', bitsOf_mod le_rfl]

theorem flushOctets_bits (fuel : Nat) (w : Hwr) (hfuel : w.nbits ≤ fuel) :
    (flushOctets fuel w).bits = w.bits ∧ (flushOctets fuel w).nbits = w.nbits % 8 := by
  induction fuel generalizing w with
  | zero => exact ⟨rfl, by simp only [flushOctets]; omega⟩
  | succ fuel ih =>
    unfold flushOctets
    split
    · rename_i hge
      obtain ⟨hbits, hn⟩ := ih
        { w with nbits := w.nbits - 8, out := w.out ++ [UInt8.ofNat (w.acc / 2 ^ (w.nbits - 8))] }
        (by dsimp only; omega)
      refine ⟨hbits.trans ?_, hn.trans (by dsimp only; omega)⟩
      have hsplit := bitsOf_add 8 (w.nbits - 8) w.acc
      rw [Nat.add_sub_cancel' hge] at hsplit
      simp only [Hwr.bits, octetBits, flatMap_append, flatMap_cons, flatMap_nil,
        append_nil, append_assoc, bitsOf_ofNat, hsplit]
    · exact ⟨rfl, by omega⟩

variable {len : Nat} {w : Hwr} {c : HCtx}

theorem putCode_bits {code : Nat} (hn : w.nbits < 8) (hlen : len ≤ 30) (hcode : code < 2 ^ len) :
    (putCode w code len).bits = w.bits ++ bitsOf len code ∧
      (putCode w code len).nbits = (w.nbits + len) % 8 := by
  obtain ⟨hbits, hnbits⟩ := flushOctets_bits (w.nbits + len)
    { w with acc := (w.acc * 2 ^ len) % 2 ^ 64 ||| code, nbits := w.nbits + len } le_rfl
  refine ⟨hbits.trans ?_, hnbits⟩
  simp only [Hwr.bits, bitsOf_push (show w.nbits + len ≤ 64 by omega) w.acc hcode,
    append_assoc]

/-! ## The tables -/

/-- The codes of a length fit in that many bits, and the heads of longer codes come after them. -/
theorem canonical (hlen : len ≤ huffMaxlen) :
    qpackHfirst.getD len 0 + qpackHcnt.getD len 0 ≤ 2 ^ len ∧
      ∀ j < len, 0 < j → qpackHcnt.getD len 0 ≠ 0 →
        qpackHfirst.getD (len - j) 0 + qpackHcnt.getD (len - j) 0 ≤
          qpackHfirst.getD len 0 / 2 ^ j := by
  have htable : ∀ i ≤ 30, qpackHfirst.getD i 0 + qpackHcnt.getD i 0 ≤ 2 ^ i ∧
      ∀ j < i, 0 < j → qpackHcnt.getD i 0 ≠ 0 →
        qpackHfirst.getD (i - j) 0 + qpackHcnt.getD (i - j) 0 ≤
          qpackHfirst.getD i 0 / 2 ^ j := by decide +kernel
  exact htable len hlen

theorem codeReady_iff {acc : Nat} (hacc : acc < 2 ^ 32) (hlen : len ≤ huffMaxlen) :
    codeReady acc len = true ↔ qpackHfirst.getD len 0 ≤ acc ∧
      acc < qpackHfirst.getD len 0 + qpackHcnt.getD len 0 := by
  have hpow : 2 ^ len ≤ 2 ^ 30 := Nat.pow_le_pow_right (by decide) hlen
  have hfits := (canonical hlen).1
  unfold codeReady subU32
  rw [Bool.and_eq_true, decide_eq_true_iff, decide_eq_true_iff]
  omega

/-- What the tables say of an octet: its code is one of its length, and is the octet's. -/
structure IsCode (b : UInt8) : Prop where
  pos : 0 < codeLen b
  le : codeLen b ≤ huffMaxlen
  off_lt : huffLk.getD b.toNat 0 / 32 < qpackHcnt.getD (codeLen b) 0
  symbol : qpackHsym.getD (qpackHidx.getD (codeLen b) 0 + huffLk.getD b.toNat 0 / 32) 0 = b.toNat

theorem isCode (b : UInt8) : IsCode b := by
  have htable : ∀ r ∈ huffLk.zipIdx, 0 < r.1 % 32 ∧ r.1 % 32 ≤ huffMaxlen ∧
      r.1 / 32 < qpackHcnt.getD (r.1 % 32) 0 ∧
      qpackHsym.getD (qpackHidx.getD (r.1 % 32) 0 + r.1 / 32) 0 = r.2 := by decide +kernel
  have hlen : b.toNat < huffLk.length := Nat.lt_of_lt_of_eq b.toNat_lt (by decide +kernel)
  have hget : huffLk.getD b.toNat 0 = huffLk[b.toNat] := getD_eq_getElem _ _ hlen
  have hmem : (huffLk.getD b.toNat 0, b.toNat) ∈ huffLk.zipIdx := by
    rw [mk_mem_zipIdx_iff_getElem?, hget]
    exact getElem?_eq_getElem hlen
  obtain ⟨hpos, hle, hoff, hsymbol⟩ := htable _ hmem
  exact ⟨hpos, hle, hoff, hsymbol⟩

namespace IsCode

variable {b : UInt8}

section

variable (h : IsCode b)
include h

theorem lt_next : codeOf b < qpackHfirst.getD (codeLen b) 0 + qpackHcnt.getD (codeLen b) 0 :=
  Nat.add_lt_add_left h.off_lt _

theorem lt : codeOf b < 2 ^ codeLen b :=
  lt_of_lt_of_le h.lt_next (canonical h.le).1

theorem lt_word : codeOf b < 2 ^ 32 :=
  lt_of_lt_of_le h.lt (Nat.pow_le_pow_right (by decide) (le_trans h.le (by decide)))

theorem ready : codeReady (codeOf b) (codeLen b) = true :=
  (codeReady_iff h.lt_word h.le).mpr ⟨Nat.le_add_right _ _, h.lt_next⟩

theorem off_eq :
    subU32 (codeOf b) (qpackHfirst.getD (codeLen b) 0) = huffLk.getD b.toNat 0 / 32 := by
  have hlt := h.lt_word
  unfold subU32 codeOf at *
  omega

/-- No proper head of a code is a code. -/
theorem pending {j : Nat} (hj : j < codeLen b) (hpos : 0 < j) :
    codeReady (codeOf b / 2 ^ j) (codeLen b - j) = false := by
  have hoff := h.off_lt
  have hhead := (canonical h.le).2 j hj hpos (by omega)
  have hmono : qpackHfirst.getD (codeLen b) 0 / 2 ^ j ≤ codeOf b / 2 ^ j :=
    Nat.div_le_div_right (Nat.le_add_right _ _)
  have hword : codeOf b / 2 ^ j ≤ codeOf b := Nat.div_le_self _ _
  have hlt := h.lt_word
  rw [Bool.eq_false_iff, ne_eq, codeReady_iff (by omega) (le_trans (Nat.sub_le _ _) h.le)]
  omega

end

end IsCode

/-- No run of ones that is short enough for padding holds a code. -/
theorem ones_pending {k : Nat} (hk : k < 8) : codeReady (2 ^ k - 1) k = false := by
  revert k
  decide +kernel

/-! ## Reading the bits -/

def feedBits (c : HCtx) (bits : List Nat) : HCtx := bits.foldl stepWhileOk c

theorem feedBits_append (c : HCtx) (l l' : List Nat) :
    feedBits c (l ++ l') = feedBits (feedBits c l) l' := foldl_append

theorem stepOctet_eq (c : HCtx) (b : UInt8) : stepOctet c b = feedBits c (bitsOf 8 b.toNat) := by
  have hbits : bitsOf 8 b.toNat = (List.range 8).map fun i => b.toNat / 2 ^ (7 - i) % 2 := by
    simp [bitsOf, range_succ]
  rw [hbits, feedBits, foldl_map, stepOctet]

theorem feed_eq (c : HCtx) (src : List UInt8) : feed c src = feedBits c (octetBits src) := by
  induction src generalizing c with
  | nil => rfl
  | cons b src ih =>
    show feed (stepOctet c b) src = feedBits c (bitsOf 8 b.toNat ++ octetBits src)
    rw [ih, stepOctet_eq, feedBits_append]

/-- Bits that complete no symbol are collected; the first `k` bits of `v` are read. -/
theorem feedBits_pending {v m : Nat} (k : Nat) (hok : c.ok = true)
    (hacc : c.acc = v / 2 ^ k) (hm : c.nbits = m) (hlen : m + k ≤ huffMaxlen) (hv : v < 2 ^ 32)
    (hpending : ∀ j < k, codeReady (v / 2 ^ j) (m + k - j) = false) :
    feedBits c (bitsOf k v) = { c with acc := v, nbits := m + k } := by
  induction k generalizing c m with
  | zero =>
    rw [pow_zero, Nat.div_one] at hacc
    simp [feedBits, bitsOf, ← hacc, ← hm]
  | succ k ih =>
    have hshift : (2 * c.acc + v / 2 ^ k % 2) % 2 ^ 32 = v / 2 ^ k := by
      have hlt : v / 2 ^ k ≤ v := Nat.div_le_self _ _
      rw [hacc, pow_succ, ← Nat.div_div_eq_div_mul, Nat.div_add_mod, Nat.mod_eq_of_lt (by omega)]
    have hnot := hpending k (Nat.lt_succ_self k)
    rw [show m + (k + 1) - k = m + 1 by omega] at hnot
    have hstep : stepWhileOk c (v / 2 ^ k % 2) = { c with acc := v / 2 ^ k, nbits := m + 1 } := by
      simp only [stepWhileOk, hok, if_true, qpackStepBit, hshift, hm, hnot,
        if_neg (show ¬ m + 1 > huffMaxlen by omega), Bool.false_eq_true, if_false]
    show feedBits (stepWhileOk c (v / 2 ^ k % 2)) (bitsOf k v) = _
    have hrest : ∀ j < k, codeReady (v / 2 ^ j) (m + 1 + k - j) = false := fun j hj => by
      rw [show m + 1 + k - j = m + (k + 1) - j by omega]
      exact hpending j (by omega)
    rw [hstep, ih (c := { c with acc := v / 2 ^ k, nbits := m + 1 }) (m := m + 1) hok rfl rfl
      (by omega) hrest, add_assoc, add_comm 1 k]

/-- Nothing is pending. -/
structure HCtx.AtSymbol (c : HCtx) : Prop where
  acc : c.acc = 0
  nbits : c.nbits = 0
  ok : c.ok = true

theorem feedBits_code (hc : c.AtSymbol) (hroom : c.out.length < c.dcap) (b : UInt8) :
    feedBits c (bitsOf (codeLen b) (codeOf b)) = { c with out := c.out ++ [b] } := by
  have hb := isCode b
  have hmax : codeLen b ≤ 30 := hb.le
  have hlt := hb.lt_word
  have hhalf := Nat.div_add_mod (codeOf b) 2
  -- all bits but the last one leave the symbol open
  have hsplit : bitsOf (codeLen b) (codeOf b) =
      bitsOf (codeLen b - 1) (codeOf b / 2) ++ [codeOf b % 2] := by
    have := bitsOf_add (codeLen b - 1) 1 (codeOf b)
    rw [Nat.sub_add_cancel hb.pos] at this
    simpa [bitsOf] using this
  have hzero : codeOf b / 2 / 2 ^ (codeLen b - 1) = 0 := by
    rw [Nat.div_div_eq_div_mul, ← Nat.pow_succ', Nat.succ_eq_add_one, Nat.sub_add_cancel hb.pos]
    exact Nat.div_eq_of_lt hb.lt
  have hopen := feedBits_pending (v := codeOf b / 2) (codeLen b - 1) hc.ok (hc.acc.trans hzero.symm)
    hc.nbits (by unfold huffMaxlen; omega) (by omega) fun j hj => by
      have := hb.pending (j := j + 1) (by omega) (Nat.succ_pos j)
      rw [Nat.div_div_eq_div_mul, ← Nat.pow_succ']
      rwa [show 0 + (codeLen b - 1) - j = codeLen b - (j + 1) by omega]
  rw [hsplit, feedBits_append, hopen]
  have hsym : ¬ b.toNat > 255 := by
    have := b.toNat_lt
    omega
  simp only [feedBits, foldl_cons, foldl_nil, stepWhileOk, hc.ok, if_true, qpackStepBit, hhalf,
    Nat.mod_eq_of_lt hlt, show 0 + (codeLen b - 1) + 1 = codeLen b by have := hb.pos; omega,
    if_neg (show ¬ codeLen b > huffMaxlen from Nat.not_lt.mpr hb.le), hb.ready, emitCode,
    hb.off_eq, hb.symbol, putSym, hsym, decide_false, Bool.false_or, ge_iff_le, Nat.not_le.mpr hroom,
    UInt8.ofNat_toNat, hc.acc, hc.nbits, Bool.false_eq_true, if_false]

theorem feedBits_codes (hc : c.AtSymbol) (src : List UInt8)
    (hroom : c.out.length + src.length ≤ c.dcap) :
    feedBits c (codeBits src) = { c with out := c.out ++ src } := by
  induction src generalizing c with
  | nil => simp [codeBits, feedBits]
  | cons b src ih =>
    rw [length_cons] at hroom
    show feedBits c (bitsOf (codeLen b) (codeOf b) ++ codeBits src) = _
    rw [feedBits_append, feedBits_code hc (by omega) b,
      ih (c := { c with out := c.out ++ [b] }) { hc with } (by simp; omega)]
    simp

/-- Padding stays open and passes the last check. -/
theorem feedBits_padding (hc : c.AtSymbol) {pad : Nat} (hpad : pad < 8) :
    feedBits c (bitsOf pad (2 ^ pad - 1)) = { c with acc := 2 ^ pad - 1, nbits := pad } := by
  have hpow : 2 ^ pad ≤ 2 ^ 7 := Nat.pow_le_pow_right (by decide) (by omega)
  have hpos := Nat.two_pow_pos pad
  have hzero : (2 ^ pad - 1) / 2 ^ pad = 0 := Nat.div_eq_of_lt (by omega)
  have h := feedBits_pending (v := 2 ^ pad - 1) pad hc.ok (hc.acc.trans hzero.symm) hc.nbits
    (by unfold huffMaxlen; omega) (by omega) fun j hj => by
      have hones : (2 ^ pad - 1) / 2 ^ j = 2 ^ (pad - j) - 1 := by
        rw [Nat.div_eq_iff (Nat.two_pow_pos j), Nat.sub_mul, ← pow_add,
          Nat.sub_add_cancel (by omega)]
        have := Nat.two_pow_pos j
        omega
      rw [hones, zero_add]
      exact ones_pending (by omega)
  rwa [zero_add] at h

theorem foldl_putOctetCode (src : List UInt8) (hn : w.nbits < 8) :
    (src.foldl putOctetCode w).bits = w.bits ++ codeBits src ∧
      (src.foldl putOctetCode w).nbits < 8 := by
  induction src generalizing w with
  | nil => exact ⟨by simp [codeBits], hn⟩
  | cons b src ih =>
    have hb := isCode b
    obtain ⟨hbits, hnbits⟩ := putCode_bits hn hb.le hb.lt
    obtain ⟨hrest, hlast⟩ := ih (w := putOctetCode w b) (by
      rw [putOctetCode, hnbits]
      omega)
    refine ⟨?_, hlast⟩
    rw [foldl_cons, hrest, putOctetCode, hbits]
    simp [codeBits]

theorem octetBits_huffmanOctets (src : List UInt8) :
    ∃ pad < 8, octetBits (huffmanOctets src) = codeBits src ++ bitsOf pad (2 ^ pad - 1) := by
  obtain ⟨hbits, hn⟩ := foldl_putOctetCode src (w := { acc := 0, nbits := 0, out := [] })
    (by decide)
  have hfold : huffmanOctets src =
      (putCode (src.foldl putOctetCode { acc := 0, nbits := 0, out := [] })
        (2 ^ padLen (src.foldl putOctetCode { acc := 0, nbits := 0, out := [] }) - 1)
        (padLen (src.foldl putOctetCode { acc := 0, nbits := 0, out := [] }))).out := rfl
  generalize src.foldl putOctetCode { acc := 0, nbits := 0, out := [] } = w at hbits hn hfold
  have hpad : padLen w < 8 := Nat.mod_lt _ (by decide)
  obtain ⟨hput, hrest⟩ := putCode_bits hn (by omega : padLen w ≤ 30)
    (Nat.sub_lt (Nat.two_pow_pos _) Nat.one_pos)
  -- the padding fills the last octet
  have hwhole : (w.nbits + padLen w) % 8 = 0 := by
    unfold padLen
    omega
  rw [hwhole] at hrest
  refine ⟨padLen w, hpad, ?_⟩
  rw [hfold]
  rw [Hwr.bits, hrest, hbits] at hput
  simpa [bitsOf, Hwr.bits, octetBits] using hput

/-- **Round trip.** A string is decoded from its encoding if it has room. -/
theorem qpackHuffmanDecode_encode (src : List UInt8) {cap : Nat} (hroom : src.length ≤ cap) :
    qpackHuffmanDecode (huffmanOctets src) cap = some src := by
  obtain ⟨pad, hpad, hbits⟩ := octetBits_huffmanOctets src
  have hstart : HCtx.AtSymbol { acc := 0, nbits := 0, out := [], dcap := cap, ok := true } :=
    ⟨rfl, rfl, rfl⟩
  have hcodes := feedBits_codes hstart src (by simpa using hroom)
  unfold qpackHuffmanDecode
  rw [feed_eq, hbits, feedBits_append, hcodes]
  have hpadding := feedBits_padding (c := ⟨0, 0, [] ++ src, cap, true⟩) ⟨rfl, rfl, rfl⟩ hpad
  rw [hpadding]
  simp [decodeOk, padValid, hpad]

end Wired.Qpack
