import Wired.Lib.Checked
import Wired.Lib.FiveLimbs
import Wired.Lib.LittleEndian

/-!
# Poly1305

`poly1305.c`, `poly1305_full.c` and their headers, after RFC 8439, 2.5. The accumulator and the
clamped key are in five limbs of 26 bits in words of 32 bits, and products are in words of 64 bits.
Sums and products of words are `Checked`: the result says whether one overflowed. A shift to the
left, and the borrow of `plus_five`, are written out with their remainders.

Between the blocks the limbs are carried only in part (`Carried`). The last reduction is exact, and
the tag is that of `rfcPoly1305`, the evaluation of the polynomial (`poly1305_eq`).
-/

namespace Wired.Crypto

open Lib Checked List

/-! ## The model -/

/-- The clamped key, the accumulator and the pad. -/
structure Poly where
  r : Limbs
  h : Limbs
  /-- The four words of the second half of the key. -/
  pad : Nat → Nat

def polyRow (h : Limbs) (a b c d e : Nat) : Checked Nat := do
  let p0 ← mul 64 h.l0 a
  let p1 ← mul 64 h.l1 b
  let p2 ← mul 64 h.l2 c
  let p3 ← mul 64 h.l3 d
  let p4 ← mul 64 h.l4 e
  let s1 ← add 64 p0 p1
  let s2 ← add 64 s1 p2
  let s3 ← add 64 s2 p3
  add 64 s3 p4

/-- Byte `i` of a final block of `n` message bytes: data, then `0x01`, then zeros. -/
def padByte (m : Nat → UInt8) (n i : Nat) : UInt8 :=
  if i < n then m i else if i = n then 1 else 0

def carryReduce (d : Limbs) : Checked Limbs := do
  let d1 ← add 64 d.l1 (d.l0 / 2 ^ 26)
  let d2 ← add 64 d.l2 (d1 / 2 ^ 26)
  let d3 ← add 64 d.l3 (d2 / 2 ^ 26)
  let d4 ← add 64 d.l4 (d3 / 2 ^ 26)
  let c ← narrow 32 (d4 / 2 ^ 26)
  let c5 ← mul 32 c 5
  let h0 ← add 32 (d.l0 % 2 ^ 26) c5
  let h1 ← add 32 (d1 % 2 ^ 26) (h0 / 2 ^ 26)
  pure ⟨h0 % 2 ^ 26, h1, d2 % 2 ^ 26, d3 % 2 ^ 26, d4 % 2 ^ 26⟩

def polyMulmod (st : Poly) : Checked Poly := do
  let r := st.r
  let s1 ← mul 32 r.l1 5
  let s2 ← mul 32 r.l2 5
  let s3 ← mul 32 r.l3 5
  let s4 ← mul 32 r.l4 5
  let d0 ← polyRow st.h r.l0 s4 s3 s2 s1
  let d1 ← polyRow st.h r.l1 r.l0 s4 s3 s2
  let d2 ← polyRow st.h r.l2 r.l1 r.l0 s4 s3
  let d3 ← polyRow st.h r.l3 r.l2 r.l1 r.l0 s4
  let d4 ← polyRow st.h r.l4 r.l3 r.l2 r.l1 r.l0
  let h ← carryReduce ⟨d0, d1, d2, d3, d4⟩
  pure { st with h := h }

def poly1305Rd32le (p : Nat → UInt8) : Nat :=
  (p 0).toNat ||| (p 1).toNat * 2 ^ 8 ||| (p 2).toNat * 2 ^ 16 ||| (p 3).toNat * 2 ^ 24

/-- The words of 16 bytes at the places of the limbs, the bits above them still there. -/
def spread (m : Nat → UInt8) : Limbs :=
  let t0 := poly1305Rd32le m
  let t1 := poly1305Rd32le fun i => m (4 + i)
  let t2 := poly1305Rd32le fun i => m (8 + i)
  let t3 := poly1305Rd32le fun i => m (12 + i)
  { l0 := t0
    l1 := t0 / 2 ^ 26 ||| t1 * 2 ^ 6 % 2 ^ 32
    l2 := t1 / 2 ^ 20 ||| t2 * 2 ^ 12 % 2 ^ 32
    l3 := t2 / 2 ^ 14 ||| t3 * 2 ^ 18 % 2 ^ 32
    l4 := t3 / 2 ^ 8 }

def polyAdd (st : Poly) (m : Nat → UInt8) (hibit : Nat) : Checked Poly := do
  let t := spread m
  let h0 ← add 32 st.h.l0 (t.l0 &&& 0x3ffffff)
  let h1 ← add 32 st.h.l1 (t.l1 &&& 0x3ffffff)
  let h2 ← add 32 st.h.l2 (t.l2 &&& 0x3ffffff)
  let h3 ← add 32 st.h.l3 (t.l3 &&& 0x3ffffff)
  let h4 ← add 32 st.h.l4 (t.l4 ||| hibit)
  pure { st with h := ⟨h0, h1, h2, h3, h4⟩ }

def polyFinalBlock (st : Poly) (m : Nat → UInt8) (n : Nat) : Checked Poly := do
  let st ← polyAdd st (padByte m n) 0
  polyMulmod st

def bytesAt (msg : List UInt8) (i : Nat) : UInt8 := msg.getD i 0

/-- The blocks of a message, a last short one padded. -/
def polyBlocks (st : Poly) (msg : List UInt8) : Checked Poly :=
  if 16 ≤ msg.length then do
    let st ← polyAdd st (bytesAt msg) (2 ^ 24)
    let st ← polyMulmod st
    polyBlocks st (msg.drop 16)
  else if 0 < msg.length then
    polyFinalBlock st (bytesAt msg) msg.length
  else pure st
termination_by msg.length
decreasing_by
  rw [length_drop]
  omega

def polyClampR (key : Nat → UInt8) : Limbs :=
  let t := spread key
  ⟨t.l0 &&& 0x3ffffff, t.l1 &&& 0x3ffff03, t.l2 &&& 0x3ffc0ff, t.l3 &&& 0x3f03fff,
    t.l4 &&& 0x00fffff⟩

def polyInit (key : Nat → UInt8) : Poly where
  r := polyClampR key
  h := ⟨0, 0, 0, 0, 0⟩
  pad := fun i => poly1305Rd32le fun j => key (16 + 4 * i + j)

def fullCarry (h : Limbs) : Checked Limbs := do
  let h1 ← add 32 h.l1 (h.l0 / 2 ^ 26)
  let h2 ← add 32 h.l2 (h1 / 2 ^ 26)
  let h3 ← add 32 h.l3 (h2 / 2 ^ 26)
  let h4 ← add 32 h.l4 (h3 / 2 ^ 26)
  let c5 ← mul 32 (h4 / 2 ^ 26) 5
  let h0 ← add 32 (h.l0 % 2 ^ 26) c5
  let h1 ← add 32 (h1 % 2 ^ 26) (h0 / 2 ^ 26)
  pure ⟨h0 % 2 ^ 26, h1, h2 % 2 ^ 26, h3 % 2 ^ 26, h4 % 2 ^ 26⟩

/-- The number plus 5 less `2 ^ 130`. The top limb borrows when the number is too small. -/
def plusFive (h : Limbs) : Checked Limbs := do
  let g0 ← add 32 h.l0 5
  let g1 ← add 32 h.l1 (g0 / 2 ^ 26)
  let g2 ← add 32 h.l2 (g1 / 2 ^ 26)
  let g3 ← add 32 h.l3 (g2 / 2 ^ 26)
  let g4 ← add 32 h.l4 (g3 / 2 ^ 26)
  pure ⟨g0 % 2 ^ 26, g1 % 2 ^ 26, g2 % 2 ^ 26, g3 % 2 ^ 26, (g4 + 2 ^ 32 - 2 ^ 26) % 2 ^ 32⟩

/-- The limb of `g` under a mask of ones, and that of `h` under a mask of zeros. -/
def selectLimb (mask h g : Nat) : Nat := (h &&& (2 ^ 32 - 1 - mask)) ||| (g &&& mask)

def selectMod (h g : Limbs) : Limbs :=
  let mask := (g.l4 / 2 ^ 31 + 2 ^ 32 - 1) % 2 ^ 32
  ⟨selectLimb mask h.l0 g.l0, selectLimb mask h.l1 g.l1, selectLimb mask h.l2 g.l2,
    selectLimb mask h.l3 g.l3, selectLimb mask h.l4 g.l4⟩

def pack (h : Limbs) : Nat → Nat
  | 0 => h.l0 ||| h.l1 * 2 ^ 26 % 2 ^ 32
  | 1 => h.l1 / 2 ^ 6 ||| h.l2 * 2 ^ 20 % 2 ^ 32
  | 2 => h.l2 / 2 ^ 12 ||| h.l3 * 2 ^ 14 % 2 ^ 32
  | _ => h.l3 / 2 ^ 18 ||| h.l4 * 2 ^ 8 % 2 ^ 32

/-- The loop over the words of the tag, with the carry `f` from the words before. -/
def tagWords (w pad : Nat → Nat) (f : Nat) : (i n : Nat) → Checked (List UInt8)
  | _, 0 => pure []
  | i, n + 1 => do
    let s ← add 64 (w i) (pad i)
    let f ← add 64 f s
    let rest ← tagWords w pad (f / 2 ^ 32) (i + 1) n
    pure (leBytes 4 f ++ rest)

/-- The last reduction, and the sum with the pad. -/
def polyFinish (st : Poly) : Checked (List UInt8) := do
  let h ← fullCarry st.h
  let g ← plusFive h
  tagWords (pack (selectMod h g)) st.pad 0 0 4

def poly1305 (key : Nat → UInt8) (msg : List UInt8) : Checked (List UInt8) := do
  let st ← polyBlocks (polyInit key) msg
  polyFinish st

/-! ## RFC 8439, 2.5 -/

def polyPrime : Nat := 2 ^ 130 - 5

def rfcClamp (r : Nat) : Nat := r &&& 0x0ffffffc0ffffffc0ffffffc0fffffff

def rfcBlock (block : List UInt8) : Nat :=
  leVal (bytesAt (block ++ [1])) (block.length + 1)

/-- The polynomial over the blocks, as RFC 8439 evaluates it. -/
def rfcAcc (r acc : Nat) (msg : List UInt8) : Nat :=
  if msg = [] then acc
  else rfcAcc r (r * (acc + rfcBlock (msg.take 16)) % polyPrime) (msg.drop 16)
termination_by msg.length
decreasing_by
  rename_i hne
  have := length_pos_iff.mpr hne
  rw [length_drop]
  omega

def rfcPoly1305 (key : Nat → UInt8) (msg : List UInt8) : List UInt8 :=
  leBytes 16 (rfcAcc (rfcClamp (leVal key 16)) 0 msg + leVal (fun i => key (16 + i)) 16)

/-! ## Blocks in limbs -/

theorem poly1305Rd32le_eq (p : Nat → UInt8) : poly1305Rd32le p = leVal p 4 := by
  rw [← leLoad_eq]
  simp [poly1305Rd32le, leLoad]

def digits (m : Nat → UInt8) : Limbs :=
  let n := leVal m 16
  ⟨n % 2 ^ 26, n / 2 ^ 26 % 2 ^ 26, n / 2 ^ 52 % 2 ^ 26, n / 2 ^ 78 % 2 ^ 26, n / 2 ^ 104⟩

theorem digits_value (m : Nat → UInt8) : (digits m).value (2 ^ 26) = leVal m 16 := by
  simp only [digits, Limbs.value]
  omega

theorem words_value (m : Nat → UInt8) :
    leVal m 16 = leVal m 4 + 2 ^ 32 * leVal (fun i => m (4 + i)) 4 +
      2 ^ 64 * leVal (fun i => m (8 + i)) 4 + 2 ^ 96 * leVal (fun i => m (12 + i)) 4 := by
  rw [leVal_add m 12 4, leVal_add m 8 4, leVal_add m 4 4]

theorem mask26 (x : Nat) : x &&& 0x3ffffff = x % 2 ^ 26 := Nat.and_two_pow_sub_one_eq_mod x 26

/-- What `spread` leaves in the low 26 bits of the limbs are the digits. -/
theorem spread_digits (m : Nat → UInt8) :
    (spread m).l0 % 2 ^ 26 = (digits m).l0 ∧ (spread m).l1 % 2 ^ 26 = (digits m).l1 ∧
      (spread m).l2 % 2 ^ 26 = (digits m).l2 ∧ (spread m).l3 % 2 ^ 26 = (digits m).l3 ∧
      (spread m).l4 = (digits m).l4 ∧ (digits m).l4 < 2 ^ 24 := by
  have h0 := leVal_lt m 4
  have h1 := leVal_lt (fun i => m (4 + i)) 4
  have h2 := leVal_lt (fun i => m (8 + i)) 4
  have h3 := leVal_lt (fun i => m (12 + i)) 4
  simp only [spread, digits, poly1305Rd32le_eq, words_value m]
  generalize leVal (fun i => m (4 + i)) 4 = t1 at *
  generalize leVal (fun i => m (8 + i)) 4 = t2 at *
  generalize leVal (fun i => m (12 + i)) 4 = t3 at *
  rw [or_shl_mod t1 (by omega) (by omega), or_shl_mod t2 (by omega) (by omega),
    or_shl_mod t3 (by omega) (by omega)]
  refine ⟨?_, ?_, ?_, ?_, ?_, ?_⟩ <;> omega

theorem and_mod_mask {mask : Nat} (h : mask < 2 ^ 26) (x : Nat) :
    x &&& mask = x % 2 ^ 26 &&& mask := by
  have hmask : 2 ^ 26 - 1 &&& mask = mask := by
    rw [Nat.and_comm, Nat.and_two_pow_sub_one_eq_mod, Nat.mod_eq_of_lt h]
  rw [← Nat.and_two_pow_sub_one_eq_mod, Nat.and_assoc, hmask]

theorem polyClampR_value (key : Nat → UInt8) :
    (polyClampR key).value (2 ^ 26) = rfcClamp (leVal key 16) := by
  obtain ⟨h0, h1, h2, h3, h4, hlast⟩ := spread_digits key
  have hhorner : ∀ x : Limbs, x.value (2 ^ 26) =
      x.l0 + 2 ^ 26 * (x.l1 + 2 ^ 26 * (x.l2 + 2 ^ 26 * (x.l3 + 2 ^ 26 * x.l4))) := fun x => by
    simp only [Limbs.value]
    omega
  have hmask : 0x0ffffffc0ffffffc0ffffffc0fffffff = 0x3ffffff + 2 ^ 26 * (0x3ffff03 + 2 ^ 26 *
      (0x3ffc0ff + 2 ^ 26 * (0x3f03fff + 2 ^ 26 * 0x00fffff))) := by norm_num
  have hdigit : ∀ x : Nat, x % 2 ^ 26 < 2 ^ 26 := fun x => Nat.mod_lt _ (Nat.two_pow_pos 26)
  rw [rfcClamp, ← digits_value key, hhorner, hhorner, hmask, ← h0, ← h1, ← h2, ← h3, ← h4]
  rw [and_add_mul (hdigit _) (by omega), and_add_mul (hdigit _) (by omega),
    and_add_mul (hdigit _) (by omega), and_add_mul (hdigit _) (by omega)]
  simp only [polyClampR]
  rw [and_mod_mask (by omega : 0x3ffffff < 2 ^ 26), and_mod_mask (by omega : 0x3ffff03 < 2 ^ 26),
    and_mod_mask (by omega : 0x3ffc0ff < 2 ^ 26), and_mod_mask (by omega : 0x3f03fff < 2 ^ 26)]

theorem polyClampR_atMost (key : Nat → UInt8) : (polyClampR key).AtMost (2 ^ 26) := by
  have hle : ∀ {x mask : Nat}, mask ≤ 2 ^ 26 → x &&& mask ≤ 2 ^ 26 := fun h =>
    Nat.and_le_right.trans h
  exact ⟨hle (by omega), hle (by omega), hle (by omega), hle (by omega),
    hle (by omega)⟩

/-! ## One multiplication -/

/-- The limbs between two blocks: the second one may keep a small carry. -/
structure Carried (h : Limbs) : Prop where
  l0 : h.l0 < 2 ^ 26
  l1 : h.l1 < 2 ^ 26 + 2 ^ 6
  l2 : h.l2 < 2 ^ 26
  l3 : h.l3 < 2 ^ 26
  l4 : h.l4 < 2 ^ 26

variable {h : Limbs} {bit g : Nat}

theorem polyRow_eq {a b c d e : Nat}
    (hlt : h.l0 * a + h.l1 * b + h.l2 * c + h.l3 * d + h.l4 * e < 2 ^ 64) :
    polyRow h a b c d e = pure (h.l0 * a + h.l1 * b + h.l2 * c + h.l3 * d + h.l4 * e) := by
  unfold polyRow
  simp (disch := omega) only [mul_eq, add_eq, pure_bind]

theorem carryReduce_eq {d : Limbs} (hd : d.AtMost (2 ^ 58))
    (hlast : d.l4 ≤ 5 * ((2 ^ 27 + 2 ^ 6) * 2 ^ 26)) :
    carryReduce d = pure (d.reduce (2 ^ 26) 5) ∧ Carried (d.reduce (2 ^ 26) 5) := by
  obtain ⟨h0, h1, h2, h3, -⟩ := hd
  constructor
  · unfold carryReduce
    simp (disch := omega) only [add_eq, narrow_eq, mul_eq, pure_bind]
    rfl
  · constructor <;> simp only [Limbs.reduce, Limbs.carryPass, Limbs.carry] <;> omega

variable {st : Poly}

theorem polyMulmod_eq (hr : st.r.AtMost (2 ^ 26)) (hh : st.h.AtMost (2 ^ 27 + 2 ^ 6)) :
    let h := (Limbs.columns 5 st.h st.r).reduce (2 ^ 26) 5
    polyMulmod st = pure { st with h := h } ∧ Carried h := by
  intro h
  have hcols := Limbs.columns_atMost hh hr (by omega : 1 ≤ 5)
  obtain ⟨hreduce, hcarried⟩ := carryReduce_eq (hcols.mono (by omega))
    (Limbs.columns_l4_le hh hr)
  refine ⟨?_, hcarried⟩
  obtain ⟨-, hr1, hr2, hr3, hr4⟩ := hr
  unfold polyMulmod
  dsimp only
  rw [mul_eq (by omega), pure_bind, mul_eq (by omega), pure_bind, mul_eq (by omega), pure_bind,
    mul_eq (by omega), pure_bind, polyRow_eq (hcols.l0.trans_lt (by omega)), pure_bind,
    polyRow_eq (hcols.l1.trans_lt (by omega)), pure_bind,
    polyRow_eq (hcols.l2.trans_lt (by omega)), pure_bind,
    polyRow_eq (hcols.l3.trans_lt (by omega)), pure_bind,
    polyRow_eq (hcols.l4.trans_lt (by omega)), pure_bind]
  change carryReduce (Limbs.columns 5 st.h st.r) >>= _ = _
  rw [hreduce, pure_bind]

/-! ## One block -/

theorem polyAdd_eq (hh : Carried st.h) (m : Nat → UInt8) (hbit : bit ≤ 1) :
    ∃ h : Limbs, polyAdd st m (bit * 2 ^ 24) = pure { st with h := h } ∧
      h.AtMost (2 ^ 27 + 2 ^ 6) ∧
      h.value (2 ^ 26) = st.h.value (2 ^ 26) + (leVal m 16 + bit * 2 ^ 128) := by
  obtain ⟨h0, h1, h2, h3, h4⟩ := hh
  obtain ⟨d0, d1, d2, d3, d4, hlast⟩ := spread_digits m
  have hvalue := digits_value m
  have hor : ((digits m).l4 ||| bit * 2 ^ 24) = (digits m).l4 + bit * 2 ^ 24 := or_shl hlast
  unfold polyAdd
  simp only [mask26, d0, d1, d2, d3, d4, hor]
  simp (disch := omega) only [add_eq, pure_bind]
  refine ⟨_, rfl, ?_, ?_⟩
  · constructor <;> dsimp only <;> omega
  · rw [← hvalue]
    simp only [Limbs.value]
    omega

theorem absorb_eq (hr : st.r.AtMost (2 ^ 26)) (hh : Carried st.h) (m : Nat → UInt8) (hbit : bit ≤ 1) :
    ∃ h : Limbs, (polyAdd st m (bit * 2 ^ 24) >>= polyMulmod) = pure { st with h := h } ∧
      Carried h ∧ h.value (2 ^ 26) % polyPrime = st.r.value (2 ^ 26) *
        (st.h.value (2 ^ 26) % polyPrime + (leVal m 16 + bit * 2 ^ 128)) % polyPrime := by
  obtain ⟨h, hadd, hmost, hvalue⟩ := polyAdd_eq hh m hbit
  have hmulmod : let h' := (Limbs.columns 5 h st.r).reduce (2 ^ 26) 5
      polyMulmod { st with h := h } = pure { st with h := h' } ∧ Carried h' :=
    polyMulmod_eq hr hmost
  obtain ⟨hmul, hcarried⟩ := hmulmod
  refine ⟨_, ?_, hcarried, ?_⟩
  · rw [hadd, pure_bind, hmul]
  · have hacc : st.h.value (2 ^ 26) % polyPrime + (leVal m 16 + bit * 2 ^ 128) ≡
        h.value (2 ^ 26) [MOD polyPrime] := by
      rw [hvalue]
      exact (Nat.mod_modEq _ _).add_right _
    have hproduct : ((Limbs.columns 5 h st.r).reduce (2 ^ 26) 5).value (2 ^ 26) ≡
        h.value (2 ^ 26) * st.r.value (2 ^ 26) [MOD polyPrime] := by
      exact (Limbs.reduce_value (by omega) _).trans (Limbs.value_columns (by omega) _ _)
    refine hproduct.trans ?_
    rw [mul_comm]
    exact hacc.symm.mul_left _

theorem bytesAt_append_left {l : List UInt8} (l' : List UInt8) {i : Nat} (h : i < l.length) :
    bytesAt (l ++ l') i = bytesAt l i := by
  simp only [bytesAt, getD_eq_getElem?_getD, getElem?_append_left h]

theorem rfcBlock_eq (block : List UInt8) :
    rfcBlock block = leVal (bytesAt block) block.length + 2 ^ (8 * block.length) := by
  have hlast : bytesAt (block ++ [1]) block.length = 1 := by simp [bytesAt, getD_eq_getElem?_getD]
  rw [rfcBlock, leVal, hlast, leVal_congr fun i hi => bytesAt_append_left [1] hi]
  simp

theorem padByte_value (m : Nat → UInt8) {n : Nat} (hn : n < 16) :
    leVal (padByte m n) 16 = leVal m n + 2 ^ (8 * n) := by
  have hlen : 16 = n + 1 + (15 - n) := by omega
  have hdata : leVal (padByte m n) n = leVal m n := leVal_congr fun i hi => if_pos hi
  have hone : padByte m n n = 1 := by simp [padByte]
  have hzero : leVal (fun i => padByte m n (n + 1 + i)) (15 - n) = 0 :=
    leVal_zeros fun i _ => by
      unfold padByte
      rw [if_neg (by omega), if_neg (by omega)]
  rw [hlen, leVal_add, hzero, leVal, hdata, hone]
  simp

/-! ## All the blocks -/

theorem polyBlocks_eq (st : Poly) (msg : List UInt8) (hr : st.r.AtMost (2 ^ 26))
    (hh : Carried st.h) :
    ∃ h : Limbs, polyBlocks st msg = pure { st with h := h } ∧ Carried h ∧
      h.value (2 ^ 26) % polyPrime =
        rfcAcc (st.r.value (2 ^ 26)) (st.h.value (2 ^ 26) % polyPrime) msg := by
  induction hlen : msg.length using Nat.strongRecOn generalizing st msg with
  | ind len ih =>
    rw [polyBlocks, rfcAcc]
    by_cases hfull : 16 ≤ msg.length
    · have hne : msg ≠ [] := by
        rintro rfl
        simp at hfull
      have hblock : rfcBlock (msg.take 16) = leVal (bytesAt msg) 16 + 1 * 2 ^ 128 := by
        have htake : (msg.take 16).length = 16 := length_take_of_le hfull
        have hbytes : ∀ i < 16, bytesAt (msg.take 16) i = bytesAt msg i := fun i hi => by
          simp only [bytesAt, getD_eq_getElem?_getD, getElem?_take_of_lt hi]
        rw [rfcBlock_eq, htake, leVal_congr hbytes, one_mul]
      obtain ⟨h, habsorb, hcarried, hvalue⟩ := absorb_eq hr hh (bytesAt msg) le_rfl
      rw [one_mul] at habsorb
      obtain ⟨h', hrest, hcarried', hvalue'⟩ := ih (msg.drop 16).length
        (by rw [length_drop]; omega) { st with h := h } (msg.drop 16) hr hcarried rfl
      refine ⟨h', ?_, hcarried', ?_⟩
      · rw [if_pos hfull, ← bind_assoc, habsorb, pure_bind, hrest]
      · rw [if_neg hne, hvalue', hblock]
        rw [hvalue]
    · by_cases hsome : 0 < msg.length
      · have hne : msg ≠ [] := length_pos_iff.mp hsome
        have hblock : rfcBlock (msg.take 16) =
            leVal (padByte (bytesAt msg) msg.length) 16 + 0 * 2 ^ 128 := by
          rw [take_of_length_le (by omega), rfcBlock_eq, padByte_value _ (by omega),
            Nat.zero_mul, add_zero]
        have hdrop : msg.drop 16 = [] := drop_of_length_le (by omega)
        obtain ⟨h, habsorb, hcarried, hvalue⟩ :=
          absorb_eq hr hh (padByte (bytesAt msg) msg.length) (Nat.zero_le 1)
        refine ⟨h, ?_, hcarried, ?_⟩
        · rw [if_neg hfull, if_pos hsome]
          exact habsorb
        · rw [if_neg hne, hdrop, rfcAcc, if_pos rfl, hvalue, hblock]
      · have hnil : msg = [] := eq_nil_of_length_eq_zero (by omega)
        exact ⟨st.h, by rw [if_neg hfull, if_neg hsome], hh, by rw [if_pos hnil]⟩

/-! ## The last reduction -/

/-- Limbs that are digits. -/
structure Digits (h : Limbs) : Prop where
  l0 : h.l0 < 2 ^ 26
  l1 : h.l1 < 2 ^ 26
  l2 : h.l2 < 2 ^ 26
  l3 : h.l3 < 2 ^ 26
  l4 : h.l4 < 2 ^ 26

/-- A carry out of the last limb came all the way from the second one, which then is small: what
comes back at the bottom does not get past it. -/
theorem fullCarry_eq (hh : Carried h) :
    fullCarry h = pure (h.reduce (2 ^ 26) 5) ∧ Digits (h.reduce (2 ^ 26) 5) := by
  obtain ⟨h0, h1, h2, h3, h4⟩ := hh
  constructor
  · unfold fullCarry
    simp (disch := omega) only [add_eq, mul_eq, pure_bind]
    rfl
  · constructor <;> simp only [Limbs.reduce, Limbs.carryPass, Limbs.carry] <;> omega

theorem selectLimb_zero {h : Nat} (hh : h < 2 ^ 32) : selectLimb 0 h g = h := by
  rw [selectLimb, Nat.sub_zero, Nat.and_zero, Nat.or_zero, Nat.and_two_pow_sub_one_eq_mod,
    Nat.mod_eq_of_lt hh]

theorem selectLimb_ones {h : Nat} (hg : g < 2 ^ 32) : selectLimb (2 ^ 32 - 1) h g = g := by
  rw [selectLimb, Nat.sub_self, Nat.and_zero, Nat.zero_or, Nat.and_two_pow_sub_one_eq_mod,
    Nat.mod_eq_of_lt hg]

theorem selectMod_borrow {g : Limbs} (hh : Digits h) (hg : g.l4 / 2 ^ 31 = 1) :
    selectMod h g = h := by
  obtain ⟨h0, h1, h2, h3, h4⟩ := hh
  simp only [selectMod, hg, Nat.add_sub_cancel_left, Nat.mod_self]
  simp (disch := omega) only [selectLimb_zero]

theorem selectMod_kept {g : Limbs} (hg : Digits g) : selectMod h g = g := by
  obtain ⟨h0, h1, h2, h3, h4⟩ := hg
  have hmask : (g.l4 / 2 ^ 31 + 2 ^ 32 - 1) % 2 ^ 32 = 2 ^ 32 - 1 := by omega
  simp only [selectMod, hmask]
  simp (disch := omega) only [selectLimb_ones]

/-- The number is reduced: what is subtracted is the modulus or nothing. -/
theorem selectMod_eq (hh : Digits h) :
    ∃ g, plusFive h = pure g ∧ Digits (selectMod h g) ∧
      (selectMod h g).value (2 ^ 26) = h.value (2 ^ 26) % polyPrime := by
  have hlt : h.value (2 ^ 26) < (2 ^ 26) ^ 5 := Limbs.value_lt hh.l0 hh.l1 hh.l2 hh.l3 hh.l4
  have hplus : ∃ g, plusFive h = pure g ∧ (g.l4 / 2 ^ 31 = 1 ∨ Digits g) ∧
      (g.l4 / 2 ^ 31 = 1 ↔ h.value (2 ^ 26) < polyPrime) ∧
      (g.l4 < 2 ^ 31 → g.value (2 ^ 26) + polyPrime = h.value (2 ^ 26)) := by
    obtain ⟨h0, h1, h2, h3, h4⟩ := hh
    unfold plusFive
    simp (disch := omega) only [add_eq, pure_bind]
    generalize hg0 : h.l0 + 5 = g0
    generalize hg1 : h.l1 + g0 / 2 ^ 26 = g1
    generalize hg2 : h.l2 + g1 / 2 ^ 26 = g2
    generalize hg3 : h.l3 + g2 / 2 ^ 26 = g3
    generalize hg4 : h.l4 + g3 / 2 ^ 26 = g4
    refine ⟨_, rfl, ?_, ?_, ?_⟩
    · by_cases hborrow : g4 < 2 ^ 26
      · exact .inl (by dsimp only; omega)
      · exact .inr (by constructor <;> dsimp only <;> omega)
    · simp only [Limbs.value, polyPrime]
      omega
    · simp only [Limbs.value, polyPrime]
      omega
  obtain ⟨g, hg, hcases, hborrow, hvalue⟩ := hplus
  refine ⟨g, hg, ?_⟩
  by_cases hsmall : h.value (2 ^ 26) < polyPrime
  · rw [selectMod_borrow hh (hborrow.mpr hsmall), Nat.mod_eq_of_lt hsmall]
    exact ⟨hh, rfl⟩
  · have hdigits : Digits g := hcases.resolve_left fun h1 => hsmall (hborrow.mp h1)
    have hsum := hvalue (hdigits.l4.trans (by omega))
    rw [selectMod_kept hdigits]
    refine ⟨hdigits, ?_⟩
    have hmod : h.value (2 ^ 26) % polyPrime = h.value (2 ^ 26) - polyPrime := by
      unfold polyPrime at *
      omega
    omega

/-! ## The tag -/

def wordSum (w : Nat → Nat) (i : Nat) : Nat → Nat
  | 0 => 0
  | n + 1 => w i + 2 ^ 32 * wordSum w (i + 1) n

theorem pack_value (hh : Digits h) :
    wordSum (pack h) 0 4 = h.value (2 ^ 26) % 2 ^ 128 ∧ ∀ i, pack h i < 2 ^ 32 := by
  obtain ⟨h0, h1, h2, h3, h4⟩ := hh
  have hw0 : pack h 0 = (h.l0 + h.l1 * 2 ^ 26) % 2 ^ 32 := or_shl_mod _ h0 (by omega)
  have hw1 : pack h 1 = (h.l1 / 2 ^ 6 + h.l2 * 2 ^ 20) % 2 ^ 32 :=
    or_shl_mod _ (by omega) (by omega)
  have hw2 : pack h 2 = (h.l2 / 2 ^ 12 + h.l3 * 2 ^ 14) % 2 ^ 32 :=
    or_shl_mod _ (by omega) (by omega)
  have hw3 : ∀ i, pack h (i + 3) = (h.l3 / 2 ^ 18 + h.l4 * 2 ^ 8) % 2 ^ 32 := fun i =>
    or_shl_mod _ (by omega) (by omega)
  constructor
  · simp only [wordSum, hw0, hw1, hw2, hw3 0, Limbs.value]
    omega
  · have hlt : ∀ x, x % 2 ^ 32 < 2 ^ 32 := fun x => Nat.mod_lt _ (Nat.two_pow_pos 32)
    rintro (_ | _ | _ | i)
    · rw [hw0]
      exact hlt _
    · rw [hw1]
      exact hlt _
    · rw [hw2]
      exact hlt _
    · rw [hw3]
      exact hlt _

theorem tagWords_eq {w pad : Nat → Nat} (hw : ∀ i, w i < 2 ^ 32) (hpad : ∀ i, pad i < 2 ^ 32)
    (i n : Nat) {f : Nat} (hf : f < 2 ^ 32) :
    tagWords w pad f i n = pure (leBytes (4 * n) (f + (wordSum w i n + wordSum pad i n))) := by
  induction n generalizing i f with
  | zero => rfl
  | succ n ih =>
    have hwi := hw i
    have hpi := hpad i
    have hsum : f + (wordSum w i (n + 1) + wordSum pad i (n + 1)) =
        f + (w i + pad i) + 2 ^ 32 * (wordSum w (i + 1) n + wordSum pad (i + 1) n) := by
      simp only [wordSum]
      omega
    have hword : leBytes 4 (f + (w i + pad i) +
        2 ^ 32 * (wordSum w (i + 1) n + wordSum pad (i + 1) n)) = leBytes 4 (f + (w i + pad i)) := by
      rw [← leBytes_mod, Nat.add_mul_mod_self_left, leBytes_mod]
    have hrest : (f + (w i + pad i) + 2 ^ 32 * (wordSum w (i + 1) n + wordSum pad (i + 1) n)) /
        2 ^ (8 * 4) = (f + (w i + pad i)) / 2 ^ 32 +
          (wordSum w (i + 1) n + wordSum pad (i + 1) n) :=
      Nat.add_mul_div_left _ _ (Nat.two_pow_pos 32)
    rw [tagWords, add_eq (by omega), pure_bind, add_eq (by omega), pure_bind,
      ih (i + 1) (by omega), pure_bind, hsum, Nat.mul_succ, add_comm (4 * n), leBytes_add,
      hword, hrest]

theorem pad_value (key : Nat → UInt8) :
    wordSum (polyInit key).pad 0 4 = leVal (fun i => key (16 + i)) 16 := by
  rw [words_value]
  simp only [wordSum, polyInit, poly1305Rd32le_eq, add_assoc, Nat.reduceAdd, Nat.reduceMul,
    zero_add]
  omega

/-! ## The whole function -/

theorem polyFinish_eq (hh : Carried st.h) (hpad : ∀ i, st.pad i < 2 ^ 32) :
    polyFinish st = pure (leBytes 16 (st.h.value (2 ^ 26) % polyPrime + wordSum st.pad 0 4)) := by
  obtain ⟨hcarry, hdigits⟩ := fullCarry_eq hh
  obtain ⟨g, hg, hsel, hvalue⟩ := selectMod_eq hdigits
  obtain ⟨hpack, hlt⟩ := pack_value hsel
  have hmod : (st.h.reduce (2 ^ 26) 5).value (2 ^ 26) % polyPrime =
      st.h.value (2 ^ 26) % polyPrime := Limbs.reduce_value (by omega) st.h
  unfold polyFinish
  rw [hcarry, pure_bind, hg, pure_bind, tagWords_eq hlt hpad 0 4 (Nat.two_pow_pos 32), hpack,
    hvalue, hmod, zero_add, ← leBytes_mod, Nat.mod_add_mod, leBytes_mod]

/-- **Poly1305.** For every key and every message, no sum or product overflows, and the tag is that
of RFC 8439. -/
theorem poly1305_eq (key : Nat → UInt8) (msg : List UInt8) :
    poly1305 key msg = pure (rfcPoly1305 key msg) := by
  have hstart : Carried (polyInit key).h := by constructor <;> simp [polyInit]
  have hpad : ∀ i, (polyInit key).pad i < 2 ^ 32 := fun i => by
    simp only [polyInit, poly1305Rd32le_eq]
    exact leVal_lt _ 4
  obtain ⟨h, hblocks, hcarried, hvalue⟩ :=
    polyBlocks_eq (polyInit key) msg (polyClampR_atMost key) hstart
  have hr : (polyInit key).r.value (2 ^ 26) = rfcClamp (leVal key 16) := polyClampR_value key
  have hzero : (polyInit key).h.value (2 ^ 26) % polyPrime = 0 := rfl
  rw [hr, hzero] at hvalue
  have hfinish : polyFinish { polyInit key with h := h } =
      pure (leBytes 16 (h.value (2 ^ 26) % polyPrime + wordSum (polyInit key).pad 0 4)) :=
    polyFinish_eq hcarried hpad
  rw [poly1305, hblocks, pure_bind, hfinish, rfcPoly1305, ← hvalue, ← pad_value]

end Wired.Crypto
