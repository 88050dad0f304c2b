import Wired.Bytes.Compare
import Wired.Crypto.X25519Field

/-!
# X25519

`x25519_fe.c` and `x25519_clamp.c`: the Montgomery ladder over the 255 bits of the clamped scalar,
and the function of RFC 7748. The ladder of the RFC is `rfcLoop`, over any commutative ring; the
code's works on limbs, and after each step they stand for the elements of that ladder within
`weakBound`, so that no word overflows. The main result is `wiredX25519_eq`.
-/

namespace Wired.Crypto

open Lib Checked

/-! ## The model -/

/-- The two points of the ladder. -/
structure LadderState (α : Type) where
  x2 : α
  z2 : α
  x3 : α
  z3 : α

def x25519LadderStep (st : LadderState Limbs) (x1 : Limbs) : Checked (LadderState Limbs) := do
  let a ← feAdd st.x2 st.z2
  let b ← feSub st.x2 st.z2
  let c ← feAdd st.x3 st.z3
  let d ← feSub st.x3 st.z3
  let da ← feMul d a
  let cb ← feMul c b
  let x3 ← feAdd da cb
  let x3 ← feSq x3
  let z3 ← feSub da cb
  let z3 ← feSq z3
  let z3 ← feMul z3 x1
  let a ← feSq a
  let b ← feSq b
  let x2 ← feMul a b
  let e ← feSub a b
  let da ← feMul121666 e
  let da ← feAdd da b
  let z2 ← feMul e da
  pure ⟨x2, z2, x3, z3⟩

def ladderCswap (st : LadderState Limbs) (swap : Nat) : LadderState Limbs :=
  let x := feCswap st.x2 st.x3 swap
  let z := feCswap st.z2 st.z3 swap
  ⟨x.1, z.1, x.2, z.2⟩

def ladderLoop (e : Nat → UInt8) (x1 : Limbs) :
    (pos : Nat) → (swap : Nat) → LadderState Limbs → Checked (LadderState Limbs)
  | 0, swap, st => pure (ladderCswap st swap)
  | pos + 1, swap, st => do
    let bit := (e (pos / 8)).toNat / 2 ^ (pos % 8) % 2
    let st ← x25519LadderStep (ladderCswap st (swap ^^^ bit)) x1
    ladderLoop e x1 pos bit st

/-- The ladder over the bits of the scalar, from the top. -/
def x25519Ladder (e : Nat → UInt8) (x1 : Limbs) : Checked (LadderState Limbs) :=
  ladderLoop e x1 255 0 ⟨fe1, fe0, x1, fe1⟩

def clamp (scalar : Nat → UInt8) (i : Nat) : UInt8 :=
  if i = 0 then scalar 0 &&& 248
  else if i = 31 then (scalar 31 &&& 127) ||| 64
  else scalar i

/-- Whether a byte of the result is not zero. -/
def x25519Nonzero (out : List UInt8) : Bool :=
  out.foldl (· ||| ·) 0 != 0

/-- The bytes of the product, and whether the function reports success. -/
def wiredX25519 (scalar point : Nat → UInt8) : Checked (List UInt8 × Bool) := do
  let x1 := feFrombytes point
  let st ← x25519Ladder (clamp scalar) x1
  let zinv ← feInvert st.z2
  let x2 ← feMul st.x2 zinv
  let out ← feTobytes x2
  pure (out, x25519Nonzero out)

/-! ## RFC 7748, 5 -/

section

variable {F : Type} [CommRing F]

def rfcStep (x1 : F) (st : LadderState F) : LadderState F :=
  let a := st.x2 + st.z2
  let aa := a ^ 2
  let b := st.x2 - st.z2
  let bb := b ^ 2
  let e := aa - bb
  let c := st.x3 + st.z3
  let d := st.x3 - st.z3
  let da := d * a
  let cb := c * b
  { x3 := (da + cb) ^ 2
    z3 := x1 * (da - cb) ^ 2
    x2 := aa * bb
    z2 := e * (aa + 121665 * e) }

def rfcCswap {α : Type} (swap : Nat) (st : LadderState α) : LadderState α :=
  if swap = 1 then ⟨st.x3, st.z3, st.x2, st.z2⟩ else st

def rfcLoop (k : Nat) (x1 : F) : (t : Nat) → (swap : Nat) → LadderState F → LadderState F
  | 0, swap, st => rfcCswap swap st
  | t + 1, swap, st =>
    let kt := k / 2 ^ t % 2
    rfcLoop k x1 t kt (rfcStep x1 (rfcCswap (swap ^^^ kt) st))

end

/-- `decodeScalar25519`. -/
def rfcScalar (k : Nat → UInt8) : Nat :=
  leVal (fun i =>
    if i = 0 then k 0 &&& 248 else if i = 31 then (k 31 &&& 127) ||| 64 else k i) 32

/-- `decodeUCoordinate`: the top bit is masked, and a number from the modulus up is accepted. -/
def rfcU (u : Nat → UInt8) : ZMod curvePrime := (leVal u 32 % 2 ^ 255 : Nat)

def rfcX25519 (k u : Nat → UInt8) : ZMod curvePrime :=
  let st := rfcLoop (rfcScalar k) (rfcU u) 255 0 ⟨1, 0, rfcU u, 1⟩
  st.x2 * st.z2 ^ (curvePrime - 2)

/-! ## The ladder -/

/-- Limbs that stand for the elements of the RFC's ladder. -/
structure LadderStands (st : LadderState Limbs) (s : LadderState (ZMod curvePrime)) : Prop where
  x2 : Stands weakBound st.x2 s.x2
  z2 : Stands weakBound st.z2 s.z2
  x3 : Stands weakBound st.x3 s.x3
  z3 : Stands weakBound st.z3 s.z3

variable {st : LadderState Limbs} {s : LadderState (ZMod curvePrime)} {swap : Nat} {f : Limbs}
  {x1 : ZMod curvePrime}

theorem ladderCswap_stands (h : LadderStands st s) (hswap : swap < 2) :
    LadderStands (ladderCswap st swap) (rfcCswap swap s) := by
  have hx := feCswap_eq h.x2.atMost h.x3.atMost hswap
  have hz := feCswap_eq h.z2.atMost h.z3.atMost hswap
  unfold ladderCswap rfcCswap
  rw [hx, hz]
  split
  · exact ⟨h.x3, h.z3, h.x2, h.z2⟩
  · exact h

/-- The code has `BB + 121666 E` where the RFC has `AA + 121665 E`, and `E = AA - BB`. -/
theorem x25519LadderStep_stands (h : LadderStands st s) (hx1 : Stands weakBound f x1) :
    ∃ st', x25519LadderStep st f = pure st' ∧ LadderStands st' (rfcStep x1 s) := by
  obtain ⟨a, ea, ha⟩ := feAdd_stands h.x2 h.z2
  obtain ⟨b, eb, hb⟩ := feSub_stands h.x2 h.z2
  obtain ⟨c, ec, hc⟩ := feAdd_stands h.x3 h.z3
  obtain ⟨d, ed, hd⟩ := feSub_stands h.x3 h.z3
  obtain ⟨da, eda, hda⟩ := feMul_stands hd ha
  obtain ⟨cb, ecb, hcb⟩ := feMul_stands hc hb
  obtain ⟨sum, esum, hsum⟩ := feAdd_stands hda hcb
  obtain ⟨x3, ex3, hx3⟩ := feSq_stands hsum
  obtain ⟨diff, ediff, hdiff⟩ := feSub_stands hda hcb
  obtain ⟨sq, esq, hsq⟩ := feSq_stands hdiff
  obtain ⟨z3, ez3, hz3⟩ := feMul_stands hsq.loose hx1.loose
  obtain ⟨aa, eaa, haa⟩ := feSq_stands ha
  obtain ⟨bb, ebb, hbb⟩ := feSq_stands hb
  obtain ⟨x2, ex2, hx2⟩ := feMul_stands haa.loose hbb.loose
  obtain ⟨e, ee, he⟩ := feSub_stands haa hbb
  obtain ⟨m, em, hm⟩ := feMul121666_stands he
  obtain ⟨mb, emb, hmb⟩ := feAdd_stands hm hbb
  obtain ⟨z2, ez2, hz2⟩ := feMul_stands he hmb
  refine ⟨⟨x2, z2, x3, z3⟩, ?_, hx2, ?_, hx3, ?_⟩
  · simp only [x25519LadderStep, ea, eb, ec, ed, eda, ecb, esum, ex3, ediff, esq, ez3, eaa, ebb,
      ex2, ee, em, emb, ez2, pure_bind]
  · convert hz2 using 1
    simp only [rfcStep]
    ring
  · convert hz3 using 1
    simp only [rfcStep]
    ring

theorem ladderLoop_stands {e : Nat → UInt8} (hx1 : Stands weakBound f x1) {pos : Nat}
    (hpos : pos ≤ 8 * 32) (hswap : swap < 2) (h : LadderStands st s) :
    ∃ st', ladderLoop e f pos swap st = pure st' ∧
      LadderStands st' (rfcLoop (leVal e 32) x1 pos swap s) := by
  induction pos generalizing swap st s with
  | zero => exact ⟨_, rfl, ladderCswap_stands h hswap⟩
  | succ pos ih =>
    have hbit : leVal e 32 / 2 ^ pos % 2 = (e (pos / 8)).toNat / 2 ^ (pos % 8) % 2 :=
      leVal_bit e (by omega)
    have hlt : (e (pos / 8)).toNat / 2 ^ (pos % 8) % 2 < 2 := Nat.mod_lt _ Nat.two_pos
    have hxor : swap ^^^ (e (pos / 8)).toNat / 2 ^ (pos % 8) % 2 < 2 :=
      Nat.xor_lt_two_pow (n := 1) hswap hlt
    obtain ⟨st', hstep, hstands⟩ := x25519LadderStep_stands (ladderCswap_stands h hxor) hx1
    obtain ⟨st'', hrest, hstands'⟩ := ih (by omega) hlt hstands
    refine ⟨st'', ?_, ?_⟩
    · rw [ladderLoop, hstep, pure_bind, hrest]
    · rw [rfcLoop, hbit]
      exact hstands'

theorem fe0_stands : Stands weakBound fe0 0 := by
  refine ⟨⟨zero_le, zero_le, zero_le, zero_le, zero_le⟩, ?_⟩
  simp [fe0, Limbs.value]

theorem fe1_stands : Stands weakBound fe1 1 := by
  refine ⟨⟨?_, zero_le, zero_le, zero_le, zero_le⟩, ?_⟩
  · unfold fe1 weakBound
    dsimp only
    omega
  · simp [fe1, fe0, Limbs.value]

/-! ## The whole function -/

theorem x25519Nonzero_leBytes (x : ZMod curvePrime) :
    x25519Nonzero (leBytes 32 x.val) = decide (x ≠ 0) := by
  have hzero : (∀ b ∈ leBytes 32 x.val, b = 0) ↔ x = 0 := by
    constructor
    · intro h
      have hmod := mod_eq_zero_of_leBytes h
      have hlt : x.val < curvePrime := ZMod.val_lt x
      have hsmall : curvePrime < 2 ^ (8 * 32) := by
        unfold curvePrime
        omega
      rw [Nat.mod_eq_of_lt (hlt.trans hsmall)] at hmod
      exact (ZMod.val_eq_zero x).mp hmod
    · rintro rfl b hb
      simp [leBytes] at hb
      exact hb
  simp only [x25519Nonzero, bne, ne_eq, decide_not]
  congr 1
  rw [beq_eq_decide, decide_eq_decide, Bytes.foldl_or_eq_zero, hzero]
  simp

/-- **X25519.** For every scalar and u-coordinate no word overflows, the bytes are those of the
RFC's result in canonical form, and failure is reported exactly when that is zero. -/
theorem wiredX25519_eq (scalar point : Nat → UInt8) :
    wiredX25519 scalar point =
      pure (leBytes 32 (rfcX25519 scalar point).val, decide (rfcX25519 scalar point ≠ 0)) := by
  have hpoint : Stands weakBound (feFrombytes point) (rfcU point) := feFrombytes_stands point
  have hstart : LadderStands ⟨fe1, fe0, feFrombytes point, fe1⟩ ⟨1, 0, rfcU point, 1⟩ :=
    ⟨fe1_stands, fe0_stands, hpoint, fe1_stands⟩
  obtain ⟨st, hloop, hstands⟩ := ladderLoop_stands (e := clamp scalar) hpoint
    (by omega : 255 ≤ 8 * 32) (by omega : 0 < 2) hstart
  obtain ⟨zinv, hinv, hzinv⟩ := feInvert_stands hstands.z2
  obtain ⟨x2, hmul, hx2⟩ := feMul_stands hstands.x2.loose hzinv.loose
  have hbytes := feTobytes_eq hx2
  unfold wiredX25519 x25519Ladder
  dsimp only
  rw [hloop, pure_bind, hinv, pure_bind, hmul, pure_bind, hbytes, pure_bind, x25519Nonzero_leBytes]
  rfl

end Wired.Crypto
