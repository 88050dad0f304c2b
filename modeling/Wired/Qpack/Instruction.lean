import Wired.Qpack.Integer

/-!
# Instructions of the encoder and the decoder stream

`instruction.c`: an instruction starts with a byte whose high bits say which one it is, and an
integer in the bits below. The kinds of a stream are scanned in the order of the table.
-/

namespace Wired.Qpack

open Lib Option

/-- The fixed high bits, the mask that covers them, and the width of the integer. -/
structure InstrSpec where
  pattern : UInt8
  mask : UInt8
  prefixBits : Nat

inductive QpackEncKind where
  | setCapacity
  | insertNameRef
  | insertLiteral
  | duplicate
deriving DecidableEq, Repr

inductive QpackDecKind where
  | sectionAck
  | streamCancel
  | insertCount
deriving DecidableEq, Repr

def encSpec : QpackEncKind → InstrSpec
  | .setCapacity => { pattern := 0x20, mask := 0xe0, prefixBits := 5 }
  | .insertNameRef => { pattern := 0x80, mask := 0x80, prefixBits := 6 }
  | .insertLiteral => { pattern := 0x40, mask := 0xc0, prefixBits := 5 }
  | .duplicate => { pattern := 0x00, mask := 0xe0, prefixBits := 5 }

def decSpec : QpackDecKind → InstrSpec
  | .sectionAck => { pattern := 0x80, mask := 0x80, prefixBits := 7 }
  | .streamCancel => { pattern := 0x40, mask := 0xc0, prefixBits := 6 }
  | .insertCount => { pattern := 0x00, mask := 0xc0, prefixBits := 6 }

def encKinds : List QpackEncKind := [.setCapacity, .insertNameRef, .insertLiteral, .duplicate]

def decKinds : List QpackDecKind := [.sectionAck, .streamCancel, .insertCount]

def instrEncode (cap : Nat) (s : InstrSpec) (value : Nat) : Option (List UInt8) :=
  qpackIntEncode cap s.prefixBits s.pattern value

def specMatches (s : InstrSpec) (b : UInt8) : Bool := b &&& s.mask = s.pattern

section

variable {κ : Type} (kinds : List κ) (spec : κ → InstrSpec)

def specClassify (b : UInt8) : Option κ := kinds.find? fun k => specMatches (spec k) b

def instrDecode (buf : List UInt8) : Option ((κ × Nat) × Nat) :=
  buf.head?.bind fun b => (specClassify kinds spec b).bind fun k =>
    (qpackIntDecode (spec k).prefixBits buf).map fun r => ((k, r.1), r.2)

theorem instrDecode_stable : Stable (instrDecode kinds spec) := by
  refine Stable.byHead fun b => ?_
  cases specClassify kinds spec b with
  | none => exact ⟨⟨nofun, nofun⟩, nofun⟩
  | some k => exact (qpackIntDecode_stable (spec k).prefixBits).map fun v => (k, v)

variable {kinds spec} in
theorem instrDecode_int {buf : List UInt8} {k : κ} {v n : Nat}
    (h : instrDecode kinds spec buf = some ((k, v), n)) :
    qpackIntDecode (spec k).prefixBits buf = some (v, n) := by
  obtain ⟨b, -, hb⟩ := bind_eq_some_iff.mp h
  obtain ⟨k', -, hk⟩ := bind_eq_some_iff.mp hb
  obtain ⟨r, hr, he⟩ := map_eq_some_iff.mp hk
  cases he
  exact hr

/-- A kind whose pattern is told apart from the others', whatever the integer's bits are. -/
def Recognised (k : κ) : Prop :=
  PatternFree (spec k).prefixBits (spec k).pattern ∧
    ∀ x < 2 ^ (spec k).prefixBits,
      specClassify kinds spec ((spec k).pattern ||| UInt8.ofNat x) = some k

variable {kinds spec}

theorem instrDecode_encode {k : κ} {cap value : Nat} {bytes : List UInt8}
    (hk : Recognised kinds spec k) (hvalue : value < 2 ^ 63)
    (h : instrEncode cap (spec k) value = some bytes) (rest : List UInt8) :
    instrDecode kinds spec (bytes ++ rest) = some ((k, value), bytes.length) := by
  have hint := qpackIntDecode_encode hk.1 hvalue h rest
  obtain ⟨x, hx, hhead⟩ := qpackIntEncode_head h
  simp only [instrDecode, hhead rest, bind_some, hk.2 x hx, hint, map_some]

end

def qpackEncInstrEncode (cap : Nat) (kind : QpackEncKind) (value : Nat) : Option (List UInt8) :=
  instrEncode cap (encSpec kind) value

def qpackEncInstrDecode (buf : List UInt8) : Option ((QpackEncKind × Nat) × Nat) :=
  instrDecode encKinds encSpec buf

def qpackDecInstrEncode (cap : Nat) (kind : QpackDecKind) (value : Nat) : Option (List UInt8) :=
  instrEncode cap (decSpec kind) value

def qpackDecInstrDecode (buf : List UInt8) : Option ((QpackDecKind × Nat) × Nat) :=
  instrDecode decKinds decSpec buf

theorem encKind_recognised (kind : QpackEncKind) : Recognised encKinds encSpec kind := by
  unfold Recognised PatternFree
  cases kind <;> decide +kernel

theorem decKind_recognised (kind : QpackDecKind) : Recognised decKinds decSpec kind := by
  unfold Recognised PatternFree
  cases kind <;> decide +kernel

end Wired.Qpack
