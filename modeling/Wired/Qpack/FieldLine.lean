import Wired.Qpack.StaticTable
import Wired.Qpack.StringLiteral

/-!
# Field section prefixes and field lines

`prefix.c`, `fieldline.c` and `literal.c`: the two integers ahead of a field section, and the
forms a field line can have. A form is told by the high bits of the first byte; the integer in
the bits below is an index into a table, or the length of a name.
-/

namespace Wired.Qpack

open Lib Option List

/-! ## The section prefix -/

/-- The prefix of a field section. -/
structure QpackPrefix where
  requiredInsertCount : Nat
  sign : Bool
  deltaBase : Nat
deriving DecidableEq, Repr

def prefixSignBit : UInt8 := 0x80

def signPattern (sign : Bool) : UInt8 := if sign then prefixSignBit else 0

def qpackPrefixEncode (cap : Nat) (p : QpackPrefix) : Option (List UInt8) :=
  (qpackIntEncode cap 8 0 p.requiredInsertCount).bind fun ric =>
    (qpackIntEncode (cap - ric.length) 7 (signPattern p.sign) p.deltaBase).map fun db => ric ++ db

/-- The Sign and the Delta Base, from what follows the Required Insert Count. -/
def takeDeltaBase (ric : Nat) (rest : List UInt8) : Option (QpackPrefix × Nat) :=
  (qpackIntDecode 7 rest).map fun r =>
    ({ requiredInsertCount := ric, sign := rest.headD 0 &&& prefixSignBit ≠ 0,
       deltaBase := r.1 }, r.2)

def qpackPrefixDecode (buf : List UInt8) : Option (QpackPrefix × Nat) :=
  Stable.andThen (qpackIntDecode 8) takeDeltaBase buf

/-! ## The forms of a field line -/

/-- A form whose first byte has the bits `pattern` under `mask`: that byte, and the integer below.
-/
def lineHead (mask pattern : UInt8) (bits : Nat) (buf : List UInt8) :
    Option ((UInt8 × Nat) × Nat) :=
  buf.head?.bind fun b =>
    if b &&& mask = pattern then (qpackIntDecode bits buf).map fun r => ((b, r.1), r.2) else none

def flag (b mask : UInt8) : Bool := b &&& mask ≠ 0

def bit (set : Bool) (mask : UInt8) : UInt8 := if set then mask else 0

def qpackIndexedEncode (cap index : Nat) (isStatic : Bool) : Option (List UInt8) :=
  qpackIntEncode cap 6 (0x80 ||| bit isStatic 0x40) index

/-- The index, and whether it is one of the static table. -/
def qpackIndexedDecode (buf : List UInt8) : Option ((Nat × Bool) × Nat) :=
  (lineHead 0x80 0x80 6 buf).map fun r => ((r.1.2, flag r.1.1 0x40), r.2)

def qpackIndexedPostbaseEncode (cap postbase : Nat) : Option (List UInt8) :=
  qpackIntEncode cap 4 0x10 postbase

def qpackIndexedPostbaseDecode (buf : List UInt8) : Option (Nat × Nat) :=
  (lineHead 0xf0 0x10 4 buf).map fun r => (r.1.2, r.2)

/-- An index for a name, with the flags beside it. -/
structure QpackNameref where
  index : Nat
  isStatic : Bool
  never : Bool
deriving DecidableEq, Repr

def namrefPattern (r : QpackNameref) : UInt8 := 0x40 ||| bit r.never 0x20 ||| bit r.isStatic 0x10

def qpackLiteralNamrefEncode (cap : Nat) (r : QpackNameref) (value : List UInt8) :
    Option (List UInt8) :=
  (qpackIntEncode cap 4 (namrefPattern r) r.index).bind fun head =>
    (qpackStringEncode (cap - head.length) value).map fun v => head ++ v

def qpackLiteralNamrefHead (buf : List UInt8) : Option (QpackNameref × Nat) :=
  (lineHead 0xc0 0x40 4 buf).map fun r =>
    ({ index := r.1.2, isStatic := flag r.1.1 0x10, never := flag r.1.1 0x20 }, r.2)

def qpackLiteralNameEncode (cap : Nat) (never : Bool) (f : Field) : Option (List UInt8) :=
  (qpackStringEncodePfx cap 3 (0x20 ||| bit never 0x10) f.name).bind fun name =>
    (qpackStringEncode (cap - name.length) f.value).map fun v => name ++ v

/-- The same, counted from the Base. -/
structure QpackPostbaseref where
  index : Nat
  never : Bool
deriving DecidableEq, Repr

def postbaserefPattern (r : QpackPostbaseref) : UInt8 := 0x00 ||| bit r.never 0x08

def qpackLiteralPostbaseEncode (cap : Nat) (r : QpackPostbaseref) (value : List UInt8) :
    Option (List UInt8) :=
  (qpackIntEncode cap 3 (postbaserefPattern r) r.index).bind fun head =>
    (qpackStringEncode (cap - head.length) value).map fun v => head ++ v

def qpackLiteralPostbaseHead (buf : List UInt8) : Option (QpackPostbaseref × Nat) :=
  (lineHead 0xf0 0x00 3 buf).map fun r => ({ index := r.1.2, never := flag r.1.1 0x08 }, r.2)

def decodeValue {α : Type} (cap : Nat) (a : α) (rest : List UInt8) :
    Option ((α × List UInt8) × Nat) :=
  (qpackStringDecode cap rest).map fun r => ((a, r.1), r.2)

def qpackLiteralNamrefDecode (cap : Nat) (buf : List UInt8) :
    Option ((QpackNameref × List UInt8) × Nat) :=
  Stable.andThen qpackLiteralNamrefHead (decodeValue cap) buf

def qpackLiteralPostbaseDecode (cap : Nat) (buf : List UInt8) :
    Option ((QpackPostbaseref × List UInt8) × Nat) :=
  Stable.andThen qpackLiteralPostbaseHead (decodeValue cap) buf

/-- A name with a three bit length, the Huffman flag above it, and its value. -/
def qpackLiteralNameDecode (nameCap valueCap : Nat) (buf : List UInt8) :
    Option ((Bool × Field) × Nat) :=
  buf.head?.bind fun b =>
    if b &&& 0xe0 = 0x20 then
      (Stable.andThen (qpackStringDecodePfx 3 nameCap) (decodeValue valueCap) buf).map fun r =>
        ((flag b 0x10, { name := r.1.1, value := r.1.2 }), r.2)
    else none

/-! ## Round trips -/

/-- The bits of an integer leave the pattern under the mask as it is. -/
def PatternUnder (bits : Nat) (pattern mask : UInt8) : Prop :=
  ∀ x < 2 ^ bits, (pattern ||| UInt8.ofNat x) &&& mask = pattern &&& mask

variable {cap room : Nat} {bytes value : List UInt8}

theorem lineHead_encode {bits value : Nat} {pattern mask under : UInt8}
    (hfree : PatternFree bits pattern) (hmask : PatternUnder bits pattern mask)
    (hpat : pattern &&& mask = under) (hvalue : value < 2 ^ 63)
    (h : qpackIntEncode cap bits pattern value = some bytes) :
    ∃ x < 2 ^ bits, ∀ rest, lineHead mask under bits (bytes ++ rest) =
      some ((pattern ||| UInt8.ofNat x, value), bytes.length) := by
  obtain ⟨x, hx, hhead⟩ := qpackIntEncode_head h
  refine ⟨x, hx, fun rest => ?_⟩
  have hint := qpackIntDecode_encode hfree hvalue h rest
  simp only [lineHead, hhead rest, bind_some, hmask x hx, hpat, if_true, hint, map_some]

theorem qpackIndexedDecode_encode {index : Nat} {isStatic : Bool} (hindex : index < 2 ^ 63)
    (h : qpackIndexedEncode cap index isStatic = some bytes) (rest : List UInt8) :
    qpackIndexedDecode (bytes ++ rest) = some ((index, isStatic), bytes.length) := by
  have hfree : PatternFree 6 (0x80 ||| bit isStatic 0x40) := by
    cases isStatic <;> exact patternFree_of_mod (by decide) rfl
  have hmask : PatternUnder 6 (0x80 ||| bit isStatic 0x40) 0x80 := by
    unfold PatternUnder
    cases isStatic <;> decide +kernel
  have hflag : ∀ x < 2 ^ 6, flag (0x80 ||| bit isStatic 0x40 ||| UInt8.ofNat x) 0x40 = isStatic := by
    cases isStatic <;> decide +kernel
  have hpat : (0x80 ||| bit isStatic 0x40) &&& 0x80 = 0x80 := by cases isStatic <;> rfl
  obtain ⟨x, hx, hhead⟩ := lineHead_encode hfree hmask hpat hindex h
  simp only [qpackIndexedDecode, hhead rest, map_some, hflag x hx]

theorem qpackLiteralNamrefHead_encode {r : QpackNameref} (hindex : r.index < 2 ^ 63)
    (h : qpackIntEncode cap 4 (namrefPattern r) r.index = some bytes) (rest : List UInt8) :
    qpackLiteralNamrefHead (bytes ++ rest) = some (r, bytes.length) := by
  obtain ⟨index, isStatic, never⟩ := r
  have hfree : PatternFree 4 (0x40 ||| bit never 0x20 ||| bit isStatic 0x10) := by
    cases isStatic <;> cases never <;> exact patternFree_of_mod (by decide) rfl
  have hmask : PatternUnder 4 (0x40 ||| bit never 0x20 ||| bit isStatic 0x10) 0xc0 := by
    unfold PatternUnder
    cases isStatic <;> cases never <;> decide +kernel
  have hflags : ∀ x < 2 ^ 4,
      flag (0x40 ||| bit never 0x20 ||| bit isStatic 0x10 ||| UInt8.ofNat x) 0x10 = isStatic ∧
        flag (0x40 ||| bit never 0x20 ||| bit isStatic 0x10 ||| UInt8.ofNat x) 0x20 = never := by
    cases isStatic <;> cases never <;> decide +kernel
  have hpat : (0x40 ||| bit never 0x20 ||| bit isStatic 0x10) &&& 0xc0 = 0x40 := by
    cases isStatic <;> cases never <;> rfl
  obtain ⟨x, hx, hhead⟩ := lineHead_encode hfree hmask hpat hindex h
  simp only [qpackLiteralNamrefHead, hhead rest, map_some, hflags x hx]

theorem qpackIndexedPostbaseDecode_encode {postbase : Nat} (hindex : postbase < 2 ^ 63)
    (h : qpackIndexedPostbaseEncode cap postbase = some bytes) :
    Codes qpackIndexedPostbaseDecode bytes postbase := by
  have hmask : PatternUnder 4 0x10 0xf0 := by unfold PatternUnder; decide +kernel
  have hpat : (0x10 : UInt8) &&& 0xf0 = 0x10 := rfl
  obtain ⟨x, -, hhead⟩ := lineHead_encode (patternFree_of_mod (by decide) rfl) hmask hpat hindex h
  intro rest
  simp only [qpackIndexedPostbaseDecode, hhead rest, map_some]

theorem qpackLiteralPostbaseHead_encode {r : QpackPostbaseref} (hindex : r.index < 2 ^ 63)
    (h : qpackIntEncode cap 3 (postbaserefPattern r) r.index = some bytes) :
    Codes qpackLiteralPostbaseHead bytes r := by
  obtain ⟨index, never⟩ := r
  have hfree : PatternFree 3 (0x00 ||| bit never 0x08) := by
    cases never <;> exact patternFree_of_mod (by decide) rfl
  have hmask : PatternUnder 3 (0x00 ||| bit never 0x08) 0xf0 := by
    unfold PatternUnder
    cases never <;> decide +kernel
  have hflag : ∀ x < 2 ^ 3, flag (0x00 ||| bit never 0x08 ||| UInt8.ofNat x) 0x08 = never := by
    cases never <;> decide +kernel
  have hpat : (0x00 ||| bit never 0x08) &&& 0xf0 = 0x00 := by cases never <;> rfl
  obtain ⟨x, hx, hhead⟩ := lineHead_encode hfree hmask hpat hindex h
  intro rest
  simp only [qpackLiteralPostbaseHead, hhead rest, map_some, hflag x hx]

theorem qpackStringDecode_codes {src : List UInt8} (hlen : src.length < 2 ^ 63)
    (hroom : src.length ≤ room) (h : qpackStringEncode cap src = some bytes) :
    Codes (qpackStringDecode room) bytes src :=
  qpackStringDecode_encode (stringPattern_of_mod (by decide) rfl) hlen hroom h

theorem decodeValue_codes {α : Type} {d : List UInt8 → Option (α × Nat)} {head : List UInt8} {a : α}
    (hhead : Codes d head a) (hlen : value.length < 2 ^ 63) (hroom : value.length ≤ room)
    (h : qpackStringEncode cap value = some bytes) :
    Codes (Stable.andThen d (decodeValue room)) (head ++ bytes) (a, value) := by
  apply hhead.then_
  intro rest
  rw [decodeValue, qpackStringDecode_codes hlen hroom h rest, map_some]

theorem qpackLiteralNamrefDecode_encode {r : QpackNameref} (hindex : r.index < 2 ^ 63)
    (hlen : value.length < 2 ^ 63) (hroom : value.length ≤ room)
    (h : qpackLiteralNamrefEncode cap r value = some bytes) :
    Codes (qpackLiteralNamrefDecode room) bytes (r, value) := by
  obtain ⟨head, hhead, hvalue⟩ := bind_eq_some_iff.mp h
  obtain ⟨v, hv, rfl⟩ := map_eq_some_iff.mp hvalue
  exact decodeValue_codes (qpackLiteralNamrefHead_encode hindex hhead) hlen hroom hv

theorem qpackLiteralPostbaseDecode_encode {r : QpackPostbaseref} (hindex : r.index < 2 ^ 63)
    (hlen : value.length < 2 ^ 63) (hroom : value.length ≤ room)
    (h : qpackLiteralPostbaseEncode cap r value = some bytes) :
    Codes (qpackLiteralPostbaseDecode room) bytes (r, value) := by
  obtain ⟨head, hhead, hvalue⟩ := bind_eq_some_iff.mp h
  obtain ⟨v, hv, rfl⟩ := map_eq_some_iff.mp hvalue
  exact decodeValue_codes (qpackLiteralPostbaseHead_encode hindex hhead) hlen hroom hv

theorem qpackLiteralNameDecode_encode {nameRoom valueRoom : Nat} {never : Bool} {f : Field}
    (hname : f.name.length < 2 ^ 63) (hvalue : f.value.length < 2 ^ 63)
    (hnameRoom : f.name.length ≤ nameRoom) (hvalueRoom : f.value.length ≤ valueRoom)
    (h : qpackLiteralNameEncode cap never f = some bytes) :
    Codes (qpackLiteralNameDecode nameRoom valueRoom) bytes (never, f) := by
  obtain ⟨head, hhead, hmap⟩ := bind_eq_some_iff.mp h
  obtain ⟨v, hv, rfl⟩ := map_eq_some_iff.mp hmap
  have hpat : StringPattern 3 (0x20 ||| bit never 0x10) := by
    cases never <;> exact stringPattern_of_mod (by decide) rfl
  have hcodes := decodeValue_codes
    (qpackStringDecode_encode hpat hname hnameRoom hhead) hvalue hvalueRoom hv
  -- the flags are above the name's length and its Huffman flag
  have hflags : ∀ x < 2 ^ 3, ∀ b, b = 0x20 ||| bit never 0x10 ||| UInt8.ofNat x ∨
      b = withHuffman 3 (0x20 ||| bit never 0x10) ||| UInt8.ofNat x →
      b &&& 0xe0 = 0x20 ∧ flag b 0x10 = never := by
    cases never <;> simp only [forall_eq_or_imp, forall_eq] <;> decide +kernel
  obtain ⟨x, hx, hfirst⟩ := qpackStringEncodePfx_head hhead
  obtain ⟨b, hb, hform⟩ : ∃ b, head.head? = some b ∧
      (b = 0x20 ||| bit never 0x10 ||| UInt8.ofNat x ∨
        b = withHuffman 3 (0x20 ||| bit never 0x10) ||| UInt8.ofNat x) := by
    obtain hfirst | hfirst := hfirst
    · exact ⟨_, hfirst, .inl rfl⟩
    · exact ⟨_, hfirst, .inr rfl⟩
  obtain ⟨hmask, hflag⟩ := hflags x hx b hform
  intro rest
  have hbuf : (head ++ v ++ rest).head? = some b := by
    rw [append_assoc, head?_append, hb]
    rfl
  rw [qpackLiteralNameDecode, hbuf, bind_some, if_pos hmask, hcodes rest, map_some, hflag]

theorem qpackPrefixDecode_codes {p : QpackPrefix} (hric : p.requiredInsertCount < 2 ^ 63)
    (hdelta : p.deltaBase < 2 ^ 63) (h : qpackPrefixEncode cap p = some bytes) :
    Codes qpackPrefixDecode bytes p := by
  obtain ⟨ric, sign, delta⟩ := p
  obtain ⟨first, hfirst, hsecond⟩ := bind_eq_some_iff.mp h
  obtain ⟨second, hdb, rfl⟩ := map_eq_some_iff.mp hsecond
  have hfree : PatternFree 7 (signPattern sign) := by
    cases sign <;> exact patternFree_of_mod (by decide) rfl
  have hsign : ∀ x < 2 ^ 7,
      decide ((signPattern sign ||| UInt8.ofNat x) &&& prefixSignBit ≠ 0) = sign := by
    cases sign <;> decide +kernel
  have hric' : Codes (qpackIntDecode 8) first ric :=
    qpackIntDecode_encode (patternFree_of_mod (by decide) rfl) hric hfirst
  apply hric'.then_
  intro rest
  obtain ⟨x, hx, hhead⟩ := qpackIntEncode_head hdb
  have hheadD : (second ++ rest).headD 0 = signPattern sign ||| UInt8.ofNat x := by
    rw [headD_eq_head?_getD, hhead rest]
    rfl
  rw [takeDeltaBase, qpackIntDecode_encode hfree hdelta hdb rest, hheadD, map_some, hsign x hx]

theorem qpackPrefixDecode_encode {ric : Nat} (hric : ric < 2 ^ 63)
    (h : qpackPrefixEncode cap ⟨ric, false, 0⟩ = some bytes) (rest : List UInt8) :
    qpackPrefixDecode (bytes ++ rest) = some (⟨ric, false, 0⟩, bytes.length) :=
  qpackPrefixDecode_codes hric (Nat.two_pow_pos 63) h rest

end Wired.Qpack
