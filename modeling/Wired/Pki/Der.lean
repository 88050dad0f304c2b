import Wired.Lib.Decoder

/-!
# DER elements

Reading one element (`der.c`) and walking the elements of a constructed one (`derseq.c`). A span is
the list of its bytes, a cursor the bytes that are ahead of it. Every loop of the form
`while (derseq_next(&c, &tag, &e))` sees the elements `derseqElements`: those that can be read one
after the other, up to the first one that cannot. `DerWhole` says that none was left out.
-/

namespace Wired.Pki

open Lib

def derOid : UInt8 := 0x06
def derOctetString : UInt8 := 0x04
def derSequence : UInt8 := 0x30

/-- The number of length octets behind the leading one; 0 where the form is not supported. -/
def derLongN (lead : UInt8) : ℕ :=
  if lead = 0x81 then 1 else if lead = 0x82 then 2 else 0

def derLongVal (p : List UInt8) (nbytes : ℕ) : ℕ :=
  ((p.drop 1).take nbytes).foldl (fun v b => (v <<< 8) ||| b.toNat) 0

def derLongBad (nb lp : ℕ) : Bool := nb == 0 || lp < 1 + nb

def derLongNonminimal (nb len : ℕ) : Bool :=
  if nb = 1 then len < 0x80 else len < 0x100

/-- The length and the number of octets of the length field, in the long form. -/
def derLenLong (lf : List UInt8) : Option (ℕ × ℕ) :=
  let nb := derLongN (lf.headD 0)
  if derLongBad nb lf.length then none
  else
    let len := derLongVal lf nb
    if derLongNonminimal nb len then none else some (len, 1 + nb)

def derLen : List UInt8 → Option (ℕ × ℕ)
  | [] => none
  | lead :: lf => if lead < 0x80 then some (lead.toNat, 1) else derLenLong (lead :: lf)

def derHeader (buf : List UInt8) : Option (ℕ × ℕ) :=
  if buf.length < 2 then none
  else (derLen (buf.drop 1)).map fun r => (r.1, 1 + r.2)

def derRead (buf : List UInt8) : Option ((UInt8 × List UInt8) × ℕ) :=
  match derHeader buf with
  | none => none
  | some (len, head) =>
    if buf.length - head < len then none
    else some ((buf.headD 0, (buf.drop head).take len), head + len)

def derSeq (buf : List UInt8) : Option (List UInt8) :=
  match derRead buf with
  | some ((tag, val), _) => if tag = derSequence then some val else none
  | none => none

/-- The element at the cursor, and the cursor behind it. -/
def derseqNext (c : List UInt8) : Option ((UInt8 × List UInt8) × List UInt8) :=
  (derRead c).map fun r => (r.1, c.drop r.2)

def derseqNextTagged (c : List UInt8) (want : UInt8) : Option (List UInt8 × List UInt8) :=
  match derseqNext c with
  | some ((tag, val), c) => if tag = want then some (val, c) else none
  | none => none

def derseqSkip : ℕ → List UInt8 → Option (List UInt8)
  | 0, c => some c
  | n + 1, c => (derseqNext c).bind fun r => derseqSkip n r.2

def derseqElements (seq : List UInt8) : List (UInt8 × List UInt8) := (decodeAll derRead seq).1

/-- The walk reads the whole span: no element of it is malformed. -/
def DerWhole (seq : List UInt8) : Prop := (decodeAll derRead seq).2 = seq.length
deriving Decidable

end Wired.Pki
