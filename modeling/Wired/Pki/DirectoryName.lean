import Wired.Pki.HostName

/-!
# Directory names

Comparing distinguished names as the name constraints do (`dirstring.c`, `dirstring_atv.c`): one
name is a leading part of another, relative name by relative name, where two values are the same up
to the case of ASCII letters and to insignificant spaces.
-/

namespace Wired.Pki

/-- A cursor over a DirectoryString: the bytes ahead, and whether it has given a character. -/
structure DirstringCursor where
  ahead : List UInt8
  emitted : Bool

def isSpace (c : UInt8) : Bool := c == 0x20

def hasNonAscii (s : List UInt8) : Bool := s.any fun c => c &&& 0x80 != 0

def cursorNextChar : List UInt8 → Option (UInt8 × DirstringCursor)
  | [] => none
  | c :: ahead => some (asciiLower c, ⟨ahead, true⟩)

/-- A run of spaces gives nothing at the beginning and at the end, and one space between. -/
def cursorNextSpace (c : DirstringCursor) : Option (UInt8 × DirstringCursor) :=
  let ahead := c.ahead.dropWhile isSpace
  if !c.emitted then cursorNextChar ahead
  else if ahead = [] then none
  else some (0x20, ⟨ahead, true⟩)

def cursorNext (c : DirstringCursor) : Option (UInt8 × DirstringCursor) :=
  if c.ahead.head?.any isSpace then cursorNextSpace c else cursorNextChar c.ahead

/-- The characters of a cursor, at most as many as the fuel. Each takes at least one byte. -/
def cursorChars : ℕ → DirstringCursor → List UInt8
  | 0, _ => []
  | n + 1, c =>
    match cursorNext c with
    | some (x, c) => x :: cursorChars n c
    | none => []

def cursorsEqual (a b : DirstringCursor) : Bool :=
  cursorChars a.ahead.length a == cursorChars b.ahead.length b

def x509DirstringCiEqual (a b : List UInt8) : Bool :=
  if hasNonAscii a || hasNonAscii b then a == b
  else cursorsEqual ⟨a, false⟩ ⟨b, false⟩

def atvParts (atv : List UInt8) : Option (List UInt8 × List UInt8) :=
  (derseqNextTagged atv derOid).bind fun r => (derseqNext r.2).map fun v => (r.1, v.1.2)

def atvCiEqual (a b : List UInt8) : Bool :=
  match atvParts a, atvParts b with
  | some (oidA, valA), some (oidB, valB) => oidA == oidB && x509DirstringCiEqual valA valB
  | _, _ => false

/-- As many elements on both sides, and each pair is equal. -/
def parallelEqual (elemEq : List UInt8 → List UInt8 → Bool) :
    List (UInt8 × List UInt8) → List (UInt8 × List UInt8) → Bool
  | [], [] => true
  | a :: as, b :: bs => elemEq a.2 b.2 && parallelEqual elemEq as bs
  | _, _ => false

def parallelSeqEqual (a b : List UInt8) (elemEq : List UInt8 → List UInt8 → Bool) : Bool :=
  parallelEqual elemEq (derseqElements a) (derseqElements b)

/-- Each element on the left is equal to the one at its place on the right. -/
def prefixEqual (elemEq : List UInt8 → List UInt8 → Bool) :
    List (UInt8 × List UInt8) → List (UInt8 × List UInt8) → Bool
  | [], _ => true
  | a :: as, b :: bs => elemEq a.2 b.2 && prefixEqual elemEq as bs
  | _ :: _, [] => false

/-- A malformed element on the left rejects. -/
def prefixSeqEqual (a b : List UInt8) (elemEq : List UInt8 → List UInt8 → Bool) : Bool :=
  decide (DerWhole a) && prefixEqual elemEq (derseqElements a) (derseqElements b)

def rdnCiEqual (a b : List UInt8) : Bool := parallelSeqEqual a b atvCiEqual

def x509DnPrefixCi (base name : List UInt8) : Bool :=
  match derSeq base, derSeq name with
  | some seqB, some seqN => prefixSeqEqual seqB seqN rdnCiEqual
  | _, _ => false

end Wired.Pki
