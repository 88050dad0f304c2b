import Mathlib.Algebra.Group.Nat.Defs
import Wired.Lib.Parser

/-!
# The dictionary parser of structured fields

The walk over an sf-dictionary (`sfield_dict.c`, `sfield_dict_bare.c`). The iterator is the part of
the field value that its cursor has not passed; a function that returns 0 fails. Where the source
looks at the byte ahead and gets `-1` at the end, the model gets `none`, which is in no class of
bytes.
-/

namespace Wired.Http3

open Lib

namespace Sfield

def sp : UInt8 := 0x20
def htab : UInt8 := 0x09
def dquote : UInt8 := 0x22
def lparen : UInt8 := 0x28
def rparen : UInt8 := 0x29
def star : UInt8 := 0x2a
def comma : UInt8 := 0x2c
def minus : UInt8 := 0x2d
def dot : UInt8 := 0x2e
def colon : UInt8 := 0x3a
def semicolon : UInt8 := 0x3b
def equals : UInt8 := 0x3d
def question : UInt8 := 0x3f
def backslash : UInt8 := 0x5c

end Sfield

open Sfield

/-- A member's value, as far as callers read one. -/
inductive SfieldItem
  | other
  | integer (neg : Bool) (num : ℕ)
  | boolean (num : Bool)
  deriving DecidableEq, Repr

abbrev SfieldIter (α : Type) : Type := Parser UInt8 α

def sfdPeek : SfieldIter (Option UInt8) := Parser.peek

def sfdTake : SfieldIter (Option UInt8) := Parser.take

def sfdEat (c : UInt8) : SfieldIter Bool := Parser.eat c

def sfdIn (c : UInt8) (set : List UInt8) : Bool := set.contains c

def sfdSkip (set : List UInt8) : SfieldIter Unit := do
  let _ ← Parser.span (sfdIn · set)
  pure ()

def sfdLcalpha (c : UInt8) : Bool := 0x61 ≤ c && c ≤ 0x7a

def sfdDigit (c : UInt8) : Bool := 0x30 ≤ c && c ≤ 0x39

def sfdAlnum (c : UInt8) : Bool := sfdLcalpha (c ||| 0x20) || sfdDigit c

def sfdKeyStart (c : UInt8) : Bool := sfdLcalpha c || c == star

def sfdKeyChar (c : UInt8) : Bool :=
  sfdLcalpha c || sfdDigit c || sfdIn c [0x5f, 0x2d, 0x2e, 0x2a] -- `_-.*`

def sfdKey : SfieldIter (List UInt8) := do
  if (← sfdPeek).any sfdKeyStart then Parser.span sfdKeyChar else failure

/-- The value of a run of digits, as the `u64` of the source adds it up. -/
def sfdDigitsVal (ds : List UInt8) : ℕ :=
  ds.foldl (fun val c => (val * 10 + (c.toNat - 0x30)) % 2 ^ 64) 0

def sfdDigits : SfieldIter (ℕ × ℕ) := do
  let ds ← Parser.span sfdDigit
  pure (sfdDigitsVal ds, ds.length)

def sfdDecimal (intN : ℕ) : SfieldIter SfieldItem := do
  let frac ← sfdDigits
  if intN ≤ 12 && 1 ≤ frac.2 && frac.2 ≤ 3 then pure .other else failure

def sfdNumber : SfieldIter SfieldItem := do
  let neg ← sfdEat minus
  let num ← sfdDigits
  if num.2 == 0 then failure
  else if ← sfdEat dot then sfdDecimal num.2
  else if num.2 ≤ 15 then pure (.integer neg num.1)
  else failure

def sfdBool : SfieldIter SfieldItem := do
  let _ ← sfdTake -- the `?`
  let c ← sfdTake
  if c == some 0x30 || c == some 0x31 then pure (.boolean (c == some 0x31)) else failure

def sfdPrintable (c : UInt8) : Bool := 0x20 ≤ c && c < 0x7f

def sfdEsc (c : UInt8) : Bool := c == dquote || c == backslash

/-- One string byte: done at the closing DQUOTE, not done after content. -/
def sfdStrStep : SfieldIter Bool := do
  let c ← sfdTake
  if c == some dquote then pure true
  else if c == some backslash then
    if (← sfdTake).any sfdEsc then pure false else failure
  else if c.any sfdPrintable then pure false
  else failure

def sfdString : SfieldIter Unit := do
  let _ ← sfdTake -- the opening DQUOTE
  Parser.untilDone sfdStrStep

def sfdB64 (c : UInt8) : Bool := sfdAlnum c || sfdIn c [0x2b, 0x2f, 0x3d] -- `+/=`

def sfdBytes : SfieldIter Unit := do
  let _ ← sfdTake -- the opening `:`
  let _ ← Parser.span sfdB64
  if ← sfdEat colon then pure () else failure

def sfdTokStart (c : UInt8) : Bool := sfdLcalpha (c ||| 0x20) || c == star

def sfdTokChar (c : UInt8) : Bool :=
  -- !#$%&' *+-.^ _`|~:/
  sfdAlnum c || sfdIn c [0x21, 0x23, 0x24, 0x25, 0x26, 0x27, 0x2a, 0x2b, 0x2d, 0x2e, 0x5e, 0x5f,
    0x60, 0x7c, 0x7e, 0x3a, 0x2f]

def sfdToken : SfieldIter Unit := do
  if (← sfdPeek).any sfdTokStart then
    let _ ← Parser.span sfdTokChar
    pure ()
  else failure

def sfdBareText (c : Option UInt8) : SfieldIter Unit :=
  if c == some dquote then sfdString
  else if c == some colon then sfdBytes
  else sfdToken

def sfdBareOther (c : Option UInt8) : SfieldIter SfieldItem :=
  if c == some question then sfdBool
  else do
    sfdBareText c
    pure .other -- the kind `sfd_bare` has set

def sfdBare : SfieldIter SfieldItem := do
  let c ← sfdPeek
  if c == some minus || c.any sfdDigit then sfdNumber else sfdBareOther c

def sfdParam : SfieldIter Unit := do
  sfdSkip [sp]
  let _ ← sfdKey
  if ← sfdEat equals then
    let _ ← sfdBare
    pure ()
  else pure ()

def sfdParams : SfieldIter Unit := Parser.whileEat semicolon sfdParam

def sfdItem : SfieldIter SfieldItem := do
  let v ← sfdBare
  sfdParams
  pure v

def sfdInnerSep (c : Option UInt8) : Bool := c == some sp || c == some rparen

/-- One position of an inner list: done at the closing `)`, not done after an item. -/
def sfdInnerStep : SfieldIter Bool := do
  sfdSkip [sp]
  if ← sfdEat rparen then pure true
  else
    let _ ← sfdItem
    if sfdInnerSep (← sfdPeek) then pure false else failure

def sfdInner : SfieldIter SfieldItem := do
  let _ ← sfdTake -- the `(`
  Parser.untilDone sfdInnerStep
  sfdParams
  pure .other

def sfdValue : SfieldIter SfieldItem := do
  if (← sfdPeek) == some lparen then sfdInner else sfdItem

/-- A key and its value; a bare key is Boolean true. -/
def sfdMember : SfieldIter (List UInt8 × SfieldItem) := do
  let k ← sfdKey
  if ← sfdEat equals then
    let v ← sfdValue
    pure (k, v)
  else
    sfdParams
    pure (k, .boolean true)

/-- Behind a member: the end, or a comma that a member follows. -/
def sfdAfterMember : SfieldIter Unit := do
  sfdSkip [sp, htab]
  if (← sfdPeek) == none then pure ()
  else if ← sfdEat comma then
    sfdSkip [sp, htab]
    if (← sfdPeek) == none then failure else pure ()
  else failure

def sfdMemberSep : SfieldIter (List UInt8 × SfieldItem) := do
  let m ← sfdMember
  sfdAfterMember
  pure m

/-- What a call of `sfield_dict_next` returns: 0, 1 with the member and the iterator, or -1. -/
inductive DictNext
  | done
  | member (m : List UInt8 × SfieldItem) (it : List UInt8)
  | invalid
  deriving DecidableEq, Repr

def sfieldDictNext (it : List UInt8) : DictNext :=
  let it := it.dropWhile (sfdIn · [sp])
  if it = [] then .done
  else match sfdMemberSep it with
    | some (m, it) => .member m it
    | none => .invalid

/-- A caller's walk: call after call until one does not give a member. The members, and whether the
walk ended without a syntax error; `none` while the calls are not enough. -/
def sfieldDictWalk : ℕ → List UInt8 → Option (List (List UInt8 × SfieldItem) × Bool)
  | 0, _ => none
  | calls + 1, it =>
    match sfieldDictNext it with
    | .done => some ([], true)
    | .invalid => some ([], false)
    | .member m it => (sfieldDictWalk calls it).map fun r => (m :: r.1, r.2)

end Wired.Http3
