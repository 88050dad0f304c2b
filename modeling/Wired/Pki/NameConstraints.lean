import Wired.Pki.DirectoryName
import Wired.Pki.SubjectAltName

/-!
# Name constraints

The check of a certificate against the nameConstraints extension of an issuer
(`x509_name_constraints_admit`), and what it means for the hosts that the certificate is then
accepted for.
-/

namespace Wired.Pki

def ncPermittedTag : UInt8 := 0xa0
def ncExcludedTag : UInt8 := 0xa1
def ncDnsnameTag : UInt8 := 0x82
def ncDirectorynameTag : UInt8 := 0xa4
def ncUriTag : UInt8 := 0x86
def ncIpaddrTag : UInt8 := 0x87
def x509NcSubtreesMax : ℕ := 256

/-- 2.5.29.30, nameConstraints. -/
def oidNameConstraints : List UInt8 := [0x55, 0x1d, 0x1e]

/-- 2.5.29.17, subjectAltName. -/
def ncOidSan : List UInt8 := [0x55, 0x1d, 0x11]

abbrev NcMatcher : Type := List UInt8 → List UInt8 → Bool

/-! ## Subtrees -/

/-- The constraints of an issuer, if it has any. -/
def x509NcLocate (tbs : List UInt8) : Option (List UInt8) :=
  (x509FindExt tbs oidNameConstraints).bind derSeq

def x509NcHalf (seq : List UInt8) (wantTag : UInt8) : Option (List UInt8) :=
  ((derseqElements seq).find? fun e => e.1 == wantTag).map Prod.snd

def subtreeBase (subtree : List UInt8) : Option (UInt8 × List UInt8) :=
  (derseqNext subtree).map Prod.fst

def x509DnWithinBase : NcMatcher := x509DnPrefixCi

def dnsSuffixEq (base name : List UInt8) : Bool :=
  if name.length < base.length then false
  else asciiDnsEq base (name.drop (name.length - base.length))

def dnsDotBoundary (base name : List UInt8) : Bool :=
  base.length < name.length && name[name.length - base.length - 1]? == some dot

def dnsSubdomain (base name : List UInt8) : Bool :=
  dnsDotBoundary base name && dnsSuffixEq base name

def dnsEqOrSubdomain (base name : List UInt8) : Bool := asciiDnsEq base name || dnsSubdomain base name

/-- Inside the subtree of a dNSName base; a base with a leading dot takes in no host of that name.
-/
def x509NcDnsWithin : NcMatcher := fun base name =>
  if base.length = 0 then true
  else if base.head? = some dot then dnsSuffixEq base name
  else dnsEqOrSubdomain base name

def ipMaskMatch (base name : List UInt8) (n : ℕ) : Bool :=
  (List.range n).foldl
    (fun acc i => acc ||| ((base.getD i 0 ^^^ name.getD i 0) &&& base.getD (n + i) 0)) 0 == 0

/-- Inside the subtree of an iPAddress base, an address and a mask. -/
def x509NcIpWithin : NcMatcher := fun base name =>
  if base.length ≠ 2 * name.length then false else ipMaskMatch base name name.length

/-- Whether there is a subtree of the form, and whether one covers the name. -/
structure TypedScan where
  any : Bool
  covered : Bool

def typedMark (want : UInt8) (name : List UInt8) (m : NcMatcher) (s : TypedScan) (tag : UInt8)
    (base : List UInt8) : TypedScan :=
  if tag ≠ want then s else { any := true, covered := if m base name then true else s.covered }

def x509TypedFold (want : UInt8) (name : List UInt8) (m : NcMatcher) (s : TypedScan)
    (sub : UInt8 × List UInt8) : TypedScan :=
  match subtreeBase sub.2 with
  | some (tag, base) => typedMark want name m s tag base
  | none => s

def typedScan (subtrees : List UInt8) (want : UInt8) (name : List UInt8) (m : NcMatcher) :
    TypedScan :=
  (derseqElements subtrees).foldl (x509TypedFold want name m) ⟨false, false⟩

def typedPermittedOk (seq : List UInt8) (want : UInt8) (name : List UInt8) (m : NcMatcher) : Bool :=
  match x509NcHalf seq ncPermittedTag with
  | none => true
  | some permitted =>
    let r := typedScan permitted want name m
    if r.covered then true else !r.any

def typedExcludedOk (seq : List UInt8) (want : UInt8) (name : List UInt8) (m : NcMatcher) : Bool :=
  match x509NcHalf seq ncExcludedTag with
  | none => true
  | some excluded => !(typedScan excluded want name m).covered

def x509TypedNameOk (seq : List UInt8) (want : UInt8) (name : List UInt8) (m : NcMatcher) : Bool :=
  if !typedPermittedOk seq want name m then false else typedExcludedOk seq want name m

/-! ## The extension as a whole -/

def halfCount (seq : List UInt8) (half : UInt8) : ℕ :=
  match x509NcHalf seq half with
  | none => 0
  | some subtrees => (derseqElements subtrees).length

def x509NcTooMany (seq : List UInt8) : Bool :=
  x509NcSubtreesMax < halfCount seq ncPermittedTag + halfCount seq ncExcludedTag

def ncAlways : NcMatcher := fun _ _ => true

def ncIpMalformed : NcMatcher := fun base _ => base.length != 8 && base.length != 32

def halfCovers (seq : List UInt8) (half want : UInt8) (m : NcMatcher) : Bool :=
  match x509NcHalf seq half with
  | none => false
  | some subtrees => (typedScan subtrees want subtrees m).covered

def x509IpBasesMalformed (seq : List UInt8) : Bool :=
  halfCovers seq ncPermittedTag ncIpaddrTag ncIpMalformed ||
    halfCovers seq ncExcludedTag ncIpaddrTag ncIpMalformed

def ncUsable (seq : List UInt8) : Bool := !x509IpBasesMalformed seq && !x509NcTooMany seq

/-! ## The names of the child -/

def uriSanOk (seq : List UInt8) : Bool :=
  if halfCovers seq ncPermittedTag ncUriTag ncAlways then false
  else !halfCovers seq ncExcludedTag ncUriTag ncAlways

def sanTypedForms : List (UInt8 × NcMatcher) :=
  [(ncIpaddrTag, x509NcIpWithin), (ncDirectorynameTag, x509DnWithinBase)]

def sanTypedEntryOk (seq : List UInt8) (tag : UInt8) (e : List UInt8) : Bool :=
  match sanTypedForms.find? fun f => f.1 == tag with
  | some f => x509TypedNameOk seq tag e f.2
  | none => true

def x509SanOtherEntryOk (seq : List UInt8) (tag : UInt8) (e : List UInt8) : Bool :=
  if tag = ncUriTag then uriSanOk seq else sanTypedEntryOk seq tag e

/-- `has_dns` behind an entry; `none` where the entry is not admitted. -/
def sanEntryOk (seq : List UInt8) (hasDns : Bool) (e : UInt8 × List UInt8) : Option Bool :=
  if e.1 ≠ ncDnsnameTag then if x509SanOtherEntryOk seq e.1 e.2 then some hasDns else none
  else if x509TypedNameOk seq e.1 e.2 x509NcDnsWithin then some true else none

def sanListOk (seq gn : List UInt8) : Option Bool :=
  (derseqElements gn).foldlM (sanEntryOk seq) false

def childSanOk (seq childTbs : List UInt8) : Option Bool :=
  match x509FindExt childTbs ncOidSan with
  | none => some false
  | some raw => (derSeq raw).bind fun gn => sanListOk seq gn

def ncInRange (c lo hi : UInt8) : Bool := c - lo ≤ hi - lo

def ncAlnum (c : UInt8) : Bool := ncInRange (c ||| 0x20) 0x61 0x7a || ncInRange c 0x30 0x39

def ncHostByte (c : UInt8) : Bool := ncAlnum c || c == 0x2d || c == dot || c == star

def ncDnsShaped (cn : List UInt8) : Bool := cn.length != 0 && cn.all ncHostByte

def cnFallbackOk (seq childTbs : List UInt8) : Bool :=
  match x509SubjectCn childTbs with
  | none => true
  | some cn =>
    if !ncDnsShaped cn then true else x509TypedNameOk seq ncDnsnameTag cn x509NcDnsWithin

def childNamesOk (seq childTbs : List UInt8) : Bool :=
  match childSanOk seq childTbs with
  | none => false
  | some hasDns => if hasDns then true else cnFallbackOk seq childTbs

def childSubjectOk (seq childTbs : List UInt8) : Bool :=
  match x509Subject childTbs with
  | none => false
  | some subj => x509TypedNameOk seq ncDirectorynameTag subj x509DnWithinBase

/-- Subject and names of the child are admitted, by constraints that can be used. -/
def ncAdmit (seq childTbs : List UInt8) : Bool :=
  if !ncUsable seq then false
  else if !childSubjectOk seq childTbs then false
  else childNamesOk seq childTbs

def x509NameConstraintsAdmit (issuerTbs childTbs : List UInt8) : Bool :=
  match x509NcLocate issuerTbs with
  | none => true
  | some seq => ncAdmit seq childTbs

end Wired.Pki
