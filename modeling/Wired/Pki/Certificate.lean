import Wired.Pki.Der

/-!
# Certificates

What of a tbsCertificate the name checks read (`x509.c`, `x509_ext.c`, `chain.c` and the subject
part of `san_x509.c`): an extension by its identifier, the subject, and its first commonName.
-/

namespace Wired.Pki

def x509VersionTag : UInt8 := 0xa0
def x509IssuerUidTag : UInt8 := 0xa1
def x509SubjectUidTag : UInt8 := 0xa2
def x509ExtensionsTag : UInt8 := 0xa3

/-- Elements of a tbsCertificate before its extensions, the version apart. -/
def x509ExtSkip : ℕ := 6

/-- Elements of a tbsCertificate before its subject, the version apart. -/
def sanSubjectSkip : ℕ := 4

def issuerSkip : ℕ := 2
def subjectSkip : ℕ := 1

/-- Pass an optional element if the cursor is at one. -/
def skipTaggedIfPresent (c : List UInt8) (wantTag : UInt8) : Option (List UInt8) :=
  if c.head? = some wantTag then (derseqNextTagged c wantTag).map Prod.snd else some c

def x509TbsCursor (tbs : List UInt8) : Option (List UInt8) :=
  (derSeq tbs).bind fun v => skipTaggedIfPresent v x509VersionTag

def skipUniqueIds (c : List UInt8) : Option (List UInt8) :=
  (skipTaggedIfPresent c x509IssuerUidTag).bind fun c => skipTaggedIfPresent c x509SubjectUidTag

def x509AtExtensions (tbs : List UInt8) : Option (List UInt8) :=
  (x509TbsCursor tbs).bind fun c => (derseqSkip x509ExtSkip c).bind skipUniqueIds

def x509ExtReach (tbs : List UInt8) : Option (List UInt8) :=
  (x509AtExtensions tbs).bind fun c =>
    (derseqNextTagged c x509ExtensionsTag).bind fun r => derSeq r.1

def x509ExtIdIs (e oid : List UInt8) : Bool :=
  match derseqNextTagged e derOid with
  | some (id, _) => id == oid
  | none => false

def extValue (e : List UInt8) : Option (List UInt8) :=
  ((derseqElements e).find? fun f => f.1 == derOctetString).map Prod.snd

def findInExtensions (ext oid : List UInt8) : Option (List UInt8) :=
  ((derseqElements ext).find? fun e => x509ExtIdIs e.2 oid).bind fun e => extValue e.2

def x509FindExt (tbs oid : List UInt8) : Option (List UInt8) :=
  (x509ExtReach tbs).bind fun ext => findInExtensions ext oid

/-! ## The subject -/

/-- 2.5.4.3, commonName. -/
def sanOidCn : List UInt8 := [0x55, 0x04, 0x03]

def atvCnValue (atv : List UInt8) : Option (List UInt8) :=
  (derseqNextTagged atv derOid).bind fun r =>
    if r.1 = sanOidCn then (derseqNext r.2).map fun v => v.1.2 else none

def rdnCnValue (rdn : List UInt8) : Option (List UInt8) :=
  (derseqElements rdn).findSome? fun atv => atvCnValue atv.2

def nameCnValue (nameSeq : List UInt8) : Option (List UInt8) :=
  (derseqElements nameSeq).findSome? fun rdn => rdnCnValue rdn.2

def subjectCursor (tbs : List UInt8) : Option (List UInt8) :=
  (x509TbsCursor tbs).bind fun c => derseqSkip sanSubjectSkip c

def x509SubjectCn (tbs : List UInt8) : Option (List UInt8) :=
  (subjectCursor tbs).bind fun c => (derseqNextTagged c derSequence).bind fun r => nameCnValue r.1

/-- The SEQUENCE at the cursor with its header, and the cursor behind it. -/
def chNextSeqTlv (c : List UInt8) : Option (List UInt8 × List UInt8) :=
  match derRead c with
  | some ((tag, _), used) =>
    if tag = derSequence then some (c.take used, c.drop used) else none
  | none => none

def chAtIssuer (tbs : List UInt8) : Option (List UInt8) :=
  (x509TbsCursor tbs).bind fun c => derseqSkip issuerSkip c

def chAfterIssuer (tbs : List UInt8) : Option (List UInt8) :=
  (chAtIssuer tbs).bind fun c => (chNextSeqTlv c).map Prod.snd

def x509Subject (tbs : List UInt8) : Option (List UInt8) :=
  (chAfterIssuer tbs).bind fun c =>
    (derseqSkip subjectSkip c).bind fun c => (chNextSeqTlv c).map Prod.fst

end Wired.Pki
