import Wired.Pki.Certificate
import Wired.Pki.HostName

/-!
# Hosts a certificate is for

The check of a host against the names of a certificate (`x509_san_matches`), and for which
certificates and hosts it does what it is for (`x509SanMatches_sound_iff`).

`ForHost` says which hosts a certificate is for. The check accepts others too, and `Misread` lists
the four ways: an address with a dot behind it, an address that the commonName only matches as a
name does, a subjectAltName that cannot be read, and one that is malformed before any identifier.
-/

namespace Wired.Pki

open List

def sanDnsnameTag : UInt8 := 0x82
def sanIpaddrTag : UInt8 := 0x87
def sanOthernameTag : UInt8 := 0xa0
def sanUriTag : UInt8 := 0x86
def sanIpv4Len : ℕ := 4

/-- 2.5.29.17, subjectAltName. -/
def oidSan : List UInt8 := [0x55, 0x1d, 0x11]

/-- 1.3.6.1.5.5.7.8.7, id-on-dnsSRV. -/
def sanOidDnsSrv : List UInt8 := [0x2b, 0x06, 0x01, 0x05, 0x05, 0x07, 0x08, 0x07]

/-! ## The check -/

def sanNames (tbs : List UInt8) : Option (List UInt8) := (x509FindExt tbs oidSan).bind derSeq

def ipv4EntryMatches (e want : List UInt8) : Bool := e.length == sanIpv4Len && e == want

def x509Ipv4NamesOne (tag : UInt8) (e want : List UInt8) : Bool :=
  tag == sanIpaddrTag && ipv4EntryMatches e want

def ipv4NamesMatch (gn want : List UInt8) : Bool :=
  (derseqElements gn).any fun e => x509Ipv4NamesOne e.1 e.2 want

def isSrvOthername (tag : UInt8) (e : List UInt8) : Bool :=
  tag == sanOthernameTag &&
    match derseqNextTagged e derOid with
    | some (id, _) => id == sanOidDnsSrv
    | none => false

def sanPresentedId (tag : UInt8) (e : List UInt8) : Bool :=
  tag == sanDnsnameTag || tag == sanUriTag || isSrvOthername tag e

/-- Whether an identifier was found, and whether one matched. -/
structure NamesMatch where
  foundId : Bool
  matched : Bool

def namesMatchOne (host : List UInt8) (s : NamesMatch) (e : UInt8 × List UInt8) : NamesMatch :=
  { foundId := s.foundId || sanPresentedId e.1 e.2
    matched := if e.1 ≠ sanDnsnameTag then s.matched
      else if x509EntryMatches e.2 host then true else s.matched }

def x509NamesMatch (gn host : List UInt8) : NamesMatch :=
  (derseqElements gn).foldl (namesMatchOne host) ⟨false, false⟩

def cnIdMatches (tbs host : List UInt8) : Bool :=
  match x509SubjectCn tbs with
  | some cn => x509EntryMatches cn host
  | none => false

def ipv4SanMatches (tbs hostname want : List UInt8) : Bool :=
  match sanNames tbs with
  | none => cnIdMatches tbs hostname
  | some gn => ipv4NamesMatch gn want

def dnsSanMatches (tbs hostname : List UInt8) : Bool :=
  let r : NamesMatch := match sanNames tbs with
    | some gn => x509NamesMatch gn hostname
    | none => ⟨false, false⟩
  if r.foundId then r.matched else cnIdMatches tbs hostname

/-- A host that reads as an address is compared with addresses. -/
def x509SanMatches (tbs hostname : List UInt8) : Bool :=
  match sanIpv4Parse hostname with
  | some ipv4 => ipv4SanMatches tbs hostname ipv4
  | none => dnsSanMatches tbs hostname

/-! ## What the check is for -/

/-- The certificate has a subjectAltName, readable or not. -/
def SanPresent (tbs : List UInt8) : Prop :=
  ∃ ext, x509ExtReach tbs = some ext ∧ ∃ e ∈ derseqElements ext, x509ExtIdIs e.2 oidSan = true

/-- There is no subjectAltName, or a well-formed one without a DNS-ID, a URI-ID and an SRV-ID. -/
def CnIdAllowed (tbs : List UInt8) : Prop :=
  ¬ SanPresent tbs ∨ ∃ gn, sanNames tbs = some gn ∧ DerWhole gn ∧
    ∀ e ∈ derseqElements gn, sanPresentedId e.1 e.2 = false

/-- An iPAddress entry is the address, or there is no subjectAltName and the commonName is its text.
-/
def ForAddress (tbs host address : List UInt8) : Prop :=
  (∃ gn, sanNames tbs = some gn ∧ (sanIpaddrTag, address) ∈ derseqElements gn) ∨
    (¬ SanPresent tbs ∧ x509SubjectCn tbs = some host)

/-- A dNSName entry matches the host, or the commonName does where it may. -/
def ForName (tbs host : List UInt8) : Prop :=
  (∃ gn e, sanNames tbs = some gn ∧ (sanDnsnameTag, e) ∈ derseqElements gn ∧ NameMatches e host) ∨
    (CnIdAllowed tbs ∧ ∃ cn, x509SubjectCn tbs = some cn ∧ NameMatches cn host)

/-- The hosts a certificate is for. -/
def ForHost (tbs host : List UInt8) : Prop :=
  (∃ a b c d, host = ipv4Text a b c d ∧ ForAddress tbs host [a, b, c, d]) ∨
    ((∀ a b c d, host ≠ ipv4Text a b c d) ∧ ForName tbs host)

/-- How the check accepts another host. -/
inductive Misread (tbs host : List UInt8) : Prop
  /-- An address with a dot behind it is taken for the address, and an iPAddress entry gives it,
  while no name does. -/
  | dotBehindAddress {a b c d : UInt8} {gn : List UInt8} (host_eq : host = ipv4Text a b c d ++ [dot])
      (names : sanNames tbs = some gn) (entry : (sanIpaddrTag, [a, b, c, d]) ∈ derseqElements gn)
      (noName : ¬ ForName tbs host)
  /-- An address is looked for in the commonName as if it were a name. -/
  | addressAsName {a b c d : UInt8} (host_eq : host = ipv4Text a b c d)
      (names : sanNames tbs = none) (cn : cnIdMatches tbs host = true)
      (notText : SanPresent tbs ∨ x509SubjectCn tbs ≠ some host)
  /-- A subjectAltName without GeneralNames that can be read is taken for none. -/
  | unreadableNames (notAddress : ∀ a b c d, host ≠ ipv4Text a b c d) (names : sanNames tbs = none)
      (present : SanPresent tbs) (cn : cnIdMatches tbs host = true)
  /-- GeneralNames are taken to hold no identifier because the scan stopped before one could
  come. -/
  | malformedNames {gn : List UInt8} (notAddress : sanIpv4Parse host = none)
      (names : sanNames tbs = some gn) (malformed : ¬ DerWhole gn)
      (noId : ∀ e ∈ derseqElements gn, sanPresentedId e.1 e.2 = false)
      (cn : cnIdMatches tbs host = true)

/-! ## The parts of the check -/

variable {tbs gn host : List UInt8}

theorem sanPresent_of_sanNames (h : sanNames tbs = some gn) : SanPresent tbs := by
  obtain ⟨val, hval, -⟩ := Option.bind_eq_some_iff.mp h
  obtain ⟨ext, hext, hfind⟩ := Option.bind_eq_some_iff.mp hval
  obtain ⟨e, he, -⟩ := Option.bind_eq_some_iff.mp hfind
  have hid : x509ExtIdIs e.2 oidSan = true :=
    find?_some (p := fun e : UInt8 × List UInt8 => x509ExtIdIs e.2 oidSan) he
  exact ⟨ext, hext, e, mem_of_find?_eq_some he, hid⟩

theorem ipv4NamesMatch_iff {a b c d : UInt8} :
    ipv4NamesMatch gn [a, b, c, d] = true ↔ (sanIpaddrTag, [a, b, c, d]) ∈ derseqElements gn := by
  simp only [ipv4NamesMatch, x509Ipv4NamesOne, ipv4EntryMatches, any_eq_true,
    Bool.and_eq_true, beq_iff_eq]
  constructor
  · rintro ⟨⟨tag, e⟩, he, rfl, -, rfl⟩
    exact he
  · intro h
    exact ⟨_, h, rfl, rfl, rfl⟩

theorem foldl_namesMatchOne (host : List UInt8) (es : List (UInt8 × List UInt8)) (s : NamesMatch) :
    es.foldl (namesMatchOne host) s =
      ⟨s.foundId || es.any fun e => sanPresentedId e.1 e.2,
        s.matched || es.any fun e => e.1 == sanDnsnameTag && x509EntryMatches e.2 host⟩ := by
  induction es generalizing s with
  | nil => simp
  | cons e es ih =>
    rw [foldl_cons, ih, namesMatchOne, any_cons, any_cons, NamesMatch.mk.injEq]
    refine ⟨Bool.or_assoc _ _ _, ?_⟩
    by_cases htag : e.1 = sanDnsnameTag
    · cases x509EntryMatches e.2 host <;> simp [htag]
    · have hfalse : (e.1 == sanDnsnameTag) = false := beq_eq_false_iff_ne.mpr htag
      simp [htag, hfalse]

theorem x509NamesMatch_foundId :
    (x509NamesMatch gn host).foundId = false ↔
      ∀ e ∈ derseqElements gn, sanPresentedId e.1 e.2 = false := by
  simp [x509NamesMatch, foldl_namesMatchOne]

theorem x509NamesMatch_matched :
    (x509NamesMatch gn host).matched = true ↔
      ∃ e, (sanDnsnameTag, e) ∈ derseqElements gn ∧ x509EntryMatches e host = true := by
  simp only [x509NamesMatch, foldl_namesMatchOne, Bool.false_or, any_eq_true, Bool.and_eq_true,
    beq_iff_eq]
  constructor
  · rintro ⟨⟨tag, e⟩, he, rfl, hm⟩
    exact ⟨e, he, hm⟩
  · rintro ⟨e, he, hm⟩
    exact ⟨_, he, rfl, hm⟩

theorem cnIdMatches_iff :
    cnIdMatches tbs host = true ↔
      ∃ cn, x509SubjectCn tbs = some cn ∧ x509EntryMatches cn host = true := by
  unfold cnIdMatches
  cases x509SubjectCn tbs with
  | none => simp
  | some cn => simp

theorem forName_of_cnIdMatches (hallowed : CnIdAllowed tbs) (h : cnIdMatches tbs host = true) :
    ForName tbs host := by
  obtain ⟨cn, hcn, hm⟩ := cnIdMatches_iff.mp h
  exact .inr ⟨hallowed, cn, hcn, nameMatches_of_entryMatches hm⟩

theorem count_dot_ipv4Text (a b c d : UInt8) : (ipv4Text a b c d).count dot = 3 := by
  simp [ipv4Text, count_eq_zero_of_not_mem, dot_not_mem_octetText]

theorem ipv4Text_append_dot_ne (a b c d a' b' c' d' : UInt8) :
    ipv4Text a b c d ++ [dot] ≠ ipv4Text a' b' c' d' := by
  intro h
  have hcount := congrArg (List.count dot) h
  simp [count_dot_ipv4Text] at hcount

theorem ne_ipv4Text_of_parse_none (h : sanIpv4Parse host = none) (a b c d : UInt8) :
    host ≠ ipv4Text a b c d := by
  intro hhost
  have hsome := sanIpv4Parse_eq_some.mpr ⟨a, b, c, d, rfl, .inl hhost⟩
  rw [h] at hsome
  cases hsome

/-! ## Where the check does what it is for -/

theorem Misread.accepted (h : Misread tbs host) : x509SanMatches tbs host = true := by
  cases h with
  | @dotBehindAddress a b c d gn host_eq names entry noName =>
    have hparse := sanIpv4Parse_eq_some.mpr ⟨a, b, c, d, rfl, .inr host_eq⟩
    simp only [x509SanMatches, hparse, ipv4SanMatches, names]
    exact ipv4NamesMatch_iff.mpr entry
  | @addressAsName a b c d host_eq names cn notText =>
    have hparse := sanIpv4Parse_eq_some.mpr ⟨a, b, c, d, rfl, .inl host_eq⟩
    simp only [x509SanMatches, hparse, ipv4SanMatches, names, cn]
  | unreadableNames notAddress names present cn =>
    cases hparse : sanIpv4Parse host with
    | none => simp [x509SanMatches, hparse, dnsSanMatches, names, cn]
    | some o => simp only [x509SanMatches, hparse, ipv4SanMatches, names, cn]
  | @malformedNames gn notAddress names malformed noId cn =>
    have hfound : (x509NamesMatch gn host).foundId = false := x509NamesMatch_foundId.mpr noId
    simp [x509SanMatches, notAddress, dnsSanMatches, names, hfound, cn]

theorem Misread.not_forHost (h : Misread tbs host) : ¬ ForHost tbs host := by
  cases h with
  | dotBehindAddress host_eq names entry noName =>
    rintro (⟨a', b', c', d', hhost, -⟩ | ⟨-, hname⟩)
    · rw [host_eq] at hhost
      exact ipv4Text_append_dot_ne _ _ _ _ _ _ _ _ hhost
    · exact noName hname
  | addressAsName host_eq names cn notText =>
    rintro (⟨a', b', c', d', -, ⟨gn, hgn, -⟩ | ⟨habsent, hcn⟩⟩ | ⟨hne, -⟩)
    · rw [names] at hgn
      cases hgn
    · exact notText.elim habsent (fun hne => hne hcn)
    · exact hne _ _ _ _ host_eq
  | unreadableNames notAddress names present cn =>
    rintro (⟨a', b', c', d', hhost, -⟩ | ⟨-, ⟨gn, e, hgn, -⟩ | ⟨habsent | ⟨gn, hgn, -⟩, -⟩⟩)
    · exact notAddress _ _ _ _ hhost
    · rw [names] at hgn
      cases hgn
    · exact habsent present
    · rw [names] at hgn
      cases hgn
  | malformedNames notAddress names malformed noId cn =>
    rintro (⟨a', b', c', d', hhost, -⟩ | ⟨-, ⟨gn, e, hgn, he, -⟩ | ⟨habsent | ⟨gn, hgn, hwhole, -⟩, -⟩⟩)
    · exact ne_ipv4Text_of_parse_none notAddress _ _ _ _ hhost
    · obtain rfl := Option.some.inj (names.symm.trans hgn)
      cases noId _ he
    · exact habsent (sanPresent_of_sanNames names)
    · obtain rfl := Option.some.inj (names.symm.trans hgn)
      exact malformed hwhole

theorem forHost_of_ipv4 {o : List UInt8} (hok : ¬ Misread tbs host)
    (hparse : sanIpv4Parse host = some o) (h : ipv4SanMatches tbs host o = true) :
    ForHost tbs host := by
  obtain ⟨a, b, c, d, rfl, htext⟩ := sanIpv4Parse_eq_some.mp hparse
  unfold ipv4SanMatches at h
  cases hnames : sanNames tbs with
  | some gn =>
    rw [hnames] at h
    have hentry := ipv4NamesMatch_iff.mp h
    obtain hhost | hhost := htext
    · exact .inl ⟨a, b, c, d, hhost, .inl ⟨gn, hnames, hentry⟩⟩
    · have hname : ForName tbs host := by
        by_contra hname
        exact hok (.dotBehindAddress hhost hnames hentry hname)
      refine .inr ⟨?_, hname⟩
      rw [hhost]
      exact ipv4Text_append_dot_ne a b c d
  | none =>
    rw [hnames] at h
    obtain hhost | hhost := htext
    · have habsent : ¬ SanPresent tbs := fun hp => hok (.addressAsName hhost hnames h (.inl hp))
      have hcn : x509SubjectCn tbs = some host := by
        by_contra hne
        exact hok (.addressAsName hhost hnames h (.inr hne))
      exact .inl ⟨a, b, c, d, hhost, .inr ⟨habsent, hcn⟩⟩
    · have hne : ∀ a b c d, host ≠ ipv4Text a b c d := by
        rw [hhost]
        exact ipv4Text_append_dot_ne a b c d
      have habsent : ¬ SanPresent tbs := fun hp => hok (.unreadableNames hne hnames hp h)
      exact .inr ⟨hne, forName_of_cnIdMatches (.inl habsent) h⟩

theorem forHost_of_name (hok : ¬ Misread tbs host) (hparse : sanIpv4Parse host = none)
    (h : dnsSanMatches tbs host = true) : ForHost tbs host := by
  have hne := ne_ipv4Text_of_parse_none hparse
  refine .inr ⟨hne, ?_⟩
  unfold dnsSanMatches at h
  cases hnames : sanNames tbs with
  | some gn =>
    rw [hnames] at h
    cases hfound : (x509NamesMatch gn host).foundId with
    | true =>
      rw [if_pos hfound] at h
      obtain ⟨e, he, hm⟩ := x509NamesMatch_matched.mp h
      exact .inl ⟨gn, e, hnames, he, nameMatches_of_entryMatches hm⟩
    | false =>
      have hcn : cnIdMatches tbs host = true := by simpa [hfound] using h
      have hnoId := x509NamesMatch_foundId.mp hfound
      have hwhole : DerWhole gn := by
        by_contra hmal
        exact hok (.malformedNames hparse hnames hmal hnoId hcn)
      exact forName_of_cnIdMatches (.inr ⟨gn, hnames, hwhole, hnoId⟩) hcn
  | none =>
    rw [hnames] at h
    have habsent : ¬ SanPresent tbs := fun hp => hok (.unreadableNames hne hnames hp h)
    exact forName_of_cnIdMatches (.inl habsent) h

/-- The check accepts only hosts the certificate is for, exactly where it does not misread the host
or the certificate's names. -/
theorem x509SanMatches_sound_iff (tbs host : List UInt8) :
    (x509SanMatches tbs host = true → ForHost tbs host) ↔ ¬ Misread tbs host := by
  constructor
  · intro h hmis
    exact hmis.not_forHost (h hmis.accepted)
  · intro hok h
    unfold x509SanMatches at h
    cases hparse : sanIpv4Parse host with
    | some o => exact forHost_of_ipv4 hok hparse (by simpa [hparse] using h)
    | none => exact forHost_of_name hok hparse (by simpa [hparse] using h)

/-- A certificate without extensions whose commonName is `*.2.3.4`. -/
def wildcardCnTbs : List UInt8 :=
  [0x30, 0x1f, 0x02, 0x01, 0x01, 0x30, 0x00, 0x30, 0x00, 0x30, 0x00, 0x30, 0x12, 0x31, 0x10, 0x30,
    0x0e, 0x06, 0x03, 0x55, 0x04, 0x03, 0x0c, 0x07, 0x2a, 0x2e, 0x32, 0x2e, 0x33, 0x2e, 0x34,
    0x30, 0x00]

/-- It is accepted for `1.2.3.4`, which its commonName is not. -/
theorem wildcardCn_accepted_for_address :
    ¬ (x509SanMatches wildcardCnTbs (ipv4Text 1 2 3 4) = true →
      ForHost wildcardCnTbs (ipv4Text 1 2 3 4)) := by
  have hmis : Misread wildcardCnTbs (ipv4Text 1 2 3 4) :=
    .addressAsName rfl (by decide) (by decide) (.inr (by decide))
  intro h
  exact hmis.not_forHost (h hmis.accepted)

end Wired.Pki
