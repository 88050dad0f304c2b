import Wired.Pki.NameConstraints

/-!
# Hosts under name constraints

What an issuer's name constraints mean for the hosts that the host name check accepts for an
admitted certificate (`admitted_host_bounded`). An address from an iPAddress entry is inside the
constraints. A host from a name of the certificate is inside them when it is that name. Through a
wildcard it is inside up to its leftmost label: the constraints were applied to the entry, star and
all, so that a permitted subtree may spell the entry itself, and an excluded one the host itself
(`wildcard_into_excluded`).

The constraints here are the subtrees that the scan reads. An entry without a readable base is
passed over, and the check then admits no more than it would without that entry.
-/

namespace Wired.Pki

open List

/-! ## Subtrees of a form -/

/-- The bases of a form that the scan reads in one half of the extension. -/
def ncBases (seq : List UInt8) (half want : UInt8) : List (List UInt8) :=
  match x509NcHalf seq half with
  | none => []
  | some subtrees => (derseqElements subtrees).filterMap fun e =>
      (subtreeBase e.2).bind fun b => if b.1 = want then some b.2 else none

/-- The name is inside a permitted subtree of its form, if there is one, and no excluded one. -/
def Inside (seq : List UInt8) (want : UInt8) (m : NcMatcher) (name : List UInt8) : Prop :=
  (ncBases seq ncPermittedTag want ≠ [] → ∃ b ∈ ncBases seq ncPermittedTag want, m b name = true) ∧
    ∀ b ∈ ncBases seq ncExcludedTag want, m b name = false

theorem foldl_x509TypedFold (want : UInt8) (name : List UInt8) (m : NcMatcher)
    (es : List (UInt8 × List UInt8)) (s : TypedScan) :
    es.foldl (x509TypedFold want name m) s =
      let bases := es.filterMap fun e =>
        (subtreeBase e.2).bind fun b => if b.1 = want then some b.2 else none
      ⟨s.any || !bases.isEmpty, s.covered || bases.any fun b => m b name⟩ := by
  induction es generalizing s with
  | nil => simp
  | cons e es ih =>
    rw [foldl_cons, ih]
    cases hbase : subtreeBase e.2 with
    | none => simp [x509TypedFold, hbase]
    | some b =>
      by_cases htag : b.1 = want
      · cases hm : m b.2 name <;> simp [x509TypedFold, typedMark, hbase, htag, hm]
      · simp [x509TypedFold, typedMark, hbase, htag]

variable {seq name a b p s base host rest label child gn : List UInt8} {want : UInt8}
variable {m : NcMatcher} {d d' : Bool}

theorem typedPermittedOk_iff :
    typedPermittedOk seq want name m = true ↔
      (ncBases seq ncPermittedTag want ≠ [] →
        ∃ b ∈ ncBases seq ncPermittedTag want, m b name = true) := by
  unfold typedPermittedOk ncBases
  cases x509NcHalf seq ncPermittedTag with
  | none => simp
  | some permitted =>
    simp only [typedScan, foldl_x509TypedFold, Bool.false_or, Bool.not_not]
    generalize (derseqElements permitted).filterMap _ = bases
    cases hcov : bases.any fun b => m b name with
    | true => simpa using fun _ : bases ≠ [] => any_eq_true.mp hcov
    | false =>
      have hnone := any_eq_false.mp hcov
      simp only [Bool.false_eq_true, if_false, List.isEmpty_iff]
      constructor
      · intro h hne
        exact absurd h hne
      · intro h
        by_contra hne
        obtain ⟨b, hb, hm⟩ := h hne
        exact hnone b hb hm

theorem typedExcludedOk_iff :
    typedExcludedOk seq want name m = true ↔
      ∀ b ∈ ncBases seq ncExcludedTag want, m b name = false := by
  unfold typedExcludedOk ncBases
  cases x509NcHalf seq ncExcludedTag with
  | none => simp
  | some excluded =>
    simp only [typedScan, foldl_x509TypedFold, Bool.false_or]
    simp only [Bool.not_eq_true', any_eq_false, Bool.not_eq_true]

theorem x509TypedNameOk_iff : x509TypedNameOk seq want name m = true ↔ Inside seq want m name := by
  unfold x509TypedNameOk Inside
  rw [← typedPermittedOk_iff, ← typedExcludedOk_iff]
  cases typedPermittedOk seq want name m <;> simp

/-! ## Names up to case -/

theorem SameName.symm (h : SameName a b) : SameName b a := Eq.symm h

theorem SameName.trans {c : List UInt8} (h : SameName a b) (h' : SameName b c) :
    SameName a c := Eq.trans h h'

theorem SameName.length_eq (h : SameName a b) : a.length = b.length := by
  simpa using congrArg List.length h

/-- The parts of a name are the same as those of the other name at their places. -/
theorem SameName.exists_append (h : SameName (p ++ s) b) :
    ∃ p' s', b = p' ++ s' ∧ SameName p p' ∧ SameName s s' := by
  unfold SameName at h
  rw [map_append, eq_comm, map_eq_append_iff] at h
  obtain ⟨p', s', rfl, hp, hs⟩ := h
  exact ⟨p', s', rfl, hp.symm, hs.symm⟩

theorem asciiLower_eq_dot {c : UInt8} : asciiLower c = dot ↔ c = dot := by
  have h : ∀ n < 256, asciiLower (UInt8.ofNat n) = dot ↔ UInt8.ofNat n = dot := by decide +kernel
  simpa only [UInt8.ofNat_toNat] using h c.toNat c.toNat_lt

theorem SameName.exists_dot (h : SameName (dot :: s) b) : ∃ s', b = dot :: s' ∧ SameName s s' := by
  cases b with
  | nil => cases h
  | cons c b =>
    obtain ⟨hc, hs⟩ := List.cons.inj h
    exact ⟨b, by rw [asciiLower_eq_dot.mp hc.symm], hs⟩

/-! ## Subtrees and wildcards -/

theorem dnsSuffixEq_iff :
    dnsSuffixEq base name = true ↔ ∃ p s, name = p ++ s ∧ SameName base s := by
  unfold dnsSuffixEq
  split
  · next hlt =>
    simp only [Bool.false_eq_true, false_iff, not_exists, not_and]
    rintro p s rfl hs
    rw [hs.length_eq, length_append] at hlt
    omega
  · next hle =>
    rw [asciiDnsEq_iff]
    constructor
    · intro h
      exact ⟨_, _, (take_append_drop _ name).symm, h⟩
    · rintro ⟨p, s, rfl, hs⟩
      rw [hs.length_eq, length_append, Nat.add_sub_cancel_right, drop_left]
      exact hs

theorem dnsSubdomain_iff :
    dnsSubdomain base name = true ↔ ∃ p s, name = p ++ dot :: s ∧ SameName base s := by
  simp only [dnsSubdomain, dnsDotBoundary, Bool.and_eq_true, decide_eq_true_eq, beq_iff_eq]
  constructor
  · rintro ⟨⟨hlt, hdot⟩, hsuf⟩
    obtain ⟨p, s, rfl, hs⟩ := dnsSuffixEq_iff.mp hsuf
    rw [hs.length_eq, length_append] at hlt
    obtain rfl | ⟨q, x, rfl⟩ := eq_nil_or_concat' p
    · rw [length_nil] at hlt
      omega
    · have hidx : (q ++ [x] ++ s).length - base.length - 1 = q.length := by
        rw [hs.length_eq]
        simp only [length_append, length_singleton]
        omega
      rw [hidx, append_assoc, getElem?_append_right le_rfl] at hdot
      obtain rfl : x = dot := by simpa using hdot
      exact ⟨q, s, by simp, hs⟩
  · rintro ⟨p, s, rfl, hs⟩
    refine ⟨⟨?_, ?_⟩, dnsSuffixEq_iff.mpr ⟨p ++ [dot], s, by simp, hs⟩⟩
    · rw [hs.length_eq, length_append, length_cons]
      omega
    · have hidx : (p ++ dot :: s).length - base.length - 1 = p.length := by
        rw [hs.length_eq, length_append, length_cons]
        omega
      rw [hidx]
      simp

theorem x509NcDnsWithin_iff :
    x509NcDnsWithin base name = true ↔
      base = [] ∨ (base.head? = some dot ∧ ∃ p s, name = p ++ s ∧ SameName base s) ∨
        (base.head? ≠ some dot ∧
          (SameName base name ∨ ∃ p s, name = p ++ dot :: s ∧ SameName base s)) := by
  unfold x509NcDnsWithin
  by_cases hnil : base = []
  · simp [hnil]
  · rw [if_neg (by simpa using hnil)]
    by_cases hdot : base.head? = some dot
    · rw [if_pos hdot, dnsSuffixEq_iff]
      simp [hnil, hdot]
    · rw [if_neg hdot, dnsEqOrSubdomain, Bool.or_eq_true, asciiDnsEq_iff, dnsSubdomain_iff]
      simp [hnil, hdot]

theorem x509NcDnsWithin_congr (h : SameName name host) (hw : x509NcDnsWithin base name = true) :
    x509NcDnsWithin base host = true := by
  rw [x509NcDnsWithin_iff] at hw ⊢
  obtain rfl | ⟨hdot, p, s, rfl, hs⟩ | ⟨hdot, hsame | ⟨p, s, rfl, hs⟩⟩ := hw
  · exact .inl rfl
  · obtain ⟨p', s', rfl, -, hs'⟩ := h.exists_append
    exact .inr (.inl ⟨hdot, p', s', rfl, hs.trans hs'⟩)
  · exact .inr (.inr ⟨hdot, .inl (hsame.trans h)⟩)
  · obtain ⟨p', s', rfl, -, hs'⟩ := h.exists_append
    obtain ⟨s'', rfl, hs''⟩ := hs'.exists_dot
    exact .inr (.inr ⟨hdot, .inr ⟨p', s'', rfl, hs.trans hs''⟩⟩)

/-- The subtree reaches a name by the labels behind its leftmost one. -/
def WithinRest (base rest : List UInt8) : Prop :=
  base = [] ∨ (base.head? = some dot ∧ ∃ p s, dot :: rest = p ++ s ∧ SameName base s) ∨
    (base.head? ≠ some dot ∧ ∃ p s, dot :: rest = p ++ dot :: s ∧ SameName base s)

theorem WithinRest.congr {hrest : List UInt8} (h : SameName rest hrest)
    (hw : WithinRest base rest) : WithinRest base hrest := by
  have hdots : SameName (dot :: rest) (dot :: hrest) := congrArg (asciiLower dot :: ·) h
  obtain rfl | ⟨hdot, p, s, he, hs⟩ | ⟨hdot, p, s, he, hs⟩ := hw
  · exact .inl rfl
  · rw [he] at hdots
    obtain ⟨p', s', he', -, hs'⟩ := hdots.exists_append
    exact .inr (.inl ⟨hdot, p', s', he', hs.trans hs'⟩)
  · rw [he] at hdots
    obtain ⟨p', s', he', -, hs'⟩ := hdots.exists_append
    obtain ⟨s'', rfl, hs''⟩ := hs'.exists_dot
    exact .inr (.inr ⟨hdot, p', s'', he', hs.trans hs''⟩)

/-- A dot of a name is not in its leftmost label. -/
theorem exists_rest_split (hlabel : dot ∉ label) (h : label ++ dot :: rest = p ++ dot :: s) :
    ∃ p', dot :: rest = p' ++ dot :: s := by
  obtain ⟨p', -, hp⟩ | ⟨l, rfl, hl⟩ := append_eq_append_iff.mp h
  · exact ⟨p', hp⟩
  · cases l with
    | nil => exact ⟨[], hl.symm⟩
    | cons c l =>
      rw [cons_append, List.cons.injEq] at hl
      rw [← hl.1] at hlabel
      simp at hlabel

/-- A subtree that a name is inside of reaches it behind its leftmost label, or spells it. -/
theorem x509NcDnsWithin_label_iff (hlabel : dot ∉ label) :
    x509NcDnsWithin base (label ++ dot :: rest) = true ↔
      WithinRest base rest ∨ (base.head? ≠ some dot ∧ SameName base (label ++ dot :: rest)) := by
  rw [x509NcDnsWithin_iff]
  constructor
  · rintro (rfl | ⟨hdot, p, s, he, hs⟩ | ⟨hdot, hsame | ⟨p, s, he, hs⟩⟩)
    · exact .inl (.inl rfl)
    · obtain ⟨b, rfl⟩ := head?_eq_some_iff.mp hdot
      obtain ⟨s', rfl, hs'⟩ := hs.exists_dot
      obtain ⟨p', hp'⟩ := exists_rest_split hlabel he
      exact .inl (.inr (.inl ⟨hdot, p', _, hp', hs⟩))
    · exact .inr ⟨hdot, hsame⟩
    · obtain ⟨p', hp'⟩ := exists_rest_split hlabel he
      exact .inl (.inr (.inr ⟨hdot, p', s, hp', hs⟩))
  · rintro ((rfl | ⟨hdot, p, s, he, hs⟩ | ⟨hdot, p, s, he, hs⟩) | ⟨hdot, hsame⟩)
    · exact .inl rfl
    · exact .inr (.inl ⟨hdot, label ++ p, s, by rw [he, append_assoc], hs⟩)
    · exact .inr (.inr ⟨hdot, .inr ⟨label ++ p, s, by rw [he, append_assoc], hs⟩⟩)
    · exact .inr (.inr ⟨hdot, .inl hsame⟩)

theorem NameMatches.labels (h : NameMatches name host) :
    SameName name host ∨ ∃ label hlabel rest hrest, name = label ++ dot :: rest ∧
      host = hlabel ++ dot :: hrest ∧ dot ∉ label ∧ dot ∉ hlabel ∧ SameName rest hrest := by
  cases h with
  | same h => exact .inl h
  | @wildcard before behind rest hbefore mid hbehind hrest label hostLabel _ _ sameRest =>
    refine .inr ⟨before ++ star :: behind, hbefore ++ (mid ++ hbehind), rest, hrest, by simp,
      by simp, ?_, hostLabel, sameRest⟩
    have hne : dot ≠ star := by decide
    simpa [hne] using label

/-- A subtree that a name is inside of takes in each host the name matches, unless it spells the
name. -/
theorem NameMatches.within (h : NameMatches name host) (hw : x509NcDnsWithin base name = true) :
    x509NcDnsWithin base host = true ∨ SameName base name := by
  obtain h | ⟨label, hlabel, rest, hrest, rfl, rfl, hl, hhl, hsame⟩ := h.labels
  · exact .inl (x509NcDnsWithin_congr h hw)
  · obtain hw | ⟨-, hspell⟩ := (x509NcDnsWithin_label_iff hl).mp hw
    · exact .inl ((x509NcDnsWithin_label_iff hhl).mpr (.inl (hw.congr hsame)))
    · exact .inr hspell

/-- A subtree that a host is inside of takes in each name that matches it, unless it spells the
host. -/
theorem NameMatches.within_name (h : NameMatches name host)
    (hw : x509NcDnsWithin base host = true) :
    x509NcDnsWithin base name = true ∨ SameName base host := by
  obtain h | ⟨label, hlabel, rest, hrest, rfl, rfl, hl, hhl, hsame⟩ := h.labels
  · exact .inl (x509NcDnsWithin_congr h.symm hw)
  · obtain hw | ⟨-, hspell⟩ := (x509NcDnsWithin_label_iff hhl).mp hw
    · exact .inl ((x509NcDnsWithin_label_iff hl).mpr (.inl (hw.congr hsame.symm)))
    · exact .inr hspell

/-- Where the accepted name is the host, the host is inside the constraints; through a wildcard, a
permitted subtree may spell the name, and an excluded one the host. -/
structure InsideUpToLabel (seq name host : List UInt8) : Prop where
  permitted : ncBases seq ncPermittedTag ncDnsnameTag ≠ [] →
    ∃ b ∈ ncBases seq ncPermittedTag ncDnsnameTag,
      x509NcDnsWithin b host = true ∨ (SameName b name ∧ ¬ SameName name host)
  excluded : ∀ b ∈ ncBases seq ncExcludedTag ncDnsnameTag, x509NcDnsWithin b host = true →
    SameName b host ∧ ¬ SameName name host

theorem Inside.upToLabel (h : Inside seq ncDnsnameTag x509NcDnsWithin name)
    (hm : NameMatches name host) :
    InsideUpToLabel seq name host where
  permitted := by
    intro hne
    obtain ⟨b, hb, hw⟩ := h.1 hne
    refine ⟨b, hb, ?_⟩
    by_cases hsame : SameName name host
    · exact .inl (x509NcDnsWithin_congr hsame hw)
    · exact (hm.within hw).imp_right fun hspell => ⟨hspell, hsame⟩
  excluded := by
    intro b hb hw
    have hout := h.2 b hb
    by_cases hsame : SameName name host
    · rw [x509NcDnsWithin_congr hsame.symm hw] at hout
      cases hout
    · obtain hin | hspell := hm.within_name hw
      · rw [hin] at hout
        cases hout
      · exact ⟨hspell, hsame⟩

/-! ## The names that were looked at -/

/-- An entry was admitted by the subtrees of its form. -/
theorem sanEntryOk_eq_some {e : UInt8 × List UInt8} (h : sanEntryOk seq d e = some d') :
    (e.1 = ncDnsnameTag ∧ d' = true ∧ Inside seq ncDnsnameTag x509NcDnsWithin e.2) ∨
      (e.1 ≠ ncDnsnameTag ∧ d' = d ∧ x509SanOtherEntryOk seq e.1 e.2 = true) := by
  unfold sanEntryOk at h
  split_ifs at h with htag hok hok
  · exact .inr ⟨htag, (Option.some.inj h).symm, hok⟩
  · push Not at htag
    rw [htag] at hok
    exact .inl ⟨htag, (Option.some.inj h).symm, x509TypedNameOk_iff.mp hok⟩

theorem foldlM_sanEntryOk {es : List (UInt8 × List UInt8)}
    (h : es.foldlM (sanEntryOk seq) d = some d') :
    (∀ e ∈ es, e.1 = ncDnsnameTag → Inside seq ncDnsnameTag x509NcDnsWithin e.2) ∧
      (∀ e ∈ es, e.1 ≠ ncDnsnameTag → x509SanOtherEntryOk seq e.1 e.2 = true) ∧
      ((∀ e ∈ es, e.1 ≠ ncDnsnameTag) → d' = d) := by
  induction es generalizing d with
  | nil =>
    obtain rfl := Option.some.inj h
    simp
  | cons e es ih =>
    obtain ⟨d₁, he, hes⟩ := Option.bind_eq_some_iff.mp h
    obtain ⟨hdns, hother, hnone⟩ := ih hes
    simp only [forall_mem_cons]
    obtain ⟨htag, rfl, hin⟩ | ⟨htag, rfl, hok⟩ := sanEntryOk_eq_some he
    · exact ⟨⟨fun _ => hin, hdns⟩, ⟨fun hne => absurd htag hne, hother⟩,
        fun hne => absurd htag hne.1⟩
    · exact ⟨⟨fun heq => absurd heq htag, hdns⟩, ⟨fun _ => hok, hother⟩, fun hne => hnone hne.2⟩

theorem childSanOk_of_names (h : childSanOk seq child = some d) (hgn : sanNames child = some gn) :
    (derseqElements gn).foldlM (sanEntryOk seq) false = some d := by
  obtain ⟨raw, hraw, hseq⟩ := Option.bind_eq_some_iff.mp hgn
  have hraw' : x509FindExt child ncOidSan = some raw := hraw
  simpa only [childSanOk, hraw', hseq, Option.bind_some, sanListOk] using h

theorem childSanOk_of_no_names (h : childSanOk seq child = some d) (hgn : sanNames child = none) :
    d = false := by
  unfold childSanOk at h
  cases hraw : x509FindExt child ncOidSan with
  | none =>
    rw [hraw] at h
    exact (Option.some.inj h).symm
  | some raw =>
    -- the extension is there but unreadable, which fails closed here
    have hseq : derSeq raw = none := by
      have hraw' : x509FindExt child oidSan = some raw := hraw
      simpa only [sanNames, hraw', Option.bind_some] using hgn
    rw [hraw] at h
    simp only [hseq, Option.bind_none] at h
    cases h

/-- A name of the certificate: a dNSName entry, or its commonName. -/
def IsName (tbs name : List UInt8) : Prop :=
  (∃ gn, sanNames tbs = some gn ∧ (sanDnsnameTag, name) ∈ derseqElements gn) ∨
    x509SubjectCn tbs = some name

/-- The host is accepted for a name that the constraints were applied to. -/
def BoundedByName (seq child host : List UInt8) : Prop :=
  ∃ name, IsName child name ∧ NameMatches name host ∧ InsideUpToLabel seq name host

/-- The host is accepted for a commonName that does not have the shape of a host name. -/
def ByOddCn (child host : List UInt8) : Prop :=
  ∃ cn, x509SubjectCn child = some cn ∧ ncDnsShaped cn = false ∧ x509EntryMatches cn host = true

theorem bounded_of_cn (hok : cnFallbackOk seq child = true) (h : cnIdMatches child host = true) :
    BoundedByName seq child host ∨ ByOddCn child host := by
  obtain ⟨cn, hcn, hm⟩ := cnIdMatches_iff.mp h
  cases hshape : ncDnsShaped cn with
  | false => exact .inr ⟨cn, hcn, hshape, hm⟩
  | true =>
    have hin : x509TypedNameOk seq ncDnsnameTag cn x509NcDnsWithin = true := by
      simpa [cnFallbackOk, hcn, hshape] using hok
    have hname := nameMatches_of_entryMatches hm
    exact .inl ⟨cn, .inr hcn, hname, (x509TypedNameOk_iff.mp hin).upToLabel hname⟩

theorem childNamesOk_cases (h : childNamesOk seq child = true) :
    ∃ d, childSanOk seq child = some d ∧ (d = false → cnFallbackOk seq child = true) := by
  unfold childNamesOk at h
  cases hsan : childSanOk seq child with
  | none => simp [hsan] at h
  | some d =>
    refine ⟨d, rfl, ?_⟩
    rintro rfl
    simpa [hsan] using h

theorem bounded_of_dns (hok : childNamesOk seq child = true) (h : dnsSanMatches child host = true) :
    BoundedByName seq child host ∨ ByOddCn child host := by
  obtain ⟨d, hsan, hcn⟩ := childNamesOk_cases hok
  unfold dnsSanMatches at h
  cases hgn : sanNames child with
  | none =>
    rw [hgn] at h
    exact bounded_of_cn (hcn (childSanOk_of_no_names hsan hgn)) h
  | some gn =>
    rw [hgn] at h
    obtain ⟨hdns, -, hnone⟩ := foldlM_sanEntryOk (childSanOk_of_names hsan hgn)
    cases hfound : (x509NamesMatch gn host).foundId with
    | true =>
      rw [if_pos hfound] at h
      obtain ⟨e, he, hm⟩ := x509NamesMatch_matched.mp h
      have hname := nameMatches_of_entryMatches hm
      exact .inl ⟨e, .inl ⟨gn, hgn, he⟩, hname, (hdns _ he rfl).upToLabel hname⟩
    | false =>
      have hcnm : cnIdMatches child host = true := by simpa [hfound] using h
      -- without a DNS-ID there is no dNSName, so the commonName was looked at
      have hd : d = false := by
        apply hnone
        intro e he htag
        have hid := x509NamesMatch_foundId.mp hfound e he
        rw [sanPresentedId, show e.1 = sanDnsnameTag from htag] at hid
        cases hid
      exact bounded_of_cn (hcn hd) hcnm

/-- An accepted address was an iPAddress entry, and admitted as such. -/
theorem inside_of_ipv4 (hok : childNamesOk seq child = true) (hgn : sanNames child = some gn)
    (hparse : sanIpv4Parse host = some a) (h : ipv4SanMatches child host a = true) :
    Inside seq ncIpaddrTag x509NcIpWithin a := by
  obtain ⟨o₁, o₂, o₃, o₄, rfl, -⟩ := sanIpv4Parse_eq_some.mp hparse
  obtain ⟨d, hsan, -⟩ := childNamesOk_cases hok
  obtain ⟨-, hother, -⟩ := foldlM_sanEntryOk (childSanOk_of_names hsan hgn)
  simp only [ipv4SanMatches, hgn] at h
  have htag : sanIpaddrTag ≠ ncDnsnameTag := by decide
  have hentry := hother _ (ipv4NamesMatch_iff.mp h) htag
  exact x509TypedNameOk_iff.mp hentry

/-! ## Entries that cannot be read -/

/-- The subtree entries that the scan reads in one half of the extension. -/
def ncEntries (seq : List UInt8) (half : UInt8) : List (UInt8 × List UInt8) :=
  match x509NcHalf seq half with
  | none => []
  | some subtrees => derseqElements subtrees

/-- The first extension is the second one without the entries whose base cannot be read. -/
def WithoutUnreadable (seq' seq : List UInt8) : Prop :=
  ∀ half, ncEntries seq' half = (ncEntries seq half).filter fun e => (subtreeBase e.2).isSome

theorem ncBases_eq (seq : List UInt8) (half want : UInt8) :
    ncBases seq half want = (ncEntries seq half).filterMap fun e =>
      (subtreeBase e.2).bind fun b => if b.1 = want then some b.2 else none := by
  unfold ncBases ncEntries
  cases x509NcHalf seq half <;> rfl

section

variable {seq' : List UInt8}

theorem WithoutUnreadable.bases (h : WithoutUnreadable seq' seq) (half want : UInt8) :
    ncBases seq' half want = ncBases seq half want := by
  rw [ncBases_eq, ncBases_eq, h half, filterMap_filter]
  apply filterMap_congr
  intro e _
  cases subtreeBase e.2 <;> rfl

theorem WithoutUnreadable.typedNameOk (h : WithoutUnreadable seq' seq) (want : UInt8)
    (name : List UInt8) (m : NcMatcher) :
    x509TypedNameOk seq' want name m = x509TypedNameOk seq want name m := by
  rw [Bool.eq_iff_iff, x509TypedNameOk_iff, x509TypedNameOk_iff, Inside, Inside, h.bases, h.bases]

/-- A matcher that does not look at the name asks for a base only. -/
theorem halfCovers_eq {p : List UInt8 → Bool} (hm : ∀ b n, m b n = p b) (half want : UInt8) :
    halfCovers seq half want m = (ncBases seq half want).any p := by
  unfold halfCovers ncBases
  cases x509NcHalf seq half with
  | none => rfl
  | some subtrees => simp only [typedScan, foldl_x509TypedFold, Bool.false_or, hm]

section

variable (h : WithoutUnreadable seq' seq)

include h

theorem WithoutUnreadable.halfCovers {p : List UInt8 → Bool}
    (hm : ∀ b n, m b n = p b) (half want : UInt8) :
    halfCovers seq' half want m = halfCovers seq half want m := by
  rw [halfCovers_eq hm, halfCovers_eq hm, h.bases]

theorem WithoutUnreadable.halfCount_le (half : UInt8) :
    halfCount seq' half ≤ halfCount seq half := by
  have hcount (s : List UInt8) : halfCount s half = (ncEntries s half).length := by
    unfold halfCount ncEntries
    cases x509NcHalf s half <;> rfl
  rw [hcount, hcount, h half]
  exact length_filter_le _ _

theorem WithoutUnreadable.usable (hu : ncUsable seq = true) : ncUsable seq' = true := by
  have hip : x509IpBasesMalformed seq' = x509IpBasesMalformed seq := by
    have hm : ∀ b n, ncIpMalformed b n = (b.length != 8 && b.length != 32) := fun _ _ => rfl
    rw [x509IpBasesMalformed, x509IpBasesMalformed, h.halfCovers hm, h.halfCovers hm]
  simp only [ncUsable, Bool.and_eq_true, Bool.not_eq_true', x509NcTooMany,
    decide_eq_false_iff_not] at hu ⊢
  refine ⟨hip.trans hu.1, ?_⟩
  have hp := h.halfCount_le ncPermittedTag
  have he := h.halfCount_le ncExcludedTag
  omega

theorem WithoutUnreadable.sanEntryOk : sanEntryOk seq' = sanEntryOk seq := by
  have huri : uriSanOk seq' = uriSanOk seq := by
    have hm : ∀ b n, ncAlways b n = true := fun _ _ => rfl
    rw [uriSanOk, uriSanOk, h.halfCovers hm, h.halfCovers hm]
  have hother (tag : UInt8) (e : List UInt8) :
      x509SanOtherEntryOk seq' tag e = x509SanOtherEntryOk seq tag e := by
    simp only [x509SanOtherEntryOk, sanTypedEntryOk, huri, h.typedNameOk]
  funext d e
  simp only [Pki.sanEntryOk, hother, h.typedNameOk]

theorem WithoutUnreadable.childNamesOk (child : List UInt8) :
    childNamesOk seq' child = childNamesOk seq child := by
  simp only [Pki.childNamesOk, childSanOk, sanListOk, h.sanEntryOk, cnFallbackOk, h.typedNameOk]

/-- An entry that cannot be read does not make the check admit more. -/
theorem WithoutUnreadable.admitted
    (hadm : ncAdmit seq child = true) : ncAdmit seq' child = true := by
  have hsubject : childSubjectOk seq' child = childSubjectOk seq child := by
    simp only [childSubjectOk, h.typedNameOk]
  unfold ncAdmit at hadm ⊢
  split_ifs at hadm with hu hs
  have hu' : ncUsable seq' = true := h.usable (by simpa using hu)
  have hs' : childSubjectOk seq' child = true := by simpa [hsubject] using hs
  simpa [hu', hs', h.childNamesOk] using hadm

end

end

/-! ## The hosts of an admitted certificate -/

theorem childNamesOk_of_admitted {issuer : List UInt8} (hloc : x509NcLocate issuer = some seq)
    (hadm : x509NameConstraintsAdmit issuer child = true) :
    ncAdmit seq child = true ∧ childNamesOk seq child = true := by
  have h : ncAdmit seq child = true := by simpa [x509NameConstraintsAdmit, hloc] using hadm
  refine ⟨h, ?_⟩
  unfold ncAdmit at h
  split_ifs at h
  exact h

/-- The hosts that the check accepts for a certificate which the name constraints of an issuer
admit. An address read from an iPAddress entry is inside them; a host accepted by a name is inside
them up to its leftmost label, unless the name is a commonName without the shape of a host name.
Without the subtree entries that cannot be read the certificate is admitted all the same. -/
theorem admitted_host_bounded {issuer child host seq : List UInt8}
    (hloc : x509NcLocate issuer = some seq)
    (hadm : x509NameConstraintsAdmit issuer child = true)
    (hmatch : x509SanMatches child host = true) :
    (∀ a gn, sanIpv4Parse host = some a → sanNames child = some gn →
        Inside seq ncIpaddrTag x509NcIpWithin a) ∧
      (sanIpv4Parse host = none ∨ sanNames child = none →
        BoundedByName seq child host ∨ ByOddCn child host) ∧
      ∀ seq', WithoutUnreadable seq' seq → ncAdmit seq' child = true := by
  obtain ⟨hadm, hnames⟩ := childNamesOk_of_admitted hloc hadm
  refine ⟨?_, ?_, fun seq' h => h.admitted hadm⟩
  · intro a gn hparse hgn
    have h : ipv4SanMatches child host a = true := by simpa [x509SanMatches, hparse] using hmatch
    exact inside_of_ipv4 hnames hgn hparse h
  · intro hby
    cases hparse : sanIpv4Parse host with
    | none =>
      have h : dnsSanMatches child host = true := by simpa [x509SanMatches, hparse] using hmatch
      exact bounded_of_dns hnames h
    | some a =>
      -- an address without readable GeneralNames is looked for in the commonName
      have hgn : sanNames child = none := hby.resolve_left (by simp [hparse])
      have h : cnIdMatches child host = true := by
        simpa [x509SanMatches, hparse, ipv4SanMatches, hgn] using hmatch
      obtain ⟨d, hsan, hcn⟩ := childNamesOk_cases hnames
      exact bounded_of_cn (hcn (childSanOk_of_no_names hsan hgn)) h

/-- A certificate with the dNSName `*.ab`. -/
def wildcardSanTbs : List UInt8 :=
  [0x30, 0x22, 0x02, 0x01, 0x01, 0x30, 0x00, 0x30, 0x00, 0x30, 0x00, 0x30, 0x00, 0x30, 0x00, 0xa3,
    0x13, 0x30, 0x11, 0x30, 0x0f, 0x06, 0x03, 0x55, 0x1d, 0x11, 0x04, 0x08, 0x30, 0x06, 0x82, 0x04,
    0x2a, 0x2e, 0x61, 0x62]

/-- `x.ab`. -/
def hostXAb : List UInt8 := [0x78, 0x2e, 0x61, 0x62]

/-- `y.ab`. -/
def hostYAb : List UInt8 := [0x79, 0x2e, 0x61, 0x62]

/-- Constraints that exclude `x.ab`. -/
def excludesXAb : List UInt8 := [0xa1, 0x08, 0x30, 0x06, 0x82, 0x04] ++ hostXAb

/-- An issuer with these constraints. -/
def excludesXAbTbs : List UInt8 :=
  [0x30, 0x26, 0x02, 0x01, 0x01, 0x30, 0x00, 0x30, 0x00, 0x30, 0x00, 0x30, 0x00, 0x30, 0x00, 0xa3,
    0x17, 0x30, 0x15, 0x30, 0x13, 0x06, 0x03, 0x55, 0x1d, 0x1e, 0x04, 0x0c, 0x30, 0x0a] ++
    excludesXAb

/-- The certificate for `*.ab` and the host `y.ab`. -/
theorem admitted_host_bounded_wildcard :
    x509SanMatches wildcardSanTbs hostYAb = true ∧
      (BoundedByName excludesXAb wildcardSanTbs hostYAb ∨ ByOddCn wildcardSanTbs hostYAb) := by
  have hloc : x509NcLocate excludesXAbTbs = some excludesXAb := by decide
  have hadm : x509NameConstraintsAdmit excludesXAbTbs wildcardSanTbs = true := by decide
  have hmatch : x509SanMatches wildcardSanTbs hostYAb = true := by decide
  exact ⟨hmatch, (admitted_host_bounded hloc hadm hmatch).2.1 (.inl (by decide))⟩

/-- The issuer that excludes `x.ab` admits the certificate for `*.ab`, which is then accepted for
`x.ab`. -/
theorem wildcard_into_excluded :
    x509NcLocate excludesXAbTbs = some excludesXAb ∧
      x509NameConstraintsAdmit excludesXAbTbs wildcardSanTbs = true ∧
      x509SanMatches wildcardSanTbs hostXAb = true ∧
      ¬ Inside excludesXAb ncDnsnameTag x509NcDnsWithin hostXAb := by
  refine ⟨by decide, by decide, by decide, fun h => ?_⟩
  have hout := h.2 hostXAb (by decide)
  exact absurd hout (by decide)

end Wired.Pki
