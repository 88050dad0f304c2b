import Mathlib.Algebra.Group.Nat.Defs
import Mathlib.Data.List.TakeWhile
import Wired.Bytes.Compare
import Wired.Pki.Der

/-!
# Host names

Comparing a name of a certificate with a host (`san.c`), and reading a host as a dotted-decimal
IPv4 address (`san_ipv4.c`). A name matches a host when they are the same up to the case of ASCII
letters, or through a wildcard in its leftmost label (`NameMatches`). The address reader takes the
text of an address, and also that text with a dot behind it (`sanIpv4Parse_eq_some`).
-/

namespace Wired.Pki

open List Option

def dot : UInt8 := 0x2e
def star : UInt8 := 0x2a

/-! ## Names -/

def asciiLower (c : UInt8) : UInt8 := if 0x41 ≤ c && c ≤ 0x5a then c ||| 0x20 else c

def asciiDnsEq (a b : List UInt8) : Bool :=
  if a.length ≠ b.length then false
  else (List.zipWith (fun x y => asciiLower x ^^^ asciiLower y) a b).foldl (· ||| ·) 0 == 0

def firstDot (name : List UInt8) : ℕ := (name.takeWhile (· != dot)).length

def wildcardStar (label : List UInt8) : ℕ := (label.takeWhile (· != star)).length

def labelWildcardMatch (label hlabel : List UInt8) (star : ℕ) : Bool :=
  let pre := label.take star
  let suffix := label.drop (star + 1)
  if hlabel.length < pre.length + suffix.length then false
  else asciiDnsEq pre (hlabel.take pre.length) &&
    asciiDnsEq suffix (hlabel.drop (hlabel.length - suffix.length))

def isAlabel (label : List UInt8) : Bool :=
  4 ≤ label.length && asciiDnsEq (label.take 4) [0x78, 0x6e, 0x2d, 0x2d]

def isWildcard (entry : List UInt8) : Bool :=
  let ldot := firstDot entry
  let label := entry.take ldot
  ldot < entry.length && wildcardStar label < ldot && !isAlabel label

def wildcardApplicable (entry : List UInt8) (hdot hostN : ℕ) : Bool :=
  isWildcard entry && hdot < hostN

def wildcardMatch (entry host : List UInt8) : Bool :=
  let edot := firstDot entry
  let hdot := firstDot host
  if !wildcardApplicable entry hdot host.length then false
  else if !labelWildcardMatch (entry.take edot) (host.take hdot)
      (wildcardStar (entry.take edot)) then false
  else asciiDnsEq (entry.drop edot) (host.drop hdot)

def x509EntryMatches (e host : List UInt8) : Bool := asciiDnsEq e host || wildcardMatch e host

/-- The same up to the case of ASCII letters. -/
def SameName (a b : List UInt8) : Prop := a.map asciiLower = b.map asciiLower
deriving Decidable

/-- The name and the host are the same, or the leftmost label of the name has a star, that of the
host begins with what stands before it and ends with what stands behind it, and the other labels are
the same. -/
inductive NameMatches : List UInt8 → List UInt8 → Prop
  | same {name host : List UInt8} (same : SameName name host) : NameMatches name host
  | wildcard {before behind rest hbefore mid hbehind hrest : List UInt8}
      (label : dot ∉ before ++ behind) (hostLabel : dot ∉ hbefore ++ (mid ++ hbehind))
      (sameBefore : SameName before hbefore) (sameBehind : SameName behind hbehind)
      (sameRest : SameName rest hrest) :
      NameMatches (before ++ star :: (behind ++ dot :: rest))
        (hbefore ++ (mid ++ (hbehind ++ dot :: hrest)))

theorem asciiDnsEq_iff {a b : List UInt8} : asciiDnsEq a b = true ↔ SameName a b := by
  unfold asciiDnsEq SameName
  split
  · next hlen =>
    simp only [Bool.false_eq_true, false_iff]
    intro h
    exact hlen (by simpa using congrArg List.length h)
  · next hlen =>
    rw [beq_iff_eq, Bytes.foldl_or_eq_zero]
    push Not at hlen
    induction a generalizing b with
    | nil =>
      cases b with
      | nil => simp
      | cons y b => cases hlen
    | cons x a ih =>
      cases b with
      | nil => cases hlen
      | cons y b =>
        have ih := ih (b := b) (by simpa using hlen)
        simp only [true_and] at ih
        simp [ih]

/-- A list that has an element is what stands before the first one, the element and the rest. -/
theorem exists_split_at {x : UInt8} {l : List UInt8}
    (h : (l.takeWhile (· != x)).length < l.length) :
    ∃ r, l = l.takeWhile (· != x) ++ x :: r := by
  induction l with
  | nil => cases h
  | cons y l ih =>
    by_cases hy : y = x
    · exact ⟨l, by simp [hy]⟩
    · rw [takeWhile_cons_of_pos (by simpa using hy)] at h ⊢
      obtain ⟨r, hr⟩ := ih (Nat.lt_of_succ_lt_succ h)
      exact ⟨r, by rw [cons_append, ← hr]⟩

theorem not_mem_takeWhile (x : UInt8) (l : List UInt8) : x ∉ l.takeWhile (· != x) := by
  intro h
  simpa using mem_takeWhile_imp h

theorem exists_first_label {name : List UInt8} (h : firstDot name < name.length) :
    ∃ label rest, name = label ++ dot :: rest ∧ dot ∉ label ∧ name.take (firstDot name) = label ∧
      name.drop (firstDot name) = dot :: rest := by
  obtain ⟨rest, hrest⟩ := exists_split_at h
  have htake : name.take (firstDot name) = name.takeWhile (· != dot) :=
    (prefix_iff_eq_take.mp (List.takeWhile_prefix _)).symm
  refine ⟨_, rest, hrest, not_mem_takeWhile dot name, htake, ?_⟩
  have hdrop : name.takeWhile (· != dot) ++ name.drop (firstDot name) =
      name.takeWhile (· != dot) ++ dot :: rest := by
    rw [← hrest, ← htake, take_append_drop]
  exact append_cancel_left hdrop

theorem labelWildcardMatch_eq {before behind hlabel : List UInt8}
    (h : labelWildcardMatch (before ++ star :: behind) hlabel before.length = true) :
    ∃ hbefore mid hbehind, hlabel = hbefore ++ (mid ++ hbehind) ∧ SameName before hbefore ∧
      SameName behind hbehind := by
  have hpre : (before ++ star :: behind).take before.length = before := take_left
  have hsuf : (before ++ star :: behind).drop (before.length + 1) = behind := by
    rw [← drop_drop, drop_left, drop_one, tail_cons]
  rw [labelWildcardMatch, hpre, hsuf] at h
  split at h
  · cases h
  rename_i hlen
  obtain ⟨hb, hs⟩ := Bool.and_eq_true_iff.mp h
  refine ⟨hlabel.take before.length,
    (hlabel.drop before.length).take (hlabel.length - behind.length - before.length),
    hlabel.drop (hlabel.length - behind.length), ?_, asciiDnsEq_iff.mp hb, asciiDnsEq_iff.mp hs⟩
  have hmid : hlabel.drop (hlabel.length - behind.length) =
      (hlabel.drop before.length).drop (hlabel.length - behind.length - before.length) := by
    rw [drop_drop]
    congr 1
    omega
  rw [hmid, take_append_drop, take_append_drop]

variable {entry host d s r o : List UInt8} {n : ℕ}

theorem exists_wildcard_label (h : isWildcard entry = true) :
    ∃ before behind rest, entry = before ++ star :: (behind ++ dot :: rest) ∧
      dot ∉ before ++ behind ∧ entry.take (firstDot entry) = before ++ star :: behind ∧
      wildcardStar (entry.take (firstDot entry)) = before.length ∧
      entry.drop (firstDot entry) = dot :: rest := by
  simp only [isWildcard, Bool.and_eq_true, decide_eq_true_eq] at h
  obtain ⟨⟨hdot, hstar⟩, -⟩ := h
  obtain ⟨label, rest, hentry, hlabel, htake, hdrop⟩ := exists_first_label hdot
  have hlen : firstDot entry = label.length := by rw [← htake, length_take_of_le hdot.le]
  rw [htake] at hstar ⊢
  rw [hlen] at hstar
  obtain ⟨behind, hbehind⟩ := exists_split_at hstar
  refine ⟨label.takeWhile (· != star), behind, rest, ?_, ?_, hbehind, rfl, hdrop⟩
  · rw [← cons_append, ← append_assoc, ← hbehind]
    exact hentry
  · rw [hbehind] at hlabel
    simp only [mem_append, mem_cons, not_or] at hlabel ⊢
    exact ⟨hlabel.1, hlabel.2.2⟩

theorem nameMatches_of_wildcardMatch (h : wildcardMatch entry host = true) :
    NameMatches entry host := by
  simp only [wildcardMatch] at h
  split_ifs at h with happ hlabel
  simp only [Bool.not_eq_true, Bool.not_eq_false', wildcardApplicable, Bool.and_eq_true,
    decide_eq_true_eq] at happ hlabel
  obtain ⟨before, behind, rest, hentry, hdot, htake, hstar, hdrop⟩ := exists_wildcard_label happ.1
  obtain ⟨hl, hrest, hhost, hhdot, hhtake, hhdrop⟩ := exists_first_label happ.2
  rw [hstar, htake, hhtake] at hlabel
  rw [hdrop, hhdrop, asciiDnsEq_iff] at h
  obtain ⟨hbefore, mid, hbehind, rfl, hsame, hsame'⟩ := labelWildcardMatch_eq hlabel
  rw [hentry, hhost, append_assoc, append_assoc]
  exact .wildcard hdot hhdot hsame hsame' (List.cons.inj h).2

theorem nameMatches_of_entryMatches {e : List UInt8} (h : x509EntryMatches e host = true) :
    NameMatches e host := by
  obtain h | h := Bool.or_eq_true_iff.mp h
  · exact .same (asciiDnsEq_iff.mp h)
  · exact nameMatches_of_wildcardMatch h

/-! ## Addresses -/

def octetLenOk (d : List UInt8) : Bool := 1 ≤ d.length && d.length ≤ 3

def noLeadingZero (d : List UInt8) : Bool := d.length == 1 || d.headD 0 != 0x30

def octetDigitsShapeOk (d : List UInt8) : Bool := octetLenOk d && noLeadingZero d

def digitValue (c : UInt8) : Option ℕ :=
  if 0x30 ≤ c && c ≤ 0x39 then some (c.toNat - 0x30) else none

def digitsValue (d : List UInt8) : Option ℕ :=
  d.foldlM (fun v c => (digitValue c).map fun dv => (v * 10 + dv) % 2 ^ 32) 0

def octetDigitsValue (d : List UInt8) : Option ℕ :=
  if octetDigitsShapeOk d then digitsValue d else none

/-- The octet at the head of the text, and the text behind it and its dot. -/
def ipv4Octet (s : List UInt8) : Option (UInt8 × List UInt8) :=
  match octetDigitsValue (s.takeWhile (· != dot)) with
  | none => none
  | some v =>
    if 255 < v then none else some (UInt8.ofNat v, (s.dropWhile (· != dot)).drop 1)

def ipv4Octets : ℕ → List UInt8 → Option (List UInt8 × List UInt8)
  | 0, s => some ([], s)
  | n + 1, s => (ipv4Octet s).bind fun r => (ipv4Octets n r.2).map fun t => (r.1 :: t.1, t.2)

/-- Four octets with dots, to the end of the host. -/
def sanIpv4Parse (host : List UInt8) : Option (List UInt8) :=
  (ipv4Octets 4 host).bind fun r => if r.2 = [] then some r.1 else none

def octetText (v : UInt8) : List UInt8 :=
  if v < 10 then [0x30 + v]
  else if v < 100 then [0x30 + v / 10, 0x30 + v % 10]
  else [0x30 + v / 100, 0x30 + v / 10 % 10, 0x30 + v % 10]

def ipv4Text (a b c d : UInt8) : List UInt8 :=
  octetText a ++ dot :: (octetText b ++ dot :: (octetText c ++ dot :: octetText d))

theorem octetDigitsValue_octetText (v : UInt8) : octetDigitsValue (octetText v) = some v.toNat := by
  have h : ∀ n < 256, octetDigitsValue (octetText (UInt8.ofNat n)) = some n := by decide +kernel
  simpa only [UInt8.ofNat_toNat] using h v.toNat v.toNat_lt

theorem dot_not_mem_octetText (v : UInt8) : dot ∉ octetText v := by
  have h : ∀ n < 256, dot ∉ octetText (UInt8.ofNat n) := by decide +kernel
  simpa only [UInt8.ofNat_toNat] using h v.toNat v.toNat_lt

def digitByte (i : ℕ) : UInt8 := UInt8.ofNat (0x30 + i)

theorem digitValue_eq_some {c : UInt8} {i : ℕ} (h : digitValue c = some i) :
    i < 10 ∧ c = digitByte i := by
  simp only [digitValue, Bool.and_eq_true, decide_eq_true_eq, UInt8.le_iff_toNat_le] at h
  split_ifs at h with hc
  have hlo : 0x30 ≤ c.toNat := hc.1
  have hhi : c.toNat ≤ 0x39 := hc.2
  cases h
  refine ⟨by omega, ?_⟩
  rw [digitByte, Nat.add_sub_cancel' hlo, UInt8.ofNat_toNat]

theorem exists_digits {v : ℕ}
    (h : d.foldlM (fun v c => (digitValue c).map fun dv => (v * 10 + dv) % 2 ^ 32) v = some n) :
    ∃ is : List ℕ, (∀ i ∈ is, i < 10) ∧ d = is.map digitByte := by
  induction d generalizing v with
  | nil => exact ⟨[], by simp, rfl⟩
  | cons c d ih =>
    obtain ⟨w, hw, h⟩ := bind_eq_some_iff.mp h
    obtain ⟨i, hi, -⟩ := map_eq_some_iff.mp hw
    obtain ⟨is, his, rfl⟩ := ih h
    obtain ⟨hlt, rfl⟩ := digitValue_eq_some hi
    exact ⟨i :: is, forall_mem_cons.mpr ⟨hlt, his⟩, rfl⟩

/-- If the digits have the value of an octet, they are its text. -/
def isOctetText (ds : List UInt8) : Bool :=
  (octetDigitsValue ds).all fun n => 255 < n || ds == octetText (UInt8.ofNat n)

/-- The value of one, two or three digits has no other text. -/
theorem eq_octetText (h : octetDigitsValue d = some n) (hn : n ≤ 255) :
    d = octetText (UInt8.ofNat n) := by
  have hall {ds : List UInt8} (hds : isOctetText ds) (hd : d = ds) :
      d = octetText (UInt8.ofNat n) := by
    rw [← hd, isOctetText, h, all_some] at hds
    simpa [Nat.not_lt.mpr hn] using hds
  have h₁ : ∀ i < 10, isOctetText [digitByte i] := by decide +kernel
  have h₂ : ∀ i < 10, ∀ j < 10, isOctetText [digitByte i, digitByte j] := by decide +kernel
  have h₃ : ∀ i < 10, ∀ j < 10, ∀ k < 10,
      isOctetText [digitByte i, digitByte j, digitByte k] := by
    decide +kernel
  have hvalue := h
  rw [octetDigitsValue] at hvalue
  split_ifs at hvalue with hshape
  obtain ⟨is, his, hd⟩ := exists_digits hvalue
  simp only [octetDigitsShapeOk, octetLenOk, Bool.and_eq_true, decide_eq_true_eq] at hshape
  have hlen : 1 ≤ is.length ∧ is.length ≤ 3 := by
    have hd' := congrArg List.length hd
    rw [length_map] at hd'
    rw [← hd']
    exact hshape.1
  match is, his, hd, hlen with
  | [i], his, hd, _ => exact hall (h₁ i (his i (by simp))) hd
  | [i, j], his, hd, _ => exact hall (h₂ i (his i (by simp)) j (his j (by simp))) hd
  | [i, j, k], his, hd, _ =>
    exact hall (h₃ i (his i (by simp)) j (his j (by simp)) k (his k (by simp))) hd

theorem ipv4Octet_eq_some {v : UInt8} :
    ipv4Octet s = some (v, r) ↔ (s = octetText v ∧ r = []) ∨ s = octetText v ++ dot :: r := by
  constructor
  · intro h
    rw [ipv4Octet] at h
    split at h
    · cases h
    rename_i n hn
    split_ifs at h with hle
    obtain ⟨rfl, rfl⟩ := Prod.mk.inj (Option.some.inj h)
    rw [← eq_octetText hn (Nat.le_of_not_lt hle)]
    have hs : s = s.takeWhile (· != dot) ++ s.dropWhile (· != dot) :=
      takeWhile_append_dropWhile.symm
    by_cases hdot : (s.takeWhile (· != dot)).length < s.length
    · obtain ⟨r, hr⟩ := exists_split_at hdot
      have hdrop : s.dropWhile (· != dot) = dot :: r := append_cancel_left (hs.symm.trans hr)
      rw [hdrop]
      exact .inr hr
    · have hdrop : s.dropWhile (· != dot) = [] := by
        have hlen := congrArg List.length hs
        rw [length_append] at hlen
        exact length_eq_zero_iff.mp (by omega)
      rw [hdrop, append_nil] at hs
      rw [hdrop]
      exact .inl ⟨hs, rfl⟩
  · have htext : ∀ c ∈ octetText v, (c != dot) = true := by
      intro c hc
      simp only [bne_iff_ne, ne_eq]
      rintro rfl
      exact dot_not_mem_octetText v hc
    have hv : ¬ 255 < v.toNat := Nat.not_lt.mpr (Nat.le_of_lt_succ v.toNat_lt)
    rintro (⟨rfl, rfl⟩ | rfl)
    · rw [ipv4Octet, takeWhile_eq_self_iff.mpr htext, octetDigitsValue_octetText,
        dropWhile_eq_nil_iff.mpr htext]
      simp only [if_neg hv, UInt8.ofNat_toNat, drop_nil]
    · rw [ipv4Octet, takeWhile_append_of_pos htext, dropWhile_append_of_pos htext]
      have htake : (dot :: r).takeWhile (· != dot) = [] := takeWhile_cons_of_neg (by decide)
      have hdrop : (dot :: r).dropWhile (· != dot) = dot :: r := dropWhile_cons_of_neg (by decide)
      rw [htake, hdrop, append_nil, octetDigitsValue_octetText]
      simp only [if_neg hv, UInt8.ofNat_toNat, drop_one, tail_cons]

theorem ipv4Octets_succ_eq_some :
    ipv4Octets (n + 2) s = some (o, r) ↔
      ∃ a t o', o = a :: o' ∧ s = octetText a ++ dot :: t ∧ ipv4Octets (n + 1) t = some (o', r) := by
  rw [ipv4Octets]
  constructor
  · intro h
    obtain ⟨⟨a, t⟩, ha, h⟩ := bind_eq_some_iff.mp h
    obtain ⟨⟨o', r'⟩, ho, h⟩ := map_eq_some_iff.mp h
    obtain ⟨rfl, rfl⟩ := Prod.mk.inj h
    obtain ⟨-, rfl⟩ | hs := ipv4Octet_eq_some.mp ha
    · cases ho
    · exact ⟨a, t, o', rfl, hs, ho⟩
  · rintro ⟨a, t, o', rfl, hs, ho⟩
    rw [ipv4Octet_eq_some.mpr (.inr hs), bind_some, ho]
    rfl

theorem sanIpv4Parse_eq_some :
    sanIpv4Parse host = some o ↔
      ∃ a b c d, o = [a, b, c, d] ∧
        (host = ipv4Text a b c d ∨ host = ipv4Text a b c d ++ [dot]) := by
  have hlast {s o : List UInt8} : ipv4Octets 1 s = some (o, []) ↔
      ∃ d, o = [d] ∧ (s = octetText d ∨ s = octetText d ++ [dot]) := by
    constructor
    · intro h
      obtain ⟨⟨d, t⟩, hd, h⟩ := bind_eq_some_iff.mp h
      obtain ⟨rfl, rfl⟩ := Prod.mk.inj (Option.some.inj h)
      obtain ⟨hs, -⟩ | hs := ipv4Octet_eq_some.mp hd
      · exact ⟨d, rfl, .inl hs⟩
      · exact ⟨d, rfl, .inr hs⟩
    · rintro ⟨d, rfl, hs | hs⟩
      · rw [ipv4Octets, ipv4Octet_eq_some.mpr (.inl ⟨hs, rfl⟩)]
        rfl
      · rw [ipv4Octets, ipv4Octet_eq_some.mpr (.inr hs)]
        rfl
  have hparse : sanIpv4Parse host = some o ↔ ipv4Octets 4 host = some (o, []) := by
    simp only [sanIpv4Parse, bind_eq_some_iff, Prod.exists, ite_none_right_eq_some,
      Option.some.injEq]
    constructor
    · rintro ⟨o', r, h, rfl, rfl⟩
      exact h
    · intro h
      exact ⟨o, [], h, rfl, rfl⟩
  rw [hparse, ipv4Octets_succ_eq_some]
  simp only [ipv4Octets_succ_eq_some, hlast, ipv4Text]
  constructor
  · rintro ⟨a, s₁, o₁, rfl, rfl, b, s₂, o₂, rfl, rfl, c, s₃, o₃, rfl, rfl, d, rfl, rfl | rfl⟩
    · exact ⟨a, b, c, d, rfl, .inl rfl⟩
    · exact ⟨a, b, c, d, rfl, .inr (by simp)⟩
  · rintro ⟨a, b, c, d, rfl, rfl | rfl⟩
    · exact ⟨a, _, _, rfl, rfl, b, _, _, rfl, rfl, c, _, _, rfl, rfl, d, rfl, .inl rfl⟩
    · exact ⟨a, octetText b ++ dot :: (octetText c ++ dot :: (octetText d ++ [dot])), _, rfl,
        by simp, b, _, _, rfl, rfl, c, _, _, rfl, rfl, d, rfl, .inr rfl⟩

end Wired.Pki
