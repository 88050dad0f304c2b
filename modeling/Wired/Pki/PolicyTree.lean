import Mathlib.Data.List.Induction
import Wired.Pki.Certificate

/-!
# Certificate policies

`certpolicies.c` and `policytree.c`: the policies of a certificate, and the valid policy tree of
RFC 5280 6.1.3 (d) without policy mappings, which is then a set of policies or the wildcard it
begins as. A chain is folded into it from the trust anchor towards the leaf, each certificate with
the state of inhibit_anypolicy at its place (`policyFold_nonempty_iff`).
-/

namespace Wired.Pki

open List

abbrev Oid : Type := List UInt8

def x509CertPolicyMax : ℕ := 8
def oidCertPolicies : Oid := [0x55, 0x1d, 0x20]
def x509OidAnyPolicy : Oid := [0x55, 0x1d, 0x20, 0x00]

/-- The policies of one certificate, of which only so many are kept. -/
structure X509PolicySet where
  oid : List Oid := []
  bounded : oid.length ≤ x509CertPolicyMax := by decide
deriving DecidableEq, Repr

/-- `policy_set_add`; the fold of an intersection appends in the same way. -/
def policySetAdd (out : X509PolicySet) (oid : Oid) : X509PolicySet :=
  if h : out.oid.length < x509CertPolicyMax then
    ⟨out.oid ++ [oid], by rw [length_append]; exact h⟩
  else out

def cpLocate (tbs : List UInt8) : Option (List UInt8) :=
  (x509FindExt tbs oidCertPolicies).bind derSeq

def policyInfoId (info : List UInt8) : Option Oid := (derseqNextTagged info derOid).map Prod.fst

/-- The identifiers of the extension, however many; an element without one is passed over. -/
def cpIds (seq : List UInt8) : List Oid :=
  (derseqElements seq).filterMap fun info => policyInfoId info.2

def cpScan (seq : List UInt8) : X509PolicySet := (cpIds seq).foldl policySetAdd {}

def x509CertPolicies (tbs : List UInt8) : Option X509PolicySet := (cpLocate tbs).map cpScan

def setContains (set : X509PolicySet) (oid : Oid) : Bool := set.oid.any (· == oid)

def x509PolicySetHasAny (set : X509PolicySet) : Bool := setContains set x509OidAnyPolicy

/-- A set of policies, or the wildcard. -/
structure X509PolicyTree where
  set : X509PolicySet := {}
  isAny : Bool := true
deriving DecidableEq, Repr

def x509PolicyTreeNonempty (t : X509PolicyTree) : Bool := t.isAny || 0 < t.set.oid.length

def intersectFold (b out : X509PolicySet) (cand : Oid) : X509PolicySet :=
  if setContains b cand then policySetAdd out cand else out

def setIntersect (a b : X509PolicySet) : X509PolicySet := a.oid.foldl (intersectFold b) {}

def policyNarrow (t : X509PolicyTree) (cp : X509PolicySet) : X509PolicyTree :=
  { set := if t.isAny then cp else setIntersect t.set cp, isAny := false }

def stripAny (s : X509PolicySet) : X509PolicySet where
  oid := s.oid.filter (· != x509OidAnyPolicy)
  bounded := Nat.le_trans (length_filter_le _ _) s.bounded

def foldInhibited (t : X509PolicyTree) (cp : X509PolicySet) : X509PolicyTree :=
  policyNarrow t (stripAny cp)

def foldUninhibited (t : X509PolicyTree) (cp : X509PolicySet) : X509PolicyTree :=
  if x509PolicySetHasAny cp then t else policyNarrow t cp

def foldPresent (t : X509PolicyTree) (cp : X509PolicySet) (anyInhibited : Bool) : X509PolicyTree :=
  if anyInhibited then foldInhibited t cp else foldUninhibited t cp

def x509PolicyTreeFold (t : X509PolicyTree) (tbs : List UInt8) (anyInhibited : Bool) :
    X509PolicyTree :=
  if !x509PolicyTreeNonempty t then t
  else
    match x509CertPolicies tbs with
    | none => { set := {}, isAny := false }
    | some cp => foldPresent t cp anyInhibited

/-! ## Sets of bounded size -/

theorem foldl_policySetAdd (oids : List Oid) (out : X509PolicySet)
    (h : out.oid.length + oids.length ≤ x509CertPolicyMax) :
    (oids.foldl policySetAdd out).oid = out.oid ++ oids := by
  induction oids generalizing out with
  | nil => simp
  | cons oid oids ih =>
    rw [length_cons] at h
    have hadd : (policySetAdd out oid).oid = out.oid ++ [oid] := by
      rw [policySetAdd, dif_pos (by omega)]
    rw [foldl_cons, ih _ (by rw [hadd, length_append]; simp; omega), hadd,
      append_assoc, singleton_append]

theorem mem_setIntersect {a b : X509PolicySet} {oid : Oid} :
    oid ∈ (setIntersect a b).oid ↔ oid ∈ a.oid ∧ oid ∈ b.oid := by
  have hfold : setIntersect a b = (a.oid.filter (setContains b)).foldl policySetAdd {} := by
    rw [foldl_filter]
    rfl
  rw [hfold, foldl_policySetAdd, nil_append, mem_filter]
  · simp [setContains]
  · have := length_filter_le (setContains b) a.oid
    have := a.bounded
    simp
    omega

/-! ## What a certificate allows -/

def certPolicyIds (tbs : List UInt8) : Option (List Oid) := (cpLocate tbs).map cpIds

/-- The number of policies is within the bound of a set. -/
def PolicyListFits (tbs : List UInt8) : Prop :=
  ∀ ids ∈ certPolicyIds tbs, ids.length ≤ x509CertPolicyMax

theorem x509CertPolicies_ids {tbs : List UInt8} (h : PolicyListFits tbs) :
    (x509CertPolicies tbs).map (·.oid) = certPolicyIds tbs := by
  unfold x509CertPolicies
  unfold PolicyListFits certPolicyIds at *
  cases hseq : cpLocate tbs with
  | none => rfl
  | some seq =>
    rw [hseq] at h
    have hfits : (cpIds seq).length ≤ x509CertPolicyMax := h _ rfl
    rw [Option.map_some, Option.map_some, Option.map_some, cpScan,
      foldl_policySetAdd _ _ (by simpa using hfits), nil_append]

/-- A certificate and whether anyPolicy is inhibited where it stands. -/
abbrev PolicyStep : Type := List UInt8 × Bool

def PolicyStep.Listed (c : PolicyStep) (oid : Oid) : Prop := ∃ ids ∈ certPolicyIds c.1, oid ∈ ids

/-- The certificate asserts anyPolicy, which is not inhibited. -/
def PolicyStep.AssertsAny (c : PolicyStep) : Prop := c.2 = false ∧ c.Listed x509OidAnyPolicy

/-- What RFC 5280 asks of a chain, without mappings. -/
def ChainHasPolicy (chain : List PolicyStep) : Prop :=
  (∀ c ∈ chain, (certPolicyIds c.1).isSome) ∧
    ((∀ c ∈ chain, c.AssertsAny) ∨
      ∃ oid ≠ x509OidAnyPolicy, ∀ c ∈ chain, c.Listed oid ∨ c.AssertsAny)

/-- The tree of a chain, from the trust anchor towards the leaf. -/
def policyFold (chain : List PolicyStep) : X509PolicyTree :=
  chain.foldl (fun t c => x509PolicyTreeFold t c.1 c.2) {}

/-! ## The tree of a chain -/

variable {chain : List PolicyStep} {c : PolicyStep}

/-- The wildcard stands for a chain in which all assert anyPolicy, a set for the policies that every
certificate allows. -/
structure TreeOf (chain : List PolicyStep) (t : X509PolicyTree) : Prop where
  any : t.isAny = true ↔ ∀ c ∈ chain, c.AssertsAny
  set : t.isAny = false → ∀ oid, oid ∈ t.set.oid ↔
    oid ≠ x509OidAnyPolicy ∧ ∀ c ∈ chain, c.Listed oid ∨ c.AssertsAny

section

variable {t : X509PolicyTree} (h : TreeOf chain t)
include h

theorem TreeOf.nonempty_iff :
    x509PolicyTreeNonempty t ↔ (∀ c ∈ chain, c.AssertsAny) ∨
      ∃ oid ≠ x509OidAnyPolicy, ∀ c ∈ chain, c.Listed oid ∨ c.AssertsAny := by
  rw [x509PolicyTreeNonempty, Bool.or_eq_true, decide_eq_true_eq, h.any]
  by_cases hall : ∀ c ∈ chain, c.AssertsAny
  · exact ⟨fun _ => Or.inl hall, fun _ => Or.inl hall⟩
  · have hset := h.set (by rw [← Bool.not_eq_true, h.any]; exact hall)
    rw [or_iff_right hall, or_iff_right hall, length_pos_iff_exists_mem]
    exact exists_congr hset

theorem TreeOf.narrow {cp : X509PolicySet} (hany : ¬ c.AssertsAny)
    (hcp : ∀ oid, oid ∈ cp.oid ↔ oid ≠ x509OidAnyPolicy ∧ c.Listed oid) :
    TreeOf (chain ++ [c]) (policyNarrow t cp) := by
  constructor
  · refine ⟨fun hwild => absurd hwild Bool.false_ne_true, fun hall => ?_⟩
    exact absurd (hall c (mem_append_right _ mem_cons_self)) hany
  · intro _ oid
    simp only [policyNarrow, forall_mem_append, forall_mem_singleton, hany, or_false]
    split
    · rename_i hwild
      have hall := h.any.mp hwild
      rw [hcp, and_iff_right fun c hc => Or.inr (hall c hc)]
    · rename_i hset
      rw [mem_setIntersect, h.set (by simpa using hset), hcp]
      tauto

theorem TreeOf.fold (hfits : PolicyListFits c.1) :
    TreeOf (chain ++ [c]) (x509PolicyTreeFold t c.1 c.2) := by
  have hids := x509CertPolicies_ids hfits
  have hlast : c ∈ chain ++ [c] := mem_append_right _ mem_cons_self
  unfold x509PolicyTreeFold
  split
  · -- no policy is common to the certificates before this one, so none is to all
    rename_i hempty
    rw [Bool.not_eq_true', ← Bool.not_eq_true, h.nonempty_iff, not_or] at hempty
    have hwild := h.any.not.mpr hempty.1
    refine ⟨⟨fun hany => absurd hany hwild, fun hall => ?_⟩, fun hset oid => ?_⟩
    · exact absurd (fun c hc => hall c (mem_append_left _ hc)) hempty.1
    · rw [h.set hset]
      refine ⟨fun hoid => absurd ⟨oid, hoid⟩ hempty.2, fun hoid => ?_⟩
      exact ⟨hoid.1, fun c hc => hoid.2 c (mem_append_left _ hc)⟩
  · cases hcp : x509CertPolicies c.1 with
    | none =>
      rw [hcp] at hids
      have hlisted : ∀ oid, ¬ c.Listed oid := by
        rintro oid ⟨ids, hmem, -⟩
        rw [← hids] at hmem
        cases hmem
      have hany : ¬ c.AssertsAny := fun hany => hlisted _ hany.2
      refine ⟨⟨fun hwild => absurd hwild Bool.false_ne_true, fun hall => ?_⟩, fun _ oid => ?_⟩
      · exact absurd (hall c hlast) hany
      · refine ⟨fun hmem => absurd hmem not_mem_nil, fun hoid => ?_⟩
        exact absurd (hoid.2 c hlast) (not_or.mpr ⟨hlisted oid, hany⟩)
    | some cp =>
      rw [hcp] at hids
      have hlisted : ∀ oid, c.Listed oid ↔ oid ∈ cp.oid := by
        intro oid
        simp [PolicyStep.Listed, ← hids]
      dsimp only [foldPresent, foldInhibited, foldUninhibited]
      split
      · rename_i hinhibited
        refine h.narrow (fun hany => ?_) fun oid => ?_
        · rw [hany.1] at hinhibited
          cases hinhibited
        · simp [stripAny, hlisted, and_comm]
      · rename_i hfree
        have hhas : x509PolicySetHasAny cp ↔ c.AssertsAny := by
          simp [x509PolicySetHasAny, setContains, PolicyStep.AssertsAny, hlisted, hfree]
        split
        · rename_i hany
          have hany := hhas.mp hany
          constructor
          · simp only [h.any, forall_mem_append, forall_mem_singleton, hany, and_true]
          · simpa only [forall_mem_append, forall_mem_singleton, hany, or_true, and_true]
              using h.set
        · rename_i hany
          refine h.narrow (mt hhas.mpr hany) fun oid => ?_
          rw [hlisted, iff_and_self]
          rintro hmem rfl
          exact hany (hhas.mpr ⟨by simpa using hfree, (hlisted _).mpr hmem⟩)

end

theorem treeOf_policyFold (h : ∀ c ∈ chain, PolicyListFits c.1) :
    TreeOf chain (policyFold chain) := by
  induction chain using List.reverseRecOn with
  | nil => exact ⟨by simp [policyFold], fun hset => absurd hset (by decide)⟩
  | append_singleton chain c ih =>
    rw [forall_mem_append, forall_mem_singleton] at h
    rw [policyFold, foldl_append]
    exact (ih h.1).fold h.2

/-- Folding a chain leaves the tree non-empty if and only if the chain has a policy. -/
theorem policyFold_nonempty_iff (h : ∀ c ∈ chain, PolicyListFits c.1) :
    x509PolicyTreeNonempty (policyFold chain) ↔ ChainHasPolicy chain := by
  rw [(treeOf_policyFold h).nonempty_iff, ChainHasPolicy, iff_and_self]
  have hsome : ∀ (c : PolicyStep) (oid : Oid), c.Listed oid → (certPolicyIds c.1).isSome := by
    rintro c oid ⟨ids, hids, -⟩
    exact Option.isSome_of_mem hids
  rintro (hall | ⟨oid, -, hall⟩) c hc
  · exact hsome c _ (hall c hc).2
  · exact (hall c hc).elim (hsome c oid) fun hany => hsome c _ hany.2

/-- A certificate with one policy, of four bytes. -/
def policyTbs (oid : Oid) : List UInt8 :=
  [0x30, 0x24, 0x02, 0x01, 0x01, 0x30, 0x00, 0x30, 0x00, 0x30, 0x00, 0x30, 0x00, 0x30, 0x00, 0xa3,
    0x15, 0x30, 0x13, 0x30, 0x11, 0x06, 0x03, 0x55, 0x1d, 0x20, 0x04, 0x0a, 0x30, 0x08, 0x30, 0x06,
    0x06, 0x04] ++ oid

/-- A policy under a certificate with anyPolicy. -/
theorem policy_below_anyPolicy :
    ChainHasPolicy [(policyTbs x509OidAnyPolicy, false), (policyTbs [0x2a, 3, 4, 5], true)] := by
  refine (policyFold_nonempty_iff ?_).mp (by decide)
  simp only [forall_mem_cons, PolicyListFits]
  decide

/-- An inhibited anyPolicy is no policy that certificates could share. -/
example : ¬ x509PolicyTreeNonempty (policyFold [(policyTbs x509OidAnyPolicy, true)]) := by decide

end Wired.Pki
