import Wired.Frame.Ack
import Wired.Lib.Runs
import Wired.Transport.RecvPn

/-!
# ACK ranges

`recv_spaces.c`, `ackrange.c` and `ackrangeconv.c`: the packet numbers of the receive window are
collected in ascending order, written as the lengths of their blocks and the gaps between them,
and converted to the ranges of an ACK frame.

`blocks` are the ranges of a descending list of numbers. They are the maximal runs of its set
(`mem_blocks_iff`), the builder writes them all (`ackgenBuildRanges_eq`), and the conversion gives
the newest of them back (`ackrangeconvToFrame_eq`).
-/

namespace Wired.Transport

open Lib Wired.Frame List

/-! ## The numbers of the window -/

/-- The numbers from the bottom of the window up. Below zero a difference was never seen. -/
def collectPns (r : Recvpn) : List Nat :=
  ((List.range recvpnWindow).map fun k => subU64 r.largest (recvpnWindow - k)).filter
    (fun pn => recvpnSeen r pn) ++ [r.largest]

/-! ## The builder -/

def gapOf (prevLo hi : Nat) : Nat := subU64 (subU64 prevLo hi) 2

def pushU64 (cap : Nat) (out : List Nat) (v : Nat) : Option (List Nat) :=
  if out.length ≥ cap then none else some (out ++ [v])

/-- `build_st`: the largest number of the block under way, the smallest of the block before, if
there is one (`first` is 0), and what was written. -/
structure BuildSt where
  hi : Nat
  prevLo : Option Nat
  out : List Nat

def ackrangeEmit (cap : Nat) (s : BuildSt) (lo : Nat) : Option (List Nat) :=
  match s.prevLo with
  | none => pushU64 cap s.out (subU64 s.hi lo)
  | some prevLo =>
    (pushU64 cap s.out (gapOf prevLo s.hi)).bind fun out => pushU64 cap out (subU64 s.hi lo)

def closeBlock (cap : Nat) (s : BuildSt) (lo nextHi : Nat) : Option BuildSt :=
  (ackrangeEmit cap s lo).map fun out => { hi := nextHi, prevLo := some lo, out := out }

/-- The walk from the number `p` down, the array read from its end. -/
def descend (cap : Nat) (s : BuildSt) (p : Nat) : List Nat → Option (List Nat)
  | [] => ackrangeEmit cap s p
  | q :: rest =>
    if subU64 p q = 1 then descend cap s q rest
    else (closeBlock cap s p q).bind fun s' => descend cap s' q rest

/-- The largest number and what is written, of an ascending array. -/
def ackgenBuildRanges (cap : Nat) (pns : List Nat) : Option (Nat × List Nat) :=
  match pns.reverse with
  | [] => none
  | p :: rest => (descend cap { hi := p, prevLo := none, out := [] } p rest).map fun raw => (p, raw)

def pnspacesAckRanges (r : Recvpn) (cap : Nat) : Option (Nat × List Nat) :=
  if !r.any then none else ackgenBuildRanges cap (collectPns r)

/-! ## The conversion -/

def rawOk (n : Nat) : Bool := n ≥ 1 && n % 2 = 1 && (n - 1) / 2 + 1 ≤ ackMaxRanges

/-- The range of each pair of a gap and a length. -/
def convPairs (prev : AckRange) : List Nat → List AckRange
  | gap :: len :: rest =>
    let hi := subU64 (subU64 prev.lo gap) 2
    let cur : AckRange := { hi := hi, lo := subU64 hi len }
    cur :: convPairs cur rest
  | _ => []

/-- The ranges of the first `n` values. -/
def ackrangeconvToFrame (largest : Nat) (raw : List Nat) (n : Nat) : Option (List AckRange) :=
  if !rawOk n then none
  else
    match raw.take n with
    | [] => none
    | len :: rest =>
      let first : AckRange := { hi := largest, lo := subU64 largest len }
      some (first :: convPairs first rest)

/-! ## Blocks of a descending list -/

/-- The blocks of `p` and the numbers below it, the one under way reaching up to `hi`. -/
def blocks (hi p : Nat) : List Nat → List AckRange
  | [] => [{ hi := hi, lo := p }]
  | q :: rest =>
    if p = q + 1 then blocks hi q rest else { hi := hi, lo := p } :: blocks q q rest

/-- One of the ranges has the number. -/
def Covers (rs : List AckRange) (x : Nat) : Prop := ∃ r ∈ rs, r.lo ≤ x ∧ x ≤ r.hi

variable {r : AckRange} {rs : List AckRange} {x cap : Nat}

theorem covers_cons : Covers (r :: rs) x ↔ (r.lo ≤ x ∧ x ≤ r.hi) ∨ Covers rs x := by
  simp [Covers]

section

variable {hi p b : Nat} {rest : List Nat}

theorem blocks_below (hle : p ≤ hi) (hb : hi + 1 < b) (hdesc : (p :: rest).Pairwise (· > ·)) :
    Below b (blocks hi p rest) := by
  induction rest generalizing hi p b with
  | nil => exact ⟨hle, hb, trivial⟩
  | cons q rest ih =>
    rw [pairwise_cons] at hdesc
    have hq : q < p := hdesc.1 q mem_cons_self
    unfold blocks
    split
    · exact ih (by omega) hb hdesc.2
    · have hgap : q + 1 < p := by omega
      exact ⟨hle, hb, ih le_rfl hgap hdesc.2⟩

/-- The blocks are the maximal runs. -/
theorem mem_blocks_iff (hle : p ≤ hi) (hdesc : (p :: rest).Pairwise (· > ·)) :
    r ∈ blocks hi p rest ↔ IsRun (Set.Icc p hi ∪ {x | x ∈ rest}) r.hi r.lo := by
  induction rest generalizing hi p with
  | nil =>
    have hempty : {x : Nat | x ∈ ([] : List Nat)} = ∅ := by simp
    rw [hempty, isRun_Icc_union hle (by simp)]
    simp only [blocks, mem_singleton, not_isRun_empty, or_false, AckRange.ext_iff]
  | cons q rest ih =>
    rw [pairwise_cons] at hdesc
    have hq : q < p := hdesc.1 q mem_cons_self
    unfold blocks
    split
    · next hnext =>
      -- the block goes on: its interval and the number below it are one interval
      have hset : Set.Icc p hi ∪ {x | x ∈ q :: rest} = Set.Icc q hi ∪ {x | x ∈ rest} := by
        ext x
        simp only [Set.mem_union, Set.mem_Icc, Set.mem_ofPred_eq, mem_cons]
        have : (p ≤ x ∧ x ≤ hi) ∨ x = q ↔ q ≤ x ∧ x ≤ hi := by omega
        rw [← or_assoc, this]
      rw [hset]
      exact ih (by omega) hdesc.2
    · next hgap =>
      have hset : {x | x ∈ q :: rest} = Set.Icc q q ∪ {x | x ∈ rest} := by
        ext x
        simp only [Set.mem_union, Set.mem_Icc, Set.mem_ofPred_eq, mem_cons]
        have : x = q ↔ q ≤ x ∧ x ≤ q := by omega
        rw [this]
      have hbelow : ∀ x ∈ {x | x ∈ q :: rest}, x + 1 < p := by
        intro x hx
        rcases mem_cons.mp hx with rfl | hx
        · omega
        · have := (pairwise_cons.mp hdesc.2).1 x hx
          omega
      rw [mem_cons, isRun_Icc_union hle hbelow, hset, ih le_rfl hdesc.2, AckRange.ext_iff]

/-- They cover the numbers of the list and no others. -/
theorem covers_blocks_iff (hle : p ≤ hi) (hdesc : (p :: rest).Pairwise (· > ·)) :
    Covers (blocks hi p rest) x ↔ (p ≤ x ∧ x ≤ hi) ∨ x ∈ rest := by
  induction rest generalizing hi p with
  | nil => simp [blocks, Covers]
  | cons q rest ih =>
    rw [pairwise_cons] at hdesc
    unfold blocks
    split
    · next hnext =>
      rw [ih (by omega) hdesc.2, mem_cons, ← or_assoc]
      apply or_congr_left
      omega
    · rw [covers_cons, ih le_rfl hdesc.2, mem_cons]
      have : q ≤ x ∧ x ≤ q ↔ x = q := by omega
      rw [this]

theorem blocks_head (hi p : Nat) (rest : List Nat) :
    ∃ lo rs, blocks hi p rest = { hi := hi, lo := lo } :: rs := by
  induction rest generalizing p with
  | nil => exact ⟨p, [], rfl⟩
  | cons q rest ih =>
    unfold blocks
    split
    · exact ih q
    · exact ⟨p, _, rfl⟩

end

/-! ## What the builder writes -/

/-- The values of blocks behind one that ends at `prevLo`. -/
def rawOf (prevLo : Option Nat) : List AckRange → List Nat
  | [] => []
  | r :: rs =>
    match prevLo with
    | none => (r.hi - r.lo) :: AckBody.pairs r.lo rs
    | some lo => AckBody.pairs lo (r :: rs)

def pushAll (cap : Nat) (out vs : List Nat) : Option (List Nat) :=
  if out.length + vs.length ≤ cap then some (out ++ vs) else none

theorem pushU64_eq (cap : Nat) (out : List Nat) (v : Nat) :
    pushU64 cap out v = pushAll cap out [v] := by
  unfold pushU64 pushAll
  rw [length_singleton]
  split
  · rw [if_neg (by omega)]
  · rw [if_pos (by omega)]

theorem pushAll_bind (cap : Nat) (out vs ws : List Nat) :
    (pushAll cap out vs).bind (fun o => pushAll cap o ws) = pushAll cap out (vs ++ ws) := by
  unfold pushAll
  rw [length_append]
  split
  · rw [Option.bind_some, length_append]
    simp only [add_assoc, append_assoc]
  · rw [Option.bind_none, if_neg (by omega)]

theorem rawOf_append (prevLo : Option Nat) (r : AckRange) (rs : List AckRange) :
    rawOf prevLo (r :: rs) = rawOf prevLo [r] ++ rawOf (some r.lo) rs := by
  cases prevLo <;> cases rs <;> rfl

variable {s : BuildSt} {p : Nat} {rest : List Nat}

/-- The block under way, ended at `lo`. -/
theorem ackrangeEmit_eq {lo : Nat} (hlo : lo ≤ s.hi) (hhi : s.hi < 2 ^ 64)
    (hprev : ∀ b, s.prevLo = some b → s.hi + 1 < b ∧ b < 2 ^ 64) :
    ackrangeEmit cap s lo = pushAll cap s.out (rawOf s.prevLo [{ hi := s.hi, lo := lo }]) := by
  have hlen : subU64 s.hi lo = s.hi - lo := subU64_eq hhi hlo
  unfold ackrangeEmit
  cases hp : s.prevLo with
  | none =>
    simp only [pushU64_eq, hlen]
    rfl
  | some b =>
    obtain ⟨hb, hword⟩ := hprev b hp
    have hdiff : subU64 b s.hi = b - s.hi := subU64_eq hword (by omega)
    have hgap : gapOf b s.hi = b - s.hi - 2 := by
      rw [gapOf, hdiff]
      exact subU64_eq (by omega) (by omega)
    simp only [pushU64_eq, hlen, hgap]
    exact pushAll_bind cap s.out _ _

theorem descend_eq (hp : p ≤ s.hi) (hhi : s.hi < 2 ^ 64)
    (hprev : ∀ b, s.prevLo = some b → s.hi + 1 < b ∧ b < 2 ^ 64)
    (hdesc : (p :: rest).Pairwise (· > ·)) :
    descend cap s p rest = pushAll cap s.out (rawOf s.prevLo (blocks s.hi p rest)) := by
  induction rest generalizing s p with
  | nil => exact ackrangeEmit_eq hp hhi hprev
  | cons q rest ih =>
    rw [pairwise_cons] at hdesc
    have hq : q < p := hdesc.1 q mem_cons_self
    have hdiff : subU64 p q = p - q := subU64_eq (by omega) (by omega)
    unfold descend blocks
    by_cases hnext : p = q + 1
    · rw [if_pos (by omega), if_pos hnext]
      exact ih (by omega) hhi hprev hdesc.2
    · have hrest : ∀ out, descend cap { hi := q, prevLo := some p, out := out } q rest =
          pushAll cap out (rawOf (some p) (blocks q q rest)) := by
        intro out
        refine ih le_rfl (lt_trans hq (lt_of_le_of_lt hp hhi)) ?_ hdesc.2
        intro b hb
        cases hb
        have hgap : q + 1 < p := by omega
        exact ⟨hgap, lt_of_le_of_lt hp hhi⟩
      rw [if_neg (by omega), if_neg hnext, rawOf_append, ← pushAll_bind, closeBlock,
        ackrangeEmit_eq hp hhi hprev, Option.bind_map]
      congr 1
      funext out
      exact hrest out

theorem ackgenBuildRanges_eq {pns : List Nat}
    (hpns : pns.reverse = p :: rest) (hword : p < 2 ^ 64) (hdesc : (p :: rest).Pairwise (· > ·)) :
    ackgenBuildRanges cap pns =
      (pushAll cap [] (rawOf none (blocks p p rest))).map fun raw => (p, raw) := by
  unfold ackgenBuildRanges
  rw [hpns]
  simp only
  rw [descend_eq le_rfl hword (fun b hb => by cases hb) hdesc]

/-! ## The way back -/

theorem pairs_take (lo : Nat) (rs : List AckRange) (k : Nat) :
    (AckBody.pairs lo rs).take (2 * k) = AckBody.pairs lo (rs.take k) := by
  induction rs generalizing lo k with
  | nil => simp [AckBody.pairs]
  | cons r rs ih =>
    cases k with
    | zero => rfl
    | succ k =>
      rw [Nat.mul_succ, take_succ_cons]
      simp only [AckBody.pairs, take_succ_cons, ih]

theorem convPairs_pairs {prev : AckRange} (hword : prev.lo < 2 ^ 64) (h : Below prev.lo rs) :
    convPairs prev (AckBody.pairs prev.lo rs) = rs := by
  induction rs generalizing prev with
  | nil => rfl
  | cons r rs ih =>
    obtain ⟨hle, hlt, hbelow⟩ := h
    have hfirst : subU64 prev.lo (prev.lo - r.hi - 2) = r.hi + 2 :=
      (subU64_eq hword (by omega)).trans (by omega)
    have hhi : subU64 (r.hi + 2) 2 = r.hi := (subU64_eq (by omega) (by omega)).trans (by omega)
    have hlo : subU64 r.hi (r.hi - r.lo) = r.lo :=
      (subU64_eq (by omega) (by omega)).trans (by omega)
    simp only [AckBody.pairs, convPairs, hfirst, hhi, hlo]
    rw [ih (by omega) hbelow]

/-- Of the values of some ranges, those of the first `k` are converted back to them. -/
theorem ackrangeconvToFrame_eq {k : Nat} (hk : k < ackMaxRanges) (hword : r.hi < 2 ^ 64)
    (hle : r.lo ≤ r.hi) (h : Below r.lo rs) :
    ackrangeconvToFrame r.hi (rawOf none (r :: rs)) (2 * k + 1) = some (r :: rs.take k) := by
  have hok : rawOk (2 * k + 1) = true := by
    simp only [rawOk, Bool.and_eq_true, decide_eq_true_eq]
    omega
  have hlo : subU64 r.hi (r.hi - r.lo) = r.lo := (subU64_eq hword (by omega)).trans (by omega)
  have hbelow : Below r.lo (rs.take k) := by
    have hdesc := (descending_cons.mpr ⟨hle, h⟩).take (k + 1)
    exact (descending_cons.mp hdesc).2
  unfold ackrangeconvToFrame
  rw [hok, rawOf, take_succ_cons, pairs_take]
  simp only [Bool.not_true, Bool.false_eq_true, if_false, hlo]
  have hr : ({ hi := r.hi, lo := r.lo } : AckRange) = r := rfl
  rw [hr, convPairs_pairs (by omega) hbelow]

end Wired.Transport
