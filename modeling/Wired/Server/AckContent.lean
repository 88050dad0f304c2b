import Wired.Lib.Run
import Wired.Transport.AckRanges

/-!
# The content of ACK frames

`respond_app.c` and `srvloop_sent.c`: the ACK frame for the 1-RTT packets of the receive window.
It has the newest 32 ranges of the window, less what lies below a floor that rises when the peer
acknowledges a packet which carried an ACK frame. `appAckFrame_spec` says which packet numbers a
frame acknowledges: those of `Reported`. They were all received, and every one from the floor up is
there (`ack_content_exact`).
-/

namespace Wired.Server

open Lib Transport Wired.Frame List

/-! ## The frame -/

/-- What `wired_srvloop` holds for the ACK frames of the 1-RTT packets. -/
structure AckSide where
  ackRecv : Recvpn
  floor1 : Nat
  nowMs : Nat
  sinceTick : Nat
  ecnEct0 : Nat
  ecnEct1 : Nat
  ecnCe : Nat

/-- The number of ranges with a part at or above the floor; the first always counts. -/
def appAckKept (ranges : List AckRange) (floor1 : Nat) : Nat :=
  1 + (ranges.tail.takeWhile fun r => floor1 ≤ r.hi).length

def clipRange (floor1 : Nat) (r : AckRange) : AckRange :=
  if r.lo < floor1 && floor1 ≤ r.hi then { r with lo := floor1 } else r

def clipLast (floor1 : Nat) : List AckRange → List AckRange
  | [] => []
  | [r] => [clipRange floor1 r]
  | r :: rs => r :: clipLast floor1 rs

def appAckPrune (ranges : List AckRange) (floor1 : Nat) : List AckRange :=
  clipLast floor1 (ranges.take (appAckKept ranges floor1))

def ackDelayExponentDefault : Nat := 3

def ackDelayEncode (micros exponent : Nat) : Nat := micros >>> exponent

def appAckEcnAnySeen (l : AckSide) : Bool := l.ecnEct0 ≠ 0 || l.ecnEct1 ≠ 0 || l.ecnCe ≠ 0

/-- The frame that `app_ack_encode_ranges` encodes. Past 32 ranges it has the newest ones. -/
def appAckFrame (l : AckSide) : Option AckFrame := do
  let (largest, raw) ← pnspacesAckRanges l.ackRecv (2 * ackMaxRanges + 1)
  let ranges ← ackrangeconvToFrame largest raw (min raw.length (2 * ackMaxRanges - 1))
  let ecn := appAckEcnAnySeen l
  pure {
    ackDelay := ackDelayEncode (mulU64 (subU64 l.nowMs l.sinceTick) 1000) ackDelayExponentDefault
    ranges := appAckPrune ranges l.floor1
    hasEcn := ecn
    ect0 := if ecn then l.ecnEct0 else 0
    ect1 := if ecn then l.ecnEct1 else 0
    ce := if ecn then l.ecnCe else 0 }

/-- The ACK frame in `cap` bytes. -/
def appAckEncodeRanges (l : AckSide) (cap : Nat) : Option (List UInt8) :=
  (appAckFrame l).bind (ackEncode cap)

/-! ## The numbers that are collected -/

def seenSet (r : Recvpn) : Set Nat := {pn | recvpnSeen r pn = true}

/-- A window that was reached by recording numbers of 64 bits, at least one. -/
structure Received (r : Recvpn) (R : Set Nat) : Prop where
  represents : r.Represents R
  nonempty : R.Nonempty
  word : r.largest < 2 ^ 64

variable {pn x : Nat} {first : AckRange} {r : Recvpn} {rest : List AckRange} {l : AckSide}

section

variable {r : Recvpn} {R : Set Nat}

def collectedBelow (r : Recvpn) : List Nat :=
  ((List.range recvpnWindow).map fun k => subU64 r.largest (recvpnWindow - k)).filter
    fun pn => recvpnSeen r pn

section

variable (h : Received r R)
include h

theorem Received.seen_le (hpn : recvpnSeen r pn = true) :
    pn ≤ r.largest ∧ r.largest ≤ pn + recvpnWindow := by
  obtain ⟨hmem, hle⟩ := (recvpnSeen_iff h.represents pn).mp hpn
  exact ⟨(h.represents.greatest h.nonempty).2 hmem, hle⟩

/-- A difference that was seen did not go below zero. -/
theorem Received.seen_sub {d : Nat} (hd : d ≤ recvpnWindow)
    (hseen : recvpnSeen r (subU64 r.largest d) = true) :
    d ≤ r.largest ∧ subU64 r.largest d = r.largest - d := by
  have hword := h.word
  by_cases hle : d ≤ r.largest
  · exact ⟨hle, subU64_eq hword hle⟩
  · have hle' := (h.seen_le hseen).1
    unfold recvpnWindow at hd
    unfold subU64 at hle'
    omega

theorem Received.mem_collectedBelow :
    pn ∈ collectedBelow r ↔ pn < r.largest ∧ recvpnSeen r pn = true := by
  unfold collectedBelow
  rw [mem_filter, mem_map]
  constructor
  · rintro ⟨⟨k, hk, rfl⟩, hseen⟩
    have hk' := mem_range.mp hk
    obtain ⟨hle, heq⟩ := h.seen_sub (Nat.sub_le _ k) hseen
    refine ⟨?_, hseen⟩
    omega
  · rintro ⟨hlt, hseen⟩
    obtain ⟨-, hwin⟩ := h.seen_le hseen
    refine ⟨⟨recvpnWindow - (r.largest - pn), ?_, ?_⟩, hseen⟩
    · rw [mem_range]
      omega
    · have hd : recvpnWindow - (recvpnWindow - (r.largest - pn)) = r.largest - pn := by omega
      rw [hd]
      exact (subU64_eq h.word (Nat.sub_le _ _)).trans (by omega)

theorem Received.collectedBelow_ascending : (collectedBelow r).Pairwise (· < ·) := by
  unfold collectedBelow
  rw [pairwise_filter, pairwise_map]
  refine pairwise_lt_range.imp_of_mem ?_
  intro i j _ hmem hij hi hj
  have hj' := mem_range.mp hmem
  obtain ⟨hle, heq⟩ := h.seen_sub (Nat.sub_le _ i) hi
  obtain ⟨hle', heq'⟩ := h.seen_sub (Nat.sub_le _ j) hj
  omega

theorem Received.collected :
    (collectPns r).reverse = r.largest :: (collectedBelow r).reverse ∧
      (r.largest :: (collectedBelow r).reverse).Pairwise (· > ·) := by
  refine ⟨by simp [collectPns, collectedBelow], ?_⟩
  constructor
  · intro pn hpn
    rw [mem_reverse] at hpn
    exact (h.mem_collectedBelow.mp hpn).1
  · rw [pairwise_reverse]
    exact h.collectedBelow_ascending

theorem Received.collected_set :
    Set.Icc r.largest r.largest ∪ {x | x ∈ (collectedBelow r).reverse} = seenSet r := by
  ext x
  have hlargest : recvpnSeen r r.largest = true :=
    (recvpnSeen_iff h.represents _).mpr
      ⟨(h.represents.greatest h.nonempty).1, Nat.le_add_right _ _⟩
  simp only [Set.mem_union, Set.mem_Icc, Set.mem_ofPred_eq, mem_reverse, seenSet,
    h.mem_collectedBelow]
  constructor
  · rintro (hx | hx)
    · obtain rfl : x = r.largest := by omega
      exact hlargest
    · exact hx.2
  · intro hx
    have hle := (h.seen_le hx).1
    rcases Nat.eq_or_lt_of_le hle with rfl | hlt
    · exact Or.inl ⟨le_rfl, le_rfl⟩
    · exact Or.inr ⟨hlt, hx⟩

end

end

/-! ## The newest ranges -/

section

variable {rs : List AckRange} {W : Set Nat} {b x : Nat}

/-- The ranges that lie above `x` come first. -/
theorem covers_take_iff (h : Below b rs) (hx : Covers rs x) (k : Nat) :
    Covers (rs.take k) x ↔ (rs.filter fun r => x < r.lo).length < k := by
  induction rs generalizing b k with
  | nil => simp [Covers] at hx
  | cons r rs ih =>
    obtain ⟨hle, hlt, hbelow⟩ := h
    have hrest := hbelow.lt
    cases k with
    | zero => simp [Covers]
    | succ k =>
      rw [take_succ_cons, covers_cons]
      by_cases hin : r.lo ≤ x
      · -- `x` is in the first range, and no other range is above it
        have hhi : x ≤ r.hi := by
          rcases covers_cons.mp hx with hx | ⟨r', hr', hx'⟩
          · exact hx.2
          · have := hrest r' hr'
            omega
        have hnone : (r :: rs).filter (fun r => x < r.lo) = [] := by
          rw [filter_eq_nil_iff]
          intro r' hr'
          rw [decide_eq_true_eq]
          rcases mem_cons.mp hr' with rfl | hr'
          · omega
          · have := hrest r' hr'
            omega
        rw [hnone]
        exact iff_of_true (Or.inl ⟨hin, hhi⟩) (Nat.succ_pos k)
      · have hx' : Covers rs x := by
          rcases covers_cons.mp hx with hx | hx
          · exact absurd hx.1 hin
          · exact hx
        have habove : (r :: rs).filter (fun r => x < r.lo) = r :: rs.filter (fun r => x < r.lo) :=
          filter_cons_of_pos (by simpa using hin)
        rw [habove, length_cons, Nat.succ_lt_succ_iff, ← ih hbelow hx' k]
        simp [hin]

/-- The ranges of a set above `x` are counted by a list of all of them. -/
theorem ncard_runsAbove (h : Below b rs) (hruns : ∀ r, r ∈ rs ↔ IsRun W r.hi r.lo) :
    (runsAbove W x).ncard = (rs.filter fun r => x < r.lo).length := by
  have hset : runsAbove W x =
      (((rs.filter fun r => x < r.lo).map fun r => (r.hi, r.lo)).toFinset : Set (Nat × Nat)) := by
    ext ⟨hi, lo⟩
    have hrun : IsRun W hi lo ↔ (⟨hi, lo⟩ : AckRange) ∈ rs := (hruns ⟨hi, lo⟩).symm
    simp only [runsAbove, Set.mem_ofPred_eq, hrun, coe_toFinset, mem_map,
      mem_filter, decide_eq_true_eq, Prod.mk.injEq]
    constructor
    · rintro ⟨hmem, hlt⟩
      exact ⟨⟨hi, lo⟩, ⟨hmem, hlt⟩, rfl, rfl⟩
    · rintro ⟨⟨hi', lo'⟩, ⟨hmem, hlt⟩, rfl, rfl⟩
      exact ⟨hmem, hlt⟩
  have hnodup : ((rs.filter fun r => x < r.lo).map fun r => (r.hi, r.lo)).Nodup := by
    have hpair : rs.Pairwise fun r r' => r'.hi + 1 < r.lo := by
      cases rs with
      | nil => exact List.Pairwise.nil
      | cons r rs => exact (descending_cons.mpr ⟨h.1, h.2.2⟩).2
    rw [List.Nodup, pairwise_map]
    refine (hpair.sublist filter_sublist).imp_of_mem ?_
    intro r r' hr hr' hlt heq
    have hr := h.lt r (mem_of_mem_filter hr)
    have hhi := (Prod.mk.inj heq).1
    omega
  rw [hset, Set.ncard_coe_finset, toFinset_card_of_nodup hnodup, length_map]

end

/-! ## The prune -/

theorem appAckPrune_cons (r r' : AckRange) (rs : List AckRange) (floor1 : Nat) :
    appAckPrune (r :: r' :: rs) floor1 =
      if floor1 ≤ r'.hi then r :: appAckPrune (r' :: rs) floor1 else [clipRange floor1 r] := by
  unfold appAckPrune appAckKept
  rw [tail_cons, tail_cons]
  split
  · next hle =>
    rw [takeWhile_cons_of_pos (by simpa using hle), length_cons, add_comm 1,
      take_succ_cons, add_comm 1, take_succ_cons]
    rfl
  · next hlt =>
    rw [takeWhile_cons_of_neg (by simpa using hlt)]
    rfl

theorem clipRange_mem {r : AckRange} {floor1 : Nat} (hfloor : floor1 ≤ r.hi) :
    ((clipRange floor1 r).lo ≤ x ∧ x ≤ (clipRange floor1 r).hi) ↔
      (r.lo ≤ x ∧ x ≤ r.hi) ∧ floor1 ≤ x := by
  unfold clipRange
  split
  · next hclip =>
    simp only [Bool.and_eq_true, decide_eq_true_eq] at hclip
    dsimp only
    omega
  · next hkeep =>
    simp only [Bool.and_eq_true, decide_eq_true_eq, not_and] at hkeep
    omega

theorem length_clipLast (floor1 : Nat) (rs : List AckRange) :
    (clipLast floor1 rs).length = rs.length := by
  fun_induction clipLast floor1 rs with
  | case1 => rfl
  | case2 => rfl
  | case3 r rs _ ih => rw [length_cons, length_cons, ih]

theorem length_appAckPrune_le (rs : List AckRange) (floor1 : Nat) :
    (appAckPrune rs floor1).length ≤ rs.length := by
  rw [appAckPrune, length_clipLast]
  exact length_take_le' _ rs

section

variable {r : AckRange} {rs : List AckRange} {floor1 : Nat}

/-- The first range reaches the floor: what is below the floor is cut off. -/
theorem covers_prune_of_le (h : Descending (r :: rs)) (hfloor : floor1 ≤ r.hi) :
    Covers (appAckPrune (r :: rs) floor1) x ↔ Covers (r :: rs) x ∧ floor1 ≤ x := by
  induction rs generalizing r with
  | nil =>
    have hprune : appAckPrune [r] floor1 = [clipRange floor1 r] := rfl
    rw [hprune]
    simpa [Covers] using clipRange_mem hfloor
  | cons r' rs ih =>
    obtain ⟨hle, hbelow⟩ := descending_cons.mp h
    obtain ⟨hle', hlt, hbelow'⟩ := hbelow
    rw [appAckPrune_cons]
    split
    · next hfloor' =>
      have hin : r.lo ≤ x ∧ x ≤ r.hi ↔ (r.lo ≤ x ∧ x ≤ r.hi) ∧ floor1 ≤ x := by omega
      have hrest := ih (descending_cons.mpr ⟨hle', hbelow'⟩) hfloor'
      rw [covers_cons, hrest, covers_cons (r := r), or_and_right]
      exact or_congr_left hin
    · next hfloor' =>
      rw [covers_cons, covers_cons, clipRange_mem hfloor, or_and_right]
      -- every other range is below the floor
      have hnone : ¬ Covers [] x := by simp [Covers]
      have hrest : ¬ (Covers (r' :: rs) x ∧ floor1 ≤ x) := by
        rintro ⟨⟨s, hs, hx⟩, hx'⟩
        rcases mem_cons.mp hs with rfl | hs
        · omega
        · have := hbelow'.lt s hs
          omega
      simp only [hnone, hrest, or_false]

/-- The first range ends below the floor: it stays as it is, without the others. -/
theorem appAckPrune_of_lt (h : Descending (r :: rs)) (hfloor : r.hi < floor1) :
    appAckPrune (r :: rs) floor1 = [r] := by
  have hclip : clipRange floor1 r = r := by
    unfold clipRange
    rw [if_neg (by simp; omega)]
  cases rs with
  | nil => exact congrArg (fun r => [r]) hclip
  | cons r' rs =>
    obtain ⟨-, -, hlt, -⟩ := descending_cons.mp h
    have := (descending_cons.mp h).1
    rw [appAckPrune_cons, if_neg (by omega), hclip]

variable (floor1) in
theorem descending_prune (h : Descending (r :: rs)) :
    ∃ r' rs', appAckPrune (r :: rs) floor1 = r' :: rs' ∧ r'.hi = r.hi ∧
      Descending (appAckPrune (r :: rs) floor1) := by
  have hclip : ∀ r : AckRange, r.lo ≤ r.hi →
      (clipRange floor1 r).hi = r.hi ∧ (clipRange floor1 r).lo ≤ (clipRange floor1 r).hi := by
    intro r hle
    unfold clipRange
    split
    · next hin =>
      simp only [Bool.and_eq_true, decide_eq_true_eq] at hin
      exact ⟨rfl, hin.2⟩
    · exact ⟨rfl, hle⟩
  induction rs generalizing r with
  | nil =>
    obtain ⟨hhi, hle⟩ := hclip r (descending_cons.mp h).1
    refine ⟨clipRange floor1 r, [], rfl, hhi, ?_⟩
    exact descending_cons.mpr ⟨hle, trivial⟩
  | cons r' rs ih =>
    obtain ⟨hle, hle', hlt, hbelow'⟩ := descending_cons.mp h
    rw [appAckPrune_cons]
    split
    · obtain ⟨s, ss, heq, hhi, hdesc⟩ := ih (descending_cons.mpr ⟨hle', hbelow'⟩)
      refine ⟨r, _, rfl, rfl, ?_⟩
      rw [heq] at hdesc ⊢
      obtain ⟨hs, hss⟩ := descending_cons.mp hdesc
      exact descending_cons.mpr ⟨hle, hs, by omega, hss⟩
    · obtain ⟨hhi, hle⟩ := hclip r hle
      exact ⟨clipRange floor1 r, [], rfl, hhi, descending_cons.mpr ⟨hle, trivial⟩⟩

end

/-! ## The frame of a window -/

/-- The numbers of a set that lie at most a window below the largest. -/
def windowOf (R : Set Nat) : Set Nat := {pn ∈ R | ∀ q ∈ R, q ≤ pn + recvpnWindow}

/-- What a frame acknowledges. Below the floor it is the first range alone, and that only where no
number has reached the floor. -/
structure Reported (R : Set Nat) (floor1 pn : Nat) : Prop where
  window : pn ∈ windowOf R
  newest : (runsAbove R pn).ncard < ackMaxRanges
  floor : floor1 ≤ pn ∨ (∀ q ∈ R, q < floor1) ∧ ∀ q ∈ R, Set.Icc pn q ⊆ R

section

variable {R : Set Nat} {pn : Nat}

theorem mem_windowOf_of_le (hpn : pn ∈ windowOf R) (hx : pn ≤ x) : x ∈ windowOf R ↔ x ∈ R := by
  constructor
  · intro h
    exact h.1
  · intro h
    refine ⟨h, ?_⟩
    intro q hq
    exact (hpn.2 q hq).trans (Nat.add_le_add_right hx _)

theorem runsAbove_windowOf (hpn : pn ∈ windowOf R) : runsAbove (windowOf R) pn = runsAbove R pn := by
  have hsame : ∀ x, pn ≤ x → (x ∈ windowOf R ↔ x ∈ R) := fun x => mem_windowOf_of_le hpn
  exact runsAbove_congr hsame

theorem Received.seenSet_eq (h : Received r R) : seenSet r = windowOf R := by
  obtain ⟨hlargest, hmax⟩ := h.represents.greatest h.nonempty
  ext pn
  rw [seenSet, Set.mem_ofPred_eq, recvpnSeen_iff h.represents]
  apply and_congr_right
  intro _
  constructor
  · intro hle q hq
    exact (hmax hq).trans hle
  · intro hall
    exact hall _ hlargest

/-- What the ranges of the window are, before the floor and the bound on their number. -/
structure WindowRanges (r : Recvpn) (R : Set Nat) (first : AckRange) (rest : List AckRange) :
    Prop where
  hi : first.hi = r.largest
  below : Below (r.largest + 2) (first :: rest)
  runs : ∀ s, s ∈ first :: rest ↔ IsRun (windowOf R) s.hi s.lo
  covers : ∀ pn, Covers (first :: rest) pn ↔ pn ∈ windowOf R

theorem Received.windowRanges (h : Received r R) :
    ∃ first rest, blocks r.largest r.largest (collectedBelow r).reverse = first :: rest ∧
      WindowRanges r R first rest := by
  obtain ⟨-, hdesc⟩ := h.collected
  obtain ⟨lo, rest, heq⟩ := blocks_head r.largest r.largest (collectedBelow r).reverse
  refine ⟨_, rest, heq, rfl, ?_, ?_, ?_⟩
  · rw [← heq]
    exact blocks_below le_rfl (Nat.lt_succ_self _) hdesc
  · intro s
    rw [← heq, mem_blocks_iff le_rfl hdesc, h.collected_set, h.seenSet_eq]
  · intro pn
    rw [← heq, covers_blocks_iff le_rfl hdesc, ← h.seenSet_eq, ← h.collected_set]
    rfl

theorem WindowRanges.length_le
    (h : WindowRanges r R first rest) (hR : IsGreatest R r.largest) : rest.length ≤ 32 := by
  have hlow : ∀ s ∈ first :: rest, r.largest - recvpnWindow ≤ s.lo := by
    intro s hs
    obtain ⟨-, hwin⟩ := ((h.runs s).mp hs).lo_mem
    have := hwin _ hR.1
    omega
  have hlen := h.below.length_le hlow (by omega)
  rw [length_cons] at hlen
  unfold recvpnWindow at hlen
  omega

theorem Received.newestRanges (h : Received r R) :
    ∃ first rest raw, WindowRanges r R first rest ∧
      pnspacesAckRanges r (2 * ackMaxRanges + 1) = some (r.largest, raw) ∧
      ackrangeconvToFrame r.largest raw (min raw.length (2 * ackMaxRanges - 1)) =
        some ((first :: rest).take ackMaxRanges) := by
  obtain ⟨hrev, hdesc⟩ := h.collected
  obtain ⟨first, rest, heq, hwin⟩ := h.windowRanges
  have hlen := hwin.length_le (h.represents.greatest h.nonempty)
  have hrawLen : (rawOf none (first :: rest)).length = 2 * rest.length + 1 := by
    rw [rawOf, length_cons, pairs_length]
  refine ⟨first, rest, rawOf none (first :: rest), hwin, ?_, ?_⟩
  · have hany : r.any = true := h.represents.any_iff.mpr h.nonempty
    have hfits : ([] : List Nat).length + (rawOf none (first :: rest)).length ≤
        2 * ackMaxRanges + 1 := by
      rw [hrawLen, length_nil]
      unfold ackMaxRanges
      omega
    unfold pnspacesAckRanges
    rw [hany, ackgenBuildRanges_eq hrev h.word hdesc, heq, pushAll, if_pos hfits]
    rfl
  · -- the count of values is odd, for one range at first and two values for each of the others
    obtain ⟨hle, -, hbelow⟩ := hwin.below
    have hword : first.hi < 2 ^ 64 := hwin.hi ▸ h.word
    have hcount : min (2 * rest.length + 1) (2 * ackMaxRanges - 1) =
        2 * min rest.length (ackMaxRanges - 1) + 1 := by
      unfold ackMaxRanges
      omega
    have htake : rest.take (min rest.length (ackMaxRanges - 1)) = rest.take (ackMaxRanges - 1) := by
      rw [Nat.min_comm, take_eq_take_iff]
      omega
    have hk : min rest.length (ackMaxRanges - 1) < ackMaxRanges := by omega
    rw [hrawLen, hcount, ← hwin.hi, ackrangeconvToFrame_eq hk hword hle hbelow, htake]
    rfl

/-- The first range of the window has the numbers from which on nothing is missing. -/
theorem WindowRanges.first_iff
    (h : WindowRanges r R first rest) (hR : IsGreatest R r.largest) (hpn : pn ∈ windowOf R) :
    (first.lo ≤ pn ∧ pn ≤ first.hi) ↔ ∀ q ∈ R, Set.Icc pn q ⊆ R := by
  have hrun := (h.runs first).mp mem_cons_self
  constructor
  · rintro ⟨hlo, -⟩ q hq x ⟨hx, hxq⟩
    have hxhi : x ≤ first.hi := h.hi ▸ hxq.trans (hR.2 hq)
    exact (hrun.mem x (hlo.trans hx) hxhi).1
  · intro hall
    have hle : pn ≤ r.largest := hR.2 hpn.1
    by_contra hlo
    have hle' := hrun.le
    have hhi := h.hi
    -- the number below the range was received, so the range would go on
    have hbelow : first.lo - 1 ∈ R := hall _ hR.1 ⟨by omega, by omega⟩
    have hbelow' := (mem_windowOf_of_le hpn (by omega)).mpr hbelow
    exact hrun.below (first.lo - 1) (by omega) hbelow'

/-- **The frame of a window** acknowledges the numbers of `Reported`, in descending ranges. -/
theorem appAckFrame_spec (h : Received l.ackRecv R) :
    ∃ f, appAckFrame l = some f ∧ Descending f.ranges ∧ f.ranges ≠ [] ∧
      f.ranges.length ≤ ackMaxRanges ∧ (∀ r ∈ f.ranges, r.hi < 2 ^ 64) ∧
      ∀ pn, Covers f.ranges pn ↔ Reported R l.floor1 pn := by
  have hR := h.represents.greatest h.nonempty
  obtain ⟨first, rest, raw, hwin, hraw, hconv⟩ := h.newestRanges
  have hdesc : Descending (first :: rest) := descending_cons.mpr ⟨hwin.below.1, hwin.below.2.2⟩
  have htake : (first :: rest).take ackMaxRanges = first :: rest.take (ackMaxRanges - 1) := rfl
  have hdesc' := hdesc.take ackMaxRanges
  rw [htake] at hconv hdesc'
  obtain ⟨r0, rs, hprune, hhi, hpruned⟩ := descending_prune l.floor1 hdesc'
  have hframe : ∃ f, appAckFrame l = some f ∧
      f.ranges = appAckPrune (first :: rest.take (ackMaxRanges - 1)) l.floor1 := by
    unfold appAckFrame
    simp only [hraw, hconv, Option.bind_eq_bind, Option.bind_some, Option.pure_def]
    exact ⟨_, rfl, rfl⟩
  obtain ⟨f, hf, hranges⟩ := hframe
  refine ⟨f, hf, hranges ▸ hpruned, ?_, ?_, ?_, ?_⟩
  · rw [hranges, hprune]
    exact cons_ne_nil _ _
  · rw [hranges, ← htake]
    exact (length_appAckPrune_le _ _).trans (length_take_le _ _)
  · intro r hr
    rw [hranges, hprune] at hr
    rw [hprune] at hpruned
    have hword : r0.hi < 2 ^ 64 := by
      rw [hhi, hwin.hi]
      exact h.word
    obtain ⟨hle, hbelow⟩ := descending_cons.mp hpruned
    rcases mem_cons.mp hr with rfl | hr
    · exact hword
    · have := hbelow.lt r hr
      omega
  · intro pn
    rw [hranges]
    have hnewest : Covers (first :: rest.take (ackMaxRanges - 1)) pn ↔
        pn ∈ windowOf R ∧ (runsAbove R pn).ncard < ackMaxRanges := by
      rw [← htake, ← hwin.covers]
      constructor
      · rintro ⟨r, hr, hin⟩
        have hcov : Covers (first :: rest) pn := ⟨r, mem_of_mem_take hr, hin⟩
        refine ⟨hcov, ?_⟩
        rw [← runsAbove_windowOf ((hwin.covers pn).mp hcov), ncard_runsAbove hwin.below hwin.runs,
          ← covers_take_iff hwin.below hcov]
        exact ⟨r, hr, hin⟩
      · rintro ⟨hcov, hcard⟩
        rwa [covers_take_iff hwin.below hcov, ← ncard_runsAbove hwin.below hwin.runs,
          runsAbove_windowOf ((hwin.covers pn).mp hcov)]
    by_cases hfloor : l.floor1 ≤ first.hi
    · -- a number reaches the floor
      rw [covers_prune_of_le hdesc' hfloor, hnewest]
      constructor
      · rintro ⟨⟨hpn, hcard⟩, hle⟩
        exact ⟨hpn, hcard, Or.inl hle⟩
      · rintro ⟨hpn, hcard, hle | ⟨hall, -⟩⟩
        · exact ⟨⟨hpn, hcard⟩, hle⟩
        · have := hall _ hR.1
          rw [hwin.hi] at hfloor
          omega
    · have hlt : first.hi < l.floor1 := Nat.lt_of_not_le hfloor
      have hall : ∀ q ∈ R, q < l.floor1 := by
        intro q hq
        exact ((hR.2 hq).trans_eq hwin.hi.symm).trans_lt hlt
      rw [appAckPrune_of_lt hdesc' hlt]
      constructor
      · intro hcov
        have hin : first.lo ≤ pn ∧ pn ≤ first.hi := by simpa [Covers] using hcov
        obtain ⟨hpn, hcard⟩ := hnewest.mp ⟨first, mem_cons_self, hin⟩
        exact ⟨hpn, hcard, Or.inr ⟨hall, (hwin.first_iff hR hpn).mp hin⟩⟩
      · rintro ⟨hpn, hcard, hle | ⟨-, hruns⟩⟩
        · have := hall pn hpn.1
          omega
        · exact ⟨first, mem_singleton_self _, (hwin.first_iff hR hpn).mpr hruns⟩

end

/-! ## Recorded packets -/

/-- The packet numbers recorded. -/
def recordedSet (pns : List UInt64) : Set Nat := {x | ∃ pn ∈ pns, pn.toNat = x}

/-- The window over them. -/
def recordAll (pns : List UInt64) : Recvpn :=
  pns.foldl (fun r pn => recvpnRecord r pn.toNat) recvpnInit

theorem recordedSet_cons (pn : UInt64) (pns : List UInt64) :
    recordedSet (pn :: pns) = insert pn.toNat (recordedSet pns) := by
  ext x
  simp only [recordedSet, Set.mem_ofPred_eq, mem_cons, exists_eq_or_imp, Set.mem_insert_iff]
  exact or_congr_left eq_comm

theorem recordAll_represents (pns : List UInt64) :
    (recordAll pns).Represents (recordedSet pns) := by
  have hrun : ∀ (pns : List UInt64) (r : Recvpn) (R : Set Nat), r.Represents R →
      (pns.foldl (fun r pn => recvpnRecord r pn.toNat) r).Represents (R ∪ recordedSet pns) := by
    intro pns
    induction pns with
    | nil =>
      intro r R h
      have hnone : recordedSet [] = ∅ := by simp [recordedSet]
      rwa [hnone, Set.union_empty]
    | cons pn pns ih =>
      intro r R h
      rw [recordedSet_cons, Set.union_insert, ← Set.insert_union]
      exact ih _ _ (recvpnRecord_represents h pn.toNat)
  have h := hrun pns recvpnInit ∅ recvpnInit_represents
  rwa [Set.empty_union] at h

theorem received_of_represents {pns : List UInt64}
    (h : r.Represents (recordedSet pns)) (hne : (recordedSet pns).Nonempty) :
    Received r (recordedSet pns) := by
  obtain ⟨pn, -, hpn⟩ := (h.greatest hne).1
  exact ⟨h, hne, hpn ▸ pn.toNat_lt⟩

/-- What is encoded of a frame is read back with the same ranges. -/
theorem appAckEncodeRanges_reads {R : Set Nat} (h : Received l.ackRecv R)
    {cap : Nat} {bytes : List UInt8} (hbytes : appAckEncodeRanges l cap = some bytes) :
    ∃ f, ackDecode bytes = some (f, bytes.length) ∧
      (∀ pn, Covers f.ranges pn ↔ Reported R l.floor1 pn) ∧
      (appAckFrame l).map AckFrame.ranges = some f.ranges := by
  obtain ⟨f, hf, hdesc, -, -, hword, hcovers⟩ := appAckFrame_spec h
  rw [appAckEncodeRanges, hf, Option.bind_some] at hbytes
  obtain ⟨f', hdec, hranges, -⟩ := ackDecode_encode hdesc hword hbytes []
  rw [append_nil] at hdec
  refine ⟨f', hdec, ?_, ?_⟩
  · rwa [hranges]
  · rw [hf, hranges]
    rfl

/-- **Exact content.** Whatever packet numbers were recorded, the ranges of the frame lie apart from
each other in descending order and have recorded numbers only. Every recorded number is there that
is in the window, from the floor up, and in the newest 32 ranges. The bytes of the frame say the
same ranges, and there are such bytes whenever its values are in range and there is room for the
longest frame. -/
theorem ack_content_exact (l : AckSide) (pns : List UInt64) :
    match appAckFrame { l with ackRecv := recordAll pns } with
    | none => pns = []
    | some f => Descending f.ranges ∧
      (∀ pn, Covers f.ranges pn → pn ∈ recordedSet pns) ∧
      (∀ pn ∈ windowOf (recordedSet pns), l.floor1 ≤ pn →
        (runsAbove (recordedSet pns) pn).ncard < ackMaxRanges → Covers f.ranges pn) ∧
      (∀ cap bytes, appAckEncodeRanges { l with ackRecv := recordAll pns } cap = some bytes →
        ∃ f', ackDecode bytes = some (f', bytes.length) ∧ f'.ranges = f.ranges) ∧
      ∀ cap, ackEncodeMax ≤ cap → f.InRange →
        ∃ bytes, appAckEncodeRanges { l with ackRecv := recordAll pns } cap = some bytes := by
  rcases pns.eq_nil_or_concat with rfl | ⟨init, last, hpns⟩
  · rfl
  have hne : (recordedSet pns).Nonempty := ⟨last.toNat, last, by simp [hpns], rfl⟩
  have hrec : Received ({ l with ackRecv := recordAll pns } : AckSide).ackRecv (recordedSet pns) :=
    received_of_represents (recordAll_represents pns) hne
  obtain ⟨f, hf, hdesc, hranges, hlen, -, hcovers⟩ := appAckFrame_spec hrec
  rw [hf]
  refine ⟨hdesc, ?_, ?_, ?_, ?_⟩
  · intro pn hpn
    exact ((hcovers pn).mp hpn).window.1
  · intro pn hpn hfloor hcard
    exact (hcovers pn).mpr ⟨hpn, hcard, Or.inl hfloor⟩
  · intro cap bytes hbytes
    obtain ⟨f', hdec, -, hsame⟩ := appAckEncodeRanges_reads hrec hbytes
    rw [hf] at hsame
    exact ⟨f', hdec, (Option.some.inj hsame).symm⟩
  · intro cap hcap hrange
    rw [appAckEncodeRanges, hf]
    exact ackEncode_of_room hranges hlen hdesc hrange hcap

end Wired.Server
