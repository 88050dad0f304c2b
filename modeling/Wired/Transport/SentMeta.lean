import Wired.Lib.Checked
import Wired.Lib.Tally
import Wired.Lib.Word

/-!
# The record of sent packets

`record.c`: the packets that are neither acknowledged nor lost, in a table of 256 slots, with a
running count of the slots in use and a running total of the bytes in flight. `srvrun_recover.c`
takes acknowledged and lost packets out; the bytes of a packet that a send session counts itself are
no longer counted here (`sentmetaUncount`).

The counters are words of 64 bits. The operations are computations in `Checked`, so that a run says
whether a sum or a difference was out of range (`sentRun_accounted`).
-/

namespace Wired.Transport

open Lib List Function

def sentmetaCap : Nat := 256

structure SentmetaPkt where
  pn : Nat
  timeSent : Nat
  sentBytes : Nat
  ackEliciting : Bool
  inFlight : Bool
  used : Bool

def SentmetaPkt.freed (p : SentmetaPkt) : SentmetaPkt := { p with used := false }

def SentmetaPkt.withBytes (p : SentmetaPkt) (n : Nat) : SentmetaPkt := { p with sentBytes := n }

/-- The slots and the counters. -/
structure Sentmeta where
  pkts : Nat → SentmetaPkt
  count : Nat
  totalInFlight : Nat

/-- A packet to record; its size is a word. -/
structure SentmetaOut where
  pn : Nat
  timeSent : Nat
  ackEliciting : Bool
  inFlight : Bool
  sentBytes : Nat
  word : sentBytes < 2 ^ 64

/-- Only the marks are cleared, whatever else the memory has. -/
def sentmetaInit (m : Sentmeta) : Sentmeta where
  pkts := fun i => (m.pkts i).freed
  count := 0
  totalInFlight := 0

def sentmetaFreeSlot (m : Sentmeta) : Option Nat :=
  (List.range sentmetaCap).find? fun i => !(m.pkts i).used

def sentmetaStore (pkt : SentmetaOut) : SentmetaPkt where
  pn := pkt.pn
  timeSent := pkt.timeSent
  ackEliciting := pkt.ackEliciting
  inFlight := pkt.inFlight
  sentBytes := pkt.sentBytes
  used := true

def addInFlight (total : Nat) (inFlight : Bool) (n : Nat) : Checked Nat :=
  if inFlight then Checked.add 64 total n else pure total

def subInFlight (total : Nat) (inFlight : Bool) (n : Nat) : Checked Nat :=
  if inFlight then Checked.sub 64 total n else pure total

/-- With the answer `false` if the table is full. -/
def sentmetaOnSent (m : Sentmeta) (pkt : SentmetaOut) : Checked (Sentmeta × Bool) :=
  match sentmetaFreeSlot m with
  | none => pure (m, false)
  | some i => do
    let count ← Checked.add 64 m.count 1
    let total ← addInFlight m.totalInFlight pkt.inFlight pkt.sentBytes
    pure (⟨update m.pkts i (sentmetaStore pkt), count, total⟩, true)

def sentmetaReclaim (m : Sentmeta) (i : Nat) : Checked Sentmeta := do
  let total ← subInFlight m.totalInFlight (m.pkts i).inFlight (m.pkts i).sentBytes
  let count ← Checked.sub 64 m.count 1
  pure ⟨update m.pkts i (m.pkts i).freed, count, total⟩

def sentmetaHolds (p : SentmetaPkt) (pn : Nat) : Bool := p.used && p.pn = pn

def sentmetaFind (m : Sentmeta) (pn : Nat) : Option Nat :=
  (List.range sentmetaCap).find? fun i => sentmetaHolds (m.pkts i) pn

def sentmetaUncount (m : Sentmeta) (pn n : Nat) : Checked Sentmeta :=
  match sentmetaFind m pn with
  | none => pure m
  | some i =>
    if (m.pkts i).inFlight then do
      let n := min n (m.pkts i).sentBytes
      let bytes ← Checked.sub 64 (m.pkts i).sentBytes n
      let total ← Checked.sub 64 m.totalInFlight n
      pure ⟨update m.pkts i ((m.pkts i).withBytes bytes), m.count, total⟩
    else pure m

/-! ## Acknowledgments and losses -/

/-- What the ranges of a step newly acknowledged. -/
structure SrvrunRecAcked where
  largest : Nat
  largestHit : Bool
  largestSent : Nat
  eliciting : Bool
  any : Bool

def srvrunRecIn (p : SentmetaPkt) (lo hi : Nat) : Bool := p.used && lo ≤ p.pn && p.pn ≤ hi

def srvrunRecNoted (p : SentmetaPkt) (a : SrvrunRecAcked) : SrvrunRecAcked :=
  let a := { a with eliciting := a.eliciting || p.ackEliciting, any := true }
  if p.pn = a.largest then { a with largestHit := true, largestSent := p.timeSent } else a

def srvrunRecTake (m : Sentmeta) (i : Nat) (a : SrvrunRecAcked) :
    Checked (Sentmeta × SrvrunRecAcked) := do
  let m' ← sentmetaReclaim m i
  pure (m', srvrunRecNoted (m.pkts i) a)

def srvrunRecAckRange (s : Sentmeta × SrvrunRecAcked) (range : Nat × Nat) :
    Checked (Sentmeta × SrvrunRecAcked) :=
  (List.range sentmetaCap).foldlM (fun s i =>
    if srvrunRecIn (s.1.pkts i) range.1 range.2 then srvrunRecTake s.1 i s.2 else pure s) s

def srvrunRecLargest (ranges : List (Nat × Nat)) : Nat :=
  ranges.foldl (fun largest range => max largest range.2) 0

def srvrunRecOnAcks (m : Sentmeta) (ranges : List (Nat × Nat)) :
    Checked (Sentmeta × SrvrunRecAcked) :=
  ranges.foldlM srvrunRecAckRange (m, ⟨srvrunRecLargest ranges, false, 0, false, false⟩)

def srvrunRecEligible (p : SentmetaPkt) (largestAcked : Nat) : Bool :=
  p.used && p.pn < largestAcked

/-- `LOSS_PACKET_THRESHOLD` is three. -/
def lossByPacket (largestAcked pn : Nat) : Bool := addU64 pn 3 ≤ largestAcked

def srvrunRecLost (p : SentmetaPkt) (largestAcked nowUs delayUs : Nat) : Bool :=
  lossByPacket largestAcked p.pn ||
    (delayUs ≠ 0 && addU64 (mulU64 p.timeSent 1000) delayUs ≤ nowUs)

/-- The loss timer, zero while it is not armed. -/
def srvrunRecArm (lossTimeUs atUs : Nat) : Nat :=
  if lossTimeUs = 0 ∨ atUs < lossTimeUs then atUs else lossTimeUs

def srvrunRecCheck (largestAcked nowUs delayUs : Nat) (s : Sentmeta × Nat) (i : Nat) :
    Checked (Sentmeta × Nat) :=
  let p := s.1.pkts i
  if srvrunRecLost p largestAcked nowUs delayUs then do
    let m ← sentmetaReclaim s.1 i
    pure (m, s.2)
  else pure (s.1, srvrunRecArm s.2 (addU64 (mulU64 p.timeSent 1000) delayUs))

/-- With the loss timer of the packets that remain. -/
def srvrunRecDetect (m : Sentmeta) (largestAcked nowMs delayUs : Nat) : Checked (Sentmeta × Nat) :=
  (List.range sentmetaCap).foldlM (fun s i =>
    if srvrunRecEligible (s.1.pkts i) largestAcked then
      srvrunRecCheck largestAcked (mulU64 nowMs 1000) delayUs s i
    else pure s) (m, 0)

/-! ## Runs -/

inductive SentOp where
  | init
  | sent (pkt : SentmetaOut)
  | acks (ranges : List (Nat × Nat))
  | detect (largestAcked nowMs delayUs : Nat)
  | discard (slot : Nat)
  | uncount (pn n : Nat)

/-- A slot is discarded only while it is in use. -/
def sentStep (m : Sentmeta) : SentOp → Checked Sentmeta
  | .init => pure (sentmetaInit m)
  | .sent pkt => do
    let r ← sentmetaOnSent m pkt
    pure r.1
  | .acks ranges => do
    let r ← srvrunRecOnAcks m ranges
    pure r.1
  | .detect largestAcked nowMs delayUs => do
    let r ← srvrunRecDetect m largestAcked nowMs delayUs
    pure r.1
  | .discard i => if i < sentmetaCap && (m.pkts i).used then sentmetaReclaim m i else pure m
  | .uncount pn n => sentmetaUncount m pn n

/-- A run from any memory. -/
def sentRun (memory : Sentmeta) (ops : List SentOp) : Checked Sentmeta :=
  ops.foldlM sentStep (sentmetaInit memory)

/-! ## The accounts -/

def SentmetaPkt.counted (p : SentmetaPkt) : Nat := if p.used && p.inFlight then p.sentBytes else 0

def SentmetaPkt.live (p : SentmetaPkt) : Nat := if p.used then 1 else 0

/-- The bytes that are counted. -/
def inFlightSum (m : Sentmeta) : Nat := tally SentmetaPkt.counted sentmetaCap m.pkts

/-- The slots in use. -/
def liveCount (m : Sentmeta) : Nat := tally SentmetaPkt.live sentmetaCap m.pkts

/-- A word stands for a number, modulo 2 ^ 64. -/
def IsWord (word n : Nat) : Prop := word = n % 2 ^ 64

/-- The counters are right, and no packet has more than `bound` bytes. -/
structure Accounted (bound : Nat) (m : Sentmeta) : Prop where
  total : IsWord m.totalInFlight (inFlightSum m)
  count : m.count = liveCount m
  size : ∀ i < sentmetaCap, (m.pkts i).used = true → (m.pkts i).sentBytes ≤ bound

/-- With packets of this size the sum of a full table is a word. -/
def sizeMax : Nat := 2 ^ 56 - 1

section

variable {m : Sentmeta} {bound i : Nat} {p : SentmetaPkt}

theorem counted_of_used (h : p.used = true) :
    p.counted = if p.inFlight then p.sentBytes else 0 := by
  rw [SentmetaPkt.counted, h, Bool.true_and]

theorem counted_of_free (h : p.used = false) : p.counted = 0 := by
  rw [SentmetaPkt.counted, h, Bool.false_and]
  rfl

theorem live_of_used (h : p.used = true) : p.live = 1 := if_pos h

theorem live_of_free (h : p.used = false) : p.live = 0 := by
  rw [SentmetaPkt.live, h]
  rfl

theorem liveCount_le (m : Sentmeta) : liveCount m ≤ sentmetaCap := by
  have hle : liveCount m ≤ sentmetaCap * 1 := by
    apply tally_le
    intro i _
    rw [SentmetaPkt.live]
    split
    · exact le_rfl
    · exact Nat.zero_le 1
  rwa [mul_one] at hle

theorem accounted_init (memory : Sentmeta) (bound : Nat) :
    Accounted bound (sentmetaInit memory) where
  total := by
    have hsum : inFlightSum (sentmetaInit memory) = 0 :=
      tally_eq_zero fun i _ => counted_of_free rfl
    rw [hsum]
    exact (Nat.zero_mod _).symm
  count := by
    have hcount : liveCount (sentmetaInit memory) = 0 := tally_eq_zero fun i _ => live_of_free rfl
    rw [hcount]
    rfl
  size i _ hused := Bool.noConfusion hused

section

variable (h : Accounted bound m)
include h

theorem Accounted.sum_le : inFlightSum m ≤ sentmetaCap * bound := by
  apply tally_le
  intro i hi
  rw [SentmetaPkt.counted]
  split
  · rename_i hused
    rw [Bool.and_eq_true] at hused
    exact h.size i hi hused.1
  · exact Nat.zero_le bound

/-- Small packets leave the total exact. -/
theorem Accounted.sum_lt (hsmall : bound ≤ sizeMax) : inFlightSum m < 2 ^ 64 := by
  have hsum := h.sum_le
  have hfull : sentmetaCap * bound ≤ sentmetaCap * sizeMax := Nat.mul_le_mul_left _ hsmall
  have hcap : sentmetaCap * sizeMax < 2 ^ 64 := by decide
  omega

theorem Accounted.total_eq (hsmall : bound ≤ sizeMax) : m.totalInFlight = inFlightSum m := by
  have htotal := h.total
  rw [htotal, Nat.mod_eq_of_lt (h.sum_lt hsmall)]

theorem Accounted.write (hi : i < sentmetaCap)
    {count total : Nat} (hcount : count + (m.pkts i).live = m.count + p.live)
    (htotal : ∀ sum, sum + (m.pkts i).counted = inFlightSum m + p.counted → IsWord total sum)
    (hsize : p.used = true → p.sentBytes ≤ bound) :
    Accounted bound ⟨update m.pkts i p, count, total⟩ where
  total := htotal _ (tally_update hi p)
  count := by
    have hlive : tally SentmetaPkt.live sentmetaCap (update m.pkts i p) +
        (m.pkts i).live = liveCount m + p.live := tally_update hi p
    have hold := h.count
    change count = tally SentmetaPkt.live sentmetaCap (update m.pkts i p)
    omega
  size j hj hused := by
    dsimp only at hused ⊢
    by_cases hji : j = i
    · rw [hji, update_self] at hused ⊢
      exact hsize hused
    · rw [update_of_ne hji] at hused ⊢
      exact h.size j hj hused

end

/-- The counters stay right, and with small packets nothing is out of range. -/
def Kept (bound : Nat) (x : Checked Sentmeta) : Prop := x.Keeps (Accounted bound) (bound ≤ sizeMax)

section

variable (h : Accounted bound m)

include h

/-- Bytes of a slot are taken off the total. -/
theorem sub_total_keeps (hword : bound < 2 ^ 64) (hi : i < sentmetaCap)
    (hused : (m.pkts i).used = true) {n : Nat} (hn : n ≤ (m.pkts i).counted) :
    (Checked.sub 64 m.totalInFlight n).Keeps (fun total => IsWord total (inFlightSum m - n))
      (bound ≤ sizeMax) := by
  have hle : (m.pkts i).counted ≤ inFlightSum m := le_tally hi
  have hsize := h.size i hi hused
  have hcounted : (m.pkts i).counted ≤ (m.pkts i).sentBytes := by
    rw [counted_of_used hused]
    split
    · exact le_rfl
    · exact zero_le
  constructor
  · have htotal := h.total
    rw [IsWord] at htotal
    change (m.totalInFlight + 2 ^ 64 - n) % 2 ^ 64 = (inFlightSum m - n) % 2 ^ 64
    omega
  · intro hsmall
    apply decide_eq_true
    rw [h.total_eq hsmall]
    exact le_trans hn hle

theorem sub_count_keeps (hi : i < sentmetaCap) (hused : (m.pkts i).used = true) {P : Prop} :
    (Checked.sub 64 m.count 1).Keeps (fun count => count + 1 = m.count) P := by
  have hlive : 1 ≤ m.count := by
    rw [h.count, ← live_of_used hused]
    exact le_tally hi
  have hword : m.count < 2 ^ 64 := by
    rw [h.count]
    exact lt_of_le_of_lt (liveCount_le m) (by decide)
  rw [Checked.sub_eq hword hlive]
  exact Checked.Keeps.pure (Nat.sub_add_cancel hlive)

theorem onSent_kept {pkt : SentmetaOut} (hpkt : pkt.sentBytes ≤ bound) :
    Kept bound (sentStep m (.sent pkt)) := by
  rw [sentStep, sentmetaOnSent]
  split
  · exact ⟨h, fun _ => rfl⟩
  rename_i i hfree
  have hi := mem_range.mp (mem_of_find?_eq_some hfree)
  have hunused : (m.pkts i).used = false := by
    have hfound := find?_some hfree
    rwa [Bool.not_eq_true'] at hfound
  obtain ⟨p, hp⟩ : ∃ p, p = sentmetaStore pkt := ⟨_, rfl⟩
  have hstored : p.used = true := hp ▸ rfl
  -- the sums of the table with the packet in it
  have hlive : liveCount ⟨update m.pkts i p, 0, 0⟩ + (m.pkts i).live =
      liveCount m + p.live := tally_update hi p
  have hsum : inFlightSum ⟨update m.pkts i p, 0, 0⟩ + (m.pkts i).counted =
      inFlightSum m + p.counted := tally_update hi p
  rw [live_of_free hunused, live_of_used hstored, add_zero, ← h.count] at hlive
  rw [counted_of_free hunused, add_zero] at hsum
  have hacc : ∀ count total, count = m.count + 1 → IsWord total (inFlightSum m + p.counted) →
      Accounted bound ⟨update m.pkts i p, count, total⟩ := by
    intro count total hc ht
    apply h.write hi
    · rw [hc, live_of_free hunused, live_of_used hstored]
    · intro sum hs
      rw [counted_of_free hunused, add_zero] at hs
      rwa [hs]
    · exact fun _ => hp ▸ hpkt
  have hcount : Checked.add 64 m.count 1 = pure (m.count + 1) := by
    apply Checked.add_eq
    rw [← hlive]
    exact lt_of_le_of_lt (liveCount_le _) (by decide)
  have htotal : (addInFlight m.totalInFlight pkt.inFlight pkt.sentBytes).Keeps
      (fun total => IsWord total (inFlightSum m + p.counted)) (bound ≤ sizeMax) := by
    have hcounted : p.counted = if pkt.inFlight then pkt.sentBytes else 0 := by
      rw [counted_of_used hstored, hp]
      rfl
    rw [addInFlight]
    split
    · rename_i hflight
      rw [if_pos hflight] at hcounted
      have hword : IsWord ((m.totalInFlight + pkt.sentBytes) % 2 ^ 64)
          (inFlightSum m + p.counted) := by
        rw [IsWord, h.total, hcounted, Nat.mod_add_mod]
      refine ⟨hword, fun hsmall => decide_eq_true ?_⟩
      rw [h.total_eq hsmall, ← hcounted, ← hsum]
      exact (hacc _ _ rfl hword).sum_lt hsmall
    · rename_i hidle
      rw [if_neg hidle] at hcounted
      rw [hcounted, add_zero]
      exact Checked.Keeps.pure h.total
  rw [hcount, pure_bind, ← hp]
  refine Checked.Keeps.bind (I := fun r => Accounted bound r.1) ?_ fun r hr => Checked.Keeps.pure hr
  exact htotal.bind fun total ht => Checked.Keeps.pure (hacc _ _ rfl ht)

theorem reclaim_kept (hword : bound < 2 ^ 64) (hi : i < sentmetaCap)
    (hused : (m.pkts i).used = true) : Kept bound (sentmetaReclaim m i) := by
  have htotal : (subInFlight m.totalInFlight (m.pkts i).inFlight (m.pkts i).sentBytes).Keeps
      (fun total => IsWord total (inFlightSum m - (m.pkts i).counted)) (bound ≤ sizeMax) := by
    have hcounted := counted_of_used hused
    rw [subInFlight]
    split
    · rename_i hflight
      rw [if_pos hflight] at hcounted
      rw [← hcounted]
      exact sub_total_keeps h hword hi hused le_rfl
    · rename_i hidle
      rw [if_neg hidle] at hcounted
      rw [hcounted, Nat.sub_zero]
      exact Checked.Keeps.pure h.total
  have hfreed : (m.pkts i).freed.used = false := rfl
  refine htotal.bind fun total ht => (sub_count_keeps h hi hused).bind fun count hc => ?_
  apply Checked.Keeps.pure
  apply h.write hi
  · rw [live_of_used hused, hc, live_of_free hfreed, add_zero]
  · intro sum hsum
    rw [counted_of_free hfreed, add_zero] at hsum
    rwa [← hsum, Nat.add_sub_cancel] at ht
  · exact fun hused => Bool.noConfusion hused

theorem uncount_kept (hword : bound < 2 ^ 64) (pn n : Nat) :
    Kept bound (sentmetaUncount m pn n) := by
  rw [sentmetaUncount]
  split
  · exact Checked.Keeps.pure h
  rename_i i hfound
  have hi := mem_range.mp (mem_of_find?_eq_some hfound)
  have hused : (m.pkts i).used = true := by
    have hholds := find?_some hfound
    rw [sentmetaHolds, Bool.and_eq_true] at hholds
    exact hholds.1
  split
  swap
  · exact Checked.Keeps.pure h
  rename_i hflight
  have hcounted : ∀ b, ((m.pkts i).withBytes b).counted = b := by
    intro b
    rw [SentmetaPkt.counted, SentmetaPkt.withBytes, hused, hflight]
    rfl
  have hsize := h.size i hi hused
  have hcut := Nat.min_le_right n (m.pkts i).sentBytes
  dsimp only
  rw [Checked.sub_eq (lt_of_le_of_lt hsize hword) hcut, pure_bind]
  have hn : min n (m.pkts i).sentBytes ≤ (m.pkts i).counted := (hcounted _).symm ▸ hcut
  refine (sub_total_keeps h hword hi hused hn).bind fun total ht => Checked.Keeps.pure ?_
  have hold : (m.pkts i).counted = (m.pkts i).sentBytes := hcounted _
  refine h.write hi rfl (fun sum hsum => ?_) fun _ => le_trans (Nat.sub_le _ _) hsize
  rw [hcounted, hold] at hsum
  rwa [show sum = inFlightSum m - min n (m.pkts i).sentBytes by omega]

end

/-- A loop over the slots that takes some of those in use out. -/
theorem slots_kept {τ : Type} (hword : bound < 2 ^ 64)
    {f : Sentmeta × τ → Nat → Checked (Sentmeta × τ)}
    (hf : ∀ (s : Sentmeta × τ) i, f s i = pure (s.1, (f s i).val.2) ∨
      (s.1.pkts i).used = true ∧ f s i = do
        let m ← sentmetaReclaim s.1 i
        pure (m, (f s i).val.2))
    {s : Sentmeta × τ} (h : Accounted bound s.1) :
    ((List.range sentmetaCap).foldlM f s).Keeps (fun s : Sentmeta × τ => Accounted bound s.1)
      (bound ≤ sizeMax) := by
  refine Checked.Keeps.foldlM (I := fun s : Sentmeta × τ => Accounted bound s.1)
    (fun s i hi hs => ?_) h
  obtain heq | ⟨hused, heq⟩ := hf s i
  · rw [heq]
    exact Checked.Keeps.pure hs
  · rw [heq]
    have hreclaim := reclaim_kept hs hword (mem_range.mp hi) hused
    exact hreclaim.bind fun m hm => Checked.Keeps.pure hm

section

variable (h : Accounted bound m) (hword : bound < 2 ^ 64)
include h hword

theorem onAcks_kept (ranges : List (Nat × Nat)) : Kept bound (sentStep m (.acks ranges)) := by
  have hrange : ∀ s, ∀ range ∈ ranges, Accounted bound s.1 →
      (srvrunRecAckRange s range).Keeps (fun s => Accounted bound s.1) (bound ≤ sizeMax) := by
    intro s range _ hs
    refine slots_kept hword (fun s i => ?_) hs
    split
    · rename_i hin
      rw [srvrunRecIn, Bool.and_assoc, Bool.and_eq_true] at hin
      exact .inr ⟨hin.1, rfl⟩
    · exact .inl rfl
  exact (Checked.Keeps.foldlM hrange h).bind fun s hs => Checked.Keeps.pure hs

theorem detect_kept (largestAcked nowMs delayUs : Nat) :
    Kept bound (sentStep m (.detect largestAcked nowMs delayUs)) := by
  refine Checked.Keeps.bind (slots_kept hword (fun s i => ?_) h) fun s hs => Checked.Keeps.pure hs
  split
  · rename_i heligible
    rw [srvrunRecEligible, Bool.and_eq_true] at heligible
    rw [srvrunRecCheck]
    split
    · exact .inr ⟨heligible.1, rfl⟩
    · exact .inl rfl
  · exact .inl rfl

theorem sentStep_kept {op : SentOp}
    (hop : ∀ pkt, op = .sent pkt → pkt.sentBytes ≤ bound) : Kept bound (sentStep m op) := by
  cases op with
  | init => exact Checked.Keeps.pure (accounted_init m bound)
  | sent pkt => exact onSent_kept h (hop pkt rfl)
  | acks ranges => exact onAcks_kept h hword ranges
  | detect largestAcked nowMs delayUs => exact detect_kept h hword largestAcked nowMs delayUs
  | discard i =>
    rw [sentStep]
    split
    · rename_i hslot
      rw [Bool.and_eq_true, decide_eq_true_eq] at hslot
      exact reclaim_kept h hword hslot.1 hslot.2
    · exact Checked.Keeps.pure h
  | uncount pn n => exact uncount_kept h hword pn n

end

end

/-- **The accounts of every run**, from any memory. The count is the number of slots in use and the
total the sum of the bytes that are counted, as a word. Where no packet has 2 ^ 56 bytes it is the
sum itself, and no sum or difference on the way was out of range. -/
theorem sentRun_accounted (memory : Sentmeta) (ops : List SentOp) :
    let r := sentRun memory ops
    r.val.count = liveCount r.val ∧
      r.val.totalInFlight = inFlightSum r.val % 2 ^ 64 ∧
      ((∀ pkt, .sent pkt ∈ ops → pkt.sentBytes < 2 ^ 56) →
        r.fits = true ∧ r.val.totalInFlight = inFlightSum r.val) := by
  intro r
  have hrun : ∀ bound < 2 ^ 64, (∀ pkt, .sent pkt ∈ ops → pkt.sentBytes ≤ bound) →
      Kept bound r := by
    intro bound hword hops
    refine Checked.Keeps.foldlM (fun m op hop hm => ?_) (accounted_init memory bound)
    exact sentStep_kept hm hword fun pkt hpkt => hops pkt (hpkt ▸ hop)
  have hwords := (hrun (2 ^ 64 - 1) (by decide) fun pkt _ => Nat.le_sub_one_of_lt pkt.word).1
  refine ⟨hwords.count, hwords.total, fun hsmall => ?_⟩
  have hkept := hrun sizeMax (by decide) fun pkt hpkt => Nat.le_sub_one_of_lt (hsmall pkt hpkt)
  exact ⟨hkept.2 le_rfl, hkept.1.total_eq le_rfl⟩

/-- A packet of 1200 bytes, of which a send session counts 1000. -/
theorem sentRun_accounted_sample :
    (sentRun ⟨fun _ => ⟨0, 0, 0, false, false, false⟩, 0, 0⟩
      [.sent ⟨7, 0, true, true, 1200, by decide⟩, .uncount 7 1000]).fits = true :=
  ((sentRun_accounted _ _).2.2 fun pkt hpkt => by
    simp only [mem_cons, not_mem_nil, or_false, SentOp.sent.injEq, reduceCtorEq] at hpkt
    rw [hpkt]
    decide).1

/-- Two packets of 2 ^ 63 bytes: the total is zero, and taking one out borrows. -/
theorem sentRun_wraps :
    let r := sentRun ⟨fun _ => ⟨0, 0, 0, false, false, false⟩, 0, 0⟩
      [.sent ⟨1, 0, true, true, 2 ^ 63, by decide⟩, .sent ⟨2, 0, true, true, 2 ^ 63, by decide⟩]
    r.val.totalInFlight ≠ inFlightSum r.val ∧
      (sentStep r.val (.discard 0)).fits = false := by
  intro r
  have hfirst : (r.val.pkts 0).counted ≤ inFlightSum r.val := le_tally (by decide)
  refine ⟨fun heq => ?_, rfl⟩
  rw [← heq] at hfirst
  exact absurd hfirst (by decide)

end Wired.Transport
