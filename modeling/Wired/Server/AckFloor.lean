import Wired.Server.AckContent

/-!
# Acknowledged ACK frames

`srvloop_sent.c`: the last eight packets that carried an ACK frame are remembered with the Largest
Acknowledged of the frame. When the peer acknowledges one of them, the floor of the ACK frames to
come rises above that number, also past numbers that the frame did not cover. A packet that arrives
late, below the floor, is then in no ACK frame, unless everything received is below the floor and
nothing is missing above the packet (`freshCovered_along_iff`, `lateRun_not_freshCovered`).
-/

namespace Wired.Server

open Lib Transport Wired.Frame List

/-! ## The floor -/

def srvloopAckd : Nat := 8

/-- `received` and `fresh` are not in the source: the packets recorded, and those among them that
are ack-eliciting and were recorded since an ACK frame was last built. -/
structure AckLoop where
  side : AckSide
  ackdPn1 : Nat → Nat
  ackdLargest : Nat → Nat
  ackdNext : Nat
  received : List UInt64
  fresh : List UInt64

def ackLoopInit : AckLoop where
  side := { ackRecv := recvpnInit, floor1 := 0, nowMs := 0, sinceTick := 0
            ecnEct0 := 0, ecnEct1 := 0, ecnCe := 0 }
  ackdPn1 := fun _ => 0
  ackdLargest := fun _ => 0
  ackdNext := 0
  received := []
  fresh := []

/-- One more than the Largest Acknowledged of the frame, zero if it cannot be read. -/
def srvloopSentAckLargest1 (bytes : List UInt8) : Nat :=
  match ackDecode bytes with
  | none => 0
  | some (f, _) =>
    match f.ranges with
    | [] => 0
    | r0 :: _ => addU64 r0.hi 1

def srvloopAckdNote (s : AckLoop) (pn ackLargest1 : Nat) : AckLoop :=
  if ackLargest1 = 0 then s
  else
    { s with
      ackdPn1 := Function.update s.ackdPn1 s.ackdNext (addU64 pn 1)
      ackdLargest := Function.update s.ackdLargest s.ackdNext (ackLargest1 - 1)
      ackdNext := (s.ackdNext + 1) % srvloopAckd }

def srvloopAckdHit (s : AckLoop) (i lo hi : Nat) : Bool :=
  s.ackdPn1 i > lo && s.ackdPn1 i - 1 ≤ hi

def ackdOnAckedSlot (lo hi : Nat) (s : AckLoop) (i : Nat) : AckLoop :=
  if srvloopAckdHit s i lo hi then
    { s with
      side := { s.side with floor1 := max s.side.floor1 (addU64 (s.ackdLargest i) 1) }
      ackdPn1 := Function.update s.ackdPn1 i 0 }
  else s

def srvloopAckdOnAcked (s : AckLoop) (lo hi : Nat) : AckLoop :=
  (List.range srvloopAckd).foldl (ackdOnAckedSlot lo hi) s

/-! ## Runs -/

inductive AckEvent where
  /-- a 1-RTT packet of the peer is recorded -/
  | record (pn : UInt64) (eliciting : Bool)
  /-- an ACK frame is built in a buffer of `cap` bytes, and sent in our packet `sentIn` if any -/
  | buildAck (cap : Nat) (sentIn : Option Nat)
  /-- an ACK frame of the peer has our packets from `lo` to `hi` -/
  | acked (lo hi : Nat)
  /-- the clock and the ECN counts move on -/
  | elapse (nowMs sinceTick ect0 ect1 ce : Nat)

def ackStep (s : AckLoop) : AckEvent → AckLoop
  | .record pn eliciting =>
    { s with
      side := { s.side with ackRecv := recvpnRecord s.side.ackRecv pn.toNat }
      received := pn :: s.received
      fresh := if eliciting then pn :: s.fresh else s.fresh }
  | .buildAck cap sentIn =>
    match appAckEncodeRanges s.side cap with
    | none => s
    | some bytes =>
      match sentIn with
      | none => { s with fresh := [] }
      | some pn => { srvloopAckdNote s pn (srvloopSentAckLargest1 bytes) with fresh := [] }
  | .acked lo hi => srvloopAckdOnAcked s lo hi
  | .elapse nowMs sinceTick ect0 ect1 ce =>
    { s with
      side := { s.side with nowMs := nowMs, sinceTick := sinceTick
                            ecnEct0 := ect0, ecnEct1 := ect1, ecnCe := ce } }

/-- A packet is in one of the newest ranges that an ACK frame has room for. -/
def AmongNewest (s : AckLoop) (pn : UInt64) : Prop :=
  (runsAbove (recordedSet s.received) pn.toNat).ncard < ackMaxRanges

/-- An ACK frame that is built has every packet recorded since the one before that is among the
newest ranges. -/
def FreshCovered (s : AckLoop) : AckEvent → Prop
  | .buildAck cap _ => ∀ bytes, appAckEncodeRanges s.side cap = some bytes →
      ∀ pn ∈ s.fresh, AmongNewest s pn →
        ∃ f n, ackDecode bytes = some (f, n) ∧ Covers f.ranges pn.toNat
  | _ => True

/-- When an ACK frame is built, the packets recorded since the one before are in the window and not
below the floor; or everything received is below the floor, and nothing is missing above the packet.
-/
def FreshAboveFloor (s : AckLoop) : AckEvent → Prop
  | .buildAck cap _ => (appAckEncodeRanges s.side cap).isSome → ∀ pn ∈ s.fresh, AmongNewest s pn →
      pn.toNat ∈ windowOf (recordedSet s.received) ∧
        (s.side.floor1 ≤ pn.toNat ∨ (∀ q ∈ s.received, q.toNat < s.side.floor1) ∧
          ∀ q ∈ s.received, Set.Icc pn.toNat q.toNat ⊆ recordedSet s.received)
  | _ => True

/-- The window is that of the packets received. -/
structure AckInv (s : AckLoop) : Prop where
  represents : s.side.ackRecv.Represents (recordedSet s.received)
  fresh : ∀ pn ∈ s.fresh, pn ∈ s.received

theorem ackLoopInit_inv : AckInv ackLoopInit where
  represents := recordAll_represents []
  fresh := by nofun

section

variable {s : AckLoop}

theorem srvloopAckdNote_inv (h : AckInv s) (pn ackLargest1 : Nat) :
    AckInv (srvloopAckdNote s pn ackLargest1) := by
  unfold srvloopAckdNote
  split
  · exact h
  · exact ⟨h.represents, h.fresh⟩

theorem srvloopAckdOnAcked_inv (h : AckInv s) (lo hi : Nat) :
    AckInv (srvloopAckdOnAcked s lo hi) := by
  apply foldl_invariant _ _ h
  intro s i h
  unfold ackdOnAckedSlot
  split
  · exact ⟨h.represents, h.fresh⟩
  · exact h

theorem ackStep_inv (h : AckInv s) (e : AckEvent) : AckInv (ackStep s e) := by
  cases e with
  | record pn eliciting =>
    refine ⟨?_, ?_⟩
    · dsimp only [ackStep]
      rw [recordedSet_cons]
      exact recvpnRecord_represents h.represents pn.toNat
    · intro p hp
      dsimp only [ackStep] at hp ⊢
      split at hp
      · rcases mem_cons.mp hp with rfl | hp
        · exact mem_cons_self
        · exact mem_cons_of_mem _ (h.fresh p hp)
      · exact mem_cons_of_mem _ (h.fresh p hp)
  | buildAck cap sentIn =>
    dsimp only [ackStep]
    split
    · exact h
    · split
      · exact ⟨h.represents, by nofun⟩
      · exact ⟨(srvloopAckdNote_inv h _ _).represents, by nofun⟩
  | acked lo hi => exact srvloopAckdOnAcked_inv h lo hi
  | elapse nowMs sinceTick ect0 ect1 ce => exact ⟨h.represents, h.fresh⟩

theorem reported_iff {R : Set Nat} {floor1 pn : Nat} (hnew : (runsAbove R pn).ncard < ackMaxRanges) :
    Reported R floor1 pn ↔ pn ∈ windowOf R ∧
      (floor1 ≤ pn ∨ (∀ q ∈ R, q < floor1) ∧ ∀ q ∈ R, Set.Icc pn q ⊆ R) :=
  ⟨fun h => ⟨h.window, h.floor⟩, fun h => ⟨h.1, hnew, h.2⟩⟩

theorem forall_mem_recordedSet {pns : List UInt64} {P : Nat → Prop} :
    (∀ q ∈ recordedSet pns, P q) ↔ ∀ q ∈ pns, P q.toNat := by
  constructor
  · intro h q hq
    exact h _ ⟨q, hq, rfl⟩
  · rintro h x ⟨q, hq, rfl⟩
    exact h q hq

theorem freshCovered_step_iff (h : AckInv s) (e : AckEvent) :
    FreshCovered s e ↔ FreshAboveFloor s e := by
  cases e with
  | record | acked | elapse => exact Iff.rfl
  | buildAck cap sentIn =>
    dsimp only [FreshCovered, FreshAboveFloor]
    rw [Option.isSome_iff_exists, forall_exists_index]
    apply forall_congr'
    intro bytes
    apply forall_congr'
    intro hbytes
    apply forall_congr'
    intro pn
    apply forall_congr'
    intro hpn
    apply forall_congr'
    intro hnew
    have hne : (recordedSet s.received).Nonempty := ⟨pn.toNat, pn, h.fresh pn hpn, rfl⟩
    obtain ⟨f, hdec, hcovers, -⟩ :=
      appAckEncodeRanges_reads (received_of_represents h.represents hne) hbytes
    rw [← forall_mem_recordedSet (P := fun x => x < s.side.floor1),
      ← forall_mem_recordedSet (P := fun x => Set.Icc pn.toNat x ⊆ recordedSet s.received),
      ← reported_iff hnew, ← hcovers]
    constructor
    · rintro ⟨f', n, hdec', hcov⟩
      rw [hdec] at hdec'
      cases hdec'
      exact hcov
    · intro hcov
      exact ⟨f, _, hdec, hcov⟩

end

/-- **New packets in ACK frames.** In a run of any packets recorded, ACK frames built and packets
acknowledged, the first ACK frame after a packet has it exactly when every frame is built with the
new packets in the window and above the floor, or with everything below the floor and nothing
missing. -/
theorem freshCovered_along_iff (es : List AckEvent) :
    Along ackStep FreshCovered ackLoopInit es ↔ Along ackStep FreshAboveFloor ackLoopInit es :=
  along_congr (I := AckInv) (fun _ e h _ => ackStep_inv h e) (fun _ e h => freshCovered_step_iff h e)
    es ackLoopInit_inv

/-- Packet 1 arrives when the floor is above it. -/
def lateRun : List AckEvent :=
  [.record 0 true, .record 2 true, .buildAck 64 (some 0), .acked 0 0, .record 3 true,
    .record 1 true, .buildAck 64 (some 1)]

/-- The second ACK frame of `lateRun` has packet 3 alone. -/
theorem lateRun_not_freshCovered : ¬ Along ackStep FreshCovered ackLoopInit lateRun := by
  intro h
  have hlast := h.2.2.2.2.2.2.1
  have hbytes : appAckEncodeRanges ((lateRun.take 6).foldl ackStep ackLoopInit).side 64 =
      some [2, 3, 0, 0, 0] := by decide +kernel
  have hdec : ackDecode [2, 3, 0, 0, 0] = some
      ({ ackDelay := 0, ranges := [{ hi := 3, lo := 3 }], hasEcn := false
         ect0 := 0, ect1 := 0, ce := 0 }, 5) := by decide +kernel
  have hnone : runsAbove (recordedSet [1, 3, 2, 0]) 1 = ∅ := by
    rw [Set.eq_empty_iff_forall_notMem]
    rintro ⟨hi, lo⟩ ⟨hrun, hlt⟩
    dsimp only at hrun hlt
    have hlo : lo = 2 ∨ lo = 3 := by
      obtain ⟨pn, hpn, rfl⟩ := hrun.lo_mem
      simp only [mem_cons, not_mem_nil, or_false] at hpn
      rcases hpn with rfl | rfl | rfl | rfl <;> simp_all
    rcases hlo with rfl | rfl
    · exact hrun.below 1 rfl ⟨1, by simp, rfl⟩
    · exact hrun.below 2 rfl ⟨2, by simp, rfl⟩
  obtain ⟨f, n, hf, hcov⟩ := hlast _ hbytes 1 mem_cons_self (by
    change (runsAbove (recordedSet [1, 3, 2, 0]) 1).ncard < ackMaxRanges
    rw [hnone, Set.ncard_empty]
    decide)
  rw [hdec] at hf
  cases hf
  simp [Covers] at hcov

end Wired.Server
