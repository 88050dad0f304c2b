import Wired.Bytes.Bitmap
import Wired.Lib.Run
import Wired.Transport.Varint

/-!
# WebTransport stream slots

`srvloop_wt_window.c` and `dispatch_wt.c`: a slot receives one WebTransport stream. The stream
begins with a signal of two variable-length integers, the second of which names the session. What
comes behind the signal is put in a window of the slot by its offset, and is handed to the
application up to the first byte that is missing (`srvrun_refuse.c`, `srvrun_dg.c`).

The slots of unidirectional streams have the same fields, with the name `type_len` for `sig_len`.
-/

namespace Wired.Http3

open Lib Bytes Transport List

def wtBufCap : Nat := 49152

def wtSigCap : Nat := 16

/-! ## The window -/

/-- Offsets are counted from the end of the signal; `base` is that of the first byte of the buffer,
and bit `i` of `haveBits` is set once its byte `i` was written. -/
structure WtWindow where
  base : Nat
  haveBits : Bitmap
  frontier : Nat
  droppedBytes : Nat

def wtWindowSkipStale (w : WtWindow) (absOff n : Nat) : Nat :=
  if absOff + n ≤ w.base then 0 else if absOff ≥ w.base then n else absOff + n - w.base

def wtWindowKeptStart (w : WtWindow) (absOff : Nat) : Nat :=
  if absOff > w.base then absOff else w.base

def wtWindowAvailAt (lo cap : Nat) : Nat := if lo < cap then cap - lo else 0

def wtWindowAdvance (w : WtWindow) : WtWindow :=
  { w with frontier := leadingFrom (bitsGet w.haveBits) (wtBufCap - w.frontier) w.frontier }

def wtWindowMark (w : WtWindow) (lo n : Nat) : WtWindow :=
  wtWindowAdvance { w with haveBits := bitsFill w.haveBits (min lo wtBufCap) n }

/-- The window, where the bytes that it accepts are to be put, and how many they are. -/
structure WtAccepted where
  win : WtWindow
  relOff : Nat
  acceptedN : Nat

def wiredSrvloopWtWindowAccept (w : WtWindow) (absOff n : Nat) : WtAccepted :=
  let kept := wtWindowSkipStale w absOff n
  let lo := wtWindowKeptStart w absOff - w.base
  let avail := wtWindowAvailAt lo wtBufCap
  let accepted := if kept < avail then kept else avail
  { win := wtWindowMark { w with droppedBytes := w.droppedBytes + (kept - accepted) } lo accepted
    relOff := lo
    acceptedN := accepted }

def wtBufShiftLeft (buf : Nat → UInt8) (cap shift : Nat) : Nat → UInt8 :=
  (List.range (cap - shift)).foldl (fun buf i => Function.update buf i (buf (i + shift))) buf

def wtWindowSlideNotDue (w : WtWindow) (deliveredTo : Nat) : Bool :=
  deliveredTo < w.base + w.frontier

def wiredSrvloopWtWindowSlide (w : WtWindow) (buf : Nat → UInt8) (cap deliveredTo : Nat) :
    WtWindow × (Nat → UInt8) :=
  let shift := w.frontier
  if wtWindowSlideNotDue w deliveredTo || shift = 0 then (w, buf)
  else
    (wtWindowAdvance { w with
      haveBits := bitsShiftDown w.haveBits wtBufCap shift
      base := w.base + shift
      frontier := 0 },
     wtBufShiftLeft buf cap shift)

/-! ## The slot -/

/-- A slot: the signal, and the window behind it. -/
structure WtSlot where
  inUse : Bool
  sigLen : Nat
  sig : Nat → UInt8
  sigHave : Nat
  sigPending : Bool
  win : WtWindow
  buf : Nat → UInt8
  fin : Bool
  finOff : Nat
  deliveredLen : Nat
  finDelivered : Bool

/-- A slot is taken over, with the bytes of its last stream still in it. The signal of a stream that
the server opened, and of one on raw QUIC, is not waited for. -/
def srvloopWtSlotClaim (old : WtSlot) (signalled : Bool) : WtSlot :=
  { old with
    inUse := true
    sigLen := 0
    sigHave := 0
    sigPending := signalled
    win := { old.win with base := 0, frontier := 0, haveBits := fun _ => 0 }
    fin := false
    finOff := 0
    deliveredLen := 0
    finDelivered := false }

/-- `bytes_put`: nothing is written where there is no room for everything. -/
def bytesPut (cap : Nat) (buf : Nat → UInt8) (off : Nat) (src : List UInt8) : Nat → UInt8 :=
  if off + src.length > cap then buf else writeCells buf off src

/-- The signal bytes of a frame, and the end of the last of them as the count of bytes there. -/
def wtSigAbsorb (sig : Nat → UInt8) (sigHave : Nat) (f : Fragment UInt8) : (Nat → UInt8) × Nat :=
  if f.off ≥ wtSigCap then (sig, sigHave)
  else
    let n := min f.data.length (wtSigCap - f.off)
    (bytesPut wtSigCap sig f.off (f.data.take n), if f.off + n > sigHave then f.off + n else sigHave)

def wtSigTake : List UInt8 → Option (Nat × Nat) :=
  Stable.andThen varintDecode fun _ => varintDecode

def wtSigParse (s : List UInt8) : Nat :=
  match wtSigTake s with
  | none => 0
  | some (_, n) => n

def srvloopWtSigResolve (s : WtSlot) (f : Fragment UInt8) : WtSlot × Bool :=
  if !s.sigPending then (s, true)
  else
    let a := wtSigAbsorb s.sig s.sigHave f
    let len := wtSigParse (readCells a.1 a.2)
    let s := { s with sig := a.1, sigHave := a.2, sigLen := len }
    if len = 0 then (s, false) else ({ s with sigPending := false }, true)

def srvloopWtFrameSkip (f : Fragment UInt8) (sigLen : Nat) : Nat :=
  if f.off ≥ sigLen then 0 else min (sigLen - f.off) f.data.length

def srvloopWtFrameAbs (f : Fragment UInt8) (sigLen skip : Nat) : Nat :=
  if f.off + skip > sigLen then f.off + skip - sigLen else 0

/-- The bytes are taken from the end of the frame, whatever part of it was accepted. -/
def srvloopGatherWtOne (f : Fragment UInt8) (s : WtSlot) : WtSlot :=
  let skip := srvloopWtFrameSkip f s.sigLen
  let absOff := srvloopWtFrameAbs f s.sigLen skip
  let n := f.data.length - skip
  let a := wiredSrvloopWtWindowAccept s.win absOff n
  let src := (f.data.drop (skip + (n - a.acceptedN))).take a.acceptedN
  let s := { s with
    win := a.win
    buf := if a.acceptedN ≠ 0 then bytesPut wtBufCap s.buf a.relOff src else s.buf }
  if f.fin then { s with fin := true, finOff := absOff + n } else s

/-- The same for the slots of unidirectional streams, which `wtRun_right` covers with the others. -/
def srvloopGatherWtUniOne (f : Fragment UInt8) (s : WtSlot) : WtSlot := srvloopGatherWtOne f s

/-- A frame of the stream of the slot; one that ends before the signal does is used up by it. -/
def gatherWtLand (s : WtSlot) (f : Fragment UInt8) : WtSlot :=
  let r := srvloopWtSigResolve s f
  if r.2 then srvloopGatherWtOne f r.1 else r.1

/-! ## Delivery -/

def wtFrontierAbs (w : WtWindow) : Nat := w.base + w.frontier

def wtDeliveredFin (fin : Bool) (frontierAbs finOff : Nat) : Bool := fin && frontierAbs ≥ finOff

def wtStreamFinOnly (fin : Bool) (finOff frontierAbs : Nat) (finDelivered : Bool) : Bool :=
  fin && !finDelivered && frontierAbs ≥ finOff

def wtStreamDeltaPending (frontierAbs : Nat) (fin : Bool) (finOff deliveredLen : Nat)
    (finDelivered : Bool) : Bool :=
  if frontierAbs > deliveredLen then true
  else wtStreamFinOnly fin finOff frontierAbs finDelivered

/-- The bytes of a call to the application. `live`: the session is open and takes stream data. -/
def srvrunDeliverWtStreamDelta (live : Bool) (s : WtSlot) : WtSlot × List UInt8 :=
  let frontierAbs := wtFrontierAbs s.win
  let done := s.deliveredLen
  let finNow := wtDeliveredFin s.fin frontierAbs s.finOff
  if !(live && wtStreamDeltaPending frontierAbs s.fin s.finOff done s.finDelivered) then (s, [])
  else
    ({ s with deliveredLen := frontierAbs, finDelivered := finNow || s.finDelivered },
     readCells (fun i => s.buf (done - s.win.base + i)) (frontierAbs - done))

def srvrunReapWtSlot (s : WtSlot) : WtSlot :=
  if !s.inUse || !s.finDelivered then s else { s with inUse := false }

def srvrunOfferAndDeliverWtSlot (live : Bool) (s : WtSlot) : WtSlot × List UInt8 :=
  if !s.inUse then (s, [])
  else
    let d := srvrunDeliverWtStreamDelta live s
    let w := wiredSrvloopWtWindowSlide d.1.win d.1.buf wtBufCap d.1.deliveredLen
    (srvrunReapWtSlot { d.1 with win := w.1, buf := w.2 }, d.2)

/-! ## What the functions do to the window -/

theorem wtWindowSkipStale_eq (w : WtWindow) (absOff n : Nat) :
    wtWindowSkipStale w absOff n = absOff + n - max absOff w.base := by
  unfold wtWindowSkipStale
  split_ifs <;> omega

theorem wtWindowKeptStart_eq (w : WtWindow) (absOff : Nat) :
    wtWindowKeptStart w absOff = max absOff w.base := by
  unfold wtWindowKeptStart
  split_ifs <;> omega

/-- A frame is in the window with all that is new in it, or it is behind the window. -/
def FrameFits (w : WtWindow) (absOff n : Nat) : Prop :=
  absOff + n ≤ w.base + wtBufCap ∨ w.base + wtBufCap ≤ absOff
deriving Decidable

section

variable {w : WtWindow} {absOff n : Nat}

theorem accept_relOff :
    (wiredSrvloopWtWindowAccept w absOff n).relOff = max absOff w.base - w.base := by
  simp only [wiredSrvloopWtWindowAccept, wtWindowKeptStart_eq]

theorem accept_acceptedN : (wiredSrvloopWtWindowAccept w absOff n).acceptedN =
    min (absOff + n - max absOff w.base) (wtBufCap - (max absOff w.base - w.base)) := by
  simp only [wiredSrvloopWtWindowAccept, wtWindowSkipStale_eq, wtWindowKeptStart_eq,
    wtWindowAvailAt]
  split_ifs <;> omega

theorem acceptedN_of_fits (h : FrameFits w absOff n) :
    (wiredSrvloopWtWindowAccept w absOff n).acceptedN = 0 ∨
      (wiredSrvloopWtWindowAccept w absOff n).acceptedN = absOff + n - max absOff w.base := by
  rw [accept_acceptedN]
  unfold FrameFits at h
  omega

theorem accept_base : (wiredSrvloopWtWindowAccept w absOff n).win.base = w.base := rfl

theorem accept_mark (i : Nat) :
    bitsGet (wiredSrvloopWtWindowAccept w absOff n).win.haveBits i =
      (bitsGet w.haveBits i || decide
        ((wiredSrvloopWtWindowAccept w absOff n).relOff ≤ i ∧
          i < (wiredSrvloopWtWindowAccept w absOff n).relOff +
            (wiredSrvloopWtWindowAccept w absOff n).acceptedN)) := by
  have hmark : ∀ lo acc : Nat, lo < wtBufCap ∨ acc = 0 →
      bitsGet (bitsFill w.haveBits (min lo wtBufCap) acc) i =
        (bitsGet w.haveBits i || decide (lo ≤ i ∧ i < lo + acc)) := by
    intro lo acc hroom
    rw [bitsGet_fill]
    congr 1
    rw [decide_eq_decide]
    omega
  have hroom : (wiredSrvloopWtWindowAccept w absOff n).relOff < wtBufCap ∨
      (wiredSrvloopWtWindowAccept w absOff n).acceptedN = 0 := by
    rw [accept_relOff, accept_acceptedN]
    omega
  exact hmark _ _ hroom

theorem wtWindowAdvance_haveBits : (wtWindowAdvance w).haveBits = w.haveBits := rfl

/-- The walk of the frontier goes over marked bytes, from a place where everything is marked. -/
theorem wtWindowAdvance_front (hle : w.frontier ≤ wtBufCap)
    (hall : ∀ i < w.frontier, bitsGet w.haveBits i = true) :
    (wtWindowAdvance w).frontier ≤ wtBufCap ∧
      ∀ i < (wtWindowAdvance w).frontier, bitsGet (wtWindowAdvance w).haveBits i = true := by
  obtain ⟨-, hle', hrun, -⟩ :=
    leadingFrom_spec (bitsGet w.haveBits) (wtBufCap - w.frontier) w.frontier
  refine ⟨by dsimp only [wtWindowAdvance]; omega, ?_⟩
  intro i hi
  by_cases hlt : i < w.frontier
  · exact hall i hlt
  · exact hrun i (Nat.not_lt.mp hlt) hi

theorem wtBufShiftLeft_apply (buf : Nat → UInt8) {cap shift i : Nat} (hi : i + shift < cap) :
    wtBufShiftLeft buf cap shift i = buf (i + shift) :=
  foldl_moveDown buf shift (by omega)

end

def wtAcceptOf (f : Fragment UInt8) (s : WtSlot) : WtAccepted :=
  wiredSrvloopWtWindowAccept s.win (srvloopWtFrameAbs f s.sigLen (srvloopWtFrameSkip f s.sigLen))
    (f.data.length - srvloopWtFrameSkip f s.sigLen)

def wtStored (f : Fragment UInt8) (s : WtSlot) : List UInt8 :=
  (f.data.drop (f.data.length - (wtAcceptOf f s).acceptedN)).take (wtAcceptOf f s).acceptedN

/-- The place of a frame behind the signal, if there is anything of it behind the signal. -/
theorem srvloopWtFrameAbs_eq {f : Fragment UInt8} {sigLen : Nat}
    (h : f.data.length - srvloopWtFrameSkip f sigLen ≠ 0) :
    sigLen + srvloopWtFrameAbs f sigLen (srvloopWtFrameSkip f sigLen) =
      f.off + srvloopWtFrameSkip f sigLen := by
  unfold srvloopWtFrameAbs srvloopWtFrameSkip at *
  split_ifs at * <;> omega

section

variable (f : Fragment UInt8) (s : WtSlot)

theorem wtAcceptOf_le :
    (wtAcceptOf f s).acceptedN ≤ f.data.length - srvloopWtFrameSkip f s.sigLen := by
  unfold wtAcceptOf
  rw [accept_acceptedN]
  omega

theorem wtStored_length : (wtStored f s).length = (wtAcceptOf f s).acceptedN := by
  have := wtAcceptOf_le f s
  rw [wtStored, length_take, length_drop]
  omega

theorem srvloopGatherWtOne_win : (srvloopGatherWtOne f s).win = (wtAcceptOf f s).win := by
  unfold srvloopGatherWtOne
  split <;> rfl

theorem srvloopGatherWtOne_buf :
    (srvloopGatherWtOne f s).buf = writeCells s.buf (wtAcceptOf f s).relOff (wtStored f s) := by
  have hle := wtAcceptOf_le f s
  have hskip : srvloopWtFrameSkip f s.sigLen ≤ f.data.length := by
    unfold srvloopWtFrameSkip
    split_ifs <;> omega
  have hfrom : srvloopWtFrameSkip f s.sigLen +
      (f.data.length - srvloopWtFrameSkip f s.sigLen - (wtAcceptOf f s).acceptedN) =
        f.data.length - (wtAcceptOf f s).acceptedN := by omega
  have hbuf : (srvloopGatherWtOne f s).buf = if (wtAcceptOf f s).acceptedN ≠ 0 then
      bytesPut wtBufCap s.buf (wtAcceptOf f s).relOff (wtStored f s) else s.buf := by
    unfold wtStored
    rw [← hfrom]
    unfold srvloopGatherWtOne
    split <;> rfl
  rw [hbuf]
  by_cases hacc : (wtAcceptOf f s).acceptedN ≠ 0
  · -- what is accepted fits in the buffer
    rw [if_pos hacc, bytesPut, if_neg]
    rw [wtStored_length]
    unfold wtAcceptOf at hacc ⊢
    rw [accept_acceptedN] at hacc ⊢
    rw [accept_relOff]
    omega
  · have hnone : wtStored f s = [] := by
      rw [← length_eq_zero_iff, wtStored_length]
      exact not_not.mp hacc
    rw [if_neg hacc, hnone, writeCells]

end

end Wired.Http3
