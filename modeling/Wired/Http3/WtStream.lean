import Wired.Http3.WtWindow

/-!
# WebTransport streams

What an application receives of a WebTransport stream, over any run in which pieces of the stream
arrive and the slot is served (`wtRun_right`). No frame may start inside of the window and go past
its end (of such a frame the last bytes are stored, not the first ones). When a frame completes the
signal, there may be no gap before its end: the count of signal bytes is the end of the last one
received, so a gap is read as whatever the slot last had there (`gapRun_not_right`).
`wtRun_right_of_inOrder` has a condition on the arrivals in its place.
-/

namespace Wired.Http3

open Lib Bytes Transport List

/-! ## Runs -/

inductive WtEvent where
  /-- a STREAM frame has the bytes from `off` on, at most `len` of them -/
  | frame (off len : Nat) (fin : Bool)
  /-- the slot is served at the end of a step -/
  | serve (live : Bool)

/-- `frames` and `app` are not in the source: the frames received and the bytes handed on. -/
structure WtRx where
  slot : WtSlot
  frames : List (Fragment UInt8)
  app : List UInt8

/-- A slot that was just claimed. -/
def wtRxInit (old : WtSlot) (signalled : Bool) : WtRx :=
  { slot := srvloopWtSlotClaim old signalled, frames := [], app := [] }

/-- A frame lands in a slot in use; serving hands bytes to the application. -/
def wtStep (peer : List UInt8) (s : WtRx) : WtEvent → WtRx
  | .frame off len fin =>
    if !s.slot.inUse then s
    else
      let f := fragment peer off len fin
      { s with slot := gatherWtLand s.slot f, frames := f :: s.frames }
  | .serve live =>
    let r := srvrunOfferAndDeliverWtSlot live s.slot
    { s with slot := r.1, app := s.app ++ r.2 }

/-- One of the frames has the byte at `o`. -/
def Arrived (frames : List (Fragment UInt8)) (o : Nat) : Prop :=
  ∃ f ∈ frames, f.off ≤ o ∧ o < f.off + f.data.length
deriving Decidable

/-- The application has the stream behind its signal, from the first byte on. The signal and all of
these bytes have arrived, and the signal is the one that was sent. -/
structure StreamRight (peer : List UInt8) (signalled : Bool) (s : WtRx) : Prop where
  exposed : s.app = (peer.drop s.slot.sigLen).take s.app.length
  contiguous : ∀ o < s.slot.sigLen + s.app.length, Arrived s.frames o
  signal : s.slot.sigLen =
    if signalled && !s.slot.sigPending then wtSigParse peer else 0

/-- If the frame completes the signal, the bytes of it have all arrived. -/
def SignalGapless (s : WtRx) (f : Fragment UInt8) : Prop :=
  s.slot.sigPending = true →
    ∀ o < (srvloopWtSigResolve s.slot f).1.sigLen, Arrived (f :: s.frames) o

/-- What the frame has behind the signal ends in the window, or is behind the window as a whole. -/
def InWindow (s : WtSlot) (f : Fragment UInt8) : Prop :=
  FrameFits s.win (srvloopWtFrameAbs f s.sigLen (srvloopWtFrameSkip f s.sigLen))
    (f.data.length - srvloopWtFrameSkip f s.sigLen)
deriving Decidable

/-- What is asked of a frame that lands. -/
def FrameOk (peer : List UInt8) (s : WtRx) : WtEvent → Prop
  | .frame off len fin => s.slot.inUse = true →
      SignalGapless s (fragment peer off len fin) ∧
      ((srvloopWtSigResolve s.slot (fragment peer off len fin)).2 = true →
        InWindow (srvloopWtSigResolve s.slot (fragment peer off len fin)).1
          (fragment peer off len fin))
  | .serve _ => True

/-- As long as the signal is waited for, all that is before a frame with bytes of it has arrived. -/
def SignalInOrder (s : WtRx) (f : Fragment UInt8) : Prop :=
  s.slot.sigPending = true → f.off < wtSigCap → ∀ o < f.off, Arrived s.frames o

/-- `FrameOk`, with the bytes of the signal in order. -/
def FrameInOrder (peer : List UInt8) (s : WtRx) : WtEvent → Prop
  | .frame off len fin => s.slot.inUse = true →
      SignalInOrder s (fragment peer off len fin) ∧
      ((srvloopWtSigResolve s.slot (fragment peer off len fin)).2 = true →
        InWindow (srvloopWtSigResolve s.slot (fragment peer off len fin)).1
          (fragment peer off len fin))
  | .serve _ => True

instance (s : WtRx) (f : Fragment UInt8) : Decidable (SignalGapless s f) :=
  inferInstanceAs (Decidable (_ → ∀ o < _, Arrived _ o))

instance (peer : List UInt8) (s : WtRx) : ∀ e : WtEvent, Decidable (FrameOk peer s e)
  | .frame _ _ _ => inferInstanceAs (Decidable (_ → SignalGapless _ _ ∧ (_ → InWindow _ _)))
  | .serve _ => inferInstanceAs (Decidable True)

variable {o : Nat}

theorem Arrived.mono {frames : List (Fragment UInt8)} (h : Arrived frames o) (f : Fragment UInt8) :
    Arrived (f :: frames) o := by
  obtain ⟨g, hg, ho⟩ := h
  exact ⟨g, mem_cons_of_mem _ hg, ho⟩

/-! ## The signal -/

theorem wtSigTake_stable : Stable wtSigTake :=
  varintDecode_stable.then_ fun _ => varintDecode_stable.toReadsHead

/-- A signal that was read is the signal of every string with the same bytes there. -/
theorem wtSigParse_eq {b c : List UInt8} (hne : wtSigParse b ≠ 0)
    (hsame : c.take (wtSigParse b) = b.take (wtSigParse b)) :
    wtSigParse c = wtSigParse b ∧ wtSigParse b ≤ b.length := by
  unfold wtSigParse at *
  cases hb : wtSigTake b with
  | none => simp [hb] at hne
  | some r =>
    simp only [hb] at hsame ⊢
    rw [wtSigTake_stable.of_take_eq hb hsame]
    exact ⟨rfl, wtSigTake_stable.le hb⟩

/-- The bytes of the signal that have arrived are in the signal buffer. -/
def SigHeld (peer : List UInt8) (frames : List (Fragment UInt8)) (sig : Nat → UInt8) : Prop :=
  ∀ o < wtSigCap, Arrived frames o → peer[o]? = some (sig o)

variable {f : Fragment UInt8} {sigHave : Nat}

section

variable {peer : List UInt8} {frames : List (Fragment UInt8)} {sig : Nat → UInt8}

theorem wtSigAbsorb_held (hf : ∀ j x, f.data[j]? = some x →
    peer[f.off + j]? = some x) (h : SigHeld peer frames sig) (sigHave : Nat) :
    SigHeld peer (f :: frames) (wtSigAbsorb sig sigHave f).1 := by
  have hold : ∀ o < wtSigCap, Arrived (f :: frames) o →
      ¬ (f.off ≤ o ∧ o < f.off + f.data.length) → peer[o]? = some (sig o) := by
    rintro o ho ⟨g, hg, hin⟩ hout
    rcases mem_cons.mp hg with rfl | hg
    · exact absurd hin hout
    · exact h o ho ⟨g, hg, hin⟩
  intro o ho harr
  unfold wtSigAbsorb
  split
  · refine hold o ho harr ?_
    omega
  · have hfits : ¬ f.off + (f.data.take (min f.data.length (wtSigCap - f.off))).length >
        wtSigCap := by
      rw [length_take]
      omega
    dsimp only
    rw [bytesPut, if_neg hfits, writeCells_apply]
    by_cases hin : f.off ≤ o ∧ o < f.off + f.data.length
    · have hlt : o - f.off < f.data.length := by omega
      rw [if_pos hin.1, getElem?_take, if_pos (by omega), getElem?_eq_getElem hlt]
      have hbyte := hf _ _ (getElem?_eq_getElem hlt)
      rwa [Nat.add_sub_cancel' hin.1] at hbyte
    · have hnew : (if f.off ≤ o then
          ((f.data.take (min f.data.length (wtSigCap - f.off)))[o - f.off]?).getD (sig o)
          else sig o) = sig o := by
        split
        · have hlen : (f.data.take (min f.data.length (wtSigCap - f.off))).length ≤ o - f.off := by
            rw [length_take]
            omega
          rw [getElem?_eq_none hlen]
          rfl
        · rfl
      rw [hnew]
      exact hold o ho harr hin

theorem wtSigAbsorb_have_le (h : sigHave ≤ wtSigCap) :
    (wtSigAbsorb sig sigHave f).2 ≤ wtSigCap := by
  unfold wtSigAbsorb
  split_ifs
  · exact h
  · dsimp only
    split_ifs <;> omega

theorem wtSigParse_of_held (h : SigHeld peer frames sig) (hle : sigHave ≤ wtSigCap)
    (hne : wtSigParse (readCells sig sigHave) ≠ 0)
    (harr : ∀ o < wtSigParse (readCells sig sigHave), Arrived frames o) :
    wtSigParse peer = wtSigParse (readCells sig sigHave) := by
  have hlen := (wtSigParse_eq hne rfl).2
  rw [readCells_length] at hlen
  apply (wtSigParse_eq hne _).1
  refine ext_getElem? fun o => ?_
  rw [getElem?_take, getElem?_take]
  split
  · next ho =>
    rw [h o (by omega) (harr o ho)]
    have hlt : o < sigHave := by omega
    simp [readCells, hlt]
  · rfl

end

/-! ## The window -/

/-- What a window says of a stream of which the application has `delivered` bytes. -/
structure WinInv (peer : List UInt8) (frames : List (Fragment UInt8)) (sigLen : Nat)
    (w : WtWindow) (buf : Nat → UInt8) (delivered : Nat) : Prop where
  holds : WindowHolds (peer.drop sigLen) w.base wtBufCap buf (bitsGet w.haveBits)
  marked : ∀ i < wtBufCap, bitsGet w.haveBits i = true → Arrived frames (sigLen + w.base + i)
  below : ∀ o < sigLen + w.base, Arrived frames o
  frontier_le : w.frontier ≤ wtBufCap
  front : ∀ i < w.frontier, bitsGet w.haveBits i = true
  base_le : w.base ≤ delivered
  delivered_le : delivered ≤ w.base + w.frontier

namespace WinInv

variable {peer : List UInt8} {frames : List (Fragment UInt8)} {sigLen : Nat} {w : WtWindow}
  {buf : Nat → UInt8} {delivered : Nat}

section

variable (h : WinInv peer frames sigLen w buf delivered)

include h

theorem frontier_le_leading :
    w.frontier ≤ leading (bitsGet w.haveBits) wtBufCap := le_leading h.frontier_le h.front

theorem arrived (ho : o < sigLen + w.base + w.frontier) : Arrived frames o := by
  by_cases hlt : o < sigLen + w.base
  · exact h.below o hlt
  · have hmark := h.front (o - (sigLen + w.base)) (by omega)
    have hle := h.frontier_le
    have harr := h.marked _ (by omega) hmark
    rwa [Nat.add_sub_cancel' (Nat.not_lt.mp hlt)] at harr

theorem delta :
    readCells (fun i => buf (delivered - w.base + i)) (w.base + w.frontier - delivered) =
      ((peer.drop sigLen).drop delivered).take (w.base + w.frontier - delivered) := by
  have hbase := h.base_le
  have hfront := h.frontier_le_leading
  have hdel := h.delivered_le
  have hcells := h.holds.contents_from (k := delivered - w.base)
    (n := w.base + w.frontier - delivered) (by omega)
  rwa [Nat.add_sub_cancel' hbase] at hcells

theorem mono (f : Fragment UInt8) : WinInv peer (f :: frames) sigLen w buf delivered :=
  { h with
    marked := fun i hi hm => (h.marked i hi hm).mono f
    below := fun o ho => (h.below o ho).mono f }

theorem slide :
    WinInv peer frames sigLen (wiredSrvloopWtWindowSlide w buf wtBufCap delivered).1
      (wiredSrvloopWtWindowSlide w buf wtBufCap delivered).2 delivered := by
  unfold wiredSrvloopWtWindowSlide
  dsimp only
  split
  · exact h
  · next hdue =>
    simp only [wtWindowSlideNotDue, Bool.or_eq_true, decide_eq_true_eq, not_or] at hdue
    have hdel := h.delivered_le
    have hmark : ∀ i < wtBufCap, bitsGet (bitsShiftDown w.haveBits wtBufCap w.frontier) i = true →
        i + w.frontier < wtBufCap ∧ bitsGet w.haveBits (i + w.frontier) = true := by
      intro i hi hm
      rw [bitsGet_shiftDown _ (by unfold wtBufCap; omega) _ hi, Bool.and_eq_true,
        decide_eq_true_eq] at hm
      exact hm
    obtain ⟨hfle, hfall⟩ := wtWindowAdvance_front
      (w := { w with haveBits := bitsShiftDown w.haveBits wtBufCap w.frontier
                     base := w.base + w.frontier, frontier := 0 }) zero_le (by nofun)
    refine ⟨?_, ?_, ?_, hfle, hfall, ?_, ?_⟩
    · apply h.holds.slide
      intro i hi hm
      rw [wtWindowAdvance_haveBits] at hm
      dsimp only at hm
      obtain ⟨hlt, hm'⟩ := hmark i hi hm
      exact ⟨hlt, hm', wtBufShiftLeft_apply buf hlt⟩
    · intro i hi hm
      rw [wtWindowAdvance_haveBits] at hm
      dsimp only at hm
      obtain ⟨hlt, hm'⟩ := hmark i hi hm
      have harr := h.marked _ hlt hm'
      have hoff : sigLen + w.base + (i + w.frontier) = sigLen + (w.base + w.frontier) + i := by
        omega
      rwa [hoff] at harr
    · intro o ho
      apply h.arrived
      dsimp only [wtWindowAdvance] at ho
      omega
    · exact Nat.not_lt.mp hdue.1
    · dsimp only [wtWindowAdvance]
      omega

end

theorem gather {s : WtSlot} (h : WinInv peer frames s.sigLen s.win s.buf delivered)
    (hmem : f ∈ frames) (hf : ∀ j x, f.data[j]? = some x → peer[f.off + j]? = some x)
    (hfits : InWindow s f) :
    WinInv peer frames s.sigLen (srvloopGatherWtOne f s).win (srvloopGatherWtOne f s).buf
      delivered := by
  have hlen := wtStored_length f s
  -- where the accepted bytes are in the frame and in the stream
  have hplace : (wtAcceptOf f s).acceptedN ≠ 0 →
      f.off + (f.data.length - (wtAcceptOf f s).acceptedN) =
        s.sigLen + s.win.base + (wtAcceptOf f s).relOff := by
    intro hne
    have hle := wtAcceptOf_le f s
    have hrest : f.data.length - srvloopWtFrameSkip f s.sigLen ≠ 0 := by omega
    have habs := srvloopWtFrameAbs_eq hrest
    have hacc : (wtAcceptOf f s).acceptedN = _ := (acceptedN_of_fits hfits).resolve_left hne
    have hrel : (wtAcceptOf f s).relOff = _ := accept_relOff
    omega
  have hmark : ∀ i, bitsGet (wtAcceptOf f s).win.haveBits i = true ↔
      bitsGet s.win.haveBits i = true ∨ ((wtAcceptOf f s).relOff ≤ i ∧
        i < (wtAcceptOf f s).relOff + (wtAcceptOf f s).acceptedN) := by
    intro i
    have heq : bitsGet (wtAcceptOf f s).win.haveBits i = _ := accept_mark i
    rw [heq, Bool.or_eq_true, decide_eq_true_eq]
    exact Iff.rfl
  rw [srvloopGatherWtOne_win, srvloopGatherWtOne_buf]
  have hfront := wtWindowAdvance_front
    (w := { (wtAcceptOf f s).win with frontier := s.win.frontier })
    h.frontier_le fun i hi => (hmark i).mpr (.inl (h.front i hi))
  have hbase : (wtAcceptOf f s).win.base = s.win.base := accept_base
  have hgrow : s.win.frontier ≤ (wtAcceptOf f s).win.frontier :=
    (leadingFrom_spec (bitsGet (wtAcceptOf f s).win.haveBits) (wtBufCap - s.win.frontier)
      s.win.frontier).1
  refine ⟨?_, ?_, ?_, hfront.1, hfront.2, ?_, ?_⟩
  · apply h.holds.write
    · intro j x hx
      unfold wtStored at hx
      rw [getElem?_take] at hx
      split at hx
      · rw [getElem?_drop] at hx
        have hbyte := hf _ x hx
        rw [getElem?_drop]
        have hoff : s.sigLen + (s.win.base + (wtAcceptOf f s).relOff + j) =
            f.off + (f.data.length - (wtAcceptOf f s).acceptedN + j) := by omega
        rwa [hoff]
      · cases hx
    · intro i _ hm
      rw [hlen]
      exact (hmark i).mp hm
  · intro i hi hm
    rcases (hmark i).mp hm with hm | hin
    · exact h.marked i hi hm
    · have hle := wtAcceptOf_le f s
      refine ⟨f, hmem, ?_, ?_⟩ <;> omega
  · intro o ho
    exact h.below o ho
  · exact h.base_le
  · exact h.delivered_le.trans (Nat.add_le_add_left hgrow _)

end WinInv

/-! ## The slot over a run -/

/-- While the signal is waited for, nothing was put in the window. -/
structure Untouched (s : WtSlot) : Prop where
  sigLen : s.sigLen = 0
  base : s.win.base = 0
  frontier : s.win.frontier = 0
  delivered : s.deliveredLen = 0
  marks : ∀ i < wtBufCap, bitsGet s.win.haveBits i = false

/-- What a slot in use says of its stream. -/
structure WtInv (peer : List UInt8) (signalled : Bool) (s : WtRx) : Prop where
  window : WinInv peer s.frames s.slot.sigLen s.slot.win s.slot.buf s.slot.deliveredLen
  app : s.app = (peer.drop s.slot.sigLen).take s.slot.deliveredLen
  app_length : s.app.length = s.slot.deliveredLen
  sigHave : s.slot.sigHave ≤ wtSigCap
  pending : s.slot.sigPending = true → signalled = true ∧ Untouched s.slot ∧
    SigHeld peer s.frames s.slot.sig
  signal : s.slot.sigPending = false → s.slot.sigLen = if signalled then wtSigParse peer else 0

section

variable {peer : List UInt8} {signalled : Bool} {s : WtRx}

theorem wtRxInit_inv (peer : List UInt8) (old : WtSlot) (signalled : Bool) :
    WtInv peer signalled (wtRxInit old signalled) := by
  have hmarks : ∀ i, bitsGet (fun _ => 0) i = false := by simp [bitsGet]
  refine ⟨⟨?_, ?_, ?_, zero_le, ?_, le_rfl, le_rfl⟩, rfl, rfl, zero_le,
    ?_, ?_⟩
  · intro i _ hm
    exact absurd ((hmarks i).symm.trans hm) (by simp)
  · intro i _ hm
    exact absurd ((hmarks i).symm.trans hm) (by simp)
  · intro o ho
    exact absurd ho (Nat.not_lt_zero o)
  · intro i hi
    exact absurd hi (Nat.not_lt_zero i)
  · intro hpend
    refine ⟨hpend, ⟨rfl, rfl, rfl, rfl, fun i _ => hmarks i⟩, ?_⟩
    rintro o _ ⟨f, hf, _⟩
    cases hf
  · intro hpend
    have hsig : signalled = false := hpend
    rw [hsig]
    rfl

theorem srvloopGatherWtOne_eq (f : Fragment UInt8) (s : WtSlot) :
    srvloopGatherWtOne f s =
      { s with
        win := (srvloopGatherWtOne f s).win
        buf := (srvloopGatherWtOne f s).buf
        fin := (srvloopGatherWtOne f s).fin
        finOff := (srvloopGatherWtOne f s).finOff } := by
  unfold srvloopGatherWtOne
  split <;> rfl

section

variable (h : WtInv peer signalled s)

include h

section

variable (hf : ∀ j x, f.data[j]? = some x → peer[f.off + j]? = some x) (hgap : SignalGapless s f)
include hf hgap

theorem srvloopWtSigResolve_inv :
    WtInv peer signalled
        { s with slot := (srvloopWtSigResolve s.slot f).1, frames := f :: s.frames } ∧
      ((srvloopWtSigResolve s.slot f).2 = true →
        (srvloopWtSigResolve s.slot f).1.sigPending = false) := by
  by_cases hpend : s.slot.sigPending = true
  · obtain ⟨hsig, hun, hheld⟩ := h.pending hpend
    have hheld' := wtSigAbsorb_held hf hheld s.slot.sigHave
    have hhave : (wtSigAbsorb s.slot.sig s.slot.sigHave f).2 ≤ wtSigCap :=
      wtSigAbsorb_have_le h.sigHave
    have happ : s.app = [] := length_eq_zero_iff.mp (h.app_length.trans hun.delivered)
    have hwin : ∀ n, (∀ o < n, Arrived (f :: s.frames) o) →
        WinInv peer (f :: s.frames) n s.slot.win s.slot.buf s.slot.deliveredLen := by
      intro n harr
      refine { h.window.mono f with holds := ?_, marked := ?_, below := ?_ }
      · intro i hi hm
        rw [hun.marks i hi] at hm
        cases hm
      · intro i hi hm
        rw [hun.marks i hi] at hm
        cases hm
      · rw [hun.base]
        exact harr
    have hgap := hgap hpend
    unfold srvloopWtSigResolve at hgap ⊢
    rw [hpend] at hgap ⊢
    simp only [Bool.not_true, Bool.false_eq_true, if_false] at hgap ⊢
    split at hgap
    · next hzero =>
      -- the signal is still not complete
      rw [if_pos hzero]
      refine ⟨⟨hwin _ hgap, ?_, h.app_length, hhave, ?_, ?_⟩, by nofun⟩
      · rw [happ, hun.delivered, take_zero]
      · intro _
        exact ⟨hsig, { hun with sigLen := hzero }, hheld'⟩
      · intro hno
        cases hno
    · next hne =>
      rw [if_neg hne]
      refine ⟨⟨hwin _ hgap, ?_, h.app_length, hhave, by nofun, ?_⟩, fun _ => rfl⟩
      · rw [happ, hun.delivered, take_zero]
      · intro _
        rw [hsig, if_pos rfl]
        exact (wtSigParse_of_held hheld' hhave hne hgap).symm
  · have hno : s.slot.sigPending = false := by simpa using hpend
    have hres : srvloopWtSigResolve s.slot f = (s.slot, true) := by
      unfold srvloopWtSigResolve
      rw [hno]
      rfl
    rw [hres]
    refine ⟨{ h with window := h.window.mono f, pending := ?_ }, fun _ => hno⟩
    exact fun hyes => absurd hyes hpend

theorem gatherWtLand_inv
    (hfits : (srvloopWtSigResolve s.slot f).2 = true →
      InWindow (srvloopWtSigResolve s.slot f).1 f) :
    WtInv peer signalled { s with slot := gatherWtLand s.slot f, frames := f :: s.frames } := by
  obtain ⟨hres, hknown⟩ := srvloopWtSigResolve_inv h hf hgap
  unfold gatherWtLand
  dsimp only
  split
  · next hready =>
    have hno := hknown hready
    have hwin := hres.window.gather mem_cons_self hf (hfits hready)
    rw [srvloopGatherWtOne_eq]
    refine { hres with window := hwin, pending := ?_ }
    exact fun hyes => absurd (hno.symm.trans hyes) (by simp)
  · exact hres

end

theorem srvrunDeliverWtStreamDelta_inv (live : Bool) :
    WtInv peer signalled
      { s with
        slot := (srvrunDeliverWtStreamDelta live s.slot).1
        app := s.app ++ (srvrunDeliverWtStreamDelta live s.slot).2 } := by
  unfold srvrunDeliverWtStreamDelta
  dsimp only
  split
  · rw [append_nil]
    exact h
  · have hle : s.slot.deliveredLen ≤ wtFrontierAbs s.slot.win := h.window.delivered_le
    have hdelta : readCells (fun i => s.slot.buf (s.slot.deliveredLen - s.slot.win.base + i))
        (wtFrontierAbs s.slot.win - s.slot.deliveredLen) = _ := h.window.delta
    refine ⟨?_, ?_, ?_, h.sigHave, ?_, h.signal⟩
    · exact { h.window with base_le := Nat.le_add_right _ _, delivered_le := le_rfl }
    · rw [hdelta, h.app, ← take_add]
      have hsum : s.slot.deliveredLen + (s.slot.win.base + s.slot.win.frontier -
          s.slot.deliveredLen) = wtFrontierAbs s.slot.win := Nat.add_sub_cancel' hle
      rw [hsum]
    · dsimp only
      rw [length_append, readCells_length, h.app_length]
      omega
    · intro hpend
      obtain ⟨hsig, hun, hheld⟩ := h.pending hpend
      refine ⟨hsig, { hun with delivered := ?_ }, hheld⟩
      dsimp only [wtFrontierAbs]
      rw [hun.base, hun.frontier]

theorem slide_inv :
    WtInv peer signalled
      { s with slot := { s.slot with
          win := (wiredSrvloopWtWindowSlide s.slot.win s.slot.buf wtBufCap s.slot.deliveredLen).1
          buf := (wiredSrvloopWtWindowSlide s.slot.win s.slot.buf wtBufCap
            s.slot.deliveredLen).2 } } := by
  refine { h with window := h.window.slide, pending := ?_ }
  intro hpend
  obtain ⟨hsig, hun, hheld⟩ := h.pending hpend
  have hstay : wiredSrvloopWtWindowSlide s.slot.win s.slot.buf wtBufCap s.slot.deliveredLen =
      (s.slot.win, s.slot.buf) := by
    unfold wiredSrvloopWtWindowSlide
    rw [hun.frontier]
    simp
  rw [hstay]
  exact ⟨hsig, { hun with }, hheld⟩

theorem wtStep_inv (e : WtEvent) (hok : FrameOk peer s e) :
    WtInv peer signalled (wtStep peer s e) := by
  cases e with
  | frame off len fin =>
    dsimp only [wtStep]
    split
    · exact h
    · next huse =>
      have huse : s.slot.inUse = true := by simpa using huse
      obtain ⟨hgap, hfits⟩ := hok huse
      exact gatherWtLand_inv h (fun j x => fragment_getElem?) hgap hfits
  | serve live =>
    dsimp only [wtStep, srvrunOfferAndDeliverWtSlot]
    split
    · rw [append_nil]
      exact h
    · have hslid := slide_inv (srvrunDeliverWtStreamDelta_inv h live)
      unfold srvrunReapWtSlot
      split
      · exact hslid
      · refine { hslid with pending := ?_ }
        intro hp
        obtain ⟨hs, hun, hheld⟩ := hslid.pending hp
        exact ⟨hs, { hun with }, hheld⟩

theorem WtInv.right : StreamRight peer signalled s := by
  refine ⟨?_, ?_, ?_⟩
  · rw [h.app_length]
    exact h.app
  · intro o ho
    have hle := h.window.delivered_le
    rw [h.app_length] at ho
    exact h.window.arrived (by omega)
  · cases hpend : s.slot.sigPending with
    | true =>
      rw [(h.pending hpend).2.1.sigLen]
      simp
    | false =>
      rw [h.signal hpend]
      simp

end

end

/-- **The stream of a slot.** Pieces of the stream arrive in any order, any number of times, and the
slot is served in between. Where every frame is in the window or behind it, and no frame completes
the signal over a gap, the application has the bytes behind the signal of the stream, from the first
one on, and they and the signal have all arrived. -/
theorem wtRun_right (peer : List UInt8) (old : WtSlot) (signalled : Bool) (es : List WtEvent)
    (h : Along (wtStep peer) (FrameOk peer) (wtRxInit old signalled) es) :
    StreamRight peer signalled (es.foldl (wtStep peer) (wtRxInit old signalled)) := by
  have hrun : WtInv peer signalled (es.foldl (wtStep peer) (wtRxInit old signalled)) :=
    Along.invariant (I := WtInv peer signalled) (fun s e hs hok => wtStep_inv hs e hok)
      (wtRxInit_inv peer old signalled) h
  exact hrun.right

def wtSlotZero : WtSlot where
  inUse := false
  sigLen := 0
  sig := fun _ => 0
  sigHave := 0
  sigPending := false
  win := { base := 0, haveBits := fun _ => 0, frontier := 0, droppedBytes := 0 }
  buf := fun _ => 0
  fin := false
  finOff := 0
  deliveredLen := 0
  finDelivered := false

/-- A run in which the bytes behind the signal are reordered. -/
theorem reorderedRun_right :
    StreamRight [0x40, 0x41, 0x04, 7, 8, 9] true
      ([.frame 0 3 false, .frame 4 2 true, .frame 3 1 false, .serve true].foldl
        (wtStep [0x40, 0x41, 0x04, 7, 8, 9]) (wtRxInit wtSlotZero true)) :=
  wtRun_right _ _ _ _ (by decide +kernel)

/-- The byte at offset 2 is missing, and the session is read as 0 and not as `0x405`. -/
theorem gapRun_not_right :
    ¬ StreamRight [0x40, 0x41, 0x44, 0x05, 7] true
      ([.frame 0 2 false, .frame 3 1 false].foldl (wtStep [0x40, 0x41, 0x44, 0x05, 7])
        (wtRxInit wtSlotZero true)) := by
  intro h
  have harrived := h.contiguous 2 (by decide +kernel)
  exact absurd harrived (by decide +kernel)

/-! ## Signals that arrive in order -/

/-- What is counted of the signal has arrived. -/
def HaveArrived (s : WtRx) : Prop := ∀ o < s.slot.sigHave, Arrived s.frames o

theorem srvloopWtSigResolve_sigLen {s : WtSlot} (hpend : s.sigPending = true) :
    (srvloopWtSigResolve s f).1.sigLen ≤ (wtSigAbsorb s.sig s.sigHave f).2 := by
  unfold srvloopWtSigResolve
  simp only [hpend, Bool.not_true, Bool.false_eq_true, if_false]
  split
  · next hzero => exact hzero.trans_le zero_le
  · next hne =>
    have hle := (wtSigParse_eq hne rfl).2
    rwa [readCells_length] at hle

theorem gatherWtLand_sigHave (s : WtSlot) : (gatherWtLand s f).sigHave =
    if s.sigPending then (wtSigAbsorb s.sig s.sigHave f).2 else s.sigHave := by
  have hres : (srvloopWtSigResolve s f).1.sigHave =
      if s.sigPending then (wtSigAbsorb s.sig s.sigHave f).2 else s.sigHave := by
    unfold srvloopWtSigResolve
    cases s.sigPending
    · rfl
    · simp only [Bool.not_true, Bool.false_eq_true, if_false, if_true]
      split <;> rfl
  unfold gatherWtLand
  dsimp only
  split
  · rw [srvloopGatherWtOne_eq]
    exact hres
  · exact hres

theorem srvrunOfferAndDeliverWtSlot_sigHave (live : Bool) (s : WtSlot) :
    (srvrunOfferAndDeliverWtSlot live s).1.sigHave = s.sigHave := by
  unfold srvrunOfferAndDeliverWtSlot srvrunReapWtSlot srvrunDeliverWtStreamDelta
  dsimp only
  split_ifs <;> rfl

section

variable {peer : List UInt8} {s : WtRx} (hhave : HaveArrived s)
include hhave

theorem wtSigAbsorb_arrived (horder : SignalInOrder s f) (hpend : s.slot.sigPending = true) :
    ∀ o < (wtSigAbsorb s.slot.sig s.slot.sigHave f).2, Arrived (f :: s.frames) o := by
  intro o ho
  by_cases hbefore : o < s.slot.sigHave
  · exact (hhave o hbefore).mono f
  unfold wtSigAbsorb at ho
  split at ho
  · exact absurd ho hbefore
  · by_cases hoff : o < f.off
    · exact (horder hpend (by omega) o hoff).mono f
    · refine ⟨f, mem_cons_self, by omega, ?_⟩
      dsimp only at ho
      split at ho <;> omega

theorem frameOk_of_inOrder {e : WtEvent} (horder : FrameInOrder peer s e) : FrameOk peer s e := by
  cases e with
  | serve => trivial
  | frame off len fin =>
    intro huse
    obtain ⟨hsig, hfits⟩ := horder huse
    refine ⟨fun hpend o ho => ?_, hfits⟩
    exact wtSigAbsorb_arrived hhave hsig hpend o
      (lt_of_lt_of_le ho (srvloopWtSigResolve_sigLen hpend))

theorem wtStep_haveArrived {e : WtEvent} (horder : FrameInOrder peer s e) :
    HaveArrived (wtStep peer s e) := by
  cases e with
  | serve live =>
    intro o ho
    simp only [wtStep, srvrunOfferAndDeliverWtSlot_sigHave] at ho
    exact hhave o ho
  | frame off len fin =>
    dsimp only [wtStep]
    split
    · exact hhave
    · next huse =>
      obtain ⟨hsig, -⟩ := horder (by simpa using huse)
      intro o ho
      dsimp only at ho ⊢
      rw [gatherWtLand_sigHave] at ho
      split at ho
      · next hpend => exact wtSigAbsorb_arrived hhave hsig hpend o ho
      · exact (hhave o ho).mono _

end

/-- The application has the stream also if, instead, the bytes of the signal arrive in order. -/
theorem wtRun_right_of_inOrder (peer : List UInt8) (old : WtSlot) (signalled : Bool)
    (es : List WtEvent)
    (h : Along (wtStep peer) (FrameInOrder peer) (wtRxInit old signalled) es) :
    StreamRight peer signalled (es.foldl (wtStep peer) (wtRxInit old signalled)) := by
  have hrun := h.invariant (I := fun s => WtInv peer signalled s ∧ HaveArrived s)
    (fun s e hs horder => ⟨wtStep_inv hs.1 e (frameOk_of_inOrder hs.2 horder),
      wtStep_haveArrived hs.2 horder⟩)
    ⟨wtRxInit_inv peer old signalled, fun o ho => absurd ho (Nat.not_lt_zero o)⟩
  exact hrun.1.right

end Wired.Http3
