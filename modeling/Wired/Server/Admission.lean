import Wired.Lib.Run
import Wired.Transport.PacketNumber
import Wired.Transport.RecvPn

/-!
# Admission of opened packets

An opened packet goes through `step_admit` of `srvloop_opened.c`: its packet number is recovered, a
duplicate is discarded and a packet whose frames are a connection error is refused. The frames of
an admitted packet are processed, and its number is recorded in the receive window of its space if
it is ack-eliciting. A recorded number is admitted again only below that window
(`noReadmission_along_iff`).

What the rest of the server says about a packet (`dropNewer`, `error`, `ackEliciting`) is an input
of the step, so that the results hold for every behaviour of those parts.
-/

namespace Wired.Server

open Lib Transport

/-- The encryption level of a packet. -/
inductive Level where
  | initial
  | handshake
  | onertt
deriving DecidableEq, Repr

/-- The packet number spaces (`PNS_INITIAL`, `PNS_HANDSHAKE`, `PNS_APP`). -/
inductive PnSpace where
  | initial
  | handshake
  | app
deriving DecidableEq, Repr

/-- An opened packet and what the server around the admission step says about it. -/
structure Opened where
  level : Level
  /-- the first header byte, header protection removed -/
  byte0 : UInt8
  /-- the bytes of the packet from its packet number field on -/
  pnField : List UInt8
  /-- `lhdr_parse` accepts the packet's long header -/
  lhdrOk : Bool
  /-- `drop_newer`, set by the caller for the datagram the packet came in -/
  dropNewer : Bool
  /-- the connection error code of the payload, 0 for none (`step_error`) -/
  error : Nat
  /-- `framewalk_ack_eliciting` of the payload -/
  ackEliciting : Bool
deriving DecidableEq, Repr

/-- The fields of the server loop that admission reads and writes. -/
structure Srvloop where
  /-- received packet numbers of the ack-eliciting packets, for each space -/
  ackRecv : PnSpace → Recvpn
  /-- last received 1-RTT packet number -/
  appRxPn : Nat
  /-- largest 1-RTT packet number received, valid with `appRxSeen` -/
  appRxHi : Nat
  appRxSeen : Bool
  /-- the packet just numbered skipped a packet number -/
  rxGap : Bool
  hsRxPn : Nat
  hsRxHi : Nat
  hsRxSeen : Bool
  /-- the first connection error code, 0 for none -/
  transportError : Nat

def srvloopInit : Srvloop where
  ackRecv := fun _ => recvpnInit
  appRxPn := 0
  appRxHi := 0
  appRxSeen := false
  rxGap := false
  hsRxPn := 0
  hsRxHi := 0
  hsRxSeen := false
  transportError := 0

def srvloopAppPktIsLong (byte0 : UInt8) : Bool := byte0 &&& 0x80 != 0

def openedIsShort (o : Opened) : Bool := o.level = .onertt && !srvloopAppPktIsLong o.byte0

def Opened.pnBytes (o : Opened) : List UInt8 := o.pnField.take ((o.byte0 &&& 0x03).toNat + 1)

def srvloopAppLargestPn (l : Srvloop) : Nat := if l.appRxSeen then l.appRxHi else 0

def srvloopHsLargestPn (l : Srvloop) : Nat := if l.hsRxSeen then l.hsRxHi else 0

def shortPn (l : Srvloop) (o : Opened) : Nat := pnumDecode o.pnBytes (srvloopAppLargestPn l)

/-- `drop_newer` is set and the packet is numbered above everything received so far. -/
def stepNewerDropped (l : Srvloop) (o : Opened) : Bool :=
  o.dropNewer && openedIsShort o && shortPn l o > srvloopAppLargestPn l

def appRxRecord (l : Srvloop) (pn : List UInt8) : Srvloop :=
  let prev := srvloopAppLargestPn l
  let appRxPn := pnumDecode pn prev
  { l with
    appRxPn := appRxPn
    rxGap := l.appRxSeen && appRxPn > (prev + 1) % 2 ^ 64
    appRxHi := max prev appRxPn
    appRxSeen := true }

def srvloopNoteAppRx (l : Srvloop) (o : Opened) : Srvloop :=
  if o.level ≠ .onertt then l
  else if srvloopAppPktIsLong o.byte0 then
    if o.lhdrOk then appRxRecord l o.pnBytes else l
  else appRxRecord l o.pnBytes

def srvloopNoteHsRx (l : Srvloop) (o : Opened) : Srvloop :=
  if o.level ≠ .handshake then l
  else if o.lhdrOk then
    let hsRxPn := pnumDecode o.pnBytes (srvloopHsLargestPn l)
    { l with
      hsRxPn := hsRxPn
      hsRxHi := max (srvloopHsLargestPn l) hsRxPn
      hsRxSeen := true }
  else l

/-- The just-numbered packet of this level was already received. -/
def srvloopStepDup (l : Srvloop) : Level → Bool
  | .onertt => recvpnSeen (l.ackRecv .app) l.appRxPn
  | .handshake => recvpnSeen (l.ackRecv .handshake) l.hsRxPn
  | .initial => false

/-- The first error code this step finds is latched. -/
def stepRefused (l : Srvloop) (o : Opened) : Srvloop × Bool :=
  ({ l with transportError := if l.transportError = 0 then o.error else l.transportError },
    o.error ≠ 0)

def stepAdmit (l : Srvloop) (o : Opened) : Srvloop × Bool :=
  if stepNewerDropped l o then (l, false)
  else
    let l := srvloopNoteHsRx (srvloopNoteAppRx l o) o
    if srvloopStepDup l o.level then (l, false)
    else ((stepRefused l o).1, !(stepRefused l o).2)

def pnspacesOnRecv (s : PnSpace → Recvpn) (space : PnSpace) (pn : Nat) : PnSpace → Recvpn :=
  fun sp => if sp = space then recvpnRecord (s sp) pn else s sp

def srvloopStepNoteAckOwed (l : Srvloop) (o : Opened) : Srvloop :=
  if !o.ackEliciting then l
  else match o.level with
    | .onertt => { l with ackRecv := pnspacesOnRecv l.ackRecv .app l.appRxPn }
    | .handshake => { l with ackRecv := pnspacesOnRecv l.ackRecv .handshake l.hsRxPn }
    | .initial => l

/-- An opened packet: admitted, then its frames processed. -/
def srvloopStepOpened (l : Srvloop) (o : Opened) : Srvloop :=
  let (l, admitted) := stepAdmit l o
  if admitted then srvloopStepNoteAckOwed l o else l

/-! ## Runs and what was recorded along them -/

/-- The server loop and the 1-RTT packet numbers admitted and recorded so far. -/
structure Traced where
  loop : Srvloop
  recorded : List Nat

def tracedInit : Traced := { loop := srvloopInit, recorded := [] }

def arrivalPn (l : Srvloop) (o : Opened) : Nat := (srvloopNoteAppRx l o).appRxPn

/-- One packet, with the numbers recorded so far. -/
def tracedStep (t : Traced) (o : Opened) : Traced where
  loop := srvloopStepOpened t.loop o
  recorded :=
    if o.level = .onertt && o.ackEliciting && (stepAdmit t.loop o).2 then
      arrivalPn t.loop o :: t.recorded
    else t.recorded

/-- No packet that is admitted carries a number recorded before. -/
def NoReadmission (t : Traced) (o : Opened) : Prop :=
  o.level = .onertt → (stepAdmit t.loop o).2 = true → arrivalPn t.loop o ∉ t.recorded
deriving Decidable

/-- A packet that repeats a recorded number, with a payload that passes the checks, is at most
`recvpnWindow` below the largest recorded number. -/
def ReplayInWindow (t : Traced) (o : Opened) : Prop :=
  o.level = .onertt → o.error = 0 → arrivalPn t.loop o ∈ t.recorded →
    (t.loop.ackRecv .app).largest ≤ arrivalPn t.loop o + recvpnWindow

section

variable (l : Srvloop) (o : Opened)

@[simp] theorem srvloopNoteAppRx_ackRecv : (srvloopNoteAppRx l o).ackRecv = l.ackRecv := by
  unfold srvloopNoteAppRx appRxRecord
  split_ifs <;> rfl

@[simp] theorem srvloopNoteHsRx_ackRecv : (srvloopNoteHsRx l o).ackRecv = l.ackRecv := by
  unfold srvloopNoteHsRx
  split_ifs <;> rfl

@[simp] theorem srvloopNoteHsRx_appRxPn : (srvloopNoteHsRx l o).appRxPn = l.appRxPn := by
  unfold srvloopNoteHsRx
  split_ifs <;> rfl

@[simp] theorem srvloopAppLargestPn_noteHsRx :
    srvloopAppLargestPn (srvloopNoteHsRx l o) = srvloopAppLargestPn l := by
  unfold srvloopNoteHsRx
  split_ifs <;> rfl

theorem srvloopAppLargestPn_noteAppRx :
    srvloopAppLargestPn (srvloopNoteAppRx l o) = srvloopAppLargestPn l ∧
        arrivalPn l o = l.appRxPn ∨
      srvloopAppLargestPn (srvloopNoteAppRx l o) =
        max (srvloopAppLargestPn l) (arrivalPn l o) := by
  unfold arrivalPn srvloopNoteAppRx
  split_ifs
  · exact Or.inl ⟨rfl, rfl⟩
  · exact Or.inr rfl
  · exact Or.inl ⟨rfl, rfl⟩
  · exact Or.inr rfl

theorem arrivalPn_of_short (hshort : openedIsShort o = true) : arrivalPn l o = shortPn l o := by
  simp only [openedIsShort, Bool.and_eq_true, decide_eq_true_eq, Bool.not_eq_eq_eq_not,
    Bool.not_true] at hshort
  obtain ⟨hlevel, hlong⟩ := hshort
  simp [arrivalPn, srvloopNoteAppRx, hlevel, hlong, appRxRecord, shortPn]

/-- Admission does nothing to the receive windows, and the number given to the packet becomes the
last one, unless it was dropped as a newer one. -/
theorem stepAdmit_spec :
    (stepAdmit l o).1.ackRecv = l.ackRecv ∧
      (stepNewerDropped l o = true ∧ stepAdmit l o = (l, false) ∨
        stepNewerDropped l o = false ∧ (stepAdmit l o).1.appRxPn = arrivalPn l o ∧
          srvloopAppLargestPn (stepAdmit l o).1 =
            srvloopAppLargestPn (srvloopNoteAppRx l o)) := by
  unfold stepAdmit
  cases hdrop : stepNewerDropped l o with
  | true => simp
  | false =>
    simp only [Bool.false_eq_true, if_false, false_and, true_and, false_or]
    split
    · simp [arrivalPn]
    · refine ⟨by simp [stepRefused], by simp [stepRefused, arrivalPn], ?_⟩
      rw [← srvloopAppLargestPn_noteHsRx (srvloopNoteAppRx l o) o]
      rfl

theorem stepAdmit_onertt_iff (hlevel : o.level = .onertt) :
    (stepAdmit l o).2 = true ↔
      stepNewerDropped l o = false ∧ recvpnSeen (l.ackRecv .app) (arrivalPn l o) = false ∧
        o.error = 0 := by
  unfold stepAdmit
  cases hdrop : stepNewerDropped l o with
  | true => simp
  | false =>
    have hdup : srvloopStepDup (srvloopNoteHsRx (srvloopNoteAppRx l o) o) o.level =
        recvpnSeen (l.ackRecv .app) (arrivalPn l o) := by
      simp [hlevel, srvloopStepDup, arrivalPn]
    simp only [Bool.false_eq_true, if_false, hdup, true_and]
    cases hseen : recvpnSeen (l.ackRecv .app) (arrivalPn l o) with
    | true => simp
    | false => simp [stepRefused]

theorem srvloopStepNoteAckOwed_app : (srvloopStepNoteAckOwed l o).ackRecv .app =
    if o.level = .onertt && o.ackEliciting then recvpnRecord (l.ackRecv .app) l.appRxPn
    else l.ackRecv .app := by
  unfold srvloopStepNoteAckOwed pnspacesOnRecv
  cases o.ackEliciting <;> cases o.level <;> simp

theorem srvloopAppLargestPn_noteAckOwed :
    srvloopAppLargestPn (srvloopStepNoteAckOwed l o) = srvloopAppLargestPn l ∧
      (srvloopStepNoteAckOwed l o).appRxPn = l.appRxPn := by
  unfold srvloopStepNoteAckOwed
  cases o.ackEliciting <;> cases o.level <;> exact ⟨rfl, rfl⟩

theorem srvloopStepOpened_app : (srvloopStepOpened l o).ackRecv .app =
    if o.level = .onertt && o.ackEliciting && (stepAdmit l o).2 then
      recvpnRecord (l.ackRecv .app) (arrivalPn l o)
    else l.ackRecv .app := by
  obtain ⟨hrecv, hcases⟩ := stepAdmit_spec l o
  unfold srvloopStepOpened
  cases hadm : (stepAdmit l o).2 with
  | false => simp [hadm, hrecv]
  | true =>
    obtain ⟨-, hnone⟩ | ⟨-, hpn, -⟩ := hcases
    · rw [hnone] at hadm
      cases hadm
    · simp [hadm, srvloopStepNoteAckOwed_app, hrecv, hpn]

theorem srvloopStepOpened_largest : srvloopAppLargestPn (srvloopStepOpened l o) =
    srvloopAppLargestPn (stepAdmit l o).1 ∧
      (srvloopStepOpened l o).appRxPn = (stepAdmit l o).1.appRxPn := by
  unfold srvloopStepOpened
  cases hadm : (stepAdmit l o).2 with
  | false => simp [hadm]
  | true => simpa [hadm] using srvloopAppLargestPn_noteAckOwed (stepAdmit l o).1 o

end

/-! ## The invariant of a run -/

structure TracedInv (t : Traced) : Prop where
  window : (t.loop.ackRecv .app).Represents { pn | pn ∈ t.recorded }
  last_le : t.loop.appRxPn ≤ srvloopAppLargestPn t.loop
  recorded_le : ∀ pn ∈ t.recorded, pn ≤ srvloopAppLargestPn t.loop

theorem tracedInv_init : TracedInv tracedInit where
  window := by simpa [tracedInit, srvloopInit] using recvpnInit_represents
  last_le := by decide
  recorded_le := by simp [tracedInit]

/-- An arrival never lowers the largest number received, and counts the packet's number unless the
packet is dropped as a newer one. -/
theorem arrival_largest {t : Traced} (h : TracedInv t) (o : Opened) :
    srvloopAppLargestPn t.loop ≤ srvloopAppLargestPn (srvloopStepOpened t.loop o) ∧
      (srvloopStepOpened t.loop o).appRxPn ≤ srvloopAppLargestPn (srvloopStepOpened t.loop o) ∧
      ((stepAdmit t.loop o).2 = true →
        arrivalPn t.loop o ≤ srvloopAppLargestPn (srvloopStepOpened t.loop o)) := by
  obtain ⟨hlargest, hlast⟩ := srvloopStepOpened_largest t.loop o
  have hle := h.last_le
  rw [hlargest, hlast]
  obtain ⟨-, ⟨-, hnone⟩ | ⟨-, hpn, hhi⟩⟩ := stepAdmit_spec t.loop o
  · rw [hnone]
    exact ⟨le_rfl, hle, fun hfalse => by cases hfalse⟩
  · rw [hpn, hhi]
    obtain ⟨hsame, hold⟩ | hmax := srvloopAppLargestPn_noteAppRx t.loop o
    · rw [hsame, hold]
      exact ⟨le_rfl, hle, fun _ => hle⟩
    · rw [hmax]
      exact ⟨Nat.le_max_left _ _, Nat.le_max_right _ _, fun _ => Nat.le_max_right _ _⟩

theorem tracedInv_step (t : Traced) (o : Opened) (h : TracedInv t) :
    TracedInv (tracedStep t o) := by
  obtain ⟨hmono, hlast, hnew⟩ := arrival_largest h o
  refine ⟨?_, hlast, ?_⟩
  · simp only [tracedStep, srvloopStepOpened_app]
    split
    · have hset : { pn | pn ∈ arrivalPn t.loop o :: t.recorded } =
          insert (arrivalPn t.loop o) { pn | pn ∈ t.recorded } := by
        ext pn
        simp
      rw [hset]
      exact recvpnRecord_represents h.window _
    · exact h.window
  · intro pn hpn
    simp only [tracedStep] at hpn ⊢
    split at hpn
    · rename_i hadm
      simp only [Bool.and_eq_true] at hadm
      rcases List.mem_cons.mp hpn with rfl | hpn
      · exact hnew hadm.2
      · exact le_trans (h.recorded_le pn hpn) hmono
    · exact le_trans (h.recorded_le pn hpn) hmono

/-- A recorded number is never above the largest received one, so its packet is not dropped as
newer. -/
theorem not_newerDropped_of_recorded {t : Traced} (h : TracedInv t) {o : Opened}
    (hmem : arrivalPn t.loop o ∈ t.recorded) : stepNewerDropped t.loop o = false := by
  by_contra hne
  simp only [stepNewerDropped, Bool.not_eq_false, Bool.and_eq_true, decide_eq_true_eq] at hne
  obtain ⟨⟨-, hshort⟩, hgt⟩ := hne
  rw [← arrivalPn_of_short t.loop o hshort] at hgt
  have := h.recorded_le _ hmem
  omega

theorem noReadmission_iff {t : Traced} (h : TracedInv t) (o : Opened) :
    NoReadmission t o ↔ ReplayInWindow t o := by
  refine forall_congr' fun hlevel => ?_
  rw [stepAdmit_onertt_iff t.loop o hlevel]
  have hseen := recvpnSeen_iff h.window (arrivalPn t.loop o)
  constructor
  · intro hno herr hmem
    by_contra hfar
    have hdup : recvpnSeen (t.loop.ackRecv .app) (arrivalPn t.loop o) = false :=
      Bool.eq_false_iff.mpr fun htrue => hfar (hseen.mp htrue).2
    exact hno ⟨not_newerDropped_of_recorded h hmem, hdup, herr⟩ hmem
  · intro hwin hadm hmem
    obtain ⟨-, hdup, herr⟩ := hadm
    rw [hseen.mpr ⟨hmem, hwin herr hmem⟩] at hdup
    cases hdup

/-- **Duplicate suppression.** Along a run from a fresh loop no recorded packet number is admitted
again if and only if every packet that repeats a recorded number, and whose payload passes the
checks, is still inside the receive window. -/
theorem noReadmission_along_iff (os : List Opened) :
    Along tracedStep NoReadmission tracedInit os ↔
      Along tracedStep ReplayInWindow tracedInit os :=
  along_congr (fun s o h _ => tracedInv_step s o h) (fun _ o h => noReadmission_iff h o) os
    tracedInv_init

/-- A 1-RTT packet with a one-byte packet number and an ack-eliciting payload that passes the
checks. -/
def shortEliciting (pn : UInt8) : Opened where
  level := .onertt
  byte0 := 0x40
  pnField := [pn]
  lhdrOk := true
  dropNewer := false
  error := 0
  ackEliciting := true

/-- Packet 1 is processed again when it is replayed after packet 100. -/
theorem replay_below_window_readmitted :
    ¬ Along tracedStep NoReadmission tracedInit
      [shortEliciting 1, shortEliciting 100, shortEliciting 1] := by
  decide

end Wired.Server
