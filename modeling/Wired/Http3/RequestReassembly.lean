import Wired.Http3.BodyWindow
import Wired.Http3.RequestDrive
import Wired.Lib.Run

/-!
# Reassembly of a request

`dispatch_route.c`, `dispatch_route_note.c`, `dispatch_reassemble.c` and the completeness test
of `dispatch_wt.c`. The frames of a payload land in the slot of their stream; then its HEADERS
start a streamed body, or the buffered request is decoded once it counts as complete.

The window of a slot marks every byte that arrived. Beside it, `reqLen` is the highest end of a
frame, whatever is missing below it, and the test for a complete HEADERS frame reads the buffer up
to there. `decodesReceived_along_iff` says when a run decodes received bytes only,
`request_rejected_across_gap` is a run that does not.
-/

namespace Wired.Http3

open Lib Bytes Qpack List

/-- The answer of `wired_h3reqdrive_recv_h3`; a failure of the section prefix is a connection error.
-/
inductive ReqVerdict where
  | request (isConnect : Bool)
  | failed (qpackFailed : Bool)
deriving DecidableEq, Repr

/-- Decodes the bytes of a request stream; the flag says that they reach its end. -/
abbrev RequestDecoder := List UInt8 → Bool → ReqVerdict

/-- The decoder of the program, with its scratch and its dynamic table. -/
def recvVerdict (scratch : Nat) (dyn : QpackDyn) : RequestDecoder := fun h3 fin =>
  match wiredH3reqdriveRecvH3 { h3 := h3, fin := fin, scratch := scratch, dyn := dyn } with
  | .ok a => .request (h3ConnectIsMethod a.req)
  | .error .qpackPrefix => .failed true
  | .error (.line qpackFailed) => .failed qpackFailed
  | .error _ => .failed false

/-- The receive side of a request stream. -/
structure StreamSlot where
  /-- The window `body` over `req_buf`. -/
  body : Windowed
  reqLen : Nat
  reqFin : Bool
  reqDone : Bool
  inUse : Bool

/-- A slot as it is claimed: whatever an earlier stream left in `req_buf` is still there. -/
def slotClaimed (buf : Nat → UInt8) : StreamSlot where
  body := { w := bodywinEmpty, buf := buf }
  reqLen := 0
  reqFin := false
  reqDone := false
  inUse := true

def srvloopBumpLen (len endOff : Nat) : Nat :=
  let hi := if endOff < bodywinCap then endOff else bodywinCap
  if hi > len then hi else len

def routeLandBytes (slot : StreamSlot) (f : Fragment UInt8) : StreamSlot :=
  { slot with
    body := landFragment slot.body f
    reqLen := srvloopBumpLen slot.reqLen (f.off + f.data.length)
    reqFin := slot.reqFin || f.fin }

/-- What completing a slot comes to. -/
inductive Completion where
  | waiting
  /-- The decoder's verdict on these bytes was acted upon. -/
  | decoded (input : List UInt8)
  /-- Answered with 413 or 431: the window is full and there is no end in sight. -/
  | tooLarge
  /-- `H3_REQUEST_REJECTED`: no response could be sent. -/
  | refused
deriving DecidableEq, Repr

/-- What completing a slot reads beside the slot. -/
structure CompleteIn (σ : Type) where
  /-- The decoder, against the dynamic table as it is now. -/
  recv : RequestDecoder
  /-- The send side of the stream has already ended. -/
  sendDone : Bool
  onBody : BodywinSink σ
  ctx : σ

variable {σ : Type}

def routeBodyHeadLen (slot : StreamSlot) : Nat :=
  if slot.reqDone then 0
  else headersEnd (readCells slot.body.buf (bodywinAvail slot.body.w))

def routeBodyPump (i : CompleteIn σ) (slot : StreamSlot) : StreamSlot :=
  if slot.body.w.state ≠ .open then slot
  else
    let body := (bodywinPump i.onBody slot.body i.ctx).1
    { slot with body := body, reqDone := slot.reqDone || body.w.state ≠ .open }

def routeBodyStart (i : CompleteIn σ) (slot : StreamSlot) : Option StreamSlot :=
  let n := routeBodyHeadLen slot
  if n = 0 ∨ i.recv (readCells slot.body.buf n) false ≠ .request false then none
  else
    let body := bodywinConsume slot.body n
    some { slot with body := { body with w := { body.w with on := true } } }

/-- The streaming path, `none` if the slot is not on it. -/
def routeBody (streams : Bool) (i : CompleteIn σ) (slot : StreamSlot) :
    Option (StreamSlot × Completion) :=
  if !streams then none
  else if i.sendDone ∧ slot.body.w.on = false ∧ routeBodyHeadLen slot ≠ 0 then
    some ({ slot with inUse := false }, .refused)
  else if slot.body.w.on then some (routeBodyPump i slot, .waiting)
  else (routeBodyStart i slot).map fun started =>
    (routeBodyPump i started, .decoded (readCells slot.body.buf (routeBodyHeadLen slot)))

def routeIsOver (slot : StreamSlot) : Bool :=
  bodywinFrontier slot.body.w = bodywinCap && !slot.reqFin && !slot.reqDone

/-- `srvloop_request_complete`; where it says no, what the decoder read if the prefix failed. -/
inductive RequestComplete where
  | complete
  | incomplete
  | qpackFailed (input : List UInt8)
deriving DecidableEq, Repr

def srvloopRequestComplete (recv : RequestDecoder) (slot : StreamSlot) : RequestComplete :=
  if slot.reqDone then .incomplete
  else if slot.reqFin then .complete
  else
    let n := headersEnd (readCells slot.body.buf slot.reqLen)
    if n = 0 then .incomplete
    else match recv (readCells slot.body.buf n) false with
      | .failed true => .qpackFailed (readCells slot.body.buf n)
      | .failed false => .complete
      | .request true => .complete
      | .request false => .incomplete

def routeCompleteBuffered (recv : RequestDecoder) (slot : StreamSlot) :
    StreamSlot × Completion :=
  match srvloopRequestComplete recv slot with
  | .incomplete => (slot, .waiting)
  | .qpackFailed input => (slot, .decoded input)
  | .complete => ({ slot with reqDone := true }, .decoded (readCells slot.body.buf slot.reqLen))

def routeCompleteSlot (streams : Bool) (i : CompleteIn σ) (slot : StreamSlot) :
    StreamSlot × Completion :=
  match routeBody streams i slot with
  | some r => r
  | none =>
    if routeIsOver slot then ({ slot with reqDone := true }, .tooLarge)
    else if bodywinFinGap slot.body.w then (slot, .waiting)
    else routeCompleteBuffered i.recv { slot with reqLen := bodywinClip slot.body.w slot.reqLen }

/-! ## A slot over the payloads of its stream -/

/-- A slot and, for the proofs, which bytes of the stream have been received. -/
structure ReqTrace where
  slot : StreamSlot
  got : Nat → Bool

/-- A slot that was just claimed, with nothing received. -/
def traceClaimed (buf : Nat → UInt8) : ReqTrace where
  slot := slotClaimed buf
  got := fun _ => false

/-- The frames of the stream in one payload, as offset, length and FIN bit. -/
structure Payload (σ : Type) where
  frames : List (Nat × Nat × Bool)
  input : CompleteIn σ

def receive (S : List UInt8) (t : ReqTrace) (frame : Nat × Nat × Bool) : ReqTrace :=
  let f := fragment S frame.1 frame.2.1 frame.2.2
  { slot := routeLandBytes t.slot f
    got := fun o => t.got o || decide (f.off ≤ o ∧ o < f.off + f.data.length) }

def arrive (S : List UInt8) (t : ReqTrace) (p : Payload σ) : ReqTrace :=
  p.frames.foldl (receive S) t

def touches (t : ReqTrace) (p : Payload σ) : Bool := t.slot.inUse && !p.frames.isEmpty

/-- One payload: its frames land, and the slot is completed. -/
def reqStep (S : List UInt8) (streams : Bool) (t : ReqTrace) (p : Payload σ) : ReqTrace :=
  if touches t p then
    { arrive S t p with
      slot := (routeCompleteSlot streams p.input (arrive S t p).slot).1 }
  else t

def reqEvent (S : List UInt8) (streams : Bool) (t : ReqTrace) (p : Payload σ) : Completion :=
  if touches t p then (routeCompleteSlot streams p.input (arrive S t p).slot).2 else .waiting

/-- The end of the HEADERS frame, or of a stream that has none. -/
def headEnd (S : List UInt8) : Nat := if headersEnd S ≠ 0 then headersEnd S else S.length

def Received (got : Nat → Bool) (n : Nat) : Prop := ∀ o < n, got o = true

/-- The request is decoded, answered as too large or refused only when all of its head was received,
and it is decoded from the bytes of the stream. -/
def SoundCompletion (S : List UInt8) (got : Nat → Bool) : Completion → Prop
  | .waiting => True
  | .decoded input => Received got (headEnd S) ∧ input.take (headEnd S) = S.take (headEnd S)
  | .tooLarge | .refused => Received got (headEnd S)

/-- What the step with this payload does is sound. -/
def DecodesReceived (S : List UInt8) (streams : Bool) (t : ReqTrace) (p : Payload σ) : Prop :=
  SoundCompletion S (arrive S t p).got (reqEvent S streams t p)

/-- Not so: a HEADERS frame is whole only because a gap was read, and its verdict is acted upon. -/
def HeadWithoutGap (recv : RequestDecoder) (slot : StreamSlot) : Prop :=
  slot.reqDone = true ∨ slot.body.w.on = true ∨ slot.reqFin = true ∨
    headersEnd (readCells slot.body.buf (bodywinAvail slot.body.w)) ≠ 0 ∨
    headersEnd (readCells slot.body.buf slot.reqLen) = 0 ∨
    recv (readCells slot.body.buf (headersEnd (readCells slot.body.buf slot.reqLen))) false =
      .request false

/-- No gap stands in the HEADERS frame that this payload completes. -/
def PayloadWithoutGap (S : List UInt8) (t : ReqTrace) (p : Payload σ) : Prop :=
  touches t p = true → HeadWithoutGap p.input.recv (arrive S t p).slot

/-! ## What a slot knows while its request is open -/

/-- The window marks what was received; the high-water mark is above it and inside of the
stream. -/
structure Tracks (S : List UInt8) (t : ReqTrace) : Prop where
  follows : Follows S t.slot.body
  base : t.slot.body.w.base = 0
  mark : ∀ i < bodywinCap, bitsGet t.slot.body.w.marks i = t.got i
  fin : t.slot.reqFin = t.slot.body.w.fin
  len_le : t.slot.reqLen ≤ S.length
  len_cap : t.slot.reqLen ≤ bodywinCap
  lt_len : ∀ i < bodywinCap, t.got i = true → i < t.slot.reqLen
  fin_len : t.slot.reqFin = true → min S.length bodywinCap ≤ t.slot.reqLen

theorem srvloopBumpLen_eq (len endOff : Nat) :
    srvloopBumpLen len endOff = max len (min endOff bodywinCap) := by
  unfold srvloopBumpLen
  dsimp only
  split <;> split <;> omega

theorem tracks_claimed (S buf) : Tracks S (traceClaimed buf) where
  follows := Follows.empty S buf
  base := rfl
  mark := fun i _ => by simp [traceClaimed, slotClaimed, bodywinEmpty, bitsGet_eq]
  fin := rfl
  len_le := zero_le
  len_cap := zero_le
  lt_len := fun i _ h => by simp [traceClaimed] at h
  fin_len := fun h => by simp [traceClaimed, slotClaimed] at h

theorem tracks_receive {S : List UInt8} {t : ReqTrace} (h : Tracks S t)
    (frame : Nat × Nat × Bool) : Tracks S (receive S t frame) := by
  obtain ⟨off, len, fin⟩ := frame
  have hend := fragment_end S off len fin
  have hw : (landFragment t.slot.body (fragment S off len fin)).w = _ := bodywinLand_w ..
  have hlen := srvloopBumpLen_eq t.slot.reqLen
    ((fragment S off len fin).off + (fragment S off len fin).data.length)
  have hle := h.len_le
  have hcap := h.len_cap
  constructor
  · exact h.follows.land off len fin
  · simp only [receive, routeLandBytes, hw, h.base]
  · intro i hi
    simp only [receive, routeLandBytes, landFragment]
    rw [bodywinLand_mark _ _ _ _ hi, h.base, zero_add, h.mark i hi]
  · simp only [receive, routeLandBytes, hw, h.fin]
  · simp only [receive, routeLandBytes]
    omega
  · simp only [receive, routeLandBytes]
    omega
  · intro i hi hgot
    simp only [receive, Bool.or_eq_true, decide_eq_true_eq] at hgot
    simp only [receive, routeLandBytes]
    rcases hgot with hgot | hgot
    · have := h.lt_len i hi hgot
      omega
    · omega
  · intro hfin
    simp only [receive, routeLandBytes, Bool.or_eq_true] at hfin ⊢
    rcases hfin with hfin | hfin
    · have := h.fin_len hfin
      omega
    · have := fragment_end_of_fin hfin
      omega

variable {n : Nat}

namespace Tracks

variable {S : List UInt8} {t : ReqTrace}

section

variable (h : Tracks S t)

include h

theorem received : Received t.got (bodywinFrontier t.slot.body.w) := by
  intro o ho
  rw [← h.mark o (lt_of_lt_of_le ho (leading_le _ _))]
  exact mark_of_lt_leading ho

theorem le_frontier (hn : Received t.got n) : min n bodywinCap ≤ bodywinFrontier t.slot.body.w := by
  refine le_leading (Nat.min_le_right _ _) fun i hi => ?_
  rw [h.mark i (by omega)]
  exact hn i (by omega)

theorem contents (hn : n ≤ bodywinFrontier t.slot.body.w) :
    readCells t.slot.body.buf n = S.take n := by
  rw [h.follows.contents hn, h.base, drop_zero]

theorem frontier_le_len : bodywinFrontier t.slot.body.w ≤ t.slot.reqLen := by
  by_contra hlt
  have hcap : bodywinFrontier t.slot.body.w ≤ bodywinCap := leading_le _ _
  have := h.lt_len t.slot.reqLen (by omega) (h.received _ (by omega))
  omega

theorem clip_len : bodywinClip t.slot.body.w t.slot.reqLen = t.slot.reqLen := by
  have hle := h.len_le
  unfold bodywinClip bodywinFinRoom
  split
  · rename_i hf
    rw [h.follows.finOff hf, h.base]
    split <;> omega
  · rfl

theorem sound_decoded (hhead : headEnd S ≤ bodywinFrontier t.slot.body.w)
    (hn : headEnd S ≤ n) : SoundCompletion S t.got (.decoded (readCells t.slot.body.buf n)) := by
  refine ⟨fun o ho => h.received o (by omega), ?_⟩
  rw [readCells_take _ hn, h.contents hhead]

section

variable (hne : headersEnd (readCells t.slot.body.buf (bodywinAvail t.slot.body.w)) ≠ 0)
include hne

theorem headersEnd_contiguous :
    headersEnd (readCells t.slot.body.buf (bodywinAvail t.slot.body.w)) = headEnd S ∧
      headEnd S ≤ bodywinFrontier t.slot.body.w := by
  rw [h.follows.avail_eq, h.contents le_rfl] at hne ⊢
  have hS := headersEnd_extend hne (List.take_prefix _ _)
  have hle := headersEnd_le (S.take (bodywinFrontier t.slot.body.w))
  rw [length_take] at hle
  have hhead : headEnd S = headersEnd S := if_pos (hS ▸ hne)
  exact ⟨by rw [hhead, hS], by omega⟩

/-- Up to the high-water mark the buffer has the same HEADERS frame as before the first gap. -/
theorem headersEnd_len : headersEnd (readCells t.slot.body.buf t.slot.reqLen) = headEnd S := by
  rw [← (h.headersEnd_contiguous hne).1]
  refine headersEnd_extend hne ⟨(readCells t.slot.body.buf t.slot.reqLen).drop
    (bodywinAvail t.slot.body.w), ?_⟩
  have hle : bodywinAvail t.slot.body.w ≤ t.slot.reqLen := by
    rw [h.follows.avail_eq]
    exact h.frontier_le_len
  rw [← readCells_take _ hle, take_append_drop]

end

/-- If all of the head was received, the two notions of what has arrived agree on it. -/
theorem headersEnd_of_received (hgot : Received t.got (headEnd S)) :
    headersEnd (readCells t.slot.body.buf (bodywinAvail t.slot.body.w)) ≠ 0 ∨
      headersEnd (readCells t.slot.body.buf t.slot.reqLen) = 0 := by
  have hfr := h.le_frontier hgot
  have hlen := h.frontier_le_len
  have hcap := h.len_cap
  have hle := h.len_le
  rw [h.follows.avail_eq, h.contents le_rfl]
  by_cases hS : headersEnd S = 0
  · have hhead : headEnd S = S.length := if_neg (not_not.mpr hS)
    -- nothing is missing below the high-water mark, and there is no HEADERS frame
    have heq : t.slot.reqLen = bodywinFrontier t.slot.body.w := by omega
    refine .inr ?_
    rw [heq, h.contents le_rfl, headersEnd_take (by omega), hS]
  · have hhead : headEnd S = headersEnd S := if_pos hS
    by_cases hfit : headEnd S ≤ bodywinFrontier t.slot.body.w
    · exact .inl (by rwa [headersEnd_take (by omega)])
    · -- the head is larger than the window, which is full
      have heq : t.slot.reqLen = bodywinFrontier t.slot.body.w := by omega
      rw [heq, h.contents le_rfl]
      exact (em (headersEnd (S.take (bodywinFrontier t.slot.body.w)) = 0)).symm

end

end Tracks

/-! ## Completing an open request -/

variable {streams : Bool} {i : CompleteIn σ} {slot : StreamSlot}

section

variable {S : List UInt8} {t : ReqTrace}

theorem routeBodyHeadLen_open (hdone : t.slot.reqDone = false) :
    routeBodyHeadLen t.slot =
      headersEnd (readCells t.slot.body.buf (bodywinAvail t.slot.body.w)) := by
  simp [routeBodyHeadLen, hdone]

theorem routeBody_of_done (hdone : slot.reqDone = true) (hw : slot.body.w.on = false)
    (streams : Bool) (i : CompleteIn σ) : routeBody streams i slot = none := by
  have hlen : routeBodyHeadLen slot = 0 := by simp [routeBodyHeadLen, hdone]
  have hstart : routeBodyStart i slot = none := by simp [routeBodyStart, hlen]
  simp [routeBody, hw, hlen, hstart]

theorem routeBodyPump_on (i : CompleteIn σ) (slot : StreamSlot) :
    (routeBodyPump i slot).body.w.on = slot.body.w.on := by
  unfold routeBodyPump
  split
  · rfl
  · exact bodywinPump_on i.onBody slot.body i.ctx

/-- A request that has been decoded or answered, or whose body streams, is left alone. -/
theorem completion_closed (hclosed : slot.reqDone = true ∨ slot.body.w.on = true)
    (hon : slot.body.w.on = true → streams = true) (i : CompleteIn σ) :
    (routeCompleteSlot streams i slot).2 = .waiting ∧
      ((routeCompleteSlot streams i slot).1.reqDone = true ∨
        (routeCompleteSlot streams i slot).1.body.w.on = true) := by
  unfold routeCompleteSlot
  cases hw : slot.body.w.on with
  | true =>
    have hbody : routeBody streams i slot = some (routeBodyPump i slot, .waiting) := by
      simp [routeBody, hw, hon hw]
    rw [hbody]
    exact ⟨rfl, .inr ((routeBodyPump_on i slot).trans hw)⟩
  | false =>
    have hdone : slot.reqDone = true := hclosed.resolve_right (by simp [hw])
    rw [routeBody_of_done hdone hw]
    simp only [routeIsOver, hdone, Bool.not_true, Bool.and_false, Bool.false_eq_true, if_false]
    split
    · exact ⟨rfl, .inl hdone⟩
    · simp [routeCompleteBuffered, srvloopRequestComplete]

section

variable (h : Tracks S t)
include h

theorem sound_routeBody (hdone : t.slot.reqDone = false)
    {r : StreamSlot × Completion} (hr : routeBody streams i t.slot = some r) :
    SoundCompletion S t.got r.2 ∧
      (t.slot.body.w.on = true ∨
        headersEnd (readCells t.slot.body.buf (bodywinAvail t.slot.body.w)) ≠ 0) := by
  have hlen := routeBodyHeadLen_open hdone
  unfold routeBody at hr
  split at hr
  · cases hr
  split at hr
  · rename_i hc
    cases hr
    obtain ⟨-, -, hne⟩ := hc
    rw [hlen] at hne
    obtain ⟨-, hle⟩ := h.headersEnd_contiguous hne
    exact ⟨fun o ho => h.received o (by omega), .inr hne⟩
  split at hr
  · rename_i hon
    cases hr
    exact ⟨trivial, .inl hon⟩
  · obtain ⟨started, hstart, he⟩ := Option.map_eq_some_iff.mp hr
    cases he
    unfold routeBodyStart at hstart
    dsimp only at hstart
    split at hstart
    · cases hstart
    rename_i hc
    have hne : routeBodyHeadLen t.slot ≠ 0 := fun h0 => hc (.inl h0)
    rw [hlen] at hne
    obtain ⟨heq, hle⟩ := h.headersEnd_contiguous hne
    exact ⟨h.sound_decoded hle (le_of_eq (by rw [hlen, heq])), .inr hne⟩

theorem sound_of_fin (hfin : t.slot.reqFin = true) (hgap : bodywinFinGap t.slot.body.w = false) :
    SoundCompletion S t.got (.decoded (readCells t.slot.body.buf t.slot.reqLen)) := by
  have hw : t.slot.body.w.fin = true := h.fin.symm.trans hfin
  have hall : S.length ≤ bodywinFrontier t.slot.body.w := by
    simpa [bodywinFinGap, hw, h.base, h.follows.finOff hw] using hgap
  have hhead : headEnd S ≤ S.length := by
    unfold headEnd
    split
    · exact headersEnd_le S
    · exact le_rfl
  have hlen := h.frontier_le_len
  exact h.sound_decoded (by omega) (by omega)

/-- A full window has no gap. -/
theorem sound_of_over (hfits : headEnd S ≤ bodywinCap) (hover : routeIsOver t.slot = true)
    (recv : RequestDecoder) :
    SoundCompletion S t.got .tooLarge ∧ HeadWithoutGap recv t.slot := by
  simp only [routeIsOver, Bool.and_eq_true, decide_eq_true_eq] at hover
  have hlen := h.frontier_le_len
  have hcap := h.len_cap
  have heq : t.slot.reqLen = bodywinAvail t.slot.body.w := by
    rw [h.follows.avail_eq]
    omega
  refine ⟨fun o ho => h.received o (by omega), ?_⟩
  rw [HeadWithoutGap, heq]
  refine .inr (.inr (.inr ?_))
  by_cases hzero : headersEnd (readCells t.slot.body.buf (bodywinAvail t.slot.body.w)) = 0
  · exact .inr (.inl hzero)
  · exact .inl hzero

/-- The verdict that the buffered path acts on is that on the bytes up to the high-water
mark. -/
theorem sound_buffered_iff (hdone : t.slot.reqDone = false) (hon : t.slot.body.w.on = false)
    (hgap : bodywinFinGap t.slot.body.w = false) (recv : RequestDecoder) :
    SoundCompletion S t.got (routeCompleteBuffered recv t.slot).2 ↔
      HeadWithoutGap recv t.slot := by
  unfold routeCompleteBuffered srvloopRequestComplete HeadWithoutGap
  simp only [hdone, hon, Bool.false_eq_true, if_false, false_or]
  by_cases hfin : t.slot.reqFin = true
  · simp only [hfin, if_true, true_or, iff_true]
    exact sound_of_fin h hfin hgap
  simp only [hfin]
  by_cases hzero : headersEnd (readCells t.slot.body.buf t.slot.reqLen) = 0
  · simp only [hzero, if_true, true_or, or_true, iff_true]
    trivial
  simp only [hzero, if_false, false_or]
  -- acting on the verdict is sound exactly when the frame is whole before the first gap
  have hact : ∀ n, headersEnd (readCells t.slot.body.buf t.slot.reqLen) ≤ n →
      (SoundCompletion S t.got (.decoded (readCells t.slot.body.buf n)) ↔
        headersEnd (readCells t.slot.body.buf (bodywinAvail t.slot.body.w)) ≠ 0) := by
    intro n hn
    constructor
    · rintro ⟨hgot, -⟩
      exact (h.headersEnd_of_received hgot).resolve_right hzero
    · intro hne
      have hend := h.headersEnd_len hne
      exact h.sound_decoded (h.headersEnd_contiguous hne).2 (by omega)
  have hle := headersEnd_le (readCells t.slot.body.buf t.slot.reqLen)
  rw [readCells_length] at hle
  cases hv : recv (readCells t.slot.body.buf
      (headersEnd (readCells t.slot.body.buf t.slot.reqLen))) false with
  | failed qpack => cases qpack <;> simp [hact _ hle, hact _ le_rfl]
  | request connect =>
    cases connect with
    | false => simp [SoundCompletion]
    | true => simp [hact _ hle]

/-- **Completing an open request** whose head fits the window is sound exactly when no gap stands in
it. -/
theorem soundCompletion_iff (hfits : headEnd S ≤ bodywinCap) (hdone : t.slot.reqDone = false)
    (hon : t.slot.body.w.on = false) (streams : Bool) (i : CompleteIn σ) :
    SoundCompletion S t.got (routeCompleteSlot streams i t.slot).2 ↔
      HeadWithoutGap i.recv t.slot := by
  unfold routeCompleteSlot
  cases hbody : routeBody streams i t.slot with
  | some r =>
    obtain ⟨hsound, hhead⟩ := sound_routeBody h hdone hbody
    refine iff_of_true hsound ?_
    rcases hhead with hon' | hne
    · exact .inr (.inl hon')
    · exact .inr (.inr (.inr (.inl hne)))
  | none =>
    by_cases hover : routeIsOver t.slot = true
    · rw [if_pos hover]
      obtain ⟨hsound, hhead⟩ := sound_of_over h hfits hover i.recv
      exact iff_of_true hsound hhead
    rw [if_neg hover]
    by_cases hgap : bodywinFinGap t.slot.body.w = true
    · rw [if_pos hgap]
      have hfin : t.slot.body.w.fin = true := by
        simp only [bodywinFinGap, Bool.and_eq_true] at hgap
        exact hgap.1
      exact iff_of_true trivial (.inr (.inr (.inl (h.fin.trans hfin))))
    · rw [if_neg hgap, h.clip_len]
      exact sound_buffered_iff h hdone hon (by simpa using hgap) i.recv

/-- A request that is still open afterwards was left as it was. -/
theorem completion_open (huse : (routeCompleteSlot streams i t.slot).1.inUse = true)
    (hdone : (routeCompleteSlot streams i t.slot).1.reqDone = false)
    (hon : (routeCompleteSlot streams i t.slot).1.body.w.on = false) :
    (routeCompleteSlot streams i t.slot).1 = t.slot := by
  revert huse hdone hon
  unfold routeCompleteSlot
  cases hbody : routeBody streams i t.slot with
  | some r =>
    intro huse hdone hon
    unfold routeBody at hbody
    split at hbody
    · cases hbody
    split at hbody
    · cases hbody
      cases huse
    split at hbody
    · rename_i hw
      cases hbody
      rw [routeBodyPump_on, hw] at hon
      cases hon
    · obtain ⟨started, hstart, rfl⟩ := Option.map_eq_some_iff.mp hbody
      rw [routeBodyPump_on] at hon
      unfold routeBodyStart at hstart
      dsimp only at hstart
      split at hstart
      · cases hstart
      cases hstart
      cases hon
  | none =>
    dsimp only
    split
    · intro _ hdone _
      cases hdone
    split
    · exact fun _ _ _ => rfl
    · rw [h.clip_len]
      unfold routeCompleteBuffered
      split
      · exact fun _ _ _ => rfl
      · exact fun _ _ _ => rfl
      · intro _ hdone _
        cases hdone

end

theorem completion_on (hon : slot.body.w.on = false) :
    (routeCompleteSlot false i slot).1.body.w.on = false := by
  have hbody : routeBody false i slot = none := rfl
  unfold routeCompleteSlot routeCompleteBuffered
  rw [hbody]
  dsimp only
  split
  · exact hon
  split
  · exact hon
  split <;> exact hon

end

/-! ## Whole runs -/

/-- While the request is open the slot tracks its stream. -/
structure ReqInv (S : List UInt8) (streams : Bool) (t : ReqTrace) : Prop where
  tracks : t.slot.inUse = true → t.slot.reqDone = false → t.slot.body.w.on = false → Tracks S t
  streams : t.slot.body.w.on = true → streams = true

section

variable {S : List UInt8} {t : ReqTrace}

theorem reqInv_claimed (S streams buf) : ReqInv S streams (traceClaimed buf) where
  tracks := fun _ _ _ => tracks_claimed S buf
  streams := fun h => by simp [traceClaimed, slotClaimed, bodywinEmpty] at h

theorem receive_flags (frame : Nat × Nat × Bool) :
    (receive S t frame).slot.inUse = t.slot.inUse ∧
      (receive S t frame).slot.reqDone = t.slot.reqDone ∧
      (receive S t frame).slot.body.w.on = t.slot.body.w.on := by
  refine ⟨rfl, rfl, ?_⟩
  simp only [receive, routeLandBytes, landFragment, bodywinLand_w]

theorem arrive_inUse (p : Payload σ) (h : t.slot.inUse = true) :
    (arrive S t p).slot.inUse = true := by
  refine foldl_invariant (I := fun t : ReqTrace => t.slot.inUse = true) (fun t frame ht => ?_)
    p.frames h
  exact (receive_flags frame).1.trans ht

theorem touches_inUse {p : Payload σ} (h : touches t p = true) : t.slot.inUse = true := by
  simp only [touches, Bool.and_eq_true] at h
  exact h.1

theorem open_or_closed (slot : StreamSlot) :
    (slot.reqDone = false ∧ slot.body.w.on = false) ∨
      (slot.reqDone = true ∨ slot.body.w.on = true) := by
  cases slot.reqDone <;> cases slot.body.w.on <;> simp

section

variable (h : ReqInv S streams t) (p : Payload σ)
include h

theorem reqInv_arrive : ReqInv S streams (arrive S t p) := by
  refine foldl_invariant (I := ReqInv S streams) (fun t frame ht => ?_) p.frames h
  obtain ⟨huse, hdone, hon⟩ := @receive_flags S t frame
  constructor
  · intro h1 h2 h3
    exact tracks_receive (ht.tracks (huse ▸ h1) (hdone ▸ h2) (hon ▸ h3)) frame
  · intro h3
    exact ht.streams (hon ▸ h3)

theorem reqInv_step : ReqInv S streams (reqStep S streams t p) := by
  unfold reqStep
  split
  · rename_i htouch
    have ha := reqInv_arrive h p
    have huse := arrive_inUse (S := S) p (touches_inUse htouch)
    constructor
    · intro h1 h2 h3
      rcases open_or_closed (arrive S t p).slot with hopen | hclosed
      · have htr := ha.tracks huse hopen.1 hopen.2
        have hsame := completion_open htr h1 h2 h3
        rw [hsame]
        exact htr
      · rcases (completion_closed hclosed ha.streams p.input).2 with hd | ho
        · rw [hd] at h2
          cases h2
        · rw [ho] at h3
          cases h3
    · intro hon
      cases hs : streams with
      | true => rfl
      | false =>
        subst hs
        have hoff : (arrive S t p).slot.body.w.on = false := by
          by_contra hne
          have := ha.streams (by simpa using hne)
          cases this
        rw [completion_on hoff] at hon
        cases hon
  · exact h

theorem decodesReceived_iff (hfits : headEnd S ≤ bodywinCap) :
    DecodesReceived S streams t p ↔ PayloadWithoutGap S t p := by
  unfold DecodesReceived PayloadWithoutGap reqEvent
  split
  · rename_i htouch
    have ha := reqInv_arrive h p
    simp only [htouch, forall_const]
    rcases open_or_closed (arrive S t p).slot with hopen | hclosed
    · have huse := arrive_inUse (S := S) p (touches_inUse htouch)
      have htr := ha.tracks huse hopen.1 hopen.2
      exact soundCompletion_iff htr hfits hopen.1 hopen.2 streams p.input
    · rw [(completion_closed hclosed ha.streams p.input).1]
      refine iff_of_true trivial ?_
      rcases hclosed with hd | ho
      · exact .inl hd
      · exact .inr (.inl ho)
  · rename_i htouch
    exact iff_of_true trivial fun h1 => absurd h1 htouch

end

end

/-- **Requests are decoded from received bytes** over every cutting and order of the stream's
frames, with any duplicates, if the HEADERS frame fits the window, exactly as long as no payload
leaves a HEADERS frame that is whole only across a gap. -/
theorem decodesReceived_along_iff (S : List UInt8) (hfits : headEnd S ≤ bodywinCap)
    (streams : Bool) (buf : Nat → UInt8) (ps : List (Payload σ)) :
    Along (reqStep S streams) (DecodesReceived S streams) (traceClaimed buf) ps ↔
      Along (reqStep S streams) (PayloadWithoutGap S) (traceClaimed buf) ps :=
  along_congr (fun _ p h _ => reqInv_step h p) (fun _ p h => decodesReceived_iff h p hfits) ps
    (reqInv_claimed S streams buf)

/-- A HEADERS frame: `GET https://ab/`. -/
def getStream : List UInt8 :=
  [0x01, 0x09, 0x00, 0x00, 0xd1, 0xd7, 0xc1, 0x50, 0x02, 0x61, 0x62]

/-- Frames of one payload, decoded against an empty table. -/
def getPayload (frames : List (Nat × Nat × Bool)) : Payload Unit where
  frames := frames
  input :=
    { recv := recvVerdict 10240 (qpackDynInit 0), sendDone := false
      onBody := fun _ _ _ => ((), true), ctx := () }

/-- The equivalence for a GET request in two payloads. -/
theorem decodesReceived_getStream :
    headEnd getStream ≤ bodywinCap ∧
      (Along (reqStep getStream false) (DecodesReceived getStream false)
          (traceClaimed fun _ => 0) [getPayload [(0, 9, false)], getPayload [(9, 2, true)]] ↔
        Along (reqStep getStream false) (PayloadWithoutGap getStream)
          (traceClaimed fun _ => 0) [getPayload [(0, 9, false)], getPayload [(9, 2, true)]]) := by
  have hfits : headEnd getStream ≤ bodywinCap := by decide +kernel
  exact ⟨hfits, decodesReceived_along_iff getStream hfits false _ _⟩

/-- Byte 9 is missing between the two frames, and the buffer has a NUL there: the request, which the
decoder accepts, is rejected. -/
theorem request_rejected_across_gap :
    recvVerdict 10240 (qpackDynInit 0) getStream false = .request false ∧
      ¬ Along (reqStep getStream false) (DecodesReceived getStream false)
        (traceClaimed fun _ => 0) [getPayload [(0, 9, false), (10, 1, false)]] := by
  refine ⟨by decide +kernel, ?_⟩
  rintro ⟨hstep, -⟩
  have hevent : reqEvent getStream false (traceClaimed fun _ => 0)
      (getPayload [(0, 9, false), (10, 1, false)]) =
      .decoded [0x01, 0x09, 0x00, 0x00, 0xd1, 0xd7, 0xc1, 0x50, 0x02, 0x00, 0x62] := by
    decide +kernel
  rw [DecodesReceived, hevent] at hstep
  have hmissing : (arrive getStream (traceClaimed fun _ => 0)
      (getPayload [(0, 9, false), (10, 1, false)])).got 9 = false := by
    decide +kernel
  have hgot := hstep.1 9 (by decide +kernel)
  rw [hmissing] at hgot
  cases hgot

end Wired.Http3
