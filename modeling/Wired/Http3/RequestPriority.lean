import Wired.Http3.ControlStream

/-!
# PRIORITY_UPDATE frames on request streams

`priority_ctrl_ctrl.c`: a PRIORITY_UPDATE frame must not be on a request stream. The server looks
for one at the start of each STREAM frame of the stream, wherever in the HTTP/3 frames that is. So
it finds a frame only where a STREAM frame starts with it and has the whole of it, and takes other
bytes for one where a STREAM frame starts inside of an HTTP/3 frame (`priupdateLatched_iff`).
-/

namespace Wired.Http3

open Lib Transport List

/-! ## The scan -/

def h3FrameUnexpected : Nat := 0x105

def h3IdError : Nat := 0x108

def priupdateWrongStream (onControlStream : Bool) : Bool := !onControlStream

def priupdateBadId (onControlStream push : Bool) (id : Nat) : Bool :=
  onControlStream && (push || id % 4 ≠ 0)

def wiredH3srvPriupdateCheck (onControlStream push : Bool) (elementId : Nat) : Option Nat :=
  if priupdateWrongStream onControlStream then some h3FrameUnexpected
  else if priupdateBadId onControlStream push elementId then some h3IdError
  else none

/-- The first error stays; zero is none. -/
def srvloopH3Fail (error code : Nat) : Nat := if error = 0 then code else error

def reqCarriesPriupdate (sf : Fragment UInt8) : Bool := (h3PriupdateGet sf.data).isSome

def reqLatchPriupdateViolation (error : Nat) : Nat :=
  match wiredH3srvPriupdateCheck false false 0 with
  | some err => srvloopH3Fail error err
  | none => error

/-- A STREAM frame of a request stream is searched for a PRIORITY_UPDATE at its start. -/
def wiredSrvloopReqPriupdateGather (error : Nat) (sf : Fragment UInt8) : Nat :=
  if reqCarriesPriupdate sf then reqLatchPriupdateViolation error else error

/-! ## The frames of the stream -/

/-- One of the HTTP/3 frames of the stream is a PRIORITY_UPDATE. -/
def HasPriupdate (stream : List UInt8) : Prop :=
  ∃ f ∈ (decodeAll h3FrameGet stream).1, isPriupdate f.type = true

/-- The HTTP/3 frames before `o` end at `o`. -/
def FrameBoundary (stream : List UInt8) (o : Nat) : Prop :=
  (decodeAll h3FrameGet (stream.take o)).2 = (stream.take o).length

/-- A STREAM frame starts with an HTTP/3 frame of the stream, a PRIORITY_UPDATE, and has the whole
of it. -/
def CarriedWhole (stream : List UInt8) (sfs : List (Fragment UInt8)) : Prop :=
  ∃ sf ∈ sfs, FrameBoundary stream sf.off ∧ ∃ f n, h3FrameGet sf.data = some (f, n) ∧
    isPriupdate f.type = true ∧ (varintDecode f.payload).isSome = true

/-- A STREAM frame starts inside of an HTTP/3 frame, and reads like a PRIORITY_UPDATE. -/
def Lookalike (stream : List UInt8) (sfs : List (Fragment UInt8)) : Prop :=
  ∃ sf ∈ sfs, ¬ FrameBoundary stream sf.off ∧ reqCarriesPriupdate sf = true

theorem h3PriupdateGet_isSome_iff (buf : List UInt8) :
    (h3PriupdateGet buf).isSome = true ↔ ∃ f n, h3FrameGet buf = some (f, n) ∧
      isPriupdate f.type = true ∧ (varintDecode f.payload).isSome = true := by
  cases hhead : h3frameGetHead buf with
  | none => simp [h3PriupdateGet, h3FrameGet, Stable.andThen, hhead]
  | some r =>
    obtain ⟨⟨type, len⟩, body⟩ := r
    have hbody : body ≤ buf.length := h3frameGetHead_stable.le hhead
    have hget : h3FrameGet buf = if body + len ≤ buf.length then
        some ({ type := type, payload := (buf.drop body).take len }, body + len) else none := by
      simp only [h3FrameGet, Stable.andThen, hhead, framePayload, length_drop]
      by_cases hfits : body + len ≤ buf.length
      · rw [if_pos hfits, if_neg (show ¬ len > buf.length - body by omega)]
      · rw [if_neg hfits, if_pos (show len > buf.length - body by omega)]
    have hpayload : (buf.take (body + len)).drop body = (buf.drop body).take len := by
      rw [drop_take, Nat.add_sub_cancel_left]
    unfold h3PriupdateGet
    rw [hget, hhead]
    dsimp only
    rw [hpayload]
    by_cases hfits : body + len ≤ buf.length
    · by_cases htype : isPriupdate type = true
      · simp [hfits, htype]
      · simp [htype]
    · simp [hfits]

section

variable {stream : List UInt8}

theorem mem_frames_of_boundary {o n : Nat} {f : H3Frame} (hbound : FrameBoundary stream o)
    (hf : h3FrameGet (stream.drop o) = some (f, n)) : f ∈ (decodeAll h3FrameGet stream).1 := by
  have happ := decodeAll_append h3FrameGet_stable (stream.take o) (stream.drop o)
  rw [hbound, drop_length, nil_append, take_append_drop,
    decodeAll_some h3FrameGet_stable.advances hf] at happ
  rw [happ]
  exact mem_append_right _ mem_cons_self

theorem CarriedWhole.hasPriupdate {cuts : List (Nat × Nat)}
    (h : CarriedWhole stream (cuts.map fun c => fragment stream c.1 c.2 false)) :
    HasPriupdate stream := by
  obtain ⟨sf, hsf, hbound, f, n, hf, htype, -⟩ := h
  obtain ⟨c, -, rfl⟩ := mem_map.mp hsf
  rw [fragment_data] at hf
  have hwhole : h3FrameGet (stream.drop (fragment stream c.1 c.2 false).off) = some (f, n) :=
    h3FrameGet_stable.of_prefix hf (List.take_prefix _ _)
  exact ⟨f, mem_frames_of_boundary hbound hwhole, htype⟩

theorem foldl_gather_eq (sfs : List (Fragment UInt8)) :
    sfs.foldl wiredSrvloopReqPriupdateGather 0 ≠ 0 ↔ ∃ sf ∈ sfs, reqCarriesPriupdate sf = true := by
  have hstay : ∀ (sfs : List (Fragment UInt8)) (error : Nat), error ≠ 0 →
      sfs.foldl wiredSrvloopReqPriupdateGather error = error := by
    intro sfs
    induction sfs with
    | nil =>
      intro error _
      rfl
    | cons sf sfs ih =>
      intro error hne
      have hstep : wiredSrvloopReqPriupdateGather error sf = error := by
        unfold wiredSrvloopReqPriupdateGather
        split
        · exact if_neg hne
        · rfl
      rw [foldl_cons, hstep, ih error hne]
  induction sfs with
  | nil => simp
  | cons sf sfs ih =>
    rw [foldl_cons]
    by_cases hsf : reqCarriesPriupdate sf = true
    · have hstep : wiredSrvloopReqPriupdateGather 0 sf = h3FrameUnexpected := if_pos hsf
      have hne : h3FrameUnexpected ≠ 0 := by decide
      rw [hstep, hstay _ _ hne]
      exact iff_of_true hne ⟨sf, mem_cons_self, hsf⟩
    · have hstep : wiredSrvloopReqPriupdateGather 0 sf = 0 := if_neg hsf
      rw [hstep]
      exact ih.trans (by simp [hsf])

/-- It is at a whole PRIORITY_UPDATE frame of the stream, or at something that reads like one. -/
theorem gather_iff (stream : List UInt8) (sfs : List (Fragment UInt8)) :
    sfs.foldl wiredSrvloopReqPriupdateGather 0 ≠ 0 ↔
      CarriedWhole stream sfs ∨ Lookalike stream sfs := by
  rw [foldl_gather_eq]
  constructor
  · rintro ⟨sf, hsf, hcarries⟩
    by_cases hbound : FrameBoundary stream sf.off
    · exact Or.inl ⟨sf, hsf, hbound, (h3PriupdateGet_isSome_iff _).mp hcarries⟩
    · exact Or.inr ⟨sf, hsf, hbound, hcarries⟩
  · rintro (⟨sf, hsf, -, hframe⟩ | ⟨sf, hsf, -, hcarries⟩)
    · exact ⟨sf, hsf, (h3PriupdateGet_isSome_iff _).mpr hframe⟩
    · exact ⟨sf, hsf, hcarries⟩

end

/-- **PRIORITY_UPDATE on a request stream.** The stream arrives in STREAM frames, cut in any way. A
violation is latched exactly for the streams with a PRIORITY_UPDATE frame if and only if, where
there is such a frame, one is carried whole by a STREAM frame that starts with it, or a STREAM frame
inside of a frame reads like one; and where there is none, no STREAM frame inside of a frame reads
like one. -/
theorem priupdateLatched_iff (stream : List UInt8) (cuts : List (Nat × Nat)) :
    ((cuts.map fun c => fragment stream c.1 c.2 false).foldl wiredSrvloopReqPriupdateGather 0 ≠ 0 ↔
        HasPriupdate stream) ↔
      (HasPriupdate stream →
        CarriedWhole stream (cuts.map fun c => fragment stream c.1 c.2 false) ∨
          Lookalike stream (cuts.map fun c => fragment stream c.1 c.2 false)) ∧
      (¬ HasPriupdate stream →
        ¬ Lookalike stream (cuts.map fun c => fragment stream c.1 c.2 false)) := by
  rw [gather_iff stream]
  have hsound : CarriedWhole stream (cuts.map fun c => fragment stream c.1 c.2 false) →
      HasPriupdate stream := CarriedWhole.hasPriupdate
  constructor
  · intro h
    refine ⟨h.mpr, ?_⟩
    intro hno hlook
    exact hno (h.mp (Or.inr hlook))
  · rintro ⟨hfound, hnone⟩
    refine ⟨?_, hfound⟩
    rintro (hwhole | hlook)
    · exact hsound hwhole
    · by_contra hno
      exact hnone hno hlook

/-- A HEADERS frame and a DATA frame; the payload of the DATA frame starts a STREAM frame. -/
theorem dataLookalike_latched :
    ([(0, 4), (4, 6)].map fun c : Nat × Nat => fragment
        [0x01, 0x00, 0x00, 0x06, 0x80, 0x0f, 0x07, 0x00, 0x01, 0x00] c.1 c.2 false).foldl
          wiredSrvloopReqPriupdateGather 0 = h3FrameUnexpected ∧
      ¬ HasPriupdate [0x01, 0x00, 0x00, 0x06, 0x80, 0x0f, 0x07, 0x00, 0x01, 0x00] := by
  refine ⟨by decide +kernel, ?_⟩
  have hframes : (decodeAll h3FrameGet
      [0x01, 0x00, 0x00, 0x06, 0x80, 0x0f, 0x07, 0x00, 0x01, 0x00]).1 =
        [{ type := h3FrameHeaders, payload := [] },
          { type := h3FrameData, payload := [0x80, 0x0f, 0x07, 0x00, 0x01, 0x00] }] := by
    decide +kernel
  rintro ⟨f, hf, htype⟩
  rw [hframes, mem_pair] at hf
  rcases hf with rfl | rfl <;> cases htype

end Wired.Http3
