import Wired.Transport.Varint

/-!
# HTTP/3 frames

`frame.c`, `frame_permit.c` and the walk of `request_parse.c` to the leading HEADERS frame of a
request stream. A frame is a type, a length and that many bytes of payload; it is read only when it
is whole, so that more bytes do not change what was read (`headersEnd_take`).
-/

namespace Wired.Http3

open Lib Transport List

def h3FrameData : Nat := 0x00
def h3FrameHeaders : Nat := 0x01
def h3FrameCancelPush : Nat := 0x03
def h3FrameSettings : Nat := 0x04
def h3FramePushPromise : Nat := 0x05
def h3FrameGoaway : Nat := 0x07
def h3FrameMaxPushId : Nat := 0x0d

/-- `H3_STREAM_WEBTRANSPORT_BIDI`: the signal at the head of a WebTransport stream. -/
def h3StreamWebtransportBidi : Nat := 0x41

structure H3Frame where
  type : Nat
  payload : List UInt8
deriving DecidableEq, Repr

def h3frameGetHead (buf : List UInt8) : Option ((Nat × Nat) × Nat) :=
  Stable.andThen varintDecode
    (fun type rest => (varintDecode rest).map fun r => ((type, r.1), r.2)) buf

/-- The payload behind the type and the length. -/
def framePayload (head : Nat × Nat) (rest : List UInt8) : Option (H3Frame × Nat) :=
  if head.2 > rest.length then none
  else some ({ type := head.1, payload := rest.take head.2 }, head.2)

def h3FrameGet (buf : List UInt8) : Option (H3Frame × Nat) :=
  Stable.andThen h3frameGetHead framePayload buf

theorem h3frameGetHead_stable : Stable h3frameGetHead :=
  varintDecode_stable.then_ fun type => (varintDecode_stable.map fun len => (type, len)).toReadsHead

theorem framePayload_readsHead (head : Nat × Nat) : ReadsHead (framePayload head) :=
  ReadsHead.ofTake head.2 (H3Frame.mk head.1)

theorem h3FrameGet_stable : Stable h3FrameGet :=
  h3frameGetHead_stable.then_ framePayload_readsHead

/-! ## Where frames may stand -/

/-- The streams on which frames differ. -/
inductive H3StreamKind where
  | control
  | request
  | push
deriving DecidableEq, Repr

/-- The streams a defined type is permitted on; unknown types are permitted everywhere. -/
def permitMask (type : Nat) : List H3StreamKind :=
  if type = h3FrameData ∨ type = h3FrameHeaders then [.request, .push]
  else if type = h3FrameCancelPush ∨ type = h3FrameSettings then [.control]
  else if type = h3FramePushPromise then [.request]
  else if type = h3FrameGoaway ∨ type = h3FrameMaxPushId then [.control]
  else [.control, .request, .push]

def h3FrameOnStream (type : Nat) (kind : H3StreamKind) : Bool := kind ∈ permitMask type

def isHttp2OnlyReserved (type : Nat) : Bool := type ∈ [0x02, 0x06, 0x08, 0x09]

def h3FrameRecvOk (type : Nat) : Bool :=
  type ≠ h3FramePushPromise && !isHttp2OnlyReserved type

/-- The error that a frame raises: `H3_FRAME_UNEXPECTED` or `H3_FRAME_ERROR`. -/
inductive FrameReject where
  | unexpected
  | frameError
deriving DecidableEq, Repr

def h3reqdriveFrameReject (type off : Nat) : Option FrameReject :=
  if type = h3StreamWebtransportBidi ∧ off ≠ 0 then some .frameError
  else if h3FrameOnStream type .request && h3FrameRecvOk type then none
  else some .unexpected

/-! ## The leading HEADERS frame -/

/-- DATA ahead of HEADERS is an invalid sequence of frames. -/
def findHeadersReject (type off : Nat) : Option FrameReject :=
  if type = h3FrameData then some .unexpected else h3reqdriveFrameReject type off

/-- The result of the walk to HEADERS. -/
inductive FindHeaders where
  | found (fs : List UInt8) (endOff : Nat)
  | rejected (reject : FrameReject)
  | truncated
deriving DecidableEq, Repr

/-- The walk of `find_headers` from offset `off`, where `buf` starts. -/
def findHeadersFrom : Nat → Nat → List UInt8 → FindHeaders
  | 0, _, _ => .truncated
  | fuel + 1, off, buf =>
    match h3FrameGet buf with
    | none => .truncated
    | some (f, used) =>
      match findHeadersReject f.type off with
      | some reject => .rejected reject
      | none =>
        if f.type = h3FrameHeaders then .found f.payload (off + used)
        else findHeadersFrom fuel (off + used) (buf.drop used)

def findHeaders (buf : List UInt8) : FindHeaders := findHeadersFrom buf.length 0 buf

/-- The field section of the leading HEADERS, and where the frame ends. -/
def headersFrame (buf : List UInt8) : Option (List UInt8 × Nat) :=
  match findHeaders buf with
  | .found fs endOff => some (fs, endOff)
  | _ => none

/-- `wired_h3reqdrive_headers_end`: 0 if there is no whole HEADERS frame. -/
def headersEnd (buf : List UInt8) : Nat := ((headersFrame buf).map Prod.snd).getD 0

variable {buf : List UInt8} {n : Nat}

theorem findHeadersFrom_found {fuel off : Nat} {fs : List UInt8} {endOff : Nat}
    (h : findHeadersFrom fuel off buf = .found fs endOff) :
    off < endOff ∧ endOff ≤ off + buf.length ∧
      ∀ fuel' c, endOff ≤ off + fuel' →
        findHeadersFrom fuel' off (buf.take (endOff - off) ++ c) = .found fs endOff := by
  induction fuel generalizing off buf with
  | zero => cases h
  | succ fuel ih =>
    unfold findHeadersFrom at h
    cases hget : h3FrameGet buf with
    | none => simp [hget] at h
    | some r =>
      obtain ⟨f, used⟩ := r
      have hpos := h3FrameGet_stable.pos hget
      have hle := h3FrameGet_stable.le hget
      cases hrej : findHeadersReject f.type off with
      | some reject => simp [hget, hrej] at h
      | none =>
        simp only [hget, hrej] at h
        by_cases htype : f.type = h3FrameHeaders
        · rw [if_pos htype, FindHeaders.found.injEq] at h
          obtain ⟨rfl, rfl⟩ := h
          refine ⟨by omega, by omega, ?_⟩
          intro fuel' c hfuel
          obtain ⟨fuel', rfl⟩ : ∃ k, fuel' = k + 1 := ⟨fuel' - 1, by omega⟩
          rw [Nat.add_sub_cancel_left, findHeadersFrom, h3FrameGet_stable.head hget c]
          simp only [hrej, if_pos htype]
        · rw [if_neg htype] at h
          obtain ⟨hlt, hend, hrest⟩ := ih h
          rw [length_drop] at hend
          refine ⟨by omega, by omega, ?_⟩
          intro fuel' c hfuel
          obtain ⟨fuel', rfl⟩ : ∃ k, fuel' = k + 1 := ⟨fuel' - 1, by omega⟩
          -- the first frame lies inside of what is kept, and so does the rest of the walk
          have hsplit : buf.take (endOff - off) ++ c =
              buf.take used ++ ((buf.drop used).take (endOff - (off + used)) ++ c) := by
            rw [← append_assoc, ← take_add]
            congr 2
            omega
          have hget' := h3FrameGet_stable.head hget
            ((buf.drop used).take (endOff - (off + used)) ++ c)
          have hdrop : (buf.take used ++ ((buf.drop used).take (endOff - (off + used)) ++ c)).drop
              used = (buf.drop used).take (endOff - (off + used)) ++ c := by
            apply drop_left'
            rw [length_take]
            omega
          rw [hsplit, findHeadersFrom, hget']
          simp only [hrej, htype, if_false, hdrop]
          exact hrest fuel' c (by omega)

theorem headersFrame_stable : Stable headersFrame := by
  refine Stable.of_successes fun {buf fs endOff} h => ?_
  have hfound : findHeaders buf = .found fs endOff := by
    unfold headersFrame at h
    split at h
    · rename_i hf
      cases h
      exact hf
    · cases h
  obtain ⟨hpos, hle, hrest⟩ := findHeadersFrom_found hfound
  rw [Nat.zero_add] at hle
  refine ⟨hpos, hle, fun c => ?_⟩
  have hhead := hrest (buf.take endOff ++ c).length c (by simp; omega)
  rw [Nat.sub_zero] at hhead
  simp only [headersFrame, findHeaders, hhead]

theorem headersEnd_eq_iff (hn : n ≠ 0) :
    headersEnd buf = n ↔ ∃ fs, headersFrame buf = some (fs, n) := by
  unfold headersEnd
  constructor
  · intro h
    cases hf : headersFrame buf with
    | none => exact absurd (by simpa [hf] using h.symm) hn
    | some r => exact ⟨r.1, by simp [hf] at h; simp [← h]⟩
  · rintro ⟨fs, hf⟩
    simp [hf]

theorem headersEnd_extend {a b : List UInt8} (h : headersEnd a ≠ 0) (hp : a <+: b) :
    headersEnd b = headersEnd a := by
  obtain ⟨fs, hf⟩ := (headersEnd_eq_iff h).mp rfl
  exact (headersEnd_eq_iff h).mpr ⟨fs, headersFrame_stable.of_prefix hf hp⟩

theorem headersEnd_le (buf : List UInt8) : headersEnd buf ≤ buf.length := by
  by_cases h : headersEnd buf = 0
  · omega
  · obtain ⟨fs, hf⟩ := (headersEnd_eq_iff h).mp rfl
    exact headersFrame_stable.le hf

theorem headersEnd_take (hn : headersEnd buf ≤ n) : headersEnd (buf.take n) = headersEnd buf := by
  by_cases h : headersEnd buf = 0
  · by_contra hne
    have htake : headersEnd (buf.take n) ≠ 0 := by omega
    exact htake ((headersEnd_extend htake (List.take_prefix n buf)).symm.trans h)
  · obtain ⟨fs, hf⟩ := (headersEnd_eq_iff h).mp rfl
    refine (headersEnd_eq_iff h).mpr ⟨fs, headersFrame_stable.of_take_eq hf ?_⟩
    rw [take_take, Nat.min_eq_left hn]

end Wired.Http3
