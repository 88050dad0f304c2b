import Mathlib.Data.List.TakeWhile
import Wired.Http3.Frame

/-!
# The frames of a request

`request_parse.c`, `request_parse_frames.c` and `reqorder.c`: the walks over the frames of a
request stream behind the leading HEADERS frame. One checks the order of the frames and adds up
the DATA payloads, one finds the body, and one finds the trailer section.

The walks are compared with the grammar of a request stream (`RequestStream`).

* `orderOk_iff`: the order check accepts what the grammar has.
* `requestTrailer_eq_iff`: the search for trailers stops at the first DATA frame.
-/

namespace Wired.Http3

open Lib List

/-! ## The order of the frames -/

/-- `h3req_order_state`. -/
inductive OrderState where
  | start
  | headers
  | data
  | trailers
deriving DecidableEq, Repr

def nextHeaders : OrderState → Option OrderState
  | .start => some .headers
  | .headers => some .trailers
  | .data => some .trailers
  | .trailers => none

def nextData : OrderState → Option OrderState
  | .start => none
  | .headers => some .data
  | .data => some .data
  | .trailers => none

def h3reqOrderAccept (s : OrderState) (type : Nat) : Option OrderState :=
  if type = h3FrameHeaders then nextHeaders s
  else if type = h3FrameData then nextData s
  else none

def isMessageFrame (type : Nat) : Bool := type = h3FrameHeaders || type = h3FrameData

/-- The error that a frame behind the leading HEADERS raises, or the state behind it. -/
def afterHeadersReject (s : OrderState) (type : Nat) : Except FrameReject OrderState :=
  match h3reqdriveFrameReject type 1 with
  | some reject => .error reject
  | none =>
    if !isMessageFrame type then .ok s
    else
      match h3reqOrderAccept s type with
      | none => .error .unexpected
      | some s' => .ok s'

/-- What the walk leaves in the request: `frame_unexpected` and `data_len`. -/
structure FramesSeen where
  frameUnexpected : Option FrameReject
  dataLen : Nat
deriving DecidableEq, Repr

def dataOctets (f : H3Frame) : Nat := if f.type = h3FrameData then f.payload.length else 0

/-- The loop of `h3reqdrive_frames_after_headers`. A frame that is not whole ends it. -/
def framesAfterHeadersFrom : Nat → OrderState → Nat → List UInt8 → FramesSeen
  | 0, _, dataLen, _ => { frameUnexpected := none, dataLen }
  | fuel + 1, s, dataLen, buf =>
    match h3FrameGet buf with
    | none => { frameUnexpected := none, dataLen }
    | some (f, used) =>
      match afterHeadersReject s f.type with
      | .error reject => { frameUnexpected := some reject, dataLen := dataLen + dataOctets f }
      | .ok s' => framesAfterHeadersFrom fuel s' (dataLen + dataOctets f) (buf.drop used)

/-- The order of the frames, and the length of the DATA. -/
def h3reqdriveFramesAfterHeaders (buf : List UInt8) : FramesSeen :=
  framesAfterHeadersFrom buf.length .headers 0 buf

/-! ## The body -/

/-- The loop of `find_body_view`: the payload of the first DATA frame. All frames have to be whole.
-/
def findBodyViewFrom : Nat → List UInt8 → Option (Option (List UInt8))
  | 0, _ => some none
  | fuel + 1, buf =>
    if buf = [] then some none
    else
      match h3FrameGet buf with
      | none => none
      | some (f, used) =>
        if f.type = h3FrameData then some (some f.payload)
        else findBodyViewFrom fuel (buf.drop used)

def findBodyView (buf : List UInt8) : Option (Option (List UInt8)) :=
  findBodyViewFrom buf.length buf

/-! ## The trailer section -/

/-- The loop of `body_end_off`: the bytes behind the first DATA frame, or behind all frames. -/
def bodyEndOffFrom : Nat → List UInt8 → List UInt8
  | 0, buf => buf
  | fuel + 1, buf =>
    match h3FrameGet buf with
    | none => []
    | some (f, used) =>
      if f.type = h3FrameData then buf.drop used else bodyEndOffFrom fuel (buf.drop used)

/-- The bytes behind the first DATA frame. -/
def bodyEndOff (buf : List UInt8) : List UInt8 := bodyEndOffFrom buf.length buf

/-- The section of a HEADERS frame at the head. -/
def trailerHeadersAt (buf : List UInt8) : Option (List UInt8) :=
  (h3FrameGet buf).bind fun r => if r.1.type ≠ h3FrameHeaders then none else some r.1.payload

/-- The trailer section, as it is searched for. -/
def requestTrailer (h3 : List UInt8) : Option (List UInt8) :=
  if headersEnd h3 = 0 then none else trailerHeadersAt (bodyEndOff (h3.drop (headersEnd h3)))

/-! ## The grammar -/

/-- A frame that is skipped wherever it stands. -/
def Skipped (f : H3Frame) : Prop :=
  h3reqdriveFrameReject f.type 1 = none ∧ isMessageFrame f.type = false

/-- A request stream with all frames whole and in order: HEADERS, DATA, and HEADERS again if it has
trailers. Skipped frames may stand anywhere. -/
structure RequestStream where
  bytes : List UInt8
  lead : List H3Frame
  headers : List UInt8
  body : List H3Frame
  trailer : Option (List UInt8)
  tail : List H3Frame
  lead_skipped : ∀ f ∈ lead, Skipped f
  body_message : ∀ f ∈ body, f.type = h3FrameData ∨ Skipped f
  tail_skipped : ∀ f ∈ tail, Skipped f
  spelled : Spelled h3FrameGet bytes
    (lead ++ ⟨h3FrameHeaders, headers⟩ ::
      (body ++ trailer.toList.map (H3Frame.mk h3FrameHeaders) ++ tail))

/-! ## The walks over whole frames -/

section

variable {buf : List UInt8} {frames : List H3Frame} {f : H3Frame} {fuel : Nat}

theorem Skipped.findHeadersReject {f : H3Frame} (h : Skipped f) (off : Nat) :
    findHeadersReject f.type off = none ∧ f.type ≠ h3FrameHeaders := by
  obtain ⟨hreject, hmessage⟩ := h
  simp only [isMessageFrame, Bool.or_eq_false_iff, decide_eq_false_iff_not] at hmessage
  refine ⟨?_, hmessage.1⟩
  rw [Http3.findHeadersReject, if_neg hmessage.2]
  unfold h3reqdriveFrameReject at hreject ⊢
  by_cases hsignal : f.type = h3StreamWebtransportBidi
  · rw [if_pos ⟨hsignal, by decide⟩] at hreject
    cases hreject
  · rw [if_neg (by simp [hsignal])] at hreject
    rwa [if_neg (by simp [hsignal])]

theorem findHeadersFrom_spelled {lead rest : List H3Frame} {fs : List UInt8} {off : Nat}
    (hlead : ∀ f ∈ lead, Skipped f)
    (h : Spelled h3FrameGet buf (lead ++ ⟨h3FrameHeaders, fs⟩ :: rest))
    (hfuel : buf.length ≤ fuel) :
    ∃ n, findHeadersFrom fuel off buf = .found fs (off + n) ∧
      Spelled h3FrameGet (buf.drop n) rest := by
  induction lead generalizing buf fuel off with
  | nil =>
    obtain ⟨used, hget, hrest⟩ := h.cons_get
    obtain ⟨fuel, rfl, hlen⟩ := h3FrameGet_stable.advances.fuel_succ hget hfuel
    refine ⟨used, ?_, hrest⟩
    have haccept : findHeadersReject h3FrameHeaders off = none := by
      simp [findHeadersReject, h3reqdriveFrameReject, h3FrameHeaders, h3FrameData,
        h3StreamWebtransportBidi, h3FrameOnStream, permitMask, h3FrameRecvOk, h3FramePushPromise,
        isHttp2OnlyReserved]
    simp only [findHeadersFrom, hget, haccept, if_true]
  | cons f lead ih =>
    obtain ⟨used, hget, hrest⟩ := h.cons_get
    obtain ⟨fuel, rfl, hlen⟩ := h3FrameGet_stable.advances.fuel_succ hget hfuel
    obtain ⟨haccept, hne⟩ := (hlead f (mem_cons_self ..)).findHeadersReject off
    obtain ⟨n, hfound, hspelled⟩ :=
      @ih (buf.drop used) fuel (off + used) (fun g hg => hlead g (mem_cons_of_mem f hg))
        hrest hlen
    refine ⟨used + n, ?_, ?_⟩
    · simp only [findHeadersFrom, hget, haccept, if_neg hne, hfound, add_assoc]
    · rwa [drop_drop] at hspelled

theorem bodyEndOffFrom_spelled (h : Spelled h3FrameGet buf frames) (hfuel : buf.length ≤ fuel) :
    Spelled h3FrameGet (bodyEndOffFrom fuel buf)
      (frames.dropWhile fun f => f.type ≠ h3FrameData).tail := by
  induction frames generalizing buf fuel with
  | nil =>
    obtain ⟨rfl, hget⟩ := h.nil_get h3FrameGet_stable
    cases fuel with
    | zero => exact h
    | succ fuel => exact h
  | cons f frames ih =>
    obtain ⟨used, hget, hrest⟩ := h.cons_get
    obtain ⟨fuel, rfl, hlen⟩ := h3FrameGet_stable.advances.fuel_succ hget hfuel
    simp only [bodyEndOffFrom, hget]
    by_cases htype : f.type = h3FrameData
    · rw [if_pos htype, dropWhile_cons_of_neg (by simp [htype])]
      exact hrest
    · rw [if_neg htype, dropWhile_cons_of_pos (by simp [htype])]
      exact ih hrest hlen

def sectionOf (f : H3Frame) : Option (List UInt8) :=
  if f.type ≠ h3FrameHeaders then none else some f.payload

theorem trailerHeadersAt_spelled (h : Spelled h3FrameGet buf frames) :
    trailerHeadersAt buf = frames.head?.bind sectionOf := by
  cases frames with
  | nil => simp [trailerHeadersAt, (h.nil_get h3FrameGet_stable).2]
  | cons f frames =>
    obtain ⟨used, hget, -⟩ := h.cons_get
    simp [trailerHeadersAt, hget, sectionOf]

end

/-! ## The order check -/

def orderRun (s : OrderState) (frames : List H3Frame) : Except FrameReject OrderState :=
  frames.foldlM (fun s f => afterHeadersReject s f.type) s

variable {s : OrderState} {buf : List UInt8}

theorem orderRun_cons {f : H3Frame} {frames : List H3Frame} :
    orderRun s (f :: frames) = (afterHeadersReject s f.type).bind fun s' => orderRun s' frames := rfl

/-- The length of the DATA payloads. -/
def bodyOctets (buf : List UInt8) : Nat := ((decodeAll h3FrameGet buf).1.map dataOctets).sum

/-- The order walk takes the whole frames in order, whatever is left behind them. -/
theorem framesAfterHeadersFrom_whole {fuel : Nat} {dataLen : Nat} (hfuel : buf.length ≤ fuel) :
    ((framesAfterHeadersFrom fuel s dataLen buf).frameUnexpected = none ↔
        ∃ s', orderRun s (decodeAll h3FrameGet buf).1 = .ok s') ∧
      ((framesAfterHeadersFrom fuel s dataLen buf).frameUnexpected = none →
        (framesAfterHeadersFrom fuel s dataLen buf).dataLen = dataLen + bodyOctets buf) := by
  unfold bodyOctets
  induction buf using decodeAll_induction h3FrameGet_stable.advances
    generalizing fuel s dataLen with
  | hnone buf hget =>
    have hstop : framesAfterHeadersFrom fuel s dataLen buf = ⟨none, dataLen⟩ := by
      cases fuel with
      | zero => rfl
      | succ fuel => simp only [framesAfterHeadersFrom, hget]
    rw [decodeAll_none hget, hstop]
    exact ⟨iff_of_true rfl ⟨s, rfl⟩, fun _ => rfl⟩
  | hsome buf f used hget ih =>
    obtain ⟨fuel, rfl, hlen⟩ := h3FrameGet_stable.advances.fuel_succ hget hfuel
    rw [decodeAll_some h3FrameGet_stable.advances hget, orderRun_cons, map_cons,
      sum_cons, ← add_assoc]
    simp only [framesAfterHeadersFrom, hget]
    cases afterHeadersReject s f.type with
    | error reject => simp [Except.bind]
    | ok s' => exact ih hlen

section

variable {f : H3Frame} {s : OrderState} {frames : List H3Frame}

theorem afterHeadersReject_skipped (h : Skipped f) : afterHeadersReject s f.type = .ok s := by
  unfold afterHeadersReject
  rw [h.1, h.2]
  rfl

theorem frameReject_message {type : Nat} (h : isMessageFrame type = true) :
    h3reqdriveFrameReject type 1 = none := by
  simp only [isMessageFrame, Bool.or_eq_true, decide_eq_true_eq] at h
  rcases h with rfl | rfl <;> decide

theorem afterHeadersReject_message (h : isMessageFrame f.type = true) :
    afterHeadersReject s f.type =
      match h3reqOrderAccept s f.type with
      | none => .error .unexpected
      | some s' => .ok s' := by
  unfold afterHeadersReject
  rw [frameReject_message h, h]
  rfl

theorem afterHeadersReject_data (h : f.type = h3FrameData) :
    afterHeadersReject s f.type =
      match nextData s with
      | none => .error .unexpected
      | some s' => .ok s' := by
  rw [afterHeadersReject_message (by rw [h]; rfl), h]
  rfl

theorem afterHeadersReject_headers (h : f.type = h3FrameHeaders) :
    afterHeadersReject s f.type =
      match nextHeaders s with
      | none => .error .unexpected
      | some s' => .ok s' := by
  rw [afterHeadersReject_message (by rw [h]; rfl), h]
  rfl

theorem afterHeadersReject_other (hskip : ¬ Skipped f) (hdata : f.type ≠ h3FrameData)
    (hheaders : f.type ≠ h3FrameHeaders) : ∃ reject, afterHeadersReject s f.type = .error reject := by
  have hmessage : isMessageFrame f.type = false := by simp [isMessageFrame, hdata, hheaders]
  unfold afterHeadersReject
  cases hreject : h3reqdriveFrameReject f.type 1 with
  | none => exact absurd ⟨hreject, hmessage⟩ hskip
  | some reject => exact ⟨reject, rfl⟩

theorem orderRun_trailers :
    (∃ s', orderRun .trailers frames = .ok s') ↔ ∀ f ∈ frames, Skipped f := by
  induction frames with
  | nil => exact iff_of_true ⟨.trailers, rfl⟩ (by simp)
  | cons f frames ih =>
    rw [orderRun_cons, forall_mem_cons]
    by_cases hskip : Skipped f
    · rw [afterHeadersReject_skipped hskip]
      simpa [hskip, Except.bind] using ih
    · refine iff_of_false ?_ fun h => hskip h.1
      by_cases hdata : f.type = h3FrameData
      · rw [afterHeadersReject_data hdata]
        simp [nextData, Except.bind]
      by_cases hheaders : f.type = h3FrameHeaders
      · rw [afterHeadersReject_headers hheaders]
        simp [nextHeaders, Except.bind]
      obtain ⟨reject, hreject⟩ := afterHeadersReject_other hskip hdata hheaders
      rw [hreject]
      simp [Except.bind]

/-- What may stand behind the leading HEADERS frame. -/
def InOrderFrames (frames : List H3Frame) : Prop :=
  ∃ (body : List H3Frame) (trailer : Option (List UInt8)) (tail : List H3Frame),
    frames = body ++ trailer.toList.map (H3Frame.mk h3FrameHeaders) ++ tail ∧
      (∀ f ∈ body, f.type = h3FrameData ∨ Skipped f) ∧ ∀ f ∈ tail, Skipped f

theorem InOrderFrames.cons (hf : f.type = h3FrameData ∨ Skipped f) (h : InOrderFrames frames) :
    InOrderFrames (f :: frames) := by
  obtain ⟨body, trailer, tail, rfl, hbody, htail⟩ := h
  exact ⟨f :: body, trailer, tail, rfl, forall_mem_cons.mpr ⟨hf, hbody⟩, htail⟩

theorem Skipped.not_headers (h : Skipped f) : f.type ≠ h3FrameHeaders :=
  (h.findHeadersReject 0).2

theorem Skipped.not_data (h : Skipped f) : f.type ≠ h3FrameData := by
  intro he
  have := h.2
  rw [he] at this
  cases this

theorem InOrderFrames.of_cons (hf : f.type ≠ h3FrameHeaders) (h : InOrderFrames (f :: frames)) :
    (f.type = h3FrameData ∨ Skipped f) ∧ InOrderFrames frames := by
  obtain ⟨body, trailer, tail, hframes, hbody, htail⟩ := h
  cases body with
  | cons g body =>
    obtain ⟨rfl, rfl⟩ := List.cons.inj hframes
    rw [forall_mem_cons] at hbody
    exact ⟨hbody.1, body, trailer, tail, rfl, hbody.2, htail⟩
  | nil =>
    cases trailer with
    | some fs =>
      obtain ⟨rfl, -⟩ := List.cons.inj hframes
      exact absurd rfl hf
    | none =>
      obtain rfl : tail = f :: frames := hframes.symm
      rw [forall_mem_cons] at htail
      exact ⟨Or.inr htail.1, [], none, frames, rfl, by simp, htail.2⟩

theorem inOrderFrames_headers (hf : f.type = h3FrameHeaders) :
    InOrderFrames (f :: frames) ↔ ∀ g ∈ frames, Skipped g := by
  constructor
  · rintro ⟨body, trailer, tail, hframes, hbody, htail⟩
    cases body with
    | cons g body =>
      obtain ⟨rfl, -⟩ := List.cons.inj hframes
      rcases hbody f (mem_cons_self ..) with hdata | hskip
      · rw [hf] at hdata
        cases hdata
      · exact absurd hf hskip.not_headers
    | nil =>
      cases trailer with
      | some fs =>
        obtain ⟨-, rfl⟩ := List.cons.inj hframes
        exact htail
      | none =>
        obtain rfl : tail = f :: frames := hframes.symm
        exact absurd hf (htail f (mem_cons_self ..)).not_headers
  · intro h
    refine ⟨[], some f.payload, frames, ?_, by simp, h⟩
    rw [← hf]
    rfl

def BeforeTrailers : OrderState → Prop
  | .headers | .data => True
  | .start | .trailers => False

theorem orderRun_iff (hs : BeforeTrailers s) :
    (∃ s', orderRun s frames = .ok s') ↔ InOrderFrames frames := by
  induction frames generalizing s with
  | nil => exact iff_of_true ⟨s, rfl⟩ ⟨[], none, [], rfl, by simp, by simp⟩
  | cons f frames ih =>
    have hnext : nextHeaders s = some .trailers ∧ nextData s = some .data := by
      cases s with
      | headers | data => exact ⟨rfl, rfl⟩
      | start | trailers => exact hs.elim
    rw [orderRun_cons]
    by_cases hheaders : f.type = h3FrameHeaders
    · rw [afterHeadersReject_headers hheaders, hnext.1, inOrderFrames_headers hheaders]
      exact orderRun_trailers
    -- otherwise the frame belongs to the body, or it is rejected
    have hcons : InOrderFrames (f :: frames) ↔
        (f.type = h3FrameData ∨ Skipped f) ∧ InOrderFrames frames :=
      ⟨fun h => h.of_cons hheaders, fun h => h.2.cons h.1⟩
    rw [hcons]
    by_cases hdata : f.type = h3FrameData
    · rw [afterHeadersReject_data hdata, hnext.2]
      simpa [hdata, Except.bind] using ih (s := .data) trivial
    · by_cases hskip : Skipped f
      · rw [afterHeadersReject_skipped hskip]
        simpa [hskip, Except.bind] using ih hs
      · obtain ⟨reject, hreject⟩ := afterHeadersReject_other (s := s) hskip hdata hheaders
        rw [hreject]
        simp [hdata, hskip, Except.bind]

/-- **The order check** accepts, of whole frames, the sequences that the grammar has. -/
theorem orderOk_iff (h : Spelled h3FrameGet buf frames) :
    (h3reqdriveFramesAfterHeaders buf).frameUnexpected = none ↔ InOrderFrames frames := by
  unfold h3reqdriveFramesAfterHeaders
  rw [(framesAfterHeadersFrom_whole le_rfl).1, h.decodeAll_eq h3FrameGet_stable]
  exact orderRun_iff trivial

/-- A body and trailers. -/
theorem orderOk_trailers :
    (h3reqdriveFramesAfterHeaders [0x00, 0x01, 0xaa, 0x01, 0x00]).frameUnexpected = none := by
  have h : Spelled h3FrameGet [0x00, 0x01, 0xaa, 0x01, 0x00]
      [⟨h3FrameData, [0xaa]⟩, ⟨h3FrameHeaders, []⟩] :=
    .of_get h3FrameGet_stable rfl (.of_get h3FrameGet_stable rfl .nil)
  exact (orderOk_iff h).mpr ⟨[⟨h3FrameData, [0xaa]⟩], some [], [], rfl, by simp, by simp⟩

end

/-! ## The search for the trailer section -/

namespace RequestStream

variable (r : RequestStream)

def rest : List H3Frame := r.body ++ r.trailer.toList.map (H3Frame.mk h3FrameHeaders) ++ r.tail

theorem requestTrailer_lookup :
    requestTrailer r.bytes =
      (r.rest.dropWhile fun f => f.type ≠ h3FrameData).tail.head?.bind sectionOf := by
  have hwalk : ∃ n, findHeadersFrom r.bytes.length 0 r.bytes = .found r.headers (0 + n) ∧
      Spelled h3FrameGet (r.bytes.drop n) r.rest :=
    findHeadersFrom_spelled r.lead_skipped r.spelled le_rfl
  obtain ⟨n, hfound, hrest⟩ := hwalk
  have hframe : headersFrame r.bytes = some (r.headers, n) := by
    simp only [headersFrame, findHeaders, hfound, zero_add]
  have hend : headersEnd r.bytes = n := by simp [headersEnd, hframe]
  have hpos := headersFrame_stable.pos hframe
  rw [requestTrailer, hend, if_neg (by omega)]
  exact trailerHeadersAt_spelled (bodyEndOffFrom_spelled hrest le_rfl)

/-- Without a DATA frame the search runs past the trailer section. -/
theorem requestTrailer_no_data (h : ∀ f ∈ r.body, f.type ≠ h3FrameData) :
    requestTrailer r.bytes = none := by
  have hrest : r.rest.dropWhile (fun f => f.type ≠ h3FrameData) = [] := by
    apply dropWhile_eq_nil_iff.mpr
    intro f hf
    rw [decide_eq_true_eq]
    simp only [rest, mem_append, mem_map] at hf
    rcases hf with (hbody | ⟨fs, -, rfl⟩) | htail
    · exact h f hbody
    · exact (by decide : h3FrameHeaders ≠ h3FrameData)
    · exact (r.tail_skipped f htail).not_data
  rw [r.requestTrailer_lookup, hrest]
  rfl

/-- Otherwise it looks at the frame behind the first DATA frame. -/
theorem requestTrailer_data {pre post : List H3Frame} {d : H3Frame}
    (hbody : r.body = pre ++ d :: post) (hd : d.type = h3FrameData)
    (hpre : ∀ f ∈ pre, f.type ≠ h3FrameData) :
    requestTrailer r.bytes = if post = [] then r.trailer else none := by
  have hrest : r.rest.dropWhile (fun f => f.type ≠ h3FrameData) =
      d :: (post ++ r.trailer.toList.map (H3Frame.mk h3FrameHeaders) ++ r.tail) := by
    rw [rest, hbody, append_assoc, append_assoc,
      dropWhile_append_of_pos (by simpa using hpre), cons_append,
      dropWhile_cons_of_neg (by simp [hd]), append_assoc]
  rw [r.requestTrailer_lookup, hrest, tail_cons]
  cases post with
  | cons g post =>
    have hg : g ∈ r.body := by simp [hbody]
    have hne : g.type ≠ h3FrameHeaders := by
      rcases r.body_message g hg with hdata | hskip
      · rw [hdata]
        decide
      · exact hskip.not_headers
    simp [sectionOf, hne]
  | nil =>
    cases htrailer : r.trailer with
    | some fs => simp [sectionOf]
    | none =>
      cases htail : r.tail with
      | nil => rfl
      | cons g tail =>
        have hne := (r.tail_skipped g (by simp [htail])).not_headers
        simp [sectionOf, hne]

/-- The body ends with its only DATA frame. -/
def DataEndsBody : Prop :=
  ∃ pre d, r.body = pre ++ [d] ∧ d.type = h3FrameData ∧ ∀ f ∈ pre, f.type ≠ h3FrameData

/-- **Trailers** are found exactly when there are some, if and only if there are none, or the body
has a single DATA frame and nothing stands between it and them. -/
theorem requestTrailer_eq_iff :
    requestTrailer r.bytes = r.trailer ↔ r.trailer = none ∨ r.DataEndsBody := by
  have hcases : requestTrailer r.bytes = none ∨
      requestTrailer r.bytes = r.trailer ∧ r.DataEndsBody := by
    cases hfind : r.body.find? fun f => f.type = h3FrameData with
    | none => exact Or.inl (r.requestTrailer_no_data (by simpa using hfind))
    | some d =>
      obtain ⟨hd, pre, post, hbody, hpre⟩ := find?_eq_some_iff_append.mp hfind
      rw [decide_eq_true_eq] at hd
      have hpre : ∀ f ∈ pre, f.type ≠ h3FrameData := by simpa using hpre
      rw [r.requestTrailer_data hbody hd hpre]
      by_cases hpost : post = []
      · exact Or.inr ⟨if_pos hpost, pre, d, by rw [hbody, hpost], hd, hpre⟩
      · exact Or.inl (if_neg hpost)
  constructor
  · intro h
    rcases hcases with hnone | ⟨-, hends⟩
    · exact Or.inl (h.symm.trans hnone)
    · exact Or.inr hends
  · rintro (h | ⟨pre, d, hbody, hd, hpre⟩)
    · rcases hcases with hnone | ⟨hfound, -⟩
      · exact hnone.trans h.symm
      · exact hfound
    · exact (r.requestTrailer_data hbody hd hpre).trans (if_pos rfl)

end RequestStream

/-- A request of a HEADERS frame and a trailer section, without a body. -/
def bodylessTrailer : RequestStream where
  bytes := [0x01, 0x00, 0x01, 0x01, 0xaa]
  lead := []
  headers := []
  body := []
  trailer := some [0xaa]
  tail := []
  lead_skipped := by simp
  body_message := by simp
  tail_skipped := by simp
  spelled := by
    have hheaders : Codes h3FrameGet [0x01, 0x00] ⟨h3FrameHeaders, []⟩ :=
      Codes.of_decoded h3FrameGet_stable (by decide)
    have htrailer : Codes h3FrameGet [0x01, 0x01, 0xaa] ⟨h3FrameHeaders, [0xaa]⟩ :=
      Codes.of_decoded h3FrameGet_stable (by decide)
    exact Spelled.cons hheaders (Spelled.one htrailer)

/-- Its trailer section is not found. -/
theorem bodylessTrailer_missed :
    bodylessTrailer.trailer = some [0xaa] ∧ requestTrailer bodylessTrailer.bytes = none := by
  refine ⟨rfl, ?_⟩
  decide

end Wired.Http3
