import Wired.Http3.BodyStream
import Wired.Http3.RequestFrames

/-!
# The frames behind the leading HEADERS

Two walks judge the frames of a request behind its leading HEADERS: the body window, which reads
one frame header after the other and keeps the denied types as bits, and
`h3reqdrive_frames_after_headers`, which reads whole frames and keeps an order state. Both are
brought here to the list of whole frames at the head of the bytes, `decodeAll h3FrameGet`
(`parseBody_done_iff`, `findBodyView_isSome_iff`).
-/

namespace Wired.Http3

open Lib List

/-! ## Frame headers and whole frames -/

section

variable {b : List UInt8} {type len n : Nat}

theorem h3FrameGet_of_head (hhead : h3frameGetHead b = some ((type, len), n))
    (hlen : len ≤ (b.drop n).length) :
    h3FrameGet b = some (⟨type, (b.drop n).take len⟩, n + len) := by
  refine Stable.andThen_eq_some.mpr ⟨(type, len), n, len, hhead, ?_, rfl⟩
  rw [framePayload, if_neg (Nat.not_lt.mpr hlen)]

end

/-! ## Denied types and order states -/

/-- The types that the window denies where the order walk is in a state. -/
def denyOf : OrderState → Nat
  | .trailers => 0x3
  | _ => 0

/-- The window's parser and the order walk have seen the same frames of the message. -/
structure Matches (p : BodyParser) (s : OrderState) : Prop where
  started : s ∈ [OrderState.headers, .data, .trailers]
  deny : p.deny = denyOf s

theorem reject_defined : ∀ type < 14, ∀ s ∈ [OrderState.headers, .data, .trailers],
    decide (bodywinReject { bodywinEmpty with deny := denyOf s } type = .open) =
      (afterHeadersReject s type).toOption.isSome := by
  decide

theorem denyOf_defined : ∀ type < 14, ∀ s ∈ [OrderState.headers, .data, .trailers],
    ∀ s' ∈ (afterHeadersReject s type).toOption,
      s' ∈ [OrderState.headers, .data, .trailers] ∧
        denyOf s' = denyOf s ||| (if type = h3FrameHeaders then 0x3 else 0) := by
  decide

variable {type : Nat} {f : H3Frame} {s : OrderState} {b : List UInt8} {p : BodyParser}

/-- Behind the table only the WebTransport signal is refused, and nothing changes the state. -/
theorem afterHeadersReject_unknown (htype : 14 ≤ type) (s : OrderState) :
    afterHeadersReject s type =
      if type = h3StreamWebtransportBidi then .error .frameError else .ok s := by
  have hmask : permitMask type = [.control, .request, .push] := by
    unfold permitMask h3FrameData h3FrameHeaders h3FrameCancelPush h3FrameSettings
      h3FramePushPromise h3FrameGoaway h3FrameMaxPushId
    rw [if_neg (by omega), if_neg (by omega), if_neg (by omega), if_neg (by omega)]
  have hrecv : h3FrameRecvOk type = true := by
    have hpush : type ≠ h3FramePushPromise := by
      unfold h3FramePushPromise
      omega
    have hreserved : type ∉ [0x02, 0x06, 0x08, 0x09] := by
      simp only [mem_cons, not_mem_nil, or_false]
      omega
    simp [h3FrameRecvOk, isHttp2OnlyReserved, hpush, hreserved]
  have hmessage : isMessageFrame type = false := by
    have hheaders : type ≠ h3FrameHeaders := by
      unfold h3FrameHeaders
      omega
    have hdata : type ≠ h3FrameData := by
      unfold h3FrameData
      omega
    simp [isMessageFrame, hheaders, hdata]
  unfold afterHeadersReject h3reqdriveFrameReject h3FrameOnStream
  rw [hmask, hrecv, hmessage]
  by_cases hsignal : type = h3StreamWebtransportBidi
  · simp [hsignal]
  · simp [hsignal]

theorem bodywinReject_unknown (htype : 14 ≤ type) (w : Bodywin) :
    bodywinReject w type = if type = h3StreamWebtransportBidi then .wtSignal else .open := by
  have hforbidden : bodywinForbidden w type = false := by
    rw [bodywinForbidden, decide_eq_false (Nat.not_lt.mpr htype), Bool.false_and]
  rw [bodywinReject, hforbidden]
  rfl

section

variable {p : BodyParser} {s s' : OrderState} {type : Nat}

theorem Matches.reject_iff (h : Matches p s) (type : Nat) :
    p.reject type = .open ↔ ∃ s', afterHeadersReject s type = .ok s' := by
  unfold BodyParser.reject
  rw [h.deny]
  rcases Nat.lt_or_ge type 14 with hlt | hge
  · rw [← decide_eq_true_iff (p := _ = BodywinState.open), reject_defined type hlt s h.started]
    cases afterHeadersReject s type <;> simp [Except.toOption]
  · rw [bodywinReject_unknown hge, afterHeadersReject_unknown hge]
    by_cases hsignal : type = h3StreamWebtransportBidi
    · simp [hsignal]
    · simp [hsignal]

theorem Matches.enter (h : Matches p s) (hs : afterHeadersReject s type = .ok s') (len left : Nat) :
    Matches { p.enter type len with left := left } s' := by
  rcases Nat.lt_or_ge type 14 with hlt | hge
  · have hmem : s' ∈ (afterHeadersReject s type).toOption := by
      rw [hs]
      rfl
    obtain ⟨hstarted, hdeny⟩ := denyOf_defined type hlt s h.started s' hmem
    refine ⟨hstarted, ?_⟩
    rw [hdeny, ← h.deny]
    rfl
  · rw [afterHeadersReject_unknown hge] at hs
    split at hs
    · cases hs
    cases hs
    refine ⟨h.started, ?_⟩
    have hne : type ≠ h3FrameHeaders := by
      unfold h3FrameHeaders
      omega
    simp only [BodyParser.enter, if_neg hne, Nat.or_zero]
    exact h.deny

end

/-! ## The body window -/

/-- The bytes are whole frames to the end. -/
def WholeFrames (b : List UInt8) : Prop := (decodeAll h3FrameGet b).2 = b.length

theorem orderRun_cons_ok {s' : OrderState} {frames : List H3Frame}
    (hs : afterHeadersReject s f.type = .ok s') :
    orderRun s (f :: frames) = orderRun s' frames := by
  rw [orderRun_cons, hs]
  rfl

theorem wholeFrames_of_get {used : Nat}
    (hget : h3FrameGet b = some (f, used)) : WholeFrames b ↔ WholeFrames (b.drop used) := by
  have hle := h3FrameGet_stable.le hget
  unfold WholeFrames
  rw [decodeAll_some h3FrameGet_stable.advances hget, length_drop]
  omega

theorem wholeFrames_of_none (hget : h3FrameGet b = none) : WholeFrames b ↔ b = [] := by
  unfold WholeFrames
  rw [decodeAll_none hget, eq_comm, length_eq_zero_iff]

theorem parseBody_frame (hleft : p.left = 0) {len n : Nat}
    (hhead : h3frameGetHead b = some ((type, len), n)) (hlen : len ≤ (b.drop n).length)
    (hok : p.reject type = .open) :
    parseBody p b =
      (parseBody { p.enter type len with left := 0 } (b.drop (n + len))).prepend
        ((p.enter type len).payload len (b.drop n)) := by
  rw [parseBody_head hleft hhead, if_pos hok, parseBody_payload (k := len) le_rfl hlen,
    drop_drop]
  congr 3
  exact Nat.sub_self len

theorem payload_length (p : BodyParser) (b : List UInt8) (type len : Nat) :
    ((p.enter type len).payload len b).length = dataOctets ⟨type, b.take len⟩ := by
  simp only [BodyParser.payload, BodyParser.enter, decide_eq_true_eq, dataOctets]
  split
  · rfl
  · rfl

theorem BodyParser.reject_ne_done (p : BodyParser) (type : Nat) : p.reject type ≠ .done := by
  intro hdone
  rcases bodywinReject_cases { bodywinEmpty with deny := p.deny } type with h | h | h
  all_goals exact BodywinState.noConfusion (h.symm.trans hdone)

/-- The window is done with a body whose frames are whole and in order, and with no other. -/
theorem parseBody_done_iff (hm : Matches p s) (hleft : p.left = 0) :
    ((parseBody p b).state = .done ↔
        WholeFrames b ∧ ∃ s', orderRun s (decodeAll h3FrameGet b).1 = .ok s') ∧
      ((parseBody p b).state = .done → (parseBody p b).data.length = bodyOctets b) := by
  induction b using decodeAll_induction h3FrameGet_stable.advances generalizing p s with
  | hnone b hget =>
    rw [wholeFrames_of_none hget]
    have hoctets : bodyOctets b = 0 := by
      rw [bodyOctets, decodeAll_none hget]
      rfl
    rw [decodeAll_none hget, hoctets]
    cases hhead : h3frameGetHead b with
    | none =>
      rw [parseBody_none hleft hhead]
      have hrun : ∃ s', orderRun s [] = .ok s' := ⟨s, rfl⟩
      by_cases hb : b = []
      · simp [hb, hrun]
      · simp [hb]
    | some r =>
      -- a header without its payload: the window is cut, or refuses the type
      obtain ⟨⟨type, len⟩, n⟩ := r
      have hne : b ≠ [] := by
        rintro rfl
        cases hhead
      have hcut : (b.drop n).length < len := by
        by_contra hge
        rw [h3FrameGet_of_head hhead (Nat.not_lt.mp hge)] at hget
        cases hget
      have hstate : (parseBody p b).state ≠ .done := by
        by_cases hok : p.reject type = .open
        · have hcut' : (b.drop n).length < (p.enter type len).left := hcut
          rw [parseBody_head hleft hhead, if_pos hok, parseBody, if_pos hcut']
          exact fun h => BodywinState.noConfusion h
        · rw [parseBody_head hleft hhead, if_neg hok]
          exact p.reject_ne_done type
      simp [hstate, hne]
  | hsome b f used hget ih =>
    obtain ⟨⟨type, m⟩, n, len, hhead, hpayload, rfl⟩ := Stable.andThen_eq_some.mp hget
    obtain ⟨hlen, rfl, rfl⟩ := takeBytes_eq_some (n := m) (f := H3Frame.mk type) hpayload
    have hall := decodeAll_some h3FrameGet_stable.advances hget
    have hoctets : bodyOctets b =
        dataOctets ⟨type, (b.drop n).take len⟩ + bodyOctets (b.drop (n + len)) := by
      simp only [bodyOctets, hall, map_cons, sum_cons]
    rw [wholeFrames_of_get hget, hall, hoctets]
    by_cases hok : p.reject type = .open
    · obtain ⟨s', hs'⟩ := (hm.reject_iff type).mp hok
      obtain ⟨hdone, hdata⟩ := ih (hm.enter hs' len 0) rfl
      rw [parseBody_frame hleft hhead hlen hok, orderRun_cons_ok hs']
      refine ⟨hdone, ?_⟩
      intro hstate
      rw [BodyResult.prepend_data, length_append, payload_length, hdata hstate]
    · have hrun : ¬ ∃ s', orderRun s (⟨type, (b.drop n).take len⟩ ::
          (decodeAll h3FrameGet (b.drop (n + len))).1) = .ok s' := by
        rintro ⟨s', hrun⟩
        rw [orderRun_cons] at hrun
        cases hreject : afterHeadersReject s type with
        | ok s'' => exact hok ((hm.reject_iff type).mpr ⟨s'', hreject⟩)
        | error e =>
          rw [hreject] at hrun
          cases hrun
      have hstate : (parseBody p b).state ≠ .done := by
        rw [parseBody_head hleft hhead, if_neg hok]
        exact p.reject_ne_done type
      simp [hstate, hrun]

/-! ## The walks over whole frames -/

/-- The search for the body fails only at a cut frame ahead of every DATA frame. -/
theorem findBodyViewFrom_isSome_iff {buf : List UInt8} {fuel : Nat} (hfuel : buf.length ≤ fuel) :
    (findBodyViewFrom fuel buf).isSome = true ↔
      (∃ f ∈ (decodeAll h3FrameGet buf).1, f.type = h3FrameData) ∨ WholeFrames buf := by
  induction buf using decodeAll_induction h3FrameGet_stable.advances generalizing fuel with
  | hnone buf hget =>
    rw [wholeFrames_of_none hget, decodeAll_none hget]
    cases fuel with
    | zero =>
      have hbuf : buf = [] := eq_nil_of_length_eq_zero (by omega)
      simp [findBodyViewFrom, hbuf]
    | succ fuel =>
      by_cases hbuf : buf = []
      · simp [findBodyViewFrom, hbuf]
      · simp [findBodyViewFrom, hbuf, hget]
  | hsome buf f used hget ih =>
    obtain ⟨fuel, rfl, hlen⟩ := h3FrameGet_stable.advances.fuel_succ hget hfuel
    have hbuf : buf ≠ [] := by
      rintro rfl
      cases hget
    rw [wholeFrames_of_get hget, decodeAll_some h3FrameGet_stable.advances hget]
    simp only [findBodyViewFrom, hbuf, if_false, hget, mem_cons, exists_eq_or_imp]
    by_cases hdata : f.type = h3FrameData
    · simp [hdata]
    · simp only [hdata, if_false, false_or]
      exact ih hlen

theorem findBodyView_isSome_iff (buf : List UInt8) :
    (findBodyView buf).isSome = true ↔
      (∃ f ∈ (decodeAll h3FrameGet buf).1, f.type = h3FrameData) ∨ WholeFrames buf :=
  findBodyViewFrom_isSome_iff le_rfl

end Wired.Http3
