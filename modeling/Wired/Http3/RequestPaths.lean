import Wired.Http3.BodyFrames
import Wired.Http3.RequestDrive

/-!
# The two paths of a request

The buffered path decodes the whole of a request stream (`wired_h3reqdrive_recv_h3`). The streaming
path decodes the leading HEADERS alone and hands the body on chunk by chunk, with the
Content-Length checked at each (`route_body_sink`). The buffered path accepts on top of what the
streaming path does the streams that end inside of a frame behind a DATA frame
(`paths_agree_iff`, `cut_frame_only_buffered`).
-/

namespace Wired.Http3

open Lib Qpack List Option

/-! ## The Content-Length of a streamed body -/

def h3ContentLengthOk (declared actual : Nat) : Bool := declared = actual

def h3ContentLengthExceeded (declared receivedSoFar : Nat) : Bool := receivedSoFar > declared

def h3MessageError : Nat := 0x010e

def routeBodyLengthOk (declared : Nat) (r : H3Req) (n : Nat) (fin : Bool) : H3Req × Bool :=
  let r := { r with dataLen := r.dataLen + n }
  (r, !h3ContentLengthExceeded declared r.dataLen &&
    (!fin || h3ContentLengthOk declared r.dataLen))

def routeBodyClOk (r : H3Req) (n : Nat) (fin : Bool) : H3Req × Bool :=
  match r.contentLength with
  | none => (r, true)
  | some declared => routeBodyLengthOk declared r n fin

/-- The application, the request of the slot and its `reject_code`. -/
structure BodySlot (τ : Type) where
  app : τ
  req : H3Req
  rejectCode : Nat

variable {τ σ : Type}

/-- A chunk that breaks the Content-Length is not delivered. -/
def routeBodySink (onBody : BodywinSink τ) : BodywinSink (BodySlot τ) := fun c chunk fin =>
  let checked := routeBodyClOk c.req chunk.length fin
  if !checked.2 then ({ c with req := checked.1, rejectCode := h3MessageError }, false)
  else
    let answer := onBody c.app chunk fin
    ({ c with req := checked.1, app := answer.1 }, answer.2)

def lengthAnswer (declared : Option Nat) (total : Nat) (fin : Bool) : Bool :=
  match declared with
  | none => true
  | some d => total ≤ d && (!fin || d = total)

/-- The sink has counted the bytes of its calls, and answers the last one by the count. -/
structure Counts (declared : Option Nat) (c : BodySlot τ × List BodyCall) : Prop where
  declared_eq : c.1.req.contentLength = declared
  counted : declared ≠ none → c.1.req.dataLen = (bytesOf c.2).length
  answered : ∀ last ∈ c.2.getLast?,
    last.answer = lengthAnswer declared (bytesOf c.2).length last.fin

theorem routeBodyClOk_spec (r : H3Req) (n : Nat) (fin : Bool) :
    (routeBodyClOk r n fin).2 = lengthAnswer r.contentLength (r.dataLen + n) fin ∧
      (routeBodyClOk r n fin).1.contentLength = r.contentLength ∧
      (r.contentLength ≠ none → (routeBodyClOk r n fin).1.dataLen = r.dataLen + n) := by
  unfold routeBodyClOk
  split
  · rename_i hcl
    exact ⟨by rw [hcl]; rfl, rfl, fun h => absurd hcl h⟩
  · rename_i d hcl
    refine ⟨?_, rfl, fun _ => rfl⟩
    have hle : (!decide (d < r.dataLen + n)) = decide (r.dataLen + n ≤ d) := by
      rw [← decide_not]
      exact decide_eq_decide.mpr not_lt
    rw [hcl]
    simp only [routeBodyLengthOk, h3ContentLengthExceeded, h3ContentLengthOk, gt_iff_lt,
      lengthAnswer, hle]

variable {onBody : BodywinSink τ}

theorem routeBodySink_spec (htake : ∀ a chunk fin, (onBody a chunk fin).2 = true) (c : BodySlot τ)
    (chunk : List UInt8) (fin : Bool) :
    (routeBodySink onBody c chunk fin).2 =
        lengthAnswer c.req.contentLength (c.req.dataLen + chunk.length) fin ∧
      (routeBodySink onBody c chunk fin).1.req = (routeBodyClOk c.req chunk.length fin).1 := by
  rw [← (routeBodyClOk_spec c.req chunk.length fin).1]
  unfold routeBodySink
  cases hok : (routeBodyClOk c.req chunk.length fin).2 with
  | false => simp [hok]
  | true => simp [hok, htake]

theorem Counts.call {declared : Option Nat} {c : BodySlot τ × List BodyCall}
    (htake : ∀ a chunk fin, (onBody a chunk fin).2 = true) (h : Counts declared c)
    (chunk : List UInt8) (fin : Bool) :
    Counts declared (logged (routeBodySink onBody) c chunk fin).1 := by
  obtain ⟨hanswer, hreq⟩ := routeBodySink_spec htake c.1 chunk fin
  obtain ⟨-, hdeclared, hcount⟩ := routeBodyClOk_spec c.1.req chunk.length fin
  rw [h.declared_eq] at hanswer hdeclared hcount
  have hlen : declared ≠ none →
      (bytesOf c.2 ++ chunk).length = c.1.req.dataLen + chunk.length := by
    intro hne
    rw [length_append, h.counted hne]
  unfold logged
  refine ⟨?_, ?_, ?_⟩
  · rw [hreq]
    exact hdeclared
  · intro hne
    rw [bytesOf_append, hlen hne, hreq]
    exact hcount hne
  · intro last hlast
    rw [getLast?_concat] at hlast
    cases hlast
    rw [bytesOf_append]
    cases declared with
    | none => exact hanswer
    | some d =>
      rw [hlen (some_ne_none d)]
      exact hanswer

/-! ## What every call keeps -/

section

variable {P : σ → Prop} {fn : BodywinSink σ}

theorem bodywinStep_ctx (hfn : ∀ c chunk fin, P c → P (fn c chunk fin).1) {r : BodywinRun σ}
    (h : P r.ctx) : P (bodywinStep fn r).1.ctx := by
  unfold bodywinStep
  split
  · unfold bodywinPayload
    dsimp only
    split
    · exact h
    · unfold bodywinDeliver
      split
      · exact hfn _ _ _ h
      · exact h
  · unfold bodywinHeader
    split
    · exact h
    · dsimp only
      split
      · exact h
      · exact h

theorem bodywinPump_ctx (hfn : ∀ c chunk fin, P c → P (fn c chunk fin).1) (s : Windowed) {ctx : σ}
    (h : P ctx) : P (bodywinPump fn s ctx).2 := by
  have hloop : P (bodywinLoop fn ((readCells s.buf (bodywinAvail s.w)).length + 1)
      { w := s.w, avail := readCells s.buf (bodywinAvail s.w), pos := 0, ctx := ctx }).ctx :=
    bodywinLoop_invariant (P := fun r => P r.ctx) (fun _ hr => bodywinStep_ctx hfn hr) _ h
  unfold bodywinPump
  dsimp only
  unfold bodywinEnd
  split
  · exact hloop
  · split
    · exact hloop
    · exact hfn _ _ _ hloop

end

theorem Counts.step {declared : Option Nat} (htake : ∀ a chunk fin, (onBody a chunk fin).2 = true)
    (S : List UInt8) (t : BodyTrace (BodySlot τ)) (op : BodyOp) (h : Counts declared t.ctx) :
    Counts declared (bodyStep S (routeBodySink onBody) t op).ctx := by
  cases op with
  | land off len fin => exact h
  | start => exact h
  | pump =>
    simp only [bodyStep]
    split
    · exact bodywinPump_ctx (fun c chunk fin hc => hc.call htake chunk fin) t.s h
    · exact h

/-! ## A body that has arrived -/

/-- Every byte of the stream is in one of the pieces that land, and one of them brings the end. -/
structure BodyArrived (S : List UInt8) (ops : List BodyOp) : Prop where
  bytes : ∀ o < S.length, ∃ off len fin, BodyOp.land off len fin ∈ ops ∧ off ≤ o ∧ o < off + len
  fin : ∃ off len, BodyOp.land off len true ∈ ops ∧ S.length ≤ off + len

/-- A run of the window that starts and pumps once more at its end, as behind every payload. -/
def streamedTrace (S : List UInt8) (fn : BodywinSink σ) (buf : Nat → UInt8) (ctx : σ)
    (ops : List BodyOp) : BodyTrace σ :=
  (ops ++ [BodyOp.start, BodyOp.pump]).foldl (bodyStep S fn) (bodyTraceEmpty buf ctx)

variable {o off len : Nat} {buf : Nat → UInt8} {ops : List BodyOp}

section

variable {S : List UInt8} {fn : BodywinSink σ} {t : BodyTrace σ}

def BodyReached (t : BodyTrace σ) (o : Nat) : Prop := o < t.s.w.base ∨ t.got o = true

theorem BodyReached.step (hinv : BodyInv S t) (h : BodyReached t o) (op : BodyOp) :
    BodyReached (bodyStep S fn t op) o := by
  rcases h with hread | hgot
  · exact .inl (lt_of_lt_of_le hread (hinv.base_le fn op))
  · right
    cases op with
    | land off len fin => simp only [bodyStep, hgot, Bool.true_or]
    | start => exact hgot
    | pump =>
      simp only [bodyStep]
      split
      · exact hgot
      · exact hgot

/-- In a stream that fits in the window, a byte that lands is inside of it or was read before. -/
theorem reached_of_land {fin : Bool} (hfit : S.length ≤ bodywinCap) (hinv : BodyInv S t)
    (ho : o < S.length) (hoff : off ≤ o) (hlen : o < off + len) :
    BodyReached (bodyStep S fn t (.land off len fin)) o := by
  by_cases hread : o < t.s.w.base
  · exact .inl (lt_of_lt_of_le hread (hinv.base_le fn _))
  · right
    have hend := fragment_end S off len fin
    have hstart : (fragment S off len fin).off = min off S.length := rfl
    have hin : bodywinIn t.s.w o = true := by
      simp only [bodywinIn, Bool.and_eq_true, decide_eq_true_eq, ge_iff_le]
      omega
    have hcover : (fragment S off len fin).off ≤ o ∧
        o < (fragment S off len fin).off + (fragment S off len fin).data.length := by
      omega
    simp only [bodyStep, hin, decide_eq_true hcover, Bool.and_true, Bool.or_true]

theorem fin_step (h : t.s.w.fin = true) (op : BodyOp) : (bodyStep S fn t op).s.w.fin = true := by
  cases op with
  | land off len fin => simp only [bodyStep, landFragment, bodywinLand_w, h, Bool.true_or]
  | start =>
    simp only [bodyStep, routeBodyBegin]
    split
    · exact h
    · exact h
  | pump =>
    simp only [bodyStep]
    split
    · simp only [bodywinPump]
      rw [(bodywinEnd_same (logged fn) _ _).fin]
      exact (bodywinLoop_same (logged fn) _ _).fin.trans h
    · exact h

theorem fin_of_land (h : S.length ≤ off + len) :
    (bodyStep S fn t (.land off len true)).s.w.fin = true := by
  simp only [bodyStep, landFragment, bodywinLand_w, fragment, decide_eq_true h, Bool.and_true,
    Bool.or_true]

theorem reached_run (ops : List BodyOp) (hinv : BodyInv S t) (h : BodyReached t o) :
    BodyReached (ops.foldl (bodyStep S fn) t) o := by
  have hstep : ∀ (t : BodyTrace σ) (op : BodyOp), BodyInv S t ∧ BodyReached t o →
      BodyInv S (bodyStep S fn t op) ∧ BodyReached (bodyStep S fn t op) o := by
    rintro t op ⟨hinv, h⟩
    exact ⟨hinv.step fn op, h.step hinv op⟩
  exact (foldl_invariant hstep ops ⟨hinv, h⟩).2

theorem settles_of_arrived {ctx : σ} (hfit : S.length ≤ bodywinCap) (hhead : headersEnd S ≠ 0)
    (harr : BodyArrived S ops) : (streamedTrace S fn buf ctx ops).s.w.state ≠ .open := by
  rw [streamedTrace, foldl_append]
  have hinv : ∀ ops' : List BodyOp,
      BodyInv S (ops'.foldl (bodyStep S fn) (bodyTraceEmpty buf ctx)) :=
    BodyInv.run S buf fn ctx
  refine (hinv ops).settles fn hhead ?_ ?_
  · intro o ho
    obtain ⟨off, len, fin, hop, hoff, hlen⟩ := harr.bytes o ho
    obtain ⟨pre, post, rfl⟩ := append_of_mem hop
    rw [foldl_append, foldl_cons]
    exact reached_run post ((hinv pre).step fn _) (reached_of_land hfit (hinv pre) ho hoff hlen)
  · obtain ⟨off, len, hop, hend⟩ := harr.fin
    obtain ⟨pre, post, rfl⟩ := append_of_mem hop
    rw [foldl_append, foldl_cons]
    have hstep : ∀ (t : BodyTrace σ) (op : BodyOp), t.s.w.fin = true →
        (bodyStep S fn t op).s.w.fin = true := fun _ op h => fin_step h op
    exact foldl_invariant hstep post (fin_of_land hend)

end

theorem streamed_done_iff {S : List UInt8} {slot : BodySlot τ}
    (htake : ∀ a chunk fin, (onBody a chunk fin).2 = true) (hfit : S.length ≤ bodywinCap)
    (hhead : headersEnd S ≠ 0) (harr : BodyArrived S ops) (hzero : slot.req.dataLen = 0) :
    (streamedTrace S (routeBodySink onBody) buf slot ops).s.w.state = .done ↔
      (wholeBody S).state = .done ∧
        ∀ d, slot.req.contentLength = some d → d = (wholeBody S).data.length := by
  have hsettled : (streamedTrace S (routeBodySink onBody) buf slot ops).s.w.state ≠ .open :=
    settles_of_arrived hfit hhead harr
  have hinv : BodyInv S (streamedTrace S (routeBodySink onBody) buf slot ops) :=
    BodyInv.run S buf (routeBodySink onBody) slot _
  have hempty : Counts slot.req.contentLength (bodyTraceEmpty buf slot).ctx := by
    refine ⟨rfl, fun _ => hzero, ?_⟩
    intro last hlast
    cases hlast
  have hcounts : Counts slot.req.contentLength
      (streamedTrace S (routeBodySink onBody) buf slot ops).ctx :=
    foldl_invariant (I := fun t => Counts slot.req.contentLength t.ctx)
      (fun t op h => Counts.step htake S t op h) _ hempty
  generalize streamedTrace S (routeBodySink onBody) buf slot ops = t
    at hsettled hinv hcounts ⊢
  have hon : t.s.w.on = true := by
    by_contra hoff
    exact hsettled (hinv.before (by simpa using hoff)).2.2.1
  have hprogress := hinv.during hon
  generalize t.s.w.state = state at hsettled hprogress ⊢
  have hlast := hcounts.answered
  generalize t.ctx.2 = calls at hprogress hlast
  generalize slot.req.contentLength = declared at hlast ⊢
  cases hprogress with
  | reading => exact absurd rfl hsettled
  | failed hcalls hwhole hstate =>
    rw [hwhole]
    have hne : state ≠ .done := by
      rintro rfl
      simp at hstate
    exact iff_of_false hne fun h => hne h.1
  | @finished calls last hcalls hfin hanswer hwhole =>
    refine iff_of_true rfl ⟨by rw [hwhole], ?_⟩
    rintro d rfl
    have hcheck := hlast last (by rw [getLast?_concat]; rfl)
    rw [hanswer, hfin] at hcheck
    rw [hwhole]
    simpa using (Bool.and_eq_true_iff.mp hcheck.symm).2
  | @refused calls last hcalls hanswer hdata hend =>
    refine iff_of_false (fun h => BodywinState.noConfusion h) ?_
    rintro ⟨-, hlength⟩
    have hcheck := hlast last (by rw [getLast?_concat]; rfl)
    rw [hanswer] at hcheck
    cases declared with
    | none => cases hcheck
    | some d =>
      have hd := hlength d rfl
      have hle := hdata.length_le
      have htotal : last.fin = true → d = (bytesOf (calls ++ [last])).length := by
        intro hfin
        rw [(hend hfin).1]
        exact hd
      rw [← hd] at hle
      simp only [lengthAnswer, decide_eq_true hle, Bool.true_and] at hcheck
      cases hfin : last.fin with
      | false => simp [hfin] at hcheck
      | true =>
        rw [hfin, decide_eq_true (htotal hfin)] at hcheck
        cases hcheck

/-! ## The fields do not depend on the body -/

def withBody (dataLen : Nat) (body : Option (List UInt8)) (r : H3Req) : H3Req :=
  { r with dataLen := dataLen, body := body }

section

variable (d : Nat) (body : Option (List UInt8))

theorem classifyRegular_withBody (l : Field) (r : H3Req) :
    classifyRegular l (withBody d body r) = withBody d body (classifyRegular l r) := by
  have horigin : takeOrigin l (withBody d body r) = withBody d body (takeOrigin l r) := by
    unfold takeOrigin
    rw [apply_ite (withBody d body)]
    rfl
  have havail : ∀ r : H3Req,
      takeWtAvail l (withBody d body r) = withBody d body (takeWtAvail l r) := by
    intro r
    unfold takeWtAvail
    rw [apply_ite (withBody d body), apply_ite (withBody d body)]
    rfl
  have hcookie : ∀ r : H3Req,
      takeCookie l (withBody d body r) = withBody d body (takeCookie l r) := by
    intro r
    unfold takeCookie
    rw [apply_ite (withBody d body), apply_ite (withBody d body)]
    rfl
  unfold classifyRegular
  rw [horigin, havail, hcookie]

theorem classifyLine_withBody (l : Field) (r : H3Req) :
    h3reqdriveClassifyLine l (withBody d body r) =
      withBody d body (h3reqdriveClassifyLine l r) := by
  have hregular := classifyRegular_withBody d body l r
  unfold h3reqdriveClassifyLine
  cases h3PhClassify l.name with
  | method | scheme | authority | path | protocol => rfl
  | none | status | unknown => exact hregular

theorem rdRecord_withBody (scr base : Nat) (l : RLine) (field : Field) (cur : RdCursor)
    (r : H3Req) :
    rdRecord scr base l field cur (withBody d body r) =
      ((rdRecord scr base l field cur r).1,
        withBody d body (rdRecord scr base l field cur r).2) := by
  have hkeeps : rdKeeps field (withBody d body r) = rdKeeps field r := rfl
  unfold rdRecord
  rw [hkeeps]
  split
  · rfl
  · dsimp only
    split
    · rfl
    · rfl

theorem scanLinesFrom_withBody (scr : Nat) (s : QdynSrc) (fuel : Nat) (rest : List UInt8)
    (cur : RdCursor) (r : H3Req) :
    scanLinesFrom scr s fuel rest cur (withBody d body r) =
      (scanLinesFrom scr s fuel rest cur r).map fun out => (out.1, withBody d body out.2) := by
  induction fuel generalizing rest cur r with
  | zero => rfl
  | succ fuel ih =>
    unfold scanLinesFrom
    split
    · rfl
    · unfold h3reqdriveStepLine
      dsimp only
      cases (h3reqdriveDecodeLine rest (scr - cur.used) s).line with
      | none => rfl
      | some out =>
        obtain ⟨l, c⟩ := out
        dsimp only
        rw [classifyLine_withBody, rdRecord_withBody]
        cases h3reqdriveLineOk (trimLine l) with
        | false => rfl
        | true => exact ih _ _ _

theorem decodeLines_withBody (fs : List UInt8) (scr : Nat) (dyn : QpackDyn) (r : H3Req) :
    decodeLines fs scr dyn (withBody d body r) =
      (decodeLines fs scr dyn r).map fun out => (out.1, withBody d body out.2) := by
  unfold decodeLines
  cases h3reqdrivePrefixBase fs dyn with
  | none => rfl
  | some out =>
    obtain ⟨s, off⟩ := out
    have hscan := scanLinesFrom_withBody d body scr s (fs.drop off).length
      (fs.drop off) { used := 0, ph := h3PhInit, lines := [] } { r with qpackRic := s.ric }
    dsimp only
    unfold h3reqdriveScanLines
    rw [show { withBody d body r with qpackRic := s.ric } =
      withBody d body { r with qpackRic := s.ric } from rfl, hscan]
    cases scanLinesFrom scr s (fs.drop off).length (fs.drop off)
      { used := 0, ph := h3PhInit, lines := [] } { r with qpackRic := s.ric } with
    | error e => rfl
    | ok out =>
      obtain ⟨cur, r'⟩ := out
      have hph : h3reqdrivePhOk cur.ph (withBody d body r') = h3reqdrivePhOk cur.ph r' := rfl
      dsimp only [Except.map]
      rw [hph]
      split
      · rfl
      · rfl

end

/-! ## Decoding the leading HEADERS -/

/-- `srvloop_route_body_decode`: the bytes up to the end of the leading HEADERS frame alone. -/
def routeBodyDecode (inp : H3In) : Option Accepted :=
  match wiredH3reqdriveRecvH3
    { inp with h3 := inp.h3.take (headersEnd inp.h3), fin := false } with
  | .error _ => none
  | .ok a => if h3ConnectIsMethod a.req then none else some a

section

variable {h3 fs : List UInt8} {endOff : Nat}

section

variable (h : findHeaders h3 = .found fs endOff)

include h

theorem headersEnd_of_found : headersEnd h3 = endOff := by
  rw [headersEnd, headersFrame, h]
  rfl

theorem findHeaders_take : findHeaders (h3.take endOff) = .found fs endOff := by
  obtain ⟨hpos, hle, hagain⟩ := findHeadersFrom_found h
  have hlen : (h3.take endOff).length = endOff := by
    rw [length_take]
    omega
  have hfound := hagain endOff [] (by omega)
  rw [append_nil, Nat.sub_zero] at hfound
  rw [findHeaders, hlen]
  exact hfound

theorem sections_take :
    h3reqdriveRequestSections (h3.take endOff) = .ok (fs, withBody 0 none {}) := by
  rw [h3reqdriveRequestSections, findHeaders_take h]
  simp only [drop_eq_nil_of_le (length_take_le endOff h3)]
  rfl

theorem trailerDecode_take (scr : Nat) (dyn : QpackDyn) :
    trailerDecode (h3.take endOff) scr dyn = .ok 0 := by
  have hnone : requestTrailer (h3.take endOff) = none := by
    rw [requestTrailer, headersEnd_of_found (findHeaders_take h),
      drop_eq_nil_of_le (length_take_le endOff h3)]
    split
    · rfl
    · rfl
  rw [trailerDecode, hnone]

theorem sections_ok_iff (out : List UInt8 × H3Req) :
    h3reqdriveRequestSections h3 = .ok out ↔
      InOrderFrames (decodeAll h3FrameGet (h3.drop endOff)).1 ∧
        ∃ body, findBodyView (h3.drop endOff) = some body ∧
          out = (fs, withBody (bodyOctets (h3.drop endOff)) body {}) := by
  have horder : (h3reqdriveFramesAfterHeaders (h3.drop endOff)).frameUnexpected = none ↔
      InOrderFrames (decodeAll h3FrameGet (h3.drop endOff)).1 :=
    (framesAfterHeadersFrom_whole le_rfl).1.trans (orderRun_iff trivial)
  rw [← horder, h3reqdriveRequestSections, h]
  dsimp only
  cases hseen : (h3reqdriveFramesAfterHeaders (h3.drop endOff)).frameUnexpected with
  | some reject => simp
  | none =>
    have hlen : (h3reqdriveFramesAfterHeaders (h3.drop endOff)).dataLen =
        bodyOctets (h3.drop endOff) :=
      ((framesAfterHeadersFrom_whole le_rfl).2 hseen).trans (zero_add _)
    cases findBodyView (h3.drop endOff) with
    | none => simp
    | some body => simp [withBody, hlen, eq_comm]

end

end

/-! ## The checks of the control data -/

def withTrailerRic (ric : Nat) (r : H3Req) : H3Req := { r with qpackTrailerRic := ric }

theorem requestOk_withTrailerRic (fin : Bool) (ric : Nat) (r : H3Req) :
    h3reqdriveRequestOk fin (withTrailerRic ric r) =
      (h3reqdriveRequestOk fin r).map (withTrailerRic ric) := by
  have htarget : rcTargetOk (withTrailerRic ric r) = rcTargetOk r := rfl
  have htake : rcClTake (withTrailerRic ric r) = (rcClTake r).map (withTrailerRic ric) := by
    unfold rcClTake
    rw [show wiredHttpReqHeader (withTrailerRic ric r) (cstr "content-length") =
      wiredHttpReqHeader r (cstr "content-length") from rfl]
    cases wiredHttpReqHeader r (cstr "content-length") with
    | none => rfl
    | some v => simp [Function.comp_def, withTrailerRic]
  unfold h3reqdriveRequestOk
  rw [htarget, htake]
  cases rcTargetOk r with
  | false => rfl
  | true =>
    cases rcClTake r with
    | none => rfl
    | some r' =>
      have hok : rcClOk fin (withTrailerRic ric r') = rcClOk fin r' := rfl
      simp only [Bool.not_true, Bool.false_eq_true, if_false, map_some, bind_some, hok]
      cases rcClOk fin r' with
      | false => rfl
      | true => rfl

theorem requestOk_withBody (d : Nat) (body : Option (List UInt8)) (r : H3Req) :
    (h3reqdriveRequestOk true (withBody d body r)).isSome = true ↔
      ∃ r', h3reqdriveRequestOk false r = some r' ∧
        (h3ConnectIsMethod r' = false → ∀ n, r'.contentLength = some n → n = d) := by
  have htarget : rcTargetOk (withBody d body r) = rcTargetOk r := rfl
  have htake : rcClTake (withBody d body r) = (rcClTake r).map (withBody d body) := by
    unfold rcClTake
    rw [show wiredHttpReqHeader (withBody d body r) (cstr "content-length") =
      wiredHttpReqHeader r (cstr "content-length") from rfl]
    cases wiredHttpReqHeader r (cstr "content-length") with
    | none => rfl
    | some v => simp [Function.comp_def, withBody]
  have hwhole : ∀ r', rcClOk true (withBody d body r') = true ↔
      (h3ConnectIsMethod r' = false → ∀ n, r'.contentLength = some n → n = d) := by
    intro r'
    have hmethod : h3ConnectIsMethod (withBody d body r') = h3ConnectIsMethod r' := rfl
    simp only [rcClOk, rcClApplies, hmethod]
    cases h3ConnectIsMethod r' with
    | true => simp
    | false => cases hcl : r'.contentLength <;> simp [withBody, hcl]
  have hopen : ∀ r', rcClOk false r' = true := fun r' => by simp [rcClOk, rcClApplies]
  unfold h3reqdriveRequestOk
  rw [htarget, htake]
  cases rcTargetOk r with
  | false => simp
  | true =>
    cases rcClTake r with
    | none => simp
    | some r' =>
      have hwhole' := hwhole r'
      cases hok : rcClOk true (withBody d body r') <;> simpa [hopen, hok] using hwhole'

/-! ## Acceptance on the two paths -/

/-- The buffered path, but for the fields of a trailer section, at which streaming does not look. -/
def bufferedAccepts (inp : H3In) : Bool :=
  match h3reqdriveRequestSections inp.h3 with
  | .error _ => false
  | .ok (fs, r) =>
    match decodeLines fs inp.scratch inp.dyn r with
    | .error _ => false
    | .ok (_, r) => (h3reqdriveRequestOk true r).isSome

/-- The whole decode adds the fields of the trailer section. -/
theorem wiredH3reqdriveRecvH3_ok_iff (inp : H3In) (hfin : inp.fin = true) :
    (∃ a, wiredH3reqdriveRecvH3 inp = .ok a) ↔
      bufferedAccepts inp = true ∧
        ∀ fs r out, h3reqdriveRequestSections inp.h3 = .ok (fs, r) →
          decodeLines fs inp.scratch inp.dyn r = .ok out →
          ∃ ric, trailerDecode inp.h3 (inp.scratch - out.1.used) inp.dyn = .ok ric := by
  unfold wiredH3reqdriveRecvH3 bufferedAccepts h3reqdriveDecodeSections
  rw [hfin]
  cases h3reqdriveRequestSections inp.h3 with
  | error e => simp
  | ok sections =>
    obtain ⟨fs, r⟩ := sections
    dsimp only
    cases hlines : decodeLines fs inp.scratch inp.dyn r with
    | error e => simp
    | ok out =>
      obtain ⟨cur, r'⟩ := out
      dsimp only
      cases htrailer : trailerDecode inp.h3 (inp.scratch - cur.used) inp.dyn with
      | error e => simp [hlines, htrailer]
      | ok ric =>
        have hok := requestOk_withTrailerRic true ric r'
        unfold withTrailerRic at hok
        dsimp only
        rw [hok]
        cases h3reqdriveRequestOk true r' with
        | none => simp
        | some r'' =>
          refine iff_of_true ⟨_, rfl⟩ ⟨rfl, ?_⟩
          intro fs' r₀ out hsections hagain
          cases hsections
          rw [hlines] at hagain
          cases hagain
          exact ⟨ric, htrailer⟩

/-- The streaming path: a stream whose leading HEADERS it cannot take stays on the buffered one. -/
def StreamedAccepts (inp : H3In) (onBody : BodywinSink τ) (app : τ) (buf : Nat → UInt8)
    (ops : List BodyOp) : Prop :=
  match routeBodyDecode inp with
  | none => bufferedAccepts inp = true
  | some a =>
    (streamedTrace inp.h3 (routeBodySink onBody) buf ⟨app, a.req, 0⟩ ops).s.w.state = .done

def behindHeaders (inp : H3In) : List UInt8 := inp.h3.drop (headersEnd inp.h3)

/-- The stream ends inside of a frame behind a DATA frame, and nothing else is wrong with it. -/
structure CutBehindData (inp : H3In) (a : Accepted) : Prop where
  decoded : routeBodyDecode inp = some a
  order : InOrderFrames (decodeAll h3FrameGet (behindHeaders inp)).1
  data : ∃ f ∈ (decodeAll h3FrameGet (behindHeaders inp)).1, f.type = h3FrameData
  cut : ¬ WholeFrames (behindHeaders inp)
  length : ∀ n, a.req.contentLength = some n → n = bodyOctets (behindHeaders inp)

section

variable {inp : H3In} {a : Accepted}

theorem requestOk_dataLen {r₀ r r' : H3Req} {cur : RdCursor} (hscanned : Scanned r₀ cur r)
    (h : h3reqdriveRequestOk false r = some r') : r'.dataLen = r₀.dataLen := by
  unfold h3reqdriveRequestOk at h
  split at h
  · cases h
  obtain ⟨r'', htake, hcl⟩ := bind_eq_some_iff.mp h
  have hdata : r''.dataLen = r.dataLen := by
    unfold rcClTake at htake
    split at htake
    · cases htake
      rfl
    · obtain ⟨n, -, rfl⟩ := map_eq_some_iff.mp htake
      rfl
  split at hcl
  · cases hcl
  cases hcl
  exact hdata.trans hscanned.dataLen

theorem routeBodyDecode_spec (h : routeBodyDecode inp = some a) :
    ∃ fs endOff cur r r', findHeaders inp.h3 = .found fs endOff ∧
      decodeLines fs inp.scratch inp.dyn (withBody 0 none {}) = .ok (cur, r) ∧
      h3reqdriveRequestOk false r = some r' ∧ a.req = withTrailerRic 0 r' ∧
      h3ConnectIsMethod r' = false ∧ a.req.dataLen = 0 := by
  unfold routeBodyDecode at h
  cases hfind : findHeaders inp.h3 with
  | truncated | rejected =>
    have hend : headersEnd inp.h3 = 0 := by rw [headersEnd, headersFrame, hfind]; rfl
    rw [hend] at h
    cases h
  | found fs endOff =>
    rw [headersEnd_of_found hfind] at h
    simp only [wiredH3reqdriveRecvH3, sections_take hfind, h3reqdriveDecodeSections] at h
    cases hlines : decodeLines fs inp.scratch inp.dyn (withBody 0 none {}) with
    | error e => simp [hlines] at h
    | ok out =>
      obtain ⟨cur, r⟩ := out
      have hok := requestOk_withTrailerRic false 0 r
      unfold withTrailerRic at hok
      simp only [hlines, trailerDecode_take hfind, hok] at h
      cases hreq : h3reqdriveRequestOk false r with
      | none => simp [hreq] at h
      | some r' =>
        simp only [hreq, map_some] at h
        replace h : (if h3ConnectIsMethod r' = true then none
            else some (Accepted.mk (withTrailerRic 0 r') cur.lines)) = some a := h
        cases hmethod : h3ConnectIsMethod r' with
        | true =>
          rw [hmethod, if_pos rfl] at h
          cases h
        | false =>
          rw [hmethod, if_neg Bool.false_ne_true] at h
          cases h
          have hscanned : Scanned (withBody 0 none {}) cur r := decodeLines_scanned rfl hlines
          have hzero : r'.dataLen = 0 := requestOk_dataLen hscanned hreq
          exact ⟨fs, endOff, cur, r, r', rfl, hlines, hreq, rfl, hmethod, hzero⟩

theorem bufferedAccepts_iff (h : routeBodyDecode inp = some a) :
    bufferedAccepts inp = true ↔
      InOrderFrames (decodeAll h3FrameGet (behindHeaders inp)).1 ∧
        ((∃ f ∈ (decodeAll h3FrameGet (behindHeaders inp)).1, f.type = h3FrameData) ∨
          WholeFrames (behindHeaders inp)) ∧
        ∀ n, a.req.contentLength = some n → n = bodyOctets (behindHeaders inp) := by
  obtain ⟨fs, endOff, cur, r, r', hfind, hlines, hreq, hr', hmethod, -⟩ := routeBodyDecode_spec h
  have hbehind : behindHeaders inp = inp.h3.drop endOff := by
    rw [behindHeaders, headersEnd_of_found hfind]
  have hlength : a.req.contentLength = r'.contentLength := by
    rw [hr']
    rfl
  have hsections := sections_ok_iff hfind
  rw [← findBodyView_isSome_iff, hbehind, hlength, bufferedAccepts]
  cases hs : h3reqdriveRequestSections inp.h3 with
  | error e =>
    refine iff_of_false (fun hfalse => Bool.noConfusion hfalse) ?_
    rintro ⟨horder, hview, -⟩
    obtain ⟨body, hbody⟩ := isSome_iff_exists.mp hview
    have hok := (hsections _).mpr ⟨horder, body, hbody, rfl⟩
    rw [hs] at hok
    cases hok
  | ok out =>
    obtain ⟨horder, body, hbody, rfl⟩ := (hsections _).mp hs
    have hwhole := decodeLines_withBody (bodyOctets (inp.h3.drop endOff)) body fs inp.scratch
      inp.dyn (withBody 0 none {})
    rw [hlines] at hwhole
    dsimp only
    rw [show withBody (bodyOctets (inp.h3.drop endOff)) body {} =
      withBody (bodyOctets (inp.h3.drop endOff)) body (withBody 0 none {}) from rfl, hwhole]
    dsimp only [Except.map]
    rw [requestOk_withBody, hreq, hbody]
    simp [horder, hmethod]

theorem streamedAccepts_iff {app : τ} (htake : ∀ t chunk fin, (onBody t chunk fin).2 = true)
    (hfit : inp.h3.length ≤ bodywinCap) (harr : BodyArrived inp.h3 ops)
    (h : routeBodyDecode inp = some a) :
    StreamedAccepts inp onBody app buf ops ↔
      InOrderFrames (decodeAll h3FrameGet (behindHeaders inp)).1 ∧
        WholeFrames (behindHeaders inp) ∧
        ∀ n, a.req.contentLength = some n → n = bodyOctets (behindHeaders inp) := by
  obtain ⟨fs, endOff, cur, r, r', hfind, -, -, -, -, hzero⟩ := routeBodyDecode_spec h
  have hhead : headersEnd inp.h3 ≠ 0 := by
    rw [headersEnd_of_found hfind]
    exact Nat.ne_of_gt (findHeadersFrom_found hfind).1
  obtain ⟨hdone, hdata⟩ := parseBody_done_iff (b := behindHeaders inp)
    (⟨by simp, rfl⟩ : Matches parserFresh .headers) rfl
  have horder : (∃ s', orderRun .headers (decodeAll h3FrameGet (behindHeaders inp)).1 = .ok s') ↔
      InOrderFrames (decodeAll h3FrameGet (behindHeaders inp)).1 := orderRun_iff trivial
  rw [horder] at hdone
  have hwhole : wholeBody inp.h3 = parseBody parserFresh (behindHeaders inp) := rfl
  unfold StreamedAccepts
  rw [h]
  dsimp only
  rw [streamed_done_iff htake hfit hhead harr hzero, hwhole]
  constructor
  · rintro ⟨hstate, hlength⟩
    rw [hdata hstate] at hlength
    exact ⟨(hdone.mp hstate).2, (hdone.mp hstate).1, hlength⟩
  · rintro ⟨horder, hframes, hlength⟩
    have hstate := hdone.mpr ⟨hframes, horder⟩
    rw [hdata hstate]
    exact ⟨hstate, hlength⟩

/-- The two paths agree on every stream that fits in the window but those that end inside of a frame
behind a DATA frame. -/
theorem paths_agree_iff (inp : H3In) (onBody : BodywinSink τ) (app : τ) (buf : Nat → UInt8)
    (ops : List BodyOp) (htake : ∀ t chunk fin, (onBody t chunk fin).2 = true)
    (hfit : inp.h3.length ≤ bodywinCap) (harr : BodyArrived inp.h3 ops) :
    (StreamedAccepts inp onBody app buf ops ↔ bufferedAccepts inp = true) ↔
      ∀ a, ¬ CutBehindData inp a := by
  cases hdecode : routeBodyDecode inp with
  | none =>
    refine iff_of_true ?_ ?_
    · rw [StreamedAccepts, hdecode]
    · intro a hcut
      rw [hcut.decoded] at hdecode
      cases hdecode
  | some a =>
    rw [streamedAccepts_iff htake hfit harr hdecode, bufferedAccepts_iff hdecode]
    constructor
    · rintro hagree a' ⟨hdecoded, horder, hdata, hcut, hlength⟩
      rw [hdecode] at hdecoded
      cases hdecoded
      exact hcut (hagree.mpr ⟨horder, .inl hdata, hlength⟩).2.1
    · intro hnone
      constructor
      · rintro ⟨horder, hwhole, hlength⟩
        exact ⟨horder, .inr hwhole, hlength⟩
      · rintro ⟨horder, hdata | hwhole, hlength⟩
        · refine ⟨horder, ?_, hlength⟩
          by_contra hcut
          exact hnone a ⟨hdecode, horder, hdata, hcut, hlength⟩
        · exact ⟨horder, hwhole, hlength⟩

end

/-- `GET https://a/` with a DATA frame of one byte and a second one that is cut. -/
def cutRequest : H3In :=
  { getRequest [] with h3 := (getRequest []).h3 ++ [0x00, 0x01, 0x41] ++ [0x00, 0x03, 0x42] }

def takeAll : BodywinSink Unit := fun _ _ _ => ((), true)

def onePiece (S : List UInt8) : List BodyOp := [.land 0 S.length true]

theorem onePiece_arrived (S : List UInt8) : BodyArrived S (onePiece S) := by
  refine ⟨fun o ho => ⟨0, S.length, true, ?_, Nat.zero_le o, ?_⟩, 0, S.length, ?_, ?_⟩
  · exact mem_singleton_self _
  · rwa [zero_add]
  · exact mem_singleton_self _
  · exact Nat.le_add_left ..

/-- The buffered path takes the request with its second DATA frame cut; the streaming path does not.
-/
theorem cut_frame_only_buffered :
    bufferedAccepts cutRequest = true ∧
      ¬ StreamedAccepts cutRequest takeAll () (fun _ => 0) (onePiece cutRequest.h3) := by
  refine ⟨by decide +kernel, ?_⟩
  have hdecode : (routeBodyDecode cutRequest).isSome = true := by decide +kernel
  obtain ⟨a, ha⟩ := isSome_iff_exists.mp hdecode
  rw [streamedAccepts_iff (fun _ _ _ => rfl) (by decide) (onePiece_arrived _) ha]
  rintro ⟨-, hwhole, -⟩
  have hcut : (decodeAll h3FrameGet (behindHeaders cutRequest)).2 ≠
      (behindHeaders cutRequest).length := by decide +kernel
  exact hcut hwhole

def wholeRequest : H3In :=
  { getRequest [] with h3 := (getRequest []).h3 ++ [0x00, 0x01, 0x41] ++ [0x00, 0x01, 0x42] }

/-- The two paths agree on a request with two whole DATA frames. -/
theorem wholeRequest_agree :
    StreamedAccepts wholeRequest takeAll () (fun _ => 0) (onePiece wholeRequest.h3) ↔
      bufferedAccepts wholeRequest = true := by
  refine (paths_agree_iff wholeRequest takeAll () (fun _ => 0) _ (fun _ _ _ => rfl) (by decide)
    (onePiece_arrived _)).mpr ?_
  intro a hcut
  have hwhole : (decodeAll h3FrameGet (behindHeaders wholeRequest)).2 =
      (behindHeaders wholeRequest).length := by decide +kernel
  exact hcut.cut hwhole

end Wired.Http3
