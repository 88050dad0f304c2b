import Wired.Http3.RequestLine

/-!
# Requests

`wired_h3reqdrive_recv_h3` and the checks of `request_drive_check.c`, `request_drive_authority.c`
and `request_drive_trailer.c`: the bytes of a request stream are accepted as a request or not.

The checks of Content-Length and Host look the two fields up by name, and see one line of each:
the first that was kept. `validated_iff` says when accepted requests have consistent lines all the
same, `contradicting_lines_accepted` has some that have not.
-/

namespace Wired.Http3

open Lib Qpack List

/-! ## Control data -/

/-- Whether the method is CONNECT. -/
def h3ConnectIsMethod (r : H3Req) : Bool := r.method = some (cstr "CONNECT")

def h3ConnectReqOk (r : H3Req) : Bool :=
  h3ConnectIsMethod r && r.authority.isSome && !(r.scheme.isSome || r.path.isSome)

def h3reqdrivePlainConnect (r : H3Req) : Bool := h3ConnectIsMethod r && r.protocol.isNone

def rcPhShapeOk (p : PhSet) (r : H3Req) : Bool :=
  if h3reqdrivePlainConnect r then p.ok && h3ConnectReqOk r else h3PhRequestOk p

def h3reqdrivePhOk (p : PhSet) (r : H3Req) : Bool := PhKind.status ∉ p.seen && rcPhShapeOk p r

def rcAsteriskOk (r : H3Req) : Bool :=
  r.path ≠ some (cstr "*") || r.method = some (cstr "OPTIONS")

def rcPathOk (r : H3Req) : Bool := r.path ≠ some [] && rcAsteriskOk r

/-! ## Content-Length -/

def rcDigitStep (v : Nat) (c : UInt8) : Option Nat :=
  let d := (c - 0x30).toNat
  if d > 9 || v > (2 ^ 64 - 1 - d) / 10 then none else some (v * 10 + d)

/-- A decimal number of 64 bits. -/
def h3reqdriveDigits (s : List UInt8) : Option Nat :=
  if s = [] then none else s.foldlM rcDigitStep 0

/-- `rc_cl_take`: none if the field is there and has no valid value. -/
def rcClTake (r : H3Req) : Option H3Req :=
  match wiredHttpReqHeader r (cstr "content-length") with
  | none => some r
  | some v => (h3reqdriveDigits v).map fun n => { r with contentLength := some n }

def rcClApplies (fin : Bool) (r : H3Req) : Bool :=
  r.contentLength.isSome && fin && !h3ConnectIsMethod r

def rcClOk (fin : Bool) (r : H3Req) : Bool :=
  !rcClApplies fin r || r.contentLength = some r.dataLen

/-! ## Authority and Host -/

def rcHostNamed (a : List UInt8) : Bool := a ≠ [] && a.head? ≠ some 0x3a && 0x40 ∉ a

/-- An absent value passes. -/
def rcValueOk (a : Option (List UInt8)) : Bool := a.all rcHostNamed

def rcMandatoryAuthority (r : H3Req) : Bool :=
  r.scheme = some (cstr "https") || r.scheme = some (cstr "http")

def rcPresentOk (r : H3Req) (host : Option (List UInt8)) : Bool :=
  r.authority.isSome || host.isSome || !rcMandatoryAuthority r

def rcMatchOk (r : H3Req) (host : Option (List UInt8)) : Bool :=
  r.authority.isNone || host.isNone || host = r.authority

def rcAuthorityOk (r : H3Req) : Bool :=
  let host := wiredHttpReqHeader r (cstr "host")
  rcValueOk r.authority && rcValueOk host && rcPresentOk r host && rcMatchOk r host

def rcAfterLastColon (a : List UInt8) : Nat := (a.reverse.dropWhile fun c => c ≠ 0x3a).length

def rcPortOk (p : List UInt8) : Bool :=
  1 ≤ p.length && p.length ≤ 5 && (h3reqdriveDigits p).any fun v => 1 ≤ v && v ≤ 65535

def rcHostPortOk (a : List UInt8) : Bool :=
  rcAfterLastColon a > 1 && rcPortOk (a.drop (rcAfterLastColon a))

def rcConnectTargetOk (r : H3Req) : Bool :=
  !h3reqdrivePlainConnect r || r.authority.any rcHostPortOk

def h3reqdriveAuthorityOk (r : H3Req) : Bool := rcAuthorityOk r && rcConnectTargetOk r

def rcTargetOk (r : H3Req) : Bool := rcPathOk r && h3reqdriveAuthorityOk r

/-- The checks of a decoded request. -/
def h3reqdriveRequestOk (fin : Bool) (r : H3Req) : Option H3Req :=
  if !rcTargetOk r then none
  else (rcClTake r).bind fun r => if !rcClOk fin r then none else some r

/-! ## The two field sections -/

/-- The lines of the leading section. -/
def decodeLines (fs : List UInt8) (scr : Nat) (dyn : QpackDyn) (r : H3Req) :
    Except ReqError (RdCursor × H3Req) :=
  match h3reqdrivePrefixBase fs dyn with
  | none => .error .qpackPrefix
  | some (s, off) =>
    match h3reqdriveScanLines scr s (fs.drop off) { used := 0, ph := h3PhInit, lines := [] }
      { r with qpackRic := s.ric } with
    | .error e => .error e
    | .ok (cur, r) => if !h3reqdrivePhOk cur.ph r then .error .malformed else .ok (cur, r)

def trailerLineOk (l : Field) : Bool := h3reqdriveLineOk l && h3PhClassify l.name = .none

variable {name h3 fs : List UInt8} {r : H3Req}

/-- The loop of `trailer_scan_lines`: the lines are checked and dropped, and not trimmed. -/
def trailerScanFrom (scr : Nat) (s : QdynSrc) : Nat → List UInt8 → Nat → Except ReqError Unit
  | 0, _, _ => .ok ()
  | fuel + 1, rest, used =>
    if rest = [] then .ok ()
    else
      let out := h3reqdriveDecodeLine rest (scr - used) s
      match out.line with
      | none => .error (.line out.refBad)
      | some (l, c) =>
        if !trailerLineOk { name := l.name, value := l.value } then .error .malformed
        else trailerScanFrom scr s fuel (rest.drop c) (used + l.scratchUsed)

/-- The Required Insert Count of the trailer section, 0 without one. -/
def trailerDecode (h3 : List UInt8) (scr : Nat) (dyn : QpackDyn) : Except ReqError Nat :=
  match requestTrailer h3 with
  | none => .ok 0
  | some tfs =>
    match h3reqdrivePrefixBase tfs dyn with
    | none => .error .qpackPrefix
    | some (s, off) =>
      match trailerScanFrom scr s tfs.length (tfs.drop off) 0 with
      | .error e => .error e
      | .ok () => .ok s.ric

/-- The leading section, then the trailers. -/
def h3reqdriveDecodeSections (h3 fs : List UInt8) (scr : Nat) (dyn : QpackDyn) (r : H3Req) :
    Except ReqError (RdCursor × H3Req) :=
  match decodeLines fs scr dyn r with
  | .error e => .error e
  | .ok (cur, r) =>
    match trailerDecode h3 (scr - cur.used) dyn with
    | .error e => .error e
    | .ok ric => .ok (cur, { r with qpackTrailerRic := ric })

/-- The section of the leading HEADERS frame, and the request with what the frames behind it
say. -/
def h3reqdriveRequestSections (h3 : List UInt8) : Except ReqError (List UInt8 × H3Req) :=
  match findHeaders h3 with
  | .truncated => .error .incomplete
  | .rejected reject => .error (.frame reject)
  | .found fs endOff =>
    let seen := h3reqdriveFramesAfterHeaders (h3.drop endOff)
    match seen.frameUnexpected with
    | some reject => .error (.frame reject)
    | none =>
      match findBodyView (h3.drop endOff) with
      | none => .error .incomplete
      | some body => .ok (fs, { dataLen := seen.dataLen, body := body })

/-- The bytes of the stream, whether they reach its end, the size of the scratch and the table. -/
structure H3In where
  h3 : List UInt8
  fin : Bool
  scratch : Nat
  dyn : QpackDyn

/-- An accepted request, with its lines and which of them were kept. -/
structure Accepted where
  req : H3Req
  lines : List (Field × Bool)
deriving DecidableEq, Repr

/-- The request of a stream, or why it is not accepted. -/
def wiredH3reqdriveRecvH3 (inp : H3In) : Except ReqError Accepted :=
  match h3reqdriveRequestSections inp.h3 with
  | .error e => .error e
  | .ok (fs, r) =>
    match h3reqdriveDecodeSections inp.h3 fs inp.scratch inp.dyn r with
    | .error e => .error e
    | .ok (cur, r) =>
      match h3reqdriveRequestOk inp.fin r with
      | none => .error .malformed
      | some r => .ok { req := r, lines := cur.lines }

/-! ## Consistent lines -/

/-- All content-length lines have one value, the length of the body once it is all there. -/
def LengthsAgree (fin : Bool) (dataLen : Nat) (lines : List (Field × Bool)) : Prop :=
  ∃ v, ∀ x ∈ valuesOf (cstr "content-length") lines,
    h3reqdriveDigits x = some v ∧ (fin = true → v = dataLen)

/-- All host lines have the same value, which is that of `:authority` if the request has one. -/
def HostsAgree (authority : Option (List UInt8)) (lines : List (Field × Bool)) : Prop :=
  ∃ a, (∀ b, authority = some b → b = a) ∧ ∀ x ∈ valuesOf (cstr "host") lines, x = a

/-- The length of the body of a request stream: the DATA behind the leading HEADERS frame. -/
def bodyLength (h3 : List UInt8) : Nat := bodyOctets (h3.drop (headersEnd h3))

/-- The lines of an accepted request are consistent. -/
def Validated (inp : H3In) (a : Accepted) : Prop :=
  LengthsAgree inp.fin (bodyLength inp.h3) a.lines ∧ HostsAgree a.req.authority a.lines

/-- The lines that the lookups do not see are consistent with those they see. -/
structure UnseenAgree (inp : H3In) (a : Accepted) : Prop where
  lengths : ∃ v, (∀ n, a.req.contentLength = some n → n = v) ∧
    ∀ x ∈ unseenValues (cstr "content-length") a.lines,
      h3reqdriveDigits x = some v ∧ (inp.fin = true → v = bodyLength inp.h3)
  -- the length of a CONNECT is not compared with its DATA
  connect : inp.fin = true → h3ConnectIsMethod a.req = true →
    ∀ n, a.req.contentLength = some n → n = bodyLength inp.h3
  hosts : ∃ h, (∀ b, a.req.authority.or (rdHdrsFind a.req (cstr "host")) = some b → b = h) ∧
    ∀ x ∈ unseenValues (cstr "host") a.lines, x = h

/-! ## What acceptance says about the lines that the lookups see -/

/-- What the checks say about the lines that they see. -/
structure SeenChecked (inp : H3In) (a : Accepted) : Prop where
  keeps : ∀ {name x}, x ∈ valuesOf name a.lines ↔
    rdHdrsFind a.req name = some x ∨ x ∈ unseenValues name a.lines
  absent : rdHdrsFind a.req (cstr "content-length") = none → a.req.contentLength = none
  digits : ∀ x, rdHdrsFind a.req (cstr "content-length") = some x →
    ∃ n, h3reqdriveDigits x = some n ∧ a.req.contentLength = some n
  length : inp.fin = true → h3ConnectIsMethod a.req = false →
    ∀ n, a.req.contentLength = some n → n = bodyLength inp.h3
  host : ∀ x b, rdHdrsFind a.req (cstr "host") = some x → a.req.authority = some b → x = b

theorem wiredHttpReqHeader_eq (r : H3Req) (h : name ∉ rdDedicated) :
    wiredHttpReqHeader r name = rdHdrsFind r name := by
  simp only [rdDedicated, mem_cons, not_mem_nil, or_false, not_or] at h
  have hdedicated : rdDedicatedField r name = none := by
    unfold rdDedicatedField
    rw [if_neg h.1, if_neg h.2.1, if_neg h.2.2]
  rw [wiredHttpReqHeader, hdedicated]

/-- Before the lines a request has no Content-Length, and the length of its body. -/
theorem h3reqdriveRequestSections_spec (h : h3reqdriveRequestSections h3 = .ok (fs, r)) :
    r.hdrs = [] ∧ r.contentLength = none ∧ r.dataLen = bodyLength h3 := by
  unfold h3reqdriveRequestSections at h
  cases hfind : findHeaders h3 with
  | truncated | rejected reject => simp [hfind] at h
  | found fs' endOff =>
    have hend : headersEnd h3 = endOff := by simp [headersEnd, headersFrame, hfind]
    simp only [hfind] at h
    cases hseen : (h3reqdriveFramesAfterHeaders (h3.drop endOff)).frameUnexpected with
    | some reject => simp [hseen] at h
    | none =>
      simp only [hseen] at h
      cases hbody : findBodyView (h3.drop endOff) with
      | none => simp [hbody] at h
      | some body =>
        simp only [hbody, Except.ok.injEq, Prod.mk.injEq] at h
        obtain ⟨-, rfl⟩ := h
        refine ⟨rfl, rfl, ?_⟩
        rw [bodyLength, hend]
        exact ((framesAfterHeadersFrom_whole le_rfl).2 hseen).trans (zero_add _)

section

variable {scr : Nat} {dyn : QpackDyn} {out : RdCursor × H3Req} (hr : r.hdrs = [])
include hr

theorem decodeLines_scanned (h : decodeLines fs scr dyn r = .ok out) : Scanned r out.1 out.2 := by
  unfold decodeLines at h
  split at h
  · cases h
  rename_i s off _
  split at h
  · cases h
  rename_i cur r' hscan
  split at h
  · cases h
  cases h
  have hstart : Scanned { r with qpackRic := s.ric }
      { used := 0, ph := h3PhInit, lines := [] } { r with qpackRic := s.ric } :=
    ⟨hr, rfl, rfl⟩
  have hscanned : Scanned { r with qpackRic := s.ric } cur r' := scanLinesFrom_scanned hstart hscan
  exact { hscanned with }

theorem h3reqdriveDecodeSections_scanned (h : h3reqdriveDecodeSections h3 fs scr dyn r = .ok out) :
    Scanned r out.1 out.2 := by
  unfold h3reqdriveDecodeSections at h
  split at h
  · cases h
  rename_i cur r' hlines
  split at h
  · cases h
  cases h
  have hscanned : Scanned r cur r' := decodeLines_scanned hr hlines
  exact { hscanned with }

end

theorem rcClTake_spec {r' : H3Req} (hr : r.contentLength = none) (h : rcClTake r = some r') :
    (rdHdrsFind r (cstr "content-length") = none → r'.contentLength = none) ∧
      (∀ x, rdHdrsFind r (cstr "content-length") = some x →
        ∃ n, h3reqdriveDigits x = some n ∧ r'.contentLength = some n) ∧
      ∃ cl, r' = { r with contentLength := cl } := by
  unfold rcClTake at h
  rw [wiredHttpReqHeader_eq r (by decide)] at h
  cases hfind : rdHdrsFind r (cstr "content-length") with
  | none =>
    simp only [hfind] at h
    cases h
    exact ⟨fun _ => hr, nofun, r.contentLength, rfl⟩
  | some x =>
    simp only [hfind] at h
    obtain ⟨n, hn, rfl⟩ := Option.map_eq_some_iff.mp h
    refine ⟨nofun, ?_, some n, rfl⟩
    intro y hy
    cases hy
    exact ⟨n, hn, rfl⟩

theorem rcTargetOk_host (h : rcTargetOk r = true) {x b : List UInt8}
    (hx : rdHdrsFind r (cstr "host") = some x) (hb : r.authority = some b) : x = b := by
  have hlookup : wiredHttpReqHeader r (cstr "host") = rdHdrsFind r (cstr "host") :=
    wiredHttpReqHeader_eq r (by decide)
  simp only [rcTargetOk, h3reqdriveAuthorityOk, rcAuthorityOk, hlookup, hx, rcMatchOk, hb,
    Bool.and_eq_true] at h
  simpa using h.2.1.2

theorem seenChecked {inp : H3In} {a : Accepted} (h : wiredH3reqdriveRecvH3 inp = .ok a) :
    SeenChecked inp a := by
  unfold wiredH3reqdriveRecvH3 at h
  split at h
  · cases h
  next fs r₀ hsections =>
  split at h
  · cases h
  next cur r hdecode =>
  split at h
  · cases h
  next r' hok =>
  cases h
  obtain ⟨hhdrs, hnone, hdata⟩ := h3reqdriveRequestSections_spec hsections
  have hscanned : Scanned r₀ cur r := h3reqdriveDecodeSections_scanned hhdrs hdecode
  unfold h3reqdriveRequestOk at hok
  split at hok
  · cases hok
  next htarget =>
  obtain ⟨r'', htake, hcl⟩ := Option.bind_eq_some_iff.mp hok
  split at hcl
  · cases hcl
  next hclok =>
  cases hcl
  obtain ⟨habsent, hdigits, cl, hr'⟩ := rcClTake_spec (hscanned.contentLength.trans hnone) htake
  -- the lookups after `rc_cl_take` find what those before it found
  have hfind : ∀ name, rdHdrsFind r' name = rdHdrsFind r name := by
    intro name
    rw [hr']
    rfl
  refine ⟨?_, ?_, ?_, ?_, ?_⟩
  · intro name x
    rw [hfind]
    exact mem_valuesOf_iff hscanned.keeps
  · rw [hfind]
    exact habsent
  · rw [hfind]
    exact hdigits
  · intro hfin hconnect n (hn : r'.contentLength = some n)
    have hlen : r'.dataLen = bodyLength inp.h3 := by
      rw [hr']
      exact hscanned.dataLen.trans hdata
    have happlies : rcClApplies inp.fin r' = true := by simp [rcClApplies, hn, hfin, hconnect]
    simp only [rcClOk, happlies, Bool.not_true, Bool.false_or, hn, hlen, Option.some.injEq,
      Bool.not_eq_true', decide_eq_false_iff_not, Decidable.not_not] at hclok
    exact hclok
  · intro x b hx hb
    rw [hfind] at hx
    rw [hr'] at hb
    exact rcTargetOk_host (by simpa using htarget) hx hb

/-! ## When the accepted requests are consistent -/

section

variable {inp : H3In} {a : Accepted}

theorem SeenChecked.lengths_iff (h : SeenChecked inp a) :
    LengthsAgree inp.fin (bodyLength inp.h3) a.lines ↔
      (∃ v, (∀ n, a.req.contentLength = some n → n = v) ∧
        ∀ x ∈ unseenValues (cstr "content-length") a.lines,
          h3reqdriveDigits x = some v ∧ (inp.fin = true → v = bodyLength inp.h3)) ∧
      (inp.fin = true → h3ConnectIsMethod a.req = true →
        ∀ n, a.req.contentLength = some n → n = bodyLength inp.h3) := by
  cases hfind : rdHdrsFind a.req (cstr "content-length") with
  | none =>
    have habsent := h.absent hfind
    have hall : ∀ x, x ∈ valuesOf (cstr "content-length") a.lines ↔
        x ∈ unseenValues (cstr "content-length") a.lines := by
      intro x
      rw [h.keeps, hfind]
      simp
    simp [LengthsAgree, hall, habsent]
  | some x =>
    obtain ⟨n, hn, hcl⟩ := h.digits x hfind
    constructor
    · rintro ⟨v, hv⟩
      obtain ⟨hx, hbody⟩ := hv x (h.keeps.mpr (Or.inl hfind))
      obtain rfl : n = v := Option.some.inj (hn.symm.trans hx)
      refine ⟨⟨n, ?_, fun y hy => hv y (h.keeps.mpr (Or.inr hy))⟩, ?_⟩
      · intro m hm
        exact Option.some.inj (hm.symm.trans hcl)
      · intro hfin _ m hm
        obtain rfl : m = n := Option.some.inj (hm.symm.trans hcl)
        exact hbody hfin
    · rintro ⟨⟨v, hv, hunseen⟩, hconnect⟩
      obtain rfl := hv n hcl
      refine ⟨n, fun y hy => ?_⟩
      rcases h.keeps.mp hy with hseen | hmem
      · obtain rfl : x = y := Option.some.inj (hfind.symm.trans hseen)
        refine ⟨hn, fun hfin => ?_⟩
        cases hmethod : h3ConnectIsMethod a.req with
        | true => exact hconnect hfin hmethod n hcl
        | false => exact h.length hfin hmethod n hcl
      · exact hunseen y hmem

theorem SeenChecked.hosts_iff (h : SeenChecked inp a) :
    HostsAgree a.req.authority a.lines ↔
      ∃ host, (∀ b, a.req.authority.or (rdHdrsFind a.req (cstr "host")) = some b → b = host) ∧
        ∀ x ∈ unseenValues (cstr "host") a.lines, x = host := by
  constructor
  · rintro ⟨host, hauthority, hall⟩
    refine ⟨host, ?_, fun x hx => hall x (h.keeps.mpr (Or.inr hx))⟩
    intro b hb
    rcases Option.or_eq_some_iff.mp hb with hb | ⟨-, hb⟩
    · exact hauthority b hb
    · exact hall b (h.keeps.mpr (Or.inl hb))
  · rintro ⟨host, hseen, hunseen⟩
    have hauthority : ∀ b, a.req.authority = some b → b = host := by
      intro b hb
      exact hseen b (by rw [hb]; rfl)
    refine ⟨host, hauthority, fun x hx => ?_⟩
    rcases h.keeps.mp hx with hfind | hmem
    · -- the line that was looked up was compared with `:authority`
      cases hb : a.req.authority with
      | some b => exact (h.host x b hfind hb).trans (hauthority b hb)
      | none => exact hseen x (by rw [hb]; exact hfind)
    · exact hunseen x hmem

end

/-- **Validation.** Accepted requests have consistent Content-Length and Host lines exactly when the
lines that the lookups do not see are consistent with those they see. -/
theorem validated_iff (inp : H3In) :
    (∀ a, wiredH3reqdriveRecvH3 inp = .ok a → Validated inp a) ↔
      ∀ a, wiredH3reqdriveRecvH3 inp = .ok a → UnseenAgree inp a := by
  apply forall_congr'
  intro a
  apply imp_congr_right
  intro haccept
  have h := seenChecked haccept
  rw [Validated, h.lengths_iff, h.hosts_iff]
  constructor
  · rintro ⟨⟨hlengths, hconnect⟩, hhosts⟩
    exact ⟨hlengths, hconnect, hhosts⟩
  · rintro ⟨hlengths, hconnect, hhosts⟩
    exact ⟨⟨hlengths, hconnect⟩, hhosts⟩

/-! ## Lines that are not seen -/

def acceptedValues (inp : H3In) (name : List UInt8) : Option (List (List UInt8)) :=
  match wiredH3reqdriveRecvH3 inp with
  | .ok a => some (valuesOf name a.lines)
  | .error _ => none

theorem acceptedValues_eq_some {inp : H3In} {values : List (List UInt8)}
    (h : acceptedValues inp name = some values) :
    ∃ a, wiredH3reqdriveRecvH3 inp = .ok a ∧ valuesOf name a.lines = values := by
  unfold acceptedValues at h
  split at h
  · next a ha => exact ⟨a, ha, Option.some.inj h⟩
  · cases h

/-- `GET https://a/` without a body, with further lines. -/
def getRequest (lines : List UInt8) : H3In where
  h3 := 0x01 :: UInt8.ofNat (8 + lines.length) ::
    ([0x00, 0x00, 0xd1, 0xd7, 0xc1, 0x50, 0x01, 0x61] ++ lines)
  fin := true
  scratch := 10240
  dyn := qpackDynInit 0

/-- `content-length: 0` and then `content-length: 5`. -/
def twoLengths : List UInt8 := [0xc4, 0x54, 0x01, 0x35]

/-- Thirty-two lines `accept: */*` and then `content-length: 5`. -/
def lateLength : List UInt8 := List.replicate 32 0xdd ++ [0x54, 0x01, 0x35]

/-- `host: a` and then `host: b`. -/
def twoHosts : List UInt8 :=
  [0x24, 0x68, 0x6f, 0x73, 0x74, 0x01, 0x61, 0x24, 0x68, 0x6f, 0x73, 0x74, 0x01, 0x62]

/-- A Content-Length that contradicts the one before it, one behind 32 other lines that contradicts
the body, and a Host that contradicts the one before it are accepted. -/
theorem contradicting_lines_accepted :
    (∃ a, wiredH3reqdriveRecvH3 (getRequest twoLengths) = .ok a ∧
      ¬ Validated (getRequest twoLengths) a) ∧
    (∃ a, wiredH3reqdriveRecvH3 (getRequest lateLength) = .ok a ∧
      ¬ Validated (getRequest lateLength) a) ∧
    (∃ a, wiredH3reqdriveRecvH3 (getRequest twoHosts) = .ok a ∧
      ¬ Validated (getRequest twoHosts) a) := by
  refine ⟨?_, ?_, ?_⟩
  · have hvalues : acceptedValues (getRequest twoLengths) (cstr "content-length") =
        some [cstr "0", cstr "5"] := by decide +kernel
    obtain ⟨a, ha, hlines⟩ := acceptedValues_eq_some hvalues
    refine ⟨a, ha, ?_⟩
    rintro ⟨⟨v, hv⟩, -⟩
    rw [hlines] at hv
    have hzero : h3reqdriveDigits (cstr "0") = some v := (hv _ (by simp)).1
    have hfive : h3reqdriveDigits (cstr "5") = some v := (hv _ (by simp)).1
    exact absurd (hzero.trans hfive.symm) (by decide)
  · have hvalues : acceptedValues (getRequest lateLength) (cstr "content-length") =
        some [cstr "5"] := by decide +kernel
    obtain ⟨a, ha, hlines⟩ := acceptedValues_eq_some hvalues
    refine ⟨a, ha, ?_⟩
    rintro ⟨⟨v, hv⟩, -⟩
    rw [hlines] at hv
    obtain ⟨hfive, hbody⟩ := hv _ (mem_singleton_self _)
    have hempty : bodyLength (getRequest lateLength).h3 = 0 := by decide +kernel
    rw [hbody rfl, hempty] at hfive
    exact absurd hfive (by decide)
  · have hvalues : acceptedValues (getRequest twoHosts) (cstr "host") =
        some [cstr "a", cstr "b"] := by decide +kernel
    obtain ⟨a, ha, hlines⟩ := acceptedValues_eq_some hvalues
    refine ⟨a, ha, ?_⟩
    rintro ⟨-, host, -, hall⟩
    rw [hlines] at hall
    have hfirst : cstr "a" = host := hall _ (by simp)
    have hsecond : cstr "b" = host := hall _ (by simp)
    exact absurd (hfirst.trans hsecond.symm) (by decide)

end Wired.Http3
