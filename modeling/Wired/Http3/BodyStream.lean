import Wired.Http3.BodyWindow
import Wired.Lib.Run

/-!
# The streamed body of a request

The body window over whole runs: fragments of the stream land in any order, the leading HEADERS
frame slides out of the window once it is whole, and pump calls come at any time. What the
application receives is compared with `parseBody`, which reads the body in one piece; a run keeps
that reading the rest so, from where the window's parser stands, gives what is missing.

* `body_streamed`: the application receives the DATA payloads of the body.
* `body_within_credit`: nothing that the peer was allowed to send is dropped.
-/

namespace Wired.Http3

open Lib Bytes List

/-! ## The body in one piece -/

/-- Where a parser of the body stands: what is left of a frame, and the types denied from now on. -/
structure BodyParser where
  left : Nat
  isData : Bool
  deny : Nat
deriving DecidableEq, Repr

/-- A body that was read: its data, the parser after it and how it ended. -/
structure BodyResult where
  data : List UInt8
  parser : BodyParser
  state : BodywinState
deriving DecidableEq, Repr

def BodyResult.prepend (bytes : List UInt8) (r : BodyResult) : BodyResult :=
  { r with data := bytes ++ r.data }

def BodyParser.reject (p : BodyParser) (type : Nat) : BodywinState :=
  bodywinReject { bodywinEmpty with deny := p.deny } type

def BodyParser.enter (p : BodyParser) (type len : Nat) : BodyParser where
  left := len
  isData := type = h3FrameData
  deny := p.deny ||| if type = h3FrameHeaders then 0x3 else 0

def BodyParser.payload (p : BodyParser) (n : Nat) (b : List UInt8) : List UInt8 :=
  if p.isData then b.take n else []

def BodyParser.cut (p : BodyParser) (b : List UInt8) : BodyResult where
  data := p.payload p.left b
  parser := { p with left := p.left - b.length }
  state := .frameError

def parseFrames (p : BodyParser) (b : List UInt8) : BodyResult :=
  match _hget : h3frameGetHead b with
  | none => { data := [], parser := p, state := if b = [] then .done else .frameError }
  | some ((type, len), n) =>
    if p.reject type = .open then
      let q := p.enter type len
      if (b.drop n).length < len then q.cut (b.drop n)
      else
        (parseFrames { q with left := 0 } ((b.drop n).drop len)).prepend (q.payload len (b.drop n))
    else { data := [], parser := p, state := p.reject type }
termination_by b.length
decreasing_by
  have hpos := h3frameGetHead_stable.pos _hget
  have hle := h3frameGetHead_stable.le _hget
  rw [length_drop, length_drop]
  omega

/-- Reads a body to its end from anywhere: the rest of a frame, then the frames after it. -/
def parseBody (p : BodyParser) (b : List UInt8) : BodyResult :=
  if b.length < p.left then p.cut b
  else (parseFrames { p with left := 0 } (b.drop p.left)).prepend (p.payload p.left b)

def parserFresh : BodyParser where
  left := 0
  isData := false
  deny := 0

variable {p : BodyParser} {b rest unread S : List UInt8} {type len n : Nat}

@[simp] theorem BodyResult.prepend_nil (r : BodyResult) : r.prepend [] = r := rfl

@[simp] theorem BodyResult.prepend_prepend (a b : List UInt8) (r : BodyResult) :
    (r.prepend b).prepend a = r.prepend (a ++ b) := by
  simp [BodyResult.prepend]

@[simp] theorem BodyResult.prepend_data (a : List UInt8) (r : BodyResult) :
    (r.prepend a).data = a ++ r.data := rfl

@[simp] theorem BodyParser.payload_zero (p : BodyParser) (b : List UInt8) : p.payload 0 b = [] := by
  simp [BodyParser.payload]

theorem parseBody_payload {k : Nat} (hk : k ≤ p.left) (hb : k ≤ b.length) :
    parseBody p b =
      (parseBody { p with left := p.left - k } (b.drop k)).prepend (p.payload k b) := by
  have hsplit : p.payload p.left b = p.payload k b ++
      BodyParser.payload { p with left := p.left - k } (p.left - k) (b.drop k) := by
    unfold BodyParser.payload
    split
    · rw [← take_add, Nat.add_sub_cancel' hk]
    · rfl
  have hdrop : (b.drop k).drop (p.left - k) = b.drop p.left := by
    rw [drop_drop, Nat.add_sub_cancel' hk]
  have hlen : (b.drop k).length = b.length - k := length_drop
  unfold parseBody
  dsimp only
  rw [hdrop, hlen]
  by_cases hcut : b.length < p.left
  · rw [if_pos hcut, if_pos (by omega)]
    simp only [BodyParser.cut, BodyResult.prepend, hsplit, hlen, BodyResult.mk.injEq,
      BodyParser.mk.injEq, and_self, and_true, true_and]
    omega
  · rw [if_neg hcut, if_neg (by omega), BodyResult.prepend_prepend, hsplit]

theorem parseBody_boundary (hleft : p.left = 0) (b : List UInt8) :
    parseBody p b = parseFrames p b := by
  obtain ⟨left, isData, deny⟩ := p
  obtain rfl : left = 0 := hleft
  simp [parseBody]

theorem parseBody_head (hleft : p.left = 0) (hget : h3frameGetHead b = some ((type, len), n)) :
    parseBody p b = if p.reject type = .open then parseBody (p.enter type len) (b.drop n)
      else { data := [], parser := p, state := p.reject type } := by
  rw [parseBody_boundary hleft, parseFrames]
  split
  · rename_i hnone
    rw [hget] at hnone
    cases hnone
  · rename_i type' len' n' hsome
    rw [hget] at hsome
    cases hsome
    rfl

theorem parseBody_none (hleft : p.left = 0) (hget : h3frameGetHead b = none) :
    parseBody p b =
      { data := [], parser := p, state := if b = [] then .done else .frameError } := by
  rw [parseBody_boundary hleft, parseFrames]
  split
  · rfl
  · rename_i hsome
    rw [hget] at hsome
    cases hsome

theorem parseBody_cut (hleft : p.left ≠ 0) :
    parseBody p [] = { data := [], parser := p, state := .frameError } := by
  rw [parseBody, if_pos (by rw [length_nil]; omega)]
  simp [BodyParser.cut, BodyParser.payload]

/-! ## The calls of the application -/

/-- A call of the application, with its answer. -/
structure BodyCall where
  chunk : List UInt8
  fin : Bool
  answer : Bool
deriving DecidableEq, Repr

variable {σ : Type}

/-- An application and the record of its calls. -/
def logged (fn : BodywinSink σ) : BodywinSink (σ × List BodyCall) := fun ctx chunk fin =>
  let r := fn ctx.1 chunk fin
  ((r.1, ctx.2 ++ [{ chunk := chunk, fin := fin, answer := r.2 }]), r.2)

/-- The bytes that the application was given. -/
def bytesOf (calls : List BodyCall) : List UInt8 := calls.flatMap BodyCall.chunk

@[simp] theorem bytesOf_nil : bytesOf [] = [] := rfl

@[simp] theorem bytesOf_append (calls : List BodyCall) (c : BodyCall) :
    bytesOf (calls ++ [c]) = bytesOf calls ++ c.chunk := by
  simp [bytesOf]

/-- Calls that the application answered with yes, none of them the last one. -/
def Continued (calls : List BodyCall) : Prop := ∀ c ∈ calls, c.fin = false ∧ c.answer = true

variable {calls : List BodyCall}

theorem Continued.append (h : Continued calls) {c : BodyCall} (hfin : c.fin = false)
    (hanswer : c.answer = true) : Continued (calls ++ [c]) := by
  unfold Continued
  rw [forall_mem_append, forall_mem_singleton]
  exact ⟨h, hfin, hanswer⟩

/-- Where the parser of a window stands. -/
def parserOf (w : Bodywin) : BodyParser where
  left := w.left
  isData := w.isData
  deny := w.deny

/-- A window's parser, the unread rest of the body and the calls so far, against the whole body. -/
inductive Progress (whole : BodyResult) :
    List UInt8 → BodyParser → BodywinState → List BodyCall → Prop
  | reading {rest : List UInt8} {p : BodyParser} {calls : List BodyCall}
      (hcalls : Continued calls) (hwhole : whole = (parseBody p rest).prepend (bytesOf calls)) :
      Progress whole rest p .open calls
  | failed {rest : List UInt8} {p : BodyParser} {state : BodywinState} {calls : List BodyCall}
      (hcalls : Continued calls) (hwhole : whole = ⟨bytesOf calls, p, state⟩)
      (hstate : state = .frameError ∨ state = .frameUnexpected ∨ state = .wtSignal) :
      Progress whole rest p state calls
  | finished {rest : List UInt8} {p : BodyParser} {calls : List BodyCall} {last : BodyCall}
      (hcalls : Continued calls) (hfin : last.fin = true) (hanswer : last.answer = true)
      (hwhole : whole = ⟨bytesOf (calls ++ [last]), p, .done⟩) :
      Progress whole rest p .done (calls ++ [last])
  | refused {rest : List UInt8} {p : BodyParser} {calls : List BodyCall} {last : BodyCall}
      (hcalls : Continued calls) (hanswer : last.answer = false)
      (hdata : bytesOf (calls ++ [last]) <+: whole.data)
      (hlast : last.fin = true →
        bytesOf (calls ++ [last]) = whole.data ∧ whole.state = .done) :
      Progress whole rest p .rejected (calls ++ [last])

/-! ## One pump -/

/-- The cursor of a pump over the unread part of the stream, of which it sees the beginning. -/
structure Reading (whole : BodyResult) (unread : List UInt8)
    (r : BodywinRun (σ × List BodyCall)) : Prop where
  avail : r.avail <+: unread
  pos_le : r.pos ≤ r.avail.length
  finOff : r.w.fin = true → r.w.finOff = r.w.base + unread.length
  progress : Progress whole (unread.drop r.pos) (parserOf r.w) r.w.state r.ctx.2

def Stopped (r : BodywinRun σ) : Prop :=
  r.w.state ≠ .open ∨ (r.w.left ≠ 0 ∧ r.pos = r.avail.length) ∨
    (r.w.left = 0 ∧ h3frameGetHead (r.avail.drop r.pos) = none)

/-- A round of the loop reads on, or the parser has come as far as it can. -/
structure Advances (whole : BodyResult) (unread : List UInt8)
    (r : BodywinRun (σ × List BodyCall)) (s : BodywinRun (σ × List BodyCall) × Bool) : Prop where
  reading : Reading whole unread s.1
  avail : s.1.avail = r.avail
  goes : s.2 = true → r.pos < s.1.pos
  stops : s.2 = false → Stopped s.1

variable {whole : BodyResult}

theorem Progress.of_open (h : Progress whole rest p .open calls) :
    Continued calls ∧ whole = (parseBody p rest).prepend (bytesOf calls) := by
  cases h with
  | reading hcalls hwhole => exact ⟨hcalls, hwhole⟩
  | failed _ _ hstate => simp at hstate

theorem bodywinReject_cases (w : Bodywin) (type : Nat) :
    bodywinReject w type = .open ∨ bodywinReject w type = .frameUnexpected ∨
      bodywinReject w type = .wtSignal := by
  unfold bodywinReject
  split
  · simp
  · split <;> simp

variable {r : BodywinRun (σ × List BodyCall)}

theorem Progress.call {chunk : List UInt8} {fin : Bool} (hcalls : Continued calls)
    (hwhole : whole = (parseBody p rest).prepend (bytesOf calls ++ chunk))
    (hfin : fin = true → parseBody p rest = ⟨[], p, .done⟩) (answer : Bool) :
    Progress whole rest p (bodywinNext answer fin) (calls ++ [⟨chunk, fin, answer⟩]) := by
  cases answer with
  | false =>
    refine .refused hcalls rfl ?_ ?_
    · rw [hwhole, bytesOf_append]
      exact prefix_append _ _
    · intro hlast
      rw [hwhole, hfin hlast, bytesOf_append]
      exact ⟨by simp, rfl⟩
  | true =>
    cases fin with
    | false =>
      refine .reading (hcalls.append rfl rfl) ?_
      rw [hwhole, bytesOf_append]
    | true =>
      refine .finished hcalls rfl rfl ?_
      rw [hwhole, hfin rfl, bytesOf_append]
      simp [BodyResult.prepend]

section

variable (h : Reading whole unread r)
include h

theorem Reading.avail_drop : r.avail.drop r.pos <+: unread.drop r.pos := by
  obtain ⟨more, hmore⟩ := h.avail
  refine ⟨more, ?_⟩
  rw [← hmore, drop_append_of_le_length h.pos_le]

theorem Reading.header (hopen : r.w.state = .open)
    (hleft : r.w.left = 0) : Advances whole unread r (bodywinHeader r) := by
  have hp := h.progress
  rw [hopen] at hp
  obtain ⟨hcalls, hwhole⟩ := hp.of_open
  have hboundary : (parserOf r.w).left = 0 := hleft
  unfold bodywinHeader
  cases hget : h3frameGetHead (r.avail.drop r.pos) with
  | none => exact ⟨h, rfl, nofun, fun _ => .inr (.inr ⟨hleft, hget⟩)⟩
  | some head =>
    obtain ⟨⟨type, len⟩, n⟩ := head
    have hpos := h3frameGetHead_stable.pos hget
    have hle := h3frameGetHead_stable.le hget
    rw [length_drop] at hle
    have hunread := h3frameGetHead_stable.of_prefix hget h.avail_drop
    have hhead := parseBody_head hboundary hunread
    change _ = if bodywinReject r.w type = .open then _ else _ at hhead
    dsimp only
    by_cases hok : bodywinReject r.w type = .open
    · rw [if_neg (not_not_intro hok)]
      refine ⟨⟨h.avail, ?_, h.finOff, ?_⟩, rfl, fun _ => ?_, nofun⟩
      · show r.pos + n ≤ r.avail.length
        omega
      · rw [hok]
        refine .reading hcalls ?_
        rw [hwhole, hhead, if_pos hok, drop_drop]
        rfl
      · show r.pos < r.pos + n
        omega
    · rw [if_pos hok]
      refine ⟨⟨h.avail, h.pos_le, h.finOff, ?_⟩, rfl, nofun, fun _ => .inl hok⟩
      refine .failed hcalls ?_ ?_
      · rw [hwhole, hhead, if_neg hok]
        simp only [BodyResult.prepend, append_nil]
        rfl
      · exact (bodywinReject_cases r.w type).elim (fun h => absurd h hok) .inr

theorem Reading.payload (hopen : r.w.state = .open) (hleft : r.w.left ≠ 0) (fn : BodywinSink σ) :
    Advances whole unread r (bodywinPayload (logged fn) r) := by
  have hp := h.progress
  rw [hopen] at hp
  obtain ⟨hcalls, hwhole⟩ := hp.of_open
  have hpl := h.pos_le
  have hal := h.avail.length_le
  unfold bodywinPayload
  generalize hn : min r.w.left (r.avail.length - r.pos) = n
  by_cases hzero : n = 0
  · rw [if_pos hzero]
    have hall : r.pos = r.avail.length := by omega
    exact ⟨h, rfl, nofun, fun _ => .inr (.inl ⟨hleft, hall⟩)⟩
  · rw [if_neg hzero]
    have hchunk : (unread.drop r.pos).take n = (r.avail.drop r.pos).take n := by
      obtain ⟨more, hmore⟩ := h.avail_drop
      rw [← hmore, take_append_of_le_length (by rw [length_drop]; omega)]
    have hread : parseBody (parserOf r.w) (unread.drop r.pos) =
        (parseBody { parserOf r.w with left := r.w.left - n } (unread.drop (r.pos + n))).prepend
          (if r.w.isData then (r.avail.drop r.pos).take n else []) := by
      rw [← hchunk, ← drop_drop]
      exact parseBody_payload (k := n) (show n ≤ r.w.left by omega)
        (by rw [length_drop]; omega)
    rw [hread, BodyResult.prepend_prepend] at hwhole
    unfold bodywinDeliver
    by_cases hdata : r.w.isData = true
    · rw [if_pos hdata] at hwhole ⊢
      refine ⟨⟨h.avail, ?_, h.finOff, ?_⟩, rfl, fun _ => ?_, nofun⟩
      · show r.pos + n ≤ r.avail.length
        omega
      · refine Progress.call hcalls hwhole ?_ _
        -- the last chunk ends at the final size, where nothing is left to read
        intro hfin
        simp only [bodywinChunkFin, Bool.and_eq_true, decide_eq_true_eq] at hfin
        obtain ⟨⟨hall, hknown⟩, hend⟩ := hfin
        have hlen := h.finOff hknown
        rw [drop_of_length_le (by omega)]
        exact parseBody_none (by show r.w.left - n = 0; omega) h3frameGetHead_stable.nil
      · show r.pos < r.pos + n
        omega
    · rw [if_neg hdata] at hwhole ⊢
      refine ⟨⟨h.avail, ?_, h.finOff, ?_⟩, rfl, fun _ => ?_, nofun⟩
      · show r.pos + n ≤ r.avail.length
        omega
      · rw [hopen]
        refine .reading hcalls ?_
        rw [append_nil] at hwhole
        exact hwhole
      · show r.pos < r.pos + n
        omega

theorem Reading.step (hopen : r.w.state = .open) (fn : BodywinSink σ) :
    Advances whole unread r (bodywinStep (logged fn) r) := by
  unfold bodywinStep
  split
  · rename_i hleft
    exact h.payload hopen hleft fn
  · rename_i hleft
    exact h.header hopen (not_not.mp hleft)

end

theorem Reading.loop (fn : BodywinSink σ) (fuel : Nat) (h : Reading whole unread r)
    (hfuel : r.avail.length - r.pos < fuel) :
    Reading whole unread (bodywinLoop (logged fn) fuel r) ∧
      (bodywinLoop (logged fn) fuel r).avail = r.avail ∧
      Stopped (bodywinLoop (logged fn) fuel r) := by
  induction fuel generalizing r with
  | zero => omega
  | succ fuel ih =>
    unfold bodywinLoop
    by_cases hopen : r.w.state = .open
    · rw [if_pos hopen]
      have hs := h.step hopen fn
      by_cases hgo : (bodywinStep (logged fn) r).2 = true
      · rw [if_pos hgo]
        have hlt := hs.goes hgo
        have hle := hs.reading.pos_le
        rw [hs.avail] at hle
        obtain ⟨hr, ha, hstop⟩ := ih hs.reading (by rw [hs.avail]; omega)
        exact ⟨hr, ha.trans hs.avail, hstop⟩
      · rw [if_neg hgo]
        exact ⟨hs.reading, hs.avail, hs.stops (by simpa using hgo)⟩
    · rw [if_neg hopen]
      exact ⟨h, rfl, .inl hopen⟩

variable {ctx : σ × List BodyCall}

theorem Progress.atEnd {w : Bodywin} (h : Progress whole rest (parserOf w) w.state ctx.2)
    (hstop : bodywinAllIn w = true → bodywinAvail w = rest.length ∧
      (w.state ≠ .open ∨ (w.left ≠ 0 ∧ rest = []) ∨ (w.left = 0 ∧ h3frameGetHead rest = none)))
    (fn : BodywinSink σ) :
    Progress whole rest (parserOf (bodywinEnd (logged fn) w ctx).1)
        (bodywinEnd (logged fn) w ctx).1.state (bodywinEnd (logged fn) w ctx).2.2 ∧
      (bodywinAllIn w = true → (bodywinEnd (logged fn) w ctx).1.state ≠ .open) := by
  unfold bodywinEnd
  by_cases hend : bodywinAtEnd w = true
  · simp only [hend, Bool.not_true, Bool.false_eq_true, if_false]
    simp only [bodywinAtEnd, Bool.and_eq_true, decide_eq_true_eq] at hend
    obtain ⟨hopen, hall⟩ := hend
    obtain ⟨havail, hstop⟩ := hstop hall
    rw [hopen] at h
    obtain ⟨hcalls, hwhole⟩ := h.of_open
    replace hstop := hstop.resolve_left (fun hne => hne hopen)
    by_cases hrest : w.left + bodywinAvail w ≠ 0
    · rw [if_pos hrest]
      have hparse : parseBody (parserOf w) rest = ⟨[], parserOf w, .frameError⟩ := by
        rcases hstop with ⟨hleft, rfl⟩ | ⟨hleft, hnone⟩
        · exact parseBody_cut hleft
        · have hne : rest ≠ [] := by
            rintro rfl
            rw [havail, hleft] at hrest
            exact hrest rfl
          rw [parseBody_none hleft hnone, if_neg hne]
      refine ⟨.failed hcalls ?_ (.inl rfl), nofun⟩
      rw [hwhole, hparse]
      simp [BodyResult.prepend, parserOf]
    · rw [if_neg hrest]
      have hnil : rest = [] := eq_nil_of_length_eq_zero (by omega)
      have hparse : parseBody (parserOf w) rest = ⟨[], parserOf w, .done⟩ := by
        subst hnil
        exact parseBody_none (by show w.left = 0; omega) h3frameGetHead_stable.nil
      refine ⟨Progress.call hcalls ?_ (fun _ => hparse) _, fun _ => ?_⟩
      · rw [hwhole, append_nil]
      · show bodywinNext (fn ctx.1 [] true).2 true ≠ .open
        cases (fn ctx.1 [] true).2 <;> simp [bodywinNext]
  · have hnot : (!bodywinAtEnd w) = true := by simpa using hend
    rw [if_pos hnot]
    refine ⟨h, fun hall hopen => hend ?_⟩
    simpa [bodywinAtEnd, hall] using hopen

section

variable {s : Windowed} (hf : Follows S s)
  (h : Progress whole (S.drop s.w.base) (parserOf s.w) s.w.state ctx.2) (fn : BodywinSink σ)
include hf h fn

theorem pumpLoop_spec : let avail := readCells s.buf (bodywinAvail s.w)
    let r := bodywinLoop (logged fn) (avail.length + 1)
      { w := s.w, avail := avail, pos := 0, ctx := ctx }
    Reading whole (S.drop s.w.base) r ∧
      r.avail = (S.drop s.w.base).take (bodywinFrontier s.w) ∧
      r.pos ≤ bodywinFrontier s.w ∧ Stopped r := by
  intro avail r
  have havail : avail = (S.drop s.w.base).take (bodywinFrontier s.w) := by
    rw [← hf.contents le_rfl, ← hf.avail_eq]
  have hbase := hf.base_le
  have hstart : Reading whole (S.drop s.w.base)
      { w := s.w, avail := avail, pos := 0, ctx := ctx } := by
    refine ⟨?_, zero_le, fun hfin => ?_, h⟩
    · rw [havail]
      exact take_prefix _ _
    · show s.w.finOff = s.w.base + _
      rw [hf.finOff hfin, length_drop]
      omega
  obtain ⟨hr, ha, hstop⟩ := hstart.loop fn (avail.length + 1) (Nat.lt_succ_self _)
  have hlen : avail.length ≤ bodywinFrontier s.w := by
    rw [havail, length_take]
    exact Nat.min_le_left _ _
  have hpos := hr.pos_le
  rw [ha] at hpos
  exact ⟨hr, ha.trans havail, le_trans hpos hlen, hstop⟩

theorem bodywinPump_spec : let t := bodywinPump (logged fn) s ctx
    Follows S t.1 ∧ Progress whole (S.drop t.1.w.base) (parserOf t.1.w) t.1.w.state t.2.2 ∧
      (bodywinAllIn s.w = true → t.1.w.state ≠ .open) ∧
      ∃ n ≤ bodywinFrontier s.w, t.1.w.base = s.w.base + n ∧
        t.1.w.marks = bitsShiftDown s.w.marks bodywinCap n := by
  obtain ⟨hr, havail, hpos, hstop⟩ := pumpLoop_spec hf h fn
  unfold bodywinPump
  dsimp only at hr havail hpos hstop ⊢
  have hsame := bodywinLoop_same (logged fn)
    ((readCells s.buf (bodywinAvail s.w)).length + 1)
    { w := s.w, avail := readCells s.buf (bodywinAvail s.w), pos := 0, ctx := ctx }
  generalize bodywinLoop (logged fn) ((readCells s.buf (bodywinAvail s.w)).length + 1)
    { w := s.w, avail := readCells s.buf (bodywinAvail s.w), pos := 0, ctx := ctx } = r
    at hr havail hpos hstop hsame ⊢
  have hfr : bodywinFrontier r.w = bodywinFrontier s.w := by
    rw [bodywinFrontier, hsame.marks, bodywinFrontier]
  have hfit : r.pos ≤ bodywinFrontier r.w := by rwa [hfr]
  have hf' := (hf.of_same hsame).consume hfit
  have hfr' := bodywinConsume_frontier { s with w := r.w } hfit
  have hprogress : Progress whole (S.drop (s.w.base + r.pos)) (parserOf r.w) r.w.state r.ctx.2 := by
    rw [← drop_drop]
    exact hr.progress
  have hbase : (bodywinConsume { s with w := r.w } r.pos).w.base = s.w.base + r.pos := by
    rw [← hsame.base]
    rfl
  -- with everything in, the parser has seen all that is unread
  have hstopped : bodywinAllIn (bodywinConsume { s with w := r.w } r.pos).w = true →
      bodywinAvail (bodywinConsume { s with w := r.w } r.pos).w =
        (S.drop (s.w.base + r.pos)).length ∧
      (r.w.state ≠ .open ∨ (r.w.left ≠ 0 ∧ S.drop (s.w.base + r.pos) = []) ∨
        (r.w.left = 0 ∧ h3frameGetHead (S.drop (s.w.base + r.pos)) = none)) := by
    intro hall
    obtain ⟨-, hend⟩ := hf'.allIn_iff.mp hall
    rw [hbase, hfr'] at hend
    dsimp only at hend
    have hseen : r.avail = S.drop s.w.base := by
      rw [havail]
      apply take_of_length_le
      rw [length_drop]
      omega
    refine ⟨?_, ?_⟩
    · rw [hf'.avail_eq, hfr', length_drop]
      dsimp only
      omega
    · unfold Stopped at hstop
      rw [hseen, drop_drop] at hstop
      refine hstop.imp_right (Or.imp_left fun hpart => ⟨hpart.1, ?_⟩)
      have hp := hpart.2
      apply drop_of_length_le
      rw [hp, length_drop]
      omega
  obtain ⟨hp, hopen⟩ := Progress.atEnd (w := (bodywinConsume { s with w := r.w } r.pos).w)
    hprogress hstopped fn
  have hsame' := bodywinEnd_same (logged fn) (bodywinConsume { s with w := r.w } r.pos).w r.ctx
  refine ⟨hf'.of_same hsame', ?_, ?_, r.pos, hpos, ?_, ?_⟩
  · rw [hsame'.base, hbase]
    exact hp
  · intro hall
    obtain ⟨hfin, hend⟩ := hf.allIn_iff.mp hall
    refine hopen (hf'.allIn_iff.mpr ⟨?_, ?_⟩)
    · show r.w.fin = true
      rw [hsame.fin, hfin]
    · rw [hbase, hfr']
      dsimp only
      omega
  · rw [hsame'.base, hbase]
  · rw [hsame'.marks]
    simp only [bodywinConsume]
    rw [hsame.marks]

end

/-! ## Whole runs -/

inductive BodyOp where
  | land (off len : Nat) (fin : Bool)
  /-- `route_body_start`, for a request that the decoder takes. -/
  | start
  | pump
deriving DecidableEq, Repr

/-- A window with its application and, for the proofs, the bytes that landed inside of it. -/
structure BodyTrace (σ : Type) where
  s : Windowed
  ctx : σ × List BodyCall
  got : Nat → Bool

/-- The window as its slot is claimed. -/
def bodyTraceEmpty (buf : Nat → UInt8) (ctx : σ) : BodyTrace σ where
  s := { w := bodywinEmpty, buf := buf }
  ctx := (ctx, [])
  got := fun _ => false

/-- Slides the HEADERS frame out of the window, if it is whole. -/
def routeBodyBegin (s : Windowed) : Windowed :=
  let n := headersEnd (readCells s.buf (bodywinAvail s.w))
  if s.w.on = true ∨ n = 0 then s
  else
    let s := bodywinConsume s n
    { s with w := { s.w with on := true } }

def bodyStep (S : List UInt8) (fn : BodywinSink σ) (t : BodyTrace σ) : BodyOp → BodyTrace σ
  | .land off len fin =>
    let f := fragment S off len fin
    { t with
      s := landFragment t.s f
      got := fun o => t.got o ||
        (bodywinIn t.s.w o && decide (f.off ≤ o ∧ o < f.off + f.data.length)) }
  | .start => { t with s := routeBodyBegin t.s }
  | .pump =>
    if t.s.w.on then
      let r := bodywinPump (logged fn) t.s t.ctx
      { t with s := r.1, ctx := r.2 }
    else t

/-- The body behind the HEADERS of a stream, read in one piece. -/
def wholeBody (S : List UInt8) : BodyResult := parseBody parserFresh (S.drop (headersEnd S))

/-- What holds between events. -/
structure BodyInv (S : List UInt8) (t : BodyTrace σ) : Prop where
  follows : Follows S t.s
  /-- What landed is in the window until it was read. -/
  kept : ∀ o, t.got o = true → o < t.s.w.base ∨
    (o - t.s.w.base < bodywinCap ∧ bitsGet t.s.w.marks (o - t.s.w.base) = true)
  before : t.s.w.on = false → t.s.w.base = 0 ∧ parserOf t.s.w = parserFresh ∧
    t.s.w.state = .open ∧ t.ctx.2 = []
  during : t.s.w.on = true → Progress (wholeBody S) (S.drop t.s.w.base) (parserOf t.s.w)
    t.s.w.state t.ctx.2

namespace BodyInv

variable {t : BodyTrace σ}

theorem empty (S : List UInt8) (buf : Nat → UInt8) (ctx : σ) :
    BodyInv S (bodyTraceEmpty buf ctx) where
  follows := Follows.empty S buf
  kept := nofun
  before := fun _ => ⟨rfl, rfl, rfl, rfl⟩
  during := nofun

section

variable (h : BodyInv S t)

include h

theorem kept_slide {w : Bodywin} (hbase : w.base = t.s.w.base + n)
    (hmarks : w.marks = bitsShiftDown t.s.w.marks bodywinCap n) :
    ∀ o, t.got o = true → o < w.base ∨
      (o - w.base < bodywinCap ∧ bitsGet w.marks (o - w.base) = true) := by
  intro o ho
  rw [hbase, hmarks]
  rcases h.kept o ho with hlt | ⟨hlt, hm⟩
  · exact .inl (by omega)
  · by_cases hread : o < t.s.w.base + n
    · exact .inl hread
    · have hcap : o - (t.s.w.base + n) < bodywinCap := by omega
      have hindex : o - (t.s.w.base + n) + n = o - t.s.w.base := by omega
      refine .inr ⟨hcap, ?_⟩
      rw [bitsGet_shiftDown _ (by decide) n hcap, hindex, hm, decide_eq_true hlt]
      rfl

theorem headersEnd_window (hon : t.s.w.on = false)
    (hn : headersEnd (readCells t.s.buf (bodywinAvail t.s.w)) ≠ 0) :
    headersEnd (readCells t.s.buf (bodywinAvail t.s.w)) = headersEnd S := by
  refine (headersEnd_extend hn ?_).symm
  rw [h.follows.avail_eq, h.follows.contents le_rfl, (h.before hon).1, drop_zero]
  exact take_prefix _ _

/-- Once every byte has landed or was read, the window reaches to the end of the stream. -/
theorem frontier_of_reached (hreached : ∀ o < S.length, o < t.s.w.base ∨ t.got o = true) :
    t.s.w.base + bodywinFrontier t.s.w = S.length := by
  have hle := h.follows.frontier_le
  by_cases hdone : t.s.w.base = S.length
  · omega
  · have hmark : ∀ i < S.length - t.s.w.base,
        i < bodywinCap ∧ bitsGet t.s.w.marks i = true := by
      intro i hi
      have hlt : t.s.w.base + i < S.length := by omega
      have hgot : t.got (t.s.w.base + i) = true := (hreached _ hlt).resolve_left (by omega)
      rcases h.kept _ hgot with hread | hm
      · omega
      · rwa [Nat.add_sub_cancel_left] at hm
    have hcap := (hmark (S.length - t.s.w.base - 1) (by omega)).1
    have hlead : S.length - t.s.w.base ≤ bodywinFrontier t.s.w :=
      le_leading (by omega) fun i hi => (hmark i hi).2
    omega

section

variable (fn : BodywinSink σ)

theorem land (off len : Nat) (fin : Bool) : BodyInv S (bodyStep S fn t (.land off len fin)) := by
  have hw := bodywinLand_w t.s (fragment S off len fin).off (fragment S off len fin).data
    (fragment S off len fin).fin
  have hbase : (landFragment t.s (fragment S off len fin)).w.base = t.s.w.base := by
    rw [landFragment, hw]
  have hon : (landFragment t.s (fragment S off len fin)).w.on = t.s.w.on := by rw [landFragment, hw]
  have hstate : (landFragment t.s (fragment S off len fin)).w.state = t.s.w.state := by
    rw [landFragment, hw]
  have hparser : parserOf (landFragment t.s (fragment S off len fin)).w = parserOf t.s.w := by
    rw [landFragment, hw]
    rfl
  refine ⟨h.follows.land off len fin, ?_, ?_, ?_⟩
  · intro o ho
    simp only [bodyStep, Bool.or_eq_true, Bool.and_eq_true, decide_eq_true_eq] at ho
    simp only [bodyStep, hbase]
    rcases ho with hold | ⟨hin, hcover⟩
    · refine (h.kept o hold).imp_right fun ⟨hlt, hm⟩ => ⟨hlt, ?_⟩
      rw [landFragment, bodywinLand_mark _ _ _ _ hlt, hm, Bool.true_or]
    · simp only [bodywinIn, ge_iff_le, Bool.and_eq_true, decide_eq_true_eq] at hin
      refine .inr ⟨hin.2, ?_⟩
      rw [landFragment, bodywinLand_mark _ _ _ _ hin.2, Nat.add_sub_cancel' hin.1,
        decide_eq_true hcover, Bool.or_true]
  · simp only [bodyStep, hbase, hon, hstate, hparser]
    exact h.before
  · simp only [bodyStep, hbase, hon, hstate, hparser]
    exact h.during

theorem start : BodyInv S (bodyStep S fn t .start) := by
  simp only [bodyStep, routeBodyBegin]
  by_cases hskip : t.s.w.on = true ∨ headersEnd (readCells t.s.buf (bodywinAvail t.s.w)) = 0
  · rw [if_pos hskip]
    exact h
  · rw [if_neg hskip]
    obtain ⟨hon, hn⟩ := not_or.mp hskip
    have hoff : t.s.w.on = false := by simpa using hon
    have hhead := h.headersEnd_window hoff hn
    obtain ⟨hbase, hparser, hstate, hcalls⟩ := h.before hoff
    have hfit : headersEnd S ≤ bodywinFrontier t.s.w := by
      rw [← hhead, ← h.follows.avail_eq]
      exact le_trans (headersEnd_le _) (le_of_eq (readCells_length _ _))
    have hf := h.follows.consume hfit
    have hmarks : (bodywinConsume t.s (headersEnd S)).w.marks =
        bitsShiftDown t.s.w.marks bodywinCap (headersEnd S) := by
      simp only [bodywinConsume]
    have hbase' : (bodywinConsume t.s (headersEnd S)).w.base = t.s.w.base + headersEnd S := rfl
    have hparser' : parserOf (bodywinConsume t.s (headersEnd S)).w = parserOf t.s.w := rfl
    have hstate' : (bodywinConsume t.s (headersEnd S)).w.state = t.s.w.state := rfl
    have hkept := h.kept_slide hbase' hmarks
    rw [hhead]
    generalize bodywinConsume t.s (headersEnd S) = s' at hf hkept hbase' hparser' hstate' ⊢
    refine ⟨⟨hf.holds, hf.base_le, hf.finOff⟩, hkept, fun hoff => Bool.noConfusion hoff,
      fun _ => ?_⟩
    show Progress _ (S.drop s'.w.base) (parserOf s'.w) s'.w.state t.ctx.2
    rw [hbase', hparser', hstate', hbase, hparser, hstate, hcalls, zero_add]
    exact .reading (by simp [Continued]) rfl

theorem pump : BodyInv S (bodyStep S fn t .pump) := by
  simp only [bodyStep]
  by_cases hon : t.s.w.on = true
  · rw [if_pos hon]
    obtain ⟨hf, hp, -, n, -, hbase, hmarks⟩ := bodywinPump_spec h.follows (h.during hon) fn
    have hon' := bodywinPump_on (logged fn) t.s t.ctx
    refine ⟨hf, h.kept_slide hbase hmarks, fun hoff => ?_, fun _ => hp⟩
    rw [hon', hon] at hoff
    cases hoff
  · rw [if_neg hon]
    exact h

theorem step (op : BodyOp) : BodyInv S (bodyStep S fn t op) := by
  cases op with
  | land off len fin => exact h.land fn off len fin
  | start => exact h.start fn
  | pump => exact h.pump fn

theorem base_le (op : BodyOp) : t.s.w.base ≤ (bodyStep S fn t op).s.w.base := by
  cases op with
  | land off len fin =>
    simp only [bodyStep, landFragment, bodywinLand_w]
    exact le_rfl
  | start =>
    simp only [bodyStep, routeBodyBegin]
    split
    · exact le_rfl
    · exact Nat.le_add_right _ _
  | pump =>
    simp only [bodyStep]
    split
    · rename_i hon
      obtain ⟨-, -, -, n, -, hbase, -⟩ := bodywinPump_spec h.follows (h.during hon) fn
      rw [hbase]
      exact Nat.le_add_right _ _
    · exact le_rfl

end

end

theorem run (S : List UInt8) (buf : Nat → UInt8) (fn : BodywinSink σ) (ctx : σ)
    (ops : List BodyOp) : BodyInv S (ops.foldl (bodyStep S fn) (bodyTraceEmpty buf ctx)) :=
  foldl_invariant (I := BodyInv S) (fun _ op h => h.step fn op) ops (empty S buf ctx)

theorem settles (h : BodyInv S t) (fn : BodywinSink σ) (hhead : headersEnd S ≠ 0)
    (hreached : ∀ o < S.length, o < t.s.w.base ∨ t.got o = true) (hfin : t.s.w.fin = true) :
    (bodyStep S fn (bodyStep S fn t .start) .pump).s.w.state ≠ .open := by
  have hstart := h.start fn
  have hon : (bodyStep S fn t .start).s.w.on = true := by
    simp only [bodyStep, routeBodyBegin]
    by_cases hon : t.s.w.on = true
    · rw [if_pos (.inl hon), hon]
    · have hoff : t.s.w.on = false := by simpa using hon
      have hall := h.frontier_of_reached hreached
      rw [(h.before hoff).1, zero_add] at hall
      have hcells : readCells t.s.buf (bodywinAvail t.s.w) = S := by
        rw [h.follows.avail_eq, h.follows.contents le_rfl, (h.before hoff).1, hall,
          drop_zero, take_length]
      rw [hcells, if_neg (not_or.mpr ⟨hon, hhead⟩)]
  have hfin' : (bodyStep S fn t .start).s.w.fin = true := by
    simp only [bodyStep, routeBodyBegin]
    split <;> exact hfin
  have hreached' : ∀ o < S.length,
      o < (bodyStep S fn t .start).s.w.base ∨ (bodyStep S fn t .start).got o = true := by
    intro o ho
    exact (hreached o ho).imp_left fun hlt => lt_of_lt_of_le hlt (h.base_le fn .start)
  have hall : bodywinAllIn (bodyStep S fn t .start).s.w = true :=
    hstart.follows.allIn_iff.mpr ⟨hfin', hstart.frontier_of_reached hreached'⟩
  obtain ⟨-, -, hsettled, -⟩ := bodywinPump_spec hstart.follows (hstart.during hon) fn
  generalize bodyStep S fn t .start = u at hon hall hsettled ⊢
  rw [bodyStep, if_pos hon]
  exact hsettled hall

end BodyInv

theorem Progress.calls_spec {state : BodywinState} (h : Progress whole rest p state calls) :
    bytesOf calls <+: whole.data ∧ Continued calls.dropLast ∧
      (∀ c ∈ calls, c.fin = true → bytesOf calls = whole.data ∧ whole.state = .done) ∧
      (state = .rejected ↔ ∃ c ∈ calls, c.answer = false) ∧
      (state ≠ .open → state ≠ .rejected →
        whole = ⟨bytesOf calls, p, state⟩ ∧ (state = .done → ∃ c ∈ calls, c.fin = true)) := by
  cases h with
  | reading hcalls hwhole =>
    refine ⟨?_, fun c hc => hcalls c (dropLast_subset _ hc), ?_, ?_, by simp⟩
    · rw [hwhole]
      exact prefix_append _ _
    · intro c hc hfin
      rw [(hcalls c hc).1] at hfin
      cases hfin
    · refine ⟨nofun, fun ⟨c, hc, hno⟩ => ?_⟩
      rw [(hcalls c hc).2] at hno
      cases hno
  | failed hcalls hwhole hstate =>
    refine ⟨?_, fun c hc => hcalls c (dropLast_subset _ hc), ?_, ?_, ?_⟩
    · exact ⟨[], by rw [append_nil, hwhole]⟩
    · intro c hc hfin
      rw [(hcalls c hc).1] at hfin
      cases hfin
    · refine ⟨fun hrej => by simp [hrej] at hstate, fun ⟨c, hc, hno⟩ => ?_⟩
      rw [(hcalls c hc).2] at hno
      cases hno
    · exact fun _ _ => ⟨hwhole, fun hdone => by simp [hdone] at hstate⟩
  | finished hcalls hfin hanswer hwhole =>
    refine ⟨?_, by rwa [dropLast_concat], ?_, ?_, ?_⟩
    · exact ⟨[], by rw [append_nil, hwhole]⟩
    · intro c _ _
      rw [hwhole]
      exact ⟨rfl, rfl⟩
    · refine ⟨nofun, fun ⟨c, hc, hno⟩ => ?_⟩
      rcases mem_append.mp hc with hc | hc
      · rw [(hcalls c hc).2] at hno
        cases hno
      · rw [mem_singleton.mp hc, hanswer] at hno
        cases hno
    · exact fun _ _ => ⟨hwhole, fun _ => ⟨_, mem_concat_self, hfin⟩⟩
  | refused hcalls hanswer hdata hlast =>
    refine ⟨hdata, by rwa [dropLast_concat], ?_, ?_, by simp⟩
    · rw [forall_mem_append, forall_mem_singleton]
      refine ⟨fun c hc hfin => ?_, hlast⟩
      rw [(hcalls c hc).1] at hfin
      cases hfin
    · exact ⟨fun _ => ⟨_, mem_concat_self, hanswer⟩, fun _ => rfl⟩

/-- **The streamed body.** Over every request stream, every landing of its bytes and every schedule
of pump calls: the application has received the DATA payloads from the beginning on; the end is told
at most once, in the last call, after all of them; a body that is settled, other than by the
application, leaves the parser as one reading of it does and has delivered all its data; and the
pump settles a body of which everything has landed. -/
theorem body_streamed (S : List UInt8) (buf : Nat → UInt8) (fn : BodywinSink σ) (ctx : σ)
    (ops : List BodyOp) :
    let t := ops.foldl (bodyStep S fn) (bodyTraceEmpty buf ctx)
    let calls := t.ctx.2
    let whole := wholeBody S
    bytesOf calls <+: whole.data ∧
      (∀ c ∈ calls.dropLast, c.fin = false ∧ c.answer = true) ∧
      (∀ c ∈ calls, c.fin = true → bytesOf calls = whole.data ∧ whole.state = .done) ∧
      (t.s.w.state = .rejected ↔ ∃ c ∈ calls, c.answer = false) ∧
      (t.s.w.state ≠ .open → t.s.w.state ≠ .rejected →
        whole = ⟨bytesOf calls, parserOf t.s.w, t.s.w.state⟩ ∧
          (t.s.w.state = .done → ∃ c ∈ calls, c.fin = true)) ∧
      (headersEnd S ≠ 0 → (∀ o < S.length, t.got o = true) → t.s.w.fin = true →
        (bodyStep S fn (bodyStep S fn t .start) .pump).s.w.state ≠ .open) := by
  intro t calls whole
  have h : BodyInv S t := BodyInv.run S buf fn ctx ops
  have hsettles : headersEnd S ≠ 0 → (∀ o < S.length, t.got o = true) → t.s.w.fin = true →
      (bodyStep S fn (bodyStep S fn t .start) .pump).s.w.state ≠ .open := by
    intro hhead hgot hfin
    exact h.settles fn hhead (fun o ho => .inr (hgot o ho)) hfin
  by_cases hon : t.s.w.on = true
  · obtain ⟨hdata, hinit, hlast, hrejected, hsettled⟩ := (h.during hon).calls_spec
    exact ⟨hdata, hinit, hlast, hrejected, hsettled, hsettles⟩
  · obtain ⟨-, -, hstate, hcalls⟩ := h.before (by simpa using hon)
    have hnil : calls = [] := hcalls
    rw [hnil]
    refine ⟨List.nil_prefix, nofun, nofun, ?_, fun hne => absurd hstate hne, hsettles⟩
    rw [hstate]
    simp

/-! ## Credit -/

/-- The limit that the peer is told, 0 for none, and the base at the last raise. -/
def bodywinCreditDue (w : Bodywin) (granted : Nat) : Nat × Nat :=
  if w.base ≤ granted then (0, granted) else (w.base + bodywinCap, w.base)

theorem bodywinCreditDue_le (w : Bodywin) (granted : Nat) :
    (bodywinCreditDue w granted).1 ≤ w.base + bodywinCap := by
  unfold bodywinCreditDue
  split
  · exact zero_le
  · exact le_rfl

theorem BodyInv.base_le_run {t : BodyTrace σ} (h : BodyInv S t) (fn : BodywinSink σ)
    (ops : List BodyOp) : t.s.w.base ≤ (ops.foldl (bodyStep S fn) t).s.w.base := by
  refine (foldl_invariant (I := fun u => BodyInv S u ∧ t.s.w.base ≤ u.s.w.base) ?_ ops
    ⟨h, le_rfl⟩).2
  rintro u op ⟨hu, hle⟩
  exact ⟨hu.step fn op, le_trans hle (hu.base_le fn op)⟩

/-- The byte at an offset is in the window: it is marked, and its cell has it. -/
def Stored (S : List UInt8) (s : Windowed) (o : Nat) : Prop :=
  s.w.base ≤ o ∧ o - s.w.base < bodywinCap ∧ bitsGet s.w.marks (o - s.w.base) = true ∧
    S[o]? = some (s.buf (o - s.w.base))

theorem BodyInv.stored {t : BodyTrace σ} (h : BodyInv S t) {o : Nat} (hgot : t.got o = true) :
    o < t.s.w.base ∨ Stored S t.s o := by
  by_cases hread : o < t.s.w.base
  · exact .inl hread
  · obtain ⟨hcap, hmark⟩ := (h.kept o hgot).resolve_left hread
    have hcell := h.follows.holds (o - t.s.w.base) hcap hmark
    rw [Nat.add_sub_cancel' (Nat.not_lt.mp hread)] at hcell
    exact .inr ⟨Nat.not_lt.mp hread, hcap, hmark, hcell⟩

/-- **Nothing within the credit is dropped.** Of a frame that ends within a limit the peer was told
before, or within the initial one, every byte is stored or was read before. -/
theorem body_within_credit (S : List UInt8) (buf : Nat → UInt8) (fn : BodywinSink σ) (ctx : σ)
    (ops later : List BodyOp) (granted off len : Nat) (fin : Bool) :
    let t := ops.foldl (bodyStep S fn) (bodyTraceEmpty buf ctx)
    let t' := later.foldl (bodyStep S fn) t
    let r := bodyStep S fn t' (.land off len fin)
    min (off + len) S.length ≤ max bodywinCap (bodywinCreditDue t.s.w granted).1 →
      ∀ o < S.length, off ≤ o → o < off + len → o < r.s.w.base ∨ Stored S r.s o := by
  intro t t' r hlimit o ho hge hlt
  have hinv : BodyInv S t := .run S buf fn ctx ops
  have hinv' : BodyInv S t' := foldl_invariant (fun _ op h => h.step fn op) later hinv
  have hr : BodyInv S r := hinv'.step fn (.land off len fin)
  have hfit : min (off + len) S.length ≤ t'.s.w.base + bodywinCap := by
    have hdue := bodywinCreditDue_le t.s.w granted
    have hle : t.s.w.base ≤ t'.s.w.base := hinv.base_le_run fn later
    omega
  by_cases hread : o < t'.s.w.base
  · exact .inl (lt_of_lt_of_le hread (hinv'.base_le fn _))
  · have hcover := (@fragment_covers _ off len fin S o ho).mpr ⟨hge, hlt⟩
    have hin : t'.s.w.base ≤ o ∧ o - t'.s.w.base < bodywinCap := by omega
    have hgot : r.got o = true := by simp [r, bodyStep, bodywinIn, hin, hcover]
    exact hr.stored hgot

/-- Two bytes within the first credit. -/
theorem body_within_credit_initial :
    let r := bodyStep [0, 0, 7] (fun (_ : Unit) _ _ => ((), true)) (bodyTraceEmpty (fun _ => 0) ())
      (.land 1 2 false)
    2 < r.s.w.base ∨ Stored [0, 0, 7] r.s 2 :=
  body_within_credit [0, 0, 7] (fun _ => 0) _ () [] [] 0 1 2 false (by decide) 2 (by decide)
    (by decide) (by decide)

end Wired.Http3
