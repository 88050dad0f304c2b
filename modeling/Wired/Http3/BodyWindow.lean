import Wired.Bytes.Bitmap
import Wired.Http3.Frame

/-!
# The receive window of a request stream

`body_window.c` and `body_window_bodywin.c`. The bytes of the stream land at their offsets in a
buffer of `bodywinCap` bytes, with a mark for each; only those before the first missing one are
parsed, and the window slides past them. `bodywinPump` parses frames and hands the payload of DATA
frames to a sink, which answers whether to go on. The window holds the stream (`Follows`).
-/

namespace Wired.Http3

open Lib Bytes List

def bodywinCap : Nat := 10240

/-- How a body stands. -/
inductive BodywinState where
  | open
  | done
  | rejected
  | frameError
  | frameUnexpected
  | wtSignal
  | aborted
deriving DecidableEq, Repr

/-- The window: its base, its marks, the end if known, and the parser. -/
structure Bodywin where
  base : Nat
  left : Nat
  finOff : Nat
  marks : Bitmap
  fin : Bool
  on : Bool
  isData : Bool
  state : BodywinState
  /-- Bit `t` refuses frames of type `t`. -/
  deny : Nat

def bodywinEmpty : Bodywin where
  base := 0
  left := 0
  finOff := 0
  marks := fun _ => 0
  fin := false
  on := false
  isData := false
  state := .open
  deny := 0

/-! ## Landing -/

/-- Whether an offset is inside of the window. -/
def bodywinIn (w : Bodywin) (off : Nat) : Bool := off ≥ w.base && off - w.base < bodywinCap

/-- The first copy of a byte is kept. -/
def bodywinFresh (w : Bodywin) (off : Nat) : Bool :=
  bodywinIn w off && !bitsGet w.marks (off - w.base)

/-- A window and its buffer. -/
structure Windowed where
  w : Bodywin
  buf : Nat → UInt8

def bodywinPut (s : Windowed) (off : Nat) (v : UInt8) : Windowed :=
  if bodywinFresh s.w off then
    { w := { s.w with marks := bitsSet s.w.marks (off - s.w.base) true }
      buf := Function.update s.buf (off - s.w.base) v }
  else s

/-- The first final size stands. -/
def bodywinSetFin (w : Bodywin) (endOff : Nat) : Bodywin :=
  { w with finOff := if w.fin then w.finOff else endOff, fin := true }

def landBytes : Windowed → Nat → List UInt8 → Windowed
  | s, _, [] => s
  | s, off, b :: rest => landBytes (bodywinPut s off b) (off + 1) rest

def bodywinLand (s : Windowed) (off : Nat) (data : List UInt8) (fin : Bool) : Windowed :=
  let s := landBytes s off data
  if fin then { s with w := bodywinSetFin s.w (off + data.length) } else s

def bodywinFinRoom (w : Bodywin) : Nat := if w.finOff > w.base then w.finOff - w.base else 0

def bodywinClip (w : Bodywin) (n : Nat) : Nat := if w.fin then min n (bodywinFinRoom w) else n

def bodywinFrontier (w : Bodywin) : Nat := leading (bitsGet w.marks) bodywinCap

/-- The final size is known but a byte before it is missing. -/
def bodywinFinGap (w : Bodywin) : Bool := w.fin && w.base + bodywinFrontier w < w.finOff

def bodywinConsume (s : Windowed) (n : Nat) : Windowed where
  w := { s.w with marks := bitsShiftDown s.w.marks bodywinCap n, base := s.w.base + n }
  buf := (List.range (bodywinCap - n)).foldl
    (fun buf i => Function.update buf i (buf (i + n))) s.buf

/-! ## Parsing -/

def bodywinForbidden (w : Bodywin) (type : Nat) : Bool :=
  type < 14 && (0x23fc ||| w.deny).testBit type

def bodywinReject (w : Bodywin) (type : Nat) : BodywinState :=
  if type = h3StreamWebtransportBidi then .wtSignal
  else if bodywinForbidden w type then .frameUnexpected
  else .open

/-- A HEADERS frame here is the trailer section, and nothing of the message may follow it. -/
def bodywinNoteType (w : Bodywin) (type : Nat) : Bodywin :=
  { w with deny := w.deny ||| if type = h3FrameHeaders then 0x3 else 0 }

/-- Receives a chunk of the body and whether it is the last one, and answers whether to go on. -/
abbrev BodywinSink (σ : Type) := σ → List UInt8 → Bool → σ × Bool

variable {σ : Type}

/-- The cursor of one pump: `avail` are the bytes of the buffer up to the frontier. -/
structure BodywinRun (σ : Type) where
  w : Bodywin
  avail : List UInt8
  pos : Nat
  ctx : σ

def bodywinHeader (r : BodywinRun σ) : BodywinRun σ × Bool :=
  match h3frameGetHead (r.avail.drop r.pos) with
  | none => (r, false)
  | some ((type, len), n) =>
    let state := bodywinReject r.w type
    if state ≠ .open then ({ r with w := { r.w with state := state } }, false)
    else
      let w := bodywinNoteType { r.w with state := state } type
      ({ r with w := { w with left := len, isData := type = h3FrameData }, pos := r.pos + n },
        true)

/-- The end rides on a chunk that ends its frame exactly at the final size. -/
def bodywinChunkFin (r : BodywinRun σ) (n : Nat) : Bool :=
  r.w.left = n && r.w.fin && r.w.base + r.pos + n = r.w.finOff

/-- The state after a call, by its answer and whether the chunk was the last one. -/
def bodywinNext (answer fin : Bool) : BodywinState :=
  match answer, fin with
  | false, _ => .rejected
  | true, false => .open
  | true, true => .done

def bodywinCall (w : Bodywin) (ctx : σ) (fn : BodywinSink σ) (chunk : List UInt8) (fin : Bool) :
    Bodywin × σ :=
  let r := fn ctx chunk fin
  ({ w with state := bodywinNext r.2 fin }, r.1)

/-- Only the payload of DATA frames reaches the sink. -/
def bodywinDeliver (fn : BodywinSink σ) (r : BodywinRun σ) (n : Nat) (fin : Bool) :
    BodywinRun σ :=
  if r.w.isData then
    let c := bodywinCall r.w r.ctx fn ((r.avail.drop r.pos).take n) fin
    { r with w := c.1, ctx := c.2 }
  else r

def bodywinPayload (fn : BodywinSink σ) (r : BodywinRun σ) : BodywinRun σ × Bool :=
  let n := min r.w.left (r.avail.length - r.pos)
  let fin := bodywinChunkFin r n
  if n = 0 then (r, false)
  else
    let r := bodywinDeliver fn r n fin
    ({ r with w := { r.w with left := r.w.left - n }, pos := r.pos + n }, true)

def bodywinStep (fn : BodywinSink σ) (r : BodywinRun σ) : BodywinRun σ × Bool :=
  if r.w.left ≠ 0 then bodywinPayload fn r else bodywinHeader r

/-- The loop of `bodywin_pump`; a round that goes on uses at least a byte. -/
def bodywinLoop (fn : BodywinSink σ) : Nat → BodywinRun σ → BodywinRun σ
  | 0, r => r
  | fuel + 1, r =>
    if r.w.state = .open then
      let s := bodywinStep fn r
      if s.2 then bodywinLoop fn fuel s.1 else s.1
    else r

def bodywinAvail (w : Bodywin) : Nat := bodywinClip w (bodywinFrontier w)

def bodywinAllIn (w : Bodywin) : Bool := w.fin && w.base + bodywinAvail w = w.finOff

def bodywinAtEnd (w : Bodywin) : Bool := w.state = .open && bodywinAllIn w

/-- At the final size the parser is at a frame boundary, or the stream ended inside a frame. -/
def bodywinEnd (fn : BodywinSink σ) (w : Bodywin) (ctx : σ) : Bodywin × σ :=
  if !bodywinAtEnd w then (w, ctx)
  else if w.left + bodywinAvail w ≠ 0 then ({ w with state := .frameError }, ctx)
  else bodywinCall w ctx fn [] true

/-- Parses what is there, and slides past it. -/
def bodywinPump (fn : BodywinSink σ) (s : Windowed) (ctx : σ) : Windowed × σ :=
  let avail := readCells s.buf (bodywinAvail s.w)
  let r := bodywinLoop fn (avail.length + 1) { w := s.w, avail := avail, pos := 0, ctx := ctx }
  let s := bodywinConsume { s with w := r.w } r.pos
  let e := bodywinEnd fn s.w r.ctx
  ({ s with w := e.1 }, e.2)

/-! ## What landing and sliding keep -/

variable {i n off : Nat}

section

variable (s : Windowed)

section

variable (off : Nat)

theorem bodywinPut_base (v : UInt8) :
    (bodywinPut s off v).w = { s.w with marks := (bodywinPut s off v).w.marks } := by
  unfold bodywinPut
  split <;> rfl

theorem bodywinPut_mark (v : UInt8) (hi : i < bodywinCap) :
    bitsGet (bodywinPut s off v).w.marks i =
      (bitsGet s.w.marks i || decide (off = s.w.base + i)) := by
  unfold bodywinPut
  by_cases hf : bodywinFresh s.w off
  · rw [if_pos hf]
    simp only [bodywinFresh, bodywinIn, Bool.and_eq_true, decide_eq_true_eq] at hf
    rw [bitsGet_set]
    by_cases he : i = off - s.w.base
    · rw [if_pos he, decide_eq_true (by omega), Bool.or_true]
    · rw [if_neg he, decide_eq_false (by omega), Bool.or_false]
  · rw [if_neg hf]
    by_cases he : off = s.w.base + i
    · subst he
      have : bitsGet s.w.marks i = true := by simpa [bodywinFresh, bodywinIn, hi] using hf
      simp [this]
    · simp [he]

theorem landBytes_base (data : List UInt8) :
    (landBytes s off data).w = { s.w with marks := (landBytes s off data).w.marks } := by
  induction data generalizing s off with
  | nil => rfl
  | cons b rest ih => rw [landBytes, ih, bodywinPut_base]

theorem landBytes_mark (data : List UInt8) (hi : i < bodywinCap) :
    bitsGet (landBytes s off data).w.marks i =
      (bitsGet s.w.marks i ||
        decide (off ≤ s.w.base + i ∧ s.w.base + i < off + data.length)) := by
  induction data generalizing s off with
  | nil => rw [landBytes, decide_eq_false (by simp), Bool.or_false]
  | cons b rest ih =>
    have hbase : (bodywinPut s off b).w.base = s.w.base := by rw [bodywinPut_base]
    rw [landBytes, ih, bodywinPut_mark s off b hi, hbase, Bool.or_assoc, ← Bool.decide_or]
    congr 2
    rw [length_cons]
    apply propext
    omega

theorem bodywinLand_w (data : List UInt8) (fin : Bool) :
    (bodywinLand s off data fin).w =
      { s.w with
        marks := (landBytes s off data).w.marks
        finOff := if fin && !s.w.fin then off + data.length else s.w.finOff
        fin := s.w.fin || fin } := by
  have hw := landBytes_base s off data
  unfold bodywinLand
  generalize landBytes s off data = s' at hw ⊢
  obtain ⟨w', buf'⟩ := s'
  obtain ⟨m, hm⟩ : ∃ m, w' = { s.w with marks := m } := ⟨_, hw⟩
  subst hm
  cases fin <;> cases hf : s.w.fin <;> simp [bodywinSetFin, hf]

theorem bodywinLand_mark (data : List UInt8) (fin : Bool) (hi : i < bodywinCap) :
    bitsGet (bodywinLand s off data fin).w.marks i =
      (bitsGet s.w.marks i ||
        decide (off ≤ s.w.base + i ∧ s.w.base + i < off + data.length)) := by
  rw [bodywinLand_w]
  exact landBytes_mark s off data hi

end

theorem bodywinConsume_mark (n : Nat) (hi : i < bodywinCap) :
    bitsGet (bodywinConsume s n).w.marks i =
      (decide (i + n < bodywinCap) && bitsGet s.w.marks (i + n)) := by
  simp only [bodywinConsume]
  rw [bitsGet_shiftDown _ (by decide) n hi]

theorem bodywinConsume_frontier (hn : n ≤ bodywinFrontier s.w) :
    bodywinFrontier (bodywinConsume s n).w = bodywinFrontier s.w - n :=
  leading_shift hn fun _ hi => bodywinConsume_mark s n hi

end

/-- The marked cells have the bytes of the stream. -/
structure Follows (S : List UInt8) (s : Windowed) : Prop where
  holds : WindowHolds S s.w.base bodywinCap s.buf (bitsGet s.w.marks)
  base_le : s.w.base ≤ S.length
  finOff : s.w.fin = true → s.w.finOff = S.length

/-- The bytes of a STREAM frame land. -/
def landFragment (s : Windowed) (f : Fragment UInt8) : Windowed :=
  bodywinLand s f.off f.data f.fin

namespace Follows

variable {S : List UInt8} {s : Windowed}

theorem empty (S buf) : Follows S { w := bodywinEmpty, buf := buf } where
  holds := fun i _ hm => by simp [bodywinEmpty, bitsGet_eq] at hm
  base_le := Nat.zero_le _
  finOff := fun h => by simp [bodywinEmpty] at h

section

variable (h : Follows S s)

include h

theorem put {v : UInt8} (hv : S[off]? = some v) : Follows S (bodywinPut s off v) := by
  have hmark : ∀ i < bodywinCap, bitsGet (bodywinPut s off v).w.marks i = true →
      i = off - s.w.base ∨ bitsGet s.w.marks i = true := by
    intro i hi hm
    rw [bodywinPut_mark s off v hi, Bool.or_eq_true, decide_eq_true_eq] at hm
    rcases hm with hm | hm
    · exact .inr hm
    · exact .inl (by omega)
  unfold bodywinPut at hmark ⊢
  split
  · rename_i hf
    rw [if_pos hf] at hmark
    simp only [bodywinFresh, bodywinIn, Bool.and_eq_true, decide_eq_true_eq] at hf
    refine ⟨h.holds.put ?_ hmark, h.base_le, h.finOff⟩
    rwa [Nat.add_sub_cancel' hf.1.1]
  · exact h

theorem landBytes {data : List UInt8}
    (hdata : data <+: S.drop off) : Follows S (landBytes s off data) := by
  induction data generalizing s off with
  | nil => exact h
  | cons b rest ih =>
    obtain ⟨more, hmore⟩ := hdata
    have hb : S[off]? = some b := by
      rw [← head?_drop, ← hmore]
      rfl
    refine ih (h.put hb) ⟨more, ?_⟩
    rw [← drop_drop, ← hmore]
    rfl

theorem land (off len : Nat) (fin : Bool) :
    Follows S (landFragment s (fragment S off len fin)) := by
  have hdata : (fragment S off len fin).data <+: S.drop (fragment S off len fin).off := by
    rw [fragment_data]
    exact take_prefix _ _
  have hl := h.landBytes hdata
  unfold landFragment bodywinLand
  split
  · rename_i hfin
    refine ⟨hl.holds, hl.base_le, fun _ => ?_⟩
    simp only [bodywinSetFin]
    split
    · rename_i hf
      exact hl.finOff hf
    · exact fragment_end_of_fin hfin
  · exact hl

theorem frontier_le : s.w.base + bodywinFrontier s.w ≤ S.length :=
  h.holds.base_add_leading_le h.base_le

theorem avail_eq : bodywinAvail s.w = bodywinFrontier s.w := by
  have hle := h.frontier_le
  unfold bodywinAvail bodywinClip bodywinFinRoom
  split
  · rename_i hf
    rw [h.finOff hf]
    split <;> omega
  · rfl

theorem allIn_iff :
    bodywinAllIn s.w = true ↔ s.w.fin = true ∧ s.w.base + bodywinFrontier s.w = S.length := by
  unfold bodywinAllIn
  rw [h.avail_eq, Bool.and_eq_true, decide_eq_true_eq]
  exact and_congr_right fun hfin => by rw [h.finOff hfin]

theorem contents (hn : n ≤ bodywinFrontier s.w) : readCells s.buf n = (S.drop s.w.base).take n :=
  h.holds.contents hn

theorem consume (hn : n ≤ bodywinFrontier s.w) :
    Follows S (bodywinConsume s n) where
  holds := by
    apply h.holds.slide
    intro i hi hm
    rw [bodywinConsume_mark s n hi, Bool.and_eq_true, decide_eq_true_eq] at hm
    refine ⟨hm.1, hm.2, ?_⟩
    exact foldl_moveDown s.buf n (by omega)
  base_le := by
    have := h.frontier_le
    simp only [bodywinConsume]
    omega
  finOff := h.finOff

end

end Follows

/-! ## What parsing leaves alone -/

/-- The parser's fields apart, two windows are the same. -/
structure SameWindow (w w' : Bodywin) : Prop where
  base : w'.base = w.base
  finOff : w'.finOff = w.finOff
  marks : w'.marks = w.marks
  fin : w'.fin = w.fin
  on : w'.on = w.on

theorem SameWindow.refl (w : Bodywin) : SameWindow w w := ⟨rfl, rfl, rfl, rfl, rfl⟩

theorem SameWindow.trans {a b c : Bodywin} (h : SameWindow a b) (h' : SameWindow b c) :
    SameWindow a c :=
  ⟨h'.base.trans h.base, h'.finOff.trans h.finOff, h'.marks.trans h.marks,
    h'.fin.trans h.fin, h'.on.trans h.on⟩

theorem Follows.of_same {S : List UInt8} {s : Windowed} {w : Bodywin} (h : Follows S s)
    (hw : SameWindow s.w w) : Follows S { s with w := w } where
  holds := by
    simp only [hw.base, hw.marks]
    exact h.holds
  base_le := by
    simp only [hw.base]
    exact h.base_le
  finOff := fun hf => hw.finOff.trans (h.finOff (hw.fin.symm.trans hf))

theorem bodywinHeader_same (r : BodywinRun σ) : SameWindow r.w (bodywinHeader r).1.w := by
  unfold bodywinHeader
  split
  · exact .refl _
  · dsimp only
    split <;> exact ⟨rfl, rfl, rfl, rfl, rfl⟩

theorem bodywinLoop_invariant {P : BodywinRun σ → Prop} {fn : BodywinSink σ}
    (hstep : ∀ r, P r → P (bodywinStep fn r).1) (fuel : Nat) {r : BodywinRun σ} (h : P r) :
    P (bodywinLoop fn fuel r) := by
  induction fuel generalizing r with
  | zero => exact h
  | succ fuel ih =>
    unfold bodywinLoop
    split
    · dsimp only
      split
      · exact ih (hstep r h)
      · exact hstep r h
    · exact h

section

variable (fn : BodywinSink σ)

theorem bodywinPayload_same (r : BodywinRun σ) : SameWindow r.w (bodywinPayload fn r).1.w := by
  unfold bodywinPayload bodywinDeliver
  dsimp only
  split
  · exact .refl _
  · split <;> exact ⟨rfl, rfl, rfl, rfl, rfl⟩

theorem bodywinStep_same (r : BodywinRun σ) : SameWindow r.w (bodywinStep fn r).1.w := by
  unfold bodywinStep
  split
  · exact bodywinPayload_same fn r
  · exact bodywinHeader_same r

theorem bodywinLoop_same (fuel : Nat) (r : BodywinRun σ) :
    SameWindow r.w (bodywinLoop fn fuel r).w :=
  bodywinLoop_invariant (P := fun r' => SameWindow r.w r'.w)
    (fun r' h => h.trans (bodywinStep_same fn r')) fuel (.refl _)

theorem bodywinEnd_same (w : Bodywin) (ctx : σ) : SameWindow w (bodywinEnd fn w ctx).1 := by
  unfold bodywinEnd
  split
  · exact .refl _
  · split <;> exact ⟨rfl, rfl, rfl, rfl, rfl⟩

theorem bodywinPump_on (s : Windowed) (ctx : σ) : (bodywinPump fn s ctx).1.w.on = s.w.on := by
  unfold bodywinPump
  rw [(bodywinEnd_same fn _ _).on]
  exact (bodywinLoop_same fn _ _).on

end

end Wired.Http3
