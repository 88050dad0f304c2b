import Wired.Http3.Frame
import Wired.Lib.Run
import Wired.Lib.Window

/-!
# The peer's control stream

`priority_ctrl.c`, `priority_ctrl_ctrl.c` and `priupdate.c`. The bytes after the stream type
land in a buffer of 512 bytes at their offset, every frame that is whole up to the highest byte
received is acted upon, and what was parsed slides out of the buffer, which does not know which
bytes below the highest have arrived. The stream type is taken to have one byte, though any
encoding of it opens the stream.

* `stepInOrder_along_iff`: when the frames acted upon are those of the received prefix.
* `stepInOrder_of_gapInPayload`: a condition on the arrivals alone that is enough for it.
* `ctrl_acts_out_of_order`: a gap, a late first frame and a long type with which they are not.
-/

namespace Wired.Http3

open Lib Transport List

def h3FramePriorityUpdate : Nat := 0xf0700
def h3FramePriorityUpdatePush : Nat := 0xf0701

def ctrlBufCap : Nat := 512

/-- `CTRL_TYPE_LEN`: the length of the stream type. -/
def ctrlTypeLen : Nat := 1

structure H3Priupdate where
  push : Bool
  elementId : Nat
  value : List UInt8
deriving DecidableEq, Repr

def isPriupdate (type : Nat) : Bool :=
  type = h3FramePriorityUpdate || type = h3FramePriorityUpdatePush

def h3PriupdateGet (buf : List UInt8) : Option (H3Priupdate × Nat) :=
  match h3frameGetHead buf with
  | none => none
  | some ((type, len), body) =>
    if isPriupdate type && body + len ≤ buf.length then
      (varintDecode ((buf.take (body + len)).drop body)).map fun r =>
        ({ push := type = h3FramePriorityUpdatePush, elementId := r.1
           value := (buf.take (body + len)).drop (body + r.2) }, body + len)
    else none

/-- A priority is applied; any other frame goes to the handler of its type. -/
inductive CtrlAct where
  | priupdate (f : H3Priupdate)
  | generic (f : H3Frame)
deriving DecidableEq, Repr

/-- The frame at the head, and what is done with it. -/
def ctrlWalkOne (avail : List UInt8) : Option (CtrlAct × Nat) :=
  match h3PriupdateGet avail with
  | some (f, n) => some (.priupdate f, n)
  | none => (h3FrameGet avail).map fun r => (.generic r.1, r.2)

/-- The buffer of the stream; `len` is the highest byte received. -/
structure CtrlStream where
  buf : Nat → UInt8
  base : Nat
  len : Nat
  parsed : Nat
  open_ : Bool
  overflow : Bool

def ctrlInit (buf : Nat → UInt8) : CtrlStream where
  buf := buf
  base := 0
  len := 0
  parsed := 0
  open_ := false
  overflow := false

def ctrlLeadingTypeIsControl (data : List UInt8) : Bool :=
  match varintDecode data with
  | some (v, _) => v = 0
  | none => false

/-- The first frame of the stream claims it; later ones are recognised by the claim. -/
def ctrlFrameRelevant (l : CtrlStream) (sf : Fragment UInt8) : Bool :=
  if sf.off = 0 then ctrlLeadingTypeIsControl sf.data else l.open_

def ctrlSkipLen (sf : Fragment UInt8) : Nat := if sf.off = 0 then ctrlTypeLen else 0

def ctrlAbsOff (sf : Fragment UInt8) : Nat := if sf.off = 0 then 0 else sf.off - ctrlTypeLen

/-- The part below `base` has been parsed already; `none` if nothing else is left. -/
def ctrlTrimStale (l : CtrlStream) (abs : Nat) (d : List UInt8) : Option (Nat × List UInt8) :=
  let drop := if abs < l.base then l.base - abs else 0
  if drop ≥ d.length then none else some (abs + drop, d.drop drop)

def ctrlStore (l : CtrlStream) (abs : Nat) (d : List UInt8) : CtrlStream :=
  let off := abs - l.base
  if off + d.length > ctrlBufCap then { l with overflow := true }
  else
    { l with
      buf := writeCells l.buf off d
      len := if off + d.length > l.len then off + d.length else l.len }

/-- The bytes of a STREAM frame land. -/
def ctrlLand (l : CtrlStream) (sf : Fragment UInt8) : CtrlStream :=
  match ctrlTrimStale l (ctrlAbsOff sf) (sf.data.drop (ctrlSkipLen sf)) with
  | none => l
  | some (abs, d) => ctrlStore l abs d

/-- The bytes from the parsed offset up to the highest received. -/
def ctrlAvail (l : CtrlStream) : List UInt8 := (readCells l.buf l.len).drop l.parsed

def ctrlWalk (l : CtrlStream) : CtrlStream × List CtrlAct :=
  let r := decodeAll ctrlWalkOne (ctrlAvail l)
  ({ l with parsed := l.parsed + r.2 }, r.1)

def ctrlCompact (l : CtrlStream) : CtrlStream :=
  { l with
    buf := (List.range (l.len - l.parsed)).foldl
      (fun buf i => Function.update buf i (buf (i + l.parsed))) l.buf
    base := l.base + l.parsed
    len := l.len - l.parsed
    parsed := 0 }

/-- A STREAM frame lands, and the frames that are whole then are acted upon. -/
def ctrlGather (l : CtrlStream) (sf : Fragment UInt8) : CtrlStream × List CtrlAct :=
  if ctrlFrameRelevant l sf then
    let w := ctrlWalk (ctrlLand { l with open_ := true } sf)
    (ctrlCompact w.1, w.2)
  else (l, [])

/-! ## The walk reads whole frames -/

/-- What is done with a frame depends on the frame only. -/
def ctrlAct (f : H3Frame) : CtrlAct :=
  if isPriupdate f.type then
    match varintDecode f.payload with
    | some (id, n) =>
      .priupdate { push := f.type = h3FramePriorityUpdatePush, elementId := id
                   value := f.payload.drop n }
    | none => .generic f
  else .generic f

theorem ctrlWalkOne_eq (b : List UInt8) :
    ctrlWalkOne b = (h3FrameGet b).map fun r => (ctrlAct r.1, r.2) := by
  unfold ctrlWalkOne h3PriupdateGet h3FrameGet Stable.andThen
  cases hh : h3frameGetHead b with
  | none => rfl
  | some r =>
    obtain ⟨⟨type, len⟩, body⟩ := r
    have hle := h3frameGetHead_stable.le hh
    dsimp only
    unfold framePayload
    rw [length_drop]
    by_cases hfit : body + len ≤ b.length
    · have hpay : (b.take (body + len)).drop body = (b.drop body).take len := by
        rw [drop_take, Nat.add_sub_cancel_left]
      have hval : ∀ k, (b.take (body + len)).drop (body + k) =
          ((b.drop body).take len).drop k := by
        intro k
        rw [← drop_drop, hpay]
      rw [if_neg (show ¬ len > b.length - body by omega)]
      cases hp : isPriupdate type with
      | false => simp [ctrlAct, hp]
      | true =>
        simp only [Bool.true_and, decide_eq_true hfit, if_true, hpay, hval]
        cases hv : varintDecode ((b.drop body).take len) <;> simp [ctrlAct, hp, hv]
    · rw [decide_eq_false hfit, Bool.and_false, if_pos (show len > b.length - body by omega)]
      rfl

theorem ctrlWalkOne_stable : Stable ctrlWalkOne := by
  have h := h3FrameGet_stable.map ctrlAct
  have heq : ctrlWalkOne = fun b => (h3FrameGet b).map fun r => (ctrlAct r.1, r.2) :=
    funext ctrlWalkOne_eq
  rwa [heq]

/-! ## Runs over the frames of one stream -/

/-- The buffer, what has been acted upon, and which offsets of the stream were received. -/
structure CtrlTrace where
  l : CtrlStream
  acts : List CtrlAct
  got : Nat → Bool

def ctrlTraceInit (buf : Nat → UInt8) : CtrlTrace where
  l := ctrlInit buf
  acts := []
  got := fun _ => false

/-- A control stream: its type, in any encoding, and its frames. -/
structure CtrlBytes where
  type : List UInt8
  body : List UInt8
  isControl : varintDecode type = some (0, type.length)

def CtrlBytes.bytes (c : CtrlBytes) : List UInt8 := c.type ++ c.body

/-- The STREAM frame with the bytes of an offset and a length. -/
def ctrlFragment (c : CtrlBytes) (a : Nat × Nat) : Fragment UInt8 := fragment c.bytes a.1 a.2 false

/-- A frame that does not fit the buffer ahead of the parsed offset is refused as a whole. -/
def ctrlFits (l : CtrlStream) (sf : Fragment UInt8) : Bool :=
  match ctrlTrimStale l (ctrlAbsOff sf) (sf.data.drop (ctrlSkipLen sf)) with
  | none => true
  | some (abs, d) => abs - l.base + d.length ≤ ctrlBufCap

/-- The offsets received with a STREAM frame. -/
def ctrlGot (t : CtrlTrace) (sf : Fragment UInt8) : Nat → Bool :=
  if ctrlFits t.l sf then
    fun o => t.got o || decide (sf.off ≤ o ∧ o < sf.off + sf.data.length)
  else t.got

def ctrlStep (c : CtrlBytes) (t : CtrlTrace) (a : Nat × Nat) : CtrlTrace :=
  let g := ctrlGather t.l (ctrlFragment c a)
  { l := g.1, acts := t.acts ++ g.2, got := ctrlGot t (ctrlFragment c a) }

/-- How much of the frames was received before the first missing byte. -/
def ctrlPrefixLen (c : CtrlBytes) (got : Nat → Bool) : Nat :=
  leading got c.bytes.length - c.type.length

/-- What was acted upon are the frames of the received prefix, in order. -/
def ActsInOrder (c : CtrlBytes) (t : CtrlTrace) : Prop :=
  t.acts = (decodeAll ctrlWalkOne (c.body.take (ctrlPrefixLen c t.got))).1

/-- After the STREAM frame everything acted upon is in order. -/
def StepInOrder (c : CtrlBytes) (t : CtrlTrace) (a : Nat × Nat) : Prop :=
  ActsInOrder c (ctrlStep c t a)

/-- A frame past the start of the stream comes after the stream was claimed. -/
def AfterClaim (c : CtrlBytes) (t : CtrlTrace) (a : Nat × Nat) : Prop :=
  t.l.open_ = true ∨ (ctrlFragment c a).off = 0 ∨ (ctrlFragment c a).data = []

/-- The first frame that is not whole before the gap is not whole up to the highest byte either. -/
def NoFrameAcrossGap (c : CtrlBytes) (t : CtrlTrace) (a : Nat × Nat) : Prop :=
  ctrlFrameRelevant t.l (ctrlFragment c a) = true →
    let avail := ctrlAvail (ctrlLand { t.l with open_ := true } (ctrlFragment c a))
    let before := avail.take
      (ctrlPrefixLen c (ctrlGot t (ctrlFragment c a)) - t.l.base)
    ctrlWalkOne (avail.drop (decodeAll ctrlWalkOne before).2) = none

/-- What was received past the gap belongs to the frame that the gap is in, whose header came before
it and whose last byte is missing too. -/
def GapInPayload (c : CtrlBytes) (t : CtrlTrace) (a : Nat × Nat) : Prop :=
  let got := ctrlGot t (ctrlFragment c a)
  let front := c.body.take (ctrlPrefixLen c got)
  let used := (decodeAll ctrlWalkOne front).2
  ∀ o, ctrlPrefixLen c got ≤ o → got (c.type.length + o) = true →
    ∃ head, h3frameGetHead (front.drop used) = some head ∧ o + 1 < used + head.2 + head.1.2

/-! ## Landing -/

section

variable {c : CtrlBytes} (hone : c.type.length = ctrlTypeLen)

theorem ctrlFragment_eq (c : CtrlBytes) (a : Nat × Nat) :
    (ctrlFragment c a).data = (c.bytes.drop (ctrlFragment c a).off).take
      (ctrlFragment c a).data.length := fragment_data c.bytes a.1 a.2 false

include hone in
theorem drop_bytes (k : Nat) : c.bytes.drop (k + ctrlTypeLen) = c.body.drop k := by
  rw [CtrlBytes.bytes, ← hone, add_comm, ← drop_drop, drop_left]

include hone in
theorem ctrlFragment_data (a : Nat × Nat) :
    (ctrlFragment c a).data.drop (ctrlSkipLen (ctrlFragment c a)) <+:
      c.body.drop (ctrlAbsOff (ctrlFragment c a)) := by
  have hdata := ctrlFragment_eq c a
  have hbody := drop_bytes hone
  generalize ctrlFragment c a = sf at hdata ⊢
  unfold ctrlSkipLen ctrlAbsOff
  unfold ctrlTypeLen at hbody ⊢
  by_cases h0 : sf.off = 0
  · rw [if_pos h0, if_pos h0, hdata, h0, drop_zero, drop_take, hbody 0]
    exact take_prefix _ _
  · obtain ⟨k, hk⟩ : ∃ k, sf.off = k + 1 := ⟨sf.off - 1, by omega⟩
    rw [if_neg h0, if_neg h0, drop_zero, hdata, hk, Nat.add_sub_cancel, hbody k]
    exact take_prefix _ _

theorem ctrlFragment_covers (sf : Fragment UInt8) (o : Nat) :
    (sf.off ≤ o + 1 ∧ o + 1 < sf.off + sf.data.length) ↔
      (ctrlAbsOff sf ≤ o ∧
        o < ctrlAbsOff sf + (sf.data.drop (ctrlSkipLen sf)).length) := by
  rw [length_drop]
  unfold ctrlAbsOff ctrlSkipLen ctrlTypeLen
  split <;> omega

/-- The buffer holds what was received and not parsed, and ends with a byte received. -/
structure CtrlHolds (body : List UInt8) (l : CtrlStream) (got : Nat → Bool) : Prop where
  cell : ∀ o, l.base ≤ o → got (o + 1) = true →
    o < l.base + l.len ∧ body[o]? = some (l.buf (o - l.base))
  high : l.len = 0 ∨ got (l.base + l.len) = true

theorem ctrlLand_base (l : CtrlStream) (sf : Fragment UInt8) :
    (ctrlLand l sf).base = l.base ∧ (ctrlLand l sf).parsed = l.parsed := by
  unfold ctrlLand
  split
  · exact ⟨rfl, rfl⟩
  · unfold ctrlStore
    dsimp only
    split <;> exact ⟨rfl, rfl⟩

variable {l : CtrlStream} {got got' : Nat → Bool}

theorem ctrlStore_holds {body : List UInt8}
    (h : CtrlHolds body l got) {abs : Nat} {d : List UInt8} (habs : l.base ≤ abs)
    (hd : d <+: body.drop abs) (hne : 0 < d.length)
    (hfit : abs - l.base + d.length ≤ ctrlBufCap)
    (hgot : ∀ o, l.base ≤ o →
      (got' (o + 1) = true ↔ got (o + 1) = true ∨ (abs ≤ o ∧ o < abs + d.length))) :
    CtrlHolds body (ctrlStore l abs d) got' := by
  constructor
  · intro o ho hg
    simp only [ctrlStore, if_neg (Nat.not_lt.mpr hfit)] at ho ⊢
    have hcells : WindowHolds body l.base (o + 1) l.buf fun i => got (l.base + i + 1) := by
      intro i _ hm
      have hold := (h.cell (l.base + i) (Nat.le_add_right _ _) hm).2
      rwa [Nat.add_sub_cancel_left] at hold
    constructor
    · have hin := ((hgot o ho).mp hg).imp_left fun hold => (h.cell o ho hold).1
      split <;> omega
    · have hnew : WindowHolds body l.base (o + 1) (writeCells l.buf (abs - l.base) d)
          fun i => got' (l.base + i + 1) := by
        refine hcells.write (fun j x hx => ?_) fun i _ hm => ?_
        · rw [Nat.add_sub_cancel' habs]
          exact getElem?_of_prefix_drop hd hx
        · exact ((hgot _ (Nat.le_add_right _ _)).mp hm).imp_right (by omega)
      have hcell := hnew (o - l.base) (by omega)
      dsimp only at hcell
      rw [Nat.add_sub_cancel' ho] at hcell
      exact hcell hg
  · refine .inr ?_
    simp only [ctrlStore, if_neg (Nat.not_lt.mpr hfit)]
    split
    · have hlast := (hgot (abs + d.length - 1) (by omega)).mpr (.inr (by omega))
      rwa [show abs + d.length - 1 + 1 = l.base + (abs - l.base + d.length) by omega] at hlast
    · have hold := h.high.resolve_left (by omega)
      have hlast := (hgot (l.base + l.len - 1) (by omega)).mpr
      rw [show l.base + l.len - 1 + 1 = l.base + l.len by omega] at hlast
      exact hlast (.inl hold)

include hone in
theorem ctrlLand_holds {t : CtrlTrace} (h : CtrlHolds c.body t.l t.got) (a : Nat × Nat) :
    CtrlHolds c.body (ctrlLand { t.l with open_ := true } (ctrlFragment c a))
      (ctrlGot t (ctrlFragment c a)) := by
  have hdata := ctrlFragment_data hone a
  have hcov := ctrlFragment_covers (ctrlFragment c a)
  generalize ctrlFragment c a = sf at hdata hcov ⊢
  unfold ctrlLand ctrlGot ctrlFits
  unfold ctrlTrimStale
  by_cases hstale : (if ctrlAbsOff sf < t.l.base then t.l.base - ctrlAbsOff sf else 0) ≥
      (sf.data.drop (ctrlSkipLen sf)).length
  · -- everything in the frame has been parsed already
    simp only [if_pos hstale, if_true]
    constructor
    · intro o ho hg
      refine h.cell o ho ?_
      simp only [Bool.or_eq_true, decide_eq_true_eq, hcov] at hg
      refine hg.resolve_right fun hin => ?_
      dsimp only at ho
      split at hstale <;> omega
    · refine h.high.imp_right fun hold => ?_
      rw [hold, Bool.true_or]
  · simp only [if_neg hstale]
    generalize hdrop : (if ctrlAbsOff sf < t.l.base then t.l.base - ctrlAbsOff sf else 0) = drop
      at hstale ⊢
    have habs : t.l.base ≤ ctrlAbsOff sf + drop := by split at hdrop <;> omega
    have hlen : ((sf.data.drop (ctrlSkipLen sf)).drop drop).length =
        (sf.data.drop (ctrlSkipLen sf)).length - drop := length_drop
    by_cases hfit : ctrlAbsOff sf + drop - t.l.base +
        ((sf.data.drop (ctrlSkipLen sf)).drop drop).length ≤ ctrlBufCap
    · simp only [decide_eq_true hfit, if_true]
      refine ctrlStore_holds (l := { t.l with open_ := true }) ⟨h.cell, h.high⟩ habs ?_
        (by omega) hfit fun o ho => ?_
      · obtain ⟨more, hmore⟩ := hdata
        refine ⟨more, ?_⟩
        rw [← drop_append_of_le_length (by omega), hmore, drop_drop]
      · simp only [Bool.or_eq_true, decide_eq_true_eq, hcov]
        refine or_congr_right ?_
        dsimp only at ho
        split at hdrop <;> omega
    · simp only [decide_eq_false hfit, Bool.false_eq_true, if_false, ctrlStore,
        if_pos (Nat.not_le.mp hfit)]
      exact ⟨h.cell, h.high⟩

end

/-! ## One frame -/

/-- What was parsed are the frames below `base`, all of it received. -/
structure CtrlInv (c : CtrlBytes) (t : CtrlTrace) : Prop where
  parsed : t.l.parsed = 0
  decoded : decodeAll ctrlWalkOne (c.body.take t.l.base) = (t.acts, t.l.base)
  base_le : t.l.base ≤ ctrlPrefixLen c t.got
  holds : CtrlHolds c.body t.l t.got

theorem ctrlInv_init (c buf) : CtrlInv c (ctrlTraceInit buf) where
  parsed := rfl
  decoded := decodeAll_none ctrlWalkOne_stable.nil
  base_le := zero_le
  holds := ⟨fun o _ hg => by simp [ctrlTraceInit] at hg, .inl rfl⟩

theorem actsInOrder_init (c buf) : ActsInOrder c (ctrlTraceInit buf) := by
  have hzero : leading (fun _ => false) c.bytes.length = 0 :=
    leading_eq zero_le (fun i hi => absurd hi (Nat.not_lt_zero i)) fun _ => rfl
  have hnil := decodeAll_none ctrlWalkOne_stable.nil
  simp [ActsInOrder, ctrlPrefixLen, ctrlTraceInit, hzero, hnil]

section

variable {c : CtrlBytes} {t : CtrlTrace} {l : CtrlStream} {got got' : Nat → Bool} {a : Nat × Nat}
  (hone : c.type.length = ctrlTypeLen)

theorem ctrlPrefixLen_mono (h : ∀ o, got o = true → got' o = true) :
    ctrlPrefixLen c got ≤ ctrlPrefixLen c got' := by
  apply Nat.sub_le_sub_right
  exact le_leading (leading_le _ _) fun i hi => h i (mark_of_lt_leading hi)

theorem ctrlGot_mono (t : CtrlTrace) (sf : Fragment UInt8) (o : Nat) (h : t.got o = true) :
    ctrlGot t sf o = true := by
  unfold ctrlGot
  split
  · simp [h]
  · exact h

theorem ctrlCompact_holds (h : CtrlHolds c.body l got) (hparsed : l.parsed ≤ l.len) :
    CtrlHolds c.body (ctrlCompact l) got := by
  constructor
  · intro o ho hg
    simp only [ctrlCompact] at ho ⊢
    obtain ⟨hlt, hb⟩ := h.cell o (by omega) hg
    refine ⟨by omega, ?_⟩
    rw [foldl_moveDown l.buf l.parsed (by omega), hb,
      show o - (l.base + l.parsed) + l.parsed = o - l.base by omega]
  · simp only [ctrlCompact]
    rw [show l.base + l.parsed + (l.len - l.parsed) = l.base + l.len by omega]
    exact h.high.imp_left (by omega)

include hone

theorem got_of_lt_ctrlPrefixLen {o : Nat} (ho : o < ctrlPrefixLen c got) : got (o + 1) = true := by
  have hlt : o + 1 < leading got c.bytes.length := by
    unfold ctrlPrefixLen at ho
    unfold ctrlTypeLen at hone
    omega
  exact mark_of_lt_leading hlt

/-- Before the first missing byte the buffer is the stream. -/
theorem ctrlAvail_take (h : CtrlHolds c.body l got) (hparsed : l.parsed = 0) :
    (ctrlAvail l).take (ctrlPrefixLen c got - l.base) =
      (c.body.drop l.base).take (ctrlPrefixLen c got - l.base) := by
  have hcell : ∀ i < ctrlPrefixLen c got - l.base,
      i < l.len ∧ c.body[l.base + i]? = some (l.buf i) := by
    intro i hi
    have hin : l.base + i < ctrlPrefixLen c got := by omega
    obtain ⟨hlt, hb⟩ := h.cell (l.base + i) (Nat.le_add_right _ _)
      (got_of_lt_ctrlPrefixLen hone hin)
    rw [Nat.add_sub_cancel_left] at hb
    exact ⟨by omega, hb⟩
  apply ext_getElem?
  intro i
  rw [getElem?_take, getElem?_take]
  split
  · rename_i hi
    obtain ⟨hlen, hb⟩ := hcell i hi
    rw [ctrlAvail, hparsed, drop_zero, getElem?_drop, hb, readCells,
      getElem?_map, getElem?_range hlen]
    rfl
  · rfl

/-- The frames of the received prefix: those parsed before, and those before the gap. -/
theorem decodeAll_received (h : CtrlInv c t) (hl : CtrlHolds c.body l got)
    (hbase : l.base = t.l.base) (hparsed : l.parsed = 0)
    (hmono : ∀ o, t.got o = true → got o = true) :
    decodeAll ctrlWalkOne (c.body.take (ctrlPrefixLen c got)) =
      (t.acts ++ (decodeAll ctrlWalkOne
          ((ctrlAvail l).take (ctrlPrefixLen c got - t.l.base))).1,
        t.l.base + (decodeAll ctrlWalkOne
          ((ctrlAvail l).take (ctrlPrefixLen c got - t.l.base))).2) := by
  have htake := ctrlAvail_take hone hl hparsed
  have hle := le_trans h.base_le (ctrlPrefixLen_mono hmono)
  rw [hbase] at htake
  have hsplit : c.body.take (ctrlPrefixLen c got) = c.body.take t.l.base ++
      (ctrlAvail l).take (ctrlPrefixLen c got - t.l.base) := by
    rw [htake, ← take_add, Nat.add_sub_cancel' hle]
  have hnil : (c.body.take t.l.base).drop t.l.base = [] :=
    drop_of_length_le (by rw [length_take]; omega)
  rw [hsplit, decodeAll_append ctrlWalkOne_stable, h.decoded]
  rw [hnil, nil_append]

theorem ctrlLeading_of_start (hoff : (ctrlFragment c a).off = 0)
    (hne : (ctrlFragment c a).data ≠ []) :
    ctrlLeadingTypeIsControl (ctrlFragment c a).data = true := by
  have hdata := ctrlFragment_eq c a
  have hpos : ctrlTypeLen ≤ (ctrlFragment c a).data.length := length_pos_iff.mpr hne
  rw [hoff, drop_zero, CtrlBytes.bytes, take_append, hone, take_of_length_le (by omega)] at hdata
  rw [hdata, ctrlLeadingTypeIsControl, varintDecode_stable.append c.isControl]
  rfl

theorem ctrlStep_irrelevant (hclaim : AfterClaim c t a)
    (hrel : ctrlFrameRelevant t.l (ctrlFragment c a) = false) : ctrlStep c t a = t := by
  have hdata : (ctrlFragment c a).data = [] := by
    rcases hclaim with hopen | hoff | hnil
    · by_cases h0 : (ctrlFragment c a).off = 0
      · by_contra hne
        simp [ctrlFrameRelevant, h0, ctrlLeading_of_start hone h0 hne] at hrel
      · simp [ctrlFrameRelevant, h0, hopen] at hrel
    · by_contra hne
      simp [ctrlFrameRelevant, hoff, ctrlLeading_of_start hone hoff hne] at hrel
    · exact hnil
  have hgot : ctrlGot t (ctrlFragment c a) = t.got := by
    unfold ctrlGot
    split
    · funext o
      rw [hdata, length_nil, add_zero, decide_eq_false (by omega), Bool.or_false]
    · rfl
  simp [ctrlStep, ctrlGather, hrel, hgot]

/-- **One frame**: all is in order afterwards exactly when no frame was whole only across a gap. -/
theorem ctrlStep_spec (h : CtrlInv c t) (hclaim : AfterClaim c t a) (hprev : ActsInOrder c t) :
    (StepInOrder c t a ↔ NoFrameAcrossGap c t a) ∧
      (NoFrameAcrossGap c t a → CtrlInv c (ctrlStep c t a)) := by
  by_cases hrel : ctrlFrameRelevant t.l (ctrlFragment c a) = true
  swap
  · have hrel' : ctrlFrameRelevant t.l (ctrlFragment c a) = false := by simpa using hrel
    rw [StepInOrder, ctrlStep_irrelevant hone hclaim hrel']
    exact ⟨iff_of_true hprev fun h1 => absurd h1 hrel, fun _ => h⟩
  have hland := ctrlLand_holds hone h.holds a
  obtain ⟨hbase, hkeeps⟩ := ctrlLand_base { t.l with open_ := true } (ctrlFragment c a)
  have hparsed := hkeeps.trans h.parsed
  have hrec := decodeAll_received hone h hland hbase hparsed (ctrlGot_mono t _)
  simp only [StepInOrder, ActsInOrder, NoFrameAcrossGap, ctrlStep, ctrlGather, hrel, if_true,
    forall_const, ctrlWalk]
  generalize ctrlLand { t.l with open_ := true } (ctrlFragment c a) = l at *
  generalize ctrlGot t (ctrlFragment c a) = got at *
  obtain ⟨hiff, heq⟩ := decodeAll_eq_take_iff ctrlWalkOne_stable (ctrlAvail l)
    (ctrlPrefixLen c got - t.l.base)
  constructor
  · rw [hrec, append_right_inj, hiff]
  · intro hnone
    have hall := heq hnone
    have hused : t.l.base + (decodeAll ctrlWalkOne (ctrlAvail l)).2 ≤ ctrlPrefixLen c got := by
      have hle := decodeAll_le ctrlWalkOne_stable.advances (c.body.take (ctrlPrefixLen c got))
      rw [hrec, ← hall, length_take] at hle
      dsimp only at hle
      omega
    constructor
    · rfl
    · have htaken := decodeAll_take ctrlWalkOne_stable (c.body.take (ctrlPrefixLen c got))
      rw [hrec, ← hall, take_take, min_eq_left hused] at htaken
      simpa only [ctrlCompact, hparsed, hbase, zero_add] using htaken
    · simpa only [ctrlCompact, hparsed, hbase, zero_add] using hused
    · apply ctrlCompact_holds
      · exact ⟨hland.cell, hland.high⟩
      · have hle := decodeAll_le ctrlWalkOne_stable.advances (ctrlAvail l)
        simp only [ctrlAvail, hparsed, drop_zero, readCells_length] at hle
        simpa only [ctrlAvail, hparsed, drop_zero, zero_add] using hle

/-- A gap inside of a frame whose header is known lets nothing else appear whole. -/
theorem noFrameAcrossGap_of_gapInPayload (h : CtrlInv c t) (hgap : GapInPayload c t a) :
    NoFrameAcrossGap c t a := by
  intro _
  have hland := ctrlLand_holds hone h.holds a
  obtain ⟨hbase, hkeeps⟩ := ctrlLand_base { t.l with open_ := true } (ctrlFragment c a)
  have hparsed := hkeeps.trans h.parsed
  have hrec := decodeAll_received hone h hland hbase hparsed (ctrlGot_mono t _)
  unfold GapInPayload at hgap
  dsimp only at hbase hgap ⊢
  generalize ctrlLand { t.l with open_ := true } (ctrlFragment c a) = l at *
  generalize ctrlGot t (ctrlFragment c a) = got at *
  have hlen : (ctrlAvail l).length = l.len := by simp [ctrlAvail, hparsed]
  rw [hrec] at hgap
  generalize hused : (decodeAll ctrlWalkOne
    ((ctrlAvail l).take (ctrlPrefixLen c got - t.l.base))).2 = used at hgap ⊢
  by_cases hpast : l.len ≤ ctrlPrefixLen c got - t.l.base
  · -- nothing was received past the first missing byte
    rw [← hused]
    refine (decodeAll_eq_take_iff ctrlWalkOne_stable (ctrlAvail l) _).1.mp ?_
    rw [take_of_length_le (by omega)]
  · have hhigh := hland.high.resolve_left (by omega)
    have hlast : l.base + l.len = c.type.length + (t.l.base + l.len - 1) := by
      rw [hone, ctrlTypeLen]
      omega
    rw [hlast] at hhigh
    obtain ⟨head, hhead, hend⟩ := hgap _ (by omega) hhigh
    have hfront : (c.body.take (ctrlPrefixLen c got)).drop t.l.base =
        (ctrlAvail l).take (ctrlPrefixLen c got - t.l.base) := by
      rw [← hbase, ctrlAvail_take hone hland hparsed, drop_take]
    rw [← drop_drop, hfront, drop_take] at hhead
    have hwhole := h3frameGetHead_stable.of_prefix hhead (List.take_prefix _ _)
    have hpos := h3frameGetHead_stable.pos hwhole
    have hle := h3frameGetHead_stable.le hwhole
    rw [length_drop, hlen] at hle
    have hcut : head.1.2 > (((ctrlAvail l).drop used).drop head.2).length := by
      rw [length_drop, length_drop, hlen]
      omega
    rw [ctrlWalkOne_eq, h3FrameGet, Stable.andThen, hwhole]
    simp only [framePayload, if_pos hcut, Option.map_none]

end

/-- **The control stream in order**: over every cutting, order and duplication of its bytes in which
the first frame comes first, if the type has one byte, the frames acted upon are those of the
received prefix exactly as long as no STREAM frame makes a frame whole only across a gap. -/
theorem stepInOrder_along_iff (c : CtrlBytes) (hone : c.type.length = ctrlTypeLen)
    (buf : Nat → UInt8) (as : List (Nat × Nat))
    (hclaim : Along (ctrlStep c) (AfterClaim c) (ctrlTraceInit buf) as) :
    Along (ctrlStep c) (StepInOrder c) (ctrlTraceInit buf) as ↔
      Along (ctrlStep c) (NoFrameAcrossGap c) (ctrlTraceInit buf) as := by
  apply along_congr_of (I := fun t => CtrlInv c t ∧ ActsInOrder c t) (R := AfterClaim c)
  · rintro t a ⟨hinv, hacts⟩ hfirst hstep
    obtain ⟨hiff, hkeep⟩ := ctrlStep_spec hone hinv hfirst hacts
    exact ⟨hkeep (hiff.mp hstep), hstep⟩
  · rintro t a ⟨hinv, hacts⟩ hfirst
    exact (ctrlStep_spec hone hinv hfirst hacts).1
  · exact ⟨ctrlInv_init c buf, actsInOrder_init c buf⟩
  · exact hclaim

/-- All is in order if every gap lies inside of one frame that has started before it. -/
theorem stepInOrder_of_gapInPayload (c : CtrlBytes) (hone : c.type.length = ctrlTypeLen)
    (buf : Nat → UInt8) (as : List (Nat × Nat))
    (has : Along (ctrlStep c) (fun t a => AfterClaim c t a ∧ GapInPayload c t a)
      (ctrlTraceInit buf) as) :
    Along (ctrlStep c) (StepInOrder c) (ctrlTraceInit buf) as := by
  have hstep : ∀ t a, CtrlInv c t ∧ ActsInOrder c t → AfterClaim c t a ∧ GapInPayload c t a →
      CtrlInv c (ctrlStep c t a) ∧ StepInOrder c t a := by
    rintro t a ⟨hinv, hacts⟩ ⟨hfirst, hgap⟩
    obtain ⟨hiff, hkeep⟩ := ctrlStep_spec hone hinv hfirst hacts
    have hno := noFrameAcrossGap_of_gapInPayload hone hinv hgap
    exact ⟨hkeep hno, hiff.mpr hno⟩
  exact has.of_invariant hstep (fun t a hinv ha => (hstep t a hinv ha).2)
    ⟨ctrlInv_init c buf, actsInOrder_init c buf⟩

/-- SETTINGS without a setting, then GOAWAY with the id 0. -/
def settingsGoaway : List UInt8 := [0x04, 0x00, 0x07, 0x01, 0x00]

/-- The two frames behind the type as it is usually written. -/
def plainType : CtrlBytes := ⟨[0x00], settingsGoaway, by decide⟩

/-- The two frames in two STREAM frames, in order. -/
theorem stepInOrder_settingsGoaway :
    plainType.type.length = ctrlTypeLen ∧
      Along (ctrlStep plainType) (AfterClaim plainType) (ctrlTraceInit fun _ => 0)
        [(0, 3), (3, 3)] ∧
      (Along (ctrlStep plainType) (StepInOrder plainType) (ctrlTraceInit fun _ => 0)
          [(0, 3), (3, 3)] ↔
        Along (ctrlStep plainType) (NoFrameAcrossGap plainType)
          (ctrlTraceInit fun _ => 0) [(0, 3), (3, 3)]) := by
  have hclaim : Along (ctrlStep plainType) (AfterClaim plainType)
      (ctrlTraceInit fun _ => 0) [(0, 3), (3, 3)] :=
    ⟨.inr (.inl (by decide)), .inl (by decide +kernel), trivial⟩
  exact ⟨rfl, hclaim, stepInOrder_along_iff plainType rfl _ _ hclaim⟩

/-- The two frames behind an encoding of the type in two bytes. -/
def longType : CtrlBytes := ⟨[0x40, 0x00], settingsGoaway, by decide⟩

theorem not_stepInOrder_of_acts {c : CtrlBytes} {t : CtrlTrace} {a : Nat × Nat} (n : Nat)
    (acts frames : List CtrlAct) (hacts : (ctrlStep c t a).acts = acts)
    (hlen : ctrlPrefixLen c (ctrlStep c t a).got = n)
    (hframes : (decodeAll ctrlWalkOne (c.body.take n)).1 = frames) (hne : acts ≠ frames) :
    ¬ StepInOrder c t a := by
  intro h
  rw [StepInOrder, ActsInOrder, hacts, hlen, hframes] at h
  exact hne h

/-- Three ways to fail. With the type of GOAWAY missing, that of the SETTINGS parsed before is read
in its place: a second SETTINGS frame is acted upon. A STREAM frame before the first one is dropped:
GOAWAY is never acted upon. Behind a type of two bytes the second is read as the type of a frame,
also if all arrives in order: a DATA frame is acted upon. -/
theorem ctrl_acts_out_of_order :
    ¬ Along (ctrlStep plainType) (StepInOrder plainType) (ctrlTraceInit fun _ => 0)
        [(0, 3), (4, 2)] ∧
      ¬ Along (ctrlStep plainType) (StepInOrder plainType) (ctrlTraceInit fun _ => 0)
        [(3, 3), (0, 3)] ∧
      ¬ Along (ctrlStep longType) (StepInOrder longType) (ctrlTraceInit fun _ => 0) [(0, 7)] := by
  refine ⟨?_, ?_, ?_⟩
  · rintro ⟨-, hstep, -⟩
    refine not_stepInOrder_of_acts 2 [.generic ⟨0x04, []⟩, .generic ⟨0x04, [0x00]⟩]
      [.generic ⟨0x04, []⟩] ?_ ?_ ?_ ?_ hstep <;> decide +kernel
  · rintro ⟨-, hstep, -⟩
    refine not_stepInOrder_of_acts 5 [.generic ⟨0x04, []⟩]
      [.generic ⟨0x04, []⟩, .generic ⟨0x07, [0x00]⟩] ?_ ?_ ?_ ?_ hstep <;> decide +kernel
  · rintro ⟨hstep, -⟩
    refine not_stepInOrder_of_acts 5 [.generic ⟨0x00, [0x00, 0x07, 0x01, 0x00]⟩]
      [.generic ⟨0x04, []⟩, .generic ⟨0x07, [0x00]⟩] ?_ ?_ ?_ ?_ hstep <;> decide +kernel

end Wired.Http3
