import Wired.Bytes.Bitmap
import Wired.Lib.Run
import Wired.Qpack.EncoderStream
import Wired.Transport.Varint

/-!
# Reception of the encoder stream

`enc_stream_rx.c` and `enc_stream_qdyn.c`: the bytes of a client's unidirectional stream land in
a window, with a mark for each. Once the stream's type is whole, the stream is claimed if it is
the encoder stream and let go otherwise. From a claimed stream the whole instructions before the
first missing byte are carried out on the dynamic table, and the window slides past them.

However the bytes arrive, the table and the verdict are those of carrying out the received
prefix of the stream from one buffer (`table_of_received`).
-/

namespace Wired.Qpack

open Lib Bytes Transport List

def qdynEncrxCap : Nat := 49152

def qdynEncStreamType : Nat := 0x02

structure QdynEncrx where
  buf : Nat → UInt8
  marks : Bitmap
  base : Nat
  /-- The bytes past the last received one are unused. -/
  hi : Nat
  /-- The candidate or claimed stream, 0 if there is none. -/
  streamId : Nat
  /-- The length of the stream's type once the stream is claimed, 0 before. -/
  typeLen : Nat

/-! ## Landing -/

/-- Drops what lies below the window; `none` if nothing remains. -/
def rxTrim (rx : QdynEncrx) (off : Nat) (d : List UInt8) : Option (Nat × List UInt8) :=
  let drop := if off < rx.base then rx.base - off else 0
  if drop ≥ d.length then none else some (off + drop, d.drop drop)

def rxMarkAll (m : Bitmap) (pos n : Nat) : Bitmap :=
  (List.range n).foldl (fun m i => bitsSet m (pos + i) true) m

/-- `none` if the bytes reach past the window. -/
def rxStore (rx : QdynEncrx) (off : Nat) (d : List UInt8) : Option QdynEncrx :=
  let pos := off - rx.base
  if pos + d.length > qdynEncrxCap then none
  else
    some { rx with
      buf := writeCells rx.buf pos d
      marks := rxMarkAll rx.marks pos d.length
      hi := max rx.hi (pos + d.length) }

def qdynRxLand (rx : QdynEncrx) (off : Nat) (d : List UInt8) : Option QdynEncrx :=
  match rxTrim rx off d with
  | none => some rx
  | some (off, d) => rxStore rx off d

/-! ## Reading -/

def qdynEncrxReady (rx : QdynEncrx) : Nat := leading (bitsGet rx.marks) rx.hi

def rxShiftMarks (rx : QdynEncrx) (n : Nat) : Bitmap :=
  bitsShiftDown rx.marks ((rx.hi + 7) / 8 * 8) n

def rxSlide (rx : QdynEncrx) (n : Nat) : QdynEncrx :=
  if n = 0 then rx
  else
    { rx with
      buf := (List.range (rx.hi - n)).foldl
        (fun buf i => Function.update buf i (buf (i + n))) rx.buf
      marks := rxShiftMarks rx n
      hi := rx.hi - n
      base := rx.base + n }

def qdynEncrxTake (rx : QdynEncrx) (streamId : Nat) : QdynEncrx where
  buf := rx.buf
  marks := fun k => if k < (rx.hi + 7) / 8 then 0 else rx.marks k
  base := 0
  hi := 0
  streamId := streamId
  typeLen := 0

def qdynEncrxIdentify (rx : QdynEncrx) : QdynEncrx :=
  match varintDecode (readCells rx.buf (qdynEncrxReady rx)) with
  | none => rx
  | some (v, n) =>
    if v ≠ qdynEncStreamType then qdynEncrxTake rx 0 else rxSlide { rx with typeLen := n } n

/-- What feeding the window with a frame comes to. -/
structure EncrxFed where
  rx : QdynEncrx
  table : QpackDyn
  err : Bool

def qdynEncrxSettle (max : Nat) (rx : QdynEncrx) (t : QpackDyn) : EncrxFed :=
  let rx := if rx.typeLen = 0 then qdynEncrxIdentify rx else rx
  if rx.typeLen = 0 then { rx := rx, table := t, err := false }
  else
    let r := qdynEncApplyAll max t (readCells rx.buf (qdynEncrxReady rx))
    { rx := rxSlide rx r.used, table := r.state, err := r.failed }

/-- Bytes past the window are an error on the claimed stream only. -/
def qdynEncrxFeed (max : Nat) (rx : QdynEncrx) (t : QpackDyn) (off : Nat) (d : List UInt8) :
    EncrxFed :=
  match qdynRxLand rx off d with
  | none => { rx := rx, table := t, err := rx.typeLen ≠ 0 }
  | some rx => qdynEncrxSettle max rx t

/-! ## The window follows the stream -/

/-- The window holds a stream. -/
structure RxFollows (S : List UInt8) (rx : QdynEncrx) : Prop where
  holds : WindowHolds S rx.base qdynEncrxCap rx.buf (bitsGet rx.marks)
  base_le : rx.base ≤ S.length
  hi_le : rx.hi ≤ qdynEncrxCap
  clear : ∀ i, rx.hi ≤ i → bitsGet rx.marks i = false

theorem bitsGet_rxMarkAll (m : Bitmap) (pos n j : Nat) :
    bitsGet (rxMarkAll m pos n) j = (bitsGet m j || decide (pos ≤ j ∧ j < pos + n)) := by
  unfold rxMarkAll
  induction n with
  | zero => simp
  | succ n ih =>
    rw [range_succ, foldl_append, foldl_cons, foldl_nil, bitsGet_set, ih]
    by_cases hj : j = pos + n
    · rw [if_pos hj, decide_eq_true (by omega), Bool.or_true]
    · rw [if_neg hj]
      congr 2
      apply propext
      omega

variable {rx : QdynEncrx} {got : Nat → Bool}

theorem bitsGet_rxShiftMarks (hclear : ∀ i, rx.hi ≤ i → bitsGet rx.marks i = false) (n i : Nat) :
    bitsGet (rxShiftMarks rx n) i = bitsGet rx.marks (i + n) := by
  have hbits : (rx.hi + 7) / 8 * 8 % 8 = 0 := Nat.mul_mod_left _ _
  unfold rxShiftMarks
  by_cases hi : i < (rx.hi + 7) / 8 * 8
  · rw [bitsGet_shiftDown _ hbits n hi]
    by_cases hin : i + n < (rx.hi + 7) / 8 * 8
    · rw [decide_eq_true hin, Bool.true_and]
    · rw [decide_eq_false hin, Bool.false_and, hclear _ (by omega)]
  · rw [bitsGet_shiftDown_of_ge _ hbits n (by omega), hclear _ (by omega), hclear _ (by omega)]

variable {n off : Nat} {d : List UInt8} {rx' : QdynEncrx}

namespace RxFollows

variable {S : List UInt8}

theorem slide_base (rx : QdynEncrx) (n : Nat) : (rxSlide rx n).base = rx.base + n := by
  unfold rxSlide
  split
  · omega
  · rfl

theorem slide_hi (rx : QdynEncrx) (n : Nat) : (rxSlide rx n).hi = rx.hi - n := by
  unfold rxSlide
  split
  · rename_i hn
    rw [hn, Nat.sub_zero]
  · rfl

section

variable (h : RxFollows S rx)
include h

theorem ready_le : qdynEncrxReady rx ≤ leading (bitsGet rx.marks) qdynEncrxCap := by
  have hle := leading_le (bitsGet rx.marks) rx.hi
  have hcap := h.hi_le
  apply le_leading
  · exact le_trans hle hcap
  · intro i hi
    exact mark_of_lt_leading hi

theorem contents (hn : n ≤ qdynEncrxReady rx) : readCells rx.buf n = (S.drop rx.base).take n :=
  h.holds.contents (le_trans hn h.ready_le)

theorem mark_ready : bitsGet rx.marks (qdynEncrxReady rx) = false := by
  by_cases hlt : qdynEncrxReady rx < rx.hi
  · exact mark_leading hlt
  · exact h.clear _ (Nat.not_lt.mp hlt)

theorem base_add_ready_le : rx.base + qdynEncrxReady rx ≤ S.length := by
  have hle := h.holds.base_add_leading_le h.base_le
  have hready := h.ready_le
  omega

theorem slide_mark (n i : Nat) : bitsGet (rxSlide rx n).marks i = bitsGet rx.marks (i + n) := by
  unfold rxSlide
  split
  · rename_i hn
    rw [hn, add_zero]
  · exact bitsGet_rxShiftMarks h.clear n i

theorem slide (hn : n ≤ qdynEncrxReady rx) : RxFollows S (rxSlide rx n) := by
  have hcap := h.hi_le
  have hbase := h.base_add_ready_le
  refine ⟨?_, ?_, ?_, ?_⟩
  · rw [slide_base]
    apply h.holds.slide
    intro i hi hm
    rw [h.slide_mark] at hm
    -- a marked byte lies below `hi`, so that it was moved
    have hlt : i + n < rx.hi := by
      by_contra hge
      rw [h.clear _ (Nat.not_lt.mp hge)] at hm
      cases hm
    refine ⟨by omega, hm, ?_⟩
    unfold rxSlide
    split
    · rename_i hzero
      rw [hzero, add_zero]
    · exact foldl_moveDown rx.buf n (by omega)
  · rw [slide_base]
    omega
  · rw [slide_hi]
    omega
  · intro i hi
    rw [slide_hi] at hi
    rw [h.slide_mark, h.clear _ (by omega)]

theorem store (hoff : rx.base ≤ off) (hd : d <+: S.drop off)
    (hstore : rxStore rx off d = some rx') : RxFollows S rx' := by
  simp only [rxStore, Option.ite_none_left_eq_some, Option.some.injEq] at hstore
  obtain ⟨hfit, rfl⟩ := hstore
  refine ⟨?_, h.base_le, ?_, ?_⟩
  · refine h.holds.write (fun j x hx => ?_) fun i _ hm => ?_
    · rw [Nat.add_sub_cancel' hoff]
      exact getElem?_of_prefix_drop hd hx
    · rwa [bitsGet_rxMarkAll, Bool.or_eq_true, decide_eq_true_eq] at hm
  · have hcap := h.hi_le
    exact Nat.max_le.mpr ⟨hcap, by omega⟩
  · intro i hi
    have hge := Nat.max_le.mp hi
    rw [bitsGet_rxMarkAll, h.clear i hge.1, decide_eq_false (by omega)]
    rfl

end

end RxFollows

/-! ## Runs -/

/-- The bytes received are those below the window and the marked ones. -/
def Seen (rx : QdynEncrx) (got : Nat → Bool) : Prop :=
  ∀ o, got o = (decide (o < rx.base) || bitsGet rx.marks (o - rx.base))

variable {S : List UInt8}

theorem Seen.slide (h : Seen rx got) (hf : RxFollows S rx)
    (hn : n ≤ qdynEncrxReady rx) : Seen (rxSlide rx n) got := by
  intro o
  rw [h o, RxFollows.slide_base, hf.slide_mark]
  rcases Nat.lt_or_ge o rx.base with hlt | hge
  · rw [decide_eq_true hlt, decide_eq_true (by omega)]
    rfl
  · rw [decide_eq_false (by omega), Bool.false_or]
    by_cases hread : o < rx.base + n
    · have hready : o - rx.base < qdynEncrxReady rx := by omega
      rw [mark_of_lt_leading hready, decide_eq_true hread]
      rfl
    · rw [decide_eq_false hread, Bool.false_or, show o - (rx.base + n) + n = o - rx.base by omega]

theorem Seen.leading_eq (h : Seen rx got) (hf : RxFollows S rx) :
    leading got S.length = rx.base + qdynEncrxReady rx := by
  apply Lib.leading_eq hf.base_add_ready_le
  · intro o ho
    rw [h o]
    rcases Nat.lt_or_ge o rx.base with hlt | hge
    · rw [decide_eq_true hlt]
      rfl
    · have hready : o - rx.base < qdynEncrxReady rx := by omega
      rw [mark_of_lt_leading hready, Bool.or_true]
  · intro _
    rw [h, Nat.add_sub_cancel_left, hf.mark_ready, decide_eq_false (by omega)]
    rfl

def covers (f : Fragment UInt8) (o : Nat) : Bool :=
  decide (f.off ≤ o ∧ o < f.off + f.data.length)

theorem land_spec (hf : RxFollows S rx) (hs : Seen rx got) (off len : Nat) (fin : Bool)
    (hland : qdynRxLand rx (fragment S off len fin).off (fragment S off len fin).data = some rx') :
    RxFollows S rx' ∧ Seen rx' (fun o => got o || covers (fragment S off len fin) o) ∧
      rx'.base = rx.base ∧ rx'.streamId = rx.streamId ∧ rx'.typeLen = rx.typeLen := by
  have hdata := fragment_data S off len fin
  generalize fragment S off len fin = f at hdata hland ⊢
  unfold qdynRxLand rxTrim at hland
  generalize hdrop : (if f.off < rx.base then rx.base - f.off else 0) = drop at hland
  have hmax : f.off + drop = max f.off rx.base := by split at hdrop <;> omega
  by_cases hnone : drop ≥ f.data.length
  · rw [if_pos hnone] at hland
    cases hland
    refine ⟨hf, fun o => ?_, rfl, rfl, rfl⟩
    -- all of it lies below the window
    dsimp only
    rw [hs o, covers]
    by_cases hc : f.off ≤ o ∧ o < f.off + f.data.length
    · rw [decide_eq_true hc, decide_eq_true (show o < rx.base by omega)]
      rfl
    · rw [decide_eq_false hc, Bool.or_false]
  · rw [if_neg hnone] at hland
    have hpre : f.data.drop drop <+: S.drop (f.off + drop) := by
      rw [hdata, drop_take, drop_drop]
      exact take_prefix _ _
    refine ⟨hf.store (by omega) hpre hland, ?_, ?_⟩
    · simp only [rxStore, Option.ite_none_left_eq_some, Option.some.injEq] at hland
      obtain ⟨-, rfl⟩ := hland
      intro o
      dsimp only
      rw [hs o, bitsGet_rxMarkAll, covers, length_drop]
      by_cases hlt : o < rx.base
      · rw [decide_eq_true hlt]
        rfl
      · rw [decide_eq_false hlt, Bool.false_or, Bool.false_or]
        congr 2
        apply propext
        omega
    · simp only [rxStore, Option.ite_none_left_eq_some, Option.some.injEq] at hland
      obtain ⟨-, rfl⟩ := hland
      exact ⟨rfl, rfl, rfl⟩

theorem qdynRxLand_isSome (hfit : off + d.length ≤ rx.base + qdynEncrxCap) :
    (qdynRxLand rx off d).isSome = true := by
  unfold qdynRxLand rxTrim
  generalize hdrop : (if off < rx.base then rx.base - off else 0) = drop
  have hmax : off + drop = max off rx.base := by split at hdrop <;> omega
  by_cases hnone : drop ≥ d.length
  · rw [if_pos hnone]
    rfl
  · rw [if_neg hnone]
    dsimp only [rxStore]
    rw [if_neg (by rw [length_drop]; omega)]
    rfl

/-- The window over the frames of one stream, the table, the verdict on the last frame inside of the
window, and, for the proofs, the bytes received. -/
structure EncTrace where
  rx : QdynEncrx
  table : QpackDyn
  err : Bool
  got : Nat → Bool

/-- The `k`-th unidirectional stream of the client. -/
def clientUniId (k : Nat) : Nat := 4 * k + 2

/-- The window is taken for the stream, whatever is in the buffer. -/
def encTraceTake (buf : Nat → UInt8) (t0 : QpackDyn) (k : Nat) : EncTrace where
  rx := qdynEncrxTake
    { buf := buf, marks := fun _ => 0, base := 0, hi := 0, streamId := 0, typeLen := 0 }
    (clientUniId k)
  table := t0
  err := false
  got := fun _ => false

/-- A STREAM frame with at most `len` bytes from `off` on; refused if it reaches past the window. -/
def encStep (S : List UInt8) (max k : Nat) (t : EncTrace) (frame : Nat × Nat) : EncTrace :=
  let f := fragment S frame.1 frame.2 false
  if t.rx.streamId = clientUniId k then
    let r := qdynEncrxFeed max t.rx t.table f.off f.data
    if (qdynRxLand t.rx f.off f.data).isSome then
      { rx := r.rx, table := r.table, err := r.err, got := fun o => t.got o || covers f o }
    else { t with rx := r.rx, table := r.table }
  else t

/-- The table and the verdict from carrying out a part of the stream, type first. A stream of
another type leaves the table alone. -/
def applyPrefix (max : Nat) (t0 : QpackDyn) (p : List UInt8) : QpackDyn × Bool :=
  match varintDecode p with
  | none => (t0, false)
  | some (v, n) =>
    if v = qdynEncStreamType then
      let r := qdynEncApplyAll max t0 (p.drop n)
      (r.state, r.failed)
    else (t0, false)

/-- The stream up to its first missing byte. -/
def EncTrace.received (S : List UInt8) (t : EncTrace) : List UInt8 :=
  S.take (leading t.got S.length)

/-- Where the reception of the stream stands, with the received part `p` of the stream. -/
inductive EncStage (max : Nat) (t0 : QpackDyn) (k : Nat) (p : List UInt8) : EncTrace → Prop
  | held {t : EncTrace} (hid : t.rx.streamId = clientUniId k) (htype : t.rx.typeLen = 0)
      (hbase : t.rx.base = 0) (hdec : varintDecode p = none) (htable : t.table = t0)
      (herr : t.err = false) : EncStage max t0 k p t
  | claimed {t : EncTrace} (hid : t.rx.streamId = clientUniId k)
      (hdec : varintDecode p = some (qdynEncStreamType, t.rx.typeLen))
      (hbase : t.rx.typeLen ≤ t.rx.base)
      (happly : qdynEncApplyAll max t0 (p.drop t.rx.typeLen) =
        ⟨t.table, t.rx.base - t.rx.typeLen, t.err⟩) : EncStage max t0 k p t
  | released {t : EncTrace} {v n : Nat} (hid : t.rx.streamId = 0)
      (hdec : varintDecode p = some (v, n)) (hother : v ≠ qdynEncStreamType)
      (htable : t.table = t0) (herr : t.err = false) : EncStage max t0 k p t

variable {t : EncTrace}

theorem EncStage.applyPrefix_eq {max : Nat} {t0 : QpackDyn} {k : Nat} {p : List UInt8}
    (h : EncStage max t0 k p t) : applyPrefix max t0 p = (t.table, t.err) := by
  unfold applyPrefix
  cases h with
  | held _ _ _ hdec htable herr => rw [hdec, htable, herr]
  | claimed _ hdec _ happly => simp only [hdec, if_true, happly]
  | released _ hdec hother htable herr => simp only [hdec, if_neg hother, htable, herr]

/-- The invariant of the reception. -/
structure EncInv (S : List UInt8) (max : Nat) (t0 : QpackDyn) (k : Nat) (t : EncTrace) :
    Prop where
  window : t.rx.streamId = clientUniId k → RxFollows S t.rx ∧ Seen t.rx t.got
  stage : EncStage max t0 k (t.received S) t

theorem encInv_take (S : List UInt8) (max : Nat) (buf : Nat → UInt8) (t0 : QpackDyn) (k : Nat) :
    EncInv S max t0 k (encTraceTake buf t0 k) where
  window := fun _ => by
    have hclear : ∀ i, bitsGet (encTraceTake buf t0 k).rx.marks i = false := by
      intro i
      simp [encTraceTake, qdynEncrxTake, bitsGet_eq]
    refine ⟨⟨?_, zero_le, zero_le, fun i _ => hclear i⟩, ?_⟩
    · intro i _ hm
      rw [hclear i] at hm
      cases hm
    · intro o
      rw [hclear, Bool.or_false]
      rfl
  stage := by
    have hnone : (encTraceTake buf t0 k).received S = [] := by
      have hlead : leading (fun _ => false) S.length = 0 :=
        leading_eq zero_le (fun i hi => by omega) (fun _ => rfl)
      simp only [EncTrace.received, encTraceTake, hlead, take_zero]
    rw [hnone]
    exact .held rfl rfl rfl varintDecode_stable.nil rfl rfl

theorem rxSlide_streamId (rx : QdynEncrx) (n : Nat) : (rxSlide rx n).streamId = rx.streamId := by
  unfold rxSlide
  split <;> rfl

theorem rxSlide_typeLen (rx : QdynEncrx) (n : Nat) : (rxSlide rx n).typeLen = rx.typeLen := by
  unfold rxSlide
  split <;> rfl

variable {q : List UInt8}

section

variable {S : List UInt8} {max k : Nat} {t0 : QpackDyn}

section

variable (hf : RxFollows S rx) (hs : Seen rx got)
include hf hs

theorem readCells_ready :
    readCells rx.buf (qdynEncrxReady rx) = (S.take (leading got S.length)).drop rx.base := by
  rw [hf.contents le_rfl, hs.leading_eq hf, drop_take, Nat.add_sub_cancel_left]

/-- Instructions are carried out from where an earlier part `q` of the stream left off. -/
theorem encInv_apply (hid : rx.streamId = clientUniId k)
    {table : QpackDyn} {err : Bool} (hq : q <+: S.take (leading got S.length))
    (hdec : varintDecode q = some (qdynEncStreamType, rx.typeLen)) (hbase : rx.typeLen ≤ rx.base)
    (happly : qdynEncApplyAll max t0 (q.drop rx.typeLen) = ⟨table, rx.base - rx.typeLen, err⟩) :
    let r := qdynEncApplyAll max table (readCells rx.buf (qdynEncrxReady rx))
    EncInv S max t0 k { rx := rxSlide rx r.used, table := r.state, err := r.failed, got := got } := by
  intro r
  have hlen := varintDecode_stable.le hdec
  have hused : rx.base - rx.typeLen ≤ (q.drop rx.typeLen).length := by
    have := qdynEncApplyAll_used_le max t0 (q.drop rx.typeLen)
    rwa [happly] at this
  rw [length_drop] at hused
  have hready : r.used ≤ qdynEncrxReady rx := by
    have := qdynEncApplyAll_used_le max table (readCells rx.buf (qdynEncrxReady rx))
    rwa [readCells_length] at this
  obtain ⟨more, hmore⟩ := hq
  have hall : qdynEncApplyAll max t0 ((S.take (leading got S.length)).drop rx.typeLen) =
      r.skip (rx.base - rx.typeLen) := by
    have happ := qdynEncApplyAll_append max t0 (q.drop rx.typeLen) more
    rw [happly] at happ
    rw [drop_drop, Nat.add_sub_cancel' hbase, ← drop_append_of_le_length hlen,
      ← drop_append_of_le_length (by omega), hmore, ← readCells_ready hf hs] at happ
    exact happ
  refine ⟨fun _ => ⟨hf.slide hready, hs.slide hf hready⟩, .claimed ?_ ?_ ?_ ?_⟩
  · exact (rxSlide_streamId rx r.used).trans hid
  · rw [rxSlide_typeLen]
    exact varintDecode_stable.of_prefix hdec ⟨more, hmore⟩
  · rw [rxSlide_typeLen, RxFollows.slide_base]
    omega
  · rw [rxSlide_typeLen, RxFollows.slide_base]
    refine hall.trans ?_
    simp only [Interpreted.skip, Interpreted.mk.injEq, true_and, and_true]
    omega

theorem encInv_held (hid : rx.streamId = clientUniId k)
    (htype : rx.typeLen = 0) (hbase : rx.base = 0) :
    let r := qdynEncrxSettle max rx t0
    EncInv S max t0 k { rx := r.rx, table := r.table, err := r.err, got := got } := by
  intro r
  have hcells := readCells_ready hf hs
  rw [hbase, drop_zero] at hcells
  have hr : r = qdynEncrxSettle max rx t0 := rfl
  unfold qdynEncrxSettle at hr
  rw [if_pos htype] at hr
  cases hdec : varintDecode (S.take (leading got S.length)) with
  | none =>
    have hident : qdynEncrxIdentify rx = rx := by rw [qdynEncrxIdentify, hcells, hdec]
    rw [hident] at hr
    simp only [htype, if_true] at hr
    rw [hr]
    exact ⟨fun _ => ⟨hf, hs⟩, .held hid htype hbase hdec rfl rfl⟩
  | some head =>
    obtain ⟨v, n⟩ := head
    by_cases hother : v ≠ qdynEncStreamType
    · have hident : qdynEncrxIdentify rx = qdynEncrxTake rx 0 := by
        rw [qdynEncrxIdentify, hcells, hdec]
        exact if_pos hother
      rw [hident] at hr
      simp only [qdynEncrxTake, if_true] at hr
      rw [hr]
      refine ⟨fun hmine => ?_, .released rfl hdec hother rfl rfl⟩
      simp only [clientUniId] at hmine
      omega
    · obtain rfl : v = qdynEncStreamType := not_not.mp hother
      have hident : qdynEncrxIdentify rx = rxSlide { rx with typeLen := n } n := by
        rw [qdynEncrxIdentify, hcells, hdec]
        exact if_neg hother
      have hpos := varintDecode_stable.pos hdec
      have hle := varintDecode_stable.le hdec
      have hfn : RxFollows S { rx with typeLen := n } := { hf with }
      have hsn : Seen { rx with typeLen := n } got := hs
      rw [← hcells, readCells_length] at hle
      have hf' := hfn.slide hle
      have hs' := hsn.slide hfn hle
      have hbase' : (rxSlide { rx with typeLen := n } n).base = n := by
        rw [RxFollows.slide_base, hbase, zero_add]
      have htype' : (rxSlide { rx with typeLen := n } n).typeLen = n := rxSlide_typeLen _ _
      have hid' := (rxSlide_streamId { rx with typeLen := n } n).trans hid
      rw [hident] at hr
      generalize rxSlide { rx with typeLen := n } n = rx' at hr hf' hs' hbase' htype' hid'
      rw [if_neg (by omega)] at hr
      rw [hr]
      have hfresh : qdynEncApplyAll max t0
          (((S.take (leading got S.length)).take n).drop rx'.typeLen) =
            ⟨t0, rx'.base - rx'.typeLen, false⟩ := by
        rw [htype', hbase', Nat.sub_self, drop_of_length_le (length_take_le _ _)]
        rfl
      refine encInv_apply hf' hs' hid' (List.take_prefix n _) ?_ (by omega) hfresh
      rw [htype']
      apply varintDecode_stable.of_take_eq hdec
      rw [take_take, Nat.min_self]

end

theorem encInv_settle (hstage : EncStage max t0 k q t) (hq : q <+: S.take (leading got S.length))
    (hf : RxFollows S rx) (hs : Seen rx got) (hbase : rx.base = t.rx.base)
    (hid : rx.streamId = t.rx.streamId) (htype : rx.typeLen = t.rx.typeLen)
    (hmine : t.rx.streamId = clientUniId k) : let r := qdynEncrxSettle max rx t.table
    EncInv S max t0 k { rx := r.rx, table := r.table, err := r.err, got := got } := by
  cases hstage with
  | held hid' htype' hbase' hdec htable herr =>
    rw [htable]
    exact encInv_held hf hs (hid.trans hmine) (htype.trans htype') (hbase.trans hbase')
  | claimed hid' hdec hle happly =>
    have hpos := varintDecode_stable.pos hdec
    rw [← htype] at hdec hpos happly hle
    rw [← hbase] at hle happly
    have hne : rx.typeLen ≠ 0 := by omega
    unfold qdynEncrxSettle
    simp only [if_neg hne]
    exact encInv_apply hf hs (hid.trans hmine) hq hdec hle happly
  | released hid' hdec hother htable herr =>
    rw [hmine, clientUniId] at hid'
    omega

theorem received_mono {got' : Nat → Bool} (h : ∀ o, got o = true → got' o = true) :
    S.take (leading got S.length) <+: S.take (leading got' S.length) := by
  have hle : leading got S.length ≤ leading got' S.length :=
    le_leading (leading_le _ _) fun i hi => h i (mark_of_lt_leading hi)
  have := take_prefix (leading got S.length) (S.take (leading got' S.length))
  rwa [take_take, min_eq_left hle] at this

theorem encInv_step (h : EncInv S max t0 k t) (frame : Nat × Nat) :
    EncInv S max t0 k (encStep S max k t frame) := by
  unfold encStep
  by_cases hmine : t.rx.streamId = clientUniId k
  · rw [if_pos hmine]
    obtain ⟨hf, hs⟩ := h.window hmine
    unfold qdynEncrxFeed
    cases hland : qdynRxLand t.rx (fragment S frame.1 frame.2 false).off
        (fragment S frame.1 frame.2 false).data with
    | none => exact h
    | some rx' =>
      obtain ⟨hf', hs', hbase, hid, htype⟩ := land_spec hf hs _ _ _ hland
      exact encInv_settle h.stage (received_mono fun o ho => by simp [ho]) hf' hs' hbase hid
        htype hmine
  · rw [if_neg hmine]
    exact h

end

/-- **Reception of the encoder stream.** After every sequence of frames, however the stream was cut,
reordered and repeated, the dynamic table and the verdict are those of carrying out the received
part of the stream from one buffer; and a frame of the stream that does not reach past the window is
received. -/
theorem table_of_received (S : List UInt8) (max : Nat) (buf : Nat → UInt8) (t0 : QpackDyn)
    (k : Nat) (frames : List (Nat × Nat)) :
    let t := frames.foldl (encStep S max k) (encTraceTake buf t0 k)
    (t.table, t.err) = applyPrefix max t0 (t.received S) ∧
      ∀ frame : Nat × Nat, t.rx.streamId = clientUniId k →
        min (frame.1 + frame.2) S.length ≤ t.rx.base + qdynEncrxCap →
          ∀ o < S.length, frame.1 ≤ o → o < frame.1 + frame.2 →
            (encStep S max k t frame).got o = true := by
  intro t
  have h : EncInv S max t0 k t :=
    foldl_invariant (I := EncInv S max t0 k) (fun _ frame ht => encInv_step ht frame) frames
      (encInv_take S max buf t0 k)
  refine ⟨h.stage.applyPrefix_eq.symm, fun frame hmine hfit o ho hge hlt => ?_⟩
  rw [← fragment_end S frame.1 frame.2 false] at hfit
  have hcover : covers (fragment S frame.1 frame.2 false) o = true :=
    decide_eq_true ((fragment_covers ho).mpr ⟨hge, hlt⟩)
  unfold encStep
  dsimp only
  rw [if_pos hmine, if_pos (qdynRxLand_isSome hfit)]
  simp [hcover]

end Wired.Qpack
