import Wired.Qpack.DecoderStreamRx

/-!
# What the decoder owes its peer's encoder

`dec_stream.c`: acknowledgments are queued as field sections are decoded, and handed to the
decoder stream together with an increment for the inserts that nothing acknowledged yet. The
reader at the other end (`decrxBytes`) carries them out one by one, wherever the stream is cut
(`decrxBytes_messages`).
-/

namespace Wired.Qpack

open Lib List

def qdynDecAcksMax : Nat := 512

def qdynDecOutMax : Nat := qdynDecAcksMax + 10

structure QdynDec where
  acks : List UInt8
  /-- The encoder's Known Received Count once all of this has reached it. -/
  acked : Nat

def raiseAcked (d : QdynDec) (ric : Nat) : QdynDec :=
  if ric > d.acked then { d with acked := ric } else d

def qdynDecQueue (d : QdynDec) (kind : QpackDecKind) (v : Nat) : Option QdynDec :=
  (qpackDecInstrEncode (qdynDecAcksMax - d.acks.length) kind v).map fun b =>
    { d with acks := d.acks ++ b }

def qdynDecSectionAck (d : QdynDec) (streamId ric : Nat) : QdynDec :=
  if ric = 0 then d
  else
    match qdynDecQueue d .sectionAck streamId with
    | some d' => raiseAcked d' ric
    | none => d

def qdynDecStreamCancel (d : QdynDec) (streamId : Nat) : QdynDec :=
  (qdynDecQueue d .streamCancel streamId).getD d

def putIncrement (d : QdynDec) (inserts cap : Nat) : List UInt8 :=
  if inserts ≤ d.acked then []
  else (qpackDecInstrEncode cap .insertCount (inserts - d.acked)).getD []

/-- The bytes owed, in a buffer of `QDYN_DEC_OUT_MAX`. -/
def qdynDecPending (d : QdynDec) (inserts : Nat) : List UInt8 :=
  d.acks ++ putIncrement d inserts (qdynDecOutMax - d.acks.length)

/-- The bytes written to a buffer of any size: the acknowledgments only if they all fit. -/
def qdynDecPendingIn (d : QdynDec) (inserts cap : Nat) : List UInt8 :=
  let acks := if d.acks.length ≤ cap then d.acks else []
  acks ++ putIncrement d inserts (cap - acks.length)

def qdynDecSent (d : QdynDec) (inserts : Nat) : QdynDec := raiseAcked { d with acks := [] } inserts

theorem qdynDecPendingIn_outMax {d : QdynDec} (h : d.acks.length ≤ qdynDecAcksMax) (inserts : Nat) :
    qdynDecPendingIn d inserts qdynDecOutMax = qdynDecPending d inserts := by
  have hfits : d.acks.length ≤ qdynDecOutMax := h.trans (Nat.le_add_right _ _)
  simp only [qdynDecPendingIn, qdynDecPending, if_pos hfits]

/-! ## The instructions as messages -/

/-- An instruction of the decoder stream: its kind, and the integer in it. -/
structure DecMsg where
  kind : QpackDecKind
  value : Nat

/-- The bytes of a message; every integer that can be decoded has some. -/
def DecMsg.bytes (m : DecMsg) : List UInt8 := (qpackDecInstrEncode 10 m.kind m.value).getD []

variable {m : DecMsg} {wire : List UInt8}

section

variable (hvalue : m.value < 2 ^ 63)

include hvalue

theorem qpackDecInstrEncode_bytes {cap : Nat} {b : List UInt8}
    (h : qpackDecInstrEncode cap m.kind m.value = some b) : b = m.bytes ∧ b.length ≤ 10 := by
  obtain ⟨b', hb', hlen⟩ := qpackIntEncode_of_room (decSpec m.kind).pattern 8 (by decide)
    hvalue le_rfl
  have heq : b = b' := (qpackIntEncode_eq_some.mp h).1.trans (qpackIntEncode_eq_some.mp hb').1.symm
  refine ⟨?_, heq ▸ hlen⟩
  have hbytes : m.bytes = (some b').getD [] := congrArg (Option.getD · []) hb'
  rw [hbytes, heq, Option.getD_some]

theorem qpackDecInstrEncode_of_room {cap : Nat} (hcap : 10 ≤ cap) :
    qpackDecInstrEncode cap m.kind m.value = some m.bytes := by
  obtain ⟨b, hb, -⟩ := qpackIntEncode_of_room (decSpec m.kind).pattern 8 (by decide) hvalue hcap
  rw [← (qpackDecInstrEncode_bytes hvalue hb).1]
  exact hb

theorem DecMsg.codes :
    Codes qpackDecInstrDecode m.bytes (m.kind, m.value) := fun rest =>
  instrDecode_encode (decKind_recognised m.kind) hvalue
    (qpackDecInstrEncode_of_room hvalue le_rfl) rest

theorem DecMsg.bytes_length : m.bytes.length ≤ 10 :=
  (qpackDecInstrEncode_bytes hvalue (qpackDecInstrEncode_of_room hvalue le_rfl)).2

theorem DecMsg.bytes_pos : 0 < m.bytes.length := by
  have hcode := DecMsg.codes hvalue []
  exact (instrDecode_stable decKinds decSpec).pos hcode

end

/-! ## Reading them -/

/-- Of the messages still to come, the reader holds the beginning of the first. -/
structure Awaits (rx : QpackencDecrx) (wire : List UInt8) (ms : List DecMsg) : Prop where
  bytes : rx.part ++ wire = ms.flatMap DecMsg.bytes
  short : ∀ m ∈ ms.head?, rx.part.length < m.bytes.length

/-- `R` says what messages a state of the encoder still expects. -/
def Expects (R : QpackencState → List DecMsg → Prop) : Prop :=
  ∀ st m ms, R st (m :: ms) → m.value < 2 ^ 63 ∧
    (decrxApply m.kind st m.value).2 = true ∧ R (decrxApply m.kind st m.value).1 ms

variable {R : QpackencState → List DecMsg → Prop} {rx : QpackencDecrx} {st : QpackencState}
  {ms : List DecMsg}

/-- The next byte is part of the first message. -/
theorem Awaits.next {b : UInt8} (h : Awaits rx (b :: wire) ms) :
    ∃ m ms' t, ms = m :: ms' ∧ rx.part ++ [b] ++ t = m.bytes ∧
      wire = t ++ ms'.flatMap DecMsg.bytes := by
  have hbytes : rx.part ++ [b] ++ wire = ms.flatMap DecMsg.bytes := by
    rw [append_assoc, singleton_append, h.bytes]
  cases ms with
  | nil =>
    have hlen := congrArg List.length hbytes
    simp at hlen
  | cons m ms =>
    have hshort := h.short m rfl
    rw [flatMap_cons] at hbytes
    refine ⟨m, ms, ?_⟩
    rcases append_eq_append_iff.mp hbytes with ⟨t, ht, hwire⟩ | ⟨t, ht, hrest⟩
    · exact ⟨t, rfl, ht.symm, hwire⟩
    · -- the message was too long to end before this byte
      have hlen := congrArg List.length ht
      rw [length_append, length_append, length_singleton] at hlen
      obtain rfl : t = [] := eq_nil_of_length_eq_zero (by omega)
      exact ⟨[], rfl, by simpa using ht, by simpa using hrest.symm⟩

theorem Awaits.append {out : List UInt8} {new : List DecMsg} (h : Awaits rx wire ms)
    (hout : out = new.flatMap DecMsg.bytes) (hpos : ∀ m ∈ new, 0 < m.bytes.length) :
    Awaits rx (wire ++ out) (ms ++ new) where
  bytes := by rw [← append_assoc, h.bytes, hout, flatMap_append]
  short := by
    intro m hm
    cases ms with
    | cons m' ms => exact h.short m hm
    | nil =>
      -- nothing was on its way, so that nothing is held either
      have hpart : rx.part = [] := (append_eq_nil_iff.mp h.bytes).1
      rw [hpart]
      exact hpos m (mem_of_mem_head? hm)

/-- One byte either completes the first message, which is carried out, or is kept. -/
theorem decrxByte_messages (hstep : Expects R) {b : UInt8} (hR : R st ms)
    (h : Awaits rx (b :: wire) ms) :
    (decrxByte rx st b).ok = true ∧
      ∃ todo, R (decrxByte rx st b).st todo ∧ Awaits (decrxByte rx st b).rx wire todo := by
  obtain ⟨m, ms, t, rfl, ht, rfl⟩ := h.next
  obtain ⟨hvalue, hok, hR'⟩ := hstep st m ms hR
  unfold decrxByte
  dsimp only
  by_cases htail : t = []
  · have hdec : qpackDecInstrDecode (rx.part ++ [b]) =
        some ((m.kind, m.value), (rx.part ++ [b]).length) := by
      have hcode := DecMsg.codes hvalue []
      rwa [append_nil, ← ht, htail, append_nil] at hcode
    rw [hdec]
    refine ⟨hok, ms, hR', by simp [htail], ?_⟩
    intro m' hm'
    obtain ⟨ms', rfl⟩ : ∃ ms', ms = m' :: ms' := head?_eq_some_iff.mp hm'
    exact DecMsg.bytes_pos (hstep _ m' ms' hR').1
  · have hdec : qpackDecInstrDecode (rx.part ++ [b]) = none :=
      (DecMsg.codes hvalue).not_decoded (instrDecode_stable decKinds decSpec) ht htail
    have hlen := congrArg List.length ht
    have hpos := length_pos_iff.mpr htail
    have hbound := DecMsg.bytes_length hvalue
    rw [length_append] at hlen
    rw [hdec]
    refine ⟨?_, m :: ms, hR, ?_, ?_⟩
    · apply decide_eq_true
      dsimp only [decrxPart]
      omega
    · rw [flatMap_cons, ← ht, append_assoc _ t]
    · intro m' hm'
      obtain rfl : m = m' := Option.some.inj hm'
      dsimp only
      omega

/-- Bytes that arrive in order are read without an error, wherever they are cut. -/
theorem decrxBytes_messages (hstep : Expects R) {d : List UInt8} (hR : R st ms)
    (h : Awaits rx (d ++ wire) ms) :
    (decrxBytes rx st d).ok = true ∧
      ∃ todo, R (decrxBytes rx st d).st todo ∧ Awaits (decrxBytes rx st d).rx wire todo := by
  induction d generalizing rx st ms with
  | nil => exact ⟨rfl, ms, hR, h⟩
  | cons b d ih =>
    obtain ⟨hok, todo, hR', h'⟩ := decrxByte_messages hstep hR h
    unfold decrxBytes
    rw [if_pos hok]
    exact ih hR' h'

end Wired.Qpack
