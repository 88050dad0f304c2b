import Wired.Lib.Run
import Wired.Qpack.Encoder
import Wired.Qpack.Instruction

/-!
# Reading the peer's decoder stream

`qpackenc_decrx.c`: the bytes of the stream are taken one by one into `part` until they are an
instruction, which is applied to the encoder's state. An instruction that fills `part` without
being complete is an error. The reader keeps the bytes after that error, and a caller that goes
on, as `srvloop_gather_qpack_dec` does with the next frame, writes past the end
(`write_past_part_after_error`).
-/

namespace Wired.Qpack

open Lib

def decrxPart : Nat := 11

/-- The reader of the stream; `part` is the instruction under way. -/
structure QpackencDecrx where
  streamId : Nat
  off : Nat
  part : List UInt8

structure DecrxResult where
  rx : QpackencDecrx
  st : QpackencState
  ok : Bool

def decrxApply (kind : QpackDecKind) (st : QpackencState) (value : Nat) : QpackencState × Bool :=
  match kind with
  | .sectionAck => qpackencOnSectionAck st
  | .streamCancel => (st, true)
  | .insertCount => qpackencOnIncrement st value

def qpackencDecrxTake (streamId typeLen : Nat) : QpackencDecrx where
  streamId := streamId
  off := typeLen
  part := []

def decrxByte (rx : QpackencDecrx) (st : QpackencState) (b : UInt8) : DecrxResult :=
  let rx := { rx with part := rx.part ++ [b], off := rx.off + 1 }
  match qpackDecInstrDecode rx.part with
  | none => { rx := rx, st := st, ok := rx.part.length < decrxPart }
  | some ((kind, value), _) =>
    let r := decrxApply kind st value
    { rx := { rx with part := [] }, st := r.1, ok := r.2 }

/-- The loop of `decrx_bytes`: it ends at the first byte that is an error. -/
def decrxBytes (rx : QpackencDecrx) (st : QpackencState) : List UInt8 → DecrxResult
  | [] => { rx := rx, st := st, ok := true }
  | b :: rest =>
    let r := decrxByte rx st b
    if r.ok then decrxBytes r.rx r.st rest else r

/-- The bytes of a frame at `off` that were not read yet; none if the frame is past a gap. -/
def newBytes (rx : QpackencDecrx) (off : Nat) (d : List UInt8) : List UInt8 :=
  if off > rx.off then [] else d.drop (rx.off - off)

def qpackencDecrxFeed (rx : QpackencDecrx) (st : QpackencState) (off : Nat) (d : List UInt8) :
    DecrxResult :=
  decrxBytes rx st (newBytes rx off d)

def decrxWrites (rx : QpackencDecrx) (st : QpackencState) : List UInt8 → List Nat
  | [] => []
  | b :: rest =>
    let r := decrxByte rx st b
    rx.part.length :: if r.ok then decrxWrites r.rx r.st rest else []

/-! ## A step stays in the buffer -/

theorem decrxByte_length {rx : QpackencDecrx} (st : QpackencState) (b : UInt8)
    (hroom : rx.part.length < decrxPart) :
    (decrxByte rx st b).rx.part.length ≤ decrxPart ∧
      ((decrxByte rx st b).ok = true → (decrxByte rx st b).rx.part.length < decrxPart) := by
  unfold decrxByte
  dsimp only
  cases hdec : qpackDecInstrDecode (rx.part ++ [b]) with
  | none => simpa using Nat.succ_le_of_lt hroom
  | some r =>
    have hpos : 0 < decrxPart := by decide
    exact ⟨zero_le, fun _ => hpos⟩

theorem decrxBytes_inBounds {rx : QpackencDecrx} {st : QpackencState} (d : List UInt8)
    (hroom : rx.part.length < decrxPart) :
    (∀ i ∈ decrxWrites rx st d, i < decrxPart) ∧
      (decrxBytes rx st d).rx.part.length ≤ decrxPart := by
  induction d generalizing rx st with
  | nil => exact ⟨by simp [decrxWrites], le_of_lt hroom⟩
  | cons b rest ih =>
    obtain ⟨hlen, hok⟩ := decrxByte_length st b hroom
    unfold decrxWrites decrxBytes
    dsimp only
    split
    · rename_i hgo
      obtain ⟨hwrites, hlast⟩ := @ih _ (decrxByte rx st b).st (hok hgo)
      exact ⟨List.forall_mem_cons.mpr ⟨hroom, hwrites⟩, hlast⟩
    · refine ⟨?_, hlen⟩
      intro i hi
      rw [List.mem_singleton.mp hi]
      exact hroom

/-! ## Runs

The reader's state and the encoder's. Between two feeds the encoder's state may change in any
way: fields are inserted and sections sent. -/

/-- The reader together with the encoder's state. -/
structure DecoderStream where
  rx : QpackencDecrx
  st : QpackencState

inductive DecrxOp where
  | take (streamId typeLen : Nat)
  | feed (off : Nat) (d : List UInt8)
  | encoder (st : QpackencState)

def decrxStart : DecoderStream where
  rx := { streamId := 0, off := 0, part := [] }
  st := qpackencInit 0

def decrxStep (s : DecoderStream) : DecrxOp → DecoderStream
  | .take streamId typeLen => { s with rx := qpackencDecrxTake streamId typeLen }
  | .feed off d =>
    let r := qpackencDecrxFeed s.rx s.st off d
    { rx := r.rx, st := r.st }
  | .encoder st => { s with st := st }

def stepWrites (s : DecoderStream) : DecrxOp → List Nat
  | .feed off d => decrxWrites s.rx s.st (newBytes s.rx off d)
  | _ => []

/-- The step writes inside of `part` only, and what it leaves pending fits in it. -/
def FeedInBounds (s : DecoderStream) (op : DecrxOp) : Prop :=
  (∀ i ∈ stepWrites s op, i < decrxPart) ∧ (decrxStep s op).rx.part.length ≤ decrxPart
deriving Decidable

/-- No new byte is fed while `part` is full. -/
def FeedHasRoom (s : DecoderStream) : DecrxOp → Prop
  | .feed off d => s.rx.part.length < decrxPart ∨ newBytes s.rx off d = []
  | _ => True

theorem feedInBounds_iff {s : DecoderStream} (hs : s.rx.part.length ≤ decrxPart) (op : DecrxOp) :
    FeedInBounds s op ↔ FeedHasRoom s op := by
  cases op with
  | take streamId typeLen => simp [FeedInBounds, FeedHasRoom, stepWrites, decrxStep,
      qpackencDecrxTake]
  | encoder st => simpa [FeedInBounds, FeedHasRoom, stepWrites, decrxStep] using hs
  | feed off d =>
    constructor
    · intro h
      show _ ∨ newBytes s.rx off d = []
      cases hnew : newBytes s.rx off d with
      | nil => exact Or.inr rfl
      | cons b rest =>
        refine Or.inl (h.1 _ ?_)
        simp [stepWrites, hnew, decrxWrites]
    · rintro (hroom | hnone)
      · exact decrxBytes_inBounds _ hroom
      · simpa [FeedInBounds, stepWrites, decrxStep, qpackencDecrxFeed, hnone, decrxWrites,
          decrxBytes] using hs

/-- **Bounds.** Every step of a run stays inside the buffer if and only if no step feeds a new byte
while the buffer is full, as it is after an overlong instruction. -/
theorem feedInBounds_along_iff (ops : List DecrxOp) :
    Along decrxStep FeedInBounds decrxStart ops ↔ Along decrxStep FeedHasRoom decrxStart ops :=
  along_congr (I := fun s => s.rx.part.length ≤ decrxPart) (fun _ _ _ hstep => hstep.2)
    (fun _ op hs => feedInBounds_iff hs op) ops zero_le

/-- Eleven bytes that are no complete instruction, reported as an error, and one more byte. -/
theorem write_past_part_after_error :
    ¬ Along decrxStep FeedInBounds decrxStart
      [.take 6 1, .feed 1 (List.replicate 11 0xff), .feed 12 [0xff]] := by
  decide

end Wired.Qpack
