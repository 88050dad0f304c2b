import Wired.Frame.Ack

/-!
# Decoders of the other frames

`frame.c`, `frame_take.c`, `flowctl.c`, `stream_ctl.c`, `connctl.c`, `ncid.c` and `datagram.c`. Each
decoder gets the bytes from the start of its frame to the end of the packet, and returns the frame
and its length, or nothing where the source returns zero. A view into the buffer, `buf + off` in the
source, is the position `off` here. What they accept is the subject of `Frame.Walk`.
-/

namespace Wired.Frame

open Lib Transport

/-- The first byte, which the decoders take for the type. -/
def typeByte (buf : List UInt8) : UInt8 := buf.headD 0

/-- The end of `len` bytes at `off`, if there are as many. -/
def frameViewEnd (n off len : Nat) : Option Nat := if off + len > n then none else some (off + len)

/-! ## CRYPTO -/

def frameCrypto : Nat := 0x06

/-- A CRYPTO frame; `data` is the position of its bytes. -/
structure CryptoFrame where
  offset : Nat
  length : Nat
  data : Nat
deriving DecidableEq, Repr

def takeCryptoHdr : Decoder UInt8 (Nat × Nat) := do
  let offset ← varintTake
  let length ← varintTake
  pure (offset, length)

def frameGetCrypto (buf : List UInt8) : Option (CryptoFrame × Nat) :=
  (behindType takeCryptoHdr buf).bind fun r =>
    (frameViewEnd buf.length r.2 r.1.2).map fun e =>
      ({ offset := r.1.1, length := r.1.2, data := r.2 }, e)

/-! ## STREAM -/

/-- The FIN bit of the type. -/
def streamFin : UInt8 := 0x01

/-- The bit that says the frame has a length. -/
def streamLen : UInt8 := 0x02

/-- The bit that says the frame has an offset. -/
def streamOff : UInt8 := 0x04

structure StreamFrame where
  streamId : Nat
  offset : Nat
  length : Nat
  data : Nat
  fin : Bool
deriving DecidableEq, Repr

def maxOffset : Nat := 2 ^ 62

def streamBoundsOk (offset length : Nat) : Bool :=
  offset ≤ maxOffset - 1 && length ≤ maxOffset - 1 - offset

def takeOptOffset (type : UInt8) : Decoder UInt8 Nat :=
  if type &&& streamOff = 0 then pure 0 else varintTake

/-- Without the LEN bit, the data is all that is left. -/
def takeOptLength (type : UInt8) : Decoder UInt8 Nat := fun rest =>
  if type &&& streamLen = 0 then some (rest.length, 0) else varintTake rest

def takeStreamHdr (type : UInt8) : Decoder UInt8 (Nat × Nat × Nat) := do
  let streamId ← varintTake
  let offset ← takeOptOffset type
  let length ← takeOptLength type
  pure (streamId, offset, length)

/-- The header, if the last offset has an encoding. -/
def takeStreamHdrBounded (type : UInt8) : Decoder UInt8 (Nat × Nat × Nat) := do
  let (streamId, offset, length) ← takeStreamHdr type
  if streamBoundsOk offset length then pure (streamId, offset, length) else Decoder.fail

def frameGetStream (buf : List UInt8) : Option (StreamFrame × Nat) :=
  (behindType (takeStreamHdrBounded (typeByte buf)) buf).bind fun ((streamId, offset, length), off) =>
    (frameViewEnd buf.length off length).map fun e =>
      ({ streamId := streamId, offset := offset, length := length, data := off
         fin := typeByte buf &&& streamFin ≠ 0 }, e)

/-! ## CONNECTION_CLOSE -/

def frameConnCloseApp : UInt8 := 0x1d

structure ConnCloseFrame where
  isApp : Bool
  errorCode : Nat
  frameType : Nat
  reasonLen : Nat
  reason : Nat

def takeCcHdr (isApp : Bool) : Decoder UInt8 (Nat × Nat × Nat) := do
  let errorCode ← varintTake
  let frameType ← if isApp then pure 0 else varintTake
  let reasonLen ← varintTake
  pure (errorCode, frameType, reasonLen)

def frameGetConnClose (buf : List UInt8) : Option (ConnCloseFrame × Nat) :=
  let isApp := decide (typeByte buf = frameConnCloseApp)
  (behindType (takeCcHdr isApp) buf).bind fun ((errorCode, frameType, reasonLen), off) =>
    (frameViewEnd buf.length off reasonLen).map fun e =>
      ({ isApp := isApp, errorCode := errorCode, frameType := frameType, reasonLen := reasonLen
         reason := off }, e)

/-! ## Frames of integers

MAX_DATA and DATA_BLOCKED, MAX_STREAM_DATA and STREAM_DATA_BLOCKED, MAX_STREAMS and STREAMS_BLOCKED
share their decoders. -/

def getOneVarintFrame (buf : List UInt8) : Option (Nat × Nat) := behindType varintTake buf

/-- A MAX_STREAM_DATA or STREAM_DATA_BLOCKED frame. -/
structure StreamDataFrame where
  streamId : Nat
  value : Nat

def getTwoVarintFrame (buf : List UInt8) : Option (StreamDataFrame × Nat) :=
  behindType (do
    let streamId ← varintTake
    let value ← varintTake
    pure { streamId := streamId, value := value }) buf

def maxDataDecode (buf : List UInt8) : Option (Nat × Nat) := getOneVarintFrame buf

def dataBlockedDecode (buf : List UInt8) : Option (Nat × Nat) := getOneVarintFrame buf

def maxStreamDataDecode (buf : List UInt8) : Option (StreamDataFrame × Nat) := getTwoVarintFrame buf

def streamDataBlockedDecode (buf : List UInt8) : Option (StreamDataFrame × Nat) :=
  getTwoVarintFrame buf

structure StreamsFrame where
  uni : Bool
  maxStreams : Nat

def getStreamsFrame (buf : List UInt8) : Option (StreamsFrame × Nat) :=
  (getOneVarintFrame buf).map fun r => ({ uni := typeByte buf &&& 1 ≠ 0, maxStreams := r.1 }, r.2)

def maxStreamsDecode (buf : List UInt8) : Option (StreamsFrame × Nat) := getStreamsFrame buf

def streamsBlockedDecode (buf : List UInt8) : Option (StreamsFrame × Nat) := getStreamsFrame buf

def retireCidDecode (buf : List UInt8) : Option (Nat × Nat) := behindType varintTake buf

structure ResetStreamFrame where
  streamId : Nat
  errorCode : Nat
  finalSize : Nat

def resetStreamDecode (buf : List UInt8) : Option (ResetStreamFrame × Nat) :=
  behindType (do
    let streamId ← varintTake
    let errorCode ← varintTake
    let finalSize ← varintTake
    pure { streamId := streamId, errorCode := errorCode, finalSize := finalSize }) buf

structure StopSendingFrame where
  streamId : Nat
  errorCode : Nat

def stopSendingDecode (buf : List UInt8) : Option (StopSendingFrame × Nat) :=
  behindType (do
    let streamId ← varintTake
    let errorCode ← varintTake
    pure { streamId := streamId, errorCode := errorCode }) buf

structure ResetStreamAtFrame where
  streamId : Nat
  errorCode : Nat
  finalSize : Nat
  reliableSize : Nat

def resetStreamAtDecode (buf : List UInt8) : Option (ResetStreamAtFrame × Nat) :=
  behindType (do
    let streamId ← varintTake
    let errorCode ← varintTake
    let finalSize ← varintTake
    let reliableSize ← varintTake
    if reliableSize ≤ finalSize then
      pure { streamId := streamId, errorCode := errorCode, finalSize := finalSize
             reliableSize := reliableSize }
    else Decoder.fail) buf

/-! ## Frames with bytes -/

def bytesTake (k : Nat) : Decoder UInt8 (List UInt8) := fun rest =>
  if rest.length < k then none else some (rest.take k, k)

structure NewTokenFrame where
  length : Nat
  token : Nat

def newTokenDecode (buf : List UInt8) : Option (NewTokenFrame × Nat) :=
  (behindType varintTake buf).bind fun r =>
    (frameViewEnd buf.length r.2 r.1).map fun e => ({ length := r.1, token := r.2 }, e)

def ncidMaxLen : Nat := 20

def ncidToken : Nat := 16

structure NcidFrame where
  seq : Nat
  retirePriorTo : Nat
  cid : List UInt8
  token : List UInt8

def takeCidLen : Decoder UInt8 Nat := fun rest =>
  match rest with
  | [] => none
  | b :: _ => if (b - 1).toNat < ncidMaxLen then some (b.toNat, 1) else none

def ncidDecode (buf : List UInt8) : Option (NcidFrame × Nat) :=
  behindType (do
    let seq ← varintTake
    let retirePriorTo ← varintTake
    let cidLen ← takeCidLen
    let cid ← bytesTake cidLen
    let token ← bytesTake ncidToken
    pure { seq := seq, retirePriorTo := retirePriorTo, cid := cid, token := token }) buf

def pathData : Nat := 8

/-- Alone among the decoders, this one looks whether the type is the expected one. -/
def pathDecode (type : UInt8) (buf : List UInt8) : Option (List UInt8 × Nat) :=
  if buf.head? ≠ some type then none else behindType (bytesTake pathData) buf

def frameDatagram : UInt8 := 0x30

structure DatagramFrame where
  length : Nat
  data : Nat

def decodeNoLen (buf : List UInt8) : DatagramFrame × Nat :=
  ({ length := buf.length - 1, data := 1 }, buf.length)

def decodeWithLen (buf : List UInt8) : Option (DatagramFrame × Nat) :=
  (behindType varintTake buf).bind fun r =>
    (frameViewEnd buf.length r.2 r.1).map fun e => ({ length := r.1, data := r.2 }, e)

def datagramDecode (buf : List UInt8) : Option (DatagramFrame × Nat) :=
  if buf = [] then none
  else if typeByte buf = frameDatagram then some (decodeNoLen buf)
  else decodeWithLen buf

end Wired.Frame
