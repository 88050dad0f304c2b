import Wired.Transport.Varint

/-!
# The packets of a datagram

`coalesce.c` cuts a datagram into its packets: a long header has a Length that bounds the packet,
a short one takes the rest. `lhdr_parse.c`, with `header.c`, parses the long header of one packet
by a walk of its own. Positions count from the first byte of the packet here.

`splitDatagram_spec` is the result: the packets follow each other from the first byte of the
datagram on, and where the parser accepts one its Length ends where the packet does.
-/

namespace Wired.Transport

open Lib List Option

/-! ## Packet types -/

/-- The types of long headers, in both versions. -/
inductive LogicalType where
  | initial
  | zeroRtt
  | handshake
  | retry
deriving DecidableEq, Repr

def version1 : Nat := 0x00000001
def version2 : Nat := 0x6b3343cf

def v1LogicalType : Nat → Option LogicalType
  | 0 => some .initial
  | 1 => some .zeroRtt
  | 2 => some .handshake
  | 3 => some .retry
  | _ => none

/-- The inverse of `V2_WIRE`. -/
def v2LogicalType : Nat → Option LogicalType
  | 1 => some .initial
  | 2 => some .zeroRtt
  | 3 => some .handshake
  | 0 => some .retry
  | _ => none

def packetIsLong (byte0 : UInt8) : Bool := byte0 &&& 0x80 ≠ 0

def wireBits (byte0 : UInt8) : Nat := byte0.toNat / 16 % 4

def logicalFor (wire version : Nat) : Option LogicalType :=
  if version = version1 then v1LogicalType wire
  else if version = version2 then v2LogicalType wire
  else none

def packetLongType (byte0 : UInt8) (version : Nat) : Option LogicalType :=
  if packetIsLong byte0 then logicalFor (wireBits byte0) version else none

def beGetBe32 (p : List UInt8) : Nat :=
  (p.take 4).foldl (fun v x => v * 2 ^ 8 + x.toNat) 0

/-- The type that byte 0 and the Version field of a packet give. -/
def packetType (pkt : List UInt8) : Option LogicalType :=
  packetLongType (pkt.headD 0) (beGetBe32 (pkt.drop 1))

/-! ## Cutting a datagram -/

def skipCid : Decoder UInt8 (List UInt8) := fun b =>
  b.head?.bind fun len =>
    if b.length < 1 + len.toNat then none else some ((b.take (1 + len.toNat)).drop 1, 1 + len.toNat)

def hasToken (pkt : List UInt8) : Bool := packetType pkt = some .initial

def skipToken : Decoder UInt8 (List UInt8) := do
  let tlen ← varintTake
  takeBytes tlen id

/-- Byte 0 with the Version, and both connection IDs. -/
def skipLongPrefix : Decoder UInt8 (List UInt8) := do
  let _ ← takeBytes 5 id
  let _ ← skipCid
  skipCid

def skipOptionalToken (token : Bool) : Decoder UInt8 (List UInt8) :=
  if token then skipToken else pure []

/-- `skip_to_length` and the Length behind it. -/
def takeLength (token : Bool) : Decoder UInt8 Nat := do
  let _ ← skipLongPrefix
  let _ ← skipOptionalToken token
  varintTake

/-- Zero if the packet is malformed or does not end in the datagram. -/
def longPacketLen (rest : List UInt8) : Nat :=
  if rest.length < 5 then 0
  else
    match takeLength (hasToken rest) rest with
    | none => 0
    | some (length, p) => if p + length > rest.length then 0 else p + length

structure CoalesceIter where
  dgram : List UInt8
  off : Nat

/-- Where a packet lies. -/
structure Coalesced where
  data : Nat
  len : Nat

def coalesceBegin (dgram : List UInt8) : CoalesceIter := ⟨dgram, 0⟩

def coalesceEmit (it : CoalesceIter) (len : Nat) : Option (Coalesced × CoalesceIter) :=
  if len = 0 then none else some (⟨it.off, len⟩, { it with off := it.off + len })

def coalesceNext (it : CoalesceIter) : Option (Coalesced × CoalesceIter) :=
  if it.off ≥ it.dgram.length then none
  else if packetIsLong ((it.dgram.drop it.off).headD 0) then
    coalesceEmit it (longPacketLen (it.dgram.drop it.off))
  else coalesceEmit it (it.dgram.length - it.off)

/-- The packets of so many calls, and the iterator behind the last one that yielded a packet. -/
def coalesceAll : Nat → CoalesceIter → List Coalesced × CoalesceIter
  | 0, it => ([], it)
  | calls + 1, it =>
    match coalesceNext it with
    | none => ([], it)
    | some (pkt, it) => (pkt :: (coalesceAll calls it).1, (coalesceAll calls it).2)

/-- Each call that yields a packet takes at least one byte. -/
def splitDatagram (dgram : List UInt8) : List Coalesced × CoalesceIter :=
  coalesceAll dgram.length (coalesceBegin dgram)

/-! ## Parsing a header -/

def maxCidLen : Nat := 20

structure WiredHeader where
  isLong : Bool
  longType : Nat
  version : Nat
  dcid : List UInt8
  scid : List UInt8

def cidFits (len off n : Nat) : Bool := len ≤ maxCidLen && off + 1 + len ≤ n

def readCid : Decoder UInt8 (List UInt8) := fun b =>
  b.head?.bind fun len =>
    if cidFits len.toNat 0 b.length then some ((b.drop 1).take len.toNat, 1 + len.toNat) else none

def readCids : Decoder UInt8 (List UInt8 × List UInt8) := do
  let dcid ← readCid
  let scid ← readCid
  pure (dcid, scid)

def headerParseLong : Decoder UInt8 WiredHeader := do
  let first ← takeBytes 5 id
  let cids ← readCids
  pure ⟨true, wireBits (first.headD 0), beGetBe32 (first.drop 1), cids.1, cids.2⟩

/-- A short header has a connection ID of the length that the caller knows. -/
def headerParseShort (dcidLen : UInt8) : Decoder UInt8 WiredHeader := fun buf =>
  if cidFits dcidLen.toNat 0 buf.length then
    some (⟨false, 0, 0, (buf.drop 1).take dcidLen.toNat, []⟩, 1 + dcidLen.toNat)
  else none

def wiredHeaderParse (dcidLen : UInt8) : Decoder UInt8 WiredHeader := fun buf =>
  buf.head?.bind fun byte0 =>
    if packetIsLong byte0 then headerParseLong buf else headerParseShort dcidLen buf

/-- `lhdr`; the views are the bytes they show. -/
structure Lhdr where
  dcid : List UInt8
  scid : List UInt8
  token : List UInt8
  length : Nat
  pnOff : Nat

def isLongHeader (pkt : List UInt8) : Bool := pkt.head?.any packetIsLong

def inittokenGet : Decoder UInt8 (List UInt8) := do
  let tlen ← varintTake
  takeBytes tlen id

def readToken (isInitial : Bool) : Decoder UInt8 (List UInt8) :=
  if isInitial then inittokenGet else pure []

def lhdrTakePrefix : Decoder UInt8 WiredHeader := fun pkt =>
  if isLongHeader pkt then wiredHeaderParse 0 pkt else none

def lhdrFields (isInitial : Bool) : Decoder UInt8 (WiredHeader × List UInt8 × Nat) := do
  let h ← lhdrTakePrefix
  let token ← readToken isInitial
  let length ← varintTake
  pure (h, token, length)

def lhdrParse (pkt : List UInt8) (isInitial : Bool) : Option Lhdr :=
  (lhdrFields isInitial pkt).map fun ((h, token, length), off) =>
    ⟨h.dcid, h.scid, token, length, off⟩

/-! ## The two walks -/

theorem skipCid_stable : Stable skipCid :=
  Stable.ofLength (fun x : UInt8 => Nat.add_pos_left Nat.one_pos x.toNat) fun _ b => b.drop 1

theorem takeLength_stable (token : Bool) : Stable (takeLength token) := by
  have hfirst : Stable (takeBytes 5 id : Decoder UInt8 (List UInt8)) := by
    refine ⟨takeBytes_readsHead 5 id, fun h => ?_⟩
    obtain ⟨-, -, rfl⟩ := takeBytes_eq_some h
    decide
  have hcids : Stable (skipCid >>= fun _ => skipCid) :=
    skipCid_stable.then_ fun _ => skipCid_stable.toReadsHead
  have hprefix : Stable skipLongPrefix := hfirst.then_ fun _ => hcids.toReadsHead
  refine hprefix.then_ fun _ => ?_
  cases token with
  | false =>
    show ReadsHead (pure [] >>= fun _ : List UInt8 => varintTake)
    rw [Decoder.pure_bind]
    exact varintDecode_stable.toReadsHead
  | true =>
    have htoken : Stable (skipOptionalToken true) :=
      varintDecode_stable.then_ fun tlen => takeBytes_readsHead tlen id
    exact (htoken.then_ fun _ => varintDecode_stable.toReadsHead).toReadsHead

variable {b rest : List UInt8}

theorem takeLength_five_le {token : Bool} {length p : Nat}
    (h : takeLength token b = some (length, p)) : 5 ≤ p := by
  obtain ⟨_, n, m, hskip, -, rfl⟩ := Decoder.bind_eq_some.mp h
  obtain ⟨_, k, l, hfirst, -, rfl⟩ := Decoder.bind_eq_some.mp hskip
  obtain ⟨-, -, rfl⟩ := takeBytes_eq_some hfirst
  omega

/-- The parser takes connection IDs that the iterator skips, and no others. -/
theorem readCid_within : readCid.Within id skipCid := by
  intro b v n h
  obtain ⟨len, hhead, h⟩ := bind_eq_some_iff.mp h
  split at h
  · rename_i hfits
    cases h
    obtain ⟨-, hroom⟩ := (Bool.and_eq_true _ _ ▸ hfits : _ ∧ _)
    have hle : 0 + 1 + len.toNat ≤ b.length := of_decide_eq_true hroom
    rw [skipCid, hhead, bind_some, if_neg (by omega), drop_take, Nat.add_sub_cancel_left]
    rfl
  · cases h

theorem lhdrTakePrefix_within : lhdrTakePrefix.Within WiredHeader.scid skipLongPrefix := by
  have hcids : readCids.Within Prod.snd (skipCid >>= fun _ => skipCid) :=
    readCid_within.bind fun _ => readCid_within.bind_pure fun _ => rfl
  have hlong : headerParseLong.Within WiredHeader.scid skipLongPrefix :=
    (Decoder.Within.refl _).bind fun _ => hcids.bind_pure fun _ => rfl
  intro b h n hparse
  apply hlong
  unfold lhdrTakePrefix at hparse
  split at hparse
  · rename_i hform
    obtain ⟨byte0, hhead, hparse⟩ := bind_eq_some_iff.mp hparse
    rw [isLongHeader, hhead, Option.any_some] at hform
    rwa [if_pos hform] at hparse
  · cases hparse

theorem lhdrFields_within (isInitial : Bool) :
    (lhdrFields isInitial).Within (fun r => r.2.2) (takeLength isInitial) :=
  lhdrTakePrefix_within.bind fun _ =>
    (Decoder.Within.refl (readToken isInitial)).bind fun _ =>
      (Decoder.Within.refl varintTake).bind_pure fun _ => rfl

/-- Byte 0 and the Version are in every packet of five bytes. -/
theorem packetType_take {n : Nat} (hn : 5 ≤ n) : packetType (b.take n) = packetType b := by
  have hhead : (b.take n).headD 0 = b.headD 0 := by
    cases b with
    | nil => rw [take_nil]
    | cons x b => rw [take_cons (by omega), headD_cons, headD_cons]
  rw [packetType, packetType, hhead, beGetBe32, beGetBe32, drop_take, take_take,
    min_eq_left (by omega)]

/-- What bounds a packet with a long header. -/
theorem longPacketLen_spec (hlen : longPacketLen rest ≠ 0) :
    longPacketLen rest ≤ rest.length ∧ ∃ length p, takeLength (hasToken rest) rest =
      some (length, p) ∧ longPacketLen rest = p + length := by
  unfold longPacketLen at hlen ⊢
  split at hlen
  · exact absurd rfl hlen
  · rename_i hroom
    rw [if_neg hroom]
    split at hlen
    · exact absurd rfl hlen
    · rename_i length p htake
      rw [htake]
      split at hlen
      · exact absurd rfl hlen
      · rename_i hfits
        rw [if_neg hfits]
        exact ⟨Nat.not_lt.mp hfits, length, p, rfl, rfl⟩

/-- The parser, told the type of the packet, gives a Length that ends with the packet. -/
def ParsesTo (pkt : List UInt8) : Prop :=
  ∀ out, lhdrParse pkt (packetType pkt = some .initial) = some out →
    out.pnOff + out.length = pkt.length

theorem parsesTo_longPacketLen (hlen : longPacketLen rest ≠ 0) :
    ParsesTo (rest.take (longPacketLen rest)) := by
  intro out hparse
  obtain ⟨hle, length, p, htake, heq⟩ := longPacketLen_spec hlen
  have hfive := takeLength_five_le htake
  obtain ⟨⟨⟨h, token, length'⟩, off⟩, hfields, rfl⟩ := map_eq_some_iff.mp hparse
  rw [packetType_take (by omega)] at hfields
  -- what the parser reads in the packet, the iterator reads in the datagram
  have hsame := Stable.of_prefix (takeLength_stable _) (lhdrFields_within _ hfields)
    (List.take_prefix _ rest)
  rw [← hasToken, htake] at hsame
  cases hsame
  rw [length_take_of_le hle, heq]

/-! ## Whole datagrams -/

/-- The packets follow each other from `o` to `e`. -/
def Consecutive : Nat → List Coalesced → Nat → Prop
  | o, [], e => o = e
  | o, pkt :: pkts, e => pkt.data = o ∧ 0 < pkt.len ∧ Consecutive (o + pkt.len) pkts e

def Coalesced.bytes (pkt : Coalesced) (dgram : List UInt8) : List UInt8 :=
  (dgram.drop pkt.data).take pkt.len

theorem coalesceNext_spec {it it' : CoalesceIter} {pkt : Coalesced}
    (h : coalesceNext it = some (pkt, it')) :
    pkt.data = it.off ∧ 0 < pkt.len ∧ it' = { it with off := it.off + pkt.len } ∧
      pkt.data + pkt.len ≤ it.dgram.length ∧
      (packetIsLong ((pkt.bytes it.dgram).headD 0) = true → ParsesTo (pkt.bytes it.dgram)) := by
  have hemit : ∀ {len}, coalesceEmit it len = some (pkt, it') →
      len ≠ 0 ∧ pkt = ⟨it.off, len⟩ ∧ it' = { it with off := it.off + len } := by
    intro len h
    unfold coalesceEmit at h
    split at h
    · cases h
    rename_i hne
    cases h
    exact ⟨hne, rfl, rfl⟩
  unfold coalesceNext at h
  split at h
  · cases h
  split at h
  · obtain ⟨hne, rfl, rfl⟩ := hemit h
    have hle := (longPacketLen_spec hne).1
    rw [length_drop] at hle
    exact ⟨rfl, Nat.pos_of_ne_zero hne, rfl, by dsimp only; omega,
      fun _ => parsesTo_longPacketLen hne⟩
  · rename_i hshort
    obtain ⟨hne, rfl, rfl⟩ := hemit h
    refine ⟨rfl, Nat.pos_of_ne_zero hne, rfl, by dsimp only; omega, fun hlong => ?_⟩
    rw [Coalesced.bytes, take_of_length_le (by rw [length_drop])] at hlong
    exact absurd hlong hshort

/-- As many calls as the datagram has bytes left are enough to come to the end. -/
theorem coalesceAll_run (it : CoalesceIter) (calls : Nat)
    (hcalls : it.dgram.length ≤ it.off + calls) (hin : it.off ≤ it.dgram.length) :
    coalesceNext (coalesceAll calls it).2 = none ∧
      (coalesceAll calls it).2.off ≤ it.dgram.length ∧
      Consecutive it.off (coalesceAll calls it).1 (coalesceAll calls it).2.off ∧
      ∀ pkt ∈ (coalesceAll calls it).1, pkt.data + pkt.len ≤ it.dgram.length ∧
        (packetIsLong ((pkt.bytes it.dgram).headD 0) = true → ParsesTo (pkt.bytes it.dgram)) := by
  induction calls generalizing it with
  | zero => exact ⟨if_pos hcalls, hin, rfl, forall_mem_nil _⟩
  | succ calls ih =>
    unfold coalesceAll
    cases hnext : coalesceNext it with
    | none => exact ⟨hnext, hin, rfl, forall_mem_nil _⟩
    | some r =>
      obtain ⟨pkt, it'⟩ := r
      obtain ⟨hdata, hpos, rfl, hend, hparses⟩ := coalesceNext_spec hnext
      obtain ⟨hlast, hoff, hchain, hall⟩ :=
        ih { it with off := it.off + pkt.len } (by dsimp only; omega) (by dsimp only; omega)
      exact ⟨hlast, hoff, ⟨hdata, hpos, hchain⟩, forall_mem_cons.mpr ⟨⟨hend, hparses⟩, hall⟩⟩

/-- The iteration over a datagram comes to an end, its packets are not empty, follow each other from
the first byte on and lie in the datagram, and where the parser accepts one with a long header its
Length ends where the packet ends. -/
theorem splitDatagram_spec (dgram : List UInt8) :
    coalesceNext (splitDatagram dgram).2 = none ∧ (splitDatagram dgram).2.off ≤ dgram.length ∧
      Consecutive 0 (splitDatagram dgram).1 (splitDatagram dgram).2.off ∧
      ∀ pkt ∈ (splitDatagram dgram).1, pkt.data + pkt.len ≤ dgram.length ∧
        (packetIsLong ((pkt.bytes dgram).headD 0) = true →
          ∀ out, lhdrParse (pkt.bytes dgram) (packetType (pkt.bytes dgram) = some .initial) =
            some out → out.pnOff + out.length = pkt.len) := by
  obtain ⟨hlast, hoff, hchain, hall⟩ := coalesceAll_run (coalesceBegin dgram)
    dgram.length (Nat.le_add_left _ _) zero_le
  refine ⟨hlast, hoff, hchain, fun pkt hpkt => ?_⟩
  obtain ⟨hend, hparses⟩ := hall pkt hpkt
  refine ⟨hend, fun hlong out hout => ?_⟩
  have hlen : (pkt.bytes dgram).length = pkt.len := by
    rw [Coalesced.bytes, length_take, length_drop]
    exact min_eq_left (Nat.le_sub_of_add_le' hend)
  rw [← hlen]
  exact hparses hlong out hout

end Wired.Transport
