import Wired.Frame.Codec

/-!
# Splitting a payload into frames

`framewalk.c`, with the frame kinds of `dispatch.c`, and the checks of `srvloop_validate.c`. The
walker reads the type of a frame as a variable-length integer and gets its length from the decoder
of its kind. The decoders take the type to be one byte.

* `agrees_iff`: walker and decoders agree exactly on payloads with types of one byte.
* `overlong_type_misread`: with a longer type, its rest is read as the first field.
-/

namespace Wired.Frame

open Lib Transport List Option

/-! ## Kinds of frames -/

inductive FrameKind where
  | unknown | padding | ping | ack | resetStream | stopSending | crypto | newToken | stream
  | maxData | maxStreamData | maxStreams | dataBlocked | streamDataBlocked | streamsBlocked
  | newConnectionId | retireConnectionId | pathChallenge | pathResponse | connectionClose
  | handshakeDone | datagram | resetStreamAt
deriving DecidableEq, Repr

def kindTable : List (Nat × FrameKind) :=
  [(0x00, .padding), (0x01, .ping), (0x02, .ack), (0x03, .ack), (0x04, .resetStream),
    (0x05, .stopSending), (0x06, .crypto), (0x07, .newToken), (0x08, .stream), (0x09, .stream),
    (0x0a, .stream), (0x0b, .stream), (0x0c, .stream), (0x0d, .stream), (0x0e, .stream),
    (0x0f, .stream), (0x10, .maxData), (0x11, .maxStreamData), (0x12, .maxStreams),
    (0x13, .maxStreams), (0x14, .dataBlocked), (0x15, .streamDataBlocked), (0x16, .streamsBlocked),
    (0x17, .streamsBlocked), (0x18, .newConnectionId), (0x19, .retireConnectionId),
    (0x1a, .pathChallenge), (0x1b, .pathResponse), (0x1c, .connectionClose),
    (0x1d, .connectionClose), (0x1e, .handshakeDone), (0x30, .datagram), (0x31, .datagram),
    (0x24, .resetStreamAt)]

def frameClassify (type : Nat) : FrameKind :=
  ((kindTable.find? fun row => row.1 = type).map Prod.snd).getD .unknown

/-! ## The walker -/

def decodedLen (kind : FrameKind) (buf : List UInt8) : Option Nat :=
  match kind with
  | .ack => (ackDecode buf).map Prod.snd
  | .crypto => (frameGetCrypto buf).map Prod.snd
  | .stream => (frameGetStream buf).map Prod.snd
  | .connectionClose => (frameGetConnClose buf).map Prod.snd
  | .datagram => (datagramDecode buf).map Prod.snd
  | .resetStream => (resetStreamDecode buf).map Prod.snd
  | .stopSending => (stopSendingDecode buf).map Prod.snd
  | .resetStreamAt => (resetStreamAtDecode buf).map Prod.snd
  | .maxData => (maxDataDecode buf).map Prod.snd
  | .dataBlocked => (dataBlockedDecode buf).map Prod.snd
  | .maxStreamData => (maxStreamDataDecode buf).map Prod.snd
  | .streamDataBlocked => (streamDataBlockedDecode buf).map Prod.snd
  | .maxStreams => (maxStreamsDecode buf).map Prod.snd
  | .streamsBlocked => (streamsBlockedDecode buf).map Prod.snd
  | .newToken => (newTokenDecode buf).map Prod.snd
  | .newConnectionId => (ncidDecode buf).map Prod.snd
  | .retireConnectionId => (retireCidDecode buf).map Prod.snd
  | .pathChallenge => (pathDecode 0x1a buf).map Prod.snd
  | .pathResponse => (pathDecode 0x1b buf).map Prod.snd
  | .unknown | .padding | .ping | .handshakeDone => none

def singleByte (kind : FrameKind) : Bool :=
  kind = .padding || kind = .ping || kind = .handshakeDone

def frameLen (type : Nat) (buf : List UInt8) : Option Nat :=
  if singleByte (frameClassify type) then some 1 else decodedLen (frameClassify type) buf

def measureFrame (cur : List UInt8) : Option (Nat × Nat) :=
  (varintDecode cur).bind fun t =>
    ((frameLen t.1 cur).filter fun len => 0 < len && len ≤ cur.length).map fun len => (t.1, len)

/-- A frame of a payload: its type, and the bytes from its start on. -/
structure FramewalkItem where
  type : Nat
  start : List UInt8
deriving DecidableEq, Repr

def framewalkNext (cur : List UInt8) : Option (FramewalkItem × Nat) :=
  (measureFrame cur).map fun m => ({ type := m.1, start := cur }, m.2)

/-- The frames of a payload, and how much of it they take. -/
def framewalk (pl : List UInt8) : List FramewalkItem × Nat := decodeAll framewalkNext pl

/-! ## The checks -/

/-- The packets, as far as the frames that are allowed in them differ. -/
inductive PacketType where
  | initial | handshake | zeroRtt | oneRtt
deriving DecidableEq, Repr

inductive FrameError where
  | protocolViolation | frameEncodingError | streamStateError
deriving DecidableEq, Repr

/-- `allowed`: the packet types in which a frame may be. -/
def allowedIn : FrameKind → List PacketType
  | .unknown => []
  | .padding | .ping | .connectionClose => [.initial, .handshake, .zeroRtt, .oneRtt]
  | .ack | .crypto => [.initial, .handshake, .oneRtt]
  | .newToken | .pathResponse | .handshakeDone => [.oneRtt]
  | _ => [.zeroRtt, .oneRtt]

def framePermitted (kind : FrameKind) (pkt : PacketType) : Bool := (allowedIn kind).contains pkt

def frameServerRecvForbidden (kind : FrameKind) : Bool := kind = .newToken || kind = .handshakeDone

/-- What the checks read: the next packet number, and how many streams the server has opened. -/
structure SrvloopView where
  txPn : Nat
  openedBidi : Nat
  openedUni : Nat

def srvloopFrameForbidden (kind : FrameKind) (pkt : PacketType) : Bool :=
  !framePermitted kind pkt || frameServerRecvForbidden kind

def srvloopCountTooBig (fr : FramewalkItem) (kind : FrameKind) : Bool :=
  (kind = .maxStreams || kind = .streamsBlocked) &&
    (maxStreamsDecode fr.start).any fun r => r.1.maxStreams > 2 ^ 60

def streamIsClientInitiated (id : Nat) : Bool := id % 2 = 0

def streamIsUni (id : Nat) : Bool := id / 2 % 2 = 1

def streamCanSend (amClient : Bool) (id : Nat) : Bool :=
  !streamIsUni id || amClient == streamIsClientInitiated id

def streamCanReceive (amClient : Bool) (id : Nat) : Bool :=
  !streamIsUni id || amClient != streamIsClientInitiated id

/-- For a server: the client may send, or receive, on the stream, and one of the server's is open.
-/
def streamstateOk (id : Nat) (needsSend : Bool) (opened : Nat) : Bool :=
  (if needsSend then streamCanSend true id else streamCanReceive true id) &&
    (streamIsClientInitiated id || id / 4 < opened)

/-- `SRVLOOP_STREAM_DIR`: whether the client is to send on the stream that the frame names. -/
def streamDir : FrameKind → Option Bool
  | .stream | .resetStream | .streamDataBlocked | .resetStreamAt => some true
  | .stopSending | .maxStreamData => some false
  | _ => none

/-- Where no id follows the type, the variable for it still has the type. -/
def srvloopFrameStreamBad (l : SrvloopView) (fr : FramewalkItem) (kind : FrameKind) : Bool :=
  match streamDir kind with
  | none => false
  | some needsSend =>
    let type := (varintDecode fr.start).getD (0, 0)
    let id := ((varintDecode (fr.start.drop type.2)).map Prod.fst).getD type.1
    !streamstateOk id needsSend (if streamIsUni id then l.openedUni else l.openedBidi)

def srvloopFrameValueError (l : SrvloopView) (fr : FramewalkItem) (kind : FrameKind) :
    Option FrameError :=
  if srvloopCountTooBig fr kind then some .frameEncodingError
  else if srvloopFrameStreamBad l fr kind then some .streamStateError
  else none

def srvloopAckPastSent (l : SrvloopView) (fr : FramewalkItem) : Bool :=
  (ackDecode fr.start).any fun r => (r.1.ranges.head?).any fun r0 => r0.hi ≥ l.txPn

def srvloopFrameError (l : SrvloopView) (pkt : PacketType) (fr : FramewalkItem) :
    Option FrameError :=
  let kind := frameClassify fr.type
  if srvloopFrameForbidden kind pkt || (kind = .ack && pkt = .oneRtt && srvloopAckPastSent l fr) then
    some .protocolViolation
  else srvloopFrameValueError l fr kind

/-- The first error of a frame, or that bytes were left over. -/
def srvloopFramesError (l : SrvloopView) (pkt : PacketType) (pl : List UInt8) : Option FrameError :=
  ((framewalk pl).1.findSome? (srvloopFrameError l pkt)).or
    (if (framewalk pl).2 < pl.length then some .frameEncodingError else none)

/-! ## Where the fields of a frame are -/

def CryptoFrame.At (buf : List UInt8) (f : CryptoFrame) (n : Nat) : Prop :=
  Spelled varintDecode (buf.take f.data) [frameCrypto, f.offset, f.length] ∧
    n = f.data + f.length ∧ n ≤ buf.length

/-- The integers of a STREAM frame; the offset and the length are optional. -/
def streamValues (flags : UInt8) (streamId offset length : Nat) : List Nat :=
  streamId :: ((if flags &&& streamOff = 0 then [] else [offset]) ++
    if flags &&& streamLen = 0 then [] else [length])

/-- The bytes are those of the STREAM frame. -/
def StreamFrame.At (buf : List UInt8) (type : Nat) (f : StreamFrame) (n : Nat) : Prop :=
  Spelled varintDecode (buf.take f.data)
      (type :: streamValues (UInt8.ofNat type) f.streamId f.offset f.length) ∧
    (UInt8.ofNat type &&& streamOff = 0 → f.offset = 0) ∧
    (UInt8.ofNat type &&& streamLen = 0 → f.data + f.length = buf.length) ∧
    f.fin = decide (UInt8.ofNat type &&& streamFin ≠ 0) ∧ n = f.data + f.length ∧ n ≤ buf.length

def AckFrame.At (buf : List UInt8) (type : Nat) (f : AckFrame) (n : Nat) : Prop :=
  ∃ a : AckBody, Spelled varintDecode (buf.take n) (type :: a.values) ∧ Descending a.ranges ∧
    a.ecn.isSome = decide (type = frameAckEcn) ∧ f = a.stored ∧ n ≤ buf.length

/-- The decoder takes the length that the walker has measured, and reads the frame there. -/
def DecodesTruly (fr : FramewalkItem) : Prop :=
  match frameClassify fr.type with
  | .ack => ∃ f n, ackDecode fr.start = some (f, n) ∧ measureFrame fr.start = some (fr.type, n) ∧
      f.At fr.start fr.type n
  | .crypto => ∃ f n, frameGetCrypto fr.start = some (f, n) ∧
      measureFrame fr.start = some (fr.type, n) ∧ f.At fr.start n
  | .stream => ∃ f n, frameGetStream fr.start = some (f, n) ∧
      measureFrame fr.start = some (fr.type, n) ∧ f.At fr.start fr.type n
  | _ => True

/-- The frames stand behind one another, none is empty, and nothing is left. -/
inductive Consecutive : List FramewalkItem → List UInt8 → Prop
  | nil : Consecutive [] []
  | cons {fr : FramewalkItem} {items : List FramewalkItem} {len : Nat}
      (measured : measureFrame fr.start = some (fr.type, len)) (pos : 0 < len)
      (le : len ≤ fr.start.length) (rest : Consecutive items (fr.start.drop len)) :
      Consecutive (fr :: items) fr.start

/-- The kinds that have a decoder behind the walker. -/
def hasDecoder (type : Nat) : Bool :=
  frameClassify type = .ack || frameClassify type = .crypto || frameClassify type = .stream

/-- The type of the frame takes one byte. -/
def OneByteType (fr : FramewalkItem) : Prop := varintDecode fr.start = some (fr.type, 1)
deriving Decidable

/-! ## Types that are longer than they need to be -/

variable {bs e buf b : List UInt8} {type t n len length m : Nat}

theorem foldl_small {acc : Nat} (h : bs.foldl (fun v x => v * 2 ^ 8 + x.toNat) acc < 64) :
    (bs ≠ [] → acc = 0) ∧ ∀ x ∈ bs, x.toNat < 64 := by
  induction bs generalizing acc with
  | nil => exact ⟨fun hne => absurd rfl hne, by nofun⟩
  | cons b bs ih =>
    obtain ⟨hacc, hall⟩ := ih h
    have hzero : acc = 0 ∧ b.toNat < 64 := by
      by_cases hbs : bs = []
      · rw [hbs] at h
        simp only [foldl_cons, foldl_nil] at h
        omega
      · have hnext : acc * 2 ^ 8 + b.toNat = 0 := hacc hbs
        omega
    exact ⟨fun _ => hzero.1, forall_mem_cons.mpr ⟨hzero.2, hall⟩⟩

theorem spelled_small (h : ∀ x ∈ bs, x.toNat < 64) :
    Spelled varintDecode bs (bs.map UInt8.toNat) := by
  induction bs with
  | nil => exact .nil
  | cons b bs ih =>
    have hb := h b mem_cons_self
    have hneed : varintNeed b = 1 := by rw [varintNeed, Nat.div_eq_of_lt hb, pow_zero]
    have hcode : Codes varintDecode [b] b.toNat := by
      intro rest
      simp [varintDecode, hneed, getBe, Nat.mod_eq_of_lt hb]
    exact .cons hcode (ih fun x hx => h x (mem_cons_of_mem _ hx))

/-- The encodings of a type: the first byte has bits of it only if it is the only one, and the
others look like integers of one byte. -/
theorem type_code (h : Codes varintDecode e type) (htype : type < 64) :
    ∃ b bs, e = b :: bs ∧ Spelled varintDecode bs (bs.map UInt8.toNat) ∧
      (bs = [] → b.toNat = type) ∧ (bs ≠ [] → b = 0x40 ∨ b = 0x80 ∨ b = 0xC0) ∧
      (bs ≠ [] → bs.length % 2 = 1) := by
  obtain ⟨b, hhead, hb⟩ := bind_eq_some_iff.mp (h [])
  rw [append_nil] at hhead hb
  obtain ⟨bs, rfl⟩ : ∃ bs, e = b :: bs := head?_eq_some_iff.mp hhead
  split at hb
  · cases hb
  obtain ⟨hvalue, hneed⟩ := Prod.mk.inj (Option.some.inj hb)
  rw [hneed, take_length, getBe] at hvalue
  obtain ⟨hzero, hsmall⟩ := foldl_small (hvalue ▸ htype)
  have hlt := b.toNat_lt
  rw [varintNeed, length_cons] at hneed
  have hclass : b.toNat / 64 = 0 ∨ b.toNat / 64 = 1 ∨ b.toNat / 64 = 2 ∨ b.toNat / 64 = 3 := by
    omega
  refine ⟨b, bs, rfl, spelled_small hsmall, ?_, ?_, ?_⟩
  · rintro rfl
    rw [foldl_nil] at hvalue
    rcases hclass with hc | hc | hc | hc <;> rw [hc] at hneed <;> simp at hneed
    omega
  · intro hne
    have hlow := hzero hne
    have hlen := length_pos_iff.mpr hne
    rcases hclass with hc | hc | hc | hc
    · rw [hc, pow_zero] at hneed
      omega
    · left
      apply UInt8.toNat_inj.mp
      show b.toNat = 64
      omega
    · right; left
      apply UInt8.toNat_inj.mp
      show b.toNat = 128
      omega
    · right; right
      apply UInt8.toNat_inj.mp
      show b.toNat = 192
      omega
  · intro hne
    have hlen := length_pos_iff.mpr hne
    rcases hclass with hc | hc | hc | hc <;> rw [hc] at hneed <;> omega

/-- The integers found from the second byte on: the bytes of a long type count among them. -/
theorem length_behind_type {vs ws : List Nat} (htype : type < 64)
    (hvs : Spelled varintDecode e (type :: vs)) (hws : Spelled varintDecode (e.drop 1) ws)
    (hbuf : e <+: buf) (ht : varintDecode buf = some (type, t)) :
    ws.length + 1 = t + vs.length ∧ (t ≠ 1 → t % 2 = 0 ∧
      (typeByte buf = 0x40 ∨ typeByte buf = 0x80 ∨ typeByte buf = 0xC0)) := by
  obtain ⟨rest, rfl⟩ := hbuf
  cases hvs with
  | @cons e₀ e₁ _ _ head tail =>
    obtain ⟨b, bs, rfl, hbs, -, hbyte, hodd⟩ := type_code head htype
    rw [append_assoc, head] at ht
    obtain rfl : (b :: bs).length = t := congrArg Prod.snd (Option.some.inj ht)
    have hdrop : (b :: bs ++ e₁).drop 1 = bs ++ e₁ := rfl
    obtain ⟨vs', rfl, hvs'⟩ := hbs.rest varintDecode_stable hws
    obtain rfl := tail.unique varintDecode_stable hvs'
    refine ⟨by simp only [length_append, length_map, length_cons]; omega, ?_⟩
    intro hlong
    have hne : bs ≠ [] := by
      rintro rfl
      exact hlong rfl
    have := hodd hne
    rw [length_cons]
    exact ⟨by omega, hbyte hne⟩

theorem spelled_of_oneByte {k : Nat} {ts : List Nat} (h : varintDecode buf = some (type, 1))
    (hk : 0 < k) (hts : Spelled varintDecode ((buf.take k).drop 1) ts) :
    Spelled varintDecode (buf.take k) (type :: ts) := by
  have hlen := varintDecode_stable.le h
  have hcode : Codes varintDecode (buf.take 1) type := by
    intro rest
    rw [length_take, min_eq_left hlen]
    exact varintDecode_stable.head h rest
  have hsplit : buf.take k = buf.take 1 ++ (buf.take k).drop 1 := by
    rw [← take_append_drop 1 (buf.take k), take_take, min_eq_left (by omega : 1 ≤ k), drop_left']
    rw [length_take]
    omega
  rw [hsplit]
  exact .cons hcode hts

theorem typeByte_of_oneByte (h : varintDecode buf = some (type, 1)) :
    typeByte buf = UInt8.ofNat type := by
  obtain ⟨b, hhead, hb⟩ := bind_eq_some_iff.mp h
  obtain ⟨rest, rfl⟩ : ∃ rest, buf = b :: rest := head?_eq_some_iff.mp hhead
  split at hb
  · cases hb
  obtain ⟨hvalue, hneed⟩ := Prod.mk.inj (Option.some.inj hb)
  have hclass : b.toNat / 64 = 0 := by
    exact Nat.eq_zero_of_not_pos fun hpos => absurd hneed (Nat.ne_of_gt (Nat.one_lt_two_pow (by omega)))
  rw [hneed, take_succ_cons, take_zero, getBe, foldl_nil] at hvalue
  apply UInt8.toNat_inj.mp
  rw [UInt8.toNat_ofNat']
  show b.toNat = _
  omega

/-! ## Each decoder -/

variable {α : Type} {flags : UInt8} {f : StreamFrame}

theorem behindType_reads {d : Decoder UInt8 α} {P : α → List Nat → Prop}
    (h : Reads varintDecode d P) {a : α} (hb : behindType d buf = some (a, n)) :
    0 < n ∧ ∃ ts, Spelled varintDecode ((buf.take n).drop 1) ts ∧ P a ts := by
  obtain ⟨⟨a', m⟩, hd, he⟩ := map_eq_some_iff.mp hb
  obtain ⟨rfl, rfl⟩ := Prod.mk.inj he
  obtain ⟨e, rest, ts, hbuf, rfl, hts, hP⟩ := (h _ _ _).mp hd
  refine ⟨by omega, ts, ?_, hP⟩
  rw [drop_take, hbuf, Nat.add_sub_cancel_left, take_left]
  exact hts

theorem takeCryptoHdr_reads : Reads varintDecode takeCryptoHdr fun r ts => ts = [r.1, r.2] := by
  apply (varintTake_bind fun offset _ => varintTake_bind fun length _ =>
    reads_pure (offset, length)).congr
  rintro ⟨offset, length⟩ ts
  simp

theorem frameViewEnd_eq_some {off e : Nat} (h : frameViewEnd n off len = some e) :
    e = off + len ∧ e ≤ n := by
  unfold frameViewEnd at h
  split at h
  · cases h
  obtain rfl := Option.some.inj h
  exact ⟨rfl, by omega⟩

theorem frameGetCrypto_at {f : CryptoFrame} (h : frameGetCrypto buf = some (f, n))
    (ht : varintDecode buf = some (frameCrypto, t)) : f.At buf n ↔ t = 1 := by
  obtain ⟨⟨⟨offset, length⟩, off⟩, hhdr, hview⟩ := bind_eq_some_iff.mp h
  obtain ⟨e, he, hf⟩ := map_eq_some_iff.mp hview
  obtain ⟨rfl, rfl⟩ := Prod.mk.inj hf
  obtain ⟨hn, hle⟩ := frameViewEnd_eq_some he
  obtain ⟨hpos, ts, hts, rfl⟩ := behindType_reads takeCryptoHdr_reads hhdr
  constructor
  · rintro ⟨hat, -, -⟩
    have hcount := (length_behind_type (by decide) hat hts (List.take_prefix _ _) ht).1
    simp only [length_cons, length_nil] at hcount
    omega
  · rintro rfl
    exact ⟨spelled_of_oneByte ht hpos hts, hn, hle⟩

theorem AckBody.values_length (a : AckBody) :
    a.values.length = 4 + 2 * a.rest.length + if a.ecn.isSome then 3 else 0 := by
  have hecn : (AckBody.ecnCounts a.ecn).length = if a.ecn.isSome then 3 else 0 := by
    cases a.ecn <;> rfl
  simp only [AckBody.values, length_append, pairs_length, hecn, length_cons, length_nil]

/-- Behind its type an ACK frame without ECN counts has an even number of integers, and a long type
an odd number of bytes more: the two together are no such frame. -/
theorem ackDecode_at {f : AckFrame} (h : ackDecode buf = some (f, n))
    (htype : type = frameAck ∨ type = frameAckEcn) (ht : varintDecode buf = some (type, t)) :
    f.At buf type n ↔ t = 1 := by
  have hsmall : type < 64 := by
    unfold frameAck frameAckEcn at htype
    omega
  obtain ⟨-, hle, -⟩ := ackDecode_whole h
  obtain ⟨hpos, ts, hts, a, hdesc, hecn, rfl, rfl⟩ := behindType_reads (takeAck_reads _) h
  constructor
  · rintro ⟨a', hat, -, -, hsame, -⟩
    obtain ⟨hcount, hlong⟩ := length_behind_type hsmall hat hts (List.take_prefix _ _) ht
    by_contra hne
    obtain ⟨heven, hbyte⟩ := hlong hne
    have hnone : a.ecn.isSome = false := by
      rw [hecn]
      apply decide_eq_false
      change ¬ typeByte buf = _
      rcases hbyte with hb | hb | hb <;> rw [hb] <;> decide
    have hnone' : a'.ecn.isSome = false := by
      rw [← hnone]
      exact (congrArg AckFrame.hasEcn hsame).symm
    rw [a.values_length, a'.values_length, hnone, hnone'] at hcount
    omega
  · rintro rfl
    refine ⟨a, spelled_of_oneByte ht hpos hts, hdesc, ?_, rfl, hle⟩
    have hbyte : buf.headD 0 = UInt8.ofNat type := typeByte_of_oneByte ht
    rw [hecn, hbyte]
    rcases htype with rfl | rfl <;> rfl

theorem takeOptOffset_reads (flags : UInt8) :
    Reads varintDecode (takeOptOffset flags) fun offset ts =>
      ts = (if flags &&& streamOff = 0 then [] else [offset]) ∧
        (flags &&& streamOff = 0 → offset = 0) := by
  apply ((reads_pure 0).ite (reads_token varintDecode_stable)).congr
  intro offset ts
  by_cases hflag : flags &&& streamOff = 0
  · simp [hflag, and_comm]
  · simp [hflag]

theorem takeOptLength_sound (h : takeOptLength flags b = some (length, m)) :
    ∃ e rest, b = e ++ rest ∧ e.length = m ∧
      Spelled varintDecode e (if flags &&& streamLen = 0 then [] else [length]) ∧
      (flags &&& streamLen = 0 → length = rest.length) := by
  unfold takeOptLength at h
  split at h
  · next hflag =>
    obtain ⟨rfl, rfl⟩ := Prod.mk.inj (Option.some.inj h)
    refine ⟨[], b, rfl, rfl, ?_, fun _ => rfl⟩
    rw [if_pos hflag]
    exact .nil
  · next hflag =>
    obtain ⟨e, rest, ts, rfl, rfl, hts, rfl⟩ := (reads_token varintDecode_stable b length m).mp h
    refine ⟨e, rest, rfl, rfl, ?_, fun hzero => absurd hzero hflag⟩
    rw [if_neg hflag]
    exact hts

theorem takeStreamHdr_sound {streamId offset : Nat}
    (h : takeStreamHdr flags b = some ((streamId, offset, length), m)) :
    ∃ e rest, b = e ++ rest ∧ e.length = m ∧
      Spelled varintDecode e (streamValues flags streamId offset length) ∧
      (flags &&& streamOff = 0 → offset = 0) ∧ (flags &&& streamLen = 0 → length = rest.length) := by
  obtain ⟨id, n₁, m₁, hid, h₁, rfl⟩ := Decoder.bind_eq_some.mp h
  obtain ⟨off, n₂, m₂, hoff, h₂, rfl⟩ := Decoder.bind_eq_some.mp h₁
  obtain ⟨len, n₃, m₃, hlen, h₃, rfl⟩ := Decoder.bind_eq_some.mp h₂
  obtain ⟨he, rfl⟩ := Prod.mk.inj (Option.some.inj h₃)
  simp only [Prod.mk.injEq] at he
  obtain ⟨rfl, rfl, rfl⟩ := he
  obtain ⟨e₁, rest₁, _, rfl, rfl, hts₁, rfl⟩ := (reads_token varintDecode_stable b id n₁).mp hid
  rw [drop_left] at hoff hlen
  obtain ⟨e₂, rest₂, _, rfl, rfl, hts₂, rfl, hzero⟩ := (takeOptOffset_reads flags _ _ _).mp hoff
  rw [drop_left] at hlen
  obtain ⟨e₃, rest, rfl, rfl, hts₃, hrest⟩ := takeOptLength_sound hlen
  refine ⟨e₁ ++ (e₂ ++ e₃), rest, by simp, by simp, ?_, hzero, hrest⟩
  exact hts₁.append (hts₂.append hts₃)

theorem frameGetStream_spec (h : frameGetStream buf = some (f, n)) :
    0 < f.data ∧ Spelled varintDecode ((buf.take f.data).drop 1)
        (streamValues (typeByte buf) f.streamId f.offset f.length) ∧
      (typeByte buf &&& streamOff = 0 → f.offset = 0) ∧
      (typeByte buf &&& streamLen = 0 → f.data + f.length = buf.length) ∧
      f.fin = decide (typeByte buf &&& streamFin ≠ 0) ∧ n = f.data + f.length ∧ n ≤ buf.length := by
  obtain ⟨⟨⟨streamId, offset, length⟩, off⟩, hhdr, hview⟩ := bind_eq_some_iff.mp h
  obtain ⟨e, he, hf⟩ := map_eq_some_iff.mp hview
  obtain ⟨rfl, rfl⟩ := Prod.mk.inj hf
  obtain ⟨hn, hle⟩ := frameViewEnd_eq_some he
  obtain ⟨⟨r, m⟩, hbounded, hr⟩ := map_eq_some_iff.mp hhdr
  obtain ⟨rfl, rfl⟩ := Prod.mk.inj hr
  obtain ⟨⟨id', off', len'⟩, k, j, htake, hcheck, rfl⟩ := Decoder.bind_eq_some.mp hbounded
  dsimp only at hcheck
  split at hcheck
  · obtain ⟨hsame, rfl⟩ := Prod.mk.inj (Option.some.inj hcheck)
    obtain ⟨rfl, rfl, rfl⟩ := hsame
    obtain ⟨e', rest, hbuf, rfl, hts, hoff, hlen⟩ := takeStreamHdr_sound htake
    have hlength := congrArg List.length hbuf
    rw [length_drop, length_append] at hlength
    refine ⟨by dsimp only; omega, ?_, hoff, ?_, rfl, hn, hle⟩
    · rw [drop_take, hbuf, add_zero, Nat.add_sub_cancel_left, take_left]
      exact hts
    · intro hflag
      have := hlen hflag
      dsimp only
      omega
  · cases hcheck

theorem frameGetStream_at (h : frameGetStream buf = some (f, n))
    (htype : type < 64) (ht : varintDecode buf = some (type, t)) : f.At buf type n ↔ t = 1 := by
  obtain ⟨hpos, hts, hoff, hlen, hfin, hn, hle⟩ := frameGetStream_spec h
  constructor
  · rintro ⟨hat, -⟩
    obtain ⟨hcount, hlong⟩ := length_behind_type htype hat hts (List.take_prefix _ _) ht
    by_contra hne
    -- in the first byte of a long type, no flag is set
    have hshort : (streamValues (typeByte buf) f.streamId f.offset f.length).length = 1 := by
      rcases (hlong hne).2 with hb | hb | hb <;> rw [hb] <;> rfl
    have hone : 1 ≤ (streamValues (UInt8.ofNat type) f.streamId f.offset f.length).length :=
      Nat.le_add_left 1 _
    have htpos := varintDecode_stable.pos ht
    omega
  · rintro rfl
    rw [typeByte_of_oneByte ht] at hts hoff hlen hfin
    exact ⟨spelled_of_oneByte ht hpos hts, hoff, hlen, hfin, hn, hle⟩

/-! ## Every frame of the walk -/

theorem kindTable_mem (h : frameClassify type ≠ .unknown) :
    (type, frameClassify type) ∈ kindTable := by
  unfold frameClassify at h ⊢
  cases hfind : kindTable.find? fun row => row.1 = type with
  | none =>
    rw [hfind] at h
    exact absurd rfl h
  | some row =>
    have hrow : row.1 = type := by simpa using find?_some hfind
    rw [map_some, getD_some, ← hrow]
    exact mem_of_find?_eq_some hfind

theorem classify_type {kind : FrameKind} (h : frameClassify type = kind) :
    (kind = .ack → type = frameAck ∨ type = frameAckEcn) ∧
      (kind = .crypto → type = frameCrypto) ∧ (kind = .stream → type < 64) := by
  have hrows : ∀ row ∈ kindTable,
      (row.2 = .ack → row.1 = frameAck ∨ row.1 = frameAckEcn) ∧
      (row.2 = .crypto → row.1 = frameCrypto) ∧ (row.2 = .stream → row.1 < 64) := by decide
  by_cases hunknown : frameClassify type = .unknown
  · rw [← h, hunknown]
    exact ⟨by nofun, by nofun, by nofun⟩
  · rw [← h]
    exact hrows _ (kindTable_mem hunknown)

theorem measureFrame_spec (h : measureFrame buf = some (type, len)) :
    (∃ t, varintDecode buf = some (type, t)) ∧ frameLen type buf = some len ∧ 0 < len ∧
      len ≤ buf.length := by
  obtain ⟨⟨type', t⟩, ht, hlen⟩ := bind_eq_some_iff.mp h
  obtain ⟨len', hfilter, he⟩ := map_eq_some_iff.mp hlen
  obtain ⟨rfl, rfl⟩ := Prod.mk.inj he
  obtain ⟨hlen, hguard⟩ := filter_eq_some_iff.mp hfilter
  rw [Bool.and_eq_true, decide_eq_true_eq, decide_eq_true_eq] at hguard
  exact ⟨⟨t, ht⟩, hlen, hguard⟩

theorem frameLen_of_decoder (h : hasDecoder type = true) :
    frameLen type buf = decodedLen (frameClassify type) buf := by
  rw [frameLen, if_neg]
  unfold hasDecoder at h
  simp only [Bool.or_eq_true, decide_eq_true_eq] at h
  rcases h with (h | h) | h <;> rw [h] <;> decide

theorem exists_decoded_iff {d : Option (α × Nat)} {f : α} {M : Nat → Prop}
    {P : α → Nat → Prop} (hd : d = some (f, n)) (hM : M n) :
    (∃ f' n', d = some (f', n') ∧ M n' ∧ P f' n') ↔ P f n := by
  constructor
  · rintro ⟨f', n', hf', -, hP⟩
    obtain ⟨rfl, rfl⟩ := Prod.mk.inj (Option.some.inj (hd.symm.trans hf'))
    exact hP
  · exact fun hP => ⟨f, n, hd, hM, hP⟩

variable {fr : FramewalkItem}

theorem decodesTruly_iff (h : measureFrame fr.start = some (fr.type, len)) :
    DecodesTruly fr ↔ (hasDecoder fr.type = true → OneByteType fr) := by
  obtain ⟨⟨t, ht⟩, hlen, -, -⟩ := measureFrame_spec h
  have hone : OneByteType fr ↔ t = 1 := by
    rw [OneByteType, ht]
    simp
  obtain ⟨hack, hcrypto, hstream⟩ := classify_type (rfl : frameClassify fr.type = _)
  unfold DecodesTruly
  by_cases hdec : hasDecoder fr.type = true
  · rw [frameLen_of_decoder hdec] at hlen
    rw [hone]
    simp only [hdec, forall_const]
    unfold hasDecoder at hdec
    simp only [Bool.or_eq_true, decide_eq_true_eq] at hdec
    rcases hdec with (hkind | hkind) | hkind
    · rw [hkind] at hlen ⊢
      obtain ⟨⟨f, n⟩, hf, rfl⟩ := map_eq_some_iff.mp hlen
      rw [← ackDecode_at hf (hack hkind) ht]
      exact exists_decoded_iff hf h
    · rw [hkind] at hlen ⊢
      obtain ⟨⟨f, n⟩, hf, rfl⟩ := map_eq_some_iff.mp hlen
      rw [← frameGetCrypto_at hf (hcrypto hkind ▸ ht)]
      exact exists_decoded_iff hf h
    · rw [hkind] at hlen ⊢
      obtain ⟨⟨f, n⟩, hf, rfl⟩ := map_eq_some_iff.mp hlen
      rw [← frameGetStream_at hf (hstream hkind) ht]
      exact exists_decoded_iff hf h
  · have hother : frameClassify fr.type ≠ .ack ∧ frameClassify fr.type ≠ .crypto ∧
        frameClassify fr.type ≠ .stream := by
      simpa [hasDecoder, not_or, and_assoc] using hdec
    simp only [hdec, false_implies, iff_true, Bool.false_eq_true]
    split
    · next hk => exact absurd hk hother.1
    · next hk => exact absurd hk hother.2.1
    · next hk => exact absurd hk hother.2.2
    · trivial

theorem framewalkNext_spec {cur : List UInt8} (h : framewalkNext cur = some (fr, len)) :
    fr.start = cur ∧ measureFrame fr.start = some (fr.type, len) := by
  obtain ⟨⟨type, len'⟩, hm, he⟩ := map_eq_some_iff.mp h
  obtain ⟨rfl, rfl⟩ := Prod.mk.inj he
  exact ⟨rfl, hm⟩

theorem framewalkNext_advances : Advances framewalkNext where
  le := by
    intro b fr n h
    obtain ⟨rfl, hm⟩ := framewalkNext_spec h
    exact (measureFrame_spec hm).2.2.2
  pos := by
    intro b fr n h
    exact (measureFrame_spec (framewalkNext_spec h).2).2.2.1

/-- The walk by itself: the frames that it finds follow on one another, and cover what it says. -/
theorem framewalk_consecutive (pl : List UInt8) (hall : (framewalk pl).2 = pl.length) :
    Consecutive (framewalk pl).1 pl := by
  unfold framewalk at hall ⊢
  induction pl using decodeAll_induction framewalkNext_advances with
  | hnone b hd =>
    rw [decodeAll_none hd] at hall ⊢
    obtain rfl := eq_nil_of_length_eq_zero hall.symm
    exact .nil
  | hsome b fr n hd ih =>
    have hle := framewalkNext_advances.le hd
    rw [decodeAll_some framewalkNext_advances hd] at hall ⊢
    obtain ⟨rfl, hm⟩ := framewalkNext_spec hd
    refine .cons hm (framewalkNext_advances.pos hd) hle (ih ?_)
    rw [length_drop]
    omega

theorem measureFrame_of_mem {pl : List UInt8} (h : fr ∈ (framewalk pl).1) :
    ∃ len, measureFrame fr.start = some (fr.type, len) := by
  unfold framewalk at h
  induction pl using decodeAll_induction framewalkNext_advances with
  | hnone b hd =>
    rw [decodeAll_none hd] at h
    cases h
  | hsome b fr' n hd ih =>
    rw [decodeAll_some framewalkNext_advances hd] at h
    rcases mem_cons.mp h with rfl | h
    · exact ⟨n, (framewalkNext_spec hd).2⟩
    · exact ih h

/-- The frames cover the payload and are decoded truly. -/
def Agrees (pl : List UInt8) : Prop :=
  Consecutive (framewalk pl).1 pl ∧ ∀ fr ∈ (framewalk pl).1, DecodesTruly fr

/-- A payload that passes the checks. -/
structure AcceptedPayload (l : SrvloopView) where
  bytes : List UInt8
  accepted : srvloopFramesError l .oneRtt bytes = none

/-- **Agreement.** The frames of a payload that passes the checks cover it, and they are decoded
truly exactly if every ACK, CRYPTO and STREAM frame has its type in one byte. -/
theorem agrees_iff (l : SrvloopView) (pl : AcceptedPayload l) :
    Agrees pl.bytes ↔
      ∀ fr ∈ (framewalk pl.bytes).1, hasDecoder fr.type = true → OneByteType fr := by
  obtain ⟨-, hleft⟩ := Option.or_eq_none_iff.mp pl.accepted
  have hall : (framewalk pl.bytes).2 = pl.bytes.length := by
    have hle := decodeAll_le framewalkNext_advances pl.bytes
    split at hleft
    · cases hleft
    exact le_antisymm hle (by omega)
  have hframes : ∀ fr ∈ (framewalk pl.bytes).1,
      (DecodesTruly fr ↔ (hasDecoder fr.type = true → OneByteType fr)) := by
    intro fr hfr
    obtain ⟨len, hm⟩ := measureFrame_of_mem hfr
    exact decodesTruly_iff hm
  constructor
  · rintro ⟨-, htruly⟩ fr hfr
    exact (hframes fr hfr).mp (htruly fr hfr)
  · intro hone
    exact ⟨framewalk_consecutive _ hall, fun fr hfr => (hframes fr hfr).mpr (hone fr hfr)⟩

/-- A STREAM frame for stream 0 with one byte of data, its type `0x08` in two bytes. -/
def longTypeStream : List UInt8 := [0x40, 0x08, 0x00, 0xaa]

/-- The checks look at stream 0 and accept. The decoder takes the second byte of the type for a
stream id, and gives the data, with the true id in front, to stream 8. -/
theorem overlong_type_misread :
    srvloopFramesError ⟨0, 0, 0⟩ .oneRtt longTypeStream = none ∧
      StreamFrame.At longTypeStream 0x08 ⟨0, 0, 1, 3, false⟩ 4 ∧
      frameGetStream longTypeStream = some (⟨8, 0, 2, 2, false⟩, 4) ∧ ¬ Agrees longTypeStream := by
  have htype : Codes varintDecode [0x40, 0x08] 8 := .of_decoded varintDecode_stable (by decide)
  have hid : Codes varintDecode [0x00] 0 := .of_decoded varintDecode_stable (by decide)
  refine ⟨by decide, ⟨.cons htype (.one hid), by decide, by decide, rfl, rfl, by decide⟩, by decide, ?_⟩
  rintro ⟨-, htruly⟩
  have hfr : (⟨8, longTypeStream⟩ : FramewalkItem) ∈ (framewalk longTypeStream).1 := by decide
  have hm : measureFrame longTypeStream = some (8, 4) := by decide
  exact absurd ((decodesTruly_iff hm).mp (htruly _ hfr) (by decide)) (by decide)

end Wired.Frame
