import Wired.Lib.Word

/-!
# Send sessions

`sendq.c` and the files `sendsess*.c`: one response in flight. A queue holds the unsent tail of the
response stream, a log the slices that were sent and are not yet acknowledged, keyed by packet
number, and a requeue the slices to be sent again. The log and the requeue have `sendsessLog`
entries each.

The requeue is the list of its `requeue_n` entries, the last one on top. A loop over the log is a
fold over the indices it visits. An offset plus a length of a slice never passes the cursor of the
queue, so those sums are plain ones; times, packet numbers and the running totals are `u64`.
-/

namespace Wired.Server

open Lib

/-! ## The queue of unsent bytes -/

/-- A piece of the response stream. -/
structure SendqSlice where
  offset : Nat
  len : Nat
  fin : Bool
deriving DecidableEq, Repr

/-- The unsent tail; `cap` is the size of the ring, if there is one. -/
structure Sendq where
  len : Nat
  cur : Nat
  chunk : Nat
  cap : Nat
deriving DecidableEq, Repr

def sendqInit (len chunk : Nat) : Sendq := { len, cur := 0, chunk, cap := 0 }

def sendqSetRing (q : Sendq) (cap : Nat) : Sendq := { q with cap }

/-- Bytes remaining from the cursor, capped at one chunk and, on a ring, at the wrap. -/
def sendqTake (q : Sendq) : Nat :=
  let n := min (subU64 q.len q.cur) q.chunk
  if q.cap ≠ 0 then min n (q.cap - q.cur % q.cap) else n

def sendqNext (q : Sendq) : Sendq × Option SendqSlice :=
  let n := sendqTake q
  if q.cur ≥ q.len then (q, none)
  else
    let cur := q.cur + n
    ({ q with cur }, some { offset := q.cur, len := n, fin := cur ≥ q.len })

def sendqAllSent (q : Sendq) : Bool := q.cur ≥ q.len

/-! ## The session -/

/-- `WIRED_SENDSESS_LOG`: slices tracked at once, in flight or awaiting requeue. -/
def sendsessLog : Nat := 128

structure SentSlice where
  pn : Nat
  sl : SendqSlice
  inflight : Bool
  sentMs : Nat
deriving DecidableEq, Repr

/-- A requeued slice with 1 + the packet number it was lost (or probed) on, 0 if unknown. -/
structure Requeued where
  sl : SendqSlice
  pn1 : Nat
deriving DecidableEq, Repr

/-- One response in flight. -/
structure Sendsess where
  q : Sendq
  active : Bool
  log : List SentSlice
  requeue : List Requeued
  takenPn : Nat
  largestAcked : Nat
  hasAcked : Bool
  ptoCount : Int
  streamBaseOffset : Nat
  inflightN : Nat
  inflightLen : Nat
  logHi : Nat
deriving Repr

def emptySlot : SentSlice where
  pn := 0
  sl := { offset := 0, len := 0, fin := false }
  inflight := false
  sentMs := 0

def sendsessArm (len chunk : Nat) : Sendsess where
  q := sendqInit len chunk
  active := true
  log := List.replicate sendsessLog emptySlot
  requeue := []
  takenPn := 0
  largestAcked := 0
  hasAcked := false
  ptoCount := 0
  streamBaseOffset := 0
  inflightN := 0
  inflightLen := 0
  logHi := 0

def Sendsess.slot (s : Sendsess) (i : Nat) : SentSlice := s.log.getD i emptySlot

def sendsessExtend (s : Sendsess) (added : Nat) : Sendsess :=
  { s with q := { s.q with len := addU64 s.q.len added }, active := true }

def sendsessStreamOffset (s : Sendsess) (sl : SendqSlice) : Nat :=
  addU64 s.streamBaseOffset sl.offset

/-- A requeued slice longer than a chunk goes out chunk by chunk, the rest back on the requeue's
top. -/
def sendsessSplit (s : Sendsess) (sl : SendqSlice) : Sendsess × SendqSlice :=
  let c := s.q.chunk
  if c = 0 ∨ sl.len ≤ c then (s, sl)
  else
    let rest := { offset := sl.offset + c, len := sl.len - c, fin := sl.fin }
    ({ s with requeue := s.requeue ++ [{ sl := rest, pn1 := s.takenPn }] },
      { sl with len := c, fin := false })

def sendsessTake (s : Sendsess) : Sendsess × Option SendqSlice :=
  match s.requeue.getLast? with
  | some top =>
    let (s, out) := sendsessSplit { s with requeue := s.requeue.dropLast, takenPn := top.pn1 } top.sl
    (s, some out)
  | none =>
    let (q, out) := sendqNext s.q
    ({ s with q, takenPn := 0 }, out)

/-- First free log slot, `none` when every slot is in flight. -/
def sendsessFreeSlot (s : Sendsess) : Option Nat :=
  (List.range sendsessLog).find? fun i => !(s.slot i).inflight

def sendsessSent (s : Sendsess) (sl : SendqSlice) (pn nowMs : Nat) : Option Sendsess :=
  match sendsessFreeSlot s with
  | none => none
  | some i => some { s with
      log := s.log.set i { pn, sl, inflight := true, sentMs := nowMs }
      inflightN := s.inflightN + 1
      inflightLen := addU64 s.inflightLen sl.len
      logHi := max s.logHi (i + 1) }

def sendsessUntake (s : Sendsess) (sl : SendqSlice) : Sendsess :=
  if s.requeue.length < sendsessLog then
    { s with requeue := s.requeue ++ [{ sl, pn1 := s.takenPn }] }
  else s

def sendsessClearInflight (s : Sendsess) (i : Nat) : Sendsess :=
  { s with
    log := s.log.set i { s.slot i with inflight := false }
    inflightN := s.inflightN - 1
    inflightLen := subU64 s.inflightLen (s.slot i).sl.len }

/-! ## Acknowledgments -/

def sendsessCovered (e : SentSlice) (lo hi : Nat) : Bool := e.inflight && lo ≤ e.pn && e.pn ≤ hi

def sendsessNoteLargest (s : Sendsess) (hi : Nat) : Sendsess :=
  { s with
    largestAcked := if !s.hasAcked || hi > s.largestAcked then hi else s.largestAcked
    hasAcked := true }

def sendsessAckOne (lo hi : Nat) (s : Sendsess) (i : Nat) : Sendsess :=
  if sendsessCovered (s.slot i) lo hi then sendsessClearInflight s i else s

def sendsessAck (s : Sendsess) (lo hi : Nat) : Sendsess :=
  (List.range s.logHi).foldl (sendsessAckOne lo hi)
    { sendsessNoteLargest s hi with ptoCount := 0 }

def sendsessRequeueAcked (r : Requeued) (lo hi : Nat) : Bool := r.pn1 > lo && r.pn1 - 1 ≤ hi

/-- The loop of `wired_sendsess_ack_requeued`: a dropped entry is replaced by the last one. -/
def ackRequeuedLoop (lo hi : Nat) : Nat → Nat → List Requeued → List Requeued
  | 0, _, rq => rq
  | fuel + 1, i, rq =>
    match rq[i]?, rq.getLast? with
    | some r, some last =>
      if sendsessRequeueAcked r lo hi then ackRequeuedLoop lo hi fuel i (rq.set i last).dropLast
      else ackRequeuedLoop lo hi fuel (i + 1) rq
    | _, _ => rq

def sendsessAckRequeued (s : Sendsess) (lo hi : Nat) : Sendsess :=
  { s with requeue := ackRequeuedLoop lo hi s.requeue.length 0 s.requeue }

/-! ## Loss detection -/

def lossPacketThreshold : Nat := 3

def lossByPacket (largestAcked pn : Nat) : Bool := largestAcked ≥ addU64 pn lossPacketThreshold

def sendsessLostByTime (e : SentSlice) (nowMs lossDelayUs : Nat) : Bool :=
  lossDelayUs ≠ 0 && addU64 (mulU64 e.sentMs 1000) lossDelayUs ≤ mulU64 nowMs 1000

def sendsessLostEligible (e : SentSlice) (largestAcked : Nat) : Bool :=
  e.inflight && e.pn < largestAcked

def sendsessLost (e : SentSlice) (largestAcked nowMs lossDelayUs : Nat) : Bool :=
  if !sendsessLostEligible e largestAcked then false
  else lossByPacket largestAcked e.pn || sendsessLostByTime e nowMs lossDelayUs

/-- Move a log entry's slice to the requeue; it stays in flight if the requeue is full. -/
def sendsessRequeue (s : Sendsess) (i : Nat) : Sendsess :=
  if s.requeue.length ≥ sendsessLog then s
  else
    let e := s.slot i
    sendsessClearInflight
      { s with requeue := s.requeue ++ [{ sl := e.sl, pn1 := addU64 e.pn 1 }] } i

/-- A slice that was found lost. -/
structure LostSlice where
  pn : Nat
  offset : Nat
  length : Nat
  fin : Bool
  sentMs : Nat
deriving DecidableEq, Repr

/-- The session, the lost slices reported so far and their number. -/
structure DetectState where
  sess : Sendsess
  lost : List LostSlice
  n : Nat

def sendsessReportLost (d : DetectState) (e : SentSlice) (cap : Nat) : List LostSlice :=
  if d.n ≥ cap then d.lost
  else d.lost ++ [{
    pn := e.pn, offset := sendsessStreamOffset d.sess e.sl, length := e.sl.len, fin := e.sl.fin
    sentMs := e.sentMs }]

def sendsessDetectOne (largestAcked nowMs lossDelayUs cap : Nat) (d : DetectState) (i : Nat) :
    DetectState :=
  let e := d.sess.slot i
  if sendsessLost e largestAcked nowMs lossDelayUs then
    { sess := sendsessRequeue d.sess i, lost := sendsessReportLost d e cap, n := d.n + 1 }
  else d

def sendsessDetectLost (s : Sendsess) (largestAcked nowMs lossDelayUs cap : Nat) : DetectState :=
  (List.range s.logHi).foldl (sendsessDetectOne largestAcked nowMs lossDelayUs cap)
    { sess := s, lost := [], n := 0 }

/-! ## Probe timeouts -/

def sendsessLiveAbove (e : SentSlice) (above1 : Nat) : Bool :=
  e.inflight && addU64 e.pn 1 > above1

def sendsessOlder (s : Sendsess) (best : Option Nat) (i above1 : Nat) : Bool :=
  sendsessLiveAbove (s.slot i) above1 &&
    match best with
    | none => true
    | some b => (s.slot i).pn < (s.slot b).pn

/-- Index of the oldest in-flight entry with `pn + 1 > above1`. -/
def sendsessOldestAbove (s : Sendsess) (above1 : Nat) : Option Nat :=
  (List.range s.logHi).foldl
    (fun best i => if sendsessOlder s best i above1 then some i else best) none

def sendsessCopy (s : Sendsess) (i : Option Nat) : Sendsess :=
  match i with
  | none => s
  | some i =>
    if s.requeue.length ≥ sendsessLog then s
    else
      let e := s.slot i
      { s with requeue := s.requeue ++ [{ sl := e.sl, pn1 := addU64 e.pn 1 }] }

/-- Queue copies of the two oldest in-flight slices. -/
def sendsessPtoProbe (s : Sendsess) : Sendsess × Bool :=
  match sendsessOldestAbove s 0 with
  | none => (s, false)
  | some a =>
    if s.requeue.length ≠ 0 then (s, false)
    else
      let s := sendsessCopy s (some a)
      (sendsessCopy s (sendsessOldestAbove s (addU64 (s.slot a).pn 1)), true)

def sendsessPtoFire (s : Sendsess) (maxProbes : Int) : Sendsess × Bool :=
  if (sendsessOldestAbove s 0).isNone then (s, true)
  else if s.ptoCount ≥ maxProbes then (s, false)
  else ((sendsessPtoProbe { s with ptoCount := s.ptoCount + 1 }).1, true)

/-! ## The reclaim floor

Two functions compute it, one for each kind of storage. -/

def sentSliceBelow (e : SentSlice) (floor : Nat) : Bool := e.inflight && e.sl.offset < floor

def sendsessLogFloor (s : Sendsess) (floor : Nat) : Nat :=
  (List.range s.logHi).foldl
    (fun floor i => if sentSliceBelow (s.slot i) floor then (s.slot i).sl.offset else floor) floor

def sendsessRequeueFloor (s : Sendsess) (floor : Nat) : Nat :=
  s.requeue.foldl (fun floor r => if r.sl.offset < floor then r.sl.offset else floor) floor

/-- The least offset in flight or requeued, or the cursor. -/
def sendsessUnackedFloor (s : Sendsess) : Nat := sendsessRequeueFloor s (sendsessLogFloor s s.q.cur)

def sendsessLiveMin (off : Nat) (live : Bool) (base : Nat) : Nat :=
  if live && off < base then off else base

def sendsessLogMinOff (s : Sendsess) (base : Nat) : Nat :=
  (List.range s.logHi).foldl
    (fun base i => sendsessLiveMin (s.slot i).sl.offset (s.slot i).inflight base) base

def sendsessRequeueMinOff (s : Sendsess) (base : Nat) : Nat :=
  s.requeue.foldl (fun base r => sendsessLiveMin r.sl.offset true base) base

/-- The same number, as the owner of the ring computes it. -/
def sendsessReclaimBase (s : Sendsess) : Nat := sendsessRequeueMinOff s (sendsessLogMinOff s s.q.cur)

/-- How much may be written into the ring. -/
def sendsessRingRoom (s : Sendsess) (cap : Nat) : Nat := cap - (s.q.len - sendsessReclaimBase s)

/-! ## Completion -/

def sendsessPending (s : Sendsess) : Bool :=
  !sendqAllSent s.q || s.requeue.length ≠ 0 || s.inflightN ≠ 0

/-- Whether everything was sent and acknowledged. -/
def sendsessDone (s : Sendsess) : Sendsess × Bool :=
  if !s.active then (s, false)
  else if sendsessPending s then (s, false)
  else ({ s with active := false }, true)

end Wired.Server
