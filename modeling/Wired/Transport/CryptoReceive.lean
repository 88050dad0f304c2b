import Wired.Frame.Walk
import Wired.Lib.LittleEndian
import Wired.Lib.Window
import Mathlib.Data.List.DropRight
import Mathlib.Data.List.TakeWhile
import Mathlib.Order.Bounds.Defs

/-!
# Receiving the handshake

`crecv/collect.c` and `crecv/message.c`: the CRYPTO frames of the packets of one level are put
together in a buffer of fixed size, which is followed in memory by one byte for each of its bytes
that is set when that one has arrived. The bytes before the first missing one are handed to TLS,
one message at a time (`crecvRun_spec`).

A frame that reaches beyond the buffer ends the work on its packet. The frames before it are kept,
those after it are not read, and the contiguous length stays as it was; both owners of a buffer
(`srvboot_acc.c`, `server_order.c`) close the connection then.
-/

namespace Wired.Transport

open Lib Wired.Frame List

/-! ## The model -/

/-- The counters and the memory that goes with them, of `2 cap` bytes. -/
structure Crecv where
  cap : Nat
  receivedTo : Nat
  overflow : Bool
  mem : Nat → UInt8

def crecvInit (mem : Nat → UInt8) (cap : Nat) : Crecv where
  cap := cap
  receivedTo := 0
  overflow := false
  mem := fun i => if cap ≤ i ∧ i < cap + cap then 0 else mem i

/-- Byte by byte, the data and its mark. -/
def placeLoop (cap : Nat) : (Nat → UInt8) → Nat → List UInt8 → Nat → UInt8
  | mem, _, [] => mem
  | mem, off, x :: xs =>
    placeLoop cap (Function.update (Function.update mem off x) (cap + off) 1) (off + 1) xs

/-- The bytes of a frame that was decoded at the head of `body`. -/
def cryptoData (body : List UInt8) (f : CryptoFrame) : List UInt8 := (body.drop f.data).take f.length

def place (s : Crecv) (body : List UInt8) (f : CryptoFrame) : Crecv × Bool :=
  if f.offset + f.length > s.cap then ({ s with overflow := true }, false)
  else ({ s with mem := placeLoop s.cap s.mem f.offset (cryptoData body f) }, true)

def Crecv.mark (s : Crecv) (i : Nat) : Bool := s.mem (s.cap + i) != 0

def advancePrefix (s : Crecv) : Crecv :=
  { s with receivedTo := leadingFrom s.mark (s.cap - s.receivedTo) s.receivedTo }

def takeCrypto (s : Crecv) (body : List UInt8) : Crecv × Bool :=
  match frameGetCrypto body with
  | none => (s, false)
  | some (f, _) => place s body f

def onFrame (s : Crecv) (fr : FramewalkItem) : Crecv × Bool :=
  if fr.type ≠ frameCrypto then (s, true) else takeCrypto s fr.start

def collectLoop : Crecv → List FramewalkItem → Crecv × Bool
  | s, [] => (advancePrefix s, true)
  | s, fr :: rest =>
    let r := onFrame s fr
    if r.2 then collectLoop r.1 rest else (r.1, false)

def crecvCollect (s : Crecv) (frames : List UInt8) : Crecv × Bool :=
  collectLoop s (framewalk frames).1

def msgTotal (b : Nat → UInt8) : Nat :=
  4 + ((b 1).toNat * 2 ^ 16 ||| (b 2).toNat * 2 ^ 8 ||| (b 3).toNat)

/-- The message at `off` has arrived. -/
def crecvCompleteMessageAt (s : Crecv) (off : Nat) : Bool :=
  if s.receivedTo < off + 4 then false
  else off + msgTotal (fun i => s.mem (off + i)) ≤ s.receivedTo

def crecvMessageEndAt (mem : Nat → UInt8) (off : Nat) : Nat :=
  off + msgTotal (fun i => mem (off + i))

/-! ## The owners -/

/-- What the connection is closed with. -/
inductive CryptoError where
  | cryptoBufferExceeded | protocolViolation
deriving DecidableEq, Repr

/-- The fields of `wired_srvboot_acc` that the reassembly uses. -/
structure SrvbootAcc where
  cr : Crecv
  any : Bool
  largestPn : Nat
  opened : Nat
  hrrOff : Nat

/-- One packet, given by its payload and its number if it is an Initial that can be opened. -/
def srvbootAccTake (a : SrvbootAcc) (pkt : Option (List UInt8 × Nat)) : SrvbootAcc × Bool :=
  match pkt with
  | none => (a, false)
  | some (payload, pn) =>
    ({ a with
        cr := (crecvCollect a.cr payload).1
        largestPn := max a.largestPn pn
        opened := a.opened + 1 }, true)

def wiredSrvbootAccComplete (a : SrvbootAcc) : Bool :=
  a.any && crecvCompleteMessageAt a.cr a.hrrOff

def wiredSrvbootAccTrailing (a : SrvbootAcc) : Bool :=
  wiredSrvbootAccComplete a &&
    decide (a.cr.receivedTo > crecvMessageEndAt a.cr.mem a.hrrOff)

/-- The error with which the start of the connection is refused. -/
def srvrunBootCryptoError (a : SrvbootAcc) : Option CryptoError :=
  if a.cr.overflow then some .cryptoBufferExceeded
  else if wiredSrvbootAccTrailing a then some .protocolViolation else none

/-- The fields of `wired_server` that the reassembly uses. -/
structure ServerCrypto where
  crecv : Crecv
  hsError : Option CryptoError
  hsAborted : Bool

/-- The same for the CRYPTO frames behind the Initial level. -/
def serverSrvCollect (s : ServerCrypto) (frames : List UInt8) : ServerCrypto × Bool :=
  let r := crecvCollect s.crecv frames
  if r.2 then ({ s with crecv := r.1 }, true)
  else if r.1.overflow then
    ({ crecv := r.1, hsError := some .cryptoBufferExceeded, hsAborted := true }, false)
  else ({ s with crecv := r.1 }, false)

/-! ## Pieces -/

/-- The data of a CRYPTO frame and its offset. -/
abbrev Piece := Nat × List UInt8

def pieceOf (fr : FramewalkItem) : Option Piece :=
  if fr.type ≠ frameCrypto then none
  else (frameGetCrypto fr.start).map fun r => (r.1.offset, cryptoData fr.start r.1)

/-- What the CRYPTO frames of a payload carry. -/
def cryptoPieces (pl : List UInt8) : List Piece := (framewalk pl).1.filterMap pieceOf

/-- The piece lies in the buffer. -/
def fits (cap : Nat) (p : Piece) : Bool := p.1 + p.2.length ≤ cap

/-- The piece has the byte. -/
def covers (p : Piece) (i : Nat) : Bool := p.1 ≤ i && i < p.1 + p.2.length

def keptPieces (cap : Nat) (pl : List UInt8) : List Piece := (cryptoPieces pl).takeWhile (fits cap)

/-- Every piece of the payload fits. -/
def clean (cap : Nat) (pl : List UInt8) : Bool := (cryptoPieces pl).all (fits cap)

/-- Some payload has the byte before its first piece that does not fit. -/
def received (cap : Nat) (pls : List (List UInt8)) (i : Nat) : Bool :=
  pls.any fun pl => (keptPieces cap pl).any (covers · i)

/-- Every frame that lies in the buffer carries the bytes of the stream. -/
def CarriesStream (stream : List UInt8) (cap : Nat) (pl : List UInt8) : Prop :=
  ∀ p ∈ cryptoPieces pl, p.1 + p.2.length ≤ cap → p.2 <+: stream.drop p.1
deriving Decidable

variable {cap i off : Nat} {pl : List UInt8} {pls : List (List UInt8)}

theorem keptPieces_of_clean (h : clean cap pl = true) : keptPieces cap pl = cryptoPieces pl :=
  takeWhile_eq_self_iff.mpr (all_eq_true.mp h)

/-- A CRYPTO frame that the walker has measured can be decoded. -/
theorem exists_frameGetCrypto {fr : FramewalkItem} (h : fr ∈ (framewalk pl).1)
    (htype : fr.type = frameCrypto) : ∃ f n, frameGetCrypto fr.start = some (f, n) := by
  obtain ⟨len, hm⟩ := measureFrame_of_mem h
  have hlen := (measureFrame_spec hm).2.1
  have hkind : frameClassify frameCrypto = .crypto := rfl
  rw [htype, frameLen_of_decoder rfl, hkind] at hlen
  obtain ⟨⟨f, n⟩, hf, -⟩ := Option.map_eq_some_iff.mp hlen
  exact ⟨f, n, hf⟩

/-! ## One packet -/

variable {p : Piece}

theorem covers_iff : covers p i = true ↔ p.1 ≤ i ∧ i < p.1 + p.2.length := by
  rw [covers, Bool.and_eq_true, decide_eq_true_eq, decide_eq_true_eq]

theorem fits_iff : fits cap p = true ↔ p.1 + p.2.length ≤ cap :=
  decide_eq_true_iff

theorem cryptoData_length {body : List UInt8} {f : CryptoFrame} {n : Nat}
    (h : frameGetCrypto body = some (f, n)) : (cryptoData body f).length = f.length := by
  obtain ⟨r, -, hview⟩ := Option.bind_eq_some_iff.mp h
  obtain ⟨e, he, hf⟩ := Option.map_eq_some_iff.mp hview
  obtain ⟨rfl, rfl⟩ := Prod.mk.inj hf
  have hend := frameViewEnd_eq_some he
  rw [cryptoData, length_take, length_drop]
  dsimp only
  omega

/-- The loop leaves the data in the buffer and its marks behind it. -/
theorem placeLoop_apply (mem : Nat → UInt8) {xs : List UInt8} (hfit : off + xs.length ≤ cap)
    (i : Nat) :
    (i < cap → placeLoop cap mem off xs i = writeCells mem off xs i) ∧
      placeLoop cap mem off xs (cap + i) = if covers (off, xs) i then 1 else mem (cap + i) := by
  induction xs generalizing mem off with
  | nil =>
    refine ⟨fun _ => rfl, ?_⟩
    rw [if_neg]
    · rfl
    · rw [covers_iff]
      dsimp only [length_nil]
      omega
  | cons x xs ih =>
    rw [length_cons] at hfit
    obtain ⟨hdata, hmark⟩ :=
      ih (Function.update (Function.update mem off x) (cap + off) 1) (by omega : off + 1 + _ ≤ cap)
    refine ⟨fun hi => ?_, ?_⟩
    · have hne : i ≠ cap + off := by omega
      rw [placeLoop, hdata hi, writeCells, writeCells_apply, writeCells_apply,
        Function.update_of_ne hne]
    · rw [placeLoop, hmark]
      by_cases hi : i = off
      · rw [hi, Function.update_self, ite_self, if_pos]
        rw [covers_iff, length_cons]
        omega
      · have hne : cap + i ≠ cap + off := by omega
        have hne' : cap + i ≠ off := by omega
        have hiff : covers (off + 1, xs) i = true ↔ covers (off, x :: xs) i = true := by
          rw [covers_iff, covers_iff, length_cons]
          dsimp only
          omega
        rw [Function.update_of_ne hne, Function.update_of_ne hne']
        simp only [hiff]

def placeAll (cap : Nat) (mem : Nat → UInt8) (ps : List Piece) : Nat → UInt8 :=
  ps.foldl (fun mem p => placeLoop cap mem p.1 p.2) mem

theorem collectLoop_eq (s : Crecv) {items : List FramewalkItem}
    (hdec : ∀ fr ∈ items, fr.type = frameCrypto → ∃ f n, frameGetCrypto fr.start = some (f, n)) :
    collectLoop s items =
      if (items.filterMap pieceOf).all (fits s.cap) then
        (advancePrefix { s with
          mem := placeAll s.cap s.mem ((items.filterMap pieceOf).takeWhile (fits s.cap)) }, true)
      else
        ({ s with
          mem := placeAll s.cap s.mem ((items.filterMap pieceOf).takeWhile (fits s.cap))
          overflow := true }, false) := by
  induction items generalizing s with
  | nil => rfl
  | cons fr rest ih =>
    have ih := fun s => ih s fun fr' h => hdec fr' (mem_cons_of_mem _ h)
    by_cases htype : fr.type = frameCrypto
    · obtain ⟨f, n, hf⟩ := hdec fr mem_cons_self htype
      have hlen := cryptoData_length hf
      have hpiece : pieceOf fr = some (f.offset, cryptoData fr.start f) := by
        rw [pieceOf, if_neg (not_not.mpr htype), hf]
        rfl
      have hfits : fits s.cap (f.offset, cryptoData fr.start f) = true ↔
          f.offset + (cryptoData fr.start f).length ≤ s.cap := fits_iff
      have hframe : onFrame s fr = place s fr.start f := by
        rw [onFrame, if_neg (not_not.mpr htype), takeCrypto, hf]
      rw [hlen] at hfits
      rw [filterMap_cons_some hpiece, all_cons]
      by_cases hin : f.offset + f.length ≤ s.cap
      · rw [place, if_neg (Nat.not_lt.mpr hin)] at hframe
        rw [collectLoop, hframe, takeWhile_cons_of_pos (hfits.mpr hin), hfits.mpr hin,
          Bool.true_and]
        exact ih _
      · have hout : fits s.cap (f.offset, cryptoData fr.start f) = false := by
          rw [← Bool.not_eq_true, hfits]
          exact hin
        rw [place, if_pos (Nat.lt_of_not_le hin)] at hframe
        rw [collectLoop, hframe,
          takeWhile_cons_of_neg (by rw [hout]; exact Bool.false_ne_true), hout]
        rfl
    · have hpiece : pieceOf fr = none := if_pos htype
      rw [filterMap_cons_none hpiece, collectLoop, onFrame, if_pos htype]
      exact ih s

theorem crecvCollect_eq (s : Crecv) (pl : List UInt8) :
    (crecvCollect s pl).1 =
      if clean s.cap pl then
        advancePrefix { s with mem := placeAll s.cap s.mem (keptPieces s.cap pl) }
      else { s with mem := placeAll s.cap s.mem (keptPieces s.cap pl), overflow := true } := by
  rw [crecvCollect, collectLoop_eq s fun fr h => exists_frameGetCrypto h, clean, keptPieces,
    cryptoPieces]
  split <;> rfl

/-! ## Runs -/

def crecvRun (mem : Nat → UInt8) (cap : Nat) (pls : List (List UInt8)) : Crecv :=
  pls.foldl (fun s pl => (crecvCollect s pl).1) (crecvInit mem cap)

/-- Before there is a connection, the packets that can be opened are collected. -/
theorem srvbootAccTake_run (mem : Nat → UInt8) (cap : Nat) {a : SrvbootAcc}
    (ha : a.cr = crecvInit mem cap) (pkts : List (Option (List UInt8 × Nat))) :
    (pkts.foldl (fun a pkt => (srvbootAccTake a pkt).1) a).cr =
      crecvRun mem cap (pkts.filterMap (Option.map Prod.fst)) := by
  rw [crecvRun, ← ha]
  clear ha
  induction pkts generalizing a with
  | nil => rfl
  | cons pkt pkts ih => cases pkt <;> exact ih

/-- The packets up to the last one of which no frame reaches beyond the buffer. -/
def upToClean (cap : Nat) (pls : List (List UInt8)) : List (List UInt8) :=
  pls.rdropWhile fun pl => !clean cap pl

variable {ps : List Piece}

section

variable {stream : List UInt8}

theorem placeAll_mark (mem : Nat → UInt8) (hfit : ∀ p ∈ ps, fits cap p = true) (i : Nat) :
    (placeAll cap mem ps (cap + i) != 0) = (mem (cap + i) != 0 || ps.any (covers · i)) := by
  induction ps generalizing mem with
  | nil => rw [any_nil, Bool.or_false]; rfl
  | cons p ps ih =>
    have hp := (placeLoop_apply mem (fits_iff.mp (hfit p mem_cons_self)) i).2
    rw [placeAll, foldl_cons, ← placeAll, ih _ fun q hq => hfit q (mem_cons_of_mem _ hq),
      hp, any_cons]
    cases covers p i with
    | true => rw [if_pos rfl, Bool.true_or, Bool.or_true]; rfl
    | false => rw [if_neg Bool.false_ne_true, Bool.false_or]

theorem placeAll_holds {mem : Nat → UInt8} (hfit : ∀ p ∈ ps, fits cap p = true)
    (hcarry : ∀ p ∈ ps, p.2 <+: stream.drop p.1)
    (h : WindowHolds stream 0 cap mem fun i => mem (cap + i) != 0) :
    WindowHolds stream 0 cap (placeAll cap mem ps) fun i => placeAll cap mem ps (cap + i) != 0 := by
  induction ps generalizing mem with
  | nil => exact h
  | cons p ps ih =>
    have hloop := placeLoop_apply mem (fits_iff.mp (hfit p mem_cons_self))
    refine ih (fun q hq => hfit q (mem_cons_of_mem _ hq))
      (fun q hq => hcarry q (mem_cons_of_mem _ hq)) ?_
    -- the loop is a copy to the buffer and one to the marks
    have hwrite : WindowHolds stream 0 cap (writeCells mem p.1 p.2)
        fun i => placeLoop cap mem p.1 p.2 (cap + i) != 0 := by
      refine h.write (fun j x hx => ?_) fun i _ hm => ?_
      · obtain ⟨more, hmore⟩ := hcarry p mem_cons_self
        rw [zero_add, ← getElem?_drop, ← hmore,
          getElem?_append_left (List.getElem?_eq_some_iff.mp hx).1, hx]
      · rw [(hloop i).2] at hm
        by_cases hc : covers p i = true
        · exact .inr (covers_iff.mp hc)
        · rw [if_neg hc] at hm
          exact .inl hm
    intro i hi hm
    change _ = some (placeLoop cap mem p.1 p.2 i)
    rw [(hloop i).1 hi]
    exact hwrite i hi hm

end

/-- The buffer after some payloads. -/
structure Collected (stream : List UInt8) (cap : Nat) (pls : List (List UInt8)) (s : Crecv) :
    Prop where
  cap_eq : s.cap = cap
  mark_eq : ∀ i < cap, s.mark i = received cap pls i
  holds : WindowHolds stream 0 cap s.mem s.mark
  receivedTo_eq : s.receivedTo = leading (received cap (upToClean cap pls)) cap
  overflow_iff : s.overflow = true ↔ ∃ pl ∈ pls, clean cap pl = false

theorem received_append (cap : Nat) (pls : List (List UInt8)) (pl : List UInt8) (i : Nat) :
    received cap (pls ++ [pl]) i =
      (received cap pls i || (keptPieces cap pl).any (covers · i)) := by
  rw [received, any_append, any_cons, any_nil, Bool.or_false, received]

/-- The packets that count for the contiguous length are among those that have arrived. -/
theorem received_of_upToClean (h : received cap (upToClean cap pls) i = true) :
    received cap pls i = true := by
  obtain ⟨pl, hmem, hpl⟩ := any_eq_true.mp h
  exact any_eq_true.mpr ⟨pl, (List.rdropWhile_prefix _ _).subset hmem, hpl⟩

theorem collected_init (stream : List UInt8) (mem : Nat → UInt8) (cap : Nat) :
    Collected stream cap [] (crecvInit mem cap) := by
  have hmark : ∀ i < cap, (crecvInit mem cap).mark i = false := fun i hi => by
    rw [Crecv.mark, crecvInit]
    dsimp only
    rw [if_pos (by omega)]
    rfl
  refine ⟨rfl, hmark, fun i hi hm => ?_, ?_, ?_⟩
  · rw [hmark i hi] at hm
    cases hm
  · exact (leading_eq zero_le (fun i hi => absurd hi (Nat.not_lt_zero i))
      fun _ => rfl).symm
  · exact iff_of_false Bool.false_ne_true fun ⟨_, h, _⟩ => absurd h not_mem_nil

variable {stream : List UInt8} {s : Crecv}

theorem Collected.step (h : Collected stream cap pls s) (hpl : CarriesStream stream cap pl) :
    Collected stream cap (pls ++ [pl]) (crecvCollect s pl).1 := by
  obtain rfl := h.cap_eq
  have hfit : ∀ p ∈ keptPieces s.cap pl, fits s.cap p = true := fun p hp => mem_takeWhile_imp hp
  have hcarry : ∀ p ∈ keptPieces s.cap pl, p.2 <+: stream.drop p.1 := fun p hp =>
    hpl p ((List.takeWhile_prefix _).subset hp) (fits_iff.mp (hfit p hp))
  -- the marks after the pieces that are kept, whatever becomes of the counters
  have hmark : ∀ i < s.cap, (placeAll s.cap s.mem (keptPieces s.cap pl) (s.cap + i) != 0) =
      received s.cap (pls ++ [pl]) i := fun i hi => by
    have hold : (s.mem (s.cap + i) != 0) = received s.cap pls i := h.mark_eq i hi
    rw [placeAll_mark _ hfit, hold, received_append]
  have hholds := placeAll_holds hfit hcarry h.holds
  rw [crecvCollect_eq]
  by_cases hclean : clean s.cap pl = true
  · rw [if_pos hclean]
    refine ⟨rfl, hmark, hholds, ?_, ?_⟩
    · have hle : s.receivedTo ≤ s.cap := by
        rw [h.receivedTo_eq]
        exact leading_le _ _
      have hup : upToClean s.cap (pls ++ [pl]) = pls ++ [pl] :=
        rdropWhile_concat_neg _ _ _ (by rw [hclean]; exact Bool.false_ne_true)
      rw [hup]
      refine (leadingFrom_eq_leading hle fun i hi => ?_).trans (leading_congr hmark)
      rw [h.receivedTo_eq] at hi
      have hrec := received_of_upToClean (mark_of_lt_leading hi)
      refine (hmark i (hi.trans_le (leading_le _ _))).trans ?_
      rw [received_append, hrec, Bool.true_or]
    · refine h.overflow_iff.trans ?_
      simp [or_and_right, exists_or, hclean]
  · have hclean : clean s.cap pl = false := Bool.eq_false_iff.mpr hclean
    rw [if_neg (by rw [hclean]; exact Bool.false_ne_true)]
    refine ⟨rfl, hmark, hholds, ?_, ?_⟩
    · have hup : upToClean s.cap (pls ++ [pl]) = upToClean s.cap pls :=
        rdropWhile_concat_pos _ _ _ (by rw [hclean]; rfl)
      rw [hup]
      exact h.receivedTo_eq
    · exact iff_of_true rfl ⟨pl, mem_append_right _ mem_cons_self, hclean⟩

theorem crecvRun_collected (mem : Nat → UInt8) (h : ∀ pl ∈ pls, CarriesStream stream cap pl) :
    Collected stream cap pls (crecvRun mem cap pls) := by
  induction pls using List.reverseRecOn with
  | nil => exact collected_init stream mem cap
  | append_singleton pls pl ih =>
    rw [crecvRun, foldl_append]
    exact (ih fun pl' h' => h pl' (mem_append_left _ h')).step
      (h pl (mem_append_right _ mem_cons_self))

theorem serverSrvCollect_aborts {s : ServerCrypto} (h : clean s.crecv.cap pl = false) :
    (serverSrvCollect s pl).1.hsAborted = true ∧
      (serverSrvCollect s pl).1.hsError = some .cryptoBufferExceeded := by
  have hout : ¬ (cryptoPieces pl).all (fits s.crecv.cap) = true := by
    rw [← clean, h]
    exact Bool.false_ne_true
  have hcollect := collectLoop_eq s.crecv fun fr (hfr : fr ∈ (framewalk pl).1) =>
    exists_frameGetCrypto hfr
  rw [← cryptoPieces, if_neg hout] at hcollect
  rw [serverSrvCollect, crecvCollect, hcollect]
  exact ⟨rfl, rfl⟩

/-! ## Messages -/

/-- A handshake message: its type, the length of its body in three bytes, and the body. -/
def IsMessage (msg : List UInt8) : Prop :=
  ∃ (type b1 b2 b3 : UInt8) (body : List UInt8), msg = type :: b1 :: b2 :: b3 :: body ∧
    body.length = b1.toNat * 2 ^ 16 + b2.toNat * 2 ^ 8 + b3.toNat

theorem msgTotal_eq (b : Nat → UInt8) :
    msgTotal b = 4 + ((b 1).toNat * 2 ^ 16 + (b 2).toNat * 2 ^ 8 + (b 3).toNat) := by
  have h2 := (b 2).toNat_lt
  have h3 := (b 3).toNat_lt
  have hlow : (b 2).toNat * 2 ^ 8 ||| (b 3).toNat = (b 3).toNat + (b 2).toNat * 2 ^ 8 := by
    rw [Nat.or_comm, or_shl (by omega)]
  have hhigh : (b 1).toNat * 2 ^ 16 ||| ((b 3).toNat + (b 2).toNat * 2 ^ 8) =
      (b 3).toNat + (b 2).toNat * 2 ^ 8 + (b 1).toNat * 2 ^ 16 := by
    rw [Nat.or_comm, or_shl (by omega)]
  rw [msgTotal, Nat.or_assoc, hlow, hhigh]
  omega

/-- The length that the code reads is that of the message as soon as its header has arrived. -/
theorem crecvCompleteMessageAt_iff (hbytes : ∀ i < s.receivedTo, stream[i]? = some (s.mem i))
    {msg rest : List UInt8} (hmsg : stream.drop off = msg ++ rest) (h : IsMessage msg) :
    crecvCompleteMessageAt s off = true ↔ off + msg.length ≤ s.receivedTo := by
  obtain ⟨type, b1, b2, b3, body, rfl, hbody⟩ := h
  simp only [length_cons]
  rw [crecvCompleteMessageAt]
  split
  · exact iff_of_false Bool.false_ne_true (by omega)
  · have hread : ∀ i < 4, ∀ x, (stream.drop off)[i]? = some x → s.mem (off + i) = x := by
      intro i hi x hx
      rw [getElem?_drop, hbytes _ (by omega)] at hx
      exact Option.some.inj hx
    rw [hmsg] at hread
    rw [decide_eq_true_iff, msgTotal_eq, hread 1 (by omega) b1 rfl, hread 2 (by omega) b2 rfl,
      hread 3 (by omega) b3 rfl]
    omega

/-! ## The results -/

/-- The length of the longest prefix of which every byte was received. -/
def LongestPrefix (cap : Nat) (got : Nat → Bool) (n : Nat) : Prop :=
  IsGreatest {n | n ≤ cap ∧ ∀ i < n, got i = true} n

theorem longestPrefix_leading (cap : Nat) (got : Nat → Bool) :
    LongestPrefix cap got (leading got cap) :=
  ⟨⟨leading_le _ _, fun _ hi => mark_of_lt_leading hi⟩, fun _ hn => le_leading hn.1 hn.2⟩

theorem upToClean_of_clean (h : ∀ pl ∈ pls, clean cap pl = true) : upToClean cap pls = pls := by
  rw [upToClean, rdropWhile_eq_self_iff]
  intro hne
  rw [h _ (getLast_mem hne)]
  exact Bool.false_ne_true

theorem received_of_clean (h : ∀ pl ∈ pls, clean cap pl = true) (i : Nat) :
    received cap pls i = pls.any fun pl => (cryptoPieces pl).any (covers · i) := by
  rw [received, Bool.eq_iff_iff, any_eq_true, any_eq_true]
  refine exists_congr fun pl => and_congr_right fun hmem => ?_
  rw [keptPieces_of_clean (h pl hmem)]

/-- After any packets whose frames carry a stream, in any order and cut in any way, with frames in
any place among them that reach beyond the buffer: the contiguous length is that of the longest
prefix received by the packets up to the last clean one, the bytes below it are the stream's, and
the messages that are in it are the complete ones. While every packet is clean these are all the
packets and all their frames. Once one is not, both owners close the connection. -/
theorem crecvRun_spec {stream : List UInt8} {cap : Nat} (mem : Nat → UInt8)
    {pls : List (List UInt8)} (h : ∀ pl ∈ pls, CarriesStream stream cap pl) :
    LongestPrefix cap (received cap (upToClean cap pls)) (crecvRun mem cap pls).receivedTo ∧
    (∀ i < (crecvRun mem cap pls).receivedTo, stream[i]? = some ((crecvRun mem cap pls).mem i)) ∧
    (∀ off msg rest, stream.drop off = msg ++ rest → IsMessage msg →
      (crecvCompleteMessageAt (crecvRun mem cap pls) off = true ↔
        off + msg.length ≤ (crecvRun mem cap pls).receivedTo)) ∧
    ((∀ pl ∈ pls, clean cap pl = true) →
      LongestPrefix cap (fun i => pls.any fun pl => (cryptoPieces pl).any (covers · i))
        (crecvRun mem cap pls).receivedTo) ∧
    ((∃ pl ∈ pls, clean cap pl = false) → ∀ a : SrvbootAcc, a.cr = crecvRun mem cap pls →
      srvrunBootCryptoError a = some .cryptoBufferExceeded) ∧
    (∀ (s : ServerCrypto) (pl : List UInt8), s.crecv = crecvRun mem cap pls →
      clean cap pl = false → (serverSrvCollect s pl).1.hsAborted = true ∧
        (serverSrvCollect s pl).1.hsError = some .cryptoBufferExceeded) := by
  have hrun := crecvRun_collected mem h
  have hbytes : ∀ i < (crecvRun mem cap pls).receivedTo,
      stream[i]? = some ((crecvRun mem cap pls).mem i) := by
    intro i hi
    rw [hrun.receivedTo_eq] at hi
    have hlt : i < cap := hi.trans_le (leading_le _ _)
    have hmark := received_of_upToClean (mark_of_lt_leading hi)
    have hcell := hrun.holds i hlt ((hrun.mark_eq i hlt).trans hmark)
    rwa [zero_add] at hcell
  have hlongest := longestPrefix_leading cap (received cap (upToClean cap pls))
  rw [← hrun.receivedTo_eq] at hlongest
  refine ⟨hlongest, hbytes, fun off msg rest hmsg his =>
    crecvCompleteMessageAt_iff hbytes hmsg his, fun hclean => ?_, fun hout a ha => ?_,
    fun s pl hs hout => ?_⟩
  · rw [upToClean_of_clean hclean, funext (received_of_clean hclean)] at hlongest
    exact hlongest
  · rw [srvrunBootCryptoError, ha, if_pos (hrun.overflow_iff.mpr hout)]
  · exact serverSrvCollect_aborts (by rw [hs, hrun.cap_eq]; exact hout)

/-- A message in two packets, of which the second arrives first. -/
theorem crecvRun_spec_reordered :
    crecvCompleteMessageAt (crecvRun (fun _ => 0) 16
      [[0x06, 0x03, 0x02, 0x01, 0xaa], [0x06, 0x00, 0x03, 0x01, 0x00, 0x00]]) 0 = true := by
  have hcarry : ∀ pl ∈ [[0x06, 0x03, 0x02, 0x01, 0xaa], [0x06, 0x00, 0x03, 0x01, 0x00, 0x00]],
      CarriesStream [0x01, 0x00, 0x00, 0x01, 0xaa] 16 pl := by decide
  have hmsg : IsMessage [0x01, 0x00, 0x00, 0x01, 0xaa] := ⟨1, 0, 0, 1, [0xaa], rfl, rfl⟩
  exact ((crecvRun_spec (fun _ => 0) hcarry).2.2.1 0 _ [] rfl hmsg).mpr (by decide)

/-- A packet with a frame at offset 4096, where the buffer of the Initial level ends, and behind it
the first byte of the stream. Without the first frame the byte is received. -/
theorem frame_behind_lost :
    cryptoPieces [0x06, 0x50, 0x00, 0x01, 0x07, 0x06, 0x00, 0x01, 0xaa] =
        [(4096, [0x07]), (0, [0xaa])] ∧
      (crecvRun (fun _ => 0) 4096
        [[0x06, 0x50, 0x00, 0x01, 0x07, 0x06, 0x00, 0x01, 0xaa]]).receivedTo = 0 ∧
      (crecvRun (fun _ => 0) 4096 [[0x06, 0x00, 0x01, 0xaa]]).receivedTo = 1 := by
  decide

/-! ## Packets made of frames -/

def framePutCrypto (cap : Nat) (p : Piece) : Option (List UInt8) :=
  (varintPuts cap [] [frameCrypto, p.1, p.2.length]).bind fun o =>
    if o.length + p.2.length > cap then none else some (o ++ p.2)

variable {max room : Nat} {bs : List UInt8}

/-- The type takes one byte, and the offset, the length and the data come behind it. -/
theorem framePutCrypto_eq_some (h : framePutCrypto cap p = some bs) :
    ∃ hdr, bs = 0x06 :: (hdr ++ p.2) ∧ Spelled varintDecode hdr [p.1, p.2.length] := by
  obtain ⟨o, hputs, hdata⟩ := Option.bind_eq_some_iff.mp h
  obtain ⟨o', htype, hputs⟩ := Option.bind_eq_some_iff.mp hputs
  simp only [Option.ite_none_left_eq_some, Option.some.injEq, varintPut] at hdata htype
  obtain ⟨-, rfl⟩ := hdata
  obtain ⟨-, rfl⟩ := htype
  obtain ⟨hdr, rfl, hspelled⟩ := varintPuts_eq_some hputs
  exact ⟨hdr, rfl, hspelled⟩

theorem framewalkNext_put (h : framePutCrypto cap p = some bs) (rest : List UInt8) :
    ∃ fr, framewalkNext (bs ++ rest) = some (fr, bs.length) ∧ pieceOf fr = some p := by
  obtain ⟨hdr, rfl, hspelled⟩ := framePutCrypto_eq_some h
  have htake : takeCryptoHdr (hdr ++ (p.2 ++ rest)) = some ((p.1, p.2.length), hdr.length) :=
    (takeCryptoHdr_reads _ _ _).mpr ⟨hdr, _, _, rfl, rfl, hspelled, rfl⟩
  have hget : frameGetCrypto (0x06 :: (hdr ++ p.2) ++ rest) =
      some (⟨p.1, p.2.length, hdr.length + 1⟩, (0x06 :: (hdr ++ p.2)).length) := by
    simp [frameGetCrypto, behindType, htake, frameViewEnd]
    omega
  have hframe : frameLen frameCrypto (0x06 :: (hdr ++ p.2) ++ rest) =
      some (0x06 :: (hdr ++ p.2)).length := by
    rw [frameLen_of_decoder rfl]
    exact congrArg (Option.map Prod.snd) hget
  refine ⟨⟨frameCrypto, 0x06 :: (hdr ++ p.2) ++ rest⟩, ?_, ?_⟩
  · have htype : varintDecode (0x06 :: (hdr ++ p.2) ++ rest) = some (frameCrypto, 1) := rfl
    simp only [framewalkNext, measureFrame, htype, Option.bind_some, hframe]
    simp
  · rw [pieceOf, if_neg (not_not.mpr rfl), hget]
    simp [cryptoData]

theorem cryptoPieces_put (h : framePutCrypto cap p = some bs) (rest : List UInt8) :
    cryptoPieces (bs ++ rest) = p :: cryptoPieces rest := by
  obtain ⟨fr, hnext, hpiece⟩ := framewalkNext_put h rest
  rw [cryptoPieces, framewalk, decodeAll_some framewalkNext_advances hnext,
    filterMap_cons_some hpiece, drop_left]
  rfl

/-- `p` is what is left to send, and `room` what is left of the output. -/
def cryptoStreamEmit (max room : Nat) (p : Piece) : List UInt8 × Bool :=
  if _h : max ≠ 0 ∧ p.2 ≠ [] then
    match framePutCrypto room (p.1, p.2.take max) with
    | none => ([], false)
    | some bs =>
      let r := cryptoStreamEmit max (room - bs.length) (p.1 + min p.2.length max, p.2.drop max)
      (bs ++ r.1, r.2)
  else ([], max ≠ 0)
termination_by p.2.length
decreasing_by
  have hpos := length_pos_iff.mpr _h.2
  rw [length_drop]
  omega

/-- The frames cover the bytes that they were made from, and carry no others. -/
theorem cryptoStreamEmit_pieces (hp : p.2 <+: stream.drop p.1)
    (h : (cryptoStreamEmit max room p).2 = true) :
    (∀ i, (cryptoPieces (cryptoStreamEmit max room p).1).any (covers · i) = covers p i) ∧
      ∀ q ∈ cryptoPieces (cryptoStreamEmit max room p).1,
        q.2 <+: stream.drop q.1 ∧ q.1 + q.2.length ≤ p.1 + p.2.length := by
  fun_induction cryptoStreamEmit max room p with
  | case1 => cases h
  | case2 room p _ bs hput r ih =>
    have hrest : p.2.drop max <+: stream.drop (p.1 + min p.2.length max) := by
      obtain ⟨s, hs⟩ := hp
      refine ⟨s, ?_⟩
      rw [← drop_drop, ← hs, drop_append_of_le_length (by omega)]
      exact congrArg (· ++ s) (drop_eq_drop_iff.mpr (by omega))
    obtain ⟨hcovers, hpieces⟩ := ih hrest h
    rw [cryptoPieces_put hput]
    refine ⟨fun i => ?_, forall_mem_cons.mpr ⟨⟨?_, ?_⟩, fun q hq => ?_⟩⟩
    · rw [any_cons, hcovers, Bool.eq_iff_iff, Bool.or_eq_true, covers_iff, covers_iff,
        covers_iff, length_take, length_drop]
      omega
    · exact (List.take_prefix _ _).trans hp
    · rw [length_take]
      omega
    · have hle := (hpieces q hq).2
      rw [length_drop] at hle
      exact ⟨(hpieces q hq).1, by omega⟩
  | case3 room p hgo =>
    have hnil : p.2 = [] := by_contra fun hne => hgo ⟨of_decide_eq_true h, hne⟩
    refine ⟨fun i => (Bool.eq_false_iff.mpr fun hi => ?_).symm, fun _ hq => nomatch hq⟩
    have hi := covers_iff.mp hi
    rw [hnil, length_nil] at hi
    omega

theorem Collected.stream_eq (h : Collected stream cap pls s) (hi : i < s.receivedTo) :
    stream[i]? = some (s.mem i) := by
  rw [h.receivedTo_eq] at hi
  have hlt : i < cap := hi.trans_le (leading_le _ _)
  have hcell := h.holds i hlt
    ((h.mark_eq i hlt).trans (received_of_upToClean (mark_of_lt_leading hi)))
  rwa [zero_add] at hcell

/-- Parts of a stream that fit the buffer, each cut into frames by the sender, in any order and with
repetitions: the receiver has the longest prefix that the parts cover, and its bytes. -/
theorem crecvRun_emitted {stream : List UInt8} {cap max room : Nat} (mem : Nat → UInt8)
    {parts : List Piece} (hparts : ∀ p ∈ parts, p.2 <+: stream.drop p.1 ∧ fits cap p = true)
    (hsent : ∀ p ∈ parts, (cryptoStreamEmit max room p).2 = true) :
    let r := crecvRun mem cap (parts.map fun p => (cryptoStreamEmit max room p).1)
    r.overflow = false ∧ LongestPrefix cap (fun i => parts.any (covers · i)) r.receivedTo ∧
      ∀ i < r.receivedTo, stream[i]? = some (r.mem i) := by
  intro r
  have hpieces := fun p hp => cryptoStreamEmit_pieces (hparts p hp).1 (hsent p hp)
  have hclean : ∀ pl ∈ parts.map fun p => (cryptoStreamEmit max room p).1, clean cap pl = true :=
    forall_mem_map.mpr fun p hp => all_eq_true.mpr fun q hq =>
      fits_iff.mpr (((hpieces p hp).2 q hq).2.trans (fits_iff.mp (hparts p hp).2))
  have hrun : Collected stream cap _ r := crecvRun_collected mem
    (forall_mem_map.mpr fun p hp q hq _ => ((hpieces p hp).2 q hq).1)
  refine ⟨?_, ?_, fun i => hrun.stream_eq⟩
  · rw [Bool.eq_false_iff, Ne, hrun.overflow_iff]
    rintro ⟨pl, hpl, hover⟩
    exact absurd (hclean pl hpl) (Bool.eq_false_iff.mp hover)
  · have hgot : ∀ i, received cap (parts.map fun p => (cryptoStreamEmit max room p).1) i =
        parts.any (covers · i) := fun i => by
      rw [received_of_clean hclean, any_map, Bool.eq_iff_iff, any_eq_true, any_eq_true]
      refine exists_congr fun p => and_congr_right fun hp => ?_
      rw [← (hpieces p hp).1 i]
      rfl
    rw [hrun.receivedTo_eq, upToClean_of_clean hclean, funext hgot]
    exact longestPrefix_leading _ _

/-- Two parts that overlap, in frames of at most two bytes, the later part first. -/
theorem crecvRun_emitted_reordered : (crecvRun (fun _ => 0) 8
    (([(2, [3, 4, 5]), (0, [1, 2, 3])] : List Piece).map fun p =>
      (cryptoStreamEmit 2 99 p).1)).mem 4 = 5 := by
  have hparts : ∀ p ∈ ([(2, [3, 4, 5]), (0, [1, 2, 3])] : List Piece),
      p.2 <+: [1, 2, 3, 4, 5].drop p.1 ∧ fits 8 p = true := by decide
  have hsent : ∀ p ∈ ([(2, [3, 4, 5]), (0, [1, 2, 3])] : List Piece),
      (cryptoStreamEmit 2 99 p).2 = true := by decide +kernel
  have hbytes := (crecvRun_emitted (fun _ => 0) hparts hsent).2.2
  exact (Option.some.inj (hbytes 4 (by decide +kernel))).symm

end Wired.Transport
