import Mathlib.Algebra.BigOperators.Group.Finset.Basic
import Wired.Lib.Run
import Wired.Server.ClosedSet

/-!
# Receive accounting

`finalsize.c`, `srvloop_rxacct.c` and `srvloop_rxacct_frame.c`. Every stream that the peer sends
on has an entry with the highest offset received and its final size; the growth of the highest
offsets is added up for the connection (`accounting_along`). When the table is full, an entry whose
final size is known is retired and its stream recorded as done
(`final_size_forgotten_after_retire`).
-/

namespace Wired.Server

open Lib List Function

/-! ## Final size of a stream -/

/-- What is known of the size of a stream. -/
structure FinalSize where
  highest : Nat
  finalSize : Nat
  known : Bool
deriving DecidableEq, Repr

def finalsizeInit : FinalSize where
  highest := 0
  finalSize := 0
  known := false

def noteHighest (f : FinalSize) (offset len : Nat) : FinalSize × Nat :=
  let endOff := addU64 offset len
  (if endOff > f.highest then { f with highest := endOff } else f, endOff)

/-- Data received; `false` if it is past the final size. -/
def finalsizeData (f : FinalSize) (offset len : Nat) : FinalSize × Bool :=
  let r := noteHighest f offset len
  (r.1, if !r.1.known then true else r.2 ≤ r.1.finalSize)

def sizeConsistent (f : FinalSize) (size : Nat) : Bool :=
  if f.known then size = f.finalSize else size ≥ f.highest

/-- A final size; `false` if it cannot be the one. -/
def finalsizeSet (f : FinalSize) (size : Nat) : FinalSize × Bool :=
  if !sizeConsistent f size then (f, false)
  else ({ f with finalSize := size, known := true }, true)

/-! ## The table -/

/-- The entry of a stream. -/
structure RxEntry where
  inUse : Bool
  streamId : Nat
  fs : FinalSize

def rxacctCap : Nat := 40 + 9 + 8

/-- The accounting of a connection. -/
structure RxAcct where
  rxacct : Nat → RxEntry
  /-- The retired streams, by the type of the stream. -/
  done : Nat → ClosedSet
  connBytes : Nat
  maxData : Nat

def rxacctReset : RxAcct where
  rxacct := fun _ => { inUse := false, streamId := 0, fs := finalsizeInit }
  done := fun _ => closedEmpty
  connBytes := 0
  maxData := 0

def rxacctIs (e : RxEntry) (id : Nat) : Bool := e.inUse && e.streamId = id

def rxacctFind (l : RxAcct) (id : Nat) : Option Nat :=
  (List.range rxacctCap).find? fun i => rxacctIs (l.rxacct i) id

def rxacctFreeSlot (l : RxAcct) : Option Nat :=
  (List.range rxacctCap).find? fun i => !(l.rxacct i).inUse

/-- An entry whose final size is known: its bytes are all counted. -/
def rxacctKnownSlot (l : RxAcct) : Option Nat :=
  (List.range rxacctCap).find? fun i => (l.rxacct i).fs.known

def rxacctRetire (l : RxAcct) (i : Nat) : RxAcct :=
  let id := (l.rxacct i).streamId
  { l with
    done := update l.done (id % 4) (srvloopClosedMark (l.done (id % 4)) id)
    rxacct := update l.rxacct i { l.rxacct i with inUse := false } }

/-- A free entry, else one that is retired for it. -/
def rxacctRoom (l : RxAcct) : RxAcct × Option Nat :=
  match rxacctFreeSlot l with
  | some i => (l, some i)
  | none =>
    match rxacctKnownSlot l with
    | some i => (rxacctRetire l i, some i)
    | none => (l, none)

def rxacctFresh (id : Nat) : RxEntry where
  inUse := true
  streamId := id
  fs := finalsizeInit

def rxacctClaim (l : RxAcct) (id : Nat) : RxAcct × Option Nat :=
  match rxacctRoom l with
  | (l, some i) => ({ l with rxacct := update l.rxacct i (rxacctFresh id) }, some i)
  | (l, none) => (l, none)

/-- The entry of a stream, none if it was retired or no entry is left. -/
def srvloopRxacctEntry (l : RxAcct) (id : Nat) : RxAcct × Option Nat :=
  if srvloopClosedHas (l.done (id % 4)) id then (l, none)
  else
    match rxacctFind l id with
    | some i => (l, some i)
    | none => rxacctClaim l id

def setFs (l : RxAcct) (i : Nat) (fs : FinalSize) : RxAcct :=
  { l with rxacct := update l.rxacct i { l.rxacct i with fs := fs } }

/-! ## Frames -/

/-- The frames that carry stream bytes or a final size; the numbers are variable-length
integers. -/
inductive RxFrame where
  | stream (id : Nat) (offset length : Fin (2 ^ 62)) (fin : Bool)
  | resetStream (id : Nat) (finalSize : Fin (2 ^ 62))
  | resetStreamAt (id : Nat) (finalSize : Fin (2 ^ 62))
deriving DecidableEq, Repr

def RxFrame.id : RxFrame → Nat
  | .stream id _ _ _ => id
  | .resetStream id _ => id
  | .resetStreamAt id _ => id

/-- The growth of the stream counts for the connection; `false` is a `FINAL_SIZE_ERROR`. -/
def rxacctGrow (l : RxAcct) (i offset len : Nat) : RxAcct × Bool :=
  let before := (l.rxacct i).fs.highest
  let r := finalsizeData (l.rxacct i).fs offset len
  ({ setFs l i r.1 with connBytes := addU64 l.connBytes (subU64 r.1.highest before) }, r.2)

def rxacctFin (l : RxAcct) (i endOff : Nat) (fin : Bool) : RxAcct × Bool :=
  if fin then
    let r := finalsizeSet (l.rxacct i).fs endOff
    (setFs l i r.1, r.2)
  else (l, true)

def rxacctStream (l : RxAcct) (id offset length : Nat) (fin : Bool) : RxAcct × Bool :=
  match srvloopRxacctEntry l id with
  | (l, none) => (l, true)
  | (l, some i) =>
    let g := rxacctGrow l i offset length
    if g.2 then rxacctFin g.1 i (addU64 offset length) fin else (g.1, false)

def rxacctResetStream (l : RxAcct) (id finalSize : Nat) : RxAcct × Bool :=
  match srvloopRxacctEntry l id with
  | (l, none) => (l, true)
  | (l, some i) =>
    let r := finalsizeSet (l.rxacct i).fs finalSize
    if r.2 then rxacctGrow (setFs l i r.1) i finalSize 0 else (setFs l i r.1, false)

/-- `RXACCT_BY_KIND` has no function for RESET_STREAM_AT. -/
def rxacctFrame (l : RxAcct) : RxFrame → RxAcct × Bool
  | .stream id offset length fin => rxacctStream l id offset length fin
  | .resetStream id finalSize => rxacctResetStream l id finalSize
  | .resetStreamAt _ _ => (l, true)

/-- The errors a frame can be refused with. -/
inductive RxError where
  | finalSize
  | flowControl
deriving DecidableEq, Repr

def rxacctConnError (l : RxAcct) : Option RxError :=
  if l.maxData ≠ 0 ∧ l.connBytes > l.maxData then some .flowControl else none

/-- The frames of a payload up to the first error, then the limit of the connection. -/
def srvloopRxacctPayload (l : RxAcct) : List RxFrame → RxAcct × Option RxError
  | [] => (l, rxacctConnError l)
  | f :: fs =>
    if (rxacctFrame l f).2 then srvloopRxacctPayload (rxacctFrame l f).1 fs
    else ((rxacctFrame l f).1, some .finalSize)

/-! ## What the frames of a history say -/

/-- How far a frame reaches in its stream. -/
def RxFrame.endOff : RxFrame → Nat
  | .stream _ offset length _ => offset.val + length.val
  | .resetStream _ finalSize => finalSize.val
  | .resetStreamAt _ finalSize => finalSize.val

/-- The final size that a frame gives. -/
def RxFrame.size? : RxFrame → Option Nat
  | .stream _ offset length fin => if fin then some (offset.val + length.val) else none
  | .resetStream _ finalSize => some finalSize.val
  | .resetStreamAt _ finalSize => some finalSize.val

def ofStream (id : Nat) (hist : List RxFrame) : List RxFrame := hist.filter fun f => f.id = id

/-- The highest end seen of a stream. -/
def highestSeen (hist : List RxFrame) (id : Nat) : Nat :=
  (ofStream id hist).foldl (fun n f => max n f.endOff) 0

/-- The first final size given to a stream. -/
def finalGiven (hist : List RxFrame) (id : Nat) : Option Nat :=
  (ofStream id hist).findSome? RxFrame.size?

/-- The frame is past the final size of its stream, changes it, or gives one below the data
received. -/
def Violates (hist : List RxFrame) (f : RxFrame) : Prop :=
  match finalGiven hist f.id with
  | some n => n < f.endOff ∨ ∃ m, f.size? = some m ∧ m ≠ n
  | none => ∃ m, f.size? = some m ∧ m < highestSeen hist f.id

def streamsOf (hist : List RxFrame) : Finset Nat := (hist.map RxFrame.id).toFinset

/-- The sum over all streams. -/
def totalSeen (hist : List RxFrame) : Nat := ∑ id ∈ streamsOf hist, highestSeen hist id

theorem RxFrame.endOff_lt (f : RxFrame) : f.endOff < 2 ^ 63 := by
  cases f <;> simp only [RxFrame.endOff] <;> omega

variable {f : RxFrame} {id n i : Nat}

theorem RxFrame.endOff_of_size {m : Nat} (h : f.size? = some m) : f.endOff = m := by
  cases f with
  | stream id offset length fin =>
    cases fin
    · cases h
    · simpa [RxFrame.size?, RxFrame.endOff] using h
  | resetStream | resetStreamAt => simpa [RxFrame.size?, RxFrame.endOff] using h

section

variable (hist : List RxFrame) (f : RxFrame) (id : Nat)

theorem ofStream_append :
    ofStream id (hist ++ [f]) = ofStream id hist ++ if f.id = id then [f] else [] := by
  simp [ofStream, filter_append, filter_cons]

theorem highestSeen_append :
    highestSeen (hist ++ [f]) id =
      if f.id = id then max (highestSeen hist id) f.endOff else highestSeen hist id := by
  rw [highestSeen, ofStream_append, foldl_append]
  split <;> rfl

theorem finalGiven_append :
    finalGiven (hist ++ [f]) id =
      if f.id = id then (finalGiven hist id).or f.size? else finalGiven hist id := by
  rw [finalGiven, ofStream_append, findSome?_append]
  split
  · cases h : f.size? <;> simp [finalGiven, List.findSome?, h]
  · exact Option.or_none

end

variable {hist : List RxFrame} {p : Nat → Bool}

theorem finalGiven_mono (f : RxFrame) (h : finalGiven hist id = some n) :
    finalGiven (hist ++ [f]) id = some n := by
  rw [finalGiven_append, h]
  split <;> rfl

theorem highestSeen_lt (hist : List RxFrame) (id : Nat) : highestSeen hist id < 2 ^ 63 := by
  induction hist using List.reverseRecOn with
  | nil => simp [highestSeen, ofStream]
  | append_singleton hist f ih =>
    have := f.endOff_lt
    rw [highestSeen_append]
    split <;> omega

theorem highestSeen_of_not_mem (h : id ∉ streamsOf hist) :
    highestSeen hist id = 0 ∧ finalGiven hist id = none := by
  have hnil : ofStream id hist = [] := by
    rw [ofStream, filter_eq_nil_iff]
    intro f hf hid
    apply h
    simp only [streamsOf, mem_toFinset, mem_map]
    exact ⟨f, hf, by simpa using hid⟩
  simp [highestSeen, finalGiven, hnil]

theorem streamsOf_append (hist : List RxFrame) (f : RxFrame) :
    streamsOf (hist ++ [f]) = insert f.id (streamsOf hist) := by
  ext id
  simp only [streamsOf, map_append, mem_toFinset, mem_append, Finset.mem_insert,
    map_cons, map_nil, mem_singleton]
  exact or_comm

theorem totalSeen_append (hist : List RxFrame) (f : RxFrame) :
    totalSeen (hist ++ [f]) = totalSeen hist +
      (max (highestSeen hist f.id) f.endOff - highestSeen hist f.id) := by
  have hrest : ∀ s : Finset Nat, ∑ id ∈ s.erase f.id, highestSeen (hist ++ [f]) id =
      ∑ id ∈ s.erase f.id, highestSeen hist id := by
    intro s
    apply Finset.sum_congr rfl
    intro id hid
    rw [highestSeen_append, if_neg (Finset.ne_of_mem_erase hid).symm]
  have hmem : f.id ∈ streamsOf (hist ++ [f]) := by simp [streamsOf_append]
  have hnew := Finset.add_sum_erase (streamsOf (hist ++ [f])) (highestSeen (hist ++ [f])) hmem
  have herase : (streamsOf (hist ++ [f])).erase f.id = (streamsOf hist).erase f.id := by
    rw [streamsOf_append, Finset.erase_insert_eq_erase]
  rw [herase, hrest, highestSeen_append, if_pos rfl] at hnew
  have hold : totalSeen hist = highestSeen hist f.id +
      ∑ id ∈ (streamsOf hist).erase f.id, highestSeen hist id := by
    by_cases hin : f.id ∈ streamsOf hist
    · exact (Finset.add_sum_erase _ _ hin).symm
    · rw [Finset.erase_eq_of_notMem hin, (highestSeen_of_not_mem hin).1, zero_add]
      rfl
  rw [totalSeen, ← hnew, hold]
  omega

/-! ## One entry -/

/-- RESET_STREAM_AT is not accounted for. -/
def RxFrame.accounted : RxFrame → Bool
  | .resetStreamAt _ _ => false
  | _ => true

def fsFrame (fs : FinalSize) : RxFrame → FinalSize × Bool
  | .stream _ offset length fin =>
    let d := finalsizeData fs offset length
    if d.2 then
      if fin then finalsizeSet d.1 (addU64 offset length) else (d.1, true)
    else (d.1, false)
  | .resetStream _ finalSize =>
    let r := finalsizeSet fs finalSize
    if r.2 then finalsizeData r.1 finalSize 0 else (r.1, false)
  | .resetStreamAt _ _ => (fs, true)

/-- An entry summarises the frames of its stream. -/
structure Summarises (fs : FinalSize) (hist : List RxFrame) (id : Nat) : Prop where
  highest : fs.highest = highestSeen hist id
  final : finalGiven hist id = if fs.known then some fs.finalSize else none
  complete : fs.known = true → fs.highest = fs.finalSize

theorem finalsizeData_eq {highest finalSize offset len : Nat} {known : Bool}
    (h : offset + len < 2 ^ 64) :
    finalsizeData ⟨highest, finalSize, known⟩ offset len =
      (⟨max highest (offset + len), finalSize, known⟩,
        !known || decide (offset + len ≤ finalSize)) := by
  unfold finalsizeData noteHighest
  rw [addU64_eq h]
  dsimp only
  by_cases hgt : offset + len > highest
  · rw [if_pos hgt, Nat.max_eq_right (le_of_lt hgt)]
    cases known <;> rfl
  · rw [if_neg hgt, Nat.max_eq_left (Nat.not_lt.mp hgt)]
    cases known <;> rfl

/-- Whether an entry takes a frame that ends at `endOff` and gives the final size `size`. -/
def fsAccepts (fs : FinalSize) (endOff : Nat) (size : Option Nat) : Bool :=
  if fs.known then endOff ≤ fs.finalSize && size.all (· = fs.finalSize)
  else size.all (fs.highest ≤ ·)

def fsNext (fs : FinalSize) (endOff : Nat) (size : Option Nat) : FinalSize where
  highest := max fs.highest endOff
  finalSize := if fs.known then fs.finalSize else size.getD fs.finalSize
  known := fs.known || size.isSome

theorem fsFrame_eq (fs : FinalSize) (hf : f.accounted = true)
    (hcomplete : fs.known = true → fs.highest = fs.finalSize) :
    (fsFrame fs f).2 = fsAccepts fs f.endOff f.size? ∧
      ((fsFrame fs f).2 = true → (fsFrame fs f).1 = fsNext fs f.endOff f.size?) := by
  obtain ⟨highest, finalSize, known⟩ := fs
  cases f with
  | stream id offset length fin =>
    have hlt : offset.val + length.val < 2 ^ 64 := by omega
    simp only [fsFrame, finalsizeData_eq hlt, addU64_eq hlt, RxFrame.endOff, RxFrame.size?]
    generalize offset.val + length.val = n
    cases known with
    | false =>
      cases fin with
      | false => simp [fsAccepts, fsNext]
      | true =>
        by_cases hle : highest ≤ n <;>
          simp [finalsizeSet, sizeConsistent, fsAccepts, fsNext, hle]
    | true =>
      by_cases hle : n ≤ finalSize
      · cases fin with
        | false => simp [fsAccepts, fsNext, hle]
        | true =>
          by_cases heq : n = finalSize <;>
            simp [finalsizeSet, sizeConsistent, fsAccepts, fsNext, hle, heq]
      · simp [fsAccepts, hle]
  | resetStream id size =>
    have hlt : size.val + 0 < 2 ^ 64 := by omega
    simp only [fsFrame, RxFrame.endOff, RxFrame.size?]
    cases known with
    | false =>
      by_cases hle : highest ≤ size.val <;>
        simp [finalsizeSet, sizeConsistent, fsAccepts, fsNext, hle, finalsizeData_eq hlt]
    | true =>
      by_cases heq : size.val = finalSize
      · subst heq
        simp [finalsizeSet, sizeConsistent, fsAccepts, fsNext, finalsizeData_eq hlt]
      · simp [finalsizeSet, sizeConsistent, fsAccepts, heq]
  | resetStreamAt id size => cases hf

/-- **A frame on its entry** is refused exactly when it violates the history of its stream, and
otherwise the entry goes on to summarise it. -/
theorem fsFrame_spec {fs : FinalSize} (h : Summarises fs hist f.id) (hf : f.accounted = true) :
    ((fsFrame fs f).2 = false ↔ Violates hist f) ∧
      ((fsFrame fs f).2 = true → Summarises (fsFrame fs f).1 (hist ++ [f]) f.id) := by
  obtain ⟨hok, hnext⟩ := fsFrame_eq fs hf h.complete
  have hsize := @RxFrame.endOff_of_size f
  have hfinal := finalGiven_append hist f f.id
  rw [h.final, if_pos rfl] at hfinal
  constructor
  · rw [hok, Violates, h.final, ← h.highest, fsAccepts]
    cases hk : fs.known with
    | true =>
      cases hs : f.size? with
      | none => simp
      | some m =>
        simp only [if_true, Option.all_some, Bool.and_eq_false_iff, decide_eq_false_iff_not,
          Option.some.injEq, exists_eq_left', not_le]
    | false =>
      cases hs : f.size? with
      | none => simp
      | some m => simp
  · intro htrue
    rw [hnext htrue]
    rw [hok, fsAccepts] at htrue
    constructor
    · rw [highestSeen_append, if_pos rfl, ← h.highest, fsNext]
    · rw [hfinal, fsNext]
      cases hk : fs.known with
      | true => simp
      | false => cases hs : f.size? <;> simp
    · intro hknown
      simp only [fsNext] at hknown ⊢
      cases hk : fs.known with
      | true =>
        have hc := h.complete hk
        simp only [hk, if_true, Bool.and_eq_true, decide_eq_true_eq] at htrue ⊢
        omega
      | false =>
        obtain ⟨m, hm⟩ := Option.isSome_iff_exists.mp (by simpa [hk] using hknown)
        have hend := hsize hm
        simp only [hk, Bool.false_eq_true, if_false, hm, Option.all_some, decide_eq_true_eq,
          Option.getD_some] at htrue ⊢
        omega

/-! ## The table and its history -/

/-- The accounting, the frames accounted for, and the streams whose entries were retired. -/
structure RxTrace where
  l : RxAcct
  hist : List RxFrame
  retired : List Nat

def rxTraceReset : RxTrace where
  l := rxacctReset
  hist := []
  retired := []

def retiredFor (l : RxAcct) (id : Nat) : List Nat :=
  if srvloopClosedHas (l.done (id % 4)) id || (rxacctFind l id).isSome ||
      (rxacctFreeSlot l).isSome then []
  else (rxacctKnownSlot l).toList.map fun i => (l.rxacct i).streamId

/-- There is an entry for the stream, or one can be taken. -/
def hasEntry (l : RxAcct) (id : Nat) : Bool := (srvloopRxacctEntry l id).2.isSome

def rxStep (t : RxTrace) (f : RxFrame) : RxTrace where
  l := (rxacctFrame t.l f).1
  hist := if hasEntry t.l f.id then t.hist ++ [f] else t.hist
  retired := t.retired ++ retiredFor t.l f.id

/-- The frame is STREAM or RESET_STREAM and raises no error. -/
def NoError (t : RxTrace) (f : RxFrame) : Prop :=
  f.accounted = true ∧ (rxacctFrame t.l f).2 = true
deriving Decidable

/-- The invariant of the accounting. -/
structure Accounts (l : RxAcct) (hist : List RxFrame) (retired : List Nat) : Prop where
  entry : ∀ i < rxacctCap, (l.rxacct i).inUse = true →
    Summarises (l.rxacct i).fs hist (l.rxacct i).streamId
  unique : ∀ i < rxacctCap, ∀ j < rxacctCap, (l.rxacct i).inUse = true →
    (l.rxacct j).inUse = true → (l.rxacct i).streamId = (l.rxacct j).streamId → i = j
  covered : ∀ id ∈ streamsOf hist,
    (∃ i < rxacctCap, (l.rxacct i).inUse = true ∧ (l.rxacct i).streamId = id) ∨
      srvloopClosedHas (l.done (id % 4)) id = true
  bytes : l.connBytes = totalSeen hist % 2 ^ 64
  closed : ∀ id, srvloopClosedHas (l.done (id % 4)) id = true →
    id / 4 < (l.done (id % 4)).floor ∨ id ∈ retired
  complete : ∀ id n, finalGiven hist id = some n → highestSeen hist id = n
  agreed : ∀ f ∈ hist, ∀ m, f.size? = some m → finalGiven hist f.id = some m
  retired_final : ∀ id ∈ retired, ∃ n, finalGiven hist id = some n

theorem accounts_reset : Accounts rxacctReset [] [] where
  entry := fun i _ h => by simp [rxacctReset] at h
  unique := fun i _ j _ h => by simp [rxacctReset] at h
  covered := fun id h => by simp [streamsOf] at h
  bytes := rfl
  closed := fun id h => by
    simp only [srvloopClosedHas, closedIndex, rxacctReset, closedEmpty, closedBit_eq] at h
    simp at h
  complete := fun id n h => by simp [finalGiven, ofStream] at h
  agreed := fun f h => by simp at h
  retired_final := fun id h => by simp at h

theorem find_range_some (h : (List.range n).find? p = some i) : i < n ∧ p i = true :=
  ⟨mem_range.mp (mem_of_find?_eq_some h), find?_some h⟩

theorem find_range_none (h : (List.range n).find? p = none) (hi : i < n) : p i = false := by
  simpa using find?_eq_none.mp h i (mem_range.mpr hi)

section

variable {l : RxAcct} {hist : List RxFrame} {retired : List Nat}

/-- The accounting after a frame on entry `i`. -/
def afterFrame (l : RxAcct) (i : Nat) (f : RxFrame) : RxAcct :=
  { setFs l i (fsFrame (l.rxacct i).fs f).1 with
    connBytes := addU64 l.connBytes
      (subU64 (fsFrame (l.rxacct i).fs f).1.highest (l.rxacct i).fs.highest) }

theorem setFs_setFs (l : RxAcct) (i : Nat) (fs fs' : FinalSize) :
    setFs (setFs l i fs) i fs' = setFs l i fs' := by
  simp [setFs, update_self]

theorem setFs_fs (l : RxAcct) (i : Nat) (fs : FinalSize) : ((setFs l i fs).rxacct i).fs = fs := by
  simp [setFs, update_self]

theorem finalsizeSet_highest (fs : FinalSize) (size : Nat) :
    (finalsizeSet fs size).1.highest = fs.highest := by
  unfold finalsizeSet
  split <;> rfl

theorem rxacctFrame_eq (l : RxAcct) (hf : f.accounted = true) :
    (∀ i, (srvloopRxacctEntry l f.id).2 = some i →
      (rxacctFrame l f).2 = (fsFrame ((srvloopRxacctEntry l f.id).1.rxacct i).fs f).2 ∧
        ((rxacctFrame l f).2 = true →
          (rxacctFrame l f).1 = afterFrame (srvloopRxacctEntry l f.id).1 i f)) ∧
      ((srvloopRxacctEntry l f.id).2 = none →
        rxacctFrame l f = ((srvloopRxacctEntry l f.id).1, true)) := by
  cases f with
  | stream id offset length fin =>
    simp only [RxFrame.id, rxacctFrame, rxacctStream]
    obtain ⟨l', e⟩ := srvloopRxacctEntry l id
    cases e with
    | none => exact ⟨fun i hi => (by cases hi), fun _ => rfl⟩
    | some i =>
      refine ⟨?_, fun hn => (by cases hn)⟩
      intro j hj
      cases hj
      simp only [rxacctGrow, rxacctFin, fsFrame, afterFrame]
      by_cases hd : (finalsizeData (l'.rxacct i).fs offset length).2 = true
      · cases fin with
        | false => simp [hd]
        | true =>
          simp only [hd, if_true, setFs_fs, finalsizeSet_highest]
          exact ⟨trivial, fun _ => by simp [setFs, update_self]⟩
      · simp [hd]
  | resetStream id size =>
    simp only [RxFrame.id, rxacctFrame, rxacctResetStream]
    obtain ⟨l', e⟩ := srvloopRxacctEntry l id
    cases e with
    | none => exact ⟨fun i hi => (by cases hi), fun _ => rfl⟩
    | some i =>
      refine ⟨?_, fun hn => (by cases hn)⟩
      intro j hj
      cases hj
      simp only [rxacctGrow, fsFrame, afterFrame]
      by_cases hs : (finalsizeSet (l'.rxacct i).fs size).2 = true
      · simp only [hs, if_true, setFs_fs, finalsizeSet_highest, setFs_setFs]
        exact ⟨trivial, fun _ => rfl⟩
      · simp [hs]
  | resetStreamAt id size => cases hf

section

variable (h : Accounts l hist retired)
include h

/-- The streams of the entries stay distinct if the new entry is of another stream than the rest. -/
theorem unique_update {e : RxEntry}
    (he : e.inUse = true → ∀ j < rxacctCap, j ≠ i → (l.rxacct j).inUse = true →
      (l.rxacct j).streamId ≠ e.streamId) :
    ∀ j < rxacctCap, ∀ k < rxacctCap, (update l.rxacct i e j).inUse = true →
      (update l.rxacct i e k).inUse = true →
      (update l.rxacct i e j).streamId = (update l.rxacct i e k).streamId →
      j = k := by
  intro j hj k hk
  by_cases hji : j = i <;> by_cases hki : k = i
  · exact fun _ _ _ => hji.trans hki.symm
  · subst hji
    rw [update_self, update_of_ne hki]
    exact fun hju hku hs => absurd hs.symm (he hju k hk hki hku)
  · subst hki
    rw [update_self, update_of_ne hji]
    exact fun hju hku hs => absurd hs (he hku j hj hji hju)
  · rw [update_of_ne hji, update_of_ne hki]
    exact h.unique j hj k hk

theorem accounts_retire (hi : i < rxacctCap)
    (huse : (l.rxacct i).inUse = true) (hknown : (l.rxacct i).fs.known = true) :
    Accounts (rxacctRetire l i) hist (retired ++ [(l.rxacct i).streamId]) := by
  obtain ⟨hfloor, hself, hkeep, hnew⟩ :=
    srvloopClosedMark_spec (l.done ((l.rxacct i).streamId % 4)) (l.rxacct i).streamId
  have hdone : ∀ id, srvloopClosedHas (l.done (id % 4)) id = true →
      srvloopClosedHas ((rxacctRetire l i).done (id % 4)) id = true := by
    intro id hid
    simp only [rxacctRetire, update_apply]
    split
    · rename_i hc
      exact hkeep _ (hc ▸ hid)
    · exact hid
  refine { h with
    entry := ?_, unique := unique_update h fun hu => ?_, covered := ?_, closed := ?_,
    retired_final := ?_ }
  · refine (forall_update_iff l.rxacct fun j e => j < rxacctCap → e.inUse = true →
      Summarises e.fs hist e.streamId).mpr ⟨fun _ hu => ?_, fun j _ => h.entry j⟩
    cases hu
  · cases hu
  · intro id hid
    by_cases hs : id = (l.rxacct i).streamId
    · subst hs
      refine .inr ?_
      simp only [rxacctRetire, update_self]
      exact hself
    · rcases h.covered id hid with ⟨j, hj, hju, hjs⟩ | hc
      · have hne : j ≠ i := fun he => hs (by rw [← hjs, he])
        refine .inl ⟨j, hj, ?_⟩
        simp only [rxacctRetire, update_of_ne hne]
        exact ⟨hju, hjs⟩
      · exact .inr (hdone id hc)
  · intro id hid
    simp only [rxacctRetire, update_apply] at hid ⊢
    rw [mem_append, mem_singleton]
    split at hid
    · rename_i hc
      rw [if_pos hc]
      rcases hnew (id / 4) hid with hold | heq | ⟨hlow, -⟩
      · rcases h.closed id (by rw [hc]; exact hold) with hlow | hret
        · rw [hc] at hlow
          exact .inl (by omega)
        · exact .inr (.inl hret)
      · exact .inr (.inr (by omega))
      · exact .inl hlow
    · rename_i hc
      rw [if_neg hc]
      exact (h.closed id hid).imp_right .inl
  · have hfinal := (h.entry i hi huse).final
    rw [hknown, if_pos rfl] at hfinal
    rw [forall_mem_append, forall_mem_singleton]
    exact ⟨h.retired_final, _, hfinal⟩

theorem accounts_fresh
    (hnone : ∀ j < rxacctCap, j ≠ i → (l.rxacct j).inUse = true → (l.rxacct j).streamId ≠ id)
    (hfree : (l.rxacct i).inUse = false) (hid : id ∉ streamsOf hist) :
    Accounts { l with rxacct := update l.rxacct i (rxacctFresh id) } hist retired := by
  obtain ⟨hseen, hfinal⟩ := highestSeen_of_not_mem hid
  refine { h with entry := ?_, unique := unique_update h fun _ => hnone, covered := ?_ }
  · refine (forall_update_iff l.rxacct fun j e => j < rxacctCap → e.inUse = true →
      Summarises e.fs hist e.streamId).mpr ⟨fun _ _ => ?_, fun j _ => h.entry j⟩
    exact ⟨hseen.symm, hfinal, fun hk => by cases hk⟩
  · intro id' hid'
    refine (h.covered id' hid').imp_left ?_
    rintro ⟨j, hj, hju, hjs⟩
    have hji : j ≠ i := by
      rintro rfl
      rw [hfree] at hju
      cases hju
    refine ⟨j, hj, ?_⟩
    dsimp only
    rw [update_of_ne hji]
    exact ⟨hju, hjs⟩

/-- **The entry of a stream**: there is none only for a stream that counts as done or when every
entry is taken by a stream without a final size. -/
theorem rxacctEntry_spec (id : Nat) :
    Accounts (srvloopRxacctEntry l id).1 hist (retired ++ retiredFor l id) ∧
      (∀ i, (srvloopRxacctEntry l id).2 = some i → i < rxacctCap ∧
        ((srvloopRxacctEntry l id).1.rxacct i).inUse = true ∧
        ((srvloopRxacctEntry l id).1.rxacct i).streamId = id) ∧
      ((srvloopRxacctEntry l id).2 = none → srvloopClosedHas (l.done (id % 4)) id = true ∨
        ∀ i < rxacctCap, (l.rxacct i).inUse = true ∧ (l.rxacct i).fs.known = false) := by
  unfold srvloopRxacctEntry retiredFor
  by_cases hclosed : srvloopClosedHas (l.done (id % 4)) id = true
  · simp only [hclosed, if_true, Bool.true_or, append_nil]
    exact ⟨h, by simp, by simp⟩
  simp only [hclosed, Bool.false_or, Bool.false_eq_true, if_false]
  cases hfind : rxacctFind l id with
  | some i =>
    obtain ⟨hi, his⟩ := find_range_some hfind
    simp only [rxacctIs, Bool.and_eq_true, decide_eq_true_eq] at his
    simp only [Option.isSome_some, Bool.true_or, if_true, append_nil]
    refine ⟨h, ?_, by simp⟩
    rintro j hj
    cases hj
    exact ⟨hi, his⟩
  | none =>
    have hnone : ∀ j < rxacctCap, (l.rxacct j).inUse = true → (l.rxacct j).streamId ≠ id := by
      intro j hj hju he
      have := find_range_none hfind hj
      simp [rxacctIs, hju, he] at this
    have hid : id ∉ streamsOf hist := by
      intro hmem
      rcases h.covered id hmem with ⟨j, hj, hju, hjs⟩ | hc
      · exact hnone j hj hju hjs
      · exact hclosed hc
    simp only [rxacctClaim, rxacctRoom]
    cases hfree : rxacctFreeSlot l with
    | some i =>
      obtain ⟨hi, hun⟩ := find_range_some hfree
      simp only [Option.isSome_none, Option.isSome_some, Bool.or_true, if_true, append_nil]
      refine ⟨accounts_fresh h (fun j hj _ => hnone j hj) (by simpa using hun) hid, ?_, by simp⟩
      intro j hj
      cases hj
      exact ⟨hi, by rw [update_self]; exact ⟨rfl, rfl⟩⟩
    | none =>
      have hall : ∀ j < rxacctCap, (l.rxacct j).inUse = true := by
        intro j hj
        simpa using find_range_none hfree hj
      cases hknown : rxacctKnownSlot l with
      | some i =>
        obtain ⟨hi, hk⟩ := find_range_some hknown
        have hret := accounts_retire h hi (hall i hi) hk
        simp only [Option.isSome_none, Bool.or_false, Bool.false_eq_true, if_false,
          Option.toList_some, map_cons, map_nil]
        refine ⟨accounts_fresh hret ?_ ?_ hid, ?_, by simp⟩
        · intro j hj hji hju
          have hsame : (rxacctRetire l i).rxacct j = l.rxacct j := update_of_ne hji _ _
          rw [hsame] at hju ⊢
          exact hnone j hj hju
        · simp [rxacctRetire, update_self]
        · intro j hj
          cases hj
          exact ⟨hi, by rw [update_self]; exact ⟨rfl, rfl⟩⟩
      | none =>
        simp only [Option.isSome_none, Bool.or_false, Bool.false_eq_true, if_false,
          Option.toList_none, map_nil, append_nil]
        exact ⟨h, by simp, fun _ => .inr fun j hj => ⟨hall j hj, find_range_none hknown hj⟩⟩

theorem accounts_frame (hi : i < rxacctCap)
    (huse : (l.rxacct i).inUse = true) (hid : (l.rxacct i).streamId = f.id)
    (hf : f.accounted = true) (hok : (fsFrame (l.rxacct i).fs f).2 = true) :
    Accounts (afterFrame l i f) (hist ++ [f]) retired := by
  have hsum := hid ▸ h.entry i hi huse
  have hnext := (fsFrame_spec hsum hf).2 hok
  have hne : ∀ j < rxacctCap, j ≠ i → (l.rxacct j).inUse = true →
      f.id ≠ (l.rxacct j).streamId :=
    fun j hj hji hju he => hji (h.unique j hj i hi hju huse (by rw [hid, he]))
  constructor
  · refine (forall_update_iff l.rxacct fun j e => j < rxacctCap → e.inUse = true →
      Summarises e.fs (hist ++ [f]) e.streamId).mpr ⟨fun _ _ => hid.symm ▸ hnext, ?_⟩
    intro j hji hj hju
    obtain ⟨h1, h2, h3⟩ := h.entry j hj hju
    refine ⟨?_, ?_, h3⟩
    · rw [highestSeen_append, if_neg (hne j hj hji hju), h1]
    · rw [finalGiven_append, if_neg (hne j hj hji hju), h2]
  · exact unique_update h fun _ j hj hji hju he => hne j hj hji hju (hid.symm.trans he.symm)
  · intro id' hid'
    rw [streamsOf_append, Finset.mem_insert] at hid'
    have hsame : ∀ j, ((afterFrame l i f).rxacct j).inUse = (l.rxacct j).inUse ∧
        ((afterFrame l i f).rxacct j).streamId = (l.rxacct j).streamId :=
      (forall_update_iff l.rxacct fun j e => e.inUse = (l.rxacct j).inUse ∧
        e.streamId = (l.rxacct j).streamId).mpr ⟨⟨rfl, rfl⟩, fun _ _ => ⟨rfl, rfl⟩⟩
    simp only [hsame]
    rcases hid' with rfl | hold
    · exact .inl ⟨i, hi, huse, hid⟩
    · exact h.covered id' hold
  · have hhigh : (fsFrame (l.rxacct i).fs f).1.highest =
        max (highestSeen hist f.id) f.endOff := by
      rw [hnext.highest, highestSeen_append, if_pos rfl]
    have h1 := highestSeen_lt hist f.id
    have h2 := f.endOff_lt
    simp only [afterFrame]
    rw [totalSeen_append, hhigh, hsum.highest, subU64_eq (by omega) (by omega), h.bytes, addU64,
      Nat.mod_add_mod]
  · exact h.closed
  · intro id' n hn
    by_cases he : f.id = id'
    · subst he
      rw [hnext.final] at hn
      split at hn
      · rename_i hk
        cases hn
        rw [← hnext.highest]
        exact hnext.complete hk
      · cases hn
    · rw [finalGiven_append, if_neg he] at hn
      rw [highestSeen_append, if_neg he]
      exact h.complete id' n hn
  · intro g hg m hm
    rcases mem_append.mp hg with hold | hnew
    · exact finalGiven_mono f (h.agreed g hold m hm)
    · obtain rfl := mem_singleton.mp hnew
      have hvalid : ¬ Violates hist g := by
        rw [← (fsFrame_spec hsum hf).1, hok]
        simp
      unfold Violates at hvalid
      cases hgiven : finalGiven hist g.id with
      | none => rw [finalGiven_append, if_pos rfl, hgiven, Option.none_or, hm]
      | some n =>
        rw [hgiven] at hvalid
        have hmn : m = n := by
          by_contra hne
          exact hvalid (.inr ⟨m, hm, hne⟩)
        exact finalGiven_mono g (hmn ▸ hgiven)
  · intro id' hid'
    obtain ⟨n, hn⟩ := h.retired_final id' hid'
    exact ⟨n, finalGiven_mono f hn⟩

end

end

/-! ## Whole runs -/

theorem accounts_step {t : RxTrace} (h : Accounts t.l t.hist t.retired) (hok : NoError t f) :
    Accounts (rxStep t f).l (rxStep t f).hist (rxStep t f).retired := by
  obtain ⟨hf, htrue⟩ := hok
  obtain ⟨hacc, hsome, -⟩ := rxacctEntry_spec h f.id
  obtain ⟨hframe, hskip⟩ := rxacctFrame_eq t.l hf
  unfold rxStep hasEntry
  by_cases hnone : (srvloopRxacctEntry t.l f.id).2 = none
  · simp only [hnone, Option.isSome_none, Bool.false_eq_true, if_false, hskip hnone]
    exact hacc
  · obtain ⟨i, he⟩ := Option.ne_none_iff_exists'.mp hnone
    obtain ⟨hi, huse, hid⟩ := hsome i he
    obtain ⟨h2, h1⟩ := hframe i he
    simp only [he, Option.isSome_some, if_true, h1 htrue]
    exact accounts_frame hacc hi huse hid hf (h2 ▸ htrue)

/-- A payload is the run of its frames, and then held against the limit of the connection. -/
theorem srvloopRxacctPayload_eq {t : RxTrace} {fs : List RxFrame} (h : Along rxStep NoError t fs) :
    srvloopRxacctPayload t.l fs =
      ((fs.foldl rxStep t).l, rxacctConnError (fs.foldl rxStep t).l) := by
  induction fs generalizing t with
  | nil => rfl
  | cons f fs ih =>
    rw [srvloopRxacctPayload, if_pos h.1.2]
    exact ih h.2

/-- **Receive accounting** over every sequence of STREAM and RESET_STREAM frames without an error.
The connection's bytes are the sum over the streams of the highest end seen in the frames that were
accounted for, which is the final size once there is one; no two of these frames give a stream
different final sizes; the next frame is refused exactly when it violates the history, unless its
stream has no entry. A stream has none only if it was retired, with its final size known, if its
id is below the window of retired streams, or if every entry is taken by a stream without a final
size. -/
theorem accounting_along (fs : List RxFrame) (h : Along rxStep NoError rxTraceReset fs) :
    let t := fs.foldl rxStep rxTraceReset
    t.l.connBytes = totalSeen t.hist % 2 ^ 64 ∧
      (∀ id n, finalGiven t.hist id = some n → highestSeen t.hist id = n) ∧
      (∀ f ∈ t.hist, ∀ m, f.size? = some m → finalGiven t.hist f.id = some m) ∧
      (∀ f, f.accounted = true →
        ((rxacctFrame t.l f).2 = false ↔ hasEntry t.l f.id = true ∧ Violates t.hist f)) ∧
      (∀ id, hasEntry t.l id = false → id ∈ t.retired ∨ id / 4 < (t.l.done (id % 4)).floor ∨
        ∀ i < rxacctCap, (t.l.rxacct i).inUse = true ∧ (t.l.rxacct i).fs.known = false) ∧
      (∀ id ∈ t.retired, ∃ n, finalGiven t.hist id = some n) := by
  intro t
  have hacc : Accounts t.l t.hist t.retired :=
    Along.invariant (I := fun t => Accounts t.l t.hist t.retired)
      (fun _ _ ht hok => accounts_step ht hok) accounts_reset h
  refine ⟨hacc.bytes, hacc.complete, hacc.agreed, ?_, ?_, hacc.retired_final⟩
  · intro f hf
    obtain ⟨hentry, hsome, -⟩ := rxacctEntry_spec hacc f.id
    obtain ⟨hframe, hskip⟩ := rxacctFrame_eq t.l hf
    unfold hasEntry
    cases he : (srvloopRxacctEntry t.l f.id).2 with
    | none => simp [hskip he]
    | some i =>
      obtain ⟨hi, huse, hid⟩ := hsome i he
      rw [(hframe i he).1, (fsFrame_spec (hid ▸ hentry.entry i hi huse) hf).1]
      simp
  · intro id hnone
    obtain ⟨-, -, hwhy⟩ := rxacctEntry_spec hacc id
    rcases hwhy (by simpa [hasEntry] using hnone) with hclosed | hfull
    · exact (hacc.closed id hclosed).elim (fun h => .inr (.inl h)) .inl
    · exact .inr (.inr hfull)

/-- Two streams, one of which is reset. -/
theorem accounting_reset_after_stream :
    let fs : List RxFrame := [.stream 0 4 6 false, .stream 4 0 3 true, .resetStream 0 12]
    Along rxStep NoError rxTraceReset fs ∧ (fs.foldl rxStep rxTraceReset).l.connBytes = 15 := by
  intro fs
  have hok : Along rxStep NoError rxTraceReset fs := by decide +kernel
  exact ⟨hok, (accounting_along fs hok).1⟩

def finishedStreams : List RxFrame :=
  (List.range 58).map fun i => .stream (4 * i) 0 1 true

/-- The 58th stream takes the entry of the first, and a frame of the first stream past its final
size then passes. -/
theorem final_size_forgotten_after_retire :
    ¬ ∀ (fs : List RxFrame) (f : RxFrame), Along rxStep NoError rxTraceReset fs →
      f.accounted = true → Violates fs f →
        (rxacctFrame (fs.foldl rxStep rxTraceReset).l f).2 = false := by
  intro h
  have hfinal : finalGiven finishedStreams 0 = some 1 := by decide +kernel
  have hviolates : Violates finishedStreams (.stream 0 5 1 false) := by
    simp only [Violates, RxFrame.id, hfinal]
    exact .inl (by decide)
  have herror := h finishedStreams (.stream 0 5 1 false) (by decide +kernel) rfl hviolates
  have hpass : (rxacctFrame (finishedStreams.foldl rxStep rxTraceReset).l
      (.stream 0 5 1 false)).2 = true := by
    decide +kernel
  rw [hpass] at herror
  cases herror

end Wired.Server
