import Wired.Lib.Word
import Wired.Transport.PathSelect

/-!
# The connection IDs of the peer

`peercid.c`, `peercid_retire.c` and `peercid_live.c`: four entries hold the IDs that the peer has
issued, each bound to a path at its first use there, and a queue holds the sequence numbers that a
RETIRE_CONNECTION_ID is owed for. Two masks of 64 bits remember which numbers were owed one: `gone`
those from Retire Prior To on, `past` the ones below it. They slide as Retire Prior To is raised.

Beside the pool, `PoolSystem` keeps all numbers that ever were queued, and the path of each ID.
Along every run in which the numbers that arrive lie within the masks, no number is queued twice and
none is held again (`peercid_pool`).
-/

namespace Wired.Transport

open Bytes Lib List Function

/-! ## The pool -/

abbrev peercidCap : Nat := 4

def peercidRetireCap : Nat := 2 * peercidCap

/-- An ID, and the path it is bound to. -/
structure PeercidEntry where
  key : PathselKey
  seq : UInt64
  cid : List UInt8
  inUse : Bool
  bound : Bool
  shared : Bool
deriving DecidableEq

structure NcidFrame where
  seq : UInt64
  retirePriorTo : UInt64
  cid : List UInt8

/-- The entries, the queue and the masks. -/
structure Peercid where
  e : Fin peercidCap → PeercidEntry
  retire : List UInt64
  rpt : UInt64
  /-- Bit `i`: the number `rpt + i` was retired. -/
  gone : BitVec 64
  /-- Bit `i`: the number `rpt - 64 + i` was owed a RETIRE_CONNECTION_ID. -/
  past : BitVec 64
  /-- The peer uses an ID of length 0. -/
  empty : Bool

/-- What a frame is refused with. -/
inductive PeercidError where
  | protocolViolation
  | connectionIdLimit
deriving DecidableEq, Repr

def Peercid.setEntry (p : Peercid) (i : Fin peercidCap) (e : PeercidEntry) : Peercid :=
  { p with e := update p.e i e }

variable {i : Fin peercidCap}

@[simp] theorem setEntry_self (p : Peercid) (i : Fin peercidCap) (e : PeercidEntry) :
    (p.setEntry i e).e i = e := update_self ..

theorem setEntry_of_ne (p : Peercid) {j : Fin peercidCap} (h : j ≠ i) (e : PeercidEntry) :
    (p.setEntry i e).e j = p.e j := update_of_ne h ..

variable {P : Fin peercidCap → PeercidEntry → Prop} {p : Peercid} {j : Nat} {rpt seq : UInt64}

/-- What holds of the new entry and of all the others holds of each. -/
theorem forall_setEntry {e : PeercidEntry}
    (hself : P i e) (hother : ∀ j, j ≠ i → P j (p.e j)) (j : Fin peercidCap) :
    P j ((p.setEntry i e).e j) := by
  by_cases hji : j = i
  · rwa [hji, setEntry_self]
  · rw [setEntry_of_ne _ hji]
    exact hother j hji

def peercidEntryOf (seq : UInt64) (cid : List UInt8) (inUse : Bool) : PeercidEntry where
  key := pathKeyZero
  seq := seq
  cid := cid
  inUse := inUse
  bound := false
  shared := false

def peercidHold (p : Peercid) (f : NcidFrame) : Peercid × Option PeercidError :=
  match (List.finRange peercidCap).find? fun i => !(p.e i).inUse with
  | some i => (p.setEntry i (peercidEntryOf f.seq f.cid true), none)
  | none => (p, some .connectionIdLimit)

def peercidZero (empty : Bool) : Peercid where
  e := fun _ => peercidEntryOf 0 [] false
  retire := []
  rpt := 0
  gone := 0
  past := 0
  empty := empty

def peercidInit (cid0 : List UInt8) : Peercid :=
  (peercidHold (peercidZero (cid0.length = 0)) { seq := 0, retirePriorTo := 0, cid := cid0 }).1

/-! ## Retiring -/

def peercidOwe (p : Peercid) (seq : UInt64) : Peercid × Bool :=
  if p.retire.length = peercidRetireCap then (p, false)
  else ({ p with retire := p.retire ++ [seq] }, true)

def peercidBit (p : Peercid) (seq : UInt64) : BitVec 64 :=
  let d := seq - p.rpt
  if d < 64 then 1#64 <<< d.toNat else 0#64

def peercidPastBit (p : Peercid) (seq : UInt64) : BitVec 64 :=
  let d := seq + 64 - p.rpt
  if d < 64 then 1#64 <<< d.toNat else 0#64

def peercidRetired (p : Peercid) (seq : UInt64) : Bool :=
  ((p.gone &&& peercidBit p seq) ||| (p.past &&& peercidPastBit p seq)) ≠ 0#64

def peercidRetireOnce (p : Peercid) (seq : UInt64) : Peercid × Bool :=
  let owed := peercidOwe p seq
  if !owed.2 then (owed.1, false)
  else
    ({ owed.1 with
        gone := owed.1.gone ||| peercidBit owed.1 seq
        past := owed.1.past ||| peercidPastBit owed.1 seq }, true)

def peercidOweErr (p : Peercid) (seq : UInt64) : Peercid × Option PeercidError :=
  let r := peercidRetireOnce p seq
  (r.1, if r.2 then none else some .connectionIdLimit)

def slideOnce (p : Peercid) : Peercid :=
  { p with past := p.past >>> 1 ||| p.gone <<< 63, gone := p.gone >>> 1 }

def slideTimes : Nat → Peercid → Peercid
  | 0, p => p
  | n + 1, p => slideTimes n (slideOnce p)

def peercidSlide (p : Peercid) (rpt : UInt64) : Peercid :=
  let n := if rpt - p.rpt < 128 then (rpt - p.rpt).toNat else 128
  { slideTimes n p with rpt := rpt }

def peercidDrop (p : Peercid) (i : Fin peercidCap) : Peercid × Bool :=
  let r := peercidRetireOnce p (p.e i).seq
  if !r.2 then (r.1, false) else (r.1.setEntry i { r.1.e i with inUse := false }, true)

def peercidTakeRetire (p : Peercid) : Peercid × Option UInt64 :=
  match p.retire with
  | [] => (p, none)
  | seq :: rest => ({ p with retire := rest }, some seq)

/-- One round of the loops of `peercid_drop_below` and `peercid_sweep`; the flag says that an entry
could not be dropped. -/
def dropRound (cond : PeercidEntry → Bool) (r : Peercid × Bool) (i : Fin peercidCap) :
    Peercid × Bool :=
  if cond (r.1.e i) then
    let d := peercidDrop r.1 i
    (d.1, r.2 || !d.2)
  else r

def dropWhere (cond : PeercidEntry → Bool) (p : Peercid) : Peercid × Bool :=
  (List.finRange peercidCap).foldl (dropRound cond) (p, false)

/-! ## Adding -/

def peercidHeld (p : Peercid) (seq : UInt64) : Option (Fin peercidCap) :=
  (List.finRange peercidCap).find? fun i => (p.e i).inUse && (p.e i).seq = seq

def peercidSame (e : PeercidEntry) (f : NcidFrame) : Bool :=
  e.cid.length = f.cid.length && ctDiff e.cid f.cid = 0

def peercidStore (p : Peercid) (f : NcidFrame) : Peercid × Option PeercidError :=
  match peercidHeld p f.seq with
  | some i => (p, if peercidSame (p.e i) f then none else some .protocolViolation)
  | none => peercidHold p f

def peercidBelow (rpt : UInt64) (e : PeercidEntry) : Bool := e.inUse && e.seq < rpt

def peercidDropBelow (p : Peercid) (rpt : UInt64) : Peercid × Bool :=
  dropWhere (peercidBelow rpt) p

def peercidRaiseRpt (p : Peercid) (rpt : UInt64) : Peercid × Bool :=
  if rpt ≤ p.rpt then (p, false) else peercidDropBelow (peercidSlide p rpt) rpt

def peercidTake (p : Peercid) (f : NcidFrame) : Peercid × Option PeercidError :=
  if peercidRetired p f.seq then (p, none)
  else if f.seq < p.rpt then peercidOweErr p f.seq
  else peercidStore p f

def peercidAdd (p : Peercid) (f : NcidFrame) : Peercid × Option PeercidError :=
  if p.empty then (p, some .protocolViolation)
  else
    let raised := peercidRaiseRpt p f.retirePriorTo
    if raised.2 then (raised.1, some .connectionIdLimit) else peercidTake raised.1 f

/-! ## Using -/

def peercidLive (e : PeercidEntry) : Bool := e.inUse && e.bound

def peercidOwns (e : PeercidEntry) (k : PathselKey) : Bool := peercidLive e && pathselKeyEq e.key k

def peercidShares (e : PeercidEntry) (k : PathselKey) : Bool :=
  peercidLive e && e.shared && e.key.fd = k.fd

def peercidServes (e : PeercidEntry) (k : PathselKey) : Bool :=
  peercidOwns e k || peercidShares e k

def peercidOwn (p : Peercid) (k : PathselKey) : Option (Fin peercidCap) :=
  (List.finRange peercidCap).find? fun i => peercidOwns (p.e i) k

def peercidShared (p : Peercid) (k : PathselKey) : Option (Fin peercidCap) :=
  (List.finRange peercidCap).find? fun i => peercidShares (p.e i) k

/-- The entry that is bound to the path, or one that is shared on its socket. -/
def peercidOf (p : Peercid) (k : PathselKey) : Option (Fin peercidCap) :=
  (peercidOwn p k).or (peercidShared p k)

def peercidUnbound (e : PeercidEntry) : Bool := e.inUse && !e.bound

def peercidBetter (p : Peercid) (best : Option (Fin peercidCap)) (i : Fin peercidCap) : Bool :=
  peercidUnbound (p.e i) && best.all fun b => (p.e i).seq < (p.e b).seq

def peercidOldestFree (p : Peercid) : Option (Fin peercidCap) :=
  (List.finRange peercidCap).foldl
    (fun best i => if peercidBetter p best i then some i else best) none

def peercidClaim (p : Peercid) (k : PathselKey) : Peercid × Option (Fin peercidCap) :=
  match peercidOwn p k with
  | some i => (p, some i)
  | none =>
    match peercidOldestFree p with
    | none => (p, none)
    | some i => (p.setEntry i { p.e i with key := k, bound := true }, some i)

def peercidBind (p : Peercid) (k : PathselKey) : Peercid × Option (Fin peercidCap) :=
  if p.empty then (p, some 0) else peercidClaim p k

def peercidShare (p : Peercid) (cur : PathselKey) : Peercid × Option (Fin peercidCap) :=
  match peercidOf p cur with
  | some i => (p.setEntry i { p.e i with shared := true }, some i)
  | none => (p, none)

def peercidUsed (tracked : List PathselKey) (e : PeercidEntry) : Bool :=
  tracked.any fun k => peercidServes e k

def peercidStale (tracked : List PathselKey) (e : PeercidEntry) : Bool :=
  peercidLive e && !peercidUsed tracked e

def peercidSweep (p : Peercid) (tracked : List PathselKey) : Peercid :=
  (dropWhere (peercidStale tracked) p).1

/-! ## The masks -/

/-- The two masks as one, from the number `rpt - 64` on. -/
def recordBit (p : Peercid) (j : Nat) : Bool :=
  if j < 64 then p.past.getLsbD j else p.gone.getLsbD (j - 64)

def Near (rpt seq : UInt64) : Prop :=
  rpt.toNat ≤ seq.toNat + 64 ∧ seq.toNat < rpt.toNat + 64
deriving Decidable

theorem and_shift_ne_zero (x : BitVec 64) {d : Nat} (hd : d < 64) :
    x &&& 1#64 <<< d ≠ 0#64 ↔ x.getLsbD d = true := by
  constructor
  · intro hne
    by_contra hbit
    apply hne
    apply BitVec.eq_of_getLsbD_eq
    intro i _
    rw [BitVec.getLsbD_and, getLsbD_one_shiftLeft hd, BitVec.getLsbD_zero]
    by_cases hid : d = i
    · rw [← hid, Bool.eq_false_iff.mpr hbit, Bool.false_and]
    · rw [decide_eq_false hid, Bool.and_false]
  · intro hbit hzero
    have hboth := congrArg (fun y => y.getLsbD d) hzero
    simp [BitVec.getLsbD_and, hbit, getLsbD_one_shiftLeft hd] at hboth

section

variable {p : Peercid} {seq : UInt64}

theorem bit_offset (h : Near p.rpt seq) :
    if p.rpt.toNat ≤ seq.toNat then
      peercidBit p seq = 1#64 <<< (seq.toNat - p.rpt.toNat) ∧ peercidPastBit p seq = 0#64
    else
      peercidBit p seq = 0#64 ∧ peercidPastBit p seq = 1#64 <<< (seq.toNat + 64 - p.rpt.toNat) := by
  obtain ⟨hlow, hhigh⟩ := h
  have hrpt := p.rpt.toNat_lt
  have hd : (seq - p.rpt).toNat = (2 ^ 64 - p.rpt.toNat + seq.toNat) % 2 ^ 64 := UInt64.toNat_sub ..
  have hd' : (seq + 64 - p.rpt).toNat =
      (2 ^ 64 - p.rpt.toNat + (seq.toNat + 64) % 2 ^ 64) % 2 ^ 64 := by
    rfl
  have hlt : ∀ d : UInt64, d < 64 ↔ d.toNat < 64 := fun d => UInt64.lt_iff_toNat_lt
  unfold peercidBit peercidPastBit
  split
  · constructor
    · rw [if_pos ((hlt _).mpr (by omega)), show (seq - p.rpt).toNat = seq.toNat - p.rpt.toNat by
        omega]
    · rw [if_neg fun h => by rw [hlt] at h; omega]
  · constructor
    · rw [if_neg fun h => by rw [hlt] at h; omega]
    · rw [if_pos ((hlt _).mpr (by omega)),
        show (seq + 64 - p.rpt).toNat = seq.toNat + 64 - p.rpt.toNat by omega]

theorem peercidRetired_iff (h : Near p.rpt seq) :
    peercidRetired p seq = true ↔ recordBit p (seq.toNat + 64 - p.rpt.toNat) = true := by
  have hoff := bit_offset h
  obtain ⟨hlow, hhigh⟩ := h
  unfold peercidRetired recordBit
  rw [decide_eq_true_eq]
  split at hoff
  · rw [hoff.1, hoff.2, BitVec.and_zero, BitVec.or_zero, and_shift_ne_zero _ (by omega),
      if_neg (by omega), show seq.toNat + 64 - p.rpt.toNat - 64 = seq.toNat - p.rpt.toNat by omega]
  · rw [hoff.1, hoff.2, BitVec.and_zero, BitVec.zero_or, and_shift_ne_zero _ (by omega),
      if_pos (by omega)]

theorem slideOnce_recordBit (hj : j + 1 < 128) :
    recordBit (slideOnce p) j = recordBit p (j + 1) := by
  unfold recordBit slideOnce
  by_cases hlow : j + 1 < 64
  · rw [if_pos (by omega), if_pos hlow]
    simp only [BitVec.getLsbD_or, BitVec.getLsbD_ushiftRight, BitVec.getLsbD_shiftLeft]
    rw [add_comm 1 j]
    simp
    omega
  · by_cases hedge : j = 63
    · subst hedge
      simp
    · rw [if_neg (by omega), if_neg (by omega), BitVec.getLsbD_ushiftRight]
      congr 1
      omega

theorem slideTimes_recordBit {n : Nat} (hj : j + n < 128) :
    recordBit (slideTimes n p) j = recordBit p (j + n) := by
  induction n generalizing p with
  | zero => rfl
  | succ n ih => rw [slideTimes, ih (by omega), slideOnce_recordBit (by omega), add_assoc]

/-- A slide keeps what was recorded of the numbers that are still within the masks. -/
theorem peercidSlide_retired (hrpt : p.rpt < rpt) (h : Near p.rpt seq)
    (h' : Near rpt seq) : peercidRetired (peercidSlide p rpt) seq = peercidRetired p seq := by
  have hlt : p.rpt.toNat < rpt.toNat := UInt64.lt_iff_toNat_lt.mp hrpt
  have hdiff : (rpt - p.rpt).toNat = rpt.toNat - p.rpt.toNat :=
    UInt64.toNat_sub_of_le _ _ (UInt64.le_iff_toNat_le.mpr hlt.le)
  have hnear : Near (peercidSlide p rpt).rpt seq := h'
  have hn : rpt - p.rpt < 128 := by
    rw [UInt64.lt_iff_toNat_lt, hdiff]
    obtain ⟨hlow, -⟩ := h'
    obtain ⟨-, hhigh⟩ := h
    show rpt.toNat - p.rpt.toNat < 128
    omega
  rw [Bool.eq_iff_iff, peercidRetired_iff hnear, peercidRetired_iff h]
  have hbit : recordBit (peercidSlide p rpt) (seq.toNat + 64 - rpt.toNat) =
      recordBit (slideTimes (rpt - p.rpt).toNat p) (seq.toNat + 64 - rpt.toNat) := by
    unfold peercidSlide
    rw [if_pos hn]
    rfl
  obtain ⟨hlow, -⟩ := h'
  obtain ⟨-, hhigh⟩ := h
  show recordBit (peercidSlide p rpt) (seq.toNat + 64 - rpt.toNat) = true ↔ _
  rw [hbit, hdiff, slideTimes_recordBit (by omega),
    show seq.toNat + 64 - rpt.toNat + (rpt.toNat - p.rpt.toNat) =
      seq.toNat + 64 - p.rpt.toNat by omega]

theorem slideTimes_same (n : Nat) (p : Peercid) : (slideTimes n p).e = p.e ∧
    (slideTimes n p).retire = p.retire ∧ (slideTimes n p).empty = p.empty := by
  induction n generalizing p with
  | zero => exact ⟨rfl, rfl, rfl⟩
  | succ n ih => exact ih (slideOnce p)

theorem peercidSlide_same (p : Peercid) (rpt : UInt64) : (peercidSlide p rpt).e = p.e ∧
    (peercidSlide p rpt).retire = p.retire ∧ (peercidSlide p rpt).empty = p.empty :=
  slideTimes_same _ p

def Peercid.owing (p : Peercid) (seq : UInt64) : Peercid :=
  { p with
    retire := p.retire ++ [seq]
    gone := p.gone ||| peercidBit p seq
    past := p.past ||| peercidPastBit p seq }

theorem peercidRetireOnce_cases (p : Peercid) (seq : UInt64) :
    peercidRetireOnce p seq = (p, false) ∨ peercidRetireOnce p seq = (p.owing seq, true) := by
  unfold peercidRetireOnce peercidOwe
  split
  · exact .inl rfl
  · exact .inr rfl

theorem owing_retired_self (h : Near p.rpt seq) : peercidRetired (p.owing seq) seq = true := by
  have hnear : Near (p.owing seq).rpt seq := h
  have hoff := bit_offset h
  obtain ⟨hlow, hhigh⟩ := h
  rw [peercidRetired_iff hnear]
  show (if seq.toNat + 64 - p.rpt.toNat < 64 then
    (p.past ||| peercidPastBit p seq).getLsbD (seq.toNat + 64 - p.rpt.toNat)
    else (p.gone ||| peercidBit p seq).getLsbD (seq.toNat + 64 - p.rpt.toNat - 64)) = true
  split at hoff
  · rw [if_neg (by omega), hoff.1, BitVec.getLsbD_or, getLsbD_one_shiftLeft (by omega),
      decide_eq_true (by omega), Bool.or_true]
  · rw [if_pos (by omega), hoff.2, BitVec.getLsbD_or, getLsbD_one_shiftLeft (by omega),
      decide_eq_true rfl, Bool.or_true]

theorem owing_retired_of {seq' : UInt64} (h : peercidRetired p seq' = true) :
    peercidRetired (p.owing seq) seq' = true := by
  unfold peercidRetired at h ⊢
  rw [decide_eq_true_eq] at h ⊢
  intro hzero
  apply h
  have hmore : ∀ x y b : BitVec 64, (x ||| y) &&& b = 0#64 → x &&& b = 0#64 := by
    intro x y b hxy
    ext i hi
    have hbit := congrArg (fun z => z.getLsbD i) hxy
    simp only [BitVec.getElem_and, BitVec.getElem_zero]
    simp only [← BitVec.getLsbD_eq_getElem]
    cases hx : x.getLsbD i with
    | false => rfl
    | true => simpa [hx] using hbit
  obtain ⟨hgone, hpast⟩ := BitVec.or_eq_zero_iff.mp hzero
  rw [BitVec.or_eq_zero_iff]
  exact ⟨hmore _ _ _ hgone, hmore _ _ _ hpast⟩

end

/-! ## Dropping -/

variable {cond : PeercidEntry → Bool}

section

variable {p p' : Peercid} {owed new : List UInt64}

def Peercid.dropped (p : Peercid) (i : Fin peercidCap) : Peercid :=
  (p.owing (p.e i).seq).setEntry i { p.e i with inUse := false }

theorem peercidDrop_cases (p : Peercid) (i : Fin peercidCap) :
    peercidDrop p i = (p, false) ∨ peercidDrop p i = (p.dropped i, true) := by
  unfold peercidDrop
  rcases peercidRetireOnce_cases p (p.e i).seq with h | h
  · rw [h]
    exact .inl rfl
  · rw [h]
    exact .inr rfl

/-- What is asked of the entries in use is asked of fewer after a drop. -/
theorem forall_dropped (hother : ∀ j, j ≠ i → P j (p.e j))
    (hself : P i { p.e i with inUse := false }) (j : Fin peercidCap) : P j ((p.dropped i).e j) :=
  forall_setEntry hself hother j

/-- Entries in use are dropped one after the other. -/
inductive Drops : Peercid → Peercid → List UInt64 → Prop
  | refl (p : Peercid) : Drops p p []
  | drop {p p' : Peercid} {new : List UInt64} (i : Fin peercidCap) (hin : (p.e i).inUse = true)
      (hrest : Drops (p.dropped i) p' new) : Drops p p' ((p.e i).seq :: new)

theorem Drops.retire (h : Drops p p' new) : p'.retire = p.retire ++ new := by
  induction h with
  | refl p => exact (append_nil _).symm
  | drop i _ _ ih =>
    rw [ih]
    exact append_assoc ..

theorem Drops.same (h : Drops p p' new) : p'.rpt = p.rpt ∧ p'.empty = p.empty := by
  induction h with
  | refl p => exact ⟨rfl, rfl⟩
  | drop i _ _ ih => exact ih

theorem Drops.entry (h : Drops p p' new) (i : Fin peercidCap) :
    p'.e i = p.e i ∨ p'.e i = { p.e i with inUse := false } := by
  induction h with
  | refl p => exact .inl rfl
  | @drop p _ _ j hin _ ih =>
    refine forall_dropped (P := fun i e => _ = e ∨ _ = { e with inUse := false } → _)
      (fun i _ h => h) (fun h => ?_) i ih
    exact .inr (h.elim id id)

theorem Drops.cond_false (h : Drops p p' new) (hcond : ∀ e, cond e = true → e.inUse = true)
    (hfalse : cond (p.e i) = false) : cond (p'.e i) = false := by
  rcases h.entry i with heq | heq
  · rw [heq]
    exact hfalse
  · rw [Bool.eq_false_iff]
    intro htrue
    have hin := hcond _ htrue
    rw [heq] at hin
    cases hin

/-- The loop drops; if it could drop all it had to, none of those is left. -/
theorem dropRounds_spec (hcond : ∀ e, cond e = true → e.inUse = true) (l : List (Fin peercidCap))
    (r : Peercid × Bool) :
    ∃ new, Drops r.1 (l.foldl (dropRound cond) r).1 new ∧
      ((l.foldl (dropRound cond) r).2 = false →
        r.2 = false ∧ ∀ i ∈ l, cond ((l.foldl (dropRound cond) r).1.e i) = false) := by
  induction l generalizing r with
  | nil => exact ⟨[], .refl _, fun h => ⟨h, by simp⟩⟩
  | cons i l ih =>
    rw [foldl_cons]
    obtain ⟨new, hdrops, hall⟩ := ih (dropRound cond r i)
    generalize l.foldl (dropRound cond) (dropRound cond r i) = final at hdrops hall ⊢
    unfold dropRound at hdrops hall
    cases hc : cond (r.1.e i) with
    | false =>
      simp only [hc, Bool.false_eq_true, if_false] at hdrops hall
      refine ⟨new, hdrops, fun hfull => ?_⟩
      refine ⟨(hall hfull).1, ?_⟩
      rw [forall_mem_cons]
      exact ⟨hdrops.cond_false hcond hc, (hall hfull).2⟩
    | true =>
      simp only [hc, if_true] at hdrops hall
      rcases peercidDrop_cases r.1 i with hkept | hdropped
      · rw [hkept] at hdrops hall
        refine ⟨new, hdrops, fun hfull => ?_⟩
        have hno := (hall hfull).1
        simp at hno
      · rw [hdropped] at hdrops hall
        refine ⟨_, .drop i (hcond _ hc) hdrops, fun hfull => ?_⟩
        have hgone : cond ((r.1.dropped i).e i) = false := by
          rw [Bool.eq_false_iff]
          intro htrue
          have hin := hcond _ htrue
          rw [Peercid.dropped, setEntry_self] at hin
          cases hin
        refine ⟨by simpa using (hall hfull).1, ?_⟩
        rw [forall_mem_cons]
        exact ⟨hdrops.cond_false hcond hgone, (hall hfull).2⟩

theorem dropWhere_spec (hcond : ∀ e, cond e = true → e.inUse = true) (p : Peercid) :
    ∃ new, Drops p (dropWhere cond p).1 new ∧
      ((dropWhere cond p).2 = false → ∀ i, cond ((dropWhere cond p).1.e i) = false) := by
  obtain ⟨new, hdrops, hall⟩ := dropRounds_spec hcond (List.finRange peercidCap) (p, false)
  exact ⟨new, hdrops, fun hfull i => (hall hfull).2 i (mem_finRange i)⟩

theorem dropRounds_none (h : ∀ i, cond (p.e i) = false) (l : List (Fin peercidCap)) (full : Bool) :
    l.foldl (dropRound cond) (p, full) = (p, full) := by
  induction l with
  | nil => rfl
  | cons i l ih =>
    have hround : dropRound cond (p, full) i = (p, full) := by
      simp only [dropRound, h i, Bool.false_eq_true, if_false]
    rw [foldl_cons, hround, ih]

end

/-! ## What the pool keeps -/

/-- The numbers held and those ever queued are all different, and the masks know the queued ones
that they reach. -/
structure PoolInv (p : Peercid) (owed : List UInt64) : Prop where
  distinct : ∀ i j, (p.e i).inUse = true → (p.e j).inUse = true → (p.e i).seq = (p.e j).seq → i = j
  ahead : ∀ i, (p.e i).inUse = true → (p.e i).seq.toNat < p.rpt.toNat + 64
  fresh : ∀ i, (p.e i).inUse = true → (p.e i).seq ∉ owed
  once : owed.Nodup
  owedAhead : ∀ seq ∈ owed, seq.toNat < p.rpt.toNat + 64
  recorded : ∀ seq ∈ owed, p.rpt.toNat ≤ seq.toNat + 64 → peercidRetired p seq = true

variable {e : PeercidEntry} {f : NcidFrame}

section

variable {p p' : Peercid} {owed new : List UInt64}

section

variable (h : PoolInv p owed)

include h

theorem PoolInv.owe (hnew : seq ∉ owed) (hfree : ∀ i, (p.e i).inUse = true → (p.e i).seq ≠ seq)
    (hahead : seq.toNat < p.rpt.toNat + 64) : PoolInv (p.owing seq) (owed ++ [seq]) where
  __ := h
  fresh i hi := by
    rw [mem_append, mem_singleton, not_or]
    exact ⟨h.fresh i hi, hfree i hi⟩
  once := h.once.append (nodup_singleton _) (disjoint_singleton.mpr hnew)
  owedAhead := forall_mem_append.mpr ⟨h.owedAhead, forall_mem_singleton.mpr hahead⟩
  recorded := by
    rw [forall_mem_append, forall_mem_singleton]
    refine ⟨fun x hx hlow => ?_, fun hlow => ?_⟩
    · exact owing_retired_of (h.recorded x hx hlow)
    · exact owing_retired_self ⟨hlow, hahead⟩

/-- Only the numbers of the entries in use are looked at. -/
theorem PoolInv.of_entries {e : Fin peercidCap → PeercidEntry}
    (hsame : ∀ j, (e j).inUse = true → (p.e j).inUse = true ∧ (e j).seq = (p.e j).seq) :
    PoolInv { p with e := e } owed where
  distinct j k hj hk hseq := by
    rw [(hsame j hj).2, (hsame k hk).2] at hseq
    exact h.distinct j k (hsame j hj).1 (hsame k hk).1 hseq
  ahead j hj := by
    rw [(hsame j hj).2]
    exact h.ahead j (hsame j hj).1
  fresh j hj := by
    rw [(hsame j hj).2]
    exact h.fresh j (hsame j hj).1
  once := h.once
  owedAhead := h.owedAhead
  recorded := h.recorded

theorem PoolInv.dropped (hin : (p.e i).inUse = true) :
    PoolInv (p.dropped i) (owed ++ [(p.e i).seq]) := by
  -- first the entry is no longer in use, then its number is queued
  have hunused : PoolInv (p.setEntry i { p.e i with inUse := false }) owed :=
    h.of_entries (forall_setEntry
      (P := fun j e => e.inUse = true → (p.e j).inUse = true ∧ e.seq = (p.e j).seq)
      (fun hj => by cases hj) fun j _ hj => ⟨hj, rfl⟩)
  refine hunused.owe (h.fresh i hin) ?_ (h.ahead i hin)
  refine forall_setEntry (P := fun _ e => e.inUse = true → e.seq ≠ (p.e i).seq)
    (fun hj => by cases hj) fun j hji hj hsame => ?_
  exact hji (h.distinct j i hj hin hsame)

theorem PoolInv.drops (hdrops : Drops p p' new) : PoolInv p' (owed ++ new) := by
  induction hdrops generalizing owed with
  | refl p => rwa [append_nil]
  | @drop p _ new i hin _ ih =>
    have hnext := ih (h.dropped hin)
    rwa [append_assoc] at hnext

theorem PoolInv.slide (hrpt : p.rpt < rpt) : PoolInv (peercidSlide p rpt) owed := by
  have hlt : p.rpt.toNat < rpt.toNat := UInt64.lt_iff_toNat_lt.mp hrpt
  have hsame : (peercidSlide p rpt).e = p.e := (peercidSlide_same p rpt).1
  refine ⟨?_, ?_, ?_, h.once, ?_, ?_⟩
  · rw [hsame]
    exact h.distinct
  · rw [hsame]
    intro i hi
    exact lt_trans (h.ahead i hi) (Nat.add_lt_add_right hlt 64)
  · rw [hsame]
    exact h.fresh
  · intro seq hseq
    exact lt_trans (h.owedAhead seq hseq) (Nat.add_lt_add_right hlt 64)
  · intro seq hseq hlow
    have hhigh := h.owedAhead seq hseq
    have hlow' : rpt.toNat ≤ seq.toNat + 64 := hlow
    rw [peercidSlide_retired hrpt ⟨by omega, hhigh⟩ ⟨hlow', by omega⟩]
    exact h.recorded seq hseq (by omega)

/-- A number within the masks that they do not know was never queued. -/
theorem PoolInv.not_owed (hnear : Near p.rpt seq)
    (hretired : peercidRetired p seq = false) : seq ∉ owed := by
  intro howed
  rw [h.recorded seq howed hnear.1] at hretired
  cases hretired

theorem PoolInv.hold (hnew : f.seq ∉ owed) (hfree : ∀ j, (p.e j).inUse = true → (p.e j).seq ≠ f.seq)
    (hahead : f.seq.toNat < p.rpt.toNat + 64) :
    PoolInv (p.setEntry i (peercidEntryOf f.seq f.cid true)) owed := by
  have hself := setEntry_self p i (peercidEntryOf f.seq f.cid true)
  have hother := fun j (hj : j ≠ i) => setEntry_of_ne p hj (peercidEntryOf f.seq f.cid true)
  refine ⟨fun j k hj hk hseq => ?_,
    forall_setEntry (P := fun _ e => e.inUse = true → e.seq.toNat < p.rpt.toNat + 64)
      (fun _ => hahead) fun j _ => h.ahead j,
    forall_setEntry (P := fun _ e => e.inUse = true → e.seq ∉ owed) (fun _ => hnew)
      fun j _ => h.fresh j, h.once, h.owedAhead, h.recorded⟩
  by_cases hji : j = i
  · by_cases hki : k = i
    · rw [hji, hki]
    · rw [hji, hself, hother k hki] at hseq
      rw [hother k hki] at hk
      exact absurd hseq.symm (hfree k hk)
  · rw [hother j hji] at hj hseq
    by_cases hki : k = i
    · rw [hki, hself] at hseq
      exact absurd hseq (hfree j hj)
    · rw [hother k hki] at hk hseq
      exact h.distinct j k hj hk hseq

end

end

/-! ## What an addition does -/

/-- What becomes of the number of a frame, with what is queued. -/
inductive Took (p : Peercid) (f : NcidFrame) : Peercid → List UInt64 → Prop
  | kept : Took p f p []
  | owed (hnew : peercidRetired p f.seq = false) (hbelow : f.seq < p.rpt) :
    Took p f (p.owing f.seq) [f.seq]
  | held (i : Fin peercidCap) (hunused : (p.e i).inUse = false)
      (hnew : peercidRetired p f.seq = false) (hge : p.rpt ≤ f.seq)
      (hfree : ∀ j, (p.e j).inUse = true → (p.e j).seq ≠ f.seq) :
    Took p f (p.setEntry i (peercidEntryOf f.seq f.cid true)) []

theorem peercidTake_took (hok : (peercidTake p f).2 = none) :
    ∃ new, Took p f (peercidTake p f).1 new := by
  unfold peercidTake at hok ⊢
  split
  · exact ⟨[], .kept⟩
  · rename_i hnew
    rw [if_neg hnew] at hok
    rw [Bool.not_eq_true] at hnew
    split
    · rename_i hbelow
      rw [if_pos hbelow] at hok
      unfold peercidOweErr at hok ⊢
      rcases peercidRetireOnce_cases p f.seq with h | h
      · rw [h] at hok
        cases hok
      · rw [h]
        exact ⟨_, .owed hnew hbelow⟩
    · rename_i hge
      rw [if_neg hge] at hok
      unfold peercidStore at hok ⊢
      split
      · exact ⟨[], .kept⟩
      · rename_i hheld
        rw [hheld] at hok
        have hfree : ∀ j, (p.e j).inUse = true → (p.e j).seq ≠ f.seq := by
          intro j hj hseq
          have hno := find?_eq_none.mp hheld j (mem_finRange j)
          simp [hj, hseq] at hno
        unfold peercidHold at hok ⊢
        split
        · rename_i i hfind
          have hunused := find?_some hfind
          exact ⟨[], .held i (by simpa using hunused) hnew (UInt64.not_lt.mp hge) hfree⟩
        · rename_i hnone
          rw [hnone] at hok
          cases hok

theorem peercidAdd_took (hok : (peercidAdd p f).2 = none) :
    p.empty = false ∧ ∃ p₀ p₁ dropped new, (p₀ = p ∧ f.retirePriorTo ≤ p.rpt ∧ p₁ = p ∨
        p₀ = peercidSlide p f.retirePriorTo ∧ p.rpt < f.retirePriorTo ∧
          ∀ i, (p₁.e i).inUse = true → p₁.rpt ≤ (p₁.e i).seq) ∧
      Drops p₀ p₁ dropped ∧ Took p₁ f (peercidAdd p f).1 new := by
  unfold peercidAdd at hok ⊢
  cases hempty : p.empty with
  | true =>
    rw [hempty] at hok
    cases hok
  | false =>
    refine ⟨rfl, ?_⟩
    rw [hempty] at hok
    simp only [Bool.false_eq_true, if_false] at hok ⊢
    cases hfull : (peercidRaiseRpt p f.retirePriorTo).2 with
    | true =>
      rw [hfull] at hok
      cases hok
    | false =>
      rw [hfull] at hok
      obtain ⟨new, htook⟩ := peercidTake_took hok
      unfold peercidRaiseRpt at hfull htook ⊢
      split at hfull
      · rename_i hle
        rw [if_pos hle] at htook ⊢
        exact ⟨p, p, [], new, .inl ⟨rfl, hle, rfl⟩, .refl p, htook⟩
      · rename_i hgt
        rw [if_neg hgt] at htook ⊢
        have hin : ∀ e, peercidBelow f.retirePriorTo e = true → e.inUse = true := by
          intro e he
          rw [peercidBelow, Bool.and_eq_true] at he
          exact he.1
        obtain ⟨dropped, hdrops, hall⟩ := dropWhere_spec hin (peercidSlide p f.retirePriorTo)
        refine ⟨_, _, dropped, new, .inr ⟨rfl, UInt64.not_le.mp hgt, ?_⟩, hdrops, htook⟩
        intro i hi
        have hno := hall hfull i
        rw [peercidBelow, Bool.and_eq_false_iff] at hno
        rcases hno with hno | hno
        · rw [hi] at hno
          cases hno
        · rw [hdrops.same.1]
          exact UInt64.not_lt.mp (of_decide_eq_false hno)

/-! ## Bindings -/

/-- What is recorded of the numbers beside the pool agrees with the entries that are held. -/
structure BindInv (p : Peercid) (owed : List UInt64) (boundTo : UInt64 → Option PathselKey)
    (marked : UInt64 → Bool) : Prop where
  bound : ∀ i, (p.e i).inUse = true →
    boundTo (p.e i).seq = if (p.e i).bound then some (p.e i).key else none
  shared : ∀ i, (p.e i).inUse = true → marked (p.e i).seq = (p.e i).shared
  known : ∀ seq, boundTo seq ≠ none ∨ marked seq = true →
    seq ∈ owed ∨ ∃ i, (p.e i).inUse = true ∧ (p.e i).seq = seq

section

variable {p p' : Peercid} {owed new : List UInt64} {boundTo : UInt64 → Option PathselKey}
  {marked : UInt64 → Bool}

section

variable (h : BindInv p owed boundTo marked)
include h

theorem BindInv.drops (hdrops : Drops p p' new) : BindInv p' (owed ++ new) boundTo marked := by
  induction hdrops generalizing owed with
  | refl p => rwa [append_nil]
  | @drop p _ new i hin _ ih =>
    have hdropped : BindInv (p.dropped i) (owed ++ [(p.e i).seq]) boundTo marked := by
      refine ⟨forall_dropped (P := fun _ e => e.inUse = true →
          boundTo e.seq = if e.bound then some e.key else none)
          (fun j _ => h.bound j) (fun hj => by cases hj),
        forall_dropped (P := fun _ e => e.inUse = true → marked e.seq = e.shared)
          (fun j _ => h.shared j) (fun hj => by cases hj), fun seq hseq => ?_⟩
      rw [mem_append, mem_singleton]
      rcases h.known seq hseq with howed | ⟨j, hj, rfl⟩
      · exact .inl (.inl howed)
      · by_cases hji : j = i
        · rw [hji]
          exact .inl (.inr rfl)
        · have hentry : (p.dropped i).e j = p.e j := setEntry_of_ne _ hji _
          exact .inr ⟨j, by rw [hentry]; exact hj, by rw [hentry]⟩
    have hnext := ih hdropped
    rwa [append_assoc] at hnext

theorem BindInv.took
    (hnear : peercidRetired p f.seq = false → f.seq ∉ owed) (htook : Took p f p' new) :
    BindInv p' (owed ++ new) boundTo marked := by
  cases htook with
  | kept => rwa [append_nil]
  | owed hnew hbelow =>
    refine ⟨h.bound, h.shared, fun seq hseq => ?_⟩
    exact (h.known seq hseq).imp_left fun howed => mem_append_left _ howed
  | held i hunused hnew hge hfree =>
    rw [append_nil]
    -- nothing is recorded of a number that is neither held nor was queued
    have hblank : ¬ (boundTo f.seq ≠ none ∨ marked f.seq = true) := by
      intro hseq
      rcases h.known f.seq hseq with howed | ⟨j, hj, hsame⟩
      · exact hnear hnew howed
      · exact hfree j hj hsame
    rw [not_or, not_not, Bool.not_eq_true] at hblank
    refine ⟨forall_setEntry (P := fun _ e => e.inUse = true →
        boundTo e.seq = if e.bound then some e.key else none)
        (fun _ => hblank.1) fun j _ => h.bound j,
      forall_setEntry (P := fun _ e => e.inUse = true → marked e.seq = e.shared)
        (fun _ => hblank.2) fun j _ => h.shared j, fun seq hseq => ?_⟩
    refine (h.known seq hseq).imp_right ?_
    rintro ⟨j, hj, hsame⟩
    have hji : j ≠ i := by
      rintro rfl
      rw [hunused] at hj
      cases hj
    exact ⟨j, by rw [setEntry_of_ne _ hji]; exact hj, by rw [setEntry_of_ne _ hji]; exact hsame⟩

/-- A change of one held entry that keeps its number, with what is recorded of it. -/
theorem BindInv.touch
    (hdistinct : ∀ i j, (p.e i).inUse = true → (p.e j).inUse = true →
      (p.e i).seq = (p.e j).seq → i = j)
    (hin : (p.e i).inUse = true) (huse : e.inUse = true) (hseq : e.seq = (p.e i).seq)
    (b : Option PathselKey) (m : Bool) (hb : b = if e.bound then some e.key else none)
    (hm : m = e.shared) :
    BindInv (p.setEntry i e) owed (update boundTo (p.e i).seq b)
      (update marked (p.e i).seq m) := by
  have hother : ∀ j, j ≠ i → (p.e j).inUse = true → (p.e j).seq ≠ (p.e i).seq :=
    fun j hji hj hsame => hji (hdistinct j i hj hin hsame)
  refine ⟨forall_setEntry (P := fun _ e => e.inUse = true → update boundTo (p.e i).seq b
      e.seq = if e.bound then some e.key else none) ?_ ?_,
    forall_setEntry (P := fun _ e => e.inUse = true →
      update marked (p.e i).seq m e.seq = e.shared) ?_ ?_, fun seq hknown => ?_⟩
  · intro _
    rw [hseq, update_self, hb]
  · intro j hji hj
    rw [update_of_ne (hother j hji hj)]
    exact h.bound j hj
  · intro _
    rw [hseq, update_self, hm]
  · intro j hji hj
    rw [update_of_ne (hother j hji hj)]
    exact h.shared j hj
  · by_cases hsame : seq = (p.e i).seq
    · exact .inr ⟨i, by rw [setEntry_self]; exact huse, by rw [setEntry_self, hseq, hsame]⟩
    · rw [update_of_ne hsame, update_of_ne hsame] at hknown
      refine (h.known seq hknown).imp_right ?_
      rintro ⟨j, hj, rfl⟩
      have hji : j ≠ i := fun hji => hsame (by rw [hji])
      exact ⟨j, by rw [setEntry_of_ne _ hji]; exact hj, by rw [setEntry_of_ne _ hji]⟩

end

theorem PoolInv.touch (h : PoolInv p owed) (huse : e.inUse = (p.e i).inUse)
    (hseq : e.seq = (p.e i).seq) : PoolInv (p.setEntry i e) owed :=
  h.of_entries (forall_setEntry
    (P := fun j e => e.inUse = true → (p.e j).inUse = true ∧ e.seq = (p.e j).seq)
    (fun hin => ⟨huse ▸ hin, hseq⟩) fun _ _ hj => ⟨hj, rfl⟩)

end

/-! ## Runs -/

inductive PoolOp where
  | add (f : NcidFrame)
  | bind (k : PathselKey)
  | lookup (k : PathselKey)
  | share (cur : PathselKey)
  | sweep (tracked : List PathselKey)
  | takeRetire

/-- The pool, with all numbers queued so far, the path of each ID and whether it was marked shared.
-/
structure PoolSystem where
  p : Peercid
  owed : List UInt64
  boundTo : UInt64 → Option PathselKey
  marked : UInt64 → Bool

/-- The pool with the ID of the handshake. -/
def poolStart (cid0 : List UInt8) : PoolSystem where
  p := peercidInit cid0
  owed := []
  boundTo := fun _ => none
  marked := fun _ => false

def PoolSystem.queue (s : PoolSystem) (p : Peercid) : List UInt64 :=
  s.owed ++ p.retire.drop s.p.retire.length

def poolStep (s : PoolSystem) : PoolOp → PoolSystem
  | .add f =>
    let p := (peercidAdd s.p f).1
    { s with p := p, owed := s.queue p }
  | .bind k =>
    match peercidBind s.p k with
    -- an ID of length 0 is returned unbound
    | (p, some i) =>
      { s with
        p := p
        boundTo :=
          if s.p.empty then s.boundTo else update s.boundTo (s.p.e i).seq (some k) }
    | (p, none) => { s with p := p }
  | .lookup _ => s
  | .share cur =>
    match peercidShare s.p cur with
    | (p, some i) => { s with p := p, marked := update s.marked (s.p.e i).seq true }
    | (p, none) => { s with p := p }
  | .sweep tracked =>
    let p := peercidSweep s.p tracked
    { s with p := p, owed := s.queue p }
  | .takeRetire => { s with p := (peercidTakeRetire s.p).1 }

def raisedRpt (p : Peercid) (f : NcidFrame) : UInt64 :=
  if p.rpt < f.retirePriorTo then f.retirePriorTo else p.rpt

/-- An addition succeeds, and its number lies within the masks once Retire Prior To is raised. -/
def AddedNear (s : PoolSystem) : PoolOp → Prop
  | .add f => (peercidAdd s.p f).2 = none ∧ Near (raisedRpt s.p f) f.seq
  | _ => True

instance AddedNear.decidable (s : PoolSystem) : ∀ op, Decidable (AddedNear s op)
  | .add f =>
    inferInstanceAs (Decidable ((peercidAdd s.p f).2 = none ∧ Near (raisedRpt s.p f) f.seq))
  | .bind _ | .lookup _ | .share _ | .sweep _ | .takeRetire => inferInstanceAs (Decidable True)

/-- The ID was not queued for retirement, and if it is bound to another path it was marked shared,
on the same socket. -/
def Usable (s : PoolSystem) (seq : UInt64) (k : PathselKey) : Prop :=
  seq ∉ s.owed ∧ ∀ k₀, s.boundTo seq = some k₀ → k₀ = k ∨ s.marked seq = true ∧ k₀.fd = k.fd

/-- The operation returns only an ID that may be used on its path. -/
def ReturnsUsable (s : PoolSystem) : PoolOp → Prop
  | .bind k => ∀ i ∈ (peercidBind s.p k).2, Usable s (s.p.e i).seq k
  | .lookup k => ∀ i ∈ peercidOf s.p k, Usable s (s.p.e i).seq k
  | .share cur => ∀ i ∈ (peercidShare s.p cur).2, Usable s (s.p.e i).seq cur
  | _ => True

/-- The numbers of the IDs that are held are different, not below Retire Prior To and not queued for
retirement, and none was queued twice. -/
structure PoolOk (s : PoolSystem) : Prop where
  distinct : ∀ i j, (s.p.e i).inUse = true → (s.p.e j).inUse = true →
    (s.p.e i).seq = (s.p.e j).seq → i = j
  notBelow : ∀ i, (s.p.e i).inUse = true → s.p.rpt ≤ (s.p.e i).seq
  once : s.owed.Nodup
  notHeld : ∀ i, (s.p.e i).inUse = true → (s.p.e i).seq ∉ s.owed

structure PoolGood (s : PoolSystem) : Prop where
  inv : PoolInv s.p s.owed
  notBelow : ∀ i, (s.p.e i).inUse = true → s.p.rpt ≤ (s.p.e i).seq
  binds : BindInv s.p s.owed s.boundTo s.marked
  empty : s.p.empty = true → (s.p.e 0).inUse = true ∧ ∀ i, (s.p.e i).bound = false

theorem PoolGood.ok {s : PoolSystem} (h : PoolGood s) : PoolOk s :=
  ⟨h.inv.distinct, h.notBelow, h.inv.once, h.inv.fresh⟩

theorem poolStart_good (cid0 : List UInt8) : PoolGood (poolStart cid0) := by
  have hhold : peercidInit cid0 = (peercidZero (cid0.length = 0)).setEntry 0
      (peercidEntryOf 0 cid0 true) := rfl
  have hused : ∀ i, ((peercidInit cid0).e i).inUse = true → i = 0 := by
    intro i hi
    by_contra hne
    rw [hhold, setEntry_of_ne _ hne] at hi
    cases hi
  have hentry : (peercidInit cid0).e 0 = peercidEntryOf 0 cid0 true := by rw [hhold, setEntry_self]
  have hbound : ∀ i, ((peercidInit cid0).e i).bound = false ∧
      ((peercidInit cid0).e i).shared = false := by
    intro i
    by_cases hi : i = 0
    · rw [hi, hentry]
      exact ⟨rfl, rfl⟩
    · rw [hhold, setEntry_of_ne _ hi]
      exact ⟨rfl, rfl⟩
  refine ⟨⟨?_, ?_, ?_, nodup_nil, by simp [poolStart], by simp [poolStart]⟩, ?_, ⟨?_, ?_, ?_⟩,
    ?_⟩
  · intro i j hi hj _
    rw [hused i hi, hused j hj]
  · intro i hi
    rw [hused i hi]
    show ((peercidInit cid0).e 0).seq.toNat < _
    exact lt_of_lt_of_le (show (0 : UInt64).toNat < 64 by decide) (Nat.le_add_left 64 _)
  · intro i _
    exact not_mem_nil
  · intro i _
    exact UInt64.zero_le
  · intro i _
    rw [show (poolStart cid0).p = peercidInit cid0 from rfl, (hbound i).1]
    rfl
  · intro i _
    exact (hbound i).2.symm
  · intro seq hseq
    rcases hseq with hseq | hseq
    · exact absurd rfl hseq
    · cases hseq
  · intro _
    refine ⟨?_, fun i => (hbound i).1⟩
    show ((peercidInit cid0).e 0).inUse = true
    rfl

variable {k : PathselKey}

section

variable {s : PoolSystem}

theorem notBelow_touch (h : ∀ j, (p.e j).inUse = true → p.rpt ≤ (p.e j).seq)
    (hin : (p.e i).inUse = true) (hseq : e.seq = (p.e i).seq) (j : Fin peercidCap)
    (hj : ((p.setEntry i e).e j).inUse = true) : p.rpt ≤ ((p.setEntry i e).e j).seq :=
  forall_setEntry (P := fun _ e => e.inUse = true → p.rpt ≤ e.seq) (fun _ => hseq ▸ h i hin)
    (fun j _ => h j) j hj

theorem peercidOwn_owns (h : peercidOwn p k = some i) :
    (p.e i).inUse = true ∧ (p.e i).bound = true ∧ (p.e i).key = k := by
  have howns := find?_some h
  simp only [peercidOwns, peercidLive, Bool.and_eq_true, pathselKeyEq_iff] at howns
  exact ⟨howns.1.1, howns.1.2, howns.2⟩

theorem peercidShared_shares (h : peercidShared p k = some i) :
    (p.e i).inUse = true ∧ (p.e i).bound = true ∧ (p.e i).shared = true ∧
      (p.e i).key.fd = k.fd := by
  have hshares := find?_some h
  simp only [peercidShares, peercidLive, Bool.and_eq_true, decide_eq_true_eq] at hshares
  exact ⟨hshares.1.1.1, hshares.1.1.2, hshares.1.2, hshares.2⟩

theorem peercidOf_live (h : peercidOf p k = some i) :
    (p.e i).inUse = true ∧ (p.e i).bound = true ∧
      ((p.e i).key = k ∨ (p.e i).shared = true ∧ (p.e i).key.fd = k.fd) := by
  rcases Option.or_eq_some_iff.mp h with hown | ⟨-, hshared⟩
  · obtain ⟨hin, hbound, hkey⟩ := peercidOwn_owns hown
    exact ⟨hin, hbound, .inl hkey⟩
  · obtain ⟨hin, hbound, hmark, hfd⟩ := peercidShared_shares hshared
    exact ⟨hin, hbound, .inr ⟨hmark, hfd⟩⟩

theorem peercidOldestFree_unbound (h : peercidOldestFree p = some i) :
    (p.e i).inUse = true ∧ (p.e i).bound = false := by
  -- whatever the loop holds is an entry that is free to be bound
  have hloop : ∀ (l : List (Fin peercidCap)) (best : Option (Fin peercidCap)),
      (∀ b ∈ best, peercidUnbound (p.e b) = true) →
      ∀ b ∈ l.foldl (fun best i => if peercidBetter p best i then some i else best) best,
        peercidUnbound (p.e b) = true := by
    intro l
    induction l with
    | nil => exact fun _ hbest => hbest
    | cons j l ih =>
      intro best hbest
      rw [foldl_cons]
      apply ih
      split
      · rename_i hbetter
        intro b hb
        cases hb
        exact (Bool.and_eq_true _ _ ▸ hbetter).1
      · exact hbest
  have hfree := hloop (List.finRange peercidCap) none (by simp) i h
  simpa [peercidUnbound] using hfree

section

variable (h : PoolGood s)
include h

theorem PoolGood.add (hadd : AddedNear s (.add f)) : PoolGood (poolStep s (.add f)) := by
  obtain ⟨hok, hnear⟩ := hadd
  obtain ⟨hempty, p₀, p₁, dropped, new, hraise, hdrops, htook⟩ := peercidAdd_took hok
  have hinv₀ : PoolInv p₀ s.owed ∧ BindInv p₀ s.owed s.boundTo s.marked ∧
      p₀.rpt = raisedRpt s.p f ∧ p₀.retire = s.p.retire ∧ p₀.empty = false := by
    rcases hraise with ⟨rfl, hle, -⟩ | ⟨rfl, hlt, -⟩
    · exact ⟨h.inv, h.binds, (if_neg (UInt64.not_lt.mpr hle)).symm, rfl, hempty⟩
    · obtain ⟨he, hqueue, hflag⟩ := peercidSlide_same s.p f.retirePriorTo
      exact ⟨h.inv.slide hlt, ⟨he ▸ h.binds.bound, he ▸ h.binds.shared, he ▸ h.binds.known⟩,
        (if_pos hlt).symm, hqueue, hflag.trans hempty⟩
  obtain ⟨hpool₀, hbind₀, hrpt₀, hretire₀, hempty₀⟩ := hinv₀
  have hpool₁ := hpool₀.drops hdrops
  have hbind₁ := hbind₀.drops hdrops
  have hrpt₁ : p₁.rpt = raisedRpt s.p f := hdrops.same.1.trans hrpt₀
  have hempty₁ : p₁.empty = false := hdrops.same.2.trans hempty₀
  have hbelow₁ : ∀ i, (p₁.e i).inUse = true → p₁.rpt ≤ (p₁.e i).seq := by
    rcases hraise with ⟨-, -, rfl⟩ | ⟨-, -, hall⟩
    · exact h.notBelow
    · exact hall
  rw [← hrpt₁] at hnear
  have hnot : peercidRetired p₁ f.seq = false → f.seq ∉ s.owed ++ dropped := hpool₁.not_owed hnear
  have hbind₂ := hbind₁.took hnot htook
  have hqueue : (poolStep s (.add f)).owed = s.owed ++ dropped ++ new := by
    have hretire₁ : p₁.retire = s.p.retire ++ dropped := by rw [hdrops.retire, hretire₀]
    have hretire₂ : (peercidAdd s.p f).1.retire = s.p.retire ++ (dropped ++ new) := by
      generalize (peercidAdd s.p f).1 = p₂ at htook
      cases htook with
      | kept => rw [hretire₁, append_nil]
      | owed => exact (congrArg (· ++ [f.seq]) hretire₁).trans (append_assoc ..)
      | held i => exact hretire₁.trans (by rw [append_nil])
    simp only [poolStep, PoolSystem.queue]
    rw [hretire₂, drop_left, append_assoc]
  have hp : (poolStep s (.add f)).p = (peercidAdd s.p f).1 := rfl
  refine ⟨?_, ?_, ?_, ?_⟩
  · rw [hqueue, hp]
    generalize (peercidAdd s.p f).1 = p₂ at htook
    cases htook with
    | kept => rwa [append_nil]
    | owed hnew hlt =>
      refine hpool₁.owe (hnot hnew) ?_ hnear.2
      intro i hi hsame
      have hle := hbelow₁ i hi
      rw [hsame] at hle
      exact absurd hlt (UInt64.not_lt.mpr hle)
    | held i hunused hnew hge hfree =>
      rw [append_nil]
      exact hpool₁.hold (hnot hnew) hfree hnear.2
  · rw [hp]
    generalize (peercidAdd s.p f).1 = p₂ at htook
    cases htook with
    | kept | owed => exact hbelow₁
    | held i hunused hnew hge hfree =>
      intro j hj
      by_cases hji : j = i
      · rw [hji, setEntry_self]
        exact hge
      · rw [setEntry_of_ne _ hji] at hj ⊢
        exact hbelow₁ j hj
  · rw [hqueue, hp]
    exact hbind₂
  · intro htrue
    rw [hp] at htrue
    generalize (peercidAdd s.p f).1 = p₂ at htook htrue
    have hfalse : p₂.empty = false := by cases htook <;> exact hempty₁
    rw [hfalse] at htrue
    cases htrue

theorem PoolGood.sweep (tracked : List PathselKey) : PoolGood (poolStep s (.sweep tracked)) := by
  have hcond : ∀ e, peercidStale tracked e = true → e.inUse = true := by
    intro e he
    simp only [peercidStale, peercidLive, Bool.and_eq_true] at he
    exact he.1.1
  obtain ⟨new, hdrops, -⟩ := dropWhere_spec hcond s.p
  have hqueue : (poolStep s (.sweep tracked)).owed = s.owed ++ new := by
    simp only [poolStep, PoolSystem.queue, peercidSweep]
    rw [hdrops.retire, drop_left]
  refine ⟨?_, fun i hi => ?_, ?_, fun hempty => ?_⟩
  · rw [hqueue]
    exact h.inv.drops hdrops
  · have hentry := hdrops.entry i
    change ((dropWhere (peercidStale tracked) s.p).1.e i).inUse = true at hi
    change (dropWhere (peercidStale tracked) s.p).1.rpt ≤
      ((dropWhere (peercidStale tracked) s.p).1.e i).seq
    rw [hdrops.same.1]
    rcases hentry with heq | heq
    · rw [heq] at hi ⊢
      exact h.notBelow i hi
    · rw [heq] at hi
      cases hi
  · rw [hqueue]
    exact h.binds.drops hdrops
  · have hflag : s.p.empty = true := hdrops.same.2.symm.trans hempty
    have hfresh : ∀ i, peercidStale tracked (s.p.e i) = false := by
      intro i
      simp [peercidStale, peercidLive, (h.empty hflag).2 i]
    have hsame : (poolStep s (.sweep tracked)).p = s.p :=
      congrArg Prod.fst (dropRounds_none hfresh (List.finRange peercidCap) false)
    rw [hsame]
    exact h.empty hflag

theorem PoolGood.takeRetire : PoolGood (poolStep s .takeRetire) := by
  simp only [poolStep, peercidTakeRetire]
  split
  · exact h
  · exact { h with inv := { h.inv with }, binds := { h.binds with } }

theorem PoolGood.of_usable (hof : peercidOf s.p k = some i) : Usable s (s.p.e i).seq k := by
  obtain ⟨hin, hbound, hserves⟩ := peercidOf_live hof
  refine ⟨h.inv.fresh i hin, fun k₀ hk₀ => ?_⟩
  rw [h.binds.bound i hin, if_pos hbound] at hk₀
  cases hk₀
  rw [h.binds.shared i hin]
  exact hserves

theorem PoolGood.bind_usable (hbind : (peercidBind s.p k).2 = some i) :
    Usable s (s.p.e i).seq k := by
  have hfree : ∀ j, (s.p.e j).inUse = true → (s.p.e j).bound = false →
      Usable s (s.p.e j).seq k := by
    intro j hin hbound
    refine ⟨h.inv.fresh j hin, fun k₀ hk₀ => ?_⟩
    rw [h.binds.bound j hin, hbound] at hk₀
    cases hk₀
  simp only [peercidBind, peercidClaim] at hbind
  split at hbind
  · rename_i hempty
    cases hbind
    exact hfree 0 (h.empty hempty).1 ((h.empty hempty).2 0)
  · split at hbind
    · rename_i j hown
      cases hbind
      apply h.of_usable
      rw [peercidOf, hown]
      rfl
    · split at hbind
      · cases hbind
      rename_i j hold
      cases hbind
      exact hfree i (peercidOldestFree_unbound hold).1 (peercidOldestFree_unbound hold).2

theorem PoolGood.usable (op : PoolOp) : ReturnsUsable s op := by
  cases op with
  | add f => exact trivial
  | bind k => exact fun i hi => h.bind_usable hi
  | lookup k => exact fun i hi => h.of_usable hi
  | share cur =>
    intro i hi
    apply h.of_usable
    simp only [peercidShare] at hi
    split at hi
    · rename_i j hof
      cases hi
      exact hof
    · cases hi
  | sweep | takeRetire => exact trivial

theorem PoolGood.bind (k : PathselKey) : PoolGood (poolStep s (.bind k)) := by
  simp only [poolStep, peercidBind]
  by_cases hempty : s.p.empty = true
  · simp only [hempty, if_true]
    exact h
  · simp only [hempty, Bool.false_eq_true, if_false, peercidClaim]
    cases hown : peercidOwn s.p k with
    | some i =>
      obtain ⟨hin, hbound, hkey⟩ := peercidOwn_owns hown
      have hsame : update s.boundTo (s.p.e i).seq (some k) = s.boundTo := by
        rw [update_eq_self_iff, h.binds.bound i hin, if_pos hbound, hkey]
      dsimp only
      rw [hsame]
      exact h
    | none =>
      cases hold : peercidOldestFree s.p with
      | none => exact h
      | some i =>
        obtain ⟨hin, -⟩ := peercidOldestFree_unbound hold
        have hbinds := h.binds.touch h.inv.distinct hin
          (e := { s.p.e i with key := k, bound := true }) hin rfl (some k)
          (s.marked (s.p.e i).seq) rfl (h.binds.shared i hin)
        rw [update_eq_self] at hbinds
        exact ⟨h.inv.touch rfl rfl, notBelow_touch h.notBelow hin rfl, hbinds,
          fun htrue => absurd htrue hempty⟩

theorem PoolGood.share (cur : PathselKey) : PoolGood (poolStep s (.share cur)) := by
  simp only [poolStep, peercidShare]
  cases hof : peercidOf s.p cur with
  | none => exact h
  | some i =>
    obtain ⟨hin, hbound, -⟩ := peercidOf_live hof
    have hbinds := h.binds.touch h.inv.distinct hin (e := { s.p.e i with shared := true }) hin rfl
      (s.boundTo (s.p.e i).seq) true (h.binds.bound i hin) rfl
    rw [update_eq_self] at hbinds
    refine ⟨h.inv.touch rfl rfl, notBelow_touch h.notBelow hin rfl, hbinds, fun hempty => ?_⟩
    have hunbound := (h.empty hempty).2 i
    rw [hbound] at hunbound
    cases hunbound

theorem PoolGood.step {op : PoolOp} (hop : AddedNear s op) : PoolGood (poolStep s op) := by
  cases op with
  | add f => exact h.add hop
  | bind k => exact h.bind k
  | lookup k => exact h
  | share cur => exact h.share cur
  | sweep tracked => exact h.sweep tracked
  | takeRetire => exact h.takeRetire

end

end

/-- Over every run whose additions succeed with numbers within the masks, the IDs that are held have
different numbers, not below Retire Prior To; each number is queued for retirement at most once and
neither held nor returned afterwards; and an ID that is bound to a path is returned for another one
only if it was marked shared on the same socket. -/
theorem peercid_pool (cid0 : List UInt8) (ops : List PoolOp)
    (h : Along poolStep AddedNear (poolStart cid0) ops) :
    PoolOk (ops.foldl poolStep (poolStart cid0)) ∧
      Along poolStep ReturnsUsable (poolStart cid0) ops := by
  have hstep : ∀ s op, PoolGood s → AddedNear s op → PoolGood (poolStep s op) :=
    fun s op hs hop => hs.step hop
  constructor
  · exact (h.invariant hstep (poolStart_good cid0)).ok
  · exact h.of_invariant hstep (fun s op hs _ => hs.usable op) (poolStart_good cid0)

/-- Two paths use an ID each, the second shared; both are given up, and the peer sends the second ID
again. -/
def poolRun : List PoolOp :=
  [.bind (pathKeyOf 1), .add { seq := 1, retirePriorTo := 0, cid := [8] }, .bind (pathKeyOf 2),
    .share (pathKeyOf 2), .lookup (pathKeyOf 4), .sweep [], .takeRetire,
    .add { seq := 2, retirePriorTo := 1, cid := [9] },
    .add { seq := 1, retirePriorTo := 0, cid := [8] }]

/-- What the pool holds and returns in this run. -/
theorem peercid_pool_retiring :
    Along poolStep AddedNear (poolStart [7]) poolRun ∧
      PoolOk (poolRun.foldl poolStep (poolStart [7])) ∧
      Along poolStep ReturnsUsable (poolStart [7]) poolRun := by
  have h : Along poolStep AddedNear (poolStart [7]) poolRun := by decide +kernel
  exact ⟨h, peercid_pool [7] poolRun h⟩

end Wired.Transport
