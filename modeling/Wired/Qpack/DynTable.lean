import Wired.Lib.Ring
import Wired.Lib.Word

/-!
# The dynamic table

`dyntable.c`, `dynget.c` and `dynfind.c`. The entries' bytes are kept back to back in a ring of
`qpackDynMaxCapacity` bytes, stored twice so that an entry that runs past the ring's end still
reads as one piece, and the entries' positions in a ring of `qpackDynMaxEntries` slots. The
counters of inserted entries are natural numbers: an insert takes at least one byte of a stream
that has at most `2 ^ 62`.

The table stands for the list of its live entries, oldest first (`QpackDyn.Represents`);
`qpackDynInsert_represents` and `qpackDynGet_eq` are about that list.
-/

namespace Wired.Qpack

open Lib List

@[ext] structure Field where
  name : List UInt8
  value : List UInt8
deriving DecidableEq, Repr

/-- `QPACK_DYN_MAX_CAPACITY`: the largest capacity a table holds. -/
def qpackDynMaxCapacity : Nat := 2016

def qpackDynMaxEntries : Nat := 63

/-- Where an entry's bytes lie. -/
structure DynEntry where
  off : Nat
  nameLen : Nat
  valueLen : Nat

/-- The two rings; `dropped` is the absolute index of the oldest entry. -/
structure QpackDyn where
  bytes : Nat → UInt8
  ring : Nat → DynEntry
  head : Nat
  count : Nat
  tail : Nat
  dropped : Nat
  size : Nat
  capacity : Nat
  maxCapacity : Nat

def entrySize (nameLen valueLen : Nat) : Nat := nameLen + valueLen + 32

def clampCapacity (capacity : Nat) : Nat :=
  if capacity < qpackDynMaxCapacity then capacity else qpackDynMaxCapacity

def qpackDynInit (capacity : Nat) : QpackDyn where
  bytes := fun _ => 0
  ring := fun _ => { off := 0, nameLen := 0, valueLen := 0 }
  head := 0
  count := 0
  tail := 0
  dropped := 0
  size := 0
  capacity := clampCapacity capacity
  maxCapacity := clampCapacity capacity

def evictOldest (t : QpackDyn) : QpackDyn :=
  let e := t.ring t.head
  { t with
    size := t.size - entrySize e.nameLen e.valueLen
    head := (t.head + 1) % qpackDynMaxEntries
    count := t.count - 1
    dropped := t.dropped + 1 }

def overCapacity (t : QpackDyn) (need : Nat) : Bool := t.size + need > t.capacity

def qpackDynFits (t : QpackDyn) (f : Field) : Bool :=
  !overCapacity t (entrySize f.name.length f.value.length)

def qpackDynStorable (t : QpackDyn) (f : Field) : Bool :=
  entrySize f.name.length f.value.length ≤ t.capacity

/-- The loop of `make_room`; each round removes an entry, so `t.count` rounds are enough. -/
def makeRoomLoop (need : Nat) : Nat → QpackDyn → QpackDyn
  | 0, t => t
  | fuel + 1, t =>
    if t.count > 0 && overCapacity t need then makeRoomLoop need fuel (evictOldest t) else t

def makeRoom (t : QpackDyn) (need : Nat) : QpackDyn := makeRoomLoop need t.count t

def ringPutByte (t : QpackDyn) (b : UInt8) : QpackDyn :=
  { t with
    bytes := Function.update (Function.update t.bytes t.tail b) (t.tail + qpackDynMaxCapacity) b
    tail := (t.tail + 1) % qpackDynMaxCapacity }

def ringPut (t : QpackDyn) (src : List UInt8) : QpackDyn := src.foldl ringPutByte t

/-- The slot behind the live ones gets the position of the next entry. -/
def claimSlot (t : QpackDyn) (f : Field) : QpackDyn :=
  let slot := (t.head + t.count) % qpackDynMaxEntries
  { t with ring := Function.update t.ring slot ⟨t.tail, f.name.length, f.value.length⟩ }

def storeEntry (t : QpackDyn) (f : Field) : QpackDyn :=
  let t := ringPut (ringPut (claimSlot t f) f.name) f.value
  { t with size := t.size + entrySize f.name.length f.value.length, count := t.count + 1 }

/-- Insert an entry, evicting the oldest ones as needed; `none` if it cannot fit. -/
def qpackDynInsert (t : QpackDyn) (f : Field) : Option QpackDyn :=
  let need := entrySize f.name.length f.value.length
  if need > t.capacity then none else some (storeEntry (makeRoom t need) f)

def readBytes (t : QpackDyn) (off len : Nat) : List UInt8 :=
  (List.range len).map fun i => t.bytes (off + i)

def qpackDynEntryAt (t : QpackDyn) (off : Nat) : Field :=
  let e := t.ring ((t.head + off) % qpackDynMaxEntries)
  { name := readBytes t e.off e.nameLen, value := readBytes t (e.off + e.nameLen) e.valueLen }

def qpackDynSetCapacity (t : QpackDyn) (newCapacity : Nat) : QpackDyn :=
  makeRoom { t with capacity := clampCapacity newCapacity } 0

def qpackCapacityWithinLimit (capacity maxTableCapacity : Nat) : Bool :=
  capacity ≤ maxTableCapacity

/-! ## Lookup -/

def dynInRange (t : QpackDyn) (absIndex : Nat) : Bool :=
  t.dropped ≤ absIndex && absIndex < t.dropped + t.count

/-- The entry with an absolute index, if it is live. -/
def qpackDynGet (t : QpackDyn) (absIndex : Nat) : Option Field :=
  if dynInRange t absIndex then some (qpackDynEntryAt t (absIndex - t.dropped)) else none

def qpackRelToAbs (base rel : Nat) : Nat := subU64 (subU64 base rel) 1

def qpackPostbaseToAbs (base postbase : Nat) : Nat := addU64 base postbase

def qpackDynGetEncRel (t : QpackDyn) (rel : Nat) : Option Field :=
  qpackDynGet t (qpackRelToAbs (t.dropped + t.count) rel)

/-- A match, by the name alone or also by the value. -/
structure QpackMatch where
  absIndex : Nat
  valueMatched : Bool
deriving DecidableEq, Repr

/-- Classify a live entry: 2 for name and value, 1 for the name only, 0 for no match. -/
def classify (t : QpackDyn) (off : Nat) (f : Field) : Nat :=
  let e := qpackDynEntryAt t off
  if e.name ≠ f.name then 0 else if e.value = f.value then 2 else 1

/-- The scan of `qpack_dyn_find` over `n` entries from `off` on, with the name-only match so far. -/
def dynFindFrom (t : QpackDyn) (f : Field) : Nat → Nat → Option QpackMatch → Option QpackMatch
  | 0, _, found => found
  | n + 1, off, found =>
    match classify t off f with
    | 2 => some { absIndex := t.dropped + off, valueMatched := true }
    | 1 =>
      dynFindFrom t f n (off + 1)
        (if found.isNone then some { absIndex := t.dropped + off, valueMatched := false } else found)
    | _ => dynFindFrom t f n (off + 1) found

/-- Prefer a match of name and value; fall back to the name only. -/
def qpackDynFind (t : QpackDyn) (f : Field) : Option QpackMatch := dynFindFrom t f t.count 0 none

/-! ## The list of live entries -/

/-- What an entry counts in the table. -/
def Field.size (f : Field) : Nat := entrySize f.name.length f.value.length

def flatBytes (live : List Field) : List UInt8 := live.flatMap fun f => f.name ++ f.value

def entriesFrom : Nat → List Field → List DynEntry
  | _, [] => []
  | start, f :: fs =>
    { off := start % qpackDynMaxCapacity, nameLen := f.name.length, valueLen := f.value.length } ::
      entriesFrom (start + (f.name.length + f.value.length)) fs

/-- The byte ring and its mirror hold the entries' bytes from `start` on, the slots their positions.
-/
structure Layout (t : QpackDyn) (start : Nat) (live : List Field) : Prop where
  slots : RingHolds t.ring qpackDynMaxEntries t.head (entriesFrom start live)
  first : RingHolds t.bytes qpackDynMaxCapacity start (flatBytes live)
  mirror : RingHolds (fun i => t.bytes (i + qpackDynMaxCapacity)) qpackDynMaxCapacity start
    (flatBytes live)
  tail : t.tail = (start + (flatBytes live).length) % qpackDynMaxCapacity

/-- The entries of the table are those of `live`, oldest first. -/
structure QpackDyn.Holds (t : QpackDyn) (live : List Field) : Prop where
  count : t.count = live.length
  size : t.size = totalSize Field.size live
  head_lt : t.head < qpackDynMaxEntries
  layout : ∃ start, Layout t start live

/-- The table holds the entries of `live` within its capacity. -/
structure QpackDyn.Represents (t : QpackDyn) (live : List Field) : Prop extends t.Holds live where
  fits : t.size ≤ t.capacity
  capacity_le : t.capacity ≤ qpackDynMaxCapacity

theorem clampCapacity_le (capacity : Nat) : clampCapacity capacity ≤ qpackDynMaxCapacity := by
  unfold clampCapacity
  split
  · omega
  · exact le_rfl

theorem qpackDynInit_represents (capacity : Nat) : (qpackDynInit capacity).Represents [] where
  count := rfl
  size := rfl
  head_lt := Nat.zero_lt_succ _
  layout := ⟨0, RingHolds.nil _ _ _, RingHolds.nil _ _ _, RingHolds.nil _ _ _, rfl⟩
  fits := Nat.zero_le _
  capacity_le := clampCapacity_le capacity

/-- The largest capacity a peer allows says nothing about the entries. -/
theorem QpackDyn.Represents.withMax {t : QpackDyn} {live : List Field} (h : t.Represents live)
    (max : Nat) : ({ t with maxCapacity := max } : QpackDyn).Represents live where
  __ := h
  layout := h.layout.imp fun _ hl => { hl with }

theorem flatBytes_length (live : List Field) :
    (flatBytes live).length + 32 * live.length = totalSize Field.size live := by
  induction live with
  | nil => rfl
  | cons f fs ih =>
    simp only [flatBytes, flatMap_cons, length_append, length_cons, totalSize_cons,
      Field.size, entrySize] at ih ⊢
    omega

theorem entriesFrom_length (start : Nat) (live : List Field) :
    (entriesFrom start live).length = live.length := by
  induction live generalizing start with
  | nil => rfl
  | cons f fs ih => simp [entriesFrom, ih]

theorem entriesFrom_append (start : Nat) (live more : List Field) :
    entriesFrom start (live ++ more) =
      entriesFrom start live ++ entriesFrom (start + (flatBytes live).length) more := by
  induction live generalizing start with
  | nil => rfl
  | cons f fs ih =>
    simp only [cons_append, entriesFrom, ih, List.cons.injEq, true_and]
    congr 2
    simp only [flatBytes, flatMap_cons, length_append]
    omega

variable {t : QpackDyn} {live : List Field}

/-! ## Eviction -/

variable {f : Field} {start off : Nat}

theorem evictOldest_holds (h : t.Holds (f :: live)) : (evictOldest t).Holds live := by
  obtain ⟨start, hl⟩ := h.layout
  have he : t.ring t.head =
      ⟨start % qpackDynMaxCapacity, f.name.length, f.value.length⟩ := by
    have := hl.slots 0 _ rfl
    rwa [Nat.add_zero, Nat.mod_eq_of_lt h.head_lt] at this
  have hflat : flatBytes (f :: live) = (f.name ++ f.value) ++ flatBytes live := by simp [flatBytes]
  refine ⟨?_, ?_, Nat.mod_lt _ (by decide), start + (f.name.length + f.value.length), ?_⟩
  · simp [evictOldest, h.count]
  · simp [evictOldest, he, h.size, Field.size]
  · have hslots := (@RingHolds.append_iff _ _ _ _ [_] _).mp hl.slots
    have hfirst := RingHolds.append_iff.mp (hflat ▸ hl.first)
    have hmirror := RingHolds.append_iff.mp (hflat ▸ hl.mirror)
    rw [length_append] at hfirst hmirror
    refine ⟨hslots.2.congr_start ?_, hfirst.2, hmirror.2, ?_⟩
    · simp [evictOldest]
    · rw [evictOldest, hl.tail, hflat, length_append, length_append, ← Nat.add_assoc]

theorem makeRoomLoop_spec (need : Nat) {fuel : Nat} (h : t.Holds live)
    (hfuel : live.length ≤ fuel) :
    (makeRoomLoop need fuel t).Holds (trim Field.size t.capacity need live) ∧
      (makeRoomLoop need fuel t).dropped + (makeRoomLoop need fuel t).count =
        t.dropped + t.count ∧
      (makeRoomLoop need fuel t).capacity = t.capacity ∧
      (makeRoomLoop need fuel t).maxCapacity = t.maxCapacity := by
  induction fuel generalizing t live with
  | zero =>
    obtain rfl : live = [] := eq_nil_of_length_eq_zero (by omega)
    exact ⟨h, rfl, rfl, rfl⟩
  | succ fuel ih =>
    unfold makeRoomLoop
    cases live with
    | nil =>
      have hcount : t.count = 0 := h.count
      simp only [hcount, Nat.lt_irrefl, gt_iff_lt, decide_false, Bool.false_and,
        Bool.false_eq_true, if_false]
      exact ⟨h, trivial, trivial, trivial⟩
    | cons f fs =>
      have hcount : t.count = fs.length + 1 := h.count
      have hpos : t.count > 0 := by omega
      unfold trim
      simp only [hpos, decide_true, Bool.true_and, overCapacity, h.size, decide_eq_true_eq]
      split
      · obtain ⟨hh, hsum, hcap, hmax⟩ := ih (evictOldest_holds h) (by simpa using hfuel)
        refine ⟨hh, ?_, hcap, hmax⟩
        rw [hsum]
        simp only [evictOldest]
        omega
      · exact ⟨h, rfl, rfl, rfl⟩

/-- Making room removes entries at the front and counts them as dropped. -/
theorem makeRoom_spec (h : t.Holds live) (need : Nat) :
    (makeRoom t need).Holds (trim Field.size t.capacity need live) ∧
      (makeRoom t need).dropped + (makeRoom t need).count = t.dropped + t.count ∧
      (makeRoom t need).capacity = t.capacity ∧ (makeRoom t need).maxCapacity = t.maxCapacity :=
  makeRoomLoop_spec need h (Nat.le_of_eq h.count.symm)

/-! ## Insertion -/

theorem ringPut_eq (t : QpackDyn) (src : List UInt8) :
    ∃ bytes tail, ringPut t src = { t with bytes := bytes, tail := tail } := by
  induction src generalizing t with
  | nil => exact ⟨_, _, rfl⟩
  | cons b src ih =>
    obtain ⟨bytes, tail, h⟩ := ih (ringPutByte t b)
    exact ⟨bytes, tail, h⟩

theorem ringPut_spec {l : List UInt8} (src : List UInt8)
    (hfirst : RingHolds t.bytes qpackDynMaxCapacity start l)
    (hmirror : RingHolds (fun i => t.bytes (i + qpackDynMaxCapacity)) qpackDynMaxCapacity start l)
    (htail : t.tail = (start + l.length) % qpackDynMaxCapacity)
    (hroom : l.length + src.length ≤ qpackDynMaxCapacity) :
    RingHolds (ringPut t src).bytes qpackDynMaxCapacity start (l ++ src) ∧
      RingHolds (fun i => (ringPut t src).bytes (i + qpackDynMaxCapacity)) qpackDynMaxCapacity
        start (l ++ src) ∧
      (ringPut t src).tail = (start + (l ++ src).length) % qpackDynMaxCapacity := by
  induction src generalizing t l with
  | nil => simpa [ringPut] using ⟨hfirst, hmirror, htail⟩
  | cons b src ih =>
    simp only [length_cons] at hroom
    have hlt : t.tail < qpackDynMaxCapacity := htail ▸ Nat.mod_lt _ (by decide)
    have hfirst' : RingHolds (ringPutByte t b).bytes qpackDynMaxCapacity start (l ++ [b]) := by
      refine (hfirst.push (by omega) b).congr_cells (by decide) fun i hi => ?_
      rw [← htail]
      exact Function.update_of_ne (by omega) _ _
    have hmirror' : RingHolds (fun i => (ringPutByte t b).bytes (i + qpackDynMaxCapacity))
        qpackDynMaxCapacity start (l ++ [b]) := by
      refine (hmirror.push (by omega) b).congr_cells (by decide) fun i hi => ?_
      rw [← htail]
      simp only [ringPutByte, Function.update_apply, Nat.add_right_cancel_iff]
      split
      · rfl
      · rw [if_neg (by omega)]
    have htail' : (ringPutByte t b).tail =
        (start + (l ++ [b]).length) % qpackDynMaxCapacity := by
      simp only [ringPutByte, htail, length_append, length_singleton]
      rw [Nat.mod_add_mod, Nat.add_assoc]
    have hrec := ih hfirst' hmirror' htail' (by simp; omega)
    rwa [append_assoc] at hrec

theorem claimSlot_slots (h : t.Holds live) (hl : Layout t start live)
    (hslots : live.length < qpackDynMaxEntries) :
    RingHolds (claimSlot t f).ring qpackDynMaxEntries t.head (entriesFrom start (live ++ [f])) := by
  have hlen := entriesFrom_length start live
  have hpush := hl.slots.push (by rw [hlen]; exact hslots)
    ⟨t.tail, f.name.length, f.value.length⟩
  have hentries : entriesFrom start (live ++ [f]) =
      entriesFrom start live ++ [⟨t.tail, f.name.length, f.value.length⟩] := by
    rw [entriesFrom_append, hl.tail]
    rfl
  rw [hlen, ← h.count] at hpush
  rw [hentries]
  exact hpush

theorem storeEntry_holds (h : t.Holds live)
    (hbytes : (flatBytes live).length + (f.name.length + f.value.length) ≤ qpackDynMaxCapacity)
    (hslots : live.length < qpackDynMaxEntries) :
    (storeEntry t f).Holds (live ++ [f]) ∧ (storeEntry t f).dropped = t.dropped ∧
      (storeEntry t f).capacity = t.capacity ∧ (storeEntry t f).maxCapacity = t.maxCapacity := by
  obtain ⟨start, hl⟩ := h.layout
  have hflat : flatBytes (live ++ [f]) = flatBytes live ++ f.name ++ f.value := by simp [flatBytes]
  have hring := claimSlot_slots (f := f) h hl hslots
  obtain ⟨hn1, hn2, hn3⟩ := ringPut_spec (t := claimSlot t f) f.name hl.first hl.mirror
    hl.tail (by omega)
  obtain ⟨hv1, hv2, hv3⟩ := ringPut_spec f.value hn1 hn2 hn3 (by
    rw [length_append]
    omega)
  rw [← hflat] at hv1 hv2 hv3
  obtain ⟨bytes, tail, hname⟩ := ringPut_eq (claimSlot t f) f.name
  obtain ⟨bytes', tail', hvalue⟩ := ringPut_eq (ringPut (claimSlot t f) f.name) f.value
  unfold storeEntry
  rw [hvalue] at hv1 hv2 hv3 ⊢
  rw [hname]
  refine ⟨⟨?_, ?_, h.head_lt, start, hring, hv1, hv2, hv3⟩, rfl, rfl, rfl⟩
  · simp [claimSlot, h.count]
  · simp [claimSlot, h.size, Field.size]

/-- **Insertion.** The entries at the front go until the new one fits, which is appended. -/
theorem qpackDynInsert_represents (h : t.Represents live) (hf : f.size ≤ t.capacity) :
    ∃ t', qpackDynInsert t f = some t' ∧
      t'.Represents (trim Field.size t.capacity f.size live ++ [f]) ∧
      t'.dropped + t'.count = t.dropped + t.count + 1 ∧
      t'.capacity = t.capacity ∧ t'.maxCapacity = t.maxCapacity := by
  obtain ⟨hroom, hsum, hcap, hmax⟩ := makeRoom_spec h.toHolds f.size
  have hfits := trim_fits Field.size t.capacity f.size hf live
  have hflat := flatBytes_length (trim Field.size t.capacity f.size live)
  have hcapacity := h.capacity_le
  have hsize : f.size = f.name.length + f.value.length + 32 := rfl
  unfold qpackDynMaxCapacity at hcapacity
  obtain ⟨hstore, hdropped, hcap', hmax'⟩ := storeEntry_holds (f := f) hroom
    (by unfold qpackDynMaxCapacity; omega) (by unfold qpackDynMaxEntries; omega)
  refine ⟨storeEntry (makeRoom t f.size) f, if_neg (Nat.not_lt.mpr hf), ⟨hstore, ?_, ?_⟩, ?_,
    hcap'.trans hcap, hmax'.trans hmax⟩
  · rw [hstore.size, hcap'.trans hcap]
    simpa using hfits
  · rw [hcap'.trans hcap]
    exact h.capacity_le
  · rw [hdropped, hstore.count, length_append, length_singleton, ← hroom.count]
    omega

theorem qpackDynInsert_eq_none (hf : t.capacity < f.size) : qpackDynInsert t f = none :=
  if_pos hf

theorem qpackDynSetCapacity_represents (h : t.Represents live) (newCapacity : Nat) :
    (qpackDynSetCapacity t newCapacity).Represents
        (trim Field.size (clampCapacity newCapacity) 0 live) ∧
      (qpackDynSetCapacity t newCapacity).dropped + (qpackDynSetCapacity t newCapacity).count =
        t.dropped + t.count ∧
      (qpackDynSetCapacity t newCapacity).capacity = clampCapacity newCapacity ∧
      (qpackDynSetCapacity t newCapacity).maxCapacity = t.maxCapacity := by
  have hset : ({ t with capacity := clampCapacity newCapacity } : QpackDyn).Holds live :=
    { h with layout := h.layout.imp fun _ hl => { hl with } }
  obtain ⟨hroom, hsum, hcap, hmax⟩ := makeRoom_spec hset 0
  have hfits := trim_fits Field.size (clampCapacity newCapacity) 0 (Nat.zero_le _) live
  refine ⟨⟨hroom, ?_, ?_⟩, hsum, hcap, hmax⟩
  · show (makeRoom _ 0).size ≤ (makeRoom _ 0).capacity
    rw [hroom.size, hcap]
    exact hfits
  · show (makeRoom _ 0).capacity ≤ _
    rw [hcap]
    exact clampCapacity_le newCapacity

/-! ## Reading entries -/

/-- Bytes within one round of the ring are read from its first copy, the others from the mirror. -/
theorem readBytes_eq {src : List UInt8} (hfirst : RingHolds t.bytes qpackDynMaxCapacity start src)
    (hmirror : RingHolds (fun i => t.bytes (i + qpackDynMaxCapacity)) qpackDynMaxCapacity start src)
    (hoff : off % qpackDynMaxCapacity = start % qpackDynMaxCapacity)
    (hlen : off + src.length ≤ 2 * qpackDynMaxCapacity) : readBytes t off src.length = src := by
  refine ext_getElem (by simp [readBytes]) fun i hi hi' => ?_
  simp only [readBytes, getElem_map, getElem_range]
  have hpos : (start + i) % qpackDynMaxCapacity = (off + i) % qpackDynMaxCapacity := by
    rw [Nat.add_mod, ← hoff, ← Nat.add_mod]
  rcases Nat.lt_or_ge (off + i) qpackDynMaxCapacity with hlt | hge
  · have := hfirst i _ (getElem?_eq_getElem hi')
    rwa [hpos, Nat.mod_eq_of_lt hlt] at this
  · have := hmirror i _ (getElem?_eq_getElem hi')
    rw [hpos, Nat.mod_eq_sub_mod hge, Nat.mod_eq_of_lt (by omega)] at this
    simpa only [Nat.sub_add_cancel hge] using this

theorem entriesFrom_getElem? (start : Nat) (live : List Field) (i : Nat) :
    (entriesFrom start live)[i]? = live[i]?.map fun f =>
      ⟨(start + (flatBytes (live.take i)).length) % qpackDynMaxCapacity, f.name.length,
        f.value.length⟩ := by
  induction live generalizing start i with
  | nil => rfl
  | cons f fs ih =>
    cases i with
    | zero => rfl
    | succ i =>
      simp only [entriesFrom, getElem?_cons_succ, ih, take_succ_cons, flatBytes,
        flatMap_cons, length_append, Nat.add_assoc]

theorem qpackDynEntryAt_eq (h : t.Represents live) {i : Nat} (hf : live[i]? = some f) :
    qpackDynEntryAt t i = f := by
  obtain ⟨start, hl⟩ := h.layout
  have hslot := hl.slots i _ (by rw [entriesFrom_getElem?, hf]; rfl)
  have hsplit : live = live.take i ++ f :: live.drop (i + 1) := by
    obtain ⟨hi, rfl⟩ := List.getElem?_eq_some_iff.mp hf
    rw [getElem_cons_drop, take_append_drop]
  have hflat : flatBytes live =
      flatBytes (live.take i) ++ (f.name ++ (f.value ++ flatBytes (live.drop (i + 1)))) := by
    conv_lhs => rw [hsplit]
    simp [flatBytes]
  have hbytes : (flatBytes live).length ≤ qpackDynMaxCapacity := by
    have := flatBytes_length live
    have := h.size
    have := h.fits
    have := h.capacity_le
    omega
  rw [hflat] at hbytes
  simp only [length_append] at hbytes
  -- the name and the value are held right behind the bytes of the older entries
  have hfirst := (RingHolds.append_iff.mp (hflat ▸ hl.first)).2
  have hmirror := (RingHolds.append_iff.mp (hflat ▸ hl.mirror)).2
  have hfirst' := RingHolds.append_iff.mp hfirst
  have hmirror' := RingHolds.append_iff.mp hmirror
  set pos := start + (flatBytes (live.take i)).length
  have hmod : pos % qpackDynMaxCapacity < qpackDynMaxCapacity := Nat.mod_lt _ (by decide)
  have hname := readBytes_eq hfirst'.1 hmirror'.1 (Nat.mod_mod _ _) (by omega)
  have hvaluePos : (pos % qpackDynMaxCapacity + f.name.length) % qpackDynMaxCapacity =
      (pos + f.name.length) % qpackDynMaxCapacity := Nat.mod_add_mod _ _ _
  have hvalue := readBytes_eq (RingHolds.append_iff.mp hfirst'.2).1
    (RingHolds.append_iff.mp hmirror'.2).1 hvaluePos (by omega)
  simp only [qpackDynEntryAt, hslot, hname, hvalue]

/-- **Lookup.** An absolute index yields the entry of the list it stands for, and nothing outside
the list. -/
theorem qpackDynGet_eq (h : t.Represents live) (absIndex : Nat) :
    qpackDynGet t absIndex =
      if t.dropped ≤ absIndex then live[absIndex - t.dropped]? else none := by
  unfold qpackDynGet dynInRange
  simp only [h.count, Bool.and_eq_true, decide_eq_true_eq]
  split
  · next hin =>
    obtain ⟨f, hf⟩ : ∃ f, live[absIndex - t.dropped]? = some f :=
      ⟨_, getElem?_eq_getElem (by omega)⟩
    rw [if_pos hin.1, hf, qpackDynEntryAt_eq h hf]
  · next hout =>
    split
    · exact (getElem?_eq_none (by omega)).symm
    · rfl

/-- The entry at the index is live, has the name, and the value if the match says so. -/
def QpackMatch.Sound (t : QpackDyn) (f : Field) (m : QpackMatch) : Prop :=
  ∃ e, qpackDynGet t m.absIndex = some e ∧ e.name = f.name ∧
    (m.valueMatched = true ↔ e.value = f.value)

theorem QpackMatch.sound_at (hoff : off < t.count) (matched : Bool)
    (hname : (qpackDynEntryAt t off).name = f.name)
    (hvalue : matched = true ↔ (qpackDynEntryAt t off).value = f.value) :
    QpackMatch.Sound t f { absIndex := t.dropped + off, valueMatched := matched } := by
  refine ⟨qpackDynEntryAt t off, ?_, hname, hvalue⟩
  have hin : dynInRange t (t.dropped + off) = true := by
    simp [dynInRange]
    omega
  simp [qpackDynGet, hin]

theorem dynFindFrom_sound {n : Nat} {found : Option QpackMatch} {m : QpackMatch}
    (hn : off + n ≤ t.count) (hfound : ∀ m, found = some m → m.Sound t f)
    (hm : dynFindFrom t f n off found = some m) : m.Sound t f := by
  induction n generalizing off found with
  | zero => exact hfound m hm
  | succ n ih =>
    have hclass : classify t off f = if (qpackDynEntryAt t off).name ≠ f.name then 0
      else if (qpackDynEntryAt t off).value = f.value then 2 else 1 := rfl
    unfold dynFindFrom at hm
    by_cases hname : (qpackDynEntryAt t off).name = f.name
    · by_cases hvalue : (qpackDynEntryAt t off).value = f.value
      · simp only [hclass, hname, hvalue, ne_eq, not_true_eq_false, if_true, if_false,
          Option.some.injEq] at hm
        exact hm ▸ QpackMatch.sound_at (by omega) true hname (by simp [hvalue])
      · simp only [hclass, hname, hvalue, ne_eq, not_true_eq_false, if_false] at hm
        refine ih (by omega) (fun m' hm' => ?_) hm
        split at hm'
        · obtain rfl := Option.some.inj hm'
          exact QpackMatch.sound_at (by omega) false hname (by simp [hvalue])
        · exact hfound m' hm'
    · simp only [hclass, hname, ne_eq, not_false_eq_true, if_true] at hm
      exact ih (by omega) hfound hm

theorem qpackDynFind_sound {m : QpackMatch} (hm : qpackDynFind t f = some m) : m.Sound t f :=
  dynFindFrom_sound (Nat.le_of_eq (Nat.zero_add _)) (by simp) hm

end Wired.Qpack
