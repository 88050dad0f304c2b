import Wired.Lib.Word
import Wired.Transport.Varint

/-!
# ACK frames

`ack.c` and `ack_take.c`: the acknowledged packet numbers are sent as a walk downwards from the
largest one, the first range and then pairs of a gap and a length. The decoder reads all the pairs
and keeps the first `ackMaxRanges` ranges.

`AckBody` is what such a frame says, all its ranges included, and `AckBody.values` are the integers
behind its type. The decoder accepts exactly their spellings (`takeAck_reads`); `ack_codec` puts
encoder and decoder together.
-/

namespace Wired.Frame

open Lib Transport List Option

def frameAck : Nat := 0x02

/-- The type of an ACK with ECN counts. -/
def frameAckEcn : Nat := 0x03

/-- The number of ranges a frame stores. -/
def ackMaxRanges : Nat := 32

/-- The packet numbers from `lo` to `hi`, both included. -/
@[ext] structure AckRange where
  hi : Nat
  lo : Nat
deriving DecidableEq, Repr

/-- `ranges` are the first `n_ranges` entries of the array. -/
structure AckFrame where
  ackDelay : Nat
  ranges : List AckRange
  hasEcn : Bool
  ect0 : Nat
  ect1 : Nat
  ce : Nat
deriving DecidableEq, Repr

/-- How the decoders of frames begin: the type is taken to be `buf[0]`, and the fields to follow. -/
def behindType {α : Type} (d : Decoder UInt8 α) (buf : List UInt8) : Option (α × Nat) :=
  (d (buf.drop 1)).map fun r => (r.1, 1 + r.2)

/-! ## Encoding -/

def putPair (cap : Nat) (o : List UInt8) (prev cur : AckRange) : Option (List UInt8) := do
  let o ← varintPut cap o (subU64 (subU64 prev.lo cur.hi) 2)
  varintPut cap o (subU64 cur.hi cur.lo)

def ackType (f : AckFrame) : Nat := if f.hasEcn then frameAckEcn else frameAck

def putAckMeta (cap : Nat) (o : List UInt8) (f : AckFrame) (r0 : AckRange) :
    Option (List UInt8) := do
  let o ← varintPut cap o (ackType f)
  let o ← varintPut cap o r0.hi
  varintPut cap o f.ackDelay

def putTwo (cap : Nat) (o : List UInt8) (a b : Nat) : Option (List UInt8) := do
  let o ← varintPut cap o a
  varintPut cap o b

/-- The ECN counts, if the frame has them. -/
def putAckEcn (cap : Nat) (o : List UInt8) (f : AckFrame) : Option (List UInt8) :=
  if !f.hasEcn then some o
  else do
    let o ← putTwo cap o f.ect0 f.ect1
    varintPut cap o f.ce

/-- The fields up to the first range. -/
def putAckHead (cap : Nat) (o : List UInt8) (f : AckFrame) (r0 : AckRange) :
    Option (List UInt8) := do
  let o ← putAckMeta cap o f r0
  putTwo cap o (f.ranges.length - 1) (subU64 r0.hi r0.lo)

/-- The source goes on with the next pair after one that did not fit; the answer is the same. -/
def putAckPairs (cap : Nat) (o : List UInt8) (prev : AckRange) :
    List AckRange → Option (List UInt8)
  | [] => some o
  | cur :: rest => do
    let o ← putPair cap o prev cur
    putAckPairs cap o cur rest

/-- A frame has a range, and no more than it stores. -/
def rangesOk (n : Nat) : Bool := n ≠ 0 && n ≤ ackMaxRanges

/-- `none` where the source returns zero. -/
def ackEncode (cap : Nat) (f : AckFrame) : Option (List UInt8) :=
  match f.ranges with
  | [] => none
  | r0 :: rest =>
    if !rangesOk f.ranges.length then none
    else do
      let o ← putAckHead cap [] f r0
      let o ← putAckPairs cap o r0 rest
      putAckEcn cap o f

/-! ## Decoding -/

def takeAckMeta : Decoder UInt8 (Nat × Nat × Nat) := do
  let largest ← varintTake
  let delay ← varintTake
  let count ← varintTake
  pure (largest, delay, count)

def takeFirst (largest : Nat) : Decoder UInt8 AckRange := do
  let first ← varintTake
  if first ≤ largest then pure { hi := largest, lo := subU64 largest first } else Decoder.fail

def pairFits (prevLo gap len : Nat) : Bool :=
  prevLo ≥ addU64 gap 2 && subU64 (subU64 prevLo gap) 2 ≥ len

/-- The range of one pair; the next pair is counted down from its low end. -/
def takePair (prevLo : Nat) : Decoder UInt8 AckRange := do
  let gap ← varintTake
  let len ← varintTake
  if pairFits prevLo gap len then
    let hi := subU64 (subU64 prevLo gap) 2
    pure { hi := hi, lo := subU64 hi len }
  else Decoder.fail

/-- The ranges that are stored, of `count` pairs, the first of which is for the slot `i`. -/
def takeAckPairs : Nat → Nat → Nat → Decoder UInt8 (List AckRange)
  | 0, _, _ => pure []
  | count + 1, i, prevLo => do
    let r ← takePair prevLo
    let rest ← takeAckPairs count (i + 1) r.lo
    pure (if i < ackMaxRanges then r :: rest else rest)

def rangesKept (count : Nat) : Nat := if count + 1 ≤ ackMaxRanges then count + 1 else ackMaxRanges

def takeAckEcn (hasEcn : Bool) : Decoder UInt8 (Nat × Nat × Nat) :=
  if hasEcn then do
    let ect0 ← varintTake
    let ect1 ← varintTake
    let ce ← varintTake
    pure (ect0, ect1, ce)
  else pure (0, 0, 0)

/-- The fields behind the type. -/
def takeAck (hasEcn : Bool) : Decoder UInt8 AckFrame := do
  let (largest, delay, count) ← takeAckMeta
  let r0 ← takeFirst largest
  let stored ← takeAckPairs count 1 r0.lo
  let (ect0, ect1, ce) ← takeAckEcn hasEcn
  pure { ackDelay := delay, ranges := (r0 :: stored).take (rangesKept count), hasEcn := hasEcn
         ect0 := ect0, ect1 := ect1, ce := ce }

def ackDecode (buf : List UInt8) : Option (AckFrame × Nat) :=
  behindType (takeAck (buf.headD 0 = UInt8.ofNat frameAckEcn)) buf

/-! ## What a frame says -/

/-- Each range lies below the one before, with at least one number between them. -/
def Descending (rs : List AckRange) : Prop :=
  (∀ r ∈ rs, r.lo ≤ r.hi) ∧ rs.Pairwise fun r r' => r'.hi + 1 < r.lo

/-- What a frame says, with all its ranges. -/
structure AckBody where
  delay : Nat
  first : AckRange
  rest : List AckRange
  ecn : Option (Nat × Nat × Nat)

namespace AckBody

/-- All ranges, from the highest down. -/
def ranges (a : AckBody) : List AckRange := a.first :: a.rest

/-- The gap and the length of each range, counted down from the low end of the one before. -/
def pairs : Nat → List AckRange → List Nat
  | _, [] => []
  | lo, r :: rest => (lo - r.hi - 2) :: (r.hi - r.lo) :: pairs r.lo rest

/-- The counts as integers. -/
def ecnCounts : Option (Nat × Nat × Nat) → List Nat
  | none => []
  | some (ect0, ect1, ce) => [ect0, ect1, ce]

/-- The integers of the frame behind its type. -/
def values (a : AckBody) : List Nat :=
  [a.first.hi, a.delay, a.rest.length, a.first.hi - a.first.lo] ++ pairs a.first.lo a.rest ++
    ecnCounts a.ecn

def stored (a : AckBody) : AckFrame where
  ackDelay := a.delay
  ranges := a.ranges.take ackMaxRanges
  hasEcn := a.ecn.isSome
  ect0 := (a.ecn.getD (0, 0, 0)).1
  ect1 := (a.ecn.getD (0, 0, 0)).2.1
  ce := (a.ecn.getD (0, 0, 0)).2.2

end AckBody

/-- The ranges go down from below `lo`. -/
def Below : Nat → List AckRange → Prop
  | _, [] => True
  | lo, r :: rest => r.lo ≤ r.hi ∧ r.hi + 1 < lo ∧ Below r.lo rest

variable {lo prevLo gap n cap : Nat} {rs : List AckRange}

theorem Below.lt (h : Below lo rs) : ∀ r ∈ rs, r.lo ≤ r.hi ∧ r.hi + 1 < lo := by
  induction rs generalizing lo with
  | nil => nofun
  | cons r rs ih =>
    obtain ⟨hr, hlo, hrest⟩ := h
    rw [forall_mem_cons]
    refine ⟨⟨hr, hlo⟩, fun r' hr' => ?_⟩
    obtain ⟨hle, hlt⟩ := ih hrest r' hr'
    exact ⟨hle, by omega⟩

theorem Below.length_le {b m : Nat} (h : Below b rs) (hm : ∀ r ∈ rs, m ≤ r.lo) (hb : m ≤ b) :
    2 * rs.length + m ≤ b := by
  induction rs generalizing b with
  | nil => simpa using hb
  | cons r rs ih =>
    obtain ⟨hle, hlt, hbelow⟩ := h
    rw [forall_mem_cons] at hm
    have hrest := ih hbelow hm.2 hm.1
    rw [length_cons]
    omega

theorem descending_cons {r : AckRange} : Descending (r :: rs) ↔ r.lo ≤ r.hi ∧ Below r.lo rs := by
  induction rs generalizing r with
  | nil => simp [Descending, Below]
  | cons r' rs ih =>
    constructor
    · rintro ⟨hle, hpair⟩
      obtain ⟨hfirst, hrest⟩ := pairwise_cons.mp hpair
      have htail : Descending (r' :: rs) := ⟨fun x hx => hle x (mem_cons_of_mem _ hx), hrest⟩
      refine ⟨hle r mem_cons_self, ?_⟩
      exact ⟨(ih.mp htail).1, hfirst r' mem_cons_self, (ih.mp htail).2⟩
    · rintro ⟨hr, hbelow⟩
      have hlt := hbelow.lt
      have htail : Descending (r' :: rs) := ih.mpr ⟨hbelow.1, hbelow.2.2⟩
      exact ⟨forall_mem_cons.mpr ⟨hr, htail.1⟩,
        pairwise_cons.mpr ⟨fun x hx => (hlt x hx).2, htail.2⟩⟩

/-! ## The decoder reads it -/

theorem takeAckMeta_reads :
    Reads varintDecode takeAckMeta fun r ts => ts = [r.1, r.2.1, r.2.2] := by
  apply (varintTake_bind fun largest _ => varintTake_bind fun delay _ =>
    varintTake_bind fun count _ => reads_pure (largest, delay, count)).congr
  rintro ⟨largest, delay, count⟩ ts
  simp

theorem takeFirst_reads {largest : Nat} (hlargest : largest < 2 ^ 62) :
    Reads varintDecode (takeFirst largest) fun r ts =>
      r.hi = largest ∧ r.lo ≤ r.hi ∧ ts = [r.hi - r.lo] := by
  apply (varintTake_bind fun first _ => (reads_pure
    (⟨largest, subU64 largest first⟩ : AckRange)).ite reads_fail).congr
  rintro ⟨hi, lo⟩ ts
  simp only [and_false, or_false, AckRange.mk.injEq]
  constructor
  · rintro ⟨first, _, rfl, hfirst, ⟨rfl, rfl⟩, rfl⟩
    rw [subU64_eq (by omega) hfirst]
    refine ⟨rfl, by omega, ?_⟩
    congr 1
    omega
  · rintro ⟨rfl, hlo, rfl⟩
    refine ⟨hi - lo, [], rfl, by omega, ⟨rfl, ?_⟩, rfl⟩
    rw [subU64_eq (by omega) (by omega)]
    omega

/-- The arithmetic of a pair neither wraps nor goes below zero. -/
theorem subU64_pair (hlo : prevLo < 2 ^ 62) (hgap : gap + 2 ≤ prevLo) :
    subU64 (subU64 prevLo gap) 2 = prevLo - gap - 2 := by
  rw [subU64_eq (by omega : prevLo < 2 ^ 64) (by omega), subU64_eq (by omega) (by omega)]

theorem pairFits_iff {len : Nat} (hlo : prevLo < 2 ^ 62) (hgap : gap < 2 ^ 62) :
    pairFits prevLo gap len = true ↔ gap + 2 + len ≤ prevLo := by
  have hadd : addU64 gap 2 = gap + 2 := addU64_eq (by omega)
  simp only [pairFits, hadd, Bool.and_eq_true, decide_eq_true_eq]
  constructor
  · rintro ⟨hgap', hlen⟩
    rw [subU64_pair hlo hgap'] at hlen
    omega
  · intro hfits
    rw [subU64_pair hlo (by omega)]
    omega

theorem takePair_reads (hlo : prevLo < 2 ^ 62) :
    Reads varintDecode (takePair prevLo) fun r ts =>
      r.lo ≤ r.hi ∧ r.hi + 1 < prevLo ∧ ts = [prevLo - r.hi - 2, r.hi - r.lo] := by
  have hpair : ∀ gap < 2 ^ 62, ∀ len, Reads varintDecode
      (if pairFits prevLo gap len then
        pure ⟨subU64 (subU64 prevLo gap) 2, subU64 (subU64 (subU64 prevLo gap) 2) len⟩
      else Decoder.fail) fun (r : AckRange) ts =>
        r.hi + gap + 2 = prevLo ∧ r.lo + len = r.hi ∧ ts = [] := by
    intro gap hgap len
    have hends : gap + 2 + len ≤ prevLo → subU64 (subU64 prevLo gap) 2 = prevLo - gap - 2 ∧
        subU64 (subU64 (subU64 prevLo gap) 2) len = prevLo - gap - 2 - len := by
      intro hfits
      have hhi : subU64 (subU64 prevLo gap) 2 = prevLo - gap - 2 := subU64_pair hlo (by omega)
      rw [hhi, subU64_eq (by omega) (by omega)]
      exact ⟨rfl, rfl⟩
    apply ((reads_pure _).ite reads_fail).congr
    intro r ts
    rw [pairFits_iff hlo hgap]
    simp only [and_false, or_false]
    constructor
    · rintro ⟨hfits, rfl, rfl⟩
      dsimp only
      exact ⟨by omega, by omega, rfl⟩
    · rintro ⟨hhi, hlen, rfl⟩
      obtain ⟨hhi', hlow'⟩ := hends (by omega)
      refine ⟨by omega, ?_, rfl⟩
      rw [hlow', hhi', AckRange.ext_iff]
      exact ⟨by dsimp only; omega, by dsimp only; omega⟩
  apply (varintTake_bind fun gap hgap => varintTake_bind fun len _ => hpair gap hgap len).congr
  intro r ts
  constructor
  · rintro ⟨gap, _, rfl, len, _, rfl, hhi, hlen, rfl⟩
    refine ⟨by omega, by omega, ?_⟩
    rw [show prevLo - r.hi - 2 = gap by omega, show r.hi - r.lo = len by omega]
  · rintro ⟨hle, hlt, rfl⟩
    exact ⟨_, _, rfl, _, _, rfl, by omega, by omega, rfl⟩

theorem takeAckPairs_reads (count i : Nat) (hlo : prevLo < 2 ^ 62) :
    Reads varintDecode (takeAckPairs count i prevLo) fun stored ts =>
      ∃ rs, rs.length = count ∧ stored = rs.take (ackMaxRanges - i) ∧
        ts = AckBody.pairs prevLo rs ∧ Below prevLo rs := by
  induction count generalizing i prevLo with
  | zero =>
    apply (reads_pure []).congr
    intro stored ts
    constructor
    · rintro ⟨rfl, rfl⟩
      exact ⟨[], rfl, take_nil.symm, rfl, trivial⟩
    · rintro ⟨rs, hlen, rfl, rfl, -⟩
      obtain rfl := eq_nil_of_length_eq_zero hlen
      exact ⟨take_nil, rfl⟩
  | succ count ih =>
    have hpair := takePair_reads hlo
    apply (hpair.bind fun r hr => (ih (i + 1) ?_).bind fun rest _ => reads_pure
      (if i < ackMaxRanges then r :: rest else rest)).congr
    · intro stored ts
      have hstore : ∀ r rs, (if i < ackMaxRanges then r :: rs.take (ackMaxRanges - (i + 1))
          else rs.take (ackMaxRanges - (i + 1))) = (r :: rs : List AckRange).take
            (ackMaxRanges - i) := by
        intro r rs
        split
        · next hi =>
          rw [show ackMaxRanges - i = ackMaxRanges - (i + 1) + 1 by omega, take_succ_cons]
        · next hi =>
          rw [show ackMaxRanges - i = 0 by omega, show ackMaxRanges - (i + 1) = 0 by omega]
          rfl
      constructor
      · rintro ⟨r, _, _, rfl, ⟨hle, hlt, rfl⟩, rest, _, _, rfl, ⟨rs, hlen, rfl, rfl, hbelow⟩, rfl,
          rfl⟩
        exact ⟨r :: rs, by simp [hlen], hstore r rs, by simp [AckBody.pairs], hle, hlt, hbelow⟩
      · rintro ⟨rs, hlen, rfl, rfl, hbelow⟩
        cases rs with
        | nil => cases hlen
        | cons r rs =>
          obtain ⟨hle, hlt, hbelow⟩ := hbelow
          refine ⟨r, _, AckBody.pairs r.lo rs, rfl, ⟨hle, hlt, rfl⟩, rs.take (ackMaxRanges - (i + 1)),
            AckBody.pairs r.lo rs, [], (append_nil _).symm,
            ⟨rs, Nat.succ.inj hlen, rfl, rfl, hbelow⟩, (hstore r rs).symm, rfl⟩
    · obtain ⟨b, n, hdec⟩ := hr
      obtain ⟨-, -, -, -, -, -, hle, hlt, -⟩ := (hpair b r n).mp hdec
      omega

theorem takeAckEcn_reads (hasEcn : Bool) :
    Reads varintDecode (takeAckEcn hasEcn) fun r ts =>
      ∃ ecn : Option (Nat × Nat × Nat), ecn.isSome = hasEcn ∧ ts = AckBody.ecnCounts ecn ∧
        r = ecn.getD (0, 0, 0) := by
  cases hasEcn with
  | false =>
    apply (reads_pure (0, 0, 0)).congr
    intro r ts
    constructor
    · rintro ⟨rfl, rfl⟩
      exact ⟨none, rfl, rfl, rfl⟩
    · rintro ⟨ecn, hnone, rfl, rfl⟩
      obtain rfl := isNone_iff_eq_none.mp (Option.isSome_eq_false_iff.mp hnone)
      exact ⟨rfl, rfl⟩
  | true =>
    apply (varintTake_bind fun ect0 _ => varintTake_bind fun ect1 _ => varintTake_bind fun ce _ =>
      reads_pure (ect0, ect1, ce)).congr
    intro r ts
    constructor
    · rintro ⟨ect0, _, rfl, ect1, _, rfl, ce, _, rfl, rfl, rfl⟩
      exact ⟨some (ect0, ect1, ce), rfl, rfl, rfl⟩
    · rintro ⟨ecn, hsome, rfl, rfl⟩
      obtain ⟨⟨ect0, ect1, ce⟩, rfl⟩ := isSome_iff_exists.mp hsome
      exact ⟨_, _, rfl, _, _, rfl, _, _, rfl, rfl, rfl⟩

variable {r0 : AckRange} {buf : List UInt8}

theorem take_rangesKept :
    (r0 :: rs.take (ackMaxRanges - 1)).take (rangesKept rs.length) =
      (r0 :: rs).take ackMaxRanges := by
  have hall : r0 :: rs.take (ackMaxRanges - 1) = (r0 :: rs).take ackMaxRanges := rfl
  rw [hall, take_take]
  unfold rangesKept
  split
  · next hle =>
    rw [Nat.min_eq_left hle, take_of_length_le (by simp), take_of_length_le (by simpa)]
  · rw [Nat.min_self]

/-- **The decoder** accepts the spellings of every frame whose ranges go down, and keeps the first
ones. -/
theorem takeAck_reads (hasEcn : Bool) :
    Reads varintDecode (takeAck hasEcn) fun f ts =>
      ∃ a : AckBody, Descending a.ranges ∧ a.ecn.isSome = hasEcn ∧ ts = a.values ∧
        f = a.stored := by
  have hfirst : ∀ largest, (∃ b n, (∃ delay count, takeAckMeta b = some ((largest, delay, count), n))) →
      largest < 2 ^ 62 := by
    rintro largest ⟨b, n, delay, count, h⟩
    obtain ⟨e, rest, ts, -, -, hts, rfl⟩ := (takeAckMeta_reads b _ n).mp h
    exact spelled_lt hts largest (by simp)
  apply (takeAckMeta_reads.bind (Q := fun m f ts => ∃ a : AckBody, Descending a.ranges ∧
    a.ecn.isSome = hasEcn ∧ m = (a.first.hi, a.delay, a.rest.length) ∧
    ts = [a.first.hi - a.first.lo] ++ AckBody.pairs a.first.lo a.rest ++ AckBody.ecnCounts a.ecn ∧
    f = a.stored) ?_).congr
  · intro f ts
    constructor
    · rintro ⟨_, _, _, rfl, rfl, a, hdesc, hecn, rfl, rfl, rfl⟩
      exact ⟨a, hdesc, hecn, by simp [AckBody.values], rfl⟩
    · rintro ⟨a, hdesc, hecn, rfl, rfl⟩
      exact ⟨_, _, _, by simp [AckBody.values], rfl, a, hdesc, hecn, rfl, rfl, rfl⟩
  rintro ⟨largest, delay, count⟩ ⟨b, n, h⟩
  have hlargest := hfirst largest ⟨b, n, delay, count, h⟩
  have hr0 := takeFirst_reads hlargest
  apply (hr0.bind fun r0 h0 => (takeAckPairs_reads count 1 ?_).bind fun stored _ =>
    (takeAckEcn_reads hasEcn).bind fun ecn _ => reads_pure _).congr
  · intro f ts
    constructor
    · rintro ⟨r0, _, _, rfl, ⟨rfl, hle, rfl⟩, _, _, _, rfl, ⟨rs, rfl, rfl, rfl, hbelow⟩, _, _, _, rfl,
        ⟨ecn, hecn, rfl, rfl⟩, rfl, rfl⟩
      refine ⟨⟨delay, r0, rs, ecn⟩, descending_cons.mpr ⟨hle, hbelow⟩, hecn, rfl, by simp, ?_⟩
      rw [take_rangesKept, ← hecn]
      rfl
    · rintro ⟨a, hdesc, hecn, hm, rfl, rfl⟩
      obtain ⟨rfl, rfl, rfl⟩ := hm
      obtain ⟨hle, hbelow⟩ := descending_cons.mp hdesc
      refine ⟨a.first, _, AckBody.pairs a.first.lo a.rest ++ AckBody.ecnCounts a.ecn, by simp,
        ⟨rfl, hle, rfl⟩, _, _, AckBody.ecnCounts a.ecn, rfl, ⟨a.rest, rfl, rfl, rfl, hbelow⟩, _, _, [],
        (append_nil _).symm, ⟨a.ecn, hecn, rfl, rfl⟩, ?_, rfl⟩
      rw [take_rangesKept, ← hecn]
      rfl
  · obtain ⟨b, n, h0⟩ := h0
    obtain ⟨-, -, -, -, -, -, hhi, hle, -⟩ := (hr0 b r0 n).mp h0
    omega

variable {f : AckFrame}

theorem ackDecode_iff :
    ackDecode buf = some (f, n) ↔ ∃ (a : AckBody) (e rest : List UInt8), buf.drop 1 = e ++ rest ∧
      n = 1 + e.length ∧ Spelled varintDecode e a.values ∧ Descending a.ranges ∧
      a.ecn.isSome = decide (buf.headD 0 = UInt8.ofNat frameAckEcn) ∧ f = a.stored := by
  constructor
  · intro h
    obtain ⟨⟨f', m⟩, htake, he⟩ := map_eq_some_iff.mp h
    obtain ⟨rfl, rfl⟩ := Prod.mk.inj he
    obtain ⟨e, rest, ts, hbuf, rfl, hts, a, hdesc, hecn, rfl, rfl⟩ := (takeAck_reads _ _ _ _).mp htake
    exact ⟨a, e, rest, hbuf, rfl, hts, hdesc, hecn, rfl⟩
  · rintro ⟨a, e, rest, hbuf, rfl, hts, hdesc, hecn, rfl⟩
    have htake := (takeAck_reads (decide (buf.headD 0 = UInt8.ofNat frameAckEcn)) (buf.drop 1)
      a.stored e.length).mpr ⟨e, rest, a.values, hbuf, rfl, hts, a, hdesc, hecn, rfl, rfl⟩
    rw [ackDecode, behindType, htake]
    rfl

/-! ## The encoder writes it -/

def AckFrame.ecn (f : AckFrame) : Option (Nat × Nat × Nat) :=
  if f.hasEcn then some (f.ect0, f.ect1, f.ce) else none

theorem putAckPairs_eq (cap : Nat) (o : List UInt8) {prev : AckRange} (hprev : prev.lo < 2 ^ 64)
    (h : Below prev.lo rs) :
    putAckPairs cap o prev rs = varintPuts cap o (AckBody.pairs prev.lo rs) := by
  induction rs generalizing o prev with
  | nil => rfl
  | cons r rs ih =>
    obtain ⟨hle, hlt, hbelow⟩ := h
    have hdiff : subU64 prev.lo r.hi = prev.lo - r.hi := subU64_eq hprev (by omega)
    have hgap : subU64 (prev.lo - r.hi) 2 = prev.lo - r.hi - 2 := subU64_eq (by omega) (by omega)
    have hlen : subU64 r.hi r.lo = r.hi - r.lo := subU64_eq (by omega) hle
    have hpairs : AckBody.pairs prev.lo (r :: rs) =
        [prev.lo - r.hi - 2, r.hi - r.lo] ++ AckBody.pairs r.lo rs := rfl
    have hput : putPair cap o prev r = varintPuts cap o [prev.lo - r.hi - 2, r.hi - r.lo] := by
      simp [putPair, varintPuts, hdiff, hgap, hlen]
    have hstep : putAckPairs cap o prev (r :: rs) =
        (putPair cap o prev r).bind fun o' => putAckPairs cap o' r rs := rfl
    have hrest : ∀ o', putAckPairs cap o' r rs = varintPuts cap o' (AckBody.pairs r.lo rs) :=
      fun o' => ih o' (by omega) hbelow
    rw [hpairs, varintPuts_append, ← hput, hstep]
    simp only [hrest]

theorem ackEncode_eq (cap : Nat) (hranges : f.ranges = r0 :: rs)
    (hdesc : Descending f.ranges) (hword : r0.hi < 2 ^ 64) :
    ackEncode cap f = if f.ranges.length ≤ ackMaxRanges then
      varintPuts cap [] (ackType f :: AckBody.values ⟨f.ackDelay, r0, rs, f.ecn⟩) else none := by
  rw [hranges] at hdesc
  obtain ⟨hle, hbelow⟩ := descending_cons.mp hdesc
  have hfirst : subU64 r0.hi r0.lo = r0.hi - r0.lo := subU64_eq hword hle
  have hhead : ∀ o, putAckHead cap o f r0 =
      varintPuts cap o [ackType f, r0.hi, f.ackDelay, rs.length, r0.hi - r0.lo] := by
    intro o
    simp [putAckHead, putAckMeta, putTwo, varintPuts, hranges, hfirst, Option.bind_assoc]
  have hecn : ∀ o, putAckEcn cap o f = varintPuts cap o (AckBody.ecnCounts f.ecn) := by
    intro o
    cases hf : f.hasEcn with
    | false => simp [putAckEcn, varintPuts, AckFrame.ecn, AckBody.ecnCounts, hf]
    | true =>
      simp [putAckEcn, putTwo, varintPuts, AckFrame.ecn, AckBody.ecnCounts, hf, Option.bind_assoc]
  have hvalues : ackType f :: AckBody.values ⟨f.ackDelay, r0, rs, f.ecn⟩ =
      [ackType f, r0.hi, f.ackDelay, rs.length, r0.hi - r0.lo] ++
        (AckBody.pairs r0.lo rs ++ AckBody.ecnCounts f.ecn) := by
    simp [AckBody.values]
  have hbody : ∀ o, (putAckPairs cap o r0 rs).bind (fun o => putAckEcn cap o f) =
      varintPuts cap o (AckBody.pairs r0.lo rs ++ AckBody.ecnCounts f.ecn) := by
    intro o
    rw [varintPuts_append, putAckPairs_eq cap o (by omega) hbelow]
    exact congrArg _ (funext hecn)
  have hsplit : ackEncode cap f = if f.ranges.length ≤ ackMaxRanges then
      (putAckHead cap [] f r0).bind fun o => (putAckPairs cap o r0 rs).bind fun o =>
        putAckEcn cap o f else none := by
    unfold ackEncode
    split
    · next hnil =>
      rw [hnil] at hranges
      cases hranges
    · next r0' rs' hcons =>
      obtain ⟨rfl, rfl⟩ := List.cons.inj (hcons.symm.trans hranges)
      by_cases hlen : f.ranges.length ≤ ackMaxRanges
      · rw [if_pos hlen, if_neg]
        · rfl
        · rw [hranges] at hlen ⊢
          simpa [rangesOk] using hlen
      · simp [rangesOk, hlen]
  rw [hsplit, hvalues, varintPuts_append, ← hhead]
  simp only [hbody]

/-- **Round trip**, whatever follows the frame. -/
theorem ackDecode_encode {bytes : List UInt8} (hdesc : Descending f.ranges)
    (hword : ∀ r ∈ f.ranges, r.hi < 2 ^ 64) (h : ackEncode cap f = some bytes) (rest : List UInt8) :
    ∃ f', ackDecode (bytes ++ rest) = some (f', bytes.length) ∧ f'.ranges = f.ranges ∧
      f'.ackDelay = f.ackDelay ∧ f'.hasEcn = f.hasEcn ∧ (f.hasEcn = true → f' = f) := by
  cases hranges : f.ranges with
  | nil => simp [ackEncode, hranges] at h
  | cons r0 rs =>
    have heq := ackEncode_eq cap hranges hdesc (hword r0 (hranges ▸ mem_cons_self))
    rw [h] at heq
    split at heq
    · next hlen =>
      -- the type takes one byte, and the integers come behind it
      have htype : varintEncode (ackType f) = [UInt8.ofNat (ackType f)] := by
        unfold ackType
        split <;> rfl
      obtain ⟨o, hput, hvalues⟩ := bind_eq_some_iff.mp heq.symm
      obtain rfl : o = [UInt8.ofNat (ackType f)] := by
        unfold varintPut at hput
        split at hput
        · cases hput
        rw [← Option.some.inj hput, htype]
        rfl
      obtain ⟨e, rfl, he⟩ := varintPuts_eq_some hvalues
      have hecn : f.ecn.isSome = f.hasEcn := by
        unfold AckFrame.ecn
        cases f.hasEcn <;> rfl
      have hhead : decide ((UInt8.ofNat (ackType f)) = UInt8.ofNat frameAckEcn) = f.hasEcn := by
        unfold ackType
        cases f.hasEcn <;> rfl
      rw [hranges] at hdesc hlen
      refine ⟨AckBody.stored ⟨f.ackDelay, r0, rs, f.ecn⟩, ?_, take_of_length_le hlen, rfl, hecn, ?_⟩
      · apply ackDecode_iff.mpr
        refine ⟨⟨f.ackDelay, r0, rs, f.ecn⟩, e, rest, rfl, length_append, he, hdesc, ?_, rfl⟩
        rw [hecn, ← hhead]
        rfl
      · intro hf
        have hsome : f.ecn = some (f.ect0, f.ect1, f.ce) := if_pos hf
        have hkept : (r0 :: rs).take ackMaxRanges = f.ranges := by
          rw [hranges, take_of_length_le hlen]
        rw [hsome, AckBody.stored, AckBody.ranges]
        simp only [hkept, isSome_some, getD_some, ← hf]
    · cases heq

/-- Room that is enough for every frame. -/
def ackEncodeMax : Nat := 8 * (5 + 2 * (ackMaxRanges - 1) + 3)

/-- Everything in the frame has an encoding as a variable-length integer. -/
def AckFrame.InRange (f : AckFrame) : Prop :=
  (∀ r ∈ f.ranges, r.hi < 2 ^ 62) ∧ f.ackDelay < 2 ^ 62 ∧ f.ect0 < 2 ^ 62 ∧ f.ect1 < 2 ^ 62 ∧
    f.ce < 2 ^ 62

theorem pairs_length (lo : Nat) (rs : List AckRange) :
    (AckBody.pairs lo rs).length = 2 * rs.length := by
  induction rs generalizing lo with
  | nil => rfl
  | cons r rs ih =>
    simp only [AckBody.pairs, length_cons, ih]
    omega

theorem pairs_lt (hlo : lo < 2 ^ 62) (h : Below lo rs) : ∀ v ∈ AckBody.pairs lo rs, v < 2 ^ 62 := by
  induction rs generalizing lo with
  | nil => nofun
  | cons r rs ih =>
    obtain ⟨hle, hlt, hbelow⟩ := h
    have hvs := ih (by omega) hbelow
    intro v hv
    simp only [AckBody.pairs, mem_cons] at hv
    rcases hv with rfl | rfl | hv
    · omega
    · omega
    · exact hvs v hv

theorem ackEncode_of_room (hne : f.ranges ≠ []) (hlen : f.ranges.length ≤ ackMaxRanges)
    (hdesc : Descending f.ranges) (hrange : f.InRange) (hcap : ackEncodeMax ≤ cap) :
    ∃ bytes, ackEncode cap f = some bytes := by
  obtain ⟨r0, rs, hranges⟩ := exists_cons_of_ne_nil hne
  obtain ⟨hhi, hdelay, hect0, hect1, hce⟩ := hrange
  have hr0 := hhi r0 (hranges ▸ mem_cons_self)
  obtain ⟨hle, hbelow⟩ := descending_cons.mp (hranges ▸ hdesc)
  have hpairs := pairs_lt (by omega) hbelow
  rw [ackEncode_eq cap hranges hdesc (by omega), if_pos hlen]
  have hrs : rs.length + 1 ≤ ackMaxRanges := by rwa [hranges, length_cons] at hlen
  have hecn : (AckBody.ecnCounts f.ecn).length ≤ 3 ∧ ∀ v ∈ AckBody.ecnCounts f.ecn, v < 2 ^ 62 := by
    unfold AckFrame.ecn
    split
    · refine ⟨le_rfl, ?_⟩
      intro v hv
      simp only [AckBody.ecnCounts, mem_cons, not_mem_nil, or_false] at hv
      rcases hv with rfl | rfl | rfl <;> assumption
    · exact ⟨Nat.zero_le 3, by nofun⟩
  apply varintPuts_of_room
  · intro v hv
    simp only [AckBody.values, mem_cons, mem_append, not_mem_nil, or_false] at hv
    rcases hv with rfl | ((rfl | rfl | rfl | rfl) | hv) | hv
    · unfold ackType frameAck frameAckEcn
      split <;> omega
    · exact hr0
    · exact hdelay
    · unfold ackMaxRanges at hrs
      omega
    · omega
    · exact hpairs v hv
    · exact hecn.2 v hv
  · simp only [AckBody.values, length_cons, length_append, length_nil, pairs_length]
    unfold ackEncodeMax at hcap
    omega

theorem Descending.take (h : Descending rs) (n : Nat) : Descending (rs.take n) :=
  ⟨fun r hr => h.1 r (mem_of_mem_take hr), h.2.sublist (take_sublist n rs)⟩

/-- What is accepted is a whole frame, and the ranges stored are the first ones of it. -/
theorem ackDecode_whole (h : ackDecode buf = some (f, n)) :
    Descending f.ranges ∧ n ≤ buf.length ∧
      ∃ a : AckBody, Descending a.ranges ∧ f.ranges = a.ranges.take ackMaxRanges ∧
        f.ackDelay = a.delay ∧ f.hasEcn = a.ecn.isSome ∧
        f.hasEcn = decide (buf.headD 0 = UInt8.ofNat frameAckEcn) ∧
        Spelled varintDecode ((buf.take n).drop 1) a.values := by
  obtain ⟨a, e, rest, hbuf, rfl, hts, hdesc, hecn, rfl⟩ := ackDecode_iff.mp h
  have hpos : 0 < e.length := by
    cases hts with
    | cons head tail =>
      have := varintDecode_stable.pos (head [])
      rw [length_append]
      omega
  have hlen : e.length + 1 ≤ buf.length := by
    have := congrArg List.length hbuf
    rw [length_drop, length_append] at this
    omega
  refine ⟨hdesc.take _, by omega, a, hdesc, rfl, rfl, rfl, hecn, ?_⟩
  rw [drop_take, hbuf, Nat.add_sub_cancel_left, take_left]
  exact hts

/-- **The ACK codec.** Every frame with up to `ackMaxRanges` ranges of packet numbers is encoded and
decoded again, with its ranges, its delay and its length. Whatever the decoder accepts is a whole
frame with any number of ranges, of which it stores the first ones; all of them go down without
passing below zero. -/
theorem ack_codec :
    (∀ f : AckFrame, Descending f.ranges → (∀ r ∈ f.ranges, r.hi < 2 ^ 64) →
      ∀ cap bytes, ackEncode cap f = some bytes → ∀ rest, ∃ f',
        ackDecode (bytes ++ rest) = some (f', bytes.length) ∧ f'.ranges = f.ranges ∧
        f'.ackDelay = f.ackDelay ∧ f'.hasEcn = f.hasEcn ∧ (f.hasEcn = true → f' = f)) ∧
    (∀ f : AckFrame, f.ranges ≠ [] → f.ranges.length ≤ ackMaxRanges → Descending f.ranges →
      f.InRange → ∀ cap, ackEncodeMax ≤ cap → ∃ bytes, ackEncode cap f = some bytes) ∧
    ∀ buf f n, ackDecode buf = some (f, n) → Descending f.ranges ∧ n ≤ buf.length ∧
      ∃ a : AckBody, Descending a.ranges ∧ f.ranges = a.ranges.take ackMaxRanges ∧
        f.ackDelay = a.delay ∧ f.hasEcn = a.ecn.isSome ∧
        f.hasEcn = decide (buf.headD 0 = UInt8.ofNat frameAckEcn) ∧
        Spelled varintDecode ((buf.take n).drop 1) a.values := by
  exact ⟨fun f hdesc hword cap bytes => ackDecode_encode hdesc hword,
    fun f hne hlen hdesc hrange cap => ackEncode_of_room hne hlen hdesc hrange,
    fun buf f n => ackDecode_whole⟩

end Wired.Frame
