import Mathlib.Logic.Function.Basic
import Wired.Bytes.Compare
import Wired.Lib.Probing
import Wired.Lib.Run

/-!
# The connection table

`conntable.c` and `conntable_hash.c`: the slots of the connections, each with up to three
connection IDs, and an index over all of them, a hash table with linear probing whose buckets are
spread over the slots. Every insertion and change of an ID builds the index anew; a removal leaves
buckets that point to a slot that is no longer live.

A search passes over such buckets, so that the invariant of the index is about live slots only
(`TableIndexed`, `conntable_lookup`). With four buckets to a slot and at most three IDs, an
insertion always finds one; a loop that went round for ever is `none` in the model.
-/

namespace Wired.Transport

open Bytes Lib List Function

def wiredMaxCidLen : Nat := 20

/-- `CONNTABLE_HB`, the buckets in one slot. -/
def conntableHb : Nat := 4

/-- What a slot says about its connection. An alternate ID of length 0 is not set. -/
structure ConnIds where
  cid : List UInt8
  altCid : List UInt8
  alt2Cid : List UInt8
  live : Bool
  hseed : UInt32

/-- A slot with its buckets of the index. -/
structure ConnSlot extends ConnIds where
  hix : Nat → UInt16

abbrev Conntable : Type := Nat → ConnSlot

/-! ## The index -/

def demuxMatch (dcid connCid : List UInt8) : Bool :=
  if dcid.length ≠ connCid.length then false else ctDiff dcid connCid = 0

def conntableAltMatches (altCid want : List UInt8) : Bool :=
  if altCid.length = 0 then false else demuxMatch want altCid

def conntableSlotMatches (slot : ConnIds) (want : List UInt8) : Bool :=
  if !slot.live then false
  else if demuxMatch want slot.cid then true
  else conntableAltMatches slot.altCid want || conntableAltMatches slot.alt2Cid want

/-- FNV-1a with a seed, and the finish of murmur3. -/
def conntableHash (c : List UInt8) (seed : UInt32) : UInt32 :=
  let h := (2166136261 ^^^ seed) ^^^ UInt32.ofNat c.length
  let h := c.foldl (fun h x => (h ^^^ x.toUInt32) * 16777619) h
  let h := h ^^^ (h >>> 16)
  let h := h * 0x85EBCA6B
  let h := h ^^^ (h >>> 13)
  let h := h * 0xC2B2AE35
  h ^^^ (h >>> 16)

def conntableHome (t : Conntable) (c : List UInt8) (nb : Nat) : Nat :=
  if nb = 0 then 0 else (conntableHash c (t 0).hseed).toNat % nb

def conntableBucketAt (t : Conntable) (b : Nat) : UInt16 :=
  (t (b / conntableHb)).hix (b % conntableHb)

def conntableSetBucket (t : Conntable) (b : Nat) (e : UInt16) : Conntable :=
  let slot := t (b / conntableHb)
  update t (b / conntableHb)
    { slot with hix := update slot.hix (b % conntableHb) e }

/-- None if the loop does not end. -/
def conntableIndexPut (t : Conntable) (cap : Nat) (c : List UInt8) (i : Nat) : Option Conntable :=
  let nb := cap * conntableHb
  (firstFree (fun b => conntableBucketAt t b ≠ 0) nb nb (conntableHome t c nb)).map fun b =>
    conntableSetBucket t b (UInt16.ofNat (i + 1))

def conntableIndexAlt (t : Conntable) (cap : Nat) (c : List UInt8) (i : Nat) : Option Conntable :=
  if c.length = 0 then some t else conntableIndexPut t cap c i

def conntableIndexSlot (cap : Nat) (t : Conntable) (i : Nat) : Option Conntable :=
  if !(t i).live then some t
  else do
    let t ← conntableIndexPut t cap (t i).cid i
    let t ← conntableIndexAlt t cap (t i).altCid i
    conntableIndexAlt t cap (t i).alt2Cid i

def conntableClear (t : Conntable) (cap : Nat) : Conntable :=
  (List.range (cap * conntableHb)).foldl (fun t b => conntableSetBucket t b 0) t

def conntableReindex (t : Conntable) (cap : Nat) : Option Conntable :=
  (List.range cap).foldlM (conntableIndexSlot cap) (conntableClear t cap)

/-- What a bucket says to a search. -/
inductive ConnProbe where
  | stop
  | hit (i : Nat)
  | next

def conntableProbe (t : Conntable) (b : Nat) (want : List UInt8) : ConnProbe :=
  let e := conntableBucketAt t b
  if e = 0 then .stop
  else if conntableSlotMatches (t (e.toNat - 1)).toConnIds want then .hit (e.toNat - 1)
  else .next

def conntableFindFrom (t : Conntable) (nb home : Nat) (want : List UInt8) : Nat → Nat → Option Nat
  | 0, _ => none
  | fuel + 1, k =>
    match conntableProbe t ((home + k) % nb) want with
    | .stop => none
    | .hit i => some i
    | .next => conntableFindFrom t nb home want fuel (k + 1)

def conntableFind (t : Conntable) (cap : Nat) (dcid : List UInt8) : Option Nat :=
  let nb := cap * conntableHb
  conntableFindFrom t nb (conntableHome t dcid nb) dcid nb 0

/-! ## The operations -/

def Conntable.setIds (t : Conntable) (i : Nat) (f : ConnIds → ConnIds) : Conntable :=
  update t i { t i with toConnIds := f (t i).toConnIds }

def conntableInit (t : Conntable) (cap : Nat) : Option Conntable :=
  conntableReindex
    (fun i =>
      if i < cap then { t i with live := false, altCid := [], alt2Cid := [], hseed := 0 } else t i)
    cap

def conntableSeed (t : Conntable) (cap : Nat) (seed : UInt32) : Option Conntable :=
  conntableReindex (if cap = 0 then t else t.setIds 0 fun s => { s with hseed := seed }) cap

def conntableFreeSlot (t : Conntable) (cap : Nat) : Option Nat :=
  (List.range cap).find? fun i => !(t i).live

def conntableInsert (t : Conntable) (cap : Nat) (cid : List UInt8) :
    Option (Conntable × Option Nat) :=
  if cid.length > wiredMaxCidLen then some (t, none)
  else
    match conntableFreeSlot t cap with
    | none => some (t, none)
    | some i =>
      let filled := t.setIds i fun s =>
        { s with cid := cid, altCid := [], alt2Cid := [], live := true }
      (conntableReindex filled cap).map fun t => (t, some i)

def conntableSlotOk (cap : Nat) (i : Int) : Bool := 0 ≤ i && i < cap

def conntableRemove (t : Conntable) (cap : Nat) (i : Int) : Conntable :=
  if !conntableSlotOk cap i then t else t.setIds i.toNat fun s => { s with live := false }

def conntableRekeyOk (cap : Nat) (i : Int) (cid : List UInt8) : Bool :=
  conntableSlotOk cap i && cid.length ≤ wiredMaxCidLen

/-- A change of the IDs of a slot with a new one, and the index built anew. -/
def conntableChange (f : List UInt8 → ConnIds → ConnIds) (t : Conntable) (cap : Nat) (i : Int)
    (cid : List UInt8) : Option (Conntable × Bool) :=
  if !conntableRekeyOk cap i cid then some (t, false)
  else (conntableReindex (t.setIds i.toNat (f cid)) cap).map fun t => (t, true)

/-- The ID that was the primary one becomes the first alternate. -/
def conntableRekey (t : Conntable) (cap : Nat) (i : Int) (cid : List UInt8) :
    Option (Conntable × Bool) :=
  conntableChange (fun cid s => { s with altCid := s.cid, cid := cid }) t cap i cid

def conntableSetAlt2 (t : Conntable) (cap : Nat) (i : Int) (cid : List UInt8) :
    Option (Conntable × Bool) :=
  conntableChange (fun cid s => { s with alt2Cid := cid }) t cap i cid

def conntableSetCid (t : Conntable) (cap : Nat) (i : Int) (cid : List UInt8) :
    Option (Conntable × Bool) :=
  conntableChange (fun cid s => { s with cid := cid }) t cap i cid

inductive ConnOp where
  | seed (s : UInt32)
  | insert (cid : List UInt8)
  | remove (i : Int)
  | rekey (i : Int) (cid : List UInt8)
  | setAlt2 (i : Int) (cid : List UInt8)
  | setCid (i : Int) (cid : List UInt8)

def connStep (cap : Nat) (t : Conntable) : ConnOp → Option Conntable
  | .seed s => conntableSeed t cap s
  | .insert cid => (conntableInsert t cap cid).map Prod.fst
  | .remove i => some (conntableRemove t cap i)
  | .rekey i cid => (conntableRekey t cap i cid).map Prod.fst
  | .setAlt2 i cid => (conntableSetAlt2 t cap i cid).map Prod.fst
  | .setCid i cid => (conntableSetCid t cap i cid).map Prod.fst

/-! ## What a slot holds -/

/-- The IDs that lead to a slot: the primary one and the alternates that are set. -/
def ConnIds.keys (s : ConnIds) : List (List UInt8) :=
  if s.live then s.cid :: [s.altCid, s.alt2Cid].filter (· ≠ []) else []

theorem ConnIds.keys_length_le (s : ConnIds) : s.keys.length ≤ 3 := by
  unfold ConnIds.keys
  split
  · exact Nat.succ_le_succ (length_filter_le ..)
  · exact zero_le

theorem demuxMatch_iff {a b : List UInt8} : demuxMatch a b = true ↔ a = b := by
  unfold demuxMatch
  split
  · rename_i hlen
    refine iff_of_false Bool.false_ne_true ?_
    rintro rfl
    exact hlen rfl
  · rename_i hlen
    rw [decide_eq_true_eq, ctDiff_eq_zero (not_not.mp hlen)]

variable {want : List UInt8} {nb fuel k : Nat}

theorem conntableAltMatches_iff {alt : List UInt8} :
    conntableAltMatches alt want = true ↔ alt ≠ [] ∧ alt = want := by
  unfold conntableAltMatches
  split
  · rename_i hlen
    have hnil : alt = [] := eq_nil_of_length_eq_zero hlen
    simp [hnil]
  · rename_i hlen
    have hne : alt ≠ [] := fun h => hlen (by rw [h]; rfl)
    rw [demuxMatch_iff, and_iff_right hne, eq_comm]

theorem conntableSlotMatches_iff {s : ConnIds} :
    conntableSlotMatches s want = true ↔ want ∈ s.keys := by
  unfold conntableSlotMatches ConnIds.keys
  cases s.live with
  | false => simp
  | true =>
    by_cases hcid : want = s.cid
    · simp [hcid, demuxMatch_iff]
    · have hno : demuxMatch want s.cid = false :=
        Bool.eq_false_iff.mpr fun h => hcid (demuxMatch_iff.mp h)
      rw [if_neg (by simp), hno, if_neg Bool.false_ne_true, Bool.or_eq_true,
        conntableAltMatches_iff, conntableAltMatches_iff]
      grind

/-! ## Buckets -/

theorem bucketAt_setBucket (t : Conntable) (b b' : Nat) (e : UInt16) :
    conntableBucketAt (conntableSetBucket t b e) b' =
      if b' = b then e else conntableBucketAt t b' := by
  have hdiv : b' = b ↔ b' / conntableHb = b / conntableHb ∧ b' % conntableHb = b % conntableHb := by
    unfold conntableHb
    omega
  unfold conntableBucketAt conntableSetBucket
  by_cases hslot : b' / conntableHb = b / conntableHb
  · rw [hslot, update_self]
    by_cases hcell : b' % conntableHb = b % conntableHb
    · rw [if_pos (hdiv.mpr ⟨hslot, hcell⟩)]
      dsimp only
      rw [hcell, update_self]
    · rw [if_neg fun h => hcell (hdiv.mp h).2]
      dsimp only
      rw [update_of_ne hcell]
  · rw [update_of_ne hslot, if_neg fun h => hslot (hdiv.mp h).1]

/-- Only the index differs. -/
def SameIds (t t' : Conntable) : Prop := ∀ i, (t' i).toConnIds = (t i).toConnIds

theorem SameIds.refl (t : Conntable) : SameIds t t := fun _ => rfl

variable {t t' : Conntable}

theorem SameIds.trans {t'' : Conntable} (h : SameIds t t') (h' : SameIds t' t'') :
    SameIds t t'' := fun i => (h' i).trans (h i)

/-- What a new slot has in common with the one it takes the place of is the same everywhere. -/
theorem update_agrees {β : Type} (g : ConnSlot → β) {b : Nat} {s : ConnSlot} (h : g s = g (t b))
    (i : Nat) : g (update t b s i) = g (t i) := by
  by_cases hi : i = b
  · rw [hi, update_self, h]
  · rw [update_of_ne hi]

theorem sameIds_setBucket (t : Conntable) (b : Nat) (e : UInt16) :
    SameIds t (conntableSetBucket t b e) := update_agrees ConnSlot.toConnIds rfl

theorem conntableHome_congr (h : (t' 0).hseed = (t 0).hseed) (c : List UInt8) (nb : Nat) :
    conntableHome t' c nb = conntableHome t c nb := by
  unfold conntableHome
  rw [h]

theorem conntableHome_lt (hnb : 0 < nb) (t : Conntable) (c : List UInt8) :
    conntableHome t c nb < nb := by
  unfold conntableHome
  rw [if_neg (by omega)]
  exact Nat.mod_lt _ hnb

theorem clear_spec (t : Conntable) (cap : Nat) :
    SameIds t (conntableClear t cap) ∧
      ∀ b < cap * conntableHb, conntableBucketAt (conntableClear t cap) b = 0 := by
  have hfold : ∀ n, SameIds t ((List.range n).foldl (fun t b => conntableSetBucket t b 0) t) ∧
      ∀ b < n, conntableBucketAt
        ((List.range n).foldl (fun t b => conntableSetBucket t b 0) t) b = 0 := by
    intro n
    induction n with
    | zero => exact ⟨SameIds.refl t, fun b hb => absurd hb (Nat.not_lt_zero b)⟩
    | succ n ih =>
      rw [range_succ, foldl_append, foldl_cons, foldl_nil]
      refine ⟨ih.1.trans (sameIds_setBucket _ n 0), fun b hb => ?_⟩
      rw [bucketAt_setBucket]
      split
      · rfl
      · exact ih.2 b (by omega)
  exact hfold _

/-! ## Building the index -/

abbrev Taken (t : Conntable) (b : Nat) : Prop := conntableBucketAt t b ≠ 0

/-- From the home bucket of the ID the search gets to a bucket of slot `i`. -/
def Indexed (t : Conntable) (cap : Nat) (c : List UInt8) (i : Nat) : Prop :=
  ∃ b, Reaches (Taken t) (cap * conntableHb) (conntableHome t c (cap * conntableHb)) b ∧
    (conntableBucketAt t b).toNat = i + 1

/-- The index of `t` has the entries, each an ID and its slot, and no more buckets are taken. -/
structure IndexOf (cap : Nat) (t₀ t : Conntable) (entries : List (List UInt8 × Nat)) : Prop where
  same : SameIds t₀ t
  reach : ∀ x ∈ entries, Indexed t cap x.1 x.2
  bound : ∀ b < cap * conntableHb, (conntableBucketAt t b).toNat ≤ cap
  count : ((Finset.range (cap * conntableHb)).filter (Taken t)).card ≤ entries.length

variable {i : Nat}

section

variable {cap : Nat} {t₀ : Conntable} {entries : List (List UInt8 × Nat)}

theorem indexOf_clear (t : Conntable) (cap : Nat) : IndexOf cap t (conntableClear t cap) [] := by
  obtain ⟨hsame, hzero⟩ := clear_spec t cap
  refine ⟨hsame, by simp, fun b hb => ?_, ?_⟩
  · rw [hzero b hb]
    exact zero_le
  · have hnone : (Finset.range (cap * conntableHb)).filter (Taken (conntableClear t cap)) = ∅ := by
      apply Finset.filter_false_of_mem
      intro b hb htaken
      exact htaken (hzero b (Finset.mem_range.mp hb))
    rw [hnone]
    exact le_rfl

/-- There is a bucket for one more ID, and those of the others are found as before. -/
theorem IndexOf.put (h : IndexOf cap t₀ t entries) (hcap : cap < 65535) (hi : i < cap)
    (hroom : entries.length < cap * conntableHb) (c : List UInt8) :
    ∃ t', conntableIndexPut t cap c i = some t' ∧ IndexOf cap t₀ t' (entries ++ [(c, i)]) := by
  have hnb : 0 < cap * conntableHb := lt_of_le_of_lt zero_le hroom
  have hslot : (UInt16.ofNat (i + 1)).toNat = i + 1 :=
    UInt16.toNat_ofNat_of_lt' (lt_of_le_of_lt hi (lt_trans hcap (by decide)))
  obtain ⟨b, hfirst, hfree, hreach⟩ := firstFree_of_card (conntableHome_lt hnb t c)
    (lt_of_le_of_lt h.count hroom)
  refine ⟨conntableSetBucket t b (UInt16.ofNat (i + 1)), ?_, ?_⟩
  · rw [conntableIndexPut, hfirst]
    rfl
  have hbucket := fun b' => bucketAt_setBucket t b b' (UInt16.ofNat (i + 1))
  have hsame := sameIds_setBucket t b (UInt16.ofNat (i + 1))
  generalize conntableSetBucket t b (UInt16.ofNat (i + 1)) = t' at hbucket hsame
  have hkeep : ∀ b', Taken t b' → conntableBucketAt t' b' = conntableBucketAt t b' := by
    intro b' htaken
    rw [hbucket, if_neg]
    rintro rfl
    exact hfree htaken
  have hmore : ∀ b', Taken t b' → Taken t' b' := by
    intro b' htaken
    rw [Taken, hkeep b' htaken]
    exact htaken
  refine ⟨h.same.trans hsame, ?_, ?_, ?_⟩
  · intro x hx
    unfold Indexed
    rw [conntableHome_congr (congrArg ConnIds.hseed (hsame 0))]
    rcases mem_append.mp hx with hx | hx
    · obtain ⟨b', hb', hvalue⟩ := h.reach x hx
      refine ⟨b', hb'.mono hmore, ?_⟩
      rw [hkeep b' ?_, hvalue]
      intro hzero
      rw [hzero] at hvalue
      cases hvalue
    · rw [mem_singleton.mp hx]
      exact ⟨b, hreach.mono hmore, by rw [hbucket, if_pos rfl, hslot]⟩
  · intro b' hb'
    rw [hbucket]
    split
    · rw [hslot]
      exact hi
    · exact h.bound b' hb'
  · rw [length_append, length_singleton]
    refine le_trans (card_taken_succ (b := b) ?_) (Nat.succ_le_succ h.count)
    intro b' htaken
    by_cases hb' : b' = b
    · exact .inl hb'
    · right
      intro hzero
      apply htaken
      rw [hbucket, if_neg hb', hzero]

theorem IndexOf.slot (h : IndexOf cap t₀ t entries) (hcap : cap < 65535) (hi : i < cap)
    (hroom : entries.length + 3 ≤ cap * conntableHb) :
    ∃ t', conntableIndexSlot cap t i = some t' ∧
      IndexOf cap t₀ t' (entries ++ (t₀ i).toConnIds.keys.map (·, i)) := by
  have hids : ∀ {t'}, SameIds t₀ t' → (t' i).toConnIds = (t₀ i).toConnIds := fun hs => hs i
  have halt : ∀ {t' : Conntable} {es : List (List UInt8 × Nat)} (alt : List UInt8),
      IndexOf cap t₀ t' es → es.length < cap * conntableHb →
      ∃ t'', conntableIndexAlt t' cap alt i = some t'' ∧
        IndexOf cap t₀ t'' (es ++ ([alt].filter (· ≠ [])).map (·, i)) := by
    intro t' es alt hes hlen
    by_cases hnil : alt = []
    · refine ⟨t', ?_, ?_⟩
      · rw [conntableIndexAlt, if_pos (by rw [hnil]; rfl)]
      · simpa [hnil] using hes
    · obtain ⟨t'', hput, hes'⟩ := hes.put hcap hi hlen alt
      refine ⟨t'', ?_, ?_⟩
      · rw [conntableIndexAlt, if_neg fun h0 => hnil (eq_nil_of_length_eq_zero h0)]
        exact hput
      · simpa [hnil] using hes'
  have hlive := congrArg ConnIds.live (hids h.same)
  unfold conntableIndexSlot ConnIds.keys
  rw [hlive]
  cases (t₀ i).live with
  | false => exact ⟨t, rfl, by simpa using h⟩
  | true =>
    obtain ⟨t₁, hput, h₁⟩ := h.put hcap hi (by omega) (t i).cid
    obtain ⟨t₂, hput₂, h₂⟩ := halt (t₁ i).altCid h₁ (by simp; omega)
    obtain ⟨t₃, hput₃, h₃⟩ := halt (t₂ i).alt2Cid h₂ (by
      have hone : ([(t₁ i).altCid].filter (· ≠ [])).length ≤ 1 := length_filter_le ..
      simp only [length_append, length_map, length_singleton]
      omega)
    refine ⟨t₃, ?_, ?_⟩
    · simp only [Bool.not_true, Bool.false_eq_true, if_false, hput, hput₂, hput₃,
        Option.bind_eq_bind, Option.bind_some]
    · have hcid := congrArg ConnIds.cid (hids h.same)
      have haltCid := congrArg ConnIds.altCid (hids h₁.same)
      have halt2Cid := congrArg ConnIds.alt2Cid (hids h₂.same)
      have hsplit : [(t₀ i).altCid, (t₀ i).alt2Cid].filter (· ≠ []) =
          [(t₀ i).altCid].filter (· ≠ []) ++ [(t₀ i).alt2Cid].filter (· ≠ []) :=
        filter_append [(t₀ i).altCid] [(t₀ i).alt2Cid]
      rw [hcid, haltCid, halt2Cid, append_assoc, append_assoc, ← map_append, ← hsplit] at h₃
      exact h₃

end

/-- Every ID of a live slot leads to a bucket of the slot. -/
structure TableIndexed (t : Conntable) (cap : Nat) : Prop where
  reach : ∀ i < cap, ∀ c ∈ (t i).toConnIds.keys, Indexed t cap c i
  bound : ∀ b < cap * conntableHb, (conntableBucketAt t b).toNat ≤ cap

variable {cap home : Nat}

theorem reindex_spec (hcap : cap < 65535) (t : Conntable) :
    ∃ t', conntableReindex t cap = some t' ∧ SameIds t t' ∧ TableIndexed t' cap := by
  have hfold : ∀ n ≤ cap, ∃ t' entries,
      (List.range n).foldlM (conntableIndexSlot cap) (conntableClear t cap) = some t' ∧
        IndexOf cap t t' entries ∧ entries.length ≤ 3 * n ∧
        ∀ i < n, ∀ c ∈ (t i).toConnIds.keys, (c, i) ∈ entries := by
    intro n hn
    induction n with
    | zero => exact ⟨_, [], rfl, indexOf_clear t cap, le_rfl, fun i hi => absurd hi (by omega)⟩
    | succ n ih =>
      obtain ⟨t', entries, hrun, hindex, hlen, hall⟩ := ih (by omega)
      obtain ⟨t'', hslot, hindex'⟩ := hindex.slot hcap (i := n) (by omega)
        (by unfold conntableHb; omega)
      refine ⟨t'', _, ?_, hindex', ?_, ?_⟩
      · rw [range_succ, foldlM_append, hrun]
        simp [hslot]
      · have hkeys := (t n).toConnIds.keys_length_le
        rw [length_append, length_map]
        omega
      · intro i hi c hc
        rw [mem_append]
        by_cases hlast : i = n
        · subst hlast
          exact .inr (mem_map_of_mem hc)
        · exact .inl (hall i (by omega) c hc)
  obtain ⟨t', entries, hrun, hindex, -, hall⟩ := hfold cap le_rfl
  refine ⟨t', hrun, hindex.same, ⟨fun i hi c hc => ?_, hindex.bound⟩⟩
  rw [hindex.same i] at hc
  exact hindex.reach (c, i) (hall i hi c hc)

/-! ## Looking up -/

theorem probe_hit {b : Nat} (h : conntableProbe t b want = .hit i) :
    want ∈ (t i).toConnIds.keys ∧ (conntableBucketAt t b).toNat = i + 1 := by
  unfold conntableProbe at h
  dsimp only at h
  split at h
  · cases h
  rename_i hne
  split at h
  · rename_i hmatch
    cases h
    have hpos : (conntableBucketAt t b).toNat ≠ 0 := fun h0 => hne (UInt16.toNat_inj.mp h0)
    exact ⟨conntableSlotMatches_iff.mp hmatch, by omega⟩
  · cases h

/-- What the search returns is a slot of the table that holds the ID. -/
theorem findFrom_sound (h : TableIndexed t cap) (hcap : 0 < cap)
    (hfind : conntableFindFrom t (cap * conntableHb) home want fuel k = some i) :
    i < cap ∧ want ∈ (t i).toConnIds.keys := by
  induction fuel generalizing k with
  | zero => cases hfind
  | succ fuel ih =>
    unfold conntableFindFrom at hfind
    split at hfind
    · cases hfind
    · rename_i j hprobe
      cases hfind
      obtain ⟨hkey, hvalue⟩ := probe_hit hprobe
      have hbound := h.bound ((home + k) % (cap * conntableHb))
        (Nat.mod_lt _ (Nat.mul_pos hcap (by decide)))
      exact ⟨by omega, hkey⟩
    · exact ih hfind

/-- The search does not end before the bucket that it gets to. -/
theorem findFrom_complete {m : Nat} (hm : m < fuel)
    (htaken : ∀ j < k + m, Taken t ((home + j) % nb))
    (hvalue : (conntableBucketAt t ((home + (k + m)) % nb)).toNat = i + 1)
    (hkey : want ∈ (t i).toConnIds.keys) :
    (conntableFindFrom t nb home want fuel k).isSome = true := by
  induction fuel generalizing k m with
  | zero => omega
  | succ fuel ih =>
    unfold conntableFindFrom
    cases m with
    | zero =>
      have hhit : conntableProbe t ((home + k) % nb) want = .hit i := by
        have hne : conntableBucketAt t ((home + k) % nb) ≠ 0 := fun h0 => by
          rw [add_zero, h0] at hvalue
          cases hvalue
        unfold conntableProbe
        rw [add_zero] at hvalue
        simp only [hne, if_false, hvalue, Nat.add_sub_cancel,
          conntableSlotMatches_iff.mpr hkey, if_true]
      rw [hhit]
      rfl
    | succ m =>
      have hnext : (conntableFindFrom t nb home want fuel (k + 1)).isSome = true := by
        apply ih (m := m) (by omega)
        · intro j hj
          exact htaken j (by omega)
        · rw [show k + 1 + m = k + (m + 1) by omega]
          exact hvalue
      have hgoes : conntableProbe t ((home + k) % nb) want ≠ .stop := by
        unfold conntableProbe
        rw [if_neg (htaken k (by omega))]
        split
        · exact fun h => ConnProbe.noConfusion h
        · exact fun h => ConnProbe.noConfusion h
      split
      · rename_i hstop
        exact absurd hstop hgoes
      · rfl
      · exact hnext

theorem TableIndexed.find_spec (h : TableIndexed t cap) (dcid : List UInt8) :
    match conntableFind t cap dcid with
    | some i => i < cap ∧ dcid ∈ (t i).toConnIds.keys
    | none => ∀ i < cap, dcid ∉ (t i).toConnIds.keys := by
  split
  · rename_i i hfind
    have hcap : 0 < cap := by
      rcases Nat.eq_zero_or_pos cap with rfl | hpos
      · unfold conntableFind at hfind
        cases hfind
      · exact hpos
    exact findFrom_sound h hcap hfind
  · rename_i hfind
    intro i hi hkey
    obtain ⟨b, ⟨k, hk, rfl, htaken⟩, hvalue⟩ := h.reach i hi dcid hkey
    have hsome := findFrom_complete (k := 0) hk (by simpa using htaken) (by simpa using hvalue) hkey
    unfold conntableFind at hfind
    rw [hfind] at hsome
    cases hsome

/-! ## Runs -/

theorem reindex_indexed (hcap : cap < 65535) (t : Conntable) :
    ∃ t', conntableReindex t cap = some t' ∧ TableIndexed t' cap := by
  obtain ⟨t', hrun, -, hindexed⟩ := reindex_spec hcap t
  exact ⟨t', hrun, hindexed⟩

theorem change_indexed (hcap : cap < 65535) (h : TableIndexed t cap)
    (f : List UInt8 → ConnIds → ConnIds) (i : Int) (cid : List UInt8) :
    ∃ t', (conntableChange f t cap i cid).map Prod.fst = some t' ∧ TableIndexed t' cap := by
  unfold conntableChange
  split
  · exact ⟨t, rfl, h⟩
  · obtain ⟨t', hrun, hindexed⟩ := reindex_indexed hcap (t.setIds i.toNat (f cid))
    exact ⟨t', by rw [hrun]; rfl, hindexed⟩

theorem setIds_bucketAt (t : Conntable) (i : Nat) (f : ConnIds → ConnIds) (b : Nat) :
    conntableBucketAt (t.setIds i f) b = conntableBucketAt t b :=
  congrFun (update_agrees ConnSlot.hix (by rfl) _) _

/-- A removal leaves the buckets, and no ID is added. -/
theorem remove_indexed (h : TableIndexed t cap) (i : Int) :
    TableIndexed (conntableRemove t cap i) cap := by
  unfold conntableRemove
  split
  · exact h
  · have hbucket := setIds_bucketAt t i.toNat fun s => { s with live := false }
    have htaken : Taken (t.setIds i.toNat fun s => { s with live := false }) = Taken t := by
      funext b
      rw [Taken, hbucket]
    have hhome : ∀ c, conntableHome (t.setIds i.toNat fun s => { s with live := false }) c
        (cap * conntableHb) = conntableHome t c (cap * conntableHb) := by
      exact fun c => conntableHome_congr (update_agrees (fun s => s.hseed) (by rfl) 0) c _
    refine ⟨fun j hj c hc => ?_, fun b hb => by rw [hbucket]; exact h.bound b hb⟩
    have hother : j ≠ i.toNat := by
      rintro rfl
      rw [Conntable.setIds, update_self] at hc
      cases hc
    rw [Conntable.setIds, update_of_ne hother] at hc
    obtain ⟨b, hreach, hvalue⟩ := h.reach j hj c hc
    exact ⟨b, by rw [htaken, hhome]; exact hreach, by rw [hbucket]; exact hvalue⟩

theorem connStep_indexed (hcap : cap < 65535) (h : TableIndexed t cap) (op : ConnOp) :
    ∃ t', connStep cap t op = some t' ∧ TableIndexed t' cap := by
  cases op with
  | seed s => exact reindex_indexed hcap _
  | insert cid =>
    simp only [connStep, conntableInsert]
    split
    · exact ⟨t, rfl, h⟩
    · split
      · exact ⟨t, rfl, h⟩
      · obtain ⟨t', hrun, hindexed⟩ := reindex_indexed hcap (t.setIds _ _)
        exact ⟨t', by rw [hrun]; rfl, hindexed⟩
  | remove i => exact ⟨_, rfl, remove_indexed h i⟩
  | rekey i cid | setAlt2 i cid | setCid i cid => exact change_indexed hcap h _ i cid

/-- Every run of operations comes to an end, and after it a look-up finds a live slot with the ID if
there is one. -/
theorem conntable_lookup (cap : Nat) (hcap : cap < 65535) (memory : Conntable)
    (ops : List ConnOp) :
    ∃ t, (conntableInit memory cap).bind (fun t => ops.foldlM (connStep cap) t) = some t ∧
      ∀ dcid, match conntableFind t cap dcid with
        | some i => i < cap ∧ dcid ∈ (t i).toConnIds.keys
        | none => ∀ i < cap, dcid ∉ (t i).toConnIds.keys := by
  have hrun : ∀ (ops : List ConnOp) (t : Conntable), TableIndexed t cap →
      ∃ t', ops.foldlM (connStep cap) t = some t' ∧ TableIndexed t' cap := by
    intro ops
    induction ops with
    | nil => exact fun t h => ⟨t, rfl, h⟩
    | cons op ops ih =>
      intro t h
      obtain ⟨t', hstep, h'⟩ := connStep_indexed hcap h op
      obtain ⟨t'', hrest, h''⟩ := ih t' h'
      refine ⟨t'', ?_, h''⟩
      rw [foldlM_cons, hstep]
      exact hrest
  obtain ⟨t, hinit, hindexed⟩ := reindex_indexed hcap
    (fun i => if i < cap then
      { memory i with live := false, altCid := [], alt2Cid := [], hseed := 0 } else memory i)
  obtain ⟨t', hall, hindexed'⟩ := hrun ops t hindexed
  refine ⟨t', ?_, hindexed'.find_spec⟩
  rw [conntableInit, hinit]
  exact hall

def connSlotZero : ConnSlot where
  cid := []
  altCid := []
  alt2Cid := []
  live := false
  hseed := 0
  hix := fun _ => 0

/-- Two connections, a new ID for the first, and the end of the second. -/
theorem conntable_lookup_removed :
    3 < 65535 ∧ ∃ t, (conntableInit (fun _ => connSlotZero) 3).bind (fun t =>
        [ConnOp.seed 7, .insert [1], .insert [2], .rekey 0 [3], .remove 1].foldlM
          (connStep 3) t) = some t ∧
      ∀ dcid, match conntableFind t 3 dcid with
        | some i => i < 3 ∧ dcid ∈ (t i).toConnIds.keys
        | none => ∀ i < 3, dcid ∉ (t i).toConnIds.keys :=
  ⟨by decide, conntable_lookup 3 (by decide) _ _⟩

end Wired.Transport
