import Wired.Lib.Word

/-!
# Insert counts

`insertcount.c`: the Required Insert Count of a field section is sent modulo twice the number
of entries that the decoder's largest table can hold, and the acknowledgments of the decoder
are checked against what the encoder has sent.

The source computes in 64 bits (`U64`); that agrees with the natural numbers as long as the inserts
and three tables stay below `2 ^ 64`, which is where the codec is right (`ric_roundtrip`).
-/

namespace Wired.Qpack

open Lib

def qpackRicEncode (ric maxEntries : Nat) : Nat :=
  if ric = 0 then 0 else ric % (2 * maxEntries) + 1

/-- What a decoder knows: the entries its largest table can hold, and the inserts it has seen. -/
structure QpackRicCtx where
  maxEntries : Nat
  totalInserts : Nat

def ricCandidate (encoded fullRange maxValue : Nat) : Nat :=
  maxValue / fullRange * fullRange + encoded - 1

/-- A candidate past the largest possible value is one full range too high. -/
def ricCorrect (ric maxValue fullRange : Nat) : Option Nat :=
  if ric ≤ maxValue then some ric
  else if ric ≤ fullRange then none
  else some (ric - fullRange)

def ricResolve (encoded : Nat) (c : QpackRicCtx) : Option Nat :=
  let fullRange := 2 * c.maxEntries
  let maxValue := c.totalInserts + c.maxEntries
  if encoded > fullRange then none
  else
    (ricCorrect (ricCandidate encoded fullRange maxValue) maxValue fullRange).filter (· ≠ 0)

def qpackRicDecode (encoded : Nat) (c : QpackRicCtx) : Option Nat :=
  if encoded = 0 then some 0 else ricResolve encoded c

/-- A Required Insert Count below the lowest value that could decode the section is rejected. -/
def qpackRicMinOk (ric : Nat) (hasDynamicRef : Bool) (maxAbsRef : Nat) : Bool :=
  ric ≥ if hasDynamicRef then addU64 maxAbsRef 1 else 0

def qpackIncrValid (knownReceived increment totalInserts : Nat) : Bool :=
  increment ≠ 0 && knownReceived + increment ≤ totalInserts

def qpackSectionAckValid (pendingAcks : Nat) : Bool := pendingAcks > 0

/-- **Round trip.** A count within one table of the decoder's own is recovered. -/
theorem qpackRicDecode_encode {ric : Nat} {c : QpackRicCtx} (hpos : 0 < ric)
    (hlow : c.totalInserts < ric + c.maxEntries) (hhigh : ric ≤ c.totalInserts + c.maxEntries) :
    qpackRicDecode (qpackRicEncode ric c.maxEntries) c = some ric := by
  obtain ⟨entries, total⟩ := c
  dsimp only at hlow hhigh ⊢
  have hentries : 0 < 2 * entries := by omega
  have hmod := Nat.mod_lt ric hentries
  have hric := Nat.div_add_mod ric (2 * entries)
  have henc : qpackRicEncode ric entries = ric % (2 * entries) + 1 := if_neg (by omega)
  rw [henc, qpackRicDecode, if_neg (by omega), ricResolve]
  dsimp only
  rw [if_neg (by omega)]
  have hcand : ricCandidate (ric % (2 * entries) + 1) (2 * entries) (total + entries) =
      2 * entries * ((total + entries) / (2 * entries)) + ric % (2 * entries) := by
    unfold ricCandidate
    rw [Nat.mul_comm]
    omega
  -- the count lies in the range of the largest value, or in the one before
  have hquot : ric / (2 * entries) = (total + entries) / (2 * entries) ∨
      ric / (2 * entries) + 1 = (total + entries) / (2 * entries) := by
    have hle : ric / (2 * entries) ≤ (total + entries) / (2 * entries) := Nat.div_le_div_right hhigh
    have hge : (total + entries) / (2 * entries) ≤ ric / (2 * entries) + 1 := by
      rw [← Nat.add_div_right _ hentries]
      exact Nat.div_le_div_right (by omega)
    omega
  unfold ricCorrect
  rw [hcand]
  rcases hquot with hsame | hprev
  · rw [← hsame, hric, if_pos hhigh]
    simpa using Nat.ne_of_gt hpos
  · have hstep : 2 * entries * ((total + entries) / (2 * entries)) =
        2 * entries * (ric / (2 * entries)) + 2 * entries := by
      rw [← hprev, Nat.mul_add, Nat.mul_one]
    rw [if_neg (by omega), if_neg (by omega), show 2 * entries * ((total + entries) /
      (2 * entries)) + ric % (2 * entries) - 2 * entries = ric by omega]
    simpa using Nat.ne_of_gt hpos

/-- What the decoder accepts is within one table of its own count. -/
theorem qpackRicDecode_range {encoded ric : Nat} {c : QpackRicCtx} (hentries : 0 < c.maxEntries)
    (h : qpackRicDecode encoded c = some ric) :
    ric = 0 ∨ (c.totalInserts < ric + c.maxEntries ∧ ric ≤ c.totalInserts + c.maxEntries) := by
  obtain ⟨entries, total⟩ := c
  dsimp only at hentries ⊢
  have hfull : 0 < 2 * entries := by omega
  have hmax := Nat.div_add_mod (total + entries) (2 * entries)
  have hmod := Nat.mod_lt (total + entries) hfull
  rw [mul_comm] at hmax
  rw [qpackRicDecode] at h
  split at h
  · exact .inl (Option.some.inj h).symm
  rw [ricResolve] at h
  dsimp only at h
  split at h
  · cases h
  obtain ⟨hcorrect, -⟩ := Option.filter_eq_some_iff.mp h
  rw [ricCorrect, ricCandidate] at hcorrect
  split at hcorrect
  · cases hcorrect
    exact .inr ⟨by omega, by omega⟩
  split at hcorrect
  · cases hcorrect
  cases hcorrect
  exact .inr ⟨by omega, by omega⟩

/-! ## In 64 bits -/

namespace U64

/-- The count as it is sent. -/
def qpackRicEncode (ric maxEntries : UInt64) : UInt64 :=
  if ric = 0 then 0 else ric % (2 * maxEntries) + 1

/-- What the decoder knows. -/
structure QpackRicCtx where
  maxEntries : UInt64
  totalInserts : UInt64

def ricCandidate (encoded fullRange maxValue : UInt64) : UInt64 :=
  maxValue / fullRange * fullRange + encoded - 1

def ricCorrect (ric maxValue fullRange : UInt64) : Option UInt64 :=
  if ric ≤ maxValue then some ric
  else if ric ≤ fullRange then none
  else some (ric - fullRange)

def ricResolve (encoded : UInt64) (c : QpackRicCtx) : Option UInt64 :=
  let fullRange := 2 * c.maxEntries
  let maxValue := c.totalInserts + c.maxEntries
  if encoded > fullRange then none
  else
    (ricCorrect (ricCandidate encoded fullRange maxValue) maxValue fullRange).filter (· ≠ 0)

/-- The count of a section, if there is one. -/
def qpackRicDecode (encoded : UInt64) (c : QpackRicCtx) : Option UInt64 :=
  if encoded = 0 then some 0 else ricResolve encoded c

def QpackRicCtx.toNat (c : QpackRicCtx) : Qpack.QpackRicCtx :=
  ⟨c.maxEntries.toNat, c.totalInserts.toNat⟩

/-- No sum leaves 64 bits. -/
def QpackRicCtx.InRange (c : QpackRicCtx) : Prop :=
  c.totalInserts.toNat + 3 * c.maxEntries.toNat ≤ 2 ^ 64

section

variable {c : QpackRicCtx}

theorem toNat_eq_zero {x : UInt64} : x.toNat = 0 ↔ x = 0 := UInt64.toNat_inj (b := 0)

theorem toNat_fullRange {entries : UInt64} (h : 3 * entries.toNat ≤ 2 ^ 64)
    (hpos : 0 < entries.toNat) : (2 * entries).toNat = 2 * entries.toNat := by
  have htwo : (2 : UInt64).toNat = 2 := rfl
  rw [UInt64.toNat_mul, htwo]
  omega

theorem toNat_maxValue (h : c.InRange) (hpos : 0 < c.maxEntries.toNat) :
    (c.totalInserts + c.maxEntries).toNat = c.totalInserts.toNat + c.maxEntries.toNat := by
  unfold QpackRicCtx.InRange at h
  rw [UInt64.toNat_add]
  omega

theorem toNat_qpackRicEncode (ric : UInt64) {entries : UInt64} (h : 3 * entries.toNat ≤ 2 ^ 64)
    (hpos : 0 < entries.toNat) :
    (qpackRicEncode ric entries).toNat = Qpack.qpackRicEncode ric.toNat entries.toNat := by
  rw [qpackRicEncode, Qpack.qpackRicEncode]
  by_cases hzero : ric = 0
  · rw [if_pos hzero, if_pos (toNat_eq_zero.mpr hzero), UInt64.toNat_zero]
  · rw [if_neg hzero, if_neg (mt toNat_eq_zero.mp hzero)]
    have hmod := Nat.mod_lt ric.toNat (show 0 < 2 * entries.toNat by omega)
    rw [UInt64.toNat_add, UInt64.toNat_mod, toNat_fullRange h hpos, UInt64.toNat_one]
    omega

theorem toNat_ricCandidate {encoded full value : UInt64} (hpos : 0 < encoded.toNat)
    (h : value.toNat + encoded.toNat ≤ 2 ^ 64) :
    (ricCandidate encoded full value).toNat =
      Qpack.ricCandidate encoded.toNat full.toNat value.toNat := by
  have hle : value.toNat / full.toNat * full.toNat ≤ value.toNat := Nat.div_mul_le_self _ _
  rw [ricCandidate, Qpack.ricCandidate, UInt64.toNat_sub, UInt64.toNat_add, UInt64.toNat_mul,
    UInt64.toNat_div, UInt64.toNat_one]
  omega

theorem toNat_ricCorrect (ric value full : UInt64) :
    (ricCorrect ric value full).map UInt64.toNat =
      Qpack.ricCorrect ric.toNat value.toNat full.toNat := by
  rw [ricCorrect, Qpack.ricCorrect]
  simp only [UInt64.le_iff_toNat_le]
  split
  · rfl
  split
  · rfl
  · rename_i hfull
    rw [Option.map_some, UInt64.toNat_sub_of_le]
    exact UInt64.le_iff_toNat_le.mpr (Nat.le_of_not_le hfull)

theorem map_filter_toNat (ric : Option UInt64) :
    (ric.filter (· ≠ 0)).map UInt64.toNat = (ric.map UInt64.toNat).filter (· ≠ 0) := by
  cases ric with
  | none => rfl
  | some r =>
    by_cases hr : r = 0
    · rw [hr]
      rfl
    · have hr' : r.toNat ≠ 0 := mt toNat_eq_zero.mp hr
      simp [Option.filter, hr, hr']

/-- Within the range the source computes what the counts are as numbers. -/
theorem toNat_qpackRicDecode (encoded : UInt64) (h : c.InRange) (hpos : 0 < c.maxEntries.toNat) :
    (qpackRicDecode encoded c).map UInt64.toNat = Qpack.qpackRicDecode encoded.toNat c.toNat := by
  have hrange : c.toNat.totalInserts + 3 * c.toNat.maxEntries ≤ 2 ^ 64 := h
  have hfull : (2 * c.maxEntries).toNat = 2 * c.toNat.maxEntries :=
    toNat_fullRange (Nat.le_trans (Nat.le_add_left _ _) h) hpos
  have hvalue : (c.totalInserts + c.maxEntries).toNat =
      c.toNat.totalInserts + c.toNat.maxEntries := toNat_maxValue h hpos
  rw [qpackRicDecode, Qpack.qpackRicDecode]
  by_cases hzero : encoded = 0
  · rw [if_pos hzero, if_pos (toNat_eq_zero.mpr hzero)]
    rfl
  have hne : encoded.toNat ≠ 0 := mt toNat_eq_zero.mp hzero
  rw [if_neg hzero, if_neg hne, ricResolve, Qpack.ricResolve]
  by_cases hbig : encoded > 2 * c.maxEntries
  · have hlt := UInt64.lt_iff_toNat_lt.mp hbig
    rw [hfull] at hlt
    rw [if_pos hbig, if_pos hlt]
    rfl
  · have hle := UInt64.le_iff_toNat_le.mp (UInt64.not_lt.mp hbig)
    rw [hfull] at hle
    rw [if_neg hbig, if_neg (Nat.not_lt.mpr hle), map_filter_toNat, toNat_ricCorrect,
      toNat_ricCandidate (Nat.pos_of_ne_zero hne) (by omega), hfull, hvalue]

/-- A count within one table of the inserts seen is decoded from its encoding, and only such counts
are decoded, for a table that can hold an entry and as long as no sum leaves 64 bits. -/
theorem ric_roundtrip (capacity total : UInt64) (hentry : 32 ≤ capacity)
    (hrange : total.toNat + 3 * (capacity / 32).toNat ≤ 2 ^ 64) :
    (∀ ric : UInt64, total.toNat < ric.toNat + (capacity / 32).toNat →
      ric.toNat ≤ total.toNat + (capacity / 32).toNat →
      qpackRicDecode (qpackRicEncode ric (capacity / 32)) ⟨capacity / 32, total⟩ = some ric) ∧
    ∀ encoded ric : UInt64, qpackRicDecode encoded ⟨capacity / 32, total⟩ = some ric →
      ric = 0 ∨ (total.toNat < ric.toNat + (capacity / 32).toNat ∧
        ric.toNat ≤ total.toNat + (capacity / 32).toNat) := by
  have hpos : 0 < (capacity / 32).toNat := by
    have hle := UInt64.le_iff_toNat_le.mp hentry
    rw [UInt64.toNat_div]
    exact Nat.div_pos hle (by decide)
  have hin : QpackRicCtx.InRange ⟨capacity / 32, total⟩ := hrange
  have hdec := fun encoded => toNat_qpackRicDecode encoded hin hpos
  constructor
  · intro ric hlow hhigh
    apply Option.map_injective (fun _ _ h => UInt64.toNat_inj.mp h)
    rw [hdec, toNat_qpackRicEncode ric (by omega) hpos]
    by_cases hzero : ric = 0
    · rw [hzero]
      rfl
    · have hcount : 0 < ric.toNat := Nat.pos_of_ne_zero (mt toNat_eq_zero.mp hzero)
      exact qpackRicDecode_encode (c := ⟨(capacity / 32).toNat, total.toNat⟩) hcount hlow hhigh
  · intro encoded ric h
    have hnat := hdec encoded
    rw [h, Option.map_some] at hnat
    obtain hzero | hric := qpackRicDecode_range hpos hnat.symm
    · exact .inl (toNat_eq_zero.mp hzero)
    · exact .inr hric

/-- A table for two entries, five inserts behind it: the counts 4 to 7 and no others. -/
theorem ric_roundtrip_two :
    (∀ ric : UInt64, 5 < ric.toNat + 2 → ric.toNat ≤ 7 →
      qpackRicDecode (qpackRicEncode ric 2) ⟨2, 5⟩ = some ric) ∧
    qpackRicDecode (qpackRicEncode 8 2) ⟨2, 5⟩ = some 4 := by
  have h := ric_roundtrip 64 5 (by decide) (by decide)
  exact ⟨h.1, by decide⟩

/-- The last count that 64 bits hold: the sum with the entries wraps, and the count is refused. -/
theorem ric_roundtrip_wraps :
    qpackRicDecode (qpackRicEncode (~~~0) (32 / 32)) ⟨32 / 32, ~~~0⟩ = none := by
  decide

end

end U64

end Wired.Qpack
