import Wired.Qpack.FieldDecode

/-!
# Field sections of a request

`request_drive_trailer.c`, `request_drive.c` and `request_drive_line.c`: the prefix of a field
section gives the Required Insert Count and the Base, and each field line is then decoded by the
first form that takes it.

A reference to the dynamic table is compared with the index that it stands for over the integers
(`exactIndex`). The two agree but for one case: a post-base index and the Base may add up to more
than `2 ^ 64`, so that the line names an entry far below its Base (`resolvesExactly_iff`).
-/

namespace Wired.Http3

open Lib Qpack Option

variable {mask pattern b mask' pattern' : UInt8} {bits i : Nat} {buf fs : List UInt8}
variable {ref : FieldRef} {p : QpackPrefix} {s : QdynSrc} {T : LiveTable} {f : Field}

/-! ## The section prefix -/

def qpackDynEntrySizeOverhead : Nat := 32

def dynRicCtx (dyn : QpackDyn) : QpackRicCtx where
  maxEntries := dyn.maxCapacity / qpackDynEntrySizeOverhead
  totalInserts := dyn.dropped + dyn.count

/-- No stream may block, so the Required Insert Count is at most the inserts received. -/
def prefixRicOk (p : QpackPrefix) (ric : Nat) (c : QpackRicCtx) : Bool :=
  qpackBaseValid ric p.sign p.deltaBase && ric ≤ c.totalInserts

def prefixResolveBase (p : QpackPrefix) (dyn : QpackDyn) : Option QdynSrc :=
  (qpackRicDecode p.requiredInsertCount (dynRicCtx dyn)).bind fun ric =>
    if !prefixRicOk p ric (dynRicCtx dyn) then none
    else some { table := dyn, base := qpackBase ric p.sign p.deltaBase, ric := ric }

/-- What the lines behind the prefix are decoded against, and the length of the prefix. -/
def h3reqdrivePrefixBase (fs : List UInt8) (dyn : QpackDyn) : Option (QdynSrc × Nat) :=
  (qpackPrefixDecode fs).bind fun r => (prefixResolveBase r.1 dyn).map fun s => (s, r.2)

/-! ## Field lines -/

/-- A decoded line, and the scratch it took. -/
structure RLine where
  name : List UInt8
  value : List UInt8
  scratchUsed : Nat
deriving DecidableEq, Repr

/-- A line with the bytes it took, if it decodes, and whether it refers to no live entry. -/
structure LineOut where
  line : Option (RLine × Nat)
  refBad : Bool

def lineIsIndexed (lead : UInt8) : Bool := lead &&& 0x80 ≠ 0 || lead &&& 0xf0 = 0x10

def literalLine (name value : List UInt8) : RLine where
  name := name
  value := value
  scratchUsed := value.length

def borrowStatic (f : Field) : RLine where
  name := f.name
  value := f.value
  scratchUsed := 0

/-- A static entry is kept as a view, the value of a dynamic one is copied to the scratch. -/
def indexedKeep (f : Field) (lead : UInt8) (scr : Nat) : Option RLine :=
  if lead &&& 0xc0 = 0xc0 then some (borrowStatic f)
  else if f.value.length > scr then none
  else some (literalLine f.name f.value)

def h3reqdriveLineIndexed (fs : List UInt8) (scr : Nat) (s : QdynSrc) (refBad : Bool) : LineOut :=
  match qdynDecodeField s fs with
  | none => { line := none, refBad := lineIsIndexed (fs.headD 0) }
  | some (f, consumed) =>
    { line := (indexedKeep f (fs.headD 0) scr).map fun l => (l, consumed), refBad := refBad }

def lineNamref (fs : List UInt8) (scr : Nat) (s : QdynSrc) (refBad : Bool) : LineOut :=
  match qpackLiteralNamrefHead fs with
  | none => { line := none, refBad := refBad }
  | some (r, _) =>
    match qdynResolveName s r.isStatic r.index with
    | none => { line := none, refBad := true }
    | some name =>
      { line := (qpackLiteralNamrefDecode scr fs).map fun v => (literalLine name v.1.2, v.2)
        refBad := false }

def linePostbase (fs : List UInt8) (scr : Nat) (s : QdynSrc) (refBad : Bool) : LineOut :=
  match qpackLiteralPostbaseHead fs with
  | none => { line := none, refBad := refBad }
  | some (r, _) =>
    match qdynResolvePostbaseName s r.index with
    | none => { line := none, refBad := true }
    | some name =>
      { line := (qpackLiteralPostbaseDecode scr fs).map fun v => (literalLine name v.1.2, v.2)
        refBad := false }

def litnameNameCap : Nat := 64

def litnameSplit (scr : Nat) : Nat := if scr > litnameNameCap then litnameNameCap else scr / 2

def lineLitname (fs : List UInt8) (scr : Nat) (_s : QdynSrc) (refBad : Bool) : LineOut :=
  let half := litnameSplit scr
  { line := (qpackLiteralNameDecode half (scr - half) fs).map fun r =>
      ({ name := r.1.2.name, value := r.1.2.value, scratchUsed := half + r.1.2.value.length }, r.2)
    refBad := refBad }

/-- `line_forms`, in the order they are tried. -/
def lineForms : List (List UInt8 → Nat → QdynSrc → Bool → LineOut) :=
  [h3reqdriveLineIndexed, lineNamref, linePostbase, lineLitname]

def h3reqdriveDecodeLine (fs : List UInt8) (scr : Nat) (s : QdynSrc) : LineOut :=
  lineForms.foldl
    (fun out form => if out.line.isSome then out else form fs scr s out.refBad)
    { line := none, refBad := false }

/-! ## References and the indices they stand for -/

/-- A reference to the dynamic table. -/
inductive FieldRef where
  | relative (index : Nat)
  | postBase (index : Nat)
deriving DecidableEq, Repr

def FieldRef.index : FieldRef → Nat
  | .relative i => i
  | .postBase i => i

/-- The reference of a line, and whether the line takes its value from the entry too. -/
def lineRef (fs : List UInt8) : Option (FieldRef × Bool) :=
  match qpackIndexedDecode fs, qpackIndexedPostbaseDecode fs, qpackLiteralNamrefHead fs,
    qpackLiteralPostbaseHead fs with
  | some ((i, isStatic), _), _, _, _ => if isStatic then none else some (.relative i, true)
  | none, some (i, _), _, _ => some (.postBase i, true)
  | none, none, some (r, _), _ => if r.isStatic then none else some (.relative r.index, false)
  | none, none, none, some (r, _) => some (.postBase r.index, false)
  | none, none, none, none => none

/-- What a reference is resolved to. -/
def resolveRef (s : QdynSrc) : FieldRef → Option Field
  | .relative i => resolveDynamic s i
  | .postBase i => resolvePostbase s i

/-- The prefix of a section, what its references are resolved against, and that of one line. -/
def sectionRef (dyn : QpackDyn) (fs buf : List UInt8) : Option (QpackPrefix × QdynSrc × FieldRef) :=
  (qpackPrefixDecode fs).bind fun r => (prefixResolveBase r.1 dyn).bind fun s =>
    (lineRef buf).map fun ref => (r.1, s, ref.1)

/-- The Base over the integers. -/
def exactBase (ric : Nat) (p : QpackPrefix) : ℤ :=
  if p.sign then ric - p.deltaBase - 1 else ric + p.deltaBase

/-- The absolute index over the integers. -/
def exactIndex (base : ℤ) : FieldRef → ℤ
  | .relative i => base - 1 - i
  | .postBase i => base + i

/-- The index is one of the live table and below the Required Insert Count, and its entry is
`f`. -/
def Names (T : LiveTable) (ric : Nat) (index : ℤ) (f : Field) : Prop :=
  ∃ i : Nat, index = i ∧ T.table.dropped ≤ i ∧ i < T.table.dropped + T.table.count ∧ i < ric ∧
    T.live[i - T.table.dropped]? = some f

/-- A reference that is accepted names, over the integers, the entry it is resolved to. -/
def ResolvesExactly (T : LiveTable) (fs buf : List UInt8) : Prop :=
  ∀ p s ref f, sectionRef T.table fs buf = some (p, s, ref) → resolveRef s ref = some f →
    Names T s.ric (exactIndex (exactBase s.ric p) ref) f

/-- Post-base index and Base pass `2 ^ 64` together, and the rest is the index of a live entry. -/
def WrapsIntoLive (s : QdynSrc) : FieldRef → Prop
  | .relative _ => False
  | .postBase i => 2 ^ 64 ≤ s.base + i ∧ s.table.dropped ≤ s.base + i - 2 ^ 64 ∧
      s.base + i - 2 ^ 64 < s.ric

/-- No reference of the line wraps so. -/
def NoWrapIntoLive (T : LiveTable) (fs buf : List UInt8) : Prop :=
  ∀ p s ref, sectionRef T.table fs buf = some (p, s, ref) → ¬ WrapsIntoLive s ref

/-! ## Decoded integers -/

variable {n : Nat}

theorem lineHead_lt {v : Nat} (hbits : bits ≤ 6)
    (h : lineHead mask pattern bits buf = some ((b, v), n)) : v < 2 ^ 63 + 63 := by
  obtain ⟨x, -, hx⟩ := bind_eq_some_iff.mp h
  split at hx
  · obtain ⟨r, hr, he⟩ := map_eq_some_iff.mp hx
    cases he
    have hlt := qpackIntDecode_lt hr
    have hpow : 2 ^ bits ≤ 2 ^ 6 := Nat.pow_le_pow_right (by decide) hbits
    omega
  · cases hx

theorem lineRef_lt {whole : Bool} (h : lineRef buf = some (ref, whole)) :
    ref.index < 2 ^ 63 + 63 := by
  unfold lineRef at h
  split at h
  · next hd =>
    split at h
    · cases h
    cases h
    obtain ⟨r, hr, he⟩ := map_eq_some_iff.mp hd
    cases he
    exact lineHead_lt le_rfl hr
  · next hd =>
    cases h
    obtain ⟨r, hr, he⟩ := map_eq_some_iff.mp hd
    cases he
    exact lineHead_lt (by decide) hr
  · next hd =>
    split at h
    · cases h
    cases h
    obtain ⟨r, hr, he⟩ := map_eq_some_iff.mp hd
    cases he
    exact lineHead_lt (by decide) hr
  · next hd =>
    cases h
    obtain ⟨r, hr, he⟩ := map_eq_some_iff.mp hd
    cases he
    exact lineHead_lt (by decide) hr
  · cases h

theorem qpackPrefixDecode_lt (h : qpackPrefixDecode fs = some (p, n)) :
    p.deltaBase < 2 ^ 63 + 127 := by
  obtain ⟨ric, off, used, -, hrest, -⟩ := Stable.andThen_eq_some.mp h
  obtain ⟨r, hr, he⟩ := map_eq_some_iff.mp hrest
  cases he
  exact qpackIntDecode_lt hr

/-! ## Resolution over the integers -/

/-- A decoded reference: the Base is exact, the index computed from it may wrap. -/
structure SectionRef (T : LiveTable) (p : QpackPrefix) (s : QdynSrc) (ref : FieldRef) : Prop where
  table : s.table = T.table
  ric_le : s.ric ≤ T.table.dropped + T.table.count
  base : (s.base : ℤ) = exactBase s.ric p
  base_lt : s.base < 2 ^ 64
  index_lt : ref.index < 2 ^ 63 + 63

theorem prefixResolveBase_spec {dyn : QpackDyn} (h : prefixResolveBase p dyn = some s) :
    s.table = dyn ∧ s.ric ≤ dyn.dropped + dyn.count ∧
      qpackBaseValid s.ric p.sign p.deltaBase = true ∧
      s.base = qpackBase s.ric p.sign p.deltaBase := by
  obtain ⟨ric, -, hric⟩ := bind_eq_some_iff.mp h
  split at hric
  · cases hric
  rename_i hok
  obtain rfl := Option.some.inj hric
  simp only [prefixRicOk, Bool.not_eq_true', Bool.not_eq_false, Bool.and_eq_true,
    decide_eq_true_eq] at hok
  exact ⟨rfl, hok.2, hok.1, rfl⟩

theorem sectionRef_spec (h : sectionRef T.table fs buf = some (p, s, ref)) :
    SectionRef T p s ref := by
  obtain ⟨r, hr, hp⟩ := bind_eq_some_iff.mp h
  obtain ⟨s', hs, hl⟩ := bind_eq_some_iff.mp hp
  obtain ⟨l, hline, he⟩ := map_eq_some_iff.mp hl
  cases he
  obtain ⟨htable, hric, hvalid, hbase⟩ := prefixResolveBase_spec hs
  have hdelta := qpackPrefixDecode_lt hr
  have hinserts := T.inserts_le
  refine ⟨htable, hric, ?_, ?_, lineRef_lt hline⟩
  · rw [hbase]
    unfold qpackBase exactBase
    unfold qpackBaseValid at hvalid
    split
    · next hsign =>
      simp only [hsign, Bool.not_true, Bool.false_or, decide_eq_true_eq] at hvalid
      have hfirst : subU64 s.ric r.1.deltaBase = s.ric - r.1.deltaBase :=
        subU64_eq (by omega) (by omega)
      rw [hfirst, subU64_eq (by omega) (by omega)]
      omega
    · rw [addU64_eq (by omega)]
      omega
  · rw [hbase]
    unfold qpackBase
    split
    · exact subU64_lt _ _
    · exact addU64_lt _ _

section

variable (h : SectionRef T p s ref)
include h

/-- The entry of an index that was computed is looked up without a further wrap. -/
theorem SectionRef.refGet_iff (abs : Nat) (f : Field) :
    qdynRefGet s abs = some f ↔ T.table.dropped ≤ abs ∧ abs < s.ric ∧
      T.live[abs - T.table.dropped]? = some f := by
  have hric := h.ric_le
  have hinserts := T.inserts_le
  unfold qdynRefGet qpackRicMinOk
  rw [h.table, qpackDynGet_eq T.represents]
  simp only [if_true, ge_iff_le, decide_eq_true_eq]
  constructor
  · intro hget
    split at hget
    · next hmin =>
      split at hget
      · next hdropped =>
        have hlive := (List.getElem?_eq_some_iff.mp hget).1
        rw [← T.represents.count] at hlive
        rw [addU64_eq (by omega)] at hmin
        exact ⟨hdropped, hmin, hget⟩
      · cases hget
    · cases hget
  · rintro ⟨hdropped, hlt, hget⟩
    rw [addU64_eq (by omega), if_pos (Nat.succ_le_of_lt hlt), if_pos hdropped]
    exact hget

theorem SectionRef.names {abs : Nat} {index : ℤ}
    (hget : qdynRefGet s abs = some f) (hindex : index = abs) : Names T s.ric index f := by
  obtain ⟨hdropped, hlt, hlive⟩ := (h.refGet_iff abs f).mp hget
  have hric := h.ric_le
  exact ⟨abs, hindex, hdropped, by omega, hlt, hlive⟩

/-- A reference that is accepted, and does not wrap into the live entries, is exact. -/
theorem SectionRef.resolve_names (hf : resolveRef s ref = some f)
    (hwrap : ¬ WrapsIntoLive s ref) : Names T s.ric (exactIndex (exactBase s.ric p) ref) f := by
  have hbase := h.base
  have hbase_lt := h.base_lt
  have hindex := h.index_lt
  have hric := h.ric_le
  have hinserts := T.inserts_le
  cases ref with
  | relative i =>
    -- a difference below zero would be far above any Required Insert Count
    have hget : qdynRefGet s (qpackRelToAbs s.base i) = some f := hf
    have hlt := ((h.refGet_iff _ f).mp hget).2.1
    apply h.names hget
    simp only [FieldRef.index, exactIndex, qpackRelToAbs, subU64] at hindex hlt ⊢
    omega
  | postBase i =>
    have hget : qdynRefGet s (qpackPostbaseToAbs s.base i) = some f := hf
    obtain ⟨hdropped, hlt, -⟩ := (h.refGet_iff _ f).mp hget
    apply h.names hget
    simp only [FieldRef.index, exactIndex, WrapsIntoLive, qpackPostbaseToAbs, addU64, h.table]
      at hindex hdropped hlt hwrap ⊢
    omega

/-- A reference that wraps into the live entries is accepted, and is not exact. -/
theorem SectionRef.wrapped (hwrap : WrapsIntoLive s ref) :
    ∃ f, resolveRef s ref = some f ∧ ¬ Names T s.ric (exactIndex (exactBase s.ric p) ref) f := by
  cases ref with
  | relative i => exact absurd hwrap id
  | postBase i =>
    obtain ⟨hover, hdropped, hlt⟩ := hwrap
    rw [h.table] at hdropped
    have hbase := h.base
    have hric := h.ric_le
    have hinserts := T.inserts_le
    have habs : qpackPostbaseToAbs s.base i = s.base + i - 2 ^ 64 := by
      unfold qpackPostbaseToAbs addU64
      omega
    obtain ⟨f, hf⟩ : ∃ f, T.live[s.base + i - 2 ^ 64 - T.table.dropped]? = some f :=
      ⟨_, List.getElem?_eq_getElem (by rw [← T.represents.count]; omega)⟩
    have hget : qdynRefGet s (qpackPostbaseToAbs s.base i) = some f := by
      rw [habs]
      exact (h.refGet_iff _ f).mpr ⟨hdropped, hlt, hf⟩
    refine ⟨f, hget, ?_⟩
    rintro ⟨j, hj, -, -, hjlt, -⟩
    simp only [exactIndex] at hj
    omega

end

/-! ## Decoded lines -/

theorem pattern_conflict (h : b &&& mask = pattern) (h' : b &&& mask' = pattern') :
    pattern &&& mask' = pattern' &&& mask := by
  rw [← h, ← h', UInt8.and_assoc, UInt8.and_assoc, UInt8.and_comm mask]

theorem lineHead_conflict {bits' : Nat} (hb : fs.head? = some b) (h : b &&& mask = pattern)
    (hne : pattern &&& mask' ≠ pattern' &&& mask) : lineHead mask' pattern' bits' fs = none := by
  simp only [lineHead, hb, bind_some]
  exact if_neg fun h' => hne (pattern_conflict h h')

theorem lineHead_some {r : (UInt8 × Nat) × Nat} (h : lineHead mask pattern bits fs = some r) :
    ∃ b, fs.head? = some b ∧ b &&& mask = pattern := by
  obtain ⟨b, hb, hif⟩ := bind_eq_some_iff.mp h
  split at hif
  · next hpat => exact ⟨b, hb, hpat⟩
  · cases hif

section

section

variable (hb : fs.head? = some b) (h : b &&& mask = pattern)
include hb h

theorem not_indexed (hne : pattern &&& 0x80 ≠ 0x80 &&& mask) : qpackIndexedDecode fs = none :=
  congrArg (Option.map _) (lineHead_conflict hb h hne)

theorem not_indexedPostbase
    (hne : pattern &&& 0xf0 ≠ 0x10 &&& mask) : qpackIndexedPostbaseDecode fs = none :=
  congrArg (Option.map _) (lineHead_conflict hb h hne)

theorem not_namref (hne : pattern &&& 0xc0 ≠ 0x40 &&& mask) : qpackLiteralNamrefHead fs = none :=
  congrArg (Option.map _) (lineHead_conflict hb h hne)

theorem not_postbaseName
    (hne : pattern &&& 0xf0 ≠ 0x00 &&& mask) : qpackLiteralPostbaseHead fs = none :=
  congrArg (Option.map _) (lineHead_conflict hb h hne)

end

theorem lineRef_indexed {isStatic : Bool} (h : qpackIndexedDecode fs = some ((i, isStatic), n)) :
    lineRef fs = if isStatic then none else some (.relative i, true) := by
  simp only [lineRef, h]

theorem lineRef_namref {r : QpackNameref} (h : qpackLiteralNamrefHead fs = some (r, n)) :
    lineRef fs = if r.isStatic then none else some (.relative r.index, false) := by
  obtain ⟨r', hhead, -⟩ := map_eq_some_iff.mp h
  obtain ⟨b, hb, hpat⟩ := lineHead_some hhead
  simp only [lineRef, not_indexed hb hpat (by decide), not_indexedPostbase hb hpat (by decide), h]

theorem lineRef_literalName (hb : fs.head? = some b) (hpat : b &&& 0xe0 = 0x20) :
    lineRef fs = none := by
  simp only [lineRef, not_indexed hb hpat (by decide), not_indexedPostbase hb hpat (by decide),
    not_namref hb hpat (by decide), not_postbaseName hb hpat (by decide)]

end

/-! ## The wrap of a post-base index -/

/-- **References are exact but for the wrap of a post-base index.** -/
theorem resolvesExactly_iff (T : LiveTable) (fs buf : List UInt8) :
    ResolvesExactly T fs buf ↔ NoWrapIntoLive T fs buf := by
  constructor
  · intro hexact p s ref href hwrap
    obtain ⟨f, hf, hnot⟩ := (sectionRef_spec href).wrapped hwrap
    exact hnot (hexact p s ref f href hf)
  · intro hno p s ref f href hf
    exact (sectionRef_spec href).resolve_names hf (hno p s ref href)

/-- A table with the entry `a: b`. -/
def oneEntryTable : QpackDyn :=
  (qdynEncApplyAll 64 { qpackDynInit 0 with maxCapacity := 64 }
    [0x3f, 0x21, 0x41, 0x61, 0x01, 0x62]).state

/-- A section prefix with a Base near the top of the range. -/
def farBase : List UInt8 :=
  [0x02, 0x7f, 0x80, 0xff, 0xff, 0xff, 0xff, 0xff, 0xff, 0xff, 0x7f]

/-- A line with a post-base index that takes it over. -/
def farLine : List UInt8 :=
  [0x1f, 0xf1, 0xff, 0xff, 0xff, 0xff, 0xff, 0xff, 0xff, 0x7f]

/-- Base and post-base index add up to zero as a `u64`, the index of the only entry. -/
theorem wrapped_postbase_accepted :
    ∃ T : LiveTable, T.table = oneEntryTable ∧ ¬ ResolvesExactly T farBase farLine := by
  obtain ⟨T, hT⟩ : ∃ T : LiveTable, T.table = oneEntryTable := liveTable_of_received 64 (by decide)
  refine ⟨T, hT, fun hexact => ?_⟩
  have hread : (sectionRef oneEntryTable farBase farLine).map
      (fun r => (r.2.1.base, r.2.1.ric, r.2.2)) = some (2 ^ 63, 1, .postBase (2 ^ 63)) := by
    decide +kernel
  rw [← hT] at hread
  obtain ⟨⟨p, s, ref⟩, href, hv⟩ := map_eq_some_iff.mp hread
  obtain ⟨hbase, hric, rfl⟩ : s.base = 2 ^ 63 ∧ s.ric = 1 ∧ ref = .postBase (2 ^ 63) := by
    simpa using hv
  have hwrap : WrapsIntoLive s (.postBase (2 ^ 63)) := by
    rw [WrapsIntoLive, (sectionRef_spec href).table, hT, hbase, hric]
    decide +kernel
  obtain ⟨f, hf, hnot⟩ := (sectionRef_spec href).wrapped hwrap
  exact hnot (hexact _ _ _ f href hf)

end Wired.Http3
