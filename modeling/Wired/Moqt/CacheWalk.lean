import Wired.Moqt.CacheLookup
import Wired.Lib.Run

/-!
# Walking a range of Locations

`moqcache_skip` and `moqcache_item_at` in turn, over a range. In an arena that is in order and has
kept what was appended (`CacheOk`), the items of a walk are the Objects that are held, each once, in
order, and every Location that an Object was appended at lies in one of the items (`Serves`).

The arena is in order as long as the Objects of a Group arrive in ascending order (`AppendOk`) and
no Group expires below one of its track that stays (`ExpiryOk`). `cacheRun_walk` is the result for
whole runs.
-/

namespace Wired.Moqt

open Lib List

variable {l stop : Loc} {off : Nat} {payload : List UInt8} {c' c : Moqcache} {h : Arrival}
  {items : List (Loc × MoqcacheItem)} {tag : UInt64} {appended : List Arrival}

section

variable {c : Moqcache} {recs : List CacheRec} {appended : List Arrival} {tag : UInt64}
  {cur end_ : Loc} {r : CacheRec}

/-! ## The record that a lookup comes to -/

theorem moqcacheRecFirst_le_last (r : CacheRec) :
    (moqcacheRecFirst r).pos ≤ (moqcacheRecLast r).pos := by
  by_cases hdead : moqcacheDead r = true
  · rw [moqcacheRecFirst_pos_dead hdead, moqcacheRecLast_pos_dead hdead]
    omega
  · obtain ⟨hfirst, hlast⟩ := moqcacheRec_pos_live (Bool.eq_false_iff.mpr hdead)
    rw [hfirst, hlast]

/-- A record that covers a Location of 62 bits reaches from below it to above it. -/
theorem CacheRec.Covers.pos (h : r.Covers l) (hid : l.object ≤ moqcacheObjIdMax) :
    (moqcacheRecFirst r).pos ≤ l.pos ∧ l.pos ≤ (moqcacheRecLast r).pos := by
  obtain ⟨hgroup, hobject⟩ := h
  have hle := UInt64.le_iff_toNat_le.mp hid
  have hpos : l.pos = r.group.toNat * 2 ^ 64 + l.object.toNat := by rw [Loc.pos, hgroup]
  by_cases hdead : moqcacheDead r = true
  · rw [moqcacheRecFirst_pos_dead hdead, moqcacheRecLast_pos_dead hdead]
    omega
  · obtain ⟨hfirst, hlast⟩ := moqcacheRec_pos_live (Bool.eq_false_iff.mpr hdead)
    obtain hobject | hobject := hobject
    · exact absurd hobject hdead
    · rw [hfirst, hlast, Loc.pos_mk, hobject]
      omega

theorem reach_none (h : recs.find? (moqcacheAtOrAfter tag cur) = none) :
    ∀ s ∈ recs, s.tag = tag → (moqcacheRecLast s).pos < cur.pos := by
  intro s hs htag
  have hnot := find?_eq_none.mp h s hs
  rw [moqcacheAtOrAfter_iff] at hnot
  exact Nat.lt_of_not_le fun hle => hnot ⟨htag, hle⟩

/-- In an arena in order, what else reaches the Location lies above the record found. -/
theorem reach_some (horder : recs.Pairwise Before)
    (h : recs.find? (moqcacheAtOrAfter tag cur) = some r) :
    r ∈ recs ∧ r.tag = tag ∧ cur.pos ≤ (moqcacheRecLast r).pos ∧
      ∀ s ∈ recs, s.tag = tag → cur.pos ≤ (moqcacheRecLast s).pos →
        s = r ∨ (moqcacheRecLast r).pos < (moqcacheRecFirst s).pos := by
  have hmem := mem_of_find?_eq_some h
  obtain ⟨hreach, pre, post, hsplit, hpre⟩ := find?_eq_some_iff_append.mp h
  obtain ⟨htag, hle⟩ := moqcacheAtOrAfter_iff.mp hreach
  refine ⟨hmem, htag, hle, ?_⟩
  intro s hs hstag hsle
  rw [hsplit, pairwise_append, pairwise_cons] at horder
  rw [hsplit, mem_append, mem_cons] at hs
  obtain hs | hs | hs := hs
  · have hnot := hpre s hs
    rw [moqcacheAtOrAfter_iff.mpr ⟨hstag, hsle⟩] at hnot
    cases hnot
  · exact .inl hs
  · exact .inr (horder.2.1.1 s hs (htag.trans hstag.symm))

/-- The Location's Group is not below the oldest one that is held of the track. -/
theorem moqcacheCovered_iff (horder : c.recs.Pairwise Before) :
    moqcacheCovered c tag cur = true ↔ ∃ s ∈ c.recs, s.tag = tag ∧ s.group ≤ cur.group := by
  have hscan : c.recs[moqcacheScan c 0 tag ⟨0, 0⟩]? =
      c.recs.find? (moqcacheAtOrAfter tag ⟨0, 0⟩) := by
    rw [moqcacheScan_eq (Nat.zero_le _) (by nofun), find?_eq_getElem?_findIdx]
  have hzero : ∀ s : CacheRec, (Loc.mk 0 0).pos ≤ (moqcacheRecLast s).pos := fun s => Nat.zero_le _
  rw [moqcacheCovered, hscan]
  split
  · rename_i hnone
    constructor
    · intro h
      cases h
    · rintro ⟨s, hs, htag, -⟩
      have hlt := reach_none hnone s hs htag
      exact absurd hlt (Nat.not_lt_zero _)
  · rename_i r hsome
    obtain ⟨hmem, htag, -, hrest⟩ := reach_some horder hsome
    rw [decide_eq_true_iff]
    constructor
    · intro hle
      exact ⟨r, hmem, htag, hle⟩
    · rintro ⟨s, hs, hstag, hle⟩
      obtain rfl | hlt := hrest s hs hstag (hzero s)
      · exact hle
      · have hbefore : Before r s := fun _ => hlt
        exact UInt64.le_trans (hbefore.group_le (htag.trans hstag.symm)) hle

/-! ## Skipping what does not exist -/

/-- An item can start here: not below the record that reaches it, or in a Group below all held ones.
-/
def Stands (recs : List CacheRec) (tag : UInt64) (cur : Loc) : Prop :=
  (∃ r, recs.find? (moqcacheAtOrAfter tag cur) = some r ∧ (moqcacheRecFirst r).pos ≤ cur.pos) ∨
    ∀ s ∈ recs, s.tag = tag → cur.group < s.group

/-- Where a skip comes to: no Object was appended at the Locations that it passes. -/
structure Skipped (recs : List CacheRec) (appended : List Arrival) (tag : UInt64)
    (cur end_ l : Loc) : Prop where
  le : cur.pos ≤ l.pos
  none : ∀ h ∈ appended, h.tag = tag → cur.pos ≤ h.loc.pos → h.loc.pos < end_.pos →
    l.pos ≤ h.loc.pos
  stands : l.pos < end_.pos → Stands recs tag l

theorem Skipped.refl (h : Stands recs tag cur) : Skipped recs appended tag cur end_ cur where
  le := le_rfl
  none := fun _ _ _ hle _ => hle
  stands := fun _ => h

/-- The record that reaches the start of a gap is below nothing that was appended in it. -/
theorem gap_passes_none (hok : CacheOk c appended)
    (hids : ∀ h ∈ appended, h.loc.object ≤ moqcacheObjIdMax)
    (hcov : ∃ s ∈ c.recs, s.tag = tag ∧ s.group ≤ cur.group) (hh : h ∈ appended)
    (htag : h.tag = tag) (hle : cur.pos ≤ h.loc.pos) :
    ∃ r, c.recs.find? (moqcacheAtOrAfter tag cur) = some r ∧
      (moqcacheRecFirst r).pos ≤ h.loc.pos := by
  obtain ⟨s, hs, hstag, hsgroup⟩ := hcov
  have hgroup : cur.group ≤ h.loc.group := by
    have hobject := h.loc.object.toNat_lt
    rw [UInt64.le_iff_toNat_le]
    unfold Loc.pos at hle
    omega
  obtain ⟨x, hx, hxtag, hxcov⟩ := hok.kept.covered h hh id
    ⟨s, hs, hstag.trans htag.symm, UInt64.le_trans hsgroup hgroup⟩
  obtain ⟨hfirst, hlast⟩ := hxcov.pos (hids h hh)
  have hxreach : cur.pos ≤ (moqcacheRecLast x).pos := le_trans hle hlast
  cases hfind : c.recs.find? (moqcacheAtOrAfter tag cur) with
  | none =>
    have hlt := reach_none hfind x hx (hxtag.trans htag)
    omega
  | some r =>
    refine ⟨r, rfl, ?_⟩
    obtain ⟨-, -, -, hrest⟩ := reach_some hok.order hfind
    obtain rfl | hlt := hrest x hx (hxtag.trans htag) hxreach
    · exact hfirst
    · have hself := moqcacheRecFirst_le_last r
      omega

/-- A gap ends at the record, where an item starts. -/
theorem stands_at_first (hok : CacheOk c appended)
    (hfind : c.recs.find? (moqcacheAtOrAfter tag cur) = some r)
    (hlt : cur.pos < (moqcacheRecFirst r).pos) : Stands c.recs tag (moqcacheRecFirst r) := by
  obtain ⟨-, htag, -, -⟩ := reach_some hok.order hfind
  refine .inl ⟨r, ?_, le_rfl⟩
  obtain ⟨-, pre, post, hsplit, hpre⟩ := find?_eq_some_iff_append.mp hfind
  have hreach := moqcacheAtOrAfter_iff.mpr ⟨htag, moqcacheRecFirst_le_last r⟩
  refine find?_eq_some_iff_append.mpr ⟨hreach, pre, post, hsplit, ?_⟩
  intro s hs
  have hnot := hpre s hs
  rw [Bool.not_eq_true', ← Bool.not_eq_true, moqcacheAtOrAfter_iff] at hnot ⊢
  rintro ⟨hstag, hsle⟩
  exact hnot ⟨hstag, by omega⟩

theorem moqctlLocMin_pos (a b : Loc) : (moqctlLocMin a b).pos = min a.pos b.pos := by
  rw [moqctlLocMin]
  split
  · rename_i hlt
    rw [moqctlLocLess_pos] at hlt
    omega
  · rename_i hge
    rw [moqctlLocLess_pos] at hge
    omega

theorem skip_skipped (hfound : Found c c' appended tag cur off)
    (hids : ∀ h ∈ appended, h.loc.object ≤ moqcacheObjIdMax) (hcur : cur.pos ≤ end_.pos) :
    Skipped c'.recs appended tag cur end_
      (if moqcacheHolds c' off cur || !moqcacheCovered c' tag cur then cur
        else moqcacheGapEnd c' off end_) := by
  have hok := hfound.ok
  split
  · rename_i hstop
    apply Skipped.refl
    rw [Bool.or_eq_true, moqcacheHolds, hfound.reach, Bool.not_eq_true', ← Bool.not_eq_true,
      moqcacheCovered_iff hok.order] at hstop
    obtain hholds | hcov := hstop
    · left
      split at hholds
      · cases hholds
      rename_i r hfind
      rw [Bool.not_eq_true', ← Bool.not_eq_true, moqctlLocLess_pos, not_lt] at hholds
      exact ⟨r, hfind, hholds⟩
    · right
      intro s hs htag
      exact UInt64.not_le.mp fun hle => hcov ⟨s, hs, htag, hle⟩
  · rename_i hgap
    rw [Bool.or_eq_true, not_or, moqcacheHolds, hfound.reach, Bool.not_eq_true', Bool.not_eq_false,
      moqcacheCovered_iff hok.order] at hgap
    obtain ⟨hholds, hcov⟩ := hgap
    rw [moqcacheGapEnd, hfound.reach]
    cases hfind : c'.recs.find? (moqcacheAtOrAfter tag cur) with
    | none =>
      refine ⟨hcur, ?_, fun hlt => absurd hlt (lt_irrefl _)⟩
      intro h hh htag hle _
      obtain ⟨r, hsome, -⟩ := gap_passes_none hok hids hcov hh htag hle
      rw [hfind] at hsome
      cases hsome
    | some r =>
      rw [hfind] at hholds
      have hbelow : cur.pos < (moqcacheRecFirst r).pos := by
        rw [← moqctlLocLess_pos]
        simpa using hholds
      change Skipped _ _ _ _ _ (moqctlLocMin (moqcacheRecFirst r) end_)
      refine ⟨?_, ?_, ?_⟩
      · rw [moqctlLocMin_pos]
        omega
      · intro h hh htag hle _
        obtain ⟨r', hsome, hfirst⟩ := gap_passes_none hok hids hcov hh htag hle
        rw [hfind] at hsome
        cases hsome
        rw [moqctlLocMin_pos]
        omega
      · intro hlt
        rw [moqctlLocMin_pos] at hlt
        rw [moqctlLocMin, if_pos (moqctlLocLess_pos.mpr (by omega))]
        exact stands_at_first hok hfind hbelow

/-! ## The item at a Location -/

/-- The arena has an Object at the Location, with this payload. -/
def Held (recs : List CacheRec) (tag : UInt64) (l : Loc) (payload : List UInt8) : Prop :=
  ∃ r ∈ recs, r.tag = tag ∧ Loc.mk r.group r.object = l ∧ r.payload = some payload

theorem Held.record (h : Held recs tag l payload) :
    ∃ s ∈ recs, s.tag = tag ∧ s.payload = some payload ∧ moqcacheDead s = false ∧
      moqcacheRecFirst s = l ∧ moqcacheRecLast s = l := by
  obtain ⟨s, hs, htag, rfl, hpayload⟩ := h
  have hlive : moqcacheDead s = false := by rw [moqcacheDead, hpayload, Option.isNone_some]
  obtain ⟨hfirst, hlast⟩ := moqcacheRec_pos_live hlive
  exact ⟨s, hs, htag, hpayload, hlive, hfirst, hlast⟩

/-- An item starts at the Location and ends in the range. It is the Object that is held at the
Location, and otherwise there is none in it. -/
structure ItemAt (recs : List CacheRec) (tag : UInt64) (cur end_ : Loc) (it : MoqcacheItem) :
    Prop where
  progress : cur.pos < it.next.pos
  le : it.next.pos ≤ end_.pos
  object : it.unknown = false → it.loc = cur ∧ Held recs tag cur it.payload
  held : ∀ l payload, Held recs tag l payload → cur.pos ≤ l.pos → l.pos < it.next.pos →
    it.unknown = false ∧ l = cur ∧ payload = it.payload

theorem moqcacheUnknownStop_of_none (h : c.recs[off]? = none) (hlt : cur.pos < end_.pos) :
    moqcacheUnknownStop c off cur end_ = end_ := by
  have hless : moqctlLocLess cur end_ = true := moqctlLocLess_pos.mpr hlt
  simp only [moqcacheUnknownStop, h, hless, Bool.not_true, Bool.false_eq_true, if_false,
    moqctlLocMin, ite_self]

theorem moqcacheUnknownStop_of_some (h : c.recs[off]? = some r)
    (hstop : stop = ⟨r.group + if moqcacheDead r then 1 else 0, 0⟩) (hlt : cur.pos < stop.pos) :
    moqcacheUnknownStop c off cur end_ = moqctlLocMin stop end_ := by
  have hless : moqctlLocLess cur stop = true := moqctlLocLess_pos.mpr hlt
  simp only [moqcacheUnknownStop, h, ← hstop, hless, Bool.not_true, Bool.false_eq_true, if_false]

theorem ItemAt.unknown (hlt : cur.pos < end_.pos)
    (hnext : moqcacheUnknownStop c off cur end_ = moqctlLocMin stop end_)
    (hstop : cur.pos < stop.pos)
    (hnone : ∀ l payload, Held recs tag l payload → cur.pos ≤ l.pos → stop.pos ≤ l.pos) :
    ItemAt recs tag cur end_ (moqcacheUnknown c off cur end_) := by
  have hpos : (moqcacheUnknown c off cur end_).next.pos = min stop.pos end_.pos := by
    rw [← moqctlLocMin_pos, ← hnext]
    rfl
  refine ⟨?_, ?_, ?_, ?_⟩
  · omega
  · omega
  · intro h
    cases h
  · intro l payload hheld hle hless
    have := hnone l payload hheld hle
    omega

/-- The stop behind a tombstone is the start of the next Group. -/
theorem tomb_stop_pos (hgroup : r.group ≤ moqcacheObjIdMax) (hdead : moqcacheDead r = true) :
    (Loc.mk (r.group + if moqcacheDead r then 1 else 0) 0).pos = (r.group.toNat + 1) * 2 ^ 64 := by
  have hle := UInt64.le_iff_toNat_le.mp hgroup
  have hmax : moqcacheObjIdMax.toNat = 2 ^ 62 - 1 := rfl
  rw [Loc.pos_mk, if_pos hdead, UInt64.toNat_add, UInt64.toNat_one, UInt64.toNat_zero,
    Nat.mod_eq_of_lt (by omega)]
  omega

theorem moqcacheIsObj_iff : moqcacheIsObj r cur = true ↔
    moqcacheDead r = false ∧ Loc.mk r.group r.object = cur := by
  rw [moqcacheIsObj, Bool.and_eq_true, Bool.and_eq_true, Bool.not_eq_true', decide_eq_true_iff,
    decide_eq_true_iff, and_assoc, ← Loc.mk.injEq]

/-- Where the record that reaches the Location is not the Object there, all that is held from the
Location on lies behind the stop. -/
theorem unknown_of_reach (hok : CacheOk c appended)
    (hreach : c.recs[off]? = c.recs.find? (moqcacheAtOrAfter tag cur))
    (hfind : c.recs.find? (moqcacheAtOrAfter tag cur) = some r) (hstands : Stands c.recs tag cur)
    (hlt : cur.pos < end_.pos) (hnot : ¬ moqcacheIsObj r cur = true) :
    ItemAt c.recs tag cur end_ (moqcacheUnknown c off cur end_) := by
  obtain ⟨hr, htag, hle, hrest⟩ := reach_some hok.order hfind
  have hcurlt := cur.object.toNat_lt
  have hlast := (moqcacheRecLast_pos_lt r).2
  rw [hfind] at hreach
  by_cases hdead : moqcacheDead r = true
  · have hstop := tomb_stop_pos (hok.recs r hr).group hdead
    refine ItemAt.unknown hlt (moqcacheUnknownStop_of_some hreach rfl ?_) ?_ ?_
    · omega
    · omega
    · intro l payload hheld hl
      obtain ⟨s, hs, hstag, -, hlive, hfirst, hslast⟩ := hheld.record
      obtain rfl | hbehind := hrest s hs hstag (hslast ▸ hl)
      · rw [hdead] at hlive
        cases hlive
      · have hbefore : Before r s := fun _ => hbehind
        have hgroup := UInt64.lt_iff_toNat_lt.mp
          (hbefore.group_lt_of_dead (htag.trans hstag.symm) (hok.recs s hs).id (.inl hdead))
        have hpos := (moqcacheRecFirst_pos_le s).1
        rw [hfirst] at hpos
        omega
  · -- an Object that is not at the Location: the Location is below everything held
    have hlive : moqcacheDead r = false := Bool.eq_false_iff.mpr hdead
    obtain ⟨hrfirst, hrlast⟩ := moqcacheRec_pos_live hlive
    have hbelow : cur.group < r.group := by
      obtain ⟨r', hfind', hfirst⟩ | hall := hstands
      · rw [hfind] at hfind'
        cases hfind'
        rw [hrlast] at hle
        rw [hrfirst] at hfirst
        exact absurd (moqcacheIsObj_iff.mpr
          ⟨hlive, Loc.pos_inj.mp (le_antisymm hfirst hle)⟩) hnot
      · exact hall r hr htag
    have hgroup := UInt64.lt_iff_toNat_lt.mp hbelow
    have hstop : (Loc.mk (r.group + if moqcacheDead r then 1 else 0) 0).pos =
        r.group.toNat * 2 ^ 64 := by
      rw [if_neg hdead, UInt64.add_zero, Loc.pos_mk, UInt64.toNat_zero, add_zero]
    have hcur : cur.pos < r.group.toNat * 2 ^ 64 := by
      unfold Loc.pos
      omega
    refine ItemAt.unknown hlt (moqcacheUnknownStop_of_some hreach rfl ?_) ?_ ?_
    · omega
    · omega
    · intro l payload hheld hl
      obtain ⟨s, hs, hstag, -, -, hfirst, hslast⟩ := hheld.record
      have hrpos := (moqcacheRecFirst_pos_le r).1
      have hrle := moqcacheRecFirst_le_last r
      obtain rfl | hbehind := hrest s hs hstag (hslast ▸ hl)
      · rw [hfirst] at hrpos
        omega
      · rw [hfirst] at hbehind
        omega

theorem object_of_reach (hok : CacheOk c appended)
    (hfind : c.recs.find? (moqcacheAtOrAfter tag cur) = some r) (hlt : cur.pos < end_.pos)
    (hobj : moqcacheIsObj r cur = true) :
    ItemAt c.recs tag cur end_
      { unknown := false, loc := cur, payload := r.payload.getD [],
        next := ⟨cur.group, cur.object + 1⟩ } := by
  obtain ⟨hr, htag, -, hrest⟩ := reach_some hok.order hfind
  obtain ⟨hlive, hloc⟩ := moqcacheIsObj_iff.mp hobj
  obtain ⟨payload, hpayload⟩ : ∃ payload, r.payload = some payload := by
    rw [moqcacheDead, Option.isNone_eq_false_iff, Option.isSome_iff_exists] at hlive
    exact hlive
  have hheld : Held c.recs tag cur payload := ⟨r, hr, htag, hloc, hpayload⟩
  have hnext : (Loc.mk cur.group (cur.object + 1)).pos = cur.pos + 1 := by
    have hid := UInt64.le_iff_toNat_le.mp (hok.recs r hr).id
    have hmax : moqcacheObjIdMax.toNat = 2 ^ 62 - 1 := rfl
    have hobject : r.object = cur.object := congrArg Loc.object hloc
    rw [hobject] at hid
    rw [Loc.pos_mk, Loc.pos, UInt64.toNat_add, UInt64.toNat_one, Nat.mod_eq_of_lt (by omega),
      add_assoc]
  rw [hpayload, Option.getD_some]
  refine ⟨?_, ?_, fun _ => ⟨rfl, hheld⟩, ?_⟩
  · change cur.pos < (Loc.mk cur.group (cur.object + 1)).pos
    omega
  · change (Loc.mk cur.group (cur.object + 1)).pos ≤ end_.pos
    omega
  · intro l payload' hheld' hle hless
    change l.pos < (Loc.mk cur.group (cur.object + 1)).pos at hless
    have hl : l = cur := Loc.pos_inj.mp (by omega)
    refine ⟨rfl, hl, ?_⟩
    obtain ⟨s, hs, hstag, hspayload, -, hfirst, hslast⟩ := hheld'.record
    obtain rfl | hbehind := hrest s hs hstag (hslast ▸ hle)
    · rw [hpayload] at hspayload
      exact (Option.some.inj hspayload).symm
    · rw [(moqcacheRec_pos_live hlive).2, hloc, hfirst, hl] at hbehind
      exact absurd hbehind (lt_irrefl _)

theorem itemAt_itemAt (hfound : Found c c' appended tag cur off)
    (hstands : Stands c'.recs tag cur) (hlt : cur.pos < end_.pos) :
    ItemAt c'.recs tag cur end_
      (match c'.recs[off]? with
        | none => moqcacheUnknown c' off cur end_
        | some r =>
          if moqcacheIsObj r cur then
            { unknown := false, loc := cur, payload := r.payload.getD [],
              next := ⟨cur.group, cur.object + 1⟩ }
          else moqcacheUnknown c' off cur end_) := by
  have hok := hfound.ok
  have hreach := hfound.reach
  cases hfind : c'.recs.find? (moqcacheAtOrAfter tag cur) with
  | none =>
    have hoff : c'.recs[off]? = none := hreach.trans hfind
    have hmin : moqctlLocMin end_ end_ = end_ := ite_self _
    rw [hoff]
    refine ItemAt.unknown hlt ((moqcacheUnknownStop_of_none hoff hlt).trans hmin.symm) hlt ?_
    intro l payload hheld hle
    obtain ⟨s, hs, hstag, -, -, -, hslast⟩ := hheld.record
    have hbelow := reach_none hfind s hs hstag
    rw [hslast] at hbelow
    omega
  | some r =>
    rw [hreach.trans hfind]
    by_cases hobj : moqcacheIsObj r cur = true
    · simp only [hobj, if_true]
      exact object_of_reach hok hfind hlt hobj
    · simp only [hobj]
      exact unknown_of_reach hok hreach hfind hstands hlt hobj

/-! ## The walk -/

/-- The items of a walk over a range. -/
structure Serves (recs : List CacheRec) (appended : List Arrival) (tag : UInt64)
    (start end_ : Loc) (items : List (Loc × MoqcacheItem)) : Prop where
  within : ∀ x ∈ items, start.pos ≤ x.1.pos ∧ x.1.pos < x.2.next.pos ∧ x.2.next.pos ≤ end_.pos
  ascending : items.Pairwise fun x y => x.2.next.pos ≤ y.1.pos
  object : ∀ x ∈ items, x.2.unknown = false → x.2.loc = x.1 ∧ Held recs tag x.1 x.2.payload
  held : ∀ l payload, Held recs tag l payload → start.pos ≤ l.pos → l.pos < end_.pos →
    ∃ x ∈ items, x.2.unknown = false ∧ x.1 = l ∧ x.2.payload = payload
  known : ∀ h ∈ appended, h.tag = tag → start.pos ≤ h.loc.pos → h.loc.pos < end_.pos →
    ∃ x ∈ items, x.1.pos ≤ h.loc.pos ∧ h.loc.pos < x.2.next.pos

variable {start : Loc}

theorem Fresh.expiryOk (h : Fresh c) : ExpiryOk c.now c.recs := by
  intro e he hexp
  rw [h e he] at hexp
  cases hexp

theorem CacheOk.held_appended (h : CacheOk c appended) (hheld : Held c.recs tag l payload) :
    ⟨tag, l, payload⟩ ∈ appended := by
  obtain ⟨r, hr, rfl, rfl, hpayload⟩ := hheld
  exact (h.recs r hr).own payload hpayload

theorem moqcacheWalkFuel_succ (fuel : Nat) :
    moqcacheWalkFuel tag end_ (fuel + 1) c start =
      if !moqctlLocLess (moqcacheSkip c tag start end_).2 end_ then []
      else
        let item := moqcacheItemAt (moqcacheSkip c tag start end_).1 tag
          (moqcacheSkip c tag start end_).2 end_
        ((moqcacheSkip c tag start end_).2, item.2) ::
          moqcacheWalkFuel tag end_ fuel item.1 item.2.next := rfl

/-- The cache behind a lookup: what has expired is gone, and nothing else has changed. -/
structure LookedUp (c c' : Moqcache) (appended : List Arrival) : Prop where
  ok : CacheOk c' appended
  fresh : Fresh c'
  recs : c'.recs = (moqcacheExpire c).recs

theorem skip_ok (tag : UInt64) (hok : CacheOk c appended) (hexp : ExpiryOk c.now c.recs)
    (hids : ∀ h ∈ appended, h.loc.object ≤ moqcacheObjIdMax) (hle : start.pos ≤ end_.pos) :
    LookedUp c (moqcacheSkip c tag start end_).1 appended ∧
      Skipped (moqcacheExpire c).recs appended tag start end_
        (moqcacheSkip c tag start end_).2 := by
  have hfound := find_found tag start hok hexp
  have hskip := skip_skipped hfound hids hle
  exact ⟨⟨hfound.ok, hfound.fresh, hfound.recs⟩, hskip⟩

theorem itemAt_ok (hok : CacheOk c appended) (hexp : ExpiryOk c.now c.recs)
    (hstands : Stands (moqcacheExpire c).recs tag cur) (hlt : cur.pos < end_.pos) :
    LookedUp c (moqcacheItemAt c tag cur end_).1 appended ∧
      ItemAt (moqcacheExpire c).recs tag cur end_ (moqcacheItemAt c tag cur end_).2 := by
  have hfound := find_found tag cur hok hexp
  have hitem := itemAt_itemAt hfound hstands hlt
  have hrecs := hfound.recs
  refine ⟨⟨hfound.ok, hfound.fresh, hrecs⟩, ?_⟩
  rw [← hrecs]
  exact hitem

section

variable (hown : ∀ l payload, Held recs tag l payload → ⟨tag, l, payload⟩ ∈ appended)
include hown

theorem Serves.nil (hskip : Skipped recs appended tag start end_ l) (hl : end_.pos ≤ l.pos) :
    Serves recs appended tag start end_ [] where
  within := nofun
  ascending := List.Pairwise.nil
  object := nofun
  held := by
    intro k payload hheld hle hlt
    have := hskip.none ⟨tag, k, payload⟩ (hown k payload hheld) rfl hle hlt
    dsimp only at this
    omega
  known := by
    intro h hh htag hle hlt
    have := hskip.none h hh htag hle hlt
    omega

/-- One round of the walk: a gap, an item, and what comes behind it. -/
theorem Serves.cons {it : MoqcacheItem} (hskip : Skipped recs appended tag start end_ cur)
    (hit : ItemAt recs tag cur end_ it) (hrest : Serves recs appended tag it.next end_ items) :
    Serves recs appended tag start end_ ((cur, it) :: items) where
  within := by
    rw [forall_mem_cons]
    refine ⟨⟨hskip.le, hit.progress, hit.le⟩, fun x hx => ?_⟩
    obtain ⟨hle, hrange⟩ := hrest.within x hx
    have hstart := hskip.le
    have hprogress := hit.progress
    exact ⟨by omega, hrange⟩
  ascending := pairwise_cons.mpr ⟨fun x hx => (hrest.within x hx).1, hrest.ascending⟩
  object := forall_mem_cons.mpr ⟨hit.object, hrest.object⟩
  held := by
    intro l payload hheld hle hlt
    have hcur := hskip.none ⟨tag, l, payload⟩ (hown l payload hheld) rfl hle hlt
    by_cases hin : l.pos < it.next.pos
    · obtain ⟨hobj, rfl, rfl⟩ := hit.held l payload hheld hcur hin
      exact ⟨_, mem_cons_self, hobj, rfl, rfl⟩
    · obtain ⟨x, hx, hserved⟩ := hrest.held l payload hheld (Nat.le_of_not_lt hin) hlt
      exact ⟨x, mem_cons_of_mem _ hx, hserved⟩
  known := by
    intro h hh htag hle hlt
    have hcur := hskip.none h hh htag hle hlt
    by_cases hin : h.loc.pos < it.next.pos
    · exact ⟨_, mem_cons_self, hcur, hin⟩
    · obtain ⟨x, hx, hserved⟩ := hrest.known h hh htag (Nat.le_of_not_lt hin) hlt
      exact ⟨x, mem_cons_of_mem _ hx, hserved⟩

theorem Serves.empty (hle : end_.pos ≤ start.pos) : Serves recs appended tag start end_ [] :=
  Serves.nil hown ⟨le_rfl, fun _ _ _ h _ => h, fun h => absurd h (Nat.not_lt.mpr hle)⟩ hle

end

section

variable (hok : CacheOk c appended) (hexp : ExpiryOk c.now c.recs)
  (hids : ∀ h ∈ appended, h.loc.object ≤ moqcacheObjIdMax)
include hok hexp hids

theorem walkFuel_serves {fuel : Nat}
    (hfuel : end_.pos - start.pos ≤ fuel) (hle : start.pos ≤ end_.pos) :
    Serves (moqcacheExpire c).recs appended tag start end_
      (moqcacheWalkFuel tag end_ fuel c start) := by
  have hown : ∀ l payload, Held (moqcacheExpire c).recs tag l payload →
      ⟨tag, l, payload⟩ ∈ appended := fun _ _ => (expire_ok hok hexp).1.held_appended
  induction fuel generalizing c start with
  | zero => exact Serves.empty hown (by omega)
  | succ fuel ih =>
    obtain ⟨hskipped, hskip⟩ := skip_ok tag hok hexp hids hle
    rw [moqcacheWalkFuel_succ]
    split
    · rename_i hend
      rw [Bool.not_eq_true', ← Bool.not_eq_true, moqctlLocLess_pos, not_lt] at hend
      exact Serves.nil hown hskip hend
    · rename_i hless
      rw [Bool.not_eq_true', Bool.not_eq_false, moqctlLocLess_pos] at hless
      -- the rest of the walk finds the arena as the skip has left it
      have hrecs := hskipped.fresh.expire_recs.trans hskipped.recs
      obtain ⟨hlooked, hitem⟩ := itemAt_ok hskipped.ok hskipped.fresh.expiryOk
        (hrecs ▸ hskip.stands hless) hless
      have hrecs' := hlooked.fresh.expire_recs.trans (hlooked.recs.trans hrecs)
      rw [hrecs] at hitem
      have hstart := hskip.le
      have hprogress := hitem.progress
      have hrest := ih hlooked.ok hlooked.fresh.expiryOk (by omega) hitem.le (hrecs' ▸ hown)
      rw [hrecs'] at hrest
      exact Serves.cons hown hskip hitem hrest

theorem walk_serves (tag : UInt64) (start end_ : Loc) :
    Serves (moqcacheExpire c).recs appended tag start end_ (moqcacheWalk c tag start end_) := by
  rw [moqcacheWalk]
  by_cases hle : start.pos ≤ end_.pos
  · exact walkFuel_serves hok hexp hids le_rfl hle
  · have hfuel : end_.pos - start.pos = 0 := by omega
    rw [hfuel]
    exact Serves.empty (fun _ _ => (expire_ok hok hexp).1.held_appended) (by omega)

end

end

/-! ## Runs -/

inductive CacheOp where
  | append (tag : UInt64) (loc : Loc) (payload : List UInt8) (exp : UInt64)
  | clock (now : UInt64)
  | skip (tag : UInt64) (cur end_ : Loc)
  | itemAt (tag : UInt64) (cur end_ : Loc)
  | release (tag : UInt64)
deriving DecidableEq, Repr

/-- The cache, and what was appended of the tracks that were not released since. -/
structure CacheSys where
  cache : Moqcache
  appended : List Arrival
deriving DecidableEq, Repr

def cacheSysInit (cap : Nat) : CacheSys := ⟨moqcacheInit cap, []⟩

/-- `appended` follows the cache. -/
def cacheStep (s : CacheSys) : CacheOp → CacheSys
  | .append tag loc payload exp =>
    ⟨moqcacheAppendExp s.cache tag loc payload exp, ⟨tag, loc, payload⟩ :: s.appended⟩
  | .clock now => { s with cache := { s.cache with now := now } }
  | .skip tag cur end_ => { s with cache := (moqcacheSkip s.cache tag cur end_).1 }
  | .itemAt tag cur end_ => { s with cache := (moqcacheItemAt s.cache tag cur end_).1 }
  | .release tag => ⟨moqcacheRelease s.cache tag, s.appended.filter fun h => h.tag ≠ tag⟩

/-- An Object arrives above those of its Group, and a lookup finds no Group that has expired below
one of its track that has not. -/
def StepOk (s : CacheSys) : CacheOp → Prop
  | .append tag loc _ _ => AppendOk s.cache s.appended tag loc
  | .skip .. | .itemAt .. => ExpiryOk s.cache.now s.cache.recs
  | .clock _ | .release _ => True

instance (c : Moqcache) (appended : List Arrival) (tag : UInt64) (loc : Loc) :
    Decidable (AppendOk c appended tag loc) := decidable_of_iff' _ (appendOk_iff ..)

instance (s : CacheSys) (op : CacheOp) : Decidable (StepOk s op) :=
  match op with
  | .append tag loc _ _ => inferInstanceAs (Decidable (AppendOk s.cache s.appended tag loc))
  | .skip .. | .itemAt .. => inferInstanceAs (Decidable (ExpiryOk s.cache.now s.cache.recs))
  | .clock _ | .release _ => inferInstanceAs (Decidable True)

structure CacheSysOk (s : CacheSys) : Prop where
  ok : CacheOk s.cache s.appended
  ids : ∀ h ∈ s.appended, h.loc.object ≤ moqcacheObjIdMax

theorem cacheSysInit_ok (cap : Nat) : CacheSysOk (cacheSysInit cap) where
  ok := {
    order := List.Pairwise.nil
    recs := nofun
    kept := {
      known := nofun
      covered := nofun
      newest := nofun }
    hint := hintOk_of_zero rfl }
  ids := nofun

theorem mem_release {r : CacheRec} :
    r ∈ (moqcacheRelease c tag).recs ↔ r ∈ c.recs ∧ r.tag ≠ tag := by
  simp [moqcacheRelease, moqcacheDrop, moqcacheHit]

theorem mem_unreleased :
    h ∈ appended.filter (fun h => h.tag ≠ tag) ↔ h ∈ appended ∧ h.tag ≠ tag := by
  rw [mem_filter, decide_eq_true_iff]

theorem release_ok (tag : UInt64) (h : CacheOk c appended) :
    CacheOk (moqcacheRelease c tag) (appended.filter fun h => h.tag ≠ tag) where
  order := h.order.filter _
  recs := by
    intro r hr
    obtain ⟨hr, htag⟩ := mem_release.mp hr
    have hrec := h.recs r hr
    exact { hrec with own := fun p hp => mem_unreleased.mpr ⟨hrec.own p hp, htag⟩ }
  kept := {
    known := by
      intro r hr
      obtain ⟨hr, htag⟩ := mem_release.mp hr
      obtain ⟨x, hx, hxtag, hgroup⟩ := h.kept.known r hr
      exact ⟨x, mem_unreleased.mpr ⟨hx, hxtag ▸ htag⟩, hxtag, hgroup⟩
    covered := by
      rintro x hx hout ⟨r, hr, hrtag, hgroup⟩
      obtain ⟨hx, htag⟩ := mem_unreleased.mp hx
      obtain ⟨s, hs, hstag, hcov⟩ :=
        h.kept.covered x hx hout ⟨r, (mem_release.mp hr).1, hrtag, hgroup⟩
      exact ⟨s, mem_release.mpr ⟨hs, hstag ▸ htag⟩, hstag, hcov⟩
    newest := by
      intro x hx hout hnew
      obtain ⟨hx, htag⟩ := mem_unreleased.mp hx
      have hnew' : Newest appended x := by
        intro y hy hytag
        exact hnew y (mem_unreleased.mpr ⟨hy, hytag ▸ htag⟩) hytag
      obtain ⟨s, hs, hstag, hgroup⟩ := h.kept.newest x hx hout hnew'
      exact ⟨s, mem_release.mpr ⟨hs, hstag ▸ htag⟩, hstag, hgroup⟩ }
  hint := hintOk_of_zero rfl

theorem cacheStep_ok (s : CacheSys) (op : CacheOp) (h : CacheSysOk s) (hop : StepOk s op) :
    CacheSysOk (cacheStep s op) := by
  cases op with
  | append tag loc payload exp =>
    exact ⟨appendExp_ok payload exp h.ok hop, forall_mem_cons.mpr ⟨hop.id.2, h.ids⟩⟩
  | clock now => exact ⟨{ h.ok with }, h.ids⟩
  | skip tag cur | itemAt tag cur => exact ⟨(find_found tag cur h.ok hop).ok, h.ids⟩
  | release tag => exact ⟨release_ok tag h.ok, fun x hx => h.ids x (mem_unreleased.mp hx).1⟩

/-- The Objects among the items. -/
def served (items : List (Loc × MoqcacheItem)) : List (Loc × List UInt8) :=
  (items.filter fun x => !x.2.unknown).map fun x => (x.2.loc, x.2.payload)

theorem mem_served :
    (l, payload) ∈ served items ↔
      ∃ x ∈ items, x.2.unknown = false ∧ x.2.loc = l ∧ x.2.payload = payload := by
  simp only [served, mem_map, mem_filter, Bool.not_eq_true', Prod.mk.injEq, and_assoc]

section

variable {recs : List CacheRec} {appended : List Arrival} {tag : UInt64} {start end_ : Loc}
  {items : List (Loc × MoqcacheItem)}

theorem Serves.served_ascending (h : Serves recs appended tag start end_ items) :
    (served items).Pairwise fun x y => x.1.pos < y.1.pos := by
  rw [served, pairwise_map]
  apply (h.ascending.filter _).imp_of_mem
  intro x y hx hy hle
  rw [mem_filter, Bool.not_eq_true'] at hx hy
  rw [(h.object x hx.1 hx.2).1, (h.object y hy.1 hy.2).1]
  exact lt_of_lt_of_le (h.within x hx.1).2.1 hle

theorem Serves.mem_served_iff (h : Serves recs appended tag start end_ items) (l : Loc)
    (payload : List UInt8) :
    (l, payload) ∈ served items ↔
      Held recs tag l payload ∧ start.pos ≤ l.pos ∧ l.pos < end_.pos := by
  rw [mem_served]
  constructor
  · rintro ⟨x, hx, hobj, rfl, rfl⟩
    obtain ⟨hloc, hheld⟩ := h.object x hx hobj
    obtain ⟨hle, hlt, hend⟩ := h.within x hx
    rw [hloc]
    exact ⟨hheld, hle, by omega⟩
  · rintro ⟨hheld, hle, hlt⟩
    obtain ⟨x, hx, hobj, hloc, hpayload⟩ := h.held l payload hheld hle hlt
    exact ⟨x, hx, hobj, (h.object x hx hobj).1.trans hloc, hpayload⟩

end

/-- After every run that keeps the arena in order, a walk serves the Objects that are held in the
range, each once and in the order of their Locations, with the payload that was appended, and passes
no Location that an Object was appended at. -/
theorem cacheRun_walk (cap : Nat) (ops : List CacheOp) (tag : UInt64) (start end_ : Loc)
    (hrun : Along cacheStep StepOk (cacheSysInit cap) ops)
    (hexp : StepOk (ops.foldl cacheStep (cacheSysInit cap)) (.skip tag start end_)) :
    let s := ops.foldl cacheStep (cacheSysInit cap)
    let items := moqcacheWalk s.cache tag start end_
    ((served items).Pairwise fun x y => x.1.pos < y.1.pos) ∧
    (∀ l payload, (l, payload) ∈ served items ↔
      Held (moqcacheExpire s.cache).recs tag l payload ∧ start.pos ≤ l.pos ∧ l.pos < end_.pos) ∧
    (∀ l payload, (l, payload) ∈ served items → ⟨tag, l, payload⟩ ∈ s.appended) ∧
    ∀ h ∈ s.appended, h.tag = tag → start.pos ≤ h.loc.pos → h.loc.pos < end_.pos →
      ∃ x ∈ items, x.1.pos ≤ h.loc.pos ∧ h.loc.pos < x.2.next.pos := by
  intro s items
  have hs : CacheSysOk s := hrun.invariant cacheStep_ok (cacheSysInit_ok cap)
  have hserves : Serves (moqcacheExpire s.cache).recs s.appended tag start end_ items :=
    walk_serves hs.ok hexp hs.ids tag start end_
  refine ⟨hserves.served_ascending, hserves.mem_served_iff, ?_, hserves.known⟩
  intro l payload hmem
  exact (expire_ok hs.ok hexp).1.held_appended ((hserves.mem_served_iff l payload).mp hmem).1

/-- Two tracks in turn, one that is released, a Group that expires, and a walk over what is left. -/
def cacheRunSample : List CacheOp :=
  [.append 1 ⟨1, 0⟩ [10] 50, .append 2 ⟨4, 0⟩ [7] 90, .append 1 ⟨1, 2⟩ [12] 50,
    .append 1 ⟨2, 0⟩ [20] 30, .skip 1 ⟨1, 1⟩ ⟨3, 0⟩, .clock 30, .itemAt 1 ⟨1, 2⟩ ⟨3, 0⟩, .release 2]

/-- A run in which one Group is served and another has expired. -/
theorem cacheRun_walk_sample :
    served (moqcacheWalk (cacheRunSample.foldl cacheStep (cacheSysInit 400)).cache 1 ⟨1, 0⟩ ⟨1, 5⟩) =
        [(⟨1, 0⟩, [10]), (⟨1, 2⟩, [12])] ∧
      ∃ x ∈ moqcacheWalk (cacheRunSample.foldl cacheStep (cacheSysInit 400)).cache 1 ⟨2, 0⟩ ⟨2, 3⟩,
        x.1.pos ≤ (Loc.mk 2 0).pos ∧ (Loc.mk 2 0).pos < x.2.next.pos := by
  have hrun : Along cacheStep StepOk (cacheSysInit 400) cacheRunSample := by decide
  have hwalk := cacheRun_walk 400 cacheRunSample 1 ⟨2, 0⟩ ⟨2, 3⟩ hrun (by decide)
  exact ⟨by decide, hwalk.2.2.2 ⟨1, ⟨2, 0⟩, [20]⟩ (by decide) rfl (by decide) (by decide)⟩

/-- An Object below one of its Group. -/
def outOfOrder : List CacheOp :=
  [.append 1 ⟨1, 5⟩ [15] (~~~0), .append 1 ⟨1, 3⟩ [13] (~~~0)]

/-- Group 2 expires between two that stay. -/
def expiresBelow : List CacheOp :=
  [.append 1 ⟨1, 0⟩ [10] 30, .append 1 ⟨2, 0⟩ [20] 20, .append 1 ⟨3, 0⟩ [30] 30, .clock 20]

/-- In the one run the walk passes an Object that is held, in the other one that has expired. -/
theorem cacheRun_walk_passes :
    (Held (moqcacheExpire (outOfOrder.foldl cacheStep (cacheSysInit 400)).cache).recs 1 ⟨1, 3⟩ [13] ∧
      served (moqcacheWalk (outOfOrder.foldl cacheStep (cacheSysInit 400)).cache 1 ⟨1, 0⟩ ⟨1, 6⟩) =
        [(⟨1, 5⟩, [15])]) ∧
    ⟨1, ⟨2, 0⟩, [20]⟩ ∈ (expiresBelow.foldl cacheStep (cacheSysInit 400)).appended ∧
      moqcacheWalk (expiresBelow.foldl cacheStep (cacheSysInit 400)).cache 1 ⟨2, 0⟩ ⟨2, 1⟩ = [] := by
  refine ⟨⟨?_, ?_⟩, ?_, ?_⟩
  · exact ⟨⟨1, 1, 3, some [13], ~~~0⟩, by decide, rfl, rfl, rfl⟩
  · decide
  · decide
  · decide

end Wired.Moqt
