import Wired.Moqt.CacheKept

/-!
# Appending to the cache

An Object that arrives is written at the end of the arena, after the oldest Groups of other tracks
and of its own were dropped for it. While that goes on its own Group is exempt from what the cache
keeps; `KeptBut.close` takes the exemption back once a record of the Group is written. The arena
has to have room for a tombstone of each track and one more header (`AppendOk.room`), as the header
file of the cache asks for; then appending keeps what the cache is to keep (`appendExp_ok`).
-/

namespace Wired.Moqt

open List

def otherTags (c : Moqcache) (tag : UInt64) : Finset UInt64 :=
  (c.recs.map CacheRec.tag).toFinset.erase tag

/-- Every record of the track before the resume point ends before the Location it was for. -/
def HintOk (c : Moqcache) : Prop :=
  c.hintOff ≤ c.recs.length ∧
    ∀ r ∈ c.recs.take c.hintOff, r.tag = c.hintTag → (moqcacheRecLast r).pos < c.hintCur.pos

/-- Its Location is of 62 bits, its payload the appended one, and it is not expired before
`nextExp`. -/
structure RecOk (appended : List Arrival) (nextExp : UInt64) (r : CacheRec) : Prop where
  group : r.group ≤ moqcacheObjIdMax
  id : r.object ≤ moqcacheObjIdMax
  own : ∀ p, r.payload = some p → ⟨r.tag, ⟨r.group, r.object⟩, p⟩ ∈ appended
  size : ∀ p, r.payload = some p → p.length ≤ moqcacheObjMax
  exp : moqcacheDead r = false → nextExp ≤ r.exp

theorem moqcacheTomb_recOk {group : UInt64} (h : group ≤ moqcacheObjIdMax)
    (appended : List Arrival) (nextExp tag : UInt64) :
    RecOk appended nextExp (moqcacheTomb tag group) where
  group := h
  id := by exact Nat.zero_le _
  own := fun _ h => by cases h
  size := fun _ h => by cases h
  exp := fun h => by cases h

variable {appended appended' : List Arrival} {r : CacheRec} {c : Moqcache}

theorem RecOk.mono {n n' : UInt64} (h : RecOk appended n r) (hsub : appended ⊆ appended')
    (hle : n' ≤ n) :
    RecOk appended' n' r where
  __ := h
  own := fun p hp => hsub (h.own p hp)
  exp := fun hlive => UInt64.le_trans hle (h.exp hlive)

/-- The invariant of the cache. -/
structure CacheOk (c : Moqcache) (appended : List Arrival) : Prop where
  order : c.recs.Pairwise Before
  recs : ∀ r ∈ c.recs, RecOk appended c.nextExp r
  kept : Kept c.recs appended
  hint : HintOk c

theorem CacheOk.recs_cons (h : CacheOk c appended) (x : Arrival) :
    ∀ r ∈ c.recs, RecOk (x :: appended) c.nextExp r := fun r hr =>
  (h.recs r hr).mono (subset_cons_self _ _) (UInt64.le_refl _)

theorem hintOk_of_zero (h : c.hintOff = 0) : HintOk c := by
  rw [HintOk, h]
  refine ⟨Nat.zero_le _, ?_⟩
  intro r hr
  cases hr

theorem HintOk.write (h : HintOk c) (r : CacheRec) : HintOk (moqcacheWrite c r) := by
  refine ⟨?_, ?_⟩
  · change c.hintOff ≤ (c.recs ++ [r]).length
    rw [length_append]
    exact Nat.le_add_right_of_le h.1
  · change ∀ s ∈ (c.recs ++ [r]).take c.hintOff, _
    rw [take_append_of_le_length h.1]
    exact h.2

/-! ## One eviction -/

variable {v : CacheRec} {x : Arrival} {recs : List CacheRec} {loc : Loc}

section

variable {c₀ c' : Moqcache} {tag group : UInt64}

def OfGroup (tag group : UInt64) (h : Arrival) : Prop := h.tag = tag ∧ h.loc.group = group

/-- What is kept while room is made for a Group, with the records of `c₀`. -/
structure Room (c₀ : Moqcache) (tag group : UInt64) (appended : List Arrival)
    (c : Moqcache) : Prop where
  order : c.recs.Pairwise Before
  kept : KeptBut (OfGroup tag group) c.recs appended
  back : ∀ r ∈ c.recs, r ∈ c₀.recs ∨ ∃ v ∈ c₀.recs, r = moqcacheTomb v.tag v.group
  hint : HintOk c
  cap : c.cap = c₀.cap
  nextExp : c.nextExp = c₀.nextExp

/-- No Group of the track is above the one that room is made for, and that one was appended to. -/
structure Arrives (tag group : UInt64) (appended : List Arrival) : Prop where
  last : ∀ h ∈ appended, h.tag = tag → h.loc.group ≤ group
  some : ∃ h ∈ appended, OfGroup tag group h

theorem Arrives.group_le (h : Arrives tag group appended)
    (hkept : KeptBut (OfGroup tag group) c.recs appended) (hr : r ∈ c.recs) (htag : r.tag = tag) :
    r.group ≤ group := by
  obtain ⟨x, hx, hxtag, hxgroup⟩ := hkept.known r hr
  rw [← hxgroup]
  exact h.last x hx (hxtag.trans htag)

theorem moqcacheOpen_iff :
    moqcacheOpen c v = true ↔ ∀ r ∈ c.recs, r.tag = v.tag → r.group ≤ v.group := by
  rw [moqcacheOpen, all_eq_true]
  apply forall₂_congr
  intro r _
  rw [moqcacheLater, Bool.not_eq_true', ← Bool.not_eq_true, Bool.and_eq_true, decide_eq_true_eq,
    decide_eq_true_eq, not_and, UInt64.not_lt]

theorem moqcacheStaysOpen_iff :
    moqcacheStaysOpen c v tag group = true ↔
      ¬ (v.tag = tag ∧ v.group < group) ∧ moqcacheOpen c v = true := by
  rw [moqcacheStaysOpen, Bool.and_eq_true, Bool.not_eq_true', ← Bool.not_eq_true, Bool.and_eq_true,
    decide_eq_true_eq, decide_eq_true_eq]

theorem moqcacheVictim_iff :
    moqcacheVictim c tag group r = true ↔
      ¬ (r.tag = tag ∧ r.group = group) ∧
        ¬ (moqcacheDead r = true ∧ moqcacheStaysOpen c r tag group = true) := by
  rw [moqcacheVictim, Bool.and_eq_true, Bool.not_eq_true', ← Bool.not_eq_true, moqcacheHit_iff,
    Bool.not_eq_true', ← Bool.not_eq_true, Bool.and_eq_true]

theorem evictOne_cases (h : moqcacheEvictOne c tag group = some c') :
    ∃ v pre post, c.recs = pre ++ v :: post ∧ moqcacheVictim c tag group v = true ∧
      (∀ r ∈ pre, moqcacheVictim c tag group r = false) ∧
      ((moqcacheStaysOpen c v tag group = true ∧ c' = moqcacheEntomb c v.tag v.group) ∨
        (moqcacheStaysOpen c v tag group = false ∧ c' = moqcacheDrop c v.tag v.group false)) := by
  obtain ⟨v, hv, hc'⟩ := Option.map_eq_some_iff.mp h
  obtain ⟨hvictim, pre, post, hrecs, hpre⟩ := find?_eq_some_iff_append.mp hv
  refine ⟨v, pre, post, hrecs, hvictim, fun r hr => ?_, ?_⟩
  · exact Bool.not_eq_true' _ ▸ hpre r hr
  · cases hopen : moqcacheStaysOpen c v tag group with
    | true =>
      rw [hopen, if_pos rfl] at hc'
      exact .inl ⟨rfl, hc'.symm⟩
    | false =>
      rw [hopen, if_neg Bool.false_ne_true] at hc'
      exact .inr ⟨rfl, hc'.symm⟩

section

variable (harr : Arrives tag group appended) (hroom : Room c₀ tag group appended c)
include harr hroom

/-- The first victim is the oldest Group of its track: before it lie only records of the Group that
room is made for, and tombstones that nothing of their track lies behind. -/
theorem victim_lowest {pre post : List CacheRec} (hrecs : c.recs = pre ++ v :: post)
    (hpre : ∀ r ∈ pre, moqcacheVictim c tag group r = false) :
    ∀ r ∈ c.recs, r.tag = v.tag → v.group ≤ r.group := by
  intro r hr htag
  have horder := hroom.order
  have hv : v ∈ c.recs := hrecs ▸ mem_append_right _ mem_cons_self
  rw [hrecs, pairwise_append, pairwise_cons] at horder
  rw [hrecs, mem_append, mem_cons] at hr
  obtain hr | rfl | hr := hr
  · have hnot := Bool.eq_false_iff.mp (hpre r hr)
    rw [ne_eq, moqcacheVictim_iff, not_and_or, not_not, not_not] at hnot
    obtain ⟨hrtag, hrgroup⟩ | ⟨-, hopen⟩ := hnot
    · rw [hrgroup]
      exact harr.group_le hroom.kept hv (htag.symm.trans hrtag)
    · exact moqcacheOpen_iff.mp (moqcacheStaysOpen_iff.mp hopen).2 v hv htag.symm
  · exact UInt64.le_refl _
  · exact (horder.2.1.1 r hr).group_le htag.symm

/-- A Group that does not stay open is not the newest of its track. -/
theorem not_newest_of_closed (hclosed : moqcacheStaysOpen c v tag group = false)
    (hxtag : x.tag = v.tag) (hnew : Newest appended x) : x.loc.group ≠ v.group := by
  have hnot := Bool.eq_false_iff.mp hclosed
  rw [ne_eq, moqcacheStaysOpen_iff, not_and_or, not_not, moqcacheOpen_iff] at hnot
  apply fun h => (UInt64.ne_of_lt h).symm
  obtain ⟨hvtag, hlt⟩ | hlater := hnot
  · obtain ⟨h, hh, htag, hgroup⟩ := harr.some
    rw [← hgroup] at hlt
    exact UInt64.lt_of_lt_of_le hlt (hnew h hh (htag.trans (hvtag.symm.trans hxtag.symm)))
  · push Not at hlater
    obtain ⟨r, hr, htag, hlt⟩ := hlater
    obtain ⟨h, hh, hhtag, hgroup⟩ := hroom.kept.known r hr
    rw [← hgroup, UInt64.not_le] at hlt
    exact UInt64.lt_of_lt_of_le hlt (hnew h hh (hhtag.trans (htag.trans hxtag.symm)))

theorem Room.evictOne
    (h : moqcacheEvictOne c tag group = some c') : Room c₀ tag group appended c' := by
  obtain ⟨v, pre, post, hrecs, -, hpre, hcase⟩ := evictOne_cases h
  have hv : v ∈ c.recs := hrecs ▸ mem_append_right _ mem_cons_self
  obtain ⟨hopen, rfl⟩ | ⟨hclosed, rfl⟩ := hcase
  · have hrep := Represents.entomb hv
    exact {
      order := pairwise_entombed hroom.order
        (moqcacheOpen_iff.mp (moqcacheStaysOpen_iff.mp hopen).2)
      kept := hroom.kept.represents hrep
      back := by
        intro r hr
        obtain hr | ⟨w, hw, rfl⟩ := hrep.back r hr
        · exact hroom.back r hr
        · obtain hw | ⟨u, hu, rfl⟩ := hroom.back w hw
          · exact .inr ⟨w, hw, rfl⟩
          · exact .inr ⟨u, hu, rfl⟩
      hint := hintOk_of_zero rfl
      cap := hroom.cap
      nextExp := hroom.nextExp }
  · exact {
      order := hroom.order.filter _
      kept := hroom.kept.drop (victim_lowest harr hroom hrecs hpre) fun x _ _ hxtag hnew =>
        not_newest_of_closed harr hroom hclosed hxtag hnew
      back := fun r hr => hroom.back r (mem_filter_not_hit.mp hr).1
      hint := hintOk_of_zero rfl
      cap := hroom.cap
      nextExp := hroom.nextExp }

end

theorem evictOne_own (h : moqcacheEvictOne c tag group = some c') (htag : r.tag = tag)
    (hgroup : r.group = group) : r ∈ c'.recs ↔ r ∈ c.recs := by
  obtain ⟨v, -, -, -, hvictim, -, hcase⟩ := evictOne_cases h
  have hother : ¬ (r.tag = v.tag ∧ r.group = v.group) := by
    rintro ⟨hvtag, hvgroup⟩
    exact (moqcacheVictim_iff.mp hvictim).1 ⟨hvtag.symm.trans htag, hvgroup.symm.trans hgroup⟩
  obtain ⟨-, rfl⟩ | ⟨-, rfl⟩ := hcase
  · refine mem_entombed.trans ?_
    rw [and_iff_left hother, or_iff_left]
    rintro rfl
    exact hother ⟨rfl, rfl⟩
  · exact mem_filter_not_hit.trans (and_iff_left hother)

/-! ## Making room -/

/-- Records, and payloads: an eviction takes one of them away. -/
def weight (recs : List CacheRec) : Nat := recs.length + recs.countP fun r => !moqcacheDead r

theorem filter_not_hit_sublist (pre post : List CacheRec) (v : CacheRec) :
    ((pre ++ v :: post).filter fun r => !moqcacheHit v.tag v.group false r).Sublist
      (pre ++ post) := by
  have hhit : moqcacheHit v.tag v.group false v = true := moqcacheHit_iff.mpr ⟨rfl, rfl⟩
  rw [filter_append, filter_cons_of_neg (by simp [hhit]), ← filter_append]
  exact filter_sublist

theorem weight_evictOne (h : moqcacheEvictOne c tag group = some c') :
    weight c'.recs < weight c.recs := by
  obtain ⟨v, pre, post, hrecs, hvictim, -, hcase⟩ := evictOne_cases h
  have hsub := filter_not_hit_sublist pre post v
  have hlen := hsub.length_le
  have hlive := hsub.countP_le (p := fun r => !moqcacheDead r)
  rw [← hrecs, length_append] at hlen
  rw [← hrecs, countP_append] at hlive
  have hweight : weight c.recs = pre.length + (post.length + 1) +
      (pre.countP (fun r => !moqcacheDead r) + (post.countP (fun r => !moqcacheDead r) +
        if (!moqcacheDead v) = true then 1 else 0)) := by
    rw [weight, hrecs, length_append, length_cons, countP_append, countP_cons]
  obtain ⟨hopen, rfl⟩ | ⟨-, rfl⟩ := hcase
  · have hvlive : moqcacheDead v = false := by
      rw [← Bool.not_eq_true]
      exact fun hdead => (moqcacheVictim_iff.mp hvictim).2 ⟨hdead, hopen⟩
    change weight (entombed c.recs v.tag v.group) < _
    have htomb : [moqcacheTomb v.tag v.group].countP (fun r => !moqcacheDead r) = 0 := rfl
    rw [hweight, hvlive, Bool.not_false, if_pos rfl, entombed, weight, length_append,
      countP_append, htomb, length_singleton]
    omega
  · change weight (c.recs.filter fun r => !moqcacheHit v.tag v.group false r) < _
    rw [hweight, weight]
    omega

/-- Making room keeps what an eviction keeps, and all records of the Group. -/
theorem makeRoomFuel_room (harr : Arrives tag group appended) (need fuel : Nat)
    (hroom : Room c₀ tag group appended c) :
    Room c₀ tag group appended (moqcacheMakeRoomFuel tag group need fuel c) ∧
      ∀ r, r.tag = tag → r.group = group →
        (r ∈ (moqcacheMakeRoomFuel tag group need fuel c).recs ↔ r ∈ c.recs) := by
  induction fuel generalizing c with
  | zero => exact ⟨hroom, fun _ _ _ => Iff.rfl⟩
  | succ fuel ih =>
    rw [moqcacheMakeRoomFuel]
    split
    · split
      · exact ⟨hroom, fun _ _ _ => Iff.rfl⟩
      · rename_i c' hevict
        obtain ⟨hrest, hown⟩ := ih (hroom.evictOne harr hevict)
        refine ⟨hrest, fun r htag hgroup => ?_⟩
        exact (hown r htag hgroup).trans (evictOne_own hevict htag hgroup)
    · exact ⟨hroom, fun _ _ _ => Iff.rfl⟩

theorem makeRoomFuel_end (need fuel : Nat) (hfuel : weight c.recs ≤ fuel) :
    (moqcacheMakeRoomFuel tag group need fuel c).used + need ≤
        (moqcacheMakeRoomFuel tag group need fuel c).cap ∨
      moqcacheEvictOne (moqcacheMakeRoomFuel tag group need fuel c) tag group = none := by
  induction fuel generalizing c with
  | zero =>
    right
    have hnil : c.recs = [] := by
      rw [weight] at hfuel
      exact length_eq_zero_iff.mp (by omega)
    rw [moqcacheMakeRoomFuel, moqcacheEvictOne, moqcacheFirstVictim, hnil]
    rfl
  | succ fuel ih =>
    rw [moqcacheMakeRoomFuel]
    split
    · split
      · rename_i hnone
        exact .inr hnone
      · rename_i c' hevict
        have hless := weight_evictOne hevict
        exact ih (by omega)
    · rename_i hfits
      exact .inl (Nat.not_lt.mp hfits)

theorem weight_le (recs : List CacheRec) : weight recs ≤ 2 * recs.length := by
  have := countP_le_length (p := fun r => !moqcacheDead r) (l := recs)
  rw [weight]
  omega

/-- A record is written where there is room for it, and else nothing more can go. -/
theorem put_room (harr : Arrives r.tag r.group appended)
    (hroom : Room c₀ r.tag r.group appended c) :
    ∃ mid, Room c₀ r.tag r.group appended mid ∧
      (∀ s, s.tag = r.tag → s.group = r.group → (s ∈ mid.recs ↔ s ∈ c.recs)) ∧
      (moqcachePut c r = (moqcacheWrite mid r, true) ∨
        moqcachePut c r = (mid, false) ∧ mid.cap < mid.used + moqcacheRecSize r ∧
          (moqcacheRecSize r ≤ c.cap → moqcacheEvictOne mid r.tag r.group = none)) := by
  rw [moqcachePut]
  dsimp only
  split
  · rename_i hbig
    refine ⟨c, hroom, fun _ _ _ => Iff.rfl, .inr ⟨rfl, ?_, ?_⟩⟩
    · exact lt_of_lt_of_le hbig (Nat.le_add_left _ _)
    · exact fun hle => absurd hbig (Nat.not_lt.mpr hle)
  · obtain ⟨hmade, hown⟩ := makeRoomFuel_room harr (moqcacheRecSize r) (2 * c.recs.length) hroom
    refine ⟨_, hmade, hown, ?_⟩
    split
    · rename_i hfull
      exact .inr ⟨rfl, hfull, fun _ =>
        (makeRoomFuel_end _ _ (weight_le _)).resolve_left (Nat.not_le.mpr hfull)⟩
    · exact .inl rfl

/-! ## A record of the Group -/

/-- Once a record of the Group is written, and what was appended of it is covered, nothing is lost.
-/
theorem KeptBut.close (harr : Arrives r.tag r.group appended)
    (h : KeptBut (OfGroup r.tag r.group) recs appended)
    (hown : ∀ x ∈ appended, OfGroup r.tag r.group x →
      ∃ s ∈ recs ++ [r], s.tag = x.tag ∧ s.Covers x.loc) : Kept (recs ++ [r]) appended where
  known := forall_mem_append.mpr ⟨h.known, forall_mem_singleton.mpr harr.some⟩
  covered := by
    rintro x hx - ⟨s, hs, hstag, hsgroup⟩
    by_cases hout : OfGroup r.tag r.group x
    · exact hown x hx hout
    · obtain hs | hs := mem_append.mp hs
      · obtain ⟨u, hu, hcov⟩ := h.covered x hx hout ⟨s, hs, hstag, hsgroup⟩
        exact ⟨u, mem_append_left _ hu, hcov⟩
      · -- an Object of the track that is not below the Group is of the Group
        obtain rfl := mem_singleton.mp hs
        exact absurd ⟨hstag.symm, UInt64.le_antisymm (harr.last x hx hstag.symm) hsgroup⟩ hout
  newest := by
    intro x hx _ hnew
    by_cases hout : OfGroup r.tag r.group x
    · exact ⟨r, mem_append_right _ (mem_singleton.mpr rfl), hout.1.symm, hout.2.symm⟩
    · obtain ⟨s, hs, hstag, hsgroup⟩ := h.newest x hx hout hnew
      exact ⟨s, mem_append_left _ hs, hstag, hsgroup⟩

theorem Room.recOk (h : Room c₀ tag group appended c)
    (hrecs : ∀ r ∈ c₀.recs, RecOk appended' c₀.nextExp r) :
    ∀ r ∈ c.recs, RecOk appended' c₀.nextExp r := by
  intro r hr
  obtain hr | ⟨v, hv, rfl⟩ := h.back r hr
  · exact hrecs r hr
  · exact moqcacheTomb_recOk (hrecs v hv).group _ _ _

theorem pairwise_write (horder : recs.Pairwise Before) (hafter : ∀ s ∈ recs, Before s r) :
    (recs ++ [r]).Pairwise Before := by
  rw [pairwise_append]
  refine ⟨horder, pairwise_singleton _ _, fun s hs => ?_⟩
  exact forall_mem_singleton.mpr (hafter s hs)

/-- The record is written behind the others of its track. -/
theorem Room.write (harr : Arrives r.tag r.group appended) (h : Room c₀ r.tag r.group appended c)
    {n : UInt64} (hn : n ≤ c₀.nextExp) (hrecs : ∀ r ∈ c₀.recs, RecOk appended c₀.nextExp r)
    (hr : RecOk appended n r)
    (hafter : ∀ s ∈ c.recs, s.tag = r.tag → s.group = r.group → Before s r)
    (hown : ∀ x ∈ appended, OfGroup r.tag r.group x →
      ∃ s ∈ c.recs ++ [r], s.tag = x.tag ∧ s.Covers x.loc) :
    CacheOk { moqcacheWrite c r with nextExp := n } appended where
  order := by
    apply pairwise_write h.order
    intro s hs htag
    by_cases hgroup : s.group = r.group
    · exact hafter s hs htag hgroup htag
    · exact before_of_group_lt (UInt64.lt_of_le_of_ne (harr.group_le h.kept hs htag) hgroup) htag
  recs := by
    change ∀ s ∈ c.recs ++ [r], RecOk appended n s
    rw [forall_mem_append, forall_mem_singleton]
    exact ⟨fun s hs => (h.recOk hrecs s hs).mono (List.Subset.refl _) hn, hr⟩
  kept := h.kept.close harr hown
  hint := h.hint.write r

/-! ## The tombstone of a Group -/

/-- Where nothing can go, there is one tombstone of each track at most. -/
theorem used_of_no_victim (harr : Arrives tag group appended)
    (hroom : Room c₀ tag group appended c) (hids : ∀ r ∈ c.recs, r.object ≤ moqcacheObjIdMax)
    (hown : ∀ r ∈ c.recs, ¬ (r.tag = tag ∧ r.group = group))
    (hnone : moqcacheEvictOne c tag group = none) :
    c.used ≤ moqcacheHdr * (otherTags c₀ tag).card := by
  have hstuck : ∀ r ∈ c.recs, moqcacheDead r = true ∧ moqcacheStaysOpen c r tag group = true := by
    intro r hr
    have hnot := find?_eq_none.mp (Option.map_eq_none_iff.mp hnone) r hr
    rw [moqcacheVictim_iff, not_and_or, not_not, not_not] at hnot
    exact hnot.resolve_left (hown r hr)
  have hother : ∀ r ∈ c.recs, r.tag ≠ tag := by
    intro r hr htag
    apply (moqcacheStaysOpen_iff.mp (hstuck r hr).2).1
    refine ⟨htag, UInt64.lt_of_le_of_ne (harr.group_le hroom.kept hr htag) ?_⟩
    exact fun hgroup => hown r hr ⟨htag, hgroup⟩
  have hnodup : (c.recs.map CacheRec.tag).Nodup := by
    apply pairwise_map.mpr
    apply hroom.order.imp_of_mem
    intro r r' hr hr' hbefore htag
    have hlt := hbefore.group_lt_of_dead htag (hids r' hr') (.inl (hstuck r hr).1)
    have hopen := moqcacheOpen_iff.mp (moqcacheStaysOpen_iff.mp (hstuck r hr).2).2
    exact absurd (hopen r' hr' htag.symm) (UInt64.not_le.mpr hlt)
  have hsub : (c.recs.map CacheRec.tag).toFinset ⊆ otherTags c₀ tag := by
    intro t ht
    obtain ⟨r, hr, rfl⟩ := mem_map.mp (mem_toFinset.mp ht)
    rw [otherTags, Finset.mem_erase, mem_toFinset]
    refine ⟨hother r hr, ?_⟩
    obtain hr | ⟨v, hv, rfl⟩ := hroom.back r hr
    · exact mem_map_of_mem hr
    · exact mem_map.mpr ⟨v, hv, rfl⟩
  have hlen : c.recs.length ≤ (otherTags c₀ tag).card := by
    have hcard := Finset.card_le_card hsub
    rwa [toFinset_card_of_nodup hnodup, length_map] at hcard
  have hused : c.used = c.recs.length * moqcacheHdr := by
    rw [Moqcache.used, map_eq_replicate_iff.mpr, sum_replicate_nat]
    intro r hr
    have hdead := Option.isNone_iff_eq_none.mp (hstuck r hr).1
    rw [moqcacheRecSize, hdead]
    rfl
  rw [hused, mul_comm]
  exact Nat.mul_le_mul_left _ hlen

theorem Room.dropOwn (h : Room c₀ tag group appended c) :
    Room c₀ tag group appended (moqcacheDrop c tag group false) where
  order := h.order.filter _
  kept := by
    have hstays : ∀ x, ¬ OfGroup tag group x → ∀ r ∈ c.recs, r.tag = x.tag → r.group = x.loc.group →
        r ∈ (moqcacheDrop c tag group false).recs := by
      intro x hout r hr htag hgroup
      refine mem_filter_not_hit.mpr ⟨hr, ?_⟩
      rintro ⟨hdtag, hdgroup⟩
      exact hout ⟨htag.symm.trans hdtag, hgroup.symm.trans hdgroup⟩
    exact {
      known := fun r hr => h.kept.known r (mem_filter_not_hit.mp hr).1
      covered := by
        rintro x hx hout ⟨r, hr, htag, hgroup⟩
        obtain ⟨s, hs, hstag, hcov⟩ := h.kept.covered x hx hout
          ⟨r, (mem_filter_not_hit.mp hr).1, htag, hgroup⟩
        exact ⟨s, hstays x hout s hs hstag hcov.1, hstag, hcov⟩
      newest := by
        intro x hx hout hnew
        obtain ⟨s, hs, hstag, hsgroup⟩ := h.kept.newest x hx hout hnew
        exact ⟨s, hstays x hout s hs hstag hsgroup, hstag, hsgroup⟩ }
  back := fun r hr => h.back r (mem_filter_not_hit.mp hr).1
  hint := hintOk_of_zero rfl
  cap := h.cap
  nextExp := h.nextExp

/-- A Group that cannot be held whole becomes a tombstone, for which there is room. -/
theorem kill_ok (harr : Arrives tag group appended)
    (hrecs : ∀ r ∈ c₀.recs, RecOk appended c₀.nextExp r) (hgroup : group ≤ moqcacheObjIdMax)
    (hspace : moqcacheHdr * ((otherTags c₀ tag).card + 1) ≤ c₀.cap)
    (h : Room c₀ tag group appended c) : CacheOk (moqcacheKill c tag group) appended := by
  obtain ⟨mid, hroom, hown, hput⟩ := put_room (r := moqcacheTomb tag group) harr h.dropOwn
  have hgone : ∀ r ∈ mid.recs, ¬ (r.tag = tag ∧ r.group = group) := fun r hr hin =>
    (mem_filter_not_hit.mp ((hown r hin.1 hin.2).mp hr)).2 hin
  rw [moqcacheKill]
  obtain hput | ⟨-, hfull, hstuck⟩ := hput
  · rw [hput]
    refine hroom.write harr (UInt64.le_of_eq hroom.nextExp) hrecs (moqcacheTomb_recOk hgroup _ _ _)
      (fun r hr htag hgroup => absurd ⟨htag, hgroup⟩ (hgone r hr)) fun x _ hx => ?_
    exact ⟨moqcacheTomb tag group, mem_append_right _ (mem_singleton.mpr rfl),
      hx.1.symm, hx.2.symm, .inl rfl⟩
  · have hneed : moqcacheRecSize (moqcacheTomb tag group) = moqcacheHdr := rfl
    have hcap : (moqcacheDrop c tag group false).cap = c₀.cap := h.cap
    rw [Nat.mul_succ] at hspace
    rw [hneed, hroom.cap] at hfull
    have hnone := hstuck (by omega)
    have hused := used_of_no_victim harr hroom (fun r hr => (hroom.recOk hrecs r hr).id) hgone hnone
    omega

/-! ## Appending -/

/-- No earlier Group of the track arrives late, the arena has room for a tombstone of each track,
and the Object is above those of its Group that are held. -/
@[mk_iff]
structure AppendOk (c : Moqcache) (appended : List Arrival) (tag : UInt64) (loc : Loc) :
    Prop where
  groups : ∀ h ∈ appended, h.tag = tag → h.loc.group ≤ loc.group
  room : moqcacheHdr * ((otherTags c tag).card + 1) ≤ c.cap
  objects : ∀ r ∈ c.recs, r.tag = tag → r.group = loc.group → moqcacheDead r = false →
    r.object < loc.object
  id : loc.group ≤ moqcacheObjIdMax ∧ loc.object ≤ moqcacheObjIdMax

theorem Newest.of_cons {y : Arrival} (h : Newest (y :: appended) x) : Newest appended x :=
  fun x' hx' => h x' (mem_cons_of_mem _ hx')

/-- The Object that arrives is among those appended, and its Group is exempt. -/
theorem room_start (h : CacheOk c appended) (tag : UInt64) (loc : Loc) (payload : List UInt8) :
    Room c tag loc.group (⟨tag, loc, payload⟩ :: appended) c where
  order := h.order
  kept := {
    known := by
      intro r hr
      obtain ⟨x, hx, heq⟩ := h.kept.known r hr
      exact ⟨x, mem_cons_of_mem _ hx, heq⟩
    covered := by
      rw [forall_mem_cons]
      exact ⟨fun hout => absurd ⟨rfl, rfl⟩ hout, fun x hx _ => h.kept.covered x hx id⟩
    newest := by
      rw [forall_mem_cons]
      exact ⟨fun hout => absurd ⟨rfl, rfl⟩ hout,
        fun x hx _ hnew => h.kept.newest x hx id hnew.of_cons⟩ }
  back := fun _ hr => .inl hr
  hint := h.hint
  cap := rfl
  nextExp := rfl

theorem AppendOk.arrives (h : AppendOk c appended tag loc) (payload : List UInt8) :
    Arrives tag loc.group (⟨tag, loc, payload⟩ :: appended) where
  last := forall_mem_cons.mpr ⟨fun _ => UInt64.le_refl _, h.groups⟩
  some := ⟨_, mem_cons_self, rfl, rfl⟩

theorem Kept.newest_covered (h : Kept c.recs appended)
    (hgroups : ∀ h ∈ appended, h.tag = tag → h.loc.group ≤ loc.group) (hx : x ∈ appended)
    (hxgroup : OfGroup tag loc.group x) : ∃ r ∈ c.recs, r.tag = x.tag ∧ r.Covers x.loc := by
  have hnew : Newest appended x := by
    intro x' hx' htag
    rw [hxgroup.2]
    exact hgroups x' hx' (htag.trans hxgroup.1)
  obtain ⟨r, hr, hrtag, hrgroup⟩ := h.newest x hx id hnew
  exact h.covered x hx id ⟨r, hr, hrtag, UInt64.le_of_eq hrgroup⟩

theorem append_dead (payload : List UInt8) (h : CacheOk c appended)
    (hdead : (moqcacheGroupBytes c tag loc.group).2 = true) :
    CacheOk c (⟨tag, loc, payload⟩ :: appended) := by
  obtain ⟨t, ht, htdead⟩ := any_eq_true.mp hdead
  obtain ⟨ht, hhit⟩ := mem_filter.mp ht
  obtain ⟨htag, hgroup⟩ := moqcacheHit_iff.mp hhit
  refine ⟨h.order, h.recs_cons _, ?_, h.hint⟩
  exact {
    known := (room_start h tag loc payload).kept.known
    covered := by
      rw [forall_mem_cons]
      exact ⟨fun _ _ => ⟨t, ht, htag, hgroup, .inl htdead⟩, h.kept.covered⟩
    newest := by
      rw [forall_mem_cons]
      exact ⟨fun _ _ => ⟨t, ht, htag, hgroup⟩,
        fun x hx _ hnew => h.kept.newest x hx id hnew.of_cons⟩ }

theorem u64Min_le (a b : UInt64) : u64Min a b ≤ a ∧ u64Min a b ≤ b := by
  rw [u64Min]
  split
  · exact ⟨UInt64.le_refl _, UInt64.le_of_lt ‹_›⟩
  · exact ⟨UInt64.not_lt.mp ‹_›, UInt64.le_refl _⟩

/-- The record is written behind the others of its track, where the evictions have left it room. -/
theorem append_stored {payload : List UInt8} {exp : UInt64} (h : CacheOk c appended)
    (hok : AppendOk c appended tag loc) (hlive : (moqcacheGroupBytes c tag loc.group).2 = false)
    (hsize : payload.length ≤ moqcacheObjMax)
    (hroom : Room c tag loc.group (⟨tag, loc, payload⟩ :: appended) c')
    (hown : ∀ s, s.tag = tag → s.group = loc.group → (s ∈ c'.recs ↔ s ∈ c.recs)) :
    CacheOk { moqcacheWrite c' ⟨tag, loc.group, loc.object, some payload, exp⟩ with
      nextExp := u64Min c'.nextExp exp } (⟨tag, loc, payload⟩ :: appended) := by
  refine Room.write (hok.arrives payload) hroom ?_ (h.recs_cons _) ?_ ?_ ?_
  · rw [← hroom.nextExp]
    exact (u64Min_le _ _).1
  · exact {
      group := hok.id.1
      id := hok.id.2
      own := fun p hp => Option.some.inj hp ▸ mem_cons_self
      size := fun p hp => Option.some.inj hp ▸ hsize
      exp := fun _ => (u64Min_le _ _).2 }
  · intro s hs hstag hsgroup
    have hsold := (hown s hstag hsgroup).mp hs
    have hslive : moqcacheDead s = false := Bool.eq_false_iff.mpr <|
      any_eq_false.mp hlive s
        (mem_filter.mpr ⟨hsold, moqcacheHit_iff.mpr ⟨hstag, hsgroup⟩⟩)
    exact before_of_object_lt hsgroup hslive rfl (hok.objects s hsold hstag hsgroup hslive)
  · intro x hx hxgroup
    obtain rfl | hx := mem_cons.mp hx
    · exact ⟨_, mem_append_right _ (mem_singleton.mpr rfl), rfl, rfl, .inr rfl⟩
    · obtain ⟨s, hs, hstag, hcov⟩ := h.kept.newest_covered hok.groups hx hxgroup
      refine ⟨s, mem_append_left _ ?_, hstag, hcov⟩
      exact (hown s (hstag.trans hxgroup.1) (hcov.1.trans hxgroup.2)).mpr hs

theorem appendExp_ok (payload : List UInt8) (exp : UInt64) (h : CacheOk c appended)
    (hok : AppendOk c appended tag loc) :
    CacheOk (moqcacheAppendExp c tag loc payload exp) (⟨tag, loc, payload⟩ :: appended) := by
  have hstart := room_start h tag loc payload
  have hkill : ∀ mid, Room c tag loc.group (⟨tag, loc, payload⟩ :: appended) mid →
      CacheOk (moqcacheKill mid tag loc.group) (⟨tag, loc, payload⟩ :: appended) := fun mid =>
    kill_ok (hok.arrives payload) (h.recs_cons _) hok.id.1 hok.room
  rw [moqcacheAppendExp]
  split
  · rename_i hdead
    exact append_dead payload h hdead
  · rename_i hdead
    dsimp only
    rw [moqcacheStore]
    by_cases hbig : moqcacheTooBig (moqcacheGroupBytes c tag loc.group).1 payload.length c.cap = true
    · rw [if_pos hbig, if_neg Bool.false_ne_true]
      exact hkill c hstart
    · rw [if_neg hbig]
      obtain ⟨mid, hroom, hown, hput | ⟨hput, -⟩⟩ :=
        put_room (r := ⟨tag, loc.group, loc.object, some payload, exp⟩) (hok.arrives payload) hstart
      · rw [hput, if_pos rfl]
        rw [moqcacheTooBig, Bool.or_eq_true, not_or, decide_eq_true_eq] at hbig
        exact append_stored h hok (Bool.eq_false_iff.mpr hdead) (Nat.not_lt.mp hbig.1) hroom hown
      · rw [hput, if_neg Bool.false_ne_true]
        exact hkill mid hroom

end

end Wired.Moqt
