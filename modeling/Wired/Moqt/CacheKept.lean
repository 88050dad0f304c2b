import Wired.Moqt.Cache
import Mathlib.Data.Finset.Card
import Mathlib.Data.List.Dedup

/-!
# What the cache keeps

A lookup takes the first record in the arena that reaches a Location, and takes what lies below it
for nonexistent. That is right where the records of a track lie in the order of their Locations
(`Before`), and where nothing was lost of the Groups from the oldest that is held on (`Kept`).

`appended` are the Objects that were appended to the cache, in the order of their arrival, without
those of tracks that were released. Groups are assumed to arrive in ascending order in each track.
-/

namespace Wired.Moqt

/-! ## Order -/

/-- In the order of their Locations, if the records are of one track. -/
def Before (r r' : CacheRec) : Prop :=
  r.tag = r'.tag → (moqcacheRecLast r).pos < (moqcacheRecFirst r').pos

variable {tag group : UInt64}

section

variable {r r' : CacheRec}

theorem moqcacheRecFirst_pos_le (r : CacheRec) :
    r.group.toNat * 2 ^ 64 ≤ (moqcacheRecFirst r).pos ∧
      (moqcacheRecFirst r).pos ≤ r.group.toNat * 2 ^ 64 + r.object.toNat := by
  rw [moqcacheRecFirst, Loc.pos_mk]
  split
  · rw [UInt64.toNat_zero]
    omega
  · omega

theorem moqcacheRecLast_pos_lt (r : CacheRec) :
    r.group.toNat * 2 ^ 64 ≤ (moqcacheRecLast r).pos ∧
      (moqcacheRecLast r).pos < (r.group.toNat + 1) * 2 ^ 64 := by
  have hlt := (moqcacheRecLast r).object.toNat_lt
  change _ ≤ r.group.toNat * 2 ^ 64 + _ ∧ r.group.toNat * 2 ^ 64 + _ < _
  omega

theorem before_of_group_lt (h : r.group < r'.group) : Before r r' := by
  intro _
  have hlast := (moqcacheRecLast_pos_lt r).2
  have hfirst := (moqcacheRecFirst_pos_le r').1
  have hgroup : (r.group.toNat + 1) * 2 ^ 64 ≤ r'.group.toNat * 2 ^ 64 :=
    Nat.mul_le_mul_right _ (UInt64.lt_iff_toNat_lt.mp h)
  omega

theorem Before.group_le (h : Before r r') (htag : r.tag = r'.tag) : r.group ≤ r'.group := by
  have hpos := h htag
  have hlast := (moqcacheRecLast_pos_lt r).1
  have hfirst := (moqcacheRecFirst_pos_le r').2
  have hobject := r'.object.toNat_lt
  rw [UInt64.le_iff_toNat_le]
  omega

theorem moqcacheRecLast_pos_dead (h : moqcacheDead r = true) :
    (moqcacheRecLast r).pos = r.group.toNat * 2 ^ 64 + moqcacheObjIdMax.toNat := by
  rw [moqcacheRecLast, if_pos h, Loc.pos_mk]

theorem moqcacheRecFirst_pos_dead (h : moqcacheDead r = true) :
    (moqcacheRecFirst r).pos = r.group.toNat * 2 ^ 64 := by
  rw [moqcacheRecFirst, if_pos h, Loc.pos_mk, UInt64.toNat_zero, Nat.add_zero]

theorem Before.group_lt_of_dead (h : Before r r') (htag : r.tag = r'.tag)
    (hid : r'.object ≤ moqcacheObjIdMax)
    (hdead : moqcacheDead r = true ∨ moqcacheDead r' = true) : r.group < r'.group := by
  have hpos := h htag
  have hle := UInt64.le_iff_toNat_le.mp hid
  rw [UInt64.lt_iff_toNat_lt]
  obtain hdead | hdead := hdead
  · have hlast := moqcacheRecLast_pos_dead hdead
    have hfirst := (moqcacheRecFirst_pos_le r').2
    omega
  · have hlast := (moqcacheRecLast_pos_lt r).1
    have hfirst := moqcacheRecFirst_pos_dead hdead
    omega

theorem moqcacheRec_pos_live (h : moqcacheDead r = false) :
    moqcacheRecFirst r = ⟨r.group, r.object⟩ ∧ moqcacheRecLast r = ⟨r.group, r.object⟩ := by
  rw [moqcacheRecFirst, moqcacheRecLast, h]
  exact ⟨rfl, rfl⟩

theorem before_of_object_lt (hgroup : r.group = r'.group) (hlive : moqcacheDead r = false)
    (hlive' : moqcacheDead r' = false) (h : r.object < r'.object) : Before r r' := by
  intro _
  rw [(moqcacheRec_pos_live hlive).2, (moqcacheRec_pos_live hlive').1, Loc.pos_mk, Loc.pos_mk,
    hgroup]
  have := UInt64.lt_iff_toNat_lt.mp h
  omega

theorem moqcacheHit_iff : moqcacheHit tag group false r = true ↔ r.tag = tag ∧ r.group = group := by
  simp [moqcacheHit]

end

/-! ## Tombstones and what was dropped -/

def CacheRec.Covers (r : CacheRec) (l : Loc) : Prop :=
  r.group = l.group ∧ (moqcacheDead r = true ∨ r.object = l.object)

def entombed (recs : List CacheRec) (tag group : UInt64) : List CacheRec :=
  recs.filter (fun r => !moqcacheHit tag group false r) ++ [moqcacheTomb tag group]

variable {recs : List CacheRec}

theorem mem_filter_not_hit {r : CacheRec} :
    r ∈ recs.filter (fun r => !moqcacheHit tag group false r) ↔
      r ∈ recs ∧ ¬ (r.tag = tag ∧ r.group = group) := by
  rw [List.mem_filter, Bool.not_eq_true', ← Bool.not_eq_true, moqcacheHit_iff]

theorem mem_entombed {r : CacheRec} :
    r ∈ entombed recs tag group ↔
      (r ∈ recs ∧ ¬ (r.tag = tag ∧ r.group = group)) ∨ r = moqcacheTomb tag group := by
  rw [entombed, List.mem_append, mem_filter_not_hit, List.mem_singleton]

/-- Every record of the one arena is one of the other, or is in a Group that became a tombstone. -/
structure Represents (recs recs' : List CacheRec) : Prop where
  forward : ∀ r ∈ recs, ∃ r' ∈ recs', r'.tag = r.tag ∧ r'.group = r.group ∧
    ∀ l, r.Covers l → r'.Covers l
  back : ∀ r' ∈ recs', r' ∈ recs ∨ ∃ v ∈ recs, r' = moqcacheTomb v.tag v.group

theorem Represents.refl (recs : List CacheRec) : Represents recs recs where
  forward := fun r hr => ⟨r, hr, rfl, rfl, fun _ h => h⟩
  back := fun _ hr => .inl hr

theorem Represents.entomb {v : CacheRec} (hv : v ∈ recs) :
    Represents recs (entombed recs v.tag v.group) where
  forward := by
    intro r hr
    by_cases hin : r.tag = v.tag ∧ r.group = v.group
    · refine ⟨moqcacheTomb v.tag v.group, mem_entombed.mpr (.inr rfl), hin.1.symm, hin.2.symm, ?_⟩
      intro l hl
      exact ⟨hin.2.symm.trans hl.1, .inl rfl⟩
    · exact ⟨r, mem_entombed.mpr (.inl ⟨hr, hin⟩), rfl, rfl, fun _ h => h⟩
  back := by
    intro r hr
    obtain ⟨hr, -⟩ | rfl := mem_entombed.mp hr
    · exact .inl hr
    · exact .inr ⟨v, hv, rfl⟩

theorem Represents.trans {recs' recs'' : List CacheRec} (h : Represents recs recs')
    (h' : Represents recs' recs'') : Represents recs recs'' where
  forward := by
    intro r hr
    obtain ⟨r', hr', htag', hgroup', hcov'⟩ := h.forward r hr
    obtain ⟨r'', hr'', htag'', hgroup'', hcov''⟩ := h'.forward r' hr'
    exact ⟨r'', hr'', htag''.trans htag', hgroup''.trans hgroup', fun l hl => hcov'' l (hcov' l hl)⟩
  back := by
    intro r hr
    obtain hr' | ⟨v, hv, rfl⟩ := h'.back r hr
    · exact h.back r hr'
    · obtain hv' | ⟨w, hw, rfl⟩ := h.back v hv
      · exact .inr ⟨v, hv', rfl⟩
      · exact .inr ⟨w, hw, rfl⟩

/-! ## Nothing lost -/

/-- An Object that was appended. -/
structure Arrival where
  tag : UInt64
  loc : Loc
  payload : List UInt8
deriving DecidableEq, Repr

/-- No later Group of the track was appended. -/
def Newest (appended : List Arrival) (h : Arrival) : Prop :=
  ∀ h' ∈ appended, h'.tag = h.tag → h'.loc.group ≤ h.loc.group

/-- From the oldest held Group of a track on, every appended Object is held, or its Group is a
tombstone. The newest Group is always held or a tombstone. Nothing is said of Objects in `out`. -/
structure KeptBut (out : Arrival → Prop) (recs : List CacheRec)
    (appended : List Arrival) : Prop where
  known : ∀ r ∈ recs, ∃ h ∈ appended, h.tag = r.tag ∧ h.loc.group = r.group
  covered : ∀ h ∈ appended, ¬ out h → (∃ r ∈ recs, r.tag = h.tag ∧ r.group ≤ h.loc.group) →
    ∃ r ∈ recs, r.tag = h.tag ∧ r.Covers h.loc
  newest : ∀ h ∈ appended, ¬ out h → Newest appended h →
    ∃ r ∈ recs, r.tag = h.tag ∧ r.group = h.loc.group

def Kept (recs : List CacheRec) (appended : List Arrival) : Prop :=
  KeptBut (fun _ => False) recs appended

section

variable {out : Arrival → Prop} {recs' : List CacheRec} {appended : List Arrival}

theorem KeptBut.represents (h : KeptBut out recs appended) (hrep : Represents recs recs') :
    KeptBut out recs' appended where
  known := by
    intro r hr
    obtain hr | ⟨v, hv, rfl⟩ := hrep.back r hr
    · exact h.known r hr
    · exact h.known v hv
  covered := by
    rintro x hx hnot ⟨r', hr', htag, hgroup⟩
    have hold : ∃ r ∈ recs, r.tag = x.tag ∧ r.group ≤ x.loc.group := by
      obtain hr | ⟨v, hv, rfl⟩ := hrep.back r' hr'
      · exact ⟨r', hr, htag, hgroup⟩
      · exact ⟨v, hv, htag, hgroup⟩
    obtain ⟨r, hr, hrtag, hcov⟩ := h.covered x hx hnot hold
    obtain ⟨r'', hr'', htag'', -, hcov''⟩ := hrep.forward r hr
    exact ⟨r'', hr'', htag''.trans hrtag, hcov'' _ hcov⟩
  newest := by
    intro x hx hnot hnew
    obtain ⟨r, hr, htag, hgroup⟩ := h.newest x hx hnot hnew
    obtain ⟨r'', hr'', htag'', hgroup'', -⟩ := hrep.forward r hr
    exact ⟨r'', hr'', htag''.trans htag, hgroup''.trans hgroup⟩

/-- The oldest Group of a track goes whole, and it is not the newest. -/
theorem KeptBut.drop (h : KeptBut out recs appended)
    (hlowest : ∀ r ∈ recs, r.tag = tag → group ≤ r.group)
    (hclosed : ∀ x ∈ appended, ¬ out x → x.tag = tag → Newest appended x → x.loc.group ≠ group) :
    KeptBut out (recs.filter fun r => !moqcacheHit tag group false r) appended where
  known := fun r hr => h.known r (mem_filter_not_hit.mp hr).1
  covered := by
    rintro x hx hnot ⟨r, hr, htag, hgroup⟩
    obtain ⟨hr, hother⟩ := mem_filter_not_hit.mp hr
    obtain ⟨s, hs, hstag, hcov⟩ := h.covered x hx hnot ⟨r, hr, htag, hgroup⟩
    refine ⟨s, mem_filter_not_hit.mpr ⟨hs, ?_⟩, hstag, hcov⟩
    -- a record of the dropped Group would lie above the oldest one
    rintro ⟨hdtag, hdgroup⟩
    have hrtag : r.tag = tag := htag.trans (hstag.symm.trans hdtag)
    apply hother
    refine ⟨hrtag, UInt64.le_antisymm ?_ (hlowest r hr hrtag)⟩
    rw [← hdgroup, hcov.1]
    exact hgroup
  newest := by
    intro x hx hnot hnew
    obtain ⟨r, hr, htag, hgroup⟩ := h.newest x hx hnot hnew
    refine ⟨r, mem_filter_not_hit.mpr ⟨hr, ?_⟩, htag, hgroup⟩
    rintro ⟨hdtag, hdgroup⟩
    exact hclosed x hx hnot (htag.symm.trans hdtag) hnew (hgroup.symm.trans hdgroup)

end

theorem pairwise_entombed (h : recs.Pairwise Before)
    (hnewest : ∀ r ∈ recs, r.tag = tag → r.group ≤ group) :
    (entombed recs tag group).Pairwise Before := by
  rw [entombed, List.pairwise_append]
  refine ⟨h.filter _, List.pairwise_singleton _ _, fun r hr => ?_⟩
  obtain ⟨hr, hother⟩ := mem_filter_not_hit.mp hr
  rw [List.forall_mem_singleton]
  intro htag
  apply before_of_group_lt _ htag
  exact UInt64.lt_of_le_of_ne (hnewest r hr htag) fun hgroup => hother ⟨htag, hgroup⟩

end Wired.Moqt
