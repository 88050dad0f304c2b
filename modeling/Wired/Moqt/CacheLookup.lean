import Wired.Moqt.CacheAppend

/-!
# Looking something up in the cache

A lookup first turns the Groups into tombstones of which a record has expired. Tombstones go to the
end of the arena, so the records of a track stay in order only if the Groups that expire are the
newest that are held of it (`ExpiryOk`, `expire_ok`). It then scans for the first record that
reaches the Location, from the resume point of the last lookup on (`find_found`).
-/

namespace Wired.Moqt

open List

/-! ## Expiry -/

/-- A record of the Group has expired. -/
def Expiring (now : UInt64) (recs : List CacheRec) (r : CacheRec) : Prop :=
  ∃ e ∈ recs, moqcacheExpired now e = true ∧ e.tag = r.tag ∧ e.group = r.group
deriving Decidable

/-- Nothing that stays lies above a Group of its track that expires. -/
def ExpiryOk (now : UInt64) (recs : List CacheRec) : Prop :=
  ∀ e ∈ recs, moqcacheExpired now e = true → ∀ r ∈ recs, r.tag = e.tag → e.group < r.group →
    Expiring now recs r
deriving Decidable

/-- The arena while Groups expire: old records, and the new tombstones behind them. A Group that is
still to expire lies above the tombstones of its track, and one that stays below them. -/
structure Expires (now : UInt64) (old new : List CacheRec) : Prop where
  order : old.Pairwise Before
  tombs : new.Pairwise Before
  dead : ∀ b ∈ new, moqcacheDead b = true
  newest : ExpiryOk now old
  above : ∀ a ∈ old, ∀ b ∈ new, a.tag = b.tag → Expiring now old a → b.group < a.group
  below : ∀ a ∈ old, ∀ b ∈ new, a.tag = b.tag → ¬ Expiring now old a → a.group < b.group

variable {r : CacheRec} {recs new old : List CacheRec} {tag : UInt64} {c : Moqcache} {cur : Loc}

section

variable {now : UInt64} {old new : List CacheRec}

/-- A Group that stays, or expires later, does so whatever becomes of another Group. -/
theorem expiring_filter {group : UInt64} (hr : ¬ (r.tag = tag ∧ r.group = group)) :
    Expiring now (old.filter fun s => !moqcacheHit tag group false s) r ↔ Expiring now old r := by
  constructor
  · rintro ⟨e, he, heq⟩
    exact ⟨e, (mem_filter_not_hit.mp he).1, heq⟩
  · rintro ⟨e, he, hexp, htag, hgroup⟩
    refine ⟨e, mem_filter_not_hit.mpr ⟨he, ?_⟩, hexp, htag, hgroup⟩
    rintro ⟨htag', hgroup'⟩
    exact hr ⟨htag.symm.trans htag', hgroup.symm.trans hgroup'⟩

theorem Expires.step (h : Expires now old new)
    (hfind : (old ++ new).find? (moqcacheExpired now) = some r) :
    ∃ old' new', entombed (old ++ new) r.tag r.group = old' ++ new' ∧ Expires now old' new' := by
  -- the tombstones have not expired, so the first record that has is one from before
  have hnew : new.find? (moqcacheExpired now) = none := by
    rw [find?_eq_none]
    intro b hb
    rw [moqcacheExpired, h.dead b hb]
    exact Bool.false_ne_true
  rw [find?_append, hnew, Option.or_none] at hfind
  obtain ⟨hexp, pre, post, hsplit, hpre⟩ := find?_eq_some_iff_append.mp hfind
  have hr : r ∈ old := mem_of_find?_eq_some hfind
  have hrexp : Expiring now old r := ⟨r, hr, hexp, rfl, rfl⟩
  have hfirst : ∀ e ∈ old, moqcacheExpired now e = true → e.tag = r.tag → r.group ≤ e.group := by
    intro e he heexp htag
    have horder := h.order
    rw [hsplit, pairwise_append, pairwise_cons] at horder
    rw [hsplit, mem_append, mem_cons] at he
    obtain he | rfl | he := he
    · have hnot := hpre e he
      rw [heexp] at hnot
      cases hnot
    · exact UInt64.le_refl _
    · exact (horder.2.1.1 e he).group_le htag.symm
  refine ⟨old.filter fun s => !moqcacheHit r.tag r.group false s,
    new ++ [moqcacheTomb r.tag r.group], ?_, ?_⟩
  · rw [entombed, filter_append, append_assoc]
    congr 2
    rw [filter_eq_self]
    intro b hb
    rw [Bool.not_eq_true', ← Bool.not_eq_true, moqcacheHit_iff]
    rintro ⟨htag, hgroup⟩
    exact absurd hgroup (UInt64.ne_of_lt (h.above r hr b hb htag.symm hrexp))
  · have hlower : ∀ b ∈ new, Before b (moqcacheTomb r.tag r.group) := by
      intro b hb htag
      exact before_of_group_lt (h.above r hr b hb htag.symm hrexp) htag
    exact {
      order := h.order.filter _
      tombs := pairwise_write h.tombs hlower
      dead := forall_mem_append.mpr ⟨h.dead, forall_mem_singleton.mpr rfl⟩
      newest := by
        intro e he heexp a ha htag hlt
        obtain ⟨ha, hother⟩ := mem_filter_not_hit.mp ha
        rw [expiring_filter hother]
        exact h.newest e (mem_filter_not_hit.mp he).1 heexp a ha htag hlt
      above := by
        intro a ha b hb htag hexpiring
        obtain ⟨ha, hother⟩ := mem_filter_not_hit.mp ha
        rw [expiring_filter hother] at hexpiring
        obtain hb | hb := mem_append.mp hb
        · exact h.above a ha b hb htag hexpiring
        · obtain rfl := mem_singleton.mp hb
          obtain ⟨e, he, heexp, hetag, hegroup⟩ := hexpiring
          rw [← hegroup]
          refine UInt64.lt_of_le_of_ne (hfirst e he heexp (hetag.trans htag)) ?_
          exact fun heq => hother ⟨htag, hegroup.symm.trans heq.symm⟩
      below := by
        intro a ha b hb htag hstays
        obtain ⟨ha, hother⟩ := mem_filter_not_hit.mp ha
        rw [expiring_filter hother] at hstays
        obtain hb | hb := mem_append.mp hb
        · exact h.below a ha b hb htag hstays
        · obtain rfl := mem_singleton.mp hb
          refine UInt64.lt_of_le_of_ne ?_ fun heq => hother ⟨htag, heq⟩
          rw [← UInt64.not_lt]
          exact fun hlt => hstays (h.newest r hr hexp a ha htag hlt) }

theorem expired_entomb_lt (hfind : recs.find? (moqcacheExpired now) = some r) :
    (entombed recs r.tag r.group).countP (moqcacheExpired now) <
      recs.countP (moqcacheExpired now) := by
  have htomb : [moqcacheTomb r.tag r.group].countP (moqcacheExpired now) = 0 := rfl
  obtain ⟨hexp, pre, post, rfl, -⟩ := find?_eq_some_iff_append.mp hfind
  have hle := (filter_not_hit_sublist pre post r).countP_le (p := moqcacheExpired now)
  rw [countP_append] at hle
  rw [entombed, countP_append, htomb, countP_append, countP_cons_of_pos hexp]
  omega

end

def Fresh (c : Moqcache) : Prop := ∀ r ∈ c.recs, moqcacheExpired c.now r = false

/-- What the loop over the Groups that expire comes to. -/
structure ExpiredTo (c c' : Moqcache) : Prop where
  order : c'.recs.Pairwise Before
  fresh : Fresh c'
  represents : Represents c.recs c'.recs
  hint : HintOk c'
  now : c'.now = c.now

/-- Once nothing is left to expire, the tombstones lie above what stays. -/
theorem Expires.done (hrecs : c.recs = old ++ new)
    (h : Expires c.now old new) (hhint : HintOk c)
    (hnone : c.recs.find? (moqcacheExpired c.now) = none) : ExpiredTo c c := by
  have hfresh : Fresh c := fun r hr => Bool.eq_false_iff.mpr (find?_eq_none.mp hnone r hr)
  refine ⟨?_, hfresh, Represents.refl _, hhint, rfl⟩
  rw [hrecs, pairwise_append]
  refine ⟨h.order, h.tombs, ?_⟩
  intro a ha b hb htag
  apply before_of_group_lt (h.below a ha b hb htag _) htag
  rintro ⟨e, he, hexp, -⟩
  rw [hfresh e (hrecs ▸ mem_append_left _ he)] at hexp
  cases hexp

theorem expireFuel_spec {fuel : Nat}
    (hfuel : c.recs.countP (moqcacheExpired c.now) ≤ fuel) (hrecs : c.recs = old ++ new)
    (h : Expires c.now old new) (hhint : HintOk c) : ExpiredTo c (moqcacheExpireFuel fuel c) := by
  induction fuel generalizing c old new with
  | zero =>
    apply h.done hrecs hhint
    rw [find?_eq_none]
    exact countP_eq_zero.mp (Nat.le_zero.mp hfuel)
  | succ fuel ih =>
    rw [moqcacheExpireFuel]
    split
    · rename_i hnone
      exact h.done hrecs hhint hnone
    · rename_i r hfind
      have hless := expired_entomb_lt hfind
      obtain ⟨old', new', hsplit, hstep⟩ := h.step (hrecs ▸ hfind)
      rw [← hrecs] at hsplit
      have hrest := ih (c := moqcacheEntomb c r.tag r.group)
        (Nat.lt_succ_iff.mp (lt_of_lt_of_le hless hfuel)) hsplit hstep
        (HintOk.write (hintOk_of_zero rfl) _)
      have hrep := Represents.entomb (mem_of_find?_eq_some hfind)
      exact { hrest with represents := hrep.trans hrest.represents }

theorem minExp_foldl_le (recs : List CacheRec) (m : UInt64) :
    recs.foldl (fun m r => u64Min m r.exp) m ≤ m ∧
      ∀ r ∈ recs, recs.foldl (fun m r => u64Min m r.exp) m ≤ r.exp := by
  induction recs generalizing m with
  | nil => exact ⟨UInt64.le_refl _, forall_mem_nil _⟩
  | cons r recs ih =>
    obtain ⟨hle, hall⟩ := ih (u64Min m r.exp)
    have hmin := u64Min_le m r.exp
    rw [forall_mem_cons]
    exact ⟨UInt64.le_trans hle hmin.1, UInt64.le_trans hle hmin.2, hall⟩

section

variable {c : Moqcache} {appended : List Arrival} (h : CacheOk c appended)
include h

theorem CacheOk.fresh_of_lt (hnow : c.now < c.nextExp) : Fresh c := by
  intro r hr
  rw [moqcacheExpired, Bool.and_eq_false_iff, Bool.not_eq_false', decide_eq_false_iff_not]
  by_cases hdead : moqcacheDead r = true
  · exact .inl hdead
  · have hexp := (h.recs r hr).exp (Bool.eq_false_iff.mpr hdead)
    exact .inr (UInt64.not_le.mpr (UInt64.lt_of_lt_of_le hnow hexp))

/-- Expiry keeps the order of the arena, and loses nothing. -/
theorem expire_ok (hexp : ExpiryOk c.now c.recs) :
    CacheOk (moqcacheExpire c) appended ∧ Fresh (moqcacheExpire c) ∧
      (moqcacheExpire c).now = c.now := by
  rw [moqcacheExpire]
  split
  · rename_i hnow
    exact ⟨h, h.fresh_of_lt hnow, rfl⟩
  have hstart : Expires c.now c.recs [] :=
    { order := h.order
      tombs := List.Pairwise.nil
      dead := nofun
      newest := hexp
      above := nofun
      below := nofun }
  have hto := expireFuel_spec countP_le_length (append_nil _).symm hstart h.hint
  refine ⟨⟨hto.order, ?_, KeptBut.represents h.kept hto.represents, hto.hint⟩, hto.fresh, hto.now⟩
  intro r hr
  have hmin := (minExp_foldl_le (moqcacheExpireFuel c.recs.length c).recs (~~~0)).2 r hr
  obtain hr | ⟨v, hv, rfl⟩ := hto.represents.back r hr
  · exact { h.recs r hr with exp := fun _ => hmin }
  · exact moqcacheTomb_recOk (h.recs v hv).group _ _ _

end

theorem Fresh.expire_recs (h : Fresh c) : (moqcacheExpire c).recs = c.recs := by
  have hnone : c.recs.find? (moqcacheExpired c.now) = none := by
    rw [find?_eq_none]
    intro r hr
    rw [h r hr]
    exact Bool.false_ne_true
  rw [moqcacheExpire]
  split
  · rfl
  · cases c.recs.length with
    | zero => rfl
    | succ n => rw [moqcacheExpireFuel, hnone]

/-! ## The scan -/

theorem moqcacheAtOrAfter_iff :
    moqcacheAtOrAfter tag cur r = true ↔ r.tag = tag ∧ cur.pos ≤ (moqcacheRecLast r).pos := by
  rw [moqcacheAtOrAfter, Bool.and_eq_true, decide_eq_true_iff, Bool.not_eq_true',
    ← Bool.not_eq_true, moqctlLocLess_pos, not_lt]

/-- A scan that starts behind records that do not reach the Location finds the first that does. -/
theorem moqcacheScan_eq {off : Nat} (hoff : off ≤ c.recs.length)
    (hbefore : ∀ r ∈ c.recs.take off, moqcacheAtOrAfter tag cur r = false) :
    moqcacheScan c off tag cur = c.recs.findIdx (moqcacheAtOrAfter tag cur) := by
  have hnone : (c.recs.take off).findIdx (moqcacheAtOrAfter tag cur) = (c.recs.take off).length := by
    rw [findIdx_eq_length]
    exact hbefore
  conv_rhs => rw [← take_append_drop off c.recs, findIdx_append, hnone]
  rw [if_neg (lt_irrefl _), length_take, min_eq_left hoff, add_comm]
  rfl

theorem not_reached_of_mem_take {p : CacheRec → Bool}
    (hr : r ∈ recs.take (recs.findIdx p)) : p r = false := by
  obtain ⟨i, hi, rfl⟩ := mem_take_iff_getElem.mp hr
  rw [Nat.lt_min] at hi
  exact not_of_lt_findIdx hi.1

/-- What a lookup leaves behind, and the first record that reaches the Location. -/
structure Found (c c' : Moqcache) (appended : List Arrival) (tag : UInt64) (cur : Loc)
    (off : Nat) : Prop where
  ok : CacheOk c' appended
  fresh : Fresh c'
  recs : c'.recs = (moqcacheExpire c).recs
  reach : c'.recs[off]? = c'.recs.find? (moqcacheAtOrAfter tag cur)

theorem find_found {appended : List Arrival} (tag : UInt64) (cur : Loc)
    (h : CacheOk c appended) (hexp : ExpiryOk c.now c.recs) :
    Found c (moqcacheFind c tag cur).1 appended tag cur (moqcacheFind c tag cur).2 := by
  obtain ⟨hok, hfresh, -⟩ := expire_ok h hexp
  have hscan : moqcacheScan (moqcacheExpire c)
      (if moqcacheResumes (moqcacheExpire c) tag cur then (moqcacheExpire c).hintOff else 0) tag cur
        = (moqcacheExpire c).recs.findIdx (moqcacheAtOrAfter tag cur) := by
    split
    · rename_i hres
      rw [moqcacheResumes, Bool.and_eq_true, decide_eq_true_iff, Bool.not_eq_true',
        ← Bool.not_eq_true, moqctlLocLess_pos, Nat.not_lt] at hres
      apply moqcacheScan_eq hok.hint.1
      intro r hr
      rw [← Bool.not_eq_true, moqcacheAtOrAfter_iff]
      rintro ⟨htag, hle⟩
      have hbefore := hok.hint.2 r hr (htag.trans hres.1.symm)
      omega
    · apply moqcacheScan_eq (Nat.zero_le _)
      nofun
  have hfind : moqcacheFind c tag cur =
      ({ moqcacheExpire c with
          hintOff := (moqcacheExpire c).recs.findIdx (moqcacheAtOrAfter tag cur)
          hintTag := tag, hintCur := cur },
        (moqcacheExpire c).recs.findIdx (moqcacheAtOrAfter tag cur)) := by
    rw [moqcacheFind, hscan]
  rw [hfind]
  refine ⟨{ hok with hint := ⟨findIdx_le_length, ?_⟩ }, hfresh, rfl,
    find?_eq_getElem?_findIdx.symm⟩
  intro r hr htag
  have hnot := not_reached_of_mem_take hr
  rw [← Bool.not_eq_true, moqcacheAtOrAfter_iff] at hnot
  exact Nat.lt_of_not_le fun hle => hnot ⟨htag, hle⟩

end Wired.Moqt
