import Mathlib.Data.List.Induction
import Wired.Lib.Word

/-!
# Request IDs

`moqtrun_rid_win.c` and `moqtrun_rid_fresh` of `moqtrun_rid.c`: a client numbers its requests with
even IDs, and an ID that was used before closes the session. `peer_rid_base` is the first ID of a
window of 64; IDs below it count as used. An ID past the window slides it up, and the base then
moves past the used IDs it has come to.

The base is counted in 64 bits. Once the 64 highest IDs were all used it wraps around to 0, and
every ID is taken again (`ridRun_once_iff`).
-/

namespace Wired.Moqt

open Lib List

/-- `peer_rid_*`, and the server's own next ID. -/
structure RidPeer where
  ridNext : UInt64
  ridBase : UInt64
  ridSeen : BitVec 64

def moqtrunRidSlot (p : RidPeer) (rid : UInt64) : RidPeer × Nat :=
  let k := (rid - p.ridBase) / 2
  if k < 64 then (p, k.toNat)
  else
    let by_ := k - 63
    ({ p with
        ridSeen := if by_ < 64 then p.ridSeen >>> by_.toNat else 0
        ridBase := p.ridBase + by_ * 2 }, 63)

def ridSettleFuel : Nat → RidPeer → RidPeer
  | 0, p => p
  | fuel + 1, p =>
    if p.ridSeen.getLsbD 0 then
      ridSettleFuel fuel { p with ridSeen := p.ridSeen >>> 1, ridBase := p.ridBase + 2 }
    else p

/-- After 64 rounds no bit is left. -/
def moqtrunRidSettle (p : RidPeer) : RidPeer := ridSettleFuel 64 p

def moqtrunRidRepeat (p : RidPeer) (rid : UInt64) : RidPeer × Bool :=
  if rid < p.ridBase then (p, true)
  else
    let (p, k) := moqtrunRidSlot p rid
    if (p.ridSeen >>> k).getLsbD 0 then (p, true)
    else (moqtrunRidSettle { p with ridSeen := p.ridSeen ||| 1#64 <<< k }, false)

def moqtrunRidBad (p : RidPeer) (rid : UInt64) : RidPeer × Bool :=
  if rid &&& 1 ≠ 0 then (p, true) else moqtrunRidRepeat p rid

/-- Whether a message is passed on. One without an ID that decodes has none to check. -/
def moqtrunRidFresh (p : RidPeer) : Option UInt64 → RidPeer × Bool
  | none => (p, true)
  | some rid =>
    let (p, bad) := moqtrunRidBad p rid
    if bad then (p, false)
    else
      let next := if rid.toNat + 2 < 2 ^ 64 then rid + 2 else ~~~0
      ({ p with ridNext := if p.ridNext < next then next else p.ridNext }, true)

/-! ## One ID -/

variable {p : RidPeer} {rid : UInt64}

/-- An ID is refused below the window or where its bit is set. Otherwise the window slides by `n`
IDs, the last one being that of `rid` if it slides at all. -/
theorem ridRepeat_cases (hbase : p.ridBase.toNat % 2 = 0) (hrid : rid.toNat % 2 = 0) :
    (moqtrunRidRepeat p rid = (p, true) ∧ (p.ridBase.toNat ≤ rid.toNat →
        ∃ i, rid.toNat = p.ridBase.toNat + 2 * i ∧ p.ridSeen.getLsbD i = true)) ∨
      ∃ n k base, k < 64 ∧ base.toNat = p.ridBase.toNat + 2 * n ∧
        rid.toNat = base.toNat + 2 * k ∧ (n = 0 ∨ k = 63) ∧
        p.ridSeen.getLsbD (n + k) = false ∧
        moqtrunRidRepeat p rid = (moqtrunRidSettle
          { p with ridSeen := p.ridSeen >>> n ||| 1#64 <<< k, ridBase := base }, false) := by
  have hlt := rid.toNat_lt
  unfold moqtrunRidRepeat
  by_cases hlow : rid < p.ridBase
  · rw [if_pos hlow]
    have hnat := UInt64.lt_iff_toNat_lt.mp hlow
    exact .inl ⟨rfl, fun hle => by omega⟩
  have hle := UInt64.le_iff_toNat_le.mp (UInt64.not_lt.mp hlow)
  rw [if_neg hlow, moqtrunRidSlot]
  have hk : ((rid - p.ridBase) / 2).toNat = (rid.toNat - p.ridBase.toNat) / 2 := by
    rw [UInt64.toNat_div, UInt64.toNat_sub_of_le _ _ (UInt64.not_lt.mp hlow)]
    rfl
  generalize (rid - p.ridBase) / 2 = k at hk ⊢
  dsimp only
  by_cases hin : k < 64
  · have hk64 : k.toNat < 64 := UInt64.lt_iff_toNat_lt.mp hin
    rw [if_pos hin]
    rw [BitVec.getLsbD_ushiftRight, Nat.add_zero]
    cases hbit : p.ridSeen.getLsbD k.toNat with
    | true => exact .inl ⟨rfl, fun _ => ⟨k.toNat, by omega, hbit⟩⟩
    | false => exact .inr ⟨0, k.toNat, p.ridBase, hk64, rfl, by omega, .inl rfl, by simpa, rfl⟩
  · have hk64 : 64 ≤ k.toNat := UInt64.le_iff_toNat_le.mp (UInt64.not_lt.mp hin)
    have hby : (k - 63).toNat = k.toNat - 63 :=
      UInt64.toNat_sub_of_le _ _ (UInt64.le_iff_toNat_le.mpr (Nat.le_trans (by decide) hk64))
    have hbits : (if k - 63 < 64 then p.ridSeen >>> (k - 63).toNat else 0) =
        p.ridSeen >>> (k - 63).toNat := by
      split
      · rfl
      · rename_i hfar
        have hge : 64 ≤ (k - 63).toNat := UInt64.le_iff_toNat_le.mp (UInt64.not_lt.mp hfar)
        exact (BitVec.ushiftRight_eq_zero hge).symm
    rw [if_neg hin, hbits]
    have hnone : p.ridSeen.getLsbD ((k - 63).toNat + 63) = false :=
      BitVec.getLsbD_of_ge _ _ (by omega)
    rw [BitVec.getLsbD_ushiftRight, BitVec.getLsbD_ushiftRight, Nat.add_zero, hnone]
    have hbase' : (p.ridBase + (k - 63) * 2).toNat = p.ridBase.toNat + 2 * (k - 63).toNat := by
      rw [UInt64.toNat_add, UInt64.toNat_mul, hby]
      change (_ + (k.toNat - 63) * 2 % 2 ^ 64) % 2 ^ 64 = _
      omega
    exact .inr ⟨(k - 63).toNat, 63, _, by decide, hbase', by omega, .inr rfl, hnone, rfl⟩

/-! ## The window -/

/-- The first of the 64 highest IDs. -/
def lastWindow : Nat := 2 ^ 64 - 128

/-- The window of an unbounded base over the used IDs. None of the highest was left behind unused: a
slide ends at the ID that was asked for. -/
structure Marks (base : Nat) (seen : BitVec 64) (used : List UInt64) : Prop where
  even : base % 2 = 0
  le : base ≤ 2 ^ 64
  known : ∀ rid ∈ used, base ≤ rid.toNat → ∃ i, rid.toNat = base + 2 * i ∧ seen.getLsbD i = true
  marked : ∀ i, seen.getLsbD i = true → ∃ rid ∈ used, rid.toNat = base + 2 * i
  passed : ∀ n, n % 2 = 0 → lastWindow ≤ n → n < base → ∃ rid ∈ used, rid.toNat = n

section

variable {base n k : Nat} {seen : BitVec 64} {used : List UInt64}

theorem Marks.slide (h : Marks base seen used) (hle : base + 2 * n ≤ 2 ^ 64)
    (hpassed : ∀ m, m % 2 = 0 → lastWindow ≤ m → base ≤ m → m < base + 2 * n →
      ∃ rid ∈ used, rid.toNat = m) : Marks (base + 2 * n) (seen >>> n) used where
  even := by
    have := h.even
    omega
  le := hle
  known := by
    intro rid hrid hge
    obtain ⟨i, hi, hbit⟩ := h.known rid hrid (by omega)
    refine ⟨i - n, by omega, ?_⟩
    rwa [BitVec.getLsbD_ushiftRight, show n + (i - n) = i by omega]
  marked := by
    intro i hbit
    rw [BitVec.getLsbD_ushiftRight] at hbit
    obtain ⟨rid, hrid, he⟩ := h.marked _ hbit
    exact ⟨rid, hrid, by omega⟩
  passed := by
    intro m hm hlast hlt
    by_cases hold : m < base
    · exact h.passed m hm hlast hold
    · exact hpassed m hm hlast (Nat.le_of_not_lt hold) hlt

theorem Marks.mark (h : Marks base seen used) (hk : k < 64) (hrid : rid.toNat = base + 2 * k) :
    Marks base (seen ||| 1#64 <<< k) (rid :: used) := by
  have hbit : ∀ i, (seen ||| 1#64 <<< k).getLsbD i = (seen.getLsbD i || decide (k = i)) := by
    intro i
    rw [BitVec.getLsbD_or, getLsbD_one_shiftLeft hk]
  refine ⟨h.even, h.le, ?_, ?_, fun m hm hlast hlt => ?_⟩
  · rw [forall_mem_cons]
    refine ⟨fun _ => ⟨k, hrid, by simp [hbit]⟩, fun r hr hge => ?_⟩
    obtain ⟨i, hi, hi'⟩ := h.known r hr hge
    exact ⟨i, hi, by rw [hbit, hi', Bool.true_or]⟩
  · intro i hi
    rw [hbit, Bool.or_eq_true, decide_eq_true_eq] at hi
    obtain hi | rfl := hi
    · obtain ⟨r, hr, he⟩ := h.marked i hi
      exact ⟨r, mem_cons_of_mem _ hr, he⟩
    · exact ⟨rid, mem_cons_self, hrid⟩
  · obtain ⟨r, hr, he⟩ := h.passed m hm hlast hlt
    exact ⟨r, mem_cons_of_mem _ hr, he⟩

theorem Marks.settle (fuel : Nat) (h : Marks base p.ridSeen used)
    (hbase : p.ridBase = UInt64.ofNat base) :
    ∃ base', (ridSettleFuel fuel p).ridBase = UInt64.ofNat base' ∧
      Marks base' (ridSettleFuel fuel p).ridSeen used := by
  induction fuel generalizing p base with
  | zero => exact ⟨base, hbase, h⟩
  | succ fuel ih =>
    rw [ridSettleFuel]
    split
    · rename_i hbit
      obtain ⟨rid, hrid, he⟩ := h.marked 0 hbit
      have hlt := rid.toNat_lt
      have heven := h.even
      have hnext := h.slide (n := 1) (by omega) fun m hm _ hge hm' => ⟨rid, hrid, by omega⟩
      exact ih hnext (by rw [hbase, UInt64.ofNat_add]; rfl)
    · exact ⟨base, hbase, h⟩

end

theorem ridSettle_settled (p : RidPeer) : (moqtrunRidSettle p).ridSeen.getLsbD 0 = false := by
  have hrounds : ∀ fuel p, (ridSettleFuel fuel p).ridSeen.getLsbD 0 = false ∨
      (ridSettleFuel fuel p).ridSeen = p.ridSeen >>> fuel := by
    intro fuel
    induction fuel with
    | zero => exact fun p => .inr (BitVec.ushiftRight_zero p.ridSeen).symm
    | succ fuel ih =>
      intro p
      rw [ridSettleFuel]
      split
      · refine (ih _).imp_right fun h => h.trans ?_
        rw [← BitVec.shiftRight_add, add_comm]
      · exact .inl (Bool.eq_false_iff.mpr ‹_›)
  obtain h | h := hrounds 64 p
  · exact h
  · rw [moqtrunRidSettle, h, BitVec.getLsbD_ushiftRight]
    exact BitVec.getLsbD_of_ge _ _ (Nat.le_refl 64)

/-! ## Runs -/

/-- The peer's window, and the IDs that were accepted so far. -/
structure RidRun where
  peer : RidPeer
  accepted : List UInt64

def ridStep (s : RidRun) (rid : UInt64) : RidRun :=
  let (peer, fresh) := moqtrunRidFresh s.peer (some rid)
  ⟨peer, if fresh then rid :: s.accepted else s.accepted⟩

/-- The IDs one after the other, from the start of a session. -/
def ridRun (rids : List UInt64) : RidRun := rids.foldl ridStep ⟨⟨0, 0, 0⟩, []⟩

/-- All of the 64 highest IDs. -/
def LastUsed (used : List UInt64) : Prop :=
  ∀ n, n % 2 = 0 → lastWindow ≤ n → n < 2 ^ 64 → ∃ rid ∈ used, rid.toNat = n

/-- The window marks the IDs that were accepted since the base was 0 the last time. -/
structure RidInv (s : RidRun) : Prop where
  settled : s.peer.ridSeen.getLsbD 0 = false
  since : ∃ used, used ⊆ s.accepted ∧ Marks s.peer.ridBase.toNat s.peer.ridSeen used ∧
    (used = s.accepted ∨ LastUsed s.accepted)

theorem LastUsed.mono {used used' : List UInt64} (h : LastUsed used) (hsub : used ⊆ used') :
    LastUsed used' := by
  intro n hn hlast hlt
  obtain ⟨rid, hrid, he⟩ := h n hn hlast hlt
  exact ⟨rid, hsub hrid, he⟩

theorem and_one_eq_zero_iff (rid : UInt64) : rid &&& 1 = 0 ↔ rid.toNat % 2 = 0 := by
  rw [← UInt64.toNat_inj, UInt64.toNat_and]
  change rid.toNat &&& 1 = 0 ↔ _
  rw [Nat.and_one_is_mod]

theorem ridFresh_even (h : rid.toNat % 2 = 0) :
    (moqtrunRidFresh p (some rid)).2 = !(moqtrunRidRepeat p rid).2 := by
  rw [moqtrunRidFresh, moqtrunRidBad, if_neg (not_not.mpr ((and_one_eq_zero_iff rid).mpr h))]
  dsimp only
  cases (moqtrunRidRepeat p rid).2 <;> rfl

theorem RidInv.step {s : RidRun} (h : RidInv s) (rid : UInt64) : RidInv (ridStep s rid) := by
  obtain ⟨used, hsub, hmarks, hall⟩ := h.since
  rw [ridStep, moqtrunRidFresh, moqtrunRidBad]
  by_cases hodd : rid &&& 1 ≠ 0
  · rw [if_pos hodd]
    exact h
  have heven := (and_one_eq_zero_iff rid).mp (not_not.mp hodd)
  rw [if_neg hodd]
  obtain ⟨hbad, -⟩ | ⟨n, k, base, hk, hbase, hrid, hslid, -, hok⟩ :=
    ridRepeat_cases hmarks.even heven
  · rw [hbad]
    exact h
  have hlt := rid.toNat_lt
  have hslide : Marks (s.peer.ridBase.toNat + 2 * n) (s.peer.ridSeen >>> n) used := by
    apply hmarks.slide (by omega)
    intro m _ hlast hge hm
    -- a slide leaves the base at or below the last window
    rw [lastWindow] at hlast
    omega
  obtain ⟨base', hbase', hsettled⟩ :=
    Marks.settle (p := { s.peer with
      ridSeen := s.peer.ridSeen >>> n ||| 1#64 <<< k, ridBase := base }) 64
      ((hbase ▸ hslide).mark hk hrid) (UInt64.ofNat_toNat).symm
  rw [hok]
  have hsub' : rid :: used ⊆ rid :: s.accepted := cons_subset_cons rid hsub
  refine ⟨ridSettle_settled _, ?_⟩
  rw [moqtrunRidSettle]
  dsimp only
  rw [if_neg Bool.false_ne_true, if_pos rfl, hbase']
  by_cases hwrap : base' = 2 ^ 64
  · -- no ID is left for a bit of the window
    subst hwrap
    have hlast : LastUsed (rid :: used) := hsettled.passed
    refine ⟨[], nil_subset _, ?_, .inr (hlast.mono hsub')⟩
    have hnone : ∀ i, (ridSettleFuel 64 { s.peer with
        ridSeen := s.peer.ridSeen >>> n ||| 1#64 <<< k, ridBase := base }).ridSeen.getLsbD i ≠
          true := by
      intro i hi
      obtain ⟨r, -, he⟩ := hsettled.marked i hi
      have := r.toNat_lt
      omega
    exact ⟨rfl, Nat.zero_le _, by simp, fun i hi => absurd hi (hnone i), fun m _ _ hm => by
      cases hm⟩
  · have hle := hsettled.le
    refine ⟨rid :: used, hsub', ?_, ?_⟩
    · rwa [UInt64.toNat_ofNat_of_lt' (show base' < 2 ^ 64 by omega)]
    · exact hall.imp (fun he => by rw [he]) fun hlast => hlast.mono (subset_cons_self _ _)

theorem ridRun_inv (rids : List UInt64) : RidInv (ridRun rids) := by
  induction rids using List.reverseRecOn with
  | nil =>
    refine ⟨rfl, [], nil_subset _, ⟨rfl, Nat.zero_le _, by simp, ?_, ?_⟩, .inl rfl⟩
    · intro i hi
      simp [ridRun] at hi
    · intro m _ _ hm
      cases hm
  | append_singleton rids rid ih =>
    rw [ridRun, foldl_append]
    exact ih.step rid

/-- A window that reaches up to the last one still takes the highest ID, a later one its own base.
-/
theorem RidInv.exists_fresh {s : RidRun} (h : RidInv s) (hlast : LastUsed s.accepted) :
    ∃ rid ∈ s.accepted, (moqtrunRidFresh s.peer (some rid)).2 = true := by
  obtain ⟨used, -, hmarks, -⟩ := h.since
  have hbase := hmarks.even
  have hlt := s.peer.ridBase.toNat_lt
  obtain ⟨i, hi, hfree, htop⟩ : ∃ i, s.peer.ridSeen.getLsbD i = false ∧
      lastWindow ≤ s.peer.ridBase.toNat + 2 * i ∧ s.peer.ridBase.toNat + 2 * i < 2 ^ 64 := by
    rw [lastWindow]
    by_cases hlow : s.peer.ridBase.toNat < 2 ^ 64 - 128
    · exact ⟨(2 ^ 64 - 2 - s.peer.ridBase.toNat) / 2, BitVec.getLsbD_of_ge _ _ (by omega),
        by omega, by omega⟩
    · exact ⟨0, h.settled, by omega, by omega⟩
  obtain ⟨rid, hmem, hrid⟩ := hlast _ (by omega) hfree htop
  have heven : rid.toNat % 2 = 0 := by omega
  refine ⟨rid, hmem, ?_⟩
  rw [ridFresh_even heven]
  obtain ⟨-, hbit⟩ | ⟨n, k, base, -, -, -, -, -, hok⟩ := ridRepeat_cases hbase heven
  · obtain ⟨j, hj, hset⟩ := hbit (by omega)
    rw [show j = i by omega, hi] at hset
    cases hset
  · rw [hok]
    rfl

theorem RidInv.refused {s : RidRun} (h : RidInv s) (hlast : ¬ LastUsed s.accepted)
    {rid : UInt64} (hmem : rid ∈ s.accepted) :
    (moqtrunRidFresh s.peer (some rid)).2 = false := by
  obtain ⟨used, -, hmarks, hall⟩ := h.since
  obtain rfl := hall.resolve_right hlast
  by_cases heven : rid.toNat % 2 = 0
  · rw [ridFresh_even heven]
    obtain ⟨hbad, -⟩ | ⟨n, k, base, -, hbase, hrid, -, hfree, -⟩ :=
      ridRepeat_cases hmarks.even heven
    · rw [hbad]
      rfl
    · obtain ⟨i, hi, hset⟩ := hmarks.known rid hmem (by omega)
      rw [show i = n + k by omega, hfree] at hset
      cases hset
  · have hodd : rid &&& 1 ≠ 0 := fun h0 => heven ((and_one_eq_zero_iff rid).mp h0)
    rw [moqtrunRidFresh, moqtrunRidBad, if_pos hodd]
    rfl

/-- The IDs that were accepted are refused from then on until the 64 highest IDs are among them. One
of them is then accepted again. -/
theorem ridRun_once_iff (rids : List UInt64) :
    (∀ rid ∈ (ridRun rids).accepted,
        (moqtrunRidFresh (ridRun rids).peer (some rid)).2 = false) ↔
      ¬ LastUsed (ridRun rids).accepted := by
  constructor
  · intro honce hlast
    obtain ⟨rid, hmem, hfresh⟩ := (ridRun_inv rids).exists_fresh hlast
    rw [honce rid hmem] at hfresh
    cases hfresh
  · intro hlast rid hmem
    exact (ridRun_inv rids).refused hlast hmem

/-- The highest ID, and then the others of the last window from below. -/
def lastIds : List UInt64 :=
  (0 - 2) :: (List.range 63).map fun i => 0 - UInt64.ofNat (128 - 2 * i)

/-- After the 64 highest IDs the highest is taken again. -/
theorem ridRun_highest_again : 0 - 2 ∈ (ridRun lastIds).accepted ∧
    (moqtrunRidFresh (ridRun lastIds).peer (some (0 - 2))).2 = true := by
  decide +kernel

end Wired.Moqt
