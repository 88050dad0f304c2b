import Mathlib.Data.List.Induction
import Wired.Lib.Word
import Wired.Lib.Window

/-!
# Closed streams

`wired_srvloop_closed` of `srvloop_closed.c` and `srvloop_pending.c`: the indexes of the closed
streams of one type. Every index below `floor` counts as closed, and the 1024 above it have a
bit each. Recording an index past the window slides the window up to it, and the indexes that
the window leaves behind count as closed from then on (`closedRun_spec`).
-/

namespace Wired.Server

open Lib List

/-- The base of the window and its words. -/
structure ClosedSet where
  floor : Nat
  bm : Nat → BitVec 64

def closedEmpty : ClosedSet where
  floor := 0
  bm := fun _ => 0

def closedBit (w : ClosedSet) (j : Nat) : Bool := (w.bm (j / 64) >>> (j % 64)).getLsbD 0

/-- The word that comes to stand at position `i` when the window slides by `k` words. -/
def shiftedWord64 (k : Nat) (bm : Nat → BitVec 64) (i : Nat) : BitVec 64 :=
  if k < 16 - i then bm (i + k) else 0#64

/-- The same for one index, with the carry from the next word. -/
def shiftedWord1 (bm : Nat → BitVec 64) (i : Nat) : BitVec 64 :=
  (bm i >>> 1) ||| (if i + 1 < 16 then bm (i + 1) <<< 63 else 0#64)

def srvloopClosedShift64 (w : ClosedSet) (k : Nat) : ClosedSet where
  floor := w.floor + 64 * k
  bm := (List.range 16).foldl (fun bm i => Function.update bm i (shiftedWord64 k bm i)) w.bm

def srvloopClosedShift1 (w : ClosedSet) : ClosedSet where
  floor := w.floor + 1
  bm := (List.range 16).foldl (fun bm i => Function.update bm i (shiftedWord1 bm i)) w.bm

/-- After 16 rounds every word is zero. -/
def closedAdvanceWords : Nat → ClosedSet → ClosedSet
  | 0, w => w
  | fuel + 1, w =>
    if w.bm 0 = ~~~0 then closedAdvanceWords fuel (srvloopClosedShift64 w 1) else w

/-- The first word has a zero bit here, which 63 rounds bring to the front. -/
def closedAdvanceBits : Nat → ClosedSet → ClosedSet
  | 0, w => w
  | fuel + 1, w =>
    if closedBit w 0 then closedAdvanceBits fuel (srvloopClosedShift1 w) else w

def srvloopClosedAdvance (w : ClosedSet) : ClosedSet :=
  closedAdvanceBits 64 (closedAdvanceWords 16 w)

def closedSet (w : ClosedSet) (j : Nat) : ClosedSet :=
  { w with bm := Function.update w.bm (j / 64) (w.bm (j / 64) ||| (1#64 <<< (j % 64))) }

def srvloopClosedMark (w : ClosedSet) (streamId : Nat) : ClosedSet :=
  let idx := streamId / 4
  if idx < w.floor then w
  else
    let w := if idx - w.floor ≥ 1024 then
        srvloopClosedShift64 w ((idx - w.floor - 1024) / 64 + 1)
      else w
    srvloopClosedAdvance (closedSet w (idx - w.floor))

/-- The index is below the window, or has its bit. -/
def closedIndex (w : ClosedSet) (idx : Nat) : Bool :=
  if idx < w.floor then true
  else if idx - w.floor ≥ 1024 then false
  else closedBit w (idx - w.floor)

/-- Whether a stream counts as closed. -/
def srvloopClosedHas (w : ClosedSet) (streamId : Nat) : Bool := closedIndex w (streamId / 4)

/-! ## Sliding -/

/-- `w'` is `w` with the window slid up by `n` indexes. -/
structure SlidBy (w w' : ClosedSet) (n : Nat) : Prop where
  floor : w'.floor = w.floor + n
  bit : ∀ j < 1024, closedBit w' j = (decide (j + n < 1024) && closedBit w (j + n))

theorem closedBit_eq (w : ClosedSet) (j : Nat) :
    closedBit w j = (w.bm (j / 64)).getLsbD (j % 64) := by
  simp [closedBit]

theorem shift64_slidBy (w : ClosedSet) (k : Nat) : SlidBy w (srvloopClosedShift64 w k) (64 * k) where
  floor := rfl
  bit := by
    intro j hj
    have hword : (srvloopClosedShift64 w k).bm (j / 64) = shiftedWord64 k w.bm (j / 64) := by
      apply (foldl_update_ascending (g := shiftedWord64 k) ?_ w.bm 16 (j / 64)).trans
      · exact if_pos (by omega)
      · intro m m' i hm
        simp only [shiftedWord64, hm _ (Nat.le_add_right i k)]
    rw [closedBit_eq, closedBit_eq, hword, shiftedWord64]
    by_cases hin : j + 64 * k < 1024
    · rw [if_pos (by omega), decide_eq_true hin, Bool.true_and,
        show (j + 64 * k) / 64 = j / 64 + k by omega, show (j + 64 * k) % 64 = j % 64 by omega]
    · rw [if_neg (by omega), decide_eq_false hin, Bool.false_and]
      simp

theorem shift1_slidBy (w : ClosedSet) : SlidBy w (srvloopClosedShift1 w) 1 where
  floor := rfl
  bit := by
    intro j hj
    have hword : (srvloopClosedShift1 w).bm (j / 64) = shiftedWord1 w.bm (j / 64) := by
      apply (foldl_update_ascending (g := shiftedWord1) ?_ w.bm 16 (j / 64)).trans
      · exact if_pos (by omega)
      · intro m m' i hm
        simp only [shiftedWord1, hm _ (Nat.le_refl i), hm _ (Nat.le_succ i)]
    rw [closedBit_eq, closedBit_eq, hword, shiftedWord1, BitVec.getLsbD_or,
      BitVec.getLsbD_ushiftRight]
    by_cases hlast : j % 64 = 63
    · -- the bit is carried over from the next word
      rw [hlast, BitVec.getLsbD_of_ge _ _ (by omega), Bool.false_or]
      by_cases hin : j + 1 < 1024
      · rw [if_pos (by omega), decide_eq_true hin, Bool.true_and,
          show (j + 1) / 64 = j / 64 + 1 by omega, show (j + 1) % 64 = 0 by omega]
        simp
      · rw [if_neg (by omega), decide_eq_false hin, Bool.false_and]
        simp
    · have hcarry : (if j / 64 + 1 < 16 then w.bm (j / 64 + 1) <<< 63 else 0#64).getLsbD
          (j % 64) = false := by
        split
        · rw [BitVec.getLsbD_shiftLeft, decide_eq_true (show j % 64 < 63 by omega)]
          simp
        · simp
      rw [hcarry, Bool.or_false, decide_eq_true (show j + 1 < 1024 by omega), Bool.true_and,
        show (j + 1) / 64 = j / 64 by omega, show (j + 1) % 64 = 1 + j % 64 by omega]

/-! ## What is recorded -/

variable {n : Nat} {w w' : ClosedSet} {ids : List Nat}

theorem closedIndex_slid (h : SlidBy w w' n) (idx : Nat) :
    closedIndex w' idx = (closedIndex w idx || decide (idx < w.floor + n)) := by
  unfold closedIndex
  rw [h.floor]
  by_cases hnew : idx < w.floor + n
  · rw [if_pos hnew, decide_eq_true hnew, Bool.or_true]
  · rw [if_neg hnew, if_neg (show ¬ idx < w.floor by omega), decide_eq_false hnew, Bool.or_false]
    by_cases hfar : idx - w.floor ≥ 1024
    · split
      · rfl
      · rw [h.bit _ (by omega), decide_eq_false (by omega), Bool.false_and]
    · rw [if_neg hfar, if_neg (by omega), h.bit _ (by omega), decide_eq_true (by omega),
        Bool.true_and, show idx - (w.floor + n) + n = idx - w.floor by omega]

/-- Sliding over indexes that are recorded anyway changes nothing. -/
theorem closedIndex_slid_of_closed (h : SlidBy w w' n)
    (hn : n ≤ 1024) (hbits : ∀ j < n, closedBit w j = true) (idx : Nat) :
    closedIndex w' idx = closedIndex w idx := by
  rw [closedIndex_slid h]
  by_cases hlt : idx < w.floor + n
  · have hclosed : closedIndex w idx = true := by
      unfold closedIndex
      split
      · rfl
      · rw [if_neg (by omega)]
        exact hbits _ (by omega)
    rw [hclosed, Bool.true_or]
  · rw [decide_eq_false hlt, Bool.or_false]

/-- Every round slides over indexes that are recorded. -/
theorem closedAdvance_invariant {P : ClosedSet → Prop}
    (hslide : ∀ w w' n, SlidBy w w' n → n ≤ 1024 → (∀ j < n, closedBit w j = true) → P w → P w')
    (h : P w) : P (srvloopClosedAdvance w) := by
  have hwords : ∀ fuel w, P w → P (closedAdvanceWords fuel w) := by
    intro fuel
    induction fuel with
    | zero => exact fun w h => h
    | succ fuel ih =>
      intro w h
      unfold closedAdvanceWords
      split
      · rename_i hones
        refine ih _ (hslide w _ _ (shift64_slidBy w 1) (by decide) ?_ h)
        intro j hj
        have hlt : j < 64 := by omega
        rw [closedBit_eq, Nat.div_eq_of_lt hlt, hones, Nat.mod_eq_of_lt hlt,
          BitVec.getLsbD_not, decide_eq_true hlt, Bool.true_and, BitVec.ofNat_eq_ofNat,
          BitVec.getLsbD_zero, Bool.not_false]
      · exact h
  have hbits : ∀ fuel w, P w → P (closedAdvanceBits fuel w) := by
    intro fuel
    induction fuel with
    | zero => exact fun w h => h
    | succ fuel ih =>
      intro w h
      unfold closedAdvanceBits
      split
      · rename_i hbit
        refine ih _ (hslide w _ _ (shift1_slidBy w) (by decide) ?_ h)
        intro j hj
        obtain rfl : j = 0 := by omega
        exact hbit
      · exact h
  exact hbits 64 _ (hwords 16 w h)

theorem srvloopClosedAdvance_index (w : ClosedSet) (idx : Nat) :
    closedIndex (srvloopClosedAdvance w) idx = closedIndex w idx := by
  apply closedAdvance_invariant (P := fun w' => closedIndex w' idx = closedIndex w idx) _ rfl
  intro w w' n hslid hn hbits h
  exact (closedIndex_slid_of_closed hslid hn hbits idx).trans h

theorem closedAdvance_floor_le (w : ClosedSet) : w.floor ≤ (srvloopClosedAdvance w).floor := by
  apply closedAdvance_invariant (P := fun w' => w.floor ≤ w'.floor) _ (Nat.le_refl _)
  intro w w' n hslid _ _ h
  rw [hslid.floor]
  exact Nat.le_trans h (Nat.le_add_right _ _)

theorem closedIndex_set (w : ClosedSet) {j : Nat} (hj : j < 1024) (idx : Nat) :
    closedIndex (closedSet w j) idx = (closedIndex w idx || decide (idx = w.floor + j)) := by
  unfold closedIndex
  change (if idx < w.floor then _ else if idx - w.floor ≥ 1024 then _ else _) = _
  by_cases hlow : idx < w.floor
  · rw [if_pos hlow, if_pos hlow, Bool.true_or]
  by_cases hfar : idx - w.floor ≥ 1024
  · rw [if_pos hfar, if_pos hfar, decide_eq_false (by omega), Bool.or_false]
  rw [if_neg hlow, if_neg hfar, if_neg hlow, if_neg hfar, closedBit_eq, closedBit_eq]
  simp only [closedSet]
  rw [Function.update_apply]
  by_cases hword : (idx - w.floor) / 64 = j / 64
  · have hbit : j % 64 = (idx - w.floor) % 64 ↔ idx = w.floor + j := by omega
    rw [if_pos hword, BitVec.getLsbD_or, hword,
      getLsbD_one_shiftLeft (Nat.mod_lt j (by decide)), decide_eq_decide.mpr hbit]
  · rw [if_neg hword, decide_eq_false (by rintro rfl; simp at hword), Bool.or_false]

/-- **Recording** keeps what is recorded, adds the index, and adds nothing else above the
floor. -/
theorem srvloopClosedMark_spec (w : ClosedSet) (id : Nat) :
    w.floor ≤ (srvloopClosedMark w id).floor ∧
      srvloopClosedHas (srvloopClosedMark w id) id = true ∧
      (∀ idx, closedIndex w idx = true → closedIndex (srvloopClosedMark w id) idx = true) ∧
      (∀ idx, closedIndex (srvloopClosedMark w id) idx = true →
        closedIndex w idx = true ∨ idx = id / 4 ∨
          (idx < (srvloopClosedMark w id).floor ∧ idx + 961 ≤ id / 4)) := by
  unfold srvloopClosedHas srvloopClosedMark
  dsimp only
  by_cases hlow : id / 4 < w.floor
  · rw [if_pos hlow]
    exact ⟨Nat.le_refl _, if_pos hlow, fun _ h => h, fun _ h => .inl h⟩
  rw [if_neg hlow]
  -- the window after the slide, if one is needed
  obtain ⟨n, w', hw', hslid, hin⟩ : ∃ n w', w' = (if id / 4 - w.floor ≥ 1024 then
      srvloopClosedShift64 w ((id / 4 - w.floor - 1024) / 64 + 1) else w) ∧ SlidBy w w' n ∧
      (n = 0 ∨ w.floor + n + 960 ≤ id / 4) ∧ id / 4 - (w.floor + n) < 1024 := by
    by_cases hfar : id / 4 - w.floor ≥ 1024
    · refine ⟨64 * ((id / 4 - w.floor - 1024) / 64 + 1), _, rfl, ?_, ?_, ?_⟩
      · rw [if_pos hfar]
        exact shift64_slidBy w _
      · omega
      · omega
    · refine ⟨0, _, rfl, ?_, .inl rfl, by omega⟩
      rw [if_neg hfar]
      exact ⟨rfl, fun j hj => by simp [hj]⟩
  rw [← hw']
  have hfloor := hslid.floor
  have hset := closedIndex_set w' (show id / 4 - w'.floor < 1024 by omega)
  have hmark : ∀ idx, closedIndex (srvloopClosedAdvance (closedSet w' (id / 4 - w'.floor))) idx =
      ((closedIndex w idx || decide (idx < w.floor + n)) || decide (idx = id / 4)) := by
    intro idx
    rw [srvloopClosedAdvance_index, hset, closedIndex_slid hslid,
      Nat.add_sub_cancel' (show w'.floor ≤ id / 4 by omega)]
  have hle := closedAdvance_floor_le (closedSet w' (id / 4 - w'.floor))
  change w'.floor ≤ _ at hle
  refine ⟨by omega, ?_, ?_, ?_⟩
  · rw [hmark]
    simp
  · intro idx h
    rw [hmark, h]
    simp
  · intro idx h
    rw [hmark, Bool.or_eq_true, Bool.or_eq_true, decide_eq_true_eq, decide_eq_true_eq] at h
    rcases h with (h | h) | h
    · exact .inl h
    · by_cases hbelow : idx < w.floor
      · exact .inl (if_pos hbelow)
      · exact .inr (.inr (by omega))
    · exact .inr (.inl h)

/-! ## Runs of marks -/

/-- The set after a sequence of marks. A query reads the set and leaves it as it is. -/
def closedRun (ids : List Nat) : ClosedSet := ids.foldl srvloopClosedMark closedEmpty

theorem closedRun_snoc (ids : List Nat) (id : Nat) :
    closedRun (ids ++ [id]) = srvloopClosedMark (closedRun ids) id :=
  foldl_append.trans rfl

theorem closedRun_marked {id : Nat} (h : id ∈ ids) :
    srvloopClosedHas (closedRun ids) id = true := by
  induction ids using List.reverseRecOn with
  | nil => cases h
  | append_singleton ids last ih =>
    obtain ⟨-, hlast, hkeep, -⟩ := srvloopClosedMark_spec (closedRun ids) last
    rw [closedRun_snoc]
    rcases mem_append.mp h with h | h
    · exact hkeep _ (ih h)
    · rwa [mem_singleton.mp h]

/-- One of the marks moved the base past the index, and is at least `gap` above it. -/
def MovedPast (gap : Nat) (ids : List Nat) (idx : Nat) : Prop :=
  ∃ before id after, ids = before ++ id :: after ∧ (closedRun before).floor ≤ idx ∧
    idx < (closedRun (before ++ [id])).floor ∧ idx + gap ≤ id / 4

theorem closedRun_unmarked {idx : Nat} (h : closedIndex (closedRun ids) idx = true) :
    (∃ id ∈ ids, id / 4 = idx) ∨ MovedPast 961 ids idx := by
  induction ids using List.reverseRecOn with
  | nil =>
    have hempty : closedIndex closedEmpty idx = false := by
      simp [closedIndex, closedEmpty, closedBit]
    exact Bool.noConfusion (hempty.symm.trans h)
  | append_singleton ids last ih =>
    obtain ⟨-, -, -, hnew⟩ := srvloopClosedMark_spec (closedRun ids) last
    rw [closedRun_snoc] at h
    by_cases hold : closedIndex (closedRun ids) idx = true
    · rcases ih hold with ⟨id, hid, he⟩ | ⟨before, id, after, rfl, hmoved⟩
      · exact .inl ⟨id, mem_append_left _ hid, he⟩
      · exact .inr ⟨before, id, after ++ [last], by simp, hmoved⟩
    · rcases (hnew idx h).resolve_left hold with rfl | ⟨hbelow, hfar⟩
      · exact .inl ⟨last, by simp, rfl⟩
      · refine .inr ⟨ids, last, [], rfl, ?_, by rwa [closedRun_snoc], hfar⟩
        exact Nat.le_of_not_lt fun hlt => hold (if_pos hlt)

/-- A marked stream is closed in every later query. Another one is closed only if its index is below
the base since a mark at least 961 indexes higher: the window is moved by whole words. -/
theorem closedRun_spec (ids : List Nat) (id : Nat) :
    (id ∈ ids → srvloopClosedHas (closedRun ids) id = true) ∧
      (srvloopClosedHas (closedRun ids) id = true → (∀ m ∈ ids, m / 4 ≠ id / 4) →
        MovedPast 961 ids (id / 4)) := by
  refine ⟨closedRun_marked, fun h hnone => ?_⟩
  rcases closedRun_unmarked h with ⟨m, hm, he⟩ | hmoved
  · exact absurd he (hnone m hm)
  · exact hmoved

/-- The mark of index 1024 closes index 63. -/
theorem closedRun_below_word :
    srvloopClosedHas (closedRun [4096]) 252 = true ∧ (∀ m ∈ [4096], m / 4 ≠ 252 / 4) ∧
      ¬ MovedPast 1024 [4096] (252 / 4) := by
  refine ⟨by decide, by decide, ?_⟩
  rintro ⟨before, id, after, he, -, -, hgap⟩
  have hid : id ∈ [4096] := he ▸ mem_append_right before mem_cons_self
  rw [mem_singleton.mp hid] at hgap
  omega

end Wired.Server
