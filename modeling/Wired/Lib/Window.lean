import Mathlib.Data.List.Basic
import Mathlib.Logic.Function.Basic

/-!
# Receive windows

A window shows a stream through `cap` cells: cell `i` is for the element at offset `base + i`,
and is marked when that element has arrived. `WindowHolds` says that the marked cells hold the
elements of the stream. It is kept when an element is put in its cell and when the window
slides; the cells before the first unmarked one are a piece of the stream
(`WindowHolds.contents`), however the elements arrived.
-/

namespace Wired.Lib

open List Function

variable {ε : Type*}

/-! ## Loops that rewrite an array in place -/

/-- A loop that writes ascending positions from cells it has not reached yet leaves what reading the
old array everywhere would. -/
theorem foldl_update_ascending {g : (Nat → ε) → Nat → ε}
    (hg : ∀ m m' k, (∀ j, k ≤ j → m j = m' j) → g m k = g m' k) (m : Nat → ε) (n i : Nat) :
    (List.range n).foldl (fun m k => update m k (g m k)) m i =
      if i < n then g m i else m i := by
  induction n generalizing i with
  | zero => rfl
  | succ n ih =>
    rw [range_succ, foldl_append, foldl_cons, foldl_nil, update_apply]
    split
    · subst i
      rw [if_pos (Nat.lt_succ_self n)]
      refine hg _ _ n fun j hj => ?_
      rw [ih, if_neg (by omega)]
    · rw [ih]
      have : i < n + 1 ↔ i < n := by omega
      simp only [this]

variable {n i cap k off len : Nat} {mark mark' : Nat → Bool} {fin : Bool}

/-- The loop that moves `n` cells down by `k`. -/
theorem foldl_moveDown (m : Nat → ε) (k : Nat) (hi : i < n) :
    (List.range n).foldl (fun m i => update m i (m (i + k))) m i = m (i + k) := by
  have hread : ∀ (m m' : Nat → ε) (j : Nat), (∀ i, j ≤ i → m i = m' i) → m (j + k) = m' (j + k) :=
    fun m m' j hm => hm _ (Nat.le_add_right j k)
  exact (foldl_update_ascending (g := fun m i => m (i + k)) hread m n i).trans (if_pos hi)

def writeCells (cells : Nat → ε) : Nat → List ε → Nat → ε
  | _, [] => cells
  | off, x :: xs => writeCells (update cells off x) (off + 1) xs

theorem writeCells_apply (cells : Nat → ε) (off : Nat) (xs : List ε) (i : Nat) :
    writeCells cells off xs i =
      if off ≤ i then (xs[i - off]?).getD (cells i) else cells i := by
  induction xs generalizing cells off with
  | nil => simp [writeCells]
  | cons x xs ih =>
    rw [writeCells, ih, update_apply]
    rcases Nat.lt_trichotomy i off with hlt | rfl | hgt
    · rw [if_neg (by omega), if_neg (by omega), if_neg (by omega)]
    · rw [if_neg (by omega), if_pos rfl, if_pos (Nat.le_refl _), Nat.sub_self]
      rfl
    · obtain ⟨k, rfl⟩ : ∃ k, i = off + (k + 1) := ⟨i - off - 1, by omega⟩
      have hne : off + (k + 1) ≠ off := by omega
      have hge : off + 1 ≤ off + (k + 1) := by omega
      rw [if_pos hge, if_neg hne, if_pos (Nat.le_add_right _ _), Nat.add_sub_cancel_left,
        show off + (k + 1) - (off + 1) = k by omega, getElem?_cons_succ]

theorem getElem?_of_prefix_drop {xs stream : List ε} {j : Nat} {x : ε} (h : xs <+: stream.drop off)
    (hx : xs[j]? = some x) : stream[off + j]? = some x := by
  obtain ⟨hj, rfl⟩ := List.getElem?_eq_some_iff.mp hx
  rw [← getElem?_drop, prefix_iff_getElem?.mp h j hj]

/-! ## Leading marks -/

def leadingFrom (mark : Nat → Bool) : Nat → Nat → Nat
  | 0, n => n
  | fuel + 1, n => if mark n then leadingFrom mark fuel (n + 1) else n

def leading (mark : Nat → Bool) (cap : Nat) : Nat := leadingFrom mark cap 0

theorem leadingFrom_spec (mark : Nat → Bool) (fuel n : Nat) :
    n ≤ leadingFrom mark fuel n ∧ leadingFrom mark fuel n ≤ n + fuel ∧
      (∀ i, n ≤ i → i < leadingFrom mark fuel n → mark i = true) ∧
      (leadingFrom mark fuel n < n + fuel → mark (leadingFrom mark fuel n) = false) := by
  induction fuel generalizing n with
  | zero =>
    refine ⟨Nat.le_refl _, Nat.le_refl _, fun i h1 h2 => ?_, fun h => ?_⟩
    · exact absurd h2 (Nat.not_lt.mpr h1)
    · exact absurd h (Nat.lt_irrefl _)
  | succ fuel ih =>
    unfold leadingFrom
    split
    · rename_i hn
      obtain ⟨hle, hle', hall, hstop⟩ := ih (n + 1)
      refine ⟨by omega, by omega, fun i h1 h2 => ?_, fun h => hstop (by omega)⟩
      rcases Nat.eq_or_lt_of_le h1 with rfl | hlt
      · exact hn
      · exact hall i hlt h2
    · rename_i hn
      refine ⟨Nat.le_refl _, by omega, fun i h1 h2 => ?_, fun _ => by simpa using hn⟩
      exact absurd h2 (Nat.not_lt.mpr h1)

theorem leading_le (mark : Nat → Bool) (cap : Nat) : leading mark cap ≤ cap := by
  have := (leadingFrom_spec mark cap 0).2.1
  rwa [Nat.zero_add] at this

theorem mark_of_lt_leading (h : i < leading mark cap) : mark i = true :=
  (leadingFrom_spec mark cap 0).2.2.1 i (Nat.zero_le i) h

theorem mark_leading (h : leading mark cap < cap) : mark (leading mark cap) = false :=
  (leadingFrom_spec mark cap 0).2.2.2 (by rwa [Nat.zero_add])

theorem le_leading (hn : n ≤ cap) (hall : ∀ i < n, mark i = true) : n ≤ leading mark cap := by
  by_contra hlt
  have hstop : mark (leading mark cap) = false := mark_leading (by omega)
  rw [hall _ (by omega)] at hstop
  cases hstop

theorem leading_eq (hn : n ≤ cap)
    (hall : ∀ i < n, mark i = true) (hstop : n < cap → mark n = false) :
    leading mark cap = n := by
  apply Nat.le_antisymm
  · by_contra hlt
    have hcap := leading_le mark cap
    have hm : mark n = true := mark_of_lt_leading (Nat.not_le.mp hlt)
    rw [hstop (by omega)] at hm
    cases hm
  · exact le_leading hn hall

theorem leading_congr (h : ∀ i < cap, mark i = mark' i) : leading mark cap = leading mark' cap := by
  have hcap := leading_le mark' cap
  refine leading_eq hcap (fun i hi => ?_) fun hlt => ?_
  · rw [h i (by omega), mark_of_lt_leading hi]
  · rw [h _ hlt, mark_leading hlt]

/-- A walk that goes on from a position below which everything is marked. -/
theorem leadingFrom_eq_leading (hn : n ≤ cap) (hall : ∀ i < n, mark i = true) :
    leadingFrom mark (cap - n) n = leading mark cap := by
  obtain ⟨hge, hle, hmark, hstop⟩ := leadingFrom_spec mark (cap - n) n
  refine (leading_eq (by omega) (fun i hi => ?_) fun hlt => hstop (by omega)).symm
  rcases Nat.lt_or_ge i n with h | h
  · exact hall i h
  · exact hmark i h hi

/-- Sliding by marked positions takes them off the front. -/
theorem leading_shift (hn : n ≤ leading mark cap)
    (hmark : ∀ i < cap, mark' i = (decide (i + n < cap) && mark (i + n))) :
    leading mark' cap = leading mark cap - n := by
  have hcap := leading_le mark cap
  apply leading_eq (by omega)
  · intro i hi
    have hlt : i + n < leading mark cap := by omega
    have hm := mark_of_lt_leading hlt
    rw [hmark i (by omega), decide_eq_true (by omega), hm]
    rfl
  · intro hlt
    rw [hmark _ hlt, Nat.sub_add_cancel hn]
    by_cases hfull : leading mark cap < cap
    · rw [mark_leading hfull, Bool.and_false]
    · rw [decide_eq_false hfull, Bool.false_and]

/-! ## Windows over a stream -/

def readCells (cells : Nat → ε) (n : Nat) : List ε := (List.range n).map cells

@[simp] theorem readCells_length (cells : Nat → ε) (n : Nat) :
    (readCells cells n).length = n := by simp [readCells]

theorem readCells_take (cells : Nat → ε) (h : k ≤ n) :
    (readCells cells n).take k = readCells cells k := by
  rw [readCells, ← map_take, take_range, Nat.min_eq_left h, readCells]

/-- The marked cells hold the elements of the stream at their offsets. -/
def WindowHolds (stream : List ε) (base cap : Nat) (cells : Nat → ε) (mark : Nat → Bool) : Prop :=
  ∀ i < cap, mark i = true → stream[base + i]? = some (cells i)

namespace WindowHolds

variable {stream : List ε} {base : Nat} {cells : Nat → ε}
  (h : WindowHolds stream base cap cells mark)

include h

theorem put {x : ε} (hx : stream[base + i]? = some x)
    (hmark : ∀ j < cap, mark' j = true → j = i ∨ mark j = true) :
    WindowHolds stream base cap (update cells i x) mark' := by
  intro j hj hm
  rw [update_apply]
  split
  · subst j
    exact hx
  · rename_i hne
    exact h j hj ((hmark j hj hm).resolve_left hne)

theorem write {lo : Nat} {xs : List ε}
    (hxs : ∀ j x, xs[j]? = some x → stream[base + lo + j]? = some x)
    (hmark : ∀ i < cap, mark' i = true → mark i = true ∨ (lo ≤ i ∧ i < lo + xs.length)) :
    WindowHolds stream base cap (writeCells cells lo xs) mark' := by
  intro i hi hm
  rw [writeCells_apply]
  by_cases hlo : lo ≤ i
  · rw [if_pos hlo]
    cases hx : xs[i - lo]? with
    | some x =>
      have hoff : base + lo + (i - lo) = base + i := by omega
      rw [← hoff]
      exact hxs _ x hx
    | none =>
      have hlen := List.getElem?_eq_none_iff.mp hx
      refine h i hi ((hmark i hi hm).resolve_right ?_)
      omega
  · rw [if_neg hlo]
    refine h i hi ((hmark i hi hm).resolve_right ?_)
    omega

theorem slide {cells' : Nat → ε}
    (hmoved : ∀ i < cap, mark' i = true →
      i + n < cap ∧ mark (i + n) = true ∧ cells' i = cells (i + n)) :
    WindowHolds stream (base + n) cap cells' mark' := by
  intro i hi hm
  obtain ⟨hlt, hm', hcell⟩ := hmoved i hi hm
  rw [hcell, Nat.add_assoc, Nat.add_comm n i]
  exact h _ hlt hm'

theorem contents (hn : n ≤ leading mark cap) : readCells cells n = (stream.drop base).take n := by
  have hcap := leading_le mark cap
  refine ext_getElem? fun i => ?_
  rw [getElem?_take, getElem?_drop]
  by_cases hi : i < n
  · rw [if_pos hi, h i (by omega) (mark_of_lt_leading (Nat.lt_of_lt_of_le hi hn))]
    simp [readCells, hi]
  · rw [if_neg hi]
    exact getElem?_eq_none (by simpa using hi)

theorem contents_from (hn : k + n ≤ leading mark cap) :
    readCells (fun i => cells (k + i)) n = (stream.drop (base + k)).take n := by
  have hall := h.contents hn
  have hcells : readCells (fun i => cells (k + i)) n = (readCells cells (k + n)).drop k := by
    refine ext_getElem? fun i => ?_
    by_cases hi : i < n
    · simp [readCells, hi]
    · rw [getElem?_eq_none (by simpa using hi), getElem?_eq_none (by simp; omega)]
  rw [hcells, hall, drop_take, drop_drop, Nat.add_sub_cancel_left]

theorem base_add_leading_le
    (hbase : base ≤ stream.length) : base + leading mark cap ≤ stream.length := by
  by_contra hlt
  have hcap := leading_le mark cap
  have hlt' : leading mark cap - 1 < leading mark cap := by omega
  have hlast := h (leading mark cap - 1) (by omega) (mark_of_lt_leading hlt')
  have := (List.getElem?_eq_some_iff.mp hlast).1
  omega

end WindowHolds

/-! ## Fragments -/

/-- A piece of a stream at its offset, and whether it ends the stream. -/
structure Fragment (ε : Type*) where
  off : Nat
  data : List ε
  fin : Bool
deriving DecidableEq, Repr

/-- The piece of at most `len` elements from `off` on. -/
def fragment (stream : List ε) (off len : Nat) (fin : Bool) : Fragment ε where
  off := min off stream.length
  data := (stream.drop off).take len
  fin := fin && decide (stream.length ≤ off + len)

theorem fragment_end (stream : List ε) (off len : Nat) (fin : Bool) :
    (fragment stream off len fin).off + (fragment stream off len fin).data.length =
      min (off + len) stream.length := by
  simp only [fragment, length_take, length_drop]
  omega

theorem fragment_end_of_fin {stream : List ε} (h : (fragment stream off len fin).fin = true) :
    (fragment stream off len fin).off + (fragment stream off len fin).data.length =
      stream.length := by
  have hle : stream.length ≤ off + len := by
    simp only [fragment, Bool.and_eq_true, decide_eq_true_eq] at h
    exact h.2
  rw [fragment_end]
  omega

/-- Membership of an offset in a fragment, for an offset inside of the stream. -/
theorem fragment_covers {stream : List ε} {o : Nat} (ho : o < stream.length) :
    (fragment stream off len fin).off ≤ o ∧
        o < (fragment stream off len fin).off + (fragment stream off len fin).data.length ↔
      off ≤ o ∧ o < off + len := by
  rw [fragment_end]
  simp only [fragment]
  omega

theorem fragment_getElem? {stream : List ε} {j : Nat} {x : ε}
    (h : (fragment stream off len fin).data[j]? = some x) :
    stream[(fragment stream off len fin).off + j]? = some x := by
  simp only [fragment, getElem?_take, getElem?_drop] at h ⊢
  split at h
  · have hlt := (List.getElem?_eq_some_iff.mp h).1
    rwa [Nat.min_eq_left (by omega)]
  · cases h

theorem fragment_data (stream : List ε) (off len : Nat) (fin : Bool) :
    (fragment stream off len fin).data =
      (stream.drop (fragment stream off len fin).off).take
        (fragment stream off len fin).data.length := by
  simp only [fragment, length_take, length_drop]
  rw [← drop_eq_drop_min, ← length_drop, ← take_eq_take_min]

end Wired.Lib
