import Wired.Qpack.EncoderStream
import Mathlib.Data.List.Induction

/-!
# A table as the tail of what was inserted

The absolute index of an entry is its position among all the fields that were ever inserted. A
table `Recalls` such a list when it holds what is left of it after `dropped` evictions. Two tables
that recall one list, or one the beginning of the other's list, have the same field at every index
they both hold (`Recalls.agree`).

Over a sequence of inserts and changes of the capacity, an entry goes at the first moment at which
it and all that was inserted behind it do not fit the capacity of that moment (`tableRun_live`).
What went does not come back when the capacity is raised again.
-/

namespace Wired.Qpack

open Lib List

/-- The table holds the end of what was inserted. -/
structure QpackDyn.Recalls (t : QpackDyn) (fs : List Field) : Prop where
  dropped_le : t.dropped ≤ fs.length
  represents : t.Represents (fs.drop t.dropped)

namespace QpackDyn.Recalls

variable {t t' : QpackDyn} {fs gs : List Field} {f : Field}

theorem empty (capacity max : Nat) :
    ({ qpackDynInit capacity with maxCapacity := max } : QpackDyn).Recalls [] where
  dropped_le := le_rfl
  represents := (qpackDynInit_represents capacity).withMax max

variable {i limit k : Nat}

section

variable (h : t.Recalls fs)
include h

theorem inserts : t.dropped + t.count = fs.length := by
  have hcount := h.represents.count
  have hle := h.dropped_le
  rw [length_drop] at hcount
  omega

theorem get (i : Nat) : qpackDynGet t i = if t.dropped ≤ i then fs[i]? else none := by
  rw [qpackDynGet_eq h.represents]
  split
  · next hle => rw [getElem?_drop, Nat.add_sub_cancel' hle]
  · rfl

theorem get_of_live (hi : t.dropped ≤ i) (hf : fs[i]? = some f) : qpackDynGet t i = some f := by
  rw [h.get, if_pos hi, hf]

theorem getElem_of_get (hf : qpackDynGet t i = some f) : t.dropped ≤ i ∧ fs[i]? = some f := by
  rw [h.get] at hf
  split at hf
  · next hle => exact ⟨hle, hf⟩
  · cases hf

theorem agree (h' : t'.Recalls gs) (hpre : gs <+: fs) {f g : Field}
    (hf : qpackDynGet t i = some f) (hg : qpackDynGet t' i = some g) : f = g := by
  have hfi := (h.getElem_of_get hf).2
  have hgi := (h'.getElem_of_get hg).2
  have hlt := (List.getElem?_eq_some_iff.mp hgi).1
  obtain ⟨later, rfl⟩ := hpre
  rw [getElem?_append_left hlt, hgi] at hfi
  exact (Option.some.inj hfi).symm

/-- Every entry takes at least 32 bytes of the capacity. -/
theorem count_le : 32 * t.count ≤ t.capacity := by
  have hfits := h.represents.fits
  rw [h.represents.size] at hfits
  rw [h.represents.count]
  have hsize : ∀ l : List Field, 32 * l.length ≤ totalSize Field.size l := by
    intro l
    induction l with
    | nil => exact le_rfl
    | cons x l ih =>
      have hx : 32 ≤ x.size := Nat.le_add_left 32 _
      rw [totalSize_cons, length_cons]
      omega
  exact (hsize _).trans hfits

/-- A table that was trimmed at the front, and appended to, recalls what was appended too. -/
theorem of_trim {need : Nat} {new : List Field}
    (hrep : t'.Represents (trim Field.size limit need (fs.drop t.dropped) ++ new))
    (hsum : t'.dropped + t'.count = t.dropped + t.count + new.length) :
    t'.Recalls (fs ++ new) ∧ t.dropped ≤ t'.dropped ∧
      (totalSize Field.size (fs.drop t.dropped) + need ≤ limit → t'.dropped = t.dropped) := by
  have hinserts := h.inserts
  have hcount := hrep.count
  rw [length_append] at hcount
  obtain ⟨front, hfront⟩ := trim_suffix Field.size limit need (fs.drop t.dropped)
  have hlen := congrArg List.length hfront
  rw [length_append, length_drop] at hlen
  -- what is dropped in all: the evicted entries come right behind those dropped before
  have hdropped : t'.dropped = t.dropped + front.length := by omega
  refine ⟨⟨?_, ?_⟩, by omega, ?_⟩
  · rw [length_append]
    omega
  · have hdrop : (fs ++ new).drop t'.dropped =
        trim Field.size limit need (fs.drop t.dropped) ++ new := by
      rw [hdropped, drop_append_of_le_length (by omega), ← drop_drop]
      conv_lhs => rw [← hfront]
      rw [drop_left]
    rw [hdrop]
    exact hrep
  · intro hfit
    rw [trim_of_fits Field.size limit need hfit, length_drop] at hlen
    omega

theorem insert (hf : f.size ≤ t.capacity) :
    ∃ t', qpackDynInsert t f = some t' ∧ t'.Recalls (fs ++ [f]) ∧ t.dropped ≤ t'.dropped ∧
      t'.capacity = t.capacity ∧ t'.maxCapacity = t.maxCapacity ∧
      (qpackDynFits t f = true → t'.dropped = t.dropped) := by
  obtain ⟨t', hins, hrep, hsum, hcap, hmax⟩ := qpackDynInsert_represents h.represents hf
  obtain ⟨hrecalls, hdropped, hfits⟩ := h.of_trim hrep hsum
  refine ⟨t', hins, hrecalls, hdropped, hcap, hmax, ?_⟩
  intro hroom
  apply hfits
  rw [← h.represents.size]
  simpa [qpackDynFits, overCapacity, Field.size] using hroom

theorem setCapacity (capacity : Nat) :
    (qpackDynSetCapacity t capacity).Recalls fs ∧
      t.dropped ≤ (qpackDynSetCapacity t capacity).dropped ∧
      (qpackDynSetCapacity t capacity).maxCapacity = t.maxCapacity := by
  obtain ⟨hrep, hsum, -, hmax⟩ := qpackDynSetCapacity_represents h.represents capacity
  rw [← append_nil (trim _ _ _ _)] at hrep
  obtain ⟨hrecalls, hdropped, -⟩ := h.of_trim hrep hsum
  rw [append_nil] at hrecalls
  exact ⟨hrecalls, hdropped, hmax⟩

end

/-- The entries left when the table was trimmed to make room: those from which on all fit. -/
theorem dropped_of_trim (new : List Field) (h : t.Recalls fs)
    (hnew : totalSize Field.size new ≤ limit)
    (hrep : t'.Represents
      (trim Field.size limit (totalSize Field.size new) (fs.drop t.dropped) ++ new))
    (hsum : t'.dropped + t'.count = t.dropped + t.count + new.length) (k : Nat) :
    t'.dropped ≤ k ↔ t.dropped ≤ k ∧ totalSize Field.size ((fs ++ new).drop k) ≤ limit := by
  have hinserts := h.inserts
  have hcount := hrep.count
  have htrim := (trim_suffix Field.size limit (totalSize Field.size new)
    (fs.drop t.dropped)).length_le
  have hlongest := trim_longest Field.size limit _ hnew (fs.drop t.dropped) (k - t.dropped)
  rw [length_append] at hcount
  rw [drop_drop] at hlongest
  rw [length_drop] at htrim hlongest
  by_cases hk : t.dropped ≤ k
  · rw [Nat.add_sub_cancel' hk] at hlongest
    by_cases hlen : k ≤ fs.length
    · rw [drop_append_of_le_length hlen, totalSize_append, ← hlongest]
      omega
    · have hsuffix : totalSize Field.size ((fs ++ new).drop k) ≤ limit := by
        refine le_trans ?_ hnew
        rw [drop_append, drop_of_length_le (Nat.le_of_not_le hlen), nil_append]
        conv_rhs => rw [← take_append_drop (k - fs.length) new, totalSize_append]
        exact Nat.le_add_left _ _
      exact ⟨fun _ => ⟨hk, hsuffix⟩, fun _ => by omega⟩
  · exact ⟨fun hle => by omega, fun hle => absurd hle.1 hk⟩

end QpackDyn.Recalls

/-! ## Inserts and changes of the capacity -/

inductive TableOp where
  | setCapacity (capacity : Nat)
  | insert (f : Field)
deriving DecidableEq, Repr

/-- A table and all that was ever inserted. -/
structure TableSys where
  table : QpackDyn
  inserted : List Field

def tableInit (capacity : Nat) : TableSys := ⟨qpackDynInit capacity, []⟩

def tableStep (s : TableSys) : TableOp → TableSys
  | .setCapacity capacity => { s with table := qpackDynSetCapacity s.table capacity }
  | .insert f =>
    match qpackDynInsert s.table f with
    | some t => ⟨t, s.inserted ++ [f]⟩
    | none => s

/-- A run from an empty table. -/
def tableRun (capacity : Nat) (ops : List TableOp) : TableSys :=
  ops.foldl tableStep (tableInit capacity)

/-- What was inserted from the index on fits. -/
def TableSys.FitsFrom (s : TableSys) (k : Nat) : Prop :=
  totalSize Field.size (s.inserted.drop k) ≤ s.table.capacity
deriving Decidable

variable {s : TableSys}

theorem TableSys.fitsFrom_of_dropped_le (h : s.table.Recalls s.inserted)
    (hk : s.table.dropped ≤ k) : s.FitsFrom k := by
  have hfits := h.represents.fits
  rw [h.represents.size, ← take_append_drop (k - s.table.dropped) (s.inserted.drop _),
    totalSize_append, drop_drop, Nat.add_sub_cancel' hk] at hfits
  exact le_trans (Nat.le_add_left _ _) hfits

/-- A step keeps the indices from which on all entries still fit. -/
theorem tableStep_spec (h : s.table.Recalls s.inserted) (op : TableOp) :
    (tableStep s op).table.Recalls (tableStep s op).inserted ∧
      ∀ k, (tableStep s op).table.dropped ≤ k ↔
        s.table.dropped ≤ k ∧ (tableStep s op).FitsFrom k := by
  cases op with
  | setCapacity capacity =>
    obtain ⟨hrep, hsum, hcap, -⟩ := qpackDynSetCapacity_represents h.represents capacity
    rw [← append_nil (trim _ _ _ _)] at hrep
    refine ⟨(h.setCapacity capacity).1, ?_⟩
    intro k
    have hdropped := h.dropped_of_trim [] zero_le hrep hsum k
    rw [append_nil, ← hcap] at hdropped
    exact hdropped
  | insert f =>
    by_cases hf : f.size ≤ s.table.capacity
    · obtain ⟨t', hins, hrep, hsum, hcap, -⟩ := qpackDynInsert_represents h.represents hf
      have hstep : tableStep s (.insert f) = ⟨t', s.inserted ++ [f]⟩ := by rw [tableStep, hins]
      rw [hstep]
      refine ⟨(h.of_trim hrep hsum).1, ?_⟩
      intro k
      have hdropped := h.dropped_of_trim [f] hf hrep hsum k
      rw [← hcap] at hdropped
      exact hdropped
    · have hstep : tableStep s (.insert f) = s := by
        rw [tableStep, qpackDynInsert_eq_none (Nat.lt_of_not_le hf)]
      rw [hstep]
      exact ⟨h, fun k => ⟨fun hk => ⟨hk, s.fitsFrom_of_dropped_le h hk⟩, And.left⟩⟩

theorem tableRun_concat (capacity : Nat) (ops : List TableOp) (op : TableOp) :
    tableRun capacity (ops ++ [op]) = tableStep (tableRun capacity ops) op := by
  rw [tableRun, foldl_append]
  rfl

/-- The entries that are live after a run: those from which on everything fitted at all times. -/
theorem tableRun_recalls (capacity : Nat) (ops : List TableOp) :
    (tableRun capacity ops).table.Recalls (tableRun capacity ops).inserted ∧
      ∀ k, (tableRun capacity ops).table.dropped ≤ k ↔
        ∀ start, start <+: ops → (tableRun capacity start).FitsFrom k := by
  induction ops using List.reverseRecOn with
  | nil =>
    refine ⟨QpackDyn.Recalls.empty capacity (clampCapacity capacity), fun k => ?_⟩
    constructor
    · intro _ start hstart
      rw [prefix_nil.mp hstart]
      exact TableSys.fitsFrom_of_dropped_le
        (QpackDyn.Recalls.empty capacity (clampCapacity capacity)) zero_le
    · intro _
      exact zero_le
  | append_singleton ops op ih =>
    obtain ⟨hrecalls, hdropped⟩ := ih
    obtain ⟨hrecalls', hstep⟩ := tableStep_spec hrecalls op
    rw [tableRun_concat]
    refine ⟨hrecalls', fun k => ?_⟩
    rw [hstep, hdropped]
    constructor
    · rintro ⟨hbefore, hlast⟩ start hstart
      obtain rfl | hstart := prefix_concat_iff.mp hstart
      · rw [tableRun_concat]
        exact hlast
      · exact hbefore start hstart
    · intro hall
      have hlast := hall _ (prefix_refl _)
      rw [tableRun_concat] at hlast
      exact ⟨fun start hstart => hall start (hstart.trans (prefix_append _ _)), hlast⟩

theorem tableStep_inserted (s : TableSys) (op : TableOp) :
    s.inserted <+: (tableStep s op).inserted := by
  cases op with
  | setCapacity capacity => exact prefix_refl _
  | insert f =>
    rw [tableStep]
    split
    · exact prefix_append _ _
    · exact prefix_refl _

theorem tableRun_inserted (capacity : Nat) (start rest : List TableOp) :
    (tableRun capacity start).inserted <+: (tableRun capacity (start ++ rest)).inserted := by
  induction rest using List.reverseRecOn with
  | nil => simp
  | append_singleton rest op ih =>
    rw [← append_assoc, tableRun_concat]
    exact ih.trans (tableStep_inserted _ op)

/-- Where the capacity was never below what it is now, what fits now always fitted. -/
theorem fitsFrom_of_capacity_le {capacity : Nat} {start rest : List TableOp}
    (hcap : (tableRun capacity (start ++ rest)).table.capacity ≤
      (tableRun capacity start).table.capacity)
    (h : (tableRun capacity (start ++ rest)).FitsFrom k) :
    (tableRun capacity start).FitsFrom k := by
  obtain ⟨more, hmore⟩ := tableRun_inserted capacity start rest
  unfold TableSys.FitsFrom at h ⊢
  rw [← hmore, drop_append, totalSize_append] at h
  omega

end Wired.Qpack
