import Mathlib.Algebra.BigOperators.Fin
import Mathlib.Algebra.Order.BigOperators.Group.Finset
import Wired.Bytes.Compare
import Wired.Lib.Run

/-!
# Paths under validation

`pathsel.c`: two slots hold the paths with an outstanding PATH_CHALLENGE, each with the bytes that
came from the path and the bytes that went to it. The path of the latest datagram is kept beside
them (`fresh`) with the bytes of that datagram, until a slot is claimed for it.

A slot may be taken from its path at any time, and its counters are then forgotten. What bounds
the bytes sent to a path over a whole run (`sent_le_three_received`) is the credit that is left in
all the places that know the path: only the arrival of a datagram adds to it, three times its size,
and a datagram that is sent takes its size from it. A wrap of a counter only takes credit away.
-/

namespace Wired.Transport

open Bytes Lib Function Finset

/-! ## The limit of one path -/

/-- `antiamp_budget`: what may still be sent to a path. -/
def antiampBudget (received sent : UInt64) : UInt64 :=
  let cap := 3 * received
  if sent ≥ cap then 0 else cap - sent

theorem antiampBudget_toNat (received sent : UInt64) :
    (antiampBudget received sent).toNat = (3 * received.toNat) % 2 ^ 64 - sent.toNat := by
  have hcap : (3 * received).toNat = (3 * received.toNat) % 2 ^ 64 := UInt64.toNat_mul 3 received
  simp only [antiampBudget]
  split
  · rename_i hge
    have hle : (3 * received).toNat ≤ sent.toNat := UInt64.le_iff_toNat_le.mp hge
    rw [UInt64.toNat_zero]
    omega
  · rename_i hlt
    have hle : sent.toNat ≤ (3 * received).toNat :=
      le_of_lt (Nat.lt_of_not_le fun h => hlt (UInt64.le_iff_toNat_le.mpr h))
    rw [UInt64.toNat_sub_of_le _ _ (UInt64.le_iff_toNat_le.mpr hle), hcap]

/-- It starts at zero and grows by at most three times what is received. -/
structure PathMeasure where
  of : UInt64 → UInt64 → Nat
  zero : ∀ tx, of 0 tx = 0
  grows : ∀ rx n tx, of (rx + n) tx ≤ of rx tx + 3 * n.toNat

def budgetMeasure : PathMeasure where
  of rx tx := (antiampBudget rx tx).toNat
  zero tx := by rw [antiampBudget_toNat, UInt64.toNat_zero]; exact Nat.zero_sub _
  grows rx n tx := by
    rw [antiampBudget_toNat, antiampBudget_toNat, UInt64.toNat_add]
    omega

def capMeasure : PathMeasure where
  of rx _ := (3 * rx.toNat) % 2 ^ 64
  zero _ := rfl
  grows rx n _ := by
    rw [UInt64.toNat_add]
    omega

theorem budget_le_cap (rx tx : UInt64) : budgetMeasure.of rx tx ≤ capMeasure.of rx tx := by
  simp only [budgetMeasure, capMeasure]
  rw [antiampBudget_toNat]
  exact Nat.sub_le ..

variable {n : UInt64}

/-- What is sent within the budget leaves the budget, and the counter does not wrap. -/
theorem budget_spend {rx tx : UInt64} (h : n ≤ antiampBudget rx tx) :
    budgetMeasure.of rx (tx + n) + n.toNat = budgetMeasure.of rx tx := by
  have hle : n.toNat ≤ (antiampBudget rx tx).toNat := UInt64.le_iff_toNat_le.mp h
  have htx := tx.toNat_lt
  simp only [budgetMeasure]
  rw [antiampBudget_toNat] at hle
  rw [antiampBudget_toNat, antiampBudget_toNat, UInt64.toNat_add]
  omega

/-! ## The state of `pathsel.c` -/

structure Sockaddr where
  portBe : UInt16
  addr : Vector UInt8 16
deriving DecidableEq, Repr

structure PathselKey where
  fd : Int
  peer : Sockaddr
deriving DecidableEq, Repr

def pathselPeerEq (a b : Sockaddr) : Bool :=
  a.portBe = b.portBe && ctDiff a.addr.toList b.addr.toList = 0

def pathselKeyEq (a b : PathselKey) : Bool := a.fd = b.fd && pathselPeerEq a.peer b.peer

theorem pathselKeyEq_iff {a b : PathselKey} : pathselKeyEq a b = true ↔ a = b := by
  obtain ⟨fd, port, addr⟩ := a
  obtain ⟨fd', port', addr'⟩ := b
  have hlen : addr.toList.length = addr'.toList.length := by simp
  simp only [pathselKeyEq, pathselPeerEq, Bool.and_eq_true, decide_eq_true_eq,
    ctDiff_eq_zero hlen, PathselKey.mk.injEq, Sockaddr.mk.injEq, Vector.toList_inj]

/-- What the caller keeps of the outstanding challenge of a slot. -/
structure PathChallenge where
  firstMs : UInt64
  data : Vector UInt8 8
  prev : Vector UInt8 8
  tries : UInt8
  small : Bool

structure PathselSlot extends PathChallenge where
  key : PathselKey
  rxBytes : UInt64
  txBytes : UInt64
  inUse : Bool

abbrev pathselSlots : Nat := 2

/-- The slots, and the path of the latest datagram. -/
structure Pathsel where
  slot : Fin pathselSlots → PathselSlot
  fresh : PathselKey
  freshN : UInt64
  freshTx : UInt64
  matchedSmall : Bool

def pathKeyZero : PathselKey := ⟨0, 0, Vector.replicate 16 0⟩

def pathselSlotOf (k : PathselKey) (inUse : Bool) : PathselSlot where
  firstMs := 0
  data := Vector.replicate 8 0
  prev := Vector.replicate 8 0
  tries := 0
  small := false
  key := k
  rxBytes := 0
  txBytes := 0
  inUse := inUse

def pathselZero : Pathsel where
  slot := fun _ => pathselSlotOf pathKeyZero false
  fresh := pathKeyZero
  freshN := 0
  freshTx := 0
  matchedSmall := false

def Pathsel.setSlot (p : Pathsel) (i : Fin pathselSlots) (s : PathselSlot) : Pathsel :=
  { p with slot := update p.slot i s }

def Pathsel.setFresh (p : Pathsel) (k : PathselKey) (n tx : UInt64) : Pathsel :=
  { p with fresh := k, freshN := n, freshTx := tx }

def PathselSlot.setBytes (s : PathselSlot) (rx tx : UInt64) : PathselSlot :=
  { s with rxBytes := rx, txBytes := tx }

def pathselHolds (s : PathselSlot) (k : PathselKey) : Bool := s.inUse && pathselKeyEq s.key k

def pathselFind (p : Pathsel) (k : PathselKey) : Option (Fin pathselSlots) :=
  (List.finRange pathselSlots).find? fun i => pathselHolds (p.slot i) k

def pathselFirstFree (p : Pathsel) : Option (Fin pathselSlots) :=
  (List.finRange pathselSlots).find? fun i => !(p.slot i).inUse

/-- The slot that does not hold `keep`. -/
def pathselVictim (p : Pathsel) (keep : PathselKey) : Fin pathselSlots :=
  if pathselHolds (p.slot 0) keep then 1 else 0

def pathselTake (p : Pathsel) (i : Fin pathselSlots) (k : PathselKey) : Pathsel :=
  p.setSlot i (pathselSlotOf k true)

/-- A slot just taken for the fresh path starts from its datagram. -/
def pathselSeedRx (p : Pathsel) (i : Fin pathselSlots) : Pathsel :=
  if pathselKeyEq (p.slot i).key p.fresh then
    (p.setSlot i ((p.slot i).setBytes p.freshN p.freshTx)).setFresh p.fresh 0 p.freshTx
  else p

def pathselClaim (p : Pathsel) (k keep : PathselKey) : Pathsel × Fin pathselSlots :=
  match pathselFind p k with
  | some i => (p, i)
  | none =>
    let i := (pathselFirstFree p).getD (pathselVictim p keep)
    (pathselSeedRx (pathselTake p i k) i, i)

/-- Unlike `pathselClaim`, it does not look whether a slot holds the path already. -/
def pathselClaimFree (p : Pathsel) (k : PathselKey) : Pathsel × Option (Fin pathselSlots) :=
  match pathselFirstFree p with
  | none => (p, none)
  | some i => (pathselSeedRx (pathselTake p i k) i, some i)

def pathselNoteRx (p : Pathsel) (k : PathselKey) (n : UInt64) : Pathsel :=
  match pathselFind p k with
  | none => p.setFresh k n 0
  | some i =>
    let s := p.slot i
    (p.setSlot i (s.setBytes (s.rxBytes + n) s.txBytes)).setFresh k 0 0

def pathselNoteTx (p : Pathsel) (k : PathselKey) (n : UInt64) : Pathsel :=
  match pathselFind p k with
  | some i =>
    let s := p.slot i
    p.setSlot i (s.setBytes s.rxBytes (s.txBytes + n))
  | none => p.setFresh p.fresh p.freshN (p.freshTx + if pathselKeyEq k p.fresh then n else 0)

def pathselFreshBudget (p : Pathsel) (k : PathselKey) : UInt64 :=
  if pathselKeyEq k p.fresh then antiampBudget p.freshN p.freshTx else 0

def pathselBudget (p : Pathsel) (k : PathselKey) : UInt64 :=
  match pathselFind p k with
  | some i => antiampBudget (p.slot i).rxBytes (p.slot i).txBytes
  | none => pathselFreshBudget p k

def pathselRelease (p : Pathsel) (i : Fin pathselSlots) : Pathsel × Option PathselKey :=
  ({ p.setSlot i { p.slot i with inUse := false } with matchedSmall := (p.slot i).small },
    some (p.slot i).key)

/-- The response echoes the latest challenge or the one before it. -/
def pathselEchoes (s : PathselSlot) (resp : Vector UInt8 8) : Bool :=
  ctDiff s.data.toList resp.toList = 0 ||
    (s.tries ≠ 0 && ctDiff s.prev.toList resp.toList = 0)

def pathselAnswers (s : PathselSlot) (resp : Vector UInt8 8) : Bool :=
  s.inUse && pathselEchoes s resp

def pathselMatch (p : Pathsel) (resp : Vector UInt8 8) : Pathsel × Option PathselKey :=
  match (List.finRange pathselSlots).find? fun i => pathselAnswers (p.slot i) resp with
  | some i => pathselRelease p i
  | none => (p, none)

def pathselExpired (s : PathselSlot) (nowMs timeoutMs : UInt64) : Bool :=
  s.inUse && nowMs ≥ s.firstMs + timeoutMs

def pathselExpire (p : Pathsel) (nowMs timeoutMs : UInt64) : Pathsel × Option PathselKey :=
  match (List.finRange pathselSlots).find? fun i => pathselExpired (p.slot i) nowMs timeoutMs with
  | some i => pathselRelease p i
  | none => (p, none)

/-! ## The measure of a path over all that knows it -/

def bytesOn (k k' : PathselKey) (n : UInt64) : Nat := if k' = k then n.toNat else 0

variable {k' k : PathselKey} {s : PathselSlot} {i : Fin pathselSlots} {p : Pathsel}

section

variable (m : PathMeasure) (k : PathselKey)

def slotMeasure (s : PathselSlot) : Nat :=
  if pathselHolds s k then m.of s.rxBytes s.txBytes else 0

def freshMeasure (fresh : PathselKey) (n tx : UInt64) : Nat :=
  if pathselKeyEq k fresh then m.of n tx else 0

def slotsMeasure (p : Pathsel) : Nat := ∑ i, slotMeasure m k (p.slot i)

/-- Two slots may hold the same path; `pathsel_find` sees the first of them. -/
def pathMeasure (p : Pathsel) : Nat :=
  slotsMeasure m k p + freshMeasure m k p.fresh p.freshN p.freshTx

variable {m k} {p : Pathsel}

theorem pathMeasure_setFresh (fresh : PathselKey) (n tx : UInt64) :
    pathMeasure m k (p.setFresh fresh n tx) =
      slotsMeasure m k p + freshMeasure m k fresh n tx := rfl

theorem slotsMeasure_setSlot (i : Fin pathselSlots) (s : PathselSlot) :
    slotsMeasure m k (p.setSlot i s) + slotMeasure m k (p.slot i) =
      slotsMeasure m k p + slotMeasure m k s := by
  have hother : ∀ j ∈ univ.erase i,
      slotMeasure m k (update p.slot i s j) = slotMeasure m k (p.slot j) := by
    intro j hj
    rw [update_of_ne (ne_of_mem_erase hj)]
  have hnew := add_sum_erase univ
    (fun j => slotMeasure m k (update p.slot i s j)) (mem_univ i)
  have hold := add_sum_erase univ (fun j => slotMeasure m k (p.slot j))
    (mem_univ i)
  rw [sum_congr rfl hother, update_self] at hnew
  simp only [slotsMeasure, Pathsel.setSlot]
  omega

theorem pathMeasure_setSlot (i : Fin pathselSlots) (s : PathselSlot) :
    pathMeasure m k (p.setSlot i s) + slotMeasure m k (p.slot i) =
      pathMeasure m k p + slotMeasure m k s := by
  have hsum := slotsMeasure_setSlot (m := m) (k := k) (p := p) i s
  have hsplit : pathMeasure m k (p.setSlot i s) =
    slotsMeasure m k (p.setSlot i s) + freshMeasure m k p.fresh p.freshN p.freshTx := rfl
  rw [hsplit, pathMeasure]
  omega

theorem slotMeasure_unused (h : s.inUse = false) : slotMeasure m k s = 0 := by
  simp [slotMeasure, pathselHolds, h]

theorem freshMeasure_zero (fresh : PathselKey) (tx : UInt64) : freshMeasure m k fresh 0 tx = 0 := by
  unfold freshMeasure
  split
  · exact m.zero tx
  · rfl

/-- A slot that holds a path counts for it what the fresh path would count. -/
theorem slotMeasure_setBytes (h : s.inUse = true) (rx tx : UInt64) :
    slotMeasure m k (s.setBytes rx tx) = freshMeasure m k s.key rx tx := by
  have hcomm : pathselKeyEq s.key k = pathselKeyEq k s.key := by
    rw [Bool.eq_iff_iff, pathselKeyEq_iff, pathselKeyEq_iff, eq_comm]
  simp [slotMeasure, freshMeasure, pathselHolds, PathselSlot.setBytes, h, hcomm]

theorem slotMeasure_used (h : s.inUse = true) :
    slotMeasure m k s = freshMeasure m k s.key s.rxBytes s.txBytes :=
  slotMeasure_setBytes h s.rxBytes s.txBytes

theorem pathMeasure_zero : pathMeasure m k pathselZero = 0 := by
  have hslots : slotsMeasure m k pathselZero = 0 :=
    sum_eq_zero fun i _ => slotMeasure_unused rfl
  rw [pathMeasure, hslots, zero_add]
  exact freshMeasure_zero _ _

/-- The datagram of the fresh path moves to the slot that is taken for it. -/
theorem pathMeasure_claimed (i : Fin pathselSlots) (k' : PathselKey) :
    pathMeasure m k (pathselSeedRx (pathselTake p i k') i) ≤ pathMeasure m k p := by
  have hself : (pathselTake p i k').slot i = pathselSlotOf k' true := update_self ..
  have hempty : slotMeasure m k (pathselSlotOf k' true) = 0 :=
    (slotMeasure_used rfl).trans (freshMeasure_zero _ _)
  have htake : slotsMeasure m k (pathselTake p i k') ≤ slotsMeasure m k p := by
    have hsum := slotsMeasure_setSlot (m := m) (k := k) (p := p) i (pathselSlotOf k' true)
    unfold pathselTake
    omega
  unfold pathselSeedRx
  rw [hself]
  split
  · rename_i hfresh
    obtain rfl : k' = p.fresh := pathselKeyEq_iff.mp hfresh
    have hsum := slotsMeasure_setSlot (m := m) (k := k) (p := pathselTake p i p.fresh) i
      ((pathselSlotOf p.fresh true).setBytes p.freshN p.freshTx)
    rw [hself, hempty, slotMeasure_setBytes rfl] at hsum
    rw [pathMeasure_setFresh, freshMeasure_zero]
    exact le_trans (le_of_eq hsum) (Nat.add_le_add_right htake _)
  · exact Nat.add_le_add_right htake _

theorem pathMeasure_claim (k' keep : PathselKey) :
    pathMeasure m k (pathselClaim p k' keep).1 ≤ pathMeasure m k p := by
  unfold pathselClaim
  split
  · exact le_rfl
  · exact pathMeasure_claimed _ _

theorem pathMeasure_claimFree (k' : PathselKey) :
    pathMeasure m k (pathselClaimFree p k').1 ≤ pathMeasure m k p := by
  unfold pathselClaimFree
  split
  · exact le_rfl
  · exact pathMeasure_claimed _ _

/-- A slot that is no longer in use counts for no path. -/
theorem pathMeasure_unused (h : s.inUse = false) :
    pathMeasure m k (p.setSlot i s) ≤ pathMeasure m k p := by
  have hsum := pathMeasure_setSlot (m := m) (k := k) (p := p) i s
  rw [slotMeasure_unused h] at hsum
  omega

theorem pathMeasure_match (resp : Vector UInt8 8) :
    pathMeasure m k (pathselMatch p resp).1 ≤ pathMeasure m k p := by
  unfold pathselMatch
  split
  · exact pathMeasure_unused rfl
  · exact le_rfl

theorem pathMeasure_expire (nowMs timeoutMs : UInt64) :
    pathMeasure m k (pathselExpire p nowMs timeoutMs).1 ≤ pathMeasure m k p := by
  unfold pathselExpire
  split
  · exact pathMeasure_unused rfl
  · exact le_rfl

theorem pathselFind_holds (h : pathselFind p k' = some i) :
    (p.slot i).inUse = true ∧ (p.slot i).key = k' := by
  have hholds := List.find?_some h
  rw [pathselHolds, Bool.and_eq_true, pathselKeyEq_iff] at hholds
  exact hholds

theorem freshMeasure_grows (fresh : PathselKey) (rx n tx : UInt64) :
    freshMeasure m k fresh (rx + n) tx ≤ freshMeasure m k fresh rx tx + 3 * bytesOn k fresh n := by
  unfold freshMeasure bytesOn
  by_cases h : k = fresh
  · rw [if_pos (pathselKeyEq_iff.mpr h), if_pos (pathselKeyEq_iff.mpr h), if_pos h.symm]
    exact m.grows rx n tx
  · rw [if_neg fun heq => h (pathselKeyEq_iff.mp heq)]
    exact zero_le

theorem pathMeasure_noteRx (k' : PathselKey) (n : UInt64) :
    pathMeasure m k (pathselNoteRx p k' n) ≤ pathMeasure m k p + 3 * bytesOn k k' n := by
  have hslots : slotsMeasure m k p ≤ pathMeasure m k p := Nat.le_add_right ..
  unfold pathselNoteRx
  split
  · have hfirst := freshMeasure_grows (m := m) (k := k) k' 0 n 0
    rw [freshMeasure_zero, UInt64.zero_add] at hfirst
    rw [pathMeasure_setFresh]
    omega
  · rename_i i hfind
    obtain ⟨hused, rfl⟩ := pathselFind_holds hfind
    have hsum := slotsMeasure_setSlot (m := m) (k := k) (p := p) i
      ((p.slot i).setBytes ((p.slot i).rxBytes + n) (p.slot i).txBytes)
    have hgrows := freshMeasure_grows (m := m) (k := k) (p.slot i).key (p.slot i).rxBytes n
      (p.slot i).txBytes
    rw [slotMeasure_setBytes hused, slotMeasure_used hused] at hsum
    rw [pathMeasure_setFresh, freshMeasure_zero]
    omega

/-- The slot or the record that a send is noted on is the one that its budget was read from. -/
theorem pathMeasure_noteTx (k' : PathselKey) (n : UInt64) :
    (∃ rx tx, pathselBudget p k' = antiampBudget rx tx ∧
      pathMeasure m k (pathselNoteTx p k' n) + freshMeasure m k k' rx tx =
        pathMeasure m k p + freshMeasure m k k' rx (tx + n)) ∨
      (pathselBudget p k' = 0 ∧ pathMeasure m k (pathselNoteTx p k' n) = pathMeasure m k p) := by
  unfold pathselBudget pathselNoteTx
  split
  · rename_i i hfind
    obtain ⟨hused, rfl⟩ := pathselFind_holds hfind
    have hsum := pathMeasure_setSlot (m := m) (k := k) (p := p) i
      ((p.slot i).setBytes (p.slot i).rxBytes ((p.slot i).txBytes + n))
    rw [slotMeasure_setBytes hused, slotMeasure_used hused] at hsum
    exact .inl ⟨(p.slot i).rxBytes, (p.slot i).txBytes, rfl, hsum⟩
  · unfold pathselFreshBudget
    rw [pathMeasure_setFresh]
    split
    · rename_i hfresh
      obtain rfl : k' = p.fresh := pathselKeyEq_iff.mp hfresh
      refine .inl ⟨p.freshN, p.freshTx, rfl, ?_⟩
      rw [pathMeasure]
      omega
    · refine .inr ⟨rfl, ?_⟩
      rw [UInt64.add_zero]
      rfl

/-- A send within the budget of its path takes its size from what the path may still be sent. -/
theorem pathMeasure_spend (h : k' = k → n ≤ pathselBudget p k') :
    pathMeasure budgetMeasure k (pathselNoteTx p k' n) + bytesOn k k' n ≤
      pathMeasure budgetMeasure k p := by
  by_cases hk : k' = k
  · subst hk
    have hself : ∀ n tx, freshMeasure budgetMeasure k' k' n tx = budgetMeasure.of n tx :=
      fun n tx => if_pos (pathselKeyEq_iff.mpr rfl)
    rw [bytesOn, if_pos rfl]
    rcases pathMeasure_noteTx (m := budgetMeasure) (k := k') (p := p) k' n with
      ⟨rx, tx, hbudget, hmeasure⟩ | ⟨hbudget, hmeasure⟩
    · have hspend := budget_spend (hbudget ▸ h rfl)
      rw [hself, hself] at hmeasure
      omega
    · have hzero : n.toNat ≤ 0 := UInt64.le_iff_toNat_le.mp (hbudget ▸ h rfl)
      omega
  · have hother : ∀ n tx, freshMeasure budgetMeasure k k' n tx = 0 := fun n tx =>
      if_neg fun heq => hk (pathselKeyEq_iff.mp heq).symm
    rw [bytesOn, if_neg hk]
    rcases pathMeasure_noteTx (m := budgetMeasure) (k := k) (p := p) k' n with
      ⟨rx, tx, -, hmeasure⟩ | ⟨-, hmeasure⟩
    · rw [hother, hother] at hmeasure
      omega
    · omega

theorem pathMeasure_cap_noteTx (k' : PathselKey) (n : UInt64) :
    pathMeasure capMeasure k (pathselNoteTx p k' n) = pathMeasure capMeasure k p := by
  rcases pathMeasure_noteTx (m := capMeasure) (k := k) (p := p) k' n with
    ⟨rx, tx, -, hmeasure⟩ | ⟨-, hmeasure⟩
  · have hsame : freshMeasure capMeasure k k' rx (tx + n) = freshMeasure capMeasure k k' rx tx := rfl
    omega
  · exact hmeasure

theorem budget_le_cap_path : pathMeasure budgetMeasure k p ≤ pathMeasure capMeasure k p := by
  have hplace : ∀ (known : Bool) rx tx,
      (if known then budgetMeasure.of rx tx else 0) ≤ if known then capMeasure.of rx tx else 0 := by
    intro known rx tx
    split
    · exact budget_le_cap rx tx
    · exact le_rfl
  exact Nat.add_le_add (sum_le_sum fun i _ => hplace _ _ _) (hplace _ _ _)

end

/-! ## Runs -/

inductive PathEvent where
  | receive (k : PathselKey) (n : UInt64)
  | send (k : PathselKey) (n : UInt64)
  | claim (k keep : PathselKey)
  | claimFree (k : PathselKey)
  | challenge (i : Fin pathselSlots) (c : PathChallenge)
  | drop (i : Fin pathselSlots)
  | answer (resp : Vector UInt8 8)
  | expire (nowMs timeoutMs : UInt64)
  | validate (k : PathselKey)
  | lapse (k : PathselKey)

/-- The paths, with what came from each in all, and what went to it since it is unvalidated. -/
structure PathSystem where
  p : Pathsel
  valid : PathselKey → Bool
  received : PathselKey → Nat
  sent : PathselKey → Nat

def pathStart (valid : PathselKey → Bool) : PathSystem where
  p := pathselZero
  valid := valid
  received := fun _ => 0
  sent := fun _ => 0

def pathStep (s : PathSystem) : PathEvent → PathSystem
  | .receive k n =>
    { s with p := pathselNoteRx s.p k n, received := fun k' => s.received k' + bytesOn k' k n }
  | .send k n =>
    { s with
      p := pathselNoteTx s.p k n
      sent := fun k' => s.sent k' + if s.valid k' then 0 else bytesOn k' k n }
  | .claim k keep => { s with p := (pathselClaim s.p k keep).1 }
  | .claimFree k => { s with p := (pathselClaimFree s.p k).1 }
  | .challenge i c => { s with p := s.p.setSlot i { s.p.slot i with toPathChallenge := c } }
  | .drop i => { s with p := s.p.setSlot i { s.p.slot i with inUse := false } }
  | .answer resp => { s with p := (pathselMatch s.p resp).1 }
  | .expire nowMs timeoutMs => { s with p := (pathselExpire s.p nowMs timeoutMs).1 }
  | .validate k =>
    { s with
      valid := fun k' => decide (k' = k) || s.valid k'
      sent := fun k' => if k' = k then 0 else s.sent k' }
  | .lapse k => { s with valid := fun k' => decide (k' ≠ k) && s.valid k' }

/-- A datagram goes to an unvalidated path only within the budget that is reported for it. -/
def WithinBudget (s : PathSystem) : PathEvent → Prop
  | .send k n => s.valid k = false → n ≤ pathselBudget s.p k
  | _ => True

instance (s : PathSystem) : ∀ e, Decidable (WithinBudget s e)
  | .send k n => inferInstanceAs (Decidable (s.valid k = false → n ≤ pathselBudget s.p k))
  | .receive .. | .claim .. | .claimFree .. | .challenge .. | .drop .. | .answer .. | .expire ..
  | .validate .. | .lapse .. => inferInstanceAs (Decidable True)

/-- What is left in all the places that know the path. -/
structure PathLedger (s : PathSystem) (k : PathselKey) : Prop where
  cap : pathMeasure capMeasure k s.p ≤ 3 * s.received k
  spent : s.valid k = false →
    pathMeasure budgetMeasure k s.p + s.sent k ≤ 3 * s.received k
  unspent : s.valid k = true → s.sent k = 0

theorem pathMeasure_challenge {m : PathMeasure} (i : Fin pathselSlots) (c : PathChallenge) :
    pathMeasure m k (p.setSlot i { p.slot i with toPathChallenge := c }) = pathMeasure m k p :=
  Nat.add_right_cancel (pathMeasure_setSlot i { p.slot i with toPathChallenge := c })

theorem PathLedger.moves {s : PathSystem} (h : PathLedger s k)
    (hle : ∀ m, pathMeasure m k p ≤ pathMeasure m k s.p) : PathLedger { s with p := p } k where
  cap := le_trans (hle _) h.cap
  spent hv := le_trans (Nat.add_le_add_right (hle _) _) (h.spent hv)
  unspent := h.unspent

theorem PathLedger.step {s : PathSystem} (h : PathLedger s k) {e : PathEvent}
    (hwithin : WithinBudget s e) : PathLedger (pathStep s e) k := by
  cases e with
  | receive k' n =>
    have hrx := fun m => pathMeasure_noteRx (m := m) (k := k) (p := s.p) k' n
    refine ⟨?_, fun hv => ?_, h.unspent⟩
    · have hcap := h.cap
      have hgrown := hrx capMeasure
      simp only [pathStep]
      omega
    · have hspent := h.spent hv
      have hgrown := hrx budgetMeasure
      simp only [pathStep]
      omega
  | send k' n =>
    refine ⟨?_, fun hv => ?_, fun hv => ?_⟩
    · exact le_trans (le_of_eq (pathMeasure_cap_noteTx k' n)) h.cap
    · have hspent := h.spent hv
      have hguard : k' = k → n ≤ pathselBudget s.p k' := by
        rintro rfl
        exact hwithin hv
      have hspend := pathMeasure_spend hguard
      simp only [pathStep] at hv ⊢
      rw [hv, if_neg Bool.false_ne_true]
      omega
    · simp only [pathStep] at hv ⊢
      rw [if_pos hv, h.unspent hv]
  | claim k' keep => exact h.moves fun m => pathMeasure_claim k' keep
  | claimFree k' => exact h.moves fun m => pathMeasure_claimFree k'
  | challenge i c => exact h.moves fun m => le_of_eq (pathMeasure_challenge i c)
  | drop i => exact h.moves fun m => pathMeasure_unused rfl
  | answer resp => exact h.moves fun m => pathMeasure_match resp
  | expire nowMs timeoutMs => exact h.moves fun m => pathMeasure_expire nowMs timeoutMs
  | validate k' =>
    refine ⟨h.cap, fun hv => ?_, fun hv => ?_⟩
    · simp only [pathStep, Bool.or_eq_false_iff, decide_eq_false_iff_not] at hv ⊢
      rw [if_neg hv.1]
      exact h.spent hv.2
    · simp only [pathStep, Bool.or_eq_true, decide_eq_true_eq] at hv ⊢
      split
      · rfl
      · exact h.unspent (hv.resolve_left ‹_›)
  | lapse k' =>
    refine ⟨h.cap, fun hv => ?_, fun hv => ?_⟩
    · simp only [pathStep, Bool.and_eq_false_iff] at hv ⊢
      cases hvalid : s.valid k with
      | false => exact h.spent hvalid
      | true =>
        -- the counters of the validated time may have wrapped: only the cap is left
        rw [h.unspent hvalid]
        exact le_trans budget_le_cap_path h.cap
    · simp only [pathStep, Bool.and_eq_true] at hv
      exact h.unspent hv.2

/-- What went to a path since it is unvalidated never exceeds three times what came from it, if
every datagram to an unvalidated path is within the budget reported for it and is noted. -/
theorem sent_le_three_received (valid : PathselKey → Bool) (es : List PathEvent)
    (h : Along pathStep WithinBudget (pathStart valid) es) (k : PathselKey) :
    (es.foldl pathStep (pathStart valid)).sent k ≤
      3 * (es.foldl pathStep (pathStart valid)).received k := by
  have hstart : PathLedger (pathStart valid) k :=
    ⟨le_of_eq pathMeasure_zero, fun _ => le_of_eq pathMeasure_zero, fun _ => rfl⟩
  have hledger : PathLedger (es.foldl pathStep (pathStart valid)) k :=
    Along.invariant (I := fun s => PathLedger s k) (fun _ _ hs he => hs.step he) hstart h
  generalize es.foldl pathStep (pathStart valid) = s at hledger
  cases hv : s.valid k with
  | false => exact le_trans (Nat.le_add_left ..) (hledger.spent hv)
  | true =>
    rw [hledger.unspent hv]
    exact zero_le

/-- Paths that differ in the port. -/
def pathKeyOf (port : UInt16) : PathselKey := ⟨3, port, Vector.replicate 16 1⟩

/-- The slots of two paths are taken by two others, and the first path comes back. -/
def evictingRun : List PathEvent :=
  [.receive (pathKeyOf 1) 100, .send (pathKeyOf 1) 300, .claim (pathKeyOf 1) (pathKeyOf 9),
    .receive (pathKeyOf 2) 50, .claim (pathKeyOf 2) (pathKeyOf 1), .send (pathKeyOf 2) 150,
    .receive (pathKeyOf 3) 20, .claim (pathKeyOf 3) (pathKeyOf 2), .send (pathKeyOf 3) 60,
    .receive (pathKeyOf 1) 10, .send (pathKeyOf 1) 30]

/-- A run in which a path loses its slot. -/
theorem evictingRun_limited :
    Along pathStep WithinBudget (pathStart fun _ => false) evictingRun ∧
      (evictingRun.foldl pathStep (pathStart fun _ => false)).sent (pathKeyOf 1) ≤
        3 * (evictingRun.foldl pathStep (pathStart fun _ => false)).received (pathKeyOf 1) :=
  have hrun : Along pathStep WithinBudget (pathStart fun _ => false) evictingRun := by
    decide +kernel
  ⟨hrun, sent_le_three_received _ _ hrun _⟩

end Wired.Transport
