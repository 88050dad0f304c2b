import Wired.Lib.Run
import Wired.Server.SendSession

/-!
# Delivery of a response stream

A `Delivery` is a send session together with what its caller holds and with the history of the
connection. The caller takes one slice at a time; a `take` while a slice is held, or a `sent` or
`untake` while none is, leaves the delivery as it is.

Every operation keeps `NoByteLost` (`noByteLost_of_untakeHasRoom`) except one: `sendsessUntake`
drops the slice when the requeue is full. That happens, although the slice was just taken: a slice
taken from a full requeue and split leaves its rest there (`untake_after_split_loses_byte`).
-/

namespace Wired.Server

open Lib List

def SendqSlice.Covers (sl : SendqSlice) (o : Nat) : Prop :=
  sl.offset ≤ o ∧ o < sl.offset + sl.len
deriving Decidable

/-- A session, its caller, and what the connection did. -/
structure Delivery where
  sess : Sendsess
  /-- the slice the last `take` returned, until it is logged or given back -/
  taken : Option SendqSlice
  /-- the packets that carried a slice of this session -/
  history : List (Nat × SendqSlice)
  /-- the slices carried by packets that were acknowledged -/
  acked : List SendqSlice

inductive Op where
  | take
  | sent (pn nowMs : UInt64)
  | untake
  | ack (lo hi : UInt64)
  | ackRequeued (lo hi : UInt64)
  | detectLost (largestAcked nowMs lossDelayUs cap : UInt64)
  | ptoProbe
  | ptoFire (maxProbes : Int)
  | extend (added : UInt64)
  | setChunk (chunk : UInt64)
  | done
deriving DecidableEq

def ackedBy (history : List (Nat × SendqSlice)) (lo hi : Nat) : List SendqSlice :=
  (history.filter fun p => lo ≤ p.1 && p.1 ≤ hi).map (·.2)

def deliveryStep (d : Delivery) : Op → Delivery
  | .take =>
    match d.taken with
    | some _ => d
    | none => { d with sess := (sendsessTake d.sess).1, taken := (sendsessTake d.sess).2 }
  | .sent pn nowMs =>
    match d.taken with
    | none => d
    | some sl =>
      match sendsessSent d.sess sl pn.toNat nowMs.toNat with
      | none => d
      | some s => { d with sess := s, taken := none, history := (pn.toNat, sl) :: d.history }
  | .untake =>
    match d.taken with
    | none => d
    | some sl => { d with sess := sendsessUntake d.sess sl, taken := none }
  | .ack lo hi =>
    { d with
      sess := sendsessAck d.sess lo.toNat hi.toNat
      acked := ackedBy d.history lo.toNat hi.toNat ++ d.acked }
  | .ackRequeued lo hi =>
    { d with
      sess := sendsessAckRequeued d.sess lo.toNat hi.toNat
      acked := ackedBy d.history lo.toNat hi.toNat ++ d.acked }
  | .detectLost largestAcked nowMs lossDelayUs cap =>
    { d with sess := (sendsessDetectLost d.sess largestAcked.toNat nowMs.toNat lossDelayUs.toNat
        cap.toNat).sess }
  | .ptoProbe => { d with sess := (sendsessPtoProbe d.sess).1 }
  | .ptoFire maxProbes => { d with sess := (sendsessPtoFire d.sess maxProbes).1 }
  | .extend added => { d with sess := sendsessExtend d.sess added.toNat }
  | .setChunk chunk => { d with sess := { d.sess with q := { d.sess.q with chunk := chunk.toNat } } }
  | .done => { d with sess := (sendsessDone d.sess).1 }

/-- A session armed over `len` bytes, on a ring of `cap` bytes if `cap` is not 0. -/
def deliveryInit (len chunk cap : UInt64) : Delivery where
  sess :=
    let s := sendsessArm len.toNat chunk.toNat
    { s with q := sendqSetRing s.q cap.toNat }
  taken := none
  history := []
  acked := []

/-- A slice with the byte was acknowledged. -/
def Acked (acked : List SendqSlice) (o : Nat) : Prop := ∃ sl ∈ acked, sl.Covers o

/-- A packet in flight has the byte. -/
def InFlight (s : Sendsess) (o : Nat) : Prop := ∃ e ∈ s.log, e.inflight = true ∧ e.sl.Covers o

/-- A slice to be sent again has the byte. -/
def InRequeue (s : Sendsess) (o : Nat) : Prop := ∃ r ∈ s.requeue, r.sl.Covers o

/-- The caller holds the byte. -/
def InTaken (taken : Option SendqSlice) (o : Nat) : Prop := ∃ sl ∈ taken, sl.Covers o

/-- Every byte below the send cursor is acknowledged, in flight, requeued or held by the caller. -/
def NoByteLost (d : Delivery) : Prop :=
  ∀ o < d.sess.q.cur,
    Acked d.acked o ∨ InFlight d.sess o ∨ InRequeue d.sess o ∨ InTaken d.taken o

/-! ## The invariant -/

/-- If `pn1` is 1 + a packet number, that packet carried every byte of the slice. -/
def Carried (history : List (Nat × SendqSlice)) (pn1 : Nat) (sl : SendqSlice) : Prop :=
  pn1 ≠ 0 → ∃ p ∈ history, p.1 = pn1 - 1 ∧ ∀ o, sl.Covers o → p.2.Covers o

/-- The invariant of a delivery. -/
structure Intact (s : Sendsess) (taken : Option SendqSlice) (history : List (Nat × SendqSlice))
    (acked : List SendqSlice) : Prop where
  accounted : ∀ o < s.q.cur,
    Acked acked o ∨ InFlight s o ∨ InRequeue s o ∨ InTaken taken o
  log_length : s.log.length = sendsessLog
  log_carried : ∀ e ∈ s.log, e.inflight = true → (e.pn, e.sl) ∈ history
  requeue_carried : ∀ r ∈ s.requeue, Carried history r.pn1 r.sl
  taken_carried : ∀ sl ∈ taken, Carried history s.takenPn sl
  history_u64 : ∀ p ∈ history, p.1 < 2 ^ 64
  idle_above : ∀ i, s.logHi ≤ i → (s.slot i).inflight = false
  inflight_count : s.inflightN = s.log.countP (·.inflight)

variable {s : Sendsess} {taken : Option SendqSlice} {history : List (Nat × SendqSlice)}
  {acked : List SendqSlice} {s' : Sendsess} {sl : SendqSlice} {rq : List Requeued} {k : Nat}

variable {i pn1 : Nat} {last x : Requeued}

theorem slot_mem (hin : (s.slot i).inflight = true) :
    ∃ hi : i < s.log.length, s.log[i] = s.slot i := by
  by_cases hi : i < s.log.length
  · exact ⟨hi, by simp [Sendsess.slot, hi]⟩
  · simp [Sendsess.slot, Nat.le_of_not_lt hi, emptySlot] at hin

theorem slot_set (i j : Nat) (e : SentSlice) (hi : i < s.log.length) :
    (s.log.set i e).getD j emptySlot = if j = i then e else s.slot j := by
  by_cases hji : i = j
  · subst hji
    simp [hi]
  · simp [hji, Ne.symm hji, Sendsess.slot]

section

variable (h : Intact s taken history acked)
include h

theorem Intact.acked_append (more : List SendqSlice) : Intact s taken history (more ++ acked) := by
  refine { h with accounted := fun o ho => (h.accounted o ho).imp_left ?_ }
  rintro ⟨sl, hsl, hc⟩
  exact ⟨sl, mem_append_right _ hsl, hc⟩

/-- A slice carried by the packet it names can be put on the requeue. -/
theorem Intact.push (hsl : Carried history pn1 sl) :
    Intact { s with requeue := s.requeue ++ [{ sl, pn1 }] } taken history acked := by
  refine { h with accounted := ?_, requeue_carried := ?_ }
  · intro o ho
    refine (h.accounted o ho).imp_right (Or.imp_right (Or.imp_left ?_))
    rintro ⟨r, hr, hc⟩
    exact ⟨r, mem_append_left _ hr, hc⟩
  · rw [forall_mem_append, forall_mem_singleton]
    exact ⟨h.requeue_carried, hsl⟩

section

variable (hin : (s.slot i).inflight = true)
include hin

theorem slot_carried : ((s.slot i).pn, (s.slot i).sl) ∈ history := by
  obtain ⟨hi, he⟩ := slot_mem hin
  rw [← he]
  exact h.log_carried _ (getElem_mem hi) (he ▸ hin)

theorem carried_of_slot : Carried history (addU64 (s.slot i).pn 1) (s.slot i).sl := by
  intro hne
  have hmem := slot_carried h hin
  have hlt := h.history_u64 _ hmem
  refine ⟨_, hmem, ?_, fun o ho => ho⟩
  unfold addU64 at hne ⊢
  omega

/-- A log entry can be cleared once its bytes are acknowledged or requeued. -/
theorem Intact.clear (hheld : ∀ o, (s.slot i).sl.Covers o → Acked acked o ∨ InRequeue s o) :
    Intact (sendsessClearInflight s i) taken history acked := by
  obtain ⟨hi, he⟩ := slot_mem hin
  refine ⟨?_, by simpa [sendsessClearInflight] using h.log_length, ?_, h.requeue_carried,
    h.taken_carried, h.history_u64, ?_, ?_⟩
  · intro o ho
    rcases h.accounted o ho with hA | ⟨e, hmem, hfl, hc⟩ | hrest
    · exact Or.inl hA
    · obtain ⟨j, hj, rfl⟩ := mem_iff_getElem.mp hmem
      by_cases hji : i = j
      · subst hji
        rw [he] at hc
        rcases hheld o hc with hA | hR
        · exact Or.inl hA
        · exact Or.inr (Or.inr (Or.inl hR))
      · refine Or.inr (Or.inl ⟨s.log[j], ?_, hfl, hc⟩)
        refine mem_iff_getElem.mpr ⟨j, by simpa [sendsessClearInflight] using hj, ?_⟩
        simp [sendsessClearInflight, hji]
    · exact Or.inr (Or.inr hrest)
  · intro e hmem hfl
    rcases mem_or_eq_of_mem_set hmem with hold | rfl
    · exact h.log_carried e hold hfl
    · cases hfl
  · intro j hj
    show ((s.log.set i _).getD j emptySlot).inflight = false
    rw [slot_set i j _ hi]
    split
    · rfl
    · exact h.idle_above j hj
  · have hcount := h.inflight_count
    have hfl : s.log[i].inflight = true := by rw [he]; exact hin
    simp only [sendsessClearInflight, countP_set hi, hfl, if_true]
    rw [hcount]
    simp

end

end

theorem sendsessFreeSlot_spec (h : sendsessFreeSlot s = some i) :
    i < sendsessLog ∧ (s.slot i).inflight = false := by
  have hfree := find?_some h
  have hmem := mem_of_find?_eq_some h
  simp only [Bool.not_eq_eq_eq_not, Bool.not_true] at hfree
  exact ⟨mem_range.mp hmem, hfree⟩

theorem Carried.sub {sub : SendqSlice} (h : Carried history pn1 sl)
    (hsub : ∀ o, sub.Covers o → sl.Covers o) : Carried history pn1 sub := by
  intro hne
  obtain ⟨p, hp, hpn, hc⟩ := h hne
  exact ⟨p, hp, hpn, fun o ho => hc o (hsub o ho)⟩

section

variable (sl : SendqSlice) (h : Intact s (some sl) history acked)
include h

theorem intact_sent {pn nowMs : Nat}
    (hpn : pn < 2 ^ 64) (hs : sendsessSent s sl pn nowMs = some s') :
    Intact s' none ((pn, sl) :: history) acked := by
  unfold sendsessSent at hs
  cases hslot : sendsessFreeSlot s with
  | none => simp [hslot] at hs
  | some i =>
    simp only [hslot, Option.some.injEq] at hs
    subst hs
    obtain ⟨hi, hfree⟩ := sendsessFreeSlot_spec hslot
    rw [← h.log_length] at hi
    have he : s.log[i] = s.slot i := by simp [Sendsess.slot, hi]
    refine ⟨?_, by simpa using h.log_length, ?_, ?_, by simp, ?_, ?_, ?_⟩
    · intro o ho
      rcases h.accounted o ho with hA | ⟨e, hmem, hfl, hc⟩ | hR | ⟨t, ht, hc⟩
      · exact Or.inl hA
      · obtain ⟨j, hj, rfl⟩ := mem_iff_getElem.mp hmem
        by_cases hji : i = j
        · subst hji
          rw [he, hfree] at hfl
          cases hfl
        · refine Or.inr (Or.inl ⟨s.log[j], ?_, hfl, hc⟩)
          exact mem_iff_getElem.mpr ⟨j, by simpa using hj, by simp [hji]⟩
      · exact Or.inr (Or.inr (Or.inl hR))
      · cases ht
        exact Or.inr (Or.inl ⟨_, mem_set hi _, rfl, hc⟩)
    · intro e hmem hfl
      rcases mem_or_eq_of_mem_set hmem with hold | rfl
      · exact mem_cons_of_mem _ (h.log_carried e hold hfl)
      · exact mem_cons_self
    · intro r hr hne
      obtain ⟨p, hp, hpn, hc⟩ := h.requeue_carried r hr hne
      exact ⟨p, mem_cons_of_mem _ hp, hpn, hc⟩
    · exact forall_mem_cons.mpr ⟨hpn, h.history_u64⟩
    · intro j hj
      show (List.getD _ j emptySlot).inflight = false
      have hj' : max s.logHi (i + 1) ≤ j := hj
      rw [slot_set i j _ hi, if_neg (by omega)]
      exact h.idle_above j (by omega)
    · have hfl : s.log[i].inflight = false := by rw [he]; exact hfree
      simp [countP_set hi, hfl, h.inflight_count]

theorem intact_untake (hroom : s.requeue.length < sendsessLog) :
    Intact (sendsessUntake s sl) none history acked := by
  unfold sendsessUntake
  rw [if_pos hroom]
  have hpush := h.push (h.taken_carried sl rfl)
  refine { hpush with accounted := ?_, taken_carried := by simp }
  intro o ho
  refine (hpush.accounted o ho).imp_right (Or.imp_right ?_)
  rintro (hR | ⟨t, ht, hc⟩)
  · exact Or.inl hR
  · cases ht
    exact Or.inl ⟨_, mem_append_right _ mem_cons_self, hc⟩

theorem intact_split :
    Intact (sendsessSplit s sl).1 (some (sendsessSplit s sl).2) history acked := by
  unfold sendsessSplit
  dsimp only
  split
  · exact h
  · rename_i hsplit
    have htk := h.taken_carried sl rfl
    let rest : SendqSlice := ⟨sl.offset + s.q.chunk, sl.len - s.q.chunk, sl.fin⟩
    have hrest : ∀ o, rest.Covers o → sl.Covers o := by
      intro o ho
      unfold SendqSlice.Covers at *
      simp only [rest] at ho
      omega
    have hpush := h.push (htk.sub hrest)
    refine { hpush with accounted := ?_, taken_carried := ?_ }
    · intro o ho
      refine (hpush.accounted o ho).imp_right (Or.imp_right ?_)
      rintro (hR | ⟨t, ht, hc⟩)
      · exact Or.inl hR
      · cases ht
        -- the byte is in the part that goes out or in the rest
        by_cases hin : o < sl.offset + s.q.chunk
        · exact Or.inr ⟨_, rfl, hc.1, hin⟩
        · refine Or.inl ⟨_, mem_append_right _ mem_cons_self, ?_⟩
          unfold SendqSlice.Covers at hc ⊢
          dsimp only
          omega
    · intro t ht
      cases ht
      exact htk.sub fun o ho => by unfold SendqSlice.Covers at *; simp only at ho; omega

end

theorem sendqNext_cur (q : Sendq) : ∀ o < (sendqNext q).1.cur,
    o < q.cur ∨ InTaken (sendqNext q).2 o := by
  intro o ho
  unfold sendqNext at ho ⊢
  split
  · rename_i hge
    rw [if_pos hge] at ho
    exact Or.inl ho
  · rename_i hlt
    rw [if_neg hlt] at ho
    by_cases hold : o < q.cur
    · exact Or.inl hold
    · exact Or.inr ⟨_, rfl, Nat.le_of_not_lt hold, ho⟩

theorem intact_take (h : Intact s none history acked) :
    Intact (sendsessTake s).1 (sendsessTake s).2 history acked := by
  unfold sendsessTake
  cases htop : s.requeue.getLast? with
  | none =>
    refine { h with accounted := ?_, taken_carried := ?_ }
    · intro o ho
      rcases sendqNext_cur s.q o ho with hold | hnew
      · refine (h.accounted o hold).imp_right (Or.imp_right (Or.imp_right ?_))
        rintro ⟨t, ht, -⟩
        cases ht
      · exact Or.inr (Or.inr (Or.inr hnew))
    · exact fun _ _ hne => absurd rfl hne
  | some top =>
    have hrq : s.requeue.dropLast ++ [top] = s.requeue := dropLast_append_getLast? top htop
    have hmem : ∀ r, r ∈ s.requeue ↔ r ∈ s.requeue.dropLast ∨ r = top := by
      intro r
      rw [← hrq]
      simp
    refine intact_split top.sl (s := { s with requeue := s.requeue.dropLast, takenPn := top.pn1 })
      { h with accounted := ?_, requeue_carried := ?_, taken_carried := ?_ }
    · intro o ho
      refine (h.accounted o ho).imp_right (Or.imp_right ?_)
      rintro (⟨r, hr, hc⟩ | ⟨t, ht, -⟩)
      · rcases (hmem r).mp hr with hr | rfl
        · exact Or.inl ⟨r, hr, hc⟩
        · exact Or.inr ⟨_, rfl, hc⟩
      · cases ht
    · exact fun r hr => h.requeue_carried r ((hmem r).mpr (Or.inl hr))
    · intro t ht
      cases ht
      exact h.requeue_carried top ((hmem top).mpr (Or.inr rfl))

/-! ## Acknowledgments, losses and probes -/

theorem mem_ackedBy {lo hi : Nat} {p : Nat × SendqSlice} (hp : p ∈ history) (hlo : lo ≤ p.1)
    (hhi : p.1 ≤ hi) : p.2 ∈ ackedBy history lo hi := by
  refine mem_map.mpr ⟨p, mem_filter.mpr ⟨hp, ?_⟩, rfl⟩
  simp [hlo, hhi]

/-- Replacing an entry by the last one and dropping that adds no entry. -/
theorem mem_of_mem_swapRemove (hlast : rq.getLast? = some last)
    (hx : x ∈ (rq.set i last).dropLast) : x ∈ rq := by
  rcases mem_or_eq_of_mem_set (dropLast_subset _ hx) with hx | rfl
  · exact hx
  · exact mem_of_getLast? hlast

/-- Replacing an entry by the last one and dropping that loses only the entry. -/
theorem mem_swapRemove {r : Requeued} (hr : rq[i]? = some r)
    (hlast : rq.getLast? = some last) (hx : x ∈ rq) : x ∈ (rq.set i last).dropLast ∨ x = r := by
  obtain ⟨hi, he⟩ := List.getElem?_eq_some_iff.mp hr
  obtain ⟨j, hj, rfl⟩ := mem_iff_getElem.mp hx
  by_cases hji : i = j
  · subst hji
    exact Or.inr he
  · left
    by_cases hjl : j + 1 = rq.length
    · -- the last entry moved to index `i`
      refine mem_iff_getElem.mpr ⟨i, by simp; omega, ?_⟩
      rw [getLast?_eq_getElem?] at hlast
      obtain ⟨hl, hlast⟩ := List.getElem?_eq_some_iff.mp hlast
      have hj' : j = rq.length - 1 := by omega
      subst hj'
      simp [getElem_dropLast, hlast]
    · refine mem_iff_getElem.mpr ⟨j, by simp; omega, ?_⟩
      simp [getElem_dropLast, hji]

/-- The loop drops only entries whose lost packet the range acknowledges, and adds none. -/
theorem ackRequeuedLoop_spec (lo hi fuel i : Nat) (rq : List Requeued) :
    (∀ r ∈ ackRequeuedLoop lo hi fuel i rq, r ∈ rq) ∧
      ∀ r ∈ rq, r ∈ ackRequeuedLoop lo hi fuel i rq ∨ sendsessRequeueAcked r lo hi = true := by
  induction fuel generalizing i rq with
  | zero => exact ⟨fun _ hr => hr, fun _ hr => Or.inl hr⟩
  | succ fuel ih =>
    unfold ackRequeuedLoop
    split
    · rename_i r last hr hlast
      split
      · rename_i hacked
        obtain ⟨hsub, hsup⟩ := ih i (rq.set i last).dropLast
        refine ⟨fun x hx => mem_of_mem_swapRemove hlast (hsub x hx), ?_⟩
        intro x hx
        rcases mem_swapRemove hr hlast hx with hx | rfl
        · exact hsup x hx
        · exact Or.inr hacked
      · exact ih (i + 1) rq
    · exact ⟨fun _ hr => hr, fun _ hr => Or.inl hr⟩

theorem sendsessOldestAbove_inflight {above1 : Nat} (h : sendsessOldestAbove s above1 = some i) :
    (s.slot i).inflight = true := by
  refine foldl_invariant (I := fun best : Option Nat => ∀ i ∈ best, (s.slot i).inflight = true)
    ?_ (List.range s.logHi) (s := none) (by simp) i h
  intro best j hbest
  split
  · rename_i holder
    intro i hi
    cases hi
    simp only [sendsessOlder, sendsessLiveAbove, Bool.and_eq_true] at holder
    exact holder.1.1
  · exact hbest

section

variable (h : Intact s taken history acked)
include h

theorem intact_ack (lo hi : Nat) :
    Intact (sendsessAck s lo hi) taken history (ackedBy history lo hi ++ acked) := by
  have hstart : Intact { sendsessNoteLargest s hi with ptoCount := 0 } taken history
      (ackedBy history lo hi ++ acked) := { h.acked_append _ with }
  refine foldl_invariant (I := fun s => Intact s taken history (ackedBy history lo hi ++ acked))
    ?_ _ hstart
  intro s i hs
  unfold sendsessAckOne
  split
  · rename_i hcov
    simp only [sendsessCovered, Bool.and_eq_true, decide_eq_true_eq] at hcov
    obtain ⟨⟨hin, hlo⟩, hhi⟩ := hcov
    refine hs.clear hin fun o ho => Or.inl ⟨_, mem_append_left _ ?_, ho⟩
    exact mem_ackedBy (slot_carried hs hin) hlo hhi
  · exact hs

theorem intact_ackRequeued (lo hi : Nat) :
    Intact (sendsessAckRequeued s lo hi) taken history (ackedBy history lo hi ++ acked) := by
  obtain ⟨hsub, hsup⟩ := ackRequeuedLoop_spec lo hi s.requeue.length 0 s.requeue
  have happ := h.acked_append (ackedBy history lo hi)
  refine { h with
    accounted := ?_, requeue_carried := fun r hr => h.requeue_carried r (hsub r hr) }
  intro o ho
  rcases happ.accounted o ho with hA | hL | ⟨r, hr, hc⟩ | hT
  · exact Or.inl hA
  · exact Or.inr (Or.inl hL)
  · rcases hsup r hr with hr' | hacked
    · exact Or.inr (Or.inr (Or.inl ⟨r, hr', hc⟩))
    · simp only [sendsessRequeueAcked, Bool.and_eq_true, decide_eq_true_eq] at hacked
      obtain ⟨p, hp, hpn, hsl⟩ := h.requeue_carried r hr (by omega)
      refine Or.inl ⟨p.2, mem_append_left _ ?_, hsl o hc⟩
      exact mem_ackedBy hp (by omega) (by omega)
  · exact Or.inr (Or.inr (Or.inr hT))

theorem intact_requeue (hin : (s.slot i).inflight = true) :
    Intact (sendsessRequeue s i) taken history acked := by
  unfold sendsessRequeue
  split
  · exact h
  · refine (h.push (carried_of_slot h hin)).clear hin fun o ho => Or.inr ?_
    exact ⟨_, mem_append_right _ mem_cons_self, ho⟩

theorem intact_detectLost (largestAcked nowMs lossDelayUs cap : Nat) :
    Intact (sendsessDetectLost s largestAcked nowMs lossDelayUs cap).sess taken history acked := by
  refine foldl_invariant (I := fun d : DetectState => Intact d.sess taken history acked) ?_ _ h
  intro d i hd
  unfold sendsessDetectOne
  dsimp only
  split
  · rename_i hlost
    have hin : (d.sess.slot i).inflight = true := by
      by_contra hfl
      simp [sendsessLost, sendsessLostEligible, hfl] at hlost
    exact intact_requeue hd hin
  · exact hd

theorem intact_copy {i : Option Nat}
    (hin : ∀ j ∈ i, (s.slot j).inflight = true) : Intact (sendsessCopy s i) taken history acked := by
  unfold sendsessCopy
  cases i with
  | none => exact h
  | some i =>
    dsimp only
    split
    · exact h
    · exact h.push (carried_of_slot h (hin i rfl))

theorem intact_ptoProbe : Intact (sendsessPtoProbe s).1 taken history acked := by
  unfold sendsessPtoProbe
  cases hold : sendsessOldestAbove s 0 with
  | none => exact h
  | some a =>
    dsimp only
    split
    · exact h
    · have hfirst : Intact (sendsessCopy s (some a)) taken history acked := by
        refine intact_copy h fun j hj => ?_
        cases hj
        exact sendsessOldestAbove_inflight hold
      exact intact_copy hfirst fun j hj => sendsessOldestAbove_inflight hj

theorem intact_ptoFire (maxProbes : Int) :
    Intact (sendsessPtoFire s maxProbes).1 taken history acked := by
  unfold sendsessPtoFire
  split_ifs
  · exact h
  · exact h
  · exact intact_ptoProbe { h with }

end

theorem sendsessDone_spec (s : Sendsess) :
    (sendsessDone s).1 = { s with active := (sendsessDone s).1.active } ∧
      ((sendsessDone s).2 = true → s.q.len ≤ s.q.cur ∧ s.requeue = [] ∧ s.inflightN = 0) := by
  unfold sendsessDone
  split_ifs with hactive hpending
  · exact ⟨rfl, by simp⟩
  · exact ⟨rfl, by simp⟩
  · simpa [sendsessPending, sendqAllSent, and_assoc] using hpending

/-! ## Whole runs -/

def Delivery.Inv (d : Delivery) : Prop := Intact d.sess d.taken d.history d.acked

/-- A slice is given back only while the requeue has room for it. -/
def UntakeHasRoom (d : Delivery) (op : Op) : Prop :=
  op = .untake → d.taken ≠ none → d.sess.requeue.length < sendsessLog
deriving Decidable

theorem inv_init (len chunk cap : UInt64) : (deliveryInit len chunk cap).Inv where
  accounted := by simp [deliveryInit, sendsessArm, sendqInit, sendqSetRing]
  log_length := by simp [deliveryInit, sendsessArm]
  log_carried := by
    intro e he hin
    rw [eq_of_mem_replicate he] at hin
    cases hin
  requeue_carried := by simp [deliveryInit, sendsessArm]
  taken_carried := by simp [deliveryInit]
  history_u64 := by simp [deliveryInit]
  idle_above := by
    intro i _
    simp only [Sendsess.slot, deliveryInit, sendsessArm, getD_eq_getElem?_getD, getElem?_replicate]
    split <;> rfl
  inflight_count := by simp [deliveryInit, sendsessArm, emptySlot, countP_replicate]

theorem inv_step (d : Delivery) (op : Op) (h : d.Inv) (hroom : UntakeHasRoom d op) :
    (deliveryStep d op).Inv := by
  unfold Delivery.Inv at h ⊢
  cases op with
  | take =>
    simp only [deliveryStep]
    cases htaken : d.taken with
    | some sl => simpa [htaken] using h
    | none =>
      rw [htaken] at h
      exact intact_take h
  | sent pn nowMs =>
    simp only [deliveryStep]
    cases htaken : d.taken with
    | none => simpa [htaken] using h
    | some sl =>
      rw [htaken] at h
      dsimp only
      split
      · rw [htaken]
        exact h
      · rename_i s' hs
        exact intact_sent sl h pn.toNat_lt hs
  | untake =>
    simp only [deliveryStep]
    cases htaken : d.taken with
    | none => simpa [htaken] using h
    | some sl =>
      rw [htaken] at h
      exact intact_untake sl h (hroom rfl (by simp [htaken]))
  | ack lo hi => exact intact_ack h lo.toNat hi.toNat
  | ackRequeued lo hi => exact intact_ackRequeued h lo.toNat hi.toNat
  | detectLost largestAcked nowMs lossDelayUs cap => exact intact_detectLost h _ _ _ _
  | ptoProbe => exact intact_ptoProbe h
  | ptoFire maxProbes => exact intact_ptoFire h maxProbes
  | extend | setChunk => exact { h with }
  | done =>
    simp only [deliveryStep]
    rw [(sendsessDone_spec d.sess).1]
    exact { h with }

variable {d : Delivery}

/-- A session that reports done has every byte acknowledged, unless the caller still holds a slice.
-/
theorem acked_of_done (h : d.Inv) (hdone : (sendsessDone d.sess).2 = true) (htaken : d.taken = none)
    (o : Nat) (ho : o < d.sess.q.cur ∨ o < d.sess.q.len) : Acked d.acked o := by
  obtain ⟨hlen, hrq, hn⟩ := (sendsessDone_spec d.sess).2 hdone
  have hidle : ∀ e ∈ d.sess.log, ¬ e.inflight = true := by
    have hcount := h.inflight_count
    rw [hn] at hcount
    exact countP_eq_zero.mp hcount.symm
  rcases h.accounted o (by omega) with hA | ⟨e, he, hin, -⟩ | ⟨r, hr, -⟩ | ⟨t, ht, -⟩
  · exact hA
  · exact absurd hin (hidle e he)
  · rw [hrq] at hr
    cases hr
  · rw [htaken] at ht
    cases ht

/-- **No byte is lost.** Along every run of a session in which slices are given back only while the
requeue has room, every byte below the cursor is accounted for, and a session that reports done,
with no slice in the caller's hand, has all its bytes acknowledged. -/
theorem noByteLost_of_untakeHasRoom (len chunk cap : UInt64) (ops : List Op)
    (hroom : Along deliveryStep UntakeHasRoom (deliveryInit len chunk cap) ops) :
    NoByteLost (ops.foldl deliveryStep (deliveryInit len chunk cap)) ∧
      ((sendsessDone (ops.foldl deliveryStep (deliveryInit len chunk cap)).sess).2 = true →
        (ops.foldl deliveryStep (deliveryInit len chunk cap)).taken = none →
        ∀ o, o < (ops.foldl deliveryStep (deliveryInit len chunk cap)).sess.q.cur ∨
            o < (ops.foldl deliveryStep (deliveryInit len chunk cap)).sess.q.len →
          Acked (ops.foldl deliveryStep (deliveryInit len chunk cap)).acked o) := by
  have hinv := hroom.invariant (I := Delivery.Inv) inv_step (inv_init len chunk cap)
  exact ⟨hinv.accounted, fun hdone htaken => acked_of_done hinv hdone htaken⟩

/-- A slice is given back and taken again. -/
theorem noByteLost_after_failed_send :
    Along deliveryStep UntakeHasRoom (deliveryInit 5 3 0) [.take, .untake, .take, .sent 0 0] ∧
      NoByteLost ([Op.take, .untake, .take, .sent 0 0].foldl deliveryStep (deliveryInit 5 3 0)) :=
  ⟨by decide, (noByteLost_of_untakeHasRoom 5 3 0 _ (by decide)).1⟩

/-! ## The reclaim floor -/

theorem sendsessLiveMin_le (off : Nat) (live : Bool) (base : Nat) :
    sendsessLiveMin off live base ≤ base ∧
      (live = true → sendsessLiveMin off live base ≤ off) := by
  cases live with
  | false => exact ⟨Nat.le_refl _, nofun⟩
  | true =>
    simp only [sendsessLiveMin, Bool.true_and, decide_eq_true_eq]
    split <;> omega

theorem foldl_liveMin_le {α : Type} (off : α → Nat) (live : α → Bool) (as : List α) (base : Nat) :
    as.foldl (fun base a => sendsessLiveMin (off a) (live a) base) base ≤ base ∧
      ∀ a ∈ as, live a = true →
        as.foldl (fun base a => sendsessLiveMin (off a) (live a) base) base ≤ off a := by
  induction as generalizing base with
  | nil => exact ⟨Nat.le_refl _, nofun⟩
  | cons a as ih =>
    obtain ⟨hle, hmem⟩ := ih (sendsessLiveMin (off a) (live a) base)
    have hmin := sendsessLiveMin_le (off a) (live a) base
    rw [foldl_cons, forall_mem_cons]
    exact ⟨Nat.le_trans hle hmin.1, fun ha => Nat.le_trans hle (hmin.2 ha), hmem⟩

theorem Delivery.Inv.reclaimBase_le {d : Delivery} (h : d.Inv) {o : Nat}
    (ho : InFlight d.sess o ∨ InRequeue d.sess o ∨ d.sess.q.cur ≤ o) :
    sendsessReclaimBase d.sess ≤ o := by
  obtain ⟨hrq, hrequeue⟩ := foldl_liveMin_le (fun r : Requeued => r.sl.offset) (fun _ => true)
    d.sess.requeue (sendsessLogMinOff d.sess d.sess.q.cur)
  obtain ⟨hlog, hslots⟩ := foldl_liveMin_le (fun i => (d.sess.slot i).sl.offset)
    (fun i => (d.sess.slot i).inflight) (List.range d.sess.logHi) d.sess.q.cur
  rcases ho with ⟨e, he, hin, hc⟩ | ⟨r, hr, hc⟩ | hcur
  · obtain ⟨i, hi, rfl⟩ := mem_iff_getElem.mp he
    have hslot : d.sess.slot i = d.sess.log[i] := by simp [Sendsess.slot, hi]
    have hlt : i < d.sess.logHi := by
      by_contra hge
      rw [← hslot, h.idle_above i (by omega)] at hin
      cases hin
    have hle := hslots i (mem_range.mpr hlt) (hslot ▸ hin)
    rw [hslot] at hle
    exact Nat.le_trans hrq (Nat.le_trans hle hc.1)
  · exact Nat.le_trans (hrequeue r hr rfl) hc.1
  · exact Nat.le_trans hrq (Nat.le_trans hlog hcur)

/-- **The floor.** What lies below it is acknowledged or in the hand of the caller, and no byte
written into the room of the ring replaces one that is unsent, in flight or requeued. -/
theorem reclaimBase_along (len chunk cap : UInt64) (ops : List Op)
    (hroom : Along deliveryStep UntakeHasRoom (deliveryInit len chunk cap) ops) :
    let d := ops.foldl deliveryStep (deliveryInit len chunk cap)
    let base := sendsessReclaimBase d.sess
    sendsessUnackedFloor d.sess = base ∧ (∀ o < base, Acked d.acked o ∨ InTaken d.taken o) ∧
      ∀ o n ring, InFlight d.sess o ∨ InRequeue d.sess o ∨ d.sess.q.cur ≤ o →
        o < d.sess.q.len → d.sess.q.len ≤ n → d.sess.q.len - base ≤ ring →
        n < d.sess.q.len + sendsessRingRoom d.sess ring → n % ring ≠ o % ring := by
  intro d base
  have hinv : d.Inv := hroom.invariant inv_step (inv_init len chunk cap)
  refine ⟨?_, fun o ho => ?_, fun o n ring hlive hlt hge hspan hn heq => ?_⟩
  · simp [base, sendsessUnackedFloor, sendsessReclaimBase, sendsessRequeueFloor,
      sendsessRequeueMinOff, sendsessLogFloor, sendsessLogMinOff, sentSliceBelow, sendsessLiveMin]
  · have hnot := fun hlive => Nat.not_le.mpr ho (hinv.reclaimBase_le hlive)
    rcases hinv.accounted o (Nat.lt_of_not_le fun hcur => hnot (.inr (.inr hcur))) with
      hA | hF | hR | hT
    · exact .inl hA
    · exact (hnot (.inl hF)).elim
    · exact (hnot (.inr (.inl hR))).elim
    · exact .inr hT
  · have hbase : base ≤ o := hinv.reclaimBase_le hlive
    have hdiff := Nat.sub_mod_eq_zero_of_mod_eq heq
    unfold sendsessRingRoom at hn
    rw [Nat.mod_eq_of_lt (by omega)] at hdiff
    omega

/-- The second of two slices is acknowledged before the first. -/
theorem reclaimBase_along_hole :
    sendsessUnackedFloor ([Op.take, .sent 0 0, .take, .sent 1 0, .ack 1 1].foldl deliveryStep
      (deliveryInit 6 3 0)).sess = 0 :=
  (reclaimBase_along 6 3 0 _ (by decide)).1.trans (by decide)

/-! ## A requeue that is full when a slice is given back

A stream of 256 bytes goes out as 128 slices of two bytes, all of them are declared lost, and
the chunk size is lowered to one byte. -/

def twoByteSlice (i : Nat) : SendqSlice := { offset := 2 * i, len := 2, fin := 2 * i + 2 ≥ 256 }

def twoByteEntry (i : Nat) : SentSlice :=
  { pn := i, sl := twoByteSlice i, inflight := true, sentMs := 0 }

/-- `k` slices are taken and sent. -/
def sendPairs (k : Nat) : List Op :=
  (List.range k).flatMap fun i => [Op.take, Op.sent (UInt64.ofNat i) 0]

/-- The first `k` slices are in flight, in log order. -/
def sentState (k : Nat) : Delivery where
  sess := { (deliveryInit 256 2 0).sess with
    q := { len := 256, cur := 2 * k, chunk := 2, cap := 0 }
    log := (List.range k).map twoByteEntry ++ List.replicate (128 - k) emptySlot
    logHi := k
    inflightN := k
    inflightLen := 2 * k }
  taken := none
  history := (List.range k).reverse.map fun i => (i, twoByteSlice i)
  acked := []

theorem sentState_freeSlot (hk : k < 128) : sendsessFreeSlot (sentState k).sess = some k := by
  unfold sendsessFreeSlot
  rw [find?_range_eq_some]
  refine ⟨?_, mem_range.mpr hk, ?_⟩
  · simp only [Sendsess.slot, sentState, getD_eq_getElem?_getD]
    rw [getElem?_append_right (by simp), getElem?_replicate]
    split <;> rfl
  · intro j hj
    simp [Sendsess.slot, sentState, hj, getElem?_append_left, twoByteEntry]

theorem sentState_step (hk : k < 128) :
    [Op.take, .sent (UInt64.ofNat k) 0].foldl deliveryStep (sentState k) = sentState (k + 1) := by
  have hnext : sendqNext (sentState k).sess.q =
      ({ len := 256, cur := 2 * (k + 1), chunk := 2, cap := 0 }, some (twoByteSlice k)) := by
    have hn : min (subU64 256 (2 * k)) 2 = 2 := by
      rw [subU64_eq (by decide) (by omega)]
      omega
    have hlt : ¬ 2 * k ≥ 256 := by omega
    simp only [sendqNext, sendqTake, sentState, hn, hlt, if_false, ne_eq, not_true_eq_false]
    rfl
  have hslot : ∀ q n, sendsessFreeSlot { (sentState k).sess with q := q, takenPn := n } = some k :=
    fun _ _ => sentState_freeSlot hk
  have hpn : (UInt64.ofNat k).toNat = k := by simp; omega
  have hlog : (sentState k).sess.log.set k (twoByteEntry k) = (sentState (k + 1)).sess.log := by
    obtain ⟨n, hn⟩ : ∃ n, 128 - k = n + 1 := ⟨127 - k, by omega⟩
    simp only [sentState, hn, show 128 - (k + 1) = n by omega, replicate_succ,
      range_succ]
    simp [set_append_right]
  have hinit : (sentState k).sess.requeue.getLast? = none := rfl
  have htaken : (sentState k).taken = none := rfl
  simp only [foldl_cons, foldl_nil, deliveryStep, htaken, sendsessTake, hinit, hnext,
    sendsessSent, hslot, hpn]
  have hhist : (k, twoByteSlice k) :: (sentState k).history = (sentState (k + 1)).history := by
    simp [sentState, range_succ]
  have hhi : max (sentState k).sess.logHi (k + 1) = k + 1 := Nat.max_eq_right (Nat.le_succ k)
  have hlen : addU64 (sentState k).sess.inflightLen (twoByteSlice k).len = 2 * (k + 1) :=
    addU64_eq (show 2 * k + 2 < 2 ^ 64 by omega)
  rw [hlen, hhi, hhist, show SentSlice.mk k (twoByteSlice k) true (UInt64.toNat 0) =
    twoByteEntry k from rfl, hlog]
  rfl

theorem sendPairs_sent (k : Nat) (hk : k ≤ 128) :
    (sendPairs k).foldl deliveryStep (deliveryInit 256 2 0) = sentState k := by
  induction k with
  | zero => rfl
  | succ k ih =>
    have hsplit : sendPairs (k + 1) = sendPairs k ++ [.take, .sent (UInt64.ofNat k) 0] := by
      simp [sendPairs, range_succ]
    rw [hsplit, foldl_append, ih (by omega), sentState_step (by omega)]

/-- All slices are lost, and the requeue is full of them; the last one is split. -/
theorem sentState_untake :
    let d := [Op.detectLost 1000 0 0 0, .setChunk 1, .take, .untake].foldl deliveryStep
      (sentState 128)
    254 < d.sess.q.cur ∧ d.acked = [] ∧ d.taken = none ∧ (∀ e ∈ d.sess.log, e.inflight = false) ∧
      ∀ r ∈ d.sess.requeue, ¬ r.sl.Covers 254 := by
  decide +kernel

/-- The first byte of the slice that is split and given back is in no table any more, and is never
sent again. -/
theorem untake_after_split_loses_byte :
    ¬ NoByteLost ([Op.detectLost 1000 0 0 0, .setChunk 1, .take, .untake].foldl deliveryStep
      ((sendPairs 128).foldl deliveryStep (deliveryInit 256 2 0))) := by
  rw [sendPairs_sent 128 (Nat.le_refl _)]
  obtain ⟨hcur, hacked, htaken, hlog, hrequeue⟩ := sentState_untake
  intro hall
  rcases hall 254 hcur with ⟨sl, hsl, -⟩ | ⟨e, he, hin, -⟩ | ⟨r, hr, hc⟩ | ⟨sl, hsl, -⟩
  · rw [hacked] at hsl
    cases hsl
  · rw [hlog e he] at hin
    cases hin
  · exact hrequeue r hr hc
  · rw [htaken] at hsl
    cases hsl
end Wired.Server
