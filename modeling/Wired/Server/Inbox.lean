import Mathlib.Data.Nat.Bitwise
import Wired.Lib.Ring
import Wired.Lib.Run
import Wired.Lib.Word

/-!
# The broadcast inbox

`wired_srvinbox_ring` of `srvinbox.c`: a ring of four slots through which one worker hands
datagrams to another. The producer only calls `wired_srvinbox_push`, the consumer only
`wired_srvinbox_pop`, and neither takes a lock. Every load, every store and every copied byte is a
step of its own here, and a run is any sequence of steps of the two sides.

The bytes of the popped messages are those of the pushed ones, in order (`InboxInv`). The length is
another matter: `pop` loads `slot->len` once more after it has released the slot, which may by then
be the producer's (`inOrder_along_iff`, `refilledRun_length`).
-/

namespace Wired.Server

open Lib Function

def srvinboxDepth : Nat := 4

def srvinboxSlotMax : Nat := 1200

/-- A message's bytes and its length. -/
structure SrvinboxSlot where
  buf : Nat → UInt8
  len : Nat

/-- The slots, and how many messages were pushed and popped. -/
structure SrvinboxRing where
  slots : Nat → SrvinboxSlot
  prod : Nat
  cons : Nat

def srvinboxFullAt (prod cons : Nat) : Bool := subU32 prod cons == srvinboxDepth

def srvinboxEmptyAt (prod cons : Nat) : Bool := cons == prod

/-- The slot of a free-running counter. -/
def slotAt (counter : Nat) : Nat := counter &&& (srvinboxDepth - 1)

/-- Where a call of `wired_srvinbox_push` stands: what it does next, and its locals. -/
inductive PushAt
  | idle
  | load (data : List UInt8)
  | look (data : List UInt8) (prod : Nat)
  | relook (data : List UInt8) (prod : Nat)
  | copy (data : List UInt8) (prod i : Nat)
  | publish (data : List UInt8) (prod : Nat)

/-- Where a call of `wired_srvinbox_pop` stands; `out` is what it has copied to `out_buf`. -/
inductive PopAt
  | idle
  | load (outCap : Nat)
  | look (outCap cons : Nat)
  | relook (outCap cons : Nat)
  | check (outCap cons : Nat)
  | size (cons : Nat)
  | copy (cons n : Nat) (out : List UInt8)
  | release (cons : Nat) (out : List UInt8)
  | ret (cons : Nat) (out : List UInt8)

/-- The ring, the two sides, and what they have done: the messages whose push returned 1, and for
each pop that released a slot the bytes in its buffer and the length it returned. -/
structure Inbox where
  ring : SrvinboxRing
  push : PushAt
  pop : PopAt
  pushed : List (List UInt8)
  popped : List (List UInt8 × Nat)

/-- A ring after `wired_srvinbox_ring_init`, whatever its slots hold. -/
def inboxInit (slots : Nat → SrvinboxSlot) : Inbox where
  ring := { slots, prod := 0, cons := 0 }
  push := .idle
  pop := .idle
  pushed := []
  popped := []

def SrvinboxRing.setSlot (r : SrvinboxRing) (k : Nat) (slot : SrvinboxSlot) : SrvinboxRing :=
  { r with slots := update r.slots k slot }

def SrvinboxSlot.setByte (slot : SrvinboxSlot) (i : Nat) (b : UInt8) : SrvinboxSlot :=
  { slot with buf := update slot.buf i b }

def SrvinboxSlot.setLen (slot : SrvinboxSlot) (n : Nat) : SrvinboxSlot := { slot with len := n }

/-- The next load, store or byte of the push under way. -/
def srvinboxPush (s : Inbox) : Inbox :=
  match s.push with
  | .idle => s
  | .load data =>
    if data.length > srvinboxSlotMax then { s with push := .idle }
    else { s with push := .look data s.ring.prod }
  | .look data prod =>
    if srvinboxFullAt prod s.ring.cons then { s with push := .relook data prod }
    else { s with push := .copy data prod 0 }
  | .relook data prod =>
    if srvinboxFullAt prod s.ring.cons then { s with push := .idle }
    else { s with push := .copy data prod 0 }
  | .copy data prod i =>
    let slot := s.ring.slots (slotAt prod)
    match data[i]? with
    | some b =>
      { s with ring := s.ring.setSlot (slotAt prod) (slot.setByte i b),
               push := .copy data prod (i + 1) }
    | none =>
      { s with ring := s.ring.setSlot (slotAt prod) (slot.setLen data.length),
               push := .publish data prod }
  | .publish data prod =>
    { s with ring := { s.ring with prod := (prod + 1) % 2 ^ 32 }, push := .idle,
             pushed := s.pushed ++ [data] }

/-- The next load, store or byte of the pop under way. -/
def srvinboxPop (s : Inbox) : Inbox :=
  match s.pop with
  | .idle => s
  | .load outCap => { s with pop := .look outCap s.ring.cons }
  | .look outCap cons =>
    if srvinboxEmptyAt s.ring.prod cons then { s with pop := .relook outCap cons }
    else { s with pop := .check outCap cons }
  | .relook outCap cons =>
    if srvinboxEmptyAt s.ring.prod cons then { s with pop := .idle }
    else { s with pop := .check outCap cons }
  | .check outCap cons =>
    if (s.ring.slots (slotAt cons)).len > outCap then { s with pop := .idle }
    else { s with pop := .size cons }
  | .size cons => { s with pop := .copy cons (s.ring.slots (slotAt cons)).len [] }
  | .copy cons n out =>
    if out.length < n then
      { s with pop := .copy cons n (out ++ [(s.ring.slots (slotAt cons)).buf out.length]) }
    else { s with pop := .release cons out }
  | .release cons out =>
    { s with ring := { s.ring with cons := (cons + 1) % 2 ^ 32 }, pop := .ret cons out }
  | .ret cons out =>
    -- `return slot->len`, after the store to `cons`
    { s with pop := .idle, popped := s.popped ++ [(out, (s.ring.slots (slotAt cons)).len)] }

/-- What can happen next: a side calls its function, or takes a step of the call under way. -/
inductive InboxEvent
  | callPush (data : List UInt8)
  | callPop (outCap : Nat)
  | producer
  | consumer

/-- One step of one of the sides, or a call. -/
def inboxStep (s : Inbox) : InboxEvent → Inbox
  | .callPush data =>
    match s.push with
    | .idle => { s with push := .load data }
    | _ => s
  | .callPop outCap =>
    match s.pop with
    | .idle => { s with pop := .load outCap }
    | _ => s
  | .producer => srvinboxPush s
  | .consumer => srvinboxPop s

/-! ## What a slot holds -/

def SrvinboxSlot.message (slot : SrvinboxSlot) : List UInt8 :=
  (List.range slot.len).map slot.buf

variable {i : Nat}

@[simp] theorem SrvinboxSlot.message_length (slot : SrvinboxSlot) :
    slot.message.length = slot.len := by
  simp [SrvinboxSlot.message]

theorem SrvinboxSlot.message_getElem? (slot : SrvinboxSlot) (h : i < slot.len) :
    slot.message[i]? = some (slot.buf i) := by
  simp [SrvinboxSlot.message, h]

/-- The messages of the slots, as the ring of messages that they are. -/
def SrvinboxRing.messages (r : SrvinboxRing) : Nat → List UInt8 :=
  SrvinboxSlot.message ∘ r.slots

theorem slotAt_mod (n : Nat) : slotAt (n % 2 ^ 32) = n % srvinboxDepth := by
  have hmask : slotAt (n % 2 ^ 32) = n % 2 ^ 32 % 2 ^ 2 := Nat.and_two_pow_sub_one_eq_mod _ 2
  rw [hmask, srvinboxDepth]
  omega

theorem messages_setSlot (r : SrvinboxRing) (k : Nat) (slot : SrvinboxSlot) :
    (r.setSlot k slot).messages = update r.messages k slot.message :=
  Function.comp_update _ _ _ _

/-! ## The invariant -/

/-- The message of a pop that has released its slot and not returned yet. -/
def PopAt.unreturned : PopAt → List (List UInt8)
  | .ret _ out => [out]
  | _ => []

def Inbox.delivered (s : Inbox) : List (List UInt8) :=
  s.popped.map Prod.fst ++ s.pop.unreturned

/-- What a push under way knows. From the first byte on, the slot behind the queue is its own. -/
def PushInv (r : SrvinboxRing) (sent queued : Nat) : PushAt → Prop
  | .idle => True
  | .load _ => True
  | .look _ prod => prod = sent % 2 ^ 32
  | .relook _ prod => prod = sent % 2 ^ 32
  | .copy data prod i =>
    prod = sent % 2 ^ 32 ∧ queued < srvinboxDepth ∧ i ≤ data.length ∧
      (List.range i).map (r.slots (slotAt prod)).buf = data.take i
  | .publish data prod =>
    prod = sent % 2 ^ 32 ∧ queued < srvinboxDepth ∧ r.messages (slotAt prod) = data

/-- What a pop under way knows. A message it has seen stays the first until the pop releases it. -/
def PopInv (released : Nat) (queue : List (List UInt8)) : PopAt → Prop
  | .idle => True
  | .load _ => True
  | .look _ cons => cons = released % 2 ^ 32
  | .relook _ cons => cons = released % 2 ^ 32
  | .check _ cons => cons = released % 2 ^ 32 ∧ queue ≠ []
  | .size cons => cons = released % 2 ^ 32 ∧ queue ≠ []
  | .copy cons n out =>
    cons = released % 2 ^ 32 ∧ ∃ m rest, queue = m :: rest ∧ n = m.length ∧ out <+: m
  | .release cons out => cons = released % 2 ^ 32 ∧ ∃ rest, queue = out :: rest
  | .ret _ _ => True

/-- The state of the inbox with the messages `queue` in the ring. -/
structure InboxInv (s : Inbox) (queue : List (List UInt8)) : Prop where
  pushed : s.pushed = s.delivered ++ queue
  room : queue.length ≤ srvinboxDepth
  prod : s.ring.prod = s.pushed.length % 2 ^ 32
  cons : s.ring.cons = s.delivered.length % 2 ^ 32
  holds : RingHolds s.ring.messages srvinboxDepth s.delivered.length queue
  push : PushInv s.ring s.pushed.length queue.length s.push
  pop : PopInv s.delivered.length queue s.pop

theorem inboxInit_inv (slots : Nat → SrvinboxSlot) : InboxInv (inboxInit slots) [] where
  pushed := rfl
  room := by decide
  prod := rfl
  cons := rfl
  holds := RingHolds.nil _ _ _
  push := trivial
  pop := trivial

/-! ### Frame conditions of the two sides -/

variable {queue : List (List UInt8)} {s : Inbox}

theorem PopInv.append {released : Nat} {at' : PopAt}
    (h : PopInv released queue at') (data : List UInt8) :
    PopInv released (queue ++ [data]) at' := by
  cases at' with
  | idle | load | look | relook | ret => exact h
  | check outCap cons => exact ⟨h.1, by simp⟩
  | size cons => exact ⟨h.1, by simp⟩
  | copy cons n out =>
    obtain ⟨hcons, m, rest, rfl, hn, hout⟩ := h
    exact ⟨hcons, m, rest ++ [data], rfl, hn, hout⟩
  | release cons out =>
    obtain ⟨hcons, rest, rfl⟩ := h
    exact ⟨hcons, rest ++ [data], rfl⟩

variable {at' : PushAt}

/-- What a push knows outlasts the steps of the consumer, which only take from the queue. -/
theorem PushInv.mono {r r' : SrvinboxRing} {sent queued queued' : Nat}
    (h : PushInv r sent queued at') (hslots : r'.slots = r.slots) (hle : queued' ≤ queued) :
    PushInv r' sent queued' at' := by
  cases at' with
  | idle | load | look | relook => exact h
  | copy data prod i =>
    obtain ⟨hprod, hroom, hi, hbytes⟩ := h
    exact ⟨hprod, lt_of_le_of_lt hle hroom, hi, hslots ▸ hbytes⟩
  | publish data prod =>
    obtain ⟨hprod, hroom, hdata⟩ := h
    refine ⟨hprod, lt_of_le_of_lt hle hroom, ?_⟩
    rwa [SrvinboxRing.messages, hslots]

variable {prod cons : Nat} {data out : List UInt8}

section
variable {s : Inbox} {queue : List (List UInt8)}

theorem InboxInv.setPush (h : InboxInv s queue)
    (hpush : PushInv s.ring s.pushed.length queue.length at') :
    InboxInv { s with push := at' } queue := { h with push := hpush }

theorem InboxInv.setPop (h : InboxInv s queue) {at' : PopAt}
    (hat : at'.unreturned = s.pop.unreturned) (hpop : PopInv s.delivered.length queue at') :
    InboxInv { s with pop := at' } queue := by
  have hdel : Inbox.delivered { s with pop := at' } = s.delivered :=
    congrArg (s.popped.map Prod.fst ++ ·) hat
  constructor
  case pushed => rw [hdel]; exact h.pushed
  case room => exact h.room
  case prod => exact h.prod
  case cons => rw [hdel]; exact h.cons
  case holds => rw [hdel]; exact h.holds
  case push => exact h.push
  case pop => rw [hdel]; exact hpop

theorem InboxInv.setSlot (h : InboxInv s queue) (hroom : queue.length < srvinboxDepth)
    (hprod : prod = s.pushed.length % 2 ^ 32) (slot : SrvinboxSlot)
    (hpush : PushInv (s.ring.setSlot (slotAt prod) slot) s.pushed.length queue.length at') :
    InboxInv { s with ring := s.ring.setSlot (slotAt prod) slot, push := at' } queue where
  __ := h
  holds := by
    rw [hprod, slotAt_mod, h.pushed, List.length_append, messages_setSlot]
    exact h.holds.update_of_lt le_rfl hroom _
  push := hpush

/-! ### The producer -/

theorem map_range_update_succ (buf : Nat → UInt8) (i : Nat) (b : UInt8) :
    (List.range (i + 1)).map (update buf i b) = (List.range i).map buf ++ [b] := by
  rw [List.range_succ, List.map_append, List.map_singleton, update_self]
  congr 1
  refine List.map_congr_left fun j hj => update_of_ne ?_ _ _
  exact Nat.ne_of_lt (List.mem_range.mp hj)

section

variable (h : InboxInv s queue)
include h

theorem InboxInv.not_full (hprod : prod = s.pushed.length % 2 ^ 32)
    (hfull : ¬ srvinboxFullAt prod s.ring.cons = true) : queue.length < srvinboxDepth := by
  have hroom := h.room
  have hlen : s.pushed.length = s.delivered.length + queue.length := by
    rw [h.pushed, List.length_append]
  rw [srvinboxFullAt, beq_iff_eq, hprod, h.cons, hlen, subU32] at hfull
  simp only [srvinboxDepth] at hroom hfull ⊢
  omega

theorem InboxInv.startCopy (data : List UInt8)
    (hprod : prod = s.pushed.length % 2 ^ 32) (hfull : ¬ srvinboxFullAt prod s.ring.cons = true) :
    InboxInv { s with push := .copy data prod 0 } queue :=
  h.setPush ⟨hprod, h.not_full hprod hfull, Nat.zero_le _, rfl⟩

theorem InboxInv.copy (hs : s.push = .copy data prod i) : InboxInv (srvinboxPush s) queue := by
  have hpush := h.push
  rw [hs] at hpush
  obtain ⟨hprod, hroom, hi, hbytes⟩ := hpush
  simp only [srvinboxPush, hs]
  split
  case h_1 b hb =>
    refine h.setSlot hroom hprod _ ⟨hprod, hroom, ?_, ?_⟩
    · exact (List.getElem?_eq_some_iff.mp hb).1
    · have hslot : ((s.ring.setSlot (slotAt prod) ((s.ring.slots (slotAt prod)).setByte i b)).slots
          (slotAt prod)).buf = update (s.ring.slots (slotAt prod)).buf i b := by
        simp only [SrvinboxRing.setSlot, SrvinboxSlot.setByte, update_self]
      rw [hslot, map_range_update_succ, hbytes, List.take_add_one, hb]
      rfl
  case h_2 hnone =>
    obtain rfl : i = data.length := le_antisymm hi (List.getElem?_eq_none_iff.mp hnone)
    refine h.setSlot hroom hprod _ ⟨hprod, hroom, ?_⟩
    rw [messages_setSlot, update_self]
    exact hbytes.trans List.take_length

theorem InboxInv.publish (hs : s.push = .publish data prod) :
    InboxInv (srvinboxPush s) (queue ++ [data]) := by
  have hpush := h.push
  rw [hs] at hpush
  obtain ⟨hprod, hroom, hdata⟩ := hpush
  simp only [srvinboxPush, hs]
  have hlen : s.pushed.length = s.delivered.length + queue.length := by
    rw [h.pushed, List.length_append]
  refine ⟨?_, ?_, ?_, h.cons, ?_, trivial, h.pop.append data⟩
  · rw [h.pushed, List.append_assoc]
    rfl
  · rw [List.length_append]
    exact hroom
  · rw [List.length_append, hprod, List.length_singleton, Nat.mod_add_mod]
  · refine RingHolds.append_iff.mpr ⟨h.holds, ?_⟩
    intro i x hx
    obtain ⟨rfl, rfl⟩ : i = 0 ∧ data = x := by
      cases i with
      | zero => simpa using hx
      | succ i => simp at hx
    have hcell : slotAt prod = (s.delivered.length + queue.length + 0) % srvinboxDepth := by
      rw [hprod, slotAt_mod, hlen, add_zero]
    exact (congrArg s.ring.messages hcell).symm.trans hdata

theorem srvinboxPush_inv : ∃ queue', InboxInv (srvinboxPush s) queue' := by
  have hpush := h.push
  cases hs : s.push with
  | idle => exact ⟨queue, by simpa only [srvinboxPush, hs] using h⟩
  | load data =>
    refine ⟨queue, ?_⟩
    simp only [srvinboxPush, hs]
    split
    · exact h.setPush trivial
    · exact h.setPush h.prod
  | look data prod =>
    rw [hs] at hpush
    refine ⟨queue, ?_⟩
    simp only [srvinboxPush, hs]
    split
    · exact h.setPush hpush
    · exact h.startCopy data hpush ‹_›
  | relook data prod =>
    rw [hs] at hpush
    refine ⟨queue, ?_⟩
    simp only [srvinboxPush, hs]
    split
    · exact h.setPush trivial
    · exact h.startCopy data hpush ‹_›
  | copy data prod i => exact ⟨queue, h.copy hs⟩
  | publish data prod => exact ⟨queue ++ [data], h.publish hs⟩

end

/-! ### The consumer -/

section

variable (h : InboxInv s queue)

include h

theorem InboxInv.not_empty (hcons : cons = s.delivered.length % 2 ^ 32)
    (hempty : ¬ srvinboxEmptyAt s.ring.prod cons = true) : queue ≠ [] := by
  rintro rfl
  refine hempty ?_
  rw [srvinboxEmptyAt, beq_iff_eq, hcons, h.prod, h.pushed, List.append_nil]

theorem InboxInv.front {m : List UInt8} {rest : List (List UInt8)}
    (hqueue : queue = m :: rest) (hcons : cons = s.delivered.length % 2 ^ 32) :
    (s.ring.slots (slotAt cons)).message = m := by
  have hcell := h.holds 0 m (by rw [hqueue]; rfl)
  rw [hcons, slotAt_mod]
  exact hcell

theorem InboxInv.popCopy {n : Nat} (hs : s.pop = .copy cons n out) :
    InboxInv (srvinboxPop s) queue := by
  have hpop := h.pop
  rw [hs] at hpop
  obtain ⟨hcons, m, rest, hqueue, hn, hout⟩ := hpop
  have hfront := h.front hqueue hcons
  simp only [srvinboxPop, hs]
  split
  case isTrue hlt =>
    refine h.setPop (by rw [hs]; rfl) ⟨hcons, m, rest, hqueue, hn, ?_⟩
    -- the next byte of the slot is the next byte of the message
    have hlen : (s.ring.slots (slotAt cons)).len = n := by
      rw [← SrvinboxSlot.message_length, hfront, hn]
    have hbyte := (s.ring.slots (slotAt cons)).message_getElem? (i := out.length) (by omega)
    rw [hfront] at hbyte
    obtain ⟨more, rfl⟩ := hout
    cases more with
    | nil => simp at hbyte
    | cons b more =>
      simp only [List.getElem?_append_right le_rfl, Nat.sub_self,
        List.getElem?_cons_zero, Option.some.injEq] at hbyte
      exact ⟨more, by rw [hbyte, List.append_assoc]; rfl⟩
  case isFalse hge =>
    refine h.setPop (by rw [hs]; rfl) ⟨hcons, rest, ?_⟩
    have hlen := hout.length_le
    rw [hqueue, hout.eq_of_length (by omega)]

theorem InboxInv.release (hs : s.pop = .release cons out) :
    ∃ rest, InboxInv (srvinboxPop s) rest := by
  have hpop := h.pop
  rw [hs] at hpop
  obtain ⟨hcons, rest, rfl⟩ := hpop
  have hroom := h.room
  have hdel' : (srvinboxPop s).delivered = s.delivered ++ [out] := by
    simp only [srvinboxPop, hs, Inbox.delivered, PopAt.unreturned, List.append_nil]
  have hlen : (srvinboxPop s).delivered.length = s.delivered.length + 1 := by
    rw [hdel', List.length_append]
    rfl
  have hsplit : RingHolds s.ring.messages srvinboxDepth s.delivered.length ([out] ++ rest) :=
    h.holds
  have hholds := RingHolds.append_iff.mp hsplit
  simp only [srvinboxPop, hs] at hdel' hlen ⊢
  refine ⟨rest, ?_, ?_, h.prod, ?_, ?_, ?_, trivial⟩
  · rw [hdel', h.pushed, List.append_assoc]
    rfl
  · rw [List.length_cons] at hroom
    omega
  · rw [hlen, hcons, Nat.mod_add_mod]
  · rw [hlen]
    exact hholds.2
  · refine h.push.mono rfl ?_
    rw [List.length_cons]
    omega

theorem InboxInv.ret (hs : s.pop = .ret cons out) : InboxInv (srvinboxPop s) queue := by
  have hdel : (srvinboxPop s).delivered = s.delivered := by
    simp only [srvinboxPop, hs, Inbox.delivered, PopAt.unreturned, List.map_append, List.map_cons,
      List.map_nil, List.append_nil]
  have hpushed := h.pushed
  have hcons := h.cons
  have hholds := h.holds
  rw [← hdel] at hpushed hcons hholds
  simp only [srvinboxPop, hs] at hpushed hcons hholds ⊢
  exact ⟨hpushed, h.room, h.prod, hcons, hholds, h.push, trivial⟩

theorem srvinboxPop_inv : ∃ queue', InboxInv (srvinboxPop s) queue' := by
  have hpop := h.pop
  cases hs : s.pop with
  | idle => exact ⟨queue, by simpa only [srvinboxPop, hs] using h⟩
  | load outCap =>
    refine ⟨queue, ?_⟩
    simp only [srvinboxPop, hs]
    exact h.setPop (by rw [hs]; rfl) h.cons
  | look outCap cons =>
    refine ⟨queue, ?_⟩
    rw [hs] at hpop
    simp only [srvinboxPop, hs]
    split
    · exact h.setPop (by rw [hs]; rfl) hpop
    · exact h.setPop (by rw [hs]; rfl) ⟨hpop, h.not_empty hpop ‹_›⟩
  | relook outCap cons =>
    refine ⟨queue, ?_⟩
    rw [hs] at hpop
    simp only [srvinboxPop, hs]
    split
    · exact h.setPop (by rw [hs]; rfl) trivial
    · exact h.setPop (by rw [hs]; rfl) ⟨hpop, h.not_empty hpop ‹_›⟩
  | check outCap cons =>
    refine ⟨queue, ?_⟩
    rw [hs] at hpop
    simp only [srvinboxPop, hs]
    split
    · exact h.setPop (by rw [hs]; rfl) trivial
    · exact h.setPop (by rw [hs]; rfl) hpop
  | size cons =>
    refine ⟨queue, ?_⟩
    rw [hs] at hpop
    obtain ⟨hcons, hne⟩ := hpop
    obtain ⟨m, rest, hqueue⟩ := List.exists_cons_of_ne_nil hne
    simp only [srvinboxPop, hs]
    refine h.setPop (by rw [hs]; rfl) ⟨hcons, m, rest, hqueue, ?_, List.nil_prefix⟩
    rw [← SrvinboxSlot.message_length, h.front hqueue hcons]
  | copy cons n out => exact ⟨queue, h.popCopy hs⟩
  | release cons out => exact h.release hs
  | ret cons out => exact ⟨queue, h.ret hs⟩

theorem inboxStep_inv (e : InboxEvent) : ∃ queue', InboxInv (inboxStep s e) queue' := by
  cases e with
  | callPush data =>
    refine ⟨queue, ?_⟩
    simp only [inboxStep]
    split
    · exact h.setPush trivial
    · exact h
  | callPop outCap =>
    refine ⟨queue, ?_⟩
    simp only [inboxStep]
    split
    case h_1 hs => exact h.setPop (by rw [hs]; rfl) trivial
    case h_2 => exact h
  | producer => exact srvinboxPush_inv h
  | consumer => exact srvinboxPop_inv h

end

end

/-! ## Messages arrive in order, each with its length -/

/-- What the pops handed out is a prefix of what was pushed, each message with its own length. -/
def InOrder (s : Inbox) : Prop :=
  s.popped <+: s.pushed.map fun m => (m, m.length)

/-- A pop that returns finds in the slot it has released the length that it copied. -/
def LengthKept (s : Inbox) (e : InboxEvent) : Prop :=
  ∀ cons out, e = .consumer → s.pop = .ret cons out →
    (s.ring.slots (slotAt cons)).len = out.length

theorem prefix_append_singleton_iff {α : Type*} {l₁ l₂ : List α} {x y : α}
    (h : l₁ ++ [x] <+: l₂) : l₁ ++ [y] <+: l₂ ↔ x = y := by
  obtain ⟨rest, rfl⟩ := h
  simp [eq_comm]

theorem InOrder.of_popped_eq {s' : Inbox} (h : InOrder s) (hpopped : s'.popped = s.popped)
    (hpushed : s.pushed <+: s'.pushed) : InOrder s' := by
  unfold InOrder
  rw [hpopped]
  exact h.trans (hpushed.map _)

theorem srvinboxPush_keeps (s : Inbox) :
    (srvinboxPush s).popped = s.popped ∧ s.pushed <+: (srvinboxPush s).pushed := by
  unfold srvinboxPush
  repeat' split
  all_goals first
    | exact ⟨rfl, List.prefix_rfl⟩
    | exact ⟨rfl, List.prefix_append _ _⟩

theorem srvinboxPop_pushed (s : Inbox) : (srvinboxPop s).pushed = s.pushed := by
  unfold srvinboxPop
  repeat' split
  all_goals rfl

theorem srvinboxPop_popped (hs : ∀ cons out, s.pop ≠ .ret cons out) :
    (srvinboxPop s).popped = s.popped := by
  unfold srvinboxPop
  repeat' split
  all_goals first
    | rfl
    | exact absurd ‹_› (hs _ _)

theorem inOrder_step_iff (hinv : InboxInv s queue)
    (h : InOrder s) (e : InboxEvent) : InOrder (inboxStep s e) ↔ LengthKept s e := by
  cases e with
  | callPush | callPop =>
    refine iff_of_true (h.of_popped_eq ?_ ?_) (by simp [LengthKept])
    all_goals
      simp only [inboxStep]
      split <;> simp
  | producer =>
    obtain ⟨hpopped, hpushed⟩ := srvinboxPush_keeps s
    exact iff_of_true (h.of_popped_eq hpopped hpushed) (by simp [LengthKept])
  | consumer =>
    by_cases hs : ∃ cons out, s.pop = .ret cons out
    · obtain ⟨cons, out, hs⟩ := hs
      -- with its own length, the message would continue the prefix
      have hlens : s.popped = (s.popped.map Prod.fst).map fun m => (m, m.length) := by
        obtain ⟨rest, hrest⟩ := h
        have hmem : ∀ p ∈ s.popped, p = (p.1, p.1.length) := by
          intro p hp
          have : p ∈ s.pushed.map fun m => (m, m.length) := hrest ▸ List.mem_append_left _ hp
          obtain ⟨m, _, rfl⟩ := List.mem_map.mp this
          rfl
        rw [List.map_map]
        exact (List.map_id _).symm.trans (List.map_congr_left hmem)
      have hown : s.popped ++ [(out, out.length)] <+: s.pushed.map fun m => (m, m.length) := by
        have hdel : s.delivered = s.popped.map Prod.fst ++ [out] := by
          simp only [Inbox.delivered, PopAt.unreturned, hs]
        refine ⟨queue.map fun m => (m, m.length), ?_⟩
        rw [hinv.pushed, hdel, List.map_append, List.map_append, ← hlens]
        rfl
      have hkept : LengthKept s .consumer ↔
          (s.ring.slots (slotAt cons)).len = out.length := by
        constructor
        · intro hk
          exact hk cons out rfl hs
        · intro hk cons' out' _ hs'
          cases hs.symm.trans hs'
          exact hk
      rw [hkept]
      simp only [inboxStep, srvinboxPop, hs, InOrder]
      rw [prefix_append_singleton_iff hown]
      simp [eq_comm]
    · have hs' : ∀ cons out, s.pop ≠ .ret cons out := fun cons out he => hs ⟨cons, out, he⟩
      refine iff_of_true (h.of_popped_eq (srvinboxPop_popped hs') ?_) ?_
      · exact (srvinboxPop_pushed s).symm ▸ List.prefix_rfl
      · intro cons out _ he
        exact absurd he (hs' cons out)

/-- In every interleaving, the messages come out in order with their bytes and lengths as long as,
and only as long as, each pop finds its length still in the slot it has released. -/
theorem inOrder_along_iff (slots : Nat → SrvinboxSlot) (events : List InboxEvent) :
    Along inboxStep (fun s e => InOrder (inboxStep s e)) (inboxInit slots) events ↔
      Along inboxStep LengthKept (inboxInit slots) events := by
  refine along_congr (I := fun s => (∃ queue, InboxInv s queue) ∧ InOrder s) ?_ ?_ events ?_
  · rintro s e ⟨⟨queue, hinv⟩, _⟩ hstep
    exact ⟨inboxStep_inv hinv e, hstep⟩
  · rintro s e ⟨⟨queue, hinv⟩, h⟩
    exact inOrder_step_iff hinv h e
  · exact ⟨⟨[], inboxInit_inv slots⟩, List.nil_prefix⟩

def pushCall (data : List UInt8) : List InboxEvent :=
  .callPush data :: List.replicate (data.length + 4) .producer

/-- Four pushes fill the ring; a pop releases the first message; a fifth push refills the slot; the
pop returns. -/
def refilledRun : List InboxEvent :=
  pushCall [1] ++ pushCall [2] ++ pushCall [3] ++ pushCall [4] ++
    .callPop 1200 :: List.replicate 7 .consumer ++ pushCall [5, 6] ++ [.consumer]

/-- The message of one byte is handed out with the length of the message of two bytes that has taken
its slot. -/
theorem refilledRun_length :
    (refilledRun.foldl inboxStep (inboxInit fun _ => ⟨fun _ => 0, 0⟩)).pushed =
        [[1], [2], [3], [4], [5, 6]] ∧
      (refilledRun.foldl inboxStep (inboxInit fun _ => ⟨fun _ => 0, 0⟩)).popped = [([1], 2)] ∧
      ¬ InOrder (refilledRun.foldl inboxStep (inboxInit fun _ => ⟨fun _ => 0, 0⟩)) := by
  refine ⟨by decide, by decide, ?_⟩
  unfold InOrder
  decide

end Wired.Server
