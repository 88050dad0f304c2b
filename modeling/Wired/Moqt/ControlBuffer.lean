import Wired.Moqt.ControlMessage

/-!
# The buffers of the control-stream reassembly

`moqtrun_asm_pool.c`, with the operations of `moqtrun_asm.c` on the buffers. The unread bytes of a
stream lie in its own inline buffer or, while a message too long for it is received, in one of the
hub's pool buffers. They move to the front of a buffer before bytes are appended. A pool buffer is
free unless the reassembly that took it last still names it.

An operation is described by what it does to the unread bytes (`moqtrunAsmRest`): a move keeps
them, and nothing done for one stream touches those of another (`KeepsOthers`).
-/

namespace Wired.Moqt

open Lib List Function

/-- `WIRED_MOQTRUN_CTL_POOL`. -/
abbrev ctlPool : Nat := 2

/-- `sizeof buf`: `WIRED_MOQTRUN_CTL_MSG_MAX` and a header. -/
def ctlInlineMax : Nat := 1024 + ctlHdrMax

/-- `WIRED_MOQTRUN_CTL_BIG_MAX`. -/
def ctlBigMax : Nat := moqctlMaxMsgLen + ctlHdrMax

/-- The reassembly of one stream. -/
structure CtlAsm where
  buf : List UInt8
  /-- The pool buffer that holds the bytes instead of `buf`. -/
  big : Option (Fin ctlPool)
  /-- The bytes held, of which those below `at_` have been read. -/
  n : Nat
  at_ : Nat
  /-- The bytes of a message still to be discarded. -/
  skip : Nat

/-- The hub's pool, with the reassembly that last took each buffer, and all reassemblies. -/
structure CtlHub (ι : Type) where
  pool : Fin ctlPool → List UInt8
  owner : Fin ctlPool → Option ι
  asm : ι → CtlAsm

section

variable {ι : Type} [DecidableEq ι]

def CtlHub.set (hub : CtlHub ι) (j : ι) (a : CtlAsm) : CtlHub ι :=
  { hub with asm := update hub.asm j a }

def moqtrunAsmReset (a : CtlAsm) : CtlAsm := { a with n := 0, at_ := 0, skip := 0, big := none }

def CtlHub.memory (hub : CtlHub ι) (j : ι) : Option (Fin ctlPool) → List UInt8
  | some i => hub.pool i
  | none => (hub.asm j).buf

def moqtrunAsmMem (hub : CtlHub ι) (j : ι) : List UInt8 := hub.memory j (hub.asm j).big

def ctlCap : Option (Fin ctlPool) → Nat
  | some _ => ctlBigMax
  | none => ctlInlineMax

def moqtrunAsmCap (a : CtlAsm) : Nat := ctlCap a.big

def moqtrunAsmRest (hub : CtlHub ι) (j : ι) : List UInt8 :=
  ((moqtrunAsmMem hub j).drop (hub.asm j).at_).take ((hub.asm j).n - (hub.asm j).at_)

def memStore (mem : List UInt8) (off : Nat) (bytes : List UInt8) : List UInt8 :=
  mem.take off ++ bytes ++ mem.drop (off + bytes.length)

def CtlHub.write (hub : CtlHub ι) (j : ι) (dst : Option (Fin ctlPool)) (off : Nat)
    (bytes : List UInt8) : CtlHub ι :=
  match dst with
  | some i => { hub with pool := update hub.pool i (memStore (hub.pool i) off bytes) }
  | none => hub.set j { hub.asm j with buf := memStore (hub.asm j).buf off bytes }

def moqtrunAsmCompact (hub : CtlHub ι) (j : ι) (dst : Option (Fin ctlPool)) : CtlHub ι :=
  let moved := hub.write j dst 0 (moqtrunAsmRest hub j)
  moved.set j { moved.asm j with n := (hub.asm j).n - (hub.asm j).at_, at_ := 0 }

def CtlHub.setBig (hub : CtlHub ι) (j : ι) (big : Option (Fin ctlPool)) : CtlHub ι :=
  hub.set j { hub.asm j with big := big }

/-- Gives the pool buffer back once at most a header's worth of bytes is unread. -/
def moqtrunAsmUnlease (hub : CtlHub ι) (j : ι) : CtlHub ι :=
  if (hub.asm j).big = none ∨ ctlHdrMax < (hub.asm j).n - (hub.asm j).at_ then hub
  else (moqtrunAsmCompact hub j none).setBig j none

def moqtrunAsmSlotFree (hub : CtlHub ι) (i : Fin ctlPool) : Bool :=
  match hub.owner i with
  | none => true
  | some o => (hub.asm o).big ≠ some i

def moqtrunAsmLease (hub : CtlHub ι) (j : ι) : CtlHub ι × Bool :=
  match (List.finRange ctlPool).find? (moqtrunAsmSlotFree hub) with
  | some i =>
    let moved := (moqtrunAsmCompact hub j (some i)).setBig j (some i)
    ({ moved with owner := update moved.owner i (some j) }, true)
  | none => (hub, false)

/-- Discards what is still to be skipped, then takes in what fits; with what is left over. -/
def moqtrunAsmPush (hub : CtlHub ι) (j : ι) (data : List UInt8) : CtlHub ι × List UInt8 :=
  let drop := min (hub.asm j).skip data.length
  let hub := hub.set j { hub.asm j with skip := (hub.asm j).skip - drop }
  let data := data.drop drop
  let hub := moqtrunAsmUnlease hub j
  let hub := moqtrunAsmCompact hub j (hub.asm j).big
  let take := min (moqtrunAsmCap (hub.asm j) - (hub.asm j).n) data.length
  let hub := hub.write j (hub.asm j).big (hub.asm j).n (data.take take)
  (hub.set j { hub.asm j with n := (hub.asm j).n + take }, data.drop take)

/-- Consumes the message of `total` bytes at the head, the bytes to come included. -/
def moqtrunAsmSkip (a : CtlAsm) (total : Nat) : CtlAsm :=
  let held := min total (a.n - a.at_)
  { a with at_ := a.at_ + held, skip := total - held }

/-- What `moqtrun_close_with` does to the reassembly: all bytes to come are discarded. -/
def asmClose (a : CtlAsm) : CtlAsm := { a with at_ := a.n, skip := 2 ^ 64 - 1, big := none }

end

/-! ## Buffers -/

variable {mem bytes : List UInt8} {off : Nat}

@[simp] theorem memStore_length (h : off + bytes.length ≤ mem.length) :
    (memStore mem off bytes).length = mem.length := by
  simp only [memStore, length_append, length_take, length_drop]
  omega

theorem memStore_take (bytes : List UInt8) (h : off ≤ mem.length) :
    (memStore mem off bytes).take (off + bytes.length) = mem.take off ++ bytes := by
  have hlen : (mem.take off ++ bytes).length = off + bytes.length := by
    rw [length_append, length_take, min_eq_left h]
  rw [memStore, ← hlen, take_left]

section

variable {ι : Type} {hub : CtlHub ι}

/-- Each reassembly lies within its buffer, and a pool buffer that one names is not free. -/
structure HubOk (hub : CtlHub ι) : Prop where
  pool : ∀ i, (hub.pool i).length = ctlBigMax
  buf : ∀ j, (hub.asm j).buf.length = ctlInlineMax
  le : ∀ j, (hub.asm j).at_ ≤ (hub.asm j).n
  fits : ∀ j, (hub.asm j).at_ < (hub.asm j).n → (hub.asm j).n ≤ moqtrunAsmCap (hub.asm j)
  owned : ∀ j i, (hub.asm j).big = some i → hub.owner i = some j

/-- Nothing has changed for the other streams. -/
def KeepsOthers (hub hub' : CtlHub ι) (j : ι) : Prop :=
  ∀ k, k ≠ j → hub'.asm k = hub.asm k ∧ moqtrunAsmRest hub' k = moqtrunAsmRest hub k

theorem KeepsOthers.refl (hub : CtlHub ι) (j : ι) : KeepsOthers hub hub j :=
  fun _ _ => ⟨rfl, rfl⟩

theorem KeepsOthers.trans {hub hub' hub'' : CtlHub ι} {j : ι} (h : KeepsOthers hub hub' j)
    (h' : KeepsOthers hub' hub'' j) : KeepsOthers hub hub'' j := by
  intro k hk
  exact ⟨(h' k hk).1.trans (h k hk).1, (h' k hk).2.trans (h k hk).2⟩

theorem HubOk.memory_length (h : HubOk hub) (j : ι) (dst : Option (Fin ctlPool)) :
    (hub.memory j dst).length = ctlCap dst := by
  cases dst with
  | none => exact h.buf j
  | some i => exact h.pool i

theorem HubOk.rest_length (h : HubOk hub) (j : ι) :
    (moqtrunAsmRest hub j).length = (hub.asm j).n - (hub.asm j).at_ := by
  have hmem : (moqtrunAsmMem hub j).length = moqtrunAsmCap (hub.asm j) := h.memory_length j _
  have hfits := h.fits j
  rw [moqtrunAsmRest, length_take, length_drop, hmem]
  omega

theorem HubOk.rest_le (h : HubOk hub) (j : ι) :
    (moqtrunAsmRest hub j).length + (hub.asm j).at_ ≤ moqtrunAsmCap (hub.asm j) ∨
      moqtrunAsmRest hub j = [] := by
  have hlen := h.rest_length j
  by_cases hlt : (hub.asm j).at_ < (hub.asm j).n
  · have hfits := h.fits j hlt
    omega
  · right
    apply eq_nil_of_length_eq_zero
    omega

theorem HubOk.rest_le_cap (h : HubOk hub) (j : ι) :
    (moqtrunAsmRest hub j).length ≤ moqtrunAsmCap (hub.asm j) := by
  have hfits := h.fits j
  rw [h.rest_length]
  omega

theorem HubOk.exclusive (h : HubOk hub) {j k : ι} {i : Fin ctlPool}
    (hbig : (hub.asm j).big = some i) (hk : k ≠ j) : (hub.asm k).big ≠ some i := by
  intro hsame
  have hj := h.owned j i hbig
  rw [h.owned k i hsame] at hj
  exact hk (Option.some.inj hj)

end

/-! ## Operations -/

section

variable {ι : Type} [DecidableEq ι] {hub : CtlHub ι} {j k : ι} {a : CtlAsm}

@[simp] theorem set_asm_self : (hub.set j a).asm j = a := update_self ..

theorem set_asm_of_ne (h : k ≠ j) : (hub.set j a).asm k = hub.asm k := update_of_ne h ..

theorem set_keepsOthers (hub : CtlHub ι) (j : ι) (a : CtlAsm) : KeepsOthers hub (hub.set j a) j := by
  intro k hk
  have hasm : (hub.set j a).asm k = hub.asm k := set_asm_of_ne hk
  have hmem : moqtrunAsmMem (hub.set j a) k = moqtrunAsmMem hub k := by
    unfold moqtrunAsmMem
    rw [hasm]
    unfold CtlHub.memory
    split
    · rfl
    · rw [hasm]
  exact ⟨hasm, by rw [moqtrunAsmRest, moqtrunAsmRest, hmem, hasm]⟩

theorem HubOk.set (h : HubOk hub) (hbuf : a.buf.length = ctlInlineMax) (hle : a.at_ ≤ a.n)
    (hfits : a.at_ < a.n → a.n ≤ moqtrunAsmCap a)
    (howned : ∀ i, a.big = some i → hub.owner i = some j) : HubOk (hub.set j a) := by
  have hcases : ∀ k, k = j ∧ (hub.set j a).asm k = a ∨ (hub.set j a).asm k = hub.asm k := by
    intro k
    by_cases hk : k = j
    · left
      subst hk
      exact ⟨rfl, set_asm_self⟩
    · right
      exact set_asm_of_ne hk
  refine ⟨h.pool, fun k => ?_, fun k => ?_, fun k => ?_, fun k i => ?_⟩ <;>
    rcases hcases k with ⟨rfl, heq⟩ | heq <;> rw [heq]
  · exact hbuf
  · exact h.buf k
  · exact hle
  · exact h.le k
  · exact hfits
  · exact h.fits k
  · exact howned i
  · exact h.owned k i

theorem HubOk.advance (h : HubOk hub) {used : Nat} (skip : Nat)
    (hused : used ≤ (moqtrunAsmRest hub j).length) :
    let hub' := hub.set j { hub.asm j with at_ := (hub.asm j).at_ + used, skip := skip }
    HubOk hub' ∧ moqtrunAsmRest hub' j = (moqtrunAsmRest hub j).drop used := by
  have hlen := h.rest_length j
  have hle := h.le j
  constructor
  · refine h.set ?_ ?_ ?_ ?_
    · exact h.buf j
    · show (hub.asm j).at_ + used ≤ (hub.asm j).n
      omega
    · intro hlt
      exact h.fits j (lt_of_le_of_lt (Nat.le_add_right _ used) hlt)
    · exact h.owned j
  · have hmem : moqtrunAsmMem (hub.set j { hub.asm j with
        at_ := (hub.asm j).at_ + used, skip := skip }) j = moqtrunAsmMem hub j := by
      unfold moqtrunAsmMem CtlHub.memory
      rw [set_asm_self]
      rfl
    rw [moqtrunAsmRest, hmem, set_asm_self, moqtrunAsmRest, drop_take, drop_drop]
    congr 1
    dsimp only
    omega

theorem HubOk.close (h : HubOk hub) :
    HubOk (hub.set j (asmClose (hub.asm j))) ∧
      moqtrunAsmRest (hub.set j (asmClose (hub.asm j))) j = [] := by
  constructor
  · refine h.set (h.buf j) le_rfl (fun hlt => absurd hlt (lt_irrefl _)) ?_
    intro i hi
    cases hi
  · rw [moqtrunAsmRest, set_asm_self]
    show List.take ((hub.asm j).n - (hub.asm j).n) _ = []
    rw [Nat.sub_self, take_zero]

/-! ## Moves between the buffers -/

/-- The unread bytes of a stream have moved to the front of a buffer that is its own now. -/
structure Moved (hub hub' : CtlHub ι) (j : ι) (dst : Option (Fin ctlPool)) : Prop where
  ok : HubOk hub'
  keeps : KeepsOthers hub hub' j
  rest : moqtrunAsmRest hub' j = moqtrunAsmRest hub j
  big : (hub'.asm j).big = dst
  n : (hub'.asm j).n = (moqtrunAsmRest hub j).length
  at_ : (hub'.asm j).at_ = 0
  skip : (hub'.asm j).skip = (hub.asm j).skip

theorem write_asm_of_ne (h : k ≠ j) (dst : Option (Fin ctlPool)) (off : Nat)
    (bytes : List UInt8) : (hub.write j dst off bytes).asm k = hub.asm k := by
  cases dst with
  | none => exact set_asm_of_ne h
  | some i => rfl

theorem write_memory_of_ne (hub : CtlHub ι) (h : k ≠ j) (dst src : Option (Fin ctlPool)) (off : Nat)
    (bytes : List UInt8) (hne : ∀ i, src = some i → dst ≠ some i) :
    (hub.write j dst off bytes).memory k src = hub.memory k src := by
  cases src with
  | none =>
    show ((hub.write j dst off bytes).asm k).buf = _
    rw [write_asm_of_ne h]
    rfl
  | some i =>
    cases dst with
    | none => rfl
    | some i' =>
      have hii : i ≠ i' := fun hii => hne i rfl (congrArg some hii.symm)
      exact update_of_ne hii ..

theorem write_asm_fields (hub : CtlHub ι) (j : ι) (dst : Option (Fin ctlPool)) (off : Nat)
    (bytes : List UInt8) :
    ((hub.write j dst off bytes).asm j).big = (hub.asm j).big ∧
      ((hub.write j dst off bytes).asm j).n = (hub.asm j).n ∧
      ((hub.write j dst off bytes).asm j).at_ = (hub.asm j).at_ ∧
      ((hub.write j dst off bytes).asm j).skip = (hub.asm j).skip := by
  cases dst with
  | none =>
    show ((hub.set j _).asm j).big = _ ∧ ((hub.set j _).asm j).n = _ ∧
      ((hub.set j _).asm j).at_ = _ ∧ ((hub.set j _).asm j).skip = _
    rw [set_asm_self]
    exact ⟨rfl, rfl, rfl, rfl⟩
  | some i => exact ⟨rfl, rfl, rfl, rfl⟩

theorem HubOk.write_lengths (h : HubOk hub) (j : ι) {dst : Option (Fin ctlPool)}
    (hroom : off + bytes.length ≤ ctlCap dst) :
    (∀ i, ((hub.write j dst off bytes).pool i).length = ctlBigMax) ∧
      ((hub.write j dst off bytes).asm j).buf.length = ctlInlineMax := by
  cases dst with
  | none =>
    refine ⟨h.pool, ?_⟩
    show ((hub.set j _).asm j).buf.length = _
    rw [set_asm_self]
    rw [memStore_length (by rw [h.buf j]; exact hroom), h.buf j]
  | some i =>
    refine ⟨fun i' => ?_, h.buf j⟩
    show (update hub.pool i _ i').length = _
    by_cases hi : i' = i
    · rw [hi, update_self, memStore_length (by rw [h.pool i]; exact hroom), h.pool i]
    · rw [update_of_ne hi, h.pool i']

section

variable (dst : Option (Fin ctlPool)) (off : Nat) (bytes : List UInt8)

theorem write_memory :
    (hub.write j dst off bytes).memory j dst = memStore (hub.memory j dst) off bytes := by
  cases dst with
  | none =>
    show ((hub.set j _).asm j).buf = _
    rw [set_asm_self]
    rfl
  | some i => exact update_self ..

@[simp] theorem write_owner : (hub.write j dst off bytes).owner = hub.owner := by
  cases dst <;> rfl

end

/-- Bytes written to a buffer, which is the stream's buffer from then on. -/
def CtlHub.refill (hub : CtlHub ι) (j : ι) (dst : Option (Fin ctlPool)) (off : Nat)
    (bytes : List UInt8) (n : Nat) (owner : Fin ctlPool → Option ι) : CtlHub ι :=
  let written := hub.write j dst off bytes
  { written.set j { written.asm j with big := dst, n := n, at_ := 0 } with owner := owner }

/-- What `CtlHub.refill` does to a buffer that no other stream names. -/
structure Refilled (hub hub' : CtlHub ι) (j : ι) (dst : Option (Fin ctlPool)) (off : Nat)
    (bytes : List UInt8) (n : Nat) : Prop where
  ok : HubOk hub'
  keeps : KeepsOthers hub hub' j
  mem : moqtrunAsmMem hub' j = memStore (hub.memory j dst) off bytes
  big : (hub'.asm j).big = dst
  n : (hub'.asm j).n = n
  at_ : (hub'.asm j).at_ = 0
  skip : (hub'.asm j).skip = (hub.asm j).skip

theorem HubOk.refill (h : HubOk hub) (j : ι) (dst : Option (Fin ctlPool)) {n : Nat}
    (owner : Fin ctlPool → Option ι) (hwrite : off + bytes.length ≤ ctlCap dst)
    (hn : n ≤ ctlCap dst)
    (hothers : ∀ k i, k ≠ j → (hub.asm k).big = some i → dst ≠ some i ∧ owner i = some k)
    (hown : ∀ i, dst = some i → owner i = some j) :
    Refilled hub (hub.refill j dst off bytes n owner) j dst off bytes n := by
  generalize hhub' : hub.refill j dst off bytes n owner = hub'
  have hlengths := h.write_lengths j hwrite
  have hasm : hub'.asm j =
      { (hub.write j dst off bytes).asm j with big := dst, n := n, at_ := 0 } := by
    rw [← hhub']
    exact set_asm_self
  have hpool : hub'.pool = (hub.write j dst off bytes).pool := by rw [← hhub']; rfl
  have howner : hub'.owner = owner := by rw [← hhub']; rfl
  have hother : ∀ k, k ≠ j → hub'.asm k = hub.asm k := by
    intro k hk
    rw [← hhub']
    exact (set_asm_of_ne hk).trans (write_asm_of_ne hk dst off bytes)
  refine ⟨⟨fun i => ?_, fun k => ?_, fun k => ?_, fun k => ?_, fun k i => ?_⟩, fun k hk => ?_, ?_, ?_,
    ?_, ?_, ?_⟩
  · rw [hpool]
    exact hlengths.1 i
  · by_cases hk : k = j
    · rw [hk, hasm]
      exact hlengths.2
    · rw [hother k hk]
      exact h.buf k
  · by_cases hk : k = j
    · rw [hk, hasm]
      exact zero_le
    · rw [hother k hk]
      exact h.le k
  · by_cases hk : k = j
    · rw [hk, hasm]
      exact fun _ => hn
    · rw [hother k hk]
      exact h.fits k
  · rw [howner]
    by_cases hk : k = j
    · rw [hk, hasm]
      exact hown i
    · rw [hother k hk]
      exact fun hbig => (hothers k i hk hbig).2
  · refine ⟨hother k hk, ?_⟩
    have hkeep := write_memory_of_ne hub hk dst (hub.asm k).big off bytes
      fun i hi => (hothers k i hk hi).1
    have hmem : moqtrunAsmMem hub' k = moqtrunAsmMem hub k := by
      rw [moqtrunAsmMem, hother k hk, moqtrunAsmMem, ← hkeep]
      generalize (hub.asm k).big = src
      cases src with
      | some i => exact congrFun hpool i
      | none =>
        show (hub'.asm k).buf = _
        rw [hother k hk]
        exact (congrArg CtlAsm.buf (write_asm_of_ne hk dst off bytes)).symm
    rw [moqtrunAsmRest, moqtrunAsmRest, hmem, hother k hk]
  · rw [moqtrunAsmMem, hasm, ← write_memory]
    cases dst with
    | some i => exact congrFun hpool i
    | none =>
      show (hub'.asm j).buf = _
      rw [hasm]
      rfl
  · rw [hasm]
  · rw [hasm]
  · rw [hasm]
  · rw [hasm]
    exact (write_asm_fields hub j dst off bytes).2.2.2

/-- `moqtrun_asm_compact` and the change of the buffer that follows it. -/
theorem compact_setBig (hub : CtlHub ι) (j : ι) (dst : Option (Fin ctlPool))
    (owner : Fin ctlPool → Option ι) :
    { (moqtrunAsmCompact hub j dst).setBig j dst with owner := owner } =
      hub.refill j dst 0 (moqtrunAsmRest hub j) ((hub.asm j).n - (hub.asm j).at_) owner := by
  simp only [moqtrunAsmCompact, CtlHub.setBig, CtlHub.refill, CtlHub.set, update_self, update_idem]

/-- What is pushed: behind the bytes that are skipped, as many as there is room for. -/
structure Pushed (hub hub' : CtlHub ι) (j : ι) (data left : List UInt8) : Prop where
  ok : HubOk hub'
  keeps : KeepsOthers hub hub' j
  skip : (hub'.asm j).skip = (hub.asm j).skip - data.length
  /-- Only bytes that are more than a header stay in a pool buffer. -/
  big : (hub'.asm j).big = none ∧ (moqtrunAsmRest hub j).length ≤ ctlHdrMax ∨
    (hub'.asm j).big = (hub.asm j).big ∧
      ((hub.asm j).big = none ∨ ctlHdrMax < (moqtrunAsmRest hub j).length)
  taken : ∃ bytes, data.drop (hub.asm j).skip = bytes ++ left ∧
    moqtrunAsmRest hub' j = moqtrunAsmRest hub j ++ bytes ∧
    bytes.length = min (moqtrunAsmCap (hub'.asm j) - (moqtrunAsmRest hub j).length)
      (data.drop (hub.asm j).skip).length

section

variable (h : HubOk hub)
include h

theorem HubOk.moveTo (j : ι) (dst : Option (Fin ctlPool))
    (owner : Fin ctlPool → Option ι) (hroom : (moqtrunAsmRest hub j).length ≤ ctlCap dst)
    (hothers : ∀ k i, k ≠ j → (hub.asm k).big = some i → dst ≠ some i ∧ owner i = some k)
    (hown : ∀ i, dst = some i → owner i = some j) :
    Moved hub { (moqtrunAsmCompact hub j dst).setBig j dst with owner := owner } j dst := by
  rw [compact_setBig, ← h.rest_length j]
  have hwrite : 0 + (moqtrunAsmRest hub j).length ≤ ctlCap dst := by
    rw [zero_add]
    exact hroom
  have hfilled := h.refill j dst owner hwrite hroom hothers hown
  refine { hfilled with rest := ?_ }
  have hfront := memStore_take (moqtrunAsmRest hub j) (Nat.zero_le (hub.memory j dst).length)
  rw [zero_add, take_zero, nil_append] at hfront
  rw [moqtrunAsmRest, hfilled.mem, hfilled.n, hfilled.at_, drop_zero, Nat.sub_zero, hfront]

theorem HubOk.compact (j : ι) :
    Moved hub (moqtrunAsmCompact hub j (hub.asm j).big) j (hub.asm j).big := by
  have hmoved := h.moveTo j (hub.asm j).big hub.owner (h.rest_le_cap j)
    (fun k i hk hi => ⟨fun hj => h.exclusive hj hk hi, h.owned k i hi⟩) (fun i hi => h.owned j i hi)
  have hbig : ((moqtrunAsmCompact hub j (hub.asm j).big).asm j).big = (hub.asm j).big := by
    rw [moqtrunAsmCompact, set_asm_self]
    exact (write_asm_fields hub j _ _ _).1
  have howner : (moqtrunAsmCompact hub j (hub.asm j).big).owner = hub.owner := write_owner _ _ _
  generalize moqtrunAsmCompact hub j (hub.asm j).big = hub' at hmoved hbig howner ⊢
  rw [← hbig, ← howner, CtlHub.setBig, CtlHub.set, update_eq_self] at hmoved
  rwa [hbig] at hmoved

theorem moqtrunAsmUnlease_spec (j : ι) :
    moqtrunAsmUnlease hub j = hub ∧
        ((hub.asm j).big = none ∨ ctlHdrMax < (moqtrunAsmRest hub j).length) ∨
      (moqtrunAsmRest hub j).length ≤ ctlHdrMax ∧ Moved hub (moqtrunAsmUnlease hub j) j none := by
  have hlen := h.rest_length j
  unfold moqtrunAsmUnlease
  split
  · rename_i hstays
    left
    refine ⟨rfl, ?_⟩
    rw [hlen]
    exact hstays
  · rename_i hmoves
    right
    refine ⟨by omega, ?_⟩
    refine h.moveTo j none hub.owner ?_ ?_ ?_
    · show _ ≤ ctlInlineMax
      unfold ctlInlineMax
      omega
    · intro k i hk hbig
      exact ⟨Option.some_ne_none i |>.symm, h.owned k i hbig⟩
    · intro i hi
      cases hi

theorem moqtrunAsmLease_spec (j : ι) (hinline : (hub.asm j).big = none) :
    moqtrunAsmLease hub j = (hub, false) ∨
      ∃ i, (moqtrunAsmLease hub j).2 = true ∧ Moved hub (moqtrunAsmLease hub j).1 j (some i) := by
  unfold moqtrunAsmLease
  cases hfind : (List.finRange ctlPool).find? (moqtrunAsmSlotFree hub) with
  | none => exact .inl rfl
  | some i =>
    right
    have hfree := find?_some hfind
    have hunnamed : ∀ k, (hub.asm k).big ≠ some i := by
      intro k hbig
      simp only [moqtrunAsmSlotFree, h.owned k i hbig, hbig] at hfree
      exact absurd hfree (by simp)
    refine ⟨i, rfl, h.moveTo j (some i) (update hub.owner i (some j)) ?_ ?_ ?_⟩
    · have hrest := h.rest_le_cap j
      rw [moqtrunAsmCap, hinline] at hrest
      exact hrest.trans (show ctlInlineMax ≤ ctlBigMax by decide)
    · intro k i' hk hbig
      have hne : i' ≠ i := by
        rintro rfl
        exact hunnamed k hbig
      refine ⟨fun hsame => hne (Option.some.inj hsame).symm, ?_⟩
      rw [update_of_ne hne]
      exact h.owned k i' hbig
    · intro i' hi'
      cases hi'
      exact update_self ..

theorem HubOk.append (bytes : List UInt8) (hfront : (hub.asm j).at_ = 0)
    (hroom : (hub.asm j).n + bytes.length ≤ moqtrunAsmCap (hub.asm j)) :
    let written := hub.write j (hub.asm j).big (hub.asm j).n bytes
    let hub' := written.set j { written.asm j with n := (written.asm j).n + bytes.length }
    HubOk hub' ∧ KeepsOthers hub hub' j ∧
      moqtrunAsmRest hub' j = moqtrunAsmRest hub j ++ bytes ∧
      (hub'.asm j).big = (hub.asm j).big ∧ (hub'.asm j).skip = (hub.asm j).skip := by
  intro written hub'
  obtain ⟨hbig, hn, hat, -⟩ := write_asm_fields hub j (hub.asm j).big (hub.asm j).n bytes
  have hfilled := h.refill j (hub.asm j).big hub.owner hroom hroom
    (fun k i hk hi => ⟨fun hj => h.exclusive hj hk hi, h.owned k i hi⟩) (fun i hi => h.owned j i hi)
  have hsame : hub.refill j (hub.asm j).big (hub.asm j).n bytes ((hub.asm j).n + bytes.length)
      hub.owner = hub' := by
    have hasm : { written.asm j with
        big := (hub.asm j).big, n := (hub.asm j).n + bytes.length, at_ := 0 } =
        { written.asm j with n := (written.asm j).n + bytes.length } := by
      rw [hn, ← hbig, ← hfront, ← hat]
    have howner : hub.owner = (written.set j { written.asm j with
        n := (written.asm j).n + bytes.length }).owner := (write_owner _ _ _).symm
    rw [CtlHub.refill, hasm, howner]
  rw [hsame] at hfilled
  refine ⟨hfilled.ok, hfilled.keeps, ?_, hfilled.big, hfilled.skip⟩
  have hcap : (moqtrunAsmMem hub j).length = moqtrunAsmCap (hub.asm j) := h.memory_length j _
  have hle : (hub.asm j).n ≤ (moqtrunAsmMem hub j).length := by omega
  rw [moqtrunAsmRest, hfilled.mem, hfilled.n, hfilled.at_, moqtrunAsmRest, hfront, drop_zero,
    drop_zero, Nat.sub_zero, Nat.sub_zero]
  exact memStore_take bytes hle

theorem moqtrunAsmPush_spec (j : ι) (data : List UInt8) :
    Pushed hub (moqtrunAsmPush hub j data).1 j data (moqtrunAsmPush hub j data).2 := by
  have hskip : (hub.asm j).skip - min (hub.asm j).skip data.length =
      (hub.asm j).skip - data.length := by omega
  unfold moqtrunAsmPush
  simp only [← drop_eq_drop_min (l := data), hskip]
  generalize hskipped :
    hub.set j { hub.asm j with skip := (hub.asm j).skip - data.length } = hub₁
  -- nothing is read while bytes are skipped
  obtain ⟨hok₁, hrest₁⟩ := h.advance (j := j) ((hub.asm j).skip - data.length) zero_le
  simp only [add_zero, drop_zero, hskipped] at hok₁ hrest₁
  have hkeeps₁ : KeepsOthers hub hub₁ j := by
    rw [← hskipped]
    exact set_keepsOthers hub j _
  have hfields₁ : (hub₁.asm j).big = (hub.asm j).big ∧
      (hub₁.asm j).skip = (hub.asm j).skip - data.length := by
    rw [← hskipped, set_asm_self]
    exact ⟨rfl, rfl⟩
  have hunlease := moqtrunAsmUnlease_spec hok₁ j
  generalize moqtrunAsmUnlease hub₁ j = hub₂ at hunlease ⊢
  have h₂ : HubOk hub₂ ∧ KeepsOthers hub hub₂ j ∧ moqtrunAsmRest hub₂ j = moqtrunAsmRest hub j ∧
      (hub₂.asm j).skip = (hub.asm j).skip - data.length ∧
      ((hub₂.asm j).big = none ∧ (moqtrunAsmRest hub j).length ≤ ctlHdrMax ∨
        (hub₂.asm j).big = (hub.asm j).big ∧
          ((hub.asm j).big = none ∨ ctlHdrMax < (moqtrunAsmRest hub j).length)) := by
    rw [hrest₁, hfields₁.1] at hunlease
    rcases hunlease with ⟨rfl, hstays⟩ | ⟨hshort, hmoved⟩
    · exact ⟨hok₁, hkeeps₁, hrest₁, hfields₁.2, .inr ⟨hfields₁.1, hstays⟩⟩
    · exact ⟨hmoved.ok, hkeeps₁.trans hmoved.keeps, hmoved.rest.trans hrest₁,
        hmoved.skip.trans hfields₁.2, .inl ⟨hmoved.big, hshort⟩⟩
  obtain ⟨hok₂, hkeeps₂, hrest₂, hskip₂, hbig₂⟩ := h₂
  have hmoved := hok₂.compact j
  generalize moqtrunAsmCompact hub₂ j (hub₂.asm j).big = hub₃ at hmoved ⊢
  have hrest₃ : moqtrunAsmRest hub₃ j = moqtrunAsmRest hub j := hmoved.rest.trans hrest₂
  have hn₃ : (hub₃.asm j).n = (moqtrunAsmRest hub j).length := by rw [hmoved.n, hrest₂]
  generalize hdata : data.drop (hub.asm j).skip = fresh
  generalize htake : min (moqtrunAsmCap (hub₃.asm j) - (hub₃.asm j).n) fresh.length = take
  have hlen : (fresh.take take).length = take := by
    rw [length_take]
    omega
  have hcap : (hub₃.asm j).n ≤ moqtrunAsmCap (hub₃.asm j) := by
    rw [hn₃, ← hrest₃]
    exact hmoved.ok.rest_le_cap j
  have happend := hmoved.ok.append (fresh.take take) hmoved.at_ (by omega)
  simp only [hlen] at happend
  obtain ⟨hok, hkeeps, hrest, hbig, hskip'⟩ := happend
  have hbig' := hbig.trans hmoved.big
  refine ⟨hok, (hkeeps₂.trans hmoved.keeps).trans hkeeps, ?_, ?_, fresh.take take, ?_, ?_, ?_⟩
  · rw [hskip', hmoved.skip, hskip₂]
  · rw [hbig']
    exact hbig₂
  · rw [hdata, take_append_drop]
  · rw [hrest, hrest₃]
  · rw [hdata, hlen, moqtrunAsmCap, hbig, ← hn₃]
    exact htake.symm

end

end

end Wired.Moqt
