import Wired.Moqt.ControlBuffer

/-!
# Reassembly of control streams

`moqtrun_asm.c`: the bytes of a delivery are pushed into the reassembly of their stream as far as
there is room, every message that is whole is routed, and so on until the delivery is used up. A
message whose Length is over the limit, or for which no pool buffer is free, is skipped by its
Length and closes the session, if the hub can close one; the rest of a closed stream is discarded.

A handler may be any function of the state it shares with the others; all it can do to the
reassembly is to close the session. `CtlRun` keeps what was delivered to each stream and what was
done with each item; `ctlStreams_routed` is about whole runs.
-/

namespace Wired.Moqt

open Lib List Function

/-- `MOQTRUN_ASM_OVER_CAP`, `MOQTRUN_ASM_NO_POOL`. -/
inductive AsmFault where
  | overCap
  | noPool
deriving DecidableEq, Repr

/-- `MOQCTL_INSUFFICIENT`, on its own or after a message was skipped, or a message. -/
inductive Popped where
  | insufficient
  | fault (f : AsmFault)
  | message (m : CtlMessage)

/-- The size of the message at the head, 0 without a whole header; its Length is clamped. -/
def moqtrunAsmTotal (ver : MoqVer) (rest : List UInt8) : Nat × Option AsmFault :=
  match moqctlPeekHeader ver rest with
  | none => (0, none)
  | some ((_, len), head) =>
    (head + min len (2 ^ 62), if moqctlMaxMsgLen < len then some .overCap else none)

section

variable {ι σ : Type} [DecidableEq ι]

def moqtrunAsmRoom (hub : CtlHub ι) (j : ι) (total : Nat) : CtlHub ι × Option AsmFault :=
  if total ≤ moqtrunAsmCap (hub.asm j) then (hub, none)
  else
    let leased := moqtrunAsmLease hub j
    (leased.1, if leased.2 then none else some .noPool)

/-- Makes room for the message at the head, or skips it whole. -/
def moqtrunAsmFit (hub : CtlHub ι) (ver : MoqVer) (j : ι) : CtlHub ι × Option AsmFault :=
  let sized := moqtrunAsmTotal ver (moqtrunAsmRest hub j)
  let r := match sized.2 with
    | none => moqtrunAsmRoom hub j sized.1
    | some f => (hub, some f)
  match r.2 with
  | none => (r.1, none)
  | some f => (r.1.set j (moqtrunAsmSkip (r.1.asm j) sized.1), some f)

def popFitted (hub : CtlHub ι) (ver : MoqVer) (j : ι) : CtlHub ι × Popped :=
  match moqtrunAsmFit hub ver j with
  | (hub, some f) => (hub, .fault f)
  | (hub, none) =>
    match moqctlPeekTypeV ver (moqtrunAsmRest hub j) with
    | none => (hub, .insufficient)
    | some (m, off) => (hub.set j { hub.asm j with at_ := (hub.asm j).at_ + off }, .message m)

def moqtrunAsmPop (hub : CtlHub ι) (ver : MoqVer) (j : ι) : CtlHub ι × Popped :=
  let hub := moqtrunAsmUnlease hub j
  if (hub.asm j).skip ≠ 0 then (hub, .insufficient) else popFitted hub ver j

/-- The hub's `io` and its handlers, which may ask to close the session. -/
structure CtlEnv (ι σ : Type) where
  /-- The `io` table has a `close_session`. -/
  closeSession : Bool
  route : σ → ι → CtlMessage → σ × Bool

/-- The hub and the handlers' state, with a record of what happened. -/
structure CtlRun (ι σ : Type) where
  hub : CtlHub ι
  /-- The draft that the peer of the stream speaks. -/
  ver : ι → MoqVer
  st : σ
  /-- What was delivered to the stream. -/
  bytes : ι → List UInt8
  /-- The items that were met, each with whether the session was closed on it. -/
  log : ι → List (CtlItem × Bool)
  /-- No pool buffer was free for a message of the stream. -/
  starved : ι → Bool

def moqtrunCloseWith (hub : CtlHub ι) (j : ι) (closes : Bool) : CtlHub ι :=
  if closes then hub.set j (asmClose (hub.asm j)) else hub

def CtlRun.note (s : CtlRun ι σ) (j : ι) (item : CtlItem) (closes : Bool) : CtlRun ι σ :=
  { s with
    hub := moqtrunCloseWith s.hub j closes
    log := update s.log j (s.log j ++ [(item, closes)]) }

def moqtrunMsgRoute (env : CtlEnv ι σ) (s : CtlRun ι σ) (j : ι) (m : CtlMessage) : CtlRun ι σ :=
  let r := env.route s.st j m
  ({ s with st := r.1 }).note j (.message m) (r.2 && env.closeSession)

def moqtrunAsmFault (env : CtlEnv ι σ) (s : CtlRun ι σ) (j : ι) : AsmFault → CtlRun ι σ
  | .overCap => s.note j .overLimit env.closeSession
  | .noPool =>
    { s with
      hub := moqtrunCloseWith s.hub j env.closeSession
      starved := update s.starved j true }

def drainLoop (env : CtlEnv ι σ) (j : ι) : Nat → CtlRun ι σ → Option (CtlRun ι σ)
  | 0, _ => none
  | fuel + 1, s =>
    match moqtrunAsmPop s.hub (s.ver j) j with
    | (hub, .insufficient) => some { s with hub := hub }
    | (hub, .fault f) => some (moqtrunAsmFault env { s with hub := hub } j f)
    | (hub, .message m) => drainLoop env j fuel (moqtrunMsgRoute env { s with hub := hub } j m)

def moqtrunCtlDrain (env : CtlEnv ι σ) (j : ι) (s : CtlRun ι σ) : Option (CtlRun ι σ) :=
  drainLoop env j ((moqtrunAsmRest s.hub j).length + 1) s

def dispatchLoop (env : CtlEnv ι σ) (j : ι) :
    Nat → CtlRun ι σ → List UInt8 → Option (CtlRun ι σ)
  | 0, _, _ => none
  | fuel + 1, s, data =>
    let pushed := moqtrunAsmPush s.hub j data
    match moqtrunCtlDrain env j { s with hub := pushed.1 } with
    | none => none
    | some s => if 0 < pushed.2.length then dispatchLoop env j fuel s pushed.2 else some s

def moqtrunDispatchCtlStream (env : CtlEnv ι σ) (s : CtlRun ι σ) (j : ι) (data : List UInt8) :
    Option (CtlRun ι σ) :=
  (dispatchLoop env j (data.length + 1) s data).map fun s =>
    { s with bytes := update s.bytes j (s.bytes j ++ data) }

inductive CtlOp (ι : Type) where
  /-- The reassembly is taken for a new stream. -/
  | start (j : ι) (ver : MoqVer)
  | deliver (j : ι) (data : List UInt8)

def ctlStep (env : CtlEnv ι σ) (s : CtlRun ι σ) : CtlOp ι → Option (CtlRun ι σ)
  | .start j ver =>
    some { s with
      hub := s.hub.set j (moqtrunAsmReset (s.hub.asm j))
      ver := update s.ver j ver
      bytes := update s.bytes j []
      log := update s.log j []
      starved := update s.starved j false }
  | .deliver j data => moqtrunDispatchCtlStream env s j data

def ctlRun (env : CtlEnv ι σ) (s : CtlRun ι σ) (ops : List (CtlOp ι)) : Option (CtlRun ι σ) :=
  ops.foldlM (ctlStep env) s

def ctlRunStart (ver : ι → MoqVer) (st : σ) : CtlRun ι σ where
  hub :=
    { pool := fun _ => List.replicate ctlBigMax 0
      owner := fun _ => none
      asm := fun _ =>
        { buf := List.replicate ctlInlineMax 0, big := none, n := 0, at_ := 0, skip := 0 } }
  ver := ver
  st := st
  bytes := fun _ => []
  log := fun _ => []
  starved := fun _ => false

end

/-! ## Popping -/

variable {rest : List UInt8} {type len head total : Nat}

section

variable {ι : Type} [DecidableEq ι] {hub hub' : CtlHub ι} {j : ι} {ver : MoqVer}

/-- A message over the limit is never whole in a pool buffer: the buffer begins with a message
within the limit, or has been read that far. -/
def HeadOk (hub : CtlHub ι) (ver : MoqVer) (j : ι) : Prop :=
  (hub.asm j).big ≠ none →
    (moqtrunAsmRest hub j).length ≤ ctlHdrMax ∨ ctlHdrMax ≤ (hub.asm j).at_ ∨
    ∃ type len head, moqctlPeekHeader ver (moqtrunAsmRest hub j) = some ((type, len), head) ∧
      len ≤ moqctlMaxMsgLen ∧ ctlHdrMax ≤ head + len

/-- Nothing of the stream is left to be routed, and there is room for more. -/
def Quiet (hub : CtlHub ι) (ver : MoqVer) (j : ι) : Prop :=
  (hub.asm j).skip ≠ 0 ∧ moqtrunAsmRest hub j = [] ∨
    (hub.asm j).skip = 0 ∧ ctlItem ver (moqtrunAsmRest hub j) = none ∧
      (moqtrunAsmRest hub j).length < moqtrunAsmCap (hub.asm j)

/-- What a pop does with the unread bytes of the stream. -/
inductive PopCase (hub hub' : CtlHub ι) (ver : MoqVer) (j : ι) : Popped → Prop
  | skipping (hskip : (hub.asm j).skip ≠ 0)
      (hrest : moqtrunAsmRest hub' j = moqtrunAsmRest hub j)
      (hskip' : (hub'.asm j).skip = (hub.asm j).skip) : PopCase hub hub' ver j .insufficient
  | incomplete (hskip : (hub.asm j).skip = 0)
      (hitem : ctlItem ver (moqtrunAsmRest hub j) = none)
      (hrest : moqtrunAsmRest hub' j = moqtrunAsmRest hub j) (hskip' : (hub'.asm j).skip = 0)
      (hroom : (moqtrunAsmRest hub j).length < moqtrunAsmCap (hub'.asm j)) :
      PopCase hub hub' ver j .insufficient
  | message {type len head off : Nat} {m : CtlMessage} (hskip : (hub.asm j).skip = 0)
      (hheader : moqctlPeekHeader ver (moqtrunAsmRest hub j) = some ((type, len), head))
      (hwithin : len ≤ moqctlMaxMsgLen)
      (hpeek : moqctlPeekTypeV ver (moqtrunAsmRest hub j) = some (m, off))
      (hrest : moqtrunAsmRest hub' j = (moqtrunAsmRest hub j).drop off)
      (hskip' : (hub'.asm j).skip = 0) (hhead : HeadOk hub' ver j) :
      PopCase hub hub' ver j (.message m)
  | overCap {type len head : Nat} (hskip : (hub.asm j).skip = 0)
      (hheader : moqctlPeekHeader ver (moqtrunAsmRest hub j) = some ((type, len), head))
      (hover : moqctlMaxMsgLen < len)
      (hshort : (moqtrunAsmRest hub j).length ≤ head + min len (2 ^ 62))
      (hrest : moqtrunAsmRest hub' j = [])
      (hskip' : (hub'.asm j).skip = head + min len (2 ^ 62) - (moqtrunAsmRest hub j).length) :
      PopCase hub hub' ver j (.fault .overCap)
  | noPool (hskip : (hub.asm j).skip = 0) (hrest : moqtrunAsmRest hub' j = []) :
      PopCase hub hub' ver j (.fault .noPool)

/-- A message is skipped whole if no byte behind it is held. -/
theorem HubOk.skipWhole (h : HubOk hub) (hshort : (moqtrunAsmRest hub j).length ≤ total) :
    let hub' := hub.set j (moqtrunAsmSkip (hub.asm j) total)
    HubOk hub' ∧ moqtrunAsmRest hub' j = [] ∧
      (hub'.asm j).skip = total - (moqtrunAsmRest hub j).length := by
  have hlen := h.rest_length j
  have hheld : min total ((hub.asm j).n - (hub.asm j).at_) = (moqtrunAsmRest hub j).length := by
    omega
  have hadvance := h.advance (j := j) (total - (moqtrunAsmRest hub j).length) le_rfl
  simp only [moqtrunAsmSkip, hheld]
  refine ⟨hadvance.1, hadvance.2.trans drop_length, ?_⟩
  rw [set_asm_self]

theorem moqtrunAsmRoom_spec (h : HubOk hub) (htotal : total ≤ ctlBigMax) :
    (moqtrunAsmRoom hub j total).2 = some .noPool ∧ (moqtrunAsmRoom hub j total).1 = hub ∧
        ctlInlineMax < total ∧ (hub.asm j).big = none ∨
      (moqtrunAsmRoom hub j total).2 = none ∧ HubOk (moqtrunAsmRoom hub j total).1 ∧
        KeepsOthers hub (moqtrunAsmRoom hub j total).1 j ∧
        moqtrunAsmRest (moqtrunAsmRoom hub j total).1 j = moqtrunAsmRest hub j ∧
        ((moqtrunAsmRoom hub j total).1.asm j).skip = (hub.asm j).skip ∧
        total ≤ moqtrunAsmCap ((moqtrunAsmRoom hub j total).1.asm j) ∧
        ((moqtrunAsmRoom hub j total).1 = hub ∨ ctlInlineMax < total) := by
  unfold moqtrunAsmRoom
  split
  · rename_i hfits
    exact .inr ⟨rfl, h, .refl hub j, rfl, rfl, hfits, .inl rfl⟩
  · rename_i hlarge
    have hinline : (hub.asm j).big = none := by
      cases hbig : (hub.asm j).big with
      | none => rfl
      | some i =>
        rw [moqtrunAsmCap, hbig] at hlarge
        exact absurd htotal hlarge
    have hover : ctlInlineMax < total := by
      rw [moqtrunAsmCap, hinline] at hlarge
      exact Nat.not_le.mp hlarge
    rcases moqtrunAsmLease_spec h j hinline with hnone | ⟨i, htrue, hmoved⟩
    · left
      rw [hnone]
      exact ⟨rfl, rfl, hover, hinline⟩
    · right
      dsimp only
      rw [htrue]
      refine ⟨rfl, hmoved.ok, hmoved.keeps, hmoved.rest, hmoved.skip, ?_, .inr hover⟩
      rw [moqtrunAsmCap, hmoved.big]
      exact htotal

section

variable (hheader : moqctlPeekHeader ver rest = some ((type, len), head))
include hheader

theorem moqtrunAsmTotal_within
    (hwithin : len ≤ moqctlMaxMsgLen) : moqtrunAsmTotal ver rest = (head + len, none) := by
  have hclamp : min len (2 ^ 62) = len := by
    unfold moqctlMaxMsgLen at hwithin
    omega
  simp only [moqtrunAsmTotal, hheader, hclamp, if_neg (Nat.not_lt.mpr hwithin)]

theorem moqtrunAsmTotal_over (hover : moqctlMaxMsgLen < len) :
    moqtrunAsmTotal ver rest = (head + min len (2 ^ 62), some .overCap) := by
  simp only [moqtrunAsmTotal, hheader, if_pos hover]

/-- With a whole header, a message is at the head or there is room for the rest of it. -/
theorem ctlItem_none_of_within
    (hwithin : len ≤ moqctlMaxMsgLen) (hpeek : moqctlPeekTypeV ver rest = none) :
    ctlItem ver rest = none ∧ rest.length < head + len := by
  constructor
  · rw [ctlItem_within hheader hwithin, hpeek]
    rfl
  · by_contra hlong
    have hsome := moqctlPeekTypeV_eq_some.mpr
      ⟨type, len, head, hheader, Nat.not_lt.mp hlong, rfl, rfl⟩
    rw [hpeek] at hsome
    cases hsome

end

theorem popFitted_spec (h : HubOk hub) (hskip : (hub.asm j).skip = 0)
    (hhead : (hub.asm j).big ≠ none → ctlHdrMax ≤ (hub.asm j).at_ ∨
      ∃ type len head, moqctlPeekHeader ver (moqtrunAsmRest hub j) = some ((type, len), head) ∧
        len ≤ moqctlMaxMsgLen ∧ ctlHdrMax ≤ head + len) :
    HubOk (popFitted hub ver j).1 ∧ KeepsOthers hub (popFitted hub ver j).1 j ∧
      PopCase hub (popFitted hub ver j).1 ver j (popFitted hub ver j).2 := by
  unfold popFitted moqtrunAsmFit
  cases hheader : moqctlPeekHeader ver (moqtrunAsmRest hub j) with
  | none =>
    have hshort := moqctlPeekHeader_none hheader
    have htotal : moqtrunAsmTotal ver (moqtrunAsmRest hub j) = (0, none) := by
      simp only [moqtrunAsmTotal, hheader]
    have hpeek : moqctlPeekTypeV ver (moqtrunAsmRest hub j) = none := by
      simp only [moqctlPeekTypeV, hheader]
    have hitem : ctlItem ver (moqtrunAsmRest hub j) = none := by simp only [ctlItem, hheader]
    have hroom : moqtrunAsmRoom hub j 0 = (hub, none) := if_pos zero_le
    simp only [htotal, hroom, hpeek]
    refine ⟨h, .refl hub j, .incomplete hskip hitem rfl hskip ?_⟩
    unfold moqtrunAsmCap ctlCap
    split
    · unfold ctlBigMax
      omega
    · unfold ctlInlineMax
      omega
  | some r =>
    obtain ⟨⟨type, len⟩, head⟩ := r
    by_cases hover : moqctlMaxMsgLen < len
    · -- what is held of a message over the limit is less than the whole of it
      have hshort : (moqtrunAsmRest hub j).length ≤ head + min len (2 ^ 62) := by
        have hle := h.rest_le j
        have hmax : moqctlMaxMsgLen < min len (2 ^ 62) := by
          unfold moqctlMaxMsgLen at hover ⊢
          omega
        rcases hle with hle | hnil
        · cases hbig : (hub.asm j).big with
          | none =>
            rw [moqtrunAsmCap, hbig] at hle
            change _ ≤ 1024 + ctlHdrMax at hle
            unfold ctlHdrMax at hle
            unfold moqctlMaxMsgLen at hmax
            omega
          | some i =>
            rw [moqtrunAsmCap, hbig] at hle
            change _ ≤ moqctlMaxMsgLen + ctlHdrMax at hle
            rcases hhead (by rw [hbig]; exact Option.some_ne_none i) with hat | hwithin
            · omega
            · obtain ⟨type', len', head', hsame, hle', -⟩ := hwithin
              rw [hheader] at hsame
              cases hsame
              omega
        · rw [hnil]
          exact zero_le
      obtain ⟨hok, hrest, hskip'⟩ := h.skipWhole hshort
      simp only [moqtrunAsmTotal_over hheader hover]
      exact ⟨hok, set_keepsOthers _ _ _, .overCap hskip hheader hover hshort hrest hskip'⟩
    · have hwithin := Nat.not_lt.mp hover
      have hused := moqctlPeekHeader_used hheader
      have hlimit : head + len ≤ ctlBigMax := by
        unfold ctlBigMax
        omega
      simp only [moqtrunAsmTotal_within hheader hwithin]
      rcases moqtrunAsmRoom_spec (j := j) h hlimit with
        ⟨hfault, hsame, hlarge, hinline⟩ | ⟨hnone, hok, hkeeps, hrest, hskip', hroom, hlease⟩
      · have hshort : (moqtrunAsmRest hub j).length ≤ head + len := by
          have hle := h.rest_le_cap j
          rw [moqtrunAsmCap, hinline] at hle
          exact le_of_lt (lt_of_le_of_lt hle hlarge)
        obtain ⟨hok, hrest, -⟩ := h.skipWhole hshort
        simp only [hfault, hsame]
        exact ⟨hok, set_keepsOthers _ _ _, .noPool hskip hrest⟩
      · simp only [hnone]
        generalize (moqtrunAsmRoom hub j (head + len)).1 = hub₂ at *
        cases hpeek : moqctlPeekTypeV ver (moqtrunAsmRest hub₂ j) with
        | none =>
          rw [hrest] at hpeek
          obtain ⟨hitem, hpart⟩ := ctlItem_none_of_within hheader hwithin hpeek
          exact ⟨hok, hkeeps, .incomplete hskip hitem hrest (hskip'.trans hskip)
            (lt_of_lt_of_le hpart hroom)⟩
        | some r =>
          obtain ⟨m, off⟩ := r
          rw [hrest] at hpeek
          obtain ⟨type', len', head', hsame, hoff, rfl, -⟩ := moqctlPeekTypeV_eq_some.mp hpeek
          rw [hheader] at hsame
          cases hsame
          have hadvance := hok.advance (j := j) (hub₂.asm j).skip (hrest ▸ hoff)
          refine ⟨hadvance.1, hkeeps.trans (set_keepsOthers _ _ _), .message hskip hheader hwithin hpeek
            (hrest ▸ hadvance.2) ?_ ?_⟩
          · rw [set_asm_self]
            exact hskip'.trans hskip
          · intro hbig
            rw [set_asm_self] at hbig ⊢
            right
            left
            show ctlHdrMax ≤ (hub₂.asm j).at_ + (head + len)
            rcases hlease with rfl | hlarge
            · rcases hhead hbig with hat | ⟨type', len', head', hsame, -, hlong⟩
              · omega
              · rw [hheader] at hsame
                cases hsame
                omega
            · unfold ctlInlineMax at hlarge
              omega

theorem moqtrunAsmPop_spec (h : HubOk hub) (hskip : (hub.asm j).skip ≠ 0 → moqtrunAsmRest hub j = [])
    (hhead : HeadOk hub ver j) :
    HubOk (moqtrunAsmPop hub ver j).1 ∧ KeepsOthers hub (moqtrunAsmPop hub ver j).1 j ∧
      PopCase hub (moqtrunAsmPop hub ver j).1 ver j (moqtrunAsmPop hub ver j).2 := by
  have hpop : moqtrunAsmPop hub ver j =
      if ((moqtrunAsmUnlease hub j).asm j).skip ≠ 0 then (moqtrunAsmUnlease hub j, .insufficient)
      else popFitted (moqtrunAsmUnlease hub j) ver j := rfl
  have hunlease := moqtrunAsmUnlease_spec h j
  rw [hpop]
  generalize moqtrunAsmUnlease hub j = hub₁ at hunlease
  have h₁ : HubOk hub₁ ∧ KeepsOthers hub hub₁ j ∧ moqtrunAsmRest hub₁ j = moqtrunAsmRest hub j ∧
      (hub₁.asm j).skip = (hub.asm j).skip ∧
      ((hub₁.asm j).big ≠ none → ctlHdrMax ≤ (hub₁.asm j).at_ ∨
        ∃ type len head, moqctlPeekHeader ver (moqtrunAsmRest hub₁ j) = some ((type, len), head) ∧
          len ≤ moqctlMaxMsgLen ∧ ctlHdrMax ≤ head + len) := by
    rcases hunlease with ⟨rfl, hstays⟩ | ⟨-, hmoved⟩
    · refine ⟨h, .refl _ j, rfl, rfl, fun hbig => ?_⟩
      rcases hhead hbig with hshort | hread
      · rcases hstays with hnone | hlong
        · exact absurd hnone hbig
        · omega
      · exact hread
    · exact ⟨hmoved.ok, hmoved.keeps, hmoved.rest, hmoved.skip, fun hbig => absurd hmoved.big hbig⟩
  obtain ⟨hok₁, hkeeps₁, hrest₁, hskip₁, hhead₁⟩ := h₁
  split
  · rename_i hne
    exact ⟨hok₁, hkeeps₁, .skipping (hskip₁ ▸ hne) hrest₁ hskip₁⟩
  · rename_i hzero
    rw [not_not] at hzero
    obtain ⟨hok, hkeeps, hcase⟩ := popFitted_spec hok₁ hzero hhead₁
    refine ⟨hok, hkeeps₁.trans hkeeps, ?_⟩
    generalize popFitted hub₁ ver j = r at hcase ⊢
    obtain ⟨hub₂, popped⟩ := r
    cases hcase with
    | skipping hne => exact absurd hzero hne
    | incomplete _ hitem hrest hskip' hroom =>
      rw [hrest₁] at hitem hrest hroom
      exact .incomplete (hskip₁ ▸ hzero) hitem hrest hskip' hroom
    | message _ hheader hwithin hpeek hrest hskip' hhead =>
      rw [hrest₁] at hheader hpeek hrest
      exact .message (hskip₁ ▸ hzero) hheader hwithin hpeek hrest hskip' hhead
    | overCap _ hheader hover hshort hrest hskip' =>
      rw [hrest₁] at hheader hshort hskip'
      exact .overCap (hskip₁ ▸ hzero) hheader hover hshort hrest hskip'
    | noPool _ hrest => exact .noPool (hskip₁ ▸ hzero) hrest

end

/-! ## Following a stream -/

/-- The items are met one after the other until the session is closed on one of them. -/
inductive Routed : List CtlItem → List (CtlItem × Bool) → Prop
  | done : Routed [] []
  | next {item : CtlItem} {items : List CtlItem} {log : List (CtlItem × Bool)}
      (rest : Routed items log) : Routed (item :: items) ((item, false) :: log)
  | closed (item : CtlItem) (items : List CtlItem) : Routed (item :: items) [(item, true)]

variable {log : List (CtlItem × Bool)}

theorem Routed.of_open (h : ∀ e ∈ log, e.2 = false) : Routed (log.map Prod.fst) log := by
  induction log with
  | nil => exact .done
  | cons e log ih =>
    rw [forall_mem_cons] at h
    obtain ⟨item, closes⟩ := e
    obtain rfl : closes = false := h.1
    exact .next (ih h.2)

theorem Routed.of_closed (h : ∀ e ∈ log, e.2 = false) (item : CtlItem) (items : List CtlItem) :
    Routed (log.map Prod.fst ++ item :: items) (log ++ [(item, true)]) := by
  induction log with
  | nil => exact .closed item items
  | cons e log ih =>
    rw [forall_mem_cons] at h
    obtain ⟨item', closes⟩ := e
    obtain rfl : closes = false := h.1
    exact .next (ih h.2)

theorem Routed.eq_of_open {items : List CtlItem} (h : Routed items log)
    (hopen : ∀ e ∈ log, e.2 = false) : log.map Prod.fst = items := by
  induction h with
  | done => rfl
  | next rest ih =>
    rw [forall_mem_cons] at hopen
    rw [map_cons, ih hopen.2]
  | closed item items => cases hopen (item, true) mem_cons_self

variable {data : List UInt8} {ver : MoqVer}

section

variable {ι σ : Type} {env : CtlEnv ι σ} {s s' : CtlRun ι σ} {j : ι} {seen ahead : List UInt8}
  {hub' : CtlHub ι}

/-- No message makes a handler close the session. -/
def CtlEnv.KeepsOpen (env : CtlEnv ι σ) : Prop :=
  ∀ st j m, ((env.route st j m).2 && env.closeSession) = false

/-- A stream carries less than 2^62 bytes; a longer one could outlast what is skipped of it. -/
def Bounded (env : CtlEnv ι σ) (ver : MoqVer) (stream : List UInt8) : Prop :=
  stream.length < 2 ^ 62 ∨ CtlItem.overLimit ∉ ctlItems ver stream ∧ env.KeepsOpen

/-- Something on the stream can close the session. -/
def MayClose (env : CtlEnv ι σ) (ver : MoqVer) (stream : List UInt8) : Prop :=
  CtlItem.overLimit ∈ ctlItems ver stream ∨ ¬ env.KeepsOpen

theorem Bounded.length_lt {stream : List UInt8} (h : Bounded env ver stream)
    (hclose : MayClose env ver stream) : stream.length < 2 ^ 62 := by
  rcases h with hlen | ⟨hnone, hopen⟩
  · exact hlen
  · rcases hclose with hover | hcloses
    · exact absurd hover hnone
    · exact absurd hopen hcloses

/-- The items of the stream are those met so far and those in what is unread and to come. -/
structure Follows (s : CtlRun ι σ) (j : ι) (seen ahead : List UInt8) : Prop where
  isOpen : ∀ e ∈ s.log j, e.2 = false
  le : (moqtrunAsmRest s.hub j).length ≤ seen.length
  items : ctlItems (s.ver j) (seen ++ ahead) = (s.log j).map Prod.fst ++
    ctlItems (s.ver j) (moqtrunAsmRest s.hub j ++ ahead.drop (s.hub.asm j).skip)

/-- The session was closed, and all the rest of the stream will be discarded. -/
structure Ended (env : CtlEnv ι σ) (s : CtlRun ι σ) (j : ι) (seen ahead : List UInt8) : Prop where
  cause : MayClose env (s.ver j) (seen ++ ahead)
  short : (seen ++ ahead).length < 2 ^ 62
  rest : moqtrunAsmRest s.hub j = []
  skip : 2 ^ 64 - 1 ≤ (s.hub.asm j).skip + seen.length
  routed : Routed (ctlItems (s.ver j) (seen ++ ahead)) (s.log j)

/-- What was done with the part of the stream that was seen is right, whatever follows. -/
def Tracks (env : CtlEnv ι σ) (s : CtlRun ι σ) (j : ι) (seen : List UInt8) : Prop :=
  s.starved j = true ∨ ∀ ahead, Bounded env (s.ver j) (seen ++ ahead) →
    Follows s j seen ahead ∨ Ended env s j seen ahead

theorem Ended.skip_ne_zero (h : Ended env s j seen ahead) : (s.hub.asm j).skip ≠ 0 := by
  have hshort := h.short
  have hskip := h.skip
  rw [length_append] at hshort
  omega

/-- A stream on which nothing has come yet. -/
theorem tracks_fresh (hlog : s.log j = []) (hrest : moqtrunAsmRest s.hub j = [])
    (hskip : (s.hub.asm j).skip = 0) : Tracks env s j [] := by
  refine .inr fun ahead _ => .inl ⟨?_, ?_, ?_⟩
  · rw [hlog]
    exact forall_mem_nil _
  · rw [hrest]
  · rw [hlog, hrest, hskip]
    rfl

section

variable (h : Tracks env s j seen)
include h

theorem Tracks.congr (hrest : moqtrunAsmRest s'.hub j = moqtrunAsmRest s.hub j)
    (hskip : (s'.hub.asm j).skip = (s.hub.asm j).skip) (hver : s'.ver j = s.ver j)
    (hlog : s'.log j = s.log j) (hstarved : s'.starved j = s.starved j) :
    Tracks env s' j seen := by
  unfold Tracks
  rw [hstarved, hver]
  refine h.imp_right fun hall ahead hbound => ?_
  rcases hall ahead hbound with hf | he
  · left
    refine ⟨?_, ?_, ?_⟩
    · rw [hlog]
      exact hf.isOpen
    · rw [hrest]
      exact hf.le
    · rw [hlog, hver, hrest, hskip]
      exact hf.items
  · right
    refine ⟨?_, he.short, ?_, ?_, ?_⟩
    · rw [hver]
      exact he.cause
    · rw [hrest]
      exact he.rest
    · rw [hskip]
      exact he.skip
    · rw [hlog, hver]
      exact he.routed

theorem Tracks.now (hstarved : s.starved j = false)
    (hbound : Bounded env (s.ver j) seen) : Follows s j seen [] ∨ Ended env s j seen [] := by
  refine (h.resolve_left fun htrue => ?_) [] (by rwa [append_nil])
  rw [hstarved] at htrue
  cases htrue

theorem Tracks.routed (hstarved : s.starved j = false)
    (hbound : Bounded env (s.ver j) seen) (hquiet : Quiet s.hub (s.ver j) j) :
    Routed (ctlItems (s.ver j) seen) (s.log j) := by
  rcases h.now hstarved hbound with hf | he
  · have hleft : ctlItems (s.ver j) (moqtrunAsmRest s.hub j) = [] := by
      rcases hquiet with ⟨-, hnil⟩ | ⟨-, hitem, -⟩
      · rw [hnil]
        exact ctlItems_none (ctlItem_advances _).nil
      · exact ctlItems_none hitem
    have hitems := hf.items
    rw [append_nil, drop_nil, append_nil, hleft, append_nil] at hitems
    rw [hitems]
    exact Routed.of_open hf.isOpen
  · have hrouted := he.routed
    rwa [append_nil] at hrouted

theorem Tracks.isOpen (hstarved : s.starved j = false)
    (hnone : CtlItem.overLimit ∉ ctlItems (s.ver j) seen) (hopen : env.KeepsOpen) :
    ∀ e ∈ s.log j, e.2 = false := by
  rcases h.now hstarved (.inr ⟨hnone, hopen⟩) with hf | he
  · exact hf.isOpen
  · have hcause := he.cause
    rw [append_nil] at hcause
    exact absurd hcause (not_or.mpr ⟨hnone, not_not.mpr hopen⟩)

theorem Tracks.push {left : List UInt8} (hpush : Pushed s.hub hub' j data left) :
    ∃ used, data = used ++ left ∧ Tracks env { s with hub := hub' } j (seen ++ used) := by
  obtain ⟨bytes, hdata, hrest, -⟩ := hpush.taken
  refine ⟨data.take (s.hub.asm j).skip ++ bytes, ?_, ?_⟩
  · rw [append_assoc, ← hdata, take_append_drop]
  · refine h.imp_right fun hall ahead hbound => ?_
    have hmoved : seen ++ (data.take (s.hub.asm j).skip ++ bytes) ++ ahead =
        seen ++ (data.take (s.hub.asm j).skip ++ bytes ++ ahead) := append_assoc ..
    have hlen := congrArg List.length hdata
    rw [length_drop, length_append] at hlen
    rw [hmoved] at hbound
    rcases hall _ hbound with hf | he
    · left
      refine ⟨hf.isOpen, ?_, ?_⟩
      · have hle := hf.le
        rw [hrest, length_append, length_append, length_append]
        omega
      · have hnext : (data.take (s.hub.asm j).skip ++ bytes ++ ahead).drop (s.hub.asm j).skip =
            bytes ++ ahead.drop ((s.hub.asm j).skip - data.length) := by
          by_cases hle : (s.hub.asm j).skip ≤ data.length
          · rw [append_assoc, Nat.sub_eq_zero_of_le hle, drop_zero,
              drop_left' (length_take_of_le hle)]
          · obtain rfl : bytes = [] := eq_nil_of_length_eq_zero (by omega)
            rw [take_of_length_le (by omega), append_nil, nil_append, drop_append,
              drop_of_length_le (by omega), nil_append]
        have hitems := hf.items
        rw [hnext] at hitems
        rw [hpush.skip, hrest, hmoved, append_assoc (moqtrunAsmRest s.hub j)]
        exact hitems
    · right
      have hshort := he.short
      have hskip := he.skip
      have hnone := he.rest
      simp only [length_append, length_take] at hshort
      -- more is left to skip than the stream can bring
      obtain rfl : bytes = [] := eq_nil_of_length_eq_zero (by omega)
      refine ⟨?_, ?_, ?_, ?_, ?_⟩
      · rw [hmoved]
        exact he.cause
      · rw [hmoved]
        exact he.short
      · rw [hrest, hnone, append_nil]
      · rw [hpush.skip, append_nil, length_append, length_take]
        omega
      · rw [hmoved]
        exact he.routed

end

/-- What a delivery to `j` leaves as it is. -/
structure Frame (s s' : CtlRun ι σ) (j : ι) : Prop where
  hub : KeepsOthers s.hub s'.hub j
  ver : s'.ver = s.ver
  bytes : s'.bytes = s.bytes
  log : ∀ k, k ≠ j → s'.log k = s.log k
  starved : ∀ k, k ≠ j → s'.starved k = s.starved k

theorem Frame.trans {s'' : CtlRun ι σ} (h : Frame s s' j) (h' : Frame s' s'' j) : Frame s s'' j where
  hub := h.hub.trans h'.hub
  ver := h'.ver.trans h.ver
  bytes := h'.bytes.trans h.bytes
  log k hk := (h'.log k hk).trans (h.log k hk)
  starved k hk := (h'.starved k hk).trans (h.starved k hk)

theorem Frame.of_hub (hkeeps : KeepsOthers s.hub hub' j) : Frame s { s with hub := hub' } j :=
  ⟨hkeeps, rfl, rfl, fun _ _ => rfl, fun _ _ => rfl⟩

theorem quiet_of_empty {hub : CtlHub ι} (hrest : moqtrunAsmRest hub j = []) : Quiet hub ver j := by
  by_cases hskip : (hub.asm j).skip = 0
  · right
    refine ⟨hskip, ?_, ?_⟩
    · rw [hrest]
      exact (ctlItem_advances ver).nil
    · rw [hrest, moqtrunAsmCap]
      cases (hub.asm j).big <;> exact Nat.zero_lt_succ _
  · exact .inl ⟨hskip, hrest⟩

/-- What holds of every stream between the deliveries. -/
def RunOk (env : CtlEnv ι σ) (s : CtlRun ι σ) : Prop :=
  HubOk s.hub ∧ ∀ j, Quiet s.hub (s.ver j) j ∧ Tracks env s j (s.bytes j)

theorem ctlRunStart_ok (env : CtlEnv ι σ) (ver : ι → MoqVer) (st : σ) :
    RunOk env (ctlRunStart ver st) := by
  have hnil : ∀ j, moqtrunAsmRest (ctlRunStart ver st).hub j = [] := fun _ => take_zero ..
  refine ⟨⟨fun _ => length_replicate, fun _ => length_replicate, fun _ => le_rfl,
    fun _ hlt => ?_, fun _ _ hbig => ?_⟩,
    fun j => ⟨quiet_of_empty (hnil j), tracks_fresh rfl (hnil j) rfl⟩⟩
  · cases hlt
  · cases hbig

end

variable {fuel : Nat}

section

variable {ι σ : Type} [DecidableEq ι] {env : CtlEnv ι σ} {s s' : CtlRun ι σ} {j : ι}
  {seen : List UInt8} {hub' : CtlHub ι}

theorem Tracks.note (h : Tracks env s j seen) (hok : HubOk hub') (hskip : (s.hub.asm j).skip = 0)
    {item : CtlItem} {closes : Bool} (tail : List UInt8 → List CtlItem)
    (hhead : ∀ ahead, ctlItems (s.ver j) (moqtrunAsmRest s.hub j ++ ahead) = item :: tail ahead)
    (hle : (moqtrunAsmRest hub' j).length ≤ (moqtrunAsmRest s.hub j).length)
    (htail : ∀ ahead, Bounded env (s.ver j) (seen ++ ahead) →
      item ∈ ctlItems (s.ver j) (seen ++ ahead) →
      (moqtrunAsmRest s.hub j).length ≤ seen.length →
      tail ahead = ctlItems (s.ver j) (moqtrunAsmRest hub' j ++ ahead.drop (hub'.asm j).skip))
    (hclose : closes = true → ∀ ahead, item ∈ ctlItems (s.ver j) (seen ++ ahead) →
      MayClose env (s.ver j) (seen ++ ahead)) :
    Tracks env (({ s with hub := hub' } : CtlRun ι σ).note j item closes) j seen := by
  refine h.imp_right fun hall ahead hbound => ?_
  rcases hall ahead hbound with hf | he
  · have hitems := hf.items
    rw [hskip, drop_zero, hhead ahead] at hitems
    have hmem : item ∈ ctlItems (s.ver j) (seen ++ ahead) := by
      rw [hitems]
      exact mem_append_right _ mem_cons_self
    have hlog : (({ s with hub := hub' } : CtlRun ι σ).note j item closes).log j =
        s.log j ++ [(item, closes)] := update_self ..
    cases hcloses : closes with
    | false =>
      left
      subst hcloses
      refine ⟨?_, ?_, ?_⟩
      · rw [hlog, forall_mem_append, forall_mem_singleton]
        exact ⟨hf.isOpen, rfl⟩
      · exact le_trans hle hf.le
      · rw [hlog, map_append, append_assoc]
        show ctlItems (s.ver j) (seen ++ ahead) = _
        rw [hitems, htail ahead hbound hmem hf.le]
        rfl
    | true =>
      right
      subst hcloses
      obtain ⟨-, hnil⟩ := hok.close (j := j)
      have hcause := hclose rfl ahead hmem
      refine ⟨hcause, hbound.length_lt hcause, hnil, ?_, ?_⟩
      · show _ ≤ ((hub'.set j (asmClose (hub'.asm j))).asm j).skip + _
        rw [set_asm_self]
        exact Nat.le_add_right _ _
      · rw [hlog]
        show Routed (ctlItems (s.ver j) (seen ++ ahead)) _
        rw [hitems]
        exact Routed.of_closed hf.isOpen item (tail ahead)
  · exact absurd hskip he.skip_ne_zero

theorem moqtrunCloseWith_keeps (hub : CtlHub ι) (j : ι) (closes : Bool) :
    KeepsOthers hub (moqtrunCloseWith hub j closes) j := by
  unfold moqtrunCloseWith
  split
  · exact set_keepsOthers _ _ _
  · exact .refl hub j

theorem HubOk.closeWith {hub : CtlHub ι} (h : HubOk hub) (closes : Bool) :
    HubOk (moqtrunCloseWith hub j closes) := by
  unfold moqtrunCloseWith
  split
  · exact h.close.1
  · exact h

theorem Frame.note (s : CtlRun ι σ) (j : ι) (item : CtlItem) (closes : Bool) :
    Frame s (s.note j item closes) j :=
  ⟨moqtrunCloseWith_keeps _ _ _, rfl, rfl, fun _ hk => update_of_ne hk ..,
    fun _ _ => rfl⟩

theorem Frame.fault (env : CtlEnv ι σ) (s : CtlRun ι σ) (j : ι) (f : AsmFault) :
    Frame s (moqtrunAsmFault env s j f) j := by
  cases f with
  | overCap => exact .note ..
  | noPool =>
    exact ⟨moqtrunCloseWith_keeps _ _ _, rfl, rfl, fun _ _ => rfl,
      fun _ hk => update_of_ne hk ..⟩

theorem Quiet.closeWith {hub : CtlHub ι} (h : HubOk hub)
    (hquiet : Quiet hub ver j) (closes : Bool) : Quiet (moqtrunCloseWith hub j closes) ver j := by
  unfold moqtrunCloseWith
  split
  · left
    refine ⟨?_, h.close.2⟩
    rw [set_asm_self]
    show 2 ^ 64 - 1 ≠ 0
    decide
  · exact hquiet

/-- What holds between the rounds of the loop that routes the messages of a stream. -/
structure Draining (env : CtlEnv ι σ) (s : CtlRun ι σ) (j : ι) (seen : List UInt8) : Prop where
  ok : HubOk s.hub
  head : HeadOk s.hub (s.ver j) j
  skip : (s.hub.asm j).skip ≠ 0 → moqtrunAsmRest s.hub j = []
  tracks : Tracks env s j seen

/-- What holds between the deliveries to a stream. -/
structure Settled (env : CtlEnv ι σ) (s : CtlRun ι σ) (j : ι) (seen : List UInt8) : Prop where
  ok : HubOk s.hub
  quiet : Quiet s.hub (s.ver j) j
  tracks : Tracks env s j seen

theorem HeadOk.closeWith {hub : CtlHub ι} (h : HeadOk hub ver j) (closes : Bool) :
    HeadOk (moqtrunCloseWith hub j closes) ver j := by
  unfold moqtrunCloseWith
  split
  · intro hbig
    rw [set_asm_self] at hbig
    exact absurd rfl hbig
  · exact h

theorem Draining.message (h : Draining env s j seen) (hok : HubOk hub') {off : Nat} {m : CtlMessage}
    (hskip : (s.hub.asm j).skip = 0)
    (hheader : moqctlPeekHeader (s.ver j) (moqtrunAsmRest s.hub j) = some ((type, len), head))
    (hwithin : len ≤ moqctlMaxMsgLen)
    (hpeek : moqctlPeekTypeV (s.ver j) (moqtrunAsmRest s.hub j) = some (m, off))
    (hrest : moqtrunAsmRest hub' j = (moqtrunAsmRest s.hub j).drop off)
    (hskip' : (hub'.asm j).skip = 0) (hhead : HeadOk hub' (s.ver j) j) :
    Draining env (moqtrunMsgRoute env { s with hub := hub' } j m) j seen := by
  have htracks : Tracks env { s with st := (env.route s.st j m).1 } j seen :=
    h.tracks.congr rfl rfl rfl rfl rfl
  have hoff : off ≤ (moqtrunAsmRest s.hub j).length := by
    obtain ⟨type', len', head', -, hle, rfl, -⟩ := moqctlPeekTypeV_eq_some.mp hpeek
    exact hle
  refine ⟨hok.closeWith _, hhead.closeWith _, ?_, htracks.note hok hskip
    (fun ahead => ctlItems (s.ver j) ((moqtrunAsmRest s.hub j).drop off ++ ahead)) ?_ ?_ ?_ ?_⟩
  · show ((moqtrunCloseWith hub' j _).asm j).skip ≠ 0 →
      moqtrunAsmRest (moqtrunCloseWith hub' j _) j = []
    unfold moqtrunCloseWith
    split
    · exact fun _ => hok.close.2
    · exact fun hne => absurd hskip' hne
  · intro ahead
    rw [ctlItems_message ((moqctlPeekHeader_stable _).append hheader ahead) hwithin
      (moqctlPeekTypeV_append hpeek ahead), drop_append_of_le_length hoff]
  · rw [hrest, length_drop]
    exact Nat.sub_le _ _
  · intro ahead _ _ _
    rw [hrest, hskip', drop_zero]
  · intro hcloses ahead _
    right
    intro hopen
    rw [hopen s.st j m] at hcloses
    cases hcloses

theorem Draining.overCap (h : Draining env s j seen) (hok : HubOk hub')
    (hskip : (s.hub.asm j).skip = 0)
    (hheader : moqctlPeekHeader (s.ver j) (moqtrunAsmRest s.hub j) = some ((type, len), head))
    (hover : moqctlMaxMsgLen < len)
    (hshort : (moqtrunAsmRest s.hub j).length ≤ head + min len (2 ^ 62))
    (hrest : moqtrunAsmRest hub' j = [])
    (hskip' : (hub'.asm j).skip = head + min len (2 ^ 62) - (moqtrunAsmRest s.hub j).length) :
    Settled env (moqtrunAsmFault env { s with hub := hub' } j .overCap) j seen := by
  refine ⟨hok.closeWith _, Quiet.closeWith hok (quiet_of_empty hrest) _, h.tracks.note hok hskip
    (fun ahead => ctlItems (s.ver j) ((moqtrunAsmRest s.hub j ++ ahead).drop (head + len)))
    ?_ ?_ ?_ ?_⟩
  · intro ahead
    exact ctlItems_overLimit ((moqctlPeekHeader_stable _).append hheader ahead) hover
  · rw [hrest]
    exact zero_le
  · intro ahead hbound hmem hle
    have hlen := hbound.length_lt (.inl hmem)
    rw [length_append] at hlen
    -- a Length that was clamped is more than the whole stream
    have hdrop : (moqtrunAsmRest s.hub j ++ ahead).drop (head + len) =
        ahead.drop (head + len - (moqtrunAsmRest s.hub j).length) := by
      rw [drop_append, drop_of_length_le (by omega), nil_append]
    rw [hdrop, hrest, hskip', nil_append]
    exact congrArg _ (drop_eq_drop_iff.mpr (by omega))
  · intro _ ahead hmem
    exact .inl hmem

theorem drainLoop_spec (h : Draining env s j seen)
    (hfuel : (moqtrunAsmRest s.hub j).length < fuel) :
    ∃ s', drainLoop env j fuel s = some s' ∧ Settled env s' j seen ∧ Frame s s' j := by
  induction fuel generalizing s with
  | zero => exact absurd hfuel (Nat.not_lt_zero _)
  | succ fuel ih =>
    obtain ⟨hok, hkeeps, hcase⟩ := moqtrunAsmPop_spec h.ok h.skip h.head
    rw [drainLoop]
    generalize moqtrunAsmPop s.hub (s.ver j) j = r at hok hkeeps hcase ⊢
    obtain ⟨hub', popped⟩ := r
    cases hcase with
    | skipping hskip hrest hskip' =>
      refine ⟨_, rfl, ⟨hok, ?_, h.tracks.congr hrest hskip' rfl rfl rfl⟩, .of_hub hkeeps⟩
      exact quiet_of_empty (hrest.trans (h.skip hskip))
    | incomplete hskip hitem hrest hskip' hroom =>
      refine ⟨_, rfl, ⟨hok, .inr ⟨hskip', ?_, ?_⟩,
        h.tracks.congr hrest (hskip'.trans hskip.symm) rfl rfl rfl⟩, .of_hub hkeeps⟩
      · rw [hrest]
        exact hitem
      · rw [hrest]
        exact hroom
    | @message type len head off m hskip hheader hwithin hpeek hrest hskip' hhead =>
      have hnext := h.message hok hskip hheader hwithin hpeek hrest hskip' hhead
      have hcalled : Frame s { s with hub := hub', st := (env.route s.st j m).1 } j :=
        ⟨hkeeps, rfl, rfl, fun _ _ => rfl, fun _ _ => rfl⟩
      have hframe : Frame s (moqtrunMsgRoute env { s with hub := hub' } j m) j :=
        hcalled.trans (.note _ _ _ _)
      have hless : (moqtrunAsmRest (moqtrunMsgRoute env { s with hub := hub' } j m).hub j).length <
          fuel := by
        have hpos : 0 < off ∧ off ≤ (moqtrunAsmRest s.hub j).length := by
          obtain ⟨type', len', head', hsame, hle, rfl, -⟩ := moqctlPeekTypeV_eq_some.mp hpeek
          have := (moqctlPeekHeader_stable _).pos hsame
          omega
        have hle : (moqtrunAsmRest (moqtrunMsgRoute env { s with hub := hub' } j m).hub j).length ≤
            (moqtrunAsmRest hub' j).length := by
          show (moqtrunAsmRest (moqtrunCloseWith hub' j _) j).length ≤ _
          unfold moqtrunCloseWith
          split
          · rw [hok.close.2]
            exact zero_le
          · exact le_rfl
        rw [hrest, length_drop] at hle
        omega
      obtain ⟨s', hloop, hsettled, hframe'⟩ := ih hnext hless
      exact ⟨s', hloop, hsettled, hframe.trans hframe'⟩
    | overCap hskip hheader hover hshort hrest hskip' =>
      exact ⟨_, rfl, h.overCap hok hskip hheader hover hshort hrest hskip',
        (Frame.of_hub hkeeps).trans (.fault ..)⟩
    | noPool hskip hrest =>
      refine ⟨_, rfl, ⟨hok.closeWith _, Quiet.closeWith hok (quiet_of_empty hrest) _, .inl ?_⟩,
        (Frame.of_hub hkeeps).trans (.fault ..)⟩
      exact update_self ..

/-- A message that was begun stays at the head when more is pushed behind it. -/
theorem Settled.push (h : Settled env s j seen) (data : List UInt8) :
    ∃ used, data = used ++ (moqtrunAsmPush s.hub j data).2 ∧
      Draining env { s with hub := (moqtrunAsmPush s.hub j data).1 } j (seen ++ used) ∧
      (data ≠ [] → used ≠ []) := by
  have hpush := moqtrunAsmPush_spec h.ok j data
  generalize moqtrunAsmPush s.hub j data = pushed at hpush ⊢
  obtain ⟨hub', left⟩ := pushed
  obtain ⟨used, hdata, htracks⟩ := h.tracks.push hpush
  obtain ⟨bytes, hfresh, hrest, hlen⟩ := hpush.taken
  dsimp only at hfresh hrest hlen hdata
  refine ⟨used, hdata, ⟨hpush.ok, ?_, ?_, htracks⟩, ?_⟩
  · intro hbig
    rcases hpush.big with ⟨hnone, -⟩ | ⟨hsame, hlong⟩
    · exact absurd hnone hbig
    · have hlong : ctlHdrMax < (moqtrunAsmRest s.hub j).length := by
        rcases hlong with hnone | hlong
        · exact absurd (hsame.trans hnone) hbig
        · exact hlong
      right
      right
      rcases h.quiet with ⟨-, hnil⟩ | ⟨-, hitem, -⟩
      · rw [hnil] at hlong
        cases hlong
      · cases hheader : moqctlPeekHeader (s.ver j) (moqtrunAsmRest s.hub j) with
        | none =>
          have hshort := moqctlPeekHeader_none hheader
          omega
        | some r =>
          obtain ⟨⟨type, len⟩, head⟩ := r
          refine ⟨type, len, head, ?_, ?_⟩
          · rw [hrest]
            exact (moqctlPeekHeader_stable _).append hheader bytes
          · by_cases hover : moqctlMaxMsgLen < len
            · rw [ctlItem_overLimit hheader hover] at hitem
              cases hitem
            · have hwithin := Nat.not_lt.mp hover
              rw [ctlItem_within hheader hwithin, Option.map_eq_none_iff] at hitem
              have hpart := (ctlItem_none_of_within hheader hwithin hitem).2
              exact ⟨hwithin, by omega⟩
  · intro hskip
    rw [hpush.skip] at hskip
    have hnil : moqtrunAsmRest s.hub j = [] := by
      rcases h.quiet with ⟨-, hnil⟩ | ⟨hzero, -⟩
      · exact hnil
      · omega
    have hnone : data.drop (s.hub.asm j).skip = [] := drop_of_length_le (by omega)
    rw [hnone] at hfresh
    rw [hrest, hnil, (append_eq_nil_iff.mp hfresh.symm).1]
    rfl
  · intro hne hused
    rw [hused, nil_append] at hdata
    have hpos : 0 < data.length := length_pos_iff.mpr hne
    have hcount := congrArg List.length hfresh
    rw [length_append, length_drop, ← hdata] at hcount
    -- then nothing was skipped or taken, though there was room
    have hzero : (s.hub.asm j).skip = 0 ∧ bytes.length = 0 := by omega
    rw [hzero.1, drop_zero, hzero.2] at hlen
    have hroom : (moqtrunAsmRest s.hub j).length < moqtrunAsmCap (hub'.asm j) := by
      rcases hpush.big with ⟨hnone, hshort⟩ | ⟨hsame, -⟩
      · rw [moqtrunAsmCap, hnone]
        show _ < 1024 + ctlHdrMax
        omega
      · rcases h.quiet with ⟨hskip, -⟩ | ⟨-, -, hroom⟩
        · exact absurd hzero.1 hskip
        · rw [moqtrunAsmCap, hsame]
          exact hroom
    omega

theorem dispatchLoop_spec (h : Settled env s j seen) (hfuel : data.length < fuel) :
    ∃ s', dispatchLoop env j fuel s data = some s' ∧ Settled env s' j (seen ++ data) ∧
      Frame s s' j := by
  induction fuel generalizing s seen data with
  | zero => exact absurd hfuel (Nat.not_lt_zero _)
  | succ fuel ih =>
    have hkeeps := (moqtrunAsmPush_spec h.ok j data).keeps
    obtain ⟨used, hdata, hdraining, hprogress⟩ := h.push data
    obtain ⟨s₁, hdrain, hsettled, hframe⟩ := drainLoop_spec hdraining (Nat.lt_succ_self _)
    have hframe := (Frame.of_hub hkeeps).trans hframe
    rw [dispatchLoop, moqtrunCtlDrain]
    rw [hdrain]
    dsimp only
    generalize (moqtrunAsmPush s.hub j data).2 = left at hdata ⊢
    by_cases hleft : 0 < left.length
    · rw [if_pos hleft]
      have hne : used ≠ [] := by
        apply hprogress
        intro hnil
        rw [hnil] at hdata
        rw [(append_eq_nil_iff.mp hdata.symm).2] at hleft
        cases hleft
      have hless : left.length < fuel := by
        have hpos := length_pos_iff.mpr hne
        have hcount := congrArg List.length hdata
        rw [length_append] at hcount
        omega
      obtain ⟨s', hloop, hsettled', hframe'⟩ := ih hsettled hless
      refine ⟨s', hloop, ?_, hframe.trans hframe'⟩
      rw [append_assoc, ← hdata] at hsettled'
      exact hsettled'
    · obtain rfl : left = [] := eq_nil_of_length_eq_zero (by omega)
      rw [append_nil] at hdata
      rw [hdata]
      exact ⟨s₁, rfl, hsettled, hframe⟩

/-! ## Runs -/

theorem RunOk.deliver (h : RunOk env s) (j : ι) (data : List UInt8) :
    ∃ s', moqtrunDispatchCtlStream env s j data = some s' ∧ RunOk env s' := by
  obtain ⟨hok, hall⟩ := h
  have hsettled : Settled env s j (s.bytes j) := ⟨hok, (hall j).1, (hall j).2⟩
  obtain ⟨s', hloop, hsettled', hframe⟩ := dispatchLoop_spec hsettled (Nat.lt_succ_self data.length)
  refine ⟨{ s' with bytes := update s'.bytes j (s'.bytes j ++ data) },
    by rw [moqtrunDispatchCtlStream, hloop]; rfl, hsettled'.ok, fun k => ?_⟩
  by_cases hk : k = j
  · subst hk
    refine ⟨hsettled'.quiet, ?_⟩
    show Tracks env _ k (update s'.bytes k (s'.bytes k ++ data) k)
    rw [update_self, hframe.bytes]
    exact hsettled'.tracks.congr rfl rfl rfl rfl rfl
  · obtain ⟨hasm, hrest⟩ := hframe.hub k hk
    have hver : s'.ver k = s.ver k := congrFun hframe.ver k
    constructor
    · unfold Quiet
      rw [hasm, hrest, hver]
      exact (hall k).1
    · show Tracks env _ k (update s'.bytes j (s'.bytes j ++ data) k)
      rw [update_of_ne hk, hframe.bytes]
      exact (hall k).2.congr hrest (congrArg CtlAsm.skip hasm) hver (hframe.log k hk)
        (hframe.starved k hk)

theorem RunOk.start (h : RunOk env s) (j : ι) (ver : MoqVer) :
    ∃ s', ctlStep env s (.start j ver) = some s' ∧ RunOk env s' := by
  obtain ⟨hok, hall⟩ := h
  have hreset : HubOk (s.hub.set j (moqtrunAsmReset (s.hub.asm j))) := by
    refine hok.set ?_ ?_ ?_ ?_
    · exact hok.buf j
    · exact le_rfl
    · intro hlt
      cases hlt
    · intro i hi
      cases hi
  have hnil : moqtrunAsmRest (s.hub.set j (moqtrunAsmReset (s.hub.asm j))) j = [] := by
    rw [moqtrunAsmRest, set_asm_self]
    exact take_zero ..
  refine ⟨_, rfl, hreset, fun k => ?_⟩
  by_cases hk : k = j
  · subst hk
    refine ⟨quiet_of_empty hnil, ?_⟩
    show Tracks env _ k (update s.bytes k [] k)
    rw [update_self]
    refine tracks_fresh (update_self ..) hnil ?_
    rw [set_asm_self]
    rfl
  · obtain ⟨hasm, hrest⟩ := set_keepsOthers s.hub j (moqtrunAsmReset (s.hub.asm j)) k hk
    have hver : update s.ver j ver k = s.ver k := update_of_ne hk ..
    constructor
    · show Quiet (s.hub.set j (moqtrunAsmReset (s.hub.asm j))) (update s.ver j ver k) k
      unfold Quiet
      rw [hasm, hrest, hver]
      exact (hall k).1
    · show Tracks env _ k (update s.bytes j [] k)
      rw [update_of_ne hk]
      exact (hall k).2.congr hrest (congrArg CtlAsm.skip hasm) hver (update_of_ne hk ..)
        (update_of_ne hk ..)

theorem RunOk.run (h : RunOk env s) (ops : List (CtlOp ι)) :
    ∃ s', ctlRun env s ops = some s' ∧ RunOk env s' := by
  induction ops generalizing s with
  | nil => exact ⟨s, rfl, h⟩
  | cons op ops ih =>
    have hstep : ∃ s₁, ctlStep env s op = some s₁ ∧ RunOk env s₁ := by
      cases op with
      | start j ver => exact h.start j ver
      | deliver j data => exact h.deliver j data
    obtain ⟨s₁, hop, h₁⟩ := hstep
    obtain ⟨s', hrun, h'⟩ := ih h₁
    refine ⟨s', ?_, h'⟩
    rw [ctlRun, foldlM_cons, hop]
    exact hrun

/-- Over every run every delivery ends. On each stream for which a pool buffer was always free, the
items of all the bytes delivered are met in order, whatever the deliveries, until the session is
closed on one of them; a message over the limit is one of these items, and the one behind it begins
where its Length says. If no message is over the limit and no handler closes the session, the
messages that are routed are those of the whole stream. -/
theorem ctlStreams_routed (env : CtlEnv ι σ) (ver : ι → MoqVer) (st : σ) (ops : List (CtlOp ι)) :
    ∃ s, ctlRun env (ctlRunStart ver st) ops = some s ∧ ∀ j, s.starved j = false →
      (Bounded env (s.ver j) (s.bytes j) →
        Routed (ctlItems (s.ver j) (s.bytes j)) (s.log j)) ∧
      (CtlItem.overLimit ∉ ctlItems (s.ver j) (s.bytes j) → env.KeepsOpen →
        (s.log j).map Prod.fst = ctlItems (s.ver j) (s.bytes j)) := by
  obtain ⟨s, hrun, -, hall⟩ := (ctlRunStart_ok env ver st).run ops
  refine ⟨s, hrun, fun j hstarved => ?_⟩
  have hrouted : Bounded env (s.ver j) (s.bytes j) →
      Routed (ctlItems (s.ver j) (s.bytes j)) (s.log j) :=
    fun hbound => (hall j).2.routed hstarved hbound (hall j).1
  refine ⟨hrouted, fun hnone hopen => ?_⟩
  exact (hrouted (.inr ⟨hnone, hopen⟩)).eq_of_open ((hall j).2.isOpen hstarved hnone hopen)

/-- A message whose Length and body are cut. -/
example :
    (ctlRun { closeSession := true, route := fun n _ _ => (n + 1, false) }
      (ctlRunStart (fun _ => .d22) 0)
      [.deliver () [0x10, 0x00], .deliver () [0x01, 0xAA, 0x10]]).map
        (fun s => (s.log (), s.st)) =
      some ([(.message { peek := .ok, type := 0x10, body := [0xAA] }, false)], 1) := by
  decide +kernel

end

end Wired.Moqt
