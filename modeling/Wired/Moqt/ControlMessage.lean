import Wired.Moqt.Vi

/-!
# Control messages

`moqctl_type.c`: a message is its Type, a Length and as many bytes of body. The Type is a
variable-length integer; so is the Length from draft 23 on, and before it is of 16 bits. A message
is framed by its Length whatever its Type.

`ctlItems` is what a whole stream holds: the messages one after the other, with those in their
place whose Length is over the limit.
-/

namespace Wired.Moqt

open Lib Transport List

/-- `MOQVER_*`. -/
inductive MoqVer where
  | d18
  | d19
  | d22
  | d23
deriving DecidableEq, Repr

def MoqVer.ctlLenVi : MoqVer → Bool
  | .d23 => true
  | _ => false

def moqctlMaxMsgLen : Nat := 0xFFFF

def be16Take : Decoder UInt8 Nat
  | hi :: lo :: _ => some (hi.toNat * 2 ^ 8 + lo.toNat, 2)
  | _ => none

def moqctlLenTake (ver : MoqVer) : Decoder UInt8 Nat :=
  if ver.ctlLenVi then moqviTake else be16Take

def moqctlPeekHeader (ver : MoqVer) : Decoder UInt8 (Nat × Nat) := do
  let type ← moqviTake
  let len ← moqctlLenTake ver
  pure (type, len)

/-- What the Type of a message is known as. -/
inductive MoqctlPeek where
  | ok
  | unknownType
  | knownUnimplemented
deriving DecidableEq, Repr

/-- `MOQCTL_KNOWN_UNIMPL`: REQUEST_UPDATE, FETCH, TRACK_STATUS, PUBLISH_NAMESPACE,
SUBSCRIBE_NAMESPACE, SUBSCRIBE_TRACKS, NAMESPACE, NAMESPACE_DONE, PUBLISH_SKIPPED, FETCH_OK. -/
def moqctlKnownUnimpl : List Nat := [0x2, 0x16, 0xD, 0x6, 0x50, 0x51, 0x8, 0xE, 0xF, 0x18]

/-- `MOQCTL_KNOWN_IMPL`: SETUP, GOAWAY, SUBSCRIBE, SUBSCRIBE_OK, REQUEST_ERROR, REQUEST_OK,
PUBLISH_DONE, PUBLISH. -/
def moqctlKnownImpl : List Nat := [0x2F00, 0x10, 0x3, 0x4, 0x5, 0x7, 0xB, 0x1D]

def moqctlClassifyType (type : Nat) : MoqctlPeek :=
  if type ∈ moqctlKnownImpl then .ok
  else if type ∈ moqctlKnownUnimpl then .knownUnimplemented
  else .unknownType

/-- A message without its framing. -/
structure CtlMessage where
  peek : MoqctlPeek
  type : Nat
  body : List UInt8
deriving DecidableEq, Repr

def moqctlPeekTypeV (ver : MoqVer) (buf : List UInt8) : Option (CtlMessage × Nat) :=
  match moqctlPeekHeader ver buf with
  | none => none
  | some ((type, len), head) =>
    if buf.length - head < len then none
    else
      some ({ peek := moqctlClassifyType type, type := type, body := (buf.drop head).take len },
        head + len)

/-! ## What a stream holds -/

/-- A message, or the place of one over the limit. -/
inductive CtlItem where
  | message (m : CtlMessage)
  | overLimit
deriving DecidableEq, Repr

/-- The item at the head; a message over the limit has as many of its bytes as there are. -/
def ctlItem (ver : MoqVer) (buf : List UInt8) : Option (CtlItem × Nat) :=
  match moqctlPeekHeader ver buf with
  | none => none
  | some ((_, len), head) =>
    if moqctlMaxMsgLen < len then some (.overLimit, min (head + len) buf.length)
    else (moqctlPeekTypeV ver buf).map fun r => (.message r.1, r.2)

def ctlItems (ver : MoqVer) (buf : List UInt8) : List CtlItem := (decodeAll (ctlItem ver) buf).1

/-! ## Headers -/

theorem be16Take_stable : Stable be16Take := by
  refine Stable.of_successes fun {b v n} h => ?_
  match b, h with
  | _ :: _ :: rest, h =>
    cases h
    exact ⟨Nat.two_pos, by simp, fun c => rfl⟩

theorem moqctlLenTake_stable (ver : MoqVer) : Stable (moqctlLenTake ver) := by
  unfold moqctlLenTake
  split
  · exact moqviDecode_stable
  · exact be16Take_stable

variable {ver : MoqVer} {buf : List UInt8} {len type head : Nat}

theorem moqctlLenTake_used {n : Nat} (h : moqctlLenTake ver buf = some (len, n)) : n ≤ 9 := by
  unfold moqctlLenTake at h
  split at h
  · exact moqviDecode_used h
  · match buf, h with
    | _ :: _ :: _, h =>
      cases h
      exact Nat.le_of_ble_eq_true rfl

theorem moqctlLenTake_none (h : moqctlLenTake ver buf = none) : buf.length < 9 := by
  unfold moqctlLenTake at h
  split at h
  · exact moqviDecode_none h
  · match buf, h with
    | [], _ => exact Nat.zero_lt_succ _
    | [_], _ => exact Nat.succ_lt_succ (Nat.zero_lt_succ _)

theorem moqctlPeekHeader_eq_some :
    moqctlPeekHeader ver buf = some ((type, len), head) ↔
      ∃ n m, moqviDecode buf = some (type, n) ∧ moqctlLenTake ver (buf.drop n) = some (len, m) ∧
        head = n + m := by
  unfold moqctlPeekHeader
  rw [Decoder.bind_eq_some]
  constructor
  · rintro ⟨type', n, k, htype, hrest, rfl⟩
    obtain ⟨len', m, j, hlen, hpure, rfl⟩ := Decoder.bind_eq_some.mp hrest
    cases hpure
    exact ⟨n, m, htype, hlen, rfl⟩
  · rintro ⟨n, m, htype, hlen, rfl⟩
    exact ⟨type, n, m, htype, Decoder.bind_eq_some.mpr ⟨len, m, 0, hlen, rfl, rfl⟩, rfl⟩

theorem moqctlPeekHeader_stable (ver : MoqVer) : Stable (moqctlPeekHeader ver) := by
  refine moqviDecode_stable.then_ fun type => ?_
  refine (moqctlLenTake_stable ver).then_ (fun len => ?_) |>.toReadsHead
  exact ⟨fun h => by cases h; exact Nat.zero_le _, fun h _ => by cases h; rfl⟩

/-- `WIRED_MOQTRUN_CTL_HDR_MAX`: a header has at most two integers of nine bytes. -/
def ctlHdrMax : Nat := 18

theorem moqctlPeekHeader_used (h : moqctlPeekHeader ver buf = some ((type, len), head)) :
    head ≤ ctlHdrMax := by
  obtain ⟨n, m, htype, hlen, rfl⟩ := moqctlPeekHeader_eq_some.mp h
  exact Nat.add_le_add (moqviDecode_used htype) (moqctlLenTake_used hlen)

/-- Without a whole header, fewer bytes are held than a header may have. -/
theorem moqctlPeekHeader_none (h : moqctlPeekHeader ver buf = none) : buf.length < ctlHdrMax := by
  unfold ctlHdrMax
  cases htype : moqviDecode buf with
  | none =>
    have hshort := moqviDecode_none htype
    omega
  | some r =>
    obtain ⟨type, n⟩ := r
    have hn := moqviDecode_used htype
    cases hlen : moqctlLenTake ver (buf.drop n) with
    | none =>
      have hshort := moqctlLenTake_none hlen
      rw [length_drop] at hshort
      omega
    | some r =>
      obtain ⟨len, m⟩ := r
      have hsome := moqctlPeekHeader_eq_some.mpr ⟨n, m, htype, hlen, rfl⟩
      rw [h] at hsome
      cases hsome

/-! ## Items -/

section

variable {m : CtlMessage} {n : Nat}

theorem moqctlPeekTypeV_eq_some :
    moqctlPeekTypeV ver buf = some (m, n) ↔
      ∃ type len head, moqctlPeekHeader ver buf = some ((type, len), head) ∧
        head + len ≤ buf.length ∧ n = head + len ∧
        m = { peek := moqctlClassifyType type, type := type, body := (buf.drop head).take len } := by
  unfold moqctlPeekTypeV
  cases hheader : moqctlPeekHeader ver buf with
  | none => simp
  | some r =>
    obtain ⟨⟨type, len⟩, head⟩ := r
    have hle := (moqctlPeekHeader_stable ver).le hheader
    dsimp only
    constructor
    · intro h
      split at h
      · cases h
      obtain ⟨rfl, rfl⟩ := Prod.mk.inj (Option.some.inj h)
      exact ⟨type, len, head, rfl, by omega, rfl, rfl⟩
    · rintro ⟨type', len', head', hsame, hroom, rfl, rfl⟩
      cases hsame
      rw [if_neg (by omega)]

theorem moqctlPeekTypeV_append (h : moqctlPeekTypeV ver buf = some (m, n)) (more : List UInt8) :
    moqctlPeekTypeV ver (buf ++ more) = some (m, n) := by
  obtain ⟨type, len, head, hheader, hroom, rfl, rfl⟩ := moqctlPeekTypeV_eq_some.mp h
  refine moqctlPeekTypeV_eq_some.mpr ⟨type, len, head,
    (moqctlPeekHeader_stable ver).append hheader more, ?_, rfl, ?_⟩
  · rw [length_append]
    omega
  · rw [drop_append_of_le_length (by omega), take_append_of_le_length]
    rw [length_drop]
    omega

theorem ctlItem_overLimit (hheader : moqctlPeekHeader ver buf = some ((type, len), head))
    (hover : moqctlMaxMsgLen < len) :
    ctlItem ver buf = some (.overLimit, min (head + len) buf.length) := by
  simp only [ctlItem, hheader, if_pos hover]

theorem ctlItem_within (hheader : moqctlPeekHeader ver buf = some ((type, len), head))
    (hwithin : len ≤ moqctlMaxMsgLen) :
    ctlItem ver buf = (moqctlPeekTypeV ver buf).map fun r => (.message r.1, r.2) := by
  simp only [ctlItem, hheader, if_neg (Nat.not_lt.mpr hwithin)]

theorem ctlItem_advances (ver : MoqVer) : Advances (ctlItem ver) := by
  have hcases : ∀ {b it n}, ctlItem ver b = some (it, n) → n ≤ b.length ∧ 0 < n := by
    intro b it n h
    cases hheader : moqctlPeekHeader ver b with
    | none => simp [ctlItem, hheader] at h
    | some r =>
      obtain ⟨⟨type, len⟩, head⟩ := r
      have hpos := (moqctlPeekHeader_stable ver).pos hheader
      have hle := (moqctlPeekHeader_stable ver).le hheader
      by_cases hover : moqctlMaxMsgLen < len
      · rw [ctlItem_overLimit hheader hover] at h
        cases h
        omega
      · rw [ctlItem_within hheader (Nat.not_lt.mp hover)] at h
        obtain ⟨⟨m, k⟩, hpeek, hk⟩ := Option.map_eq_some_iff.mp h
        cases hk
        obtain ⟨type', len', head', hsame, hroom, rfl, -⟩ := moqctlPeekTypeV_eq_some.mp hpeek
        rw [hheader] at hsame
        cases hsame
        exact ⟨hroom, by omega⟩
  exact ⟨fun h => (hcases h).1, fun h => (hcases h).2⟩

theorem ctlItems_none (h : ctlItem ver buf = none) : ctlItems ver buf = [] := by
  rw [ctlItems, decodeAll_none h]

theorem ctlItems_overLimit (hheader : moqctlPeekHeader ver buf = some ((type, len), head))
    (hover : moqctlMaxMsgLen < len) :
    ctlItems ver buf = .overLimit :: ctlItems ver (buf.drop (head + len)) := by
  rw [ctlItems, decodeAll_some (ctlItem_advances ver) (ctlItem_overLimit hheader hover),
    ← drop_eq_drop_min]
  rfl

theorem ctlItems_message (hheader : moqctlPeekHeader ver buf = some ((type, len), head))
    (hwithin : len ≤ moqctlMaxMsgLen) (hpeek : moqctlPeekTypeV ver buf = some (m, n)) :
    ctlItems ver buf = .message m :: ctlItems ver (buf.drop n) := by
  have hitem : ctlItem ver buf = some (.message m, n) := by
    rw [ctlItem_within hheader hwithin, hpeek]
    rfl
  rw [ctlItems, decodeAll_some (ctlItem_advances ver) hitem]
  rfl

end

end Wired.Moqt
