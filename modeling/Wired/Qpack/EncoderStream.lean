import Wired.Qpack.Instruction
import Wired.Qpack.StaticTable
import Wired.Qpack.StringLiteral

/-!
# Instructions of the encoder stream

`enc_stream.c` and `enc_stream_qdyn_enc.c`: an instruction is framed first, from its leading
integer and the lengths of its strings, and carried out on the dynamic table only when it is
whole. An instruction that cannot be carried out leaves the table as it is.
-/

namespace Wired.Qpack

open Lib List

/-- One whole instruction: its bytes, and the length and the value of its leading integer. -/
structure EncIns where
  b : List UInt8
  n : Nat
  v : Nat
  kind : QpackEncKind
deriving DecidableEq, Repr

/-! ## Framing -/

def qdynEncStrEnd (b : List UInt8) (off bits : Nat) : Option Nat :=
  match qpackIntDecode bits (b.drop off) with
  | none => none
  | some (len, n) => if len ≤ b.length - off - n then some (off + n + len) else none

def encEnds (kind : QpackEncKind) (b : List UInt8) (n : Nat) : Option Nat :=
  match kind with
  | .setCapacity => some n
  | .insertNameRef => qdynEncStrEnd b n 7
  | .insertLiteral => (qdynEncStrEnd b 0 5).bind fun e => qdynEncStrEnd b e 7
  | .duplicate => some n

def frameIns (buf : List UInt8) : Option (EncIns × Nat) :=
  (qpackEncInstrDecode buf).bind fun r =>
    (encEnds r.1.1 buf r.2).map fun e =>
      ({ b := buf.take e, n := r.2, v := r.1.2, kind := r.1.1 }, e)

/-! ## Carrying out -/

def qdynEncKeep (sc src : List UInt8) : Option (List UInt8) :=
  if sc.length + src.length ≤ qpackDynMaxCapacity then some (sc ++ src) else none

/-- Decodes the value string and inserts it under the name that the scratch holds. -/
def qdynEncInsertValue (t : QpackDyn) (sc b : List UInt8) (off : Nat) : Option QpackDyn :=
  (qpackStringDecode (qpackDynMaxCapacity - sc.length) (b.drop off)).bind fun r =>
    qpackDynInsert t { name := sc, value := r.1 }

def qdynEncCapacity (max : Nat) (t : QpackDyn) (i : EncIns) : Option QpackDyn :=
  if !qpackCapacityWithinLimit i.v max then none else some (qpackDynSetCapacity t i.v)

def qdynEncStaticName (idx : Nat) : Option (List UInt8) :=
  (qpackStaticGet idx).bind fun f => qdynEncKeep [] f.name

def qdynEncDynamicName (t : QpackDyn) (rel : Nat) : Option (List UInt8) :=
  (qpackDynGetEncRel t rel).bind fun f => qdynEncKeep [] f.name

/-- The T bit, just above the name index. -/
def qpackEncNamerefT : UInt8 := 0x40

def qdynDoNameref (t : QpackDyn) (i : EncIns) : Option QpackDyn :=
  let isStatic := i.b.headD 0 &&& qpackEncNamerefT ≠ 0
  (if isStatic then qdynEncStaticName i.v else qdynEncDynamicName t i.v).bind fun sc =>
    qdynEncInsertValue t sc i.b i.n

def doLiteral (t : QpackDyn) (i : EncIns) : Option QpackDyn :=
  (qpackStringDecodePfx 5 qpackDynMaxCapacity i.b).bind fun r => qdynEncInsertValue t r.1 i.b r.2

/-- The entry is copied out of the table first; one that the table holds fits in the scratch. -/
def doDuplicate (t : QpackDyn) (i : EncIns) : Option QpackDyn :=
  (qpackDynGetEncRel t i.v).bind fun f => qpackDynInsert t f

def encApplies (max : Nat) (t : QpackDyn) (i : EncIns) : Option QpackDyn :=
  match i.kind with
  | .setCapacity => qdynEncCapacity max t i
  | .insertNameRef => qdynDoNameref t i
  | .insertLiteral => doLiteral t i
  | .duplicate => doDuplicate t i

def qdynEncApply (max : Nat) (t : QpackDyn) (buf : List UInt8) : Round QpackDyn :=
  interpretOne frameIns (encApplies max) t buf

/-- Carries out the whole instructions of a buffer, as the loop of `rx_apply` does. -/
def qdynEncApplyAll (max : Nat) (t : QpackDyn) (buf : List UInt8) : Interpreted QpackDyn :=
  interpret frameIns (encApplies max) t buf

/-! ## Framing depends on the bytes of the instruction only -/

variable {b : List UInt8} {e n : Nat} {kind : QpackEncKind}

theorem qdynEncStrEnd_spec {off bits : Nat} (h : qdynEncStrEnd b off bits = some e) :
    off < e ∧ e ≤ b.length ∧
      ∀ c, c.take e = b.take e → qdynEncStrEnd c off bits = some e := by
  unfold qdynEncStrEnd at h
  cases hint : qpackIntDecode bits (b.drop off) with
  | none => simp [hint] at h
  | some r =>
    obtain ⟨len, n⟩ := r
    simp only [hint, Option.ite_none_right_eq_some, Option.some.injEq] at h
    obtain ⟨hlen, rfl⟩ := h
    have hpos := (qpackIntDecode_stable bits).pos hint
    have hle := (qpackIntDecode_stable bits).le hint
    rw [length_drop] at hle
    have hend : off + n + len ≤ b.length := by omega
    refine ⟨by omega, hend, ?_⟩
    intro c hc
    have hclen : off + n + len ≤ c.length := by
      have := congrArg List.length hc
      rw [length_take, length_take] at this
      omega
    have hsame : (c.drop off).take n = (b.drop off).take n := by
      have := congrArg (fun l => (l.take (off + n)).drop off) hc
      simpa [take_take, drop_take, min_eq_left] using this
    have hint' := (qpackIntDecode_stable bits).of_take_eq hint hsame
    simp only [qdynEncStrEnd, hint']
    rw [if_pos (by omega)]

theorem encEnds_spec (hn : n ≤ b.length) (hpos : 0 < n) (h : encEnds kind b n = some e) :
    0 < e ∧ e ≤ b.length ∧ ∀ c, c.take e = b.take e → encEnds kind c n = some e := by
  cases kind with
  | setCapacity | duplicate =>
    cases h
    exact ⟨hpos, hn, fun c _ => rfl⟩
  | insertNameRef =>
    obtain ⟨hlt, hle, hsame⟩ := qdynEncStrEnd_spec h
    exact ⟨by omega, hle, hsame⟩
  | insertLiteral =>
    obtain ⟨e', hname, hvalue⟩ := Option.bind_eq_some_iff.mp h
    obtain ⟨hlt', -, hsame'⟩ := qdynEncStrEnd_spec hname
    obtain ⟨hlt, hle, hsame⟩ := qdynEncStrEnd_spec hvalue
    refine ⟨by omega, hle, fun c hc => ?_⟩
    refine Option.bind_eq_some_iff.mpr ⟨e', hsame' c ?_, hsame c hc⟩
    have := congrArg (List.take e') hc
    rwa [take_take, take_take, min_eq_left (by omega)] at this

theorem encEnds_ge {v : Nat}
    (hdec : qpackEncInstrDecode b = some ((kind, v), n)) (h : encEnds kind b n = some e) :
    n ≤ e := by
  cases kind with
  | setCapacity | duplicate => exact le_of_eq (Option.some.inj h)
  | insertNameRef => exact le_of_lt (qdynEncStrEnd_spec h).1
  | insertLiteral =>
    -- the leading integer is the length of the name
    have hint : qpackIntDecode 5 b = some (v, n) := instrDecode_int hdec
    obtain ⟨e', hname, hvalue⟩ := Option.bind_eq_some_iff.mp h
    have hlt := (qdynEncStrEnd_spec hvalue).1
    simp only [qdynEncStrEnd, drop_zero, hint, Option.ite_none_right_eq_some,
      Option.some.injEq] at hname
    omega

theorem frameIns_eq_some {buf : List UInt8} {i : EncIns} :
    frameIns buf = some (i, e) ↔
      qpackEncInstrDecode buf = some ((i.kind, i.v), i.n) ∧ encEnds i.kind buf i.n = some e ∧
        i.b = buf.take e := by
  unfold frameIns
  constructor
  · intro h
    obtain ⟨r, hr, he⟩ := Option.bind_eq_some_iff.mp h
    obtain ⟨e', he', heq⟩ := Option.map_eq_some_iff.mp he
    cases heq
    exact ⟨hr, he', rfl⟩
  · rintro ⟨hr, he, hb⟩
    rw [hr, Option.bind_some, he, Option.map_some, ← hb]

theorem frameIns_stable : Stable frameIns := by
  have hspec : ∀ {b i e}, frameIns b = some (i, e) → 0 < e ∧ e ≤ b.length ∧
      ∀ c, frameIns (b.take e ++ c) = some (i, e) := by
    intro b i e h
    obtain ⟨hdec, hend, hb⟩ := frameIns_eq_some.mp h
    have hstable := instrDecode_stable encKinds encSpec
    obtain ⟨hpos, hle, hsame⟩ := encEnds_spec (hstable.le hdec) (hstable.pos hdec) hend
    have hn := encEnds_ge hdec hend
    refine ⟨hpos, hle, fun c => ?_⟩
    have hlen : (b.take e).length = e := by
      rw [length_take]
      omega
    have htake : (b.take e ++ c).take e = b.take e := take_left' hlen
    have hhead : (b.take e ++ c).take i.n = b.take i.n := by
      have := congrArg (List.take i.n) htake
      rwa [take_take, take_take, min_eq_left hn] at this
    exact frameIns_eq_some.mpr
      ⟨hstable.of_take_eq hdec hhead, hsame _ htake, by rw [htake, hb]⟩
  exact ⟨⟨fun h => (hspec h).2.1, fun h => (hspec h).2.2⟩, fun h => (hspec h).1⟩

/-- The loop of `rx_apply`: one instruction after the other, until one is not whole or fails. -/
theorem qdynEncApplyAll_eq (max : Nat) (t : QpackDyn) (buf : List UInt8) :
    qdynEncApplyAll max t buf =
      match qdynEncApply max t buf with
      | .incomplete => ⟨t, 0, false⟩
      | .invalid => ⟨t, 0, true⟩
      | .applied t' n => (qdynEncApplyAll max t' (buf.drop n)).skip n := by
  cases hone : qdynEncApply max t buf with
  | incomplete => exact interpret_incomplete hone
  | invalid => exact interpret_invalid frameIns_stable hone
  | applied t' n => exact interpret_applied frameIns_stable hone

theorem qdynEncApplyAll_used_le (max : Nat) (t : QpackDyn) (buf : List UInt8) :
    (qdynEncApplyAll max t buf).used ≤ buf.length :=
  interpret_used_le frameIns_stable t buf

/-- Instructions that arrive later are carried out from where the earlier ones left off. -/
theorem qdynEncApplyAll_append (max : Nat) (t : QpackDyn) (b c : List UInt8) :
    qdynEncApplyAll max t (b ++ c) =
      (qdynEncApplyAll max (qdynEncApplyAll max t b).state
        (b.drop (qdynEncApplyAll max t b).used ++ c)).skip (qdynEncApplyAll max t b).used :=
  interpret_append frameIns_stable t b c

end Wired.Qpack
