import Wired.Qpack.Encoder
import Wired.Qpack.TableHistory

/-!
# What the encoder puts on its stream

The two instructions this encoder writes, a capacity and an insert with a literal name, are read
by `enc_stream.c` as what they are, whatever follows them on the stream.
-/

namespace Wired.Qpack

open Lib List Option

/-- An instruction as this encoder means it. -/
inductive EncMsg where
  | capacity (v : Nat)
  | insert (f : Field)

def EncMsg.apply (t : QpackDyn) : EncMsg → Option QpackDyn
  | .capacity v => some (qpackDynSetCapacity t v)
  | .insert f => qpackDynInsert t f

def EncMsg.inserted : EncMsg → List Field
  | .capacity _ => []
  | .insert f => [f]

/-- An instruction that is carried out adds to what a table recalls, and drops nothing twice. -/
theorem QpackDyn.Recalls.apply {t t' : QpackDyn} {fs : List Field} {m : EncMsg} (h : t.Recalls fs)
    (hm : m.apply t = some t') : t'.Recalls (fs ++ m.inserted) ∧ t.dropped ≤ t'.dropped ∧
      t'.maxCapacity = t.maxCapacity := by
  cases m with
  | capacity v =>
    obtain rfl := Option.some.inj hm
    rw [EncMsg.inserted, append_nil]
    exact h.setCapacity v
  | insert f =>
    have hm : qpackDynInsert t f = some t' := hm
    have hf : f.size ≤ t.capacity := by
      by_contra hbig
      rw [qpackDynInsert_eq_none (Nat.lt_of_not_le hbig)] at hm
      cases hm
    obtain ⟨t₂, ht₂, hrecalls, hdropped, -, hmax, -⟩ := h.insert hf
    obtain rfl : t₂ = t' := Option.some.inj (ht₂.symm.trans hm)
    exact ⟨hrecalls, hdropped, hmax⟩

/-- The bytes are read as the instruction and carried out as it means. -/
def EncMsg.Read (max : Nat) (m : EncMsg) (bytes : List UInt8) : Prop :=
  ∃ i, Codes frameIns bytes i ∧ ∀ t, encApplies max t i = m.apply t

variable {bytes : List UInt8} {cap : Nat}

theorem capacity_read {max v : Nat} (hmax : v ≤ max) (hv : v < 2 ^ 63)
    (h : qpackIntEncode cap 5 0x20 v = some bytes) : (EncMsg.capacity v).Read max bytes := by
  have hdec : qpackEncInstrDecode (bytes ++ []) = some ((.setCapacity, v), bytes.length) :=
    instrDecode_encode (encKind_recognised .setCapacity) hv h []
  rw [append_nil] at hdec
  refine ⟨⟨bytes, bytes.length, v, .setCapacity⟩, Codes.of_decoded frameIns_stable ?_, ?_⟩
  · simp [frameIns, hdec, encEnds]
  · intro t
    simp [encApplies, qdynEncCapacity, qpackCapacityWithinLimit, hmax, EncMsg.apply]

theorem stringPattern_name : StringPattern 5 0x40 where
  raw := by unfold PatternFree; decide +kernel
  huff := by unfold PatternFree; decide +kernel
  raw_flag := by decide +kernel
  huff_flag := by decide +kernel

theorem stringPattern_value : StringPattern 7 0 where
  raw := by unfold PatternFree; decide +kernel
  huff := by unfold PatternFree; decide +kernel
  raw_flag := by decide +kernel
  huff_flag := by decide +kernel

/-- A string that decodes ends where it is framed to end. -/
theorem qdynEncStrEnd_of_decode {b s : List UInt8} {off bits room n : Nat}
    (h : qpackStringDecodePfx bits room (b.drop off) = some (s, n)) :
    qdynEncStrEnd b off bits = some (off + n) := by
  obtain ⟨⟨huff, len⟩, k, m, hhead, hvalue, rfl⟩ := Stable.andThen_eq_some.mp h
  obtain ⟨x, -, hx⟩ := bind_eq_some_iff.mp hhead
  obtain ⟨r, hint, he⟩ := map_eq_some_iff.mp hx
  cases he
  unfold strValue at hvalue
  split at hvalue
  · cases hvalue
  rename_i hlen
  obtain ⟨v, -, hv⟩ := map_eq_some_iff.mp hvalue
  cases hv
  rw [length_drop, length_drop] at hlen
  simp only [qdynEncStrEnd, hint]
  rw [if_pos (by omega), Nat.add_assoc]

/-- The first byte of an insert is told apart from those of the other instructions. -/
theorem insert_recognised {name : List UInt8}
    (h : encodeName cap name = some bytes) (rest : List UInt8) :
    (bytes ++ rest).head?.bind (specClassify encKinds encSpec) = some .insertLiteral := by
  have hraw : ∀ x < 2 ^ 5, specClassify encKinds encSpec (0x40 ||| UInt8.ofNat x) =
      some .insertLiteral := by decide +kernel
  have hhuff : ∀ x < 2 ^ 5, specClassify encKinds encSpec (withHuffman 5 0x40 ||| UInt8.ofNat x) =
      some .insertLiteral := by decide +kernel
  obtain ⟨x, hx, hfirst⟩ := qpackStringEncodePfx_head h
  rcases hfirst with hfirst | hfirst
  · rw [head?_append, hfirst]
    exact hraw x hx
  · rw [head?_append, hfirst]
    exact hhuff x hx

theorem insert_read (max : Nat) {f : Field}
    (hsize : f.name.length + f.value.length ≤ qpackDynMaxCapacity)
    (h : qdynInsertLiteral cap f = some bytes) : (EncMsg.insert f).Read max bytes := by
  obtain ⟨name, hname, hv⟩ := bind_eq_some_iff.mp h
  obtain ⟨value, hvalue, rfl⟩ := map_eq_some_iff.mp hv
  have hlimit : qpackDynMaxCapacity < 2 ^ 63 := by decide
  have hname' : qpackStringDecodePfx 5 qpackDynMaxCapacity (name ++ value) =
      some (f.name, name.length) :=
    qpackStringDecode_encode stringPattern_name (by omega) (by omega) hname value
  have hroom : f.value.length ≤ qpackDynMaxCapacity - f.name.length := by omega
  have hvalue' : qpackStringDecode (qpackDynMaxCapacity - f.name.length)
      ((name ++ value).drop name.length) = some (f.value, value.length) := by
    have hdec := qpackStringDecode_encode stringPattern_value (by omega) hroom hvalue []
    rw [append_nil] at hdec
    rw [drop_left]
    exact hdec
  have hends : (qdynEncStrEnd (name ++ value) 0 5).bind
      (fun e => qdynEncStrEnd (name ++ value) e 7) = some (name ++ value).length := by
    rw [qdynEncStrEnd_of_decode hname', bind_some, Nat.zero_add,
      qdynEncStrEnd_of_decode hvalue', length_append]
  -- the leading integer is the length of the name
  obtain ⟨⟨huff, len⟩, k, m, hhead, -, -⟩ := Stable.andThen_eq_some.mp hname'
  obtain ⟨b, hb, hint⟩ := bind_eq_some_iff.mp hhead
  obtain ⟨r, hr, he⟩ := map_eq_some_iff.mp hint
  have hclass := insert_recognised hname value
  rw [hb, bind_some] at hclass
  have hdec : qpackEncInstrDecode (name ++ value) = some ((.insertLiteral, r.1), r.2) := by
    simp only [qpackEncInstrDecode, instrDecode, hb, bind_some, hclass]
    exact congrArg (Option.map _) hr
  refine ⟨⟨name ++ value, r.2, r.1, .insertLiteral⟩, Codes.of_decoded frameIns_stable ?_, ?_⟩
  · simp only [frameIns, hdec, bind_some, encEnds, hends, map_some, take_length]
  · intro t
    simp only [encApplies, doLiteral, hname', bind_some, qdynEncInsertValue, hvalue', EncMsg.apply]

end Wired.Qpack
