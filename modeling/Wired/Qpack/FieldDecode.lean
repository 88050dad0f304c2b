import Wired.Qpack.EncoderStream
import Wired.Qpack.FieldLine
import Wired.Qpack.InsertCount

/-!
# Resolving references of field lines

`base.c` and `field_decode.c`: the Base of a field section is computed from its Required Insert
Count and a signed distance, and an index of a field line is relative to the Base, counted
backwards or, in the post-base forms, forwards. All of it is arithmetic on `u64`.
-/

namespace Wired.Qpack

open Lib Option

def qpackBase (ric : Nat) (sign : Bool) (deltaBase : Nat) : Nat :=
  if sign then subU64 (subU64 ric deltaBase) 1 else addU64 ric deltaBase

def qpackBaseValid (ric : Nat) (sign : Bool) (deltaBase : Nat) : Bool := !sign || ric > deltaBase

/-- What a field line is decoded against. A missing table behaves as an empty one. -/
structure QdynSrc where
  table : QpackDyn
  base : Nat
  ric : Nat

def resolveStatic (index : Nat) : Option Field := qpackStaticGet index

def qdynRefGet (s : QdynSrc) (abs : Nat) : Option Field :=
  if qpackRicMinOk s.ric true abs then qpackDynGet s.table abs else none

def resolveDynamic (s : QdynSrc) (rel : Nat) : Option Field :=
  qdynRefGet s (qpackRelToAbs s.base rel)

def resolvePostbase (s : QdynSrc) (postbase : Nat) : Option Field :=
  qdynRefGet s (qpackPostbaseToAbs s.base postbase)

def tryIndexed (s : QdynSrc) (fs : List UInt8) : Option (Field × Nat) :=
  (qpackIndexedDecode fs).bind fun r =>
    (if r.1.2 then resolveStatic r.1.1 else resolveDynamic s r.1.1).map fun f => (f, r.2)

def tryPostbase (s : QdynSrc) (fs : List UInt8) : Option (Field × Nat) :=
  (qpackIndexedPostbaseDecode fs).bind fun r => (resolvePostbase s r.1).map fun f => (f, r.2)

def qdynDecodeField (s : QdynSrc) (fs : List UInt8) : Option (Field × Nat) :=
  (tryIndexed s fs).or (tryPostbase s fs)

def qdynResolvePostbaseName (s : QdynSrc) (postbase : Nat) : Option (List UInt8) :=
  (resolvePostbase s postbase).map Field.name

def qdynResolveName (s : QdynSrc) (isStatic : Bool) (index : Nat) : Option (List UInt8) :=
  (if isStatic then resolveStatic index else resolveDynamic s index).map Field.name

/-! ## Tables as the encoder stream leaves them -/

/-- A table and the entries it holds; an insert takes a byte of a stream of at most `2 ^ 62`. -/
structure LiveTable where
  table : QpackDyn
  live : List Field
  represents : table.Represents live
  inserts_le : table.dropped + table.count ≤ 2 ^ 62

/-- A table holds some entries, and has had at most `n` inserts. -/
def Inserted (n : Nat) (t : QpackDyn) : Prop :=
  (∃ live, t.Represents live) ∧ t.dropped + t.count ≤ n

variable {t t' : QpackDyn} {n : Nat}

theorem Inserted.insert (h : Inserted n t) {f : Field} (hf : qpackDynInsert t f = some t') :
    Inserted (n + 1) t' := by
  obtain ⟨⟨live, hlive⟩, hn⟩ := h
  by_cases hsize : f.size ≤ t.capacity
  · obtain ⟨t₂, ht₂, hrep, hsum, -⟩ := qpackDynInsert_represents hlive hsize
    obtain rfl : t₂ = t' := Option.some.inj (ht₂.symm.trans hf)
    exact ⟨⟨_, hrep⟩, by omega⟩
  · rw [qpackDynInsert_eq_none (Nat.lt_of_not_le hsize)] at hf
    cases hf

theorem Inserted.setCapacity (h : Inserted n t) (capacity : Nat) :
    Inserted n (qpackDynSetCapacity t capacity) := by
  obtain ⟨⟨live, hlive⟩, hn⟩ := h
  obtain ⟨hrep, hsum, -⟩ := qpackDynSetCapacity_represents hlive capacity
  exact ⟨⟨_, hrep⟩, by omega⟩

theorem Inserted.insertValue (h : Inserted n t) {sc b : List UInt8} {off : Nat}
    (hi : qdynEncInsertValue t sc b off = some t') : Inserted (n + 1) t' := by
  obtain ⟨r, -, hr⟩ := bind_eq_some_iff.mp hi
  exact h.insert hr

/-- One instruction inserts at most one entry. -/
theorem Inserted.applies (h : Inserted n t) {max : Nat} {i : EncIns}
    (hi : encApplies max t i = some t') : Inserted (n + 1) t' := by
  unfold encApplies at hi
  split at hi
  · unfold qdynEncCapacity at hi
    split at hi
    · cases hi
    obtain rfl := Option.some.inj hi
    obtain ⟨hlive, hle⟩ := h.setCapacity i.v
    exact ⟨hlive, by omega⟩
  · obtain ⟨sc, -, hsc⟩ := bind_eq_some_iff.mp hi
    exact h.insertValue hsc
  · obtain ⟨r, -, hr⟩ := bind_eq_some_iff.mp hi
    exact h.insertValue hr
  · obtain ⟨f, -, hf⟩ := bind_eq_some_iff.mp hi
    exact h.insert hf

/-- The instructions of a buffer insert at most one entry per byte. -/
theorem Inserted.applyAll (max : Nat) (h : Inserted n t) (buf : List UInt8) :
    Inserted (n + (qdynEncApplyAll max t buf).used) (qdynEncApplyAll max t buf).state := by
  unfold qdynEncApplyAll
  induction t, buf using interpret_induction (encApplies max) frameIns_stable generalizing n with
  | hincomplete t buf hone => rw [interpret_incomplete hone]; exact h
  | hinvalid t buf hone => rw [interpret_invalid frameIns_stable hone]; exact h
  | happlied t t' buf k hone ih =>
    obtain ⟨i, hframe, hi⟩ := interpretOne_applied hone
    have hpos := frameIns_stable.pos hframe
    obtain ⟨hlive, hle⟩ := ih (h.applies hi)
    rw [interpret_applied frameIns_stable hone]
    refine ⟨hlive, ?_⟩
    simp only [Interpreted.skip]
    omega

/-- Every table that a decoder builds from the bytes of an encoder stream is a live one. -/
theorem liveTable_of_received (advertised : Nat) {bytes : List UInt8}
    (hlen : bytes.length ≤ 2 ^ 62) :
    ∃ T : LiveTable, T.table = (qdynEncApplyAll advertised
      { qpackDynInit 0 with maxCapacity := advertised } bytes).state := by
  have hinit : Inserted 0 { qpackDynInit 0 with maxCapacity := advertised } :=
    ⟨⟨[], (qpackDynInit_represents 0).withMax advertised⟩, le_rfl⟩
  obtain ⟨⟨live, hlive⟩, hle⟩ := hinit.applyAll advertised bytes
  have hused := qdynEncApplyAll_used_le advertised
    { qpackDynInit 0 with maxCapacity := advertised } bytes
  exact ⟨⟨_, live, hlive, by omega⟩, rfl⟩

end Wired.Qpack
