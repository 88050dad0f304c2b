import Wired.Qpack.EncoderOutput
import Wired.Qpack.FieldLine

/-!
# The status line of a response

`status_line.c`: the `:status` field is sent as an entry of the static table if it is one, else as
a reference to the dynamic table if the encoder plans one, and else as a literal. An insert that
was planned is carried along whatever the line becomes; it takes effect on the encoder's table
when its instructions were put on the encoder stream (`qpackencStatusCommit`).
-/

namespace Wired.Qpack

open Lib Option

def qpackStatusNameIndex : Nat := 24

def statusDigits (status : Nat) : List UInt8 :=
  [status / 100 % 10, status / 10 % 10, status % 10].map fun d => UInt8.ofNat (0x30 + d)

def statusField (digits : List UInt8) : Field where
  name := cstr ":status"
  value := digits

/-- The line, the Required Insert Count of its section, and the instructions for the encoder stream.
-/
structure QpackencStatusResult where
  field : List UInt8
  requiredInsertCount : Nat
  insertInstr : List UInt8
  status : Nat

def statusFieldCap : Nat := 64

def tryStatic (digits : List UInt8) : Option (List UInt8) :=
  (qpackStaticFind (statusField digits)).bind fun idx => qpackIndexedEncode statusFieldCap idx true

def maxEntriesOf (st : QpackencState) : Nat := st.dyn.maxCapacity / 32

def qdynIndexedDynamic (cap relIndex : Nat) : Option (List UInt8) :=
  qpackIndexedEncode cap relIndex false

def tryDynamic (plan : QpackencPlan) : Option (List UInt8 × Nat) :=
  plan.absIndex.bind fun i => (qdynIndexedDynamic statusFieldCap 0).map fun field => (field, i)

def fallbackLiteral (digits : List UInt8) : Option (List UInt8) :=
  qpackLiteralNamrefEncode statusFieldCap
    { index := qpackStatusNameIndex, isStatic := true, never := false } digits

def qpackencStatusLine (status : Nat) (st : QpackencState) : Option QpackencStatusResult :=
  let digits := statusDigits status
  match tryStatic digits with
  | some field =>
    some { field := field, requiredInsertCount := 0, insertInstr := [], status := status }
  | none =>
    let plan := qpackencPlanField st (statusField digits)
    match tryDynamic plan with
    | some (field, i) =>
      some { field := field, requiredInsertCount := qpackRicEncode (i + 1) (maxEntriesOf st),
             insertInstr := plan.insertInstr, status := status }
    | none =>
      (fallbackLiteral digits).map fun field =>
        { field := field, requiredInsertCount := 0, insertInstr := plan.insertInstr,
          status := status }

def qpackencStatusCommit (st : QpackencState) (r : QpackencStatusResult) : QpackencState :=
  if r.insertInstr = [] then st else qpackencCommitField st (statusField (statusDigits r.status))

/-! ## What a plan may do -/

variable {f : Field} {st : QpackencState}

/-- A reference is to a live entry with the field, whose insert was acknowledged. -/
theorem qpackencPlanField_reference {i : Nat} (h : (qpackencPlanField st f).absIndex = some i) :
    i < st.knownReceived ∧ qpackDynGet st.dyn i = some f ∧
      (qpackencPlanField st f).insertInstr = [] := by
  unfold qpackencPlanField at h ⊢
  cases hfind : findExact st f with
  | none =>
    rw [hfind] at h
    unfold planInsert at h
    dsimp only at h
    split at h
    · split at h <;> cases h
    · cases h
  | some m =>
    rw [hfind] at h
    dsimp only at h ⊢
    split at h
    · cases h
    rename_i hlt
    obtain rfl := Option.some.inj h
    obtain ⟨hm, hmatched⟩ := filter_eq_some_iff.mp hfind
    obtain ⟨e, he, hname, hvalue⟩ := qpackDynFind_sound hm
    have hef : e = f := Field.ext hname (hvalue.mp hmatched)
    rw [if_neg hlt]
    exact ⟨by omega, hef ▸ he, rfl⟩

theorem qpackencPlanField_insert (h : (qpackencPlanField st f).insertInstr ≠ []) :
    insertSafe st f = true ∧ ∃ cap bytes, qdynInsertLiteral cap f = some bytes ∧
      (qpackencPlanField st f).insertInstr = putCapacity st ++ bytes := by
  unfold qpackencPlanField at h ⊢
  cases hfind : findExact st f with
  | some m =>
    rw [hfind] at h
    dsimp only at h
    split at h <;> exact absurd rfl h
  | none =>
    rw [hfind] at h
    unfold planInsert at h ⊢
    dsimp only at h ⊢
    split at h
    · next hsafe =>
      split at h
      · next bytes hbytes =>
        rw [if_pos hsafe]
        exact ⟨hsafe, _, bytes, hbytes, rfl⟩
      · exact absurd rfl h
    · exact absurd rfl h

/-- The forms of the line. -/
inductive StatusForm (status : Nat) (st : QpackencState) (r : QpackencStatusResult) : Prop
  | static (idx : Nat) (hidx : qpackStaticFind (statusField (statusDigits status)) = some idx)
      (hline : qpackIndexedEncode statusFieldCap idx true = some r.field)
      (hric : r.requiredInsertCount = 0) (hinstr : r.insertInstr = [])
  | dynamic (i : Nat) (hlive : qpackDynGet st.dyn i = some (statusField (statusDigits status)))
      (hknown : i < st.knownReceived)
      (hline : qpackIndexedEncode statusFieldCap 0 false = some r.field)
      (hric : r.requiredInsertCount = qpackRicEncode (i + 1) (maxEntriesOf st))
      (hinstr : r.insertInstr = [])
  | literal (hline : fallbackLiteral (statusDigits status) = some r.field)
      (hric : r.requiredInsertCount = 0)
      (hinstr : r.insertInstr =
        (qpackencPlanField st (statusField (statusDigits status))).insertInstr)

theorem qpackencStatusLine_form {status : Nat} {r : QpackencStatusResult}
    (h : qpackencStatusLine status st = some r) : r.status = status ∧ StatusForm status st r := by
  unfold qpackencStatusLine at h
  dsimp only at h
  split at h
  · next field hstatic =>
    obtain rfl := Option.some.inj h
    obtain ⟨idx, hidx, hline⟩ := bind_eq_some_iff.mp hstatic
    exact ⟨rfl, .static idx hidx hline rfl rfl⟩
  · split at h
    · next field i hdynamic =>
      obtain rfl := Option.some.inj h
      obtain ⟨j, hj, hmap⟩ := bind_eq_some_iff.mp hdynamic
      obtain ⟨line, hline, he⟩ := map_eq_some_iff.mp hmap
      obtain ⟨rfl, rfl⟩ := Prod.mk.inj he
      obtain ⟨hknown, hlive, hinstr⟩ := qpackencPlanField_reference hj
      exact ⟨rfl, .dynamic j hlive hknown hline rfl hinstr⟩
    · obtain ⟨field, hline, rfl⟩ := map_eq_some_iff.mp h
      exact ⟨rfl, .literal hline rfl rfl⟩

end Wired.Qpack
