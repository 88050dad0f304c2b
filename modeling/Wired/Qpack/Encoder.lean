import Wired.Qpack.DynTable
import Wired.Qpack.InsertCount
import Wired.Qpack.StringLiteral

/-!
# The encoder

`qpackenc.c` and `insert_encode.c`: the state an encoder keeps of its own table, and of what
the peer's decoder has acknowledged. A field is either referenced, if it is in the table and
its insert was acknowledged, or inserted for later use, or neither. A planned insert takes
effect when its instruction was put on the encoder stream (`qpackencCommitField`).
-/

namespace Wired.Qpack

/-- What an encoder keeps of its table and of the acknowledgments. -/
structure QpackencState where
  dyn : QpackDyn
  totalInserts : Nat
  knownReceived : Nat
  /-- Field sections with references that were sent and not acknowledged. -/
  pendingAcks : Nat
  /-- A Set Dynamic Table Capacity is owed ahead of the next insert. -/
  capPending : Bool

def qpackencInit (capacity : Nat) : QpackencState where
  dyn := qpackDynInit capacity
  totalInserts := 0
  knownReceived := 0
  pendingAcks := 0
  capPending := false

def qpackencLocalCap : Nat := qpackDynMaxCapacity

def qpackencPeerCapacity (st : QpackencState) (peerMax : Nat) : QpackencState :=
  let dyn := qpackDynSetCapacity st.dyn (min peerMax qpackencLocalCap)
  { st with dyn := { dyn with maxCapacity := peerMax }, capPending := dyn.capacity ≠ 0 }

/-! ## Planning a field -/

/-- The instructions to send, and the absolute index of the entry to reference, if any. -/
structure QpackencPlan where
  insertInstr : List UInt8
  absIndex : Option Nat

/-- The size of `insert_instr`. -/
def insertInstrCap : Nat := qpackDynMaxCapacity + 8

def encodeName (cap : Nat) (name : List UInt8) : Option (List UInt8) :=
  qpackStringEncodePfx cap 5 0x40 name

def qdynInsertLiteral (cap : Nat) (f : Field) : Option (List UInt8) :=
  (encodeName cap f.name).bind fun name =>
    (qpackStringEncode (cap - name.length) f.value).map fun value => name ++ value

def findExact (st : QpackencState) (f : Field) : Option QpackMatch :=
  (qpackDynFind st.dyn f).filter fun m => m.valueMatched

/-- Nothing is evicted while an insert or a section with references is unacknowledged. -/
def evictFree (st : QpackencState) : Bool :=
  st.pendingAcks = 0 && st.knownReceived = st.totalInserts

def insertSafe (st : QpackencState) (f : Field) : Bool :=
  qpackDynFits st.dyn f || (evictFree st && qpackDynStorable st.dyn f)

def putCapacity (st : QpackencState) : List UInt8 :=
  if st.capPending then (qpackIntEncode 8 5 0x20 st.dyn.capacity).getD [] else []

def planInsert (st : QpackencState) (f : Field) : QpackencPlan :=
  let cap := putCapacity st
  if insertSafe st f then
    match qdynInsertLiteral (insertInstrCap - cap.length) f with
    | some instr => { insertInstr := cap ++ instr, absIndex := none }
    | none => { insertInstr := [], absIndex := none }
  else { insertInstr := [], absIndex := none }

/-- An entry in the table is never inserted again, also while it may not be referenced yet. -/
def qpackencPlanField (st : QpackencState) (f : Field) : QpackencPlan :=
  match findExact st f with
  | some m =>
    if m.absIndex ≥ st.knownReceived then { insertInstr := [], absIndex := none }
    else { insertInstr := [], absIndex := some m.absIndex }
  | none => planInsert st f

def qpackencCommitField (st : QpackencState) (f : Field) : QpackencState :=
  { st with
    dyn := (qpackDynInsert st.dyn f).getD st.dyn
    totalInserts := st.totalInserts + 1
    capPending := false }

/-! ## Acknowledgments -/

def qpackencNoteSent (st : QpackencState) (ric : Nat) : QpackencState :=
  if ric ≠ 0 then { st with pendingAcks := st.pendingAcks + 1 } else st

def qpackencOnIncrement (st : QpackencState) (increment : Nat) : QpackencState × Bool :=
  if !qpackIncrValid st.knownReceived increment st.totalInserts then (st, false)
  else ({ st with knownReceived := st.knownReceived + increment }, true)

def qpackencOnSectionAck (st : QpackencState) : QpackencState × Bool :=
  if !qpackSectionAckValid st.pendingAcks then (st, false)
  else ({ st with pendingAcks := st.pendingAcks - 1 }, true)

end Wired.Qpack
