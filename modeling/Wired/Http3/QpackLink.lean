import Wired.Http3.ResponseFields
import Wired.Qpack.DecoderStream

/-!
# An encoder and a decoder at the two ends of a connection

The encoder of `qpackenc.c` with the responses of `srvrun_qenc.c` at one end, and the decoder of
`enc_stream.c`, `request_drive.c` and `dec_stream.c` at the other. Between them are the bytes of
the encoder stream and of the decoder stream, which arrive in order and cut anywhere, and the
field sections, which arrive in any order or are abandoned. `Agreement` is what holds after every
run (`link_agrees`).
-/

namespace Wired.Http3

open Lib Qpack List Option

/-! ## The model -/

/-- The value of `SETTINGS_QPACK_MAX_TABLE_CAPACITY`, a varint, and stream ids, likewise. -/
abbrev VarintValue : Type := Fin (2 ^ 62)

structure SentSection where
  streamId : VarintValue
  fields : ResponseSection
  requiredInsertCount : Nat
  status : Nat

/-- The two ends and what is between them. -/
structure Link where
  enc : QpackencState
  /-- SETTINGS were received. -/
  settled : Bool
  /-- The encoder stream is open. -/
  opened : Bool
  /-- How many bytes were put on the encoder stream. -/
  staged : Nat
  /-- The bytes of the encoder stream on their way. -/
  encWire : List UInt8
  dec : QpackDyn
  /-- The bytes that arrived and are not a whole instruction yet. -/
  held : List UInt8
  sections : List SentSection
  owed : QdynDec
  /-- The bytes of the decoder stream on their way. -/
  decWire : List UInt8
  rx : QpackencDecrx
  /-- No end found an error. -/
  ok : Bool

/-- The table of the decoder at the start. -/
def decoderStart (advertised : Nat) : QpackDyn :=
  { qpackDynInit 0 with maxCapacity := advertised }

def linkStart (advertised : Nat) : Link where
  enc := qpackencInit 0
  settled := false
  opened := false
  staged := 0
  encWire := []
  dec := decoderStart advertised
  held := []
  sections := []
  owed := { acks := [], acked := 0 }
  decWire := []
  rx := qpackencDecrxTake 0 1
  ok := true

inductive LinkOp where
  | settings
  | openStream
  /-- A response; `room` says whether the encoder stream's send ring has room for an insert. -/
  | respond (status : Nat) (contentType : Option (List UInt8)) (extra : List Field) (cap : Nat)
      (streamId : VarintValue) (room : Bool)
  | encArrives (n : Nat)
  | sectionArrives (i : Nat)
  | abandon (i : Nat)
  /-- What the decoder owes is sent, if its stream's send ring has room. -/
  | flush (room : Bool)
  | decArrives (n : Nat)

/-- `srvrun_qenc_staged`. A stream has no more than `2 ^ 62` bytes. -/
def qencStaged (l : Link) (room : Bool) (r : QpackencStatusResult) : Bool :=
  r.insertInstr ≠ [] && room && l.staged + r.insertInstr.length ≤ 2 ^ 62

/-- An insert goes to the encoder stream, if there is room for it. -/
def qencSendInsert (l : Link) (room : Bool) (r : QpackencStatusResult) : Link :=
  if !l.opened then l
  else if qencStaged l room r then
    { l with
      enc := qpackencNoteSent (qpackencStatusCommit l.enc r) r.requiredInsertCount
      staged := l.staged + r.insertInstr.length
      encWire := l.encWire ++ r.insertInstr }
  else { l with enc := qpackencNoteSent l.enc r.requiredInsertCount }

def linkStep (advertised : Nat) (l : Link) : LinkOp → Link
  | .settings =>
    if l.settled then l
    else { l with enc := qpackencPeerCapacity l.enc advertised, settled := true }
  | .openStream => { l with opened := true }
  | .respond status contentType extra cap streamId room =>
    match h3respEncodeHeadersFieldsQenc status contentType extra
        (if l.opened then some l.enc else none) cap with
    | none => l
    | some (fields, r) =>
      let sent := { streamId := streamId, fields := fields,
                    requiredInsertCount := r.requiredInsertCount, status := status }
      qencSendInsert { l with sections := l.sections ++ [sent] } room r
  | .encArrives n =>
    let buf := l.held ++ l.encWire.take n
    let r := qdynEncApplyAll advertised l.dec buf
    { l with dec := r.state, held := buf.drop r.used, encWire := l.encWire.drop n
             ok := l.ok && !r.failed }
  | .sectionArrives i =>
    match l.sections[i]? with
    | none => l
    | some s =>
      match h3reqdrivePrefixBase s.fields.bytes l.dec with
      | none => { l with sections := l.sections.eraseIdx i, ok := false }
      | some (src, _) =>
        { l with sections := l.sections.eraseIdx i
                 owed := qdynDecSectionAck l.owed s.streamId src.ric }
  | .abandon i =>
    match l.sections[i]? with
    | none => l
    | some s =>
      { l with sections := l.sections.eraseIdx i, owed := qdynDecStreamCancel l.owed s.streamId }
  | .flush room =>
    let inserts := l.dec.dropped + l.dec.count
    let out := qdynDecPending l.owed inserts
    if out ≠ [] && room then
      { l with owed := qdynDecSent l.owed inserts, decWire := l.decWire ++ out }
    else l
  | .decArrives n =>
    let r := qpackencDecrxFeed l.rx l.enc l.rx.off (l.decWire.take n)
    { l with rx := r.rx, enc := r.st, decWire := l.decWire.drop n, ok := l.ok && r.ok }

/-! ## What is to hold -/

/-- A section refers to the absolute index `i`, as a decoder with the table `dec` reads it. -/
def SentSection.RefersTo (s : SentSection) (dec : QpackDyn) (i : ℤ) : Prop :=
  ∃ src n line ref whole, h3reqdrivePrefixBase s.fields.bytes dec = some (src, n) ∧
    line ∈ s.fields.lines ∧ lineRef line = some (ref, whole) ∧ exactIndex src.base ref = i

/-- The decoder can read the section now, without waiting, and the status in its first line. -/
def SentSection.Readable (s : SentSection) (dec : QpackDyn) : Prop :=
  ∃ src line later, h3reqdrivePrefixBase s.fields.bytes dec = some (src, s.fields.pre.length) ∧
    s.fields.lines = line :: later ∧
    ∀ scr, 3 ≤ scr → ReadsAs src scr line (statusField (statusDigits s.status))

/-- What the two ends have in common after a run. -/
structure Agreement (l : Link) : Prop where
  /-- The tables agree at every index that is live in both. -/
  tables : ∀ i f g, qpackDynGet l.enc.dyn i = some f → qpackDynGet l.dec i = some g → f = g
  /-- A section refers only to an entry that was acknowledged and is live at both ends. -/
  refers : ∀ s ∈ l.sections, ∀ i, s.RefersTo l.dec i →
    ∃ k : Nat, i = k ∧ k < l.enc.knownReceived ∧
      qpackDynGet l.enc.dyn k = some (statusField (statusDigits s.status)) ∧
      qpackDynGet l.dec k = some (statusField (statusDigits s.status))
  readable : ∀ s ∈ l.sections, s.Readable l.dec
  ok : l.ok = true

/-! ## The encoder stream -/

abbrev Instr : Type := EncMsg × List UInt8

def insertsOf (todo : List Instr) : List Field := todo.flatMap fun m => m.1.inserted

/-- The decoder's table holds what came so far; the instructions on their way take it to `target`.
-/
structure Behind (advertised : Nat) (hist : List Field) (target dec : QpackDyn)
    (todo : List Instr) : Prop where
  recalls : ∃ seen, dec.Recalls seen ∧ hist = seen ++ insertsOf todo
  max : dec.maxCapacity = advertised
  reads : ∀ m ∈ todo, m.1.Read advertised m.2
  reaches : todo.foldlM (fun t m => m.1.apply t) dec = some target

section

variable {advertised : Nat} {hist : List Field} {target target' dec dec' : QpackDyn}
  {todo new : List Instr} {m : Instr}

theorem Behind.step (h : Behind advertised hist target dec (m :: todo)) :
    ∃ i dec', Codes frameIns m.2 i ∧ encApplies advertised dec i = some dec' ∧
      Behind advertised hist target dec' todo ∧
      dec.dropped + dec.count ≤ dec'.dropped + dec'.count ∧ dec.dropped ≤ dec'.dropped := by
  obtain ⟨seen, hseen, hhist⟩ := h.recalls
  have hreaches := h.reaches
  obtain ⟨dec', hdec', hrest⟩ := bind_eq_some_iff.mp hreaches
  obtain ⟨i, hcode, happly⟩ := h.reads m mem_cons_self
  obtain ⟨hrecalls, hdropped, hmax⟩ := hseen.apply hdec'
  have hlen := hrecalls.inserts
  have hlen' := hseen.inserts
  rw [length_append] at hlen
  refine ⟨i, dec', hcode, (happly dec).trans hdec', ⟨⟨_, hrecalls, ?_⟩, hmax.trans h.max, ?_, hrest⟩,
    by omega, hdropped⟩
  · rw [hhist, insertsOf, flatMap_cons, append_assoc]
    rfl
  · exact fun m' hm' => h.reads m' (mem_cons_of_mem _ hm')

theorem Behind.dropped_le (h : Behind advertised hist target dec todo) :
    dec.dropped ≤ target.dropped := by
  induction todo generalizing dec with
  | nil =>
    obtain rfl : dec = target := Option.some.inj h.reaches
    exact le_rfl
  | cons m todo ih =>
    obtain ⟨i, dec', -, -, hbehind, -, hle⟩ := h.step
    exact hle.trans (ih hbehind)

theorem Behind.append (h : Behind advertised hist target dec todo)
    (hreads : ∀ m ∈ new, m.1.Read advertised m.2)
    (hnew : new.foldlM (fun t m => m.1.apply t) target = some target') :
    Behind advertised (hist ++ insertsOf new) target' dec (todo ++ new) where
  recalls := by
    obtain ⟨seen, hseen, rfl⟩ := h.recalls
    refine ⟨seen, hseen, ?_⟩
    simp [insertsOf, flatMap_append]
  max := h.max
  reads := forall_mem_append.mpr ⟨h.reads, hreads⟩
  reaches := by
    rw [foldlM_append, h.reaches]
    exact hnew

end

def encoderStart (advertised : Nat) : QpackDyn :=
  { qpackDynSetCapacity (qpackDynInit 0) (min advertised qpackencLocalCap) with
    maxCapacity := advertised }

/-- How far the encoder has come. Until the first insert, nothing is sent. -/
inductive Stage (advertised : Nat) (l : Link) : List Field → List Instr → Prop
  | unsettled (hsettled : l.settled = false) (henc : l.enc.dyn = qpackDynInit 0)
      (hcap : l.enc.capPending = false) (hdec : l.dec = decoderStart advertised) :
      Stage advertised l [] []
  | silent (hsettled : l.settled = true) (henc : l.enc.dyn = encoderStart advertised)
      (hcap : l.enc.capPending = decide ((encoderStart advertised).capacity ≠ 0))
      (hdec : l.dec = decoderStart advertised) : Stage advertised l [] []
  | sent {hist : List Field} {todo : List Instr} (hsettled : l.settled = true)
      (hcap : l.enc.capPending = false) (hmax : l.enc.dyn.maxCapacity = advertised)
      (hbehind : Behind advertised hist l.enc.dyn l.dec todo) : Stage advertised l hist todo

/-- The tables of the two ends and the instructions between them. -/
structure TableLink (advertised : Nat) (l : Link) (hist : List Field) (todo : List Instr) :
    Prop where
  recalls : l.enc.dyn.Recalls hist
  total : l.enc.totalInserts = hist.length
  capacity_le : l.enc.dyn.capacity ≤ advertised
  staged : hist.length ≤ l.staged ∧ l.staged ≤ 2 ^ 62
  bytes : l.held ++ l.encWire = todo.flatMap Prod.snd
  stage : Stage advertised l hist todo

variable {f : Field} {st : QpackencState} {d : QdynDec}

section

variable {advertised : Nat} {l l' : Link} {hist : List Field} {todo : List Instr}

theorem decoderStart_recalls (advertised : Nat) : (decoderStart advertised).Recalls [] :=
  QpackDyn.Recalls.empty 0 advertised

theorem encoderStart_recalls (advertised : Nat) :
    (encoderStart advertised).Recalls [] ∧ (encoderStart advertised).capacity ≤ advertised := by
  obtain ⟨hrecalls, -, -⟩ := (QpackDyn.Recalls.empty 0 0).setCapacity (min advertised qpackencLocalCap)
  refine ⟨⟨zero_le, ?_⟩, ?_⟩
  · exact hrecalls.represents.withMax advertised
  · show clampCapacity (min advertised qpackencLocalCap) ≤ advertised
    unfold clampCapacity
    split
    · exact Nat.min_le_left _ _
    · omega

theorem setCapacity_decoderStart (advertised : Nat) :
    qpackDynSetCapacity (decoderStart advertised) (encoderStart advertised).capacity =
      encoderStart advertised := by
  have hcapacity : (encoderStart advertised).capacity =
      clampCapacity (min advertised qpackencLocalCap) := rfl
  have hclamp : clampCapacity (clampCapacity (min advertised qpackencLocalCap)) =
      clampCapacity (min advertised qpackencLocalCap) := by
    unfold clampCapacity
    split_ifs <;> omega
  rw [hcapacity, qpackDynSetCapacity, hclamp]
  rfl

theorem insertSafe_spec (h : insertSafe st f = true) :
    f.size ≤ st.dyn.capacity ∧ (qpackDynFits st.dyn f = true ∨ evictFree st = true) := by
  rcases Bool.or_eq_true_iff.mp h with hfits | hevict
  · refine ⟨?_, Or.inl hfits⟩
    simp only [qpackDynFits, overCapacity, Bool.not_eq_true', decide_eq_false_iff_not,
      not_lt] at hfits
    unfold Field.size
    omega
  · obtain ⟨hfree, hstorable⟩ := Bool.and_eq_true_iff.mp hevict
    exact ⟨of_decide_eq_true hstorable, Or.inr hfree⟩

theorem putCapacity_read (advertised : Nat) (hpending : st.capPending = true)
    (hdyn : st.dyn = encoderStart advertised) :
    (EncMsg.capacity (encoderStart advertised).capacity).Read advertised (putCapacity st) := by
  obtain ⟨hrecalls, hle⟩ := encoderStart_recalls advertised
  have hmax := hrecalls.represents.capacity_le
  unfold qpackDynMaxCapacity at hmax
  have hbytes : ∃ bytes, qpackIntEncode 8 5 0x20 (encoderStart advertised).capacity =
      some bytes ∧ bytes.length ≤ 3 :=
    qpackIntEncode_of_room 0x20 1 (by decide) (by omega) (by decide)
  obtain ⟨bytes, hbytes, -⟩ := hbytes
  have hput : putCapacity st = bytes := by
    rw [putCapacity, if_pos hpending, hdyn, hbytes, getD_some]
  rw [hput]
  exact capacity_read hle (by omega) hbytes

/-- The insert of the field is sent, and the encoder's table has it. -/
def Link.committed (l : Link) (f : Field) : Link :=
  { l with enc := qpackencCommitField l.enc f
           staged := l.staged + (qpackencPlanField l.enc f).insertInstr.length
           encWire := l.encWire ++ (qpackencPlanField l.enc f).insertInstr }

section

variable (h : TableLink advertised l hist todo)
include h

theorem TableLink.congr (hdyn : l'.enc.dyn = l.enc.dyn)
    (htotal : l'.enc.totalInserts = l.enc.totalInserts)
    (hcap : l'.enc.capPending = l.enc.capPending) (hsettled : l'.settled = l.settled)
    (hstaged : l'.staged = l.staged) (hheld : l'.held = l.held) (hwire : l'.encWire = l.encWire)
    (hdec : l'.dec = l.dec) : TableLink advertised l' hist todo where
  recalls := hdyn ▸ h.recalls
  total := htotal.trans h.total
  capacity_le := hdyn ▸ h.capacity_le
  staged := hstaged ▸ h.staged
  bytes := by rw [hheld, hwire, h.bytes]
  stage := by
    cases h.stage with
    | unsettled hs he hc hd =>
      exact .unsettled (hsettled.trans hs) (hdyn.trans he) (hcap.trans hc) (hdec.trans hd)
    | silent hs he hc hd =>
      exact .silent (hsettled.trans hs) (hdyn.trans he) (hcap.trans hc) (hdec.trans hd)
    | sent hs hc hm hb =>
      exact .sent (hsettled.trans hs) (hcap.trans hc) (hdyn ▸ hm) (hdyn ▸ hdec ▸ hb)

/-- The decoder has seen the beginning of what was inserted, and dropped no more of it. -/
theorem TableLink.decoder :
    l.dec.maxCapacity = advertised ∧ l.dec.dropped ≤ l.enc.dyn.dropped ∧
      ∃ seen, l.dec.Recalls seen ∧ seen <+: hist := by
  cases h.stage with
  | unsettled hs he hc hd | silent hs he hc hd =>
    rw [hd]
    exact ⟨rfl, zero_le, [], decoderStart_recalls advertised, prefix_refl _⟩
  | sent hs hc hm hb =>
    obtain ⟨seen, hseen, hhist⟩ := hb.recalls
    exact ⟨hb.max, hb.dropped_le, seen, hseen, _, hhist.symm⟩

theorem TableLink.maxCapacity (hne : hist ≠ []) : l.enc.dyn.maxCapacity = advertised := by
  cases h.stage with
  | unsettled | silent => exact absurd rfl hne
  | sent hs hc hm hb => exact hm

theorem TableLink.settings (hunset : l.settled = false) :
    TableLink advertised
      { l with enc := qpackencPeerCapacity l.enc advertised, settled := true } hist todo ∧
      (qpackencPeerCapacity l.enc advertised).dyn.dropped = l.enc.dyn.dropped := by
  cases h.stage with
  | unsettled hs he hc hd =>
    obtain ⟨hrecalls, hcapacity⟩ := encoderStart_recalls advertised
    have hdyn : (qpackencPeerCapacity l.enc advertised).dyn = encoderStart advertised := by
      simp only [qpackencPeerCapacity, he, encoderStart]
    refine ⟨⟨?_, h.total, ?_, h.staged, h.bytes, .silent rfl hdyn ?_ hd⟩, ?_⟩
    · exact hdyn ▸ hrecalls
    · exact hdyn ▸ hcapacity
    · simp only [qpackencPeerCapacity, he, encoderStart]
      exact decide_eq_decide.mpr Iff.rfl
    · rw [hdyn, he]
      exact Nat.le_zero.mp hrecalls.dropped_le
  | silent hs | sent hs =>
    rw [hs] at hunset
    cases hunset

theorem TableLink.arrives (n : Nat) (ok : Bool) {r : Interpreted QpackDyn}
    (hr : qdynEncApplyAll advertised l.dec (l.held ++ l.encWire.take n) = r) :
    r.failed = false ∧ l.dec.dropped + l.dec.count ≤ r.state.dropped + r.state.count ∧
      ∃ todo', TableLink advertised
        { l with dec := r.state, held := (l.held ++ l.encWire.take n).drop r.used
                 encWire := l.encWire.drop n, ok := ok } hist todo' := by
  have hcut : (l.held ++ l.encWire.take n) ++ l.encWire.drop n = todo.flatMap Prod.snd := by
    rw [append_assoc, take_append_drop, h.bytes]
  have hquiet : todo = [] → r = ⟨l.dec, 0, false⟩ := by
    intro htodo
    rw [htodo] at hcut
    rw [← hr, (append_eq_nil_iff.mp hcut).1]
    exact interpret_incomplete (interpretOne_nil frameIns_stable l.dec)
  cases h.stage with
  | unsettled hs he hc hd =>
    obtain rfl := hquiet rfl
    exact ⟨rfl, le_rfl, [], h.recalls, h.total, h.capacity_le, h.staged, hcut,
      .unsettled hs he hc hd⟩
  | silent hs he hc hd =>
    obtain rfl := hquiet rfl
    exact ⟨rfl, le_rfl, [], h.recalls, h.total, h.capacity_le, h.staged, hcut,
      .silent hs he hc hd⟩
  | sent hs hc hm hb =>
    have hread := interpret_messages (encApplies advertised) frameIns_stable
      (R := fun t ms => Behind advertised hist l.enc.dyn t ms ∧
        l.dec.dropped + l.dec.count ≤ t.dropped + t.count) Prod.snd
      (fun t m ms hR => by
        obtain ⟨i, t', hcode, happly, hbehind, hle, -⟩ := hR.1.step
        exact ⟨i, t', hcode, happly, hbehind, hR.2.trans hle⟩)
      ⟨hb, le_rfl⟩ hcut
    obtain ⟨todo', ⟨hbehind, hle⟩, hfailed, hrest⟩ := hread
    subst hr
    exact ⟨hfailed, hle, todo', h.recalls, h.total, h.capacity_le, h.staged, hrest,
      .sent hs hc hm hbehind⟩

theorem TableLink.commit (hsmall : f.name.length + f.value.length ≤ qpackDynMaxCapacity)
    (hinsert : (qpackencPlanField l.enc f).insertInstr ≠ [])
    (hroom : l.staged + (qpackencPlanField l.enc f).insertInstr.length ≤ 2 ^ 62) :
    (∃ new, TableLink advertised (l.committed f) (hist ++ [f]) (todo ++ new)) ∧
    ((qpackencCommitField l.enc f).dyn.dropped = l.enc.dyn.dropped ∨ evictFree l.enc = true) := by
  have hpos := length_pos_iff.mpr hinsert
  obtain ⟨hsafe, cap, bytes, hbytes, hinstr⟩ := qpackencPlanField_insert hinsert
  obtain ⟨hsize, hfree⟩ := insertSafe_spec hsafe
  obtain ⟨t', hins, hrecalls, hdropped, hcapacity, hmax, hfits⟩ := h.recalls.insert hsize
  have hdyn : (l.committed f).enc.dyn = t' := by
    rw [Link.committed, qpackencCommitField, hins, getD_some]
  have hread : (EncMsg.insert f).Read advertised bytes := insert_read advertised hsmall hbytes
  have hlen : (hist ++ [f]).length ≤ l.staged + (qpackencPlanField l.enc f).insertInstr.length := by
    rw [length_append, length_singleton]
    have := h.staged.1
    omega
  refine ⟨?_, hfree.imp_left fun hfit => (congrArg _ hdyn).trans (hfits hfit)⟩
  -- what is left to find are the instructions, and the stage that they lead to
  have hlink : ∀ new : List Instr, (qpackencPlanField l.enc f).insertInstr = new.flatMap Prod.snd →
      l.settled = true → l.enc.dyn.maxCapacity = advertised →
      Behind advertised (hist ++ [f]) t' l.dec (todo ++ new) →
      TableLink advertised (l.committed f) (hist ++ [f]) (todo ++ new) := by
    intro new hnew hsettled hmaxCapacity hbehind
    refine ⟨hdyn ▸ hrecalls, ?_, ?_, ⟨hlen, hroom⟩, ?_, .sent hsettled rfl ?_ (hdyn ▸ hbehind)⟩
    · rw [length_append, length_singleton, ← h.total]
      rfl
    · rw [hdyn, hcapacity]
      exact h.capacity_le
    · simp only [Link.committed]
      rw [← append_assoc, h.bytes, hnew, flatMap_append]
    · rw [hdyn, hmax]
      exact hmaxCapacity
  cases h.stage with
  | unsettled hs he hc hd =>
    have hzero : (qpackDynInit 0).capacity = 0 := rfl
    have hbig : 32 ≤ f.size := Nat.le_add_left 32 _
    rw [he, hzero] at hsize
    omega
  | silent hs he hc hd =>
    have hpending : l.enc.capPending = true := by
      rw [hc]
      apply decide_eq_true
      have hbig : 32 ≤ f.size := Nat.le_add_left 32 _
      rw [he] at hsize
      omega
    have hcap := putCapacity_read advertised hpending he
    refine ⟨[(.capacity (encoderStart advertised).capacity, putCapacity l.enc), (.insert f, bytes)],
      hlink _ ?_ hs (he ▸ rfl) ?_⟩
    · simpa using hinstr
    · refine ⟨⟨[], hd ▸ decoderStart_recalls advertised, rfl⟩, hd ▸ rfl, ?_, ?_⟩
      · intro m hm
        simp only [nil_append, mem_cons, not_mem_nil, or_false] at hm
        rcases hm with rfl | rfl
        · exact hcap
        · exact hread
      · rw [he] at hins
        simp [EncMsg.apply, hd, setCapacity_decoderStart, hins]
  | sent hs hc hm hb =>
    have hquiet : putCapacity l.enc = [] := by simp [putCapacity, hc]
    refine ⟨[(.insert f, bytes)], hlink _ ?_ hs hm ?_⟩
    · rw [hinstr, hquiet]
      simp
    · have hinserted : hist ++ [f] = hist ++ insertsOf [(.insert f, bytes)] := rfl
      rw [hinserted]
      apply hb.append
      · exact forall_mem_singleton.mpr hread
      · simp [EncMsg.apply, hins]

end

end

/-! ## The decoder stream -/

def increments (ms : List DecMsg) : Nat :=
  (ms.map fun m => if m.kind = .insertCount then m.value else 0).sum

def sectionAcks (ms : List DecMsg) : Nat := ms.countP fun m => m.kind = .sectionAck

def referring (sections : List SentSection) : Nat :=
  sections.countP fun s => s.requiredInsertCount ≠ 0

@[simp] theorem increments_nil : increments [] = 0 := rfl

@[simp] theorem increments_cons (m : DecMsg) (ms : List DecMsg) :
    increments (m :: ms) = (if m.kind = .insertCount then m.value else 0) + increments ms := by
  simp [increments]

@[simp] theorem increments_append (ms ms' : List DecMsg) :
    increments (ms ++ ms') = increments ms + increments ms' := by
  simp [increments]

@[simp] theorem sectionAcks_nil : sectionAcks [] = 0 := rfl

@[simp] theorem sectionAcks_cons (m : DecMsg) (ms : List DecMsg) :
    sectionAcks (m :: ms) = sectionAcks ms + if m.kind = .sectionAck then 1 else 0 := by
  simp [sectionAcks, countP_cons]

@[simp] theorem sectionAcks_append (ms ms' : List DecMsg) :
    sectionAcks (ms ++ ms') = sectionAcks ms + sectionAcks ms' := by
  simp [sectionAcks]

/-- A message that this decoder sends. -/
def Proper (m : DecMsg) : Prop :=
  m.value < 2 ^ 63 ∧ (m.kind = .insertCount → 0 < m.value)

/-- The encoder after an earlier state, and what it may still hear: `acked` inserts are known with
it, and `later` more sections acknowledged. -/
structure Waiting (earlier : QpackencState) (acked later : Nat) (st : QpackencState)
    (ms : List DecMsg) : Prop where
  dyn : st.dyn = earlier.dyn
  total : st.totalInserts = earlier.totalInserts
  capPending : st.capPending = earlier.capPending
  grown : earlier.knownReceived ≤ st.knownReceived
  known : st.knownReceived + increments ms = acked
  pending : later + sectionAcks ms ≤ st.pendingAcks
  proper : ∀ m ∈ ms, Proper m

/-- No acknowledgment is an error. -/
theorem waiting_expects {earlier : QpackencState} {acked later : Nat}
    (hacked : acked ≤ earlier.totalInserts) : Expects (Waiting earlier acked later) := by
  rintro st ⟨kind, value⟩ ms h
  obtain ⟨hvalue, hpositive⟩ := h.proper _ mem_cons_self
  have hproper : ∀ m ∈ ms, Proper m := fun m hm => h.proper m (mem_cons_of_mem _ hm)
  have hknown := h.known
  have hpending := h.pending
  have htotal := h.total
  refine ⟨hvalue, ?_⟩
  cases kind with
  | sectionAck =>
    simp only [increments_cons, reduceCtorEq, if_false, zero_add] at hknown
    simp only [sectionAcks_cons, if_true] at hpending
    have hvalid : qpackSectionAckValid st.pendingAcks = true :=
      decide_eq_true (by omega : st.pendingAcks > 0)
    have happly : decrxApply .sectionAck st value =
        ({ st with pendingAcks := st.pendingAcks - 1 }, true) := by
      simp [decrxApply, qpackencOnSectionAck, hvalid]
    rw [happly]
    exact ⟨rfl, h.dyn, h.total, h.capPending, h.grown, hknown, by dsimp only; omega, hproper⟩
  | streamCancel =>
    simp only [increments_cons, reduceCtorEq, if_false, zero_add] at hknown
    exact ⟨rfl, h.dyn, h.total, h.capPending, h.grown, hknown, hpending, hproper⟩
  | insertCount =>
    simp only [increments_cons, if_true] at hknown
    have hpos : 0 < value := hpositive rfl
    have hvalid : qpackIncrValid st.knownReceived value st.totalInserts = true := by
      simp only [qpackIncrValid, Bool.and_eq_true, decide_eq_true_eq]
      omega
    have happly : decrxApply .insertCount st value =
        ({ st with knownReceived := st.knownReceived + value }, true) := by
      simp [decrxApply, qpackencOnIncrement, hvalid]
    have hgrown := h.grown
    rw [happly]
    exact ⟨rfl, h.dyn, h.total, h.capPending, by dsimp only; omega, by dsimp only; omega, hpending,
      hproper⟩

/-- The acknowledgments on their way. -/
structure AckLink (l : Link) (acks queued : List DecMsg) : Prop where
  known : l.enc.knownReceived + increments acks = l.owed.acked
  acked_le : l.owed.acked ≤ l.dec.dropped + l.dec.count
  pending : referring l.sections + sectionAcks queued + sectionAcks acks ≤ l.enc.pendingAcks
  awaits : Awaits l.rx l.decWire acks
  queue : l.owed.acks = queued.flatMap DecMsg.bytes
  room : l.owed.acks.length ≤ qdynDecAcksMax
  queued_increments : increments queued = 0
  proper : ∀ m ∈ acks ++ queued, Proper m

variable {i inserts : Nat} {s : SentSection}

section

variable {l l' : Link} {acks queued : List DecMsg}

theorem qdynDecQueue_spec {d' : QdynDec} {m : DecMsg} (hvalue : m.value < 2 ^ 63)
    (h : qdynDecQueue d m.kind m.value = some d') :
    d'.acks = d.acks ++ m.bytes ∧ d'.acked = d.acked ∧
      (d.acks.length ≤ qdynDecAcksMax → d'.acks.length ≤ qdynDecAcksMax) := by
  obtain ⟨b, hb, rfl⟩ := map_eq_some_iff.mp h
  have hlen := (qpackIntEncode_eq_some.mp hb).2
  obtain ⟨rfl, -⟩ := qpackDecInstrEncode_bytes hvalue hb
  refine ⟨rfl, rfl, ?_⟩
  intro hroom
  rw [length_append]
  omega

theorem referring_eraseIdx {sections : List SentSection} (h : sections[i]? = some s) :
    referring (sections.eraseIdx i) + (if s.requiredInsertCount ≠ 0 then 1 else 0) =
      referring sections := by
  obtain ⟨hi, rfl⟩ := List.getElem?_eq_some_iff.mp h
  have hperm := getElem_cons_eraseIdx_perm hi
  unfold referring
  rw [← hperm.countP_eq, countP_cons]
  simp

theorem streamId_proper (kind : QpackDecKind) (hkind : kind ≠ .insertCount)
    (streamId : VarintValue) : Proper ⟨kind, streamId⟩ := by
  refine ⟨?_, fun hk => absurd hk hkind⟩
  dsimp only
  omega

def incrementDue (d : QdynDec) (inserts : Nat) : List DecMsg :=
  if inserts ≤ d.acked then [] else [⟨.insertCount, inserts - d.acked⟩]

theorem putIncrement_due {cap : Nat} (hinserts : inserts < 2 ^ 63) (hcap : 10 ≤ cap) :
    putIncrement d inserts cap = (incrementDue d inserts).flatMap DecMsg.bytes := by
  unfold putIncrement incrementDue
  split
  · rfl
  · have hvalue : (⟨.insertCount, inserts - d.acked⟩ : DecMsg).value < 2 ^ 63 := by
      dsimp only
      omega
    have hbytes := qpackDecInstrEncode_of_room hvalue hcap
    rw [hbytes]
    simp

theorem incrementDue_spec (d : QdynDec) (hinserts : inserts < 2 ^ 63) :
    d.acked + increments (incrementDue d inserts) = max d.acked inserts ∧
      sectionAcks (incrementDue d inserts) = 0 ∧ ∀ m ∈ incrementDue d inserts, Proper m := by
  unfold incrementDue
  split
  · exact ⟨by rw [increments_nil]; omega, rfl, by nofun⟩
  · refine ⟨by rw [increments_cons, increments_nil, if_pos rfl]; dsimp only; omega, rfl, ?_⟩
    rw [forall_mem_singleton]
    refine ⟨?_, fun _ => ?_⟩ <;> dsimp only <;> omega

theorem newBytes_next (rx : QpackencDecrx) (d : List UInt8) : newBytes rx rx.off d = d := by
  simp [newBytes]

section

variable (h : AckLink l acks queued)
include h

theorem AckLink.known_le : l.enc.knownReceived ≤ l.dec.dropped + l.dec.count := by
  have hknown := h.known
  have hacked := h.acked_le
  omega

theorem AckLink.leave (new : List DecMsg) (hs : l.sections[i]? = some s)
    {owed : QdynDec} (hacked : owed.acked = l.owed.acked)
    (hacks : owed.acks = l.owed.acks ++ new.flatMap DecMsg.bytes)
    (hroom : owed.acks.length ≤ qdynDecAcksMax) (hnew : increments new = 0)
    (hproper : ∀ m ∈ new, Proper m)
    (hcount : sectionAcks new ≤ if s.requiredInsertCount ≠ 0 then 1 else 0) :
    AckLink { l with sections := l.sections.eraseIdx i, owed := owed } acks (queued ++ new) where
  known := hacked ▸ h.known
  acked_le := hacked ▸ h.acked_le
  pending := by
    have hpending := h.pending
    have herase := referring_eraseIdx hs
    rw [sectionAcks_append]
    dsimp only
    omega
  awaits := h.awaits
  queue := by rw [flatMap_append, ← h.queue, hacks]
  room := hroom
  queued_increments := by rw [increments_append, h.queued_increments, hnew]
  proper := by
    rw [← append_assoc, forall_mem_append]
    exact ⟨h.proper, hproper⟩

theorem AckLink.sectionAck {ric : Nat} (hs : l.sections[i]? = some s)
    (hric : ric ≤ l.owed.acked) (hzero : s.requiredInsertCount = 0 → ric = 0) :
    ∃ queued', AckLink
      { l with sections := l.sections.eraseIdx i
               owed := qdynDecSectionAck l.owed s.streamId ric } acks queued' := by
  have hquiet : AckLink { l with sections := l.sections.eraseIdx i, owed := l.owed } acks
      (queued ++ []) :=
    h.leave [] hs rfl (append_nil _).symm h.room rfl (by nofun) zero_le
  unfold qdynDecSectionAck
  split
  · exact ⟨_, hquiet⟩
  · next hne =>
    have hproper := streamId_proper .sectionAck (by nofun) s.streamId
    split
    · next d' hqueue =>
      obtain ⟨hacks, hacked, hroom⟩ := qdynDecQueue_spec (m := ⟨_, _⟩) hproper.1 hqueue
      have hraise : raiseAcked d' ric = d' := if_neg (by omega)
      rw [hraise]
      refine ⟨_, h.leave [⟨.sectionAck, s.streamId⟩] hs hacked ?_ (hroom h.room) rfl ?_ ?_⟩
      · simpa using hacks
      · exact forall_mem_singleton.mpr hproper
      · rw [if_pos (fun hz => hne (hzero hz))]
        exact le_rfl
    · exact ⟨_, hquiet⟩

theorem AckLink.streamCancel (hs : l.sections[i]? = some s) :
    ∃ queued', AckLink
      { l with sections := l.sections.eraseIdx i
               owed := qdynDecStreamCancel l.owed s.streamId } acks queued' := by
  have hproper := streamId_proper .streamCancel (by nofun) s.streamId
  unfold qdynDecStreamCancel
  cases hqueue : qdynDecQueue l.owed .streamCancel s.streamId with
  | none => exact ⟨_, h.leave [] hs rfl (append_nil _).symm h.room rfl (by nofun) zero_le⟩
  | some d' =>
    obtain ⟨hacks, hacked, hroom⟩ := qdynDecQueue_spec (m := ⟨_, _⟩) hproper.1 hqueue
    refine ⟨_, h.leave [⟨.streamCancel, s.streamId⟩] hs hacked ?_ (hroom h.room) rfl ?_
      zero_le⟩
    · simpa using hacks
    · exact forall_mem_singleton.mpr hproper

theorem AckLink.flush (hi : inserts = l.dec.dropped + l.dec.count) (hinserts : inserts < 2 ^ 63) :
    ∃ acks', AckLink
      { l with owed := qdynDecSent l.owed inserts
               decWire := l.decWire ++ qdynDecPending l.owed inserts } acks' [] := by
  obtain ⟨hsum, hsections, hproper⟩ := incrementDue_spec l.owed hinserts
  have hproper' : ∀ m ∈ queued ++ incrementDue l.owed inserts, Proper m := by
    rw [forall_mem_append]
    exact ⟨(forall_mem_append.mp h.proper).2, hproper⟩
  have hsent : (qdynDecSent l.owed inserts).acks = [] ∧
      (qdynDecSent l.owed inserts).acked = max l.owed.acked inserts := by
    unfold qdynDecSent raiseAcked
    split <;> refine ⟨rfl, ?_⟩ <;> dsimp only at * <;> omega
  have hknown := h.known
  have hacked := h.acked_le
  have hpending := h.pending
  have hroom := h.room
  refine ⟨acks ++ (queued ++ incrementDue l.owed inserts), ?_, ?_, ?_, ?_, hsent.1, ?_, rfl, ?_⟩
  · rw [increments_append, increments_append, h.queued_increments]
    dsimp only
    omega
  · dsimp only
    omega
  · rw [sectionAcks_append, sectionAcks_append, hsections, sectionAcks_nil]
    dsimp only
    omega
  · apply h.awaits.append
    · rw [qdynDecPending, putIncrement_due hinserts (by unfold qdynDecOutMax; omega), h.queue,
        flatMap_append]
    · intro m hm
      exact DecMsg.bytes_pos (hproper' m hm).1
  · rw [hsent.1]
    exact zero_le
  · rw [append_nil, forall_mem_append]
    exact ⟨(forall_mem_append.mp h.proper).1, hproper'⟩

/-- When decoder stream bytes arrive, the encoder learns of inserts and of sections, no more. -/
theorem AckLink.arrives (hacked : l.owed.acked ≤ l.enc.totalInserts) (n : Nat) (ok : Bool)
    {r : DecrxResult} (hr : qpackencDecrxFeed l.rx l.enc l.rx.off (l.decWire.take n) = r) :
    r.ok = true ∧ (r.st.dyn = l.enc.dyn ∧ r.st.totalInserts = l.enc.totalInserts ∧
      r.st.capPending = l.enc.capPending ∧ l.enc.knownReceived ≤ r.st.knownReceived) ∧
      ∃ acks', AckLink { l with rx := r.rx, enc := r.st, decWire := l.decWire.drop n, ok := ok }
        acks' queued := by
  have hwaiting : Waiting l.enc l.owed.acked (referring l.sections + sectionAcks queued) l.enc
      acks := by
    refine ⟨rfl, rfl, rfl, le_rfl, h.known, h.pending, ?_⟩
    intro m hm
    exact h.proper m (mem_append_left _ hm)
  have hawaits : Awaits l.rx (l.decWire.take n ++ l.decWire.drop n) acks := by
    rw [take_append_drop]
    exact h.awaits
  rw [qpackencDecrxFeed, newBytes_next] at hr
  obtain ⟨hok, acks', hR, hrest⟩ := decrxBytes_messages (waiting_expects hacked) hwaiting hawaits
  rw [hr] at hok hR hrest
  refine ⟨hok, ⟨hR.dyn, hR.total, hR.capPending, hR.grown⟩, acks', hR.known, h.acked_le, hR.pending,
    hrest, h.queue, h.room, h.queued_increments, ?_⟩
  rw [forall_mem_append]
  exact ⟨hR.proper, (forall_mem_append.mp h.proper).2⟩

end

end

end Wired.Http3
