import Wired.Http3.QpackLink

/-!
# The two ends agree

A section on its way refers to an entry that was acknowledged and that the encoder still has
(`SectionLink`). An entry is evicted only while no section with a reference is unacknowledged, so
this stays true until the section arrives; the decoder has received every acknowledged insert and
evicts nothing before the encoder did, and finds the entry then. The main result is `link_agrees`.
-/

namespace Wired.Http3

open Lib Qpack List

/-- The status line of a section on its way. -/
inductive StatusSent (advertised : Nat) (hist : List Field) (enc : QpackencState)
    (s : SentSection) (line : List UInt8) : Prop
  | plain (hric : s.requiredInsertCount = 0) (hnowhere : RefersNowhere line)
      (hreads : ∀ src scr, 3 ≤ scr → ReadsAs src scr line (statusField (statusDigits s.status)))
  | reference (i : Nat) (hentry : hist[i]? = some (statusField (statusDigits s.status)))
      (hknown : i < enc.knownReceived) (hlive : enc.dyn.dropped ≤ i)
      (hline : qpackIndexedEncode statusFieldCap 0 false = some line)
      (hric : s.requiredInsertCount = qpackRicEncode (i + 1) (advertised / 32))

/-- A section on its way, against what the encoder has inserted. -/
structure SectionLink (advertised : Nat) (hist : List Field) (enc : QpackencState)
    (s : SentSection) : Prop where
  pre : ∃ cap, respPutPrefix s.requiredInsertCount cap = some s.fields.pre
  lines : ∃ line later, s.fields.lines = line :: later ∧ StatusSent advertised hist enc s line ∧
    ∀ other ∈ later, RefersNowhere other

/-- What holds between events. -/
structure LinkInv (advertised : Nat) (l : Link) (hist : List Field) (todo : List Instr)
    (acks queued : List DecMsg) : Prop where
  tables : TableLink advertised l hist todo
  acks : AckLink l acks queued
  sections : ∀ s ∈ l.sections, SectionLink advertised hist l.enc s
  ok : l.ok = true

def Linked (advertised : Nat) (l : Link) : Prop :=
  ∃ hist todo acks queued, LinkInv advertised l hist todo acks queued

section

variable {advertised : Nat} {hist hist' : List Field} {enc enc' : QpackencState} {s : SentSection}

theorem qpackRicEncode_ne_zero (i entries : Nat) : qpackRicEncode (i + 1) entries ≠ 0 :=
  Nat.succ_ne_zero _

/-- A section stays so while more is inserted, and nothing is evicted if it has a reference. -/
theorem SectionLink.mono (h : SectionLink advertised hist enc s) (hhist : hist <+: hist')
    (hknown : enc.knownReceived ≤ enc'.knownReceived)
    (hdropped : s.requiredInsertCount ≠ 0 → enc'.dyn.dropped = enc.dyn.dropped) :
    SectionLink advertised hist' enc' s where
  pre := h.pre
  lines := by
    obtain ⟨line, later, hlines, hsent, hlater⟩ := h.lines
    refine ⟨line, later, hlines, ?_, hlater⟩
    cases hsent with
    | plain hric hnowhere hreads => exact .plain hric hnowhere hreads
    | reference i hentry hi hlive hline hric =>
      obtain ⟨new, rfl⟩ := hhist
      have hlt := (List.getElem?_eq_some_iff.mp hentry).1
      refine .reference i ?_ (hi.trans_le hknown) ?_ hline hric
      · rw [getElem?_append_left hlt, hentry]
      · rw [hdropped (hric ▸ qpackRicEncode_ne_zero i _)]
        exact hlive

end

/-! ## Reading a section -/

variable {cap i status advertised : Nat} {dec : QpackDyn} {f : Field} {l : Link}

/-- A prefix is read back: the Base is the Required Insert Count, which was received. -/
theorem respPutPrefix_read {encoded ric : Nat} {pre : List UInt8}
    (rest : List UInt8) (hpre : respPutPrefix encoded cap = some pre) (hencoded : encoded < 2 ^ 63)
    (hdec : qpackRicDecode encoded (dynRicCtx dec) = some ric)
    (hric : ric ≤ dec.dropped + dec.count) (hinserts : dec.dropped + dec.count < 2 ^ 63) :
    h3reqdrivePrefixBase (pre ++ rest) dec =
      some ({ table := dec, base := ric, ric := ric }, pre.length) := by
  have hread := qpackPrefixDecode_encode hencoded hpre rest
  have hok : prefixRicOk ⟨encoded, false, 0⟩ ric (dynRicCtx dec) = true :=
    Bool.and_eq_true_iff.mpr ⟨rfl, decide_eq_true hric⟩
  have hbase : qpackBase ric false 0 = ric := by
    have hadd : addU64 ric 0 = ric := addU64_eq (by omega)
    simpa [qpackBase] using hadd
  simp [h3reqdrivePrefixBase, hread, prefixResolveBase, hdec, hok, hbase]

section

variable {advertised : Nat} {l : Link} {hist : List Field} {todo : List Instr}
  {acks queued : List DecMsg} {s : SentSection}

theorem resolveDynamic_first (hi : i < 2 ^ 63) (hget : qpackDynGet dec i = some f) :
    resolveDynamic { table := dec, base := i + 1, ric := i + 1 } 0 = some f := by
  have habs : qpackRelToAbs (i + 1) 0 = i := by
    rw [qpackRelToAbs, subU64_eq (by omega) zero_le, subU64_eq (by omega) (by omega)]
    omega
  have hmin : qpackRicMinOk (i + 1) true i = true := by
    have hadd : addU64 i 1 = i + 1 := addU64_eq (by omega)
    simp [qpackRicMinOk, hadd]
  rw [resolveDynamic, habs, qdynRefGet]
  simpa [hmin] using hget

section

variable (h : LinkInv advertised l hist todo acks queued)
include h

theorem LinkInv.inserts_lt : l.dec.dropped + l.dec.count ≤ hist.length ∧ hist.length < 2 ^ 63 := by
  obtain ⟨-, -, seen, hseen, hpre⟩ := h.tables.decoder
  have hle := hpre.length_le
  have hinserts := hseen.inserts
  have hstaged := h.tables.staged
  omega

theorem LinkInv.entry
    (hentry : hist[i]? = some f) (hknown : i < l.enc.knownReceived)
    (hlive : l.enc.dyn.dropped ≤ i) : qpackDynGet l.dec i = some f := by
  obtain ⟨-, hdropped, seen, hseen, new, rfl⟩ := h.tables.decoder
  have hle := h.acks.known_le
  have hinserts := hseen.inserts
  apply hseen.get_of_live (hdropped.trans hlive)
  rw [← hentry, getElem?_append_left (by omega)]

theorem LinkInv.ricDecode (hknown : i < l.enc.knownReceived) (hlive : l.enc.dyn.dropped ≤ i) :
    qpackRicDecode (qpackRicEncode (i + 1) (advertised / 32)) (dynRicCtx l.dec) =
      some (i + 1) := by
  have hmax := h.tables.decoder.1
  have hentries : (dynRicCtx l.dec).maxEntries = advertised / 32 := by
    rw [dynRicCtx, hmax]
    rfl
  have htotal : (dynRicCtx l.dec).totalInserts = l.dec.dropped + l.dec.count := rfl
  have hle := h.acks.known_le
  have hcount := h.tables.recalls.count_le
  have hinserts := h.tables.recalls.inserts
  have hcapacity := h.tables.capacity_le
  have hdec := h.inserts_lt.1
  rw [← hentries]
  apply qpackRicDecode_encode (Nat.succ_pos i)
  · omega
  · omega

theorem LinkInv.reads (hs : s ∈ l.sections) :
    ∃ src, h3reqdrivePrefixBase s.fields.bytes l.dec = some (src, s.fields.pre.length) ∧
      src.ric ≤ l.owed.acked ∧ (s.requiredInsertCount = 0 → src.ric = 0) ∧
      s.Readable l.dec ∧
      ∀ i, s.RefersTo l.dec i → ∃ k : Nat, i = k ∧ k < l.enc.knownReceived ∧
        l.enc.dyn.dropped ≤ k ∧ hist[k]? = some (statusField (statusDigits s.status)) := by
  obtain ⟨⟨cap, hpre⟩, line, later, hlines, hsent, hlater⟩ := h.sections s hs
  obtain ⟨hdec, hhist⟩ := h.inserts_lt
  have hinserts : l.dec.dropped + l.dec.count < 2 ^ 63 := by omega
  have hnowhere : ∀ other, RefersNowhere other → ∀ ref whole, lineRef other ≠ some (ref, whole) := by
    intro other hother ref whole heq
    have hnone := hother []
    rw [append_nil, heq] at hnone
    cases hnone
  cases hsent with
  | plain hric hplain hreads =>
    have hzero : qpackRicDecode s.requiredInsertCount (dynRicCtx l.dec) = some 0 := by
      rw [hric]
      rfl
    have hread := respPutPrefix_read s.fields.lines.flatten hpre (by omega) hzero
      zero_le hinserts
    refine ⟨_, hread, zero_le, fun _ => rfl, ⟨_, line, later, hread, hlines, hreads _⟩, ?_⟩
    rintro i ⟨src, n, line', ref, whole, -, hmem, href, -⟩
    rw [hlines] at hmem
    rcases mem_cons.mp hmem with rfl | hmem
    · exact absurd href (hnowhere _ hplain ref whole)
    · exact absurd href (hnowhere _ (hlater _ hmem) ref whole)
  | reference i hentry hknown hlive hline hric =>
    have hle := h.acks.known_le
    have hacked := h.acks.known
    have hencoded : s.requiredInsertCount < 2 ^ 63 := by
      have hmod := Nat.mod_le (i + 1) (2 * (advertised / 32))
      have hstaged := h.tables.staged
      rw [hric, qpackRicEncode, if_neg (Nat.succ_ne_zero i)]
      omega
    have hdecode := h.ricDecode hknown hlive
    rw [← hric] at hdecode
    have hread := respPutPrefix_read s.fields.lines.flatten hpre hencoded hdecode
      (by omega) hinserts
    have hget := h.entry hentry hknown hlive
    have hresolve := resolveDynamic_first (by omega) hget
    refine ⟨_, hread, by dsimp only; omega, ?_, ⟨_, line, later, hread, hlines, ?_⟩, ?_⟩
    · intro hzero
      exact absurd (hric.symm.trans hzero) (qpackRicEncode_ne_zero i _)
    · intro scr hscr
      apply readsAs_indexed (Nat.two_pow_pos 63) hscr hline
      rw [if_neg Bool.false_ne_true]
      exact hresolve
    · rintro j ⟨src, n, line', ref, whole, hsrc, hmem, href, rfl⟩
      obtain ⟨rfl, -⟩ := Prod.mk.inj (Option.some.inj (hread.symm.trans hsrc))
      rw [hlines] at hmem
      rcases mem_cons.mp hmem with rfl | hmem
      · have hfirst := lineRef_indexed (qpackIndexedDecode_encode (Nat.two_pow_pos 63) hline [])
        rw [append_nil, href] at hfirst
        cases hfirst
        refine ⟨i, ?_, hknown, hlive, hentry⟩
        simp [exactIndex]
      · exact absurd href (hnowhere _ (hlater _ hmem) ref whole)

end

/-! ## One step -/

theorem LinkInv.emits (h : LinkInv advertised l hist todo acks queued) (streamId : VarintValue)
    {contentType : Option (List UInt8)} {extra : List Field}
    {fields : ResponseSection} {r : QpackencStatusResult}
    (hr : h3respEncodeHeadersFieldsQenc status contentType extra
      (if l.opened then some l.enc else none) cap = some (fields, r)) :
    r.status = status ∧
      SectionLink advertised hist l.enc
        { streamId := streamId, fields := fields, requiredInsertCount := r.requiredInsertCount,
          status := status } ∧
      (l.opened = false → r.requiredInsertCount = 0) ∧
      (l.opened = true → r.insertInstr ≠ [] → r.requiredInsertCount = 0 ∧ r.insertInstr =
        (qpackencPlanField l.enc (statusField (statusDigits status))).insertInstr) := by
  obtain ⟨hline, hpre, later, hlines, hlater⟩ := h3respEncodeHeadersFieldsQenc_parts hr
  obtain ⟨hstatus, hform⟩ := qpackencStatusLine_form hline
  have hfallback : l.opened = false →
      (qencOrFallback (if l.opened then some l.enc else none)).knownReceived = 0 := by
    intro hclosed
    rw [hclosed]
    rfl
  have hopen : l.opened = true → qencOrFallback (if l.opened then some l.enc else none) = l.enc := by
    intro hopened
    rw [hopened]
    rfl
  generalize qencOrFallback (if l.opened then some l.enc else none) = st at *
  -- without a reference, the line is read alike with every table
  have hreads : r.requiredInsertCount = 0 → ∀ src scr, 3 ≤ scr →
      ReadsAs src scr r.field (statusField (statusDigits status)) := by
    intro hric src scr hscr
    apply StatusForm.readsAs hform hscr
    intro i _ _ hne
    exact absurd (hne.symm.trans hric) (qpackRicEncode_ne_zero i _)
  suffices hsent : StatusSent advertised hist l.enc _ r.field ∧ _ from
    ⟨hstatus, ⟨⟨cap, hpre⟩, r.field, later, hlines, hsent.1, hlater⟩, hsent.2⟩
  cases hform with
  | static idx hidx hfield hric hinstr =>
    refine ⟨.plain hric (refersNowhere_static (qpackStaticFind_lt hidx) hfield) (hreads hric),
      fun _ => hric, fun _ hne => absurd hinstr hne⟩
  | literal hfield hric hinstr =>
    refine ⟨.plain hric (refersNowhere_namref (by decide) hfield) (hreads hric), fun _ => hric,
      fun hopened _ => ⟨hric, ?_⟩⟩
    rw [hinstr, hopen hopened]
  | dynamic i hlive hknown hfield hric hinstr =>
    have hopened : l.opened = true := by
      by_contra hclosed
      rw [hfallback (Bool.eq_false_iff.mpr hclosed)] at hknown
      omega
    rw [hopen hopened] at hlive hknown hric
    obtain ⟨hdropped, hentry⟩ := h.tables.recalls.getElem_of_get hlive
    rw [maxEntriesOf, h.tables.maxCapacity (ne_nil_of_mem (mem_of_getElem? hentry))] at hric
    refine ⟨.reference i hentry hknown hdropped hfield hric, fun hclosed => ?_,
      fun _ hne => absurd hinstr hne⟩
    rw [hopened] at hclosed
    cases hclosed

theorem AckLink.no_references (h : AckLink l acks queued) (hfree : evictFree l.enc = true)
    (hs : s ∈ l.sections) : s.requiredInsertCount = 0 := by
  have hpending : l.enc.pendingAcks = 0 := of_decide_eq_true (Bool.and_eq_true_iff.mp hfree).1
  have hle := h.pending
  have hnone : referring l.sections = 0 := by omega
  by_contra hne
  exact absurd (decide_eq_true hne) (countP_eq_zero.mp hnone s hs)

theorem qpackencNoteSent_spec (st : QpackencState) (ric : Nat) :
    (qpackencNoteSent st ric).dyn = st.dyn ∧
      (qpackencNoteSent st ric).totalInserts = st.totalInserts ∧
      (qpackencNoteSent st ric).capPending = st.capPending ∧
      (qpackencNoteSent st ric).knownReceived = st.knownReceived ∧
      (qpackencNoteSent st ric).pendingAcks = st.pendingAcks + if ric ≠ 0 then 1 else 0 := by
  unfold qpackencNoteSent
  split <;> exact ⟨rfl, rfl, rfl, rfl, rfl⟩

theorem referring_append (sections : List SentSection) (s : SentSection) :
    referring (sections ++ [s]) =
      referring sections + if s.requiredInsertCount ≠ 0 then 1 else 0 := by
  simp [referring, countP_append, countP_cons]

variable (h : LinkInv advertised l hist todo acks queued)

include h

theorem LinkInv.send (hsection : SectionLink advertised hist l.enc s) :
    LinkInv advertised
      { l with sections := l.sections ++ [s]
               enc := qpackencNoteSent l.enc s.requiredInsertCount } hist todo acks queued := by
  obtain ⟨hdyn, htotal, hcap, hknown, hpending⟩ := qpackencNoteSent_spec l.enc s.requiredInsertCount
  refine ⟨h.tables.congr hdyn htotal hcap rfl rfl rfl rfl rfl, ?_, ?_, h.ok⟩
  · have hle := h.acks.pending
    refine { h.acks with known := hknown ▸ h.acks.known, pending := ?_ }
    rw [referring_append]
    dsimp only
    omega
  · intro s' hs'
    have hall := forall_mem_append.mpr ⟨h.sections, forall_mem_singleton.mpr hsection⟩
    exact (hall s' hs').mono (prefix_refl _) (le_of_eq hknown.symm) fun _ => by rw [hdyn]

theorem LinkInv.commit {instr : List UInt8}
    (hinstr : (qpackencPlanField l.enc (statusField (statusDigits status))).insertInstr = instr)
    (hne : instr ≠ []) (hroom : l.staged + instr.length ≤ 2 ^ 62) :
    Linked advertised
      { l with enc := qpackencCommitField l.enc (statusField (statusDigits status))
               staged := l.staged + instr.length
               encWire := l.encWire ++ instr } := by
  subst hinstr
  have hsmall : (statusField (statusDigits status)).name.length +
      (statusField (statusDigits status)).value.length ≤ qpackDynMaxCapacity :=
    (by decide : 10 ≤ qpackDynMaxCapacity)
  obtain ⟨⟨new, htables⟩, hevict⟩ := h.tables.commit hsmall hne hroom
  refine ⟨_, _, acks, queued, htables, ?_, ?_, h.ok⟩
  · exact { h.acks with }
  · intro s hs
    refine (h.sections s hs).mono (prefix_append _ _) le_rfl ?_
    intro href
    rcases hevict with hkept | hfree
    · exact hkept
    · exact absurd (h.acks.no_references hfree hs) href

theorem LinkInv.respond (status : Nat) (contentType : Option (List UInt8)) (extra : List Field)
    (cap : Nat) (streamId : VarintValue) (room : Bool) :
    Linked advertised
      (linkStep advertised l (.respond status contentType extra cap streamId room)) := by
  dsimp only [linkStep]
  split
  · exact ⟨_, _, _, _, h⟩
  · next fields r hr =>
    obtain ⟨hstatus, hsection, hclosed, hinsert⟩ := h.emits streamId hr
    have hsend := h.send hsection
    dsimp only [qencSendInsert]
    split
    · next hnot =>
      -- without the stream there are no references, so that nothing is awaited
      have hric : r.requiredInsertCount = 0 := hclosed (by simpa using hnot)
      have hsame : qpackencNoteSent l.enc r.requiredInsertCount = l.enc := by
        rw [hric]
        rfl
      rw [hsame] at hsend
      exact ⟨_, _, _, _, hsend⟩
    · next hopen =>
      split
      · next hstaged =>
        obtain ⟨hguard, hroom⟩ := Bool.and_eq_true_iff.mp hstaged
        have hne : r.insertInstr ≠ [] := of_decide_eq_true (Bool.and_eq_true_iff.mp hguard).1
        obtain ⟨hric, hinstr⟩ := hinsert (by simpa using hopen) hne
        have hsame : ∀ st, qpackencNoteSent st r.requiredInsertCount = st := by
          intro st
          rw [hric]
          rfl
        have hcommit : qpackencStatusCommit l.enc r =
            qpackencCommitField l.enc (statusField (statusDigits status)) := by
          rw [qpackencStatusCommit, if_neg hne, hstatus]
        rw [hsame] at hsend ⊢
        rw [hcommit]
        exact hsend.commit hinstr.symm hne (of_decide_eq_true hroom)
      · exact ⟨_, _, _, _, hsend⟩

theorem LinkInv.sectionArrives (i : Nat) :
    Linked advertised (linkStep advertised l (.sectionArrives i)) := by
  dsimp only [linkStep]
  split
  · exact ⟨_, _, _, _, h⟩
  · next s hs =>
    obtain ⟨src, hread, hric, hzero, -⟩ := h.reads (mem_of_getElem? hs)
    rw [hread]
    obtain ⟨queued', hacks⟩ := h.acks.sectionAck hs hric hzero
    refine ⟨hist, todo, acks, queued', h.tables.congr rfl rfl rfl rfl rfl rfl rfl rfl, hacks, ?_,
      h.ok⟩
    exact fun s' hs' => h.sections s' (mem_of_mem_eraseIdx hs')

theorem LinkInv.abandon (i : Nat) : Linked advertised (linkStep advertised l (.abandon i)) := by
  dsimp only [linkStep]
  split
  · exact ⟨_, _, _, _, h⟩
  · next s hs =>
    obtain ⟨queued', hacks⟩ := h.acks.streamCancel hs
    refine ⟨hist, todo, acks, queued', h.tables.congr rfl rfl rfl rfl rfl rfl rfl rfl, hacks, ?_,
      h.ok⟩
    exact fun s' hs' => h.sections s' (mem_of_mem_eraseIdx hs')

theorem LinkInv.settings : Linked advertised (linkStep advertised l .settings) := by
  dsimp only [linkStep]
  split
  · exact ⟨_, _, _, _, h⟩
  · next hunset =>
    obtain ⟨htables, hdropped⟩ := h.tables.settings (Bool.eq_false_iff.mpr hunset)
    refine ⟨_, _, acks, queued, htables, ?_, ?_, h.ok⟩
    · exact { h.acks with }
    · intro s hs
      refine (h.sections s hs).mono (prefix_refl _) le_rfl ?_
      exact fun _ => hdropped

theorem LinkInv.flush (room : Bool) : Linked advertised (linkStep advertised l (.flush room)) := by
  dsimp only [linkStep]
  split
  · obtain ⟨hdec, hhist⟩ := h.inserts_lt
    obtain ⟨acks', hacks⟩ := h.acks.flush rfl (by omega)
    exact ⟨hist, todo, acks', [], h.tables.congr rfl rfl rfl rfl rfl rfl rfl rfl, hacks, h.sections,
      h.ok⟩
  · exact ⟨_, _, _, _, h⟩

theorem LinkInv.encArrives (n : Nat) :
    Linked advertised (linkStep advertised l (.encArrives n)) := by
  dsimp only [linkStep]
  generalize hr : qdynEncApplyAll advertised l.dec (l.held ++ l.encWire.take n) = r
  obtain ⟨hfailed, hinserts, todo', htables⟩ := h.tables.arrives n (l.ok && !r.failed) hr
  refine ⟨hist, todo', acks, queued, htables, ?_, h.sections, ?_⟩
  · exact { h.acks with acked_le := h.acks.acked_le.trans hinserts }
  · simp [h.ok, hfailed]

theorem LinkInv.decArrives (n : Nat) :
    Linked advertised (linkStep advertised l (.decArrives n)) := by
  dsimp only [linkStep]
  generalize hr : qpackencDecrxFeed l.rx l.enc l.rx.off (l.decWire.take n) = r
  have hacked : l.owed.acked ≤ l.enc.totalInserts := by
    rw [h.tables.total]
    exact h.acks.acked_le.trans h.inserts_lt.1
  obtain ⟨hok, ⟨hdyn, htotal, hcap, hknown⟩, acks', hacks⟩ :=
    h.acks.arrives hacked n (l.ok && r.ok) hr
  refine ⟨hist, todo, acks', queued, ?_, hacks, ?_, ?_⟩
  · exact h.tables.congr hdyn htotal hcap rfl rfl rfl rfl rfl
  · intro s hs
    exact (h.sections s hs).mono (prefix_refl _) hknown fun _ => congrArg _ hdyn
  · simp [h.ok, hok]

end

theorem Linked.step (h : Linked advertised l) (op : LinkOp) :
    Linked advertised (linkStep advertised l op) := by
  obtain ⟨hist, todo, acks, queued, h⟩ := h
  cases op with
  | settings => exact h.settings
  | openStream =>
    exact ⟨hist, todo, acks, queued, h.tables.congr rfl rfl rfl rfl rfl rfl rfl rfl,
      { h.acks with }, h.sections, h.ok⟩
  | respond status contentType extra cap streamId room =>
    exact h.respond status contentType extra cap streamId room
  | encArrives n => exact h.encArrives n
  | sectionArrives i => exact h.sectionArrives i
  | abandon i => exact h.abandon i
  | flush room => exact h.flush room
  | decArrives n => exact h.decArrives n

/-! ## Whole runs -/

theorem linked_linkStart (advertised : Nat) : Linked advertised (linkStart advertised) := by
  refine ⟨[], [], [], [], ?_, ?_, by nofun, rfl⟩
  · have hempty : (qpackDynInit 0).Recalls [] := QpackDyn.Recalls.empty 0 0
    exact ⟨hempty, rfl, zero_le, ⟨le_rfl, zero_le⟩, rfl, .unsettled rfl rfl rfl rfl⟩
  · exact ⟨rfl, zero_le, le_rfl, ⟨rfl, by nofun⟩, rfl, zero_le, rfl, by nofun⟩

theorem LinkInv.agreement {hist : List Field} {todo : List Instr}
    {acks queued : List DecMsg} (h : LinkInv advertised l hist todo acks queued) :
    Agreement l where
  tables := by
    intro i f g hf hg
    obtain ⟨-, -, seen, hseen, hpre⟩ := h.tables.decoder
    exact h.tables.recalls.agree hseen hpre hf hg
  refers := by
    intro s hs i href
    obtain ⟨src, -, -, -, -, hrefers⟩ := h.reads hs
    obtain ⟨k, hk, hknown, hlive, hentry⟩ := hrefers i href
    exact ⟨k, hk, hknown, h.tables.recalls.get_of_live hlive hentry, h.entry hentry hknown hlive⟩
  readable := by
    intro s hs
    obtain ⟨src, -, -, -, hreadable, -⟩ := h.reads hs
    exact hreadable
  ok := h.ok

/-- **Agreement.** Whatever happens at the two ends and however the streams are cut, the tables
agree, and every section on its way can be read as it was meant. -/
theorem link_agrees (advertised : VarintValue) (ops : List LinkOp) :
    Agreement (ops.foldl (linkStep advertised) (linkStart advertised)) := by
  obtain ⟨hist, todo, acks, queued, h⟩ :=
    foldl_invariant (I := Linked advertised) (fun l op hl => hl.step op) ops
      (linked_linkStart advertised)
  exact h.agreement

end Wired.Http3
