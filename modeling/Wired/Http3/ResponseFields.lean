import Wired.Http3.FieldSection
import Wired.Qpack.StatusLine

/-!
# Field sections of a response

`h3resp/field_encode.c`: the prefix, the `:status` line, and then lines that never refer to the
dynamic table. The prefix carries the Required Insert Count that the `:status` line asks for, with
the Base equal to it. Decoded by `h3reqdriveDecodeLine`, the first line is the status again
(`StatusForm.readsAs`).
-/

namespace Wired.Http3

open Lib Qpack List Option

/-! ## Encoding -/

def qpackContentTypeNameIndex : Nat := 44

/-- The prefix and the field lines of an encoded section. -/
structure ResponseSection where
  pre : List UInt8
  lines : List (List UInt8)

def ResponseSection.bytes (s : ResponseSection) : List UInt8 := s.pre ++ s.lines.flatten

def respPutPrefix (requiredInsertCount cap : Nat) : Option (List UInt8) :=
  qpackPrefixEncode cap
    { requiredInsertCount := requiredInsertCount, sign := false, deltaBase := 0 }

/-- Without an encoder's state, one of no capacity. -/
def qencOrFallback (qenc : Option QpackencState) : QpackencState := qenc.getD (qpackencInit 0)

def putStatusLine (status : Nat) (qenc : Option QpackencState) (cap : Nat) :
    Option QpackencStatusResult :=
  (qpackencStatusLine status (qencOrFallback qenc)).filter fun r => r.field.length ≤ cap

def prefixAndStatusFit (preLen statusLen cap : Nat) : Bool :=
  preLen ≠ 0 && preLen + statusLen ≤ cap

def putPrefixAndStatus (status : Nat) (qenc : Option QpackencState) (cap : Nat) :
    Option (List UInt8 × QpackencStatusResult) :=
  (putStatusLine status qenc statusFieldCap).bind fun r =>
    (respPutPrefix r.requiredInsertCount cap).bind fun pre =>
      if prefixAndStatusFit pre.length r.field.length cap then some (pre, r) else none

def putContentTypeLine (contentType : List UInt8) (cap : Nat) : Option (List UInt8) :=
  match qpackStaticFind { name := cstr "content-type", value := contentType } with
  | some idx => qpackIndexedEncode cap idx true
  | none => qpackLiteralNamrefEncode cap
      { index := qpackContentTypeNameIndex, isStatic := true, never := false } contentType

/-- The lines that a content type adds, at the offset `off`. -/
def appendContentType (contentType : Option (List UInt8)) (cap off : Nat) :
    Option (List (List UInt8)) :=
  match contentType with
  | none => some []
  | some ct => (putContentTypeLine ct (cap - off)).map fun line => [line]

def appendExtraFields (cap : Nat) : List Field → Nat → Option (List (List UInt8))
  | [], _ => some []
  | f :: extra, off =>
    (qpackLiteralNameEncode (cap - off) false f).bind fun line =>
      (appendExtraFields cap extra (off + line.length)).map fun lines => line :: lines

def h3respEncodeHeadersFieldsQenc (status : Nat) (contentType : Option (List UInt8))
    (extra : List Field) (qenc : Option QpackencState) (cap : Nat) :
    Option (ResponseSection × QpackencStatusResult) :=
  (putPrefixAndStatus status qenc cap).bind fun ps =>
    let off := ps.1.length + ps.2.field.length
    (appendContentType contentType cap off).bind fun ct =>
      (appendExtraFields cap extra (off + ct.flatten.length)).map fun lines =>
        ({ pre := ps.1, lines := ps.2.field :: (ct ++ lines) }, ps.2)

/-! ## The lines behind the status -/

/-- A line that refers to nothing in the dynamic table, whatever follows it. -/
def RefersNowhere (line : List UInt8) : Prop := ∀ rest, lineRef (line ++ rest) = none

variable {f : Field} {cap idx off status scr : Nat} {line value : List UInt8} {s : QdynSrc}

theorem qpackStaticFind_lt {i : Nat} (h : qpackStaticFind f = some i) : i < 2 ^ 63 := by
  obtain ⟨hlt, -⟩ := findIdx?_eq_some_iff_getElem.mp h
  have hlen : staticTable.length = 99 := rfl
  omega

theorem refersNowhere_static (hidx : idx < 2 ^ 63)
    (h : qpackIndexedEncode cap idx true = some line) : RefersNowhere line := by
  intro rest
  rw [lineRef_indexed (qpackIndexedDecode_encode hidx h rest)]
  rfl

theorem refersNowhere_namref (hidx : idx < 2 ^ 63)
    (h : qpackLiteralNamrefEncode cap ⟨idx, true, false⟩ value = some line) :
    RefersNowhere line := by
  intro rest
  obtain ⟨head, hhead, hv⟩ := bind_eq_some_iff.mp h
  obtain ⟨v, -, rfl⟩ := map_eq_some_iff.mp hv
  rw [append_assoc, lineRef_namref (qpackLiteralNamrefHead_encode hidx hhead (v ++ rest))]
  rfl

theorem refersNowhere_literalName (h : qpackLiteralNameEncode cap false f = some line) :
    RefersNowhere line := by
  intro rest
  obtain ⟨name, hname, hv⟩ := bind_eq_some_iff.mp h
  obtain ⟨v, -, rfl⟩ := map_eq_some_iff.mp hv
  have hraw : ∀ x < 2 ^ 3, (0x20 ||| bit false 0x10 ||| UInt8.ofNat x) &&& 0xe0 = 0x20 := by
    decide +kernel
  have hhuff : ∀ x < 2 ^ 3,
      (withHuffman 3 (0x20 ||| bit false 0x10) ||| UInt8.ofNat x) &&& 0xe0 = 0x20 := by
    decide +kernel
  obtain ⟨x, hx, hfirst⟩ := qpackStringEncodePfx_head hname
  rw [append_assoc]
  rcases hfirst with hfirst | hfirst
  · apply lineRef_literalName (b := 0x20 ||| bit false 0x10 ||| UInt8.ofNat x) _ (hraw x hx)
    rw [head?_append, hfirst]
    rfl
  · apply lineRef_literalName
      (b := withHuffman 3 (0x20 ||| bit false 0x10) ||| UInt8.ofNat x) _ (hhuff x hx)
    rw [head?_append, hfirst]
    rfl

variable {lines : List (List UInt8)} {extra : List Field} {r : QpackencStatusResult}

theorem appendContentType_refersNowhere {ct : Option (List UInt8)}
    (h : appendContentType ct cap off = some lines) : ∀ line ∈ lines, RefersNowhere line := by
  intro line hline
  cases ct with
  | none =>
    cases h
    cases hline
  | some ct =>
    obtain ⟨l, hl, rfl⟩ := map_eq_some_iff.mp h
    obtain rfl := mem_singleton.mp hline
    unfold putContentTypeLine at hl
    split at hl
    · next idx hidx => exact refersNowhere_static (qpackStaticFind_lt hidx) hl
    · exact refersNowhere_namref (by decide) hl

theorem appendExtraFields_refersNowhere
    (h : appendExtraFields cap extra off = some lines) : ∀ line ∈ lines, RefersNowhere line := by
  induction extra generalizing off lines with
  | nil =>
    cases h
    nofun
  | cons f extra ih =>
    obtain ⟨line, hline, hrest⟩ := bind_eq_some_iff.mp h
    obtain ⟨later, hlater, rfl⟩ := map_eq_some_iff.mp hrest
    exact forall_mem_cons.mpr ⟨refersNowhere_literalName hline, ih hlater⟩

/-- The prefix and the status line agree on the Required Insert Count, and no other line refers to
the dynamic table. -/
theorem h3respEncodeHeadersFieldsQenc_parts {contentType : Option (List UInt8)}
    {qenc : Option QpackencState} {fields : ResponseSection}
    (h : h3respEncodeHeadersFieldsQenc status contentType extra qenc cap = some (fields, r)) :
    qpackencStatusLine status (qencOrFallback qenc) = some r ∧
      respPutPrefix r.requiredInsertCount cap = some fields.pre ∧
      ∃ later, fields.lines = r.field :: later ∧ ∀ line ∈ later, RefersNowhere line := by
  obtain ⟨⟨pre, r'⟩, hput, hrest⟩ := bind_eq_some_iff.mp h
  obtain ⟨ct, hct, hlines⟩ := bind_eq_some_iff.mp hrest
  obtain ⟨lines, hextra, he⟩ := map_eq_some_iff.mp hlines
  obtain ⟨rfl, rfl⟩ := Prod.mk.inj he
  obtain ⟨r₂, hstatus, hprefix⟩ := bind_eq_some_iff.mp hput
  obtain ⟨pre₂, hpre, hfit⟩ := bind_eq_some_iff.mp hprefix
  split at hfit
  · cases hfit
    refine ⟨(filter_eq_some_iff.mp hstatus).1, hpre, _, rfl, ?_⟩
    rw [forall_mem_append]
    exact ⟨appendContentType_refersNowhere hct, appendExtraFields_refersNowhere hextra⟩
  · cases hfit

/-! ## The status line -/

/-- The line decodes to the field, whatever follows it, and takes its own bytes. -/
def ReadsAs (s : QdynSrc) (scr : Nat) (line : List UInt8) (f : Field) : Prop :=
  ∀ rest, ∃ l, (h3reqdriveDecodeLine (line ++ rest) scr s).line = some (l, line.length) ∧
    l.name = f.name ∧ l.value = f.value

theorem h3reqdriveDecodeLine_of_field {n : Nat} {fs : List UInt8} (hroom : f.value.length ≤ scr)
    (h : qdynDecodeField s fs = some (f, n)) :
    ∃ l, (h3reqdriveDecodeLine fs scr s).line = some (l, n) ∧ l.name = f.name ∧
      l.value = f.value := by
  have hkeep : ∃ l, indexedKeep f (fs.headD 0) scr = some l ∧ l.name = f.name ∧
      l.value = f.value := by
    unfold indexedKeep
    split
    · exact ⟨borrowStatic f, rfl, rfl, rfl⟩
    · rw [if_neg (Nat.not_lt.mpr hroom)]
      exact ⟨literalLine f.name f.value, rfl, rfl, rfl⟩
  obtain ⟨l, hl, hname, hvalue⟩ := hkeep
  have hform : h3reqdriveLineIndexed fs scr s false = ⟨some (l, n), false⟩ := by
    simp only [h3reqdriveLineIndexed, h, hl, map_some]
  refine ⟨l, ?_, hname, hvalue⟩
  simp [h3reqdriveDecodeLine, lineForms, hform]

theorem readsAs_indexed {isStatic : Bool} (hidx : idx < 2 ^ 63) (hroom : f.value.length ≤ scr)
    (hline : qpackIndexedEncode cap idx isStatic = some line)
    (hf : (if isStatic then resolveStatic idx else resolveDynamic s idx) = some f) :
    ReadsAs s scr line f := by
  intro rest
  apply h3reqdriveDecodeLine_of_field hroom
  have hdec := qpackIndexedDecode_encode hidx hline rest
  simp [qdynDecodeField, tryIndexed, hdec, hf]

theorem readsAs_namref (hidx : idx < 2 ^ 63) (hroom : value.length ≤ scr)
    (hlen : value.length < 2 ^ 63)
    (hline : qpackLiteralNamrefEncode cap ⟨idx, true, false⟩ value = some line)
    (hf : qpackStaticGet idx = some f) : ReadsAs s scr line { name := f.name, value := value } := by
  intro rest
  obtain ⟨head, hhead, hv⟩ := bind_eq_some_iff.mp hline
  obtain ⟨v, hvalue, rfl⟩ := map_eq_some_iff.mp hv
  have hnam := qpackLiteralNamrefHead_encode hidx hhead (v ++ rest)
  have hstr := qpackStringDecode_encode stringPattern_value hlen hroom hvalue rest
  have hdec : qpackLiteralNamrefDecode scr (head ++ (v ++ rest)) =
      some ((⟨idx, true, false⟩, value), head.length + v.length) := by
    apply Stable.andThen_eq_some.mpr
    refine ⟨_, _, v.length, hnam, ?_, rfl⟩
    rw [drop_left, decodeValue, qpackStringDecode, hstr, map_some]
  obtain ⟨r', hr', -⟩ := map_eq_some_iff.mp hnam
  obtain ⟨b, hb, hpat⟩ := lineHead_some hr'
  have hfield : qdynDecodeField s (head ++ (v ++ rest)) = none := by
    simp [qdynDecodeField, tryIndexed, tryPostbase, not_indexed hb hpat (by decide),
      not_indexedPostbase hb hpat (by decide)]
  refine ⟨literalLine f.name value, ?_, rfl, rfl⟩
  simp [h3reqdriveDecodeLine, lineForms, h3reqdriveLineIndexed, lineNamref, hfield, hnam,
    qdynResolveName, resolveStatic, hf, hdec]

theorem statusDigits_length (status : Nat) : (statusDigits status).length = 3 := rfl

theorem StatusForm.readsAs {st : QpackencState}
    (h : StatusForm status st r) (hscr : 3 ≤ scr)
    (hdyn : ∀ i, qpackDynGet st.dyn i = some (statusField (statusDigits status)) →
      i < st.knownReceived → r.requiredInsertCount = qpackRicEncode (i + 1) (maxEntriesOf st) →
      resolveDynamic s 0 = some (statusField (statusDigits status))) :
    ReadsAs s scr r.field (statusField (statusDigits status)) := by
  cases h with
  | static idx hidx hline hric hinstr =>
    apply readsAs_indexed (qpackStaticFind_lt hidx) hscr hline
    exact qpackStaticGet_find hidx
  | dynamic i hlive hknown hline hric hinstr =>
    apply readsAs_indexed (Nat.two_pow_pos 63) hscr hline
    rw [if_neg Bool.false_ne_true]
    exact hdyn i hlive hknown hric
  | literal hline hric hinstr =>
    have hname : qpackStaticGet qpackStatusNameIndex = some (staticEntry ":status" "103") := rfl
    exact readsAs_namref (by decide) hscr (by rw [statusDigits_length]; decide) hline hname

end Wired.Http3
