import Wired.Qpack.FieldLine
import Wired.Qpack.Instruction

/-!
# What the codecs read and return

`integer.c`, `string.c`, `instruction.c`, `fieldline.c`, `literal.c` and `prefix.c` once more, for
what the decoders do with an arbitrary byte string (`qpackCodecs_exact`). An integer is computed in
64 bits (`U64`), and never wraps. The positions that a decoder reads lie in its input, but for one:
`qpack_prefix_decode` takes the Sign from the byte behind the Required Insert Count before it has
looked whether there is one (`qpackPrefixReads_inBounds_iff`).
-/

namespace Wired.Qpack

open Lib List

/-! ## Integers in 64 bits -/

namespace U64

def takeGroups : List UInt8 → UInt64 → UInt64 → Option (UInt64 × Nat)
  | [], _, _ => none
  | b :: rest, m, value =>
    if m > 56 then none
    else
      let value := value + ((b &&& 0x7f).toUInt64 <<< m)
      if b &&& 0x80 ≠ 0 then (takeGroups rest (m + 7) value).map fun r => (r.1, r.2 + 1)
      else some (value, 1)

def prefixMax (bits : Nat) : UInt64 := (1 <<< UInt64.ofNat bits) - 1

/-- The decoder of integers in 64 bits. -/
def qpackIntDecode (bits : Nat) : List UInt8 → Option (UInt64 × Nat)
  | [] => none
  | b :: rest =>
    let pmax := prefixMax bits
    let value := b.toUInt64 &&& pmax
    if value < pmax then some (value, 1)
    else (takeGroups rest 0 value).map fun r => (r.1, r.2 + 1)

variable {m bits : Nat}

theorem ofNat_group (value : Nat) (b : UInt8) (hm : m ≤ 56) :
    UInt64.ofNat value + ((b &&& 0x7f).toUInt64 <<< UInt64.ofNat m) =
      UInt64.ofNat (value + (b &&& 0x7f).toNat * 2 ^ m) := by
  have hshift : (b &&& 0x7f).toUInt64 <<< UInt64.ofNat m =
      UInt64.ofNat ((b &&& 0x7f).toNat * 2 ^ m) := by
    rw [← UInt64.toNat_inj, UInt64.toNat_shiftLeft, UInt8.toNat_toUInt64,
      UInt64.toNat_ofNat', UInt64.toNat_ofNat', Nat.shiftLeft_eq]
    congr 3
    omega
  rw [hshift, UInt64.ofNat_add]

/-- The groups in 64 bits are those of the numbers, modulo `2 ^ 64`. -/
theorem takeGroups_eq (b : List UInt8) (hm : m ≤ 63) (value : Nat) :
    takeGroups b (UInt64.ofNat m) (UInt64.ofNat value) =
      (Qpack.takeGroups b m value).map fun r => (UInt64.ofNat r.1, r.2) := by
  induction b generalizing m value with
  | nil => rfl
  | cons x rest ih =>
    have hm64 : (UInt64.ofNat m).toNat = m := UInt64.toNat_ofNat_of_lt' (Nat.lt_of_le_of_lt hm (by decide))
    rw [takeGroups, Qpack.takeGroups]
    by_cases hbig : m > 56
    · have hbig64 : UInt64.ofNat m > 56 := by
        rw [gt_iff_lt, UInt64.lt_iff_toNat_lt, hm64]
        exact hbig
      rw [if_pos hbig, if_pos hbig64]
      rfl
    have hbig64 : ¬ UInt64.ofNat m > 56 := by
      rw [gt_iff_lt, UInt64.lt_iff_toNat_lt, hm64]
      exact hbig
    have hnext : UInt64.ofNat m + 7 = UInt64.ofNat (m + 7) := (UInt64.ofNat_add m 7).symm
    rw [if_neg hbig, if_neg hbig64, ofNat_group value x (Nat.le_of_not_lt hbig), hnext]
    dsimp only
    split
    · rw [ih (by omega), Option.map_map, Option.map_map]
      rfl
    · rfl

theorem toNat_prefixMax (hbits : bits ≤ 8) : (prefixMax bits).toNat = Qpack.prefixMax bits := by
  revert bits
  decide

/-- **No wrap.** What the decoder returns is the number that the bytes stand for. -/
theorem qpackIntDecode_exact (hbits : bits ≤ 8) (b : List UInt8) :
    (qpackIntDecode bits b).map (fun r => (r.1.toNat, r.2)) = Qpack.qpackIntDecode bits b := by
  cases b with
  | nil => rfl
  | cons x rest =>
    have hpmax := toNat_prefixMax hbits
    have hvalue : (x.toUInt64 &&& prefixMax bits).toNat = x.toNat &&& Qpack.prefixMax bits := by
      rw [UInt64.toNat_and, UInt8.toNat_toUInt64, hpmax]
    have hofNat : x.toUInt64 &&& prefixMax bits =
        UInt64.ofNat (x.toNat &&& Qpack.prefixMax bits) := by
      rw [← hvalue, UInt64.ofNat_toNat]
    rw [qpackIntDecode, Qpack.qpackIntDecode]
    simp only [UInt64.lt_iff_toNat_lt, hvalue, hpmax]
    split
    · rw [Option.map_some, hvalue]
    · rw [hofNat]
      have hgroups := takeGroups_eq rest (Nat.zero_le 63) (x.toNat &&& Qpack.prefixMax bits)
      rw [show UInt64.ofNat 0 = 0 from rfl] at hgroups
      rw [hgroups, Option.map_map, Option.map_map]
      apply Option.map_congr
      rintro ⟨v, n⟩ hv
      have hbound := (takeGroups_spec hv).2.2.1
      have hsmall : x.toNat &&& Qpack.prefixMax bits ≤ x.toNat := Nat.and_le_left
      have hbyte := x.toNat_lt
      have hlt : v < UInt64.size := by
        change v < 2 ^ 64
        omega
      simp only [Function.comp_apply, UInt64.toNat_ofNat_of_lt' hlt]

end U64

/-! ## The positions that are read -/

def takeGroupsReads : List UInt8 → Nat → Nat → List Nat
  | [], _, _ => []
  | b :: rest, off, m =>
    if m > 56 then []
    else off :: if b &&& 0x80 ≠ 0 then takeGroupsReads rest (off + 1) (m + 7) else []

def qpackIntReads (bits : Nat) : List UInt8 → List Nat
  | [] => []
  | b :: rest =>
    0 :: if b.toNat &&& prefixMax bits < prefixMax bits then [] else takeGroupsReads rest 1 0

def takeHeaderReads (bits : Nat) (buf : List UInt8) : List Nat :=
  match buf.head? with
  | none => []
  | some _ => 0 :: qpackIntReads bits buf

/-- The octets of a string. A Huffman code may end the decoding before the last of them. -/
def strValueReads (cap : Nat) (h : Bool × Nat) (rest : List UInt8) : List Nat :=
  if h.2 > rest.length then [] else if !h.1 && h.2 > cap then [] else List.range h.2

def qpackStringReads (bits cap : Nat) (buf : List UInt8) : List Nat :=
  readsThen (takeHeader bits) (takeHeaderReads bits) (strValueReads cap) buf

def instrReads {κ : Type} (kinds : List κ) (spec : κ → InstrSpec) (buf : List UInt8) : List Nat :=
  match buf.head? with
  | none => []
  | some b =>
    0 :: match specClassify kinds spec b with
      | none => []
      | some k => qpackIntReads (spec k).prefixBits buf

/-- The first byte, for the form and its flags, and the integer. -/
def lineHeadReads (mask pattern : UInt8) (bits : Nat) (buf : List UInt8) : List Nat :=
  match buf.head? with
  | none => []
  | some b => 0 :: if b &&& mask = pattern then qpackIntReads bits buf else []

def qpackLiteralNamrefReads (cap : Nat) : List UInt8 → List Nat :=
  readsThen qpackLiteralNamrefHead (lineHeadReads 0xc0 0x40 4) fun _ => qpackStringReads 7 cap

def qpackLiteralPostbaseReads (cap : Nat) : List UInt8 → List Nat :=
  readsThen qpackLiteralPostbaseHead (lineHeadReads 0xf0 0x00 3) fun _ => qpackStringReads 7 cap

def qpackLiteralNameReads (nameCap valueCap : Nat) (buf : List UInt8) : List Nat :=
  match buf.head? with
  | none => []
  | some b =>
    0 :: if b &&& 0xe0 = 0x20 then
        readsThen (qpackStringDecodePfx 3 nameCap) (qpackStringReads 3 nameCap)
          (fun _ => qpackStringReads 7 valueCap) buf
      else []

/-- The byte behind the Required Insert Count is read for its Sign, whether there is one or not. -/
def qpackPrefixReads : List UInt8 → List Nat :=
  readsThen (qpackIntDecode 8) (qpackIntReads 8) fun _ rest => 0 :: qpackIntReads 7 rest

theorem takeGroupsReads_lt (b : List UInt8) {off i : Nat} (hi : i ∈ takeGroupsReads b off m) :
    i < off + b.length := by
  induction b generalizing off m with
  | nil => cases hi
  | cons x rest ih =>
    rw [takeGroupsReads] at hi
    rw [length_cons]
    split at hi
    · cases hi
    obtain rfl | hi := mem_cons.mp hi
    · omega
    · split at hi
      · have := ih hi
        omega
      · cases hi

theorem qpackIntReads_inBounds (bits : Nat) : InBounds (qpackIntReads bits) := by
  intro b i hi
  cases b with
  | nil => cases hi
  | cons x rest =>
    obtain rfl | hi := mem_cons.mp hi
    · exact Nat.succ_pos _
    · split at hi
      · cases hi
      have hlt := takeGroupsReads_lt rest hi
      rw [length_cons]
      omega

theorem inBounds_byHead {reads : UInt8 → List UInt8 → List Nat} (h : ∀ b, InBounds (reads b)) :
    InBounds fun buf =>
      match buf.head? with
      | none => []
      | some b => 0 :: reads b buf := by
  intro buf i hi
  cases buf with
  | nil => cases hi
  | cons x rest =>
    obtain rfl | hi := mem_cons.mp hi
    · exact Nat.succ_pos _
    · exact h x _ i hi

theorem inBounds_ite {reads : List UInt8 → List Nat} (p : Prop) [Decidable p]
    (h : InBounds reads) : InBounds fun buf => if p then reads buf else [] := by
  intro buf i hi
  split at hi
  · exact h buf i hi
  · cases hi

theorem strValueReads_inBounds (cap : Nat) (h : Bool × Nat) : InBounds (strValueReads cap h) := by
  intro rest i hi
  rw [strValueReads] at hi
  split at hi
  · cases hi
  split at hi
  · cases hi
  have := mem_range.mp hi
  omega

theorem qpackStringReads_inBounds (bits cap : Nat) : InBounds (qpackStringReads bits cap) :=
  (inBounds_byHead fun _ => qpackIntReads_inBounds bits).then_ (strValueReads_inBounds cap)

theorem instrReads_inBounds {κ : Type} (kinds : List κ) (spec : κ → InstrSpec) :
    InBounds (instrReads kinds spec) := by
  refine inBounds_byHead fun b => ?_
  intro buf i hi
  split at hi
  · cases hi
  exact qpackIntReads_inBounds _ buf i hi

theorem lineHeadReads_inBounds (mask pattern : UInt8) (bits : Nat) :
    InBounds (lineHeadReads mask pattern bits) :=
  inBounds_byHead fun _ => inBounds_ite _ (qpackIntReads_inBounds bits)

theorem qpackLiteralNameReads_inBounds (nameCap valueCap : Nat) :
    InBounds (qpackLiteralNameReads nameCap valueCap) :=
  inBounds_byHead fun _ => inBounds_ite _
    ((qpackStringReads_inBounds 3 nameCap).then_ fun _ => qpackStringReads_inBounds 7 valueCap)

/-- The prefix is read within its bytes if and only if something follows its Required Insert Count.
-/
theorem qpackPrefixReads_inBounds_iff (buf : List UInt8) :
    (∀ i ∈ qpackPrefixReads buf, i < buf.length) ↔
      ∀ ric n, qpackIntDecode 8 buf = some (ric, n) → n < buf.length := by
  constructor
  · intro h ric n hdec
    exact h n (mem_readsThen.mpr (.inr ⟨ric, n, hdec, 0, mem_cons_self, rfl⟩))
  · intro h i hi
    obtain hi | ⟨ric, n, hdec, j, hj, rfl⟩ := mem_readsThen.mp hi
    · exact qpackIntReads_inBounds 8 buf i hi
    · obtain rfl | hj := mem_cons.mp hj
      · exact h ric n hdec
      · have hlt := qpackIntReads_inBounds 7 _ j hj
        rw [length_drop] at hlt
        omega

/-! ## All of the forms -/

/-- The positions that any of the decoders reads. -/
def qpackReads (bits nameCap valueCap : Nat) (buf : List UInt8) : List Nat :=
  qpackIntReads bits buf ++ qpackStringReads bits valueCap buf ++
    instrReads encKinds encSpec buf ++ instrReads decKinds decSpec buf ++
    lineHeadReads 0x80 0x80 6 buf ++ lineHeadReads 0xf0 0x10 4 buf ++
    qpackLiteralNamrefReads valueCap buf ++ qpackLiteralPostbaseReads valueCap buf ++
    qpackLiteralNameReads nameCap valueCap buf ++ qpackPrefixReads buf

theorem qpackReads_inBounds_iff (bits nameCap valueCap : Nat) (buf : List UInt8) :
    (∀ i ∈ qpackReads bits nameCap valueCap buf, i < buf.length) ↔
      ∀ ric n, qpackIntDecode 8 buf = some (ric, n) → n < buf.length := by
  have hnamref : InBounds (qpackLiteralNamrefReads valueCap) :=
    (lineHeadReads_inBounds 0xc0 0x40 4).then_ fun _ => qpackStringReads_inBounds 7 valueCap
  have hpostbase : InBounds (qpackLiteralPostbaseReads valueCap) :=
    (lineHeadReads_inBounds 0xf0 0x00 3).then_ fun _ => qpackStringReads_inBounds 7 valueCap
  rw [← qpackPrefixReads_inBounds_iff]
  simp only [qpackReads, mem_append]
  constructor
  · intro h i hi
    exact h i (.inr hi)
  · rintro h i (((((((((hi | hi) | hi) | hi) | hi) | hi) | hi) | hi) | hi) | hi)
    · exact qpackIntReads_inBounds bits buf i hi
    · exact qpackStringReads_inBounds bits valueCap buf i hi
    · exact instrReads_inBounds encKinds encSpec buf i hi
    · exact instrReads_inBounds decKinds decSpec buf i hi
    · exact lineHeadReads_inBounds 0x80 0x80 6 buf i hi
    · exact lineHeadReads_inBounds 0xf0 0x10 4 buf i hi
    · exact hnamref buf i hi
    · exact hpostbase buf i hi
    · exact qpackLiteralNameReads_inBounds nameCap valueCap buf i hi
    · exact h i hi

/-- What is encoded is decoded again, and uses exactly its bytes, for values with `ok`. -/
def RoundTrips {α : Type} (enc : Nat → α → Option (List UInt8))
    (dec : List UInt8 → Option (α × Nat)) (ok : α → Prop) : Prop :=
  ∀ cap a bytes, ok a → enc cap a = some bytes → Codes dec bytes a

/-- **The codecs.** The integers of every width, the strings, the instructions of both streams, the
field lines and the section prefix are decoded from their encodings. No integer wraps, and of any
byte string only its bytes are read if and only if its Required Insert Count, if there is one, is
not all of it. -/
theorem qpackCodecs_exact (width nameCap valueCap : Nat) (buf : List UInt8) :
    (∀ bits pattern, bits ≤ 8 → pattern.toNat % 2 ^ bits = 0 →
      RoundTrips (fun cap => qpackIntEncode cap bits pattern) (qpackIntDecode bits) (· < 2 ^ 62)) ∧
    (∀ bits pattern room, bits ≤ 7 → pattern.toNat % 2 ^ (bits + 1) = 0 →
      RoundTrips (fun cap => qpackStringEncodePfx cap bits pattern)
        (qpackStringDecodePfx bits room) fun s => s.length < 2 ^ 62 ∧ s.length ≤ room) ∧
    RoundTrips (fun cap (m : QpackEncKind × Nat) => qpackEncInstrEncode cap m.1 m.2)
      qpackEncInstrDecode (·.2 < 2 ^ 62) ∧
    RoundTrips (fun cap (m : QpackDecKind × Nat) => qpackDecInstrEncode cap m.1 m.2)
      qpackDecInstrDecode (·.2 < 2 ^ 62) ∧
    RoundTrips (fun cap (l : Nat × Bool) => qpackIndexedEncode cap l.1 l.2)
      qpackIndexedDecode (·.1 < 2 ^ 62) ∧
    RoundTrips qpackIndexedPostbaseEncode qpackIndexedPostbaseDecode (· < 2 ^ 62) ∧
    (∀ room, RoundTrips (fun cap (l : QpackNameref × List UInt8) =>
        qpackLiteralNamrefEncode cap l.1 l.2) (qpackLiteralNamrefDecode room)
      fun l => l.1.index < 2 ^ 62 ∧ l.2.length < 2 ^ 62 ∧ l.2.length ≤ room) ∧
    (∀ room, RoundTrips (fun cap (l : QpackPostbaseref × List UInt8) =>
        qpackLiteralPostbaseEncode cap l.1 l.2) (qpackLiteralPostbaseDecode room)
      fun l => l.1.index < 2 ^ 62 ∧ l.2.length < 2 ^ 62 ∧ l.2.length ≤ room) ∧
    (∀ nameRoom valueRoom, RoundTrips (fun cap (l : Bool × Field) =>
        qpackLiteralNameEncode cap l.1 l.2) (qpackLiteralNameDecode nameRoom valueRoom)
      fun l => l.2.name.length < 2 ^ 62 ∧ l.2.value.length < 2 ^ 62 ∧
        l.2.name.length ≤ nameRoom ∧ l.2.value.length ≤ valueRoom) ∧
    RoundTrips qpackPrefixEncode qpackPrefixDecode
      (fun p => p.requiredInsertCount < 2 ^ 62 ∧ p.deltaBase < 2 ^ 62) ∧
    (∀ bits buf, bits ≤ 8 →
      (U64.qpackIntDecode bits buf).map (fun r => (r.1.toNat, r.2)) = qpackIntDecode bits buf) ∧
    ((∀ i ∈ qpackReads width nameCap valueCap buf, i < buf.length) ↔
      ∀ ric n, qpackIntDecode 8 buf = some (ric, n) → n < buf.length) := by
  have hlt : ∀ {v : Nat}, v < 2 ^ 62 → v < 2 ^ 63 := fun h => Nat.lt_trans h (by decide)
  refine ⟨?_, ?_, ?_, ?_, ?_, ?_, ?_, ?_, ?_, ?_, ?_, qpackReads_inBounds_iff _ _ _ _⟩
  · intro bits pattern hbits hpat cap v bytes hv h
    exact qpackIntDecode_encode (patternFree_of_mod hbits hpat) (hlt hv) h
  · intro bits pattern room hbits hpat cap s bytes hs h
    exact qpackStringDecode_encode (stringPattern_of_mod hbits hpat) (hlt hs.1) hs.2 h
  · intro cap m bytes hm h
    exact instrDecode_encode (encKind_recognised m.1) (hlt hm) h
  · intro cap m bytes hm h
    exact instrDecode_encode (decKind_recognised m.1) (hlt hm) h
  · intro cap l bytes hl h
    exact qpackIndexedDecode_encode (hlt hl) h
  · intro cap v bytes hv h
    exact qpackIndexedPostbaseDecode_encode (hlt hv) h
  · intro room cap l bytes hl h
    exact qpackLiteralNamrefDecode_encode (hlt hl.1) (hlt hl.2.1) hl.2.2 h
  · intro room cap l bytes hl h
    exact qpackLiteralPostbaseDecode_encode (hlt hl.1) (hlt hl.2.1) hl.2.2 h
  · intro nameRoom valueRoom cap l bytes hl h
    exact qpackLiteralNameDecode_encode (hlt hl.1) (hlt hl.2.1) hl.2.2.1 hl.2.2.2 h
  · intro cap p bytes hp h
    exact qpackPrefixDecode_codes (hlt hp.1) (hlt hp.2) h
  · intro bits buf hbits
    exact U64.qpackIntDecode_exact hbits buf

/-- A field section of one byte: the byte behind it is read. -/
theorem qpackPrefixReads_one_byte : ¬ ∀ i ∈ qpackPrefixReads [0], i < [(0 : UInt8)].length := by
  decide

end Wired.Qpack
