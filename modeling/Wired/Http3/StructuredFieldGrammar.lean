import Wired.Http3.StructuredField

/-!
# The grammar of sf-dictionaries

The language that the dictionary parser is for (RFC 8941 4.2.2): which texts are dictionaries, and
which members they have. Of a byte sequence the grammar here, like the parser, asks only that it is
written in the base64 alphabet.

The second half is about the words of this grammar, the keys and the bare items (`parses_sfdBare`).
A key goes on with a key byte, a bare item with a token byte.
-/

namespace Wired.Http3

open Lib List

variable {c : UInt8} {k b ds rest e r : List UInt8} {v : SfieldItem}

namespace Sfield

/-! ## The grammar -/

def Lcalpha (c : UInt8) : Prop := 0x61 ≤ c ∧ c ≤ 0x7a

def Alpha (c : UInt8) : Prop := (0x41 ≤ c ∧ c ≤ 0x5a) ∨ (0x61 ≤ c ∧ c ≤ 0x7a)

def Digit (c : UInt8) : Prop := 0x30 ≤ c ∧ c ≤ 0x39

def Tchar (c : UInt8) : Prop :=
  Alpha c ∨ Digit c ∨
    c ∈ [0x21, 0x23, 0x24, 0x25, 0x26, 0x27, 0x2a, 0x2b, 0x2d, 0x2e, 0x5e, 0x5f, 0x60, 0x7c, 0x7e]

/-- A key: a lower case letter or `*`, then lower case letters, digits, `_`, `-`, `.` and `*`. -/
def IsKey (k : List UInt8) : Prop :=
  ∃ c cs, k = c :: cs ∧ (Lcalpha c ∨ c = star) ∧
    ∀ x ∈ cs, Lcalpha x ∨ Digit x ∨ x ∈ [0x5f, 0x2d, 0x2e, 0x2a]

/-- The value of a member. Only what an `SfieldItem` can tell apart is kept. -/
inductive Value
  | integer (neg : Bool) (magnitude : ℕ)
  | decimal
  | string
  | token
  | byteSequence
  | boolean (b : Bool)
  | innerList

def Value.item : Value → SfieldItem
  | .integer neg magnitude => .integer neg magnitude
  | .boolean b => .boolean b
  | _ => .other

def sign (neg : Bool) : List UInt8 := if neg then [minus] else []

def digitsVal (ds : List UInt8) : ℕ := ds.foldl (fun val c => val * 10 + (c.toNat - 0x30)) 0

/-- The inside of a string, where quote and backslash are escaped. -/
inductive StringBody : List UInt8 → Prop
  | nil : StringBody []
  | unescaped {c : UInt8} {cs : List UInt8} (printable : 0x20 ≤ c ∧ c ≤ 0x7e)
      (plain : c ≠ dquote ∧ c ≠ backslash) (rest : StringBody cs) : StringBody (c :: cs)
  | escaped {c : UInt8} {cs : List UInt8} (special : c = dquote ∨ c = backslash)
      (rest : StringBody cs) : StringBody (backslash :: c :: cs)

/-- Integers and decimals with their texts. -/
inductive Number : Value → List UInt8 → Prop
  | integer (neg : Bool) {ds : List UInt8} (digits : ∀ c ∈ ds, Digit c)
      (count : 1 ≤ ds.length ∧ ds.length ≤ 15) :
      Number (.integer neg (digitsVal ds)) (sign neg ++ ds)
  | decimal (neg : Bool) {ds fs : List UInt8} (digits : ∀ c ∈ ds, Digit c)
      (count : 1 ≤ ds.length ∧ ds.length ≤ 12) (fraction : ∀ c ∈ fs, Digit c)
      (fractionCount : 1 ≤ fs.length ∧ fs.length ≤ 3) :
      Number .decimal (sign neg ++ (ds ++ dot :: fs))

/-- Bare items with their texts. -/
inductive BareItem : Value → List UInt8 → Prop
  | number {v : Value} {e : List UInt8} (number : Number v e) : BareItem v e
  | string {cs : List UInt8} (body : StringBody cs) : BareItem .string (dquote :: (cs ++ [dquote]))
  | token {c : UInt8} {cs : List UInt8} (start : Alpha c ∨ c = star)
      (rest : ∀ x ∈ cs, Tchar x ∨ x = 0x3a ∨ x = 0x2f) : BareItem .token (c :: cs)
  | byteSequence {cs : List UInt8}
      (base64 : ∀ x ∈ cs, Alpha x ∨ Digit x ∨ x ∈ [0x2b, 0x2f, 0x3d]) :
      BareItem .byteSequence (colon :: (cs ++ [colon]))
  | boolean (b : Bool) : BareItem (.boolean b) [question, if b then 0x31 else 0x30]

/-- A parameter behind its `;`: a key, or a key with a value. -/
inductive Parameter : List UInt8 → Prop
  | flag (n : ℕ) {k : List UInt8} (key : IsKey k) : Parameter (List.replicate n sp ++ k)
  | valued (n : ℕ) {k e : List UInt8} {v : Value} (key : IsKey k) (value : BareItem v e) :
      Parameter (List.replicate n sp ++ (k ++ equals :: e))

abbrev Parameters : List UInt8 → Prop := Many semicolon Parameter

def Item (v : Value) (e : List UInt8) : Prop :=
  ∃ e₁ e₂, e = e₁ ++ e₂ ∧ BareItem v e₁ ∧ Parameters e₂

/-- An inner list behind one of its items. -/
inductive InnerRest : List UInt8 → Prop
  | close (n : ℕ) : InnerRest (List.replicate n sp ++ [rparen])
  | item (n : ℕ) {v : Value} {e r : List UInt8} (item : Item v e) (rest : InnerRest r) :
      InnerRest (List.replicate (n + 1) sp ++ (e ++ r))

/-- An inner list behind its parenthesis. -/
inductive InnerBody : List UInt8 → Prop
  | empty (n : ℕ) : InnerBody (List.replicate n sp ++ [rparen])
  | item (n : ℕ) {v : Value} {e r : List UInt8} (item : Item v e) (rest : InnerRest r) :
      InnerBody (List.replicate n sp ++ (e ++ r))

/-- The value of a member behind the `=`. -/
inductive MemberValue : Value → List UInt8 → Prop
  | item {v : Value} {e : List UInt8} (item : Item v e) : MemberValue v e
  | innerList {e ps : List UInt8} (body : InnerBody e) (params : Parameters ps) :
      MemberValue .innerList (lparen :: (e ++ ps))

/-- A member; one without a value is Boolean true. -/
inductive Member : List UInt8 × Value → List UInt8 → Prop
  | flag {k ps : List UInt8} (key : IsKey k) (params : Parameters ps) :
      Member (k, .boolean true) (k ++ ps)
  | valued {k e : List UInt8} {v : Value} (key : IsKey k) (value : MemberValue v e) :
      Member (k, v) (k ++ equals :: e)

def Ows (w : List UInt8) : Prop := ∀ c ∈ w, c = sp ∨ c = htab

/-- The members behind the first one. -/
inductive MemberRest : List (List UInt8 × Value) → List UInt8 → Prop
  | nil {w : List UInt8} (ows : Ows w) : MemberRest [] w
  | cons {w₁ w₂ e r : List UInt8} {m : List UInt8 × Value} {ms : List (List UInt8 × Value)}
      (before : Ows w₁) (behind : Ows w₂) (member : Member m e) (rest : MemberRest ms r) :
      MemberRest (m :: ms) (w₁ ++ comma :: (w₂ ++ (e ++ r)))

/-- A field value that is a dictionary, with its members in the order of the text. -/
inductive Dictionary : List (List UInt8 × Value) → List UInt8 → Prop
  | empty (n : ℕ) : Dictionary [] (List.replicate n sp)
  | members (n : ℕ) {m : List UInt8 × Value} {ms : List (List UInt8 × Value)} {e r : List UInt8}
      (member : Member m e) (rest : MemberRest ms r) :
      Dictionary (m :: ms) (List.replicate n sp ++ (e ++ r))

/-! ## Classes of bytes -/

theorem sfdLcalpha_iff : sfdLcalpha c = true ↔ Lcalpha c := by
  simp [sfdLcalpha, Lcalpha]

theorem sfdDigit_iff : sfdDigit c = true ↔ Digit c := by
  simp [sfdDigit, Digit]

theorem sfdLcalpha_or (c : UInt8) :
    sfdLcalpha (c ||| 0x20) = ((0x41 ≤ c && c ≤ 0x5a) || sfdLcalpha c) := by
  have h : ∀ n < 256, sfdLcalpha (UInt8.ofNat n ||| 0x20) =
      ((0x41 ≤ UInt8.ofNat n && UInt8.ofNat n ≤ 0x5a) || sfdLcalpha (UInt8.ofNat n)) := by
    decide +kernel
  simpa only [UInt8.ofNat_toNat] using h c.toNat c.toNat_lt

theorem sfdLcalpha_or_iff : sfdLcalpha (c ||| 0x20) = true ↔ Alpha c := by
  rw [sfdLcalpha_or]
  simp [sfdLcalpha, Alpha]

theorem sfdKeyStart_iff : sfdKeyStart c = true ↔ Lcalpha c ∨ c = star := by
  simp [sfdKeyStart, sfdLcalpha_iff]

theorem sfdKeyChar_iff :
    sfdKeyChar c = true ↔ Lcalpha c ∨ Digit c ∨ c ∈ [0x5f, 0x2d, 0x2e, 0x2a] := by
  simp only [sfdKeyChar, sfdIn, Bool.or_eq_true, sfdLcalpha_iff, sfdDigit_iff,
    contains_iff_mem, or_assoc]

theorem sfdB64_iff : sfdB64 c = true ↔ Alpha c ∨ Digit c ∨ c ∈ [0x2b, 0x2f, 0x3d] := by
  simp only [sfdB64, sfdAlnum, sfdIn, Bool.or_eq_true, sfdLcalpha_or_iff, sfdDigit_iff,
    contains_iff_mem, or_assoc]

theorem sfdTokStart_iff : sfdTokStart c = true ↔ Alpha c ∨ c = star := by
  simp [sfdTokStart, sfdLcalpha_or_iff]

theorem sfdTokChar_iff : sfdTokChar c = true ↔ Tchar c ∨ c = 0x3a ∨ c = 0x2f := by
  simp only [sfdTokChar, sfdAlnum, sfdIn, Tchar, Bool.or_eq_true, sfdLcalpha_or_iff, sfdDigit_iff,
    contains_iff_mem, mem_cons, not_mem_nil, or_false,
    or_assoc]

theorem sfdEsc_iff : sfdEsc c = true ↔ c = dquote ∨ c = backslash := by
  simp [sfdEsc]

theorem sfdPrintable_iff : sfdPrintable c = true ↔ 0x20 ≤ c ∧ c ≤ 0x7e := by
  simp only [sfdPrintable, Bool.and_eq_true, decide_eq_true_eq, UInt8.lt_iff_toNat_lt,
    UInt8.le_iff_toNat_le]
  have h₁ : (0x7f : UInt8).toNat = 127 := rfl
  have h₂ : (0x7e : UInt8).toNat = 126 := rfl
  omega

theorem sfdTokChar_of_keyChar (c : UInt8) (h : sfdKeyChar c = true) : sfdTokChar c = true := by
  rw [sfdTokChar_iff, Tchar]
  obtain h | h | h := sfdKeyChar_iff.mp h
  · exact .inl (.inl (.inr h))
  · exact .inl (.inr (.inl h))
  · simp only [mem_cons, not_mem_nil, or_false] at h ⊢
    obtain rfl | rfl | rfl | rfl := h <;> simp

theorem sfdTokChar_of_digit (c : UInt8) (h : sfdDigit c = true) : sfdTokChar c = true :=
  sfdTokChar_iff.mpr (.inl (.inr (.inl (sfdDigit_iff.mp h))))

/-! ## Keys -/

theorem sfdKeyChar_of_keyStart (h : sfdKeyStart c = true) : sfdKeyChar c = true := by
  obtain h | rfl := sfdKeyStart_iff.mp h
  · exact sfdKeyChar_iff.mpr (.inl h)
  · rfl

theorem IsKey.keyChar (h : IsKey k) : ∀ c ∈ k, sfdKeyChar c = true := by
  obtain ⟨c, cs, rfl, hc, hcs⟩ := h
  refine forall_mem_cons.mpr ⟨?_, fun x hx => sfdKeyChar_iff.mpr (hcs x hx)⟩
  exact sfdKeyChar_of_keyStart (sfdKeyStart_iff.mpr hc)

theorem IsKey.start (h : IsKey k) : ∃ c cs, k = c :: cs ∧ sfdKeyStart c = true := by
  obtain ⟨c, cs, rfl, hc, -⟩ := h
  exact ⟨c, cs, rfl, sfdKeyStart_iff.mpr hc⟩

theorem isKey_takeWhile (hc : sfdKeyStart c = true) : IsKey ((c :: b).takeWhile sfdKeyChar) := by
  rw [takeWhile_cons_of_pos (sfdKeyChar_of_keyStart hc)]
  refine ⟨c, _, rfl, sfdKeyStart_iff.mp hc, ?_⟩
  intro x hx
  exact sfdKeyChar_iff.mp (mem_takeWhile_imp hx)

theorem sfdKey_apply (b : List UInt8) :
    sfdKey b = if b.head?.any sfdKeyStart then some (b.takeWhile sfdKeyChar, b.dropWhile sfdKeyChar)
      else none := by
  simp [sfdKey, sfdPeek]

theorem parses_sfdKey : Parses sfdKey (fun k e => k = e ∧ IsKey e) sfdKeyChar where
  sound := by
    intro b k rest h
    rw [sfdKey_apply] at h
    cases b with
    | nil => cases h
    | cons c b =>
      split at h
      · next hc =>
        obtain ⟨rfl, rfl⟩ := Prod.mk.inj (Option.some.inj h)
        exact ⟨_, takeWhile_append_dropWhile.symm, rfl, isKey_takeWhile hc⟩
      · cases h
  complete := by
    rintro e _ rest ⟨rfl, he⟩ hrest
    obtain ⟨c, cs, rfl, hc⟩ := he.start
    rw [sfdKey_apply, takeWhile_append_ends he.keyChar hrest, dropWhile_append_ends he.keyChar hrest]
    exact if_pos hc

/-! ## Numbers -/

theorem foldl_mod_eq (hd : ∀ c ∈ ds, Digit c) (v : ℕ) (h : (v + 1) * 10 ^ ds.length ≤ 2 ^ 64) :
    ds.foldl (fun val c => (val * 10 + (c.toNat - 0x30)) % 2 ^ 64) v =
      ds.foldl (fun val c => val * 10 + (c.toNat - 0x30)) v := by
  induction ds generalizing v with
  | nil => rfl
  | cons c ds ih =>
    obtain ⟨hc, hds⟩ := forall_mem_cons.mp hd
    have hc9 : c.toNat ≤ 0x39 := UInt8.le_iff_toNat_le.mp hc.2
    have hstep : v * 10 + (c.toNat - 0x30) + 1 ≤ (v + 1) * 10 := by omega
    have hle : (v * 10 + (c.toNat - 0x30) + 1) * 10 ^ ds.length ≤ 2 ^ 64 := by
      refine (Nat.mul_le_mul_right _ hstep).trans ?_
      rwa [Nat.mul_assoc, ← Nat.pow_succ']
    have hlt : v * 10 + (c.toNat - 0x30) < 2 ^ 64 :=
      (Nat.le_mul_of_pos_right _ (Nat.pow_pos (by omega))).trans hle
    rw [foldl_cons, foldl_cons, Nat.mod_eq_of_lt hlt, ih hds _ hle]

theorem sfdDigitsVal_eq (hd : ∀ c ∈ ds, Digit c) (h : ds.length ≤ 15) :
    sfdDigitsVal ds = digitsVal ds := by
  apply foldl_mod_eq hd
  have hpow : 10 ^ ds.length ≤ 10 ^ 15 := Nat.pow_le_pow_right (by omega) h
  omega

theorem digits_iff : (∀ c ∈ ds, sfdDigit c = true) ↔ ∀ c ∈ ds, Digit c :=
  forall₂_congr fun _ _ => sfdDigit_iff

theorem parses_sfdDecimal (n : ℕ) :
    Parses (sfdDecimal n) (fun v fs => n ≤ 12 ∧ v = .other ∧ (∀ c ∈ fs, Digit c) ∧
      1 ≤ fs.length ∧ fs.length ≤ 3) sfdTokChar := by
  have hguard (fs : List UInt8) : Parses (if n ≤ 12 && 1 ≤ fs.length && fs.length ≤ 3 then
      pure SfieldItem.other else failure) _ sfdTokChar := Parses.guard _ _
  have hp := (Parses.span sfdDigit).bind hguard (by
    rintro fs v e rest ⟨-, -, rfl⟩ hrest
    exact hrest.mono sfdTokChar_of_digit)
  refine Parses.congr (p := sfdDecimal n) hp fun v e => ?_
  simp only [Bool.and_eq_true, decide_eq_true_eq, digits_iff]
  constructor
  · rintro ⟨fs, e₁, e₂, rfl, ⟨rfl, hfs⟩, hn, rfl, rfl⟩
    rw [append_nil]
    exact ⟨hn.1.1, rfl, hfs, hn.1.2, hn.2⟩
  · rintro ⟨h12, rfl, hfs, h1, h3⟩
    exact ⟨e, e, [], (append_nil e).symm, ⟨rfl, hfs⟩, ⟨⟨h12, h1⟩, h3⟩, rfl, rfl⟩

def afterDigits (neg : Bool) (ds : List UInt8) : SfieldIter SfieldItem := do
  if ← sfdEat dot then sfdDecimal ds.length
  else if ds.length ≤ 15 then pure (.integer neg (sfdDigitsVal ds))
  else failure

theorem sfdNumber_apply (b : List UInt8) :
    sfdNumber b = (Parser.eat minus b).bind fun r =>
      if r.2.takeWhile sfdDigit = [] then none
      else afterDigits r.1 (r.2.takeWhile sfdDigit) (r.2.dropWhile sfdDigit) := by
  simp only [sfdNumber, sfdDigits, sfdEat, afterDigits, Parser.bind_apply, Parser.ite_apply,
    Parser.span_apply, Parser.pure_apply, Option.bind_some, beq_iff_eq, length_eq_zero_iff,
    Parser.failure_apply]

theorem parses_afterDigits (neg : Bool) (ds : List UInt8) :
    Parses (afterDigits neg ds) (fun v e =>
      (∃ fs, e = dot :: fs ∧ ds.length ≤ 12 ∧ v = .other ∧ (∀ c ∈ fs, Digit c) ∧
        1 ≤ fs.length ∧ fs.length ≤ 3) ∨
      (ds.length ≤ 15 ∧ v = .integer neg (sfdDigitsVal ds) ∧ e = [])) sfdTokChar := by
  refine (parses_sfdDecimal ds.length).eat (Parses.guard _ _) rfl ?_
  rintro v e ⟨-, -, rfl⟩
  exact Option.some_ne_none dot ∘ Eq.symm

theorem number_of_afterDigits {neg : Bool} (hne : b.takeWhile sfdDigit ≠ [])
    (h : afterDigits neg (b.takeWhile sfdDigit) (b.dropWhile sfdDigit) = some (v, rest)) :
    ∃ e w, b = e ++ rest ∧ Number w (sign neg ++ e) ∧ w.item = v := by
  have hd : ∀ c ∈ b.takeWhile sfdDigit, Digit c := fun c hc =>
    sfdDigit_iff.mp (mem_takeWhile_imp hc)
  have hpos := length_pos_iff.mpr hne
  obtain ⟨e, he, hcase⟩ := (parses_afterDigits neg _).sound h
  have hb : b = b.takeWhile sfdDigit ++ e ++ rest := by
    rw [append_assoc, ← he, takeWhile_append_dropWhile]
  obtain ⟨fs, rfl, h12, rfl, hfs, hf⟩ | ⟨h15, rfl, rfl⟩ := hcase
  · exact ⟨_, .decimal, hb, .decimal neg hd ⟨hpos, h12⟩ hfs hf, rfl⟩
  · rw [append_nil] at hb
    refine ⟨_, _, hb, .integer neg hd ⟨hpos, h15⟩, ?_⟩
    rw [sfdDigitsVal_eq hd h15]
    rfl

theorem eat_sign (neg : Bool) (h : b.head? ≠ some minus) :
    Parser.eat minus (sign neg ++ b) = some (neg, b) := by
  cases neg with
  | true => exact Parser.eat_cons_self minus b
  | false => exact Parser.eat_of_head_ne h

theorem head_digits_ne (hd : ∀ c ∈ ds, Digit c) (hpos : 1 ≤ ds.length) :
    (ds ++ b).head? ≠ some minus := by
  cases ds with
  | nil => cases hpos
  | cons c ds =>
    intro h
    have hc : Digit c := hd c (mem_cons_self ..)
    rw [cons_append, head?_cons, Option.some.injEq] at h
    rw [h] at hc
    exact absurd hc.1 (by decide)

theorem sfdNumber_sign (neg : Bool) (hd : ∀ c ∈ ds, Digit c) (hpos : 1 ≤ ds.length)
    (he : Ends sfdDigit (e ++ rest)) (h : afterDigits neg ds (e ++ rest) = some (v, rest)) :
    sfdNumber (sign neg ++ (ds ++ e) ++ rest) = some (v, rest) := by
  have hd' := digits_iff.mpr hd
  rw [sfdNumber_apply, append_assoc, append_assoc, eat_sign neg (head_digits_ne hd hpos),
    Option.bind_some, takeWhile_append_ends hd' he, dropWhile_append_ends hd' he,
    if_neg (length_pos_iff.mp hpos)]
  exact h

theorem parses_sfdNumber :
    Parses sfdNumber (fun v e => ∃ w, Number w e ∧ w.item = v) sfdTokChar where
  sound := by
    intro b v rest h
    rw [sfdNumber_apply] at h
    obtain ⟨⟨neg, r⟩, heat, h⟩ := Option.bind_eq_some_iff.mp h
    have hb : b = sign neg ++ r := by
      obtain ⟨r', rfl, he⟩ | ⟨-, he⟩ := Parser.eat_cases minus b <;>
        obtain ⟨rfl, rfl⟩ := Prod.mk.inj (Option.some.inj (he.symm.trans heat)) <;> rfl
    split at h
    · cases h
    rename_i hne
    obtain ⟨e, w, rfl, hw, hv⟩ := number_of_afterDigits hne h
    exact ⟨sign neg ++ e, by rw [hb, append_assoc], w, hw, hv⟩
  complete := by
    rintro e _ rest ⟨w, hw, rfl⟩ hrest
    have hdigit := hrest.mono sfdTokChar_of_digit
    cases hw with
    | @integer neg ds hd hcount =>
      have h := (parses_afterDigits neg ds).complete (.inr ⟨hcount.2, rfl, rfl⟩) hrest
      have hnum := sfdNumber_sign (e := []) neg hd hcount.1 hdigit h
      rwa [append_nil, sfdDigitsVal_eq hd hcount.2] at hnum
    | @decimal neg ds fs hd hcount hf hfcount =>
      refine sfdNumber_sign neg hd hcount.1 (ends_cons.mpr rfl) ?_
      exact (parses_afterDigits neg ds).complete
        (.inl ⟨fs, rfl, hcount.2, rfl, hf, hfcount⟩) hrest

/-! ## Strings, byte sequences, tokens and Booleans -/

theorem sfdStrStep_cons (c : UInt8) (b : List UInt8) :
    sfdStrStep (c :: b) =
      if c = dquote then some (true, b)
      else if c = backslash then if b.head?.any sfdEsc then some (false, b.tail) else none
      else if sfdPrintable c then some (false, b)
      else none := by
  simp [sfdStrStep, sfdTake]

theorem sfdStrStep_cases {done : Bool} (h : sfdStrStep b = some (done, r)) :
    (done = true ∧ b = dquote :: r) ∨
      (done = false ∧ ((∃ c, b = backslash :: c :: r ∧ sfdEsc c = true) ∨
        ∃ c, b = c :: r ∧ c ≠ dquote ∧ c ≠ backslash ∧ sfdPrintable c = true)) := by
  cases b with
  | nil => cases h
  | cons c b =>
    rw [sfdStrStep_cons] at h
    split_ifs at h with hquote hback hesc hprint
    · obtain ⟨rfl, rfl⟩ := Prod.mk.inj (Option.some.inj h)
      exact .inl ⟨rfl, by rw [hquote]⟩
    · obtain ⟨rfl, rfl⟩ := Prod.mk.inj (Option.some.inj h)
      cases b with
      | nil => cases hesc
      | cons x b => exact .inr ⟨rfl, .inl ⟨x, by rw [hback]; rfl, hesc⟩⟩
    · obtain ⟨rfl, rfl⟩ := Prod.mk.inj (Option.some.inj h)
      exact .inr ⟨rfl, .inr ⟨c, rfl, hquote, hback, hprint⟩⟩

theorem sfdStrStep_lt (h : sfdStrStep b = some (false, r)) : r.length < b.length := by
  obtain ⟨hd, -⟩ | ⟨-, ⟨c, rfl, -⟩ | ⟨c, rfl, -⟩⟩ := sfdStrStep_cases h
  · cases hd
  · simp only [length_cons]
    omega
  · exact Nat.lt_succ_self _

theorem parses_stringBody (stop : UInt8 → Bool) :
    Parses (Parser.untilDone sfdStrStep) (fun _ e => ∃ cs, e = cs ++ [dquote] ∧ StringBody cs)
      stop where
  sound := by
    intro b
    induction hn : b.length using Nat.strong_induction_on generalizing b with
    | _ n ih =>
      intro v rest h
      rw [Parser.untilDone_eq sfdStrStep_lt] at h
      obtain ⟨⟨done, r⟩, hstep, h⟩ := Option.bind_eq_some_iff.mp h
      obtain ⟨rfl, rfl⟩ | ⟨rfl, hcont⟩ := sfdStrStep_cases hstep
      · obtain rfl : r = rest := (Prod.mk.inj (Option.some.inj h)).2
        exact ⟨[dquote], rfl, [], rfl, .nil⟩
      · obtain ⟨e, rfl, cs, rfl, hcs⟩ := ih r.length (hn ▸ sfdStrStep_lt hstep) rfl h
        obtain ⟨c, rfl, hc⟩ | ⟨c, rfl, hquote, hback, hc⟩ := hcont
        · exact ⟨_, rfl, backslash :: c :: cs, rfl, .escaped (sfdEsc_iff.mp hc) hcs⟩
        · exact ⟨_, rfl, c :: cs, rfl, .unescaped (sfdPrintable_iff.mp hc) ⟨hquote, hback⟩ hcs⟩
  complete := by
    rintro _ v rest ⟨cs, rfl, hcs⟩ hrest
    induction hcs with
    | nil => rfl
    | @unescaped c cs hc hplain hcs ih =>
      have hstep : sfdStrStep (c :: (cs ++ [dquote] ++ rest)) =
          some (false, cs ++ [dquote] ++ rest) := by
        simp [sfdStrStep, sfdTake, hplain.1, hplain.2, sfdPrintable_iff.mpr hc]
      rw [Parser.untilDone_eq sfdStrStep_lt, cons_append, cons_append, hstep]
      exact ih
    | @escaped c cs hc hcs ih =>
      have hstep : sfdStrStep (backslash :: c :: (cs ++ [dquote] ++ rest)) =
          some (false, cs ++ [dquote] ++ rest) := by
        have hne : backslash ≠ dquote := by decide
        simp [sfdStrStep, sfdTake, hne, sfdEsc_iff.mpr hc]
      rw [Parser.untilDone_eq sfdStrStep_lt, cons_append, cons_append, cons_append,
        cons_append, hstep]
      exact ih

/-! ## Bare items -/

theorem sfdBare_number (h : c = minus ∨ sfdDigit c = true) (b : List UInt8) :
    sfdBare (c :: b) = sfdNumber (c :: b) := by
  simp only [sfdBare, sfdPeek, Parser.bind_apply, Parser.peek_apply, Option.bind_some,
    Parser.ite_apply]
  exact if_pos (by simpa using h)

theorem sfdBare_dquote (b : List UInt8) :
    sfdBare (dquote :: b) =
      (Parser.untilDone sfdStrStep b).bind fun r => some (.other, r.2) := rfl

theorem sfdBare_colon (b : List UInt8) :
    sfdBare (colon :: b) =
      (Parser.eat colon (b.dropWhile sfdB64)).bind fun r =>
        if r.1 then some (.other, r.2) else none := by
  have h : sfdBare (colon :: b) = ((Parser.eat colon (b.dropWhile sfdB64)).bind fun r =>
      (if r.1 then pure () else failure : SfieldIter Unit) r.2).bind fun r =>
        some (SfieldItem.other, r.2) := rfl
  rw [h]
  obtain ⟨r, -, heat⟩ | ⟨-, heat⟩ := Parser.eat_cases colon (b.dropWhile sfdB64) <;>
    rw [heat] <;> rfl

def bareStart (c : UInt8) : Prop :=
  (c = minus ∨ sfdDigit c = true) ∨ c = question ∨ c = dquote ∨ c = colon ∨ sfdTokStart c = true

theorem sfdBare_start {r : SfieldItem × List UInt8} (h : sfdBare b = some r) :
    ∃ c cs, b = c :: cs ∧ bareStart c := by
  cases b with
  | nil => cases h
  | cons c cs =>
    refine ⟨c, cs, rfl, ?_⟩
    by_contra hc
    simp only [bareStart, not_or] at hc
    obtain ⟨⟨hminus, hdigit⟩, hquestion, hdquote, hcolon, htok⟩ := hc
    have hnone : sfdBare (c :: cs) = none := by
      simp [sfdBare, sfdBareOther, sfdBareText, sfdPeek, sfdToken, hminus, hdigit, hquestion,
        hdquote, hcolon, htok]
    rw [hnone] at h
    cases h

theorem Number.start {w : Value} (h : Number w e) :
    ∃ c cs, e = c :: cs ∧ (c = minus ∨ sfdDigit c = true) := by
  have hsign (neg : Bool) {ds r : List UInt8} (hd : ∀ c ∈ ds, Digit c) (hpos : 1 ≤ ds.length) :
      ∃ c cs, sign neg ++ (ds ++ r) = c :: cs ∧ (c = minus ∨ sfdDigit c = true) := by
    cases neg with
    | true => exact ⟨minus, _, rfl, .inl rfl⟩
    | false =>
      cases ds with
      | nil => cases hpos
      | cons c ds => exact ⟨c, _, rfl, .inr (sfdDigit_iff.mpr (hd c (mem_cons_self ..)))⟩
  cases h with
  | integer neg hd hcount => simpa using hsign (r := []) neg hd hcount.1
  | decimal neg hd hcount => exact hsign neg hd hcount.1

theorem BareItem.start {w : Value} (h : BareItem w e) : ∃ c cs, e = c :: cs ∧ bareStart c := by
  cases h with
  | number hnum =>
    obtain ⟨c, cs, rfl, hc⟩ := hnum.start
    exact ⟨c, cs, rfl, .inl hc⟩
  | string hbody => exact ⟨dquote, _, rfl, .inr (.inr (.inl rfl))⟩
  | @token c cs hstart hcs =>
    exact ⟨c, cs, rfl, .inr (.inr (.inr (.inr (sfdTokStart_iff.mpr hstart))))⟩
  | byteSequence hb64 => exact ⟨colon, _, rfl, .inr (.inr (.inr (.inl rfl)))⟩
  | boolean b => exact ⟨question, _, rfl, .inr (.inl rfl)⟩

theorem sfdBool_sound (h : sfdBool (question :: b) = some (v, rest)) :
    ∃ t : Bool, b = (if t then 0x31 else 0x30) :: rest ∧ v = .boolean t := by
  simp only [sfdBool, sfdTake, Parser.bind_apply, Parser.take_apply, Option.bind_some,
    Parser.ite_apply, Parser.pure_apply, Parser.failure_apply, tail_cons,
    Option.ite_none_right_eq_some, Option.some.injEq, Prod.mk.injEq] at h
  obtain ⟨hc, rfl, rfl⟩ := h
  cases b with
  | nil => cases hc
  | cons c b =>
    simp only [head?_cons, Bool.or_eq_true, beq_iff_eq, Option.some.injEq] at hc
    obtain rfl | rfl := hc
    · exact ⟨false, rfl, rfl⟩
    · exact ⟨true, rfl, rfl⟩

section

variable (h : sfdTokStart c = true)
include h

theorem sfdTokStart_ne {d : UInt8} (hd : sfdTokStart d = false) : c ≠ d := by
  rintro rfl
  rw [h] at hd
  cases hd

theorem sfdDigit_of_tokStart : sfdDigit c = false := by
  rw [Bool.eq_false_iff, Ne, sfdDigit_iff]
  rintro ⟨hlo, hhi⟩
  obtain (⟨ha, -⟩ | ⟨ha, -⟩) | rfl := sfdTokStart_iff.mp h
  · exact absurd (UInt8.le_trans ha hhi) (by decide)
  · exact absurd (UInt8.le_trans ha hhi) (by decide)
  · exact absurd hlo (by decide)

theorem sfdBare_token (b : List UInt8) :
    sfdBare (c :: b) = some (.other, (c :: b).dropWhile sfdTokChar) := by
  have hminus : c ≠ minus := sfdTokStart_ne h rfl
  have hquestion : c ≠ question := sfdTokStart_ne h rfl
  have hdquote : c ≠ dquote := sfdTokStart_ne h rfl
  have hcolon : c ≠ colon := sfdTokStart_ne h rfl
  have hbare : sfdBare (c :: b) = (sfdToken (c :: b)).map fun r => (.other, r.2) := by
    simp [sfdBare, sfdBareOther, sfdBareText, sfdPeek, sfdDigit_of_tokStart h, hminus, hquestion,
      hdquote, hcolon]
  rw [hbare]
  simp [sfdToken, sfdPeek, h]

theorem bareItem_token : BareItem .token ((c :: b).takeWhile sfdTokChar) := by
  have hc : sfdTokChar c = true := by
    obtain h | rfl := sfdTokStart_iff.mp h
    · exact sfdTokChar_iff.mpr (.inl (.inl h))
    · rfl
  rw [takeWhile_cons_of_pos hc]
  refine .token (sfdTokStart_iff.mp h) ?_
  intro x hx
  exact sfdTokChar_iff.mp (mem_takeWhile_imp hx)

end

theorem parses_sfdBare :
    Parses sfdBare (fun v e => ∃ w, BareItem w e ∧ w.item = v) sfdTokChar where
  sound := by
    intro b v rest h
    obtain ⟨c, b, rfl, hnum | rfl | rfl | rfl | htok⟩ := sfdBare_start h
    · rw [sfdBare_number hnum] at h
      obtain ⟨e, he, w, hw, hv⟩ := parses_sfdNumber.sound h
      exact ⟨e, he, w, .number hw, hv⟩
    · obtain ⟨t, rfl, rfl⟩ := sfdBool_sound h
      exact ⟨_, rfl, _, .boolean t, rfl⟩
    · obtain ⟨⟨u, r⟩, hb, h⟩ := Option.bind_eq_some_iff.mp h
      obtain ⟨rfl, rfl⟩ := Prod.mk.inj (Option.some.inj h)
      obtain ⟨e, rfl, cs, rfl, hcs⟩ := (parses_stringBody sfdTokChar).sound hb
      exact ⟨_, rfl, _, .string hcs, rfl⟩
    · rw [sfdBare_colon] at h
      obtain ⟨r, hr, heat⟩ | ⟨-, heat⟩ := Parser.eat_cases colon (b.dropWhile sfdB64)
      · rw [heat] at h
        obtain ⟨rfl, rfl⟩ := Prod.mk.inj (Option.some.inj h)
        refine ⟨colon :: (b.takeWhile sfdB64 ++ [colon]), ?_, _, .byteSequence ?_, rfl⟩
        · rw [cons_append, append_assoc, singleton_append, ← hr, takeWhile_append_dropWhile]
        · exact fun x hx => sfdB64_iff.mp (mem_takeWhile_imp hx)
      · rw [heat] at h
        cases h
    · rw [sfdBare_token htok] at h
      obtain ⟨rfl, rfl⟩ := Prod.mk.inj (Option.some.inj h)
      exact ⟨_, takeWhile_append_dropWhile.symm, _, bareItem_token htok, rfl⟩
  complete := by
    rintro e _ rest ⟨w, hw, rfl⟩ hrest
    cases hw with
    | number hnum =>
      obtain ⟨c, cs, rfl, hc⟩ := hnum.start
      rw [cons_append, sfdBare_number hc]
      exact parses_sfdNumber.complete ⟨w, hnum, rfl⟩ hrest
    | @string cs hbody =>
      have hstr := (parses_stringBody sfdTokChar).complete (v := ()) ⟨cs, rfl, hbody⟩ hrest
      rw [cons_append, sfdBare_dquote, hstr]
      rfl
    | @token c cs hstart hcs =>
      have hc := sfdTokStart_iff.mpr hstart
      have hrun : ∀ x ∈ c :: cs, sfdTokChar x = true := by
        refine forall_mem_cons.mpr ⟨?_, fun x hx => sfdTokChar_iff.mpr (hcs x hx)⟩
        obtain h | rfl := hstart
        · exact sfdTokChar_iff.mpr (.inl (.inl h))
        · rfl
      rw [cons_append, sfdBare_token hc, ← cons_append, dropWhile_append_ends hrun hrest]
      rfl
    | @byteSequence cs hb64 =>
      have hends : Ends sfdB64 ([colon] ++ rest) := ends_cons.mpr rfl
      have hcs : ∀ x ∈ cs, sfdB64 x = true := fun x hx => sfdB64_iff.mpr (hb64 x hx)
      rw [cons_append, append_assoc, sfdBare_colon, dropWhile_append_ends hcs hends,
        singleton_append, Parser.eat_cons_self]
      rfl
    | boolean b => cases b <;> rfl

end Sfield

end Wired.Http3
