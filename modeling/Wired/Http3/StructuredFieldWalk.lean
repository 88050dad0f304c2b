import Wired.Http3.StructuredFieldGrammar

/-!
# The walk over an sf-dictionary

The dictionary parser accepts exactly the dictionaries of the grammar, and gives their members
(`sfieldDictWalk_spec`). The proof follows the parser from the parameters up: for each of its
functions, the language it parses and the bytes with which a word of that language could go on.
Behind a parameter that is a token byte or `=`; behind everything larger also the `;` of one more
parameter.
-/

namespace Wired.Http3

open Lib List Option

variable {e b r it s : List UInt8} {c : UInt8} {w : Value} {m : List UInt8 × Value}
variable {i : List UInt8 × SfieldItem}

namespace Sfield

/-- The bytes with which a parameter could go on. -/
def paramChar (c : UInt8) : Bool := sfdTokChar c || c == equals

/-- The bytes with which an item, a value or a member could go on. -/
def wordChar (c : UInt8) : Bool := paramChar c || c == semicolon

theorem paramChar_of_tokChar (c : UInt8) (h : sfdTokChar c = true) : paramChar c = true := by
  rw [paramChar, h]
  rfl

theorem wordChar_of_paramChar (c : UInt8) (h : paramChar c = true) : wordChar c = true := by
  rw [wordChar, h]
  rfl

theorem wordChar_of_tokChar (c : UInt8) (h : sfdTokChar c = true) : wordChar c = true :=
  wordChar_of_paramChar c (paramChar_of_tokChar c h)

/-! ## Parameters and items -/

theorem parses_sfdSkip (set : List UInt8) :
    Parses (sfdSkip set) (fun _ e => ∀ c ∈ e, c ∈ set) (sfdIn · set) := by
  refine ((Parses.span (sfdIn · set)).map fun _ => ()).congr fun v e => ?_
  simp [sfdIn]

theorem forall_mem_sp : (∀ c ∈ e, c ∈ [sp]) ↔ ∃ n, e = List.replicate n sp := by
  constructor
  · intro h
    exact ⟨e.length, eq_replicate_iff.mpr ⟨rfl, fun c hc => mem_singleton.mp (h c hc)⟩⟩
  · rintro ⟨n, rfl⟩ c hc
    exact mem_singleton.mpr (eq_of_mem_replicate hc)

theorem parses_paramValue :
    Parses (do if ← sfdEat equals then (do let _ ← sfdBare; pure ()) else pure ())
      (fun _ e => (∃ e' v, e = equals :: e' ∧ BareItem v e') ∨ e = []) paramChar := by
  have hval := (parses_sfdBare.mono paramChar_of_tokChar).map fun _ => ()
  refine (hval.eat (Parses.of_pure ()) rfl ?_).congr fun v e => ?_
  · rintro v e ⟨-, rfl⟩
    exact some_ne_none equals ∘ Eq.symm
  constructor
  · rintro (⟨e', rfl, -, -, w, hw, -⟩ | ⟨-, rfl⟩)
    · exact .inl ⟨e', w, rfl, hw⟩
    · exact .inr rfl
  · rintro (⟨e', w, rfl, hw⟩ | rfl)
    · exact .inl ⟨e', rfl, w.item, rfl, w, hw, rfl⟩
    · exact .inr ⟨rfl, rfl⟩

theorem IsKey.ends_sp {k : List UInt8} (hk : IsKey k) (rest : List UInt8) :
    Ends (sfdIn · [sp]) (k ++ rest) := by
  obtain ⟨c, cs, rfl, hc⟩ := hk.start
  refine ends_cons.mpr (Bool.eq_false_iff.mpr fun h => ?_)
  rw [mem_singleton.mp (contains_iff_mem.mp h)] at hc
  cases hc

theorem parses_sfdParam : Parses sfdParam (fun _ => Parameter) paramChar := by
  have hkey := parses_sfdKey.bind (fun _ => parses_paramValue) (by
    rintro - - e rest (⟨e, v, rfl, -⟩ | rfl) hrest
    · exact ends_cons.mpr rfl
    · exact hrest.mono fun c hc => paramChar_of_tokChar c (sfdTokChar_of_keyChar c hc))
  have hparam := (parses_sfdSkip [sp]).bind (fun _ => hkey) (by
    rintro - - e rest ⟨k, e₁, e₂, rfl, ⟨rfl, hk⟩, -⟩ -
    rw [append_assoc]
    exact hk.ends_sp _)
  refine hparam.congr fun u e => ?_
  constructor
  · rintro ⟨-, e₁, -, rfl, hsp, k, e₂, e₃, rfl, ⟨rfl, hk⟩, htail⟩
    obtain ⟨n, rfl⟩ := forall_mem_sp.mp hsp
    obtain ⟨e', v, rfl, hv⟩ | rfl := htail
    · exact .valued n hk hv
    · rw [append_nil]
      exact .flag n hk
  · rintro (⟨n, hk⟩ | ⟨n, hk, hv⟩)
    · refine ⟨(), _, _, rfl, forall_mem_sp.mpr ⟨n, rfl⟩, _, _, [], ?_, ⟨rfl, hk⟩, .inr rfl⟩
      rw [append_nil]
    · exact ⟨(), _, _, rfl, forall_mem_sp.mpr ⟨n, rfl⟩, _, _, _, rfl, ⟨rfl, hk⟩,
        .inl ⟨_, _, rfl, hv⟩⟩

theorem parses_sfdParams : Parses sfdParams (fun _ => Parameters) wordChar :=
  parses_sfdParam.whileEat wordChar_of_paramChar rfl rfl

theorem Parameters.ends_append {stop : UInt8 → Bool} {rest : List UInt8} (h : Parameters e)
    (hle : ∀ c, stop c = true → wordChar c = true) (hsemi : stop semicolon = false)
    (hrest : Ends wordChar rest) : Ends stop (e ++ rest) :=
  (Many.ends h hsemi).append (hrest.mono hle)

theorem parses_sfdItem : Parses sfdItem (fun v e => ∃ w, Item w e ∧ w.item = v) wordChar := by
  have hp := parses_sfdBare.bind (fun v => parses_sfdParams.map fun _ => v) (by
    rintro v w e rest ⟨-, -, he⟩ hrest
    exact Parameters.ends_append he wordChar_of_tokChar rfl hrest)
  refine hp.congr fun v e => ?_
  constructor
  · rintro ⟨-, e₁, e₂, rfl, ⟨w, hw, rfl⟩, -, rfl, hps⟩
    exact ⟨w, ⟨e₁, e₂, rfl, hw, hps⟩, rfl⟩
  · rintro ⟨w, ⟨e₁, e₂, rfl, hw, hps⟩, rfl⟩
    exact ⟨w.item, e₁, e₂, rfl, ⟨w, hw, rfl⟩, (), rfl, hps⟩

/-! ## Inner lists -/

theorem not_bareStart (h : c ∈ [sp, rparen, lparen]) : ¬ bareStart c := by
  simp only [mem_cons, not_mem_nil, or_false] at h
  unfold bareStart
  obtain rfl | rfl | rfl := h <;> decide

theorem Item.start (h : Item w e) : ∃ c cs, e = c :: cs ∧ bareStart c := by
  obtain ⟨e₁, e₂, rfl, hw, -⟩ := h
  obtain ⟨c, cs, rfl, hc⟩ := hw.start
  exact ⟨c, cs ++ e₂, rfl, hc⟩

theorem Item.head_ne (h : Item w e) (hc : c ∈ [sp, rparen, lparen]) (rest : List UInt8) :
    (e ++ rest).head? ≠ some c := by
  obtain ⟨x, cs, rfl, hx⟩ := h.start
  intro he
  rw [cons_append, head?_cons, Option.some.injEq] at he
  exact not_bareStart hc (he ▸ hx)

theorem sfdInnerStep_cases {done : Bool} (h : sfdInnerStep b = some (done, r)) :
    ∃ n b', b = List.replicate n sp ++ b' ∧
      ((done = true ∧ b' = rparen :: r) ∨
        (done = false ∧ sfdInnerSep r.head? = true ∧ ∃ v e, b' = e ++ r ∧ Item v e)) := by
  rw [sfdInnerStep, Parser.bind_apply] at h
  obtain ⟨⟨_, b'⟩, hskip, hstep⟩ := bind_eq_some_iff.mp h
  obtain ⟨e₀, rfl, hsp⟩ := (parses_sfdSkip [sp]).sound hskip
  obtain ⟨n, rfl⟩ := forall_mem_sp.mp hsp
  refine ⟨n, b', rfl, ?_⟩
  rw [Parser.bind_apply, sfdEat] at hstep
  obtain ⟨r', rfl, heat⟩ | ⟨-, heat⟩ := Parser.eat_cases rparen b'
  · obtain ⟨rfl, rfl⟩ := Prod.mk.inj (Option.some.inj hstep)
    exact .inl ⟨rfl, rfl⟩
  · rw [heat, bind_some, if_neg Bool.false_ne_true, Parser.bind_apply] at hstep
    obtain ⟨⟨_, r'⟩, hitem, hsep⟩ := bind_eq_some_iff.mp hstep
    obtain ⟨e, rfl, w, hw, -⟩ := parses_sfdItem.sound hitem
    simp only [sfdPeek, Parser.bind_apply, Parser.peek_apply, bind_some, Parser.ite_apply,
      Parser.pure_apply, Parser.failure_apply, ite_none_right_eq_some, Option.some.injEq,
      Prod.mk.injEq] at hsep
    obtain ⟨hsep, rfl, rfl⟩ := hsep
    exact .inr ⟨rfl, hsep, w, e, rfl, hw⟩

theorem sfdInnerStep_lt (h : sfdInnerStep b = some (false, r)) : r.length < b.length := by
  obtain ⟨n, b', rfl, ⟨hd, -⟩ | ⟨-, -, v, e, rfl, he⟩⟩ := sfdInnerStep_cases h
  · cases hd
  · obtain ⟨c, cs, rfl, -⟩ := he.start
    simp only [length_append, length_cons]
    omega

theorem sfdSkip_replicate (n : ℕ) (h : b.head? ≠ some sp) :
    sfdSkip [sp] (List.replicate n sp ++ b) = some ((), b) := by
  refine (parses_sfdSkip [sp]).complete (forall_mem_sp.mpr ⟨n, rfl⟩) ?_
  intro c hc
  refine Bool.eq_false_iff.mpr fun hin => h ?_
  rw [← mem_singleton.mp (contains_iff_mem.mp hin)]
  exact hc

theorem sfdInnerStep_close (n : ℕ) (r : List UInt8) :
    sfdInnerStep (List.replicate n sp ++ rparen :: r) = some (true, r) := by
  have hne : (rparen :: r).head? ≠ some sp := by
    rw [head?_cons]
    decide
  rw [sfdInnerStep, Parser.bind_apply, sfdSkip_replicate n hne]
  rfl

theorem sfdInnerSep_iff {c : Option UInt8} :
    sfdInnerSep c = true ↔ c = some sp ∨ c = some rparen := by
  simp [sfdInnerSep]

theorem sfdInnerStep_item (n : ℕ) (he : Item w e) (hr : sfdInnerSep r.head? = true) :
    sfdInnerStep (List.replicate n sp ++ (e ++ r)) = some (false, r) := by
  have hends : Ends wordChar r := by
    intro c hc
    obtain h | h := sfdInnerSep_iff.mp hr <;> rw [Option.mem_unique hc h] <;> rfl
  have hitem := parses_sfdItem.complete ⟨w, he, rfl⟩ hends
  rw [sfdInnerStep, Parser.bind_apply, sfdSkip_replicate n (he.head_ne (by decide) r),
    bind_some, Parser.bind_apply, sfdEat,
    Parser.eat_of_head_ne (he.head_ne (by decide) r), bind_some,
    if_neg Bool.false_ne_true, Parser.bind_apply, hitem]
  simp [sfdPeek, hr]

theorem InnerRest.sep (h : InnerRest e) (rest : List UInt8) :
    sfdInnerSep (e ++ rest).head? = true := by
  cases h with
  | close n => cases n <;> rfl
  | item n he hr => rfl

theorem InnerBody.rest {rest : List UInt8} (h : InnerBody e)
    (hsep : sfdInnerSep (e ++ rest).head? = true) : InnerRest e := by
  cases h with
  | empty n => exact .close n
  | @item n w e r he hr =>
    cases n with
    | succ n => exact .item n he hr
    | zero =>
      rw [replicate_zero, nil_append, append_assoc] at hsep
      obtain hc | hc := sfdInnerSep_iff.mp hsep
      · exact absurd hc (he.head_ne (by decide) _)
      · exact absurd hc (he.head_ne (by decide) _)

theorem untilDone_innerRest (h : InnerRest e) (rest : List UInt8) :
    Parser.untilDone sfdInnerStep (e ++ rest) = some ((), rest) := by
  induction h with
  | close n =>
    rw [append_assoc, singleton_append, Parser.untilDone_eq sfdInnerStep_lt, sfdInnerStep_close]
    rfl
  | item n he hr ih =>
    rw [append_assoc, append_assoc, Parser.untilDone_eq sfdInnerStep_lt,
      sfdInnerStep_item _ he (hr.sep rest)]
    exact ih

theorem parses_innerBody (stop : UInt8 → Bool) :
    Parses (Parser.untilDone sfdInnerStep) (fun _ => InnerBody) stop where
  sound := by
    intro b
    induction hn : b.length using Nat.strong_induction_on generalizing b with
    | _ n ih =>
      intro v rest h
      rw [Parser.untilDone_eq sfdInnerStep_lt] at h
      obtain ⟨⟨done, r⟩, hstep, hloop⟩ := bind_eq_some_iff.mp h
      have hlt : done = false → r.length < b.length := by
        rintro rfl
        exact sfdInnerStep_lt hstep
      obtain ⟨k, b', rfl, ⟨rfl, rfl⟩ | ⟨rfl, hsep, w, e, rfl, he⟩⟩ := sfdInnerStep_cases hstep
      · obtain rfl : r = rest := (Prod.mk.inj (Option.some.inj hloop)).2
        exact ⟨_, by simp, .empty k⟩
      · obtain ⟨e', rfl, he'⟩ := ih r.length (hn ▸ hlt rfl) rfl hloop
        exact ⟨_, by simp, .item k he (he'.rest hsep)⟩
  complete := by
    intro e v rest he hrest
    cases he with
    | empty n => exact untilDone_innerRest (.close n) rest
    | item n he hr =>
      rw [append_assoc, append_assoc, Parser.untilDone_eq sfdInnerStep_lt,
        sfdInnerStep_item n he (hr.sep rest)]
      exact untilDone_innerRest hr rest

/-! ## Members -/

theorem sfdValue_apply (b : List UInt8) :
    sfdValue b = if b.head? = some lparen then sfdInner b else sfdItem b := by
  simp [sfdValue, sfdPeek]

theorem parses_sfdInner :
    Parses (do Parser.untilDone sfdInnerStep; sfdParams; pure SfieldItem.other)
      (fun v e => v = .other ∧ ∃ e₁ e₂, e = e₁ ++ e₂ ∧ InnerBody e₁ ∧ Parameters e₂) wordChar := by
  have hp := (parses_innerBody fun _ => false).bind
    (fun _ => parses_sfdParams.map fun _ => SfieldItem.other) (by
      intro _ _ e rest _ _ c _
      rfl)
  refine hp.congr fun v e => ?_
  constructor
  · rintro ⟨-, e₁, e₂, rfl, he, -, rfl, hps⟩
    exact ⟨rfl, e₁, e₂, rfl, he, hps⟩
  · rintro ⟨rfl, e₁, e₂, rfl, he, hps⟩
    exact ⟨(), e₁, e₂, rfl, he, (), rfl, hps⟩

theorem sfdInner_cons (c : UInt8) (b : List UInt8) :
    sfdInner (c :: b) =
      (do Parser.untilDone sfdInnerStep; sfdParams; pure SfieldItem.other : SfieldIter _) b := rfl

theorem parses_sfdValue :
    Parses sfdValue (fun v e => ∃ w, MemberValue w e ∧ w.item = v) wordChar where
  sound := by
    intro b v rest h
    rw [sfdValue_apply] at h
    split at h
    · next hc =>
      obtain ⟨b, rfl⟩ := head?_eq_some_iff.mp hc
      obtain ⟨-, rfl, rfl, e₁, e₂, rfl, he, hps⟩ := parses_sfdInner.sound h
      exact ⟨_, rfl, _, .innerList he hps, rfl⟩
    · obtain ⟨e, rfl, w, hw, hv⟩ := parses_sfdItem.sound h
      exact ⟨e, rfl, w, .item hw, hv⟩
  complete := by
    rintro e _ rest ⟨w, hw, rfl⟩ hrest
    rw [sfdValue_apply]
    cases hw with
    | item hitem =>
      rw [if_neg (hitem.head_ne (by decide) rest)]
      exact parses_sfdItem.complete ⟨w, hitem, rfl⟩ hrest
    | innerList hbody hps =>
      rw [cons_append, head?_cons, if_pos rfl, sfdInner_cons]
      exact parses_sfdInner.complete ⟨rfl, _, _, rfl, hbody, hps⟩ hrest

theorem parses_sfdMember :
    Parses sfdMember (fun m e => ∃ v, Member (m.1, v) e ∧ v.item = m.2) wordChar := by
  have htail (k : List UInt8) := (parses_sfdValue.map fun v => (k, v)).eat
    (parses_sfdParams.map fun _ => (k, SfieldItem.boolean true)) (c := equals) rfl (by
      rintro m e ⟨-, -, hps⟩
      cases hps <;> simp [semicolon, equals])
  have hp := parses_sfdKey.bind htail (by
    rintro k m e rest (⟨e', rfl, -⟩ | ⟨-, -, hps⟩) hrest
    · exact ends_cons.mpr rfl
    · exact Parameters.ends_append hps
        (fun c hc => wordChar_of_tokChar c (sfdTokChar_of_keyChar c hc)) rfl hrest)
  refine hp.congr fun m e => ?_
  constructor
  · rintro ⟨k, e₁, e₂, rfl, ⟨rfl, hk⟩, ⟨e', rfl, _, rfl, w, hw, rfl⟩ | ⟨-, rfl, hps⟩⟩
    · exact ⟨w, .valued hk hw, rfl⟩
    · exact ⟨_, .flag hk hps, rfl⟩
  · obtain ⟨k, i⟩ := m
    rintro ⟨v, hm, rfl⟩
    cases hm with
    | flag hk hps => exact ⟨k, k, _, rfl, ⟨rfl, hk⟩, .inr ⟨(), rfl, hps⟩⟩
    | valued hk hv => exact ⟨k, k, _, rfl, ⟨rfl, hk⟩, .inl ⟨_, rfl, _, rfl, _, hv, rfl⟩⟩

/-! ## The walk -/

theorem ows_iff {w : List UInt8} : (∀ c ∈ w, c ∈ [sp, htab]) ↔ Ows w := by
  simp [Ows]

theorem sfdSkip_ows {w : List UInt8} (hw : Ows w) (hb : Ends (sfdIn · [sp, htab]) b) :
    sfdSkip [sp, htab] (w ++ b) = some ((), b) :=
  (parses_sfdSkip [sp, htab]).complete (ows_iff.mpr hw) hb

theorem sfdSkip_ends {set : List UInt8} {u : Unit} (h : sfdSkip set b = some (u, r)) :
    Ends (sfdIn · set) r := by
  obtain rfl : b.dropWhile (sfdIn · set) = r := (Prod.mk.inj (Option.some.inj h)).2
  exact ends_dropWhile _ b

theorem sfdAfterMember_cons {b' : List UInt8} (h : sfdSkip [sp, htab] b = some ((), c :: b')) :
    sfdAfterMember b =
      if c = comma then
        (sfdSkip [sp, htab] b').bind fun r => if r.2 = [] then none else some ((), r.2)
      else none := by
  by_cases hc : c = comma <;>
    simp [sfdAfterMember, sfdPeek, sfdEat, Parser.eat, h, hc]

/-- The text behind a member, and where the iterator then stands: at the end, or at a member. -/
inductive Separator : List UInt8 → List UInt8 → Prop
  | last {w : List UInt8} (ows : Ows w) : Separator w []
  | between {w₁ w₂ it : List UInt8} (before : Ows w₁) (behind : Ows w₂) (ne : it ≠ [])
      (ends : Ends (sfdIn · [sp, htab]) it) : Separator (w₁ ++ comma :: (w₂ ++ it)) it

theorem separator_of_afterMember {u : Unit} (h : sfdAfterMember b = some (u, it)) :
    Separator b it := by
  have h' := h
  rw [sfdAfterMember, Parser.bind_apply] at h'
  obtain ⟨⟨⟨⟩, b'⟩, hskip, hsep⟩ := bind_eq_some_iff.mp h'
  obtain ⟨w₁, hb, hw₁⟩ := (parses_sfdSkip _).sound hskip
  cases b' with
  | nil =>
    obtain rfl : [] = it := (Prod.mk.inj (Option.some.inj hsep)).2
    rw [hb, append_nil]
    exact .last (ows_iff.mp hw₁)
  | cons c b' =>
    rw [sfdAfterMember_cons hskip] at h
    split at h
    · next hc =>
      obtain ⟨⟨⟨⟩, r⟩, hskip₂, hr⟩ := bind_eq_some_iff.mp h
      obtain ⟨w₂, rfl, hw₂⟩ := (parses_sfdSkip _).sound hskip₂
      split at hr
      · cases hr
      rename_i hne
      obtain rfl : r = it := (Prod.mk.inj (Option.some.inj hr)).2
      rw [hb, hc]
      exact .between (ows_iff.mp hw₁) (ows_iff.mp hw₂) hne (sfdSkip_ends hskip₂)
    · cases h

theorem Separator.afterMember (h : Separator b it) : sfdAfterMember b = some ((), it) := by
  cases h with
  | last hw =>
    have hskip := sfdSkip_ows hw (ends_nil _)
    rw [append_nil] at hskip
    rw [sfdAfterMember, Parser.bind_apply, hskip]
    rfl
  | @between w₁ w₂ it h₁ h₂ hne hit =>
    have hskip₁ := sfdSkip_ows h₁ (ends_cons.mpr rfl : Ends _ (comma :: (w₂ ++ it)))
    have hskip₂ := sfdSkip_ows h₂ hit
    rw [sfdAfterMember_cons hskip₁, if_pos rfl, hskip₂, bind_some, if_neg hne]

theorem Ows.ends {w : List UInt8} (h : Ows w) : Ends wordChar w := by
  intro c hc
  obtain rfl | rfl := h c (mem_of_mem_head? hc) <;> rfl

theorem Separator.ends (h : Separator b it) : Ends wordChar b := by
  cases h with
  | last hw => exact hw.ends
  | between h₁ h₂ hne hit => exact h₁.ends.append (ends_cons.mpr rfl)

/-- A member as the parser gives it. -/
def toItem (m : List UInt8 × Value) : List UInt8 × SfieldItem := (m.1, m.2.item)

theorem Member.start (h : Member m e) : ∃ c cs, e = c :: cs ∧ sfdKeyStart c = true := by
  cases h with
  | flag hk | valued hk =>
    obtain ⟨c, cs, rfl, hc⟩ := hk.start
    exact ⟨c, _, rfl, hc⟩

theorem keyStart_not_ows (h : sfdKeyStart c = true) : sfdIn c [sp, htab] = false := by
  refine Bool.eq_false_iff.mpr fun hin => ?_
  have hc := contains_iff_mem.mp hin
  simp only [mem_cons, not_mem_nil, or_false] at hc
  obtain rfl | rfl := hc <;> cases h

theorem Member.ends_ows (h : Member m e) (rest : List UInt8) :
    Ends (sfdIn · [sp, htab]) (e ++ rest) := by
  obtain ⟨c, cs, rfl, hc⟩ := h.start
  exact ends_cons.mpr (keyStart_not_ows hc)

theorem sfdMemberSep_sound (h : sfdMemberSep b = some (i, it)) :
    ∃ m e s, i = toItem m ∧ b = e ++ s ∧ Member m e ∧ Separator s it := by
  rw [sfdMemberSep, Parser.bind_apply] at h
  obtain ⟨⟨_, s⟩, hm, h⟩ := bind_eq_some_iff.mp h
  obtain ⟨⟨_, _⟩, hs, h⟩ := bind_eq_some_iff.mp h
  obtain ⟨rfl, rfl⟩ := Prod.mk.inj (Option.some.inj h)
  obtain ⟨e, rfl, v, hv, hi⟩ := parses_sfdMember.sound hm
  exact ⟨(_, v), e, s, Prod.ext rfl hi.symm, rfl, hv, separator_of_afterMember hs⟩

theorem sfdMemberSep_complete (hm : Member m e) (hs : Separator s it) :
    sfdMemberSep (e ++ s) = some (toItem m, it) := by
  rw [sfdMemberSep, Parser.bind_apply,
    parses_sfdMember.complete (v := toItem m) ⟨m.2, hm, rfl⟩ hs.ends, bind_some,
    Parser.bind_apply, hs.afterMember]
  rfl

theorem exists_replicate_sp (b : List UInt8) :
    ∃ n b', b = List.replicate n sp ++ b' ∧ b.dropWhile (sfdIn · [sp]) = b' ∧ b'.head? ≠ some sp := by
  obtain ⟨e, hb, hsp⟩ := (parses_sfdSkip [sp]).sound (show sfdSkip [sp] b = some ((), _) from rfl)
  obtain ⟨n, rfl⟩ := forall_mem_sp.mp hsp
  exact ⟨n, _, hb, rfl, (ends_dropWhile _ b).head_ne rfl⟩

/-- A call that gives a member has read it, with the spaces before it and the separator behind it.
-/
theorem sfieldDictNext_sound (h : sfieldDictNext b = .member i it) :
    ∃ n m e s, i = toItem m ∧ b = List.replicate n sp ++ (e ++ s) ∧ Member m e ∧
      Separator s it := by
  obtain ⟨n, b', rfl, hdrop, -⟩ := exists_replicate_sp b
  rw [sfieldDictNext, hdrop] at h
  split at h
  · cases h
  split at h
  · next hsep =>
    cases h
    obtain ⟨m, e, s, hi, rfl, hm, hs⟩ := sfdMemberSep_sound hsep
    exact ⟨n, m, e, s, hi, rfl, hm, hs⟩
  · cases h

theorem dropWhile_replicate_sp (n : ℕ) (h : b.head? ≠ some sp) :
    (List.replicate n sp ++ b).dropWhile (sfdIn · [sp]) = b :=
  (Prod.mk.inj (Option.some.inj (sfdSkip_replicate n h))).2

theorem sfieldDictNext_complete (n : ℕ) (hm : Member m e) (hs : Separator s it) :
    sfieldDictNext (List.replicate n sp ++ (e ++ s)) = .member (toItem m) it := by
  have hsp : (e ++ s).head? ≠ some sp := (hm.ends_ows s).head_ne rfl
  have hne : e ++ s ≠ [] := by
    obtain ⟨c, cs, rfl, -⟩ := hm.start
    exact cons_ne_nil _ _
  rw [sfieldDictNext, dropWhile_replicate_sp n hsp, if_neg hne, sfdMemberSep_complete hm hs]

theorem sfieldDictNext_done_iff : sfieldDictNext b = .done ↔ ∃ n, b = List.replicate n sp := by
  constructor
  · intro h
    obtain ⟨n, b', rfl, hdrop, -⟩ := exists_replicate_sp b
    rw [sfieldDictNext, hdrop] at h
    split at h
    · next hb =>
      rw [hb, append_nil]
      exact ⟨n, rfl⟩
    · split at h <;> cases h
  · rintro ⟨n, rfl⟩
    have hdrop := dropWhile_replicate_sp n (b := []) (some_ne_none sp ∘ Eq.symm)
    rw [append_nil] at hdrop
    rw [sfieldDictNext, hdrop]
    rfl

theorem Separator.length_le (h : Separator b it) : it.length ≤ b.length := by
  cases h with
  | last => exact Nat.zero_le _
  | between => simp only [length_append, length_cons]; omega

theorem sfieldDictNext_lt (h : sfieldDictNext b = .member i it) : it.length < b.length := by
  obtain ⟨n, m, e, s, -, rfl, hm, hs⟩ := sfieldDictNext_sound h
  obtain ⟨c, cs, rfl, -⟩ := hm.start
  have hle := hs.length_le
  simp only [length_append, length_cons]
  omega

/-- More calls than bytes bring the walk to its end, and further ones change nothing. -/
theorem exists_sfieldDictWalk (b : List UInt8) :
    ∃ r, ∀ calls, b.length ≤ calls → sfieldDictWalk (calls + 1) b = some r := by
  induction hn : b.length using Nat.strong_induction_on generalizing b with
  | _ n ih =>
    cases hnext : sfieldDictNext b with
    | done => exact ⟨([], true), fun calls _ => by rw [sfieldDictWalk, hnext]⟩
    | invalid => exact ⟨([], false), fun calls _ => by rw [sfieldDictWalk, hnext]⟩
    | member i it =>
      have hlt := sfieldDictNext_lt hnext
      obtain ⟨r, hr⟩ := ih it.length (by omega) it rfl
      refine ⟨(i :: r.1, r.2), fun calls hcalls => ?_⟩
      obtain ⟨calls, rfl⟩ := Nat.exists_eq_add_one_of_ne_zero (show calls ≠ 0 by omega)
      rw [sfieldDictWalk, hnext]
      simp only [hr calls (by omega), map_some]

/-- What is read from where the iterator stands continues the dictionary. -/
theorem Separator.memberRest {d : List (List UInt8 × Value)} (hs : Separator s it)
    (hd : Dictionary d it) : MemberRest d s := by
  cases hs with
  | last hw =>
    generalize hit : ([] : List UInt8) = it at hd
    cases hd with
    | empty n => exact .nil hw
    | members n hm hr =>
      obtain ⟨c, cs, rfl, -⟩ := hm.start
      simp at hit
  | between h₁ h₂ hne hends =>
    have hsp := hends.head_ne (c := sp) rfl
    cases hd with
    | empty n =>
      cases n with
      | zero => exact absurd rfl hne
      | succ n => exact absurd rfl hsp
    | members n hm hr =>
      cases n with
      | zero =>
        rw [replicate_zero, nil_append]
        exact .cons h₁ h₂ hm hr
      | succ n => exact absurd rfl hsp

theorem dictionary_sound (calls : ℕ) {is : List (List UInt8 × SfieldItem)}
    (h : sfieldDictWalk calls b = some (is, true)) : ∃ d, Dictionary d b ∧ is = d.map toItem := by
  induction calls generalizing b is with
  | zero => cases h
  | succ calls ih =>
    rw [sfieldDictWalk] at h
    cases hnext : sfieldDictNext b with
    | done =>
      rw [hnext] at h
      obtain ⟨n, rfl⟩ := sfieldDictNext_done_iff.mp hnext
      obtain ⟨rfl, -⟩ := Prod.mk.inj (Option.some.inj h)
      exact ⟨[], .empty n, rfl⟩
    | invalid =>
      rw [hnext] at h
      cases (Prod.mk.inj (Option.some.inj h)).2
    | member i it =>
      rw [hnext] at h
      obtain ⟨⟨is', ok⟩, hwalk, hr⟩ := map_eq_some_iff.mp h
      obtain ⟨rfl, rfl⟩ := Prod.mk.inj hr
      obtain ⟨d, hd, rfl⟩ := ih hwalk
      obtain ⟨n, m, e, s, rfl, rfl, hm, hs⟩ := sfieldDictNext_sound hnext
      exact ⟨m :: d, .members n hm (hs.memberRest hd), rfl⟩

theorem sfieldDictWalk_members {ms : List (List UInt8 × Value)} (hr : MemberRest ms r) (n : ℕ)
    (hm : Member m e) {calls : ℕ} (hcalls : (List.replicate n sp ++ (e ++ r)).length ≤ calls) :
    sfieldDictWalk (calls + 1) (List.replicate n sp ++ (e ++ r)) =
      some ((m :: ms).map toItem, true) := by
  -- One call for each member, and the rest of the string is that much shorter.
  induction hr generalizing n m e calls with
  | nil hw =>
    have hnext := sfieldDictNext_complete n hm (.last hw)
    have hlt := sfieldDictNext_lt hnext
    obtain ⟨calls, rfl⟩ := Nat.exists_eq_add_one_of_ne_zero (show calls ≠ 0 by omega)
    rw [sfieldDictWalk, hnext]
    rfl
  | @cons w₁ w₂ e' r m' ms h₁ h₂ hm' hr ih =>
    have hne : e' ++ r ≠ [] := by
      obtain ⟨c, cs, rfl, -⟩ := hm'.start
      exact cons_ne_nil _ _
    have hnext := sfieldDictNext_complete n hm (.between h₁ h₂ hne (hm'.ends_ows r))
    have hlt := sfieldDictNext_lt hnext
    obtain ⟨calls, rfl⟩ := Nat.exists_eq_add_one_of_ne_zero (show calls ≠ 0 by omega)
    have hrest : sfieldDictWalk (calls + 1) (e' ++ r) = some ((m' :: ms).map toItem, true) :=
      ih 0 hm' (by rw [replicate_zero, nil_append]; omega)
    rw [sfieldDictWalk, hnext]
    simp only [hrest, map_some, map_cons]

theorem dictionary_complete {d : List (List UInt8 × Value)} (h : Dictionary d b) {calls : ℕ}
    (hcalls : b.length ≤ calls) : sfieldDictWalk (calls + 1) b = some (d.map toItem, true) := by
  cases h with
  | empty n =>
    rw [sfieldDictWalk, sfieldDictNext_done_iff.mpr ⟨n, rfl⟩]
    rfl
  | members n hm hr => exact sfieldDictWalk_members hr n hm hcalls

/-- The walk over any field value comes to its end. It does so without a syntax error if and only if
the value is a dictionary, and then it has given that dictionary's members, in their order. -/
theorem sfieldDictWalk_spec (s : List UInt8) :
    ∃ is ok, (∀ calls, s.length < calls → sfieldDictWalk calls s = some (is, ok)) ∧
      (ok = true ↔ ∃ d, Dictionary d s) ∧
      ∀ d, Dictionary d s → is = d.map toItem := by
  obtain ⟨⟨is, ok⟩, hwalk⟩ := exists_sfieldDictWalk s
  have hrun := hwalk s.length le_rfl
  have hcomplete {d : List (List UInt8 × Value)} (hd : Dictionary d s) :
      is = d.map toItem ∧ ok = true := by
    have h := hrun.symm.trans (dictionary_complete hd le_rfl)
    exact Prod.mk.inj (Option.some.inj h)
  refine ⟨is, ok, fun calls hcalls => ?_, ⟨?_, ?_⟩, fun d hd => (hcomplete hd).1⟩
  · obtain ⟨calls, rfl⟩ := Nat.exists_eq_add_one_of_ne_zero (Nat.ne_zero_of_lt hcalls)
    exact hwalk calls (Nat.le_of_lt_succ hcalls)
  · rintro rfl
    obtain ⟨d, hd, -⟩ := dictionary_sound _ hrun
    exact ⟨d, hd⟩
  · rintro ⟨d, hd⟩
    exact (hcomplete hd).2

-- `u=3, i`, the value of a Priority field.
example : sfieldDictWalk 7 [0x75, 0x3d, 0x33, 0x2c, 0x20, 0x69] =
    some ([([0x75], .integer false 3), ([0x69], .boolean true)], true) := by
  decide

end Sfield

end Wired.Http3
