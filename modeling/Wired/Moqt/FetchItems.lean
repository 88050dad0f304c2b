import Wired.Moqt.FetchStream

/-!
# Cache items on a fetch stream

`moqtrun_fwin.c`: a FETCH is served with the items of the cache one after the other, each encoded
against the items before it. The flags of an Object are chosen from the prior Object, so encoder
and decoder have to agree on it after every item; this is `fetchItems_decode`.
-/

namespace Wired.Moqt

open Lib List

def MoqVer.eorTimedOut : MoqVer → Bool
  | .d22 => true
  | .d23 => true
  | _ => false

def MoqVer.fetchStream23 : MoqVer → Bool
  | .d23 => true
  | _ => false

def moqtrunFseqVer (s : FetchSeq) (ver : MoqVer) : FetchSeq :=
  { s with eorTimedOut := ver.eorTimedOut, d23 := ver.fetchStream23 }

/-- The sequence at the start of a response. -/
def fetchSeqStart (descending : Bool) (ver : MoqVer) : FetchSeq :=
  moqtrunFseqVer { descending := descending } ver

/-- What a fetch is for: a fill, or one that its upstream has no time left for. -/
structure FetchMode where
  isFill : Bool
  upTmo : Bool
deriving DecidableEq, Repr

def moqtrunFetchTimedOut (m : FetchMode) (s : FetchSeq) : Bool :=
  (m.isFill || m.upTmo) && s.eorTimedOut

def moqtrunFetchEor (m : FetchMode) (s : FetchSeq) : UInt64 :=
  if moqtrunFetchTimedOut m s then eorTimedOut else eorUnknown

def moqtrunFetchNewGroup (s : FetchSeq) (group : UInt64) : Bool :=
  !s.haveLoc || s.group ≠ group

/-- The Priority is always there, the Group if it changes, the Object ID unless draft 23 has none.
-/
def moqtrunFetchObjOf (it : MoqcacheItem) (s : FetchSeq) (eor : UInt64) : FetchObj :=
  if it.unknown then { flags := eor, group := it.loc.group, object := it.loc.object }
  else
    { flags := moqfetchObjectFlag s it.loc.group it.loc.object ||| fPriority |||
        (if moqtrunFetchNewGroup s it.loc.group then fGroup else 0)
      group := it.loc.group
      object := it.loc.object
      hasSubgroup := true
      priority := 128
      payload := it.payload }

/-- The size of `relay_scratch`: `WIRED_MOQTRUN_RELAY_FRAG_MAX + WIRED_SRVLOOP_WT_BUF_CAP`. -/
def relayScratchCap : Nat := 16384 + 49152

def moqtrunFetchEncodeOne (m : FetchMode) (s : FetchSeq) (it : MoqcacheItem) :
    List UInt8 × FetchSeq :=
  let r := moqfetchObjPut relayScratchCap [] s (moqtrunFetchObjOf it s (moqtrunFetchEor m s))
  (r.1, r.2.getD s)

/-- The encodings of the items, each with the sequence behind it. -/
def fetchEncode : FetchSeq → List (FetchMode × MoqcacheItem) → List (List UInt8 × FetchSeq)
  | _, [] => []
  | s, (m, it) :: rest =>
    moqtrunFetchEncodeOne m s it :: fetchEncode (moqtrunFetchEncodeOne m s it).2 rest

/-- Objects are taken from the stream until one is not whole or not an Object; the rest stays. -/
def fetchDecodeFuel : Nat → FetchSeq → List UInt8 → List (FetchObj × FetchSeq) × List UInt8
  | 0, _, b => ([], b)
  | fuel + 1, s, b =>
    match moqfetchObjTake s b with
    | .error _ => ([], b)
    | .ok (r, rest) => (r :: (fetchDecodeFuel fuel r.2 rest).1, (fetchDecodeFuel fuel r.2 rest).2)

/-- The Objects at the head, with the sequence behind each, and the rest. -/
def fetchDecode (s : FetchSeq) (b : List UInt8) : List (FetchObj × FetchSeq) × List UInt8 :=
  fetchDecodeFuel b.length s b

/-- The order of a response: Locations ascend; or Groups descend, and Objects ascend in each. -/
def ServedAfter (descending : Bool) (a b : Loc) : Prop :=
  if descending then b.group < a.group ∨ (b.group = a.group ∧ a.object < b.object)
  else moqctlLocLess a b = true
deriving Decidable

/-- What the cache gives: no payload for a range, and no payload too large for one round. -/
structure MoqcacheItem.Ok (it : MoqcacheItem) : Prop where
  range : it.unknown = true → it.payload = []
  size : it.payload.length ≤ moqcacheObjMax

def MoqcacheItem.kind (it : MoqcacheItem) : FetchKind := if it.unknown then .eor else .obj

/-! ## One item -/

theorem itemFlags_bits (next newGroup : Bool) (f : UInt64)
    (h : f = (if next then 0 else fObject) ||| fPriority ||| (if newGroup then fGroup else 0)) :
    f < 0x80 ∧ (f &&& fGroup = 0 ↔ newGroup = false) ∧ (f &&& fObject = 0 ↔ next = true) ∧
      (newGroup = true → next = false →
        f &&& (fGroup ||| fObject) = fGroup ||| fObject) ∧
      f &&& fPriority ≠ 0 ∧ f &&& fProps = 0 ∧ f &&& fDatagram = 0 ∧ f &&& fSubgroupMask = 0 := by
  subst h
  cases next <;> cases newGroup <;> decide

theorem moqfetchKind_eor (m : FetchMode) (s : FetchSeq) :
    moqfetchKind (moqtrunFetchEor m s) s = some .eor := by
  by_cases h : moqtrunFetchTimedOut m s = true
  · have hs : s.eorTimedOut = true := (Bool.and_eq_true_iff.mp h).2
    rw [moqtrunFetchEor, if_pos h, moqfetchKind, if_neg (by decide), moqfetchMarkerKind,
      moqfetchMarks, hs]
    rfl
  · rw [moqtrunFetchEor, if_neg h]
    rfl

variable {g : UInt64} {l : Loc} {s s' : FetchSeq}

section

variable {it : MoqcacheItem} {m : FetchMode} {s : FetchSeq}

theorem moqtrunFetchNewGroup_eq_false :
    moqtrunFetchNewGroup s g = false ↔ s.haveLoc = true ∧ g = s.group := by
  simp [moqtrunFetchNewGroup, @eq_comm _ g]

theorem moqfetchNextOf_eq_true {i : UInt64} :
    moqfetchNextOf s g i = true ↔ (s.haveLoc = true ∧ g = s.group) ∧ i = s.object + 1 := by
  simp [moqfetchNextOf, moqfetchSameGroup, @eq_comm _ g]

theorem LocAfter.object_lt (h : LocAfter s l) (hsame : l.group = s.group) :
    s.object < l.object := by
  obtain hafter | ⟨-, hobject⟩ := h
  · exact absurd hsame hafter.ne
  · exact hobject

theorem LocAfter.group_after (h : LocAfter s l) (hother : l.group ≠ s.group) :
    GroupAfter s l.group := by
  obtain hafter | ⟨hsame, -⟩ := h
  · exact hafter
  · exact absurd hsame hother

theorem objOf_objAgrees (hok : it.Ok) (hobj : it.unknown = false)
    (hafter : s.haveLoc = true → LocAfter s it.loc) (eor : UInt64) :
    ObjAgrees s (moqtrunFetchObjOf it s eor) := by
  rw [moqtrunFetchObjOf, hobj, if_neg Bool.false_ne_true]
  generalize hf : moqfetchObjectFlag s it.loc.group it.loc.object ||| fPriority |||
    (if moqtrunFetchNewGroup s it.loc.group then fGroup else 0) = f
  obtain ⟨hflags, hgroup, hobject, hfirst, hpriority, hprops, hdatagram, hmode⟩ :=
    itemFlags_bits (s.d23 && moqfetchNextOf s it.loc.group it.loc.object)
      (moqtrunFetchNewGroup s it.loc.group) f hf.symm
  have hsame : f &&& fGroup = 0 → s.haveLoc = true ∧ it.loc.group = s.group := fun h =>
    moqtrunFetchNewGroup_eq_false.mp (hgroup.mp h)
  constructor
  case flags => exact hflags
  case first =>
    intro hloc
    apply hfirst
    · rw [moqtrunFetchNewGroup, hloc]
      rfl
    · rw [moqfetchNextOf, moqfetchSameGroup, hloc, Bool.false_and, Bool.false_and, Bool.and_false]
  case sameGroup => exact fun h => (hsame h).2
  case otherGroup =>
    intro hother hloc
    apply (hafter hloc).group_after
    intro heq
    exact hother (hgroup.mpr (moqtrunFetchNewGroup_eq_false.mpr ⟨hloc, heq⟩))
  case subgroup =>
    constructor
    case datagram => exact fun h => absurd hdatagram h
    case present => exact fun _ => rfl
    case zero => exact fun _ _ => rfl
    case prior => exact fun _ h => absurd (hmode.symm.trans h) (by decide)
    case next => exact fun _ h => absurd (hmode.symm.trans h) (by decide)
  case nextObject =>
    intro h
    obtain ⟨⟨hloc, hgroup⟩, hnext⟩ := moqfetchNextOf_eq_true.mp
      (Bool.and_eq_true_iff.mp (hobject.mp h)).2
    rw [hnext, toNat_add_one ((hafter hloc).object_lt hgroup)]
  case laterObject =>
    intro hpresent hrel
    obtain ⟨hgroup, hloc⟩ := Bool.or_eq_false_iff.mp hrel
    obtain ⟨hloc, hgroup⟩ := hsame (not_not.mp (of_decide_eq_false hgroup))
    have hlt := (hafter hloc).object_lt hgroup
    have hnat := UInt64.lt_iff_toNat_lt.mp hlt
    split
    · -- the next Object would have been left out
      rename_i hd23
      have hne : it.loc.object.toNat ≠ s.object.toNat + 1 := by
        rw [← toNat_add_one hlt]
        intro heq
        apply hpresent
        rw [hobject, hd23, Bool.true_and]
        exact moqfetchNextOf_eq_true.mpr ⟨⟨hloc, hgroup⟩, UInt64.toNat_inj.mp heq⟩
      change s.object.toNat + 2 ≤ it.loc.object.toNat
      omega
    · change s.object.toNat + 0 ≤ it.loc.object.toNat
      omega
  case samePriority => exact fun h => absurd h hpriority
  case priority => exact fun _ => (by decide : (128 : UInt64) < 256)
  case hasProps => rw [decide_eq_false (not_not.mpr hprops)]
  case noProps => exact fun _ => rfl
  case props => exact Nat.two_pow_pos 64
  case payload =>
    have hsize := hok.size
    change it.payload.length < 2 ^ 64
    unfold moqcacheObjMax at hsize
    omega

theorem objOf_props (eor : UInt64) : (moqtrunFetchObjOf it s eor).props = [] := by
  rw [moqtrunFetchObjOf]
  split <;> rfl

theorem objOf_loc (it : MoqcacheItem) (s : FetchSeq) (eor : UInt64) :
    Loc.mk (moqtrunFetchObjOf it s eor).group (moqtrunFetchObjOf it s eor).object = it.loc := by
  rw [moqtrunFetchObjOf]
  split <;> rfl

theorem objOf_payload (hok : it.Ok) (eor : UInt64) :
    (moqtrunFetchObjOf it s eor).payload = it.payload := by
  rw [moqtrunFetchObjOf]
  split
  · exact (hok.range ‹_›).symm
  · rfl

theorem moqfetchObjTake_nil (s : FetchSeq) : moqfetchObjTake s [] = .error .insufficient := rfl

variable (hok : it.Ok) (hafter : s.haveLoc = true → LocAfter s it.loc)
include hok hafter

theorem objOf_agrees : Agrees s (moqtrunFetchObjOf it s (moqtrunFetchEor m s)) it.kind := by
  cases hunknown : it.unknown with
  | false =>
    rw [MoqcacheItem.kind, hunknown]
    exact .obj (objOf_objAgrees hok hunknown hafter _)
  | true =>
    rw [MoqcacheItem.kind, hunknown]
    refine .eor ?_
    rw [moqtrunFetchObjOf, hunknown, if_pos rfl]
    exact {
      kind := moqfetchKind_eor m s
      fields := rfl
      after := fun hrel => hafter (Bool.and_eq_true_iff.mp hrel).2 }

theorem encodeOne_take (rest : List UInt8) :
    moqfetchObjTake s ((moqtrunFetchEncodeOne m s it).1 ++ rest) =
      .ok ((moqtrunFetchObjOf it s (moqtrunFetchEor m s), (moqtrunFetchEncodeOne m s it).2),
        rest) ∧
    (moqtrunFetchEncodeOne m s it).2 =
      moqfetchNote it.kind s (moqtrunFetchObjOf it s (moqtrunFetchEor m s)) := by
  obtain ⟨e, hlen, hput, htake⟩ := moqfetchObjPut_take (objOf_agrees hok hafter)
  have hroom : ([] : List UInt8).length + e.length ≤ relayScratchCap := by
    have hsize := hok.size
    rw [objOf_props, objOf_payload hok] at hlen
    unfold moqcacheObjMax at hsize
    unfold relayScratchCap
    simp only [length_nil] at hlen ⊢
    omega
  have hone : moqtrunFetchEncodeOne m s it =
      (e, moqfetchNote it.kind s (moqtrunFetchObjOf it s (moqtrunFetchEor m s))) := by
    rw [moqtrunFetchEncodeOne, hput _ _ hroom]
    rfl
  rw [hone]
  exact ⟨htake rest, rfl⟩

theorem encodeOne_ne_nil : (moqtrunFetchEncodeOne m s it).1 ≠ [] := by
  intro hnil
  have htake := (encodeOne_take (m := m) hok hafter []).1
  rw [hnil, append_nil, moqfetchObjTake_nil] at htake
  cases htake

end

/-! ## A whole stream -/

/-- What an Object or a marker of the stream says: where, which, and with what payload. -/
def FetchObj.served (s : FetchSeq) (o : FetchObj) : Loc × Option FetchKind × List UInt8 :=
  (⟨o.group, o.object⟩, moqfetchKind o.flags s, o.payload)

/-- What of an item the peer is to see. -/
def MoqcacheItem.served (it : MoqcacheItem) : Loc × Option FetchKind × List UInt8 :=
  (it.loc, some it.kind, it.payload)

def SameStream (s s' : FetchSeq) : Prop :=
  s'.descending = s.descending ∧ s'.eorTimedOut = s.eorTimedOut ∧ s'.d23 = s.d23

theorem moqfetchNote_sameStream (kind : FetchKind) (s : FetchSeq) (o : FetchObj) :
    SameStream s (moqfetchNote kind s o) := by
  cases kind <;> exact ⟨rfl, rfl, rfl⟩

theorem SameStream.kind (h : SameStream s s') (flags : UInt64) :
    moqfetchKind flags s' = moqfetchKind flags s := by
  rw [moqfetchKind, moqfetchKind, moqfetchMarkerKind, moqfetchMarkerKind, moqfetchMarks,
    moqfetchMarks, h.2.1, h.2.2]

theorem SameStream.trans {s'' : FetchSeq} (h : SameStream s s') (h' : SameStream s' s'') :
    SameStream s s'' :=
  ⟨h'.1.trans h.1, h'.2.1.trans h.2.1, h'.2.2.trans h.2.2⟩

theorem locAfter_of_servedAfter {a b : Loc} (hgroup : s.group = a.group)
    (hobject : s.object = a.object) (h : ServedAfter s.descending a b) : LocAfter s b := by
  rw [ServedAfter] at h
  rw [LocAfter, GroupAfter, hgroup, hobject]
  split at h
  · rwa [if_pos ‹_›]
  · rw [if_neg ‹_›, @eq_comm _ b.group]
    exact moqctlLocLess_iff.mp h

theorem encodeOne_after {it : MoqcacheItem} {m : FetchMode} (hok : it.Ok)
    (hafter : s.haveLoc = true → LocAfter s it.loc) (h : ServedAfter s.descending it.loc l) :
    LocAfter (moqtrunFetchEncodeOne m s it).2 l := by
  have hloc := objOf_loc it s (moqtrunFetchEor m s)
  rw [(encodeOne_take hok hafter []).2]
  rw [← hloc] at h
  unfold MoqcacheItem.kind
  split
  · exact locAfter_of_servedAfter rfl rfl h
  · exact locAfter_of_servedAfter rfl rfl h

/-- By induction on the items: each lies behind the one before it. -/
theorem fetchDecodeFuel_encode (items : List (FetchMode × MoqcacheItem)) {s₀ : FetchSeq}
    (hs : SameStream s₀ s) (hok : ∀ i ∈ items, i.2.Ok)
    (hfirst : ∀ i ∈ items.head?, s.haveLoc = true → LocAfter s i.2.loc)
    (hchain : items.IsChain fun a b => ServedAfter s₀.descending a.2.loc b.2.loc) {fuel : Nat}
    (hfuel : ((fetchEncode s items).flatMap Prod.fst).length ≤ fuel) :
    ∃ decoded, fetchDecodeFuel fuel s ((fetchEncode s items).flatMap Prod.fst) = (decoded, []) ∧
      decoded.map (fun r => r.1.served s₀) = items.map (fun i => i.2.served) ∧
      decoded.map Prod.snd = (fetchEncode s items).map Prod.snd := by
  induction items generalizing s fuel with
  | nil =>
    refine ⟨[], ?_, rfl, rfl⟩
    cases fuel with
    | zero => rfl
    | succ fuel => rfl
  | cons i items ih =>
    obtain ⟨m, it⟩ := i
    have hit : it.Ok := hok _ mem_cons_self
    have hafter := hfirst _ rfl
    obtain ⟨htake, hnote⟩ := encodeOne_take (m := m) hit hafter
      ((fetchEncode (moqtrunFetchEncodeOne m s it).2 items).flatMap Prod.fst)
    have hpos := length_pos_of_ne_nil (encodeOne_ne_nil (m := m) hit hafter)
    rw [fetchEncode, flatMap_cons, length_append] at hfuel
    rw [fetchEncode, flatMap_cons]
    obtain ⟨fuel, rfl⟩ : ∃ f, fuel = f + 1 := ⟨fuel - 1, by omega⟩
    have hsame : SameStream s (moqtrunFetchEncodeOne m s it).2 :=
      hnote ▸ moqfetchNote_sameStream _ _ _
    have hnext : ∀ j ∈ items.head?, (moqtrunFetchEncodeOne m s it).2.haveLoc = true →
        LocAfter (moqtrunFetchEncodeOne m s it).2 j.2.loc := by
      intro j hj _
      apply encodeOne_after hit hafter
      obtain ⟨rest, rfl⟩ := head?_eq_some_iff.mp hj
      rw [hs.1]
      exact (isChain_cons_cons.mp hchain).1
    have hleft : ((fetchEncode (moqtrunFetchEncodeOne m s it).2 items).flatMap Prod.fst).length ≤
        fuel := by omega
    obtain ⟨decoded, hdecode, hserved, hstates⟩ := ih (hs.trans hsame)
      (fun j hj => hok j (mem_cons_of_mem _ hj)) hnext hchain.of_cons hleft
    refine ⟨(moqtrunFetchObjOf it s (moqtrunFetchEor m s), (moqtrunFetchEncodeOne m s it).2) ::
      decoded, ?_, ?_, ?_⟩
    · rw [fetchDecodeFuel, htake]
      dsimp only
      rw [hdecode]
    · have hhead : (moqtrunFetchObjOf it s (moqtrunFetchEor m s)).served s₀ = it.served := by
        rw [FetchObj.served, MoqcacheItem.served, objOf_loc, objOf_payload hit, ← hs.kind,
          (objOf_agrees hit hafter).kind_eq]
      rw [map_cons, map_cons, hserved, hhead]
    · rw [map_cons, map_cons, hstates]

/-- Items that advance in the order of the response are decoded, in every draft, to the same
Locations, kinds and payloads, and the sequence of the decoder behind each item is that of the
encoder. -/
theorem fetchItems_decode (descending : Bool) (ver : MoqVer)
    (items : List (FetchMode × MoqcacheItem)) (hok : ∀ i ∈ items, i.2.Ok)
    (horder : items.IsChain fun a b => ServedAfter descending a.2.loc b.2.loc) :
    ∃ decoded,
      fetchDecode (fetchSeqStart descending ver)
        ((fetchEncode (fetchSeqStart descending ver) items).flatMap Prod.fst) = (decoded, []) ∧
      decoded.map (fun r => r.1.served (fetchSeqStart descending ver)) =
        items.map (fun i => i.2.served) ∧
      decoded.map Prod.snd = (fetchEncode (fetchSeqStart descending ver) items).map Prod.snd :=
  fetchDecodeFuel_encode items ⟨rfl, rfl, rfl⟩ hok (by nofun)
    horder le_rfl

/-- Two Objects of a Group, a range in the same Group, and then a Group below. -/
theorem fetchItems_decode_descending :
    let items : List (FetchMode × MoqcacheItem) :=
      [(⟨false, false⟩, ⟨false, ⟨7, 0⟩, [1, 2], ⟨7, 1⟩⟩),
        (⟨false, false⟩, ⟨false, ⟨7, 1⟩, [3], ⟨7, 2⟩⟩),
        (⟨true, false⟩, ⟨true, ⟨7, 9⟩, [], ⟨7, 10⟩⟩),
        (⟨false, false⟩, ⟨false, ⟨4, 2⟩, [], ⟨4, 3⟩⟩)]
    ∃ decoded,
      fetchDecode (fetchSeqStart true .d23)
        ((fetchEncode (fetchSeqStart true .d23) items).flatMap Prod.fst) = (decoded, []) ∧
      decoded.map (fun r => r.1.served (fetchSeqStart true .d23)) =
        items.map (fun i => i.2.served) ∧
      decoded.map Prod.snd = (fetchEncode (fetchSeqStart true .d23) items).map Prod.snd := by
  refine fetchItems_decode true .d23 _ ?_ ?_
  · simp only [forall_mem_cons]
    refine ⟨⟨by decide, by decide⟩, ⟨by decide, by decide⟩, ⟨by decide, by decide⟩,
      ⟨by decide, by decide⟩, by simp⟩
  · refine .cons_cons ?_ (.cons_cons ?_ (.cons_cons ?_ (.singleton _))) <;> decide

end Wired.Moqt
