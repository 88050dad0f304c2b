import Mathlib.Data.List.Nodup
import Wired.Transport.Varint

/-!
# Transport parameters of a client

`tparam.c`, `tpcheck.c` and `parse_tp.c`: three loops over one sequence of entries, each an
identifier, a length and a value. One loop looks for identifiers that occur twice, with a table of
32 of them; one looks for parameters that a client may not send and for values out of range; the
third returns a value. `clientTp_exact` compares the first two with RFC 9000 18.2 for every byte
string. They agree but for three things: the table is full after 32 entries, an empty value passes
for the number zero, and integers that have no range are not looked at.
-/

namespace Wired.Tls

open Lib Transport List Option

/-! ## Entries -/

def tpOriginalDestinationConnectionId : Nat := 0x00
def tpMaxIdleTimeout : Nat := 0x01
def tpStatelessResetToken : Nat := 0x02
def tpMaxUdpPayloadSize : Nat := 0x03
def tpInitialMaxData : Nat := 0x04
def tpInitialMaxStreamDataBidiLocal : Nat := 0x05
def tpInitialMaxStreamDataBidiRemote : Nat := 0x06
def tpInitialMaxStreamDataUni : Nat := 0x07
def tpInitialMaxStreamsBidi : Nat := 0x08
def tpInitialMaxStreamsUni : Nat := 0x09
def tpAckDelayExponent : Nat := 0x0a
def tpMaxAckDelay : Nat := 0x0b
def tpPreferredAddress : Nat := 0x0d
def tpActiveConnectionIdLimit : Nat := 0x0e
def tpRetrySourceConnectionId : Nat := 0x10

abbrev TpEntry : Type := Nat × List UInt8

def tparamGetBlob : Decoder UInt8 TpEntry := do
  let id ← varintTake
  let len ← varintTake
  takeBytes len fun val => (id, val)

/-- What `varint_decode` leaves in a variable that was zero, and what it returns. -/
def varintDecoded (val : List UInt8) : Nat × Nat := (varintDecode val).getD (0, 0)

/-! ## Identifiers that occur twice -/

def tparamMaxSeen : Nat := 32

def canRecord (seen : List Nat) (id : Nat) : Bool :=
  seen.length < tparamMaxSeen && !seen.contains id

def seenStep (seen : List Nat) (e : TpEntry) : Option (List Nat) :=
  if canRecord seen e.1 then some (seen ++ [e.1]) else none

def tparamNoDuplicates (buf : List UInt8) : Bool :=
  (walkTokens tparamGetBlob seenStep buf.length [] buf).isSome

/-! ## Values -/

/-- The range of an integer parameter. -/
structure TpRangeRow where
  id : Nat
  min : Nat
  max : Nat
deriving DecidableEq

def unbounded : Nat := 0xffffffffffffffff

def tpRange : List TpRangeRow :=
  [⟨tpMaxUdpPayloadSize, 1200, unbounded⟩, ⟨tpAckDelayExponent, 0, 20⟩, ⟨tpMaxAckDelay, 0, 16383⟩,
    ⟨tpActiveConnectionIdLimit, 2, unbounded⟩, ⟨tpInitialMaxStreamsBidi, 0, 2 ^ 60⟩,
    ⟨tpInitialMaxStreamsUni, 0, 2 ^ 60⟩]

def rangeRow (id : Nat) : Option TpRangeRow := tpRange.find? fun row => row.id = id

def tparamRangeOk (id value : Nat) : Bool :=
  (rangeRow id).all fun row => value ≥ row.min && value ≤ row.max

def tpValueOk (id : Nat) (val : List UInt8) : Bool :=
  (rangeRow id).isNone ||
    ((varintDecoded val).2 = val.length && tparamRangeOk id (varintDecoded val).1)

def tpServerOnly (id : Nat) : Bool :=
  [tpOriginalDestinationConnectionId, tpStatelessResetToken, tpPreferredAddress,
    tpRetrySourceConnectionId].contains id

def tpClientTlvOk (e : TpEntry) : Bool := !tpServerOnly e.1 && tpValueOk e.1 e.2

def tpClientStep (e : TpEntry) : Option Unit := if tpClientTlvOk e then some () else none

def tparamClientTpOk (tp : List UInt8) : Bool :=
  (walkTokens tparamGetBlob (fun _ => tpClientStep) tp.length () tp).isSome

/-- Both checks of a ClientHello: `sdrv_ch_reject_dup_tp` and `sdrv_ch_check_client_tp`. -/
def clientTpAccepted (tp : List UInt8) : Bool :=
  (tp.isEmpty || tparamNoDuplicates tp) && tparamClientTpOk tp

/-! ## Looking up -/

/-- A value, as an integer and as its bytes. -/
structure StpOut where
  value : Nat
  bytes : List UInt8
deriving DecidableEq

def stpEmit (val : List UInt8) : StpOut := ⟨(varintDecoded val).1, val⟩

def stpFrom (paramId : Nat) : Nat → List UInt8 → Option StpOut
  | 0, _ => none
  | fuel + 1, rest =>
    (tparamGetBlob rest).bind fun (e, r) =>
      if e.1 = paramId then some (stpEmit e.2) else stpFrom paramId fuel (rest.drop r)

def stpParse (tp : List UInt8) (paramId : Nat) : Option StpOut := stpFrom paramId tp.length tp

/-! ## RFC 9000 18.2 -/

/-- The parameters that are integers, with their ranges. -/
def intParams : List TpRangeRow :=
  tpRange ++ [tpMaxIdleTimeout, tpInitialMaxData, tpInitialMaxStreamDataBidiLocal,
    tpInitialMaxStreamDataBidiRemote, tpInitialMaxStreamDataUni].map fun id => ⟨id, 0, unbounded⟩

/-- The value is exactly one integer. -/
def IsVarint (val : List UInt8) (v : Nat) : Prop := varintDecode val = some (v, val.length)

def ValidEntry (e : TpEntry) : Prop :=
  tpServerOnly e.1 = false ∧
    ∀ row ∈ intParams, row.id = e.1 → ∃ v, IsVarint e.2 v ∧ row.min ≤ v ∧ v ≤ row.max

/-- A sequence of entries with different identifiers, each of which a client may send. -/
def Valid (tp : List UInt8) : Prop :=
  ∃ es, Spelled tparamGetBlob tp es ∧ (es.map Prod.fst).Nodup ∧ ∀ e ∈ es, ValidEntry e

/-- There is room for the identifiers of a valid sequence, and in a sequence that passes all checks
every integer is written as one. -/
def Follows (tp : List UInt8) : Prop :=
  ∀ es, Spelled tparamGetBlob tp es → (es.map Prod.fst).Nodup →
    ((∀ e ∈ es, ValidEntry e) → es.length ≤ tparamMaxSeen) ∧
    (es.length ≤ tparamMaxSeen → (∀ e ∈ es, tpClientTlvOk e = true) →
      ∀ e ∈ es, ∀ row ∈ intParams, row.id = e.1 → ∃ v, IsVarint e.2 v)

/-! ## What the loops accept -/

theorem tparamGetBlob_stable : Stable tparamGetBlob :=
  varintDecode_stable.then_ fun _ =>
    (varintDecode_stable.then_ fun len => takeBytes_readsHead len _).toReadsHead

variable {es : List TpEntry} {e : TpEntry} {tp : List UInt8} {id : Nat} {seen : List Nat}

theorem canRecord_iff : canRecord seen id = true ↔ seen.length < tparamMaxSeen ∧ id ∉ seen := by
  simp [canRecord]

/-- The table takes the identifiers as long as they are new and it has room. -/
theorem foldlM_seenStep (es : List TpEntry) (hseen : seen.Nodup)
    (hroom : seen.length ≤ tparamMaxSeen) :
    (∃ s, es.foldlM seenStep seen = some s) ↔
      (seen ++ es.map Prod.fst).Nodup ∧ seen.length + es.length ≤ tparamMaxSeen := by
  induction es generalizing seen with
  | nil => simpa using ⟨hseen, hroom⟩
  | cons e es ih =>
    have hlen : (seen ++ [e.1]).length = seen.length + 1 := length_append
    rw [foldlM_cons, map_cons, append_cons, length_cons]
    by_cases hnew : canRecord seen e.1 = true
    · obtain ⟨hlt, hfresh⟩ := canRecord_iff.mp hnew
      have hnodup : (seen ++ [e.1]).Nodup := concat_eq_append ▸ hseen.concat hfresh
      rw [seenStep, if_pos hnew]
      refine (ih hnodup (by omega)).trans ?_
      rw [hlen, add_assoc, add_comm 1]
    · rw [seenStep, if_neg hnew]
      refine ⟨fun h => absurd h (by simp), fun h => ?_⟩
      -- an identifier that is new while there is room could be recorded
      have hfirst := nodup_append.mp (nodup_append.mp h.1).1
      refine absurd (canRecord_iff.mpr ⟨by omega, fun hmem => ?_⟩) hnew
      exact hfirst.2.2 e.1 hmem e.1 (mem_singleton_self _) rfl

theorem foldlM_clientStep (es : List TpEntry) :
    (∃ s, es.foldlM (fun _ => tpClientStep) () = some s) ↔ ∀ e ∈ es, tpClientTlvOk e = true := by
  induction es with
  | nil => simp
  | cons e es ih =>
    rw [foldlM_cons, forall_mem_cons]
    by_cases hok : tpClientTlvOk e = true
    · rw [tpClientStep, if_pos hok]
      exact ih.trans ⟨fun h => ⟨hok, h⟩, fun h => h.2⟩
    · rw [tpClientStep, if_neg hok]
      exact ⟨fun h => absurd h (by simp), fun h => absurd h.1 hok⟩

/-- The checks accept the sequences of at most 32 entries with different identifiers each of which
passes. -/
theorem clientTpAccepted_iff (hes : Spelled tparamGetBlob tp es) :
    clientTpAccepted tp = true ↔
      ((es.map Prod.fst).Nodup ∧ es.length ≤ tparamMaxSeen) ∧ ∀ e ∈ es, tpClientTlvOk e = true := by
  have hwalk : ∀ {σ : Type} {act : σ → TpEntry → Option σ} {s : σ},
      (walkTokens tparamGetBlob act tp.length s tp).isSome = true ↔
        ∃ s', es.foldlM act s = some s' := by
    intro σ act s
    rw [isSome_iff_exists]
    refine exists_congr fun s' => (walkTokens_eq_some tparamGetBlob_stable le_rfl).trans ?_
    refine ⟨fun h => ?_, fun h => ⟨es, hes, h⟩⟩
    obtain ⟨ts, hts, hfold⟩ := h
    rwa [hts.unique tparamGetBlob_stable hes] at hfold
  have hseen : tparamNoDuplicates tp = true ↔
      (es.map Prod.fst).Nodup ∧ es.length ≤ tparamMaxSeen := by
    refine hwalk.trans ((foldlM_seenStep es nodup_nil zero_le).trans ?_)
    rw [nil_append, length_nil, zero_add]
  have hempty : tp.isEmpty = true → tparamNoDuplicates tp = true := by
    intro htp
    rw [List.isEmpty_iff.mp htp]
    rfl
  rw [clientTpAccepted, Bool.and_eq_true, Bool.or_eq_true, or_iff_right_of_imp hempty, hseen]
  exact and_congr_right fun _ => hwalk.trans (foldlM_clientStep es)

theorem clientTpAccepted_spelled (h : clientTpAccepted tp = true) :
    ∃ es, Spelled tparamGetBlob tp es := by
  obtain ⟨s, hs⟩ := isSome_iff_exists.mp (Bool.and_eq_true _ _ ▸ h : _ ∧ _).2
  obtain ⟨es, hes, -⟩ := (walkTokens_eq_some tparamGetBlob_stable le_rfl).mp hs
  exact ⟨es, hes⟩

/-! ## One entry -/

theorem rangeRow_eq_some {row : TpRangeRow} :
    rangeRow id = some row ↔ row ∈ tpRange ∧ row.id = id := by
  have hone : ∀ r ∈ tpRange, ∀ r' ∈ tpRange, r.id = r'.id → r = r' := by decide
  constructor
  · intro h
    exact ⟨mem_of_find?_eq_some h, by simpa using find?_some h⟩
  · rintro ⟨hmem, hid⟩
    cases hrow : rangeRow id with
    | none => exact absurd (decide_eq_true hid) (find?_eq_none.mp hrow row hmem)
    | some r =>
      have hr : r.id = id := by simpa using find?_some hrow
      rw [hone r (mem_of_find?_eq_some hrow) row hmem (hr.trans hid.symm)]

theorem tpClientTlvOk_iff : tpClientTlvOk e = true ↔ tpServerOnly e.1 = false ∧
    ∀ row ∈ tpRange, row.id = e.1 → (varintDecoded e.2).2 = e.2.length ∧
      row.min ≤ (varintDecoded e.2).1 ∧ (varintDecoded e.2).1 ≤ row.max := by
  rw [tpClientTlvOk, Bool.and_eq_true, Bool.not_eq_true']
  refine and_congr_right fun _ => ?_
  rw [tpValueOk, Bool.or_eq_true, tparamRangeOk]
  cases hrow : rangeRow e.1 with
  | none =>
    refine ⟨fun _ row hmem hid => ?_, fun _ => .inl rfl⟩
    rw [rangeRow_eq_some.mpr ⟨hmem, hid⟩] at hrow
    cases hrow
  | some row =>
    have honly : ∀ r ∈ tpRange, r.id = e.1 → r = row := fun r hmem hid =>
      Option.some.inj ((rangeRow_eq_some.mpr ⟨hmem, hid⟩).symm.trans hrow)
    obtain ⟨hmem, hid⟩ := rangeRow_eq_some.mp hrow
    simp only [isNone_some, Bool.false_eq_true, false_or, all_some, Bool.and_eq_true,
      decide_eq_true_eq]
    exact ⟨fun h r hr hrid => honly r hr hrid ▸ h, fun h => h row hmem hid⟩

theorem IsVarint.decoded {val : List UInt8} {v : Nat} (h : IsVarint val v) :
    varintDecoded val = (v, val.length) := by
  rw [varintDecoded, h, getD_some]

/-- An entry is valid if it passes and, should it be an integer, is written as one. -/
theorem validEntry_iff : ValidEntry e ↔ tpClientTlvOk e = true ∧
    ∀ row ∈ intParams, row.id = e.1 → ∃ v, IsVarint e.2 v := by
  rw [tpClientTlvOk_iff, ValidEntry, and_assoc]
  refine and_congr_right fun _ => ⟨fun h => ⟨fun row hrow hid => ?_, fun row hrow hid => ?_⟩,
    fun h row hrow hid => ?_⟩
  · obtain ⟨v, hv, hbounds⟩ := h row (mem_append_left _ hrow) hid
    rw [hv.decoded]
    exact ⟨rfl, hbounds⟩
  · obtain ⟨v, hv, -⟩ := h row hrow hid
    exact ⟨v, hv⟩
  · obtain ⟨v, hv⟩ := h.2 row hrow hid
    rcases mem_append.mp hrow with hrange | hfree
    · have hbounds := (h.1 row hrange hid).2
      rw [hv.decoded] at hbounds
      exact ⟨v, hv, hbounds⟩
    · obtain ⟨id, -, rfl⟩ := mem_map.mp hfree
      have hlt := varintDecode_lt hv
      refine ⟨v, hv, Nat.zero_le v, ?_⟩
      show v ≤ 2 ^ 64 - 1
      omega

/-! ## Lookup and specification -/

theorem stpFrom_spelled {fuel : Nat} (hes : Spelled tparamGetBlob tp es)
    (hfuel : tp.length ≤ fuel) :
    stpFrom id fuel tp = (es.find? fun e => e.1 = id).map fun e => stpEmit e.2 := by
  induction fuel generalizing tp es with
  | zero =>
    obtain rfl := eq_nil_of_length_eq_zero (Nat.le_zero.mp hfuel)
    rw [hes.unique tparamGetBlob_stable .nil]
    rfl
  | succ fuel ih =>
    cases es with
    | nil => rw [stpFrom, (hes.nil_get tparamGetBlob_stable).2, bind_none, find?_nil, map_none]
    | cons e es =>
      obtain ⟨n, hget, hrest⟩ := hes.cons_get
      rw [stpFrom, hget, bind_some]
      dsimp only
      by_cases hid : e.1 = id
      · rw [find?_cons_of_pos (by simpa using hid), if_pos hid, map_some]
      · rw [find?_cons_of_neg (by simpa using hid), if_neg hid,
          ih hrest (tparamGetBlob_stable.advances.drop_le hget hfuel)]

/-- The lookup finds each parameter of the sequence, and no other. -/
def LookupExact (tp : List UInt8) : Prop :=
  ∃ es, Spelled tparamGetBlob tp es ∧ (∀ e ∈ es, stpParse tp e.1 = some (stpEmit e.2)) ∧
    ∀ id, id ∉ es.map Prod.fst → stpParse tp id = none

theorem lookupExact (hes : Spelled tparamGetBlob tp es) (hnodup : (es.map Prod.fst).Nodup) :
    LookupExact tp := by
  refine ⟨es, hes, fun e he => ?_, fun id hid => ?_⟩
  · rw [stpParse, stpFrom_spelled hes le_rfl]
    cases hfind : es.find? (fun x => x.1 = e.1) with
    | none => exact absurd (decide_eq_true rfl) (find?_eq_none.mp hfind e he)
    | some x =>
      -- an entry with the same identifier is the same entry
      have hsame : x.1 = e.1 := by simpa using find?_some hfind
      rw [inj_on_of_nodup_map hnodup (mem_of_find?_eq_some hfind) he hsame, map_some]
  · rw [stpParse, stpFrom_spelled hes le_rfl, find?_eq_none.mpr, map_none]
    intro e he hsame
    exact hid (mem_map.mpr ⟨e, he, by simpa using hsame⟩)

/-- For a byte string on which `Follows` holds, and for no other, the checks accept it if and only
if it is valid, and the lookup then returns the value of each parameter. -/
theorem clientTp_exact (tp : List UInt8) :
    (clientTpAccepted tp = true ↔ Valid tp) ∧ (clientTpAccepted tp = true → LookupExact tp) ↔
      Follows tp := by
  have hlookup : clientTpAccepted tp = true → LookupExact tp := by
    intro haccept
    obtain ⟨es, hes⟩ := clientTpAccepted_spelled haccept
    exact lookupExact hes ((clientTpAccepted_iff hes).mp haccept).1.1
  rw [and_iff_left hlookup]
  constructor
  · intro h es hes hnodup
    refine ⟨fun hvalid => ?_, fun hroom hok e he => ?_⟩
    · exact ((clientTpAccepted_iff hes).mp (h.mpr ⟨es, hes, hnodup, hvalid⟩)).1.2
    · obtain ⟨es', hes', -, hvalid⟩ := h.mp ((clientTpAccepted_iff hes).mpr ⟨⟨hnodup, hroom⟩, hok⟩)
      rw [hes'.unique tparamGetBlob_stable hes] at hvalid
      exact (validEntry_iff.mp (hvalid e he)).2
  · intro h
    constructor
    · intro haccept
      obtain ⟨es, hes⟩ := clientTpAccepted_spelled haccept
      obtain ⟨⟨hnodup, hroom⟩, hok⟩ := (clientTpAccepted_iff hes).mp haccept
      have hints := (h es hes hnodup).2 hroom hok
      exact ⟨es, hes, hnodup, fun e he => validEntry_iff.mpr ⟨hok e he, hints e he⟩⟩
    · rintro ⟨es, hes, hnodup, hvalid⟩
      refine (clientTpAccepted_iff hes).mpr ⟨⟨hnodup, (h es hes hnodup).1 hvalid⟩, fun e he => ?_⟩
      exact (validEntry_iff.mp (hvalid e he)).1

/-- 33 parameters that no one knows. -/
def manyUnknown : List UInt8 := (List.range 33).flatMap fun i => [UInt8.ofNat (0x11 + i), 0]

theorem manyUnknown_spelled :
    Spelled tparamGetBlob manyUnknown ((List.range 33).map fun i => (0x11 + i, [])) := by
  have hget : ∀ i ∈ List.range 33,
      tparamGetBlob [UInt8.ofNat (0x11 + i), 0] = some ((0x11 + i, []), 2) := by decide
  unfold manyUnknown
  generalize List.range 33 = l at hget
  induction l with
  | nil => exact .nil
  | cons i l ih =>
    obtain ⟨hi, hrest⟩ := forall_mem_cons.mp hget
    exact .cons (.of_decoded tparamGetBlob_stable hi) (ih hrest)

/-- An `ack_delay_exponent` of no byte is accepted and so are three bytes for `initial_max_data`,
and 33 unknown parameters are not. -/
theorem clientTp_diverges :
    (clientTpAccepted [0x0a, 0x00] = true ∧ ¬ Valid [0x0a, 0x00]) ∧
      (clientTpAccepted [0x04, 0x03, 1, 2, 3] = true ∧ ¬ Valid [0x04, 0x03, 1, 2, 3]) ∧
      clientTpAccepted manyUnknown = false ∧ Valid manyUnknown := by
  have hinvalid : ∀ {tp : List UInt8} {e : TpEntry}, tparamGetBlob tp = some (e, tp.length) →
      (∃ row ∈ intParams, row.id = e.1) → (∀ v, ¬ IsVarint e.2 v) → ¬ Valid tp := by
    rintro tp e hget ⟨row, hrow, hid⟩ hno ⟨es, hes, -, hvalid⟩
    rw [hes.unique tparamGetBlob_stable (.one (.of_decoded tparamGetBlob_stable hget))] at hvalid
    obtain ⟨v, hv, -⟩ := (hvalid e (mem_singleton_self e)).2 row hrow hid
    exact hno v hv
  refine ⟨⟨by decide, ?_⟩, ⟨by decide, ?_⟩, ?_, _, manyUnknown_spelled, by decide, ?_⟩
  · refine hinvalid (e := (0x0a, [])) (by decide) (by decide) fun v hv => ?_
    cases hv
  · refine hinvalid (e := (0x04, [1, 2, 3])) (by decide) (by decide) fun v hv => ?_
    cases hv
  · refine Bool.eq_false_iff.mpr fun h => ?_
    exact absurd ((clientTpAccepted_iff manyUnknown_spelled).mp h).1.2 (by decide)
  · have hother : ∀ i ∈ List.range 33, tpServerOnly (0x11 + i) = false ∧
        ∀ row ∈ intParams, row.id ≠ 0x11 + i := by decide
    intro e he
    obtain ⟨i, hi, rfl⟩ := mem_map.mp he
    obtain ⟨hclient, hfree⟩ := hother i hi
    exact ⟨hclient, fun row hrow hid => absurd hid (hfree row hrow)⟩

end Wired.Tls
