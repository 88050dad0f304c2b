import Mathlib.Tactic.Ring
import Wired.Lib.Tokens

/-!
# Variable-length integers

`varint.c`: the two high bits of the first byte say how many bytes the integer has, one, two,
four or eight; the other bits are the value, most significant byte first. The encoder takes the
shortest of the four forms, the decoder takes them all.
-/

namespace Wired.Transport

open Lib List

def varintNeed (b : UInt8) : Nat := 2 ^ (b.toNat / 64)

/-- The bytes most significant first, the first one without its high bits. -/
def getBe : List UInt8 → Nat
  | [] => 0
  | b :: rest => rest.foldl (fun v x => v * 2 ^ 8 + x.toNat) (b.toNat % 64)

/-- The integer at the head, and its length. -/
def varintDecode (buf : List UInt8) : Option (Nat × Nat) :=
  buf.head?.bind fun b =>
    if buf.length < varintNeed b then none
    else some (getBe (buf.take (varintNeed b)), varintNeed b)

def varintMax : Nat := 2 ^ 62 - 1

/-- Zero if the value has no encoding. -/
def varintLen (v : Nat) : Nat :=
  if v ≤ 0x3F then 1
  else if v ≤ 0x3FFF then 2
  else if v ≤ 0x3FFFFFFF then 4
  else if v ≤ varintMax then 8
  else 0

def lenPrefix : Nat → UInt8
  | 2 => 0x40
  | 4 => 0x80
  | 8 => 0xC0
  | _ => 0

/-- The `n` low bytes of a value, most significant first. -/
def beBytes : Nat → Nat → List UInt8
  | 0, _ => []
  | n + 1, v => beBytes n (v / 2 ^ 8) ++ [UInt8.ofNat (v % 2 ^ 8)]

def putBe (v n : Nat) (pre : UInt8) : List UInt8 :=
  match beBytes n v with
  | [] => []
  | b :: rest => (b ||| pre) :: rest

def varintEncode (v : Nat) : List UInt8 := putBe v (varintLen v) (lenPrefix (varintLen v))

/-- Appends the encoding to what a buffer of `cap` bytes holds. -/
def varintPut (cap : Nat) (out : List UInt8) (v : Nat) : Option (List UInt8) :=
  if varintLen v = 0 ∨ out.length + varintLen v > cap then none else some (out ++ varintEncode v)

def varintTake : Decoder UInt8 Nat := varintDecode

/-! ## Decoding -/

theorem varintDecode_stable : Stable varintDecode :=
  Stable.ofLength (fun _ => Nat.two_pow_pos _) fun _ => getBe

theorem foldl_bytes_lt {acc k : Nat} (bs : List UInt8) (hacc : acc < 2 ^ k) :
    bs.foldl (fun v x => v * 2 ^ 8 + x.toNat) acc < 2 ^ (k + 8 * bs.length) := by
  induction bs generalizing acc k with
  | nil => exact hacc
  | cons b bs ih =>
    have hb := b.toNat_lt
    have hnext : acc * 2 ^ 8 + b.toNat < 2 ^ (k + 8) := by
      rw [pow_add]
      omega
    rw [length_cons, Nat.mul_succ, add_comm _ 8, ← add_assoc]
    exact ih hnext

theorem varintNeed_le (b : UInt8) : varintNeed b ≤ 8 := by
  have hb := b.toNat_lt
  exact Nat.pow_le_pow_right (by omega) (by omega : b.toNat / 64 ≤ 3)

variable {v cap : Nat} {vs : List Nat}

theorem varintDecode_lt {buf : List UInt8} {n : Nat} (h : varintDecode buf = some (v, n)) :
    v < 2 ^ 62 := by
  obtain ⟨b, rest, hlen, rfl, -⟩ := Stable.ofLength_eq_some (fun _ => Nat.two_pow_pos _) h
  have hneed := varintNeed_le b
  have htop : b.toNat % 64 < 2 ^ 6 := Nat.mod_lt _ (by decide)
  exact lt_of_lt_of_le (foldl_bytes_lt rest htop)
    (Nat.pow_le_pow_right Nat.two_pos (by rw [varintNeed] at hneed; omega))

theorem spelled_lt {b : List UInt8} (h : Spelled varintDecode b vs) : ∀ v ∈ vs, v < 2 ^ 62 := by
  induction h with
  | nil => nofun
  | cons head tail ih => exact forall_mem_cons.mpr ⟨varintDecode_lt (head []), ih⟩

theorem varintTake_bind {β : Type} {e : Nat → Decoder UInt8 β} {Q : Nat → β → List Nat → Prop}
    (he : ∀ v < 2 ^ 62, Reads varintDecode (e v) (Q v)) :
    Reads varintDecode (varintTake >>= e) fun w ts => ∃ v ts', ts = v :: ts' ∧ Q v w ts' := by
  apply Reads.cons varintDecode_stable
  rintro v ⟨b, n, h⟩
  exact he v (varintDecode_lt h)

/-! ## Encoding -/

theorem beBytes_succ (n v : Nat) :
    beBytes (n + 1) v = UInt8.ofNat (v / 2 ^ (8 * n) % 2 ^ 8) :: beBytes n v := by
  induction n generalizing v with
  | zero => simp [beBytes]
  | succ n ih =>
    rw [beBytes, ih, Nat.div_div_eq_div_mul, ← pow_add, cons_append, add_comm 8 (8 * n)]
    rfl

@[simp] theorem beBytes_length (n v : Nat) : (beBytes n v).length = n := by
  induction n generalizing v with
  | zero => rfl
  | succ n ih => simp [beBytes, ih]

theorem foldl_beBytes (n v acc : Nat) :
    (beBytes n v).foldl (fun v x => v * 2 ^ 8 + x.toNat) acc =
      acc * 2 ^ (8 * n) + v % 2 ^ (8 * n) := by
  induction n generalizing v with
  | zero => simp [beBytes, Nat.mod_one]
  | succ n ih =>
    have hmod : v % 2 ^ (8 * (n + 1)) = v % 2 ^ 8 + 2 ^ 8 * (v / 2 ^ 8 % 2 ^ (8 * n)) := by
      rw [← Nat.mod_mul, ← pow_add]
      congr 2
      omega
    have hbyte : (UInt8.ofNat (v % 2 ^ 8)).toNat = v % 2 ^ 8 := by
      rw [UInt8.toNat_ofNat']
      omega
    rw [beBytes, foldl_append, ih, foldl_cons, foldl_nil, hbyte, hmod, mul_add, pow_add]
    ring

/-- The four forms: a value that has room beside the length bits. -/
theorem putBe_codes {k : Nat} {pre : UInt8}
    (hpre : ∀ t < 64, (UInt8.ofNat t ||| pre).toNat = 64 * k + t) (hv : v < 2 ^ (8 * 2 ^ k - 2)) :
    Codes varintDecode (putBe v (2 ^ k) pre) v ∧ (putBe v (2 ^ k) pre).length = 2 ^ k := by
  obtain ⟨m, hm⟩ : ∃ m, 2 ^ k = m + 1 := ⟨2 ^ k - 1, by have := Nat.two_pow_pos k; omega⟩
  have htop : v / 2 ^ (8 * m) < 64 := by
    apply Nat.div_lt_of_lt_mul
    rwa [show (64 : Nat) = 2 ^ 6 from rfl, ← pow_add, show 8 * m + 6 = 8 * 2 ^ k - 2 by omega]
  obtain ⟨top, hv, htop⟩ : ∃ top, v / 2 ^ (8 * m) = top ∧ top < 64 := ⟨_, rfl, htop⟩
  have hput : putBe v (2 ^ k) pre = (UInt8.ofNat top ||| pre) :: beBytes m v := by
    rw [putBe, hm, beBytes_succ, hv, Nat.mod_eq_of_lt (by omega)]
  have hneed : varintNeed (UInt8.ofNat top ||| pre) = (beBytes m v).length + 1 := by
    rw [varintNeed, hpre top htop, beBytes_length, ← hm]
    congr 1
    omega
  have hvalue : getBe ((UInt8.ofNat top ||| pre) :: beBytes m v) = v := by
    rw [getBe, hpre top htop, foldl_beBytes, show (64 * k + top) % 64 = top by omega, ← hv,
      mul_comm]
    exact Nat.div_add_mod v _
  have hcodes : Codes varintDecode (_ :: beBytes m v) (getBe (_ :: beBytes m v)) :=
    Codes.ofLength hneed
  rw [hvalue] at hcodes
  rw [hput]
  exact ⟨hcodes, by rw [length_cons, beBytes_length, hm]⟩

theorem varintEncode_codes (hv : v < 2 ^ 62) :
    Codes varintDecode (varintEncode v) v ∧ (varintEncode v).length = varintLen v := by
  have h0 : ∀ t < 64, (UInt8.ofNat t ||| 0).toNat = 64 * 0 + t := by decide
  have h1 : ∀ t < 64, (UInt8.ofNat t ||| 0x40).toNat = 64 * 1 + t := by decide
  have h2 : ∀ t < 64, (UInt8.ofNat t ||| 0x80).toNat = 64 * 2 + t := by decide
  have h3 : ∀ t < 64, (UInt8.ofNat t ||| 0xC0).toNat = 64 * 3 + t := by decide
  unfold varintEncode varintLen varintMax
  split_ifs with hone htwo hfour height
  · exact putBe_codes (k := 0) h0 (by omega)
  · exact putBe_codes (k := 1) h1 (by omega)
  · exact putBe_codes (k := 2) h2 (by omega)
  · exact putBe_codes (k := 3) h3 (by omega)
  · omega

theorem varintLen_le (v : Nat) : varintLen v ≤ 8 := by
  unfold varintLen
  split_ifs <;> omega

theorem varintLen_pos : varintLen v ≠ 0 ↔ v < 2 ^ 62 := by
  unfold varintLen varintMax
  split_ifs <;> omega

def varintPuts (cap : Nat) (out : List UInt8) (vs : List Nat) : Option (List UInt8) :=
  vs.foldlM (varintPut cap) out

theorem varintPuts_append (cap : Nat) (out : List UInt8) (vs ws : List Nat) :
    varintPuts cap out (vs ++ ws) = (varintPuts cap out vs).bind fun o => varintPuts cap o ws :=
  foldlM_append

theorem varintPuts_eq_some {out o : List UInt8} (h : varintPuts cap out vs = some o) :
    ∃ e, o = out ++ e ∧ Spelled varintDecode e vs := by
  induction vs generalizing out with
  | nil =>
    obtain rfl := Option.some.inj h
    exact ⟨[], (append_nil _).symm, .nil⟩
  | cons v vs ih =>
    obtain ⟨o', hv, hrest⟩ := Option.bind_eq_some_iff.mp h
    unfold varintPut at hv
    split at hv
    · cases hv
    rename_i hfits
    obtain rfl := Option.some.inj hv
    obtain ⟨e, rfl, he⟩ := ih hrest
    have hlt : v < 2 ^ 62 := varintLen_pos.mp (not_or.mp hfits).1
    exact ⟨varintEncode v ++ e, append_assoc _ _ _, .cons (varintEncode_codes hlt).1 he⟩

theorem varintPuts_of_room {out : List UInt8} (hvs : ∀ v ∈ vs, v < 2 ^ 62)
    (hroom : out.length + 8 * vs.length ≤ cap) : ∃ o, varintPuts cap out vs = some o := by
  induction vs generalizing out with
  | nil => exact ⟨out, rfl⟩
  | cons v vs ih =>
    have hv := hvs v mem_cons_self
    have hle := varintLen_le v
    have hpos := varintLen_pos.mpr hv
    rw [length_cons] at hroom
    have hput : varintPut cap out v = some (out ++ varintEncode v) := by
      rw [varintPut, if_neg]
      omega
    have hrest : (out ++ varintEncode v).length + 8 * vs.length ≤ cap := by
      rw [length_append, (varintEncode_codes hv).2]
      omega
    obtain ⟨o, ho⟩ := ih (fun w hw => hvs w (mem_cons_of_mem _ hw)) hrest
    refine ⟨o, ?_⟩
    rw [varintPuts, foldlM_cons, hput]
    exact ho

end Wired.Transport
