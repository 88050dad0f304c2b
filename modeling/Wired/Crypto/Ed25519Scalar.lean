import Wired.Lib.ByteLoop

/-!
# Scalars of Ed25519

`ed25519_sign.c` and `ed25519_sign_sc.c`: the product of two scalars in byte columns, the sum with
a third, and the reduction modulo the group order, bit by bit from the top. An array is a function
of which the first 32 or 64 bytes count. The main result is `scalar_arithmetic_exact`.
-/

namespace Wired.Crypto

open Lib Checked

def groupOrder : Nat := 2 ^ 252 + 27742317777372353535851937790883648493

def orderL (i : Nat) : UInt8 :=
  [0xed, 0xd3, 0xf5, 0x5c, 0x1a, 0x63, 0x12, 0x58, 0xd6, 0x9c, 0xf7, 0xa2, 0xde, 0xf9, 0xde, 0x14,
    0, 0, 0, 0, 0, 0, 0, 0, 0, 0, 0, 0, 0, 0, 0, 0x10].getD i 0

/-! ## Reduction -/

/-- The bytes below `i`, the top one first. -/
def ed25519SignScGe (a b : Nat → UInt8) : (i : Nat) → Bool
  | 0 => true
  | i + 1 => if a i ≠ b i then b i < a i else ed25519SignScGe a b i

def scSublRound (r : Nat → UInt8) (i : Nat) (borrow : Int) : Checked (UInt8 × Int) :=
  let v : Int := (r i).toNat - (orderL i).toNat - borrow
  let borrow := if v < 0 then 1 else 0
  pure (UInt8.ofInt (v + borrow * 2 ^ 8), borrow)

def scSubl (r : Nat → UInt8) : Checked (Nat → UInt8) := do
  let out ← byteLoop (scSublRound r) 0 32
  pure out.1

/-- The array, and the bit that is shifted out. -/
def scShl1 (r : Nat → UInt8) (bit : Nat) : Checked ((Nat → UInt8) × Nat) :=
  carryLoop (fun i carry => pure ((r i).toNat * 2 ^ 1 ||| carry)) bit 32

def scDblAddBit (r : Nat → UInt8) (bit : Nat) : Checked (Nat → UInt8) := do
  let r ← scShl1 r bit
  if r.2 ||| (ed25519SignScGe r.1 orderL 32).toNat ≠ 0 then scSubl r.1 else pure r.1

/-- The bits below `i`, the top one first. -/
def scReduceBits (inp : Nat → UInt8) : (i : Nat) → (Nat → UInt8) → Checked (Nat → UInt8)
  | 0, out => pure out
  | i + 1, out => do
    let out ← scDblAddBit out ((inp (i / 8)).toNat / 2 ^ (i % 8) % 2)
    scReduceBits inp i out

/-- The residue of 64 bytes. -/
def ed25519SignScReduce64 (inp : Nat → UInt8) : Checked (Nat → UInt8) :=
  scReduceBits inp 512 fun _ => 0

/-! ## Product and sum -/

/-- The columns `i` to `i + j - 1`. -/
def scMulRow (t : Nat → Nat) (a b : Nat → UInt8) (i : Nat) : (j : Nat) → Checked (Nat → Nat)
  | 0 => pure t
  | j + 1 => do
    let t ← scMulRow t a b i j
    let v ← add 64 (t (i + j)) ((a i).toNat * (b j).toNat)
    pure (Function.update t (i + j) v)

/-- The rows below `i`. -/
def scMulRows (a b : Nat → UInt8) : (i : Nat) → Checked (Nat → Nat)
  | 0 => pure fun _ => 0
  | i + 1 => do
    let t ← scMulRows a b i
    scMulRow t a b i 32

/-- The product, and the carry that is left at its end. -/
def scMul512 (a b : Nat → UInt8) : Checked ((Nat → UInt8) × Nat) := do
  let t ← scMulRows a b 32
  carryLoop (fun i c => add 64 (t i) c) 0 64

/-- The sum, and the carry that is left at its end. -/
def scAdd32 (prod c : Nat → UInt8) : Checked ((Nat → UInt8) × Nat) :=
  carryLoop (fun i carry => pure ((prod i).toNat + carry + (if i < 32 then c i else 0).toNat)) 0 64

/-- The product of two scalars plus a third, reduced. -/
def scMuladd (a b c : Nat → UInt8) : Checked (Nat → UInt8) := do
  let prod ← scMul512 a b
  let sum ← scAdd32 prod.1 c
  ed25519SignScReduce64 sum.1

variable {r : Nat → UInt8} (a b c inp : Nat → UInt8)

/-! ## The remainder stays below the order -/

theorem ed25519SignScGe_iff (n : Nat) : ed25519SignScGe a b n = true ↔ leVal b n ≤ leVal a n := by
  induction n with
  | zero => exact iff_of_true rfl le_rfl
  | succ n ih =>
    rw [ed25519SignScGe, leVal, leVal]
    split
    · rename_i hne
      rw [decide_eq_true_iff, UInt8.lt_iff_toNat_lt]
      exact (top_le_iff (leVal_lt a n) (leVal_lt b n) fun h => hne (UInt8.toNat_inj.mp h)).symm
    · rename_i heq
      rw [ih, not_not.mp heq, Nat.add_le_add_iff_right]

theorem leVal_orderL : leVal orderL 32 = groupOrder := by decide +kernel

theorem scSubl_spec (h : groupOrder ≤ leVal r 32) :
    ∃ r', scSubl r = pure r' ∧ leVal r' 32 = leVal r 32 - groupOrder := by
  have horder : colVal (fun i => 255 - (orderL i).toNat) 32 + 1 + groupOrder = 2 ^ (8 * 32) := by
    decide +kernel
  -- a column is 255 more than the difference, and a borrow the one that is not carried
  have hround : ∀ i borrow, borrow = 0 ∨ borrow = 1 → ∃ x borrow',
      scSublRound r i borrow = pure (x, borrow') ∧ (borrow' = 0 ∨ borrow' = 1) ∧
        x.toNat + 2 ^ 8 * (1 - borrow').toNat =
          (r i).toNat + (255 - (orderL i).toNat) + (1 - borrow).toNat := by
    intro i borrow hborrow
    have hr := (r i).toNat_lt
    have hl := (orderL i).toNat_lt
    refine ⟨_, _, rfl, by split <;> simp, ?_⟩
    rw [UInt8.ofInt, UInt8.toNat_ofNat']
    split <;> omega
  obtain ⟨out, borrow, hloop, hborrow, hval⟩ := byteLoop_spec (.inl rfl) 32 hround
  have hlt := leVal_lt out 32
  have hlt' := leVal_lt r 32
  rw [colVal_add, ← leVal_eq_colVal] at hval
  refine ⟨out, by rw [scSubl, hloop]; rfl, ?_⟩
  omega

theorem scShl1_spec {bit : Nat} (hbit : bit < 2) :
    ∃ r' c, scShl1 r bit = pure (r', c) ∧
      leVal r' 32 + 2 ^ (8 * 32) * c = 2 * leVal r 32 + bit := by
  obtain ⟨r', c, hloop, hval⟩ := carryLoop_spec (t := fun i => (r i).toNat + (r i).toNat) hbit 32
    (v := fun i carry => pure ((r i).toNat * 2 ^ 1 ||| carry)) fun i carry hcarry => by
      have hr := (r i).toNat_lt
      rw [Nat.or_comm, or_shl hcarry]
      refine ⟨?_, by omega⟩
      congr 1
      omega
  rw [colVal_add, ← leVal_eq_colVal, ← Nat.two_mul] at hval
  exact ⟨r', c, hloop, hval⟩

theorem scDblAddBit_spec {bit : Nat} (hr : leVal r 32 < groupOrder) (hbit : bit < 2) :
    ∃ r', scDblAddBit r bit = pure r' ∧ leVal r' 32 = (2 * leVal r 32 + bit) % groupOrder := by
  have horder : groupOrder < 2 ^ 253 := by decide
  obtain ⟨r', c, hshl, hval⟩ := scShl1_spec (r := r) hbit
  obtain ⟨rfl, heq⟩ := no_carry hval (by omega)
  have hge := ed25519SignScGe_iff r' orderL 32
  rw [leVal_orderL] at hge
  rw [scDblAddBit, hshl, pure_bind]
  dsimp only
  cases hcmp : ed25519SignScGe r' orderL 32 with
  | false =>
    rw [hcmp] at hge
    have hlt := Nat.not_le.mp (hge.not.mp Bool.false_ne_true)
    exact ⟨r', if_neg (by decide), by rw [← heq, Nat.mod_eq_of_lt hlt]⟩
  | true =>
    obtain ⟨r'', hsub, hval'⟩ := scSubl_spec (hge.mp hcmp)
    refine ⟨r'', (if_pos (by decide)).trans hsub, ?_⟩
    rw [hval', heq, Nat.mod_eq_sub_mod (heq ▸ hge.mp hcmp), Nat.mod_eq_of_lt (by omega)]

theorem scReduceBits_spec {i : Nat} (hi : i ≤ 512) {out : Nat → UInt8}
    (h : leVal out 32 = leVal inp 64 / 2 ^ i % groupOrder) :
    ∃ r, scReduceBits inp i out = pure r ∧ leVal r 32 = leVal inp 64 % groupOrder := by
  induction i generalizing out with
  | zero => exact ⟨out, rfl, by rw [h, pow_zero, Nat.div_one]⟩
  | succ i ih =>
    have hpos : 0 < groupOrder := by decide
    obtain ⟨r, hstep, hval⟩ := scDblAddBit_spec (h ▸ Nat.mod_lt _ hpos)
      (Nat.mod_lt ((inp (i / 8)).toNat / 2 ^ (i % 8)) two_pos)
    rw [scReduceBits, hstep, pure_bind]
    apply ih (by omega)
    rw [hval, h, ← leVal_bit inp (by omega : i < 8 * 64), pow_succ, ← Nat.div_div_eq_div_mul,
      Nat.add_mod, Nat.mul_mod_mod, ← Nat.add_mod, Nat.div_add_mod]

theorem ed25519SignScReduce64_spec :
    ∃ r, ed25519SignScReduce64 inp = pure r ∧ leVal r 32 = leVal inp 64 % groupOrder := by
  apply scReduceBits_spec inp le_rfl
  rw [leVal_zeros fun _ _ => rfl, Nat.div_eq_of_lt (leVal_lt inp 64)]
  rfl

/-! ## No column overflows -/

theorem scMulRow_spec {t : Nat → Nat} {i j m : Nat} (hj : i + j ≤ 64)
    (ht : ∀ k, t k ≤ m) (hm : m + 2 ^ 16 * j < 2 ^ 64) :
    ∃ t', scMulRow t a b i j = pure t' ∧ (∀ k, t' k ≤ m + 2 ^ 16 * j) ∧
      colVal t' 64 = colVal t 64 + 2 ^ (8 * i) * ((a i).toNat * leVal b j) := by
  induction j with
  | zero => exact ⟨t, rfl, by simpa using ht, by simp [leVal]⟩
  | succ j ih =>
    obtain ⟨t', hrow, hle, hval⟩ := ih (by omega) (by omega)
    have hmul := Nat.mul_lt_mul'' (a i).toNat_lt (b j).toNat_lt
    have hcol := hle (i + j)
    refine ⟨Function.update t' (i + j) (t' (i + j) + (a i).toNat * (b j).toNat), ?_, ?_, ?_⟩
    · rw [scMulRow, hrow, pure_bind, add_eq (by omega), pure_bind]
    · intro k
      have := hle k
      by_cases hk : k = i + j
      · rw [hk, Function.update_self]
        omega
      · rw [Function.update_of_ne hk]
        omega
    · calc colVal (Function.update t' (i + j) (t' (i + j) + (a i).toNat * (b j).toNat)) 64
          = colVal t' 64 + 2 ^ (8 * (i + j)) * ((a i).toNat * (b j).toNat) :=
            colVal_update (by omega) _
        _ = colVal t 64 + 2 ^ (8 * i) * ((a i).toNat * leVal b (j + 1)) := by
            rw [hval, leVal]
            ring

theorem scMulRows_spec {i : Nat} (hi : i ≤ 32) :
    ∃ t, scMulRows a b i = pure t ∧ (∀ k, t k ≤ 2 ^ 21 * i) ∧
      colVal t 64 = leVal a i * leVal b 32 := by
  induction i with
  | zero => exact ⟨_, rfl, fun _ => zero_le, by simp [colVal, leVal]⟩
  | succ i ih =>
    obtain ⟨t, hrows, hle, hval⟩ := ih (by omega)
    obtain ⟨t', hrow, hle', hval'⟩ := scMulRow_spec a b (by omega : i + 32 ≤ 64) hle (by omega)
    refine ⟨t', by rw [scMulRows, hrows, pure_bind, hrow], fun k => ?_, ?_⟩
    · have := hle' k
      omega
    · rw [hval', hval, ← mul_assoc, ← add_mul]
      rfl

theorem leVal_muladd_lt : leVal a 32 * leVal b 32 + leVal c 32 < 2 ^ (8 * 64) := by
  rw [show 8 * 64 = 8 * 32 + 8 * 32 from rfl, pow_add]
  calc leVal a 32 * leVal b 32 + leVal c 32
      < leVal a 32 * 2 ^ (8 * 32) + 2 ^ (8 * 32) :=
        Nat.add_lt_add_of_le_of_lt (Nat.mul_le_mul_left _ (leVal_lt b 32).le) (leVal_lt c 32)
    _ = (leVal a 32 + 1) * 2 ^ (8 * 32) := (Nat.succ_mul ..).symm
    _ ≤ 2 ^ (8 * 32) * 2 ^ (8 * 32) := Nat.mul_le_mul_right _ (leVal_lt a 32)

theorem scMul512_spec :
    ∃ prod, scMul512 a b = pure (prod, 0) ∧ leVal prod 64 = leVal a 32 * leVal b 32 := by
  obtain ⟨t, hrows, hle, hval⟩ := scMulRows_spec a b le_rfl
  obtain ⟨prod, c, hloop, hprod⟩ := carryLoop_spec (t := t) (by decide : 0 < 2 ^ 20) 64
    (v := fun i c => add 64 (t i) c) fun i c hc => by
      have := hle i
      exact ⟨add_eq (by omega), by omega⟩
  rw [hval, add_zero] at hprod
  obtain ⟨rfl, heq⟩ := no_carry hprod
    (lt_of_le_of_lt (Nat.le_add_right _ _) (leVal_muladd_lt a b a))
  exact ⟨prod, by rw [scMul512, hrows, pure_bind, hloop], heq⟩

theorem scAdd32_spec {prod c : Nat → UInt8} (h : leVal prod 64 + leVal c 32 < 2 ^ (8 * 64)) :
    ∃ sum, scAdd32 prod c = pure (sum, 0) ∧ leVal sum 64 = leVal prod 64 + leVal c 32 := by
  have hc : leVal (fun i => if i < 32 then c i else 0) 64 = leVal c 32 := by
    have hhigh : leVal (fun i => if 32 + i < 32 then c (32 + i) else 0) 32 = 0 :=
      leVal_zeros fun i _ => if_neg (by omega)
    rw [leVal_add _ 32 32, hhigh, mul_zero, add_zero]
    exact leVal_congr fun i hi => if_pos hi
  obtain ⟨sum, carry, hloop, hval⟩ := carryLoop_spec
    (t := fun i => (prod i).toNat + (if i < 32 then c i else 0).toNat) two_pos 64
    (v := fun i carry => pure ((prod i).toNat + carry + (if i < 32 then c i else 0).toNat))
    fun i carry hcarry => by
      have := (prod i).toNat_lt
      have := (if i < 32 then c i else 0).toNat_lt
      exact ⟨by rw [Nat.add_right_comm], by omega⟩
  rw [colVal_add, ← leVal_eq_colVal, ← leVal_eq_colVal, hc, add_zero] at hval
  obtain ⟨rfl, heq⟩ := no_carry hval h
  exact ⟨sum, hloop, heq⟩

/-- **Scalars.** The signing scalar is the product plus the third scalar modulo the group order, and
64 bytes are reduced to their residue; no column overflows and no carry is lost. -/
theorem scalar_arithmetic_exact :
    (∀ a b c, ∃ prod sum s, scMul512 a b = pure (prod, 0) ∧ scAdd32 prod c = pure (sum, 0) ∧
      leVal sum 64 = leVal a 32 * leVal b 32 + leVal c 32 ∧ scMuladd a b c = pure s ∧
      leVal s 32 = (leVal a 32 * leVal b 32 + leVal c 32) % groupOrder) ∧
    ∀ inp, ∃ r, ed25519SignScReduce64 inp = pure r ∧
      leVal r 32 = leVal inp 64 % groupOrder := by
  refine ⟨fun a b c => ?_, ed25519SignScReduce64_spec⟩
  obtain ⟨prod, hprod, hval⟩ := scMul512_spec a b
  obtain ⟨sum, hsum, hval'⟩ := scAdd32_spec (by rw [hval]; exact leVal_muladd_lt a b c)
  obtain ⟨s, hs, hres⟩ := ed25519SignScReduce64_spec sum
  rw [hval] at hval'
  refine ⟨prod, sum, s, hprod, hsum, hval', ?_, by rw [hres, hval']⟩
  rw [scMuladd, hprod, pure_bind, hsum, pure_bind, hs]

end Wired.Crypto
