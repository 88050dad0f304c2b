import Wired.Crypto.P256Inverse

/-!
# P-256 arithmetic in memory

The functions of `p256_field*.c` as they are called: the result goes to the four words at `r`, and
an operand may be any place in memory, the result itself or a part of it included (`Operand`).
Local arrays and constants overlap nothing and are values.

What a function leaves is `store σ r v` with the value `v` of `P256Field` and the modules over it,
whatever the operands overlap, because each reads its operands before it writes over them.
`p256_fp_inv_p` is the exception: it reads `a` again after it has written to `r`. `p256_arithmetic`
has the products and the inverses together.
-/

namespace Wired.Crypto.P256

open Lib List

/-! ## Memory -/

abbrev Memory := Nat → UInt64

def setLimb (σ : Memory) (p : Nat) (x : UInt64) : Memory := Function.update σ p x

/-- The element at an address. -/
def load (σ : Memory) (p : Nat) : P256Fe := fe (σ p) (σ (p + 1)) (σ (p + 2)) (σ (p + 3))

/-- Memory with an element written at an address, limb by limb. -/
def store (σ : Memory) (r : Nat) (v : P256Fe) : Memory :=
  (List.range 4).foldl (fun σ i => setLimb σ (r + i) (v.limb i)) σ

/-- An operand: the words at an address, or a value of its own. -/
inductive Operand
  | mem (p : Nat)
  | loc (v : P256Fe)

/-- A limb of an operand, as memory is now. -/
def Operand.limb (σ : Memory) : Operand → Nat → UInt64
  | mem p, i => σ (p + i)
  | loc v, i => v.limb i

/-- The value of an operand, as memory is now. -/
def Operand.fe (σ : Memory) (a : Operand) : P256Fe :=
  P256.fe (a.limb σ 0) (a.limb σ 1) (a.limb σ 2) (a.limb σ 3)

/-- The operand is no part of the words at `r`. -/
def Operand.Apart (r : Nat) : Operand → Prop
  | mem p => p + 4 ≤ r ∨ r + 4 ≤ p
  | loc _ => True

/-! ## The functions -/

def subRawStep (r : Nat) (a b : Operand) (s : Memory × Nat) (i : Nat) : Memory × Nat :=
  let t := ((a.limb s.1 i).toNat + 2 ^ 128 - (b.limb s.1 i).toNat - s.2) % 2 ^ 128
  (setLimb s.1 (r + i) (UInt64.ofNat t), t / 2 ^ 64 % 2)

def p256FeSubRawAt (σ : Memory) (r : Nat) (a b : Operand) : Memory :=
  ((List.range 4).foldl (subRawStep r a b) (σ, 0)).1

def p256FpSetAt (σ : Memory) (r : Nat) (v : P256Fe) : Memory := store σ r v

def p256FpAddAt (σ : Memory) (r : Nat) (a b : Operand) (m : P256Fe) : Memory :=
  let s := feAddRaw (a.fe σ) (b.fe σ)
  if s.2 != 0 || p256FeGe s.1 m then p256FeSubRawAt σ r (.loc s.1) (.loc m)
  else p256FpSetAt σ r s.1

def p256FpSubAt (σ : Memory) (r : Nat) (a b : Operand) (m : P256Fe) : Memory :=
  if p256FeGe (a.fe σ) (b.fe σ) then p256FeSubRawAt σ r a b
  else p256FeSubRawAt σ r (.loc m) (.loc (p256FeSubRaw (b.fe σ) (a.fe σ)))

/-- The product modulo any `m`. -/
def p256FpMulAt (σ : Memory) (r : Nat) (a b : Operand) (m : P256Fe) : Memory :=
  store σ r (p256FeReduceWide (p256FeMulWide (a.fe σ) (b.fe σ)) m)

def fromWordsAt (σ : Memory) (t : Nat) (e : Nat → UInt64) : Memory :=
  (List.range 4).foldl
    (fun σ i => setLimb σ (t + i) (e (2 * i) ||| (e (2 * i + 1) <<< 32))) σ

def reduceOncePAt (σ : Memory) (r : Nat) : Memory :=
  if p256FeGe (load σ r) p256P then p256FeSubRawAt σ r (.mem r) (.loc p256P) else σ

def buildTermAt (σ : Memory) (out : Nat) (w : Words 8) (t : Nat) : Memory :=
  reduceOncePAt (fromWordsAt σ out (termWord w t)) out

def fpAddPAt (σ : Memory) (r : Nat) (t : P256Fe) : Memory :=
  p256FpAddAt σ r (.mem r) (.loc t) p256P

def fpSubPAt (σ : Memory) (r : Nat) (t : P256Fe) : Memory :=
  p256FpSubAt σ r (.mem r) (.loc t) p256P

def reduceAddHalfAt (σ : Memory) (r : Nat) (w : Words 8) : Memory :=
  let σ := buildTermAt σ r w 0
  let t := buildTerm w 1
  let σ := fpAddPAt σ r t
  let σ := fpAddPAt σ r t
  let t := buildTerm w 2
  let σ := fpAddPAt σ r t
  let σ := fpAddPAt σ r t
  let t := buildTerm w 3
  let σ := fpAddPAt σ r t
  let t := buildTerm w 4
  fpAddPAt σ r t

def reduceSubHalfAt (σ : Memory) (r : Nat) (w : Words 8) : Memory :=
  [5, 6, 7, 8].foldl (fun σ k => fpSubPAt σ r (buildTerm w k)) σ

def fpReduceP256At (σ : Memory) (r : Nat) (w : Words 8) : Memory :=
  reduceSubHalfAt (reduceAddHalfAt σ r w) r w

def p256FpMulPAt (σ : Memory) (r : Nat) (a b : Operand) : Memory :=
  fpReduceP256At σ r (p256FeMulWide (a.fe σ) (b.fe σ))

def p256FpSqrPAt (σ : Memory) (r : Nat) (a : Operand) : Memory := p256FpMulPAt σ r a a

def montFinalizeAt (σ : Memory) (r : Nat) (t : Words 6) (m : P256Fe) : Memory :=
  let σ := store σ r (lowLimbs t)
  if montNeedsSub t m then p256FeSubRawAt σ r (.mem r) (.loc m) else σ

def montMulAt (σ : Memory) (r : Nat) (a b : Operand) (mont : Mont) : Memory :=
  montFinalizeAt σ r (montRows (a.fe σ) (b.fe σ) mont 4) mont.m

def p256FpMulNAt (σ : Memory) (r : Nat) (a b : Operand) : Memory :=
  let am := montMul (a.fe σ) p256MontN.rr p256MontN
  montMulAt σ r (.loc am) b p256MontN

def montInvAt (σ : Memory) (r : Nat) (a : Operand) (mont : Mont) : Memory :=
  let e := p256FeSubRaw mont.m feTwo
  let acc := invWindows (a.fe σ) e mont 64 mont.one
  montMulAt σ r (.loc acc) (.loc feOne) mont

def fpSqrKAt (σ : Memory) (r : Nat) : (k : Nat) → Memory
  | 0 => σ
  | k + 1 => p256FpSqrPAt (fpSqrKAt σ r k) r (.mem r)

/-- Squarings in place, then a product. -/
def sqrKMulAt (σ : Memory) (r k : Nat) (t : Operand) : Memory :=
  p256FpMulPAt (fpSqrKAt σ r k) r (.mem r) t

/-- The inverse modulo the prime, by its chain. -/
def p256FpInvPAt (σ : Memory) (r : Nat) (a : Operand) : Memory :=
  let t2 := fpOnesDouble (a.fe σ) 1
  let t4 := fpOnesDouble t2 2
  let t8 := fpOnesDouble t4 4
  let t16 := fpOnesDouble t8 8
  let t32 := fpOnesDouble t16 16
  let σ := p256FpSetAt σ r t32
  let σ := sqrKMulAt σ r 32 a
  let σ := sqrKMulAt σ r 128 (.loc t32)
  let σ := sqrKMulAt σ r 32 (.loc t32)
  let σ := sqrKMulAt σ r 16 (.loc t16)
  let σ := sqrKMulAt σ r 8 (.loc t8)
  let σ := sqrKMulAt σ r 4 (.loc t4)
  let σ := sqrKMulAt σ r 2 (.loc t2)
  sqrKMulAt σ r 2 a

/-! ## Places -/

variable (σ : Memory)

@[simp] theorem loc_fe (v : P256Fe) : (Operand.loc v).fe σ = v := by
  obtain ⟨l, hl⟩ := v
  match l, hl with
  | [a, b, c, d], _ => rfl

theorem loc_apart (r : Nat) (v : P256Fe) : (Operand.loc v).Apart r := trivial

theorem mem_fe (p : Nat) : (Operand.mem p).fe σ = load σ p := rfl

theorem store_apply (r : Nat) (v : P256Fe) (x : Nat) :
    store σ r v x = if r ≤ x ∧ x < r + 4 then v.limb (x - r) else σ x := by
  have hlist : List.range 4 = [0, 1, 2, 3] := rfl
  simp only [store, hlist, foldl_cons, foldl_nil, setLimb, Function.update_apply]
  by_cases hx : r ≤ x ∧ x < r + 4
  · obtain ⟨k, rfl⟩ := Nat.exists_eq_add_of_le hx.1
    obtain rfl | rfl | rfl | rfl : k = 0 ∨ k = 1 ∨ k = 2 ∨ k = 3 := by omega
    all_goals simp
  · rw [if_neg hx, if_neg (by omega), if_neg (by omega), if_neg (by omega), if_neg (by omega)]

@[simp] theorem load_store (r : Nat) (v : P256Fe) : load (store σ r v) r = v := by
  have hlimb : ∀ i < 4, store σ r v (r + i) = v.limb i := fun i hi => by
    rw [store_apply, if_pos (by omega), Nat.add_sub_cancel_left]
  have hload : load (store σ r v) r = (Operand.loc v).fe σ := by
    rw [load, Operand.fe, hlimb 1 (by omega), hlimb 2 (by omega), hlimb 3 (by omega)]
    exact congrArg (fe · _ _ _) (hlimb 0 (by omega))
  rw [hload, loc_fe]

@[simp] theorem store_store (r : Nat) (v v' : P256Fe) :
    store (store σ r v) r v' = store σ r v' := by
  funext x
  rw [store_apply, store_apply, store_apply]
  split <;> rfl

@[simp] theorem store_load (r : Nat) : store σ r (load σ r) = σ := by
  funext x
  rw [store_apply]
  split
  · rename_i hx
    obtain ⟨k, rfl⟩ := Nat.exists_eq_add_of_le hx.1
    obtain rfl | rfl | rfl | rfl : k = 0 ∨ k = 1 ∨ k = 2 ∨ k = 3 := by omega
    all_goals
      rw [Nat.add_sub_cancel_left]
      rfl
  · rfl

variable {r m : Nat} {a : Operand} {v : P256Fe}

theorem Operand.Apart.fe_store (h : a.Apart r) (σ : Memory)
    (v : P256Fe) : a.fe (store σ r v) = a.fe σ := by
  cases a with
  | loc v' => rw [loc_fe, loc_fe]
  | mem p =>
    have hword : ∀ i < 4, store σ r v (p + i) = σ (p + i) := fun i hi => by
      have h : p + 4 ≤ r ∨ r + 4 ≤ p := h
      rw [store_apply, if_neg (by omega)]
    rw [mem_fe, mem_fe, load, load, hword 1 (by omega), hword 2 (by omega), hword 3 (by omega)]
    exact congrArg (P256.fe · _ _ _) (hword 0 (by omega))

/-! ## Every function leaves the value of the model -/

/-- The subtraction reads each limb of its operands before it writes that limb of the result. -/
theorem p256FeSubRawAt_eq {b : Operand} (ha : a = .mem r ∨ a.Apart r)
    (hb : b = .mem r ∨ b.Apart r) :
    p256FeSubRawAt σ r a b = store σ r (p256FeSubRaw (a.fe σ) (b.fe σ)) := by
  have hread : ∀ {c : Operand}, (c = .mem r ∨ c.Apart r) → ∀ (σ : Memory) (x : UInt64)
      {i j : Nat}, j < i → i < 4 → c.limb (setLimb σ (r + j) x) i = c.limb σ i := by
    intro c hc σ x i j hji hi
    cases c with
    | loc v => rfl
    | mem p =>
      have hp : p = r ∨ p + 4 ≤ r ∨ r + 4 ≤ p := hc.imp_left Operand.mem.inj
      have hne : p + i ≠ r + j := by omega
      exact Function.update_of_ne hne x σ
  have hlist : List.range 4 = [0, 1, 2, 3] := rfl
  simp only [p256FeSubRawAt, hlist, foldl_cons, foldl_nil, subRawStep,
    hread ha _ _ (by omega : 0 < 1) (by omega), hread hb _ _ (by omega : 0 < 1) (by omega),
    hread ha _ _ (by omega : 0 < 2) (by omega), hread hb _ _ (by omega : 0 < 2) (by omega),
    hread ha _ _ (by omega : 1 < 2) (by omega), hread hb _ _ (by omega : 1 < 2) (by omega),
    hread ha _ _ (by omega : 0 < 3) (by omega), hread hb _ _ (by omega : 0 < 3) (by omega),
    hread ha _ _ (by omega : 1 < 3) (by omega), hread hb _ _ (by omega : 1 < 3) (by omega),
    hread ha _ _ (by omega : 2 < 3) (by omega), hread hb _ _ (by omega : 2 < 3) (by omega)]
  rfl

section

variable (r : Nat)

theorem p256FeSubRawAt_loc (v v' : P256Fe) :
    p256FeSubRawAt σ r (.loc v) (.loc v') = store σ r (p256FeSubRaw v v') := by
  rw [p256FeSubRawAt_eq σ (.inr (loc_apart r v)) (.inr (loc_apart r v')), loc_fe, loc_fe]

theorem p256FeSubRawAt_mem (v : P256Fe) :
    p256FeSubRawAt σ r (.mem r) (.loc v) = store σ r (p256FeSubRaw (load σ r) v) := by
  rw [p256FeSubRawAt_eq σ (.inl rfl) (.inr (loc_apart r v)), loc_fe, mem_fe]

theorem p256FpAddAt_eq (a b : Operand) (m : P256Fe) :
    p256FpAddAt σ r a b m = store σ r (p256FpAdd (a.fe σ) (b.fe σ) m) := by
  rw [p256FpAddAt, p256FpAdd, p256FeSubRawAt_loc, p256FpSetAt]
  exact (apply_ite (store σ r) _ _ _).symm

theorem p256FpSubAt_mem (t m : P256Fe) :
    p256FpSubAt σ r (.mem r) (.loc t) m = store σ r (p256FpSub (load σ r) t m) := by
  rw [p256FpSubAt, p256FpSub, p256FeSubRawAt_loc, p256FeSubRawAt_mem, loc_fe, mem_fe]
  exact (apply_ite (store σ r) _ _ _).symm

theorem reduceOncePAt_eq : reduceOncePAt σ r = store σ r (reduceOnceP (load σ r)) := by
  rw [reduceOncePAt, reduceOnceP, p256FeSubRawAt_mem, apply_ite (store σ r), store_load]

theorem buildTermAt_eq (w : Words 8) (t : Nat) :
    buildTermAt σ r w t = store σ r (buildTerm w t) := by
  have hwords : fromWordsAt σ r (termWord w t) = store σ r (fromWords (termWord w t)) := rfl
  rw [buildTermAt, reduceOncePAt_eq, hwords, load_store, store_store, buildTerm]

@[simp] theorem fpAddPAt_store (v t : P256Fe) :
    fpAddPAt (store σ r v) r t = store σ r (fpAddP v t) := by
  rw [fpAddPAt, p256FpAddAt_eq, mem_fe, loc_fe, load_store, store_store, fpAddP]

@[simp] theorem fpSubPAt_store (v t : P256Fe) :
    fpSubPAt (store σ r v) r t = store σ r (fpSubP v t) := by
  rw [fpSubPAt, p256FpSubAt_mem, load_store, store_store, fpSubP]

theorem fpReduceP256At_eq (w : Words 8) : fpReduceP256At σ r w = store σ r (fpReduceP256 w) := by
  simp only [fpReduceP256At, reduceAddHalfAt, reduceSubHalfAt, buildTermAt_eq, fpAddPAt_store,
    foldl_cons, foldl_nil, fpSubPAt_store, fpReduceP256, reduceAddHalf, reduceSubHalf]

theorem p256FpMulPAt_eq (a b : Operand) :
    p256FpMulPAt σ r a b = store σ r (p256FpMulP (a.fe σ) (b.fe σ)) :=
  fpReduceP256At_eq σ r _

theorem montMulAt_eq (a b : Operand) (mont : Mont) :
    montMulAt σ r a b mont = store σ r (montMul (a.fe σ) (b.fe σ) mont) := by
  rw [montMulAt, montFinalizeAt, montMul, montFinalize, p256FeSubRawAt_mem, load_store, store_store]
  exact (apply_ite (store σ r) _ _ _).symm

theorem p256FpMulNAt_eq (a b : Operand) :
    p256FpMulNAt σ r a b = store σ r (p256FpMulN (a.fe σ) (b.fe σ)) := by
  rw [p256FpMulNAt, montMulAt_eq, loc_fe, p256FpMulN]

theorem montInvAt_eq (a : Operand) (mont : Mont) :
    montInvAt σ r a mont = store σ r (montInv (a.fe σ) mont) := by
  rw [montInvAt, montMulAt_eq, loc_fe, loc_fe, montInv, montFrom]

end

theorem fpSqrKAt_store (r k : Nat) (v : P256Fe) :
    fpSqrKAt (store σ r v) r k = store σ r (fpSqrK v k) := by
  induction k with
  | zero => rfl
  | succ k ih =>
    rw [fpSqrKAt, ih, p256FpSqrPAt, p256FpMulPAt_eq, mem_fe, load_store, store_store, fpSqrK,
      p256FpSqrP]

theorem sqrKMulAt_store (r k : Nat) (v : P256Fe) {t : Operand} (ht : t.Apart r) :
    sqrKMulAt (store σ r v) r k t = store σ r (p256FpMulP (fpSqrK v k) (t.fe σ)) := by
  rw [sqrKMulAt, fpSqrKAt_store, p256FpMulPAt_eq, mem_fe, load_store, store_store, ht.fe_store]

theorem p256FpInvPAt_eq (ha : a.Apart r) :
    p256FpInvPAt σ r a = store σ r (p256FpInvP (a.fe σ)) := by
  simp only [p256FpInvPAt, p256FpSetAt, sqrKMulAt_store _ _ _ _ ha,
    sqrKMulAt_store _ _ _ _ (loc_apart r _), loc_fe, p256FpInvP]

/-- Also where it reads `a` from what it has written, its result is fully reduced. -/
theorem p256FpInvPAt_reduced (r : Nat) (a : Operand) :
    ∃ v : P256Fe, v.toNat < p256P.toNat ∧ p256FpInvPAt σ r a = store σ r v := by
  have hstep : ∀ (v : P256Fe) (k : Nat) (t : Operand), ∃ v' : P256Fe,
      v'.toNat < p256P.toNat ∧ sqrKMulAt (store σ r v) r k t = store σ r v' := by
    intro v k t
    rw [sqrKMulAt, fpSqrKAt_store, p256FpMulPAt_eq, store_store]
    exact ⟨_, (rep_p256FpMulP rfl rfl).lt, rfl⟩
  simp only [p256FpInvPAt, p256FpSetAt]
  generalize fpOnesDouble (a.fe σ) 1 = t2
  generalize fpOnesDouble t2 2 = t4
  generalize fpOnesDouble t4 4 = t8
  generalize fpOnesDouble t8 8 = t16
  generalize fpOnesDouble t16 16 = t32
  obtain ⟨v, -, h⟩ := hstep t32 32 a
  rw [h]
  obtain ⟨v, -, h⟩ := hstep v 128 (.loc t32)
  rw [h]
  obtain ⟨v, -, h⟩ := hstep v 32 (.loc t32)
  rw [h]
  obtain ⟨v, -, h⟩ := hstep v 16 (.loc t16)
  rw [h]
  obtain ⟨v, -, h⟩ := hstep v 8 (.loc t8)
  rw [h]
  obtain ⟨v, -, h⟩ := hstep v 4 (.loc t4)
  rw [h]
  obtain ⟨v, -, h⟩ := hstep v 2 (.loc t2)
  rw [h]
  exact hstep v 2 a

/-! ## The results -/

/-- From `σ` to `σ'` the words at `r` have become the number `k`, and no other word changed. -/
def Leaves (σ σ' : Memory) (r k : Nat) : Prop :=
  (load σ' r).toNat = k ∧ ∀ x, x < r ∨ r + 4 ≤ x → σ' x = σ x

theorem leaves_store (r : Nat) (v : P256Fe) : Leaves σ (store σ r v) r v.toNat := by
  refine ⟨by rw [load_store], fun x hx => ?_⟩
  rw [store_apply, if_neg (by omega)]

theorem leaves_product {σ : Memory} {a b : P256Fe} (hm : 0 < m)
    (h : Rep m v ((a.toNat : ZMod m) * b.toNat)) :
    Leaves σ (store σ r v) r (a.toNat * b.toNat % m) := by
  rw [← Nat.cast_mul, rep_iff hm] at h
  rw [← h]
  exact leaves_store σ r v

theorem leaves_inverse {σ : Memory} (hm : m.Prime) {a : P256Fe} (ha : a.toNat < m)
    (h0 : a.toNat ≠ 0) (h : Rep m v ((a.toNat : ZMod m) ^ (m - 2))) :
    ∃ k < m, Leaves σ (store σ r v) r k ∧ a.toNat * k % m = 1 := by
  obtain ⟨hlt, hinv⟩ := h.inverse hm ha h0
  exact ⟨v.toNat, hlt, leaves_store σ r v, hinv⟩

/-- **P-256.** The products leave the remainder of the product and the inverses the inverse, fully
reduced, and nothing else in memory changes. The operands may overlap the result in any way, but
that of `p256_fp_inv_p` has to be apart from it for the result to be the inverse. -/
theorem p256_arithmetic (σ : Memory) (r : Nat) (a b : Operand) :
    ((a.fe σ).toNat < p256P.toNat → (b.fe σ).toNat < p256P.toNat →
      Leaves σ (p256FpMulPAt σ r a b) r ((a.fe σ).toNat * (b.fe σ).toNat % p256P.toNat)) ∧
    ((a.fe σ).toNat < p256N.toNat → (b.fe σ).toNat < p256N.toNat →
      Leaves σ (p256FpMulNAt σ r a b) r ((a.fe σ).toNat * (b.fe σ).toNat % p256N.toNat)) ∧
    (∀ m ∈ [p256P, p256N], (a.fe σ).toNat < m.toNat → (b.fe σ).toNat < m.toNat →
      Leaves σ (p256FpMulAt σ r a b m) r ((a.fe σ).toNat * (b.fe σ).toNat % m.toNat)) ∧
    (∀ mont ∈ [p256MontP, p256MontN], (a.fe σ).toNat < mont.m.toNat → (a.fe σ).toNat ≠ 0 →
      ∃ k < mont.m.toNat, Leaves σ (montInvAt σ r a mont) r k ∧
        (a.fe σ).toNat * k % mont.m.toNat = 1) ∧
    (∃ k < p256P.toNat, Leaves σ (p256FpInvPAt σ r a) r k ∧
      (a.Apart r → (a.fe σ).toNat < p256P.toNat → (a.fe σ).toNat ≠ 0 →
        (a.fe σ).toNat * k % p256P.toNat = 1)) := by
  refine ⟨fun _ _ => ?_, fun _ hb => ?_, fun m hm _ _ => ?_, fun mont hmont ha h0 => ?_, ?_⟩
  · rw [p256FpMulPAt_eq]
    exact leaves_product prime_p256P.pos (rep_p256FpMulP rfl rfl)
  · rw [p256FpMulNAt_eq]
    exact leaves_product prime_p256N.pos (rep_p256FpMulN rfl ⟨hb, rfl⟩)
  · have hbig : 2 ^ 255 ≤ m.toNat := by rcases mem_pair.mp hm with rfl | rfl <;> decide
    exact leaves_product (by omega) (rep_p256FpMul hbig rfl rfl)
  · have hprime : mont.m.toNat.Prime := by
      rcases mem_pair.mp hmont with rfl | rfl
      · exact prime_p256P
      · exact prime_p256N
    have htwo : 2 < mont.m.toNat := by
      have := hprime.two_le
      have := mont.odd
      omega
    rw [montInvAt_eq]
    exact leaves_inverse hprime ha h0 (rep_montInv htwo _)
  · obtain ⟨v, hlt, hv⟩ := p256FpInvPAt_reduced σ r a
    refine ⟨v.toNat, hlt, hv ▸ leaves_store σ r v, fun hapart ha h0 => ?_⟩
    obtain ⟨k, -, hk, hinv⟩ := leaves_inverse prime_p256P ha h0 (rep_p256FpInvP ha)
    rw [← p256FpInvPAt_eq σ hapart, hv] at hk
    rw [← hinv, ← hk.1, load_store]

/-- A square over its operand. -/
theorem p256_arithmetic_in_place :
    Leaves (Function.update (fun _ => 0) 0 3)
      (p256FpMulPAt (Function.update (fun _ => 0) 0 3) 0 (.mem 0) (.mem 0)) 0 9 :=
  (p256_arithmetic (Function.update (fun _ => 0) 0 3) 0 (.mem 0) (.mem 0)).1 (by decide) (by decide)

end Wired.Crypto.P256
