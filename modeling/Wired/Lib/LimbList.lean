import Wired.Lib.LittleEndian
import Mathlib.Data.List.Induction
import Mathlib.Tactic.Ring

/-!
# Numbers in 64-bit limbs

`limbVal l` is the number that the limbs `l` stand for, the least significant one first. The loops
that add, subtract and multiply limb by limb keep a carry in a word of 128 bits; each lemma says
what the limbs that come out and the last carry stand for together.
-/

namespace Wired.Lib

open List

/-- Lists of one length are taken apart together. -/
theorem sameLength_induction {α β : Type*}
    {motive : ∀ (as : List α) (bs : List β), as.length = bs.length → Prop} (nil : motive [] [] rfl)
    (cons : ∀ a as b bs h, motive as bs h → motive (a :: as) (b :: bs) (congrArg Nat.succ h)) :
    ∀ as bs h, motive as bs h
  | [], [], _ => nil
  | a :: as, b :: bs, h =>
    cons a as b bs (Nat.succ.inj h) (sameLength_induction nil cons as bs (Nat.succ.inj h))

theorem two_pow_limbs_succ (n : Nat) : 2 ^ (64 * (n + 1)) = 2 ^ 64 * 2 ^ (64 * n) := by
  rw [Nat.mul_succ, pow_add, mul_comm]

def limbVal : List UInt64 → Nat
  | [] => 0
  | x :: l => x.toNat + 2 ^ 64 * limbVal l

@[simp] theorem limbVal_nil : limbVal [] = 0 := rfl

@[simp] theorem limbVal_cons (x : UInt64) (l : List UInt64) :
    limbVal (x :: l) = x.toNat + 2 ^ 64 * limbVal l := rfl

theorem limbVal_append (l l' : List UInt64) :
    limbVal (l ++ l') = limbVal l + 2 ^ (64 * l.length) * limbVal l' := by
  induction l with
  | nil => simp
  | cons x l ih =>
    rw [cons_append, limbVal_cons, ih, limbVal_cons, length_cons, two_pow_limbs_succ]
    ring

theorem limbVal_lt (l : List UInt64) : limbVal l < 2 ^ (64 * l.length) := by
  induction l with
  | nil => exact Nat.one_pos
  | cons x l ih =>
    have hx := x.toNat_lt
    rw [limbVal_cons, length_cons, two_pow_limbs_succ]
    omega

theorem limbVal_zeros (n : Nat) : limbVal (List.replicate n 0) = 0 := by
  induction n with
  | zero => rfl
  | succ n ih => rw [replicate_succ, limbVal_cons, ih, UInt64.toNat_zero, Nat.mul_zero]

theorem limbVal_inj {l l' : List UInt64} (hlen : l.length = l'.length)
    (h : limbVal l = limbVal l') : l = l' := by
  induction l, l', hlen using sameLength_induction with
  | nil => rfl
  | cons x l y l' hlen ih =>
    have hx := x.toNat_lt
    have hy := y.toNat_lt
    simp only [limbVal_cons] at h
    rw [UInt64.toNat_inj.mp (by omega : x.toNat = y.toNat), ih (by omega)]

/-! ## Parts of a number -/

section

variable (l : List UInt64) (i : Nat)

theorem limbVal_drop : limbVal (l.drop i) = limbVal l / 2 ^ (64 * i) := by
  induction l generalizing i with
  | nil => simp
  | cons x l ih =>
    cases i with
    | zero => simp
    | succ i =>
      have hx := x.toNat_lt
      have hdiv : (x.toNat + 2 ^ 64 * limbVal l) / 2 ^ 64 = limbVal l := by omega
      rw [drop_succ_cons, ih, limbVal_cons, Nat.mul_succ, add_comm (64 * i), pow_add,
        ← Nat.div_div_eq_div_mul, hdiv]

theorem limbVal_take : limbVal (l.take i) = limbVal l % 2 ^ (64 * i) := by
  by_cases hi : i ≤ l.length
  · have hlen : (l.take i).length = i := length_take_of_le hi
    have hlt := limbVal_lt (l.take i)
    have hsplit := limbVal_append (l.take i) (l.drop i)
    rw [take_append_drop] at hsplit
    rw [hlen] at hsplit hlt
    rw [hsplit, Nat.add_mul_mod_self_left, Nat.mod_eq_of_lt hlt]
  · rw [take_of_length_le (by omega), Nat.mod_eq_of_lt]
    exact (limbVal_lt l).trans_le (Nat.pow_le_pow_right (by omega) (by omega))

theorem limbVal_limb : limbVal l / 2 ^ (64 * i) % 2 ^ 64 = (l.getD i 0).toNat := by
  rw [← limbVal_drop, getD_eq_getElem?_getD, ← head?_drop]
  cases l.drop i with
  | nil => rfl
  | cons x rest => exact (Nat.add_mul_mod_self_left _ _ _).trans (Nat.mod_eq_of_lt x.toNat_lt)

end

variable {j n c x : Nat} {as bs : List UInt64} {f : Nat → UInt64}

/-- The `n` bits from bit `j` of limb `i` on. -/
theorem limbVal_field (l : List UInt64) (i : Nat) (h : j + n ≤ 64) :
    (l.getD i 0).toNat / 2 ^ j % 2 ^ n = limbVal l / 2 ^ (64 * i + j) % 2 ^ n := by
  obtain ⟨k, hk⟩ := Nat.exists_eq_add_of_le h
  have hword : 2 ^ 64 = 2 ^ j * (2 ^ n * 2 ^ k) := by rw [← pow_add, ← pow_add, ← add_assoc, ← hk]
  rw [← limbVal_limb, hword, Nat.mod_mul_right_div_self, Nat.mod_mul_right_mod,
    Nat.div_div_eq_div_mul, ← pow_add]

/-! ## Sums -/

def addLimbs : Nat → List UInt64 → List UInt64 → List UInt64 × Nat
  | c, a :: as, b :: bs =>
    let c := (c + (a.toNat + b.toNat)) % 2 ^ 128
    let r := addLimbs (c / 2 ^ 64) as bs
    (UInt64.ofNat c :: r.1, r.2)
  | c, _, _ => ([], c)

theorem addLimbs_spec (hlen : as.length = bs.length) (hc : c < 2 ^ 64) :
    (addLimbs c as bs).1.length = as.length ∧
      limbVal (addLimbs c as bs).1 + 2 ^ (64 * as.length) * (addLimbs c as bs).2 =
        c + (limbVal as + limbVal bs) := by
  induction as, bs, hlen using sameLength_induction generalizing c with
  | nil => simp [addLimbs]
  | cons a as b bs hlen ih =>
    have ha := a.toNat_lt
    have hb := b.toNat_lt
    have hsum : (c + (a.toNat + b.toNat)) % 2 ^ 128 = c + (a.toNat + b.toNat) :=
      Nat.mod_eq_of_lt (by omega)
    obtain ⟨hl, hv⟩ := ih
      (by omega : (c + (a.toNat + b.toNat)) / 2 ^ 64 < 2 ^ 64)
    simp only [addLimbs, hsum, length_cons, limbVal_cons, UInt64.toNat_ofNat', two_pow_limbs_succ]
    rw [mul_assoc]
    omega

/-! ## Differences -/

/-- Limbs subtracted with a borrow, in words of 128 bits that wrap around. -/
def subLimbs : Nat → List UInt64 → List UInt64 → List UInt64
  | br, a :: as, b :: bs =>
    let t := (a.toNat + 2 ^ 128 - b.toNat - br) % 2 ^ 128
    UInt64.ofNat t :: subLimbs (t / 2 ^ 64 % 2) as bs
  | _, _, _ => []

section

variable (hlen : as.length = bs.length)
include hlen

theorem subLimbs_spec {br : Nat} (hbr : br ≤ 1) :
    (subLimbs br as bs).length = as.length ∧
      ∃ k ≤ 1, limbVal (subLimbs br as bs) + (limbVal bs + br) =
        limbVal as + 2 ^ (64 * as.length) * k := by
  induction as, bs, hlen using sameLength_induction generalizing br with
  | nil => exact ⟨rfl, br, hbr, by simp [subLimbs]⟩
  | cons a as b bs hlen ih =>
    have ha := a.toNat_lt
    have hb := b.toNat_lt
    obtain ⟨t, ht⟩ : ∃ t, t = (a.toNat + 2 ^ 128 - b.toNat - br) % 2 ^ 128 := ⟨_, rfl⟩
    obtain ⟨hl, k, hk, hv⟩ := ih (by omega : t / 2 ^ 64 % 2 ≤ 1)
    simp only [subLimbs, ← ht, length_cons, limbVal_cons, UInt64.toNat_ofNat', two_pow_limbs_succ]
    refine ⟨by rw [hl], k, hk, ?_⟩
    rw [mul_assoc]
    omega

theorem subLimbs_length : (subLimbs 0 as bs).length = as.length :=
  (subLimbs_spec hlen (Nat.zero_le 1)).1

theorem limbVal_subLimbs (hle : limbVal bs ≤ limbVal as) :
    limbVal (subLimbs 0 as bs) = limbVal as - limbVal bs := by
  obtain ⟨hl, k, hk, hv⟩ := subLimbs_spec hlen (Nat.zero_le 1)
  have hlt := limbVal_lt (subLimbs 0 as bs)
  rw [hl] at hlt
  obtain rfl | rfl : k = 0 ∨ k = 1 := by omega
  · omega
  · omega

/-- What comes out when the number above was `2 ^ (64 n)` larger. -/
theorem limbVal_subLimbs_borrow (hlt : limbVal as < limbVal bs) :
    limbVal (subLimbs 0 as bs) = limbVal as + 2 ^ (64 * as.length) - limbVal bs := by
  obtain ⟨hl, k, hk, hv⟩ := subLimbs_spec hlen (Nat.zero_le 1)
  obtain rfl | rfl : k = 0 ∨ k = 1 := by omega
  · omega
  · omega

end

/-! ## Products -/

def mulAddLimbs (x : UInt64) : Nat → List UInt64 → List UInt64 → List UInt64 × Nat
  | c, b :: bs, w :: ws =>
    let c := (c + (x.toNat * b.toNat + w.toNat)) % 2 ^ 128
    let r := mulAddLimbs x (c / 2 ^ 64) bs ws
    (UInt64.ofNat c :: r.1, r.2)
  | c, _, _ => ([], c)

theorem mulAddLimbs_spec (x : UInt64) {ws : List UInt64} (hlen : bs.length = ws.length)
    (hc : c < 2 ^ 64) :
    (mulAddLimbs x c bs ws).1.length = bs.length ∧ (mulAddLimbs x c bs ws).2 < 2 ^ 64 ∧
      limbVal (mulAddLimbs x c bs ws).1 + 2 ^ (64 * bs.length) * (mulAddLimbs x c bs ws).2 =
        c + (x.toNat * limbVal bs + limbVal ws) := by
  induction bs, ws, hlen using sameLength_induction generalizing c with
  | nil => simpa [mulAddLimbs] using hc
  | cons b bs w ws hlen ih =>
    have hw := w.toNat_lt
    have hprod : x.toNat * b.toNat ≤ (2 ^ 64 - 1) * (2 ^ 64 - 1) :=
      Nat.mul_le_mul (by have := x.toNat_lt; omega) (by have := b.toNat_lt; omega)
    have hsum : (c + (x.toNat * b.toNat + w.toNat)) % 2 ^ 128 =
        c + (x.toNat * b.toNat + w.toNat) := Nat.mod_eq_of_lt (by omega)
    obtain ⟨hl, hlt, hv⟩ := ih
      (by omega : (c + (x.toNat * b.toNat + w.toNat)) / 2 ^ 64 < 2 ^ 64)
    simp only [mulAddLimbs, hsum, length_cons, limbVal_cons, UInt64.toNat_ofNat',
      two_pow_limbs_succ]
    have hrow : x.toNat * (b.toNat + 2 ^ 64 * limbVal bs) =
        x.toNat * b.toNat + 2 ^ 64 * (x.toNat * limbVal bs) := by ring
    rw [mul_assoc, hrow]
    omega

/-! ## Comparison -/

/-- The comparison of the limbs from the most significant one down, which come first here. -/
def geFromTop : List (UInt64 × UInt64) → Bool
  | [] => true
  | (a, b) :: rest => if a ≠ b then a > b else geFromTop rest

def geLimbs (as bs : List UInt64) : Bool := geFromTop (as.zip bs).reverse

theorem geLimbs_iff (hlen : as.length = bs.length) :
    geLimbs as bs = true ↔ limbVal bs ≤ limbVal as := by
  induction as using List.reverseRecOn generalizing bs with
  | nil =>
    obtain rfl : bs = [] := eq_nil_of_length_eq_zero hlen.symm
    simp [geLimbs, geFromTop]
  | append_singleton as a ih =>
    obtain ⟨bs, b, rfl⟩ : ∃ bs' b, bs = bs' ++ [b] := by
      refine ⟨bs.dropLast, bs.getLast (ne_nil_of_length_pos (by simp [← hlen])), ?_⟩
      exact (dropLast_concat_getLast _).symm
    have hlen' : as.length = bs.length := by simpa using hlen
    have hzip : ((as ++ [a]).zip (bs ++ [b])).reverse = (a, b) :: (as.zip bs).reverse := by
      rw [zip_append hlen', reverse_append]
      rfl
    have hlow := limbVal_lt as
    have hlow' := limbVal_lt bs
    rw [geLimbs, hzip, geFromTop, limbVal_append, limbVal_append, hlen']
    rw [hlen'] at hlow
    simp only [limbVal_cons, limbVal_nil, mul_zero, add_zero]
    by_cases hab : a = b
    · subst hab
      rw [if_neg (by simp)]
      exact (ih hlen').trans (by omega)
    · rw [if_pos hab, decide_eq_true_iff, gt_iff_lt, UInt64.lt_iff_toNat_lt]
      exact (top_le_iff hlow hlow' fun h => hab (UInt64.toNat_inj.mp h)).symm

/-! ## Bit by bit -/

theorem mod_two_pow_succ (x n : Nat) : x % 2 ^ (n + 1) = x % 2 ^ n + 2 ^ n * (x / 2 ^ n % 2) := by
  rw [pow_succ, Nat.mod_mul]

def geBits (f g : Nat → UInt64) : Nat → Bool
  | 0 => true
  | n + 1 => if f n ≠ g n then f n > g n else geBits f g n

theorem geBits_iff {g : Nat → UInt64} {y : Nat} (hf : ∀ i < n, (f i).toNat = x / 2 ^ i % 2)
    (hg : ∀ i < n, (g i).toNat = y / 2 ^ i % 2) : geBits f g n = true ↔ y % 2 ^ n ≤ x % 2 ^ n := by
  induction n with
  | zero => simp [geBits, Nat.mod_one]
  | succ n ih =>
    have ih := ih (fun i hi => hf i (by omega)) (fun i hi => hg i (by omega))
    have hfn := hf n (Nat.lt_succ_self n)
    have hgn := hg n (Nat.lt_succ_self n)
    rw [geBits, mod_two_pow_succ, mod_two_pow_succ, ← hfn, ← hgn]
    by_cases heq : f n = g n
    · rw [if_neg (by simpa using heq), ih, heq]
      omega
    · have hlow : ∀ x : Nat, x % 2 ^ n < 2 ^ n := fun x => Nat.mod_lt x (Nat.two_pow_pos n)
      rw [if_pos heq, decide_eq_true_iff, gt_iff_lt, UInt64.lt_iff_toNat_lt]
      exact (top_le_iff (hlow x) (hlow y) fun h => heq (UInt64.toNat_inj.mp h)).symm

def orBits (f : Nat → UInt64) : Nat → UInt64
  | 0 => 0
  | n + 1 => orBits f n ||| (f n <<< UInt64.ofNat n)

theorem orBits_toNat (hn : n ≤ 64) (hf : ∀ i < n, (f i).toNat = x / 2 ^ i % 2) :
    (orBits f n).toNat = x % 2 ^ n := by
  induction n with
  | zero => simp [orBits, Nat.mod_one]
  | succ n ih =>
    have ih := ih (by omega) (fun i hi => hf i (by omega))
    have hlt := Nat.mod_lt x (Nat.two_pow_pos n)
    have hfit : x / 2 ^ n % 2 * 2 ^ n < 2 ^ 64 := by
      have hbit : x / 2 ^ n % 2 ≤ 1 := by omega
      have hpow : 2 ^ n < 2 ^ 64 := Nat.pow_lt_pow_right (by omega) hn
      exact (Nat.mul_le_mul_right _ hbit).trans_lt (by omega)
    have hword : n % 2 ^ 64 % 64 = n := by omega
    rw [orBits, UInt64.toNat_or, UInt64.toNat_shiftLeft, UInt64.toNat_ofNat', hword, ih,
      hf n (Nat.lt_succ_self n), Nat.shiftLeft_eq, Nat.mod_eq_of_lt hfit, or_shl hlt,
      mod_two_pow_succ, mul_comm]

theorem toNat_shiftRight_and {x : UInt64} (hj : j < 64) (hn : n < 64) :
    ((x >>> UInt64.ofNat j) &&& UInt64.ofNat (2 ^ n - 1)).toNat = x.toNat / 2 ^ j % 2 ^ n := by
  have hpow : 2 ^ n < 2 ^ 64 := Nat.pow_lt_pow_right (by omega) hn
  have hshift : j % 2 ^ 64 % 64 = j := by omega
  rw [UInt64.toNat_and, UInt64.toNat_shiftRight, UInt64.toNat_ofNat', UInt64.toNat_ofNat', hshift,
    Nat.mod_eq_of_lt (by omega : 2 ^ n - 1 < 2 ^ 64), Nat.and_two_pow_sub_one_eq_mod,
    Nat.shiftRight_eq_div_pow]

theorem limbVal_map_range (hf : ∀ i < n, (f i).toNat = x / 2 ^ (64 * i) % 2 ^ 64) :
    limbVal ((List.range n).map f) = x % 2 ^ (64 * n) := by
  induction n with
  | zero => simp [Nat.mod_one]
  | succ n ih =>
    rw [range_succ, map_append, limbVal_append, ih fun i hi => hf i (by omega),
      length_map, length_range, Nat.mul_succ, pow_add, Nat.mod_mul]
    simp [hf n (Nat.lt_succ_self n)]

/-- A number below twice the modulus is reduced by one subtraction, which drops its carry. -/
theorem subIf_eq_mod {a m range c d : Nat} {need : Bool} (hm : m < range) (hx : a + range * c = x)
    (hlt : x < 2 * m) (hd : d = if m ≤ a then a - m else a + range - m)
    (hneed : need = true ↔ c ≠ 0 ∨ m ≤ a) : (if need then d else a) = x % m := by
  have hc : range * c < range * 2 := by omega
  obtain rfl | rfl : c = 0 ∨ c = 1 := by
    have := Nat.lt_of_mul_lt_mul_left hc
    omega
  · rw [mul_zero, add_zero] at hx
    rw [← hx]
    by_cases hle : m ≤ a
    · rw [if_pos (hneed.mpr (.inr hle)), hd, if_pos hle, Nat.mod_eq_sub_mod hle,
        Nat.mod_eq_of_lt (by omega)]
    · rw [if_neg (by rw [hneed]; omega), Nat.mod_eq_of_lt (by omega)]
  · rw [if_pos (hneed.mpr (.inl Nat.one_ne_zero)), hd, if_neg (by omega), ← hx, mul_one,
      Nat.mod_eq_sub_mod (by omega), Nat.mod_eq_of_lt (by omega)]

/-! ## Numbers of `n` limbs -/

/-- Numbers of exactly `n` limbs. -/
structure Words (n : Nat) where
  list : List UInt64
  length_list : list.length = n
deriving DecidableEq

variable {a b : Words n}

namespace Words

def toNat (a : Words n) : Nat := limbVal a.list

def limb (a : Words n) (i : Nat) : UInt64 := a.list.getD i 0

theorem toNat_lt (a : Words n) : a.toNat < 2 ^ (64 * n) := by
  have h := limbVal_lt a.list
  rwa [a.length_list] at h

theorem toNat_inj (h : a.toNat = b.toNat) : a = b := by
  have hlist : a.list = b.list := limbVal_inj (a.length_list.trans b.length_list.symm) h
  obtain ⟨lb, hb⟩ := b
  cases hlist
  rfl

theorem limb_toNat (a : Words n) (i : Nat) : (a.limb i).toNat = a.toNat / 2 ^ (64 * i) % 2 ^ 64 :=
  (limbVal_limb a.list i).symm

theorem field_toNat (a : Words n) {pos k : Nat} (hk : k < 64) (h : pos % 64 + k ≤ 64) :
    ((a.limb (pos / 64) >>> UInt64.ofNat (pos % 64)) &&& UInt64.ofNat (2 ^ k - 1)).toNat =
      a.toNat / 2 ^ pos % 2 ^ k := by
  rw [toNat_shiftRight_and (Nat.mod_lt _ (by omega)) hk, limb, limbVal_field _ _ h, Nat.div_add_mod]
  rfl

theorem mod_limbs_succ (a : Words n) (i : Nat) :
    a.toNat % 2 ^ (64 * (i + 1)) =
      a.toNat % 2 ^ (64 * i) + 2 ^ (64 * i) * (a.limb i).toNat := by
  rw [limb_toNat, Nat.mul_succ, pow_add, Nat.mod_mul]

def zero (n : Nat) : Words n := ⟨List.replicate n 0, length_replicate⟩

theorem zero_toNat : (zero n).toNat = 0 := limbVal_zeros n

def ge (a b : Words n) : Bool := geLimbs a.list b.list

theorem ge_iff (a b : Words n) : a.ge b = true ↔ b.toNat ≤ a.toNat :=
  geLimbs_iff (a.length_list.trans b.length_list.symm)

def sub (a b : Words n) : Words n where
  list := subLimbs 0 a.list b.list
  length_list := (subLimbs_length (a.length_list.trans b.length_list.symm)).trans a.length_list

theorem sub_toNat (h : b.toNat ≤ a.toNat) : (a.sub b).toNat = a.toNat - b.toNat :=
  limbVal_subLimbs (a.length_list.trans b.length_list.symm) h

theorem sub_toNat_eq (a b : Words n) :
    (a.sub b).toNat = if b.toNat ≤ a.toNat then a.toNat - b.toNat
      else a.toNat + 2 ^ (64 * n) - b.toNat := by
  split
  · rename_i hle
    exact sub_toNat hle
  · rename_i hlt
    have hv := limbVal_subLimbs_borrow (a.length_list.trans b.length_list.symm)
      (Nat.lt_of_not_le hlt)
    rwa [a.length_list] at hv

theorem subIf_toNat {need : Bool} (hx : a.toNat + 2 ^ (64 * n) * c = x) (hlt : x < 2 * b.toNat)
    (hneed : need = true ↔ c ≠ 0 ∨ b.toNat ≤ a.toNat) :
    (if need then a.sub b else a).toNat = x % b.toNat := by
  rw [apply_ite toNat]
  exact subIf_eq_mod b.toNat_lt hx hlt (a.sub_toNat_eq b) hneed

def add (a b : Words n) : Words n × Nat :=
  (⟨(addLimbs 0 a.list b.list).1,
    (addLimbs_spec (a.length_list.trans b.length_list.symm) (by omega)).1.trans a.length_list⟩,
    (addLimbs 0 a.list b.list).2)

theorem add_toNat (a b : Words n) :
    (a.add b).1.toNat + 2 ^ (64 * n) * (a.add b).2 = a.toNat + b.toNat := by
  have hv := (addLimbs_spec (a.length_list.trans b.length_list.symm)
    (by omega : 0 < 2 ^ 64)).2
  rw [a.length_list, zero_add] at hv
  exact hv

end Words

end Wired.Lib
