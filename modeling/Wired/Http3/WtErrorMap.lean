import Wired.Lib.Word

/-!
# Error codes of WebTransport applications

`errmap.c`: the 32 bits of an application error code in the range that HTTP/3 error codes have for
them. One codepoint in `0x1f` of that range is reserved, and the mapping steps over it
(`wterrmap_bijection`).
-/

namespace Wired.Http3

open Lib

def wterrmapFirst : UInt64 := 0x52e4a40fa8db

def wterrmapLast : UInt64 := 0x52e5ac983162

/-- The HTTP/3 code of an application's code. -/
def wiredWterrmapToHttp3 (n : UInt32) : UInt64 :=
  wterrmapFirst + n.toUInt64 + n.toUInt64 / 0x1e

def wterrmapInRange (h : UInt64) : Bool := wterrmapFirst ≤ h && h ≤ wterrmapLast

/-- Codepoints of the form `0x1f * n + 0x21` are reserved. -/
def wterrmapReserved (h : UInt64) : Bool := (h - 0x21) % 0x1f = 0

/-- The application's code of an HTTP/3 code in range that is not reserved. -/
def wiredWterrmapFromHttp3 (h : UInt64) : Option UInt32 :=
  if !wterrmapInRange h || wterrmapReserved h then none
  else
    let shifted := h - wterrmapFirst
    some (shifted - shifted / 0x1f).toUInt32

theorem toNat_wiredWterrmapToHttp3 (n : UInt32) :
    (wiredWterrmapToHttp3 n).toNat = wterrmapFirst.toNat + n.toNat + n.toNat / 0x1e := by
  have hn : n.toNat < 2 ^ 32 := n.toNat_lt
  have hfirst : wterrmapFirst.toNat = 0x52e4a40fa8db := rfl
  simp only [wiredWterrmapToHttp3, UInt64.toNat_add, UInt64.toNat_div, UInt32.toNat_toUInt64,
    UInt64.reduceToNat]
  omega

theorem wterrmapInRange_iff {h : UInt64} :
    wterrmapInRange h = true ↔
      wterrmapFirst.toNat ≤ h.toNat ∧ h.toNat ≤ wterrmapLast.toNat := by
  rw [wterrmapInRange, Bool.and_eq_true, decide_eq_true_eq, decide_eq_true_eq,
    UInt64.le_iff_toNat_le, UInt64.le_iff_toNat_le]

theorem wterrmapReserved_iff {h : UInt64} (hle : 0x21 ≤ h.toNat) :
    wterrmapReserved h = true ↔ (h.toNat - 0x21) % 0x1f = 0 := by
  rw [wterrmapReserved, decide_eq_true_eq, ← UInt64.toNat_inj, UInt64.toNat_mod,
    toNat_sub_eq (b := 0x21) hle]
  rfl

theorem wiredWterrmapFromHttp3_eq_some_iff {h : UInt64} {n : UInt32} :
    wiredWterrmapFromHttp3 h = some n ↔
      (wterrmapFirst.toNat ≤ h.toNat ∧ h.toNat ≤ wterrmapLast.toNat) ∧
        (h.toNat - 0x21) % 0x1f ≠ 0 ∧
        n.toNat = h.toNat - wterrmapFirst.toNat - (h.toNat - wterrmapFirst.toNat) / 0x1f := by
  have hfirst : wterrmapFirst.toNat = 0x52e4a40fa8db := rfl
  have hlast : wterrmapLast.toNat = 0x52e5ac983162 := rfl
  rw [wiredWterrmapFromHttp3, ← wterrmapInRange_iff]
  cases hin : wterrmapInRange h with
  | false => simp
  | true =>
    have hrange := wterrmapInRange_iff.mp hin
    rw [ne_eq, ← wterrmapReserved_iff (by omega : 0x21 ≤ h.toNat)]
    cases wterrmapReserved h with
    | true => simp
    | false =>
      have hdiv : ((h - wterrmapFirst) / 0x1f).toNat =
          (h.toNat - wterrmapFirst.toNat) / 0x1f := by
        rw [UInt64.toNat_div, toNat_sub_eq hrange.1]
        rfl
      have hshifted := toNat_sub_eq hrange.1
      dsimp only
      rw [if_neg (by decide), Option.some_inj, ← UInt32.toNat_inj, UInt64.toNat_toUInt32,
        toNat_sub_eq (by omega), hdiv, hshifted, Nat.mod_eq_of_lt (by omega), eq_comm]
      simp

/-- Mapping an application error code to HTTP/3 and back gives it again, over no reserved codepoint,
and the codes that are mapped back are those that something is mapped to. -/
theorem wterrmap_bijection :
    (∀ n, wiredWterrmapFromHttp3 (wiredWterrmapToHttp3 n) = some n ∧
      ∀ k, (wiredWterrmapToHttp3 n).toNat ≠ 0x1f * k + 0x21) ∧
    ∀ h n, wiredWterrmapFromHttp3 h = some n → wiredWterrmapToHttp3 n = h := by
  have hfirst : wterrmapFirst.toNat = 0x52e4a40fa8db := rfl
  have hlast : wterrmapLast.toNat = 0x52e5ac983162 := rfl
  refine ⟨fun n => ⟨?_, fun k => ?_⟩, fun h n hmap => ?_⟩
  · have hn : n.toNat < 2 ^ 32 := n.toNat_lt
    rw [wiredWterrmapFromHttp3_eq_some_iff, toNat_wiredWterrmapToHttp3]
    omega
  · rw [toNat_wiredWterrmapToHttp3]
    omega
  · obtain ⟨hrange, hreserved, hn⟩ := wiredWterrmapFromHttp3_eq_some_iff.mp hmap
    rw [← UInt64.toNat_inj, toNat_wiredWterrmapToHttp3]
    omega

end Wired.Http3
