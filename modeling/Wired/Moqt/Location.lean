import Mathlib.Algebra.Group.Nat.Defs

/-!
# Locations

An Object of a track has a Location, its Group ID and its Object ID, and Locations are compared
by the Group first (`moqctl_loc.h`). `Loc.pos` counts them, so that what is said about the order of
Locations is said about numbers.
-/

namespace Wired.Moqt

/-- A Group ID and an Object ID. -/
structure Loc where
  group : UInt64
  object : UInt64
deriving DecidableEq, Repr

def moqctlLocLess (a b : Loc) : Bool :=
  if a.group ≠ b.group then a.group < b.group else a.object < b.object

def moqctlLocMin (a b : Loc) : Loc := if moqctlLocLess a b then a else b

/-- `VARINT_MAX`, and `MOQCACHE_OBJ_ID_MAX`: the last Object of a Group. -/
def moqcacheObjIdMax : UInt64 := 0x3FFFFFFFFFFFFFFF

/-- The Location before `excl`; where `excl` starts a Group, the last one of the Group before. -/
def moqctlLocPrev (excl : Loc) : Loc :=
  if excl.object ≠ 0 then ⟨excl.group, excl.object - 1⟩ else ⟨excl.group - 1, moqcacheObjIdMax⟩

def moqcacheObjMax : Nat := 65536 - 64

/-- `moqcache_item`: an Object, or a range up to `loc` that nothing is known about. -/
structure MoqcacheItem where
  unknown : Bool
  loc : Loc
  payload : List UInt8
  next : Loc
deriving DecidableEq, Repr

/-! ## The order -/

/-- The place of a Location among all. -/
def Loc.pos (l : Loc) : Nat := l.group.toNat * 2 ^ 64 + l.object.toNat

theorem Loc.pos_mk (g i : UInt64) : (Loc.mk g i).pos = g.toNat * 2 ^ 64 + i.toNat := rfl

theorem moqctlLocLess_iff {a b : Loc} :
    moqctlLocLess a b = true ↔ a.group < b.group ∨ (a.group = b.group ∧ a.object < b.object) := by
  unfold moqctlLocLess
  split
  · rename_i hne
    simp [hne]
  · rename_i heq
    rw [Decidable.not_not] at heq
    simp [heq]

theorem moqctlLocLess_pos {a b : Loc} : moqctlLocLess a b = true ↔ a.pos < b.pos := by
  have ha := a.object.toNat_lt
  have hb := b.object.toNat_lt
  rw [moqctlLocLess_iff, UInt64.lt_iff_toNat_lt, UInt64.lt_iff_toNat_lt, ← UInt64.toNat_inj,
    Loc.pos, Loc.pos]
  omega

theorem Loc.pos_inj {a b : Loc} : a.pos = b.pos ↔ a = b := by
  constructor
  · intro h
    have ha := a.object.toNat_lt
    have hb := b.object.toNat_lt
    have hgroup : a.group = b.group := by
      rw [← UInt64.toNat_inj]
      unfold Loc.pos at h
      omega
    have hobject : a.object = b.object := by
      rw [← UInt64.toNat_inj]
      unfold Loc.pos at h
      omega
    cases a
    simp_all
  · rintro rfl
    rfl

end Wired.Moqt
