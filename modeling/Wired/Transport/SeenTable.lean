import Wired.Bytes.Compare
import Wired.Lib.Ring
import Wired.Lib.Run

/-!
# The table of identities seen

`zerortt_seen.c`: a ring of the digests of the identities that were presented, each with the time
it was recorded at. An identity whose digest is in the ring is refused. When the ring is full, the
oldest entry gives way to a new one if it is at least `life` seconds old; otherwise the new
identity is refused.

The order of the times around the ring does not matter. The test `now < at + life` is made in 64
bits; the results are about clocks whose sum with the lifetime does not wrap (`NoWrap`), as any
clock in seconds is.

* `checkLive_apart`: two first uses of one identity are a lifetime apart, over any run.
* `checkAt_apart`: the same for the lifetime of a 0-RTT ticket.
-/

namespace Wired.Transport

open Bytes Lib

def zerorttSeenCap : Nat := 4096

def zerorttSeenLiveSecs : UInt64 := 21

/-- A digest and when it was recorded. -/
structure SeenEntry where
  digest : Vector UInt8 32
  recorded : UInt64
deriving DecidableEq

/-- The ring. `stuck` is set for good when the lock could not be had. -/
structure ZerorttSeen where
  entry : Nat → SeenEntry
  next : Nat
  count : Nat
  stuck : Bool

/-- `zerortt_seen_init`: the entries keep what they held before. -/
def zerorttSeenInit (entry : Nat → SeenEntry) : ZerorttSeen where
  entry := entry
  next := 0
  count := 0
  stuck := false

def zerorttSeenFind (s : ZerorttSeen) (digest : Vector UInt8 32) : Option Nat :=
  (List.range s.count).find? fun i => ctDiff (s.entry i).digest.toList digest.toList = 0

def zerorttSeenRecord (s : ZerorttSeen) (digest : Vector UInt8 32) (now : UInt64) : ZerorttSeen :=
  { s with
    entry := Function.update s.entry s.next ⟨digest, now⟩
    next := (s.next + 1) % zerorttSeenCap
    count := if s.count < zerorttSeenCap then s.count + 1 else s.count }

def zerorttSeenFullLive (s : ZerorttSeen) (now life : UInt64) : Bool :=
  s.count = zerorttSeenCap && now < (s.entry s.next).recorded + life

def zerorttSeenFindOrRecord (s : ZerorttSeen) (digest : Vector UInt8 32) (now life : UInt64) :
    ZerorttSeen × Bool :=
  if (zerorttSeenFind s digest).isSome then (s, false)
  else if zerorttSeenFullLive s now life then (s, false)
  else (zerorttSeenRecord s digest now, true)

/-- One call of `zerortt_seen_check_live`; `spin` is whether the lock was had within the tries. -/
structure SeenCheck where
  identity : List UInt8
  now : UInt64
  spin : Bool

section

variable (sha256 : List UInt8 → Vector UInt8 32) (life : UInt64)

/-- Whether the identity is new; once the lock was not had, nothing is. -/
def zerorttSeenCheckLive (s : ZerorttSeen) (c : SeenCheck) : ZerorttSeen × Bool :=
  if s.stuck then (s, false)
  else if !c.spin then ({ s with stuck := true }, false)
  else zerorttSeenFindOrRecord s (sha256 c.identity) c.now life

/-- `zerortt_seen_check_at`: the lifetime of a 0-RTT ticket. -/
def zerorttSeenCheckAt (s : ZerorttSeen) (c : SeenCheck) : ZerorttSeen × Bool :=
  zerorttSeenCheckLive sha256 zerorttSeenLiveSecs s c

end

/-! ## What the ring holds -/

/-- The ring holds the entries, oldest first. -/
structure SeenHolds (s : ZerorttSeen) (start : Nat) (held : List SeenEntry) : Prop where
  ring : RingHolds s.entry zerorttSeenCap start held
  count : s.count = held.length
  next : s.next = (start + held.length) % zerorttSeenCap
  cover : start = 0 ∧ held.length ≤ zerorttSeenCap ∨ held.length = zerorttSeenCap

section

variable {s : ZerorttSeen} {start : Nat} {held : List SeenEntry}

theorem zerorttSeenCap_pos : 0 < zerorttSeenCap := by decide

theorem seenHolds_init (entry : Nat → SeenEntry) : SeenHolds (zerorttSeenInit entry) 0 [] where
  ring := RingHolds.nil _ _ _
  count := rfl
  next := rfl
  cover := .inl ⟨rfl, Nat.zero_le _⟩

theorem SeenHolds.find_isSome_iff (h : SeenHolds s start held) (digest : Vector UInt8 32) :
    (zerorttSeenFind s digest).isSome = true ↔ ∃ e ∈ held, e.digest = digest := by
  have hmem := h.ring.mem_iff zerorttSeenCap_pos h.cover
  have hsame : ∀ i, ctDiff (s.entry i).digest.toList digest.toList = 0 ↔
      (s.entry i).digest = digest := by
    intro i
    rw [ctDiff_eq_zero (by simp), Vector.toList_inj]
  rw [zerorttSeenFind, List.find?_isSome, h.count]
  constructor
  · rintro ⟨i, hi, hd⟩
    rw [List.mem_range] at hi
    exact ⟨s.entry i, (hmem _).mp ⟨i, hi, rfl⟩, (hsame i).mp (of_decide_eq_true hd)⟩
  · rintro ⟨e, he, rfl⟩
    obtain ⟨i, hi, rfl⟩ := (hmem e).mpr he
    exact ⟨i, List.mem_range.mpr hi, decide_eq_true ((hsame i).mpr rfl)⟩

/-- A new entry joins the ones that are held, until the ring is full. -/
theorem SeenHolds.record (h : SeenHolds s start held) (hroom : held.length < zerorttSeenCap)
    (digest : Vector UInt8 32) (now : UInt64) :
    SeenHolds (zerorttSeenRecord s digest now) 0 (held ++ [⟨digest, now⟩]) := by
  obtain rfl : start = 0 := by
    rcases h.cover with hstart | hfull
    · exact hstart.1
    · omega
  have hnext : s.next = (0 + held.length) % zerorttSeenCap := h.next
  have hlen : (held ++ [(⟨digest, now⟩ : SeenEntry)]).length = held.length + 1 := by simp
  refine ⟨?_, ?_, ?_, .inl ⟨rfl, ?_⟩⟩
  · rw [zerorttSeenRecord, hnext]
    exact h.ring.push hroom _
  · rw [hlen, zerorttSeenRecord, h.count, if_pos hroom]
  · rw [hlen, zerorttSeenRecord, hnext, Nat.mod_add_mod, add_assoc]
  · rw [hlen]
    exact hroom

section

variable {e : SeenEntry} (h : SeenHolds s start (e :: held))
  (hfull : held.length + 1 = zerorttSeenCap)
include h hfull

theorem SeenHolds.replace (digest : Vector UInt8 32) (now : UInt64) :
    SeenHolds (zerorttSeenRecord s digest now) (start + 1) (held ++ [⟨digest, now⟩]) := by
  have hnext : s.next = start % zerorttSeenCap := by
    rw [h.next, List.length_cons, hfull, Nat.add_mod_right]
  have hcount : s.count = zerorttSeenCap := by rw [h.count, List.length_cons, hfull]
  have hlen : (held ++ [(⟨digest, now⟩ : SeenEntry)]).length = zerorttSeenCap := by simp [hfull]
  refine ⟨?_, ?_, ?_, .inr hlen⟩
  · rw [zerorttSeenRecord, hnext]
    exact h.ring.push_full hfull _
  · rw [hlen, zerorttSeenRecord, hcount, if_neg (lt_irrefl _)]
  · rw [hlen, zerorttSeenRecord, hnext, Nat.add_mod_right, Nat.mod_add_mod]

theorem SeenHolds.oldest : s.entry s.next = e := by
  have hcell := h.ring 0 e rfl
  rwa [h.next, List.length_cons, hfull, Nat.add_mod_right]

end

end

/-! ## What a check does -/

/-- The ways a check can go: refused with the ring as it is, or a first use. -/
inductive SeenStep (digest : Vector UInt8 32) (now life : UInt64) (held : List SeenEntry) :
    List SeenEntry → Bool → Prop
  | refused : SeenStep digest now life held held false
  | recorded (hnew : ∀ e ∈ held, e.digest ≠ digest) (hroom : held.length < zerorttSeenCap) :
    SeenStep digest now life held (held ++ [⟨digest, now⟩]) true
  | replaced (e : SeenEntry) (rest : List SeenEntry) (heq : held = e :: rest)
      (hnew : ∀ e ∈ held, e.digest ≠ digest) (hfull : rest.length + 1 = zerorttSeenCap)
      (hold : e.recorded + life ≤ now) :
    SeenStep digest now life held (rest ++ [⟨digest, now⟩]) true

/-- A first use is of a new digest, and what its entry takes the place of may give way. -/
theorem SeenStep.first {digest : Vector UInt8 32} {now life : UInt64} {held held' : List SeenEntry}
    (h : SeenStep digest now life held held' true) :
    (∀ e ∈ held, e.digest ≠ digest) ∧ ⟨digest, now⟩ ∈ held' ∧
      (∀ e ∈ held', e ∈ held ∨ e = ⟨digest, now⟩) ∧
      ∀ e ∈ held, e ∈ held' ∨ e.recorded + life ≤ now := by
  cases h with
  | recorded hnew =>
    refine ⟨hnew, by simp, fun e he => by simpa using he, ?_⟩
    exact fun e he => .inl (List.mem_append_left _ he)
  | replaced e rest heq hnew _ hold =>
    subst heq
    refine ⟨hnew, by simp, fun e' he => ?_, ?_⟩
    · rw [List.mem_append, List.mem_singleton] at he
      exact he.imp_left (List.mem_cons_of_mem e)
    · rw [List.forall_mem_cons]
      exact ⟨.inr hold, fun e' he => .inl (List.mem_append_left _ he)⟩

section

variable {s : ZerorttSeen} {start : Nat} {held : List SeenEntry} (h : SeenHolds s start held)
include h

theorem findOrRecord_step (digest : Vector UInt8 32) (now life : UInt64) :
    ∃ start' held', SeenHolds (zerorttSeenFindOrRecord s digest now life).1 start' held' ∧
      SeenStep digest now life held held' (zerorttSeenFindOrRecord s digest now life).2 := by
  unfold zerorttSeenFindOrRecord
  split
  · exact ⟨start, held, h, .refused⟩
  · rename_i hfind
    have hnew : ∀ e ∈ held, e.digest ≠ digest := fun e he hd =>
      hfind ((h.find_isSome_iff digest).mpr ⟨e, he, hd⟩)
    split
    · exact ⟨start, held, h, .refused⟩
    · rename_i hlive
      by_cases hroom : held.length < zerorttSeenCap
      · exact ⟨0, _, h.record hroom digest now, .recorded hnew hroom⟩
      · have hfull : held.length = zerorttSeenCap := by
          rcases h.cover with hle | hfull
          · omega
          · exact hfull
        cases held with
        | nil => exact absurd hfull (by decide)
        | cons e rest =>
          have hold : e.recorded + life ≤ now := by
            rw [zerorttSeenFullLive, h.oldest hfull, h.count, hfull] at hlive
            simpa using hlive
          exact ⟨_, _, h.replace hfull digest now, .replaced e rest rfl hnew hfull hold⟩

theorem checkLive_step (sha256 : List UInt8 → Vector UInt8 32) (life : UInt64) (c : SeenCheck) :
    ∃ start' held', SeenHolds (zerorttSeenCheckLive sha256 life s c).1 start' held' ∧
      SeenStep (sha256 c.identity) c.now life held held'
        (zerorttSeenCheckLive sha256 life s c).2 := by
  unfold zerorttSeenCheckLive
  split
  · exact ⟨start, held, h, .refused⟩
  · split
    · exact ⟨start, held, { h with }, .refused⟩
    · exact findOrRecord_step h _ _ _

end

/-! ## First uses -/

/-- The sum of the clock and the lifetime does not wrap. -/
def NoWrap (life : UInt64) (c : SeenCheck) : Prop := c.now.toNat + life.toNat < 2 ^ 64
deriving Decidable

theorem noWrap_of_secs {life : UInt64} {c : SeenCheck} (hlife : life.toNat < 2 ^ 63)
    (hsecs : c.now.toNat < 2 ^ 63) : NoWrap life c := by
  unfold NoWrap
  omega

/-- Two first uses of one identity are a lifetime apart. -/
def LifeApart (life : UInt64) (a b : SeenCheck × Bool) : Prop :=
  a.1.identity = b.1.identity → a.2 = true → b.2 = true →
    a.1.now.toNat + life.toNat ≤ b.1.now.toNat

/-- Every first use so far is in the ring, or older than a lifetime at one of the checks. -/
structure Remembers (sha256 : List UInt8 → Vector UInt8 32) (life : UInt64)
    (past : List (SeenCheck × Bool)) (s : ZerorttSeen) : Prop where
  holds : ∃ start held, SeenHolds s start held ∧
    (∀ e ∈ held, e.recorded.toNat + life.toNat < 2 ^ 64) ∧
    ∀ b ∈ past, b.2 = true → (⟨sha256 b.1.identity, b.1.now⟩ : SeenEntry) ∈ held ∨
      ∃ c ∈ past, b.1.now.toNat + life.toNat ≤ c.1.now.toNat

section

variable {sha256 : List UInt8 → Vector UInt8 32} {life : UInt64}
  {past : List (SeenCheck × Bool)} {s : ZerorttSeen}

theorem remembers_init (entry : Nat → SeenEntry) :
    Remembers sha256 life [] (zerorttSeenInit entry) :=
  ⟨0, [], seenHolds_init entry, by simp, by simp⟩

theorem Remembers.refuse (h : Remembers sha256 life past s) (a : SeenCheck) :
    Remembers sha256 life (past ++ [(a, false)]) s := by
  obtain ⟨start, held, hholds, hwrap, hpast⟩ := h.holds
  refine ⟨start, held, hholds, hwrap, ?_⟩
  rw [List.forall_mem_append, List.forall_mem_singleton]
  refine ⟨fun b hb hfirst => (hpast b hb hfirst).imp_right ?_, nofun⟩
  rintro ⟨c, hc, hold⟩
  exact ⟨c, List.mem_append_left _ hc, hold⟩

theorem Remembers.step (h : Remembers sha256 life past s) {a : SeenCheck}
    (hclock : ∀ b ∈ past, b.1.now ≤ a.now) (hwrap : NoWrap life a) :
    Remembers sha256 life (past ++ [(a, (zerorttSeenCheckLive sha256 life s a).2)])
        (zerorttSeenCheckLive sha256 life s a).1 ∧
      ∀ b ∈ past, LifeApart life b (a, (zerorttSeenCheckLive sha256 life s a).2) := by
  obtain ⟨start, held, hholds, hfits, hpast⟩ := h.holds
  obtain ⟨start', held', hholds', hstep⟩ := checkLive_step hholds sha256 life a
  generalize (zerorttSeenCheckLive sha256 life s a).2 = first at hstep ⊢
  cases first with
  | false =>
    cases hstep
    refine ⟨(Remembers.mk ⟨start', held, hholds', hfits, hpast⟩).refuse a, ?_⟩
    intro b _ _ _ hfalse
    cases hfalse
  | true =>
    obtain ⟨hnew, hself, hback, hkeep⟩ := hstep.first
    refine ⟨⟨start', held', hholds', ?_, ?_⟩, ?_⟩
    · intro e he
      rcases hback e he with he | rfl
      · exact hfits e he
      · exact hwrap
    · rw [List.forall_mem_append, List.forall_mem_singleton]
      refine ⟨fun b hb hfirst => ?_, fun _ => .inl hself⟩
      rcases hpast b hb hfirst with hheld | ⟨c, hc, hold⟩
      · refine (hkeep _ hheld).imp_right fun hold => ⟨(a, true), by simp, ?_⟩
        have hle := UInt64.le_iff_toNat_le.mp hold
        rwa [UInt64.toNat_add, Nat.mod_eq_of_lt (hfits _ hheld)] at hle
      · exact .inr ⟨c, List.mem_append_left _ hc, hold⟩
    · -- a first use before this one was given up: its digest is in no entry
      intro b hb hsame hfirst _
      rcases hpast b hb hfirst with hheld | ⟨c, hc, hold⟩
      · exact absurd (by rw [hsame]) (hnew _ hheld)
      · exact le_trans hold (UInt64.le_iff_toNat_le.mp (hclock c hc))

variable (sha256 life) (entry : Nat → SeenEntry) {checks : List SeenCheck}
  (hclock : checks.Pairwise fun a b => a.now ≤ b.now)
include hclock

/-- **Two first uses of one identity** are a lifetime apart, whatever is checked in between. -/
theorem checkLive_apart (hwrap : ∀ c ∈ checks, NoWrap life c) :
    (answers (zerorttSeenCheckLive sha256 life) (zerorttSeenInit entry) checks).Pairwise
      (LifeApart life) :=
  answers_pairwise (J := Remembers sha256 life)
    (fun _ _ _ hs hbefore ha => hs.step hbefore ha) (remembers_init entry) hclock hwrap

/-- A 0-RTT ticket is used first again after 21 seconds at the earliest. -/
theorem checkAt_apart (hsecs : ∀ c ∈ checks, c.now.toNat < 2 ^ 63) :
    (answers (zerorttSeenCheckAt sha256) (zerorttSeenInit entry) checks).Pairwise
      (LifeApart zerorttSeenLiveSecs) :=
  checkLive_apart sha256 zerorttSeenLiveSecs entry hclock fun c hc =>
    noWrap_of_secs (by decide) (hsecs c hc)

end

end Wired.Transport
