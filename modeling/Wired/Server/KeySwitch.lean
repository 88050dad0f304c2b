import Mathlib.Algebra.Group.Nat.Defs
import Mathlib.Tactic.SplitIfs

/-!
# Generations of the 1-RTT keys

The key update code of the server: the two retained generations of `twogen.c`, the choice of one
for a received 1-RTT packet and what follows from opening it (`recv_onertt.c`), the update that the
server initiates itself before the confidentiality limit (`send.c`), and the seeding of generation
0 (`server_feed.c`). The ciphers are parameters (`KuSuite`), of which nothing is assumed here.

After `n` rotations the server holds the keys of the generations `n` and `n + 1`, and of `n - 1`
while the old keys are retained (`HoldsKeys`).
-/

namespace Wired.Server

/-- `initial_keys`: the AEAD key with its IV, and the header-protection key. -/
structure InitialKeys (Aead Hp : Type) where
  aead : Aead
  hp : Hp

/-- The Key Phase bit and the full packet number of a short header. -/
structure KurxHdr where
  phase : Nat
  pn : Nat

/-- What the key update code calls of the negotiated cipher suite. An `In` is a datagram together
with the largest packet number so far, against which its own is decoded. -/
structure KuSuite where
  Aead : Type
  Hp : Type
  Secret : Type
  In : Type
  Payload : Type
  SendIn : Type
  Out : Type
  isChacha : Bool
  wiped : InitialKeys Aead Hp
  nextKeys : Secret → InitialKeys Aead Hp × Secret
  kurxPeek : Hp → In → Option KurxHdr
  kurxOpen : InitialKeys Aead Hp → In → Option Payload
  onerttBuild : InitialKeys Aead Hp → Nat → SendIn → Option Out

abbrev KuSuite.Keys (S : KuSuite) : Type := InitialKeys S.Aead S.Hp

variable {S : KuSuite}

/-! ## Two generations -/

/-- The current keys, and the old ones while they are retained. -/
structure KuswitchState (S : KuSuite) where
  cur : S.Keys
  old : S.Keys
  generation : Nat
  haveOld : Bool

def kuswitchInit (state : KuswitchState S) (gen0 : S.Keys) : KuswitchState S :=
  { state with cur := gen0, generation := 0, haveOld := false }

def kuswitchRotate (state : KuswitchState S) (next : S.Keys) : KuswitchState S where
  old := state.cur
  cur := next
  generation := (state.generation + 1) % 2 ^ 64
  haveOld := true

def kuswitchDiscardOld (state : KuswitchState S) : KuswitchState S :=
  { state with haveOld := false, old := S.wiped }

def keyphaseBit (generation : Nat) : Nat := generation % 2

def keyupdatePnViolates (newPhaseMinPn oldKeyPn : Nat) : Bool := oldKeyPn > newPhaseMinPn

/-! ## The server -/

def errKeyUpdateError : Nat := 0x0e

def errAeadLimitReached : Nat := 0x0f

/-- The application keys and secrets of the key schedule, each absent until it is derived. -/
structure ApKeys (S : KuSuite) where
  clientAp : Option S.Keys
  clientApSecret : Option S.Secret
  serverAp : Option S.Keys
  serverApSecret : Option S.Secret

/-- The fields of `wired_server` that belong to the key update. -/
structure KuServer (S : KuSuite) where
  sched : ApKeys S
  ku : KuswitchState S
  kuSecret : S.Secret
  kuNext : S.Keys
  kuNextSecret : S.Secret
  kuCurLo : Nat
  kuCurHi : Nat
  kuSend : KuswitchState S
  kuSendSecret : S.Secret
  kuSendCount : Nat
  kuError : Nat
  kuAuthFail : Nat
  kuSeeded : Bool

/-- The keys after the current ones, and an empty range of packet numbers opened under the current
ones. -/
def serverKuDeriveNext (s : KuServer S) : KuServer S :=
  let next := S.nextKeys s.kuSecret
  { s with
    kuNext := { next.1 with hp := s.ku.cur.hp }
    kuNextSecret := next.2
    kuCurLo := 2 ^ 64 - 1
    kuCurHi := 0 }

def srvSeedKuswitchRecv (s : KuServer S) : KuServer S × Bool :=
  match s.sched.clientAp, s.sched.clientApSecret with
  | some clientAp, some secret =>
    (serverKuDeriveNext { s with ku := kuswitchInit s.ku clientAp, kuSecret := secret }, true)
  | _, _ => (s, false)

def srvSeedKuswitchSend (s : KuServer S) : KuServer S × Bool :=
  match s.sched.serverAp, s.sched.serverApSecret with
  | some serverAp, some secret =>
    ({ s with kuSend := kuswitchInit s.kuSend serverAp, kuSendSecret := secret }, true)
  | _, _ => (s, false)

def srvSeedKuswitch (s : KuServer S) : KuServer S :=
  let recv := srvSeedKuswitchRecv s
  let send := srvSeedKuswitchSend recv.1
  { send.1 with kuSeeded := recv.2 && send.2 }

/-! ## Receiving -/

/-- The generation picked for a packet. -/
inductive Kurx
  | cur
  | old
  | next

def kurxPickOther (s : KuServer S) (pn : Nat) : Kurx :=
  if !s.ku.haveOld || pn > s.kuCurHi then .next else .old

def kurxPick (s : KuServer S) (h : KurxHdr) : Kurx :=
  if h.phase = keyphaseBit s.ku.generation then .cur else kurxPickOther s h.pn

def kurxKeys (s : KuServer S) : Kurx → S.Keys
  | .cur => s.ku.cur
  | .old => s.ku.old
  | .next => s.kuNext

def srvloopKuRotateSend (s : KuServer S) : KuServer S :=
  let next := S.nextKeys s.kuSendSecret
  { s with
    kuSend := kuswitchRotate s.kuSend { next.1 with hp := s.kuSend.cur.hp }
    kuSendSecret := next.2
    kuSendCount := 0 }

def kurxTookCur (s : KuServer S) (pn : Nat) : KuServer S × Bool :=
  ({ s with kuCurLo := min s.kuCurLo pn, kuCurHi := max s.kuCurHi pn }, true)

/-- Old keys that open a packet numbered above one the newer keys protected are an error. -/
def kurxTookOld (s : KuServer S) (pn : Nat) : KuServer S × Bool :=
  if !keyupdatePnViolates s.kuCurLo pn then (s, true)
  else ({ s with kuError := errKeyUpdateError }, false)

/-- The next keys become the current ones; the send side follows unless it is ahead already. -/
def kurxRotate (s : KuServer S) : KuServer S :=
  let s := { s with ku := kuswitchRotate s.ku s.kuNext, kuSecret := s.kuNextSecret }
  let s := serverKuDeriveNext s
  if s.kuSend.generation < s.ku.generation then srvloopKuRotateSend s else s

def kurxTookNext (s : KuServer S) (pn : Nat) : KuServer S × Bool :=
  kurxTookCur (kurxRotate s) pn

def kurxTook (s : KuServer S) (pn : Nat) : Kurx → KuServer S × Bool
  | .cur => kurxTookCur s pn
  | .old => kurxTookOld s pn
  | .next => kurxTookNext s pn

/-- One attempt to open, under the one generation picked from the header. -/
def kurxOpenPicked (s : KuServer S) (i : S.In) : KuServer S × Option S.Payload :=
  match S.kurxPeek s.ku.cur.hp i with
  | none => (s, none)
  | some h =>
    match S.kurxOpen (kurxKeys s (kurxPick s h)) i with
    | none => ({ s with kuAuthFail := (s.kuAuthFail + 1) % 2 ^ 64 }, none)
    | some payload =>
      match kurxTook s h.pn (kurxPick s h) with
      | (s, true) => (s, some payload)
      | (s, false) => (s, none)

/-- A received 1-RTT packet, once the keys are seeded. -/
def srvloopRecvOnertt (s : KuServer S) (i : S.In) : KuServer S × Option S.Payload :=
  if !s.kuSeeded then (s, none) else kurxOpenPicked s i

/-- The old keys are dropped three probe timeouts after the rotation. -/
def srvrunKuDiscardStale (s : KuServer S) (rotatedAtMs floorMs nowMs : Nat) : KuServer S :=
  if !s.ku.haveOld then s
  else if nowMs ≥ (rotatedAtMs + floorMs) % 2 ^ 64 then { s with ku := kuswitchDiscardOld s.ku }
  else s

/-! ## Sending -/

def aeadNeedsUpdate (packetsEncrypted : Nat) (isChacha : Bool) : Bool :=
  packetsEncrypted ≥ if isChacha then 2 ^ 62 else 2 ^ 23

def srvloopKuCloseMargin : Nat := 64

def kuCanInitiate (s : KuServer S) : Bool :=
  s.kuSeeded && s.kuSend.generation == s.ku.generation

def kuLimitNearStuck (s : KuServer S) (chacha : Bool) : Bool :=
  aeadNeedsUpdate ((s.kuSendCount + srvloopKuCloseMargin) % 2 ^ 64) chacha && !kuCanInitiate s

def kuNoteLimitNear (s : KuServer S) (chacha : Bool) : KuServer S :=
  if kuLimitNearStuck s chacha && s.kuError == 0 then { s with kuError := errAeadLimitReached }
  else s

/-- Whether one more packet may be sealed; at the limit the keys are updated first, if the peer has
followed the update before. -/
def kuLimitGate (s : KuServer S) : KuServer S × Bool :=
  let s := kuNoteLimitNear s S.isChacha
  if !aeadNeedsUpdate s.kuSendCount S.isChacha then (s, true)
  else if !kuCanInitiate s then (s, false)
  else (srvloopKuRotateSend s, true)

def sendOnerttKeys (s : KuServer S) : Option S.Keys :=
  if s.kuSeeded then some s.kuSend.cur else s.sched.serverAp

def sendOnerttPhase (s : KuServer S) : Nat :=
  if s.kuSeeded then keyphaseBit s.kuSend.generation else 0

def sendOnerttSeal (s : KuServer S) (x : S.SendIn) : Option S.Out :=
  match sendOnerttKeys s with
  | none => none
  | some keys => S.onerttBuild keys (sendOnerttPhase s) x

def srvloopSendOnertt (s : KuServer S) (x : S.SendIn) : KuServer S × Option S.Out :=
  match kuLimitGate s with
  | (s, false) => (s, none)
  | (s, true) =>
    match sendOnerttSeal s x with
    | none => (s, none)
    | some out => ({ s with kuSendCount := (s.kuSendCount + 1) % 2 ^ 64 }, some out)

/-! ## What one call can do -/

theorem kurxPick_eq_old {s : KuServer S} {h : KurxHdr} (hp : kurxPick s h = .old) :
    h.phase ≠ keyphaseBit s.ku.generation ∧ s.ku.haveOld = true ∧ h.pn ≤ s.kuCurHi := by
  unfold kurxPick kurxPickOther at hp
  split_ifs at hp with hphase hother
  simp only [Bool.or_eq_true, Bool.not_eq_true', decide_eq_true_eq, not_or,
    Bool.not_eq_false, gt_iff_lt, Nat.not_lt] at hother
  exact ⟨hphase, hother⟩

/-- What a seeded server does with a received packet, and what its answer is. -/
inductive PacketRead (s : KuServer S) (i : S.In) : KuServer S × Option S.Payload → Prop
  | unread (hpeek : S.kurxPeek s.ku.cur.hp i = none) : PacketRead s i (s, none)
  | unopened : PacketRead s i ({ s with kuAuthFail := (s.kuAuthFail + 1) % 2 ^ 64 }, none)
  | current {h : KurxHdr} {v : S.Payload} (hpeek : S.kurxPeek s.ku.cur.hp i = some h)
      (hopen : S.kurxOpen s.ku.cur i = some v) : PacketRead s i ((kurxTookCur s h.pn).1, some v)
  | previous {h : KurxHdr} {v : S.Payload} (hpeek : S.kurxPeek s.ku.cur.hp i = some h)
      (hopen : S.kurxOpen s.ku.old i = some v) (hold : s.ku.haveOld = true)
      (hle : h.pn ≤ s.kuCurLo) : PacketRead s i (s, some v)
  | violation {h : KurxHdr} {v : S.Payload} (hpeek : S.kurxPeek s.ku.cur.hp i = some h)
      (hopen : S.kurxOpen s.ku.old i = some v) (hold : s.ku.haveOld = true)
      (hlt : s.kuCurLo < h.pn) : PacketRead s i ({ s with kuError := errKeyUpdateError }, none)
  | next {h : KurxHdr} {v : S.Payload} (hpeek : S.kurxPeek s.ku.cur.hp i = some h)
      (hopen : S.kurxOpen s.kuNext i = some v) :
      PacketRead s i ((kurxTookNext s h.pn).1, some v)

theorem kurxOpenPicked_received (s : KuServer S) (i : S.In) :
    PacketRead s i (kurxOpenPicked s i) := by
  unfold kurxOpenPicked
  cases hpeek : S.kurxPeek s.ku.cur.hp i with
  | none => exact .unread hpeek
  | some h =>
    dsimp only
    cases hopen : S.kurxOpen (kurxKeys s (kurxPick s h)) i with
    | none => exact .unopened
    | some v =>
      cases hpick : kurxPick s h with
      | cur =>
        rw [hpick] at hopen
        exact .current hpeek hopen
      | next =>
        rw [hpick] at hopen
        exact .next hpeek hopen
      | old =>
        rw [hpick] at hopen
        have hold := (kurxPick_eq_old hpick).2.1
        simp only [kurxTook, kurxTookOld, keyupdatePnViolates]
        by_cases hlt : s.kuCurLo < h.pn
        · simpa [hlt] using PacketRead.violation hpeek hopen hold hlt
        · simpa [hlt] using PacketRead.previous hpeek hopen hold (Nat.le_of_not_lt hlt)

theorem srvloopRecvOnertt_received {s : KuServer S} (hs : s.kuSeeded = true) (i : S.In) :
    PacketRead s i (srvloopRecvOnertt s i) := by
  simpa [srvloopRecvOnertt, hs] using kurxOpenPicked_received s i

/-- A packet that opens under the keys picked for it is accepted, unless they are the old ones and
its number is too large. -/
theorem srvloopRecvOnertt_of_open {s : KuServer S} {i : S.In} {h : KurxHdr} {v : S.Payload}
    (hs : s.kuSeeded = true) (hpeek : S.kurxPeek s.ku.cur.hp i = some h)
    (hopen : S.kurxOpen (kurxKeys s (kurxPick s h)) i = some v)
    (hlate : kurxPick s h = .old → h.pn ≤ s.kuCurLo) :
    (srvloopRecvOnertt s i).2 = some v := by
  simp only [srvloopRecvOnertt, hs, Bool.not_true, Bool.false_eq_true, if_false, kurxOpenPicked,
    hpeek, hopen]
  cases hpick : kurxPick s h with
  | cur => rfl
  | next => rfl
  | old =>
    have hle : ¬ s.kuCurLo < h.pn := Nat.not_lt.mpr (hlate hpick)
    simp [kurxTook, kurxTookOld, keyupdatePnViolates, hle]

theorem kuNoteLimitNear_spec (s : KuServer S) (chacha : Bool) :
    ∃ error, kuNoteLimitNear s chacha = { s with kuError := error } ∧
      (error = s.kuError ∨ error = errAeadLimitReached) := by
  unfold kuNoteLimitNear
  split
  · exact ⟨_, rfl, .inr rfl⟩
  · exact ⟨s.kuError, rfl, .inl rfl⟩

/-- The receive side is left alone; the close can be latched at the limit, and the send keys rotated
when they are of the receive side's generation. -/
def SendMoved (s s' : KuServer S) : Prop :=
  ∃ send secret count error,
    s' = { s with kuSend := send, kuSendSecret := secret, kuSendCount := count, kuError := error } ∧
    (error = s.kuError ∨ error = errAeadLimitReached) ∧
    (send.generation = s.kuSend.generation ∨ s.kuSend.generation = s.ku.generation ∧
      send.generation = (s.kuSend.generation + 1) % 2 ^ 64)

theorem kuLimitGate_spec (s : KuServer S) : SendMoved s (kuLimitGate s).1 := by
  obtain ⟨error, hnoted, herror⟩ := kuNoteLimitNear_spec s S.isChacha
  simp only [kuLimitGate, hnoted]
  split_ifs with hlimit hinit
  · exact ⟨_, _, _, _, rfl, herror, .inl rfl⟩
  · exact ⟨_, _, _, _, rfl, herror, .inl rfl⟩
  · refine ⟨_, _, _, _, rfl, herror, .inr ⟨?_, rfl⟩⟩
    simp only [kuCanInitiate, Bool.not_eq_true', Bool.not_eq_false, Bool.and_eq_true,
      beq_iff_eq] at hinit
    exact hinit.2

/-- Sealing a packet after the gate only counts it. -/
theorem srvloopSendOnertt_gate (s : KuServer S) (x : S.SendIn) :
    ∃ count, (srvloopSendOnertt s x).1 = { (kuLimitGate s).1 with kuSendCount := count } := by
  unfold srvloopSendOnertt
  obtain ⟨s', allowed⟩ := kuLimitGate s
  cases allowed with
  | false => exact ⟨s'.kuSendCount, rfl⟩
  | true =>
    dsimp only
    split
    · exact ⟨s'.kuSendCount, rfl⟩
    · exact ⟨_, rfl⟩

theorem srvloopSendOnertt_spec (s : KuServer S) (x : S.SendIn) :
    SendMoved s (srvloopSendOnertt s x).1 := by
  obtain ⟨send, secret, _, error, hgated, hrest⟩ := kuLimitGate_spec s
  obtain ⟨count, hcounted⟩ := srvloopSendOnertt_gate s x
  exact ⟨send, secret, count, error, by rw [hcounted, hgated], hrest⟩

/-! ## Which keys are held -/

/-- A server whose handshake is complete, with the application keys and secrets of both directions.
-/
structure Confirmed (S : KuSuite) where
  server : KuServer S
  clientAp : S.Keys
  clientSecret : S.Secret
  serverAp : S.Keys
  serverSecret : S.Secret
  sched_eq : server.sched = ⟨some clientAp, some clientSecret, some serverAp, some serverSecret⟩
  noError : server.kuError ≠ errKeyUpdateError

def Confirmed.secretOf (D : Confirmed S) : Nat → S.Secret
  | 0 => D.clientSecret
  | g + 1 => (S.nextKeys (D.secretOf g)).2

/-- The client's keys of a generation, under one header-protection key. -/
def Confirmed.keysOf (D : Confirmed S) : Nat → S.Keys
  | 0 => D.clientAp
  | g + 1 => { (S.nextKeys (D.secretOf g)).1 with hp := D.clientAp.hp }

@[simp] theorem Confirmed.keysOf_hp (D : Confirmed S) (g : Nat) :
    (D.keysOf g).hp = D.clientAp.hp := by
  cases g <;> rfl

/-- The server has rotated its receive keys `n` times. -/
structure HoldsKeys (D : Confirmed S) (n : Nat) (s : KuServer S) : Prop where
  seeded : s.kuSeeded = true
  generation : s.ku.generation = n % 2 ^ 64
  cur : s.ku.cur = D.keysOf n
  next : s.kuNext = D.keysOf (n + 1)
  nextSecret : s.kuNextSecret = D.secretOf (n + 1)
  old : s.ku.haveOld = true → ∃ m, n = m + 1 ∧ s.ku.old = D.keysOf m

variable {D : Confirmed S} {n : Nat} {s : KuServer S}

theorem srvSeedKuswitch_eq (D : Confirmed S) :
    srvSeedKuswitch D.server =
      { serverKuDeriveNext { D.server with
          ku := kuswitchInit D.server.ku D.clientAp, kuSecret := D.clientSecret } with
        kuSend := kuswitchInit D.server.kuSend D.serverAp
        kuSendSecret := D.serverSecret
        kuSeeded := true } := by
  simp [srvSeedKuswitch, srvSeedKuswitchRecv, srvSeedKuswitchSend, serverKuDeriveNext, D.sched_eq]

theorem HoldsKeys.seed (D : Confirmed S) : HoldsKeys D 0 (srvSeedKuswitch D.server) := by
  rw [srvSeedKuswitch_eq]
  constructor
  · rfl
  · rfl
  · rfl
  · rfl
  · rfl
  · intro hold
    cases hold

/-- The receive side of a rotation does not depend on what the send side does with it. -/
theorem kurxRotate_spec (s : KuServer S) :
    ∃ send secret count,
      kurxRotate s =
        { serverKuDeriveNext { s with ku := kuswitchRotate s.ku s.kuNext,
                                      kuSecret := s.kuNextSecret } with
          kuSend := send, kuSendSecret := secret, kuSendCount := count } ∧
      send.generation =
        if s.kuSend.generation < (s.ku.generation + 1) % 2 ^ 64 then
          (s.kuSend.generation + 1) % 2 ^ 64
        else s.kuSend.generation := by
  by_cases hlt : s.kuSend.generation < (s.ku.generation + 1) % 2 ^ 64
  · refine ⟨_, _, _, if_pos hlt, ?_⟩
    rw [if_pos hlt]
    rfl
  · refine ⟨s.kuSend, s.kuSendSecret, s.kuSendCount, if_neg hlt, ?_⟩
    rw [if_neg hlt]

theorem srvrunKuDiscardStale_cases (s : KuServer S) (rotatedAt floor now : Nat) :
    srvrunKuDiscardStale s rotatedAt floor now = s ∨
      srvrunKuDiscardStale s rotatedAt floor now = { s with ku := kuswitchDiscardOld s.ku } := by
  unfold srvrunKuDiscardStale
  split_ifs
  · exact .inl rfl
  · exact .inr rfl
  · exact .inl rfl

section

variable (hk : HoldsKeys D n s)
include hk

theorem HoldsKeys.rotate : HoldsKeys D (n + 1) (kurxRotate s) := by
  obtain ⟨send, secret, count, hrot, -⟩ := kurxRotate_spec s
  rw [hrot]
  constructor
  · exact hk.seeded
  · simp [serverKuDeriveNext, kuswitchRotate, hk.generation]
  · exact hk.next
  · simp [serverKuDeriveNext, kuswitchRotate, hk.next, hk.nextSecret, Confirmed.keysOf]
  · simp [serverKuDeriveNext, hk.nextSecret, Confirmed.secretOf]
  · intro _
    exact ⟨n, rfl, hk.cur⟩

theorem HoldsKeys.tookCur (pn : Nat) : HoldsKeys D n (kurxTookCur s pn).1 := { hk with }

theorem HoldsKeys.discard (rotatedAt floor now : Nat) :
    HoldsKeys D n (srvrunKuDiscardStale s rotatedAt floor now) := by
  rcases srvrunKuDiscardStale_cases s rotatedAt floor now with heq | heq
  · rwa [heq]
  · rw [heq]
    exact { hk with old := fun hold => by cases hold }

theorem HoldsKeys.send (x : S.SendIn) : HoldsKeys D n (srvloopSendOnertt s x).1 := by
  obtain ⟨send, secret, count, error, heq, -⟩ := srvloopSendOnertt_spec s x
  rw [heq]
  exact { hk with }

end

end Wired.Server
