import Mathlib.Order.Defs.LinearOrder
import Mathlib.Order.MinMax
import Mathlib.Order.Nat
import Wired.Lib.Run
import Wired.Server.KeySwitch

/-!
# Key updates between a peer and the server

A run of the server of `Wired.Server.KeySwitch` and a peer (`keyUpdate_reception`): the peer sends
1-RTT packets and moves to its next generation, the network delivers them in any order, any number
of times or never, acknowledgements reach the peer, and the server sends, with updates of its own,
and drops the old keys when their time is over.

A peer that follows RFC 9001 section 6 (`Sealing.Conforming`) numbers its packets increasingly and
updates only after a packet of its generation was acknowledged: the generations on both sides then
stay within one of each other (`InStep`). Of any other peer (`Sealing.AnyPeer`) only the seals are
known: the range of packet numbers opened under the current keys still holds back what the old
keys seal above it (`Ranged`).

That a packet opens under the keys of the generation that sealed it and no other is assumed
(`Sealing`). A conforming peer cannot make the 64-bit generation counters wrap: each generation
uses at least one packet number, and those stay below `2 ^ 62`.
-/

namespace Wired.Server

open Lib List

variable {S : KuSuite} {D : Confirmed S}

/-- A packet, by its number and the generation that sealed it. -/
structure KuPacket where
  pn : Nat
  gen : Nat

/-- The generation that sealed a datagram, if any did: it opens under those keys only. -/
structure Sealing (D : Confirmed S) where
  generation : S.In → Option Nat
  opens_iff : ∀ i g, (S.kurxOpen (D.keysOf g) i).isSome = true ↔ generation i = some g

/-- The datagram is sealed as the packet is, and numbered as it is when its header can be read. -/
def Sealing.SealedAs (seals : Sealing D) (p : KuPacket) (i : S.In) : Prop :=
  seals.generation i = some p.gen ∧ ∀ h, S.kurxPeek D.clientAp.hp i = some h → h.pn = p.pn

/-- The datagram is the packet, with the Key Phase bit of its generation. -/
def Sealing.Carries (seals : Sealing D) (p : KuPacket) (i : S.In) : Prop :=
  seals.generation i = some p.gen ∧
    S.kurxPeek D.clientAp.hp i = some { phase := keyphaseBit p.gen, pn := p.pn }

variable {i : S.In} {p q : KuPacket}

theorem Sealing.Carries.sealedAs {seals : Sealing D}
    (h : seals.Carries p i) : seals.SealedAs p i := by
  refine ⟨h.1, ?_⟩
  intro h' hpeek
  rw [h.2] at hpeek
  cases hpeek
  rfl

theorem Sealing.gen_eq_of_open (seals : Sealing D) {g : Nat}
    {v : S.Payload} (hp : seals.SealedAs p i) (hopen : S.kurxOpen (D.keysOf g) i = some v) :
    p.gen = g := by
  have hg := (seals.opens_iff i g).mp (by rw [hopen]; rfl)
  rw [hp.1] at hg
  exact Option.some.inj hg

/-! ## The system -/

/-- The server, the peer's generation, the least number its next packet may have, and the packets
sent, accepted and acknowledged. -/
structure KuSystem (S : KuSuite) where
  server : KuServer S
  peerGen : Nat
  peerPn : Nat
  sent : List KuPacket
  opened : List KuPacket
  acked : List KuPacket

inductive KuEvent (S : KuSuite)
  | peerSends (pn : Nat)
  | peerUpdates
  | delivers (p : KuPacket) (i : S.In)
  | injects (i : S.In)
  | acknowledges (p : KuPacket)
  | sends (x : S.SendIn)
  | ticks (rotatedAtMs floorMs nowMs : Nat)

/-- The handshake is complete, and nothing was sent. -/
def KuSystem.start (D : Confirmed S) : KuSystem S where
  server := srvSeedKuswitch D.server
  peerGen := 0
  peerPn := 0
  sent := []
  opened := []
  acked := []

def record (p : KuPacket) (r : KuServer S × Option S.Payload) (opened : List KuPacket) :
    List KuPacket :=
  if r.2.isSome then p :: opened else opened

def KuSystem.step (t : KuSystem S) : KuEvent S → KuSystem S
  | .peerSends pn => { t with sent := ⟨pn, t.peerGen⟩ :: t.sent, peerPn := pn + 1 }
  | .peerUpdates => { t with peerGen := t.peerGen + 1 }
  | .delivers p i =>
    let r := srvloopRecvOnertt t.server i
    { t with server := r.1, opened := record p r t.opened }
  | .injects i => { t with server := (srvloopRecvOnertt t.server i).1 }
  | .acknowledges p => { t with acked := p :: t.acked }
  | .sends x => { t with server := (srvloopSendOnertt t.server x).1 }
  | .ticks rotatedAtMs floorMs nowMs =>
    { t with server := srvrunKuDiscardStale t.server rotatedAtMs floorMs nowMs }

/-- The peer follows the rules and the network delivers only what was sent. Packets that no
generation sealed may be injected. -/
def Sealing.Conforming (seals : Sealing D) (t : KuSystem S) : KuEvent S → Prop
  | .peerSends pn => t.peerPn ≤ pn ∧ pn < 2 ^ 62
  | .peerUpdates => ∃ p ∈ t.acked, p.gen = t.peerGen
  | .delivers p i => p ∈ t.sent ∧ seals.Carries p i
  | .injects i => seals.generation i = none
  | .acknowledges p => p ∈ t.opened
  | .sends _ => True
  | .ticks _ _ _ => True

/-- Nothing is known of the peer: only that the packets recorded are those delivered. -/
def Sealing.AnyPeer (seals : Sealing D) (_ : KuSystem S) : KuEvent S → Prop
  | .delivers p i => seals.SealedAs p i
  | .injects i => seals.generation i = none
  | _ => True

/-! ## One delivery -/

variable {seals : Sealing D} {n : Nat} {s : KuServer S} {p : KuPacket} {i : S.In}
  {r : KuServer S × Option S.Payload} {opened : List KuPacket}

/-- What becomes of a packet at a server that has rotated `n` times. -/
inductive Delivered (n : Nat) (s : KuServer S) (p : KuPacket) :
    KuServer S × Option S.Payload → Prop
  | dropped (count : Nat) : Delivered n s p ({ s with kuAuthFail := count }, none)
  | current (v : S.Payload) (hgen : p.gen = n) :
      Delivered n s p ((kurxTookCur s p.pn).1, some v)
  | previous (v : S.Payload) (hgen : p.gen + 1 = n) : Delivered n s p (s, some v)
  | violation (hgen : p.gen + 1 = n) (hlt : s.kuCurLo < p.pn) :
      Delivered n s p ({ s with kuError := errKeyUpdateError }, none)
  | next (v : S.Payload) (hgen : p.gen = n + 1) :
      Delivered n s p ((kurxTookNext s p.pn).1, some v)

theorem HoldsKeys.peek_eq (hk : HoldsKeys D n s) (i : S.In) :
    S.kurxPeek s.ku.cur.hp i = S.kurxPeek D.clientAp.hp i := by
  rw [hk.cur, Confirmed.keysOf_hp]

theorem HoldsKeys.delivered (hk : HoldsKeys D n s) (hp : seals.SealedAs p i) :
    Delivered n s p (srvloopRecvOnertt s i) := by
  have hpn : ∀ h, S.kurxPeek s.ku.cur.hp i = some h → h.pn = p.pn := by
    intro h hpeek
    rw [hk.peek_eq] at hpeek
    exact hp.2 h hpeek
  have hreceived := srvloopRecvOnertt_received hk.seeded i
  generalize srvloopRecvOnertt s i = r at hreceived ⊢
  cases hreceived with
  | unread => exact .dropped s.kuAuthFail
  | unopened => exact .dropped _
  | @current h v hpeek hopen =>
    rw [hk.cur] at hopen
    rw [hpn h hpeek]
    exact .current v (seals.gen_eq_of_open hp hopen)
  | @previous h v hpeek hopen hold hle =>
    obtain ⟨m, rfl, hkeys⟩ := hk.old hold
    rw [hkeys] at hopen
    exact .previous v (congrArg (· + 1) (seals.gen_eq_of_open hp hopen))
  | @violation h v hpeek hopen hold hlt =>
    obtain ⟨m, rfl, hkeys⟩ := hk.old hold
    rw [hkeys] at hopen
    rw [hpn h hpeek] at hlt
    exact .violation (congrArg (· + 1) (seals.gen_eq_of_open hp hopen)) hlt
  | @next h v hpeek hopen =>
    rw [hk.next] at hopen
    rw [hpn h hpeek]
    exact .next v (seals.gen_eq_of_open hp hopen)

/-- A packet that no generation sealed is counted, and nothing else. -/
theorem HoldsKeys.injected (hk : HoldsKeys D n s) (hi : seals.generation i = none) :
    ∃ count, srvloopRecvOnertt s i = ({ s with kuAuthFail := count }, none) := by
  have hnone : ∀ g v, S.kurxOpen (D.keysOf g) i ≠ some v := by
    intro g v hopen
    have hg := (seals.opens_iff i g).mp (by rw [hopen]; rfl)
    rw [hi] at hg
    cases hg
  have hreceived := srvloopRecvOnertt_received hk.seeded i
  generalize srvloopRecvOnertt s i = r at hreceived ⊢
  cases hreceived with
  | unread => exact ⟨s.kuAuthFail, rfl⟩
  | unopened => exact ⟨_, rfl⟩
  | current _ hopen =>
    rw [hk.cur] at hopen
    exact absurd hopen (hnone _ _)
  | previous _ hopen hold | violation _ hopen hold =>
    obtain ⟨m, -, hkeys⟩ := hk.old hold
    rw [hkeys] at hopen
    exact absurd hopen (hnone _ _)
  | next _ hopen =>
    rw [hk.next] at hopen
    exact absurd hopen (hnone _ _)

/-! ## The range of the current generation -/

/-- `ku_cur_lo` and `ku_cur_hi` are the least and the largest number of the packets opened under the
current keys, and stand at the ends of the range when there is none. -/
structure Bounds (n : Nat) (s : KuServer S) (opened : List KuPacket) : Prop where
  gen_le : ∀ q ∈ opened, q.gen ≤ n
  lo_le : ∀ q ∈ opened, q.gen = n → s.kuCurLo ≤ q.pn
  le_hi : ∀ q ∈ opened, q.gen = n → q.pn ≤ s.kuCurHi
  lo_mem : s.kuCurLo = 2 ^ 64 - 1 ∨ ∃ q ∈ opened, q.gen = n ∧ q.pn = s.kuCurLo
  hi_mem : s.kuCurHi = 0 ∨ ∃ q ∈ opened, q.gen = n ∧ q.pn = s.kuCurHi

/-- Old keys are retained only once the current keys have opened a packet. -/
structure Ranged (n : Nat) (s : KuServer S) (opened : List KuPacket) : Prop extends
    Bounds n s opened where
  nonempty : s.ku.haveOld = true → ∃ q ∈ opened, q.gen = n

/-- An end of the range that moves to the new packet or stays. -/
theorem attained_cons {unset x y : Nat} (hgen : p.gen = n) (hy : y = x ∨ y = p.pn)
    (hx : x = unset ∨ ∃ q ∈ opened, q.gen = n ∧ q.pn = x) :
    y = unset ∨ ∃ q ∈ p :: opened, q.gen = n ∧ q.pn = y := by
  rcases hy with rfl | rfl
  · exact hx.imp_right fun h => h.imp fun _ hq => hq.imp_left (mem_cons_of_mem _)
  · exact .inr ⟨p, mem_cons_self, hgen, rfl⟩

theorem Bounds.tookCur (hb : Bounds n s opened) (hgen : p.gen = n) :
    Ranged n (kurxTookCur s p.pn).1 (p :: opened) where
  gen_le := forall_mem_cons.mpr ⟨hgen.le, hb.gen_le⟩
  lo_le := by
    refine forall_mem_cons.mpr ⟨fun _ => min_le_right _ _, ?_⟩
    intro q hq hqn
    exact (min_le_left _ _).trans (hb.lo_le q hq hqn)
  le_hi := by
    refine forall_mem_cons.mpr ⟨fun _ => le_max_right _ _, ?_⟩
    intro q hq hqn
    exact (hb.le_hi q hq hqn).trans (le_max_left _ _)
  lo_mem := attained_cons hgen (min_choice s.kuCurLo p.pn) hb.lo_mem
  hi_mem := attained_cons hgen (max_choice s.kuCurHi p.pn) hb.hi_mem
  nonempty _ := ⟨p, mem_cons_self, hgen⟩

/-- The range is empty right after the keys of a new generation were derived. -/
theorem Bounds.fresh (hle : ∀ q ∈ opened, q.gen ≤ n) (hlo : s.kuCurLo = 2 ^ 64 - 1)
    (hhi : s.kuCurHi = 0) : Bounds (n + 1) s opened where
  gen_le q hq := (hle q hq).trans n.le_succ
  lo_le q hq hqn := absurd (hle q hq) (by omega)
  le_hi q hq hqn := absurd (hle q hq) (by omega)
  lo_mem := .inl hlo
  hi_mem := .inl hhi

/-- Packets of generations below the current one do not count. -/
theorem Ranged.cons_of_gen_lt (hr : Ranged n s opened) (hgen : p.gen < n) :
    Ranged n s (p :: opened) where
  gen_le := forall_mem_cons.mpr ⟨hgen.le, hr.gen_le⟩
  lo_le := forall_mem_cons.mpr ⟨fun hqn => absurd hqn hgen.ne, hr.lo_le⟩
  le_hi := forall_mem_cons.mpr ⟨fun hqn => absurd hqn hgen.ne, hr.le_hi⟩
  lo_mem := hr.lo_mem.imp_right fun h => h.imp fun _ hq => hq.imp_left (mem_cons_of_mem _)
  hi_mem := hr.hi_mem.imp_right fun h => h.imp fun _ hq => hq.imp_left (mem_cons_of_mem _)
  nonempty hold := (hr.nonempty hold).imp fun _ hq => hq.imp_left (mem_cons_of_mem _)

theorem Ranged.tookNext (hr : Ranged n s opened) (hgen : p.gen = n + 1) :
    Ranged (n + 1) (kurxTookNext s p.pn).1 (p :: opened) := by
  obtain ⟨send, secret, count, hrot, -⟩ := kurxRotate_spec s
  have hlo : (kurxRotate s).kuCurLo = 2 ^ 64 - 1 := by
    rw [hrot]
    rfl
  have hhi : (kurxRotate s).kuCurHi = 0 := by
    rw [hrot]
    rfl
  exact (Bounds.fresh hr.gen_le hlo hhi).tookCur hgen

/-! ## Any peer -/

/-- The server has rotated `n` times, and its range is that of the packets it accepted. -/
structure Tracks (D : Confirmed S) (n : Nat) (t : KuSystem S) : Prop where
  keys : HoldsKeys D n t.server
  range : Ranged n t.server t.opened

variable {t : KuSystem S} {e : KuEvent S}

theorem Tracks.start (D : Confirmed S) : Tracks D 0 (KuSystem.start D) where
  keys := .seed D
  range := by
    simp only [KuSystem.start, srvSeedKuswitch_eq]
    refine ⟨⟨forall_mem_nil _, forall_mem_nil _, forall_mem_nil _, .inl rfl,
      .inl rfl⟩, ?_⟩
    intro hold
    cases hold

section

variable (ht : Tracks D n t)

include ht

/-- The counters beside the keys and the range do not matter. -/
theorem Tracks.counted (error count : Nat) :
    Tracks D n { t with server := { t.server with kuError := error, kuAuthFail := count } } where
  keys := { ht.keys with }
  range := { ht.range with }

/-- The keys and the range after a delivery: of the same generation, or of the next one when the
packet is. -/
theorem Tracks.delivered (hp : seals.SealedAs p i) :
    Tracks D n (t.step (.delivers p i)) ∧
        (t.step (.delivers p i)).server.kuSend = t.server.kuSend ∨
      p.gen = n + 1 ∧ Tracks D (n + 1) (t.step (.delivers p i)) ∧
        (t.step (.delivers p i)).server = (kurxTookNext t.server p.pn).1 := by
  have hd := ht.keys.delivered hp
  simp only [KuSystem.step]
  generalize srvloopRecvOnertt t.server i = r at hd ⊢
  cases hd with
  | dropped count => exact .inl ⟨ht.counted t.server.kuError count, rfl⟩
  | current v hgen => exact .inl ⟨⟨ht.keys.tookCur p.pn, ht.range.toBounds.tookCur hgen⟩, rfl⟩
  | previous v hgen => exact .inl ⟨⟨ht.keys, ht.range.cons_of_gen_lt (by omega)⟩, rfl⟩
  | violation hgen hlt => exact .inl ⟨ht.counted errKeyUpdateError t.server.kuAuthFail, rfl⟩
  | next v hgen => exact .inr ⟨hgen, ⟨ht.keys.rotate.tookCur p.pn, ht.range.tookNext hgen⟩, rfl⟩

theorem Tracks.injected (hi : seals.generation i = none) :
    ∃ count, (t.step (.injects i)) = { t with server := { t.server with kuAuthFail := count } } ∧
      Tracks D n (t.step (.injects i)) := by
  obtain ⟨count, heq⟩ := ht.keys.injected hi
  simp only [KuSystem.step, heq]
  exact ⟨count, rfl, ht.counted t.server.kuError count⟩

theorem Tracks.sends (x : S.SendIn) : Tracks D n (t.step (.sends x)) where
  keys := ht.keys.send x
  range := by
    obtain ⟨send, secret, count, error, heq, -⟩ := srvloopSendOnertt_spec t.server x
    simp only [KuSystem.step, heq]
    exact { ht.range with }

theorem Tracks.ticks (rotatedAt floor now : Nat) :
    Tracks D n (t.step (.ticks rotatedAt floor now)) where
  keys := ht.keys.discard rotatedAt floor now
  range := by
    simp only [KuSystem.step]
    rcases srvrunKuDiscardStale_cases t.server rotatedAt floor now with heq | heq
    · rw [heq]
      exact ht.range
    · rw [heq]
      exact { ht.range with nonempty := fun hold => by cases hold }

theorem Tracks.step (he : seals.AnyPeer t e) : ∃ n', Tracks D n' (t.step e) := by
  cases e with
  | peerSends | peerUpdates | acknowledges => exact ⟨n, ht.keys, ht.range⟩
  | sends x => exact ⟨n, ht.sends x⟩
  | ticks rotatedAt floor now => exact ⟨n, ht.ticks rotatedAt floor now⟩
  | injects i =>
    obtain ⟨_, -, htracks⟩ := ht.injected he
    exact ⟨n, htracks⟩
  | delivers p i =>
    rcases ht.delivered he with ⟨htracks, -⟩ | ⟨-, htracks, -⟩
    · exact ⟨n, htracks⟩
    · exact ⟨n + 1, htracks⟩

/-- A packet of the retained old keys is not accepted when its number is above that of a packet that
newer keys opened. -/
theorem Tracks.rejects (hp : seals.SealedAs p i)
    (hold : t.server.ku.haveOld = true) (hopen : (S.kurxOpen t.server.ku.old i).isSome = true)
    (hq : q ∈ t.opened) (hgen : p.gen < q.gen) (hpn : q.pn < p.pn) :
    (srvloopRecvOnertt t.server i).2 = none := by
  obtain ⟨m, rfl, hkeys⟩ := ht.keys.old hold
  have hpm : p.gen = m := by
    obtain ⟨v, hv⟩ := Option.isSome_iff_exists.mp hopen
    rw [hkeys] at hv
    exact seals.gen_eq_of_open hp hv
  have hqn : q.gen = m + 1 := by
    have := ht.range.gen_le q hq
    omega
  have hlo := ht.range.lo_le q hq hqn
  -- Its generation leaves only the old keys, and those refuse what is above `ku_cur_lo`.
  have hreceived := srvloopRecvOnertt_received ht.keys.seeded i
  generalize srvloopRecvOnertt t.server i = r at hreceived ⊢
  cases hreceived with
  | unread => rfl
  | unopened => rfl
  | violation => rfl
  | current _ hcur =>
    rw [ht.keys.cur] at hcur
    have := seals.gen_eq_of_open hp hcur
    omega
  | next _ hnext =>
    rw [ht.keys.next] at hnext
    have := seals.gen_eq_of_open hp hnext
    omega
  | @previous h _ hpeek _ _ hle =>
    rw [ht.keys.peek_eq] at hpeek
    have := hp.2 h hpeek
    omega

end

/-! ## A peer that follows the rules -/

/-- Numbers grow with the generations, and each generation has used one number at least. -/
structure PeerRules (t : KuSystem S) : Prop where
  gen_le : t.peerGen ≤ t.peerPn
  pn_le : t.peerPn ≤ 2 ^ 62
  sent_gen : ∀ p ∈ t.sent, p.gen ≤ t.peerGen
  sent_pn : ∀ p ∈ t.sent, p.pn < t.peerPn
  sent_gen_le : ∀ p ∈ t.sent, p.gen ≤ p.pn
  ordered : ∀ p ∈ t.sent, ∀ q ∈ t.sent, p.gen < q.gen → p.pn < q.pn

/-- The server has rotated `n` times, the peer is at generation `n` or one ahead, and so is the
server's send side. -/
structure InStep (D : Confirmed S) (n : Nat) (t : KuSystem S) : Prop extends
    Tracks D n t, PeerRules t where
  opened_sent : ∀ p ∈ t.opened, p ∈ t.sent
  acked_opened : ∀ p ∈ t.acked, p ∈ t.opened
  le_peer : n ≤ t.peerGen
  peer_le : t.peerGen ≤ n + 1
  send : t.server.kuSend.generation = n ∨ t.server.kuSend.generation = n + 1
  noError : t.server.kuError ≠ errKeyUpdateError

theorem InStep.start (D : Confirmed S) : InStep D 0 (KuSystem.start D) := by
  refine ⟨.start D, ⟨le_refl 0, Nat.zero_le _, forall_mem_nil _, forall_mem_nil _,
    forall_mem_nil _, forall_mem_nil _⟩, forall_mem_nil _, forall_mem_nil _,
    le_refl 0, Nat.zero_le 1, ?_, ?_⟩
  · simp only [KuSystem.start, srvSeedKuswitch_eq]
    exact .inl rfl
  · simp only [KuSystem.start, srvSeedKuswitch_eq]
    exact D.noError

theorem keyphaseBit_succ_ne (g : Nat) : keyphaseBit (g + 1) ≠ keyphaseBit g := by
  unfold keyphaseBit
  omega

theorem mem_of_mem_record (hq : q ∈ record p r opened) : q = p ∨ q ∈ opened := by
  unfold record at hq
  split at hq
  · exact mem_cons.mp hq
  · exact .inr hq

theorem mem_record_of_mem (hq : q ∈ opened) : q ∈ record p r opened := by
  unfold record
  split
  · exact mem_cons_of_mem _ hq
  · exact hq

theorem PeerRules.sends {pn : Nat} (h : PeerRules t) (hpn : t.peerPn ≤ pn) (hlt : pn < 2 ^ 62) :
    PeerRules (t.step (.peerSends pn)) where
  gen_le := (h.gen_le.trans hpn).trans (Nat.le_succ pn)
  pn_le := hlt
  sent_gen := forall_mem_cons.mpr ⟨le_refl t.peerGen, h.sent_gen⟩
  sent_pn := by
    refine forall_mem_cons.mpr ⟨Nat.lt_succ_self pn, ?_⟩
    intro q hq
    exact ((h.sent_pn q hq).trans_le hpn).trans (Nat.lt_succ_self pn)
  sent_gen_le := forall_mem_cons.mpr ⟨h.gen_le.trans hpn, h.sent_gen_le⟩
  ordered := by
    intro q hq q' hq' hlt
    rcases mem_cons.mp hq' with rfl | hq'
    · rcases mem_cons.mp hq with rfl | hq
      · exact absurd hlt (lt_irrefl _)
      · exact (h.sent_pn q hq).trans_le hpn
    · rcases mem_cons.mp hq with rfl | hq
      · exact absurd hlt (Nat.not_lt.mpr (h.sent_gen q' hq'))
      · exact h.ordered q hq q' hq' hlt

section

variable (h : InStep D n t)

include h

theorem InStep.le_two_pow : n ≤ 2 ^ 62 :=
  (h.le_peer.trans h.gen_le).trans h.pn_le

theorem InStep.generation_eq : t.server.ku.generation = n := by
  have hle := h.le_two_pow
  rw [h.keys.generation, Nat.mod_eq_of_lt (by omega)]

theorem InStep.succ_mod : (n + 1) % 2 ^ 64 = n + 1 := by
  have hle := h.le_two_pow
  exact Nat.mod_eq_of_lt (by omega)

/-- When the peer's update arrives, the send side is brought to the same generation. -/
theorem InStep.send_tookNext (pn : Nat) :
    (kurxTookNext t.server pn).1.kuSend.generation = n + 1 := by
  obtain ⟨send, secret, count, hrot, hsend⟩ := kurxRotate_spec t.server
  rw [h.generation_eq, h.succ_mod] at hsend
  have heq : (kurxTookNext t.server pn).1.kuSend = send := by
    rw [kurxTookNext, hrot]
    rfl
  rw [heq, hsend]
  rcases h.send with hs | hs
  · rw [hs, if_pos n.lt_succ_self, h.succ_mod]
  · rw [hs, if_neg (lt_irrefl _)]

section

variable (hp : p ∈ t.sent)
include hp

theorem InStep.hi_lt (hgen : n < p.gen) : t.server.kuCurHi < p.pn := by
  rcases h.range.hi_mem with hhi | ⟨q, hq, hqn, hqhi⟩
  · have := h.sent_gen_le p hp
    omega
  · rw [← hqhi]
    exact h.ordered q (h.opened_sent q hq) p hp (by omega)

theorem InStep.le_lo (hgen : p.gen < n) : p.pn ≤ t.server.kuCurLo := by
  rcases h.range.lo_mem with hlo | ⟨q, hq, hqn, hqlo⟩
  · have hlt := h.sent_pn p hp
    have hle := h.pn_le
    omega
  · rw [← hqlo]
    exact (h.ordered p hp q (h.opened_sent q hq) (by omega)).le

theorem InStep.le_hi (hgen : p.gen < n)
    (hold : t.server.ku.haveOld = true) : p.pn ≤ t.server.kuCurHi := by
  obtain ⟨q, hq, hqn⟩ := h.range.nonempty hold
  have hlt := h.ordered p hp q (h.opened_sent q hq) (by omega)
  exact hlt.le.trans (h.range.le_hi q hq hqn)

theorem InStep.picks
    (hgen : p.gen = n ∨ p.gen = n + 1 ∨ t.server.ku.haveOld = true ∧ p.gen + 1 = n) :
    kurxKeys t.server (kurxPick t.server { phase := keyphaseBit p.gen, pn := p.pn }) =
      D.keysOf p.gen := by
  unfold kurxPick kurxPickOther
  rw [h.generation_eq]
  rcases hgen with hcur | hnext | ⟨hold, hprev⟩
  · rw [if_pos (by rw [hcur]), hcur]
    exact h.keys.cur
  · have hhi := h.hi_lt hp (by omega)
    rw [if_neg (hnext ▸ keyphaseBit_succ_ne n), if_pos (by simp [hhi]), hnext]
    exact h.keys.next
  · have hhi := h.le_hi hp (by omega) hold
    obtain ⟨m, hm, hkeys⟩ := h.keys.old hold
    have hpm : p.gen = m := by omega
    rw [if_neg (hprev ▸ (keyphaseBit_succ_ne p.gen).symm), if_neg (by simp [hold, hhi]), hpm]
    exact hkeys

theorem InStep.accepts (hc : seals.Carries p i)
    (hgen : p.gen = n ∨ p.gen = n + 1 ∨ t.server.ku.haveOld = true ∧ p.gen + 1 = n) :
    ∃ v, S.kurxOpen (D.keysOf p.gen) i = some v ∧ (srvloopRecvOnertt t.server i).2 = some v := by
  obtain ⟨v, hv⟩ := Option.isSome_iff_exists.mp ((seals.opens_iff i p.gen).mpr hc.1)
  have hpeek := (h.keys.peek_eq i).trans hc.2
  refine ⟨v, hv, srvloopRecvOnertt_of_open h.keys.seeded hpeek ?_ ?_⟩
  · rw [h.picks hp hgen]
    exact hv
  · intro hpick
    obtain ⟨hphase, -, hle⟩ := kurxPick_eq_old hpick
    rw [h.generation_eq] at hphase
    -- Only a packet of an earlier generation is left to the old keys.
    have hne : p.gen ≠ n := by
      rintro rfl
      exact hphase rfl
    have hnext : ¬ n < p.gen := by
      intro hlt
      exact absurd hle (Nat.not_le.mpr (h.hi_lt hp hlt))
    exact h.le_lo hp (by omega)

theorem InStep.kuError_eq (hc : seals.Carries p i) :
    (srvloopRecvOnertt t.server i).1.kuError = t.server.kuError := by
  have hd := h.keys.delivered hc.sealedAs
  generalize srvloopRecvOnertt t.server i = r at hd ⊢
  cases hd with
  | dropped => rfl
  | current => rfl
  | previous => rfl
  | violation hgen hlt => exact absurd hlt (Nat.not_lt.mpr (h.le_lo hp (by omega)))
  | next v hgen =>
    obtain ⟨send, secret, count, hrot, -⟩ := kurxRotate_spec t.server
    rw [kurxTookNext, hrot]
    rfl

theorem InStep.delivers (hc : seals.Carries p i) : ∃ n', InStep D n' (t.step (.delivers p i)) := by
  have hopened : ∀ q ∈ (t.step (.delivers p i)).opened, q ∈ t.sent := by
    intro q hq
    rcases mem_of_mem_record hq with rfl | hq
    · exact hp
    · exact h.opened_sent q hq
  have hacked : ∀ q ∈ t.acked, q ∈ (t.step (.delivers p i)).opened := fun q hq =>
    mem_record_of_mem (h.acked_opened q hq)
  have hrules : PeerRules (t.step (.delivers p i)) := { h with }
  have herror : (t.step (.delivers p i)).server.kuError ≠ errKeyUpdateError := by
    rw [show (t.step (.delivers p i)).server.kuError = t.server.kuError from h.kuError_eq hp hc]
    exact h.noError
  rcases h.toTracks.delivered hc.sealedAs with ⟨htracks, hsend⟩ | ⟨hgen, htracks, hserver⟩
  · exact ⟨n, ⟨htracks, hrules, hopened, hacked, h.le_peer, h.peer_le,
      by rw [hsend]; exact h.send, herror⟩⟩
  · have hle : n + 1 ≤ t.peerGen := hgen ▸ h.sent_gen p hp
    refine ⟨n + 1, ⟨htracks, hrules, hopened, hacked, hle, h.peer_le.trans (Nat.le_succ _),
      .inl ?_, herror⟩⟩
    rw [hserver]
    exact h.send_tookNext p.pn

end

/-- The server accepted the acknowledged packet, so it has reached the generation that the peer
leaves. -/
theorem InStep.peerUpdates (hp : p ∈ t.acked) (hgen : p.gen = t.peerGen) :
    InStep D n (t.step .peerUpdates) := by
  have hopened := h.acked_opened p hp
  have hsent := h.opened_sent p hopened
  have hn := h.range.gen_le p hopened
  have hgenpn := h.sent_gen_le p hsent
  have hpn := h.sent_pn p hsent
  refine { h with
    gen_le := ?_, sent_gen := ?_, le_peer := h.le_peer.trans (Nat.le_succ _), peer_le := ?_ }
  · change t.peerGen + 1 ≤ t.peerPn
    omega
  · intro q hq
    exact (h.sent_gen q hq).trans (Nat.le_succ _)
  · change t.peerGen + 1 ≤ n + 1
    omega

/-- A step of the server alone that keeps its keys and their range. -/
theorem InStep.serves (ht : Tracks D n { t with server := s })
    (hsend : s.kuSend.generation = n ∨ s.kuSend.generation = n + 1)
    (herror : s.kuError ≠ errKeyUpdateError) : InStep D n { t with server := s } :=
  { ht, h with send := hsend, noError := herror }

theorem InStep.sends (x : S.SendIn) : InStep D n (t.step (.sends x)) := by
  have htracks := h.toTracks.sends x
  obtain ⟨send, secret, count, error, heq, herror, hsend⟩ := srvloopSendOnertt_spec t.server x
  simp only [KuSystem.step, heq] at htracks ⊢
  refine h.serves htracks ?_ ?_
  · rcases hsend with hsame | ⟨hcan, hrot⟩
    · rcases h.send with hs | hs
      · exact .inl (hsame.trans hs)
      · exact .inr (hsame.trans hs)
    · rw [h.generation_eq] at hcan
      rw [hcan, h.succ_mod] at hrot
      exact .inr hrot
  · rcases herror with rfl | rfl
    · exact h.noError
    · change errAeadLimitReached ≠ errKeyUpdateError
      decide

theorem InStep.ticks (rotatedAt floor now : Nat) :
    InStep D n (t.step (.ticks rotatedAt floor now)) := by
  have htracks := h.toTracks.ticks rotatedAt floor now
  simp only [KuSystem.step] at htracks ⊢
  rcases srvrunKuDiscardStale_cases t.server rotatedAt floor now with heq | heq
  all_goals
    rw [heq] at htracks ⊢
    exact h.serves htracks h.send h.noError

theorem InStep.step (he : seals.Conforming t e) : ∃ n', InStep D n' (t.step e) := by
  cases e with
  | peerSends pn =>
    exact ⟨n, { h.toPeerRules.sends he.1 he.2, h with
      opened_sent := fun q hq => mem_cons_of_mem _ (h.opened_sent q hq) }⟩
  | peerUpdates =>
    obtain ⟨p, hp, hgen⟩ := he
    exact ⟨n, h.peerUpdates hp hgen⟩
  | delivers p i => exact h.delivers he.1 he.2
  | injects i =>
    obtain ⟨count, heq, htracks⟩ := h.toTracks.injected he
    rw [heq] at htracks ⊢
    exact ⟨n, h.serves htracks h.send h.noError⟩
  | acknowledges p => exact ⟨n, { h with acked_opened := forall_mem_cons.mpr ⟨he, h.acked_opened⟩ }⟩
  | sends x => exact ⟨n, h.sends x⟩
  | ticks rotatedAt floor now => exact ⟨n, h.ticks rotatedAt floor now⟩

end

/-! ## Whole runs -/

/-- What the server does for a peer that follows the rules, in one state of the system. -/
structure Receives (seals : Sealing D) (t : KuSystem S) : Prop where
  noError : t.server.kuError ≠ errKeyUpdateError
  opens : ∀ p ∈ t.sent, ∀ i, seals.Carries p i →
    (p.gen = t.server.ku.generation ∨ p.gen = t.server.ku.generation + 1 ∨
      t.server.ku.haveOld = true ∧ p.gen + 1 = t.server.ku.generation) →
    ∃ v, S.kurxOpen (D.keysOf p.gen) i = some v ∧ (srvloopRecvOnertt t.server i).2 = some v
  recv_le_peer : t.server.ku.generation ≤ t.peerGen
  send_recv : t.server.kuSend.generation = t.server.ku.generation ∨
    t.server.kuSend.generation = t.server.ku.generation + 1

theorem InStep.receives (h : InStep D n t) (seals : Sealing D) : Receives seals t := by
  have hgen := h.generation_eq
  subst hgen
  exact ⟨h.noError, fun p hp i hc hgen => h.accepts hp hc hgen, h.le_peer, h.send⟩

/-- The server refuses packets of the retained old keys numbered above one that newer keys opened.
-/
def RefusesLate (seals : Sealing D) (t : KuSystem S) : Prop :=
  t.server.ku.haveOld = true → ∀ p i, seals.SealedAs p i →
    (S.kurxOpen t.server.ku.old i).isSome = true →
    ∀ q ∈ t.opened, p.gen < q.gen → q.pn < p.pn → (srvloopRecvOnertt t.server i).2 = none

/-- Key updates are received as RFC 9001 section 6 has it: for a peer that follows the rules,
whatever the network does with its packets, in every state of every run, and for any other peer as
far as the old keys are concerned. -/
theorem keyUpdate_reception (D : Confirmed S) (seals : Sealing D) (events : List (KuEvent S)) :
    (Along KuSystem.step seals.Conforming (.start D) events →
      Receives seals (events.foldl KuSystem.step (.start D))) ∧
    (Along KuSystem.step seals.AnyPeer (.start D) events →
      RefusesLate seals (events.foldl KuSystem.step (.start D))) := by
  constructor
  · intro hrun
    obtain ⟨n, h⟩ := hrun.exists_invariant (J := InStep D) (fun _ _ _ h he => h.step he) (.start D)
    exact h.receives seals
  · intro hrun hold p i hp hopen q hq hgen hpn
    obtain ⟨n, h⟩ := hrun.exists_invariant (J := Tracks D) (fun _ _ _ h he => h.step he) (.start D)
    exact h.rejects hp hold hopen hq hgen hpn

/-! A suite whose keys are the numbers of their generations, a peer that updates once, and a
packet of generation 0 numbered above the first of generation 1. -/

def countingKeys (g : Nat) : InitialKeys Nat Unit := ⟨g, ()⟩

/-- A suite whose keys are numbers. -/
def countingSuite : KuSuite where
  Aead := Nat
  Hp := Unit
  Secret := Nat
  In := KuPacket
  Payload := Unit
  SendIn := Unit
  Out := Unit
  isChacha := false
  wiped := ⟨0, ()⟩
  nextKeys secret := (⟨secret + 1, ()⟩, secret + 1)
  kurxPeek _ p := some { phase := keyphaseBit p.gen, pn := p.pn }
  kurxOpen keys p := if keys.aead = p.gen then some () else none
  onerttBuild _ _ _ := some ()

/-- A server with generation 0 of these keys. -/
def countingConfirmed : Confirmed countingSuite where
  server :=
    { sched := ⟨some (countingKeys 0), some (0 : Nat), some (countingKeys 0), some (0 : Nat)⟩
      ku := ⟨countingKeys 0, countingKeys 0, 0, false⟩
      kuSecret := (0 : Nat)
      kuNext := countingKeys 0
      kuNextSecret := (0 : Nat)
      kuCurLo := 0
      kuCurHi := 0
      kuSend := ⟨countingKeys 0, countingKeys 0, 0, false⟩
      kuSendSecret := (0 : Nat)
      kuSendCount := 0
      kuError := 0
      kuAuthFail := 0
      kuSeeded := false }
  clientAp := countingKeys 0
  clientSecret := (0 : Nat)
  serverAp := countingKeys 0
  serverSecret := (0 : Nat)
  sched_eq := rfl
  noError := by decide

theorem countingConfirmed_secretOf (g : Nat) : countingConfirmed.secretOf g = g := by
  induction g with
  | zero => rfl
  | succ g ih => exact congrArg (· + 1) ih

theorem countingConfirmed_keysOf (g : Nat) : countingConfirmed.keysOf g = countingKeys g := by
  cases g with
  | zero => rfl
  | succ g => exact congrArg (fun k : Nat => countingKeys (k + 1)) (countingConfirmed_secretOf g)

/-- A packet opens under the key with its generation. -/
def countingSealing : Sealing countingConfirmed where
  generation p := some p.gen
  opens_iff := by
    intro p g
    rw [countingConfirmed_keysOf]
    change (if g = p.gen then some () else none).isSome = true ↔ _
    split_ifs with heq
    · simp [heq]
    · simp [Ne.symm heq]

/-- The peer updates once. -/
def oneUpdate : List (KuEvent countingSuite) :=
  [.peerSends 0, .delivers ⟨0, 0⟩ ⟨0, 0⟩, .acknowledges ⟨0, 0⟩, .peerUpdates, .peerSends 1,
    .delivers ⟨1, 1⟩ ⟨1, 1⟩, .sends (), .ticks 0 3 1]

/-- What is received after one update. -/
theorem oneUpdate_received :
    Receives countingSealing (oneUpdate.foldl KuSystem.step (.start countingConfirmed)) ∧
      (srvloopRecvOnertt (oneUpdate.foldl KuSystem.step (.start countingConfirmed)).server
        (⟨5, 0⟩ : KuPacket)).2 = none := by
  have hfirst : (⟨0, 0⟩ : KuPacket) ∈ [(⟨0, 0⟩ : KuPacket)] := mem_singleton.mpr rfl
  constructor
  · refine (keyUpdate_reception countingConfirmed countingSealing oneUpdate).1 ?_
    exact ⟨⟨le_refl 0, by decide⟩, ⟨hfirst, rfl, rfl⟩, hfirst, ⟨_, hfirst, rfl⟩,
      ⟨le_refl 1, by decide⟩, ⟨mem_cons_self, rfl, rfl⟩, trivial, trivial, trivial⟩
  · refine (keyUpdate_reception countingConfirmed countingSealing oneUpdate).2 ?_ rfl
      ⟨5, 0⟩ _ ⟨rfl, ?_⟩ rfl ⟨1, 1⟩ mem_cons_self (by decide) (by decide)
    · exact ⟨trivial, (Sealing.Carries.sealedAs ⟨rfl, rfl⟩), trivial, trivial, trivial,
        (Sealing.Carries.sealedAs ⟨rfl, rfl⟩), trivial, trivial, trivial⟩
    · intro h hpeek
      cases hpeek
      rfl

end Wired.Server
