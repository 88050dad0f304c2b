import Wired.Transport.PacketNumber
import Wired.Transport.SeenTable
import Wired.Transport.Varint

/-!
# Address validation tokens

`newtoken.c` and `srvrun_newtok_ok`: a token carries the time it was issued at, a nonce and a MAC
over both and the address it was issued to. It is accepted for seven days, and once: its nonce is
checked against the table of `zerortt_seen.c` with a lifetime of one second more than the token
has (`firstUses_apart`; `newtokOk_once_of_secs` for every clock in seconds).

SHA-256 and HMAC are parameters: a collision of two nonces only refuses one of them.
-/

namespace Wired.Server

open Bytes Lib Transport

def tokenTagNewtoken : UInt8 := 0x02

def newtokenNonce : Nat := 16

def newtokenMacLen : Nat := 32

def newtokenWireLen : Nat := 8 + newtokenNonce + newtokenMacLen

def newtokenMaxAgeSecs : UInt64 := 7 * 24 * 3600

/-- The lifetime that the table is asked for. -/
def newtokenSeenLife : UInt64 := newtokenMaxAgeSecs + 1

structure TokenHashes where
  sha256 : List UInt8 → Vector UInt8 32
  hmacSha256 : List UInt8 → List UInt8 → Vector UInt8 32

section

variable (H : TokenHashes)

def newtokenBuildMsg (addr : List UInt8) (issuedAt : UInt64) (nonce : List UInt8) : List UInt8 :=
  if addr.length + 8 + newtokenNonce > 64 then []
  else addr ++ beBytes 8 issuedAt.toNat ++ nonce

def newtokenMac (key addr : List UInt8) (issuedAt : UInt64) (nonce : List UInt8) :
    Vector UInt8 32 :=
  H.hmacSha256 key (newtokenBuildMsg addr issuedAt nonce)

def withinLifetime (issuedAt nowSecs : UInt64) : Bool :=
  if nowSecs < issuedAt then false else nowSecs - issuedAt ≤ newtokenMaxAgeSecs

def tokenIssuedAt (token : List UInt8) : UInt64 := UInt64.ofNat (readBe (token.take 8))

def tokenNonce (token : List UInt8) : List UInt8 := (token.drop 8).take newtokenNonce

def macOk (key addr : List UInt8) (issuedAt : UInt64) (token : List UInt8) : Bool :=
  ctDiff (newtokenMac H key addr issuedAt (tokenNonce token)).toList
    ((token.drop (8 + newtokenNonce)).take newtokenMacLen) = 0

def newtokenValid (key addr token : List UInt8) (nowSecs : UInt64) : Bool :=
  token.length = newtokenWireLen && withinLifetime (tokenIssuedAt token) nowSecs &&
    macOk H key addr (tokenIssuedAt token) token

/-- The time and the nonce of a token that is accepted. -/
def newtokenWireVerify (key addr token : List UInt8) (nowSecs : UInt64) :
    Option (UInt64 × List UInt8) :=
  if !newtokenValid H key addr token nowSecs then none
  else some (tokenIssuedAt token, tokenNonce token)

/-- The address without its port, and the version. -/
def srvrunNewtokBind (addr : Vector UInt8 16) (version : UInt32) : List UInt8 :=
  addr.toList ++ beBytes 4 version.toNat

def srvrunNewtokTagged (token : List UInt8) : Bool := token.head? = some tokenTagNewtoken

/-- One call of `srvrun_newtok_ok`; `spin` is whether the lock of the table was had. -/
structure NewtokCall where
  key : List UInt8
  addr : Vector UInt8 16
  version : UInt32
  token : List UInt8
  now : UInt64
  spin : Bool

/-- A tagged token that verifies, and whose nonce is new. -/
def srvrunNewtokOk (s : ZerorttSeen) (c : NewtokCall) : ZerorttSeen × Bool :=
  if !srvrunNewtokTagged c.token then (s, false)
  else
    match newtokenWireVerify H c.key (srvrunNewtokBind c.addr c.version) (c.token.drop 1) c.now with
    | none => (s, false)
    | some (_, nonce) =>
      zerorttSeenCheckLive H.sha256 newtokenSeenLife s
        { identity := nonce, now := c.now, spin := c.spin }

end

/-! ## Accepted once -/

/-- The check of the nonce. -/
def NewtokCall.check (c : NewtokCall) : SeenCheck where
  identity := tokenNonce (c.token.drop 1)
  now := c.now
  spin := c.spin

/-- A call is refused before it comes to the table, or has a live token and is that check. -/
theorem srvrunNewtokOk_cases (H : TokenHashes) (s : ZerorttSeen) (c : NewtokCall) :
    srvrunNewtokOk H s c = (s, false) ∨
      (withinLifetime (tokenIssuedAt (c.token.drop 1)) c.now = true ∧
        srvrunNewtokOk H s c = zerorttSeenCheckLive H.sha256 newtokenSeenLife s c.check) := by
  unfold srvrunNewtokOk newtokenWireVerify
  split
  · exact .inl rfl
  · split
    · exact .inl rfl
    · rename_i hverify
      split at hverify
      · cases hverify
      rename_i hvalid
      cases hverify
      refine .inr ⟨?_, rfl⟩
      simp only [newtokenValid, Bool.not_eq_true', Bool.not_eq_false, Bool.and_eq_true] at hvalid
      exact hvalid.1.2

theorem withinLifetime_le {issuedAt now : UInt64} (h : withinLifetime issuedAt now = true) :
    issuedAt.toNat ≤ now.toNat ∧ now.toNat ≤ issuedAt.toNat + newtokenMaxAgeSecs.toNat := by
  unfold withinLifetime at h
  split at h
  · cases h
  rename_i hlt
  have hle : issuedAt.toNat ≤ now.toNat :=
    Nat.le_of_not_lt fun hlt' => hlt (UInt64.lt_iff_toNat_lt.mpr hlt')
  have hage := UInt64.le_iff_toNat_le.mp (of_decide_eq_true h)
  rw [UInt64.toNat_sub_of_le _ _ (UInt64.le_iff_toNat_le.mpr hle)] at hage
  omega

/-- Not both calls accept, if they have the same token. -/
def AcceptedOnce (a b : NewtokCall × Bool) : Prop :=
  a.1.token = b.1.token → a.2 = true → b.2 = false

/-- The table remembers the nonces of the calls so far; every accepted one had a live token. -/
structure TokensSeen (H : TokenHashes) (past : List (NewtokCall × Bool)) (s : ZerorttSeen) :
    Prop where
  remembers : Remembers H.sha256 newtokenSeenLife (past.map fun b => (b.1.check, b.2)) s
  live : ∀ b ∈ past, b.2 = true →
    withinLifetime (tokenIssuedAt (b.1.token.drop 1)) b.1.now = true

theorem TokensSeen.step {H : TokenHashes} {past : List (NewtokCall × Bool)} {s : ZerorttSeen}
    (h : TokensSeen H past s) {a : NewtokCall} (hclock : ∀ b ∈ past, b.1.now ≤ a.now)
    (hwrap : NoWrap newtokenSeenLife a.check) :
    TokensSeen H (past ++ [(a, (srvrunNewtokOk H s a).2)]) (srvrunNewtokOk H s a).1 ∧
      ∀ b ∈ past, AcceptedOnce b (a, (srvrunNewtokOk H s a).2) := by
  have hlive : ∀ first : Bool,
      (first = true → withinLifetime (tokenIssuedAt (a.token.drop 1)) a.now = true) →
      ∀ b ∈ past ++ [(a, first)], b.2 = true →
        withinLifetime (tokenIssuedAt (b.1.token.drop 1)) b.1.now = true := by
    intro first hlast
    rw [List.forall_mem_append, List.forall_mem_singleton]
    exact ⟨h.live, hlast⟩
  rcases srvrunNewtokOk_cases H s a with hrefused | ⟨hage, hcheck⟩
  · rw [hrefused]
    refine ⟨⟨?_, hlive false nofun⟩, ?_⟩
    · rw [List.map_append]
      exact h.remembers.refuse a.check
    · intro b _ _ _
      rfl
  · rw [hcheck]
    have hbefore : ∀ b ∈ past.map fun b => (b.1.check, b.2), b.1.now ≤ a.check.now := by
      intro b hb
      obtain ⟨c, hc, rfl⟩ := List.mem_map.mp hb
      exact hclock c hc
    obtain ⟨hnext, hapart⟩ := h.remembers.step hbefore hwrap
    generalize zerorttSeenCheckLive H.sha256 newtokenSeenLife s a.check = out at hnext hapart ⊢
    refine ⟨⟨?_, hlive out.2 fun _ => hage⟩, ?_⟩
    · rw [List.map_append]
      exact hnext
    · intro b hb (hsame : b.1.token = a.token) hfirst
      by_contra hsecond
      have hagain : out.2 = true := Bool.eq_true_of_not_eq_false hsecond
      have hnonce : b.1.check.identity = a.check.identity := by
        rw [NewtokCall.check, NewtokCall.check, hsame]
      have hlife := hapart _ (List.mem_map_of_mem hb) hnonce hfirst hagain
      have hold := withinLifetime_le (h.live b hb hfirst)
      have hnow := withinLifetime_le hage
      rw [hsame] at hold
      have hone : newtokenSeenLife.toNat = newtokenMaxAgeSecs.toNat + 1 := by decide
      simp only [NewtokCall.check] at hlife
      omega

/-- **A token is accepted once**, whatever is presented in between. -/
theorem newtokOk_once (H : TokenHashes) (entry : Nat → SeenEntry) {calls : List NewtokCall}
    (hcalls : calls.Pairwise fun a b => a.now ≤ b.now)
    (hwrap : ∀ c ∈ calls, NoWrap newtokenSeenLife c.check) :
    (answers (srvrunNewtokOk H) (zerorttSeenInit entry) calls).Pairwise AcceptedOnce := by
  have hstart : TokensSeen H [] (zerorttSeenInit entry) := ⟨remembers_init entry, by simp⟩
  exact answers_pairwise (J := TokensSeen H)
    (fun past s a hs hbefore ha => hs.step hbefore ha) hstart hcalls hwrap

/-- The same for every clock in seconds. -/
theorem newtokOk_once_of_secs (H : TokenHashes) (entry : Nat → SeenEntry) {calls : List NewtokCall}
    (hcalls : calls.Pairwise fun a b => a.now ≤ b.now) (hsecs : ∀ c ∈ calls, c.now.toNat < 2 ^ 63) :
    (answers (srvrunNewtokOk H) (zerorttSeenInit entry) calls).Pairwise AcceptedOnce :=
  newtokOk_once H entry hcalls fun c hc => noWrap_of_secs (by decide) (hsecs c hc)

/-- With clocks that do not go back and whose sum with the lifetime does not wrap: two first uses of
one identity are a lifetime apart, and a token is accepted once. -/
theorem firstUses_apart (sha256 : List UInt8 → Vector UInt8 32) (life : UInt64)
    (entry : Nat → SeenEntry) (checks : List SeenCheck)
    (hclock : checks.Pairwise fun a b => a.now ≤ b.now) (hwrap : ∀ c ∈ checks, NoWrap life c)
    (H : TokenHashes) (calls : List NewtokCall)
    (hcalls : calls.Pairwise fun a b => a.now ≤ b.now)
    (hcallsWrap : ∀ c ∈ calls, NoWrap newtokenSeenLife c.check) :
    (answers (zerorttSeenCheckLive sha256 life) (zerorttSeenInit entry) checks).Pairwise
        (LifeApart life) ∧
      (answers (srvrunNewtokOk H) (zerorttSeenInit entry) calls).Pairwise AcceptedOnce := by
  constructor
  · exact checkLive_apart sha256 life entry hclock hwrap
  · exact newtokOk_once H entry hcalls hcallsWrap

/-- A stand-in for the hash that keeps short identities apart. -/
def padded (identity : List UInt8) : Vector UInt8 32 := Vector.ofFn fun i => identity.getD i 0

def seenZero : Nat → SeenEntry := fun _ => ⟨Vector.replicate 32 0, 0⟩

/-- A hash that pads, and a MAC that is always zero. -/
def plainHashes : TokenHashes where
  sha256 := padded
  hmacSha256 := fun _ _ => Vector.replicate 32 0

/-- The same token at any time. -/
def tokenCall (now : UInt64) : NewtokCall where
  key := []
  addr := Vector.replicate 16 1
  version := 1
  token := tokenTagNewtoken :: (beBytes 8 100 ++ List.replicate 15 0 ++ [1] ++ List.replicate 32 0)
  now := now
  spin := true

/-- Three checks and three calls: the second use of an identity and of a token is refused. -/
theorem firstUses_apart_thrice :
    (answers (zerorttSeenCheckLive padded 21) (zerorttSeenInit seenZero)
        [⟨[1], 100, true⟩, ⟨[2], 105, true⟩, ⟨[1], 110, true⟩]).Pairwise (LifeApart 21) ∧
      (answers (srvrunNewtokOk plainHashes) (zerorttSeenInit seenZero)
        [tokenCall 100, tokenCall 200, tokenCall 300]).Pairwise AcceptedOnce :=
  firstUses_apart padded 21 seenZero [⟨[1], 100, true⟩, ⟨[2], 105, true⟩, ⟨[1], 110, true⟩]
    (by decide) (by decide) plainHashes [tokenCall 100, tokenCall 200, tokenCall 300]
    (by decide) (by decide)

end Wired.Server
