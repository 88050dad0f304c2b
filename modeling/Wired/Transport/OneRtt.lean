import Wired.Transport.PacketNumber

/-!
# 1-RTT packets

`onertt.c` seals a payload behind a short header and masks the header with a sample of the
ciphertext; `unprotect.c` takes the mask away in place, learns from the first byte how long the
packet number is, recovers the number and opens the rest. The ciphers are arguments (`Aead`): of
them it is known that opening inverts sealing and how long the results are.

An access outside the packet is the result `none` of `readAt` or `writeAt`. `onertt_protection`
says that opening never makes one, and that it returns the payload of a packet that was built if
the packet number lies in the window of `pnumDecode_bytes_iff`; `firstPacket_lost` is outside of it.
-/

namespace Wired.Transport

open Lib List Option

/-! ## The packet in memory -/

def readAt (pkt : List UInt8) (off len : Nat) : Option (List UInt8) :=
  if off + len ≤ pkt.length then some ((pkt.drop off).take len) else none

def writeAt (pkt : List UInt8) (off : Nat) (bytes : List UInt8) : Option (List UInt8) :=
  if off + bytes.length ≤ pkt.length then
    some (pkt.take off ++ bytes ++ pkt.drop (off + bytes.length))
  else none

def xorBytes (bytes mask : List UInt8) : List UInt8 := List.zipWith (· ^^^ ·) bytes mask

/-! ## Suites -/

/-- The suites of TLS 1.3. -/
inductive CipherSuite where
  | aes128GcmSha256
  | aes256GcmSha384
  | chacha20Poly1305Sha256
deriving DecidableEq, Repr

/-- The row of the tables for a suite of the wire. -/
def suiteRow (suite : Nat) : Option CipherSuite :=
  if suite = 0x1301 then some .aes128GcmSha256
  else if suite = 0x1302 then some .aes256GcmSha384
  else if suite = 0x1303 then some .chacha20Poly1305Sha256
  else none

def aeadTagLen : Nat := 16

/-- Key, nonce and associated data come first. -/
structure Aead where
  sealed : List UInt8 → List UInt8 → List UInt8 → List UInt8 → List UInt8
  opened : List UInt8 → List UInt8 → List UInt8 → List UInt8 → Option (List UInt8)
  /-- The five bytes for a key and a sample. -/
  mask : List UInt8 → List UInt8 → List UInt8
  sealed_length : ∀ key nonce aad pt, (sealed key nonce aad pt).length = pt.length + aeadTagLen
  opened_length : ∀ {key nonce aad ct pt}, opened key nonce aad ct = some pt →
    ct.length = pt.length + aeadTagLen
  opened_sealed : ∀ key nonce aad pt, opened key nonce aad (sealed key nonce aad pt) = some pt
  mask_length : ∀ key sample, (mask key sample).length = 5

structure InitialKeys where
  key : List UInt8
  iv : List UInt8
  hp : List UInt8

/-- The number is added into the low eight bytes. -/
def suiteNonce (iv : List UInt8) (pn : Nat) : List UInt8 :=
  xorBytes iv (List.replicate 4 0 ++ pnumEncode pn 8)

/-! ## Building -/

structure OnerttDesc where
  dcid : List UInt8
  pn : Nat
  payload : List UInt8
  phaseBit : Nat
  spin : Bool
  clearQuicBit : Bool

def keyphaseSet (byte0 : UInt8) (phase : Nat) : UInt8 :=
  byte0 &&& ~~~(0x04 : UInt8) ||| UInt8.ofNat (phase % 2 * 4)

def spinSet (byte0 : UInt8) (spin : Bool) : UInt8 :=
  if spin then byte0 &&& ~~~0x20 ||| 0x20 else byte0 &&& ~~~0x20

def greasebitApply (byte0 : UInt8) (clear : Bool) : UInt8 :=
  if clear then byte0 &&& ~~~0x40 else byte0 ||| 0x40

/-- `ONERTT_BYTE0` with the bits of the packet. -/
def onerttByte0 (d : OnerttDesc) : UInt8 :=
  greasebitApply (spinSet (keyphaseSet 0x43 d.phaseBit) d.spin) d.clearQuicBit

def onerttPn (d : OnerttDesc) : List UInt8 :=
  (List.range 4).map fun i => UInt8.ofNat (d.pn / 2 ^ (8 * (3 - i)))

def buildShortHeader (d : OnerttDesc) : List UInt8 := onerttByte0 d :: (d.dcid ++ onerttPn d)

def hpShortMask : UInt8 := 0x1f

/-- The header with `mask` over byte 0 and the packet number, and the sealed payload. -/
def hpApply (mask : List UInt8) (d : OnerttDesc) (ct : List UInt8) : List UInt8 :=
  (onerttByte0 d ^^^ (mask.headD 0 &&& hpShortMask)) ::
    (d.dcid ++ (xorBytes (onerttPn d) (mask.drop 1) ++ ct))

section

variable (prim : CipherSuite → Aead)

/-- The protected packet, if it fits in `cap` bytes. -/
def hspktOnerttBuildSuite (suite cap : Nat) (k : InitialKeys) (d : OnerttDesc) :
    Option (List UInt8) :=
  (suiteRow suite).bind fun row =>
    if (buildShortHeader d).length + d.payload.length + aeadTagLen > cap then none
    else
      let ct := (prim row).sealed k.key (suiteNonce k.iv d.pn) (buildShortHeader d) d.payload
      some (hpApply ((prim row).mask k.hp (ct.take 16)) d ct)

/-! ## Opening -/

/-- The packet as it is left, and the payload if it was opened. -/
structure Opened where
  pkt : List UInt8
  payload : Option (List UInt8)
deriving DecidableEq

def hpSampleOffset (pnOff : Nat) : Nat := pnOff + 4

def hpSampleOk (packetLen sampleOffset : Nat) : Bool := sampleOffset + 16 ≤ packetLen

/-- The plaintext over the ciphertext, as `*payload` shows it. -/
def storePlain (pkt : List UInt8) (hdrLen : Nat) (pt : List UInt8) : Option Opened := do
  let pkt ← writeAt pkt hdrLen pt
  let payload ← readAt pkt hdrLen (pkt.length - hdrLen - aeadTagLen)
  some ⟨pkt, some payload⟩

def aeadOpenSuite (row : CipherSuite) (k : InitialKeys) (pkt : List UInt8) (hdrLen pn : Nat) :
    Option Opened := do
  let aad ← readAt pkt 0 hdrLen
  let ct ← readAt pkt hdrLen (pkt.length - hdrLen - aeadTagLen + aeadTagLen)
  match (prim row).opened k.key (suiteNonce k.iv pn) aad ct with
  | none => some ⟨pkt, none⟩
  | some pt => storePlain pkt hdrLen pt

def openPktSuite (row : CipherSuite) (k : InitialKeys) (mask pkt : List UInt8)
    (pnOff largestPn : Nat) : Option Opened := do
  let byte0 ← readAt pkt 0 1
  let pnLen := (byte0.headD 0 &&& 0x03).toNat + 1
  let masked ← readAt pkt pnOff pnLen
  let pkt ← writeAt pkt pnOff (xorBytes masked (mask.drop 1))
  let pn ← readAt pkt pnOff pnLen
  if pkt.length > pnOff + pnLen + aeadTagLen then
    aeadOpenSuite prim row k pkt (pnOff + pnLen) (pnumDecode pn largestPn)
  else some ⟨pkt, none⟩

/-- Byte 0 is unmasked, and then the rest. -/
def unmaskSuite (row : CipherSuite) (k : InitialKeys) (pkt : List UInt8) (pnOff : Nat)
    (bitsMask : UInt8) (largestPn : Nat) : Option Opened := do
  let sample ← readAt pkt (hpSampleOffset pnOff) 16
  let byte0 ← readAt pkt 0 1
  let mask := (prim row).mask k.hp sample
  let pkt ← writeAt pkt 0 (xorBytes byte0 [mask.headD 0 &&& bitsMask])
  openPktSuite prim row k mask pkt pnOff largestPn

def hspktUnprotectSuite (suite : Nat) (k : InitialKeys) (pkt : List UInt8) (pnOff : Nat)
    (bitsMask : UInt8) (largestPn : Nat) : Option Opened :=
  if hpSampleOk pkt.length (hpSampleOffset pnOff) then
    match suiteRow suite with
    | none => some ⟨pkt, none⟩
    | some row => unmaskSuite prim row k pkt pnOff bitsMask largestPn
  else some ⟨pkt, none⟩

/-- The packet after the work in place, and its payload. -/
def hspktOnerttOpenSuite (suite : Nat) (k : InitialKeys) (pkt : List UInt8) (dcidLen : UInt8)
    (largestPn : Nat) : Option Opened :=
  hspktUnprotectSuite prim suite k pkt (1 + dcidLen.toNat) hpShortMask largestPn

end

/-! ## Accesses -/

variable {pkt a b b' c : List UInt8} {off len : Nat}

theorem exists_readAt (h : off + len ≤ pkt.length) :
    ∃ bytes, readAt pkt off len = some bytes ∧ bytes.length = len := by
  refine ⟨_, if_pos h, ?_⟩
  rw [length_take, length_drop]
  omega

theorem exists_writeAt (h : off + b.length ≤ pkt.length) :
    ∃ pkt', writeAt pkt off b = some pkt' ∧ pkt'.length = pkt.length := by
  refine ⟨_, if_pos h, ?_⟩
  rw [length_append, length_append, length_take, length_drop]
  omega

theorem readAt_eq (a b c : List UInt8) (hpkt : pkt = a ++ (b ++ c)) (hoff : off = a.length)
    (hlen : len = b.length) : readAt pkt off len = some b := by
  subst hpkt hoff hlen
  rw [readAt, if_pos (by simp only [length_append]; omega), drop_left, take_left]

theorem writeAt_eq (a b c : List UInt8) (hpkt : pkt = a ++ (b ++ c)) (hoff : off = a.length)
    (hlen : b'.length = b.length) : writeAt pkt off b' = some (a ++ (b' ++ c)) := by
  subst hpkt hoff
  rw [writeAt, if_pos (by simp only [length_append]; omega), hlen, ← length_append,
    ← append_assoc, drop_left, append_assoc a b, take_left, append_assoc]

@[simp] theorem xorBytes_length (a b : List UInt8) :
    (xorBytes a b).length = min a.length b.length := length_zipWith

theorem xorBytes_cancel (h : a.length ≤ b.length) : xorBytes (xorBytes a b) b = a := by
  induction a generalizing b with
  | nil => rfl
  | cons x a ih =>
    cases b with
    | nil => cases h
    | cons y b =>
      have hrest := ih (Nat.le_of_succ_le_succ h)
      simp only [xorBytes, zipWith_cons_cons] at hrest ⊢
      rw [hrest, UInt8.xor_assoc, UInt8.xor_self, UInt8.xor_zero]

/-! ## Every packet -/

section

variable {prim : CipherSuite → Aead} {row : CipherSuite} {k : InitialKeys}

theorem aeadOpenSuite_inside {hdrLen : Nat} (pn : Nat)
    (hroom : hdrLen + aeadTagLen ≤ pkt.length) :
    ∃ r, aeadOpenSuite prim row k pkt hdrLen pn = some r := by
  obtain ⟨aad, haad, -⟩ : ∃ aad, readAt pkt 0 hdrLen = some aad ∧ _ := exists_readAt (by omega)
  obtain ⟨ct, hct, hlen⟩ := exists_readAt (show hdrLen + (pkt.length - hdrLen - aeadTagLen +
    aeadTagLen) ≤ pkt.length by omega)
  simp only [aeadOpenSuite, haad, hct, bind_eq_bind, bind_some]
  split
  · exact ⟨_, rfl⟩
  · rename_i pt hopened
    have hpt := (prim row).opened_length hopened
    obtain ⟨pkt', hwrite, hlen'⟩ := exists_writeAt (b := pt) (show hdrLen + pt.length ≤ pkt.length
      by omega)
    obtain ⟨payload, hread, -⟩ := exists_readAt (show hdrLen + (pkt'.length - hdrLen -
      aeadTagLen) ≤ pkt'.length by omega)
    simp only [storePlain, hwrite, hread, bind_eq_bind, bind_some]
    exact ⟨_, rfl⟩

theorem and_three_le (x : UInt8) : (x &&& 0x03).toNat ≤ 3 := by
  exact Nat.and_le_right

theorem openPktSuite_inside {mask : List UInt8} {pnOff : Nat} (largestPn : Nat)
    (hmask : mask.length = 5) (hroom : pnOff + 20 ≤ pkt.length) :
    ∃ r, openPktSuite prim row k mask pkt pnOff largestPn = some r := by
  obtain ⟨byte0, hbyte0, -⟩ : ∃ b, readAt pkt 0 1 = some b ∧ _ := exists_readAt (by omega)
  have hpnLen := and_three_le (byte0.headD 0)
  simp only [openPktSuite, hbyte0, bind_eq_bind, bind_some]
  generalize (byte0.headD 0 &&& 0x03).toNat = n at hpnLen ⊢
  obtain ⟨masked, hmasked, hlen⟩ := exists_readAt (show pnOff + (n + 1) ≤ pkt.length by omega)
  have hxor : (xorBytes masked (mask.drop 1)).length = n + 1 := by
    rw [xorBytes_length, length_drop]
    omega
  obtain ⟨pkt', hwrite, hlen'⟩ := exists_writeAt (b := xorBytes masked (mask.drop 1))
    (show pnOff + _ ≤ pkt.length by omega)
  obtain ⟨pn, hpn, -⟩ := exists_readAt (show pnOff + (n + 1) ≤ pkt'.length by omega)
  simp only [hmasked, hwrite, hpn, bind_some]
  split
  · exact aeadOpenSuite_inside _ (by omega)
  · exact ⟨_, rfl⟩

/-- Opening makes no access outside the packet, whatever the packet is. -/
theorem hspktOnerttOpenSuite_inside (prim : CipherSuite → Aead) (suite : Nat) (k : InitialKeys)
    (pkt : List UInt8) (dcidLen : UInt8) (largestPn : Nat) :
    ∃ r, hspktOnerttOpenSuite prim suite k pkt dcidLen largestPn = some r := by
  unfold hspktOnerttOpenSuite hspktUnprotectSuite
  split
  · rename_i hsample
    have hroom : 1 + dcidLen.toNat + 4 + 16 ≤ pkt.length := of_decide_eq_true hsample
    split
    · exact ⟨_, rfl⟩
    · rename_i row hrow
      obtain ⟨sample, hread, -⟩ : ∃ b, readAt pkt (hpSampleOffset (1 + dcidLen.toNat)) 16 =
        some b ∧ _ := exists_readAt hroom
      obtain ⟨byte0, hbyte0, hlen⟩ : ∃ b, readAt pkt 0 1 = some b ∧ _ := exists_readAt (by omega)
      simp only [unmaskSuite, hread, hbyte0, bind_eq_bind, bind_some]
      generalize ((prim row).mask k.hp sample).headD 0 &&& hpShortMask = x
      have hxor : (xorBytes byte0 [x]).length = 1 := by
        rw [xorBytes_length, hlen]
        rfl
      obtain ⟨pkt', hwrite, hlen'⟩ := exists_writeAt (b := xorBytes byte0 [x])
        (show 0 + _ ≤ pkt.length by omega)
      rw [hwrite, bind_some]
      exact openPktSuite_inside _ ((prim row).mask_length _ _) (by omega)
  · exact ⟨_, rfl⟩

/-! ## A packet that was built -/

theorem onerttPn_eq (d : OnerttDesc) : onerttPn d = pnumEncode d.pn 4 := by
  have hmod : ∀ n, UInt8.ofNat (n % 2 ^ 8) = UInt8.ofNat n := by
    intro n
    rw [← UInt8.toNat_inj, UInt8.toNat_ofNat', UInt8.toNat_ofNat', Nat.mod_mod]
  simp only [onerttPn, pnumEncode, hmod, Nat.div_div_eq_div_mul, ← pow_add, nil_append, cons_append]
  simp [range_succ]

/-- The two low bits of byte 0 say that the packet number has four bytes. -/
theorem onerttByte0_len (d : OnerttDesc) : (onerttByte0 d &&& 0x03).toNat + 1 = 4 := by
  have hbits : ∀ p < 2, ∀ spin clear, (greasebitApply (spinSet (0x43 &&& ~~~(0x04 : UInt8) |||
      UInt8.ofNat (p * 4)) spin) clear &&& 0x03).toNat + 1 = 4 := by decide
  exact hbits _ (Nat.mod_lt _ (by decide)) d.spin d.clearQuicBit

theorem aeadOpenSuite_sealed {hdr pt ct : List UInt8} {pn : Nat}
    (hct : ct = (prim row).sealed k.key (suiteNonce k.iv pn) hdr pt) :
    aeadOpenSuite prim row k (hdr ++ ct) hdr.length pn =
      some ⟨hdr ++ (pt ++ ct.drop pt.length), some pt⟩ := by
  have hlen : ct.length = pt.length + aeadTagLen := hct ▸ (prim row).sealed_length ..
  have hopened : (prim row).opened k.key (suiteNonce k.iv pn) hdr ct = some pt :=
    hct ▸ (prim row).opened_sealed ..
  have haad : readAt (hdr ++ ct) 0 hdr.length = some hdr := readAt_eq [] hdr ct rfl rfl rfl
  have hread : readAt (hdr ++ ct) hdr.length
      ((hdr ++ ct).length - hdr.length - aeadTagLen + aeadTagLen) = some ct :=
    readAt_eq hdr ct [] (by rw [append_nil]) rfl (by rw [length_append]; omega)
  have hwrite : writeAt (hdr ++ ct) hdr.length pt = some (hdr ++ (pt ++ ct.drop pt.length)) :=
    writeAt_eq hdr (ct.take pt.length) _ (by rw [take_append_drop]) rfl
      (by rw [length_take]; omega)
  have hpayload : readAt (hdr ++ (pt ++ ct.drop pt.length)) hdr.length
      ((hdr ++ (pt ++ ct.drop pt.length)).length - hdr.length - aeadTagLen) = some pt :=
    readAt_eq hdr pt _ rfl rfl (by simp only [length_append, length_drop]; omega)
  simp only [aeadOpenSuite, storePlain, haad, hread, hopened, hwrite, hpayload,
    bind_eq_bind, bind_some]

section

variable {byte0 : UInt8} {dcid pn ct : List UInt8}

theorem readAt_byte0 : readAt (byte0 :: c) 0 1 = some [byte0] := readAt_eq [] [byte0] c rfl rfl rfl

theorem writeAt_byte0 {x : UInt8} : writeAt (byte0 :: c) 0 [x] = some (x :: c) :=
  writeAt_eq [] [byte0] c rfl rfl rfl

theorem readAt_pn (hlen : pn.length = len) :
    readAt (byte0 :: (dcid ++ (pn ++ c))) (1 + dcid.length) len = some pn :=
  readAt_eq (byte0 :: dcid) pn c rfl (add_comm ..) hlen.symm

theorem writeAt_pn (hlen : b'.length = pn.length) :
    writeAt (byte0 :: (dcid ++ (pn ++ c))) (1 + dcid.length) b' =
      some (byte0 :: (dcid ++ (b' ++ c))) :=
  writeAt_eq (byte0 :: dcid) pn c rfl (add_comm ..) hlen

theorem readAt_sample (hpn : pn.length = 4) (hct : 16 ≤ ct.length) :
    readAt (byte0 :: (dcid ++ (pn ++ ct))) (1 + dcid.length + 4) 16 = some (ct.take 16) := by
  refine readAt_eq (byte0 :: (dcid ++ pn)) (ct.take 16) (ct.drop 16) ?_ ?_ ?_
  · rw [take_append_drop, cons_append, append_assoc]
  · rw [length_cons, length_append, hpn]
    omega
  · rw [length_take, Nat.min_eq_left hct]

end

/-- The window in which a packet number of four bytes is recovered. -/
def InWindow (pn largestPn : Nat) : Prop :=
  largestPn + 1 < pn + 2 ^ 31 ∧ (pn ≤ largestPn + 1 + 2 ^ 31 ∨ pn < 2 ^ 32)
deriving Decidable

variable {d : OnerttDesc} {mask ct : List UInt8} {largestPn : Nat}

theorem buildShortHeader_length : (buildShortHeader d).length = 1 + d.dcid.length + 4 := by
  rw [buildShortHeader, length_cons, length_append]
  show d.dcid.length + 4 + 1 = _
  omega

theorem openPktSuite_built (hmask : mask.length = 5) (hpn : d.pn < 2 ^ 62)
    (hlargest : largestPn < 2 ^ 62) (hwin : InWindow d.pn largestPn) (hpayload : d.payload ≠ [])
    (hct : ct = (prim row).sealed k.key (suiteNonce k.iv d.pn) (buildShortHeader d) d.payload) :
    openPktSuite prim row k mask
        (onerttByte0 d :: (d.dcid ++ (xorBytes (onerttPn d) (mask.drop 1) ++ ct)))
        (1 + d.dcid.length) largestPn =
      some ⟨buildShortHeader d ++ (d.payload ++ ct.drop d.payload.length), some d.payload⟩ := by
  have hfour : (onerttPn d).length = 4 := rfl
  have hrest : (mask.drop 1).length = 4 := by rw [length_drop, hmask]
  have hxor : (xorBytes (onerttPn d) (mask.drop 1)).length = 4 := by
    rw [xorBytes_length, hfour, hrest]
    rfl
  have hunmask : xorBytes (xorBytes (onerttPn d) (mask.drop 1)) (mask.drop 1) = onerttPn d :=
    xorBytes_cancel (Nat.le_of_eq (hfour.trans hrest.symm))
  have hdecode : pnumDecode (onerttPn d) largestPn = d.pn := by
    rw [onerttPn_eq]
    exact (pnumDecode_bytes_iff (by decide) (by decide) hpn hlargest).mpr hwin
  have hwhole : onerttByte0 d :: (d.dcid ++ (onerttPn d ++ ct)) = buildShortHeader d ++ ct := by
    rw [buildShortHeader, cons_append, append_assoc]
  have hroom : (buildShortHeader d ++ ct).length > 1 + d.dcid.length + 4 + aeadTagLen := by
    have hpos := length_pos_iff.mpr hpayload
    rw [length_append, buildShortHeader_length, hct, (prim row).sealed_length]
    omega
  simp only [openPktSuite, readAt_byte0, headD_cons, onerttByte0_len, readAt_pn hxor, hunmask,
    writeAt_pn (hfour.trans hxor.symm), readAt_pn hfour, hdecode, bind_eq_bind,
    bind_some]
  rw [hwhole, if_pos hroom, ← buildShortHeader_length, aeadOpenSuite_sealed hct]

/-- A packet that was built is opened by a receiver with the number in its window. -/
theorem hspktOnerttOpenSuite_built {suite cap : Nat} {pkt : List UInt8}
    (hbuild : hspktOnerttBuildSuite prim suite cap k d = some pkt) (hcid : d.dcid.length < 256)
    (hpn : d.pn < 2 ^ 62) (hlargest : largestPn < 2 ^ 62) (hwin : InWindow d.pn largestPn)
    (hpayload : d.payload ≠ []) :
    ∃ pkt', hspktOnerttOpenSuite prim suite k pkt (UInt8.ofNat d.dcid.length) largestPn =
      some ⟨pkt', some d.payload⟩ := by
  obtain ⟨row, hrow, hbuild⟩ := bind_eq_some_iff.mp hbuild
  split at hbuild
  · cases hbuild
  obtain rfl := Option.some.inj hbuild
  generalize hct : (prim row).sealed k.key (suiteNonce k.iv d.pn) (buildShortHeader d) d.payload =
    ct
  have hlen : ct.length = d.payload.length + 16 := hct ▸ (prim row).sealed_length ..
  have hmask := (prim row).mask_length k.hp (ct.take 16)
  have hdcid : (UInt8.ofNat d.dcid.length).toNat = d.dcid.length := UInt8.toNat_ofNat_of_lt' hcid
  generalize hmask' : (prim row).mask k.hp (ct.take 16) = mask at *
  have hxor : (xorBytes (onerttPn d) (mask.drop 1)).length = 4 := by
    rw [xorBytes_length, length_drop, hmask]
    rfl
  have hok : hpSampleOk (hpApply mask d ct).length (1 + d.dcid.length + 4) = true := by
    simp only [hpApply, length_cons, length_append, hxor, hlen]
    exact decide_eq_true (by omega)
  have hunmask : xorBytes [onerttByte0 d ^^^ (mask.headD 0 &&& hpShortMask)]
      [mask.headD 0 &&& hpShortMask] = [onerttByte0 d] :=
    xorBytes_cancel (a := [onerttByte0 d]) (b := [mask.headD 0 &&& hpShortMask]) (Nat.le_refl 1)
  rw [hspktOnerttOpenSuite, hspktUnprotectSuite, hdcid, hpSampleOffset, if_pos hok, hrow]
  simp only [unmaskSuite, hpSampleOffset, hpApply, readAt_sample hxor (by omega : 16 ≤ ct.length),
    readAt_byte0, hmask', hunmask, writeAt_byte0, bind_eq_bind, bind_some]
  exact ⟨buildShortHeader d ++ (d.payload ++ ct.drop d.payload.length),
    openPktSuite_built hmask hpn hlargest hwin hpayload hct.symm⟩

end

/-- The payload of every packet that was built comes back at a receiver in whose window the packet
number lies, and opening makes no access outside the packet, whatever was received. -/
theorem onertt_protection (prim : CipherSuite → Aead) (suite : Nat) (k : InitialKeys) :
    (∀ cap d pkt largestPn, hspktOnerttBuildSuite prim suite cap k d = some pkt →
      d.dcid.length < 256 → d.pn < 2 ^ 62 → largestPn < 2 ^ 62 → InWindow d.pn largestPn →
      d.payload ≠ [] → ∃ pkt', hspktOnerttOpenSuite prim suite k pkt (UInt8.ofNat d.dcid.length)
        largestPn = some ⟨pkt', some d.payload⟩) ∧
    ∀ pkt dcidLen largestPn, ∃ r,
      hspktOnerttOpenSuite prim suite k pkt dcidLen largestPn = some r :=
  ⟨fun _ _ _ _ hbuild => hspktOnerttOpenSuite_built hbuild,
    hspktOnerttOpenSuite_inside prim suite k⟩

def nonceTag (nonce : List UInt8) : List UInt8 := (nonce ++ List.replicate 16 0).take 16

theorem nonceTag_length (nonce : List UInt8) : (nonceTag nonce).length = aeadTagLen := by
  rw [nonceTag, length_take, length_append, length_replicate]
  exact Nat.min_eq_left (Nat.le_add_left 16 _)

/-- A stand-in that only knows the nonce it sealed with. -/
def nonceAead : Aead where
  sealed _ nonce _ pt := pt ++ nonceTag nonce
  opened _ nonce _ ct :=
    if aeadTagLen ≤ ct.length ∧ ct.drop (ct.length - aeadTagLen) = nonceTag nonce then
      some (ct.take (ct.length - aeadTagLen)) else none
  mask _ _ := [0x1f, 1, 2, 3, 4]
  sealed_length _ nonce _ pt := by rw [length_append, nonceTag_length]
  opened_length h := by
    split at h
    · cases h
      rw [length_take]
      omega
    · cases h
  opened_sealed _ nonce _ pt := by
    have hlen : (pt ++ nonceTag nonce).length - aeadTagLen = pt.length := by
      rw [length_append, nonceTag_length, Nat.add_sub_cancel]
    rw [hlen, drop_left, take_left, if_pos]
    exact ⟨by rw [length_append, nonceTag_length]; omega, rfl⟩
  mask_length _ _ := rfl

/-- Keys for the cipher above. -/
def nonceKeys : InitialKeys := ⟨[], List.replicate 12 0, []⟩

def firstPacket : OnerttDesc := ⟨[0xaa], 0, [1], 1, true, false⟩

/-- The packet before its header is masked, and after the mask is taken off. -/
def firstPacketPlain : List UInt8 := [0x67, 0xaa, 0, 0, 0, 0, 1] ++ List.replicate 16 0

/-- The bytes of packet 0, protected. -/
def firstPacketBytes : List UInt8 := [0x78, 0xaa, 1, 2, 3, 4, 1] ++ List.replicate 16 0

/-- Packet 0 is opened by a receiver that has packet 5. -/
theorem onertt_protection_first :
    hspktOnerttBuildSuite (fun _ => nonceAead) 0x1301 100 nonceKeys firstPacket =
        some firstPacketBytes ∧
      ∃ pkt', hspktOnerttOpenSuite (fun _ => nonceAead) 0x1301 nonceKeys firstPacketBytes 1 5 =
        some ⟨pkt', some [1]⟩ :=
  ⟨by decide, (onertt_protection (fun _ => nonceAead) 0x1301 nonceKeys).1 100 firstPacket
    firstPacketBytes 5 (by decide) (by decide) (by decide) (by decide) (by decide) (by decide)⟩

/-- Packet 0 at a receiver that has packet `2 ^ 31 - 1`, less than half a window ahead: the number
is taken for `2 ^ 32`, and the packet is not opened. -/
theorem firstPacket_lost :
    hspktOnerttBuildSuite (fun _ => nonceAead) 0x1301 100 nonceKeys firstPacket =
        some firstPacketBytes ∧ 2 ^ 31 - 1 < firstPacket.pn + 2 ^ 31 ∧
      hspktOnerttOpenSuite (fun _ => nonceAead) 0x1301 nonceKeys firstPacketBytes 1 (2 ^ 31 - 1) =
        some ⟨firstPacketPlain, none⟩ := by
  refine ⟨by decide, by decide, by decide⟩

end Wired.Transport
